import Mathlib.Data.List.Basic
import Mathlib.Data.List.Infix

namespace SpaceWire.Framing

variable {α : Type*} (isEnd : α → Bool)

/-- A stretch of a stream whose last element, and no other, is an end. -/
def IsFrame (f : List α) : Prop :=
  ∃ body e, f = body ++ [e] ∧ (∀ x ∈ body, isEnd x = false) ∧ isEnd e = true

variable {isEnd} {f g r s : List α} {fs gs : List (List α)}

theorem IsFrame.exists_end (hf : IsFrame isEnd f) : ∃ x ∈ f, isEnd x = true := by
  obtain ⟨body, e, rfl, -, he⟩ := hf
  exact ⟨e, by simp, he⟩

theorem takeWhile_frame {body : List α} {e : α} (hb : ∀ x ∈ body, isEnd x = false)
    (he : isEnd e = true) : (body ++ [e] ++ r).takeWhile (fun x => !isEnd x) = body := by
  rw [List.append_assoc, List.takeWhile_append_of_pos (by simpa using hb)]
  simp [he]

theorem IsFrame.append_inj (hf : IsFrame isEnd f) (hg : IsFrame isEnd g) (h : f ++ r = g ++ s) :
    f = g ∧ r = s := by
  obtain ⟨b, e, rfl, hb, he⟩ := hf
  obtain ⟨b', e', rfl, hb', he'⟩ := hg
  have hbody : b = b' := by
    rw [← takeWhile_frame hb he (r := r), h, takeWhile_frame hb' he']
  subst hbody
  simp only [List.append_assoc, List.append_cancel_left_eq, List.singleton_append,
    List.cons.injEq] at h
  obtain ⟨rfl, rfl⟩ := h
  exact ⟨rfl, rfl⟩

/-- Frames read off the front of a stream of frames with an unfinished tail are its first
frames. -/
theorem prefix_of_flatten_append (hf : ∀ f ∈ fs, IsFrame isEnd f) (hg : ∀ g ∈ gs, IsFrame isEnd g)
    (hs : ∀ x ∈ s, isEnd x = false) (h : fs.flatten ++ r = gs.flatten ++ s) : fs <+: gs := by
  induction fs generalizing gs with
  | nil => exact List.nil_prefix
  | cons f fs ih =>
    have hframe := hf f (by simp)
    cases gs with
    | nil =>
      obtain ⟨x, hx, hend⟩ := hframe.exists_end
      have hmem : x ∈ s := by
        rw [List.flatten_nil, List.nil_append] at h
        rw [← h]
        simp [hx]
      rw [hs x hmem] at hend
      cases hend
    | cons g gs =>
      simp only [List.flatten_cons, List.append_assoc] at h
      obtain ⟨rfl, hrest⟩ := hframe.append_inj (hg g (by simp)) h
      exact List.cons_prefix_cons.mpr
        ⟨rfl, ih (fun x hx => hf x (by simp [hx])) (fun x hx => hg x (by simp [hx])) hrest⟩

end SpaceWire.Framing
