import Mathlib.Data.List.Basic
import Mathlib.Order.Nat

namespace SpaceWire.Waiting

/-- Callers that wait for a count to reach a target, each under a ticket of its own: those
that wait, with their targets, and the tickets that have been released. -/
structure Waiters where
  count : Nat
  waiting : List (Nat × Nat)
  tickets : Nat
  released : List Nat

namespace Waiters

def register (w : Waiters) (target : Nat) : Waiters :=
  { w with waiting := w.waiting ++ [(target, w.tickets)], tickets := w.tickets + 1 }

def advance (w : Waiters) : Waiters :=
  { w with
    count := w.count + 1
    waiting := w.waiting.filter fun x => ¬ x.1 ≤ w.count + 1
    released := w.released ++ (w.waiting.filter fun x => x.1 ≤ w.count + 1).map Prod.snd }

inductive Moves (w : Waiters) : Waiters → Prop
  | stays : Moves w w
  | registers (target : Nat) : Moves w (w.register target)
  | advances : Moves w w.advance

/-- No ticket is in use before it is handed out. -/
structure Issued (w : Waiters) : Prop where
  waiting : ∀ x ∈ w.waiting, x.2 < w.tickets
  released : ∀ ticket ∈ w.released, ticket < w.tickets

/-- The caller with this ticket waits exactly until the count has reached its target. -/
structure Tracks (w : Waiters) (target ticket : Nat) : Prop where
  issued : ticket < w.tickets
  released_iff : ticket ∈ w.released ↔ target ≤ w.count
  waiting_iff : ∀ t, (t, ticket) ∈ w.waiting ↔ t = target ∧ w.count < target

variable {w w' : Waiters} {target ticket : Nat}

theorem Issued.moves (h : Issued w) (hm : Moves w w') : Issued w' := by
  cases hm with
  | stays => exact h
  | registers t =>
    refine ⟨fun x hx => ?_, fun ticket ht => Nat.lt_succ_of_lt (h.released ticket ht)⟩
    obtain hx | hx := List.mem_append.mp hx
    · exact Nat.lt_succ_of_lt (h.waiting x hx)
    · obtain rfl := List.mem_singleton.mp hx
      exact Nat.lt_succ_self _
  | advances =>
    refine ⟨fun x hx => h.waiting x (List.mem_filter.mp hx).1, fun ticket ht => ?_⟩
    obtain ht | ht := List.mem_append.mp ht
    · exact h.released ticket ht
    · obtain ⟨x, hx, rfl⟩ := List.mem_map.mp ht
      exact h.waiting x (List.mem_filter.mp hx).1

theorem Issued.tracks (h : Issued w) (hlt : w.count < target) :
    Tracks (w.register target) target w.tickets := by
  refine ⟨Nat.lt_succ_self _, ?_, fun t => ?_⟩
  · have hnew : w.tickets ∉ w.released := fun ht => absurd (h.released _ ht) (lt_irrefl _)
    simp only [register, hnew, false_iff, not_le]
    exact hlt
  · have hnew : (t, w.tickets) ∉ w.waiting := fun ht => absurd (h.waiting _ ht) (lt_irrefl _)
    simp [register, hnew, hlt]

theorem Tracks.moves (h : Tracks w target ticket) (hm : Moves w w') : Tracks w' target ticket := by
  cases hm with
  | stays => exact h
  | registers t' =>
    refine ⟨Nat.lt_succ_of_lt h.issued, h.released_iff, fun t => ?_⟩
    have hne : ticket ≠ w.tickets := h.issued.ne
    simpa [register, hne] using h.waiting_iff t
  | advances =>
    refine ⟨h.issued, ?_, fun t => ?_⟩
    · have hready : ticket ∈ (w.waiting.filter fun x => x.1 ≤ w.count + 1).map Prod.snd ↔
          w.count < target ∧ target ≤ w.count + 1 := by
        simp only [List.mem_map, List.mem_filter, Prod.exists, decide_eq_true_eq]
        constructor
        · rintro ⟨t, _, ⟨hmem, hle⟩, rfl⟩
          obtain ⟨rfl, hlt⟩ := (h.waiting_iff t).mp hmem
          exact ⟨hlt, hle⟩
        · rintro ⟨hlt, hle⟩
          exact ⟨target, ticket, ⟨(h.waiting_iff target).mpr ⟨rfl, hlt⟩, hle⟩, rfl⟩
      simp only [advance, List.mem_append, h.released_iff, hready]
      omega
    · simp only [advance, List.mem_filter, h.waiting_iff, decide_eq_true_eq, not_le]
      constructor
      · rintro ⟨⟨rfl, -⟩, hlt⟩
        exact ⟨rfl, hlt⟩
      · rintro ⟨rfl, hlt⟩
        exact ⟨⟨rfl, Nat.lt_of_succ_lt hlt⟩, hlt⟩

end Waiters

end SpaceWire.Waiting
