import SpaceWire.Run

namespace SpaceWire.Run

variable {σ α : Type*} (step : σ → α → σ)

/-- An action of the sequence was taken where it starts something, and every later one where it
keeps it up. -/
def HeldSince (S K : σ → α → Prop) (s : σ) (as : List α) : Prop :=
  ∃ before a after, as = before ++ a :: after ∧ S (run step s before) a ∧
    Guarded step K (run step s (before ++ [a])) after

variable {step} {S K G : σ → α → Prop} {P I : σ → Prop} {s : σ}

theorem guarded_concat (as : List α) (a : α) :
    Guarded step G s (as ++ [a]) ↔ Guarded step G s as ∧ G (run step s as) a := by
  constructor
  · exact fun h => ⟨h.take (List.prefix_append as [a]), h as a (List.prefix_refl _)⟩
  · rintro ⟨has, ha⟩ p b hp
    obtain heq | hp := List.prefix_concat_iff.mp hp
    · obtain ⟨rfl, hb⟩ := List.append_inj' heq rfl
      cases hb
      exact ha
    · exact has p b hp

theorem not_heldSince_nil : ¬ HeldSince step S K s [] := by
  rintro ⟨before, a, after, has, -⟩
  simp at has

theorem heldSince_concat (as : List α) (a : α) :
    HeldSince step S K s (as ++ [a]) ↔
      S (run step s as) a ∨ HeldSince step S K s as ∧ K (run step s as) a := by
  constructor
  · rintro ⟨before, b, after, has, hb, hkept⟩
    obtain rfl | ⟨init, c, rfl⟩ := after.eq_nil_or_concat'
    · obtain ⟨rfl, hab⟩ := List.append_inj' has rfl
      cases hab
      exact .inl hb
    · right
      rw [← List.cons_append, ← List.append_assoc] at has
      obtain ⟨rfl, hac⟩ := List.append_inj' has rfl
      cases hac
      obtain ⟨hkept, hlast⟩ := (guarded_concat init a).mp hkept
      rw [← run_append, List.append_assoc] at hlast
      exact ⟨⟨before, b, init, rfl, hb, hkept⟩, hlast⟩
  · rintro (ha | ⟨⟨before, b, after, rfl, hb, hkept⟩, hlast⟩)
    · exact ⟨as, a, [], rfl, ha, fun p b hp => by simp at hp⟩
    · refine ⟨before, b, after ++ [a], by simp, hb, (guarded_concat after a).mpr ⟨hkept, ?_⟩⟩
      rw [← run_append, List.append_assoc]
      exact hlast

/-- What every action either starts, keeps up or ends holds exactly when it has been started
and kept up since. -/
theorem heldSince_iff (h0 : I s) (hnot : ¬ P s) (hI : ∀ s a, I s → I (step s a))
    (hstep : ∀ s a, I s → (P (step s a) ↔ S s a ∨ P s ∧ K s a)) (as : List α) :
    P (run step s as) ↔ HeldSince step S K s as := by
  induction as using List.reverseRecOn with
  | nil => exact iff_of_false hnot not_heldSince_nil
  | append_singleton as a ih =>
    have hi : I (run step s as) := run_keeps h0 fun s a _ => hI s a
    rw [run_concat, hstep _ _ hi, heldSince_concat, ih]

end SpaceWire.Run
