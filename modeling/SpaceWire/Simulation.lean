import SpaceWire.Run

namespace SpaceWire.Run

variable {σ τ α β : Type*} {step : σ → α → σ} {step' : τ → β → τ} {G : σ → α → Prop}
  {L : τ → β → Prop} {C : σ → Prop} {R : σ → τ → Prop} {s : σ} {t : τ} {as : List α}

theorem guarded_nil : Guarded step' L t [] := fun p b hp => by simp at hp

theorem guarded_append {bs cs : List β} (h : Guarded step' L t bs)
    (h' : Guarded step' L (run step' t bs) cs) : Guarded step' L t (bs ++ cs) := by
  induction bs generalizing t with
  | nil => exact h'
  | cons b bs ih =>
    obtain ⟨hb, hbs⟩ := guarded_cons.mp h
    exact guarded_cons.mpr ⟨hb, ih hbs h'⟩

/-- A step of the one machine that is matched by a run of the other. -/
def Matched (step' : τ → β → τ) (L : τ → β → Prop) (R : σ → τ → Prop) (s' : σ) (t : τ) : Prop :=
  ∃ bs, Guarded step' L t bs ∧ R s' (run step' t bs)

theorem matched_nil (h : R s t) : Matched step' L R s t := ⟨[], guarded_nil, h⟩

theorem matched_one {b : β} (hb : L t b) (h : R s (step' t b)) : Matched step' L R s t :=
  ⟨[b], guarded_cons.mpr ⟨hb, guarded_nil⟩, h⟩

theorem Matched.after {bs : List β} (hbs : Guarded step' L t bs)
    (h : Matched step' L R s (run step' t bs)) : Matched step' L R s t := by
  obtain ⟨cs, hcs, hR⟩ := h
  refine ⟨bs ++ cs, guarded_append hbs hcs, ?_⟩
  rwa [run_append]

theorem Matched.mono {R' : σ → τ → Prop} {s' : σ} (h : Matched step' L R s t)
    (hR : ∀ t, R s t → R' s' t) : Matched step' L R' s' t := by
  obtain ⟨bs, hbs, h⟩ := h
  exact ⟨bs, hbs, hR _ h⟩

/-- Forward simulation. Every permitted step is matched by a run; where `C` says that
something irrevocable has not happened, only steps after which it still has not count. -/
theorem run_matched (h0 : R s t) (hC : ∀ s a, G s a → C (step s a) → C s)
    (hstep : ∀ s t a, R s t → G s a → C (step s a) → Matched step' L R (step s a) t)
    (hg : Guarded step G s as) (hc : C (run step s as)) :
    Matched step' L R (run step s as) t := by
  induction as using List.reverseRecOn with
  | nil => exact matched_nil h0
  | append_singleton as a ih =>
    have ha := hg as a (List.prefix_refl _)
    rw [run_concat] at hc ⊢
    obtain ⟨bs, hbs, hR⟩ := ih (hg.take (List.prefix_append as [a])) (hC _ _ ha hc)
    exact .after hbs (hstep _ _ a hR ha hc)

end SpaceWire.Run
