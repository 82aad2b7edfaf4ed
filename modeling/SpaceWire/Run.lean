import Mathlib.Data.List.Basic
import Mathlib.Data.List.Infix

namespace SpaceWire.Run

variable {σ α : Type*} (step : σ → α → σ)

/-- The state a finite sequence of actions leads to. -/
def run (s : σ) (as : List α) : σ := as.foldl step s

/-- `P` holds of every state the sequence visits, the first and the last included. -/
def Always (P : σ → Prop) (s : σ) (as : List α) : Prop :=
  ∀ p, p <+: as → P (run step s p)

/-- Every action of the sequence is taken in a state that permits it. -/
def Guarded (G : σ → α → Prop) (s : σ) (as : List α) : Prop :=
  ∀ p a, p ++ [a] <+: as → G (run step s p) a

@[simp] theorem run_nil (s : σ) : run step s [] = s := rfl

@[simp] theorem run_cons (s : σ) (a : α) (as : List α) :
    run step s (a :: as) = run step (step s a) as := rfl

theorem run_append (s : σ) (as bs : List α) :
    run step s (as ++ bs) = run step (run step s as) bs :=
  List.foldl_append

theorem run_concat (s : σ) (as : List α) (a : α) :
    run step s (as ++ [a]) = step (run step s as) a := by
  rw [run_append, run_cons, run_nil]

variable {step} {P Q I C : σ → Prop} {G H : σ → α → Prop} {s : σ} {as : List α}

theorem Always.last (h : Always step P s as) : P (run step s as) := h as (List.prefix_refl as)

theorem Always.mono (h : Always step P s as) (hPQ : ∀ s, P s → Q s) : Always step Q s as :=
  fun p hp => hPQ _ (h p hp)

theorem Always.head (h : Always step P s as) : P s := h [] List.nil_prefix

theorem always_nil : Always step P s [] ↔ P s := by
  constructor
  · exact Always.head
  · intro h p hp
    rw [List.prefix_nil.mp hp]
    exact h

theorem always_cons {a : α} :
    Always step P s (a :: as) ↔ P s ∧ Always step P (step s a) as := by
  constructor
  · exact fun h => ⟨h.head, fun p hp => h (a :: p) (List.cons_prefix_cons.mpr ⟨rfl, hp⟩)⟩
  · rintro ⟨hs, has⟩ p hp
    cases p with
    | nil => exact hs
    | cons b p =>
      obtain ⟨rfl, hrest⟩ := List.cons_prefix_cons.mp hp
      exact has p hrest

theorem Guarded.mono (h : Guarded step G s as) (hGH : ∀ s a, G s a → H s a) :
    Guarded step H s as := fun p a hp => hGH _ _ (h p a hp)

theorem Guarded.of_forall_mem {L : α → Prop} (h : ∀ a ∈ as, L a) :
    Guarded step (fun _ a => L a) s as :=
  fun p a hp => h a (hp.subset (by simp))

theorem guarded_cons {a : α} :
    Guarded step G s (a :: as) ↔ G s a ∧ Guarded step G (step s a) as := by
  constructor
  · exact fun h => ⟨h [] a (by simp), fun p b hp => h (a :: p) b (by simpa using hp)⟩
  · rintro ⟨ha, has⟩ p b hp
    cases p with
    | nil =>
      obtain ⟨rfl, -⟩ := List.cons_prefix_cons.mp hp
      exact ha
    | cons c p =>
      obtain ⟨rfl, hpb⟩ := List.cons_prefix_cons.mp (List.cons_append ▸ hp)
      exact has p b hpb

instance decidableGuarded [∀ s a, Decidable (G s a)] : ∀ s as, Decidable (Guarded step G s as)
  | _, [] => isTrue fun p a hp => by simp at hp
  | s, a :: as =>
    have := decidableGuarded (step s a) as
    decidable_of_iff _ guarded_cons.symm

theorem Guarded.and (h : Guarded step G s as) (h' : Guarded step H s as) :
    Guarded step (fun s a => G s a ∧ H s a) s as := fun p a hp => ⟨h p a hp, h' p a hp⟩

theorem Always.guarded (h : Always step P s as) :
    Guarded step (fun s a => P (step s a)) s as := by
  intro p a hp
  rw [← run_concat step s p a]
  exact h _ hp

instance decidableAlways [∀ s, Decidable (P s)] : ∀ s as, Decidable (Always step P s as)
  | _, [] => decidable_of_iff _ always_nil.symm
  | s, a :: as =>
    have := decidableAlways (step s a) as
    decidable_of_iff _ always_cons.symm

theorem Guarded.take {p : List α} (h : Guarded step G s as) (hp : p <+: as) :
    Guarded step G s p := fun q a hq => h q a (hq.trans hp)

/-- What every action of the sequence keeps holds at its end. -/
theorem run_keeps (h0 : I s) (hstep : ∀ s, ∀ a ∈ as, I s → I (step s a)) :
    I (run step s as) := by
  induction as generalizing s with
  | nil => exact h0
  | cons a as ih =>
    exact ih (hstep s a (by simp) h0) fun s b hb => hstep s b (List.mem_cons_of_mem a hb)

theorem run_related {R : σ → σ → Prop} (hrefl : ∀ s, R s s)
    (htrans : ∀ {s t u}, R s t → R t u → R s u) (hstep : ∀ s a, R s (step s a)) (s : σ)
    (as : List α) : R s (run step s as) := by
  induction as generalizing s with
  | nil => exact hrefl s
  | cons a as ih => exact htrans (hstep s a) (ih (step s a))

/-- The invariant rule: what holds at the start and survives every permitted action
holds in every state of the run. -/
theorem always_of_guarded (h0 : I s) (hstep : ∀ s a, I s → G s a → I (step s a))
    (hg : Guarded step G s as) : Always step I s as := by
  intro p
  induction p using List.reverseRecOn with
  | nil => exact fun _ => h0
  | append_singleton p a ih =>
    intro hp
    rw [run_concat]
    exact hstep _ _ (ih ((List.prefix_append p [a]).trans hp)) (hg p a hp)

/-- Actions that change nothing where they are taken can be left out of a run. -/
theorem run_skip {skip : α → Bool} (h0 : I s) (hstep : ∀ s a, I s → G s a → I (step s a))
    (hskip : ∀ s a, I s → G s a → skip a = true → step s a = s) (hg : Guarded step G s as) :
    run step s as = run step s (as.filter fun a => !skip a) := by
  induction as generalizing s with
  | nil => rfl
  | cons a as ih =>
    obtain ⟨ha, has⟩ := guarded_cons.mp hg
    have hrest := ih (hstep s a h0 ha) has
    cases hs : skip a with
    | true =>
      rw [hskip s a h0 ha hs] at hrest
      rw [run_cons, hskip s a h0 ha hs, hrest, List.filter_cons_of_neg (by simp [hs])]
    | false => rw [run_cons, hrest, List.filter_cons_of_pos (by simp [hs]), run_cons]

/-- The invariant rule for runs that have not yet met an irrevocable event: `C` says it has
not happened so far, and the invariant is asked of a step only where it still has not. -/
theorem run_while (h0 : I s) (hC : ∀ s a, C (step s a) → C s)
    (hstep : ∀ s a, I s → G s a → C (step s a) → I (step s a))
    (hg : Guarded step G s as) (hc : C (run step s as)) : I (run step s as) := by
  have h := always_of_guarded (I := fun s => C s → I s) (fun _ => h0)
    (fun s a hs ha hc => hstep s a (hs (hC s a hc)) ha hc) hg
  exact h.last hc

/-- A guard is exact for a property when permitted actions keep an invariant that implies
the property, and an action that is not permitted breaks the property at once. -/
theorem always_iff_guarded (h0 : I s) (hIP : ∀ s, I s → P s)
    (hstep : ∀ s a, I s → G s a → I (step s a))
    (hexact : ∀ s a, I s → P (step s a) → G s a) :
    Always step P s as ↔ Guarded step G s as := by
  constructor
  · intro hP
    have hI : ∀ p, p <+: as → I (run step s p) ∧ Guarded step G s p := by
      intro p
      induction p using List.reverseRecOn with
      | nil => exact fun _ => ⟨h0, fun p a hp => by simp at hp⟩
      | append_singleton p a ih =>
        intro hp
        obtain ⟨hI, hg⟩ := ih ((List.prefix_append p [a]).trans hp)
        have hPa := hP _ hp
        rw [run_concat] at hPa
        have ha : G (run step s p) a := hexact _ _ hI hPa
        refine ⟨by rw [run_concat]; exact hstep _ _ hI ha, fun q b hq => ?_⟩
        obtain heq | hq := List.prefix_concat_iff.mp hq
        · obtain ⟨rfl, hb⟩ := List.append_inj' heq rfl
          cases hb
          exact ha
        · exact hg q b hq
    exact (hI as (List.prefix_refl as)).2
  · exact fun hg => (always_of_guarded h0 hstep hg).mono hIP

end SpaceWire.Run
