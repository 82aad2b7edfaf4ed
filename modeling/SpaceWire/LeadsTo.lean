import SpaceWire.Run
import Mathlib.Order.WellFounded
import Mathlib.Data.Set.Basic

namespace SpaceWire.Run

variable {σ α β : Type*} (step : σ → α → σ) (G : σ → α → Prop) (A : σ → Set α)

def visit (s : σ) (sched : ℕ → α) : ℕ → σ
  | 0 => s
  | n + 1 => step (visit s sched n) (sched n)

/-- Every action of the schedule is taken in a state that permits it. -/
def Permitted (s : σ) (sched : ℕ → α) : Prop := ∀ n, G (visit step s sched n) (sched n)

/-- Weak fairness: an action that the states ask for from some point on is taken. -/
def Fair (s : σ) (sched : ℕ → α) : Prop :=
  ∀ a n, (∀ m, a ∈ A (visit step s sched (n + m))) → ∃ m, sched (n + m) = a

/-- From a state in `P` every permitted schedule that is fair comes to a state in `Q`. -/
def LeadsTo (P Q : σ → Prop) : Prop :=
  ∀ s sched, Permitted step G s sched → Fair step A s sched → P s → ∃ n, Q (visit step s sched n)

variable {step G A} {P P' Q Q' : σ → Prop} {s : σ} {sched : ℕ → α}

theorem visit_add (s : σ) (sched : ℕ → α) (n m : ℕ) :
    visit step s sched (n + m) = visit step (visit step s sched n) (fun k => sched (n + k)) m := by
  induction m with
  | zero => rfl
  | succ m ih => rw [← Nat.add_assoc, visit, visit, ih]

theorem Permitted.drop (h : Permitted step G s sched) (n : ℕ) :
    Permitted step G (visit step s sched n) fun k => sched (n + k) := by
  intro m
  rw [← visit_add]
  exact h (n + m)

theorem Fair.drop (h : Fair step A s sched) (n : ℕ) :
    Fair step A (visit step s sched n) fun k => sched (n + k) := by
  intro a m ha
  have hlater : ∀ k, a ∈ A (visit step s sched (n + m + k)) := by
    intro k
    rw [Nat.add_assoc, visit_add]
    exact ha k
  obtain ⟨k, hk⟩ := h a (n + m) hlater
  exact ⟨k, by rw [← hk, Nat.add_assoc]⟩

theorem Fair.mono {B : σ → Set α} (h : Fair step A s sched) (hBA : ∀ s, B s ⊆ A s) :
    Fair step B s sched := fun a n ha => h a n fun m => hBA _ (ha m)

theorem fair_of_mod {k N : ℕ}
    (h : ∀ a, (∃ n, N ≤ n ∧ a ∈ A (visit step s sched n)) →
      ∃ i < k, ∀ n, N ≤ n → n % k = i → sched n = a) :
    Fair step A s sched := by
  intro a n ha
  obtain ⟨i, hi, heq⟩ := h a ⟨n + N, by omega, ha N⟩
  have hle : n + N ≤ k * (n + N) := Nat.le_mul_of_pos_left _ (by omega)
  refine ⟨k * (n + N) - n + i, heq _ (by omega) ?_⟩
  rw [show n + (k * (n + N) - n + i) = i + k * (n + N) by omega, Nat.add_mul_mod_self_left,
    Nat.mod_eq_of_lt hi]

theorem visit_keeps (hstep : ∀ s a, P s → G s a → P (step s a)) (hp : Permitted step G s sched)
    (h : P s) (n : ℕ) : P (visit step s sched n) := by
  induction n with
  | zero => exact h
  | succ n ih => exact hstep _ _ ih (hp n)

theorem LeadsTo.mono (h : LeadsTo step G A P Q) (hP : ∀ s, P' s → P s) (hQ : ∀ s, Q s → Q' s) :
    LeadsTo step G A P' Q' := by
  intro s sched hp hfair hs
  obtain ⟨n, hn⟩ := h s sched hp hfair (hP s hs)
  exact ⟨n, hQ _ hn⟩

theorem LeadsTo.trans (h : LeadsTo step G A P Q) (h' : LeadsTo step G A Q Q') :
    LeadsTo step G A P Q' := by
  intro s sched hp hfair hs
  obtain ⟨n, hn⟩ := h s sched hp hfair hs
  obtain ⟨m, hm⟩ := h' _ _ (hp.drop n) (hfair.drop n) hn
  exact ⟨n + m, by rwa [visit_add]⟩

theorem LeadsTo.or_trans (h : LeadsTo step G A P fun s => Q s ∨ P' s)
    (h' : LeadsTo step G A P' Q) : LeadsTo step G A P Q := by
  apply h.trans
  rintro s sched hp hfair (hs | hs)
  · exact ⟨0, hs⟩
  · exact h' s sched hp hfair hs

/-- Every permitted action keeps `P` or establishes `Q`, and a helpful action, which the states
in `P` ask for, does the latter. -/
theorem LeadsTo.of_helpful {a : α} (ha : ∀ s, P s → a ∈ A s)
    (hstep : ∀ s b, P s → G s b → Q (step s b) ∨ b ≠ a ∧ P (step s b)) :
    LeadsTo step G A P Q := by
  intro s sched hp hfair hs
  by_contra hnever
  rw [not_exists] at hnever
  -- Without `Q` the helpful action is asked for in every state.
  have hone (n : ℕ) (hn : P (visit step s sched n)) :
      sched n ≠ a ∧ P (visit step s sched (n + 1)) :=
    (hstep _ _ hn (hp n)).resolve_left (hnever (n + 1))
  have hkept : ∀ n, P (visit step s sched n) := by
    intro n
    induction n with
    | zero => exact hs
    | succ n ih => exact (hone n ih).2
  obtain ⟨m, hm⟩ := hfair a 0 fun m => ha _ (hkept (0 + m))
  exact (hone (0 + m) (hkept (0 + m))).1 hm

/-- Induction on a rank that goes down as long as `Q` is not reached. -/
theorem LeadsTo.of_rank [Preorder β] [WellFoundedLT β] (rank : σ → β)
    (h : ∀ b, LeadsTo step G A (fun s => P s ∧ rank s = b) fun s => Q s ∨ P s ∧ rank s < b) :
    LeadsTo step G A P Q := by
  have hall (b : β) : LeadsTo step G A (fun s => P s ∧ rank s = b) Q := by
    induction b using WellFoundedLT.induction with
    | ind b ih =>
      apply (h b).or_trans
      intro s sched hp hfair hs
      exact ih (rank s) hs.2 s sched hp hfair ⟨hs.1, rfl⟩
  intro s sched hp hfair hs
  exact hall (rank s) s sched hp hfair ⟨hs, rfl⟩

section progress

variable [Preorder β] (I : σ → Prop) (rank : σ → β)

/-- The invariant holds, with the rank it has and something that will lower it. -/
def Pending (r : β) (K : σ → Prop) (s : σ) : Prop := I s ∧ rank s = r ∧ K s

def Lowered (r : β) (s : σ) : Prop := I s ∧ rank s < r

variable {I : σ → Prop} {rank : σ → β} {H : α → σ → σ → Prop} {K L : σ → Prop} {r : β}

/-- What other actions leave in place and an action that is asked for makes use of. -/
theorem Pending.leadsTo {a : α} (ha : ∀ s, I s → K s → a ∈ A s)
    (hstep : ∀ s b, I s → G s b →
      I (step s b) ∧ (rank (step s b) < rank s ∨ rank (step s b) = rank s ∧ H b s (step s b)))
    (hkeep : ∀ s b, I s → G s b → H b s (step s b) → b ≠ a → K s → K (step s b))
    (hhelp : ∀ s, I s → G s a → K s → rank (step s a) < rank s ∨ L (step s a)) :
    LeadsTo step G A (Pending I rank r K) fun s => Lowered I rank r s ∨ Pending I rank r L s := by
  apply LeadsTo.of_helpful (a := a)
  · exact fun s hs => ha s hs.1 hs.2.2
  rintro s b ⟨hi, rfl, hk⟩ hb
  obtain ⟨hnext, hlower | ⟨hrank, hheld⟩⟩ := hstep s b hi hb
  · exact .inl (.inl ⟨hnext, hlower⟩)
  · by_cases hba : b = a
    · subst hba
      left
      obtain hlower | hl := hhelp s hi hb hk
      · exact .inl ⟨hnext, hlower⟩
      · exact .inr ⟨hnext, hrank, hl⟩
    · exact .inr ⟨hba, hnext, hrank, hkeep s b hi hb hheld hba hk⟩

variable (rank) in
/-- While `Q` does not hold, something is pending that will lower the rank. -/
theorem LeadsTo.of_pending [WellFoundedLT β] (hlower : ∀ s sched, Permitted step G s sched →
      Fair step A s sched → I s → ¬ Q s → ∃ n, Lowered I rank (rank s) (visit step s sched n)) :
    LeadsTo step G A I fun s => I s ∧ Q s := by
  apply LeadsTo.of_rank rank
  rintro r s sched hp hfair ⟨hi, rfl⟩
  by_cases hq : Q s
  · exact ⟨0, .inl ⟨hi, hq⟩⟩
  · obtain ⟨n, hn⟩ := hlower s sched hp hfair hi hq
    exact ⟨n, .inr hn⟩

end progress

end SpaceWire.Run
