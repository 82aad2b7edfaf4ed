import Mathlib.Data.Bool.Basic
import Mathlib.Data.List.Basic
import Mathlib.Order.Bounds.Basic

namespace SpaceWire.DataStrobe

abbrev Levels := Bool × Bool

/-- The strobe moves when the data line does not. -/
def next (v : Levels) (b : Bool) : Levels := (b, if b = v.1 then !v.2 else v.2)

/-- The levels after each bit of a stream. -/
def wave (v : Levels) : List Bool → List Levels
  | [] => []
  | b :: bs => next v b :: wave (next v b) bs

def final (v : Levels) (bs : List Bool) : Levels := bs.foldl next v

/-- One of the two lines changes and the other does not. -/
def OneChanges (v w : Levels) : Prop := (v.1 = w.1) ≠ (v.2 = w.2)

variable (v : Levels) (b : Bool) (bs cs : List Bool)

@[simp] theorem next_fst : (next v b).1 = b := rfl

theorem next_oneChanges : OneChanges v (next v b) := by
  obtain ⟨d, s⟩ := v
  cases b <;> cases d <;> cases s <;> simp [OneChanges, next]

theorem OneChanges.ne {v w : Levels} (h : OneChanges v w) : w ≠ v := by
  rintro rfl
  exact h (by simp)

@[simp] theorem final_nil : final v [] = v := rfl

theorem final_concat : final v (bs ++ [b]) = next (final v bs) b := by
  simp [final]

theorem wave_append : wave v (bs ++ cs) = wave v bs ++ wave (final v bs) cs := by
  induction bs generalizing v with
  | nil => rfl
  | cons b bs ih => simp only [List.cons_append, wave, ih]; rfl

theorem wave_concat : wave v (bs ++ [b]) = wave v bs ++ [next (final v bs) b] :=
  wave_append v bs [b]

theorem map_fst_wave : (wave v bs).map Prod.fst = bs := by
  induction bs generalizing v with
  | nil => rfl
  | cons b bs ih => simp [wave, ih]

@[simp] theorem length_wave : (wave v bs).length = bs.length := by
  rw [← @List.length_map _ _ (wave v bs) Prod.fst, map_fst_wave]

theorem oneChanges_iff {v w : Levels} : OneChanges v w ↔ next v w.1 = w := by
  obtain ⟨d, s⟩ := v
  obtain ⟨d', s'⟩ := w
  cases d <;> cases d' <;> cases s <;> cases s' <;> simp [OneChanges, next]

/-- At an index of the samples, both lines change or neither does. -/
def FaultyAt (v : Levels) (ws : List Levels) (i : Nat) : Prop :=
  ∃ before after, (v :: ws)[i]? = some before ∧ ws[i]? = some after ∧ ¬OneChanges before after

section samples

variable {v w : Levels} {ws : List Levels} {i : Nat}

@[simp] theorem faultyAt_zero : FaultyAt v (w :: ws) 0 ↔ ¬OneChanges v w := by
  simp [FaultyAt]

@[simp] theorem faultyAt_succ : FaultyAt v (w :: ws) (i + 1) ↔ FaultyAt w ws i := by
  simp [FaultyAt]

theorem least_faultyAt_zero (h : ¬OneChanges v w) :
    IsLeast {i | FaultyAt v (w :: ws) i} 0 :=
  ⟨faultyAt_zero.mpr h, fun _ _ => Nat.zero_le _⟩

theorem least_faultyAt_succ (h : OneChanges v w) (hi : IsLeast {i | FaultyAt w ws i} i) :
    IsLeast {i | FaultyAt v (w :: ws) i} (i + 1) := by
  refine ⟨faultyAt_succ.mpr hi.1, fun j hj => ?_⟩
  cases j with
  | zero => exact absurd h (faultyAt_zero.mp hj)
  | succ j => exact Nat.succ_le_succ (hi.2 (faultyAt_succ.mp hj))

end samples

end SpaceWire.DataStrobe
