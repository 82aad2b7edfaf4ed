import SpaceWire.Labels
import Mathlib.Data.List.Count

namespace SpaceWire

/-- Counts, in the order in which their keys were first counted. -/
structure Counter (κ : Type*) where
  items : List (κ × Nat)
  nodup : (items.map Prod.fst).Nodup

namespace Counter

open Labels

variable {κ : Type*}

def empty : Counter κ := ⟨[], .nil⟩

def keys (c : Counter κ) : List κ := c.items.map Prod.fst

variable [DecidableEq κ]

/-- The count of a key, zero when it has not been counted. -/
def get (c : Counter κ) (k : κ) : Nat := (c.items.lookup k).getD 0

def counted (items : List (κ × Nat)) (k : κ) : List (κ × Nat) :=
  if k ∈ items.map Prod.fst then
    items.map fun item => (item.1, if item.1 = k then item.2 + 1 else item.2)
  else items ++ [(k, 1)]

theorem keys_counted (items : List (κ × Nat)) (k : κ) :
    (counted items k).map Prod.fst = addUnseen (items.map Prod.fst) [k] := by
  have hone : addUnseen (items.map Prod.fst) [k] =
      if k ∈ items.map Prod.fst then items.map Prod.fst else items.map Prod.fst ++ [k] := rfl
  rw [hone, counted]
  split
  · rw [List.map_map]
    rfl
  · simp

def add (c : Counter κ) (k : κ) : Counter κ where
  items := counted c.items k
  nodup := by
    rw [keys_counted]
    exact nodup_addUnseen c.nodup

def addAll (c : Counter κ) (ks : List κ) : Counter κ := ks.foldl add c

variable {c : Counter κ} {j k : κ} {ks : List κ}

@[simp] theorem get_empty (k : κ) : (empty : Counter κ).get k = 0 := rfl

theorem keys_add (c : Counter κ) (k : κ) : (c.add k).keys = addUnseen c.keys [k] :=
  keys_counted c.items k

theorem lookup_pair (i : κ) (n : Nat) (items : List (κ × Nat)) (j : κ) :
    ((i, n) :: items).lookup j = if j = i then some n else items.lookup j := by
  by_cases hji : j = i
  · simp [hji]
  · have hbeq : (j == i) = false := beq_false_of_ne hji
    rw [List.lookup_cons, hbeq, if_neg hji]

theorem lookup_counted (items : List (κ × Nat)) (j k : κ) :
    ((counted items k).lookup j).getD 0 =
      (items.lookup j).getD 0 + if j = k then 1 else 0 := by
  have hpresent (items : List (κ × Nat)) (h : j = k → k ∈ items.map Prod.fst) :
      ((items.map fun item =>
          (item.1, if item.1 = k then item.2 + 1 else item.2)).lookup j).getD 0 =
        (items.lookup j).getD 0 + if j = k then 1 else 0 := by
    induction items with
    | nil =>
      have hne : j ≠ k := fun hjk => by simpa using h hjk
      simp [hne]
    | cons item items ih =>
      obtain ⟨i, n⟩ := item
      by_cases hji : j = i
      · subst hji
        by_cases hjk : j = k <;> simp [hjk]
      · have hrest := ih fun hjk => by
          have hmem := h hjk
          rw [List.map_cons, List.mem_cons] at hmem
          exact hmem.resolve_left fun hki => hji (hjk.trans hki)
        rw [List.map_cons, lookup_pair, if_neg hji, hrest, lookup_pair, if_neg hji]
  unfold counted
  split
  · rename_i hk
    exact hpresent items fun _ => hk
  · rename_i hk
    have hnone : items.lookup k = none := by
      rw [List.lookup_eq_none_iff]
      intro item hitem
      apply bne_iff_ne.mpr
      rintro rfl
      exact hk (List.mem_map_of_mem hitem)
    by_cases hjk : j = k
    · subst hjk
      simp [List.lookup_append, hnone]
    · simp [List.lookup_append, lookup_pair, hjk]

theorem get_add (c : Counter κ) (j k : κ) :
    (c.add k).get j = c.get j + if j = k then 1 else 0 := lookup_counted c.items j k

theorem addAll_append (c : Counter κ) (ks ks' : List κ) :
    c.addAll (ks ++ ks') = (c.addAll ks).addAll ks' := List.foldl_append

theorem keys_addAll (c : Counter κ) (ks : List κ) : (c.addAll ks).keys = addUnseen c.keys ks := by
  induction ks generalizing c with
  | nil => rfl
  | cons k ks ih =>
    have hstep : c.addAll (k :: ks) = (c.add k).addAll ks := rfl
    rw [hstep, ih, keys_add, ← addUnseen_append, List.singleton_append]

theorem get_addAll (c : Counter κ) (ks : List κ) (j : κ) :
    (c.addAll ks).get j = c.get j + ks.count j := by
  induction ks generalizing c with
  | nil => rfl
  | cons k ks ih =>
    have hstep : c.addAll (k :: ks) = (c.add k).addAll ks := rfl
    rw [hstep, ih, get_add, List.count_cons]
    by_cases hjk : j = k
    · simp [hjk, Nat.add_assoc, Nat.add_comm 1]
    · simp [hjk, Ne.symm hjk]

theorem items_eq (c : Counter κ) : c.items = c.keys.map fun k => (k, c.get k) := by
  obtain ⟨items, hnodup⟩ := c
  simp only [keys, get]
  induction items with
  | nil => rfl
  | cons item items ih =>
    obtain ⟨i, n⟩ := item
    obtain ⟨hnew, hrest⟩ := List.nodup_cons.mp hnodup
    rw [List.map_cons, List.map_cons]
    congr 1
    · simp
    · refine (ih hrest).trans (List.map_congr_left fun k hk => ?_)
      have hne : k ≠ i := fun heq => hnew (heq ▸ hk)
      rw [lookup_pair, if_neg hne]

theorem items_addAll_empty (ks : List κ) :
    (empty.addAll ks).items = (firstSeen ks).map fun k => (k, ks.count k) := by
  rw [items_eq, keys_addAll]
  apply List.map_congr_left
  intro k _
  rw [get_addAll, get_empty, Nat.zero_add]

end Counter

end SpaceWire
