import Mathlib.Data.List.DropRight
import Mathlib.Data.List.Nodup

namespace SpaceWire.Labels

variable {α : Type*} [DecidableEq α]

section firstSeen

/-- Add what a list has and the other does not, in the order in which it is first seen. -/
def addUnseen (seen items : List α) : List α :=
  items.foldl (fun seen item => if item ∈ seen then seen else seen ++ [item]) seen

/-- The items of a list, once each, in the order in which they are first seen. -/
def firstSeen (items : List α) : List α := addUnseen [] items

variable {seen items : List α} {x : α}

@[simp] theorem addUnseen_nil (seen : List α) : addUnseen seen [] = seen := rfl

theorem addUnseen_append (seen items items' : List α) :
    addUnseen seen (items ++ items') = addUnseen (addUnseen seen items) items' :=
  List.foldl_append

theorem addUnseen_concat (seen items : List α) (x : α) : addUnseen seen (items ++ [x]) =
    if x ∈ addUnseen seen items then addUnseen seen items else addUnseen seen items ++ [x] :=
  addUnseen_append seen items [x]

theorem mem_addUnseen : x ∈ addUnseen seen items ↔ x ∈ seen ∨ x ∈ items := by
  induction items using List.reverseRecOn with
  | nil => simp
  | append_singleton items a ih =>
    rw [addUnseen_concat]
    split
    · rename_i ha
      rw [ih, List.mem_append, List.mem_singleton, ← or_assoc]
      constructor
      · exact .inl
      · rintro (h | rfl)
        · exact h
        · exact ih.mp ha
    · rw [List.mem_append, ih, List.mem_append, or_assoc]

theorem mem_firstSeen : x ∈ firstSeen items ↔ x ∈ items := by
  simp [firstSeen, mem_addUnseen]

theorem nodup_addUnseen (h : seen.Nodup) : (addUnseen seen items).Nodup := by
  induction items using List.reverseRecOn with
  | nil => exact h
  | append_singleton items a ih =>
    rw [addUnseen_concat]
    split
    · exact ih
    · exact List.Nodup.append ih (List.nodup_singleton a) (by simpa)

theorem addUnseen_firstSeen (seen items : List α) :
    addUnseen seen (firstSeen items) = addUnseen seen items := by
  induction items using List.reverseRecOn with
  | nil => rfl
  | append_singleton items a ih =>
    rw [addUnseen_concat, firstSeen, addUnseen_concat, ← firstSeen]
    by_cases ha : a ∈ items
    · rw [if_pos (mem_firstSeen.mpr ha), if_pos (mem_addUnseen.mpr (.inr ha)), ih]
    · rw [if_neg (mt mem_firstSeen.mp ha), addUnseen_concat, ih]

theorem addUnseen_flatMap_firstSeen (seen : List α) (groups : List (List α)) :
    addUnseen seen (groups.flatMap firstSeen) = addUnseen seen groups.flatten := by
  induction groups generalizing seen with
  | nil => rfl
  | cons g groups ih =>
    rw [List.flatMap_cons, List.flatten_cons, addUnseen_append, addUnseen_append, ih,
      addUnseen_firstSeen]

theorem firstSeen_map {β : Type*} [DecidableEq β] {f : α → β} (hf : f.Injective)
    (items : List α) : firstSeen (items.map f) = (firstSeen items).map f := by
  induction items using List.reverseRecOn with
  | nil => rfl
  | append_singleton items a ih =>
    have hmem : f a ∈ (firstSeen items).map f ↔ a ∈ firstSeen items := List.mem_map_of_injective hf
    rw [List.map_append, List.map_singleton, firstSeen, addUnseen_concat, firstSeen,
      addUnseen_concat, ← firstSeen, ← firstSeen, ih]
    by_cases ha : a ∈ firstSeen items
    · rw [if_pos (hmem.mpr ha), if_pos ha]
    · rw [if_neg (mt hmem.mp ha), if_neg ha, List.map_append, List.map_singleton]

end firstSeen

section text

def strip (blank : α → Bool) (text : List α) : List α :=
  (text.dropWhile blank).rdropWhile blank

/-- The labels of a text, which stand between separators and are not blank. -/
def labels (blank : α → Bool) (sep : α) (text : List α) : List (List α) :=
  ((text.splitOn sep).map (strip blank)).filter (· ≠ [])

/-- What can be read back of a text. -/
structure IsLabel (blank : α → Bool) (sep : α) (label : List α) : Prop where
  nonempty : label ≠ []
  whole : sep ∉ label
  stripped : strip blank label = label

variable {blank : α → Bool} {sep : α} {text label : List α}

omit [DecidableEq α] in
theorem strip_isInfix (blank : α → Bool) (text : List α) : strip blank text <:+: text :=
  (List.rdropWhile_prefix blank _).isInfix.trans (List.dropWhile_suffix blank).isInfix

omit [DecidableEq α] in
theorem dropWhile_prefix {front : List α} (h : front <+: text)
    (htext : text.dropWhile blank = text) : front.dropWhile blank = front := by
  cases front with
  | nil => rfl
  | cons a front =>
    obtain ⟨back, rfl⟩ := h
    cases ha : blank a with
    | false => rw [List.dropWhile_cons_of_neg (by simp [ha])]
    | true =>
      rw [List.cons_append, List.dropWhile_cons_of_pos ha] at htext
      have hlen := (List.dropWhile_suffix (l := front ++ back) blank).length_le
      rw [htext, List.length_cons] at hlen
      omega

omit [DecidableEq α] in
theorem strip_strip (blank : α → Bool) (text : List α) :
    strip blank (strip blank text) = strip blank text := by
  have hfront : (strip blank text).dropWhile blank = strip blank text := by
    apply dropWhile_prefix (List.rdropWhile_prefix blank _)
    exact List.dropWhile_idempotent blank text
  rw [strip, hfront]
  exact List.rdropWhile_idempotent blank _

theorem not_mem_of_mem_splitOn (h : label ∈ text.splitOn sep) : sep ∉ label := by
  induction text generalizing label with
  | nil =>
    rw [List.splitOn_nil, List.mem_singleton] at h
    simp [h]
  | cons a text ih =>
    rw [List.splitOn_cons_eq_if_modifyHead] at h
    split at h
    · obtain rfl | h := List.mem_cons.mp h
      · simp
      · exact ih h
    · rename_i ha
      cases hpieces : text.splitOn sep with
      | nil => exact absurd hpieces (List.splitOn_ne_nil sep text)
      | cons piece pieces =>
        rw [hpieces] at h ih
        obtain rfl | h := List.mem_cons.mp h
        · have hpiece := ih (List.mem_cons_self ..)
          have hne : sep ≠ a := fun heq => ha (beq_iff_eq.mpr heq.symm)
          simp [hpiece, hne]
        · exact ih (List.mem_cons_of_mem piece h)

theorem isLabel_of_mem (h : label ∈ labels blank sep text) : IsLabel blank sep label := by
  simp only [labels, List.mem_filter, List.mem_map, decide_eq_true_eq] at h
  obtain ⟨⟨piece, hpiece, rfl⟩, hne⟩ := h
  refine ⟨hne, fun hmem => ?_, strip_strip blank piece⟩
  exact not_mem_of_mem_splitOn hpiece ((strip_isInfix blank piece).subset hmem)

/-- Labels are read back of the text that joins them. -/
theorem labels_join {ls : List (List α)} (hne : ls ≠ []) (h : ∀ l ∈ ls, IsLabel blank sep l) :
    labels blank sep ([sep].intercalate ls) = ls := by
  have hstrip : ls.map (strip blank) = ls := by
    rw [List.map_congr_left fun l hl => (h l hl).stripped, List.map_id']
  rw [labels, List.splitOn_intercalate sep (fun l hl => (h l hl).whole) hne, hstrip]
  apply List.filter_eq_self.mpr
  exact fun l hl => decide_eq_true (h l hl).nonempty

end text

end SpaceWire.Labels
