import SpaceWire.Characters
import SpaceWire.Labels

namespace SpaceWire

open Labels

def ErrorLabel.text : ErrorLabel → String
  | .parityError => "parity_error"
  | .escapeError => "escape_error"
  | .reservedEscapeDataType => "reserved_escape_data_type"

/-- The characters that `str.strip` strips. -/
def isSpace (c : Char) : Bool :=
  let n := c.toNat
  (9 ≤ n && n ≤ 13) || (28 ≤ n && n ≤ 32) || n == 0x85 || n == 0xA0 || n == 0x1680 ||
    (0x2000 ≤ n && n ≤ 0x200A) || n == 0x2028 || n == 0x2029 || n == 0x202F || n == 0x205F ||
    n == 0x3000

def errorTypes : Option String → List String
  | none => []
  | some error => (labels isSpace '+' error.toList).map String.ofList

def combineErrorTexts (errors : List (Option String)) : Option String :=
  let combined := errors.foldl (fun combined error => addUnseen combined (errorTypes error)) []
  if combined = [] then none else some ("+".intercalate combined)

/-- The error text of a character, whose labels the model keeps split. -/
def errorText (error : List ErrorLabel) : Option String :=
  if error = [] then none else some ("+".intercalate (error.map ErrorLabel.text))

namespace ErrorText

variable {ls : List String} {error : Option String}

theorem text_injective : ErrorLabel.text.Injective := by
  intro a b h
  cases a <;> cases b <;> first | rfl | (revert h; decide)

theorem isLabel_errorTypes {l : String} (h : l ∈ errorTypes error) :
    IsLabel isSpace '+' l.toList := by
  cases error with
  | none => cases h
  | some error =>
    obtain ⟨cs, hcs, rfl⟩ := List.mem_map.mp h
    rw [String.toList_ofList]
    exact isLabel_of_mem hcs

theorem isLabel_text (x : ErrorLabel) : IsLabel isSpace '+' x.text.toList := by
  cases x <;> constructor <;> decide

theorem errorTypes_join (hne : ls ≠ []) (h : ∀ l ∈ ls, IsLabel isSpace '+' l.toList) :
    errorTypes (some ("+".intercalate ls)) = ls := by
  have hjoin : ("+".intercalate ls).toList = ['+'].intercalate (ls.map String.toList) :=
    String.toList_intercalate
  rw [errorTypes, hjoin, labels_join (by simpa using hne)]
  · simp
  · intro l hl
    obtain ⟨s, hs, rfl⟩ := List.mem_map.mp hl
    exact h s hs

theorem combined_eq (errors : List (Option String)) :
    errors.foldl (fun combined error => addUnseen combined (errorTypes error)) [] =
      firstSeen (errors.flatMap errorTypes) := by
  rw [firstSeen]
  generalize ([] : List String) = seen
  induction errors generalizing seen with
  | nil => rfl
  | cons error errors ih =>
    rw [List.foldl_cons, ih, List.flatMap_cons, addUnseen_append]

theorem combineErrorTexts_eq (errors : List (Option String)) : combineErrorTexts errors =
    if firstSeen (errors.flatMap errorTypes) = [] then none
    else some ("+".intercalate (firstSeen (errors.flatMap errorTypes))) := by
  simp only [combineErrorTexts, combined_eq]

theorem errorTypes_combine (errors : List (Option String)) :
    errorTypes (combineErrorTexts errors) = firstSeen (errors.flatMap errorTypes) := by
  rw [combineErrorTexts_eq]
  split
  · rename_i hnil
    rw [hnil, errorTypes]
  · rename_i hne
    apply errorTypes_join hne
    intro l hl
    obtain ⟨error, -, hl⟩ := List.mem_flatMap.mp (mem_firstSeen.mp hl)
    exact isLabel_errorTypes hl

theorem combine_eq_none_iff (errors : List (Option String)) :
    combineErrorTexts errors = none ↔ ∀ error ∈ errors, errorTypes error = [] := by
  rw [← List.flatMap_eq_nil_iff, combineErrorTexts_eq]
  have hnil : firstSeen (errors.flatMap errorTypes) = [] ↔ errors.flatMap errorTypes = [] := by
    simp only [List.eq_nil_iff_forall_not_mem, mem_firstSeen]
  rw [← hnil]
  split
  · simpa
  · simpa

theorem combine_groups (groups : List (List (Option String))) :
    combineErrorTexts (groups.map combineErrorTexts) = combineErrorTexts groups.flatten := by
  have hsame : firstSeen ((groups.map combineErrorTexts).flatMap errorTypes) =
      firstSeen (groups.flatten.flatMap errorTypes) := by
    have hflat : groups.flatten.flatMap errorTypes =
        (groups.map fun group => group.flatMap errorTypes).flatten := by
      simp only [List.flatMap_def, List.map_flatten, List.flatten_flatten, List.map_map]
      rfl
    have hgroups : (groups.map combineErrorTexts).flatMap errorTypes =
        (groups.map fun group => group.flatMap errorTypes).flatMap firstSeen := by
      rw [List.flatMap_map, List.flatMap_map]
      exact List.flatMap_congr fun group _ => errorTypes_combine group
    rw [hflat, hgroups, firstSeen, addUnseen_flatMap_firstSeen, firstSeen]
  rw [combineErrorTexts_eq, combineErrorTexts_eq, hsame]

theorem errorTypes_errorText (labels : List ErrorLabel) :
    errorTypes (errorText labels) = labels.map ErrorLabel.text := by
  unfold errorText
  split
  · rename_i hnil
    rw [hnil]
    rfl
  · rename_i hne
    apply errorTypes_join (by simpa using hne)
    intro l hl
    obtain ⟨x, -, rfl⟩ := List.mem_map.mp hl
    exact isLabel_text x

theorem combine_errorText (errors : List (List ErrorLabel)) :
    combineErrorTexts (errors.map errorText) = errorText (combineErrors errors) := by
  have hflat : (errors.map errorText).flatMap errorTypes =
      errors.flatten.map ErrorLabel.text := by
    rw [List.flatMap_map, List.map_flatten, List.flatMap_def]
    congr 1
    exact List.map_congr_left fun labels _ => errorTypes_errorText labels
  have hcombine : combineErrors errors = firstSeen errors.flatten := rfl
  rw [combineErrorTexts_eq, hflat, firstSeen_map text_injective, hcombine, errorText]
  simp only [List.map_eq_nil_iff]

/-- Combining error texts leaves each of their labels once, in the order in which they are first
seen, whatever blanks and empty parts the texts have and however the combining is grouped; and
on the labels that a decoder writes it is what the model does with them. -/
theorem combined_errors (groups : List (List (Option String))) (errors : List (List ErrorLabel)) :
    errorTypes (combineErrorTexts groups.flatten) =
        firstSeen (groups.flatten.flatMap errorTypes) ∧
      (combineErrorTexts groups.flatten = none ↔
        ∀ error ∈ groups.flatten, errorTypes error = []) ∧
      combineErrorTexts (groups.map combineErrorTexts) = combineErrorTexts groups.flatten ∧
      combineErrorTexts (errors.map errorText) = errorText (combineErrors errors) ∧
      errorTypes (errorText (combineErrors errors)) =
        (combineErrors errors).map ErrorLabel.text := by
  exact ⟨errorTypes_combine _, combine_eq_none_iff _, combine_groups groups,
    combine_errorText errors, errorTypes_errorText _⟩

end ErrorText

end SpaceWire
