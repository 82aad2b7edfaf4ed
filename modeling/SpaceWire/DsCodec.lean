import SpaceWire.DataStrobe
import SpaceWire.Exceptions

namespace SpaceWire

open DataStrobe

def dsBit (value : Int) (name : String) : Except Exn Bool :=
  if value = 1 then .ok true
  else if value = 0 then .ok false
  else .error (.valueError s!"{name} must contain only binary values (0 or 1); got {value}")

def dsBits (values : List Int) (name : String) : Except Exn (List Bool) :=
  values.mapM fun value => dsBit value name

structure DsEncoder where
  previousD : Bool
  strobe : Bool
  dLevels : List Bool := []
  sLevels : List Bool := []

namespace DsEncoder

def encodeBit (e : DsEncoder) (dataBit : Bool) : DsEncoder :=
  let strobe := if dataBit = e.previousD then !e.strobe else e.strobe
  { previousD := dataBit, strobe, dLevels := e.dLevels ++ [dataBit],
    sLevels := e.sLevels ++ [strobe] }

theorem foldl_encodeBit (bits : List Bool) (e : DsEncoder) :
    bits.foldl encodeBit e =
      { previousD := (final (e.previousD, e.strobe) bits).1
        strobe := (final (e.previousD, e.strobe) bits).2
        dLevels := e.dLevels ++ (wave (e.previousD, e.strobe) bits).map Prod.fst
        sLevels := e.sLevels ++ (wave (e.previousD, e.strobe) bits).map Prod.snd } := by
  induction bits generalizing e with
  | nil => simp [wave]
  | cons b bits ih =>
    rw [List.foldl_cons, ih]
    simp only [encodeBit, wave, List.map_cons, List.append_assoc, List.singleton_append]
    rfl

end DsEncoder

def dsEncode (data : List Int) (initialD initialS : Int := 0) :
    Except Exn (List Bool × List Bool) := do
  let bits ← dsBits data "data"
  let previousD ← dsBit initialD "initial_d"
  let strobe ← dsBit initialS "initial_s"
  let e := bits.foldl DsEncoder.encodeBit { previousD, strobe }
  pure (e.dLevels, e.sLevels)

def bitValue (b : Bool) : Int := if b then 1 else 0

@[simp] theorem dsBit_bitValue (b : Bool) (name : String) : dsBit (bitValue b) name = .ok b := by
  cases b <;> rfl

theorem dsBit_ok {value : Int} {name : String} {b : Bool} (h : dsBit value name = .ok b) :
    value = bitValue b := by
  unfold dsBit at h
  split at h
  · cases h
    assumption
  · split at h <;> cases h
    assumption

@[simp] theorem dsBits_map_bitValue (bits : List Bool) (name : String) :
    dsBits (bits.map bitValue) name = .ok bits := by
  induction bits with
  | nil => rfl
  | cons b bits ih =>
    unfold dsBits at ih ⊢
    simp only [List.map_cons, List.mapM_cons, dsBit_bitValue, ih]
    rfl

theorem dsEncode_eq (bits : List Bool) (d s : Bool) :
    dsEncode (bits.map bitValue) (bitValue d) (bitValue s) =
      .ok ((wave (d, s) bits).map Prod.fst, (wave (d, s) bits).map Prod.snd) := by
  simp only [dsEncode, dsBits_map_bitValue, dsBit_bitValue]
  have hloop := DsEncoder.foldl_encodeBit bits { previousD := d, strobe := s }
  simp only [List.nil_append] at hloop
  simp only [bind, Except.bind, pure, Except.pure, hloop]

example : dsEncode [0, 0, 1, 1] = .ok ([false, false, true, true], [true, false, false, true]) := by
  decide

def invalidTransition (index : Nat) (dChanged : Bool) : Exn :=
  .valueError
    (s!"invalid DS transition at sample {index}: " ++
      (if dChanged then "both changed" else "neither changed") ++
      "; exactly one of D and S must change")

def dsValidate (index : Nat) (previous : Levels) : List Levels → Except Exn Unit
  | [] => .ok ()
  | current :: rest =>
    let dChanged := current.1 != previous.1
    let sChanged := current.2 != previous.2
    if dChanged = sChanged then .error (invalidTransition index dChanged)
    else dsValidate (index + 1) current rest

def dsDecode (dLevels sLevels : List Int) (initialD initialS : Int := 0)
    (validate : Bool := true) : Except Exn (List Bool) := do
  let data ← dsBits dLevels "d_levels"
  let strobe ← dsBits sLevels "s_levels"
  if data.length ≠ strobe.length then
    throw (.valueError ("d_levels and s_levels must have the same length " ++
      s!"(got {data.length} and {strobe.length})"))
  let previousD ← dsBit initialD "initial_d"
  let previousS ← dsBit initialS "initial_s"
  if validate then dsValidate 0 (previousD, previousS) (data.zip strobe)
  pure data

theorem changed_eq_iff (v w : Levels) :
    ((w.1 != v.1) = (w.2 != v.2)) ↔ ¬OneChanges v w := by
  obtain ⟨d, s⟩ := v
  obtain ⟨d', s'⟩ := w
  cases d <;> cases d' <;> cases s <;> cases s' <;> simp [OneChanges]

theorem dsValidate_wave (index : Nat) (v : Levels) (bits : List Bool) :
    dsValidate index v (wave v bits) = .ok () := by
  induction bits generalizing index v with
  | nil => rfl
  | cons b bits ih =>
    have hone : ¬((next v b).1 != v.1) = ((next v b).2 != v.2) := by
      simpa only [changed_eq_iff, not_not] using next_oneChanges v b
    simp only [wave, dsValidate, hone, if_false]
    exact ih (index + 1) (next v b)

theorem dsValidate_ok {index : Nat} {v : Levels} {ws : List Levels}
    (h : dsValidate index v ws = .ok ()) : wave v (ws.map Prod.fst) = ws := by
  induction ws generalizing index v with
  | nil => rfl
  | cons w ws ih =>
    simp only [dsValidate] at h
    split at h
    case isTrue => cases h
    case isFalse hone =>
      rw [changed_eq_iff, not_not, oneChanges_iff] at hone
      simp only [List.map_cons, wave, hone, ih h]

theorem dsValidate_error {index : Nat} {v : Levels} {ws : List Levels} {err : Exn}
    (h : dsValidate index v ws = .error err) :
    ∃ i dChanged, IsLeast {i | FaultyAt v ws i} i ∧
      err = invalidTransition (index + i) dChanged := by
  induction ws generalizing index v with
  | nil => cases h
  | cons w ws ih =>
    simp only [dsValidate] at h
    split at h
    case isTrue heq =>
      cases h
      exact ⟨0, _, least_faultyAt_zero ((changed_eq_iff v w).mp heq), rfl⟩
    case isFalse hone =>
      rw [changed_eq_iff, not_not] at hone
      obtain ⟨i, dChanged, hi, rfl⟩ := ih h
      exact ⟨i + 1, dChanged, least_faultyAt_succ hone hi, by rw [Nat.add_assoc, Nat.add_comm 1]⟩

theorem dsDecode_eq (dLevels sLevels : List Bool) (d s : Bool) :
    dsDecode (dLevels.map bitValue) (sLevels.map bitValue) (bitValue d) (bitValue s) =
      if dLevels.length ≠ sLevels.length then
        .error (.valueError ("d_levels and s_levels must have the same length " ++
          s!"(got {dLevels.length} and {sLevels.length})"))
      else
        match dsValidate 0 (d, s) (dLevels.zip sLevels) with
        | .error err => .error err
        | .ok () => .ok dLevels := by
  simp only [dsDecode, dsBits_map_bitValue, dsBit_bitValue, bind, Except.bind]
  by_cases hlen : dLevels.length ≠ sLevels.length
  · rw [if_pos hlen, if_pos hlen]
    rfl
  · rw [if_neg hlen, if_neg hlen]
    simp only [if_true]
    cases dsValidate 0 (d, s) (dLevels.zip sLevels) <;> rfl

theorem dsValidate_ok_iff {v : Levels} {dLevels sLevels : List Bool}
    (hlen : dLevels.length = sLevels.length) :
    dsValidate 0 v (dLevels.zip sLevels) = .ok () ↔ (wave v dLevels).map Prod.snd = sLevels := by
  constructor
  · intro h
    have hwave := dsValidate_ok h
    rw [List.map_fst_zip hlen.le] at hwave
    rw [hwave, List.map_snd_zip hlen.ge]
  · rintro rfl
    have hzip : dLevels.zip ((wave v dLevels).map Prod.snd) = wave v dLevels := by
      have hunzip := List.zip_unzip (wave v dLevels)
      rwa [List.unzip_fst, List.unzip_snd, map_fst_wave] at hunzip
    rw [hzip]
    exact dsValidate_wave 0 v dLevels

def encodeBits (bits : List Bool) (d s : Bool) : Except Exn (List Bool × List Bool) :=
  dsEncode (bits.map bitValue) (bitValue d) (bitValue s)

def decodeLevels (dLevels sLevels : List Bool) (d s : Bool) : Except Exn (List Bool) :=
  dsDecode (dLevels.map bitValue) (sLevels.map bitValue) (bitValue d) (bitValue s)

theorem encodeBits_ok_iff {bits dLevels sLevels : List Bool} {d s : Bool} :
    encodeBits bits d s = .ok (dLevels, sLevels) ↔
      bits = dLevels ∧ (wave (d, s) dLevels).map Prod.snd = sLevels := by
  simp only [encodeBits, dsEncode_eq, map_fst_wave, Except.ok.injEq, Prod.mk.injEq]
  constructor <;>
    · rintro ⟨rfl, h⟩
      exact ⟨rfl, h⟩

theorem decodeLevels_ok_iff {bits dLevels sLevels : List Bool} {d s : Bool} :
    decodeLevels dLevels sLevels d s = .ok bits ↔
      bits = dLevels ∧ (wave (d, s) dLevels).map Prod.snd = sLevels := by
  rw [decodeLevels, dsDecode_eq]
  by_cases hlen : dLevels.length = sLevels.length
  · rw [if_neg (not_not.mpr hlen), ← dsValidate_ok_iff hlen]
    cases dsValidate 0 (d, s) (dLevels.zip sLevels) with
    | ok u => simp [eq_comm]
    | error err => simp
  · rw [if_pos hlen]
    have hne : (wave (d, s) dLevels).map Prod.snd ≠ sLevels := by
      rintro rfl
      exact hlen (by simp)
    simp [hne]

/-- Decoding accepts exactly the levels of a stream, and gives that stream back. -/
theorem dsDecode_accepts_image (dLevels sLevels : List Bool) (d s : Bool) :
    (∀ bits, decodeLevels dLevels sLevels d s = .ok bits ↔
        encodeBits bits d s = .ok (dLevels, sLevels)) ∧
      (∀ bits bits', encodeBits bits d s = .ok (dLevels, sLevels) →
        encodeBits bits' d s = .ok (dLevels, sLevels) → bits = bits') ∧
      ((¬∃ bits, encodeBits bits d s = .ok (dLevels, sLevels)) →
        (∃ message, decodeLevels dLevels sLevels d s = .error (.valueError message)) ∧
          (dLevels.length = sLevels.length → ∃ i dChanged,
            IsLeast {i | FaultyAt (d, s) (dLevels.zip sLevels) i} i ∧
              decodeLevels dLevels sLevels d s = .error (invalidTransition i dChanged))) := by
  refine ⟨fun bits => decodeLevels_ok_iff.trans encodeBits_ok_iff.symm, fun bits bits' h h' => ?_,
    fun hno => ?_⟩
  · exact (encodeBits_ok_iff.mp h).1.trans (encodeBits_ok_iff.mp h').1.symm
  · have hdecoded := dsDecode_eq dLevels sLevels d s
    rw [← decodeLevels] at hdecoded
    by_cases hlen : dLevels.length = sLevels.length
    · rw [if_neg (not_not.mpr hlen)] at hdecoded
      cases hvalid : dsValidate 0 (d, s) (dLevels.zip sLevels) with
      | ok u =>
        have hwave := (dsValidate_ok_iff hlen).mp hvalid
        exact absurd ⟨_, encodeBits_ok_iff.mpr ⟨rfl, hwave⟩⟩ hno
      | error err =>
        rw [hvalid] at hdecoded
        obtain ⟨i, dChanged, hi, rfl⟩ := dsValidate_error hvalid
        rw [Nat.zero_add] at hdecoded
        exact ⟨⟨_, hdecoded⟩, fun _ => ⟨i, dChanged, hi, hdecoded⟩⟩
    · rw [if_pos hlen] at hdecoded
      exact ⟨⟨_, hdecoded⟩, fun h => absurd h hlen⟩

example : dsDecode [0, 1, 0] [1, 1, 0] = .error (invalidTransition 2 true) := by rfl

end SpaceWire
