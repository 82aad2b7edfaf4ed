import SpaceWire.RoundTrip

namespace SpaceWire

namespace Character

def escapedByte (c : Character) : Option Int :=
  match c.type with
  | .timecode => c.codeValue.or (c.value.map (· % 64))
  | .broadcast => c.value.or (Encoder.broadcastByte c).toOption
  | _ => none

/-- A byte that is only looked at after ESC, and is not one. -/
inductive RejectedAfterEsc (c : Character) : Prop
  | timeCode {v : Int} (ht : c.type = .timecode) (hv : c.codeValue = some v)
      (hout : ¬(0 ≤ v ∧ v ≤ 255))
  | value {v : Int} (ht : c.type = .broadcast) (hv : c.value = some v) (hout : ¬(0 ≤ v ∧ v ≤ 255))
  | typeField (ht : c.type = .broadcast) (hv : c.value = none)
      (hcode : 0 ≤ c.codeValue.getD 0 ∧ c.codeValue.getD 0 ≤ 63)
      (hout : ¬(0 ≤ c.typeField.getD 2 ∧ c.typeField.getD 2 ≤ 3))

end Character

namespace Encoder

variable {e : Encoder} {c : Character} {v : Int}

theorem broadcastByte_cases (c : Character) :
    (∃ err, broadcastByte c = .error err) ∨
      (0 ≤ c.codeValue.getD 0 ∧ c.codeValue.getD 0 ≤ 63) ∧
        broadcastByte c = .ok (c.typeField.getD 2 * 64 + c.codeValue.getD 0) := by
  by_cases h : 0 ≤ c.codeValue.getD 0 ∧ c.codeValue.getD 0 ≤ 0x3F
  · right
    refine ⟨h, ?_⟩
    simp only [broadcastByte, sixBit, if_pos h]
    rfl
  · left
    simp only [broadcastByte, sixBit, if_neg h]
    exact ⟨_, rfl⟩

theorem encodeData_error (e : Encoder) (h : ¬(0 ≤ v ∧ v ≤ 255)) :
    ∃ err, e.encodeData v = (e, .error err) := by
  simp only [encodeData, byteToLsbBits, byte, if_neg h]
  exact ⟨_, rfl⟩

theorem encodeData_error_state {e' : Encoder} {err : Exn}
    (h : e.encodeData v = (e', .error err)) : e' = e := by
  unfold encodeData at h
  split at h <;> cases h
  rfl

theorem encodeData_total (e : Encoder) (h : 0 ≤ v ∧ v ≤ 255) :
    ∃ e' bits, e.encodeData v = (e', .ok bits) := by
  simp only [encodeData, byteToLsbBits_ok h]
  exact ⟨_, _, rfl⟩

theorem encodeEscaped_error (e : Encoder) (h : ¬(0 ≤ v ∧ v ≤ 255)) :
    ∃ err, e.encodeEscaped v = ((e.encodeControl .esc).1, .error err) := by
  obtain ⟨err, herr⟩ := encodeData_error (e.encodeControl .esc).1 h
  exact ⟨err, by simp only [encodeEscaped, herr, Except.map]⟩

theorem encodeEscaped_total (e : Encoder) (h : 0 ≤ v ∧ v ≤ 255) :
    ∃ e' bits, e.encodeEscaped v = (e', .ok bits) := by
  obtain ⟨e', bits, hok⟩ := encodeData_total (e.encodeControl .esc).1 h
  exact ⟨e', _, by simp only [encodeEscaped, hok, Except.map]; rfl⟩

theorem encode_escapedByte (e : Encoder) (h : c.escapedByte = some v) :
    e.encode c = e.encodeEscaped v := by
  unfold Character.escapedByte at h
  unfold encode
  cases ht : c.type <;> simp only [ht, reduceCtorEq] at h ⊢
  · cases hc : c.codeValue with
    | some code =>
      simp only [hc, Option.some_or, Option.some.injEq] at h
      rw [h]
    | none =>
      cases hv : c.value with
      | none => simp [hc, hv] at h
      | some value =>
        simp only [hc, hv, Option.none_or, Option.map_some, Option.some.injEq] at h
        rw [← h]
  · cases hv : c.value with
    | some value =>
      simp only [hv, Option.some_or, Option.some.injEq] at h
      rw [h]
    | none =>
      cases hb : broadcastByte c with
      | error err => simp [hv, hb, Except.toOption] at h
      | ok value =>
        simp only [hv, hb, Option.none_or, Except.toOption, Option.some.injEq] at h
        rw [h]

theorem encode_no_escapedByte (e : Encoder) (ht : c.type = .timecode ∨ c.type = .broadcast)
    (h : c.escapedByte = none) : ∃ err, e.encode c = (e, .error err) := by
  unfold Character.escapedByte at h
  unfold encode
  obtain ht | ht := ht <;> simp only [ht] at h ⊢
  · obtain ⟨hc, hv⟩ := Option.or_eq_none_iff.mp h
    rw [hc, Option.map_eq_none_iff.mp hv]
    exact ⟨_, rfl⟩
  · obtain ⟨hv, hb⟩ := Option.or_eq_none_iff.mp h
    obtain ⟨err, hb'⟩ | ⟨-, hb'⟩ := broadcastByte_cases c
    · rw [hv, hb']
      exact ⟨_, rfl⟩
    · rw [hb'] at hb
      cases hb

theorem escapedByte_of_ok {e' : Encoder} {bits : List Bool}
    (ht : c.type = .timecode ∨ c.type = .broadcast) (h : e.encode c = (e', .ok bits)) :
    ∃ v, c.escapedByte = some v ∧ 0 ≤ v ∧ v ≤ 255 := by
  cases hb : c.escapedByte with
  | none =>
    obtain ⟨err, herr⟩ := e.encode_no_escapedByte ht hb
    rw [herr] at h
    cases h
  | some v =>
    refine ⟨v, rfl, ?_⟩
    by_contra hv
    obtain ⟨err, herr⟩ := e.encodeEscaped_error hv
    rw [encode_escapedByte e hb, herr] at h
    cases h

theorem encode_error_of_none {e' : Encoder} {err : Exn} (h : c.escapedByte = none)
    (herr : e.encode c = (e', .error err)) : e' = e := by
  cases ht : c.type with
  | fct | eop | eep | esc | null =>
    simp only [encode, ht] at herr
    cases herr
  | data =>
    simp only [encode, ht] at herr
    cases hv : c.value with
    | none =>
      rw [hv] at herr
      cases herr
      rfl
    | some value =>
      rw [hv] at herr
      exact encodeData_error_state herr
  | timecode =>
    obtain ⟨err', hno⟩ := e.encode_no_escapedByte (.inl ht) h
    rw [hno] at herr
    cases herr
    rfl
  | broadcast =>
    obtain ⟨err', hno⟩ := e.encode_no_escapedByte (.inr ht) h
    rw [hno] at herr
    cases herr
    rfl

theorem rejectedAfterEsc_iff :
    c.RejectedAfterEsc ↔ ∃ v, c.escapedByte = some v ∧ ¬(0 ≤ v ∧ v ≤ 255) := by
  constructor
  · rintro (⟨ht, hv, hout⟩ | ⟨ht, hv, hout⟩ | ⟨ht, hv, hcode, hout⟩)
    · exact ⟨_, by simp only [Character.escapedByte, ht, hv, Option.some_or], hout⟩
    · exact ⟨_, by simp only [Character.escapedByte, ht, hv, Option.some_or], hout⟩
    · obtain ⟨err, hb⟩ | ⟨-, hb⟩ := broadcastByte_cases c
      · simp [broadcastByte, sixBit, hcode] at hb
      · refine ⟨_, by simp only [Character.escapedByte, ht, hv, hb]; rfl, ?_⟩
        omega
  · rintro ⟨v, hv, hout⟩
    unfold Character.escapedByte at hv
    cases ht : c.type <;> simp only [ht, reduceCtorEq] at hv
    · obtain hcode | ⟨-, hvalue⟩ := Option.or_eq_some_iff.mp hv
      · exact .timeCode ht hcode hout
      · obtain ⟨value, -, rfl⟩ := Option.map_eq_some_iff.mp hvalue
        omega
    · obtain hvalue | ⟨hnone, hbyte⟩ := Option.or_eq_some_iff.mp hv
      · exact .value ht hvalue hout
      · obtain ⟨err, hb⟩ | ⟨hcode, hb⟩ := broadcastByte_cases c
        · simp [hb, Except.toOption] at hbyte
        · simp only [hb, Except.toOption, Option.some.injEq] at hbyte
          exact .typeField ht hnone hcode (by omega)

theorem mem_advanceBadParityRequests {offsets : List Nat} {k : Nat} :
    k ∈ advanceBadParityRequests offsets ↔ k + 1 ∈ offsets := by
  simp only [advanceBadParityRequests, List.mem_map, List.mem_filter, decide_eq_true_eq]
  constructor
  · rintro ⟨n, ⟨hn, hpos⟩, rfl⟩
    rwa [Nat.sub_add_cancel hpos]
  · exact fun h => ⟨k + 1, ⟨h, Nat.succ_pos k⟩, rfl⟩

theorem advanceBadParityRequests_eq_self {offsets : List Nat} :
    advanceBadParityRequests offsets = offsets ↔ offsets = [] := by
  constructor
  · intro h
    by_contra hne
    obtain ⟨m, hm, hle⟩ : ∃ m ∈ offsets, ∀ n ∈ offsets, n ≤ m :=
      ⟨_, List.max_mem hne, fun _ hn => List.le_max_of_mem hn⟩
    rw [← h, mem_advanceBadParityRequests] at hm
    exact absurd (hle _ hm) (Nat.not_succ_le_self m)
  · rintro rfl
    rfl

theorem encodeControl_esc_eq_self :
    (e.encodeControl .esc).1 = e ↔ e.prevContentBits = [true, true] ∧ e.badParityOffsets = [] := by
  obtain ⟨prev, offsets⟩ := e
  simp only [encodeControl, encodePrimitive, controlContentBits, Option.getD_some, mk.injEq,
    advanceBadParityRequests_eq_self, @eq_comm _ _ prev]

/-- A request that is rejected leaves the encoder as it was, unless ESC has gone out first. -/
theorem encode_atomic_iff (e : Encoder) (c : Character) :
    (∀ e' err, e.encode c = (e', .error err) → e' = e) ↔
      ¬c.RejectedAfterEsc ∨ e.prevContentBits = [true, true] ∧ e.badParityOffsets = [] := by
  rw [rejectedAfterEsc_iff, ← encodeControl_esc_eq_self]
  cases hb : c.escapedByte with
  | none => simpa using fun e' err herr => encode_error_of_none hb herr
  | some v =>
    rw [encode_escapedByte e hb]
    by_cases hv : 0 ≤ v ∧ v ≤ 255
    · obtain ⟨e', bits, hok⟩ := e.encodeEscaped_total hv
      simp [hok, hv]
    · obtain ⟨err, herr⟩ := e.encodeEscaped_error hv
      simp [herr, hv]

/-- A time-code of 300 is rejected after a data character, and the FCT that follows is
received with a parity error. -/
theorem encode_rejects_after_esc :
    let e := ((new).encode { type := .data, value := some 1 }).1
    let rejected := e.encode { type := .timecode, codeValue := some 300 }
    (∃ err, rejected.2 = .error err) ∧ rejected.1 ≠ e ∧
      ∃ sent after, ((new).encode { type := .data, value := some 1 }).2 = .ok sent ∧
        (rejected.1.encode (.ofType .fct)).2 = .ok after ∧
        ((Decoder.new).push (sent ++ after)).2.map Character.parityOk = [true, false] :=
  ⟨⟨_, rfl⟩, by decide, _, _, rfl, rfl, by decide⟩

end Encoder

open Encoder Decoder Primitive

/-- What a receiver may expect of a request for a data character, a time-code or a broadcast. -/
def Represents (request decoded : Character) : Prop :=
  match request.type with
  | .data => decoded.type = .data ∧ decoded.value = request.value
  | .timecode => decoded.type = .timecode
  | .broadcast =>
    match request.value with
    | some value => decoded.value = some value
    | none => decoded.typeField = some (request.typeField.getD 0b10) ∧
        decoded.codeValue = some (request.codeValue.getD 0)
  | _ => True

section represents

variable {prev : List Bool} {d : Decoder} {c : Character} {v : Int}

theorem push_encodeEscaped (hd : d.AtBoundary) (hnone : d.pendingEscape = none)
    (hv : 0 ≤ v ∧ v ≤ 255) :
    ∃ e' bits decoded, (Encoder.new d.prevContentBits).encodeEscaped v = (e', .ok bits) ∧
      (d.push bits).2 = [decoded] ∧ (decoded.type = .timecode ↔ v < 64) ∧
      decoded.value = some v ∧ decoded.typeField = some (v / 64) ∧
      decoded.codeValue = some (v % 64) := by
  obtain ⟨n, rfl⟩ := Int.eq_ofNat_of_zero_le hv.1
  obtain ⟨decoded, hpush, htype, hvalue, htf, hcv, -⟩ :=
    RoundTrip.push_escapedData hd hnone (b := n) (by omega)
  refine ⟨_, _, decoded, encodeEscaped_new _ hv,
    by simpa [RoundTrip.escape] using congrArg Prod.snd hpush, ?_, hvalue, htf, hcv⟩
  rw [htype]
  by_cases h0 : n / 64 = 0
  · simp [h0]
    omega
  · simp [h0]
    omega

theorem push_escapedByte (hd : d.AtBoundary) (hnone : d.pendingEscape = none)
    (ht : c.type = .timecode ∨ c.type = .broadcast) {e' : Encoder} {bits : List Bool}
    (henc : (Encoder.new d.prevContentBits).encode c = (e', .ok bits)) :
    ∃ v decoded, c.escapedByte = some v ∧ (0 ≤ v ∧ v ≤ 255) ∧ (d.push bits).2 = [decoded] ∧
      (decoded.type = .timecode ↔ v < 64) ∧ decoded.value = some v ∧
      decoded.typeField = some (v / 64) ∧ decoded.codeValue = some (v % 64) := by
  obtain ⟨v, hb, hv⟩ := escapedByte_of_ok ht henc
  obtain ⟨e'', bits', decoded, hok, hread⟩ := push_encodeEscaped hd hnone hv
  rw [encode_escapedByte _ hb, hok] at henc
  cases henc
  exact ⟨v, decoded, hb, hv, hread⟩

theorem push_data (hd : d.AtBoundary) (hnone : d.pendingEscape = none) (ht : c.type = .data)
    {e' : Encoder} {bits : List Bool}
    (henc : (Encoder.new d.prevContentBits).encode c = (e', .ok bits)) :
    ∃ decoded, (d.push bits).2 = [decoded] ∧ Represents c decoded := by
  simp only [encode, ht] at henc
  cases hv : c.value with
  | none =>
    rw [hv] at henc
    cases henc
  | some v =>
    simp only [hv] at henc
    by_cases hb : 0 ≤ v ∧ v ≤ 255
    · rw [encodeData_new _ hb] at henc
      cases henc
      have hpush := RoundTrip.push_single hd hnone (p := ⟨false, lsbBits v.toNat⟩)
        (by simp [WellFormed]) (by simp [RoundTrip.decodedAs])
      have hread : lsbBitsToNat (lsbBits v.toNat) = v.toNat := lsbBitsToNat_lsbBits (by omega)
      refine ⟨_, by simpa [stream] using congrArg Prod.snd hpush, ?_⟩
      simp [Represents, ht, RoundTrip.decodedAs, hread, hv, hb.1]
    · obtain ⟨err, herr⟩ := (Encoder.new d.prevContentBits).encodeData_error hb
      rw [herr] at henc
      cases henc

theorem push_timeCode (hd : d.AtBoundary) (hnone : d.pendingEscape = none)
    (ht : c.type = .timecode) (hv : c.codeValue = some v) :
    (∀ e' bits, (Encoder.new d.prevContentBits).encode c = (e', .ok bits) →
        ∃ decoded, (d.push bits).2 = [decoded] ∧ Represents c decoded) ↔
      ¬(64 ≤ v ∧ v ≤ 255) := by
  have hb : c.escapedByte = some v := by simp only [Character.escapedByte, ht, hv, Option.some_or]
  constructor
  · rintro h ⟨h64, h255⟩
    obtain ⟨e', bits, decoded, hok, hpush, htype, -⟩ :=
      @push_encodeEscaped d v hd hnone ⟨by omega, h255⟩
    obtain ⟨decoded', hpush', hread⟩ := h e' bits (by rw [encode_escapedByte _ hb, hok])
    rw [hpush] at hpush'
    cases hpush'
    simp only [Represents, ht] at hread
    have hlt := htype.mp hread
    omega
  · intro h e' bits henc
    obtain ⟨v', decoded, hb', hbyte, hpush, htype, -⟩ := push_escapedByte hd hnone (.inl ht) henc
    obtain rfl := Option.some.inj (hb.symm.trans hb')
    refine ⟨decoded, hpush, ?_⟩
    simp only [Represents, ht]
    exact htype.mpr (by omega)

theorem push_timeCode_value (hd : d.AtBoundary) (hnone : d.pendingEscape = none)
    (ht : c.type = .timecode) (hc : c.codeValue = none) {e' : Encoder} {bits : List Bool}
    (henc : (Encoder.new d.prevContentBits).encode c = (e', .ok bits)) :
    ∃ decoded, (d.push bits).2 = [decoded] ∧ Represents c decoded := by
  obtain ⟨v, decoded, hb, -, hpush, htype, -⟩ := push_escapedByte hd hnone (.inl ht) henc
  simp only [Character.escapedByte, ht, hc, Option.none_or, Option.map_eq_some_iff] at hb
  obtain ⟨value, -, rfl⟩ := hb
  refine ⟨decoded, hpush, ?_⟩
  simp only [Represents, ht]
  exact htype.mpr (by omega)

theorem push_broadcast (hd : d.AtBoundary) (hnone : d.pendingEscape = none)
    (ht : c.type = .broadcast) {e' : Encoder} {bits : List Bool}
    (henc : (Encoder.new d.prevContentBits).encode c = (e', .ok bits)) :
    ∃ decoded, (d.push bits).2 = [decoded] ∧ Represents c decoded := by
  obtain ⟨v, decoded, hb, -, hpush, -, hvalue, htf, hcv⟩ :=
    push_escapedByte hd hnone (.inr ht) henc
  refine ⟨decoded, hpush, ?_⟩
  cases hv : c.value with
  | some value =>
    simp only [Character.escapedByte, ht, hv, Option.some_or] at hb
    simpa only [Represents, ht, hv, hb] using hvalue
  | none =>
    simp only [Character.escapedByte, ht, hv, Option.none_or] at hb
    obtain ⟨err, hbyte⟩ | ⟨hcode, hbyte⟩ := broadcastByte_cases c
    · simp [hbyte, Except.toOption] at hb
    · simp only [hbyte, Except.toOption, Option.some.injEq] at hb
      simp only [Represents, ht, hv]
      rw [htf, hcv]
      constructor
      · congr 1
        omega
      · congr 1
        omega

end represents

/-- An accepted request is read as what it was made for, unless it is a time-code whose code
value takes the bits of a type field. -/
theorem represents_iff {e : Encoder} (he : e.badParityOffsets = []) {d : Decoder}
    (hd : d.AtBoundary) (hnone : d.pendingEscape = none)
    (hprev : d.prevContentBits = e.prevContentBits) {request : Character}
    (ht : request.type = .data ∨ request.type = .timecode ∨ request.type = .broadcast) :
    (∀ e' bits, e.encode request = (e', .ok bits) →
        ∃ decoded, (d.push bits).2 = [decoded] ∧ Represents request decoded) ↔
      ¬(request.type = .timecode ∧ ∃ v, request.codeValue = some v ∧ 64 ≤ v ∧ v ≤ 255) := by
  obtain ⟨prev, offsets⟩ := e
  simp only at he hprev
  subst he hprev
  change (∀ e' bits, (Encoder.new d.prevContentBits).encode request = _ → _) ↔ _
  obtain ht | ht | ht := ht
  · simp only [ht, reduceCtorEq, false_and, not_false_eq_true, iff_true]
    exact fun e' bits henc => push_data hd hnone ht henc
  · cases hc : request.codeValue with
    | some v => simpa [ht] using push_timeCode hd hnone ht hc
    | none =>
      simp only [reduceCtorEq, false_and, exists_false, and_false, not_false_eq_true, iff_true]
      exact fun e' bits henc => push_timeCode_value hd hnone ht hc henc
  · simp only [ht, reduceCtorEq, false_and, not_false_eq_true, iff_true]
    exact fun e' bits henc => push_broadcast hd hnone ht henc

theorem represents_iff_new :
    ∃ e' bits decoded, (Encoder.new).encode { type := .timecode, codeValue := some 64 } =
        (e', .ok bits) ∧
      ((Decoder.new).push bits).2 = [decoded] ∧ decoded.type = .broadcast ∧
      ¬∀ e' bits, (Encoder.new).encode { type := .timecode, codeValue := some 64 } =
          (e', .ok bits) →
        ∃ decoded, ((Decoder.new).push bits).2 = [decoded] ∧
          Represents { type := .timecode, codeValue := some 64 } decoded :=
  ⟨_, _, _, rfl, rfl, rfl, fun h =>
    (@represents_iff Encoder.new rfl Decoder.new ⟨rfl, rfl⟩ rfl rfl
      { type := .timecode, codeValue := some 64 } (.inr (.inl rfl))).mp h
        ⟨rfl, 64, rfl, by decide, by decide⟩⟩

/-- A time-code of 200 is accepted and read as a broadcast. -/
theorem timeCode_misread :
    ∃ bits decoded, ((Encoder.new).encode { type := .timecode, codeValue := some 200 }).2 =
        .ok bits ∧
      ((Decoder.new).push bits).2 = [decoded] ∧ decoded.type = .broadcast ∧
        ¬Represents { type := .timecode, codeValue := some 200 } decoded :=
  ⟨_, _, rfl, rfl, rfl, by unfold Represents; decide⟩

end SpaceWire
