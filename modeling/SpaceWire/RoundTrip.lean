import SpaceWire.Decoder

namespace SpaceWire.RoundTrip

open Primitive Decoder

/-- What the decoder makes of a request: its type and payload, and for an escaped code
the fields of the byte on the wire. A broadcast whose type field is zero is a time-code, and
the type fields 1 and 3 are reserved. -/
structure ReadBack (request decoded : Character) : Prop where
  type : decoded.type =
    if request.type = .broadcast ∧ request.typeField = some 0 then .timecode else request.type
  value : decoded.value = request.value
  typeField : decoded.typeField = request.typeField
  codeValue : decoded.codeValue = request.codeValue
  wireByte : request.type = .timecode ∨ request.type = .broadcast → ∃ b : Nat, b < 256 ∧
    decoded.rawBits.drop 6 = lsbBits b ∧ decoded.value = some (b : Int) ∧
    decoded.typeField = some (b / 64 : Int) ∧ decoded.codeValue = some (b % 64 : Int)
  parityOk : decoded.parityOk = true
  error : decoded.error =
    if request.type = .broadcast ∧ (request.typeField = some 1 ∨ request.typeField = some 3)
    then [.reservedEscapeDataType] else []

def decodedAs (prev : List Bool) (p : Primitive) : Character :=
  { type := if p.dcFlag then controlTypeByBits p.contentBits else .data
    value := if p.dcFlag then none else some (lsbBitsToNat p.contentBits)
    rawBits := p.bits prev
    expectedParity := some (computeParity prev p.dcFlag)
    gotParity := some (computeParity prev p.dcFlag)
    parityChecks :=
      [{ bitIndex := 0
         expected := computeParity prev p.dcFlag
         got := computeParity prev p.dcFlag
         prevContentBits := prev
         dcFlag := p.dcFlag }] }

def escape : Primitive := ⟨true, [true, true]⟩

theorem rawPrimitive_bits (prev : List Bool) {p : Primitive} (hp : p.WellFormed) :
    RawPrimitive (p.bits prev) := ⟨_, _, _, rfl, hp⟩

theorem push_primitive {d : Decoder} (hd : d.AtBoundary) {p : Primitive} (hp : p.WellFormed) :
    d.push (p.bits d.prevContentBits) =
      { d with prevContentBits := p.contentBits }.resolvePrimitive
        (decodedAs d.prevContentBits p) := by
  obtain ⟨dc, content⟩ := p
  obtain ⟨hbuf, hlen⟩ := hd
  have hframe : ({ d with buffer := [], expectedLen := none } : Decoder) = d := by
    rw [← hbuf, ← hlen]
  rw [push_raw ⟨hbuf, hlen⟩ (rawPrimitive_bits _ hp)]
  have hc : content.length = if dc then 2 else 8 := hp
  have hparse : d.parsePrimitive (Primitive.bits d.prevContentBits ⟨dc, content⟩) =
      ({ d with prevContentBits := content }, decodedAs d.prevContentBits ⟨dc, content⟩) := by
    cases dc with
    | false =>
      have htake : content.take 8 = content := List.take_of_length_le hc.le
      simp [parsePrimitive, Primitive.bits, decodedAs, htake]
    | true =>
      have htake : content.take 2 = content := List.take_of_length_le hc.le
      simp [parsePrimitive, Primitive.bits, decodedAs, htake]
  simp only [complete, hframe, hparse]

theorem push_escaped {d : Decoder} (hd : d.AtBoundary) (hnone : d.pendingEscape = none)
    {p : Primitive} (hp : p.WellFormed) :
    d.push (stream d.prevContentBits [escape, p]) =
      { d with prevContentBits := p.contentBits,
               pendingEscape := some (decodedAs d.prevContentBits escape) }.resolvePrimitive
        (decodedAs [true, true] p) := by
  have hesc : d.push (escape.bits d.prevContentBits) =
      ({ d with prevContentBits := [true, true],
                pendingEscape := some (decodedAs d.prevContentBits escape) }, []) := by
    rw [push_primitive hd (by rfl)]
    simp [resolvePrimitive, hnone, decodedAs, escape, controlTypeByBits]
  let held : Decoder :=
    { d with prevContentBits := [true, true],
             pendingEscape := some (decodedAs d.prevContentBits escape) }
  have hp' := push_primitive (d := held) hd hp
  simp only [stream, List.append_nil, push_append, hesc, List.nil_append]
  exact hp'

theorem push_single {d : Decoder} (hd : d.AtBoundary) (hnone : d.pendingEscape = none)
    {p : Primitive} (hp : p.WellFormed) (hesc : (decodedAs d.prevContentBits p).type ≠ .esc) :
    d.push (stream d.prevContentBits [p]) =
      ({ d with prevContentBits := p.contentBits }, [decodedAs d.prevContentBits p]) := by
  simp only [stream, List.append_nil, push_primitive hd hp]
  simp [resolvePrimitive, hnone, hesc]

theorem push_escapedData {d : Decoder} (hd : d.AtBoundary) (hnone : d.pendingEscape = none)
    {b : Nat} (hb : b < 256) :
    ∃ decoded, d.push (stream d.prevContentBits [escape, ⟨false, lsbBits b⟩]) =
        ({ d with prevContentBits := lsbBits b }, [decoded]) ∧
      decoded.type = (if b / 64 = 0 then .timecode else .broadcast) ∧
      decoded.value = some (b : Int) ∧ decoded.typeField = some (b / 64 : Int) ∧
      decoded.codeValue = some (b % 64 : Int) ∧ decoded.rawBits.drop 6 = lsbBits b ∧
      decoded.parityOk = true ∧
      decoded.error = (if b / 64 = 1 ∨ b / 64 = 3 then [.reservedEscapeDataType] else []) := by
  have hv := lsbBitsToNat_lsbBits hb
  rw [push_escaped hd hnone (by simp [WellFormed])]
  have hdiv : b / 64 = 0 ∨ b / 64 = 1 ∨ b / 64 = 2 ∨ b / 64 = 3 := by omega
  have hz : (b : Int) / 64 = ((b / 64 : Nat) : Int) := by omega
  obtain h | h | h | h := hdiv <;>
    refine ⟨decodeEscapedData (decodedAs d.prevContentBits escape)
      (decodedAs [true, true] ⟨false, lsbBits b⟩), ?_⟩ <;>
    simp [resolvePrimitive, decodeEscapedData, combineEscaped, decodedAs, escape, hv, hz, h,
      combineErrors, Primitive.bits, hnone]

theorem push_request {d : Decoder} (hd : d.AtBoundary) (hnone : d.pendingEscape = none)
    {c : Character} (hc : Legal c) :
    ∃ decoded, d.push (stream d.prevContentBits c.primitives) =
        ({ d with prevContentBits := lastContent d.prevContentBits c.primitives }, [decoded]) ∧
      ReadBack c decoded := by
  cases hc with
  | fct | eop | eep =>
    refine ⟨_, push_single hd hnone (by rfl) (fun h => by cases h), ?_⟩
    constructor <;> simp [decodedAs, Character.ofType, controlContentBits, controlTypeByBits]
  | null =>
    refine ⟨combineEscaped (decodedAs d.prevContentBits escape)
      (decodedAs [true, true] ⟨true, [false, false]⟩) .null none none none [], ?_, ?_⟩
    · have hpush := push_escaped hd hnone (p := ⟨true, [false, false]⟩) (by rfl)
      apply hpush.trans
      simp only [hnone]
      rfl
    · constructor <;>
        simp [combineEscaped, decodedAs, Encoder.null, Character.ofType, combineErrors]
  | data h =>
    obtain ⟨hb, rfl⟩ := Encoder.data_ok h
    rename_i b
    refine ⟨_, push_single hd hnone (by simp [WellFormed]) (by simp [decodedAs]), ?_⟩
    have hv : lsbBitsToNat (lsbBits b.toNat) = b.toNat := lsbBitsToNat_lsbBits (by omega)
    constructor <;> simp [decodedAs, hv, hb.1]
  | timeCode h =>
    obtain ⟨hv, rfl⟩ := Encoder.timeCode_ok h
    rename_i v
    obtain ⟨n, rfl⟩ := Int.eq_ofNat_of_zero_le hv.1
    obtain ⟨decoded, hpush, htype, hvalue, htf, hcv, hraw, hpar, herr⟩ :=
      push_escapedData hd hnone (b := n) (by omega)
    have h0 : n / 64 = 0 := by omega
    refine ⟨decoded, hpush, ⟨?_, ?_, ?_, ?_, ?_, hpar, ?_⟩⟩
    · simp [htype, h0]
    · simpa using hvalue
    · rw [htf]; congr 1; omega
    · rw [hcv]; congr 1; omega
    · exact fun _ => ⟨n, by omega, hraw, hvalue, htf, hcv⟩
    · simp [herr, h0]
  | broadcast h =>
    obtain ⟨hv, ht, rfl⟩ := Encoder.broadcast_ok h
    rename_i v t
    obtain ⟨n, rfl⟩ := Int.eq_ofNat_of_zero_le hv.1
    obtain ⟨m, rfl⟩ := Int.eq_ofNat_of_zero_le ht.1
    obtain ⟨decoded, hpush, htype, hvalue, htf, hcv, hraw, hpar, herr⟩ :=
      push_escapedData hd hnone (b := m * 64 + n) (by omega)
    have hdiv : (m * 64 + n) / 64 = m := by omega
    refine ⟨decoded, hpush, ⟨?_, ?_, ?_, ?_, ?_, hpar, ?_⟩⟩
    · rw [htype, hdiv]
      by_cases h0 : m = 0 <;> simp [h0]
    · simpa using hvalue
    · rw [htf]; congr 1; omega
    · rw [hcv]; congr 1; omega
    · exact fun _ => ⟨m * 64 + n, by omega, hraw, hvalue, htf, hcv⟩
    · have h1 : (m : Int) = 1 ↔ m = 1 := by omega
      have h3 : (m : Int) = 3 ↔ m = 3 := by omega
      simp [herr, hdiv, h1, h3]

/-- The decoder follows a legal chain from any point between two characters. -/
theorem push_requests {d : Decoder} (hd : d.AtBoundary) (hnone : d.pendingEscape = none)
    {cs : List Character} (hcs : ∀ c ∈ cs, Legal c) :
    ∃ decoded, d.push (stream d.prevContentBits (cs.flatMap Character.primitives)) =
        ({ d with prevContentBits :=
            lastContent d.prevContentBits (cs.flatMap Character.primitives) }, decoded) ∧
      List.Forall₂ ReadBack cs decoded := by
  induction cs generalizing d with
  | nil => exact ⟨[], rfl, .nil⟩
  | cons c cs ih =>
    obtain ⟨one, hone, hread⟩ := push_request hd hnone (hcs c (by simp))
    obtain ⟨rest, hrest, hreads⟩ := ih
      (d := { d with prevContentBits := lastContent d.prevContentBits c.primitives })
      hd hnone (fun c' hc' => hcs c' (by simp [hc']))
    refine ⟨one :: rest, ?_, .cons hread hreads⟩
    simp only [List.flatMap_cons, stream_append, lastContent_append, push_append, hone]
    simp only at hrest
    simp [hrest]

/-- What one encoder writes, one decoder that starts from the same content reads back, one
character for each request, and the two end in the same parity state. -/
theorem decode_encode (prev : List Bool) (requests : List Character)
    (hlegal : ∀ c ∈ requests, Legal c) :
    ∃ bits, ((Encoder.new prev).encodeAll requests).2 = .ok bits ∧
      List.Forall₂ ReadBack requests ((Decoder.new prev).push bits).2 ∧
      ((Decoder.new prev).push bits).1.buffer = [] ∧
      ((Decoder.new prev).push bits).1.expectedLen = none ∧
      ((Decoder.new prev).push bits).1.pendingEscape = none ∧
      ((Decoder.new prev).push bits).1.prevContentBits =
        ((Encoder.new prev).encodeAll requests).1.prevContentBits := by
  have henc := Encoder.encodeAll_legal prev hlegal
  obtain ⟨decoded, hpush, hread⟩ := push_requests (d := Decoder.new prev) ⟨rfl, rfl⟩ rfl hlegal
  refine ⟨stream prev (requests.flatMap Character.primitives), by rw [henc], ?_⟩
  rw [henc]
  have hpush' : (Decoder.new prev).push (stream prev (requests.flatMap Character.primitives)) =
      ({ Decoder.new prev with
          prevContentBits := lastContent prev (requests.flatMap Character.primitives) },
        decoded) := hpush
  rw [hpush']
  exact ⟨hread, rfl, rfl, rfl, rfl⟩

theorem decode_encode_mixed :
    let requests : List Character :=
      [.ofType .fct, Encoder.null, { type := .data, value := some 90 },
        { type := .broadcast, value := some 67, typeField := some 1, codeValue := some 3 }]
    ∃ bits, ((Encoder.new [true]).encodeAll requests).2 = .ok bits ∧
      List.Forall₂ ReadBack requests ((Decoder.new [true]).push bits).2 := by
  intro requests
  have hlegal : ∀ c ∈ requests, Legal c := by
    simp only [requests, List.forall_mem_cons, List.not_mem_nil, false_implies, implies_true,
      and_true]
    exact ⟨.fct, .null, .data (b := 90) rfl, .broadcast (v := 3) (t := 1) rfl⟩
  obtain ⟨bits, hbits, hread, -⟩ := decode_encode [true] requests hlegal
  exact ⟨bits, hbits, hread⟩

end SpaceWire.RoundTrip
