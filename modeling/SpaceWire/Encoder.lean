import SpaceWire.Characters

namespace SpaceWire

/-- Stateful character encoder: the content the next parity bit covers, and the pending
requests to corrupt a parity bit, counted in primitives from the next one. -/
structure Encoder where
  prevContentBits : List Bool
  badParityOffsets : List Nat
  deriving DecidableEq

namespace Encoder

def new (initialPrevContentBits : List Bool := []) : Encoder :=
  { prevContentBits := initialPrevContentBits, badParityOffsets := [] }

def reset (_ : Encoder) (initialPrevContentBits : List Bool := []) : Encoder :=
  { prevContentBits := initialPrevContentBits, badParityOffsets := [] }

def forceBadParity (e : Encoder) (offset : Int := 0) : Except Exn Encoder :=
  if offset < 0 then .error (.valueError "offset must be non-negative")
  else .ok { e with badParityOffsets := e.badParityOffsets ++ [offset.toNat] }

def data (b : Int) : Except Exn Character := do
  let value ← byte b "byte"
  pure { type := .data, value := some value }

def null : Character := .ofType .null

def timeCode (value : Int) : Except Exn Character := do
  let codeValue ← sixBit value
  pure { type := .timecode
         value := some codeValue
         typeField := some 0
         codeValue := some codeValue }

/-- Build a broadcast request. The shifted type field has its six low bits clear, so that
joining the code value is an addition. -/
def broadcast (value : Int) (typeField : Int := 0b10) : Except Exn Character := do
  if ¬ (0 ≤ typeField ∧ typeField ≤ 3) then
    throw (.valueError "type_field must be in range 0..3")
  let codeValue ← sixBit value
  pure { type := .broadcast, value := some (typeField * 64 + codeValue),
         typeField := some typeField, codeValue := some codeValue }

def consumeBadParityRequest (e : Encoder) : Bool := e.badParityOffsets.any (· == 0)

def advanceBadParityRequests (offsets : List Nat) : List Nat :=
  (offsets.filter (0 < ·)).map (· - 1)

def encodePrimitive (e : Encoder) (dcFlag : Bool) (contentBits : List Bool) : Encoder × List Bool :=
  let parity := computeParity e.prevContentBits dcFlag
  let parity := if e.consumeBadParityRequest then !parity else parity
  ({ prevContentBits := contentBits,
     badParityOffsets := advanceBadParityRequests e.badParityOffsets },
   parity :: dcFlag :: contentBits)

def encodeControl (e : Encoder) (charType : CharType) : Encoder × List Bool :=
  e.encodePrimitive true ((controlContentBits charType).getD [])

/-- A rejected byte leaves the state as it is. -/
def encodeData (e : Encoder) (value : Int) : Encoder × Except Exn (List Bool) :=
  match byteToLsbBits value with
  | .error err => (e, .error err)
  | .ok contentBits =>
    let (e, bits) := e.encodePrimitive false contentBits
    (e, .ok bits)

/-- ESC followed by a data primitive. ESC has been encoded when the byte is rejected. -/
def encodeEscaped (e : Encoder) (value : Int) : Encoder × Except Exn (List Bool) :=
  let (e, esc) := e.encodeControl .esc
  let (e, bits) := e.encodeData value
  (e, bits.map (esc ++ ·))

/-- The byte a broadcast request stands for when it has no `value`. -/
def broadcastByte (request : Character) : Except Exn Int := do
  let codeValue ← sixBit (request.codeValue.getD 0)
  pure (request.typeField.getD 0b10 * 64 + codeValue)

/-- Encode one high-level character request. The state is returned with the outcome, as an
exception does not undo what was encoded before it. -/
def encode (e : Encoder) (request : Character) : Encoder × Except Exn (List Bool) :=
  match request.type with
  | .fct | .eop | .eep | .esc =>
    let (e, bits) := e.encodeControl request.type
    (e, .ok bits)
  | .data =>
    match request.value with
    | none => (e, .error (.valueError "DATA character requires value"))
    | some value => e.encodeData value
  | .null =>
    let (e, esc) := e.encodeControl .esc
    let (e, fct) := e.encodeControl .fct
    (e, .ok (esc ++ fct))
  | .timecode =>
    match request.codeValue with
    | some codeValue => e.encodeEscaped codeValue
    | none =>
      match request.value with
      | none => (e, .error (.valueError "TIMECODE character requires value"))
      | some value => e.encodeEscaped (value % 64)
  | .broadcast =>
    match request.value with
    | some value => e.encodeEscaped value
    | none =>
      match broadcastByte request with
      | .error err => (e, .error err)
      | .ok value => e.encodeEscaped value

def encodeAll (e : Encoder) : List Character → Encoder × Except Exn (List Bool)
  | [] => (e, .ok [])
  | request :: requests =>
    match e.encode request with
    | (e, .error err) => (e, .error err)
    | (e, .ok bits) =>
      let (e, rest) := encodeAll e requests
      (e, rest.map (bits ++ ·))

end Encoder

/-- A primitive character without its parity bit: the data-control flag and the content. -/
structure Primitive where
  dcFlag : Bool
  contentBits : List Bool

namespace Primitive

def WellFormed (p : Primitive) : Prop := p.contentBits.length = if p.dcFlag then 2 else 8

/-- The bits of a primitive that follows content `prev`, with correct parity. -/
def bits (prev : List Bool) (p : Primitive) : List Bool :=
  computeParity prev p.dcFlag :: p.dcFlag :: p.contentBits

/-- The content a chain of primitives leaves for the next parity bit. -/
def lastContent (prev : List Bool) : List Primitive → List Bool
  | [] => prev
  | p :: ps => lastContent p.contentBits ps

def stream (prev : List Bool) : List Primitive → List Bool
  | [] => []
  | p :: ps => p.bits prev ++ stream p.contentBits ps

theorem stream_append (prev : List Bool) (ps qs : List Primitive) :
    stream prev (ps ++ qs) = stream prev ps ++ stream (lastContent prev ps) qs := by
  induction ps generalizing prev with
  | nil => rfl
  | cons p ps ih => simp [stream, lastContent, ih]

theorem lastContent_append (prev : List Bool) (ps qs : List Primitive) :
    lastContent prev (ps ++ qs) = lastContent (lastContent prev ps) qs := by
  induction ps generalizing prev with
  | nil => rfl
  | cons p ps ih => simp [lastContent, ih]

end Primitive

open Primitive

def Character.primitives (c : Character) : List Primitive :=
  let esc : Primitive := ⟨true, [true, true]⟩
  match c.type with
  | .fct | .eop | .eep | .esc => [⟨true, (controlContentBits c.type).getD []⟩]
  | .data => [⟨false, lsbBits (c.value.getD 0).toNat⟩]
  | .null => [esc, ⟨true, [false, false]⟩]
  | .timecode | .broadcast => [esc, ⟨false, lsbBits (c.value.getD 0).toNat⟩]

/-- The requests the public builders make: the three plain control characters, NULL, and
whatever `data`, `time_code` and `broadcast` accept. -/
inductive Legal : Character → Prop
  | fct : Legal (.ofType .fct)
  | eop : Legal (.ofType .eop)
  | eep : Legal (.ofType .eep)
  | null : Legal Encoder.null
  | data {b : Int} {c : Character} (h : Encoder.data b = .ok c) : Legal c
  | timeCode {v : Int} {c : Character} (h : Encoder.timeCode v = .ok c) : Legal c
  | broadcast {v t : Int} {c : Character} (h : Encoder.broadcast v t = .ok c) : Legal c

namespace Encoder

theorem data_ok {b : Int} {c : Character} (h : data b = .ok c) :
    (0 ≤ b ∧ b ≤ 0xFF) ∧ c = { type := .data, value := some b } := by
  by_cases hb : 0 ≤ b ∧ b ≤ 0xFF
  · simp only [data, byte, hb, and_self, if_true] at h
    cases h
    exact ⟨hb, rfl⟩
  · simp only [data, byte, hb, if_false] at h
    cases h

theorem timeCode_ok {v : Int} {c : Character} (h : timeCode v = .ok c) :
    (0 ≤ v ∧ v ≤ 0x3F) ∧
      c = { type := .timecode, value := some v, typeField := some 0, codeValue := some v } := by
  by_cases hv : 0 ≤ v ∧ v ≤ 0x3F
  · simp only [timeCode, sixBit, hv, and_self, if_true] at h
    cases h
    exact ⟨hv, rfl⟩
  · simp only [timeCode, sixBit, hv, if_false] at h
    cases h

theorem broadcast_ok {v t : Int} {c : Character} (h : broadcast v t = .ok c) :
    (0 ≤ v ∧ v ≤ 0x3F) ∧ (0 ≤ t ∧ t ≤ 3) ∧
      c = { type := .broadcast, value := some (t * 64 + v),
            typeField := some t, codeValue := some v } := by
  by_cases ht : 0 ≤ t ∧ t ≤ 3
  · by_cases hv : 0 ≤ v ∧ v ≤ 0x3F
    · simp only [broadcast, sixBit, ht, hv, and_self, not_true_eq_false, if_true, if_false] at h
      cases h
      exact ⟨hv, ht, rfl⟩
    · simp only [broadcast, sixBit, ht, hv, and_self, not_true_eq_false, if_false] at h
      cases h
  · simp only [broadcast, ht, not_false_eq_true, if_true] at h
    cases h

variable (prev : List Bool)

theorem encodePrimitive_new (dcFlag : Bool) (content : List Bool) :
    (new prev).encodePrimitive dcFlag content =
      (new content, Primitive.bits prev ⟨dcFlag, content⟩) := rfl

theorem encodeData_new {value : Int} (h : 0 ≤ value ∧ value ≤ 0xFF) :
    (new prev).encodeData value =
      (new (lsbBits value.toNat), .ok (Primitive.bits prev ⟨false, lsbBits value.toNat⟩)) := by
  simp only [encodeData, byteToLsbBits_ok h, encodePrimitive_new]

theorem encodeEscaped_new {value : Int} (h : 0 ≤ value ∧ value ≤ 0xFF) :
    (new prev).encodeEscaped value =
      (new (lsbBits value.toNat),
        .ok (stream prev [⟨true, [true, true]⟩, ⟨false, lsbBits value.toNat⟩])) := by
  have hesc : (new prev).encodeControl .esc =
      (new [true, true], Primitive.bits prev ⟨true, [true, true]⟩) := rfl
  simp only [encodeEscaped, hesc, encodeData_new _ h, Except.map, stream, List.append_nil]

/-- A legal request is encoded as the chain of its primitives. -/
theorem encode_legal {c : Character} (h : Legal c) :
    (new prev).encode c =
      (new (lastContent prev c.primitives), .ok (stream prev c.primitives)) := by
  cases h with
  | fct | eop | eep | null => rfl
  | data h =>
    obtain ⟨hb, rfl⟩ := data_ok h
    simpa only [encode, Character.primitives, Option.getD_some, lastContent, stream,
      List.append_nil] using encodeData_new prev hb
  | timeCode h =>
    obtain ⟨hv, rfl⟩ := timeCode_ok h
    simpa only [encode, Character.primitives, Option.getD_some, lastContent] using
      encodeEscaped_new prev ⟨hv.1, by omega⟩
  | broadcast h =>
    obtain ⟨hv, ht, rfl⟩ := broadcast_ok h
    simpa only [encode, Character.primitives, Option.getD_some, lastContent] using
      encodeEscaped_new prev (by omega)

theorem encodeAll_chain (ps : Character → List Primitive) {cs : List Character}
    (h : ∀ c ∈ cs, ∀ prev, (new prev).encode c =
      (new (lastContent prev (ps c)), .ok (stream prev (ps c)))) :
    (new prev).encodeAll cs =
      (new (lastContent prev (cs.flatMap ps)), .ok (stream prev (cs.flatMap ps))) := by
  induction cs generalizing prev with
  | nil => rfl
  | cons c cs ih =>
    have hc := h c (by simp) prev
    have hcs := ih (lastContent prev (ps c)) fun d hd => h d (List.mem_cons_of_mem c hd)
    simp only [encodeAll, hc, hcs, Except.map, List.flatMap_cons, stream_append,
      lastContent_append]

theorem encodeAll_legal {cs : List Character} (h : ∀ c ∈ cs, Legal c) :
    (new prev).encodeAll cs =
      (new (lastContent prev (cs.flatMap Character.primitives)),
        .ok (stream prev (cs.flatMap Character.primitives))) := by
  apply encodeAll_chain
  exact fun c hc prev => encode_legal prev (h c hc)

end Encoder

theorem Legal.primitives_wellFormed {c : Character} (h : Legal c) :
    ∀ p ∈ c.primitives, p.WellFormed := by
  cases h with
  | fct | eop | eep | null =>
    simp [Character.primitives, WellFormed, Character.ofType, Encoder.null, controlContentBits]
  | data h =>
    obtain ⟨-, rfl⟩ := Encoder.data_ok h
    simp [Character.primitives, WellFormed]
  | timeCode h =>
    obtain ⟨-, rfl⟩ := Encoder.timeCode_ok h
    simp [Character.primitives, WellFormed]
  | broadcast h =>
    obtain ⟨-, -, rfl⟩ := Encoder.broadcast_ok h
    simp [Character.primitives, WellFormed]

end SpaceWire
