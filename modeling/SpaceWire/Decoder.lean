import SpaceWire.Encoder

namespace SpaceWire

/-- Stateful character decoder: framing buffer, parity history and a pending ESC. It reads no
coverage counter. Those are kept beside it, in the decoder of the character monitor. -/
structure Decoder where
  initialPrevContentBits : List Bool
  prevContentBits : List Bool
  buffer : List Bool
  expectedLen : Option Nat
  pendingEscape : Option Character
  deriving DecidableEq

namespace Decoder

def new (initialPrevContentBits : List Bool := []) : Decoder :=
  { initialPrevContentBits, prevContentBits := initialPrevContentBits, buffer := [],
    expectedLen := none, pendingEscape := none }

def reset (d : Decoder) : Decoder :=
  { d with prevContentBits := d.initialPrevContentBits, buffer := [], expectedLen := none,
           pendingEscape := none }

def parsePrimitive (d : Decoder) (rawBits : List Bool) : Decoder × Character :=
  let parity := rawBits.getD 0 false
  let dcFlag := rawBits.getD 1 false
  let expectedParity := computeParity d.prevContentBits dcFlag
  let parityOk := parity == expectedParity
  let parityCheck : ParityCheck :=
    { bitIndex := 0, expected := expectedParity, got := parity,
      prevContentBits := d.prevContentBits, dcFlag }
  let contentBits := if dcFlag then (rawBits.drop 2).take 2 else (rawBits.drop 2).take 8
  let character : Character :=
    { type := if dcFlag then controlTypeByBits contentBits else .data
      value := if dcFlag then none else some (lsbBitsToNat contentBits)
      rawBits, parityOk
      error := if parityOk then [] else [.parityError]
      expectedParity := some expectedParity, gotParity := some parity
      parityChecks := [parityCheck] }
  ({ d with prevContentBits := contentBits }, character)

/-- Parity checks with bit indices shifted by `offset`. -/
def offsetChecks (checks : List ParityCheck) (offset : Nat) : List ParityCheck :=
  checks.map fun check => { check with bitIndex := check.bitIndex + offset }

def combineEscaped (escaped character : Character) (type : CharType) (value : Option Int)
    (typeField codeValue : Option Int) (extraError : List ErrorLabel) : Character :=
  { type, value
    rawBits := escaped.rawBits ++ character.rawBits
    parityOk := escaped.parityOk && character.parityOk
    error := combineErrors [escaped.error, character.error, extraError]
    typeField, codeValue
    expectedParity := character.expectedParity
    gotParity := character.gotParity
    parityChecks := offsetChecks escaped.parityChecks 0 ++
      offsetChecks character.parityChecks escaped.rawBits.length }

def decodeEscapedData (escaped dataCharacter : Character) : Character :=
  let value := dataCharacter.value.getD 0
  let typeField := value / 64 % 4
  let codeValue := value % 64
  let (type, extraError) : CharType × List ErrorLabel :=
    if typeField = 0b00 then (.timecode, [])
    else if typeField = 0b10 then (.broadcast, [])
    else (.broadcast, [.reservedEscapeDataType])
  combineEscaped escaped dataCharacter type dataCharacter.value (some typeField)
    (some codeValue) extraError

def resolvePrimitive (d : Decoder) (character : Character) : Decoder × List Character :=
  match d.pendingEscape with
  | none =>
    if character.type = .esc then ({ d with pendingEscape := some character }, [])
    else (d, [character])
  | some escaped =>
    let d := { d with pendingEscape := none }
    match character.type with
    | .fct => (d, [combineEscaped escaped character .null none none none []])
    | .data => (d, [decodeEscapedData escaped character])
    | type => (d, [combineEscaped escaped character type character.value none none [.escapeError]])

/-- A complete primitive empties the framing buffer and is parsed and resolved. -/
def complete (d : Decoder) (rawBits : List Bool) : Decoder × List Character :=
  let (d, character) := parsePrimitive { d with buffer := [], expectedLen := none } rawBits
  d.resolvePrimitive character

def feed (d : Decoder) (bit : Bool) : Decoder × List Character :=
  let buffer := d.buffer ++ [bit]
  let expectedLen :=
    if buffer.length = 2 then some (if buffer.getD 1 false then 4 else 10) else d.expectedLen
  let d := { d with buffer, expectedLen }
  match expectedLen with
  | none => (d, [])
  | some n => if buffer.length < n then (d, []) else d.complete buffer

def push (d : Decoder) : List Bool → Decoder × List Character
  | [] => (d, [])
  | bit :: bits =>
    let (d, characters) := d.feed bit
    let (d, rest) := d.push bits
    (d, characters ++ rest)

@[simp] theorem push_nil (d : Decoder) : d.push [] = (d, []) := rfl

theorem push_cons (d : Decoder) (b : Bool) (bits : List Bool) :
    d.push (b :: bits) = (((d.feed b).1.push bits).1, (d.feed b).2 ++ ((d.feed b).1.push bits).2) :=
  rfl

theorem push_append (d : Decoder) (as bs : List Bool) :
    d.push (as ++ bs) =
      (((d.push as).1.push bs).1, (d.push as).2 ++ ((d.push as).1.push bs).2) := by
  induction as generalizing d with
  | nil => rfl
  | cons a as ih => simp only [List.cons_append, push_cons, ih, List.append_assoc]

/-- Between two primitives: no bit is waiting. -/
def AtBoundary (d : Decoder) : Prop := d.buffer = [] ∧ d.expectedLen = none

/-- The bits of a primitive, its parity bit right or wrong, and nothing else. -/
def RawPrimitive (raw : List Bool) : Prop :=
  ∃ parity dc content, raw = parity :: dc :: content ∧
    content.length = if dc then 2 else 8

theorem feed_waiting {d : Decoder} {bit : Bool} {n : Nat} (hn : d.expectedLen = some n)
    (h2 : 2 ≤ d.buffer.length) :
    d.feed bit = if d.buffer.length + 1 < n then ({ d with buffer := d.buffer ++ [bit] }, [])
      else { d with buffer := d.buffer ++ [bit] }.complete (d.buffer ++ [bit]) := by
  have hne : d.buffer.length + 1 ≠ 2 := by omega
  simp [feed, hn, hne]

theorem push_waiting {d : Decoder} {bits : List Bool} {n : Nat} (hn : d.expectedLen = some n)
    (h2 : 2 ≤ d.buffer.length) (hpos : bits ≠ []) (hlen : d.buffer.length + bits.length = n) :
    d.push bits = d.complete (d.buffer ++ bits) := by
  induction bits generalizing d with
  | nil => exact absurd rfl hpos
  | cons b bits ih =>
    rw [push_cons, feed_waiting hn h2]
    obtain - | ⟨b', bits⟩ := bits
    · have hlast : ¬ d.buffer.length + 1 < n := by simp at hlen; omega
      simp [hlast, complete]
    · have hmore : d.buffer.length + 1 < n := by simp at hlen; omega
      have hrest := ih (d := { d with buffer := d.buffer ++ [b] }) hn
        (by simp; omega) (by simp) (by simp at hlen ⊢; omega)
      simp only [hmore, if_true, hrest, List.nil_append, List.append_assoc,
        List.singleton_append, complete]

theorem push_short {d : Decoder} {bits : List Bool} {n : Nat} (hn : d.expectedLen = some n)
    (h2 : 2 ≤ d.buffer.length) (hlen : d.buffer.length + bits.length < n) :
    d.push bits = ({ d with buffer := d.buffer ++ bits }, []) := by
  induction bits generalizing d with
  | nil => simp
  | cons b bits ih =>
    simp only [List.length_cons] at hlen
    have hmore : d.buffer.length + 1 < n := by omega
    have hrest := ih (d := { d with buffer := d.buffer ++ [b] }) hn (by simp; omega)
      (by simp; omega)
    rw [push_cons, feed_waiting hn h2]
    simp only [hmore, if_true, hrest, List.nil_append, List.append_assoc, List.singleton_append]

/-- A whole primitive fed at a boundary is parsed and resolved, whatever its parity bit. -/
theorem push_raw {d : Decoder} (hd : d.AtBoundary) {raw : List Bool} (hraw : RawPrimitive raw) :
    d.push raw = d.complete raw := by
  obtain ⟨parity, dc, content, rfl, hlen⟩ := hraw
  let d1 : Decoder := { d with buffer := [parity] }
  let d2 : Decoder := { d1 with buffer := [parity, dc], expectedLen := some (if dc then 4 else 10) }
  have hb1 : d.feed parity = (d1, []) := by simp [d1, feed, hd.1, hd.2]
  have hb2 : d1.feed dc = (d2, []) := by cases dc <;> simp [d1, d2, feed]
  have hpos : content ≠ [] := by rintro rfl; cases dc <;> simp at hlen
  have hrest : d2.push content = d2.complete (d2.buffer ++ content) :=
    push_waiting rfl (by simp [d2]) hpos (by cases dc <;> simp [d2] at hlen ⊢ <;> omega)
  simp only [push_cons, hb1, hb2, hrest, List.nil_append]
  rfl

/-- Too few bits for a primitive. -/
inductive Short : List Bool → Prop
  | nil : Short []
  | one (parity : Bool) : Short [parity]
  | more (parity : Bool) {dc : Bool} {tail : List Bool} (h : tail.length < if dc then 2 else 8) :
      Short (parity :: dc :: tail)

theorem push_of_short {d : Decoder} (hd : d.AtBoundary) {bits : List Bool} (h : Short bits) :
    ∃ n, d.push bits = ({ d with buffer := bits, expectedLen := n }, []) := by
  obtain ⟨hbuf, hlen⟩ := hd
  cases h with
  | nil => exact ⟨none, by rw [push_nil, ← hbuf, ← hlen]⟩
  | one parity => exact ⟨none, by simp [push_cons, feed, hbuf, hlen]⟩
  | @more parity dc tail h =>
    let d2 : Decoder :=
      { d with buffer := [parity, dc], expectedLen := some (if dc then 4 else 10) }
    have hhead : d.push [parity, dc] = (d2, []) := by
      cases dc <;> simp [d2, push_cons, feed, hbuf, hlen]
    have htail : d2.push tail = ({ d2 with buffer := d2.buffer ++ tail }, []) := by
      apply push_short rfl (by simp [d2])
      cases dc <;> simp [d2] at h ⊢ <;> omega
    refine ⟨some (if dc then 4 else 10), ?_⟩
    have hsplit : parity :: dc :: tail = [parity, dc] ++ tail := rfl
    rw [hsplit, push_append, hhead, htail]
    rfl

/-- A stream begins with a whole primitive, its parity bit right or wrong, or has too few bits for
one. -/
theorem short_or_raw (bits : List Bool) :
    Short bits ∨ ∃ raw rest, RawPrimitive raw ∧ bits = raw ++ rest := by
  match bits with
  | [] => exact .inl .nil
  | [parity] => exact .inl (.one parity)
  | parity :: dc :: tail =>
    by_cases h : tail.length < if dc then 2 else 8
    · exact .inl (.more parity h)
    · right
      refine ⟨parity :: dc :: tail.take (if dc then 2 else 8), tail.drop (if dc then 2 else 8),
        ⟨parity, dc, _, rfl, ?_⟩, by simp⟩
      rw [List.length_take]
      omega

/-- Any stream is a number of primitives and too few bits for another one. -/
@[elab_as_elim]
theorem stream_induction {motive : List Bool → Prop} (short : ∀ bits, Short bits → motive bits)
    (raw : ∀ raw rest, RawPrimitive raw → motive rest → motive (raw ++ rest)) (bits : List Bool) :
    motive bits := by
  induction hn : bits.length using Nat.strong_induction_on generalizing bits with
  | _ n ih =>
    obtain hshort | ⟨first, rest, hfirst, rfl⟩ := short_or_raw bits
    · exact short bits hshort
    · apply raw first rest hfirst
      apply ih rest.length _ rest rfl
      obtain ⟨parity, dc, content, rfl, -⟩ := hfirst
      rw [← hn, List.length_append, List.length_cons]
      omega

theorem resolvePrimitive_frame (d : Decoder) (c : Character) :
    (d.resolvePrimitive c).1.buffer = d.buffer ∧
      (d.resolvePrimitive c).1.expectedLen = d.expectedLen ∧
      (d.resolvePrimitive c).1.prevContentBits = d.prevContentBits ∧
      (d.resolvePrimitive c).1.initialPrevContentBits = d.initialPrevContentBits := by
  unfold resolvePrimitive
  repeat' split
  all_goals exact ⟨rfl, rfl, rfl, rfl⟩

theorem resolvePrimitive_length (d : Decoder) (c : Character) :
    (d.resolvePrimitive c).2.length ≤ 1 := by
  unfold resolvePrimitive
  repeat' split
  all_goals simp

theorem feed_length (d : Decoder) (bit : Bool) : (d.feed bit).2.length ≤ 1 := by
  unfold feed
  dsimp only
  repeat' split
  all_goals first | simp | exact resolvePrimitive_length _ _

theorem feed_initial (d : Decoder) (bit : Bool) :
    (d.feed bit).1.initialPrevContentBits = d.initialPrevContentBits := by
  unfold feed
  dsimp only
  split
  · rfl
  · split
    · rfl
    · exact (resolvePrimitive_frame _ _).2.2.2

theorem complete_atBoundary (d : Decoder) (raw : List Bool) : (d.complete raw).1.AtBoundary := by
  obtain ⟨hbuf, hlen, -, -⟩ := resolvePrimitive_frame
    (parsePrimitive { d with buffer := [], expectedLen := none } raw).1
    (parsePrimitive { d with buffer := [], expectedLen := none } raw).2
  exact ⟨hbuf, hlen⟩

end Decoder

end SpaceWire
