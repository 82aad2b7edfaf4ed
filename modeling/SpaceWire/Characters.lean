import SpaceWire.Exceptions
import Mathlib.Data.List.Basic
import Mathlib.Data.Bool.Basic
import Mathlib.Algebra.Group.Nat.Defs
import Mathlib.Order.Basic
import Mathlib.Order.Defs.LinearOrder
import Mathlib.Data.Nat.Notation
import Mathlib.Algebra.Order.Group.Int
import Mathlib.Tactic.Common

namespace SpaceWire

inductive CharType
  | fct | eop | eep | esc | data | null | timecode | broadcast
  deriving DecidableEq

def CharType.name : CharType → String
  | .fct => "FCT" | .eop => "EOP" | .eep => "EEP" | .esc => "ESC"
  | .data => "DATA" | .null => "NULL" | .timecode => "TIMECODE" | .broadcast => "BROADCAST"

def controlContentBits : CharType → Option (List Bool)
  | .fct => some [false, false]
  | .eop => some [false, true]
  | .eep => some [true, false]
  | .esc => some [true, true]
  | _ => none

/-- The inverse table, looked up at two content bits only. -/
def controlTypeByBits : List Bool → CharType
  | [false, false] => .fct
  | [false, true] => .eop
  | [true, false] => .eep
  | _ => .esc

inductive ErrorLabel
  | parityError | escapeError | reservedEscapeDataType
  deriving DecidableEq

structure ParityCheck where
  bitIndex : Nat
  expected : Bool
  got : Bool
  prevContentBits : List Bool
  dcFlag : Bool
  deriving DecidableEq

/-- Decoded or requested character. The error text joins labels with `+`; it is kept here
split, as `error_types` returns it, and the empty list is the error `None`. -/
structure Character where
  type : CharType
  value : Option Int := none
  rawBits : List Bool := []
  parityOk : Bool := true
  error : List ErrorLabel := []
  typeField : Option Int := none
  codeValue : Option Int := none
  expectedParity : Option Bool := none
  gotParity : Option Bool := none
  parityChecks : List ParityCheck := []
  deriving DecidableEq

def Character.ofType (type : CharType) : Character := { type }

def isNCharType (type : CharType) : Bool :=
  type = .data || type = .eop || type = .eep

def Character.isNChar (c : Character) : Bool := isNCharType c.type

/-- Unique labels in first-seen order. -/
def combineErrors (errors : List (List ErrorLabel)) : List ErrorLabel :=
  errors.flatten.foldl
    (fun combined item => if item ∈ combined then combined else combined ++ [item]) []

def byte (value : Int) (name : String := "value") : Except Exn Int :=
  if 0 ≤ value ∧ value ≤ 0xFF then .ok value
  else .error (.valueError s!"{name} must be in range 0..255; got {value}")

def sixBit (value : Int) (name : String := "value") : Except Exn Int :=
  if 0 ≤ value ∧ value ≤ 0x3F then .ok value
  else .error (.valueError s!"{name} must be in range 0..63; got {value}")

def lsbBits (value : Nat) : List Bool := (List.range 8).map value.testBit

def byteToLsbBits (value : Int) : Except Exn (List Bool) := do
  let value ← byte value
  pure (lsbBits value.toNat)

def lsbBitsToNat : List Bool → Nat
  | [] => 0
  | b :: bits => b.toNat ||| (lsbBitsToNat bits <<< 1)

/-- Odd parity over the previous content, the parity bit and the data-control flag. -/
def computeParity (prevContentBits : List Bool) (dcFlag : Bool) : Bool :=
  (prevContentBits.count true + dcFlag.toNat) % 2 == 0

theorem mem_combineErrors {errors : List (List ErrorLabel)} {x : ErrorLabel} :
    x ∈ combineErrors errors ↔ ∃ e ∈ errors, x ∈ e := by
  have hfold (l acc : List ErrorLabel) : x ∈ l.foldl (fun combined item =>
      if item ∈ combined then combined else combined ++ [item]) acc ↔ x ∈ acc ∨ x ∈ l := by
    induction l generalizing acc with
    | nil => simp
    | cons a l ih =>
      rw [List.foldl_cons, ih]
      by_cases ha : a ∈ acc
      · rw [if_pos ha, List.mem_cons]
        constructor
        · exact fun h => h.imp id .inr
        · rintro (h | rfl | h)
          · exact .inl h
          · exact .inl ha
          · exact .inr h
      · rw [if_neg ha, List.mem_append, List.mem_singleton, List.mem_cons, or_assoc]
  rw [combineErrors, hfold, List.mem_flatten]
  simp

@[simp] theorem lsbBits_length (value : Nat) : (lsbBits value).length = 8 := by
  simp [lsbBits]

theorem lsbBitsToNat_lsbBits {value : Nat} (h : value < 256) :
    lsbBitsToNat (lsbBits value) = value := by
  have hall : ∀ v : Fin 256, lsbBitsToNat (lsbBits v) = v := by decide +kernel
  exact hall ⟨value, h⟩

theorem lsbBitsToNat_lt_two_pow (bits : List Bool) : lsbBitsToNat bits < 2 ^ bits.length := by
  induction bits with
  | nil => exact Nat.one_pos
  | cons b bits ih =>
    have hbit : b.toNat < 2 ^ (bits.length + 1) := by
      have hb := b.toNat_lt
      have hpow := Nat.one_le_two_pow (n := bits.length)
      rw [Nat.pow_succ]
      omega
    have hrest : lsbBitsToNat bits <<< 1 < 2 ^ (bits.length + 1) := by
      rw [Nat.shiftLeft_eq, Nat.pow_succ]
      omega
    exact Nat.or_lt_two_pow hbit hrest

theorem lsbBitsToNat_lt {bits : List Bool} (h : bits.length ≤ 8) : lsbBitsToNat bits < 256 :=
  (lsbBitsToNat_lt_two_pow bits).trans_le (Nat.pow_le_pow_right Nat.two_pos h)

theorem lsbBits_lsbBitsToNat : ∀ {bits : List Bool}, bits.length = 8 →
    lsbBits (lsbBitsToNat bits) = bits
  | [b0, b1, b2, b3, b4, b5, b6, b7], _ => by
    revert b0 b1 b2 b3 b4 b5 b6 b7
    decide

theorem byteToLsbBits_ok {value : Int} (h : 0 ≤ value ∧ value ≤ 0xFF) :
    byteToLsbBits value = .ok (lsbBits value.toNat) := by
  simp [byteToLsbBits, byte, h]

theorem controlTypeByBits_ne_data (bits : List Bool) : controlTypeByBits bits ≠ .data := by
  unfold controlTypeByBits
  split <;> simp

end SpaceWire
