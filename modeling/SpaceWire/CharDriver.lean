import SpaceWire.Counter
import SpaceWire.Encoder

namespace SpaceWire

inductive CharRequest
  | character (c : Character)
  | charType (type : CharType)
  | byte (value : Int)
  | other

def Encoder.coerceCharacter : CharRequest → Except Exn Character
  | .character c => .ok c
  | .charType type => .ok (.ofType type)
  | .byte value => data value
  | .other => .error (.typeError "char must be a Character, CharType, or data byte integer")

def charBit (value : Int) (name : String := "bit") : Except Exn Bool :=
  if value = 1 then .ok true
  else if value = 0 then .ok false
  else .error (.valueError (name ++ " must be 0 or 1; got " ++ toString value))

def charBits (values : List Int) (name : String := "bits") : Except Exn (List Bool) :=
  values.mapM fun value => charBit value name

def coverageDict {κ : Type*} (name : κ → String) (counter : Counter κ) : List (String × Nat) :=
  counter.items.map fun item => (name item.1, item.2)

structure CoverageStats where
  characters : List (String × Nat)
  errors : List (String × Nat)

def CoverageStats.dumpCoverage (stats : CoverageStats) : String :=
  let list (items : List (String × Nat)) :=
    ", ".intercalate (items.map fun item => item.1 ++ "=" ++ toString item.2)
  let orNone (text : String) := if text = "" then "none" else text
  "characters: " ++ orNone (list stats.characters) ++ "; errors: " ++ orNone (list stats.errors)

inductive InjectedError
  | badParity | escapeError | truncation
  deriving DecidableEq

def InjectedError.name : InjectedError → String
  | .badParity => "injected_bad_parity"
  | .escapeError => "injected_escape_error"
  | .truncation => "injected_truncation"

/-- A character driver with the bits its sink has been given, in order. -/
structure CharDriver where
  encoder : Encoder := .new
  typeCounts : Counter CharType := .empty
  errorCounts : Counter InjectedError := .empty
  sunk : List Bool := []

inductive DriverCall
  | forceBadParity (offset : Int)
  | send (request : CharRequest)
  | sendData (byte : Int)
  | sendNull
  | sendTimeCode (value : Int)
  | sendBroadcast (value typeField : Int)
  | sendFct
  | sendEop
  | sendEep
  | sendEscape
  | sendIllegalEscape (following : CharType)
  | sendRawBits (bits : List Int)
  | sendTruncated (request : CharRequest) (keepBits : Int)

namespace CharDriver

def forceBadParity (d : CharDriver) (offset : Int := 0) : CharDriver × Except Exn Unit :=
  match d.encoder.forceBadParity offset with
  | .error err => (d, .error err)
  | .ok encoder => ({ d with encoder, errorCounts := d.errorCounts.add .badParity }, .ok ())

def sendRawBits (d : CharDriver) (bits : List Int) : CharDriver × Except Exn Unit :=
  match charBits bits with
  | .error err => (d, .error err)
  | .ok raw => ({ d with sunk := d.sunk ++ raw }, .ok ())

def sendKept (d : CharDriver) (request : CharRequest) (keepBits : Option Nat) :
    CharDriver × Except Exn Unit :=
  match Encoder.coerceCharacter request with
  | .error err => (d, .error err)
  | .ok c =>
    match d.encoder.encode c with
    | (encoder, .error err) => ({ d with encoder }, .error err)
    | (encoder, .ok bits) =>
      ({ d with encoder
                typeCounts := d.typeCounts.add c.type
                sunk := d.sunk ++ (keepBits.elim bits bits.take) }, .ok ())

def send (d : CharDriver) (request : CharRequest) : CharDriver × Except Exn Unit :=
  d.sendKept request none

def sendBuilt (d : CharDriver) (built : Except Exn Character) : CharDriver × Except Exn Unit :=
  match built with
  | .error err => (d, .error err)
  | .ok c => d.send (.character c)

def sendData (d : CharDriver) (byte : Int) : CharDriver × Except Exn Unit :=
  d.sendBuilt (Encoder.data byte)

def sendNull (d : CharDriver) : CharDriver × Except Exn Unit := d.sendBuilt (.ok Encoder.null)

def sendTimeCode (d : CharDriver) (value : Int) : CharDriver × Except Exn Unit :=
  d.sendBuilt (Encoder.timeCode value)

def sendBroadcast (d : CharDriver) (value : Int) (typeField : Int := 0b10) :
    CharDriver × Except Exn Unit :=
  d.sendBuilt (Encoder.broadcast value typeField)

def sendFct (d : CharDriver) : CharDriver × Except Exn Unit := d.send (.charType .fct)

def sendEop (d : CharDriver) : CharDriver × Except Exn Unit := d.send (.charType .eop)

def sendEep (d : CharDriver) : CharDriver × Except Exn Unit := d.send (.charType .eep)

def sendEscape (d : CharDriver) : CharDriver × Except Exn Unit := d.send (.charType .esc)

def sendIllegalEscape (d : CharDriver) (following : CharType := .esc) :
    CharDriver × Except Exn Unit :=
  if following = .esc ∨ following = .eop ∨ following = .eep then
    match d.send (.charType .esc) with
    | (d, .error err) => (d, .error err)
    | (d, .ok ()) =>
      match d.send (.charType following) with
      | (d, .error err) => (d, .error err)
      | (d, .ok ()) => ({ d with errorCounts := d.errorCounts.add .escapeError }, .ok ())
  else (d, .error (.valueError "following must be ESC, EOP, or EEP"))

def sendTruncated (d : CharDriver) (request : CharRequest) (keepBits : Int) :
    CharDriver × Except Exn Unit :=
  if keepBits < 0 then (d, .error (.valueError "keep_bits must be non-negative"))
  else
    match d.sendKept request (some keepBits.toNat) with
    | (d, .error err) => (d, .error err)
    | (d, .ok ()) => ({ d with errorCounts := d.errorCounts.add .truncation }, .ok ())

def call (d : CharDriver) : DriverCall → CharDriver × Except Exn Unit
  | .forceBadParity offset => d.forceBadParity offset
  | .send request => d.send request
  | .sendData byte => d.sendData byte
  | .sendNull => d.sendNull
  | .sendTimeCode value => d.sendTimeCode value
  | .sendBroadcast value typeField => d.sendBroadcast value typeField
  | .sendFct => d.sendFct
  | .sendEop => d.sendEop
  | .sendEep => d.sendEep
  | .sendEscape => d.sendEscape
  | .sendIllegalEscape following => d.sendIllegalEscape following
  | .sendRawBits bits => d.sendRawBits bits
  | .sendTruncated request keepBits => d.sendTruncated request keepBits

def stats (d : CharDriver) : CoverageStats :=
  { characters := coverageDict CharType.name d.typeCounts
    errors := coverageDict InjectedError.name d.errorCounts }

end CharDriver

end SpaceWire
