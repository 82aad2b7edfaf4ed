import SpaceWire.Characters

namespace SpaceWire

inductive Terminator
  | eop | eep
  deriving DecidableEq

structure SpaceWirePacket where
  data : List Int
  terminator : Terminator
  bytes : ∀ b ∈ data, 0 ≤ b ∧ b ≤ 0xFF
  deriving DecidableEq

def validateData (data : List Int) (i : Nat := 0) :
    Except Exn { l : List Int // ∀ b ∈ l, 0 ≤ b ∧ b ≤ 0xFF } :=
  match data with
  | [] => .ok ⟨[], by simp⟩
  | b :: rest =>
    if hb : 0 ≤ b ∧ b ≤ 0xFF then
      match validateData rest (i + 1) with
      | .ok ⟨l, hl⟩ => .ok ⟨b :: l, by simpa [hb] using hl⟩
      | .error err => .error err
    else .error (.valueError s!"data[{i}] must be in 0..255, got {b}")

/-- The code points that `repr` of a string escapes: controls, format characters, separators and
the areas for private use. -/
def isEscaped (n : Nat) : Bool :=
  n < 32 || (127 ≤ n && n ≤ 160) || n == 0xAD || (0x600 ≤ n && n ≤ 0x605) || n == 0x61C ||
    n == 0x6DD || n == 0x70F || n == 0x890 || n == 0x891 || n == 0x8E2 || n == 0x1680 ||
    n == 0x180E || (0x2000 ≤ n && n ≤ 0x200F) || (0x2028 ≤ n && n ≤ 0x202F) ||
    (0x205F ≤ n && n ≤ 0x2064) || (0x2066 ≤ n && n ≤ 0x206F) || n == 0x3000 ||
    (0xE000 ≤ n && n ≤ 0xF8FF) || n == 0xFEFF || (0xFFF9 ≤ n && n ≤ 0xFFFB) || n == 0x110BD ||
    n == 0x110CD || (0x13430 ≤ n && n ≤ 0x1343F) || (0x1BCA0 ≤ n && n ≤ 0x1BCA3) ||
    (0x1D173 ≤ n && n ≤ 0x1D17A) || n == 0xE0001 || (0xE0020 ≤ n && n ≤ 0xE007F) ||
    (0xF0000 ≤ n && n ≤ 0xFFFFD) || (0x100000 ≤ n && n ≤ 0x10FFFD)

/-- A code point as `repr` escapes it, by its number. -/
def escapeCode (n : Nat) : List Char :=
  let digits := Nat.toDigits 16 n
  let (mark, width) := if n ≤ 0xFF then ('x', 2) else if n ≤ 0xFFFF then ('u', 4) else ('U', 8)
  '\\' :: mark :: (List.replicate (width - digits.length) '0' ++ digits)

def escapeChar (quote c : Char) : List Char :=
  if c = quote ∨ c = '\\' then ['\\', c]
  else if c = '\t' then ['\\', 't']
  else if c = '\n' then ['\\', 'n']
  else if c = '\r' then ['\\', 'r']
  else if isEscaped c.toNat then escapeCode c.toNat
  else [c]

/-- `repr` of a string. The quotes are double ones if there are single ones in it, and no others. -/
def strRepr (s : String) : String :=
  let quote := if '\'' ∈ s.toList ∧ '"' ∉ s.toList then '"' else '\''
  String.ofList (quote :: s.toList.flatMap (escapeChar quote) ++ [quote])

example : strRepr "it's\n\x01" = "\"it's\\n\\x01\"" := by decide +kernel

namespace Terminator

def ofString (name : String) : Except Exn Terminator :=
  if name = "EOP" then .ok .eop
  else if name = "EEP" then .ok .eep
  else .error (.valueError s!"terminator must be one of ['EEP', 'EOP'], got {strRepr name}")

def charType : Terminator → CharType
  | .eop => .eop
  | .eep => .eep

end Terminator

def dataChar (b : Int) : Character := { type := .data, value := some b }

namespace SpaceWirePacket

def create (data : List Int) (terminator : String) : Except Exn SpaceWirePacket :=
  match validateData data with
  | .error err => .error err
  | .ok ⟨bytes, hbytes⟩ =>
    match Terminator.ofString terminator with
    | .error err => .error err
    | .ok terminator => .ok { data := bytes, terminator, bytes := hbytes }

def eop (data : List Int) : Except Exn SpaceWirePacket := create data "EOP"

def eep (data : List Int) : Except Exn SpaceWirePacket := create data "EEP"

def nchars (p : SpaceWirePacket) : List Character :=
  p.data.map dataChar ++ [.ofType p.terminator.charType]

end SpaceWirePacket

inductive PacketChar : Character → Prop
  | data {b : Int} (hb : 0 ≤ b ∧ b ≤ 0xFF) : PacketChar (dataChar b)
  | eop : PacketChar (.ofType .eop)
  | eep : PacketChar (.ofType .eep)

theorem PacketChar.isNChar {c : Character} (h : PacketChar c) : c.isNChar = true := by
  cases h <;> rfl

theorem SpaceWirePacket.packetChar_of_mem_nchars {p : SpaceWirePacket} {c : Character}
    (h : c ∈ p.nchars) : PacketChar c := by
  simp only [nchars, List.mem_append, List.mem_map, List.mem_singleton] at h
  obtain ⟨b, hb, rfl⟩ | rfl := h
  · exact .data (p.bytes b hb)
  · cases p.terminator with
    | eop => exact .eop
    | eep => exact .eep

theorem validateData_ok {data : List Int} {i : Nat} (h : ∀ b ∈ data, 0 ≤ b ∧ b ≤ 0xFF) :
    validateData data i = .ok ⟨data, h⟩ := by
  induction data generalizing i with
  | nil => rfl
  | cons b rest ih =>
    have hb := h b (by simp)
    simp [validateData, hb, ih (fun b' hb' => h b' (by simp [hb']))]

end SpaceWire
