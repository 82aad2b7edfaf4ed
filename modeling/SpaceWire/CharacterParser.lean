import SpaceWire.Decoder
import SpaceWire.LinkFsm

namespace SpaceWire

/-- The two callbacks of the parser, acting on whatever state their owner has. -/
structure ParserCallbacks (σ : Type) where
  onEvent : σ → Event → σ
  onCharacter : σ → Character → σ

def isHardError (error : List ErrorLabel) : Bool :=
  .parityError ∈ error || .escapeError ∈ error

/-- The event a character without a hard error stands for; a bare ESC is noise. -/
def characterEvent : CharType → Option Event
  | .null => some .gotNull
  | .fct => some .gotFct
  | .data | .eop | .eep => some .gotNChar
  | .timecode | .broadcast => some .gotTimeCode
  | .esc => none

/-- The event comes first, the character after it. -/
def dispatch {σ : Type} (cb : ParserCallbacks σ) (s : σ) (character : Character) : σ :=
  if isHardError character.error then cb.onEvent s .rxErr
  else
    match characterEvent character.type with
    | none => s
    | some e => cb.onCharacter (cb.onEvent s e) character

structure Capture where
  decoder : Decoder
  events : List Event
  characters : List Character

namespace Capture

def new : Capture := { decoder := Decoder.new, events := [], characters := [] }

def callbacks : ParserCallbacks Capture where
  onEvent s e := { s with events := s.events ++ [e] }
  onCharacter s c := { s with characters := s.characters ++ [c] }

def feedBit (s : Capture) (bit : Bool) : Capture :=
  let (decoder, characters) := s.decoder.feed bit
  characters.foldl (dispatch callbacks) { s with decoder }

def feedBits (s : Capture) (bits : List Bool) : Capture := bits.foldl feedBit s

theorem dispatch_setDecoder (s : Capture) (d : Decoder) (c : Character) :
    dispatch callbacks { s with decoder := d } c =
      { dispatch callbacks s c with decoder := d } := by
  unfold dispatch
  split
  · rfl
  · split <;> rfl

theorem foldl_setDecoder (cs : List Character) (s : Capture) (d : Decoder) :
    cs.foldl (dispatch callbacks) { s with decoder := d } =
      { cs.foldl (dispatch callbacks) s with decoder := d } := by
  induction cs generalizing s with
  | nil => rfl
  | cons c cs ih => rw [List.foldl_cons, dispatch_setDecoder, ih, List.foldl_cons]

theorem feedBits_eq (s : Capture) (bits : List Bool) :
    s.feedBits bits =
      { (s.decoder.push bits).2.foldl (dispatch callbacks) s with
        decoder := (s.decoder.push bits).1 } := by
  induction bits generalizing s with
  | nil => rfl
  | cons b bits ih =>
    have hbit : s.feedBit b = { (s.decoder.feed b).2.foldl (dispatch callbacks) s with
        decoder := (s.decoder.feed b).1 } := foldl_setDecoder _ _ _
    have hfeed : s.feedBits (b :: bits) = (s.feedBit b).feedBits bits := rfl
    rw [hfeed, ih, hbit, Decoder.push_cons, List.foldl_append, foldl_setDecoder]

theorem dispatch_events (s : Capture) (c : Character) :
    s.events ⊆ (dispatch callbacks s c).events := by
  unfold dispatch
  split
  · simp [callbacks]
  · split <;> simp [callbacks]

theorem foldl_dispatch_events (cs : List Character) (s : Capture) :
    s.events ⊆ (cs.foldl (dispatch callbacks) s).events := by
  induction cs generalizing s with
  | nil => exact fun _ h => h
  | cons c cs ih => exact fun e he => ih _ (dispatch_events s c he)

theorem rxErr_mem {s : Capture} {cs : List Character} {c : Character} (hc : c ∈ cs)
    (hhard : isHardError c.error = true) :
    .rxErr ∈ (cs.foldl (dispatch callbacks) s).events := by
  obtain ⟨l, r, rfl⟩ := List.append_of_mem hc
  rw [List.foldl_append, List.foldl_cons]
  apply foldl_dispatch_events
  simp [dispatch, hhard, callbacks]

end Capture

end SpaceWire
