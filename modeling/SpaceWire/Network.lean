import SpaceWire.Endpoint
import Mathlib.Logic.Function.Basic

namespace SpaceWire

inductive Side
  | a | b
  deriving DecidableEq

def Side.peer : Side → Side
  | .a => .b
  | .b => .a

/-- The character of which the driver still has bits to drive. -/
def TxLoop.underWay : TxLoop → List Character
  | .sending char _ _ => [char]
  | _ => []

/-- The character whose last bit goes on the line in a turn, as its bits tell it. -/
def Endpoint.emits (p : Endpoint) : Action → List Character
  | .txLoop => p.txLoop.underWay.map Character.onWire
  | _ => []

/-- Two endpoints, and the characters each has put on the line that its peer has not
completed yet, oldest first. -/
structure System where
  ends : Side → Endpoint
  line : Side → List Character

/-- What a decoder may make of disturbed bits: a character of any type, with any byte if it is
data, and with a parity or escape error or without one. -/
structure Noise where
  type : CharType
  byte : Fin 256 := 0
  hardError : Bool := false
  deriving DecidableEq

def Noise.heard (n : Noise) : Character :=
  { type := n.type
    value := if n.type = .data then some n.byte.val else none
    error := if n.hardError then [.parityError] else [] }

/-- A turn of the system: an endpoint acts, the oldest character that `x` has put on the line
reaches the peer or is lost, or the peer hears one that `x` has not put there. A character that
is altered on the line is lost, and another one is heard. -/
inductive Turn
  | act (x : Side) (action : Action)
  | deliver (x : Side)
  | lose (x : Side)
  | noise (x : Side) (n : Noise)
  deriving DecidableEq

namespace System

def start (cfg : Side → LinkConfig) : Except Exn System :=
  match Endpoint.start (cfg .a), Endpoint.start (cfg .b) with
  | .ok a, .ok b => .ok { ends := fun | .a => a | .b => b, line := fun _ => [] }
  | .error err, _ => .error err
  | _, .error err => .error err

def receive (s : System) (x : Side) (character : Character) : System :=
  { ends := Function.update s.ends x.peer ((s.ends x.peer).rxCharacter character)
    line := Function.update s.line x (s.line x).tail }

def step (s : System) : Turn → System
  | .act x action =>
    { ends := Function.update s.ends x ((s.ends x).act action)
      line := Function.update s.line x (s.line x ++ (s.ends x).emits action) }
  | .deliver x =>
    match s.line x with
    | [] => s
    | character :: _ => s.receive x character
  | .lose x => { s with line := Function.update s.line x (s.line x).tail }
  | .noise x n =>
    { s with ends := Function.update s.ends x.peer ((s.ends x.peer).rxCharacter n.heard) }

/-- What `x` has picked and its peer has not received. -/
def inFlight (s : System) (x : Side) : List Character := s.line x ++ (s.ends x).txLoop.underWay

end System

def Turn.round (n : Nat) : List Turn :=
  List.replicate n (.act .a .txLoop) ++ List.replicate n (.act .b .txLoop) ++
    [.deliver .a, .deliver .b]

/-- Both endpoints leave ErrorReset and ErrorWait, send a NULL each, and another before the
first arrives, and then exchange an FCT. -/
def Turn.handshake : List Turn :=
  [.act .a .txLoop, .act .b .txLoop, .act .a (.feed .tick6p4us), .act .b (.feed .tick6p4us),
    .act .a (.feed .tick12p8us), .act .b (.feed .tick12p8us)] ++
    Turn.round 5 ++ Turn.round 3 ++ Turn.round 3

/-- Only whole packets are handed to the link. -/
def Action.packetLevel : Action → Bool
  | .sendChar _ => false
  | _ => true

/-- No character is lost or altered on the line, and none is heard that is not on it. -/
def Turn.lossless : Turn → Bool
  | .act _ action => action.packetLevel
  | .deliver _ => true
  | .lose _ | .noise _ _ => false

@[simp] theorem Side.peer_peer (x : Side) : x.peer.peer = x := by cases x <;> rfl

@[simp] theorem Side.peer_ne (x : Side) : x.peer ≠ x := by cases x <;> nofun

@[simp] theorem Side.ne_peer (x : Side) : x ≠ x.peer := by cases x <;> nofun

theorem Side.eq_or_eq_peer (x y : Side) : y = x ∨ y = x.peer := by
  cases x <;> cases y <;> simp [Side.peer]

theorem Side.forall_iff {P : Side → Prop} (x : Side) : (∀ y, P y) ↔ P x ∧ P x.peer := by
  refine ⟨fun h => ⟨h x, h x.peer⟩, fun h y => ?_⟩
  obtain rfl | rfl := x.eq_or_eq_peer y
  · exact h.1
  · exact h.2

instance {P : Side → Prop} [DecidablePred P] : Decidable (∀ x, P x) :=
  decidable_of_iff _ (Side.forall_iff .a).symm

theorem Noise.packetChar {n : Noise} (herr : isHardError n.heard.error = false)
    (hn : n.heard.isNChar = true) : PacketChar n.heard := by
  obtain ⟨type, byte, hardError⟩ := n
  have hsound : hardError = false := by
    cases hardError with
    | false => rfl
    | true => cases herr
  subst hsound
  cases type with
  | data => exact .data ⟨Int.natCast_nonneg _, by have := byte.isLt; omega⟩
  | eop => exact .eop
  | eep => exact .eep
  | fct | esc | null | timecode | broadcast => cases hn

namespace System

variable (s : System) (x : Side)

@[simp] theorem step_act_ends (action : Action) :
    (s.step (.act x action)).ends x = (s.ends x).act action := by
  simp [step]

@[simp] theorem step_act_ends_peer (action : Action) :
    (s.step (.act x action)).ends x.peer = s.ends x.peer := by
  simp [step]

@[simp] theorem step_act_line (action : Action) :
    (s.step (.act x action)).line x = s.line x ++ (s.ends x).emits action := by
  simp [step]

@[simp] theorem step_act_line_peer (action : Action) :
    (s.step (.act x action)).line x.peer = s.line x.peer := by
  simp [step]

@[simp] theorem step_noise_ends (n : Noise) : (s.step (.noise x n)).ends x = s.ends x := by
  simp [step]

@[simp] theorem step_noise_ends_peer (n : Noise) :
    (s.step (.noise x n)).ends x.peer = (s.ends x.peer).rxCharacter n.heard := by
  simp [step]

@[simp] theorem step_noise_line (n : Noise) : (s.step (.noise x n)).line = s.line := rfl

variable (character : Character)

@[simp] theorem receive_ends : (s.receive x character).ends x = s.ends x := by
  simp [receive]

@[simp] theorem receive_ends_peer :
    (s.receive x character).ends x.peer = (s.ends x.peer).rxCharacter character := by
  simp [receive]

@[simp] theorem receive_line : (s.receive x character).line x = (s.line x).tail := by
  simp [receive]

@[simp] theorem receive_line_peer : (s.receive x character).line x.peer = s.line x.peer := by
  simp [receive]

end System

end SpaceWire
