import SpaceWire.Link

namespace SpaceWire

/-- Where the transmit coroutine stands: at the top of its loop, waiting for the wake-up,
waiting for the driver with a character under way, woken by the driver after the last bit,
or ended by an exception of the encoder. -/
inductive TxLoop
  | top
  | parked
  | sending (char : Character) (wasNchar : Bool) (bits : List Bool)
  | driven (char : Character) (wasNchar : Bool)
  | dead
  deriving DecidableEq

/-- A link with its transmit coroutine and one task that calls `recv_packet` again and
again, and the packets that went through the two calls of its packet interface. -/
structure Endpoint where
  link : SpaceWireLink
  txLoop : TxLoop := .top
  recvData : List Int := []
  sent : List SpaceWirePacket := []
  received : List SpaceWirePacket := []

/-- Events that come from the application or from a timer, not from a character. -/
def Event.external : Event → Bool
  | .linkStart | .linkStartClear | .linkDisable | .linkDisableClear => true
  | .autoStart | .autoStartClear | .tick6p4us | .tick12p8us => true
  | _ => false

inductive Action
  | feed (event : Event)
  | expire (task : TimerTask)
  | watchdog (disconnected : Bool)
  | txLoop
  | sendPacket (data : List Int) (terminator : String)
  | sendChar (char : Character)
  | recvPacket
  deriving DecidableEq

namespace Endpoint

def start (cfg : LinkConfig) : Except Exn Endpoint :=
  match SpaceWireLink.new cfg with
  | .error err => .error err
  | .ok link =>
    match link.start with
    | .error err => .error err
    | .ok link => .ok { link }

/-- One turn of the transmit coroutine, up to its next wait. -/
def stepTxLoop (p : Endpoint) : Endpoint :=
  match p.txLoop with
  | .top =>
    let mode := p.link.fsm.output.txMode
    if mode = .reset then { p with link := { p.link with txWakeup := false }, txLoop := .parked }
    else
      match p.link.nextChar mode with
      | (link, .error _) => { p with link, txLoop := .dead }
      | (link, .ok (char, wasNchar)) =>
        match link.encoder.encode char with
        | (encoder, .error _) => { p with link := { link with encoder }, txLoop := .dead }
        | (encoder, .ok bits) =>
          { p with link := { link with encoder }, txLoop := .sending char wasNchar bits }
  | .parked => if p.link.txWakeup then { p with txLoop := .top } else p
  | .sending char wasNchar _ => { p with txLoop := .driven char wasNchar }
  | .driven char wasNchar => { p with link := p.link.charSent char wasNchar, txLoop := .top }
  | .dead => p

/-- A packet is returned, or its construction raises; the call is over in either case. -/
def returnPacket (p : Endpoint) : Except Exn SpaceWirePacket → Endpoint
  | .ok pkt => { p with recvData := [], received := p.received ++ [pkt] }
  | .error _ => { p with recvData := [] }

/-- `recv_packet` takes one character when there is one. -/
def stepRecvPacket (p : Endpoint) : Endpoint :=
  match p.link.rxNcharQueue with
  | [] => p
  | char :: rest =>
    let p := { p with link := { p.link with rxNcharQueue := rest } }
    match char.type with
    | .eop => p.returnPacket (SpaceWirePacket.eop p.recvData)
    | .eep => p.returnPacket (SpaceWirePacket.eep p.recvData)
    | _ => { p with recvData := p.recvData ++ [char.value.getD 0] }

def act (p : Endpoint) : Action → Endpoint
  | .feed event => if event.external then { p with link := p.link.feedFsm event } else p
  | .expire task =>
    if task ∈ p.link.scheduledTimers then { p with link := p.link.runTimer task } else p
  | .watchdog disconnected => { p with link := p.link.disconnectWatchdog disconnected }
  | .txLoop => p.stepTxLoop
  | .sendPacket data terminator =>
    match p.link.sendPacket data terminator with
    | .error _ => p
    | .ok (link, pkt) => { p with link, sent := p.sent ++ [pkt] }
  | .sendChar char =>
    match p.link.sendChar char with
    | .error _ => p
    | .ok link => { p with link }
  | .recvPacket => p.stepRecvPacket

def rxCharacter (p : Endpoint) (character : Character) : Endpoint :=
  { p with link := p.link.rxCharacter character }

def rxBit (p : Endpoint) (bit : Bool) : Endpoint := { p with link := p.link.feedBit bit }

end Endpoint

/-- A step of an endpoint whose peer can put anything on the line, bit by bit or as
characters already decoded. -/
inductive Input
  | act (action : Action)
  | bit (bit : Bool)
  | character (character : Character)

def Endpoint.step (p : Endpoint) : Input → Endpoint
  | .act action => p.act action
  | .bit bit => p.rxBit bit
  | .character character => p.rxCharacter character

inductive LineChar : Character → Prop
  | null : LineChar Encoder.null
  | fct : LineChar (.ofType .fct)
  | packet {c : Character} (h : PacketChar c) : LineChar c

theorem LineChar.encode {c : Character} (h : LineChar c) (e : Encoder) :
    ∃ e' bits, e.encode c = (e', .ok bits) := by
  cases h with
  | null | fct => exact ⟨_, _, rfl⟩
  | packet h =>
    cases h with
    | eop | eep => exact ⟨_, _, rfl⟩
    | @data b hb =>
      exact ⟨_, (e.encodePrimitive false (lsbBits b.toNat)).2,
        by simp only [dataChar, Encoder.encode, Encoder.encodeData, byteToLsbBits_ok hb]; rfl⟩

/-- What the bits of a character say of it: its type and, for data, its byte. -/
def Character.onWire (c : Character) : Character :=
  match c.type with
  | .data => { type := .data, value := c.value }
  | type => .ofType type

@[simp] theorem Character.onWire_type (c : Character) : c.onWire.type = c.type := by
  unfold Character.onWire
  split
  · exact Eq.symm ‹_›
  · rfl

@[simp] theorem Character.onWire_isNChar (c : Character) : c.onWire.isNChar = c.isNChar := by
  simp [Character.isNChar]

theorem LineChar.onWire {c : Character} (h : LineChar c) : c.onWire = c := by
  cases h with
  | null | fct => rfl
  | packet h => cases h <;> rfl

theorem Encoder.encode_onWire (e : Encoder) {c : Character} (hc : c.isNChar = true) :
    e.encode c.onWire = e.encode c := by
  cases ht : c.type <;>
    simp [Character.isNChar, isNCharType, ht, Encoder.encode, Character.onWire,
      Character.ofType] at hc ⊢

theorem packetChar_onWire {e e' : Encoder} {c : Character} {bits : List Bool}
    (hc : c.isNChar = true) (h : e.encode c = (e', .ok bits)) : PacketChar c.onWire := by
  rw [← e.encode_onWire hc] at h
  cases ht : c.type with
  | data =>
    cases hv : c.value with
    | none => simp [Character.onWire, ht, hv, Encoder.encode] at h
    | some v =>
      have hwire : c.onWire = dataChar v := by simp [Character.onWire, ht, hv, dataChar]
      rw [hwire] at h ⊢
      by_cases hb : 0 ≤ v ∧ v ≤ 0xFF
      · exact .data hb
      · have hbyte : byte v = .error (.valueError s!"value must be in range 0..255; got {v}") :=
          if_neg hb
        simp [dataChar, Encoder.encode, Encoder.encodeData, byteToLsbBits, hbyte, bind,
          Except.bind] at h
  | eop =>
    rw [show c.onWire = .ofType .eop by simp [Character.onWire, ht]]
    exact .eop
  | eep =>
    rw [show c.onWire = .ofType .eep by simp [Character.onWire, ht]]
    exact .eep
  | fct | esc | null | timecode | broadcast => simp [Character.isNChar, isNCharType, ht] at hc

/-- What a turn of the transmit coroutine does. -/
inductive TxTurn (p : Endpoint) : Endpoint → Prop
  | rest (h : p.txLoop = .parked) : TxTurn p p
  | ended (h : p.txLoop = .dead) : TxTurn p p
  | park (h : p.txLoop = .top) (hmode : stateTx p.link.fsm.state = .reset) :
      TxTurn p { p with link := { p.link with txWakeup := false }, txLoop := .parked }
  | wake (h : p.txLoop = .parked) : TxTurn p { p with txLoop := .top }
  | pick {link : SpaceWireLink} {char : Character} {wasNchar : Bool} {encoder : Encoder}
      {bits : List Bool} (h : p.txLoop = .top) (hmode : stateTx p.link.fsm.state ≠ .reset)
      (hp : p.link.Picked (stateTx p.link.fsm.state) link char wasNchar)
      (henc : link.encoder.encode char = (encoder, .ok bits)) :
      TxTurn p { p with link := { link with encoder }, txLoop := .sending char wasNchar bits }
  | reject {link : SpaceWireLink} {char : Character} {wasNchar : Bool} {encoder : Encoder}
      {err : Exn} (h : p.txLoop = .top) (hmode : stateTx p.link.fsm.state ≠ .reset)
      (hp : p.link.Picked (stateTx p.link.fsm.state) link char wasNchar)
      (henc : link.encoder.encode char = (encoder, .error err)) :
      TxTurn p { p with link := { link with encoder }, txLoop := .dead }
  | drive {char : Character} {wasNchar : Bool} {bits : List Bool}
      (h : p.txLoop = .sending char wasNchar bits) :
      TxTurn p { p with txLoop := .driven char wasNchar }
  | done {char : Character} {wasNchar : Bool} (h : p.txLoop = .driven char wasNchar) :
      TxTurn p { p with link := p.link.charSent char wasNchar, txLoop := .top }

namespace Endpoint

@[simp] theorem returnPacket_link (p : Endpoint) (r : Except Exn SpaceWirePacket) :
    (p.returnPacket r).link = p.link := by
  cases r <;> rfl

@[simp] theorem returnPacket_txLoop (p : Endpoint) (r : Except Exn SpaceWirePacket) :
    (p.returnPacket r).txLoop = p.txLoop := by
  cases r <;> rfl

theorem txTurn (p : Endpoint) : TxTurn p p.stepTxLoop := by
  cases htx : p.txLoop with
  | top =>
    by_cases hmode : stateTx p.link.fsm.state = .reset
    · simp only [stepTxLoop, htx, LinkFSM.output, hmode, if_true]
      exact .park htx hmode
    · obtain ⟨link, char, wasNchar, hnext, hpicked⟩ := p.link.nextChar_picked hmode
      simp only [stepTxLoop, htx, LinkFSM.output, hmode, if_false, hnext]
      cases henc : link.encoder.encode char with
      | mk encoder r =>
        cases r with
        | ok bits => exact .pick htx hmode hpicked henc
        | error err => exact .reject htx hmode hpicked henc
  | parked =>
    simp only [stepTxLoop, htx]
    split
    · exact .wake htx
    · exact .rest htx
  | sending char wasNchar bits =>
    simp only [stepTxLoop, htx]
    exact .drive htx
  | driven char wasNchar =>
    simp only [stepTxLoop, htx]
    exact .done htx
  | dead =>
    simp only [stepTxLoop, htx]
    exact .ended htx

theorem stepTxLoop_top {p : Endpoint} (htop : p.txLoop = .top) :
    stateTx p.link.fsm.state = .reset ∧
        p.stepTxLoop = { p with link := { p.link with txWakeup := false }, txLoop := .parked } ∨
      stateTx p.link.fsm.state ≠ .reset ∧ ∃ link char wasNchar encoder,
        p.link.Picked (stateTx p.link.fsm.state) link char wasNchar ∧
          ((∃ bits, p.stepTxLoop =
              { p with link := { link with encoder }, txLoop := .sending char wasNchar bits }) ∨
            ¬ LineChar char ∧
              p.stepTxLoop = { p with link := { link with encoder }, txLoop := .dead }) := by
  have ht := p.txTurn
  generalize p.stepTxLoop = p' at ht ⊢
  cases ht with
  | park _ hmode => exact .inl ⟨hmode, rfl⟩
  | pick _ hmode hp => exact .inr ⟨hmode, _, _, _, _, hp, .inl ⟨_, rfl⟩⟩
  | @reject link _ _ _ _ _ hmode hp henc =>
    refine .inr ⟨hmode, _, _, _, _, hp, .inr ⟨fun hline => ?_, rfl⟩⟩
    obtain ⟨e', bits, hok⟩ := hline.encode link.encoder
    rw [hok] at henc
    cases henc
  | rest h | ended h | wake h | drive h | done h =>
    rw [htop] at h
    cases h

theorem stepTxLoop_sending {p : Endpoint} (htop : p.txLoop = .top) {c : Character} {b : Bool}
    {bits : List Bool} (h : p.stepTxLoop.txLoop = .sending c b bits) :
    ∃ e e' : Encoder, e.encode c = (e', .ok bits) := by
  simp only [stepTxLoop, htop] at h
  repeat' split at h
  all_goals cases h
  exact ⟨_, _, ‹_›⟩

open SpaceWireLink

theorem stepTxLoop_started (p : Endpoint) : p.stepTxLoop.link.started = p.link.started := by
  have ht := p.txTurn
  generalize p.stepTxLoop = p' at ht
  cases ht with
  | rest | ended | park | wake | drive => rfl
  | pick _ _ hp | reject _ _ hp => exact hp.started
  | done => exact p.link.charSent_started _ _

theorem stepRecvPacket_started (p : Endpoint) :
    p.stepRecvPacket.link.started = p.link.started := by
  unfold stepRecvPacket
  repeat' split
  all_goals simp

theorem act_started (p : Endpoint) (a : Action) : (p.act a).link.started = p.link.started := by
  cases a with
  | feed e =>
    simp only [act]
    split <;> simp
  | expire task =>
    simp only [act]
    split
    · simp only [runTimer]
      split <;> simp
    · rfl
  | watchdog disconnected =>
    simp only [act, disconnectWatchdog]
    repeat' split
    all_goals simp
  | txLoop => exact p.stepTxLoop_started
  | sendPacket data terminator =>
    simp only [act, sendPacket]
    cases SpaceWirePacket.create data terminator with
    | error err => rfl
    | ok pkt => exact foldl_started (f := enqueueNchar) (fun _ _ => rfl) p.link pkt.nchars
  | sendChar char =>
    simp only [act, sendChar]
    cases char.isNChar <;> rfl
  | recvPacket => exact p.stepRecvPacket_started

theorem step_started (p : Endpoint) (i : Input) : (p.step i).link.started = p.link.started := by
  cases i with
  | act a => exact p.act_started a
  | bit bit => exact foldl_started rxCharacter_started _ _
  | character c => exact p.link.rxCharacter_started c

end Endpoint

end SpaceWire
