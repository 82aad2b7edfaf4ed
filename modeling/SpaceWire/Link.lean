import SpaceWire.CharacterParser
import SpaceWire.FlowControl
import SpaceWire.Packet

namespace SpaceWire

def tick6p4Ns : Nat := 6400
def tick12p8Ns : Nat := 12800

structure TimerTask where
  durationNs : Nat
  event : Event
  gen : Nat
  deriving DecidableEq

structure LinkConfig where
  bitRate : Int := 200000000
  linkStart : Bool := false
  autoStart : Bool := false
  onlyNulls : Bool := false
  rxFifoCapacity : Int := maxCredit
  maxRxCredit : Option Int := none

/-- The attributes of a link. The encoder and the parser's decoder are its own, cocotb
events are their flags and queues are lists. A killed timer task stays scheduled, so that
nothing is assumed of the kill. -/
structure SpaceWireLink where
  bitRateBps : Int
  fsm : LinkFSM
  decoder : Decoder
  encoder : Encoder
  credit : CreditCounter
  rxFifoCapacityNchars : Int
  txNcharQueue : List Character
  rxNcharQueue : List Character
  txNcharOutstanding : Int
  txDrainedEvt : Bool
  runReached : Bool
  errorResetEntered : Bool
  txWakeup : Bool
  timerTask : Option TimerTask
  scheduledTimers : List TimerTask
  timerGen : Nat
  errorResetCount : Nat
  onlyNulls : Bool
  fctSentThisConnecting : Bool
  started : Bool
  pendingLinkStart : Bool
  pendingAutoStart : Bool
  pendingInitialFctBurst : Int

namespace SpaceWireLink

def new (cfg : LinkConfig) : Except Exn SpaceWireLink :=
  let cappedMax := min cfg.rxFifoCapacity maxCredit
  match CreditCounter.new (match cfg.maxRxCredit with
      | none => cappedMax
      | some m => min m cappedMax) with
  | .error err => .error err
  | .ok credit =>
    .ok
      { bitRateBps := initialBitRateBps
        fsm := { targetBitRateBps := cfg.bitRate }
        decoder := Decoder.new
        encoder := Encoder.new
        credit
        rxFifoCapacityNchars := cfg.rxFifoCapacity
        txNcharQueue := []
        rxNcharQueue := []
        txNcharOutstanding := 0
        txDrainedEvt := true
        runReached := false
        errorResetEntered := false
        txWakeup := false
        timerTask := none
        scheduledTimers := []
        timerGen := 0
        errorResetCount := 0
        onlyNulls := cfg.onlyNulls
        fctSentThisConnecting := false
        started := false
        pendingLinkStart := cfg.linkStart
        pendingAutoStart := cfg.autoStart
        pendingInitialFctBurst := 0 }

def startTimer (l : SpaceWireLink) (durationNs : Nat) (event : Event) : SpaceWireLink :=
  let gen := l.timerGen + 1
  let task : TimerTask := { durationNs, event, gen }
  { l with timerGen := gen, timerTask := some task, scheduledTimers := l.scheduledTimers ++ [task] }

def cancelTimer (l : SpaceWireLink) : SpaceWireLink :=
  { l with timerGen := l.timerGen + 1, timerTask := none }

/-- Drop to ErrorReset: fresh codecs, zero credit. -/
def enterErrorReset (l : SpaceWireLink) : SpaceWireLink :=
  { l with encoder := l.encoder.reset
           decoder := l.decoder.reset
           credit := l.credit.reset
           errorResetCount := l.errorResetCount + 1
           errorResetEntered := true }

def onStateChange (l : SpaceWireLink) (out : Output) : SpaceWireLink :=
  let l := l.cancelTimer
  let l := match out.state with
    | .errorReset => l.startTimer tick6p4Ns .tick6p4us
    | .errorWait | .started | .connecting => l.startTimer tick12p8Ns .tick12p8us
    | .ready | .run => l
  let l := { l with bitRateBps := out.bitRateBps }
  let l := if out.state = .errorReset then l.enterErrorReset else l
  let l := if out.state = .connecting then { l with fctSentThisConnecting := false } else l
  let l := if out.state = .run then
      { l with runReached := true
               pendingInitialFctBurst :=
                 (CreditCounter.initialFctCount l.rxFifoCapacityNchars).toOption.getD 0 }
    else l
  { l with txWakeup := true }

def feedFsm (l : SpaceWireLink) (event : Event) : SpaceWireLink :=
  let fsm := l.fsm.feed event
  let out := fsm.output
  let changed := out.state ≠ l.fsm.state
  let l := { l with fsm }
  if changed then l.onStateChange out else l

/-- Expiry of a timer task: a stale generation feeds nothing. -/
def runTimer (l : SpaceWireLink) (task : TimerTask) : SpaceWireLink :=
  let l := { l with scheduledTimers := l.scheduledTimers.erase task }
  if task.gen = l.timerGen then l.feedFsm task.event else l

def start (l : SpaceWireLink) : Except Exn SpaceWireLink :=
  if l.started then .error (.runtimeError "SpaceWireLink is already started")
  else
    let l := { l with started := true }
    let l := l.startTimer tick6p4Ns .tick6p4us
    let l := if l.pendingAutoStart then l.feedFsm .autoStart else l
    .ok (if l.pendingLinkStart then l.feedFsm .linkStart else l)

def onRxCharacter (l : SpaceWireLink) (character : Character) : SpaceWireLink :=
  match character.type with
  | .fct =>
    match l.credit.onFctReceived with
    | .error _ => l.feedFsm .creditErr
    | .ok credit => { l with credit, txWakeup := true }
  | .data | .eop | .eep =>
    if l.fsm.state ≠ .run then l
    else
      match l.credit.onNcharReceived with
      | .error _ => l.feedFsm .creditErr
      | .ok credit => { l with credit, rxNcharQueue := l.rxNcharQueue ++ [character] }
  | _ => l

def parserCallbacks : ParserCallbacks SpaceWireLink where
  onEvent := feedFsm
  onCharacter := onRxCharacter

/-- A character completed by the decoder goes through the parser's two callbacks. -/
def rxCharacter (l : SpaceWireLink) (character : Character) : SpaceWireLink :=
  dispatch parserCallbacks l character

def feedBit (l : SpaceWireLink) (bit : Bool) : SpaceWireLink :=
  let (decoder, characters) := l.decoder.feed bit
  characters.foldl rxCharacter { l with decoder }

/-- One poll of the watchdog: a silent peer is an error once it has been heard. -/
def disconnectWatchdog (l : SpaceWireLink) (disconnected : Bool) : SpaceWireLink :=
  if l.fsm.output.rxEnabled = false then l
  else if l.fsm.gotNullLatched = false then l
  else if disconnected then l.feedFsm .rxErr
  else l

/-- Pick the next character, and whether it was taken from the transmit queue. -/
def nextChar (l : SpaceWireLink) (mode : TxMode) :
    SpaceWireLink × Except Exn (Character × Bool) :=
  match mode with
  | .sendNulls => (l, .ok (Encoder.null, false))
  | .sendNullsFcts =>
    if l.onlyNulls then (l, .ok (Encoder.null, false))
    else if l.fctSentThisConnecting = false then
      let l := { l with fctSentThisConnecting := true }
      -- the handshake FCT goes out even when it cannot be credited
      match l.credit.onFctSent with
      | .ok credit => ({ l with credit }, .ok (.ofType .fct, false))
      | .error _ => (l, .ok (.ofType .fct, false))
    else (l, .ok (Encoder.null, false))
  | _ =>
    let headroom := l.rxFifoCapacityNchars - l.rxNcharQueue.length
    if l.credit.shouldSendFct headroom then
      match l.credit.onFctSent with
      | .ok credit => ({ l with credit }, .ok (.ofType .fct, false))
      | .error err => (l, .error err)
    else
      match l.txNcharQueue with
      | [] => (l, .ok (Encoder.null, false))
      | char :: rest =>
        if l.credit.canSend then
          let l := { l with txNcharQueue := rest }
          match l.credit.onNcharSent with
          | .ok credit => ({ l with credit }, .ok (char, true))
          | .error err => (l, .error err)
        else (l, .ok (Encoder.null, false))

def charSent (l : SpaceWireLink) (char : Character) (wasNchar : Bool) : SpaceWireLink :=
  let l := if char.type = .null then l.feedFsm .sentNull
    else if char.type = .fct then l.feedFsm .sentFct
    else l
  if wasNchar then
    let l := { l with txNcharOutstanding := l.txNcharOutstanding - 1 }
    if l.txNcharOutstanding = 0 then { l with txDrainedEvt := true } else l
  else l

def enqueueNchar (l : SpaceWireLink) (char : Character) : SpaceWireLink :=
  { l with txNcharQueue := l.txNcharQueue ++ [char]
           txNcharOutstanding := l.txNcharOutstanding + 1
           txDrainedEvt := false }

def sendChar (l : SpaceWireLink) (char : Character) : Except Exn SpaceWireLink :=
  if char.isNChar then .ok (l.enqueueNchar char)
  else .error (.valueError
    ("send_char accepts N-Chars only (DATA/EOP/EEP), got " ++ char.type.name))

def sendPacket (l : SpaceWireLink) (data : List Int) (terminator : String) :
    Except Exn (SpaceWireLink × SpaceWirePacket) :=
  match SpaceWirePacket.create data terminator with
  | .error err => .error err
  | .ok pkt => .ok (pkt.nchars.foldl enqueueNchar l, pkt)

section fields

variable (l : SpaceWireLink) (out : Output) (e : Event)

@[simp] theorem onStateChange_fsm : (l.onStateChange out).fsm = l.fsm := by
  cases hs : out.state <;> simp [onStateChange, startTimer, cancelTimer, enterErrorReset, hs]

@[simp] theorem onStateChange_rxFifoCapacityNchars :
    (l.onStateChange out).rxFifoCapacityNchars = l.rxFifoCapacityNchars := by
  cases hs : out.state <;> simp [onStateChange, startTimer, cancelTimer, enterErrorReset, hs]

@[simp] theorem onStateChange_txNcharQueue :
    (l.onStateChange out).txNcharQueue = l.txNcharQueue := by
  cases hs : out.state <;> simp [onStateChange, startTimer, cancelTimer, enterErrorReset, hs]

@[simp] theorem onStateChange_rxNcharQueue :
    (l.onStateChange out).rxNcharQueue = l.rxNcharQueue := by
  cases hs : out.state <;> simp [onStateChange, startTimer, cancelTimer, enterErrorReset, hs]

@[simp] theorem onStateChange_txNcharOutstanding :
    (l.onStateChange out).txNcharOutstanding = l.txNcharOutstanding := by
  cases hs : out.state <;> simp [onStateChange, startTimer, cancelTimer, enterErrorReset, hs]

@[simp] theorem onStateChange_txDrainedEvt :
    (l.onStateChange out).txDrainedEvt = l.txDrainedEvt := by
  cases hs : out.state <;> simp [onStateChange, startTimer, cancelTimer, enterErrorReset, hs]

@[simp] theorem onStateChange_onlyNulls : (l.onStateChange out).onlyNulls = l.onlyNulls := by
  cases hs : out.state <;> simp [onStateChange, startTimer, cancelTimer, enterErrorReset, hs]

@[simp] theorem onStateChange_started : (l.onStateChange out).started = l.started := by
  cases hs : out.state <;> simp [onStateChange, startTimer, cancelTimer, enterErrorReset, hs]

@[simp] theorem onStateChange_credit : (l.onStateChange out).credit =
    if out.state = .errorReset then l.credit.reset else l.credit := by
  cases hs : out.state <;> simp [onStateChange, startTimer, cancelTimer, enterErrorReset, hs]

@[simp] theorem onStateChange_errorResetCount : (l.onStateChange out).errorResetCount =
    if out.state = .errorReset then l.errorResetCount + 1 else l.errorResetCount := by
  cases hs : out.state <;> simp [onStateChange, startTimer, cancelTimer, enterErrorReset, hs]

@[simp] theorem onStateChange_fctSentThisConnecting :
    (l.onStateChange out).fctSentThisConnecting =
      if out.state = .connecting then false else l.fctSentThisConnecting := by
  cases hs : out.state <;> simp [onStateChange, startTimer, cancelTimer, enterErrorReset, hs]

@[simp] theorem onStateChange_runReached :
    (l.onStateChange out).runReached = if out.state = .run then true else l.runReached := by
  cases hs : out.state <;> simp [onStateChange, startTimer, cancelTimer, enterErrorReset, hs]

@[simp] theorem feedFsm_fsm : (l.feedFsm e).fsm = l.fsm.feed e := by
  simp only [feedFsm]
  split <;> simp

@[simp] theorem feedFsm_rxFifoCapacityNchars :
    (l.feedFsm e).rxFifoCapacityNchars = l.rxFifoCapacityNchars := by
  simp only [feedFsm]
  split <;> simp

@[simp] theorem feedFsm_txNcharQueue : (l.feedFsm e).txNcharQueue = l.txNcharQueue := by
  simp only [feedFsm]
  split <;> simp

@[simp] theorem feedFsm_rxNcharQueue : (l.feedFsm e).rxNcharQueue = l.rxNcharQueue := by
  simp only [feedFsm]
  split <;> simp

@[simp] theorem feedFsm_txNcharOutstanding :
    (l.feedFsm e).txNcharOutstanding = l.txNcharOutstanding := by
  simp only [feedFsm]
  split <;> simp

@[simp] theorem feedFsm_txDrainedEvt : (l.feedFsm e).txDrainedEvt = l.txDrainedEvt := by
  simp only [feedFsm]
  split <;> simp

@[simp] theorem feedFsm_onlyNulls : (l.feedFsm e).onlyNulls = l.onlyNulls := by
  simp only [feedFsm]
  split <;> simp

@[simp] theorem feedFsm_started : (l.feedFsm e).started = l.started := by
  simp only [feedFsm]
  split <;> simp

/-- What an entry to ErrorReset sets changes exactly when the link drops. -/
theorem feedFsm_drops {α : Type} (g : SpaceWireLink → α) {x : α}
    (hstay : g { l with fsm := l.fsm.feed e } = g l)
    (hchange : g ({ l with fsm := l.fsm.feed e }.onStateChange (l.fsm.feed e).output) =
      if (l.fsm.feed e).state = .errorReset then x else g l) :
    g (l.feedFsm e) = if l.fsm.drops e then x else g l := by
  unfold feedFsm LinkFSM.drops
  dsimp only [LinkFSM.output] at hchange ⊢
  by_cases hs : (l.fsm.feed e).state = l.fsm.state
  · by_cases hr : l.fsm.state = .errorReset <;> simp [hs, hr, hstay]
  · by_cases hr : (l.fsm.feed e).state = .errorReset
    · have hne : State.errorReset ≠ l.fsm.state := fun h => hs (hr.trans h)
      rw [if_pos hs, hchange]
      simp [hr, hne.symm]
    · rw [if_pos hs, hchange]
      simp [hr]

theorem feedFsm_credit :
    (l.feedFsm e).credit = if l.fsm.drops e then l.credit.reset else l.credit := by
  apply feedFsm_drops l e SpaceWireLink.credit rfl
  simp [LinkFSM.output]

theorem feedFsm_errorResetCount : (l.feedFsm e).errorResetCount =
    if l.fsm.drops e then l.errorResetCount + 1 else l.errorResetCount := by
  apply feedFsm_drops l e SpaceWireLink.errorResetCount rfl
  simp [LinkFSM.output]

theorem feedFsm_errorReset (hs : l.fsm.state = .errorReset) :
    l.feedFsm e =
      if e = .tick6p4us ∧ l.fsm.linkDisable = false then
        { l with fsm := l.fsm.enter .errorWait
                 bitRateBps := initialBitRateBps
                 timerGen := l.timerGen + 2
                 timerTask := some ⟨tick12p8Ns, .tick12p8us, l.timerGen + 2⟩
                 scheduledTimers :=
                   l.scheduledTimers ++ [⟨tick12p8Ns, .tick12p8us, l.timerGen + 2⟩]
                 txWakeup := true }
      else { l with fsm := l.fsm.updateFlags e } := by
  have hfeed := LinkFSM.feed_errorReset (e := e) hs
  split
  · rename_i htick
    rw [if_pos htick] at hfeed
    simp [feedFsm, hfeed, LinkFSM.output, hs, onStateChange, cancelTimer, startTimer]
  · rename_i htick
    rw [if_neg htick] at hfeed
    simp [feedFsm, hfeed, LinkFSM.output]

theorem feedFsm_bitRateBps : (l.feedFsm e).bitRateBps =
    if (l.fsm.feed e).state = l.fsm.state then l.bitRateBps
    else (l.fsm.feed e).output.bitRateBps := by
  unfold feedFsm
  dsimp only [LinkFSM.output]
  by_cases hs : (l.fsm.feed e).state = l.fsm.state
  · simp [hs]
  · rw [if_pos hs, if_neg hs]
    cases hnew : (l.fsm.feed e).state <;>
      simp [onStateChange, startTimer, cancelTimer, enterErrorReset]

theorem feedFsm_fctSentThisConnecting : (l.feedFsm e).fctSentThisConnecting =
    if (l.fsm.feed e).state = .connecting ∧ l.fsm.state ≠ .connecting then false
    else l.fctSentThisConnecting := by
  unfold feedFsm
  dsimp only [LinkFSM.output]
  by_cases hs : (l.fsm.feed e).state = l.fsm.state
  · by_cases hr : l.fsm.state = .connecting <;> simp [hs, hr]
  · by_cases hr : (l.fsm.feed e).state = .connecting
    · have hne : State.connecting ≠ l.fsm.state := fun h => hs (hr.trans h)
      simp [hr, hne, hne.symm]
    · simp [hs, hr]

theorem feedFsm_runReached : (l.feedFsm e).runReached =
    (l.runReached || ((l.fsm.feed e).state = .run && l.fsm.state ≠ .run)) := by
  unfold feedFsm
  dsimp only [LinkFSM.output]
  by_cases hs : (l.fsm.feed e).state = l.fsm.state
  · by_cases hr : l.fsm.state = .run <;> simp [hs, hr]
  · by_cases hr : (l.fsm.feed e).state = .run
    · have hne : State.run ≠ l.fsm.state := fun h => hs (hr.trans h)
      simp [hr, hne, hne.symm]
    · simp [hs, hr]

end fields

theorem charSent_eq (l : SpaceWireLink) (char : Character) (wasNchar : Bool) :
    ∃ n d, l.charSent char wasNchar =
      { (if char.type = .null then l.feedFsm .sentNull
          else if char.type = .fct then l.feedFsm .sentFct else l) with
        txNcharOutstanding := n, txDrainedEvt := d } := by
  simp only [charSent]
  generalize (if char.type = .null then l.feedFsm .sentNull
    else if char.type = .fct then l.feedFsm .sentFct else l) = m
  split
  · split <;> exact ⟨_, _, rfl⟩
  · exact ⟨_, _, rfl⟩

/-- The next character is an FCT: the one of the handshake, or one that Run asks for. -/
def picksFct (l : SpaceWireLink) : TxMode → Bool
  | .sendNullsFcts => !l.onlyNulls && !l.fctSentThisConnecting
  | .sendNullsFctsNcharsTimecodes =>
    l.credit.shouldSendFct (l.rxFifoCapacityNchars - l.rxNcharQueue.length)
  | _ => false

/-- The choices of `nextChar`, each with the guard it was taken under. -/
inductive Picked (l : SpaceWireLink) : TxMode → SpaceWireLink → Character → Bool → Prop
  | null {mode : TxMode} (hno : l.picksFct mode = false) : Picked l mode l Encoder.null false
  | handshake (hn : l.onlyNulls = false) (hf : l.fctSentThisConnecting = false)
      (hle : l.credit.rxCredit + 8 ≤ l.credit.maxRxCredit) :
      Picked l .sendNullsFcts
        { l with fctSentThisConnecting := true
                 credit := { l.credit with rxCredit := l.credit.rxCredit + 8
                                           fctsSent := l.credit.fctsSent + 1 } }
        (.ofType .fct) false
  | uncredited (hn : l.onlyNulls = false) (hf : l.fctSentThisConnecting = false)
      (hlt : l.credit.maxRxCredit < l.credit.rxCredit + 8) :
      Picked l .sendNullsFcts { l with fctSentThisConnecting := true } (.ofType .fct) false
  | fct (hroom : l.rxNcharQueue.length + 8 ≤ l.rxFifoCapacityNchars)
      (hle : l.credit.rxCredit + 8 ≤ l.credit.maxRxCredit) :
      Picked l .sendNullsFctsNcharsTimecodes
        { l with credit := { l.credit with rxCredit := l.credit.rxCredit + 8
                                           fctsSent := l.credit.fctsSent + 1 } }
        (.ofType .fct) false
  | nchar {char : Character} {rest : List Character}
      (hno : l.picksFct .sendNullsFctsNcharsTimecodes = false)
      (hq : l.txNcharQueue = char :: rest) (hpos : 0 < l.credit.txCredit) :
      Picked l .sendNullsFctsNcharsTimecodes
        { l with txNcharQueue := rest
                 credit := { l.credit with txCredit := l.credit.txCredit - 1
                                           ncharsSent := l.credit.ncharsSent + 1 } }
        char true

/-- The guards of `nextChar` rule out both of its errors. -/
theorem nextChar_picked (l : SpaceWireLink) {mode : TxMode} (hmode : mode ≠ .reset) :
    ∃ l' char wasNchar, l.nextChar mode = (l', .ok (char, wasNchar)) ∧
      Picked l mode l' char wasNchar := by
  cases mode with
  | reset => exact absurd rfl hmode
  | sendNulls => exact ⟨_, _, _, rfl, .null rfl⟩
  | sendNullsFcts =>
    cases hn : l.onlyNulls with
    | true =>
      exact ⟨_, _, _, by simp only [nextChar, hn, if_true], .null (by simp [picksFct, hn])⟩
    | false =>
      cases hf : l.fctSentThisConnecting with
      | true => exact ⟨_, _, _, by simp [nextChar, hn, hf], .null (by simp [picksFct, hf])⟩
      | false =>
        by_cases hle : l.credit.rxCredit + 8 ≤ l.credit.maxRxCredit
        · exact ⟨_, _, _, by simp [nextChar, hn, hf, CreditCounter.onFctSent_of_le hle],
            .handshake hn hf hle⟩
        · cases hs : l.credit.onFctSent with
          | ok c => exact absurd (CreditCounter.onFctSent_ok hs).1 hle
          | error err =>
            exact ⟨_, _, _, by simp [nextChar, hn, hf, hs], .uncredited hn hf (by omega)⟩
  | sendNullsFctsNcharsTimecodes =>
    cases hs : l.credit.shouldSendFct (l.rxFifoCapacityNchars - l.rxNcharQueue.length) with
    | true =>
      obtain ⟨hroom, hle⟩ := CreditCounter.shouldSendFct_iff.mp hs
      exact ⟨_, _, _, by simp only [nextChar, hs, if_true, CreditCounter.onFctSent_of_le hle],
        .fct (by omega) hle⟩
    | false =>
      cases hq : l.txNcharQueue with
      | nil => exact ⟨_, _, _, by simp [nextChar, hs, hq], .null hs⟩
      | cons char rest =>
        cases hc : l.credit.canSend with
        | true =>
          have hsent := CreditCounter.onNcharSent_of_canSend hc
          exact ⟨_, _, _, by simp [nextChar, hs, hq, hc, hsent],
            .nchar hs hq (by simpa [CreditCounter.canSend] using hc)⟩
        | false => exact ⟨_, _, _, by simp [nextChar, hs, hq, hc], .null hs⟩

/-- What becomes of a character handed to the link, each outcome with its guard. -/
inductive Handled (l : SpaceWireLink) (c : Character) : SpaceWireLink → Prop
  | fct (ht : c.type = .fct) (hle : l.credit.txCredit + 8 ≤ 56) :
      Handled l c
        { l with credit := { l.credit with txCredit := l.credit.txCredit + 8
                                           fctsReceived := l.credit.fctsReceived + 1 }
                 txWakeup := true }
  | overflow (ht : c.type = .fct) (hlt : 56 < l.credit.txCredit + 8) :
      Handled l c (l.feedFsm .creditErr)
  | nchar (hc : c.isNChar = true) (hs : l.fsm.state = .run) (hpos : 0 < l.credit.rxCredit) :
      Handled l c
        { l with credit := { l.credit with rxCredit := l.credit.rxCredit - 1
                                           ncharsReceived := l.credit.ncharsReceived + 1 }
                 rxNcharQueue := l.rxNcharQueue ++ [c] }
  | unexpected (hc : c.isNChar = true) (hs : l.fsm.state = .run) (hle : l.credit.rxCredit ≤ 0) :
      Handled l c (l.feedFsm .creditErr)
  | discarded (hc : c.isNChar = true) (hs : l.fsm.state ≠ .run) : Handled l c l
  | other (hf : c.type ≠ .fct) (hc : c.isNChar = false) : Handled l c l

theorem onRxCharacter_handled (l : SpaceWireLink) (c : Character) :
    Handled l c (l.onRxCharacter c) := by
  have hnchar (hc : c.isNChar = true) : l.onRxCharacter c =
      if l.fsm.state ≠ .run then l
      else
        match l.credit.onNcharReceived with
        | .error _ => l.feedFsm .creditErr
        | .ok credit => { l with credit, rxNcharQueue := l.rxNcharQueue ++ [c] } := by
    unfold onRxCharacter
    cases ht : c.type <;> simp [Character.isNChar, isNCharType, ht] at hc <;> rfl
  by_cases hc : c.isNChar = true
  · rw [hnchar hc]
    by_cases hs : l.fsm.state = .run
    · simp only [hs, ne_eq, not_true_eq_false, if_false]
      cases hr : l.credit.onNcharReceived with
      | ok c' =>
        obtain ⟨hpos, rfl⟩ := CreditCounter.onNcharReceived_ok hr
        exact .nchar hc hs hpos
      | error err => exact .unexpected hc hs (CreditCounter.onNcharReceived_error hr).2
    · simp only [hs, ne_eq, not_false_eq_true, if_true]
      exact .discarded hc hs
  · by_cases ht : c.type = .fct
    · unfold onRxCharacter
      simp only [ht]
      cases hr : l.credit.onFctReceived with
      | ok c' =>
        obtain ⟨hle, rfl⟩ := CreditCounter.onFctReceived_ok hr
        exact .fct ht hle
      | error err => exact .overflow ht (CreditCounter.onFctReceived_error hr).2
    · have hl : l.onRxCharacter c = l := by
        unfold onRxCharacter
        cases hty : c.type <;> simp [Character.isNChar, isNCharType, hty] at hc ht <;> rfl
      rw [hl]
      exact .other ht (by simpa using hc)

section started

variable {l : SpaceWireLink}

theorem foldl_started {α : Type} {f : SpaceWireLink → α → SpaceWireLink}
    (hf : ∀ l a, (f l a).started = l.started) (l : SpaceWireLink) (as : List α) :
    (as.foldl f l).started = l.started := by
  induction as generalizing l with
  | nil => rfl
  | cons a as ih => rw [List.foldl_cons, ih, hf]

theorem onRxCharacter_started (l : SpaceWireLink) (c : Character) :
    (l.onRxCharacter c).started = l.started := by
  unfold onRxCharacter
  repeat' split
  all_goals simp

theorem rxCharacter_started (l : SpaceWireLink) (c : Character) :
    (l.rxCharacter c).started = l.started := by
  unfold rxCharacter dispatch parserCallbacks
  repeat' split
  all_goals simp [onRxCharacter_started]

theorem charSent_started (l : SpaceWireLink) (c : Character) (wasNchar : Bool) :
    (l.charSent c wasNchar).started = l.started := by
  obtain ⟨n, d, heq⟩ := l.charSent_eq c wasNchar
  rw [heq]
  dsimp only
  split
  · simp
  · split <;> simp

theorem Picked.started {mode : TxMode} {l' : SpaceWireLink} {c : Character} {b : Bool}
    (h : l.Picked mode l' c b) : l'.started = l.started := by
  cases h <;> rfl

end started

end SpaceWireLink

end SpaceWire
