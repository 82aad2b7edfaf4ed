import SpaceWire.Driver
import SpaceWire.Monitor
import SpaceWire.Timers

namespace SpaceWire

open DataStrobe Run

inductive LineCallback
  | feedBit
  deriving DecidableEq

/-- A link with its driver and its monitor. Of a link the endpoint has the attributes, the
transmit coroutine and the packets; `txTask` and `disconnectTask` say whether the two
coroutines exist, `txWait` is the driver's event the transmit coroutine waits for, and
`starting` counts the calls of `start` that are in their 1 ns wait. -/
structure Port where
  endpoint : Endpoint
  driver : SpaceWireDriver
  monitor : SpaceWireMonitor LineCallback
  txTask : Bool := false
  txWait : Option Nat := none
  disconnectTask : Bool := false
  starting : Nat := 0

/-- What the application and the timers do to a link. -/
def Action.isCall : Action → Bool
  | .feed event => !event.isTick
  | .expire _ | .sendPacket _ _ | .sendChar _ | .recvPacket => true
  | .watchdog _ | .txLoop => false

/-- What can happen to a port: calls, the wait of `start` being over, turns of the coroutines,
and transitions of the two receive lines or none for the disconnect timeout. -/
inductive PortInput
  | start
  | started
  | stop
  | call (action : Action)
  | txLoop
  | watchdog
  | driver
  | monitor
  | line (di : Option Bool)
  | timeout

def PortInput.isLifecycle : PortInput → Bool
  | .start | .started | .stop => true
  | _ => false

namespace SpaceWireLink

/-- What `start` does to the link itself once the monitor has been started. -/
def arm (l : SpaceWireLink) : SpaceWireLink :=
  let l := l.startTimer tick6p4Ns .tick6p4us
  let l := if l.pendingAutoStart then l.feedFsm .autoStart else l
  if l.pendingLinkStart then l.feedFsm .linkStart else l

theorem start_eq_arm (l : SpaceWireLink) :
    l.start = if l.started then .error (.runtimeError "SpaceWireLink is already started")
      else .ok { l with started := true }.arm := rfl

theorem arm_started (l : SpaceWireLink) : l.arm.started = l.started := by
  simp only [arm]
  split <;> split <;> simp [startTimer]

def armCalls (l : SpaceWireLink) : List Call :=
  let l := l.startTimer tick6p4Ns .tick6p4us
  let autoStarted := if l.pendingAutoStart then l.feedFsm .autoStart else l
  (if l.pendingAutoStart then [⟨l, .autoStart⟩] else []) ++
    if autoStarted.pendingLinkStart then [⟨autoStarted, .linkStart⟩] else []

theorem arm_chain (l : SpaceWireLink) :
    History.Chain (l.startTimer tick6p4Ns .tick6p4us) l.armCalls l.arm :=
  (History.Chain.oneIf _ _ .autoStart).append (.oneIf _ _ .linkStart)

end SpaceWireLink

theorem Endpoint.run_started (p : Endpoint) (is : List Input) :
    (run Endpoint.step p is).link.started = p.link.started := by
  induction is generalizing p with
  | nil => rfl
  | cons i is ih => rw [run_cons, ih, step_started]

namespace Port

def link (p : Port) : SpaceWireLink := p.endpoint.link

def setLink (p : Port) (link : SpaceWireLink) : Port :=
  { p with endpoint := { p.endpoint with link } }

def new (cfg : LinkConfig) : Except Exn Port :=
  match SpaceWireLink.new cfg with
  | .error err => .error err
  | .ok link =>
    match SpaceWireDriver.new with
    | .error err => .error err
    | .ok driver => .ok { endpoint := { link }, driver, monitor := {} }

theorem new_ok {cfg : LinkConfig} {p : Port} (h : Port.new cfg = .ok p) :
    ∃ link, SpaceWireLink.new cfg = .ok link ∧
      p = { endpoint := { link }, driver := { prevD := false, s := false }, monitor := {} } := by
  unfold Port.new at h
  cases hl : SpaceWireLink.new cfg with
  | error err =>
    rw [hl] at h
    cases h
  | ok link =>
    rw [hl] at h
    cases h
    exact ⟨link, rfl, rfl⟩

/-- `start` up to its wait; the flag stays set when the driver raises. -/
def start (p : Port) : Port × Except Exn Unit :=
  if p.link.started then (p, .error (.runtimeError "SpaceWireLink is already started"))
  else
    let p := p.setLink { p.link with started := true }
    match p.driver.start with
    | .error err => (p, .error err)
    | .ok driver => ({ p with driver }, .ok ())

/-- `start` after its wait; the callback stays registered when the monitor raises. -/
def started (p : Port) : Port × Except Exn Unit :=
  let p := { p with monitor := p.monitor.onBit .feedBit }
  match p.monitor.start with
  | .error err => (p, .error err)
  | .ok monitor =>
    ({ p with endpoint := { p.endpoint with link := p.link.arm, txLoop := .top }
              monitor, txTask := true, disconnectTask := true }, .ok ())

/-- `stop` kills the tasks; what they were doing stays as it is. -/
def stop (p : Port) : Port :=
  { p with
    endpoint := { p.endpoint with link := { p.link.cancelTimer with started := false } }
    driver := p.driver.stop
    monitor := p.monitor.stop
    txTask := false
    disconnectTask := false }

def sendBits (p : Port) : Port :=
  match p.endpoint.txLoop with
  | .sending _ _ bits =>
    match p.driver.sendBitsAndWait (bits.map bitValue) with
    | .error _ => { p with endpoint := { p.endpoint with txLoop := .dead } }
    | .ok (driver, txWait) => { p with driver, txWait }
  | _ => p

def txTop (p : Port) : Port := { p with endpoint := p.endpoint.stepTxLoop }.sendBits

/-- The driver has released the transmit coroutine. -/
def bitsDriven (p : Port) : Bool :=
  match p.txWait with
  | none => true
  | some event => event ∈ p.driver.setEvents

def txTurn (p : Port) : Port :=
  if p.txTask then
    match p.endpoint.txLoop with
    | .top => p.txTop
    | .parked =>
      if p.link.txWakeup then { p with endpoint := p.endpoint.stepTxLoop }.txTop else p
    | .sending _ _ _ =>
      if p.bitsDriven then { p with endpoint := p.endpoint.stepTxLoop.stepTxLoop }.txTop else p
    | .driven _ _ | .dead => p
  else p

def lineBit (p : Port) (di : Option Bool) : Port :=
  let (monitor, invoked) := p.monitor.edge di
  let fed := invoked.foldl (fun endpoint (x : LineCallback × Bool) => endpoint.rxBit x.2) p.endpoint
  { p with monitor, endpoint := fed }

def step (p : Port) : PortInput → Port
  | .start =>
    match p.start with
    | (p, .error _) => p
    | (p, .ok _) => { p with starting := p.starting + 1 }
  | .started =>
    if p.starting = 0 then p else { p with starting := p.starting - 1 }.started.1
  | .stop => p.stop
  | .call action =>
    if action.isCall then { p with endpoint := p.endpoint.act action } else p
  | .txLoop => p.txTurn
  | .watchdog =>
    if p.disconnectTask then
      { p with endpoint := p.endpoint.act (.watchdog p.monitor.disconnected) }
    else p
  | .driver => { p with driver := p.driver.resume }
  | .monitor => { p with monitor := p.monitor.resume }
  | .line di => p.lineBit di
  | .timeout => { p with monitor := p.monitor.timeout }

/-- How often the transmit coroutine of the endpoint moves in one turn. -/
def txMoves (p : Port) : Nat :=
  if p.txTask then
    match p.endpoint.txLoop with
    | .top => 1
    | .parked => if p.link.txWakeup then 2 else 0
    | .sending _ _ _ => if p.bitsDriven then 3 else 0
    | .driven _ _ | .dead => 0
  else 0

/-- The steps of the endpoint that an input amounts to, when it is not `start` or `stop`. -/
def inputs (p : Port) : PortInput → List Input
  | .call action => if action.isCall then [.act action] else []
  | .watchdog => if p.disconnectTask then [.act (.watchdog p.monitor.disconnected)] else []
  | .txLoop => List.replicate p.txMoves (.act .txLoop)
  | .line di => (p.monitor.edge di).2.map fun x => .bit x.2
  | .start | .started | .stop | .driver | .monitor | .timeout => []

def trace (p : Port) : List PortInput → List Input
  | [] => []
  | i :: is => p.inputs i ++ (p.step i).trace is

def calls (p : Port) (i : PortInput) : List Call :=
  match i with
  | .started => if p.starting = 0 || p.monitor.task.isSome then [] else p.link.armCalls
  | _ => p.endpoint.history (p.inputs i)

variable {p : Port}

theorem sendBits_cases (p : Port) : p.sendBits = p ∨
    ∃ bits driver txWait, p.driver.sendBitsAndWait bits = .ok (driver, txWait) ∧
      p.sendBits = { p with driver, txWait } := by
  simp only [sendBits]
  split
  · rename_i bits _
    obtain ⟨err, hbits, -⟩ | ⟨_, driver, txWait, -, heq, -⟩ :=
      p.driver.sendBitsAndWait_spec (bits.map bitValue)
    · rw [SpaceWireDriver.normalizeBits_map_bitValue] at hbits
      cases hbits
    · right
      refine ⟨bits.map bitValue, driver, txWait, heq, ?_⟩
      simp only [heq]
  · exact .inl rfl

@[simp] theorem sendBits_endpoint (p : Port) : p.sendBits.endpoint = p.endpoint := by
  obtain heq | ⟨_, _, _, -, heq⟩ := p.sendBits_cases <;> rw [heq]

@[simp] theorem txTop_endpoint (p : Port) : p.txTop.endpoint = p.endpoint.stepTxLoop := by
  rw [txTop, sendBits_endpoint]

theorem txTurn_endpoint (p : Port) :
    p.txTurn.endpoint = run Endpoint.step p.endpoint (List.replicate p.txMoves (.act .txLoop)) := by
  simp only [txTurn, txMoves]
  split
  · split
    · simp [Endpoint.step, Endpoint.act]
    · split
      · simp [List.replicate, Endpoint.step, Endpoint.act]
      · rfl
    · split
      · simp [List.replicate, Endpoint.step, Endpoint.act]
      · rfl
    · rfl
    · rfl
  · rfl

theorem txTop_cases (htop : p.endpoint.txLoop = .top) : ∃ endpoint driver txWait,
    p.txTop = { p with endpoint, driver, txWait } ∧ (driver = p.driver ∨
      stateTx endpoint.link.fsm.state ≠ .reset ∧
        ∃ bits, p.driver.sendBitsAndWait bits = .ok (driver, txWait)) := by
  obtain ⟨-, heq⟩ | ⟨hmode, l, c, b, enc, hp, hsent⟩ := Endpoint.stepTxLoop_top htop
  · exact ⟨p.endpoint.stepTxLoop, p.driver, p.txWait, by simp [txTop, sendBits, heq], .inl rfl⟩
  · have hfsm : p.endpoint.stepTxLoop.link.fsm = p.endpoint.link.fsm := by
      have hq := History.quiet_picked hp
      obtain ⟨bits, heq⟩ | ⟨-, heq⟩ := hsent <;> rw [heq] <;> exact hq.fsm
    have hturn : p.txTop = { p with endpoint := p.endpoint.stepTxLoop }.sendBits := rfl
    obtain heq | ⟨bits, driver, txWait, hbits, heq⟩ :=
      { p with endpoint := p.endpoint.stepTxLoop : Port }.sendBits_cases
    · exact ⟨p.endpoint.stepTxLoop, p.driver, p.txWait, hturn.trans heq, .inl rfl⟩
    · refine ⟨p.endpoint.stepTxLoop, driver, txWait, hturn.trans heq, .inr ⟨?_, bits, hbits⟩⟩
      rwa [hfsm]

theorem txTurn_cases (p : Port) : ∃ endpoint driver txWait,
    p.txTurn = { p with endpoint, driver, txWait } ∧ (driver = p.driver ∨
      stateTx endpoint.link.fsm.state ≠ .reset ∧
        ∃ bits, p.driver.sendBitsAndWait bits = .ok (driver, txWait)) := by
  have hsame : ∃ endpoint driver txWait, p = { p with endpoint, driver, txWait } ∧
      (driver = p.driver ∨ stateTx endpoint.link.fsm.state ≠ .reset ∧
        ∃ bits, p.driver.sendBitsAndWait bits = .ok (driver, txWait)) :=
    ⟨p.endpoint, p.driver, p.txWait, rfl, .inl rfl⟩
  simp only [txTurn]
  split
  · cases htx : p.endpoint.txLoop with
    | top => exact txTop_cases htx
    | parked =>
      dsimp only
      split
      · rename_i hw
        exact txTop_cases (p := { p with endpoint := p.endpoint.stepTxLoop })
          (by simp [Endpoint.stepTxLoop, htx, show p.endpoint.link.txWakeup = true from hw])
      · exact hsame
    | sending c b bits =>
      dsimp only
      split
      · exact txTop_cases (p := { p with endpoint := p.endpoint.stepTxLoop.stepTxLoop })
          (by simp [Endpoint.stepTxLoop, htx])
      · exact hsame
    | driven | dead => exact hsame
  · exact hsame

theorem lineBit_endpoint (p : Port) (di : Option Bool) :
    (p.lineBit di).endpoint =
      run Endpoint.step p.endpoint ((p.monitor.edge di).2.map fun x => .bit x.2) := by
  simp only [lineBit, run, List.foldl_map]
  rfl

theorem step_endpoint (p : Port) {i : PortInput} (h : i.isLifecycle = false) :
    (p.step i).endpoint = run Endpoint.step p.endpoint (p.inputs i) := by
  cases i with
  | start | started | stop => cases h
  | call action =>
    simp only [step, inputs]
    split <;> rfl
  | txLoop => exact p.txTurn_endpoint
  | watchdog =>
    simp only [step, inputs]
    split <;> rfl
  | driver | monitor | timeout => rfl
  | line di => exact p.lineBit_endpoint di

/-- Runs of a port refine runs of its endpoint. -/
theorem run_endpoint {is : List PortInput} (h : ∀ i ∈ is, i.isLifecycle = false) :
    (run step p is).endpoint = run Endpoint.step p.endpoint (p.trace is) := by
  induction is generalizing p with
  | nil => rfl
  | cons i is ih =>
    rw [run_cons, ih fun j hj => h j (List.mem_cons_of_mem i hj), p.step_endpoint (h i (by simp)),
      trace, run_append]

section lifecycle

theorem start_cases (p : Port) :
    p.link.started ∧ p.start = (p, .error (.runtimeError "SpaceWireLink is already started")) ∨
      p.link.started = false ∧ p.driver.task.isSome ∧
        p.start = (p.setLink { p.link with started := true },
          .error (.runtimeError "SpaceWireDriver is already started")) ∨
      p.link.started = false ∧ p.driver.task = none ∧
        p.start =
          ({ p.setLink { p.link with started := true } with
             driver := { p.driver with lines := some p.driver.levels, task := some .created } },
            .ok ()) := by
  cases hs : p.link.started with
  | true => exact .inl ⟨rfl, by simp [start, hs]⟩
  | false =>
    right
    cases ht : p.driver.task with
    | some t =>
      exact .inl ⟨rfl, rfl, by simp [start, setLink, SpaceWireDriver.start, hs, ht]⟩
    | none =>
      right
      refine ⟨rfl, rfl, ?_⟩
      simp [start, setLink, SpaceWireDriver.start, SpaceWireDriver.driveLevels,
        SpaceWireDriver.levels, hs, ht]

theorem step_start_cases (p : Port) :
    p.link.started ∧ p.step .start = p ∨
      p.link.started = false ∧ p.driver.task.isSome ∧
        p.step .start = p.setLink { p.link with started := true } ∨
      p.link.started = false ∧ p.driver.task = none ∧
        p.step .start =
          { p.setLink { p.link with started := true } with
            driver := { p.driver with lines := some p.driver.levels, task := some .created }
            starting := p.starting + 1 } := by
  obtain ⟨hs, heq⟩ | ⟨hs, ht, heq⟩ | ⟨hs, ht, heq⟩ := p.start_cases
  · exact .inl ⟨hs, by simp only [step, heq]⟩
  · exact .inr (.inl ⟨hs, ht, by simp only [step, heq]⟩)
  · exact .inr (.inr ⟨hs, ht, by simp only [step, heq]; rfl⟩)

theorem start_of_stopped (hs : p.link.started = false) (ht : p.driver.task = none) :
    p.step .start = { p.setLink { p.link with started := true } with
      driver := { p.driver with lines := some p.driver.levels, task := some .created }
      starting := p.starting + 1 } := by
  obtain ⟨h, -⟩ | ⟨-, h, -⟩ | ⟨-, -, heq⟩ := p.step_start_cases
  · rw [hs] at h
    cases h
  · rw [ht] at h
    cases h
  · exact heq

theorem started_cases (p : Port) :
    p.monitor.task.isSome ∧ p.started =
        ({ p with monitor := p.monitor.onBit .feedBit },
          .error (.runtimeError "SpaceWireMonitor is already started")) ∨
      p.monitor.task = none ∧ p.started =
        ({ p with endpoint := { p.endpoint with link := p.link.arm, txLoop := .top }
                  monitor := { p.monitor.onBit .feedBit with task := some .created }
                  txTask := true
                  disconnectTask := true }, .ok ()) := by
  cases hm : p.monitor.task with
  | some t =>
    exact .inl ⟨rfl, by simp [started, SpaceWireMonitor.start, SpaceWireMonitor.onBit, hm]⟩
  | none =>
    refine .inr ⟨rfl, ?_⟩
    simp [started, SpaceWireMonitor.start, SpaceWireMonitor.onBit, hm, link]

theorem step_started_cases (p : Port) :
    p.starting = 0 ∧ p.step .started = p ∨
      p.starting ≠ 0 ∧ p.monitor.task.isSome ∧
        p.step .started =
          { p with starting := p.starting - 1, monitor := p.monitor.onBit .feedBit } ∨
      p.starting ≠ 0 ∧ p.monitor.task = none ∧
        p.step .started =
          { p with starting := p.starting - 1
                   endpoint := { p.endpoint with link := p.link.arm, txLoop := .top }
                   monitor := { p.monitor.onBit .feedBit with task := some .created }
                   txTask := true
                   disconnectTask := true } := by
  by_cases hz : p.starting = 0
  · exact .inl ⟨hz, if_pos hz⟩
  · right
    simp only [step, if_neg hz]
    obtain ⟨hm, heq⟩ | ⟨hm, heq⟩ := { p with starting := p.starting - 1 : Port }.started_cases
    · exact .inl ⟨hz, hm, congrArg Prod.fst heq⟩
    · exact .inr ⟨hz, hm, congrArg Prod.fst heq⟩

end lifecycle

theorem step_link_started (p : Port) {i : PortInput} (hi : i ≠ .start) (hi' : i ≠ .stop) :
    (p.step i).link.started = p.link.started := by
  by_cases hl : i = .started
  · subst hl
    obtain ⟨-, heq⟩ | ⟨-, -, heq⟩ | ⟨-, -, heq⟩ := p.step_started_cases <;> rw [heq]
    · rfl
    · exact p.link.arm_started
  · have hno : i.isLifecycle = false := by
      cases i with
      | start => exact absurd rfl hi
      | started => exact absurd rfl hl
      | stop => exact absurd rfl hi'
      | call | txLoop | watchdog | driver | monitor | line | timeout => rfl
    rw [link, p.step_endpoint hno, Endpoint.run_started]
    rfl

theorem step_driver_stopped {i : PortInput} (hi : i ≠ .start) (h : p.driver.task = none) :
    (p.step i).driver.task = none := by
  cases i with
  | start => exact absurd rfl hi
  | started =>
    obtain ⟨-, heq⟩ | ⟨-, -, heq⟩ | ⟨-, -, heq⟩ := p.step_started_cases <;> rw [heq] <;> exact h
  | stop => rfl
  | call | watchdog =>
    simp only [step]
    split <;> exact h
  | txLoop =>
    obtain ⟨endpoint, driver, txWait, heq, hdriver⟩ := p.txTurn_cases
    rw [show p.step .txLoop = _ from heq]
    obtain hsame | ⟨-, bits, hbits⟩ := hdriver
    · exact (congrArg SpaceWireDriver.task hsame).trans h
    · obtain ⟨err, -, herr⟩ | ⟨_, d, w, -, hok, -, ht⟩ := p.driver.sendBitsAndWait_spec bits
      · rw [herr] at hbits
        cases hbits
      · rw [hok] at hbits
        cases hbits
        exact ht.trans h
  | driver => simp [step, SpaceWireDriver.resume, h]
  | monitor | line | timeout => exact h

/-- What a step may do to a link without a call: anything but move its FSM. -/
structure Still (l l' : SpaceWireLink) : Prop where
  fsm : l'.fsm = l.fsm
  runReached : l'.runReached = l.runReached
  bitRate : l'.bitRateBps = l.bitRateBps

/-- The invariant rule over the calls of a step. -/
theorem step_invariant {I : List Call → SpaceWireLink → Prop}
    (hstill : ∀ {hs l l'}, I hs l → Still l l' → I hs l')
    (hcall : ∀ {hs l} e, I hs l → I (hs ++ [⟨l, e⟩]) (l.feedFsm e))
    {hs : List Call} (h : I hs p.link) (i : PortInput) : I (hs ++ p.calls i) (p.step i).link := by
  have hquiet : ∀ {hs l l'}, I hs l → History.Quiet l l' → I hs l' :=
    fun h hq => hstill h ⟨hq.fsm, hq.runReached, hq.bitRate⟩
  by_cases hi : i.isLifecycle = true
  · cases i with
    | start =>
      rw [show p.calls .start = [] from rfl, List.append_nil]
      obtain ⟨-, heq⟩ | ⟨-, -, heq⟩ | ⟨-, -, heq⟩ := p.step_start_cases <;> rw [heq]
      · exact h
      · exact hstill h ⟨rfl, rfl, rfl⟩
      · exact hstill h ⟨rfl, rfl, rfl⟩
    | stop =>
      rw [show p.calls .stop = [] from rfl, List.append_nil]
      exact hstill h ⟨rfl, rfl, rfl⟩
    | started =>
      obtain ⟨hz, heq⟩ | ⟨hz, hm, heq⟩ | ⟨hz, hm, heq⟩ := p.step_started_cases
      · rw [heq, show p.calls .started = [] by simp [calls, hz], List.append_nil]
        exact h
      · rw [heq, show p.calls .started = [] by simp [calls, hm], List.append_nil]
        exact h
      · rw [heq, show p.calls .started = p.link.armCalls by simp [calls, hz, hm]]
        exact p.link.arm_chain.invariant (I := I) hquiet hcall (hstill h ⟨rfl, rfl, rfl⟩)
    | call | txLoop | watchdog | driver | monitor | line | timeout => cases hi
  · have hrun := History.run_invariant (I := I) hquiet (fun _ h => hstill h ⟨rfl, rfl, rfl⟩) hcall h
      (p.inputs i)
    have hcalls : p.calls i = p.endpoint.history (p.inputs i) := by
      cases i with
      | started => simp [PortInput.isLifecycle] at hi
      | start | stop | call | txLoop | watchdog | driver | monitor | line | timeout => rfl
    rw [← p.step_endpoint (by simpa using hi), ← hcalls] at hrun
    exact hrun

/-- A first handshake: the two timers of the way to Started, a NULL received and one sent, an
FCT sent and one received. -/
def handshake : List PortInput :=
  [.start, .started, .monitor, .call (.expire ⟨tick6p4Ns, .tick6p4us, 1⟩),
    .call (.expire ⟨tick12p8Ns, .tick12p8us, 3⟩)] ++
  [false, true, true, true, false, true, false, false].map (fun b => .line (some b)) ++
  .txLoop :: List.replicate 8 .driver ++ .txLoop :: List.replicate 4 .driver ++
  .txLoop :: [false, true, false, false].map (fun b => .line (some b))

end Port

end SpaceWire
