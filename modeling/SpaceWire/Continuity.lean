import SpaceWire.Cable
import SpaceWire.Silence
import SpaceWire.Wakeup

namespace SpaceWire

open DataStrobe Run SpaceWireDriver

/-- The transmit coroutine has a turn to take. -/
def Port.txReady (p : Port) : Bool :=
  p.txTask && match p.endpoint.txLoop with
    | .top => true
    | .parked => p.link.txWakeup
    | .sending _ _ _ => p.bitsDriven
    | .driven _ _ | .dead => false

namespace Continuity

/-- A driver that has been started has driven its lines. -/
def Lit (d : SpaceWireDriver) : Prop := d.task.isSome → d.lines = some d.levels

/-- What every run of a link keeps of its transmitting side. -/
structure Supplied (p : Port) : Prop where
  sound : Sound p.driver
  lit : Lit p.driver
  handed : Handover.Handed p
  between : ∀ c b, p.endpoint.txLoop ≠ .driven c b

variable {d d' : SpaceWireDriver} {p : Port} {i : PortInput}

theorem Lit.sendBitsAndWait (h : Lit d) {bits : List Int} {waiter : Option Nat}
    (hsend : d.sendBitsAndWait bits = .ok (d', waiter)) : Lit d' := by
  obtain ⟨err, -, heq⟩ | ⟨bs, d'', w, -, heq, hqueues, htask⟩ := d.sendBitsAndWait_spec bits
  · rw [hsend] at heq
    cases heq
  · rw [hsend] at heq
    cases heq
    intro ht
    rw [hqueues.lines, hqueues.levels]
    exact h (by rwa [htask] at ht)

theorem Lit.resume (h : Lit d) : Lit d.resume := by
  obtain ⟨hqueues, htask⟩ | ⟨-, bit, hdrives⟩ := d.resume_spec
  · intro ht
    rw [hqueues.lines, hqueues.levels]
    exact h (htask ht)
  · intro _
    rw [hdrives.lines, hdrives.levels]

theorem Lit.step (h : Lit p.driver) (i : PortInput) : Lit (p.step i).driver := by
  cases i with
  | start =>
    obtain ⟨-, heq⟩ | ⟨-, -, heq⟩ | ⟨-, -, heq⟩ := p.step_start_cases <;> rw [heq]
    · exact h
    · exact h
    · exact fun _ => rfl
  | started =>
    obtain ⟨-, heq⟩ | ⟨-, -, heq⟩ | ⟨-, -, heq⟩ := p.step_started_cases <;> rw [heq] <;> exact h
  | stop =>
    intro ht
    cases ht
  | txLoop =>
    obtain ⟨endpoint, driver, txWait, heq, hdriver⟩ := p.txTurn_cases
    rw [show p.step .txLoop = _ from heq]
    obtain rfl | ⟨-, bits, hbits⟩ := hdriver
    · exact h
    · exact h.sendBitsAndWait hbits
  | driver => exact h.resume
  | call | watchdog | monitor | line | timeout =>
    rw [(Handover.step_driver p rfl (by simp) (by simp)).1]
    exact h

theorem between_txTurn (h : ∀ c b, p.endpoint.txLoop ≠ .driven c b) (c : Character) (b : Bool) :
    p.txTurn.endpoint.txLoop ≠ .driven c b := by
  simp only [Port.txTurn]
  split
  · cases htx : p.endpoint.txLoop with
    | top =>
      rw [Port.txTop_endpoint]
      exact Up.between_top htx c b
    | parked =>
      dsimp only
      split
      · rename_i hw
        have hw' : p.endpoint.link.txWakeup = true := hw
        rw [Port.txTop_endpoint]
        exact Up.between_top (by simp [Endpoint.stepTxLoop, htx, hw']) c b
      · exact h c b
    | sending =>
      dsimp only
      split
      · rw [Port.txTop_endpoint]
        exact Up.between_top (by simp [Endpoint.stepTxLoop, htx]) c b
      · exact h c b
    | driven | dead => exact h c b
  · exact h c b

theorem between_step (h : ∀ c b, p.endpoint.txLoop ≠ .driven c b) (i : PortInput)
    (c : Character) (b : Bool) : (p.step i).endpoint.txLoop ≠ .driven c b := by
  cases i with
  | start =>
    obtain ⟨-, heq⟩ | ⟨-, -, heq⟩ | ⟨-, -, heq⟩ := p.step_start_cases <;> rw [heq] <;> exact h c b
  | started =>
    obtain ⟨-, heq⟩ | ⟨-, -, heq⟩ | ⟨-, -, heq⟩ := p.step_started_cases <;> rw [heq]
    · exact h c b
    · exact h c b
    · simp
  | stop => exact h c b
  | txLoop => exact between_txTurn h c b
  | call | watchdog | driver | monitor | line | timeout =>
    rw [Handover.step_txLoop p rfl (by simp)]
    exact h c b

theorem Supplied.step (h : Supplied p) (i : PortInput) : Supplied (p.step i) :=
  ⟨Silence.sound_step h.sound i, h.lit.step i, h.handed.step i, between_step h.between i⟩

theorem supplied_new {cfg : LinkConfig} (hnew : Port.new cfg = .ok p) : Supplied p := by
  have hhanded := Handover.handed_new hnew
  have hsound := Silence.sound_new hnew
  obtain ⟨link, -, rfl⟩ := Port.new_ok hnew
  refine ⟨hsound, fun ht => ?_, hhanded, fun c b => by simp⟩
  cases ht

/-- A transmit coroutine that waits, where the FSM has it send, has bits in the driver. -/
theorem Supplied.queued (h : Supplied p) (hattended : Wakeup.Attended p.endpoint)
    (hmode : p.link.fsm.output.txMode ≠ .reset) (htask : p.txTask = true)
    (halive : p.endpoint.txLoop ≠ .dead) (hready : p.txReady = false) : p.driver.queue ≠ [] := by
  simp only [Port.txReady, htask, Bool.true_and] at hready
  cases htx : p.endpoint.txLoop with
  | top => simp [htx] at hready
  | parked =>
    simp only [htx] at hready
    exact absurd (hattended htx hready) hmode
  | sending c b bits =>
    simp only [htx] at hready
    obtain ⟨event, hwait, htracks⟩ := h.handed.waiting c b bits htx
    have hheld : event ∉ p.driver.setEvents := by simpa [Port.bitsDriven, hwait] using hready
    have hcounted := h.handed.counted
    have hlt : ¬ p.driver.enqueuedBits ≤ p.driver.drivenBits := mt htracks.released_iff.mpr hheld
    intro hnil
    rw [hnil, List.length_nil] at hcounted
    omega
  | driven c b => exact absurd htx (h.between c b)
  | dead => exact absurd htx halive

end Continuity

/-- A port with a simulator that rejects some bit periods, and whether the driver's task has
failed: the `Timer` of the first bit driven at such a rate raises. -/
structure TimedPort where
  port : Port
  failed : Bool := false

namespace TimedPort

variable (accepts : Int → Bool)

/-- A driver that has failed has no turns until it is stopped and started again. -/
def step (t : TimedPort) : PortInput → TimedPort
  | .driver =>
    if t.failed then t
    else
      let port := t.port.step .driver
      { port
        failed := t.port.driver.drivenBits < port.driver.drivenBits &&
          !accepts port.link.bitRateBps }
  | .stop => { port := t.port.step .stop }
  | i => { t with port := t.port.step i }

theorem step_port (t : TimedPort) (i : PortInput) :
    (t.step accepts i).port = t.port ∨ (t.step accepts i).port = t.port.step i := by
  cases i with
  | driver =>
    simp only [step]
    split
    · exact .inl rfl
    · exact .inr rfl
  | start | started | stop | call | txLoop | watchdog | monitor | line | timeout => exact .inr rfl

end TimedPort

namespace Continuity

variable {accepts : Int → Bool} {cfg : LinkConfig} {l l' : SpaceWireLink} {p : Port} {t : TimedPort}

/-- The driver is at the bit rate of the state the FSM is in. -/
structure AtRate (cfg : LinkConfig) (l : SpaceWireLink) : Prop where
  rate : l.bitRateBps = l.fsm.output.bitRateBps
  target : l.fsm.targetBitRateBps = cfg.bitRate

theorem AtRate.still (h : AtRate cfg l) (hq : Port.Still l l') : AtRate cfg l' :=
  ⟨by rw [hq.bitRate, hq.fsm, h.rate], by rw [hq.fsm, h.target]⟩

theorem AtRate.feedFsm (h : AtRate cfg l) (e : Event) : AtRate cfg (l.feedFsm e) := by
  have htarget := l.fsm.feed_targetBitRateBps e
  refine ⟨?_, ?_⟩
  · rw [SpaceWireLink.feedFsm_bitRateBps, SpaceWireLink.feedFsm_fsm]
    split
    · rename_i hs
      rw [h.rate, LinkFSM.output, LinkFSM.output, hs, htarget]
    · rfl
  · rw [SpaceWireLink.feedFsm_fsm, htarget, h.target]

theorem AtRate.step (h : AtRate cfg p.link) (i : PortInput) : AtRate cfg (p.step i).link :=
  @Port.step_invariant p (fun _ l => AtRate cfg l) (fun h hq => h.still hq)
    (fun e h => h.feedFsm e) [] h i

theorem AtRate.cases (h : AtRate cfg l) :
    l.bitRateBps = initialBitRateBps ∨ l.bitRateBps = cfg.bitRate := by
  rw [h.rate, ← h.target, LinkFSM.output]
  dsimp only
  split
  · exact .inr rfl
  · exact .inl rfl

/-- What every run of a link keeps, whatever bit periods its simulator accepts. -/
structure Driven (accepts : Int → Bool) (cfg : LinkConfig) (t : TimedPort) : Prop where
  supplied : Supplied t.port
  attended : Wakeup.Attended t.port.endpoint
  rate : AtRate cfg t.port.link
  failed : t.failed = true → accepts initialBitRateBps = false ∨ accepts cfg.bitRate = false

theorem driven_new (hnew : Port.new cfg = .ok p) : Driven accepts cfg ⟨p, false⟩ := by
  have hsupplied := supplied_new hnew
  obtain ⟨link, hlink, rfl⟩ := Port.new_ok hnew
  obtain ⟨-, -, hfsm, -⟩ := Accounting.new_ok hlink
  refine ⟨hsupplied, fun hparked => (by cases hparked), ⟨?_, ?_⟩, fun hfailed => (by cases hfailed)⟩
  · unfold SpaceWireLink.new at hlink
    dsimp only at hlink
    split at hlink <;> cases hlink
    rfl
  · simp [Port.link, hfsm]

theorem Driven.step (h : Driven accepts cfg t) (i : PortInput) :
    Driven accepts cfg (t.step accepts i) := by
  have hattended : Wakeup.Attended (t.port.step i).endpoint := by
    rw [t.port.step_life]
    exact h.attended.run _
  have hfailed : (t.step accepts i).failed = true →
      accepts initialBitRateBps = false ∨ accepts cfg.bitRate = false := by
    cases i with
    | driver =>
      simp only [TimedPort.step]
      split
      · exact h.failed
      · intro hfails
        have hsame : (t.port.step .driver).link = t.port.link := rfl
        have hrejected : accepts t.port.link.bitRateBps = false := by
          rw [← hsame]
          simpa using (Bool.and_eq_true_iff.mp hfails).2
        obtain hrate | hrate := h.rate.cases
        · exact .inl (hrate ▸ hrejected)
        · exact .inr (hrate ▸ hrejected)
    | stop => exact fun hfails => by cases hfails
    | start | started | call | txLoop | watchdog | monitor | line | timeout => exact h.failed
  obtain hport | hport := t.step_port accepts i
  · exact ⟨hport ▸ h.supplied, hport ▸ h.attended, hport ▸ h.rate, hfailed⟩
  · exact ⟨hport ▸ h.supplied.step i, hport ▸ hattended, hport ▸ h.rate.step i, hfailed⟩

/-- The line never falls silent while there is something to send: in every run of a link, with
any number of starts and stops in it, whenever the FSM has the transmit coroutine send and the
coroutine has no turn to take, the driver's next turn changes exactly one of the two lines, unless
its task has failed; and it never fails where the simulator accepts the bit periods of both
rates. -/
theorem line_never_idle (accepts : Int → Bool) {cfg : LinkConfig} (hnew : Port.new cfg = .ok p)
    (is : List PortInput) :
    let t := run (TimedPort.step accepts) ⟨p, false⟩ is
    (t.failed = true → accepts initialBitRateBps = false ∨ accepts cfg.bitRate = false) ∧
      (t.failed = false → t.port.link.fsm.output.txMode ≠ .reset → t.port.txTask = true →
        t.port.driver.task.isSome → t.port.endpoint.txLoop ≠ .dead → t.port.txReady = false →
        ∃ v w, t.port.driver.lines = some v ∧
          (t.step accepts .driver).port.driver.lines = some w ∧ OneChanges v w) := by
  intro t
  have hdriven : Driven accepts cfg t := run_keeps (driven_new hnew) fun _ i _ h => h.step i
  refine ⟨hdriven.failed, fun hfailed hmode htask hdriver halive hready => ?_⟩
  have hqueue := hdriven.supplied.queued hdriven.attended hmode htask halive hready
  obtain ⟨bit, rest, hcons⟩ := List.exists_cons_of_ne_nil hqueue
  have hdrives := hdriven.supplied.sound.resume_drives hdriver hcons
  have hstep : (t.step accepts .driver).port = t.port.step .driver := by
    simp [TimedPort.step, hfailed]
  refine ⟨t.port.driver.levels, next t.port.driver.levels bit, hdriven.supplied.lit hdriver, ?_,
    next_oneChanges _ _⟩
  rw [hstep]
  exact hdrives.lines

/-- With a resolution of 1 ps a bit period is accepted when it is a number of whole steps. -/
def wholePicoseconds (bps : Int) : Bool := 0 < bps && 1000000000000 % bps = 0

theorem line_never_idle_started : ∃ p, Port.new { linkStart := true } = .ok p ∧
    let t := run (TimedPort.step wholePicoseconds) ⟨p, false⟩ Port.handshake
    t.port.link.fsm.state = .run ∧ t.failed = false ∧
      ∃ v w, t.port.driver.lines = some v ∧
        (t.step wholePicoseconds .driver).port.driver.lines = some w ∧ OneChanges v w := by
  obtain ⟨p, hp, hrun, hmode, htask, hdriver, halive, hready⟩ :
      ∃ p, Port.new { linkStart := true } = .ok p ∧
        let t := run (TimedPort.step wholePicoseconds) ⟨p, false⟩ Port.handshake
        t.port.link.fsm.state = .run ∧ t.port.link.fsm.output.txMode ≠ .reset ∧
          t.port.txTask = true ∧ t.port.driver.task.isSome ∧ t.port.endpoint.txLoop ≠ .dead ∧
          t.port.txReady = false :=
    ⟨_, rfl, by decide +kernel, by decide +kernel, by decide +kernel, by decide +kernel,
      by decide +kernel, by decide +kernel⟩
  obtain ⟨hfails, hidle⟩ :=
    @line_never_idle p wholePicoseconds { linkStart := true } hp Port.handshake
  have hfailed : (run (TimedPort.step wholePicoseconds) ⟨p, false⟩ Port.handshake).failed =
      false := by
    rw [← Bool.not_eq_true]
    intro hfailed
    obtain h | h := hfails hfailed
    · exact absurd h (by decide)
    · exact absurd h (by decide)
  exact ⟨p, hp, hrun, hfailed, hidle hfailed hmode htask hdriver halive hready⟩

-- at 30 Mbit/s the period is no number of whole steps, and the driver fails in Run
example : ∃ p, Port.new { bitRate := 30000000, linkStart := true } = .ok p ∧
    let t := run (TimedPort.step wholePicoseconds) ⟨p, false⟩ (Port.handshake ++ [.driver])
    t.failed = true ∧ t.port.link.fsm.state = .run ∧ t.port.driver.task.isSome ∧
      (t.step wholePicoseconds .driver).port.driver.lines = t.port.driver.lines :=
  ⟨_, rfl, by decide +kernel, by decide +kernel, by decide +kernel, by decide +kernel⟩

end Continuity

end SpaceWire
