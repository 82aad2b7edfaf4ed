import SpaceWire.Port

namespace SpaceWire.Restart

open SpaceWireLink Run

/-- What the first start of a link leaves: ErrorReset with its timer running, each line bit fed
once, no credit, and an account of the queued N-Chars. -/
structure Fresh (p : Port) : Prop where
  state : p.link.fsm.state = .errorReset
  timer : ∃ task ∈ p.link.scheduledTimers, p.link.timerTask = some task ∧
    task.gen = p.link.timerGen ∧ task.event = .tick6p4us ∧ task.durationNs = tick6p4Ns
  fedOnce : ∀ bit, ((p.step .monitor).monitor.edge (some bit)).2 = [(.feedBit, bit)]
  credit : p.link.credit.txCredit = 0 ∧ p.link.credit.rxCredit = 0
  outstanding : p.link.txNcharOutstanding = p.link.txNcharQueue.length

variable {p : Port} {l l' : SpaceWireLink}

structure Unmoved (l : SpaceWireLink) : Prop where
  state : l.fsm.state = .errorReset
  timers : l.scheduledTimers = []
  credit : l.credit.txCredit = 0 ∧ l.credit.rxCredit = 0
  outstanding : l.txNcharOutstanding = l.txNcharQueue.length

theorem Unmoved.frame (h : Unmoved l) (heq : (l'.fsm, l'.scheduledTimers, l'.credit,
      l'.txNcharOutstanding, l'.txNcharQueue) =
    (l.fsm, l.scheduledTimers, l.credit, l.txNcharOutstanding, l.txNcharQueue)) :
    Unmoved l' := by
  simp only [Prod.mk.injEq] at heq
  obtain ⟨h1, h2, h3, h4, h5⟩ := heq
  refine ⟨h1 ▸ h.state, h2 ▸ h.timers, h3 ▸ h.credit, ?_⟩
  rw [h4, h5]
  exact h.outstanding

theorem Unmoved.feedFsm (h : Unmoved l) {e : Event} (he : e ≠ .tick6p4us) :
    Unmoved (l.feedFsm e) := by
  rw [feedFsm_errorReset l e h.state, if_neg fun hc => he hc.1]
  exact ⟨by rw [LinkFSM.updateFlags_state]; exact h.state, h.timers, h.credit, h.outstanding⟩

theorem Unmoved.enqueue (h : Unmoved l) (cs : List Character) :
    Unmoved (cs.foldl enqueueNchar l) := by
  induction cs generalizing l with
  | nil => exact h
  | cons c cs ih =>
    refine ih ⟨h.state, h.timers, h.credit, ?_⟩
    simp [enqueueNchar, h.outstanding]

theorem Unmoved.call {q : Endpoint} (h : Unmoved q.link) {a : Action} (ha : a.isCall = true) :
    Unmoved (q.act a).link := by
  cases a with
  | watchdog | txLoop => cases ha
  | feed e =>
    simp only [Endpoint.act]
    split
    · apply h.feedFsm
      rintro rfl
      cases ha
    · exact h
  | expire task =>
    simp only [Endpoint.act, h.timers, List.not_mem_nil, if_false]
    exact h
  | sendPacket data terminator =>
    simp only [Endpoint.act, sendPacket]
    cases SpaceWirePacket.create data terminator with
    | error err => exact h
    | ok pkt => exact h.enqueue pkt.nchars
  | sendChar char =>
    simp only [Endpoint.act, sendChar]
    cases char.isNChar with
    | false => exact h
    | true => exact h.enqueue [char]
  | recvPacket =>
    simp only [Endpoint.act, Endpoint.stepRecvPacket]
    split
    · exact h
    · split
      · rw [Endpoint.returnPacket_link]
        exact h.frame rfl
      · rw [Endpoint.returnPacket_link]
        exact h.frame rfl
      · exact h.frame rfl

/-- A port whose `start` has not come past its wait. -/
structure Pristine (p : Port) : Prop where
  link : Unmoved p.link
  monitorTask : p.monitor.task = none
  callbacks : p.monitor.callbacks = []
  txTask : p.txTask = false
  disconnectTask : p.disconnectTask = false

theorem Pristine.step (h : Pristine p) {i : PortInput} (hi : i = .started → p.starting = 0) :
    Pristine (p.step i) := by
  -- without coroutines and callbacks most inputs do nothing
  have hsame (heq : p.step i = p) : Pristine (p.step i) := by
    rw [heq]
    exact h
  obtain ⟨hl, hm, hc, htx, hd⟩ := h
  cases i with
  | start =>
    obtain ⟨-, heq⟩ | ⟨-, -, heq⟩ | ⟨-, -, heq⟩ := p.step_start_cases
    · exact hsame heq
    · rw [heq]
      exact ⟨hl.frame rfl, hm, hc, htx, hd⟩
    · rw [heq]
      exact ⟨hl.frame rfl, hm, hc, htx, hd⟩
  | started => exact hsame (if_pos (hi rfl))
  | stop => exact ⟨hl.frame rfl, rfl, hc, rfl, rfl⟩
  | call a =>
    simp only [Port.step]
    split
    · exact ⟨hl.call ‹_›, hm, hc, htx, hd⟩
    · exact ⟨hl, hm, hc, htx, hd⟩
  | txLoop => exact hsame (by simp [Port.step, Port.txTurn, htx])
  | watchdog => exact hsame (by simp [Port.step, hd])
  | driver => exact ⟨hl, hm, hc, htx, hd⟩
  | monitor => exact hsame (by simp [Port.step, SpaceWireMonitor.resume, hm])
  | line di => exact hsame (by simp [Port.step, Port.lineBit, SpaceWireMonitor.edge, hm])
  | timeout => exact hsame (by simp [Port.step, SpaceWireMonitor.timeout, hm])

/-- How many calls of `start` have started the driver: those that still wait and those whose
callback has been registered. -/
def starts (p : Port) : Nat := p.monitor.callbacks.length + p.starting

@[simp] theorem resume_callbacks (m : SpaceWireMonitor LineCallback) :
    m.resume.callbacks = m.callbacks := by
  simp only [SpaceWireMonitor.resume]
  split <;> rfl

@[simp] theorem timeout_callbacks (m : SpaceWireMonitor LineCallback) :
    m.timeout.callbacks = m.callbacks := by
  simp only [SpaceWireMonitor.timeout]
  split <;> rfl

@[simp] theorem edge_callbacks (m : SpaceWireMonitor LineCallback) (di : Option Bool) :
    (m.edge di).1.callbacks = m.callbacks := by
  simp only [SpaceWireMonitor.edge]
  split
  · cases di <;> rfl
  · rfl

theorem step_counts (p : Port) {i : PortInput} (hi : i ≠ .start) (hi' : i ≠ .started) :
    (p.step i).starting = p.starting ∧ (p.step i).monitor.callbacks = p.monitor.callbacks := by
  cases i with
  | start => exact absurd rfl hi
  | started => exact absurd rfl hi'
  | call | watchdog =>
    simp only [Port.step]
    split <;> exact ⟨rfl, rfl⟩
  | stop | driver => exact ⟨rfl, rfl⟩
  | txLoop =>
    obtain ⟨endpoint, driver, txWait, heq, -⟩ := p.txTurn_cases
    rw [show p.step .txLoop = _ from heq]
    exact ⟨rfl, rfl⟩
  | monitor | line | timeout => simp [Port.step, Port.lineBit]

theorem starts_step (p : Port) {i : PortInput} (hi : i ≠ .start) :
    starts (p.step i) = starts p := by
  by_cases hi' : i = .started
  · subst hi'
    obtain ⟨-, heq⟩ | ⟨hz, -, heq⟩ | ⟨hz, -, heq⟩ := p.step_started_cases <;> rw [heq] <;>
      simp [starts, SpaceWireMonitor.onBit] <;> omega
  · obtain ⟨hs, hc⟩ := step_counts p hi hi'
    rw [starts, hs, hc, starts]

theorem step_started_starting (p : Port) : (p.step .started).starting = p.starting - 1 := by
  obtain ⟨hz, heq⟩ | ⟨-, -, heq⟩ | ⟨-, -, heq⟩ := p.step_started_cases <;> rw [heq]
  rw [hz]

theorem starts_le_step (p : Port) (i : PortInput) : starts p ≤ starts (p.step i) := by
  by_cases hi : i = .start
  · subst hi
    obtain ⟨-, heq⟩ | ⟨-, -, heq⟩ | ⟨-, -, heq⟩ := p.step_start_cases <;> rw [heq]
    · exact Nat.le_refl _
    · exact Nat.le_succ (starts p)
  · exact (starts_step p hi).ge

theorem starts_le_run (p : Port) (is : List PortInput) :
    starts p ≤ starts (run Port.step p is) :=
  run_keeps (I := fun q => starts p ≤ starts q) (Nat.le_refl _)
    fun q i _ h => h.trans (starts_le_step q i)

structure Idle (p : Port) : Prop where
  pristine : Pristine p
  started : p.link.started = false
  driverTask : p.driver.task = none
  starting : p.starting = 0

theorem Idle.step (h : Idle p) {i : PortInput} (hi : i ≠ .start) : Idle (p.step i) := by
  obtain ⟨hp, hs, ht, hz⟩ := h
  have hcount : starts (p.step i) = 0 := by
    rw [starts_step p hi, starts, hp.callbacks, hz]
    rfl
  refine ⟨hp.step fun _ => hz, ?_, Port.step_driver_stopped hi ht,
    (Nat.add_eq_zero_iff.mp hcount).2⟩
  by_cases hstop : i = .stop
  · rw [hstop]
    rfl
  · rw [p.step_link_started hi hstop]
    exact hs

theorem idle_new {cfg : LinkConfig} (hnew : Port.new cfg = .ok p) : Idle p := by
  obtain ⟨l, hl, rfl⟩ := Port.new_ok hnew
  obtain ⟨hcredit, -, hfsm, -, -, -, -, hq, -⟩ := Accounting.new_ok hl
  obtain ⟨-, htimers, -, hout, hstarted⟩ := Accounting.new_idle hl
  refine ⟨⟨⟨?_, htimers, ?_, ?_⟩, rfl, rfl, rfl, rfl⟩, hstarted, rfl, rfl⟩
  · rw [Port.link, hfsm]
  · rw [Port.link, hcredit]
    exact ⟨rfl, rfl⟩
  · rw [Port.link, hout, hq]
    rfl

theorem starts_pos (h : Idle p) {is : List PortInput} (hmem : .start ∈ is) :
    1 ≤ starts (run Port.step p is) := by
  induction is generalizing p with
  | nil => cases hmem
  | cons i is ih =>
    by_cases hi : i = .start
    · subst hi
      refine le_trans ?_ (starts_le_run (p.step .start) is)
      rw [Port.start_of_stopped h.started h.driverTask]
      exact Nat.le_add_left _ _
    · have hrest : .start ∈ is := (List.mem_cons.mp hmem).resolve_left fun he => hi he.symm
      exact ih (h.step hi) hrest

/-- A restart that is the first start, up to the end of its wait. -/
structure First (p : Port) : Prop where
  started : p.link.started = true
  starts : starts p = 1
  pristine : p.starting = 1 → Pristine p

theorem First.step (h : First p) {i : PortInput} (hi : i ≠ .stop) : First (p.step i) := by
  obtain ⟨hs, hone, hp⟩ := h
  by_cases hstart : i = .start
  · subst hstart
    obtain ⟨-, heq⟩ | ⟨h, -⟩ | ⟨h, -⟩ := p.step_start_cases
    · rw [heq]
      exact ⟨hs, hone, hp⟩
    · rw [hs] at h
      cases h
    · rw [hs] at h
      cases h
  · have hone' := (starts_step p hstart).trans hone
    by_cases hstarted : i = .started
    · subst hstarted
      obtain ⟨-, heq⟩ | ⟨hz, -, heq⟩ | ⟨hz, -, heq⟩ := p.step_started_cases <;>
        rw [heq] at hone' ⊢
      · exact ⟨hs, hone, hp⟩
      · refine ⟨hs, hone', fun h1 => ?_⟩
        dsimp only at h1
        simp only [Restart.starts, SpaceWireMonitor.onBit, List.length_append] at hone' h1
        simp at hone'
        omega
      · refine ⟨p.link.arm_started.trans hs, hone', fun h1 => ?_⟩
        simp [Restart.starts, SpaceWireMonitor.onBit] at hone' h1
        omega
    · refine ⟨?_, hone', fun h1 => ?_⟩
      · rw [p.step_link_started hstart hi]
        exact hs
      · rw [(step_counts p hstart hstarted).1] at h1
        exact (hp h1).step fun he => absurd he hstarted

theorem First.restart (h : Idle p) : First ((p.step .stop).step .start) := by
  have hstop := h.step (i := .stop) (by simp)
  have hpristine := hstop.pristine.step (i := .start) (by simp)
  rw [Port.start_of_stopped hstop.started hstop.driverTask] at hpristine ⊢
  refine ⟨rfl, ?_, fun _ => hpristine⟩
  simp [Restart.starts, Port.setLink, hstop.pristine.callbacks, hstop.starting]

theorem feedIf_errorReset (h : l.fsm.state = .errorReset) (b : Bool) {e : Event}
    (he : e ≠ .tick6p4us) : ∃ f : LinkFSM, f.state = .errorReset ∧
      (if b then l.feedFsm e else l) = { l with fsm := f } := by
  cases b with
  | false => exact ⟨l.fsm, h, rfl⟩
  | true =>
    refine ⟨l.fsm.updateFlags e, ?_, ?_⟩
    · rw [LinkFSM.updateFlags_state, h]
    · exact (feedFsm_errorReset l e h).trans (if_neg fun hc => he hc.1)

theorem arm_errorReset (h : l.fsm.state = .errorReset) :
    ∃ f : LinkFSM, f.state = .errorReset ∧
      l.arm = { l.startTimer tick6p4Ns .tick6p4us with fsm := f } := by
  obtain ⟨f, hf, hauto⟩ := feedIf_errorReset (l := l.startTimer tick6p4Ns .tick6p4us) h
    l.pendingAutoStart (e := .autoStart) (by simp)
  obtain ⟨g, hg, hlink⟩ := feedIf_errorReset
    (l := { l.startTimer tick6p4Ns .tick6p4us with fsm := f }) hf l.pendingLinkStart
    (e := .linkStart) (by simp)
  refine ⟨g, hg, ?_⟩
  unfold arm
  dsimp only
  rw [show (l.startTimer tick6p4Ns .tick6p4us).pendingAutoStart = l.pendingAutoStart from rfl,
    hauto]
  exact hlink

theorem Pristine.fresh (h : Pristine p) (hz : p.starting = 1) : Fresh (p.step .started) := by
  obtain ⟨hz', -⟩ | ⟨-, hm, -⟩ | ⟨-, -, heq⟩ := p.step_started_cases
  · rw [hz] at hz'
    cases hz'
  · rw [h.monitorTask] at hm
    cases hm
  · rw [heq]
    obtain ⟨f, hf, harm⟩ := arm_errorReset h.link.state
    rw [harm]
    refine ⟨hf, ⟨_, List.mem_append_right _ (List.mem_singleton.mpr rfl), rfl, rfl, rfl, rfl⟩, ?_,
      h.link.credit, h.link.outstanding⟩
    intro bit
    simp [Port.step, SpaceWireMonitor.resume, SpaceWireMonitor.onBit, SpaceWireMonitor.edge,
      h.callbacks]

theorem Fresh.callbacks (h : Fresh p) : p.monitor.callbacks.length = 1 := by
  have hlen := congrArg List.length (h.fedOnce false)
  simp only [Port.step, SpaceWireMonitor.edge] at hlen
  by_cases ht : p.monitor.resume.task = some .receiving
  · simpa [ht] using hlen
  · simp [ht] at hlen

/-- A restart is a fresh start only when it is the first start: `start` registers the parser
once more, and `stop` has neither removed it nor reset anything. The `start` that follows the
`stop` is over when no other one waits any more. -/
theorem restart_fresh_iff {cfg : LinkConfig} (hnew : Port.new cfg = .ok p)
    (is js : List PortInput) (hjs : .stop ∉ js)
    (hlast : (run Port.step p (is ++ .stop :: .start :: js)).starting = 1) :
    Fresh (run Port.step p (is ++ .stop :: .start :: js ++ [.started])) ↔ .start ∉ is := by
  have hidle := idle_new hnew
  have hlater (q : Port) : run Port.step (q.step .stop) (.start :: js) =
      run Port.step ((q.step .stop).step .start) js := rfl
  rw [run_concat]
  rw [run_append, run_cons, hlater] at hlast ⊢
  constructor
  · -- two starts register the parser twice
    intro hfresh hmem
    have hpos := starts_pos hidle hmem
    generalize run Port.step p is = q at hlast hfresh hpos
    have htwo : 2 ≤ starts ((q.step .stop).step .start) := by
      rw [Port.start_of_stopped rfl rfl]
      exact Nat.succ_le_succ hpos
    have hrun := htwo.trans (starts_le_run _ js)
    have hcallbacks := hfresh.callbacks
    have hdone := starts_step (run Port.step ((q.step .stop).step .start) js)
      (i := .started) (by simp)
    have hlast' := step_started_starting (run Port.step ((q.step .stop).step .start) js)
    rw [hlast] at hlast'
    rw [starts, hlast', hcallbacks] at hdone
    omega
  · intro hno
    have hq : Idle (run Port.step p is) :=
      run_keeps hidle fun _ i hi h => h.step fun he => hno (he ▸ hi)
    generalize run Port.step p is = q at hlast hq
    have hfirst : First (run Port.step ((q.step .stop).step .start) js) :=
      run_keeps (First.restart hq) fun _ i hi h => h.step fun he => hjs (he ▸ hi)
    exact (hfirst.pristine hlast).fresh hlast

theorem restart_fresh_iff_twice : ∃ p, Port.new {} = .ok p ∧
    Fresh (run Port.step p [.stop, .start, .started]) ∧
      ¬ Fresh (run Port.step p [.start, .started, .stop, .start, .started]) :=
  ⟨_, rfl, (@restart_fresh_iff _ {} rfl [] [] (by simp) rfl).mpr (by simp), fun h =>
    absurd ((@restart_fresh_iff _ {} rfl [.start, .started] [] (by simp) rfl).mp h) (by simp)⟩

/-- A link that is restarted in ErrorWait stays there, and feeds every bit twice. -/
theorem restart_goes_on : ∃ p, Port.new {} = .ok p ∧
    let q := run Port.step p [.start, .started, .call (.expire ⟨tick6p4Ns, .tick6p4us, 1⟩),
      .stop, .start, .started]
    q.link.fsm.state = .errorWait ∧ q.monitor.callbacks = [.feedBit, .feedBit] ∧ ¬ Fresh q := by
  refine ⟨_, rfl, ?_, ?_, fun h => ?_⟩
  · decide
  · decide
  · have hstate := h.state
    revert hstate
    decide

end SpaceWire.Restart
