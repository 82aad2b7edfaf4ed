import SpaceWire.Port

namespace SpaceWire

open SpaceWireLink Run

def State.name : State → String
  | .errorReset => "ERROR_RESET"
  | .errorWait => "ERROR_WAIT"
  | .ready => "READY"
  | .started => "STARTED"
  | .connecting => "CONNECTING"
  | .run => "RUN"

inductive ConnectError
  | start (err : Exn)
  | valueError
  | timeoutError (message : String)
  deriving DecidableEq

/-- Where a call of `connect` stands: in the wait of its own `start`, waiting for Run, or over. -/
inductive ConnectCall
  | starting
  | waiting
  | returned
  | failed (err : ConnectError)
  deriving DecidableEq

structure Connecting where
  port : Port
  call : ConnectCall
  timeoutUs : Int

inductive ConnectInput
  | port (input : PortInput)
  | started
  | timeout

/-- `connect` once the link has been started: `with_timeout` wants a positive time, and the wait
for an event that is set returns. -/
def Port.awaitRun (p : Port) (timeoutUs : Int) : Connecting :=
  if p.link.fsm.state = .run then ⟨p, .returned, timeoutUs⟩
  else if timeoutUs ≤ 0 then ⟨p, .failed .valueError, timeoutUs⟩
  else if p.link.runReached then ⟨p, .returned, timeoutUs⟩
  else ⟨p, .waiting, timeoutUs⟩

def Port.connect (p : Port) (timeoutUs : Int := 100) : Connecting :=
  if p.link.started then p.awaitRun timeoutUs
  else
    match p.start with
    | (port, .error err) => ⟨port, .failed (.start err), timeoutUs⟩
    | (port, .ok _) => ⟨port, .starting, timeoutUs⟩

namespace Connecting

def step (c : Connecting) : ConnectInput → Connecting
  | .port input =>
    let port := c.port.step input
    { c with port, call :=
        if c.call = .waiting ∧ port.link.runReached then .returned else c.call }
  | .started =>
    if c.call = .starting then
      match c.port.started with
      | (port, .error err) => { c with port, call := .failed (.start err) }
      | (port, .ok _) => port.awaitRun c.timeoutUs
    else c
  | .timeout =>
    if c.call = .waiting then
      { c with call := .failed (.timeoutError ("SpaceWire link did not reach Run within " ++
        toString c.timeoutUs ++ " us (state=" ++ c.port.link.fsm.state.name ++ ")")) }
    else c

def calls (c : Connecting) : ConnectInput → List Call
  | .port input => c.port.calls input
  | .started =>
    if c.call = .starting ∧ c.port.monitor.task = none then c.port.link.armCalls else []
  | .timeout => []

def history (c : Connecting) : List ConnectInput → List Call
  | [] => []
  | i :: is => c.calls i ++ (c.step i).history is

end Connecting

namespace Connect

variable {p : Port} {l l' : SpaceWireLink} {hs : List Call}

/-- The FSM was in Run at a moment since the link was `l`, given the calls since then. -/
def InRun (l : SpaceWireLink) (hs : List Call) : Prop :=
  l.fsm.state = .run ∨ ∃ c ∈ hs, .run ∈ c.entered

@[simp] theorem inRun_nil : InRun l [] ↔ l.fsm.state = .run := by
  simp [InRun]

theorem InRun.append (h : InRun l hs) (cs : List Call) : InRun l (hs ++ cs) :=
  h.imp id fun ⟨c, hc, hrun⟩ => ⟨c, List.mem_append_left cs hc, hrun⟩

/-- Run, and the event of having reached it, are owed to a moment in Run or to the link as it
was. -/
structure Owed (l : SpaceWireLink) (hs : List Call) (l' : SpaceWireLink) : Prop where
  state : l'.fsm.state = .run → InRun l hs
  reached : l'.runReached = true → l.runReached = true ∨ InRun l hs

theorem Owed.still {m : SpaceWireLink} (h : Owed l hs l') (hq : Port.Still l' m) :
    Owed l hs m := by
  refine ⟨fun hs => h.state ?_, fun hr => h.reached ?_⟩
  · rwa [← hq.fsm]
  · rwa [← hq.runReached]

theorem mem_entered {f : LinkFSM} {e : Event} {s : State} (hs : (f.feed e).state = s)
    (hne : f.state ≠ s) : s ∈ (f.entered e).map Prod.fst := by
  have hfed := f.fed e
  generalize f.feed e = f', f.entered e = ss at hfed hs
  cases hfed with
  | stay hstay =>
    rw [LinkFSM.updateFlags_state] at hs
    exact absurd hs hne
  | enter hedge hr =>
    rw [LinkFSM.enter_state] at hs
    simp [hs]
  | chain hedge hen =>
    rw [LinkFSM.enter_state] at hs
    simp [hs]

theorem Owed.call (h : Owed l hs l') (e : Event) :
    Owed l (hs ++ [⟨l', e⟩]) (l'.feedFsm e) := by
  have hstate : (l'.fsm.feed e).state = .run → InRun l (hs ++ [⟨l', e⟩]) := by
    intro hrun
    by_cases hold : l'.fsm.state = .run
    · exact (h.state hold).append _
    · exact .inr ⟨⟨l', e⟩, by simp, mem_entered hrun hold⟩
  refine ⟨?_, fun hr => ?_⟩
  · rw [feedFsm_fsm]
    exact hstate
  · rw [feedFsm_runReached, Bool.or_eq_true, Bool.and_eq_true] at hr
    obtain hr | ⟨hrun, -⟩ := hr
    · exact (h.reached hr).imp id fun h => h.append _
    · exact .inr (hstate (by simpa using hrun))

theorem Owed.step (h : Owed l hs p.link) (i : PortInput) :
    Owed l (hs ++ p.calls i) (p.step i).link :=
  Port.step_invariant (I := fun hs l' => Owed l hs l') .still (fun e h => h.call e) h i

theorem Owed.arm (h : Owed l hs l') : Owed l (hs ++ l'.armCalls) l'.arm :=
  l'.arm_chain.invariant (I := fun hs l' => Owed l hs l')
    (fun h hq => h.still ⟨hq.fsm, hq.runReached, hq.bitRate⟩) (fun e h => h.call e)
    (h.still ⟨rfl, rfl, rfl⟩)

/-- A call that has returned is owed a moment in Run, too, when Run had not been reached or there
is no time to wait. -/
structure Truthful (l : SpaceWireLink) (hs : List Call) (c : Connecting) : Prop where
  owed : Owed l hs c.port.link
  waiting : c.call = .waiting → 0 < c.timeoutUs
  returned : c.call = .returned → l.runReached = true ∧ 0 < c.timeoutUs ∨ InRun l hs

theorem Owed.awaitRun (h : Owed l hs p.link) (timeoutUs : Int) :
    Truthful l hs (p.awaitRun timeoutUs) := by
  unfold Port.awaitRun
  split
  · exact ⟨h, fun hc => (by cases hc), fun _ => .inr (h.state ‹_›)⟩
  · split
    · exact ⟨h, fun hc => (by cases hc), fun hc => (by cases hc)⟩
    · rename_i htime
      have hpos : 0 < timeoutUs := by omega
      split
      · exact ⟨h, fun hc => (by cases hc), fun _ => (h.reached ‹_›).imp (fun hr => ⟨hr, hpos⟩) id⟩
      · exact ⟨h, fun _ => hpos, fun hc => (by cases hc)⟩

theorem Truthful.step {c : Connecting} (h : Truthful l hs c) (i : ConnectInput) :
    Truthful l (hs ++ c.calls i) (c.step i) := by
  obtain ⟨howed, hwait, hret⟩ := h
  have hret' (cs : List Call) (hc : c.call = .returned) :
      l.runReached = true ∧ 0 < c.timeoutUs ∨ InRun l (hs ++ cs) :=
    (hret hc).imp id fun h => h.append cs
  cases i with
  | port i =>
    have howed' := howed.step i
    refine ⟨howed', fun hc => ?_, fun hc => ?_⟩
    · simp only [Connecting.step] at hc
      split at hc
      · cases hc
      · exact hwait hc
    · simp only [Connecting.step] at hc
      split at hc
      · rename_i hreached
        exact (howed'.reached hreached.2).imp (fun hr => ⟨hr, hwait hreached.1⟩) id
      · exact hret' _ hc
  | started =>
    by_cases hcall : c.call = .starting
    · obtain ⟨hm, heq⟩ | ⟨hm, heq⟩ := c.port.started_cases
      · have hno : ¬ (c.call = .starting ∧ c.port.monitor.task = none) := by
          rintro ⟨-, hnone⟩
          rw [hnone] at hm
          cases hm
        simp only [Connecting.step, Connecting.calls, if_pos hcall, heq, if_neg hno,
          List.append_nil]
        exact ⟨howed, fun hc => (by cases hc), fun hc => (by cases hc)⟩
      · simp only [Connecting.step, Connecting.calls, hcall, heq, hm, and_self, if_true]
        refine Owed.awaitRun ?_ c.timeoutUs
        exact howed.arm
    · have hno : ¬ (c.call = .starting ∧ c.port.monitor.task = none) := fun h => hcall h.1
      simp only [Connecting.step, Connecting.calls, if_neg hcall, if_neg hno, List.append_nil]
      exact ⟨howed, hwait, hret⟩
  | timeout =>
    simp only [Connecting.step, Connecting.calls, List.append_nil]
    split
    · exact ⟨howed, fun hc => (by cases hc), fun hc => (by cases hc)⟩
    · exact ⟨howed, hwait, hret⟩

theorem step_timeoutUs (c : Connecting) (i : ConnectInput) :
    (c.step i).timeoutUs = c.timeoutUs := by
  cases i with
  | port i => rfl
  | started =>
    simp only [Connecting.step]
    split
    · split
      · rfl
      · unfold Port.awaitRun
        repeat' split
        all_goals rfl
    · rfl
  | timeout =>
    simp only [Connecting.step]
    split <;> rfl

theorem connect_timeoutUs (p : Port) (timeoutUs : Int) :
    (p.connect timeoutUs).timeoutUs = timeoutUs := by
  unfold Port.connect Port.awaitRun
  repeat' split
  all_goals rfl

theorem run_timeoutUs (c : Connecting) (is : List ConnectInput) :
    (run Connecting.step c is).timeoutUs = c.timeoutUs :=
  run_keeps (I := fun d => d.timeoutUs = c.timeoutUs) rfl fun d i _ h =>
    (step_timeoutUs d i).trans h

theorem Truthful.run {c : Connecting} (h : Truthful l hs c) (is : List ConnectInput) :
    Truthful l (hs ++ c.history is) (run Connecting.step c is) := by
  induction is generalizing c hs with
  | nil => simpa [Connecting.history] using h
  | cons i is ih =>
    have hrest := ih (h.step i)
    rwa [List.append_assoc] at hrest

theorem truthful_connect (p : Port) (timeoutUs : Int) :
    Truthful p.link [] (p.connect timeoutUs) := by
  have howed : Owed p.link [] p.link := ⟨.inl, .inl⟩
  unfold Port.connect
  split
  · exact howed.awaitRun timeoutUs
  · obtain ⟨-, heq⟩ | ⟨-, -, heq⟩ | ⟨-, -, heq⟩ := p.start_cases <;> rw [heq]
    · exact ⟨howed, fun hc => (by cases hc), fun hc => (by cases hc)⟩
    · exact ⟨howed.still ⟨rfl, rfl, rfl⟩, fun hc => (by cases hc), fun hc => (by cases hc)⟩
    · exact ⟨howed.still ⟨rfl, rfl, rfl⟩, fun hc => (by cases hc), fun hc => (by cases hc)⟩

theorem run_not_entered {f : LinkFSM} {e : Event} (he : e = .autoStart ∨ e = .linkStart)
    (hopen : f.state = .connecting →
      ¬ (f.sentFctInConnecting = true ∧ f.gotFctInConnecting = true)) :
    .run ∉ (f.entered e).map Prod.fst := by
  have hfed := f.fed e
  generalize f.feed e = f', f.entered e = ss at hfed
  cases hfed with
  | stay hstay => simp
  | chain hedge hen => simp
  | enter hedge hr =>
    cases hedge with
    | run hs hsent hgot =>
      rw [LinkFSM.updateFlags_state] at hs
      rw [LinkFSM.updateFlags_sentFctInConnecting] at hsent
      rw [LinkFSM.updateFlags_gotFctInConnecting] at hgot
      obtain rfl | rfl := he <;> simp_all
    | wait | ready | start | connect | drop => simp

/-- A machine that stays in Connecting misses one of the two FCTs. -/
theorem feed_open (f : LinkFSM) (e : Event) (hs : (f.feed e).state = .connecting) :
    ¬ ((f.feed e).sentFctInConnecting = true ∧ (f.feed e).gotFctInConnecting = true) := by
  have hfed := f.fed e
  generalize f.feed e = f', f.entered e = ss at hfed hs
  cases hfed with
  | stay hstay =>
    rintro ⟨hsent, hgot⟩
    have hold := hs
    rw [LinkFSM.updateFlags_state] at hold
    simp only [LinkFSM.handler, LinkFSM.updateFlags_state, hold, LinkFSM.inConnecting, hsent,
      hgot, Bool.and_self, if_true] at hstay
    repeat' split at hstay
    all_goals simp at hstay
  | chain hedge hen => simp at hs
  | enter hedge hr =>
    rw [LinkFSM.enter_state] at hs
    simp [hs, LinkFSM.enter]

/-- Connecting is open while one of its two FCTs is missing. -/
def Open (f : LinkFSM) : Prop :=
  f.state = .connecting → ¬ (f.sentFctInConnecting = true ∧ f.gotFctInConnecting = true)

theorem run_not_mem_armCalls (h : Open l.fsm) : ∀ c ∈ l.armCalls, .run ∉ c.entered := by
  intro c hc
  simp only [armCalls, List.mem_append, List.mem_ite_nil_right, List.mem_singleton] at hc
  obtain ⟨-, rfl⟩ | ⟨-, rfl⟩ := hc
  · exact run_not_entered (.inl rfl) h
  · apply run_not_entered (.inr rfl)
    dsimp only
    split
    · rw [feedFsm_fsm]
      exact feed_open _ .autoStart
    · exact h

theorem arm_runReached (h : l.runReached = true) : l.arm.runReached = true := by
  refine @History.Chain.invariant _ _ _ (fun _ l => l.runReached = true)
    (fun h hq => hq.runReached.trans h) (fun e h => ?_) [] l.arm_chain h
  rw [feedFsm_runReached, h, Bool.true_or]

/-- What the runs of a port keep: a stopped link has a stopped driver, and Connecting is open. -/
structure Kept (p : Port) : Prop where
  driver : p.link.started = false → p.driver.task = none
  isOpen : Open p.link.fsm

theorem Kept.step (h : Kept p) (i : PortInput) : Kept (p.step i) := by
  refine ⟨?_, ?_⟩
  · intro hs
    by_cases hi : i = .start
    · subst hi
      obtain ⟨hs', heq⟩ | ⟨-, -, heq⟩ | ⟨-, -, heq⟩ := p.step_start_cases <;> rw [heq] at hs
      · rw [hs'] at hs
        cases hs
      · cases hs
      · cases hs
    · by_cases hstop : i = .stop
      · subst hstop
        rfl
      · refine Port.step_driver_stopped hi (h.driver ?_)
        rw [← p.step_link_started hi hstop, hs]
  · refine @Port.step_invariant p (fun _ l => Open l.fsm) (fun h hq => ?_) (fun {hs l} e _ => ?_)
      [] h.isOpen i
    · rwa [hq.fsm]
    · rw [feedFsm_fsm]
      exact feed_open l.fsm e

theorem kept_new {cfg : LinkConfig} (hnew : Port.new cfg = .ok p) : Kept p := by
  obtain ⟨l, hl, rfl⟩ := Port.new_ok hnew
  obtain ⟨-, -, hfsm, -⟩ := Accounting.new_ok hl
  exact ⟨fun _ => rfl, by simp [Open, Port.link, hfsm]⟩

theorem awaitRun_returned (h : p.link.runReached = true) {timeoutUs : Int}
    (htime : 0 < timeoutUs) : (p.awaitRun timeoutUs).call = .returned := by
  unfold Port.awaitRun
  rw [if_neg (by omega : ¬ timeoutUs ≤ 0), if_pos h]
  split <;> rfl

/-- A call that finds the event set, outside Run, returns without a moment in Run: at once when
the link has been started, and otherwise after a `stop` has made its own `start` possible. -/
theorem returns_outside_run (h : Kept p) (hs : p.link.fsm.state ≠ .run)
    (hr : p.link.runReached = true) {timeoutUs : Int} (htime : 0 < timeoutUs) :
    ∃ is, (run Connecting.step (p.connect timeoutUs) is).call = .returned ∧
      ¬ InRun p.link ((p.connect timeoutUs).history is) := by
  cases hstarted : p.link.started with
  | true =>
    refine ⟨[], ?_, ?_⟩
    · rw [run_nil, Port.connect, if_pos hstarted]
      exact awaitRun_returned hr htime
    · simp [InRun, Connecting.history, hs]
  | false =>
    obtain ⟨q, hconnect, hq⟩ : ∃ q, p.connect timeoutUs = ⟨q, .starting, timeoutUs⟩ ∧
        Port.Still p.link q.link := by
      obtain ⟨hs', -⟩ | ⟨-, ht, -⟩ | ⟨-, -, heq⟩ := p.start_cases
      · rw [hstarted] at hs'
        cases hs'
      · rw [h.driver hstarted] at ht
        cases ht
      · simp only [Port.connect, hstarted, heq]
        exact ⟨_, rfl, rfl, rfl, rfl⟩
    rw [hconnect]
    obtain ⟨hm, -⟩ | ⟨-, heq⟩ := q.stop.started_cases
    · cases hm
    · have hreached : q.stop.link.arm.runReached = true :=
        arm_runReached (hq.runReached.trans hr)
      have hstop : Connecting.step ⟨q, .starting, timeoutUs⟩ (.port .stop) =
          ⟨q.stop, .starting, timeoutUs⟩ := by simp [Connecting.step, Port.step]
      refine ⟨[.port .stop, .started], ?_, ?_⟩
      · rw [run_cons, run_cons, run_nil, hstop]
        simp only [Connecting.step, heq, if_true]
        refine awaitRun_returned ?_ htime
        exact hreached
      · have hcalls : Connecting.history ⟨q, .starting, timeoutUs⟩ [.port .stop, .started] =
            q.stop.link.armCalls := by
          simp only [Connecting.history, hstop, Connecting.calls, List.append_nil]
          rfl
        rw [hcalls]
        rintro (hrun | ⟨c, hc, hrun⟩)
        · exact hs hrun
        · refine run_not_mem_armCalls (l := q.stop.link) ?_ c hc hrun
          rw [show q.stop.link.fsm = p.link.fsm from hq.fsm]
          exact h.isOpen

/-- `connect` tells the truth exactly when it is called in Run, or before Run has ever been
reached, or without any time to wait: the event that it waits for is never cleared. -/
theorem connect_truthful_iff {cfg : LinkConfig} (hnew : Port.new cfg = .ok p)
    (is : List PortInput) (timeoutUs : Int) :
    let q := run Port.step p is
    (∀ js, (run Connecting.step (q.connect timeoutUs) js).call = .returned →
        InRun q.link ((q.connect timeoutUs).history js)) ↔
      q.link.fsm.state = .run ∨ q.link.runReached = false ∨ timeoutUs ≤ 0 := by
  have hkept : Kept (run Port.step p is) := run_keeps (kept_new hnew) fun _ i _ h => h.step i
  dsimp only
  generalize run Port.step p is = q at hkept
  constructor
  · intro htrue
    by_contra hno
    obtain ⟨hs, hno⟩ := not_or.mp hno
    obtain ⟨hr, htime⟩ := not_or.mp hno
    obtain ⟨js, hret, hout⟩ :=
      returns_outside_run hkept hs (by simpa using hr) (Int.not_le.mp htime)
    exact hout (htrue js hret)
  · intro hwhen js hret
    have htruthful := ((truthful_connect q timeoutUs).run js).returned hret
    rw [run_timeoutUs, connect_timeoutUs] at htruthful
    obtain hs | hr | htime := hwhen
    · exact .inl hs
    · refine htruthful.resolve_left fun hreached => ?_
      rw [hr] at hreached
      cases hreached.1
    · exact htruthful.resolve_left fun hreached => Int.not_le.mpr hreached.2 htime

theorem connect_truthful_iff_new : ∃ p, Port.new { linkStart := true } = .ok p ∧
    ∀ js, (run Connecting.step p.connect js).call = .returned →
      InRun p.link (p.connect.history js) :=
  ⟨_, rfl, (@connect_truthful_iff _ { linkStart := true } rfl [] 100).mpr (.inr (.inl rfl))⟩

/-- After a handshake and a disconnect `connect` returns at once, in ErrorReset. -/
theorem connect_returns_in_errorReset : ∃ p, Port.new { linkStart := true } = .ok p ∧
    let q := run Port.step p (Port.handshake ++ [.call (.feed .linkDisable)])
    q.link.fsm.state = .errorReset ∧ (run Connecting.step q.connect []).call = .returned ∧
      ¬ InRun q.link (q.connect.history []) :=
  ⟨_, rfl, by decide +kernel, by decide +kernel,
    fun h => absurd (inRun_nil.mp h) (by decide +kernel)⟩

end Connect

end SpaceWire
