import SpaceWire.History

namespace SpaceWire

/-- The tick a state waits for. -/
def State.awaits : State → Option Event
  | .errorReset => some .tick6p4us
  | .errorWait | .started | .connecting => some .tick12p8us
  | .ready | .run => none

def Event.isTick : Event → Bool
  | .tick6p4us | .tick12p8us => true
  | _ => false

namespace Timers

open SpaceWireLink Accounting History Run

variable {l l' : SpaceWireLink} {hs : List Call} {e : Event}

/-- What a call does to the timers: all is kept while the state is, and a new state stops
the timer of the old one and has one of its own if it waits for a tick. -/
inductive Rearmed (l l' : SpaceWireLink) : Prop
  | kept (hs : l'.fsm.state = l.fsm.state) (hgen : l'.timerGen = l.timerGen)
      (htask : l'.timerTask = l.timerTask) (ht : l'.scheduledTimers = l.scheduledTimers)
  | stopped (hs : l'.fsm.state ≠ l.fsm.state) (ha : l'.fsm.state.awaits = none)
      (hgen : l.timerGen < l'.timerGen) (htask : l'.timerTask = none)
      (ht : l'.scheduledTimers = l.scheduledTimers)
  | armed {task : TimerTask} (hs : l'.fsm.state ≠ l.fsm.state)
      (ha : l'.fsm.state.awaits = some task.event) (hgen : l.timerGen < l'.timerGen)
      (hown : task.gen = l'.timerGen) (htask : l'.timerTask = some task)
      (ht : l'.scheduledTimers = l.scheduledTimers ++ [task])

theorem rearmed (l : SpaceWireLink) (e : Event) : Rearmed l (l.feedFsm e) := by
  by_cases hs : (l.fsm.feed e).output.state = l.fsm.state
  · have heq : l.feedFsm e = { l with fsm := l.fsm.feed e } := by simp [feedFsm, hs]
    rw [heq]
    exact .kept hs rfl rfl rfl
  · have heq : l.feedFsm e =
        { l with fsm := l.fsm.feed e }.onStateChange (l.fsm.feed e).output := by
      simp [feedFsm, hs]
    have hstate : (l.feedFsm e).fsm.state = (l.fsm.feed e).output.state := by
      rw [feedFsm_fsm]
      rfl
    have hne : (l.feedFsm e).fsm.state ≠ l.fsm.state := by rwa [hstate]
    rw [heq] at hne hstate ⊢
    generalize (l.fsm.feed e).output = out at hne hstate ⊢
    cases hout : out.state with
    | errorReset =>
      rw [hout] at hstate
      refine @Rearmed.armed _ _ ⟨tick6p4Ns, .tick6p4us, l.timerGen + 2⟩ hne (by rw [hstate]; rfl)
        (lt_of_lt_of_eq (by omega : l.timerGen < l.timerGen + 2) ?_) ?_ ?_ ?_ <;>
        simp [onStateChange, hout, startTimer, cancelTimer, enterErrorReset]
    | errorWait | started | connecting =>
      rw [hout] at hstate
      refine @Rearmed.armed _ _ ⟨tick12p8Ns, .tick12p8us, l.timerGen + 2⟩ hne (by rw [hstate]; rfl)
        (lt_of_lt_of_eq (by omega : l.timerGen < l.timerGen + 2) ?_) ?_ ?_ ?_ <;>
        simp [onStateChange, hout, startTimer, cancelTimer]
    | ready | run =>
      rw [hout] at hstate
      refine .stopped hne (by rw [hstate]; rfl) ?_ ?_ ?_ <;>
        simp [onStateChange, hout, cancelTimer]

/-- The timer of the present visit is the only one that can still feed its event. -/
structure TimersInv (l : SpaceWireLink) : Prop where
  le : ∀ t ∈ l.scheduledTimers, t.gen ≤ l.timerGen
  own : ∀ t ∈ l.scheduledTimers, t.gen = l.timerGen → l.timerTask = some t
  current : ∀ t, l.timerTask = some t → t.gen = l.timerGen ∧ l.fsm.state.awaits = some t.event

theorem TimersInv.quiet (h : TimersInv l) (hq : Quiet l l') : TimersInv l' := by
  obtain ⟨hfsm, hgen, htask, htimers, -⟩ := hq
  obtain ⟨h1, h2, h3⟩ := h
  rw [← hgen, ← htimers] at h1
  rw [← hgen, ← htimers, ← htask] at h2
  rw [← hgen, ← htask, ← hfsm] at h3
  exact ⟨h1, h2, h3⟩

theorem TimersInv.expire (h : TimersInv l) (task : TimerTask) :
    TimersInv { l with scheduledTimers := l.scheduledTimers.erase task } :=
  ⟨fun t ht => h.le t (List.mem_of_mem_erase ht), fun t ht => h.own t (List.mem_of_mem_erase ht),
    h.current⟩

theorem TimersInv.call (h : TimersInv l) (e : Event) : TimersInv (l.feedFsm e) := by
  obtain ⟨hle, hown, hcurrent⟩ := h
  cases rearmed l e with
  | kept hs hgen htask ht =>
    refine ⟨?_, ?_, ?_⟩
    · rwa [ht, hgen]
    · rwa [ht, hgen, htask]
    · rwa [hgen, htask, hs]
  | stopped hs ha hgen htask ht =>
    refine ⟨fun t hm => ?_, fun t hm hg => ?_, fun t htask' => ?_⟩
    · rw [ht] at hm
      exact (hle t hm).trans hgen.le
    · rw [ht] at hm
      have hold := hle t hm
      omega
    · rw [htask] at htask'
      cases htask'
  | @armed task hs ha hgen hnew htask ht =>
    have hcases : ∀ t ∈ (l.feedFsm e).scheduledTimers, t.gen ≤ l.timerGen ∨ t = task := by
      intro t hm
      rw [ht, List.mem_append, List.mem_singleton] at hm
      exact hm.imp_left (hle t)
    refine ⟨fun t hm => ?_, fun t hm hg => ?_, fun t htask' => ?_⟩
    · cases hcases t hm with
      | inl hold => omega
      | inr heq => rw [heq, hnew]
    · cases hcases t hm with
      | inl hold => omega
      | inr heq => rw [heq, htask]
    · rw [htask] at htask'
      cases htask'
      exact ⟨hnew, ha⟩

section ticks

def firstTimer : TimerTask := { durationNs := tick6p4Ns, event := .tick6p4us, gen := 1 }

/-- The timer was armed on entry to the visit that the calls so far have led to: by `start`
if they entered no state, by the last of them that entered one otherwise. -/
def ArmedThisVisit (hs : List Call) (task : TimerTask) : Prop :=
  (∀ c ∈ hs, c.entered = []) ∧ task = firstTimer ∨
    ∃ before c after, hs = before ++ c :: after ∧ c.entered ≠ [] ∧
      task ∉ c.link.scheduledTimers ∧ task ∈ c.after.scheduledTimers ∧ ∀ d ∈ after, d.entered = []

theorem entered_eq_nil_iff {c : Call} :
    c.entered = [] ↔ c.after.fsm.state = c.link.fsm.state := by
  simp [Call.entered, Call.after, LinkFSM.entered_eq_nil_iff]

theorem ArmedThisVisit.stay {task : TimerTask} {c : Call} (h : ArmedThisVisit hs task)
    (hc : c.entered = []) : ArmedThisVisit (hs ++ [c]) task := by
  cases h with
  | inl hfirst =>
    refine .inl ⟨fun d hd => ?_, hfirst.2⟩
    obtain hd | hd := List.mem_append.mp hd
    · exact hfirst.1 d hd
    · rwa [List.mem_singleton.mp hd]
  | inr hlater =>
    obtain ⟨before, b, after, rfl, hb, hnew, harmed, hafter⟩ := hlater
    refine .inr ⟨before, b, after ++ [c], by simp, hb, hnew, harmed, fun d hd => ?_⟩
    obtain hd | hd := List.mem_append.mp hd
    · exact hafter d hd
    · rwa [List.mem_singleton.mp hd]

/-- The current timer is one of the present visit. -/
structure TicksInv (hs : List Call) (l : SpaceWireLink) : Prop where
  timers : TimersInv l
  armed : ∀ t, l.timerTask = some t → ArmedThisVisit hs t

theorem TicksInv.quiet (h : TicksInv hs l) (hq : Quiet l l') : TicksInv hs l' :=
  ⟨h.timers.quiet hq, fun t ht => h.armed t (hq.timerTask.symm.trans ht)⟩

theorem TicksInv.call (h : TicksInv hs l) (e : Event) :
    TicksInv (hs ++ [⟨l, e⟩]) (l.feedFsm e) := by
  refine ⟨h.timers.call e, fun t ht => ?_⟩
  cases rearmed l e with
  | kept hs hgen htask htimers =>
    rw [htask] at ht
    exact (h.armed t ht).stay (entered_eq_nil_iff.mpr hs)
  | stopped hs ha hgen htask htimers =>
    rw [htask] at ht
    cases ht
  | @armed task hs ha hgen hown htask htimers =>
    rw [htask] at ht
    cases ht
    refine .inr ⟨_, _, [], rfl, fun hc => hs (entered_eq_nil_iff.mp hc), fun hm => ?_, ?_, by simp⟩
    · have hold := h.timers.le t hm
      omega
    · simp [Call.after, htimers]

theorem ticksInv_start {cfg : LinkConfig} {p : Endpoint} (h : Endpoint.start cfg = .ok p) :
    TicksInv [] p.link := by
  refine (start_cases (Q := fun l => TicksInv [] l ∧ l.fsm.state = .errorReset) (fun l hl => ?_)
    (fun l e he hl => ?_) h).1.1
  · obtain ⟨-, -, hfsm, -⟩ := new_ok hl
    obtain ⟨-, htimers, hgen, -⟩ := new_idle hl
    refine ⟨⟨⟨?_, ?_, ?_⟩, ?_⟩, ?_⟩ <;>
      simp [startTimer, htimers, hgen, hfsm, State.awaits, ArmedThisVisit, firstTimer]
  · obtain ⟨hinv, hs⟩ := hl
    have hstay : (l.feedFsm e).fsm.state = l.fsm.state := by
      rw [feedFsm_fsm, LinkFSM.feed_errorReset hs, if_neg, LinkFSM.updateFlags_state]
      cases he with
      | inl heq | inr heq => simp [heq]
    refine ⟨⟨hinv.timers.call e, fun t ht => ?_⟩, by rw [hstay, hs]⟩
    cases rearmed l e with
    | kept hs hgen htask htimers =>
      rw [htask] at ht
      exact hinv.armed t ht
    | stopped hs | armed hs => exact absurd hstay hs

theorem external_of_isTick (h : e.isTick = true) : e.external = true := by
  cases e <;> first | rfl | cases h

theorem characterEvent_external {t : CharType} (h : characterEvent t = some e) :
    e.external = false := by
  cases t <;> cases h <;> rfl

theorem rxCalls_cases {c : Character} {d : Call} (h : d ∈ l.rxCalls c) :
    d.event = .rxErr ∨ d.event = .creditErr ∨ characterEvent c.type = some d.event := by
  unfold SpaceWireLink.rxCalls at h
  split at h
  · rw [List.mem_singleton.mp h]
    exact .inl rfl
  · split at h
    · cases h
    · rename_i e he
      cases List.mem_cons.mp h with
      | inl heq =>
        rw [heq]
        exact .inr (.inr he)
      | inr hm =>
        split at hm
        · rw [List.mem_singleton.mp hm]
          exact .inr (.inl rfl)
        · cases hm

theorem rxCalls_external {c : Character} {d : Call} (h : d ∈ l.rxCalls c) :
    d.event.external = false := by
  obtain heq | heq | he := rxCalls_cases h
  · rw [heq]
    rfl
  · rw [heq]
    rfl
  · exact characterEvent_external he

/-- The other events come from the application or from a timer of the present generation. -/
theorem calls_external {p : Endpoint} {i : Input} {c : Call} (hc : c ∈ p.calls i)
    (he : c.event.external = true) : i = .act (.feed c.event) ∨
      ∃ task ∈ p.link.scheduledTimers, task.gen = p.link.timerGen ∧ i = .act (.expire task) ∧
        c = ⟨p.calling i, task.event⟩ := by
  cases i with
  | bit bit =>
    obtain ⟨d, -, hd⟩ := List.mem_flatMap.mp hc
    simp [rxCalls_external hd] at he
  | character d => simp [rxCalls_external hc] at he
  | act a =>
    obtain ⟨e, hfeeds, rfl⟩ := List.mem_map.mp hc
    rw [Option.mem_toList] at hfeeds
    cases a with
    | feed e' =>
      simp only [Endpoint.feeds] at hfeeds
      split at hfeeds <;> cases hfeeds
      exact .inl rfl
    | expire task =>
      simp only [Endpoint.feeds] at hfeeds
      split at hfeeds <;> cases hfeeds
      rename_i hlive
      exact .inr ⟨task, hlive.1, hlive.2, rfl, rfl⟩
    | watchdog disconnected =>
      simp only [Endpoint.feeds] at hfeeds
      split at hfeeds <;> cases hfeeds
      cases he
    | txLoop =>
      simp only [Endpoint.feeds, sentEvent] at hfeeds
      repeat' split at hfeeds
      all_goals cases hfeeds
      all_goals cases he
    | sendPacket | sendChar | recvPacket => cases hfeeds

/-- Every tick that a timer feeds was armed in the visit that is going on and is the one its
state waits for. -/
theorem tick_armed_this_visit {cfg : LinkConfig} {p : Endpoint} (h : Endpoint.start cfg = .ok p)
    (is : List Input) {i : Input} (hi : ∀ e, i = .act (.feed e) → e.isTick = false) {c : Call}
    (hc : c ∈ (run Endpoint.step p is).calls i) (ht : c.event.isTick = true) :
    ∃ task, i = .act (.expire task) ∧ c.event = task.event ∧
      c.link.fsm = (run Endpoint.step p is).link.fsm ∧
      c.link.fsm.state.awaits = some c.event ∧ ArmedThisVisit (p.history is) task := by
  have hinv : TicksInv (p.history is) (run Endpoint.step p is).link :=
    run_invariant (I := TicksInv) .quiet
      (fun task h => ⟨h.timers.expire task, h.armed⟩) (fun e h => h.call e) (ticksInv_start h) is
  cases calls_external hc (external_of_isTick ht) with
  | inl hfeed => simp [hi _ hfeed] at ht
  | inr hexpire =>
    obtain ⟨task, hmem, hgen, hi', heq⟩ := hexpire
    have hown := hinv.timers.own task hmem hgen
    subst hi' heq
    exact ⟨task, rfl, rfl, rfl, (hinv.timers.current task hown).2, hinv.armed task hown⟩

/-- The timer that entering ErrorWait arms, by the generation it is given. -/
def errorWaitTimer (gen : Nat) : TimerTask :=
  { durationNs := tick12p8Ns, event := .tick12p8us, gen }

/-- ErrorWait is left again on a parity error after a NULL, and entered a second time. -/
def reentered : List Input :=
  [.act (.expire firstTimer), .character (.ofType .null),
    .character { (Character.ofType .null) with error := [.parityError] },
    .act (.expire { firstTimer with gen := 5 })]

/-- The stopped timer of the first visit is still scheduled and feeds nothing. The tick is that
of the second visit. -/
theorem tick_armed_this_visit_reentered :
    ∃ p, Endpoint.start {} = .ok p ∧
      errorWaitTimer 3 ∈ (run Endpoint.step p reentered).link.scheduledTimers ∧
      (run Endpoint.step p reentered).calls (.act (.expire (errorWaitTimer 3))) = [] ∧
      ∃ c ∈ (run Endpoint.step p reentered).calls (.act (.expire (errorWaitTimer 7))),
        ∃ task, Input.act (.expire (errorWaitTimer 7)) = .act (.expire task) ∧
          c.event = task.event ∧ c.link.fsm = (run Endpoint.step p reentered).link.fsm ∧
          c.link.fsm.state.awaits = some c.event ∧ ArmedThisVisit (p.history reentered) task := by
  obtain ⟨p, hp, hstopped, hnone, hcalls⟩ :
      ∃ p, Endpoint.start {} = .ok p ∧
        errorWaitTimer 3 ∈ (run Endpoint.step p reentered).link.scheduledTimers ∧
        (run Endpoint.step p reentered).calls (.act (.expire (errorWaitTimer 3))) = [] ∧
        (run Endpoint.step p reentered).calls (.act (.expire (errorWaitTimer 7))) =
          [⟨(run Endpoint.step p reentered).calling (.act (.expire (errorWaitTimer 7))),
            .tick12p8us⟩] :=
    ⟨_, rfl, by decide, rfl, rfl⟩
  have hmem := hcalls ▸ List.mem_singleton_self _
  exact ⟨p, hp, hstopped, hnone, _, hmem, @tick_armed_this_visit {} p hp reentered
    (.act (.expire (errorWaitTimer 7))) (by simp) _ hmem rfl⟩

end ticks

section wedge

/-- A timer is pending that will feed the tick the state waits for. -/
def Live (l : SpaceWireLink) : Prop :=
  ∃ task ∈ l.scheduledTimers, task.gen = l.timerGen ∧ l.fsm.state.awaits = some task.event

instance (l : SpaceWireLink) : Decidable (Live l) :=
  inferInstanceAs (Decidable (∃ task ∈ l.scheduledTimers, _ ∧ _))

/-- The FSM is in a state it is meant to leave when a timer expires. -/
def timed (f : LinkFSM) : Bool :=
  match f.state with
  | .errorReset => !f.linkDisable
  | .errorWait | .started | .connecting => true
  | .ready | .run => false

/-- A link that is to be left by a tick has the timer for it. -/
def Unwedged (l : SpaceWireLink) : Prop := timed l.fsm = true → Live l

instance (l : SpaceWireLink) : Decidable (Unwedged l) :=
  inferInstanceAs (Decidable (timed l.fsm = true → Live l))

/-- The disable flag is cleared in ErrorReset only while the timer of the visit is pending. -/
def EnabledInTime (p : Endpoint) (i : Input) : Prop :=
  i = .act (.feed .linkDisableClear) → p.link.fsm.state = .errorReset →
    ∃ task, p.link.timerTask = some task ∧ task ∈ p.link.scheduledTimers

theorem Unwedged.of_eq (h : Unwedged l) (hfsm : l'.fsm = l.fsm) (hgen : l'.timerGen = l.timerGen)
    (ht : l'.scheduledTimers = l.scheduledTimers) : Unwedged l' := by
  unfold Unwedged Live at h ⊢
  rwa [hfsm, hgen, ht]

theorem TimersInv.live_iff (h : TimersInv l) :
    Live l ↔ ∃ task, l.timerTask = some task ∧ task ∈ l.scheduledTimers := by
  constructor
  · rintro ⟨task, hmem, hgen, -⟩
    exact ⟨task, h.own task hmem hgen, hmem⟩
  · rintro ⟨task, htask, hmem⟩
    obtain ⟨hgen, ha⟩ := h.current task htask
    exact ⟨task, hmem, hgen, ha⟩

theorem awaits_of_timed {f : LinkFSM} (h : timed f = true) : f.state.awaits ≠ none := by
  unfold timed at h
  cases hs : f.state <;> simp [hs, State.awaits] at h ⊢

/-- The tick a state waits for changes it, but for a disabled ErrorReset. -/
theorem tick_changes {f : LinkFSM} (ha : f.state.awaits = some e)
    (hs : (f.feed e).state = f.state) : f.state = .errorReset ∧ f.linkDisable = true := by
  cases hstate : f.state with
  | errorReset =>
    rw [hstate] at ha
    cases ha
    rw [LinkFSM.feed_errorReset hstate] at hs
    by_cases hd : f.linkDisable = false
    · simp [hd, hstate] at hs
    · exact ⟨rfl, by simpa using hd⟩
  | errorWait =>
    rw [hstate] at ha
    cases ha
    rw [LinkFSM.feed_errorWait hstate] at hs
    repeat' split at hs
    all_goals simp [hstate] at hs
    contradiction
  | started =>
    rw [hstate] at ha
    cases ha
    simp [LinkFSM.feed_started hstate, hstate] at hs
  | connecting =>
    rw [hstate] at ha
    cases ha
    simp [LinkFSM.feed_connecting hstate, hstate, LinkFSM.connectingError] at hs
  | ready | run =>
    rw [hstate] at ha
    cases ha

/-- A state becomes timed without being entered only when its disable flag is cleared. -/
theorem timed_of_stay {f : LinkFSM} (hs : (f.feed e).state = f.state)
    (h : timed (f.feed e) = true) (he : e = .linkDisableClear → f.state ≠ .errorReset) :
    timed f = true := by
  cases hstate : f.state with
  | errorReset =>
    have hstay : f.feed e = f.updateFlags e := by
      rw [LinkFSM.feed_errorReset hstate] at hs ⊢
      exact if_neg fun hc => by simp [if_pos hc, hstate] at hs
    have hd : ¬ (f.updateFlags e).linkDisable = true := by
      simpa [timed, hstay, hstate] using h
    have hne : e ≠ .linkDisableClear := fun heq => he heq hstate
    simp only [LinkFSM.updateFlags_linkDisable, hne, ne_eq, not_false_eq_true, and_true,
      not_or] at hd
    simpa [timed, hstate] using hd.2
  | errorWait | started | connecting => simp [timed, hstate]
  | ready | run => simp [timed, hs, hstate] at h

/-- A call after which the state is timed leaves a live timer: it has armed one, or there was
one before it. -/
theorem unwedged_call (h : Unwedged l)
    (he : e = .linkDisableClear → l.fsm.state = .errorReset → Live l) :
    Unwedged (l.feedFsm e) := by
  intro htimed
  cases rearmed l e with
  | @armed task hs ha hgen hown htask ht =>
    exact ⟨task, by simp [ht], hown, ha⟩
  | stopped hs ha => exact absurd ha (awaits_of_timed htimed)
  | kept hs hgen htask ht =>
    rw [feedFsm_fsm] at htimed hs
    have hlive : Live l := by
      by_cases hclear : e = .linkDisableClear ∧ l.fsm.state = .errorReset
      · exact he hclear.1 hclear.2
      · exact h (timed_of_stay hs htimed fun heq hstate => hclear ⟨heq, hstate⟩)
    obtain ⟨task, hmem, htaskgen, ha⟩ := hlive
    exact ⟨task, by rwa [ht], by rwa [hgen], by rwa [feedFsm_fsm, hs]⟩

theorem unwedged_chain {cs : List Call} (hc : Chain l cs l') (h : Unwedged l)
    (hcs : ∀ c ∈ cs, c.event ≠ .linkDisableClear) : Unwedged l' := by
  induction hc with
  | done hq => exact h.of_eq hq.fsm hq.timerGen hq.timers
  | @call l l' c cs hq _ ih =>
    have hcalled := unwedged_call (e := c.event) (h.of_eq hq.fsm hq.timerGen hq.timers)
      fun heq => absurd heq (hcs c (by simp))
    exact ih hcalled fun d hd => hcs d (by simp [hd])

theorem unwedged_runTimer {task : TimerTask} (h : TimersInv l) (hu : Unwedged l)
    (hmem : task ∈ l.scheduledTimers) : Unwedged (l.runTimer task) := by
  by_cases hgen : task.gen = l.timerGen
  · have ha := (h.current task (h.own task hmem hgen)).2
    simp only [runTimer, hgen, if_true]
    generalize hl : { l with scheduledTimers := l.scheduledTimers.erase task } = m
    have hfsm : m.fsm = l.fsm := by rw [← hl]
    intro htimed
    cases rearmed m task.event with
    | @armed task' hs ha hgen hown htask ht => exact ⟨task', by simp [ht], hown, ha⟩
    | stopped hs ha => exact absurd ha (awaits_of_timed htimed)
    | kept hs =>
      rw [feedFsm_fsm, hfsm] at hs htimed
      obtain ⟨hstate, hd⟩ := tick_changes ha hs
      have hevent : task.event = .tick6p4us := by simpa [hstate, State.awaits] using ha.symm
      rw [hevent, LinkFSM.feed_errorReset hstate] at htimed
      simp [hd, timed, hstate, LinkFSM.updateFlags] at htimed
  · simp only [runTimer, hgen, if_false]
    intro htimed
    obtain ⟨live, hlive, hlivegen, ha⟩ := hu htimed
    have hne : live ≠ task := fun heq => hgen (heq ▸ hlivegen)
    exact ⟨live, (List.mem_erase_of_ne hne).mpr hlive, hlivegen, ha⟩

theorem unwedged_step {p : Endpoint} {i : Input} (h : TimersInv p.link) (hu : Unwedged p.link)
    (hi : EnabledInTime p i) : Unwedged (p.step i).link := by
  by_cases hfeed : ∃ e, i = .act (.feed e)
  · obtain ⟨e, rfl⟩ := hfeed
    simp only [Endpoint.step, Endpoint.act]
    split
    · exact unwedged_call hu fun he hs => h.live_iff.mpr (hi (by rw [he]) hs)
    · exact hu
  · by_cases hexpire : ∃ task, i = .act (.expire task)
    · obtain ⟨task, rfl⟩ := hexpire
      simp only [Endpoint.step, Endpoint.act]
      split
      · rename_i hmem
        exact unwedged_runTimer h hu hmem
      · exact hu
    · have hcalling : p.calling i = p.link := by
        unfold Endpoint.calling
        split
        · exact absurd ⟨_, rfl⟩ hexpire
        · rfl
      have hchain := step_chain p i
      rw [hcalling] at hchain
      refine unwedged_chain hchain hu fun c hc heq => ?_
      have hext : c.event.external = true := by rw [heq]; rfl
      cases calls_external hc hext with
      | inl hfed => exact hfeed ⟨_, hfed⟩
      | inr htimer =>
        obtain ⟨task, -, -, hi', -⟩ := htimer
        exact hexpire ⟨task, hi'⟩

theorem timersInv_run {p : Endpoint} (h : TimersInv p.link) (is : List Input) :
    TimersInv (run Endpoint.step p is).link :=
  @run_invariant (fun _ => TimersInv) .quiet (fun task h => h.expire task)
    (fun e h => h.call e) [] p h is

theorem unwedged_start {cfg : LinkConfig} {p : Endpoint} (h : Endpoint.start cfg = .ok p) :
    Unwedged p.link := by
  refine (start_cases (fun l hl _ => ?_) (fun l e he hl => ?_) h).1
  · refine ⟨⟨tick6p4Ns, .tick6p4us, l.timerGen + 1⟩, by simp [startTimer], rfl, ?_⟩
    simp [startTimer, (new_ok hl).2.2.1, State.awaits]
  · refine unwedged_call hl fun heq => ?_
    cases he with
    | inl h | inr h => simp [h] at heq

/-- A link is never without the timer it waits for if and only if its disable flag is never
cleared in ErrorReset after the timer of that visit has expired. -/
theorem unwedged_iff {cfg : LinkConfig} {p : Endpoint} (h : Endpoint.start cfg = .ok p)
    (is : List Input) :
    Always Endpoint.step (fun p => timed p.link.fsm = true → ∃ task ∈ p.link.scheduledTimers,
        task.gen = p.link.timerGen ∧ p.link.fsm.state.awaits = some task.event) p is ↔
      Guarded Endpoint.step (fun p i => i = .act (.feed .linkDisableClear) →
        p.link.fsm.state = .errorReset →
        ∃ task, p.link.timerTask = some task ∧ task ∈ p.link.scheduledTimers) p is := by
  refine always_iff_guarded (I := fun p => TimersInv p.link ∧ Unwedged p.link)
    ⟨(ticksInv_start h).timers, unwedged_start h⟩
    (fun q (hq : TimersInv q.link ∧ Unwedged q.link) => hq.2)
    (fun q i hq hi => ⟨timersInv_run hq.1 [i], unwedged_step hq.1 hq.2 hi⟩)
    fun q i hq hP hi hs => ?_
  subst hi
  have hfeed : q.link.fsm.feed .linkDisableClear = { q.link.fsm with linkDisable := false } := by
    simp [LinkFSM.feed_errorReset hs, LinkFSM.updateFlags]
  have hlink : (q.step (.act (.feed .linkDisableClear))).link =
      { q.link with fsm := { q.link.fsm with linkDisable := false } } := by
    simp [Endpoint.step, Endpoint.act, Event.external, feedFsm, hfeed, LinkFSM.output]
  rw [hlink] at hP
  exact hq.1.live_iff.mp (hP (by simp [timed, hs]))

/-- The timer expires while the link is disabled, and nothing is left to wait for when the
link is enabled again. -/
theorem wedged_after_disable :
    ∃ p, Endpoint.start {} = .ok p ∧
      ¬ Unwedged (run Endpoint.step p [.act (.feed .linkDisable), .act (.expire firstTimer),
        .act (.feed .linkDisableClear)]).link :=
  ⟨_, rfl, by decide⟩

/-- ErrorReset with no timer to leave it by. -/
structure Wedged (l : SpaceWireLink) : Prop where
  state : l.fsm.state = .errorReset
  dead : ∀ t ∈ l.scheduledTimers, t.gen ≠ l.timerGen

theorem Wedged.call (h : Wedged l) (he : e.isTick = false) : Wedged (l.feedFsm e) := by
  have hne : ¬ (e = .tick6p4us ∧ l.fsm.linkDisable = false) := by
    rintro ⟨rfl, -⟩
    cases he
  have hs : (l.feedFsm e).fsm.state = l.fsm.state := by
    rw [feedFsm_fsm, LinkFSM.feed_errorReset h.state, if_neg hne, LinkFSM.updateFlags_state]
  cases rearmed l e with
  | kept _ hgen htask ht => exact ⟨hs.trans h.state, by rw [ht, hgen]; exact h.dead⟩
  | stopped hs' | armed hs' => exact absurd hs hs'

theorem Wedged.chain {cs : List Call} (hc : Chain l cs l') (h : Wedged l)
    (hcs : ∀ c ∈ cs, c.event.isTick = false) : Wedged l' := by
  have hquiet {m m' : SpaceWireLink} (h : Wedged m) (hq : Quiet m m') : Wedged m' :=
    ⟨by rw [hq.fsm, h.state], by rw [hq.timers, hq.timerGen]; exact h.dead⟩
  induction hc with
  | done hq => exact hquiet h hq
  | @call l l' c cs hq _ ih =>
    exact ih ((hquiet h hq).call (hcs c (by simp))) fun d hd => hcs d (by simp [hd])

/-- Without a tick from outside, such a link never leaves ErrorReset again. -/
theorem wedged_run {p : Endpoint} (h : Wedged p.link) (is : List Input)
    (his : ∀ i ∈ is, ∀ e, i = .act (.feed e) → e.isTick = false) :
    Always Endpoint.step (fun p => Wedged p.link) p is := by
  refine always_of_guarded h (fun q i hq hi => ?_) (Guarded.of_forall_mem his)
  have hcalling : Wedged (q.calling i) := by
    unfold Endpoint.calling
    split
    · exact ⟨hq.state, fun t ht => hq.dead t (List.mem_of_mem_erase ht)⟩
    · exact hq
  refine hcalling.chain (step_chain q i) fun c hc => ?_
  cases htick : c.event.isTick with
  | false => rfl
  | true =>
    cases calls_external hc (external_of_isTick htick) with
    | inl hfeed => rw [← htick, hi _ hfeed]
    | inr hexpire =>
      obtain ⟨task, hmem, hgen, -, -⟩ := hexpire
      exact absurd hgen (hq.dead task hmem)

theorem unwedged_iff_clear :
    ∃ p, Endpoint.start {} = .ok p ∧
      (Always Endpoint.step (fun p => timed p.link.fsm = true → ∃ task ∈ p.link.scheduledTimers,
          task.gen = p.link.timerGen ∧ p.link.fsm.state.awaits = some task.event) p
          [.act (.feed .linkDisable), .act (.feed .linkDisableClear)] ↔
        Guarded Endpoint.step (fun p i => i = .act (.feed .linkDisableClear) →
          p.link.fsm.state = .errorReset →
          ∃ task, p.link.timerTask = some task ∧ task ∈ p.link.scheduledTimers) p
          [.act (.feed .linkDisable), .act (.feed .linkDisableClear)]) :=
  ⟨_, rfl, @unwedged_iff {} _ rfl _⟩

end wedge

end Timers

end SpaceWire
