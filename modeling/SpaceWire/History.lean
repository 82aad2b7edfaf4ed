import SpaceWire.Conservation
import SpaceWire.Events

namespace SpaceWire

/-- A call of `feedFsm`: the link as it was, and the event. -/
structure Call where
  link : SpaceWireLink
  event : Event

namespace Call

def after (c : Call) : SpaceWireLink := c.link.feedFsm c.event

/-- The states the FSM entered during the call, those it only passed through included. -/
def entered (c : Call) : List State := (c.link.fsm.entered c.event).map Prod.fst

end Call

/-- The calls that one decoded character leads to: its event, and a second one when its
accounting raises a CreditError. -/
def SpaceWireLink.rxCalls (l : SpaceWireLink) (c : Character) : List Call :=
  if isHardError c.error then [⟨l, .rxErr⟩]
  else
    match characterEvent c.type with
    | none => []
    | some e => ⟨l, e⟩ ::
        if Conservation.raisesCreditError (l.feedFsm e) c then [⟨l.feedFsm e, .creditErr⟩] else []

def SpaceWireLink.startCalls (l : SpaceWireLink) : List Call :=
  let l := { l with started := true }.startTimer tick6p4Ns .tick6p4us
  let autoStarted := if l.pendingAutoStart then l.feedFsm .autoStart else l
  (if l.pendingAutoStart then [⟨l, .autoStart⟩] else []) ++
    if autoStarted.pendingLinkStart then [⟨autoStarted, .linkStart⟩] else []

namespace Endpoint

/-- The link an input makes its calls on: a timer is gone when it feeds its event. -/
def calling (p : Endpoint) : Input → SpaceWireLink
  | .act (.expire task) =>
    { p.link with scheduledTimers := p.link.scheduledTimers.erase task }
  | _ => p.link

def calls (p : Endpoint) : Input → List Call
  | .act action => (p.feeds action).toList.map fun e => ⟨p.calling (.act action), e⟩
  | .bit bit =>
    (p.link.decoder.feed bit).2.flatMap
      { p.link with decoder := (p.link.decoder.feed bit).1 }.rxCalls
  | .character character => p.link.rxCalls character

/-- The calls of a whole run, in order. -/
def history (p : Endpoint) : List Input → List Call
  | [] => []
  | i :: is => p.calls i ++ (p.step i).history is

theorem history_concat (p : Endpoint) (is : List Input) (i : Input) :
    p.history (is ++ [i]) = p.history is ++ (Run.run step p is).calls i := by
  induction is generalizing p with
  | nil => simp [history]
  | cons j is ih => simp only [List.cons_append, history, ih, List.append_assoc, Run.run_cons]

end Endpoint

namespace History

open SpaceWireLink Accounting Conservation Run

/-- What happens to a link between two calls: nothing to its FSM, to its timers and to what
else only a call may change. -/
structure Quiet (l l' : SpaceWireLink) : Prop where
  fsm : l'.fsm = l.fsm
  timerGen : l'.timerGen = l.timerGen
  timerTask : l'.timerTask = l.timerTask
  timers : l'.scheduledTimers = l.scheduledTimers
  resets : l'.errorResetCount = l.errorResetCount
  runReached : l'.runReached = l.runReached
  initial : l'.decoder.initialPrevContentBits = l.decoder.initialPrevContentBits
  bitRate : l'.bitRateBps = l.bitRateBps

/-- `l` becomes `l'` by these calls, in this order, and nothing else of consequence. -/
inductive Chain : SpaceWireLink → List Call → SpaceWireLink → Prop
  | done {l l' : SpaceWireLink} (hq : Quiet l l') : Chain l [] l'
  | call {l l' : SpaceWireLink} {c : Call} {cs : List Call} (hq : Quiet l c.link)
      (h : Chain c.after cs l') : Chain l (c :: cs) l'

variable {l l' m : SpaceWireLink} {cs ds : List Call} {c : Character} {e : Event}

theorem Quiet.of_eq (h : (l'.fsm, l'.timerGen, l'.timerTask, l'.scheduledTimers,
      l'.errorResetCount, l'.runReached, l'.decoder.initialPrevContentBits, l'.bitRateBps) =
    (l.fsm, l.timerGen, l.timerTask, l.scheduledTimers, l.errorResetCount, l.runReached,
      l.decoder.initialPrevContentBits, l.bitRateBps)) : Quiet l l' := by
  simp only [Prod.mk.injEq] at h
  obtain ⟨h1, h2, h3, h4, h5, h6, h7, h8⟩ := h
  exact ⟨h1, h2, h3, h4, h5, h6, h7, h8⟩

theorem Quiet.refl (l : SpaceWireLink) : Quiet l l := .of_eq rfl

theorem Quiet.trans (h : Quiet l m) (h' : Quiet m l') : Quiet l l' :=
  ⟨h'.fsm.trans h.fsm, h'.timerGen.trans h.timerGen, h'.timerTask.trans h.timerTask,
    h'.timers.trans h.timers, h'.resets.trans h.resets, h'.runReached.trans h.runReached,
    h'.initial.trans h.initial, h'.bitRate.trans h.bitRate⟩

namespace Chain

theorem after (h : Chain m cs l') (hq : Quiet l m) : Chain l cs l' := by
  cases h with
  | done hq' => exact .done (hq.trans hq')
  | call hq' h => exact .call (hq.trans hq') h

theorem append (h : Chain l cs m) (h' : Chain m ds l') : Chain l (cs ++ ds) l' := by
  induction h with
  | done hq => exact h'.after hq
  | call hq _ ih => exact .call hq (ih h')

theorem frame (h : Chain l cs m) (hq : Quiet m l') : Chain l cs l' := by
  have hdone := h.append (.done hq)
  rwa [List.append_nil] at hdone

theorem one (l : SpaceWireLink) (e : Event) : Chain l [⟨l, e⟩] (l.feedFsm e) :=
  .call (.refl l) (.done (.refl _))

theorem oneIf (b : Bool) (l : SpaceWireLink) (e : Event) :
    Chain l (if b then [⟨l, e⟩] else []) (if b then l.feedFsm e else l) := by
  cases b with
  | true => exact .one l e
  | false => exact .done (.refl l)

theorem invariant {I : List Call → SpaceWireLink → Prop}
    (hquiet : ∀ {hs l l'}, I hs l → Quiet l l' → I hs l')
    (hcall : ∀ {hs l} e, I hs l → I (hs ++ [⟨l, e⟩]) (l.feedFsm e))
    {hs : List Call} (h : Chain l cs l') (h0 : I hs l) : I (hs ++ cs) l' := by
  induction h generalizing hs with
  | done hq =>
    rw [List.append_nil]
    exact hquiet h0 hq
  | @call l l' c cs hq _ ih =>
    have hc := ih (hcall c.event (hquiet h0 hq))
    rwa [List.append_assoc] at hc

end Chain

theorem onRxCharacter_chain (l : SpaceWireLink) (c : Character) :
    Chain l (if raisesCreditError l c then [⟨l, .creditErr⟩] else []) (l.onRxCharacter c) := by
  unfold onRxCharacter raisesCreditError
  cases c.type with
  | fct =>
    cases hr : l.credit.onFctReceived with
    | error err => exact .one l .creditErr
    | ok credit => exact .done (.of_eq rfl)
  | data | eop | eep =>
    by_cases hs : l.fsm.state = .run
    · cases hr : l.credit.onNcharReceived with
      | error err => simpa [hs, hr, Except.isOk, Except.toBool] using Chain.one l .creditErr
      | ok credit =>
        simp only [hs, Except.isOk, Except.toBool, decide_true, Bool.true_and, Bool.not_true, ne_eq,
          not_true_eq_false, Bool.false_eq_true, if_false]
        exact .done (.of_eq rfl)
    · simpa [hs] using Chain.done (.refl l)
  | esc | null | timecode | broadcast => exact .done (.refl l)

theorem rxCharacter_chain (l : SpaceWireLink) (c : Character) :
    Chain l (l.rxCalls c) (l.rxCharacter c) := by
  unfold rxCharacter rxCalls dispatch
  cases isHardError c.error with
  | true => exact .one l .rxErr
  | false =>
    cases characterEvent c.type with
    | none => exact .done (.refl l)
    | some e => exact .call (.refl l) (onRxCharacter_chain (l.feedFsm e) c)

theorem rxCharacters_chain (l : SpaceWireLink) (characters : List Character)
    (hlen : characters.length ≤ 1) :
    Chain l (characters.flatMap l.rxCalls) (characters.foldl SpaceWireLink.rxCharacter l) := by
  cases characters with
  | nil => exact .done (.refl l)
  | cons c rest =>
    obtain rfl : rest = [] := by simpa using hlen
    simpa using rxCharacter_chain l c

theorem feedBit_chain (l : SpaceWireLink) (bit : Bool) :
    Chain l ((l.decoder.feed bit).2.flatMap { l with decoder := (l.decoder.feed bit).1 }.rxCalls)
      (l.feedBit bit) := by
  have hinitial := l.decoder.feed_initial bit
  exact (rxCharacters_chain { l with decoder := (l.decoder.feed bit).1 } _
    (l.decoder.feed_length bit)).after (.of_eq (by simp only [hinitial]))

theorem charSent_chain (l : SpaceWireLink) (c : Character) (wasNchar : Bool) :
    Chain l ((sentEvent c).toList.map fun e => ⟨l, e⟩) (l.charSent c wasNchar) := by
  have hfed : Chain l ((sentEvent c).toList.map fun e => ⟨l, e⟩)
      (if c.type = .null then l.feedFsm .sentNull
        else if c.type = .fct then l.feedFsm .sentFct else l) := by
    unfold sentEvent
    split
    · exact .one l .sentNull
    · split
      · exact .one l .sentFct
      · exact .done (.refl l)
  obtain ⟨n, d, heq⟩ := l.charSent_eq c wasNchar
  rw [heq]
  exact hfed.frame (.of_eq rfl)

theorem quiet_picked {mode : TxMode} {b : Bool} (h : l.Picked mode m c b) : Quiet l m := by
  cases h <;> exact .of_eq rfl

theorem quiet_enqueue (cs : List Character) (l : SpaceWireLink) :
    Quiet l (cs.foldl enqueueNchar l) := by
  apply Run.run_related Quiet.refl Quiet.trans
  exact fun l c => .of_eq rfl

theorem quiet_recvPacket (p : Endpoint) : Quiet p.link p.stepRecvPacket.link := by
  unfold Endpoint.stepRecvPacket
  cases p.link.rxNcharQueue with
  | nil => exact .refl p.link
  | cons c rest =>
    dsimp only
    split
    · rw [Endpoint.returnPacket_link]
      exact .of_eq rfl
    · rw [Endpoint.returnPacket_link]
      exact .of_eq rfl
    · exact .of_eq rfl

theorem stepTxLoop_chain (p : Endpoint) :
    Chain p.link ((p.feeds .txLoop).toList.map fun e => ⟨p.link, e⟩) p.stepTxLoop.link := by
  have ht := p.txTurn
  generalize p.stepTxLoop = p' at ht
  cases ht with
  | rest htx | ended htx | wake htx | drive htx =>
    simp only [Endpoint.feeds, htx]
    exact .done (.refl p.link)
  | park htx =>
    simp only [Endpoint.feeds, htx]
    exact .done (.of_eq rfl)
  | pick htx _ hp | reject htx _ hp =>
    simp only [Endpoint.feeds, htx]
    exact .done ((quiet_picked hp).trans (.of_eq rfl))
  | done htx =>
    simp only [Endpoint.feeds, htx]
    exact charSent_chain p.link _ _

theorem expire_chain (p : Endpoint) (task : TimerTask) :
    Chain (p.calling (.act (.expire task))) (p.calls (.act (.expire task)))
      (p.act (.expire task)).link := by
  simp only [Endpoint.calls, Endpoint.feeds, Endpoint.calling, Endpoint.act]
  by_cases hm : task ∈ p.link.scheduledTimers
  · by_cases hg : task.gen = p.link.timerGen
    · simp only [hm, hg, runTimer, and_self, if_true]
      exact .one _ task.event
    · simp only [hm, hg, runTimer, and_false, if_true, if_false]
      exact .done (.refl _)
  · simp only [hm, false_and, if_false, List.erase_of_not_mem hm]
    exact .done (.refl p.link)

/-- An input changes the FSM and its timers by its calls only. -/
theorem step_chain (p : Endpoint) (i : Input) :
    Chain (p.calling i) (p.calls i) (p.step i).link := by
  cases i with
  | bit bit => exact feedBit_chain p.link bit
  | character c => exact rxCharacter_chain p.link c
  | act a =>
    cases a with
    | feed e =>
      simp only [Endpoint.step, Endpoint.calls, Endpoint.feeds, Endpoint.act]
      cases e.external with
      | true => exact .one p.link e
      | false => exact .done (.refl p.link)
    | expire task => exact expire_chain p task
    | watchdog disconnected =>
      simp only [Endpoint.step, Endpoint.calls, Endpoint.feeds, Endpoint.act, disconnectWatchdog]
      cases p.link.fsm.output.rxEnabled <;> cases p.link.fsm.gotNullLatched <;>
        cases disconnected <;> first | exact .done (.refl p.link) | exact .one p.link .rxErr
    | txLoop => exact stepTxLoop_chain p
    | sendPacket data terminator =>
      simp only [Endpoint.step, Endpoint.calls, Endpoint.feeds, Endpoint.act, sendPacket]
      cases SpaceWirePacket.create data terminator with
      | error err => exact .done (.refl p.link)
      | ok pkt => exact .done (quiet_enqueue pkt.nchars p.link)
    | sendChar char =>
      simp only [Endpoint.step, Endpoint.calls, Endpoint.feeds, Endpoint.act, sendChar]
      cases char.isNChar with
      | false => exact .done (.refl p.link)
      | true => exact .done (quiet_enqueue [char] p.link)
    | recvPacket => exact .done (quiet_recvPacket p)

/-- The invariant rule over the calls of a run: timers expire at any time, and calls are made
at any time. -/
theorem run_invariant {I : List Call → SpaceWireLink → Prop}
    (hquiet : ∀ {hs l l'}, I hs l → Quiet l l' → I hs l')
    (hexpire : ∀ {hs l} task, I hs l →
      I hs { l with scheduledTimers := l.scheduledTimers.erase task })
    (hcall : ∀ {hs l} e, I hs l → I (hs ++ [⟨l, e⟩]) (l.feedFsm e))
    {hs : List Call} {p : Endpoint} (h0 : I hs p.link) (is : List Input) :
    I (hs ++ p.history is) (run Endpoint.step p is).link := by
  induction is generalizing p hs with
  | nil => simpa [Endpoint.history] using h0
  | cons i is ih =>
    have hcalling : I hs (p.calling i) := by
      unfold Endpoint.calling
      split
      · exact hexpire _ h0
      · exact h0
    have hstep := (step_chain p i).invariant (I := I) hquiet hcall hcalling
    simpa [Endpoint.history] using ih hstep

theorem start_chain (h : l.start = .ok l') :
    Chain ({ l with started := true }.startTimer tick6p4Ns .tick6p4us) l.startCalls l' := by
  unfold SpaceWireLink.start at h
  unfold startCalls
  split at h
  · cases h
  · cases h
    exact (Chain.oneIf _ _ .autoStart).append (.oneIf _ _ .linkStart)

section resets

/-- Each entry to ErrorReset so far has been counted, and found the link cleaned up. -/
structure ResetsInv (hs : List Call) (l : SpaceWireLink) : Prop where
  count : l.errorResetCount = (hs.flatMap Call.entered).count .errorReset
  initial : l.decoder.initialPrevContentBits = []
  clean : ∀ c ∈ hs, .errorReset ∈ c.entered → c.after.encoder = Encoder.new ∧
    c.after.decoder = Decoder.new ∧ c.after.credit.txCredit = 0 ∧ c.after.credit.rxCredit = 0

theorem count_entered (c : Call) :
    c.entered.count .errorReset = if c.link.fsm.drops c.event then 1 else 0 := by
  have hone := c.link.fsm.countP_entered c.event
  rw [Call.entered, List.count, List.countP_map, ← hone]
  refine List.countP_congr fun x _ => ?_
  simp

theorem drops_of_mem_entered {c : Call} (h : .errorReset ∈ c.entered) :
    c.link.fsm.drops c.event = true := by
  have hpos := List.count_pos_iff.mpr h
  rw [count_entered] at hpos
  split at hpos
  · assumption
  · cases hpos

theorem feedFsm_of_drops (h : l.fsm.drops e = true) :
    (l.feedFsm e).encoder = Encoder.new ∧ (l.feedFsm e).decoder = l.decoder.reset ∧
      (l.feedFsm e).credit = l.credit.reset := by
  obtain ⟨hnew, hold⟩ := LinkFSM.drops_iff.mp h
  have hchanged : (l.fsm.feed e).output.state ≠ l.fsm.state := by
    simpa [LinkFSM.output, hnew] using hold.symm
  simp only [feedFsm, if_pos hchanged]
  simp [onStateChange, LinkFSM.output, hnew, startTimer, cancelTimer, enterErrorReset,
    Encoder.reset, Encoder.new]

theorem feedFsm_initial (l : SpaceWireLink) (e : Event) :
    (l.feedFsm e).decoder.initialPrevContentBits = l.decoder.initialPrevContentBits := by
  simp only [feedFsm]
  split
  · generalize (l.fsm.feed e).output = out
    cases hs : out.state <;>
      simp [onStateChange, hs, startTimer, cancelTimer, enterErrorReset, Decoder.reset]
  · rfl

theorem ResetsInv.call {hs : List Call} (h : ResetsInv hs l) (e : Event) :
    ResetsInv (hs ++ [⟨l, e⟩]) (l.feedFsm e) := by
  refine ⟨?_, ?_, fun c hc hmem => ?_⟩
  · rw [List.flatMap_append, List.count_append, ← h.count, feedFsm_errorResetCount]
    simp only [List.flatMap_cons, List.flatMap_nil, List.append_nil, count_entered]
    split <;> rfl
  · rw [feedFsm_initial, h.initial]
  · obtain hc | hc := List.mem_append.mp hc
    · exact h.clean c hc hmem
    · obtain rfl := List.mem_singleton.mp hc
      obtain ⟨henc, hdec, hcredit⟩ := feedFsm_of_drops (drops_of_mem_entered hmem)
      simp [Call.after, henc, hdec, hcredit, Decoder.reset, Decoder.new, h.initial]

theorem ResetsInv.quiet {hs : List Call} (h : ResetsInv hs l) (hq : Quiet l l') :
    ResetsInv hs l' := ⟨hq.resets.trans h.count, hq.initial.trans h.initial, h.clean⟩

/-- Every entry to ErrorReset, from the construction on, is counted and cleans up. -/
theorem error_resets_seen {cfg : LinkConfig} (hnew : SpaceWireLink.new cfg = .ok l)
    (hstart : l.start = .ok l') (is : List Input) :
    (run Endpoint.step { link := l' } is).link.errorResetCount =
        ((l.startCalls ++ Endpoint.history { link := l' } is).flatMap Call.entered).count
          .errorReset ∧
      ∀ c ∈ l.startCalls ++ Endpoint.history { link := l' } is, .errorReset ∈ c.entered →
        c.after.encoder = Encoder.new ∧ c.after.decoder = Decoder.new ∧
          c.after.credit.txCredit = 0 ∧ c.after.credit.rxCredit = 0 := by
  have h0 : ResetsInv [] ({ l with started := true }.startTimer tick6p4Ns .tick6p4us) := by
    refine ⟨(new_ok hnew).2.2.2.2.2.2.2.2, ?_, by simp⟩
    exact congrArg Decoder.initialPrevContentBits (new_idle hnew).1
  have hstarted : ResetsInv ([] ++ l.startCalls) l' :=
    (start_chain hstart).invariant .quiet (fun e h => h.call e) h0
  have hrun := run_invariant .quiet (fun _ h => ⟨h.count, h.initial, h.clean⟩)
    (fun e h => h.call e) (p := { link := l' }) hstarted is
  exact ⟨hrun.count, hrun.clean⟩

theorem error_resets_seen_parity :
    ∃ l l', SpaceWireLink.new {} = .ok l ∧ l.start = .ok l' ∧
      (run Endpoint.step { link := l' } [.act (.feed .tick6p4us),
        .character { (Character.ofType .fct) with error := [.parityError] }]).link.errorResetCount =
        ((l.startCalls ++ Endpoint.history { link := l' } [.act (.feed .tick6p4us),
          .character { (Character.ofType .fct) with error := [.parityError] }]).flatMap
            Call.entered).count .errorReset :=
  ⟨_, _, rfl, rfl, (@error_resets_seen _ _ {} rfl rfl _).1⟩

end resets

end History

end SpaceWire
