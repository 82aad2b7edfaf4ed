import SpaceWire.Traffic

namespace SpaceWire

def sentEvent (c : Character) : Option Event :=
  if c.type = .null then some .sentNull else if c.type = .fct then some .sentFct else none

/-- The event an action feeds to the FSM. -/
def Endpoint.feeds (p : Endpoint) : Action → Option Event
  | .feed event => if event.external then some event else none
  | .expire task =>
    if task ∈ p.link.scheduledTimers ∧ task.gen = p.link.timerGen then some task.event else none
  | .watchdog disconnected =>
    if p.link.fsm.output.rxEnabled && p.link.fsm.gotNullLatched && disconnected then some .rxErr
    else none
  | .txLoop =>
    match p.txLoop with
    | .driven char _ => sentEvent char
    | _ => none
  | _ => none

namespace Events

open SpaceWireLink Accounting Traffic

/-- `l'` is `l` after the event, when there is one, but for what neither the FSM nor its
timers nor the count of drops depend on. -/
structure Told (l : SpaceWireLink) (oe : Option Event) (l' : SpaceWireLink) : Prop where
  fsm : l'.fsm = oe.elim l.fsm l.fsm.feed
  resets : (∀ e, oe = some e → l.fsm.drops e = false) → l'.errorResetCount = l.errorResetCount
  timers : ∀ t ∈ l'.scheduledTimers,
    t ∈ l.scheduledTimers ∨ t.event = .tick6p4us ∨ t.event = .tick12p8us

/-- The timers of a link were started with one of the two tick events. -/
def OnlyTicks (l : SpaceWireLink) : Prop :=
  ∀ t ∈ l.scheduledTimers, t.event = .tick6p4us ∨ t.event = .tick12p8us

variable {l l' m : SpaceWireLink} {oe : Option Event} {c : Character}

theorem told_nothing (hfsm : l'.fsm = l.fsm) (hresets : l'.errorResetCount = l.errorResetCount)
    (htimers : ∀ t ∈ l'.scheduledTimers, t ∈ l.scheduledTimers) : Told l none l' :=
  ⟨hfsm, fun _ => hresets, fun t ht => .inl (htimers t ht)⟩

theorem Told.refl (l : SpaceWireLink) : Told l none l := told_nothing rfl rfl fun _ ht => ht

theorem told_feedFsm (l : SpaceWireLink) (e : Event) : Told l (some e) (l.feedFsm e) := by
  refine ⟨by simp, fun hd => by simp [feedFsm_errorResetCount, hd e rfl], fun t ht => ?_⟩
  unfold feedFsm at ht
  dsimp only at ht
  split at ht
  · unfold onStateChange at ht
    generalize (l.fsm.feed e).output = out at ht
    cases hs : out.state <;>
      simp [hs, startTimer, cancelTimer, enterErrorReset] at ht <;> grind
  · exact .inl ht

theorem Told.frame (h : Told l oe m) (hfsm : l'.fsm = m.fsm)
    (hresets : l'.errorResetCount = m.errorResetCount)
    (htimers : ∀ t ∈ l'.scheduledTimers, t ∈ m.scheduledTimers) : Told l oe l' :=
  ⟨hfsm.trans h.fsm, fun hd => hresets.trans (h.resets hd), fun t ht => h.timers t (htimers t ht)⟩

theorem Told.after (h : Told m oe l') (hfsm : m.fsm = l.fsm)
    (hresets : m.errorResetCount = l.errorResetCount)
    (htimers : ∀ t ∈ m.scheduledTimers, t ∈ l.scheduledTimers) : Told l oe l' := by
  obtain ⟨h1, h2, h3⟩ := h
  rw [hfsm] at h1 h2
  exact ⟨h1, fun hd => (h2 hd).trans hresets, fun t ht => (h3 t ht).imp_left (htimers t)⟩

theorem OnlyTicks.told (h : OnlyTicks l) (ht : Told l oe l') : OnlyTicks l' :=
  fun t hm => (ht.timers t hm).elim (h t) id

theorem charSent_told (b : Bool) : Told l (sentEvent c) (l.charSent c b) := by
  have hfed : Told l (sentEvent c) (if c.type = .null then l.feedFsm .sentNull
      else if c.type = .fct then l.feedFsm .sentFct else l) := by
    unfold sentEvent
    split
    · exact told_feedFsm l .sentNull
    · split
      · exact told_feedFsm l .sentFct
      · exact .refl l
  obtain ⟨n, d, heq⟩ := l.charSent_eq c b
  rw [heq]
  exact hfed.frame rfl rfl fun _ ht => ht

theorem runTimer_told (l : SpaceWireLink) (task : TimerTask) :
    Told l (if task.gen = l.timerGen then some task.event else none) (l.runTimer task) := by
  have herase : ∀ t ∈ l.scheduledTimers.erase task, t ∈ l.scheduledTimers :=
    fun _ ht => List.mem_of_mem_erase ht
  unfold runTimer
  dsimp only
  split
  · exact (told_feedFsm _ task.event).after rfl rfl herase
  · exact told_nothing rfl rfl herase

theorem disconnectWatchdog_told (l : SpaceWireLink) (d : Bool) :
    Told l (if l.fsm.output.rxEnabled && l.fsm.gotNullLatched && d then some .rxErr else none)
      (l.disconnectWatchdog d) := by
  unfold disconnectWatchdog
  cases l.fsm.output.rxEnabled <;> cases l.fsm.gotNullLatched <;> cases d <;>
    simp [Told.refl, told_feedFsm]

theorem picked_told {mode : TxMode} {b : Bool} (h : l.Picked mode l' c b) : Told l none l' := by
  cases h <;> exact told_nothing rfl rfl fun _ ht => ht

theorem enqueue_told (cs : List Character) (l : SpaceWireLink) :
    Told l none (cs.foldl enqueueNchar l) := by
  have hsame := sameAccounts_enqueue cs l
  have htimers : (cs.foldl enqueueNchar l).scheduledTimers = l.scheduledTimers := by
    induction cs generalizing l with
    | nil => rfl
    | cons c cs ih => exact ih (l.enqueueNchar c) (sameAccounts_enqueue cs _)
  exact told_nothing hsame.fsm hsame.resets fun t ht => by rwa [htimers] at ht

theorem turned_told {p p' : Endpoint} (h : Turned p p') :
    Told p.link (p.feeds .txLoop) p'.link := by
  cases h with
  | sleep htx | park htx | wake htx | drive htx =>
    simp only [Endpoint.feeds, htx]
    exact told_nothing rfl rfl fun _ ht => ht
  | pick htx _ hp =>
    simp only [Endpoint.feeds, htx]
    exact (picked_told hp).frame rfl rfl fun _ ht => ht
  | done htx =>
    simp only [Endpoint.feeds, htx]
    exact charSent_told _

/-- An action changes the FSM by the event it feeds. -/
theorem act_told {p : Endpoint} (h : Clean p) (a : Action) :
    Told p.link (p.feeds a) (p.act a).link := by
  cases a with
  | feed e =>
    simp only [Endpoint.act, Endpoint.feeds]
    split
    · exact told_feedFsm p.link e
    · exact .refl p.link
  | expire task =>
    simp only [Endpoint.act, Endpoint.feeds]
    by_cases hm : task ∈ p.link.scheduledTimers
    · simpa only [hm, true_and, if_true] using runTimer_told p.link task
    · simpa only [hm, false_and, if_false] using .refl p.link
  | watchdog disconnected => exact disconnectWatchdog_told p.link disconnected
  | txLoop => exact turned_told (turned h)
  | sendPacket data terminator =>
    simp only [Endpoint.act, sendPacket]
    cases SpaceWirePacket.create data terminator with
    | error err => exact .refl p.link
    | ok pkt => exact enqueue_told pkt.nchars p.link
  | sendChar char =>
    simp only [Endpoint.act, sendChar]
    cases char.isNChar with
    | false => exact .refl p.link
    | true => exact enqueue_told [char] p.link
  | recvPacket =>
    have hr := read h
    simp only [Endpoint.act]
    generalize p.stepRecvPacket = p' at hr
    cases hr <;> exact told_nothing rfl rfl fun _ ht => ht

theorem rxCharacter_told {e : Event} (hc : LineChar c) (he : characterEvent c.type = some e)
    (hroom : l.credit.txCredit + 8 * fctCount [c] ≤ 56) (hpos : ncharCount [c] ≤ l.credit.rxCredit)
    (hd : l.fsm.drops e = false) : Told l (some e) (l.rxCharacter c) := by
  have hrx : l.rxCharacter c = (l.feedFsm e).onRxCharacter c := by
    cases hc with
    | null | fct => cases he; rfl
    | packet hp => cases hp <;> cases he <;> rfl
  have hcredit : (l.feedFsm e).credit = l.credit := by simp [feedFsm_credit, hd]
  have hh := onRxCharacter_handled (l.feedFsm e) c
  rw [hrx]
  generalize (l.feedFsm e).onRxCharacter c = l' at hh
  have hfed := told_feedFsm l e
  cases hh with
  | fct | nchar | discarded | other => exact hfed.frame rfl rfl fun _ ht => ht
  | overflow ht hlt =>
    have hone : fctCount [c] = 1 := by simp [fctCount, ht]
    rw [hcredit] at hlt
    omega
  | unexpected hn _ hle =>
    have hone : ncharCount [c] = 1 := by simp [ncharCount, hn]
    rw [hcredit] at hle
    omega

theorem onlyTicks_start {cfg : LinkConfig} {p : Endpoint} (h : Endpoint.start cfg = .ok p) :
    OnlyTicks p.link := by
  refine (start_cases (fun l hl => ?_) (fun l e _ hl => hl.told (told_feedFsm l e)) h).1
  obtain ⟨-, hnone, -⟩ := new_idle hl
  simp [OnlyTicks, startTimer, hnone]

end Events

end SpaceWire
