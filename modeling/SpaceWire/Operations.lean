import SpaceWire.Lifecycle

namespace SpaceWire

open SpaceWireLink

/-- What happens to a link outside `_feed_fsm` and outside its transmit side: the FSM and the
accounts of the transmit queue stay, and the wake-up of the transmit coroutine is at most set. -/
structure Passive (l l' : SpaceWireLink) : Prop where
  fsm : l'.fsm = l.fsm
  txNcharQueue : l'.txNcharQueue = l.txNcharQueue
  txNcharOutstanding : l'.txNcharOutstanding = l.txNcharOutstanding
  txDrainedEvt : l'.txDrainedEvt = l.txDrainedEvt
  txWakeup : l.txWakeup = true → l'.txWakeup = true

/-- A link is operated by events and by what is passive, in any order. -/
inductive Operated : SpaceWireLink → SpaceWireLink → Prop
  | passive {l l' : SpaceWireLink} (h : Passive l l') : Operated l l'
  | feed (l : SpaceWireLink) (e : Event) : Operated l (l.feedFsm e)
  | trans {l m l' : SpaceWireLink} (h : Operated l m) (h' : Operated m l') : Operated l l'

variable {l l' : SpaceWireLink} {p : Endpoint}

namespace Passive

theorem of_eq (h : (l'.fsm, l'.txNcharQueue, l'.txNcharOutstanding, l'.txDrainedEvt,
      l'.txWakeup) =
    (l.fsm, l.txNcharQueue, l.txNcharOutstanding, l.txDrainedEvt, l.txWakeup)) :
    Passive l l' := by
  simp only [Prod.mk.injEq] at h
  obtain ⟨h1, h2, h3, h4, h5⟩ := h
  exact ⟨h1, h2, h3, h4, fun hw => h5.trans hw⟩

end Passive

namespace Operated

theorem same (h : (l'.fsm, l'.txNcharQueue, l'.txNcharOutstanding, l'.txDrainedEvt,
      l'.txWakeup) =
    (l.fsm, l.txNcharQueue, l.txNcharOutstanding, l.txDrainedEvt, l.txWakeup)) :
    Operated l l' := .passive (.of_eq h)

theorem refl (l : SpaceWireLink) : Operated l l := .same rfl

theorem feedIf (b : Bool) (l : SpaceWireLink) (e : Event) :
    Operated l (if b then l.feedFsm e else l) := by
  cases b with
  | true => exact .feed l e
  | false => exact .refl l

theorem accounts (h : Operated l l') : l'.txNcharQueue = l.txNcharQueue ∧
    l'.txNcharOutstanding = l.txNcharOutstanding ∧ l'.txDrainedEvt = l.txDrainedEvt := by
  induction h with
  | passive h => exact ⟨h.txNcharQueue, h.txNcharOutstanding, h.txDrainedEvt⟩
  | feed l e => simp
  | trans _ _ ih ih' =>
    exact ⟨ih'.1.trans ih.1, ih'.2.1.trans ih.2.1, ih'.2.2.trans ih.2.2⟩

theorem onRxCharacter (l : SpaceWireLink) (c : Character) : Operated l (l.onRxCharacter c) := by
  have hh := onRxCharacter_handled l c
  generalize l.onRxCharacter c = l' at hh
  cases hh with
  | fct => exact .passive ⟨rfl, rfl, rfl, rfl, fun _ => rfl⟩
  | nchar => exact .same rfl
  | overflow | unexpected => exact .feed l .creditErr
  | discarded | other => exact .refl l

theorem rxCharacter (l : SpaceWireLink) (c : Character) : Operated l (l.rxCharacter c) := by
  unfold SpaceWireLink.rxCharacter dispatch
  cases isHardError c.error with
  | true => exact .feed l .rxErr
  | false =>
    cases characterEvent c.type with
    | none => exact .refl l
    | some e => exact .trans (.feed l e) (.onRxCharacter _ c)

theorem rxCharacters (cs : List Character) (l : SpaceWireLink) :
    Operated l (cs.foldl SpaceWireLink.rxCharacter l) := by
  apply Run.run_related Operated.refl Operated.trans
  exact Operated.rxCharacter

theorem feedBit (l : SpaceWireLink) (bit : Bool) : Operated l (l.feedBit bit) := by
  have hdecoder : Operated l { l with decoder := (l.decoder.feed bit).1 } := .same rfl
  exact hdecoder.trans (.rxCharacters (l.decoder.feed bit).2 _)

theorem runTimer (l : SpaceWireLink) (task : TimerTask) : Operated l (l.runTimer task) := by
  have hgone : Operated l { l with scheduledTimers := l.scheduledTimers.erase task } := .same rfl
  unfold SpaceWireLink.runTimer
  dsimp only
  split
  · exact .trans hgone (.feed _ task.event)
  · exact hgone

theorem disconnectWatchdog (l : SpaceWireLink) (disconnected : Bool) :
    Operated l (l.disconnectWatchdog disconnected) := by
  unfold SpaceWireLink.disconnectWatchdog
  split
  · exact .refl l
  · split
    · exact .refl l
    · exact .feedIf disconnected l .rxErr

theorem arm (l : SpaceWireLink) : Operated l l.arm := by
  apply Operated.trans (.same rfl : Operated l (l.startTimer tick6p4Ns .tick6p4us))
  apply Operated.trans (.feedIf l.pendingAutoStart _ .autoStart)
  exact .feedIf _ _ .linkStart

theorem recvPacket (p : Endpoint) : Operated p.link p.stepRecvPacket.link := by
  unfold Endpoint.stepRecvPacket
  cases p.link.rxNcharQueue with
  | nil => exact .refl p.link
  | cons c rest =>
    dsimp only
    split
    · rw [Endpoint.returnPacket_link]
      exact .same rfl
    · rw [Endpoint.returnPacket_link]
      exact .same rfl
    · exact .same rfl

end Operated

/-- The N-Chars a call puts in the transmit queue. -/
def Action.enqueues : Action → List Character
  | .sendPacket data terminator =>
    match SpaceWirePacket.create data terminator with
    | .error _ => []
    | .ok pkt => pkt.nchars
  | .sendChar char => if char.isNChar then [char] else []
  | _ => []

def LifeInput.enqueues : LifeInput → List Character
  | .input (.act action) => action.enqueues
  | _ => []

def PortInput.enqueues : PortInput → List Character
  | .call action => action.enqueues
  | _ => []

/-- What a step of an endpoint does: a turn of its transmit coroutine, or calls and characters
that leave the coroutine where it is, unless `start` makes it anew. -/
inductive Moved (p : Endpoint) : LifeInput → Endpoint → Prop
  | operated {i : LifeInput} {p' : Endpoint} (hi : i ≠ .input (.act .txLoop))
      (htx : p'.txLoop = p.txLoop)
      (h : Operated (i.enqueues.foldl enqueueNchar p.link) p'.link) : Moved p i p'
  | started {p' : Endpoint} (htx : p'.txLoop = .top) (h : Operated p.link p'.link) :
      Moved p .started p'
  | turned {p' : Endpoint} (h : TxTurn p p') : Moved p (.input (.act .txLoop)) p'

theorem moved_act {a : Action} (ha : a ≠ .txLoop) : Moved p (.input (.act a)) (p.act a) := by
  refine .operated (by simpa using ha) (Traffic.act_txLoop ha).1 ?_
  cases a with
  | feed e =>
    simp only [Endpoint.act]
    split
    · exact .feed p.link e
    · exact .refl p.link
  | expire task =>
    simp only [Endpoint.act]
    split
    · exact .runTimer p.link task
    · exact .refl p.link
  | watchdog disconnected => exact .disconnectWatchdog p.link disconnected
  | txLoop => exact absurd rfl ha
  | sendPacket data terminator =>
    simp only [Endpoint.act, LifeInput.enqueues, Action.enqueues, sendPacket]
    cases SpaceWirePacket.create data terminator with
    | error err => exact .refl p.link
    | ok pkt => exact .refl _
  | sendChar char =>
    simp only [Endpoint.act, LifeInput.enqueues, Action.enqueues, sendChar]
    cases char.isNChar with
    | false => exact .refl p.link
    | true => exact .refl _
  | recvPacket => exact .recvPacket p

theorem moved (p : Endpoint) (i : LifeInput) : Moved p i (p.lifeStep i) := by
  cases i with
  | input j =>
    cases j with
    | act a =>
      by_cases ha : a = .txLoop
      · subst ha
        exact .turned p.txTurn
      · exact moved_act ha
    | bit bit => exact .operated (by simp) rfl (.feedBit p.link bit)
    | character c => exact .operated (by simp) rfl (.rxCharacter p.link c)
  | start => exact .operated (by simp) rfl (.same rfl)
  | started => exact .started rfl (.arm p.link)
  | stop => exact .operated (by simp) rfl (.same rfl)

def Accepted (c : Character) : Prop := ∀ e : Encoder, ∃ e' bits, e.encode c = (e', .ok bits)

theorem LineChar.accepted {c : Character} (h : LineChar c) : Accepted c := fun e => h.encode e

/-- The transmit coroutine runs, and nothing is queued that can end it. -/
structure Alive (p : Endpoint) : Prop where
  running : p.txLoop ≠ .dead
  accepted : ∀ c ∈ p.link.txNcharQueue, Accepted c

theorem picked_accepted {mode : TxMode} {c : Character} {b : Bool}
    (hq : ∀ c ∈ l.txNcharQueue, Accepted c) (hp : l.Picked mode l' c b) :
    Accepted c ∧ ∀ c ∈ l'.txNcharQueue, Accepted c := by
  cases hp with
  | null => exact ⟨LineChar.null.accepted, hq⟩
  | handshake | uncredited | fct => exact ⟨LineChar.fct.accepted, hq⟩
  | nchar hno hqueue =>
    rw [hqueue] at hq
    exact ⟨hq _ List.mem_cons_self, fun d hd => hq d (List.mem_cons_of_mem _ hd)⟩

theorem Alive.turn {p' : Endpoint} (h : Alive p) (ht : TxTurn p p') : Alive p' := by
  cases ht with
  | rest | ended => exact h
  | park | wake | drive => exact ⟨by simp, h.accepted⟩
  | pick _ _ hp => exact ⟨by simp, (picked_accepted h.accepted hp).2⟩
  | reject _ _ hp henc =>
    obtain ⟨e', bits, hok⟩ := (picked_accepted h.accepted hp).1 _
    rw [hok] at henc
    cases henc
  | done =>
    refine ⟨by simp, ?_⟩
    dsimp only
    rw [(Traffic.charSent_queues p.link _ _).1]
    exact h.accepted

/-- Data of the user ends the transmit coroutine only if the encoder rejects it. -/
theorem Alive.lifeStep (h : Alive p) (i : LifeInput) (hi : ∀ c ∈ i.enqueues, Accepted c) :
    Alive (p.lifeStep i) := by
  have hmoved := moved p i
  generalize p.lifeStep i = p' at hmoved
  cases hmoved with
  | operated _ htx hop =>
    refine ⟨htx ▸ h.running, fun c hc => ?_⟩
    rw [hop.accounts.1, (Traffic.enqueue_queues p.link i.enqueues).1] at hc
    obtain hc | hc := List.mem_append.mp hc
    · exact h.accepted c hc
    · exact hi c hc
  | started htx hop =>
    refine ⟨by simp [htx], fun c hc => ?_⟩
    rw [hop.accounts.1] at hc
    exact h.accepted c hc
  | turned ht => exact h.turn ht

theorem Port.life_enqueues (q : Port) (i : PortInput) :
    (q.life i).flatMap LifeInput.enqueues = i.enqueues := by
  cases i with
  | start | started =>
    simp only [Port.life]
    split <;> rfl
  | stop | driver | monitor | timeout => rfl
  | call action =>
    simp only [Port.life, Port.inputs, PortInput.enqueues]
    split
    · simp [LifeInput.enqueues]
    · cases action with
      | watchdog | txLoop | feed => rfl
      | expire | sendPacket | sendChar | recvPacket => exact absurd rfl ‹_›
  | txLoop => simp [Port.life, Port.inputs, LifeInput.enqueues, PortInput.enqueues, Action.enqueues]
  | watchdog =>
    simp only [Port.life, Port.inputs]
    split <;> rfl
  | line di =>
    apply List.flatMap_eq_nil_iff.mpr
    intro j hj
    obtain ⟨_, hmem, rfl⟩ := List.mem_map.mp hj
    obtain ⟨x, -, rfl⟩ := List.mem_map.mp hmem
    rfl

theorem Alive.portStep {q : Port} {i : PortInput} (h : Alive q.endpoint)
    (hi : ∀ c ∈ i.enqueues, Accepted c) : Alive (q.step i).endpoint := by
  rw [q.step_life i]
  apply Run.run_keeps h
  intro p j hj hp
  apply hp.lifeStep j
  intro c hc
  apply hi c
  rw [← q.life_enqueues i]
  exact List.mem_flatMap.mpr ⟨j, hj, hc⟩

theorem new_sendSide {cfg : LinkConfig} {l : SpaceWireLink} (h : SpaceWireLink.new cfg = .ok l) :
    l.txNcharQueue = [] ∧ l.txNcharOutstanding = 0 ∧ l.txDrainedEvt = true := by
  unfold SpaceWireLink.new at h
  dsimp only at h
  split at h <;> cases h
  exact ⟨rfl, rfl, rfl⟩

theorem alive_new {cfg : LinkConfig} {q : Port} (h : Port.new cfg = .ok q) : Alive q.endpoint := by
  obtain ⟨link, hlink, rfl⟩ := Port.new_ok h
  refine ⟨by simp, fun c hc => ?_⟩
  rw [(new_sendSide hlink).1] at hc
  cases hc

end SpaceWire
