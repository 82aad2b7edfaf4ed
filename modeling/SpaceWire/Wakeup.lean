import SpaceWire.Operations

namespace SpaceWire.Wakeup

open SpaceWireLink Run

/-- A parked transmit coroutine misses nothing of what happens to the link: it is woken, or it was
not to be woken before and the FSM still has it send what it had it send. -/
def Wakes (l l' : SpaceWireLink) : Prop :=
  l'.txWakeup = false → l.txWakeup = false ∧ stateTx l'.fsm.state = stateTx l.fsm.state

variable {l l' m : SpaceWireLink} {p p' : Endpoint}

theorem Wakes.refl (l : SpaceWireLink) : Wakes l l := fun h => ⟨h, rfl⟩

theorem Wakes.trans (h : Wakes l m) (h' : Wakes m l') : Wakes l l' := by
  intro hclear
  obtain ⟨hm, hmode'⟩ := h' hclear
  obtain ⟨hl, hmode⟩ := h hm
  exact ⟨hl, hmode'.trans hmode⟩

theorem onStateChange_txWakeup (l : SpaceWireLink) (out : Output) :
    (l.onStateChange out).txWakeup = true := rfl

theorem wakes_feedFsm (l : SpaceWireLink) (e : Event) : Wakes l (l.feedFsm e) := by
  intro hclear
  rw [feedFsm_fsm]
  unfold feedFsm at hclear
  dsimp only [LinkFSM.output] at hclear
  by_cases hs : (l.fsm.feed e).state = l.fsm.state
  · rw [if_neg (not_not.mpr hs)] at hclear
    exact ⟨hclear, congrArg stateTx hs⟩
  · rw [if_pos hs, onStateChange_txWakeup] at hclear
    cases hclear

theorem wakes_operated (h : Operated l l') : Wakes l l' := by
  induction h with
  | @passive l l' h =>
    intro hclear
    refine ⟨?_, congrArg (fun f => stateTx f.state) h.fsm⟩
    cases hw : l.txWakeup with
    | false => rfl
    | true =>
      rw [h.txWakeup hw] at hclear
      cases hclear
  | feed l e => exact wakes_feedFsm l e
  | trans _ _ ih ih' => exact ih.trans ih'

theorem wakes_enqueue (cs : List Character) (l : SpaceWireLink) :
    Wakes l (cs.foldl enqueueNchar l) := by
  apply run_related Wakes.refl Wakes.trans
  exact fun l c hclear => ⟨hclear, rfl⟩

/-- The transmit coroutine waits for a wake-up that is not set only while nothing is to be sent. -/
def Attended (p : Endpoint) : Prop :=
  p.txLoop = .parked → p.link.txWakeup = false → stateTx p.link.fsm.state = .reset

theorem Attended.wakes (h : Attended p) (htx : p'.txLoop = p.txLoop) (hw : Wakes p.link p'.link) :
    Attended p' := by
  intro hparked hclear
  obtain ⟨hbefore, hmode⟩ := hw hclear
  rw [hmode]
  exact h (htx.symm.trans hparked) hbefore

/-- The coroutine itself clears the wake-up only where it finds nothing to send. -/
theorem Attended.turn (h : Attended p) (ht : TxTurn p p') : Attended p' := by
  cases ht with
  | rest | ended => exact h
  | park _ hmode => exact fun _ _ => hmode
  | wake | pick | reject | drive | done =>
    intro hparked
    cases hparked

theorem Attended.lifeStep (h : Attended p) (i : LifeInput) : Attended (p.lifeStep i) := by
  have hmoved := moved p i
  generalize p.lifeStep i = p' at hmoved
  cases hmoved with
  | operated _ htx hop =>
    apply h.wakes htx
    exact (wakes_enqueue _ p.link).trans (wakes_operated hop)
  | started htx =>
    intro hparked
    rw [htx] at hparked
    cases hparked
  | turned ht => exact h.turn ht

theorem Attended.run (h : Attended p) (is : List LifeInput) :
    Attended (run Endpoint.lifeStep p is) :=
  run_keeps h fun _ i _ hp => hp.lifeStep i

/-- No wake-up is lost: in every state of every run of a link, with any number of starts and stops
in it, the transmit coroutine is left waiting only while the FSM sends nothing. -/
theorem parked_in_reset {cfg : LinkConfig} {p : Port} (hnew : Port.new cfg = .ok p)
    (is : List PortInput) (hparked : (run Port.step p is).endpoint.txLoop = .parked)
    (hclear : (run Port.step p is).link.txWakeup = false) :
    (run Port.step p is).link.fsm.output.txMode = .reset := by
  obtain ⟨link, -, heq⟩ := Port.new_ok hnew
  have hstart : Attended p.endpoint := by
    intro hinit
    rw [heq] at hinit
    cases hinit
  have hend := hstart.run (p.lifeTrace is)
  rw [← p.run_life] at hend
  exact hend hparked hclear

/-- A link that has been started, and waits in ErrorWait for its first NULL. -/
def toErrorWait : List PortInput :=
  [.start, .started, .txLoop, .call (.expire ⟨tick6p4Ns, .tick6p4us, 1⟩), .txLoop]

theorem parked_in_reset_errorWait : ∃ p, Port.new {} = .ok p ∧
    (run Port.step p toErrorWait).link.fsm.state = .errorWait ∧
    (run Port.step p toErrorWait).link.fsm.output.txMode = .reset :=
  ⟨_, rfl, by decide +kernel,
    @parked_in_reset {} _ rfl toErrorWait (by decide +kernel) (by decide +kernel)⟩

end SpaceWire.Wakeup
