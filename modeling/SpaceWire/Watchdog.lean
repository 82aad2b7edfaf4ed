import SpaceWire.Burst
import SpaceWire.ErrorResetWait
import SpaceWire.HeldSince

namespace SpaceWire

open Run SpaceWireLink Events

namespace LinkFSM

theorem feed_gotNullLatched (f : LinkFSM) (e : Event) :
    (f.feed e).gotNullLatched = true ↔
      f.drops e = false ∧ (f.gotNullLatched = true ∨ e = .gotNull) := by
  rw [← updateFlags_gotNullLatched]
  have hfed := f.fed e
  unfold drops
  generalize f.feed e = f', f.entered e = ss at hfed
  cases hfed with
  | stay hstay => by_cases hs : f.state = .errorReset <;> simp [hs]
  | chain hedge hen => simp [enter]
  | enter hedge hr =>
    cases hedge with
    | drop hs =>
      rw [updateFlags_state] at hs
      simp [enter, hs]
    | wait | ready | start | connect | run => simp [enter]

theorem drops_rxErr {f : LinkFSM} (hs : f.state ≠ .errorReset) : f.drops .rxErr = true := by
  rw [drops_iff]
  refine ⟨?_, hs⟩
  cases hf : f.state with
  | errorReset => exact absurd hf hs
  | errorWait => simp [feed_errorWait hf, waitStateError]
  | ready => simp [feed_ready hf, waitStateError]
  | started => simp [feed_started hf, waitStateError]
  | connecting => simp [feed_connecting hf, connectingError]
  | run => simp [feed_run hf]

end LinkFSM

namespace Watchdog

def Transition (q : Port) (i : PortInput) : Prop :=
  (∃ di, i = .line di) ∧ q.monitor.task = some .receiving

def TimesOut (q : Port) (i : PortInput) : Prop :=
  i = .timeout ∧ q.monitor.task = some .receiving

/-- The peer has been heard and the monitor says it has gone silent since. -/
def Silent (q : Port) : Prop := q.link.fsm.gotNullLatched = true ∧ q.monitor.disconnected = true

/-- The monitor runs into its timeout after the peer has been heard. -/
def FallsSilent (q : Port) (i : PortInput) : Prop :=
  TimesOut q i ∧ q.link.fsm.gotNullLatched = true

/-- Neither does the monitor see a transition nor is the link dropped. -/
def StaysSilent (q : Port) (i : PortInput) : Prop :=
  ¬ Transition q i ∧ (q.step i).link.errorResetCount = q.link.errorResetCount

/-- No NULL is received, and the one that is latched is lost with the link only. -/
structure Unheard (l l' : SpaceWireLink) : Prop where
  resets : l.errorResetCount ≤ l'.errorResetCount
  gotNull : l'.fsm.gotNullLatched = true ↔
    l.fsm.gotNullLatched = true ∧ l'.errorResetCount = l.errorResetCount

variable {l l' m : SpaceWireLink} {cs : List Call} {p : Endpoint} {q : Port} {i : PortInput}

theorem Unheard.of_eq (hfsm : l'.fsm = l.fsm) (hcount : l'.errorResetCount = l.errorResetCount) :
    Unheard l l' := ⟨hcount.ge, by simp [hfsm, hcount]⟩

theorem Unheard.refl (l : SpaceWireLink) : Unheard l l := .of_eq rfl rfl

theorem Unheard.trans (h : Unheard l m) (h' : Unheard m l') : Unheard l l' := by
  have hresets := h.resets
  have hresets' := h'.resets
  refine ⟨hresets.trans hresets', ?_⟩
  rw [h'.gotNull, h.gotNull, and_assoc]
  apply and_congr_right
  intro _
  omega

theorem unheard_feedFsm (l : SpaceWireLink) {e : Event} (he : e ≠ .gotNull) :
    Unheard l (l.feedFsm e) := by
  have hcount := l.feedFsm_errorResetCount e
  have hgot := l.fsm.feed_gotNullLatched e
  cases hd : l.fsm.drops e with
  | false =>
    rw [hd, if_neg Bool.false_ne_true] at hcount
    refine ⟨hcount.ge, ?_⟩
    rw [feedFsm_fsm, hgot]
    simp [hd, he, hcount]
  | true =>
    rw [hd, if_pos rfl] at hcount
    refine ⟨hcount ▸ Nat.le_succ _, ?_⟩
    rw [feedFsm_fsm, hgot]
    simp [hd, hcount]

theorem unheard_chain (h : History.Chain l cs l')
    (hcs : ∀ c ∈ cs, c.event ≠ .gotNull) : Unheard l l' := by
  induction h with
  | done hq => exact .of_eq hq.fsm hq.resets
  | @call l l' c cs hq h ih =>
    apply Unheard.trans (.of_eq hq.fsm hq.resets)
    apply (unheard_feedFsm c.link (hcs c (by simp))).trans
    exact ih fun d hd => hcs d (List.mem_cons_of_mem c hd)

/-- Only what comes from the line can be a NULL. -/
theorem unheard_lifeStep (hticks : OnlyTicks p.link) {i : LifeInput}
    (hi : ∀ j, i = .input j → ∃ a, j = .act a) : Unheard p.link (p.lifeStep i).link := by
  obtain ⟨l, htold, hchain⟩ := p.lifeStep_chain i
  have hresets : l.errorResetCount = p.link.errorResetCount := htold.resets (by simp)
  apply (Unheard.of_eq htold.fsm hresets).trans
  apply unheard_chain hchain
  intro c hc heq
  cases i with
  | start | stop => cases hc
  | started =>
    obtain h | h := armCalls_events hc
    · simp [h] at heq
    · simp [h] at heq
  | input j =>
    obtain ⟨a, rfl⟩ := hi j rfl
    obtain ⟨e, hfeeds, rfl⟩ := List.mem_map.mp hc
    rw [Option.mem_toList] at hfeeds
    subst heq
    obtain hext | ⟨-, h | ⟨h, -⟩⟩ := Agreement.feeds_cases hticks hfeeds (by simp)
    · cases hext
    · cases h
    · cases h

theorem unheard_life (hticks : OnlyTicks p.link) {is : List LifeInput}
    (hi : ∀ i ∈ is, ∀ j, i = .input j → ∃ a, j = .act a) :
    Unheard p.link (run Endpoint.lifeStep p is).link := by
  induction is generalizing p with
  | nil => exact .refl p.link
  | cons i is ih =>
    apply (unheard_lifeStep hticks (hi i (by simp))).trans
    exact ih (hticks.life i) fun j hj => hi j (List.mem_cons_of_mem i hj)

theorem onlyTicks_step (h : OnlyTicks q.link) (i : PortInput) : OnlyTicks (q.step i).link := by
  rw [Port.link, q.step_life]
  exact run_keeps (I := fun p : Endpoint => OnlyTicks p.link) h fun p i _ h => h.life i

theorem unheard_step (hticks : OnlyTicks q.link) (hi : ¬ Transition q i) :
    Unheard q.link (q.step i).link := by
  rw [Port.link, Port.link, q.step_life]
  apply unheard_life hticks
  intro li hli j hj
  subst hj
  cases i with
  | start | started =>
    simp only [Port.life] at hli
    split at hli <;> simp at hli
  | stop => simp [Port.life] at hli
  | line di =>
    have htask : q.monitor.task ≠ some .receiving := fun ht => hi ⟨⟨di, rfl⟩, ht⟩
    simp [Port.life, Port.inputs, SpaceWireMonitor.edge, htask] at hli
  | call | watchdog =>
    simp only [Port.life, Port.inputs] at hli
    split at hli <;> simp at hli
    exact ⟨_, hli⟩
  | txLoop =>
    simp only [Port.life, Port.inputs, List.map_replicate, List.mem_replicate] at hli
    exact ⟨_, LifeInput.input.inj hli.2⟩
  | driver | monitor | timeout => simp [Port.life, Port.inputs] at hli

theorem step_disconnected (q : Port) (i : PortInput) :
    (q.step i).monitor.disconnected = true ↔
      TimesOut q i ∨ q.monitor.disconnected = true ∧ ¬ Transition q i := by
  unfold TimesOut Transition
  cases i with
  | start =>
    obtain ⟨-, heq⟩ | ⟨-, -, heq⟩ | ⟨-, -, heq⟩ := q.step_start_cases <;> simp [heq, Port.setLink]
  | started =>
    obtain ⟨-, heq⟩ | ⟨-, -, heq⟩ | ⟨-, -, heq⟩ := q.step_started_cases <;>
      simp [heq, SpaceWireMonitor.onBit]
  | stop => simp [Port.step, Port.stop, SpaceWireMonitor.stop]
  | call | watchdog =>
    simp only [Port.step]
    split <;> simp
  | txLoop =>
    obtain ⟨endpoint, driver, txWait, heq, -⟩ := q.txTurn_cases
    simp [show q.step .txLoop = _ from heq]
  | driver => simp [Port.step]
  | monitor =>
    simp only [Port.step, SpaceWireMonitor.resume]
    split <;> simp
  | line di =>
    simp only [Port.step, Port.lineBit, SpaceWireMonitor.edge]
    split
    · cases di <;> simp [*]
    · simp [*]
  | timeout =>
    simp only [Port.step, SpaceWireMonitor.timeout]
    split <;> simp [*]

/-- The peer falls silent by a timeout, and stays so until it is heard or the link is dropped. -/
theorem silent_step (hticks : OnlyTicks q.link) (i : PortInput) :
    Silent (q.step i) ↔ FallsSilent q i ∨ Silent q ∧ StaysSilent q i := by
  unfold Silent FallsSilent StaysSilent
  rw [step_disconnected]
  by_cases hseen : Transition q i
  · have htimes : ¬ TimesOut q i := by
      rintro ⟨rfl, -⟩
      obtain ⟨⟨di, hdi⟩, -⟩ := hseen
      cases hdi
    simp [hseen, htimes]
  · have hlink (ht : TimesOut q i) : (q.step i).link.errorResetCount = q.link.errorResetCount := by
      rw [ht.1]
      rfl
    rw [(unheard_step hticks hseen).gotNull]
    tauto

theorem poll_drops (htask : q.disconnectTask = true) (hs : q.link.fsm.state ≠ .errorReset)
    (hsilent : Silent q) :
    (q.step .watchdog).link.errorResetCount = q.link.errorResetCount + 1 := by
  have hrx : q.link.fsm.output.rxEnabled = true := by
    cases hf : q.link.fsm.state <;> simp_all [LinkFSM.output, stateRxEnabled]
  have hpoll : (q.step .watchdog).link = q.link.feedFsm .rxErr := by
    obtain ⟨hgot, hdisc⟩ := hsilent
    simp only [Port.link] at hrx hgot ⊢
    simp [Port.step, htask, Endpoint.act, disconnectWatchdog, hrx, hgot, hdisc]
  rw [hpoll, feedFsm_errorResetCount, if_pos (LinkFSM.drops_rxErr hs)]

theorem poll_rests (h : ¬ (q.disconnectTask = true ∧ q.link.fsm.state ≠ .errorReset ∧ Silent q)) :
    q.step .watchdog = q := by
  simp only [Port.step]
  split
  · rename_i htask
    have hlink : q.endpoint.link.disconnectWatchdog q.monitor.disconnected = q.endpoint.link := by
      unfold disconnectWatchdog
      split
      · rfl
      · split
        · rfl
        · refine if_neg fun hdisc => h ⟨htask, fun hs => ?_, ?_, hdisc⟩
          · simp_all [LinkFSM.output, stateRxEnabled, Port.link]
          · simpa [Port.link] using ‹¬ q.endpoint.link.fsm.gotNullLatched = false›
    simp only [Endpoint.act, hlink]
  · rfl

theorem new_quiet {cfg : LinkConfig} (h : Port.new cfg = .ok q) :
    OnlyTicks q.link ∧ ¬ Silent q := by
  obtain ⟨link, hnew, rfl⟩ := Port.new_ok h
  refine ⟨?_, fun hsilent => Bool.false_ne_true hsilent.2⟩
  obtain ⟨-, htimers, -⟩ := Accounting.new_idle hnew
  simp [OnlyTicks, Port.link, htimers]

/-- Over the whole life of a link the poll of the watchdog drops it exactly when the monitor has
run into its timeout since the first NULL, and there has been no transition and no drop after
that; else the poll does nothing. -/
theorem silent_peer_dropped {cfg : LinkConfig} (h : Port.new cfg = .ok q) (is : List PortInput) :
    let r := run Port.step q is
    ((r.step .watchdog).link.errorResetCount = r.link.errorResetCount + 1 ↔
        r.disconnectTask = true ∧ r.link.fsm.state ≠ .errorReset ∧
          HeldSince Port.step FallsSilent StaysSilent q is) ∧
      ((r.step .watchdog).link.errorResetCount = r.link.errorResetCount →
        r.step .watchdog = r) := by
  intro r
  obtain ⟨hticks, hquiet⟩ := new_quiet h
  have hsilent : Silent r ↔ HeldSince Port.step FallsSilent StaysSilent q is := by
    apply heldSince_iff (I := fun q : Port => OnlyTicks q.link) hticks hquiet
    · exact fun q i h => onlyTicks_step h i
    · exact fun q i h => silent_step h i
  rw [← hsilent]
  by_cases hcond : r.disconnectTask = true ∧ r.link.fsm.state ≠ .errorReset ∧ Silent r
  · have hdrop := poll_drops hcond.1 hcond.2.1 hcond.2.2
    exact ⟨iff_of_true hdrop hcond, fun hsame => by omega⟩
  · have hrest := poll_rests hcond
    refine ⟨iff_of_false (fun hdrop => ?_) hcond, fun _ => hrest⟩
    rw [hrest] at hdrop
    omega

theorem silent_peer_dropped_in_run : ∃ q, Port.new { linkStart := true } = .ok q ∧
    let is := Port.handshake ++ [.timeout]
    (run Port.step q is).link.fsm.state = .run ∧
      HeldSince Port.step FallsSilent StaysSilent q is := by
  have hstart : ∃ q, Port.new { linkStart := true } = .ok q ∧
      (run Port.step q (Port.handshake ++ [.timeout])).link.fsm.state = .run ∧
      let r := run Port.step q (Port.handshake ++ [.timeout])
      (r.step .watchdog).link.errorResetCount = r.link.errorResetCount + 1 :=
    ⟨_, rfl, by decide +kernel, by decide +kernel⟩
  obtain ⟨q, h, hrun, hdrop⟩ := hstart
  exact ⟨q, h, hrun, ((silent_peer_dropped h _).1.mp hdrop).2.2⟩

end Watchdog

end SpaceWire
