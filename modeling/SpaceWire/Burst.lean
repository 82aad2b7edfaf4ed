import SpaceWire.Agreement
import SpaceWire.Lifecycle

namespace SpaceWire.Burst

open Run SpaceWireLink Accounting Traffic History Events Agreement

section fsm

variable {f : LinkFSM} {e : Event}

/-- No NULL has been sent in Started. -/
def NoNull (f : LinkFSM) : Prop := f.state = .started → f.sentNullInStarted = false

/-- No FCT has been sent in Connecting. -/
def NoFct (f : LinkFSM) : Prop := f.state = .connecting → f.sentFctInConnecting = false

/-- Until a NULL has been sent Connecting is not entered. -/
theorem NoNull.feed (h : NoNull f) (he : e ≠ .sentNull) :
    NoNull (f.feed e) ∧ ((f.feed e).state = .connecting → f.state = .connecting) := by
  have hsent : f.state = .started → (f.updateFlags e).sentNullInStarted = false := by
    intro hs
    rw [← Bool.not_eq_true, LinkFSM.updateFlags_sentNullInStarted]
    simp [h hs, he]
  have hfed := LinkFSM.fed f e
  generalize f.feed e = f', f.entered e = ss at hfed
  cases hfed with
  | stay => exact ⟨by simpa [NoNull] using hsent, by simp⟩
  | chain => exact ⟨fun _ => rfl, by simp⟩
  | enter hedge =>
    cases hedge with
    | start => exact ⟨fun _ => rfl, by simp⟩
    | connect hs hnull hgot =>
      rw [LinkFSM.updateFlags_state] at hs
      rw [hsent hs] at hnull
      cases hnull
    | wait | ready | run | drop => exact ⟨by simp [NoNull], by simp⟩

theorem NoFct.feed (h : NoFct f) (he : e ≠ .sentFct) :
    NoFct (f.feed e) ∧ ((f.feed e).state = .run → f.state = .run) := by
  have hsent : f.state = .connecting → (f.updateFlags e).sentFctInConnecting = false := by
    intro hs
    rw [← Bool.not_eq_true, LinkFSM.updateFlags_sentFctInConnecting]
    simp [h hs, he]
  have hfed := LinkFSM.fed f e
  generalize f.feed e = f', f.entered e = ss at hfed
  cases hfed with
  | stay => exact ⟨by simpa [NoFct] using hsent, by simp⟩
  | chain => exact ⟨by simp [NoFct], by simp⟩
  | enter hedge =>
    cases hedge with
    | connect => exact ⟨fun _ => rfl, by simp⟩
    | run hs hfct hgot =>
      rw [LinkFSM.updateFlags_state] at hs
      rw [hsent hs] at hfct
      cases hfct
    | wait | ready | start | drop => exact ⟨by simp [NoFct], by simp⟩

end fsm

variable {p : Endpoint} {l l' : SpaceWireLink} {i : LifeInput} {c : Character} {b : Bool}

/-- An FCT has been picked and the link has not been told that it is sent. -/
def FctHeld (p : Endpoint) : Prop :=
  ∃ c ∈ p.txLoop.underWay ++ justDriven p.txLoop, c.type = .fct

theorem rxCalls_not_sent {d : Call} (h : d ∈ l.rxCalls c) :
    d.event ≠ .sentNull ∧ d.event ≠ .sentFct := by
  obtain heq | heq | hev := Timers.rxCalls_cases h
  · simp [heq]
  · simp [heq]
  · generalize c.type = t, d.event = e at hev
    cases t <;> cases hev <;> simp

theorem feeds_sent {e : Event} (h : p.feeds .txLoop = some e) :
    (e = .sentNull → ¬ FctHeld p) ∧ (e = .sentFct → FctHeld p) := by
  cases htx : p.txLoop with
  | driven c wasNchar =>
    have hheld : FctHeld p ↔ c.type = .fct := by
      simp [FctHeld, htx, TxLoop.underWay, justDriven]
    rw [hheld]
    simp only [Endpoint.feeds, htx, sentEvent] at h
    split at h
    · rename_i hc
      cases h
      simp [hc]
    · split at h <;> cases h
      rename_i hc
      simpa using hc
  | top | parked | sending | dead => simp [Endpoint.feeds, htx] at h

theorem lifeCalls_sent {d : Call} (hticks : OnlyTicks p.link) (hd : d ∈ p.lifeCalls i) :
    (d.event = .sentNull → ¬ FctHeld p) ∧ (d.event = .sentFct → FctHeld p) := by
  have hother (h : d.event ≠ .sentNull ∧ d.event ≠ .sentFct) :
      (d.event = .sentNull → ¬ FctHeld p) ∧ (d.event = .sentFct → FctHeld p) :=
    ⟨fun he => absurd he h.1, fun he => absurd he h.2⟩
  cases i with
  | start | stop => cases hd
  | started =>
    obtain heq | heq := armCalls_events hd
    · exact hother (by simp [heq])
    · exact hother (by simp [heq])
  | input j =>
    cases j with
    | character c => exact hother (rxCalls_not_sent hd)
    | bit bit =>
      obtain ⟨c, -, hc⟩ := List.mem_flatMap.mp hd
      exact hother (rxCalls_not_sent hc)
    | act a =>
      obtain ⟨e, hfeeds, rfl⟩ := List.mem_map.mp hd
      rw [Option.mem_toList] at hfeeds
      by_cases hne : e = .rxErr
      · exact hother (by simp [hne])
      · obtain hx | ⟨rfl, -⟩ := feeds_cases hticks hfeeds hne
        · exact hother (by constructor <;> rintro rfl <;> cases hx)
        · exact feeds_sent hfeeds

theorem held_before (hno : i = .input (.act .txLoop) → p.txLoop = .top →
    stateTx p.link.fsm.state = .reset) (h : FctHeld (p.lifeStep i)) : FctHeld p := by
  have hloop {q : Endpoint} (heq : q.txLoop = p.txLoop) (hq : FctHeld q) : FctHeld p := by
    rwa [FctHeld, heq] at hq
  cases i with
  | start | stop => exact h
  | started => simp [FctHeld, Endpoint.lifeStep, TxLoop.underWay, justDriven] at h
  | input j =>
    cases j with
    | bit | character => exact h
    | act a =>
      by_cases ha : a = .txLoop
      · subst ha
        simp only [Endpoint.lifeStep, Endpoint.step, Endpoint.act] at h
        cases htx : p.txLoop with
        | top =>
          have hmode := hno rfl htx
          simp [FctHeld, Endpoint.stepTxLoop, htx, LinkFSM.output, hmode, TxLoop.underWay,
            justDriven] at h
        | parked =>
          simp only [Endpoint.stepTxLoop, htx] at h
          split at h <;> simp [FctHeld, htx, TxLoop.underWay, justDriven] at h
        | sending c wasNchar bits =>
          simpa [FctHeld, Endpoint.stepTxLoop, htx, TxLoop.underWay, justDriven] using h
        | driven c wasNchar =>
          simp [FctHeld, Endpoint.stepTxLoop, htx, TxLoop.underWay, justDriven] at h
        | dead => simp [FctHeld, Endpoint.stepTxLoop, htx, TxLoop.underWay, justDriven] at h
      · exact hloop (act_txLoop ha).1 h

/-- The transmit loop sends one character after the other: an FCT that it holds in Started comes
before the first NULL there. -/
structure Sequential (p : Endpoint) : Prop where
  ticks : OnlyTicks p.link
  stale : FctHeld p → NoNull p.link.fsm

theorem picks_fsm {p' : Endpoint} (h : p.Picks i l c b p') : p'.link.fsm = p.link.fsm := by
  obtain ⟨e, txLoop, rfl, -⟩ := h.after
  exact (quiet_picked h.picked).fsm

theorem picks_held {p' : Endpoint} (h : p.Picks i l c b p') (hheld : FctHeld p') :
    c.type = .fct := by
  obtain ⟨e, txLoop, rfl, rfl | ⟨bits, rfl⟩⟩ := h.after
  · simp [FctHeld, TxLoop.underWay, justDriven] at hheld
  · simpa [FctHeld, TxLoop.underWay, justDriven] using hheld

theorem Sequential.noNull (h : Sequential p) (hheld : FctHeld p) (i : LifeInput) :
    NoNull (p.lifeStep i).link.fsm ∧
      ((p.lifeStep i).link.fsm.state = .connecting → p.link.fsm.state = .connecting) := by
  apply lifeStep_fsm (I := fun f => NoNull f ∧
    (f.state = .connecting → p.link.fsm.state = .connecting))
  · exact ⟨h.stale hheld, id⟩
  · rintro f d hd ⟨hnull, hback⟩
    have hne : d.event ≠ .sentNull := fun he => (lifeCalls_sent h.ticks hd).1 he hheld
    obtain ⟨hkept, hconn⟩ := hnull.feed hne
    exact ⟨hkept, fun hs => hback (hconn hs)⟩

theorem Sequential.noFct (h : Sequential p) (hheld : ¬ FctHeld p) (hfct : NoFct p.link.fsm)
    (i : LifeInput) : NoFct (p.lifeStep i).link.fsm ∧
      ((p.lifeStep i).link.fsm.state = .run → p.link.fsm.state = .run) := by
  apply lifeStep_fsm (I := fun f => NoFct f ∧ (f.state = .run → p.link.fsm.state = .run))
  · exact ⟨hfct, id⟩
  · rintro f d hd ⟨hfct, hback⟩
    have hne : d.event ≠ .sentFct := fun he => hheld ((lifeCalls_sent h.ticks hd).2 he)
    obtain ⟨hkept, hrun⟩ := hfct.feed hne
    exact ⟨hkept, fun hs => hback (hrun hs)⟩

theorem Sequential.life (h : Sequential p) (i : LifeInput) : Sequential (p.lifeStep i) := by
  refine ⟨h.ticks.life i, fun hheld => ?_⟩
  obtain ⟨-, hno⟩ | ⟨link, char, b, hpick⟩ := p.nextPick_cases i
  · exact (h.noNull (held_before hno hheld) i).1
  · rw [picks_fsm hpick]
    intro hs
    have hpicked := hpick.picked
    rw [hs] at hpicked
    have htype := picks_held hpick hheld
    cases hpicked
    cases htype

theorem Sequential.enters (h : Sequential p) (hout : p.link.fsm.state ≠ .connecting)
    (hin : (p.lifeStep i).link.fsm.state = .connecting) :
    ¬ FctHeld (p.lifeStep i) ∧ NoFct (p.lifeStep i).link.fsm := by
  have hheld : ¬ FctHeld p := fun hheld => hout ((h.noNull hheld i).2 hin)
  refine ⟨fun hafter => ?_, (h.noFct hheld (fun hs => absurd hs hout) i).1⟩
  obtain ⟨-, hno⟩ | ⟨link, char, b, hpick⟩ := p.nextPick_cases i
  · exact hheld (held_before hno hafter)
  · rw [picks_fsm hpick] at hin
    exact hout hin

theorem kept_unsent : Kept (fun l => l.fsm.state = .connecting → l.fctSentThisConnecting = false)
    where
  feedFsm := by
    intro l e h hs
    rw [feedFsm_fsm] at hs
    rw [feedFsm_fctSentThisConnecting]
    split
    · rfl
    · rename_i hnew
      exact h (by_contra fun hne => hnew ⟨hs, hne⟩)
  frame := by
    intro l l' h hsame
    rw [hsame.fsm, hsame.fctSent]
    exact h
  read := fun _ h => h

theorem unsent_enters (hout : p.link.fsm.state ≠ .connecting)
    (hin : (p.lifeStep i).link.fsm.state = .connecting) :
    (p.lifeStep i).link.fctSentThisConnecting = false := by
  refine (kept_unsent.life (fun hs => absurd hs hout) i fun j _ => ?_) hin
  apply kept_unsent.step (fun hs => absurd hs hout) j
  · intro _ _ l' c b hp hs
    rw [(quiet_picked hp).fsm] at hs
    exact absurd hs hout
  · intro c e l l' _ _ _ _ hfed hh
    cases hh with
    | fct | nchar | discarded | other => exact hfed
    | overflow | unexpected => exact kept_unsent.feedFsm _ hfed

structure Configured (cfg : LinkConfig) (l : SpaceWireLink) : Prop where
  window : l.credit.maxRxCredit = maxRxCreditOf cfg
  capacity : l.rxFifoCapacityNchars = cfg.rxFifoCapacity
  onlyNulls : l.onlyNulls = cfg.onlyNulls

theorem kept_configured (cfg : LinkConfig) : Kept (Configured cfg) where
  feedFsm := by
    intro l e h
    refine ⟨(kept_maxRxCredit _).feedFsm e h.window, ?_, ?_⟩
    · rw [feedFsm_rxFifoCapacityNchars]
      exact h.capacity
    · rw [feedFsm_onlyNulls]
      exact h.onlyNulls
  frame := by
    intro l l' h hsame
    refine ⟨(kept_maxRxCredit _).frame h.window hsame, ?_, ?_⟩
    · rw [hsame.capacity]
      exact h.capacity
    · rw [hsame.onlyNulls]
      exact h.onlyNulls
  read := fun _ h => ⟨h.window, h.capacity, h.onlyNulls⟩

theorem Configured.life {cfg : LinkConfig} (h : Configured cfg p.link) (i : LifeInput) :
    Configured cfg (p.lifeStep i).link := by
  apply (kept_configured cfg).life h
  intro j _
  apply (kept_configured cfg).step h j
  · intro _ _ l' c b hp
    generalize stateTx p.link.fsm.state = mode at hp
    cases hp <;> exact ⟨h.window, h.capacity, h.onlyNulls⟩
  · intro c e l l' _ _ _ _ hfed hh
    cases hh with
    | fct | nchar => exact ⟨hfed.window, hfed.capacity, hfed.onlyNulls⟩
    | overflow | unexpected => exact (kept_configured cfg).feedFsm _ hfed
    | discarded | other => exact hfed

theorem Configured.window_life {cfg : LinkConfig} (h : Configured cfg p.link) (i : LifeInput) :
    (p.lifeStep i).link.credit.maxRxCredit = p.link.credit.maxRxCredit :=
  (h.life i).window.trans h.window.symm

/-- A link that was in Connecting or Run has not been dropped, has nothing to read and has picked
no FCT. -/
structure StillExchanging (l l' : SpaceWireLink) : Prop where
  exchanging : l'.fsm.state.exchanging = true
  back : l'.fsm.state = .connecting → l.fsm.state = .connecting
  unread : l'.rxNcharQueue = []
  fctSent : l'.fctSentThisConnecting = l.fctSentThisConnecting
  rxCredit : l'.credit.rxCredit = l.credit.rxCredit

theorem exchanging_feed {f : LinkFSM} {e : Event} (h : f.state.exchanging = true)
    (hd : f.drops e = false) : (f.feed e).state.exchanging = true ∧
      ((f.feed e).state = .connecting → f.state = .connecting) := by
  constructor
  · cases hx : (f.feed e).state.exchanging with
    | true => rfl
    | false =>
      rw [LinkFSM.drops_of_leaves h hx] at hd
      cases hd
  · intro hs
    cases hold : f.state with
    | connecting => rfl
    | run =>
      rw [LinkFSM.feed_run hold] at hs
      split at hs <;> simp [hold] at hs
    | errorReset | errorWait | ready | started => simp [hold, State.exchanging] at h

theorem kept_stillExchanging (l : SpaceWireLink) : Kept (fun l' =>
    l.errorResetCount ≤ l'.errorResetCount ∧
      (l'.errorResetCount = l.errorResetCount → StillExchanging l l')) where
  feedFsm := by
    intro m e ⟨hle, h⟩
    rw [feedFsm_errorResetCount]
    cases hd : m.fsm.drops e with
    | true => exact ⟨by simp; omega, fun heq => by simp at heq; omega⟩
    | false =>
      refine ⟨by simpa using hle, fun heq => ?_⟩
      obtain ⟨hx, hback, hq, hf, hr⟩ := h (by simpa using heq)
      obtain ⟨hx', hback'⟩ := exchanging_feed hx hd
      refine ⟨by rwa [feedFsm_fsm], ?_, ?_, ?_, ?_⟩
      · rw [feedFsm_fsm]
        exact fun hs => hback (hback' hs)
      · rw [feedFsm_rxNcharQueue]
        exact hq
      · rw [feedFsm_fctSentThisConnecting, if_neg fun hnew => hnew.2 (hback' hnew.1)]
        exact hf
      · rw [feedFsm_credit, hd]
        exact hr
  frame := by
    intro m m' ⟨hle, h⟩ hsame
    rw [hsame.resets]
    refine ⟨hle, fun heq => ?_⟩
    obtain ⟨hx, hback, hq, hf, hr⟩ := h heq
    refine ⟨?_, ?_, ?_, ?_, ?_⟩
    · rwa [hsame.fsm]
    · rwa [hsame.fsm]
    · rwa [hsame.rxQueue]
    · rwa [hsame.fctSent]
    · rwa [hsame.credit]
  read := by
    intro m c rest hq ⟨hle, h⟩
    refine ⟨hle, fun heq => ?_⟩
    have hnil := (h heq).unread
    rw [hq] at hnil
    cases hnil

def NoNchar (p : Endpoint) (i : LifeInput) : Prop :=
  ∀ j c, i = .input j → completes p j = some c → c.isNChar = false

instance : Decidable (NoNchar p i) :=
  match i with
  | .input j => decidable_of_iff (∀ c, completes p j = some c → c.isNChar = false)
      ⟨fun h _ c hj => LifeInput.input.inj hj ▸ h c, fun h c => h j c rfl⟩
  | .start | .started | .stop => isTrue fun _ _ hj => by cases hj

theorem stillExchanging_life (hno : i = .input (.act .txLoop) → p.txLoop = .top →
      stateTx p.link.fsm.state = .reset) (hi : NoNchar p i)
    (hx : p.link.fsm.state.exchanging = true) (hq : p.link.rxNcharQueue = [])
    (hx' : (p.lifeStep i).link.fsm.state.exchanging = true) :
    StillExchanging p.link (p.lifeStep i).link := by
  have hkept := kept_stillExchanging p.link
  have hself : StillExchanging p.link p.link := ⟨hx, id, hq, rfl, rfl⟩
  have hlife := hkept.life ⟨le_rfl, fun _ => hself⟩ i fun j hj => by
    apply hkept.step ⟨le_rfl, fun _ => hself⟩ j
    · intro hact htop
      have hmode := hno (hj.trans (congrArg LifeInput.input hact)) htop
      cases hs : p.link.fsm.state <;> simp [hs, stateTx, State.exchanging] at hmode hx
    · intro c e l l' hc _ _ _ hfed hh
      have hnchar := hi j c hj hc
      cases hh with
      | fct =>
        refine ⟨hfed.1, fun heq => ?_⟩
        obtain ⟨hx, hback, hq, hf, hr⟩ := hfed.2 heq
        exact ⟨hx, hback, hq, hf, hr⟩
      | overflow => exact hkept.feedFsm _ hfed
      | other => exact hfed
      | nchar hyes | unexpected hyes | discarded hyes =>
        rw [hyes] at hnchar
        cases hnchar
  obtain heq | hreset := lifeStep_dropped p i
  · exact hlife.2 heq
  · rw [hreset] at hx'
    cases hx'

/-- An endpoint with the characters that it has picked in Connecting and in Run. -/
structure Picking where
  endpoint : Endpoint
  connecting : List Character := []
  run : List Character := []

def Picking.step (s : Picking) (i : LifeInput) : Picking :=
  let picked := (s.endpoint.nextPick i).toList
  let state := s.endpoint.link.fsm.state
  { endpoint := s.endpoint.lifeStep i
    connecting := if state = .connecting then s.connecting ++ picked else s.connecting
    run := if state = .run then s.run ++ picked else s.run }

/-- The burst so far: `k` FCTs in Run besides the one of the handshake, and no other once the window
is full. -/
structure Granted (s : Picking) (k : Nat) (rest : List Character) : Prop where
  picked : s.run = List.replicate k (.ofType .fct) ++ rest
  none : ∀ c ∈ rest, c.type ≠ .fct
  credit : s.endpoint.link.credit.rxCredit = 8 * (k + if s.connecting = [] then 0 else 1)
  full : rest ≠ [] → s.endpoint.link.credit.maxRxCredit < s.endpoint.link.credit.rxCredit + 8

variable {cfg : LinkConfig} {s : Picking}

/-- What is known of an endpoint over its whole life. -/
structure Reached (cfg : LinkConfig) (p : Endpoint) : Prop where
  credit : CreditInv p.link
  regular : Regular p
  sequential : Sequential p
  configured : Configured cfg p.link

theorem Reached.life (h : Reached cfg p) (i : LifeInput) : Reached cfg (p.lifeStep i) :=
  ⟨h.credit.life i, h.regular.life i, h.sequential.life i, h.configured.life i⟩

/-- Either the handshake's FCT is still to be picked, and nothing else has been, or it has been
picked, and the picks since are NULLs in Connecting and those of the burst in Run. -/
structure BurstInv (cfg : LinkConfig) (s : Picking) : Prop extends Reached cfg s.endpoint where
  exchanging : s.endpoint.link.fsm.state.exchanging = true
  unread : s.endpoint.link.rxNcharQueue = []
  waiting : s.connecting = [] → ¬ FctHeld s.endpoint ∧ NoFct s.endpoint.link.fsm ∧
    s.endpoint.link.fsm.state = .connecting ∧ s.endpoint.link.fctSentThisConnecting = false
  handshake : s.connecting ≠ [] → s.endpoint.link.fctSentThisConnecting = true ∧
    ∃ n, s.connecting = .ofType .fct :: List.replicate n Encoder.null
  early : s.endpoint.link.fsm.state = .connecting → s.run = []
  granted : ∃ k rest, Granted s k rest

theorem BurstInv.quiet (h : BurstInv cfg s) (hnone : s.endpoint.nextPick i = none)
    (hno : i = .input (.act .txLoop) → s.endpoint.txLoop = .top →
      stateTx s.endpoint.link.fsm.state = .reset)
    (hi : NoNchar s.endpoint i)
    (hx : (s.endpoint.lifeStep i).link.fsm.state.exchanging = true) :
    BurstInv cfg (s.step i) := by
  have hstill := stillExchanging_life hno hi h.exchanging h.unread hx
  have hstep : s.step i = { s with endpoint := s.endpoint.lifeStep i } := by
    simp [Picking.step, hnone]
  rw [hstep]
  refine ⟨h.toReached.life i, hstill.exchanging, hstill.unread, fun hnil => ?_, fun hne => ?_,
    fun hs => ?_, ?_⟩
  · obtain ⟨hheld, hfct, hs, hsent⟩ := h.waiting hnil
    obtain ⟨hfct', hrun⟩ := h.sequential.noFct hheld hfct i
    refine ⟨fun hafter => hheld (held_before hno hafter), hfct', ?_, hstill.fctSent.trans hsent⟩
    obtain hconn | hrun' := Handshake.exchanging_iff.mp hx
    · exact hconn
    · rw [hrun hrun'] at hs
      cases hs
  · obtain ⟨hsent, hpicks⟩ := h.handshake hne
    exact ⟨hstill.fctSent.trans hsent, hpicks⟩
  · exact h.early (hstill.back hs)
  · obtain ⟨k, rest, hpicked, hnone, hcredit, hfull⟩ := h.granted
    refine ⟨k, rest, hpicked, hnone, hstill.rxCredit.trans hcredit, fun hne => ?_⟩
    dsimp only
    rw [h.configured.window_life i, hstill.rxCredit]
    exact hfull hne

theorem BurstInv.connecting_nil (h : BurstInv cfg s)
    (hf : s.endpoint.link.fctSentThisConnecting = false) : s.connecting = [] := by
  by_contra hne
  rw [(h.handshake hne).1] at hf
  cases hf

theorem picks_link {p' : Endpoint} (h : p.Picks i l c b p') :
    p'.link.credit = l.credit ∧ p'.link.fctSentThisConnecting = l.fctSentThisConnecting ∧
      p'.link.rxNcharQueue = p.link.rxNcharQueue := by
  obtain ⟨e, txLoop, rfl, -⟩ := h.after
  refine ⟨rfl, rfl, ?_⟩
  have hpicked := h.picked
  generalize stateTx p.link.fsm.state = mode at hpicked
  cases hpicked <;> rfl

theorem BurstInv.after {connecting run : List Character} (h : BurstInv cfg s)
    (hpick : s.endpoint.Picks i l c b (s.endpoint.lifeStep i))
    (hsent : l.fctSentThisConnecting = true)
    (hconn : ∃ n, connecting = .ofType .fct :: List.replicate n Encoder.null)
    (hearly : s.endpoint.link.fsm.state = .connecting → run = [])
    (hgranted : ∃ k rest, Granted { endpoint := s.endpoint.lifeStep i, connecting, run } k rest) :
    BurstInv cfg { endpoint := s.endpoint.lifeStep i, connecting, run } := by
  obtain ⟨-, hflag, hqueue⟩ := picks_link hpick
  have hfsm := picks_fsm hpick
  refine ⟨h.toReached.life i, ?_, hqueue.trans h.unread, fun hnil => ?_,
    fun _ => ⟨hflag.trans hsent, hconn⟩, ?_, hgranted⟩
  · dsimp only
    rw [hfsm]
    exact h.exchanging
  · obtain ⟨n, heq⟩ := hconn
    rw [heq] at hnil
    cases hnil
  · dsimp only
    rw [hfsm]
    exact hearly

theorem BurstInv.pick_connecting (h : BurstInv cfg s) (hwin : 8 ≤ maxRxCreditOf cfg)
    (hnulls : cfg.onlyNulls = false) (hs : s.endpoint.link.fsm.state = .connecting)
    (hpick : s.endpoint.Picks i l c b (s.endpoint.lifeStep i)) : BurstInv cfg (s.step i) := by
  have hstep : s.step i = { s with endpoint := s.endpoint.lifeStep i
                                   connecting := s.connecting ++ [c] } := by
    simp [Picking.step, hpick.nextPick, hs]
  have hnonulls := h.configured.onlyNulls.trans hnulls
  have hcred := (picks_link hpick).1
  have hwindow := h.configured.window_life i
  obtain ⟨k, rest, hpicked, hnone, hcredit, hfull⟩ := h.granted
  have hp := hpick.picked
  rw [hs] at hp
  rw [hstep]
  cases hp with
  | null hno =>
    have hsent : s.endpoint.link.fctSentThisConnecting = true := by
      simpa [picksFct, stateTx, hnonulls] using hno
    have hne : s.connecting ≠ [] := by
      intro hnil
      rw [(h.waiting hnil).2.2.2] at hsent
      cases hsent
    obtain ⟨n, hconn⟩ := (h.handshake hne).2
    apply h.after hpick hsent
    · refine ⟨n + 1, ?_⟩
      rw [hconn, List.replicate_succ', List.cons_append]
    · exact h.early
    · refine ⟨k, rest, hpicked, hnone, ?_, fun hr => ?_⟩
      · dsimp only
        rw [hcred, hcredit, if_neg hne, if_neg (by simp)]
      · dsimp only
        rw [hwindow, hcred]
        exact hfull hr
  | handshake hn hf hle =>
    have hnil := h.connecting_nil hf
    have hrun := h.early hs
    rw [hpicked] at hrun
    obtain ⟨hk, rfl⟩ := List.append_eq_nil_iff.mp hrun
    obtain rfl : k = 0 := by simpa using hk
    apply h.after hpick rfl
    · exact ⟨0, by rw [hnil]; rfl⟩
    · exact h.early
    · refine ⟨0, [], hpicked, hnone, ?_, fun hr => absurd rfl hr⟩
      dsimp only
      rw [hcred, hcredit, if_pos hnil, if_neg (by simp)]
      rfl
  | uncredited hn hf hlt =>
    have hzero := h.credit.fresh hs hf
    have hmax := h.configured.window
    omega

theorem full_of_no_fct (hno : l.picksFct .sendNullsFctsNcharsTimecodes = false)
    (hq : l.rxNcharQueue = []) (hcap : 8 ≤ l.rxFifoCapacityNchars) :
    l.credit.maxRxCredit < l.credit.rxCredit + 8 := by
  by_contra hle
  have hyes : l.picksFct .sendNullsFctsNcharsTimecodes = true := by
    apply CreditCounter.shouldSendFct_iff.mpr
    rw [hq]
    exact ⟨by simpa using hcap, by omega⟩
  rw [hyes] at hno
  cases hno

theorem BurstInv.over {k : Nat} {rest : List Character} (h : BurstInv cfg s)
    (hcap : 8 ≤ cfg.rxFifoCapacity) (hgranted : Granted s k rest)
    (hpick : s.endpoint.Picks i l c b (s.endpoint.lifeStep i))
    (hno : s.endpoint.link.picksFct .sendNullsFctsNcharsTimecodes = false) (hc : c.type ≠ .fct)
    (hsame : l.credit.rxCredit = s.endpoint.link.credit.rxCredit) :
    Granted { s with endpoint := s.endpoint.lifeStep i, run := s.run ++ [c] } k (rest ++ [c]) := by
  have hcred := (picks_link hpick).1
  have hcap' : 8 ≤ s.endpoint.link.rxFifoCapacityNchars := by
    rw [h.configured.capacity]
    exact hcap
  refine ⟨?_, fun d hd => ?_, ?_, fun _ => ?_⟩
  · dsimp only
    rw [hgranted.picked, List.append_assoc]
  · obtain hmem | heq := List.mem_append.mp hd
    · exact hgranted.none d hmem
    · rw [List.mem_singleton.mp heq]
      exact hc
  · dsimp only
    rw [hcred, hsame]
    exact hgranted.credit
  · dsimp only
    rw [h.configured.window_life i, hcred, hsame]
    exact full_of_no_fct hno h.unread hcap'

theorem BurstInv.pick_run (h : BurstInv cfg s) (hcap : 8 ≤ cfg.rxFifoCapacity)
    (hs : s.endpoint.link.fsm.state = .run)
    (hpick : s.endpoint.Picks i l c b (s.endpoint.lifeStep i)) : BurstInv cfg (s.step i) := by
  have hstep : s.step i = { s with endpoint := s.endpoint.lifeStep i, run := s.run ++ [c] } := by
    simp [Picking.step, hpick.nextPick, hs]
  have hne : s.connecting ≠ [] := by
    intro hnil
    rw [(h.waiting hnil).2.2.1] at hs
    cases hs
  obtain ⟨hsent, hconn⟩ := h.handshake hne
  have hcred := (picks_link hpick).1
  have hearly (run : List Character) : s.endpoint.link.fsm.state = .connecting → run = [] := by
    rw [hs]
    exact nofun
  obtain ⟨k, rest, hgranted⟩ := h.granted
  have hp := hpick.picked
  rw [hs] at hp
  rw [hstep]
  cases hp with
  | null hno =>
    apply h.after hpick hsent hconn (hearly _)
    exact ⟨k, _, h.over hcap hgranted hpick hno nofun rfl⟩
  | nchar hno hq hpos =>
    have hchar := h.regular.queued c (by simp [hq])
    have hc : c.type ≠ .fct := by
      intro ht
      simp [Character.isNChar, isNCharType, ht] at hchar
    apply h.after hpick hsent hconn (hearly _)
    exact ⟨k, _, h.over hcap hgranted hpick hno hc rfl⟩
  | fct hroom hle =>
    obtain ⟨hpicked, hnone, hcredit, hfull⟩ := hgranted
    obtain rfl : rest = [] := by
      by_contra hr
      have hlt := hfull hr
      omega
    apply h.after hpick hsent hconn (hearly _)
    refine ⟨k + 1, [], ?_, hnone, ?_, fun hr => absurd rfl hr⟩
    · dsimp only
      rw [hpicked, List.append_nil, List.append_nil, List.replicate_succ']
    · dsimp only
      rw [hcred, hcredit, if_neg hne]
      push_cast
      omega

theorem burstInv_step (h : BurstInv cfg s) (hcap : 8 ≤ cfg.rxFifoCapacity)
    (hwin : 8 ≤ maxRxCreditOf cfg) (hnulls : cfg.onlyNulls = false)
    (hi : NoNchar s.endpoint i) (hx : (s.step i).endpoint.link.fsm.state.exchanging = true) :
    BurstInv cfg (s.step i) := by
  obtain ⟨hnone, hno⟩ | ⟨link, char, b, hpick⟩ := s.endpoint.nextPick_cases i
  · exact h.quiet hnone hno hi hx
  · obtain hs | hs := Handshake.exchanging_iff.mp h.exchanging
    · exact h.pick_connecting hwin hnulls hs hpick
    · exact h.pick_run hcap hs hpick

/-- The picks of an initial burst of `count` FCTs: in Connecting one FCT and then NULLs, in Run the
other FCTs and then none. -/
structure InitialBurst (count : Int) (s : Picking) : Prop where
  connecting : s.connecting = [] ∨
    ∃ n, s.connecting = .ofType .fct :: List.replicate n Encoder.null
  reached : s.endpoint.link.fsm.state = .run → s.connecting ≠ []
  run : ∃ (k : Nat) (rest : List Character), s.run = List.replicate k (.ofType .fct) ++ rest ∧
    (∀ c ∈ rest, c.type ≠ .fct) ∧ k ≤ count - 1 ∧ (rest ≠ [] → k = count - 1)

/-- The credit window holds what the FIFO has room for, up to seven FCTs. -/
theorem BurstInv.initialBurst (h : BurstInv cfg s) (hcap : 8 ≤ cfg.rxFifoCapacity)
    (hmax : maxRxCreditOf cfg = min cfg.rxFifoCapacity 56) :
    InitialBurst (min (cfg.rxFifoCapacity / 8) 7) s := by
  refine ⟨?_, fun hs hnil => ?_, ?_⟩
  · by_cases hnil : s.connecting = []
    · exact .inl hnil
    · exact .inr (h.handshake hnil).2
  · rw [(h.waiting hnil).2.2.1] at hs
    cases hs
  · obtain ⟨k, rest, hpicked, hnone, hcredit, hfull⟩ := h.granted
    have hwindow := h.configured.window
    have hle := h.credit.inRange.rx_le
    refine ⟨k, rest, hpicked, hnone, ?_⟩
    by_cases hnil : s.connecting = []
    · have hrun := h.early (h.waiting hnil).2.2.1
      rw [hpicked] at hrun
      obtain ⟨hk, rfl⟩ := List.append_eq_nil_iff.mp hrun
      obtain rfl : k = 0 := by simpa using hk
      exact ⟨by push_cast; omega, fun hr => absurd rfl hr⟩
    · rw [if_neg hnil] at hcredit
      refine ⟨by omega, fun hr => ?_⟩
      have hlt := hfull hr
      omega

theorem new_onlyNulls (hnew : SpaceWireLink.new cfg = .ok l) : l.onlyNulls = cfg.onlyNulls := by
  unfold SpaceWireLink.new at hnew
  dsimp only at hnew
  split at hnew <;> cases hnew
  rfl

theorem reached_new (hnew : SpaceWireLink.new cfg = .ok l) : Reached cfg { link := l } := by
  obtain ⟨hcredit, hrange, hfsm, hcapacity, hrx, -, hsent, htx, -⟩ := new_ok hnew
  obtain ⟨-, htimers, -⟩ := new_idle hnew
  refine ⟨⟨hrange, ?_, ?_⟩, ⟨?_, ?_⟩, ⟨?_, ?_⟩, ⟨?_, hcapacity, new_onlyNulls hnew⟩⟩
  · intro
    rw [hcredit]
  · intro _ _
    rw [hcredit]
  · rw [htx]
    simp
  · simp [TxLoop.underWay]
  · simp [OnlyTicks, htimers]
  · simp [FctHeld, TxLoop.underWay, justDriven]
  · rw [hcredit]

theorem burstInv_enters (h : Reached cfg p) (hout : p.link.fsm.state ≠ .connecting)
    (hin : (p.lifeStep i).link.fsm.state = .connecting)
    (hempty : (p.lifeStep i).link.rxNcharQueue = []) :
    BurstInv cfg { endpoint := p.lifeStep i } := by
  have hreached := h.life i
  obtain ⟨hheld, hfct⟩ := h.sequential.enters hout hin
  have hsent := unsent_enters hout hin
  refine ⟨hreached, ?_, hempty, fun _ => ⟨hheld, hfct, hin, hsent⟩, fun hne => absurd rfl hne,
    fun _ => rfl, 0, [], rfl, ?_, ?_, fun hr => absurd rfl hr⟩
  · rw [hin]
    rfl
  · simp
  · rw [hreached.credit.fresh hin hsent]
    rfl

/-- From entry to Connecting with nothing to read, through Connecting and Run and until an N-Char is
received, the picks are those of a burst of `initial_fct_count` FCTs. -/
theorem initial_burst (hnew : SpaceWireLink.new cfg = .ok l) (hcap : 8 ≤ cfg.rxFifoCapacity)
    (hmax : cfg.maxRxCredit = none) (hnulls : cfg.onlyNulls = false) (before : List LifeInput)
    (hp : p = run Endpoint.lifeStep { link := l } before)
    (hout : p.link.fsm.state ≠ .connecting)
    (hin : (p.lifeStep i).link.fsm.state = .connecting)
    (hempty : (p.lifeStep i).link.rxNcharQueue = []) (is : List LifeInput)
    (hstay : Always Picking.step (fun s => s.endpoint.link.fsm.state.exchanging = true)
      { endpoint := p.lifeStep i } is)
    (hquiet : Guarded Picking.step (fun s j => NoNchar s.endpoint j)
      { endpoint := p.lifeStep i } is) :
    ∃ count, CreditCounter.initialFctCount cfg.rxFifoCapacity = .ok count ∧
      InitialBurst count (run Picking.step { endpoint := p.lifeStep i } is) := by
  have hreached : Reached cfg p := by
    rw [hp]
    exact run_keeps (reached_new hnew) fun q j _ hq => hq.life j
  have hwindow : maxRxCreditOf cfg = min cfg.rxFifoCapacity 56 := by
    simp only [maxRxCreditOf, hmax, maxCredit]
  have hinv : Always Picking.step (BurstInv cfg) { endpoint := p.lifeStep i } is := by
    apply always_of_guarded (burstInv_enters hreached hout hin hempty) _
      (hquiet.and hstay.guarded)
    rintro s j hs ⟨hj, hx⟩
    exact burstInv_step hs hcap (by omega) hnulls hj hx
  refine ⟨_, ?_, hinv.last.initialBurst hcap hwindow⟩
  unfold CreditCounter.initialFctCount
  rw [if_neg (by omega)]
  rfl

def beforeConnecting : List LifeInput := .start :: .started :: (bringUp.take 7).map .input

theorem initial_burst_bringUp :
    ∃ link, SpaceWireLink.new { linkStart := true, rxFifoCapacity := 20 } = .ok link ∧
      ∃ p, p = run Endpoint.lifeStep { link } beforeConnecting ∧
        ∃ count, CreditCounter.initialFctCount 20 = .ok count ∧
          InitialBurst count (run Picking.step { endpoint := p.lifeStep (.input (.act .txLoop)) }
            ((bringUp.drop 8 ++ List.replicate 5 (Input.act .txLoop)).map .input)) :=
  ⟨_, rfl, _, rfl, @initial_burst _ _ (.input (.act .txLoop))
    { linkStart := true, rxFifoCapacity := 20 } rfl (by decide) rfl rfl beforeConnecting rfl
    (by decide +kernel) (by decide +kernel) (by decide +kernel) _ (by decide +kernel)
    (by decide +kernel)⟩

/-- A link that sends only NULLs picks a NULL first in Connecting. -/
theorem only_nulls_no_burst :
    ∃ link, SpaceWireLink.new { linkStart := true, onlyNulls := true } = .ok link ∧
      ∃ p, p = run Endpoint.lifeStep { link } beforeConnecting ∧
        p.link.fsm.state = .started ∧
        (p.lifeStep (.input (.act .txLoop))).link.fsm.state = .connecting ∧
        (p.lifeStep (.input (.act .txLoop))).link.rxNcharQueue = [] ∧
        ∃ s, s = run Picking.step { endpoint := p.lifeStep (.input (.act .txLoop)) }
            [.input (.act .txLoop)] ∧
          s.endpoint.link.fsm.state = .connecting ∧ s.connecting = [Encoder.null] ∧
          ¬ InitialBurst 7 s := by
  refine ⟨_, rfl, _, rfl, by decide +kernel, by decide +kernel, by decide +kernel, _, rfl,
    by decide +kernel, by decide +kernel, fun h => ?_⟩
  have hpicks := h.connecting
  rw [show Picking.connecting _ = [Encoder.null] by decide +kernel] at hpicks
  obtain hnil | ⟨n, hfct⟩ := hpicks
  · cases hnil
  · cases hfct

end SpaceWire.Burst
