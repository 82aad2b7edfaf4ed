import SpaceWire.Endpoint
import SpaceWire.Run

namespace SpaceWire.Accounting

open Run SpaceWireLink

/-- Two links that agree on all that credit accounting reads. -/
structure SameAccounts (l l' : SpaceWireLink) : Prop where
  fsm : l'.fsm = l.fsm
  credit : l'.credit = l.credit
  capacity : l'.rxFifoCapacityNchars = l.rxFifoCapacityNchars
  rxQueue : l'.rxNcharQueue = l.rxNcharQueue
  fctSent : l'.fctSentThisConnecting = l.fctSentThisConnecting
  runReached : l'.runReached = l.runReached
  onlyNulls : l'.onlyNulls = l.onlyNulls
  resets : l'.errorResetCount = l.errorResetCount

theorem SameAccounts.of_eq {l l' : SpaceWireLink} (h : (l'.fsm, l'.credit,
    l'.rxFifoCapacityNchars, l'.rxNcharQueue, l'.fctSentThisConnecting, l'.runReached,
    l'.onlyNulls, l'.errorResetCount) = (l.fsm, l.credit, l.rxFifoCapacityNchars, l.rxNcharQueue,
    l.fctSentThisConnecting, l.runReached, l.onlyNulls, l.errorResetCount)) :
    SameAccounts l l' := by
  simp only [Prod.mk.injEq] at h
  obtain ⟨h1, h2, h3, h4, h5, h6, h7, h8⟩ := h
  exact ⟨h1, h2, h3, h4, h5, h6, h7, h8⟩

theorem SameAccounts.trans {l l' l'' : SpaceWireLink} (h : SameAccounts l l')
    (h' : SameAccounts l' l'') : SameAccounts l l'' :=
  ⟨h'.fsm.trans h.fsm, h'.credit.trans h.credit, h'.capacity.trans h.capacity,
    h'.rxQueue.trans h.rxQueue, h'.fctSent.trans h.fctSent, h'.runReached.trans h.runReached,
    h'.onlyNulls.trans h.onlyNulls, h'.resets.trans h.resets⟩

/-- Properties kept by every operation that neither grants nor uses credit. -/
structure Kept (P : SpaceWireLink → Prop) : Prop where
  feedFsm : ∀ {l} e, P l → P (l.feedFsm e)
  frame : ∀ {l l'}, P l → SameAccounts l l' → P l'
  read : ∀ {l c rest}, l.rxNcharQueue = c :: rest → P l → P { l with rxNcharQueue := rest }

theorem sameAccounts_enqueue (cs : List Character) (l : SpaceWireLink) :
    SameAccounts l (cs.foldl enqueueNchar l) := by
  apply run_related (R := SameAccounts) (fun l => .of_eq rfl) SameAccounts.trans
  exact fun l c => .of_eq rfl

namespace Kept

variable {P : SpaceWireLink → Prop} {p : Endpoint} {l l' : SpaceWireLink}

theorem charSent (hP : Kept P) (h : P l) (char : Character) (wasNchar : Bool) :
    P (l.charSent char wasNchar) := by
  have hfed : P (if char.type = .null then l.feedFsm .sentNull
      else if char.type = .fct then l.feedFsm .sentFct else l) := by
    split
    · exact hP.feedFsm _ h
    · split
      · exact hP.feedFsm _ h
      · exact h
  obtain ⟨n, d, heq⟩ := l.charSent_eq char wasNchar
  rw [heq]
  exact hP.frame hfed (.of_eq rfl)

theorem turn (hP : Kept P) (h : P p.link) {p' : Endpoint} (ht : TxTurn p p')
    (hpick : p.txLoop = .top → ∀ l' c b,
      p.link.Picked (stateTx p.link.fsm.state) l' c b → P l') : P p'.link := by
  cases ht with
  | rest | ended | wake | drive => exact h
  | park => exact hP.frame h (.of_eq rfl)
  | pick htx _ hp | reject htx _ hp => exact hP.frame (hpick htx _ _ _ hp) (.of_eq rfl)
  | done => exact hP.charSent h _ _

theorem act (hP : Kept P) (h : P p.link) (a : Action)
    (hpick : a = .txLoop → p.txLoop = .top → ∀ l' c b,
      p.link.Picked (stateTx p.link.fsm.state) l' c b → P l') : P (p.act a).link := by
  cases a with
  | feed e =>
    simp only [Endpoint.act]
    split
    · exact hP.feedFsm _ h
    · exact h
  | expire task =>
    have hframe : P { p.link with scheduledTimers := p.link.scheduledTimers.erase task } :=
      hP.frame h (.of_eq rfl)
    simp only [Endpoint.act, runTimer]
    split
    · split
      · exact hP.feedFsm _ hframe
      · exact hframe
    · exact h
  | watchdog disconnected =>
    simp only [Endpoint.act, disconnectWatchdog]
    repeat' split
    all_goals first | exact h | exact hP.feedFsm _ h
  | txLoop =>
    exact hP.turn h p.txTurn (hpick rfl)
  | sendPacket data terminator =>
    simp only [Endpoint.act, sendPacket]
    cases SpaceWirePacket.create data terminator with
    | error err => exact h
    | ok pkt => exact hP.frame h (sameAccounts_enqueue pkt.nchars p.link)
  | sendChar char =>
    simp only [Endpoint.act, sendChar]
    cases char.isNChar with
    | false => exact h
    | true => exact hP.frame h (sameAccounts_enqueue [char] p.link)
  | recvPacket =>
    simp only [Endpoint.act, Endpoint.stepRecvPacket]
    cases hq : p.link.rxNcharQueue with
    | nil => exact h
    | cons c rest =>
      have hread := hP.read hq h
      dsimp only
      split
      · rw [Endpoint.returnPacket_link]; exact hread
      · rw [Endpoint.returnPacket_link]; exact hread
      · exact hread

theorem rxCharacter (hP : Kept P) (h : P l) (c : Character)
    (hhandled : ∀ e l', isHardError c.error = false → characterEvent c.type = some e →
      P (l.feedFsm e) → Handled (l.feedFsm e) c l' → P l') : P (l.rxCharacter c) := by
  unfold SpaceWireLink.rxCharacter dispatch
  cases herr : isHardError c.error with
  | true => exact hP.feedFsm _ h
  | false =>
    cases hev : characterEvent c.type with
    | none => exact h
    | some e => exact hhandled e _ herr hev (hP.feedFsm e h) (onRxCharacter_handled _ c)

end Kept

def completes (p : Endpoint) : Input → Option Character
  | .act _ => none
  | .bit bit => (p.link.decoder.feed bit).2.head?
  | .character character => some character

theorem start_cases {Q : SpaceWireLink → Prop} {cfg : LinkConfig} {p : Endpoint}
    (hnew : ∀ l, SpaceWireLink.new cfg = .ok l →
      Q ({ l with started := true }.startTimer tick6p4Ns .tick6p4us))
    (hfed : ∀ l e, e = .autoStart ∨ e = .linkStart → Q l → Q (l.feedFsm e))
    (h : Endpoint.start cfg = .ok p) : Q p.link ∧ p = { link := p.link } := by
  have hif (e : Event) (he : e = .autoStart ∨ e = .linkStart) (b : SpaceWireLink → Bool)
      {m : SpaceWireLink} (hm : Q m) : Q (if b m then m.feedFsm e else m) := by
    split
    · exact hfed _ _ he hm
    · exact hm
  unfold Endpoint.start at h
  cases hl : SpaceWireLink.new cfg with
  | error err => simp [hl] at h
  | ok l =>
    simp only [hl, SpaceWireLink.start] at h
    split at h
    · cases h
    · rename_i l' hl'
      cases h
      split at hl'
      · cases hl'
      · cases hl'
        exact ⟨hif .linkStart (.inr rfl) pendingLinkStart
          (hif .autoStart (.inl rfl) pendingAutoStart (hnew l hl)), rfl⟩

theorem step_cases (p : Endpoint) (i : Input) :
    (∃ a, i = .act a) ∨
      completes p i = none ∧ SameAccounts p.link (p.step i).link ∨
      ∃ c l, completes p i = some c ∧ SameAccounts p.link l ∧
        (p.step i).link = l.rxCharacter c := by
  cases i with
  | act a => exact .inl ⟨a, rfl⟩
  | character c => exact .inr (.inr ⟨c, p.link, rfl, .of_eq rfl, rfl⟩)
  | bit bit =>
    have hlen := p.link.decoder.feed_length bit
    cases hcs : (p.link.decoder.feed bit).2 with
    | nil =>
      refine .inr (.inl ⟨by simp [completes, hcs], ?_⟩)
      simp only [Endpoint.step, Endpoint.rxBit, feedBit, hcs]
      exact .of_eq rfl
    | cons c cs =>
      obtain rfl : cs = [] := by simpa [hcs] using hlen
      refine .inr (.inr ⟨c, { p.link with decoder := (p.link.decoder.feed bit).1 },
        by simp [completes, hcs], .of_eq rfl, ?_⟩)
      simp only [Endpoint.step, Endpoint.rxBit, feedBit, hcs]
      rfl

namespace Kept

variable {P : SpaceWireLink → Prop} {p : Endpoint}

theorem step (hP : Kept P) (h : P p.link) (i : Input)
    (hpick : i = .act .txLoop → p.txLoop = .top → ∀ l' c b,
      p.link.Picked (stateTx p.link.fsm.state) l' c b → P l')
    (hhandled : ∀ c e l l', completes p i = some c → SameAccounts p.link l →
      isHardError c.error = false → characterEvent c.type = some e →
      P (l.feedFsm e) → Handled (l.feedFsm e) c l' → P l') : P (p.step i).link := by
  obtain ⟨a, rfl⟩ | ⟨-, hsame⟩ | ⟨c, l, hc, hsame, heq⟩ := step_cases p i
  · exact hP.act h a (fun ha => hpick (by rw [ha]))
  · exact hP.frame h hsame
  · rw [heq]
    exact hP.rxCharacter (hP.frame h hsame) c (fun e l' => hhandled c e l l' hc hsame)

theorem start {cfg : LinkConfig} (hP : Kept P) (hnew : ∀ l, SpaceWireLink.new cfg = .ok l → P l)
    (h : Endpoint.start cfg = .ok p) : P p.link :=
  (start_cases (fun l hl => hP.frame (hnew l hl) (.of_eq rfl))
    (fun _ _ _ hl => hP.feedFsm _ hl) h).1

end Kept

/-- The window a configuration asks for, never above the receive FIFO or 56. -/
def maxRxCreditOf (cfg : LinkConfig) : Int :=
  match cfg.maxRxCredit with
  | none => min cfg.rxFifoCapacity maxCredit
  | some m => min m (min cfg.rxFifoCapacity maxCredit)

theorem new_ok {cfg : LinkConfig} {l : SpaceWireLink} (h : SpaceWireLink.new cfg = .ok l) :
    l.credit = { maxRxCredit := maxRxCreditOf cfg } ∧ l.credit.InRange ∧
      l.fsm = { targetBitRateBps := cfg.bitRate } ∧ l.rxFifoCapacityNchars = cfg.rxFifoCapacity ∧
      l.rxNcharQueue = [] ∧ l.runReached = false ∧ l.fctSentThisConnecting = false ∧
      l.txNcharQueue = [] ∧ l.errorResetCount = 0 := by
  unfold SpaceWireLink.new at h
  dsimp only at h
  split at h
  · cases h
  · rename_i c hc
    cases h
    obtain ⟨rfl, hpos, hle⟩ := CreditCounter.new_ok hc
    exact ⟨rfl, ⟨le_rfl, by simp, le_rfl, hpos, hle⟩, rfl, rfl, rfl, rfl, rfl, rfl, rfl⟩

theorem new_idle {cfg : LinkConfig} {l : SpaceWireLink} (h : SpaceWireLink.new cfg = .ok l) :
    l.decoder = Decoder.new ∧ l.scheduledTimers = [] ∧ l.timerGen = 0 ∧
      l.txNcharOutstanding = 0 ∧ l.started = false := by
  unfold SpaceWireLink.new at h
  dsimp only at h
  split at h <;> cases h
  exact ⟨rfl, rfl, rfl, rfl, rfl⟩

/-- An endpoint right after `start`: in ErrorReset, with nothing seen, queued or granted. -/
structure Fresh (cfg : LinkConfig) (p : Endpoint) : Prop where
  txLoop : p.txLoop = .top
  recvData : p.recvData = []
  sent : p.sent = []
  received : p.received = []
  txQueue : p.link.txNcharQueue = []
  rxQueue : p.link.rxNcharQueue = []
  credit : p.link.credit = { maxRxCredit := maxRxCreditOf cfg }
  resets : p.link.errorResetCount = 0
  state : p.link.fsm.state = .errorReset
  gotNull : p.link.fsm.gotNullLatched = false
  enabled : p.link.fsm.linkDisable = false

theorem fresh_start {cfg : LinkConfig} {p : Endpoint} (h : Endpoint.start cfg = .ok p) :
    Fresh cfg p := by
  have hstart := start_cases (Q := fun l => Fresh cfg { link := l }) (fun l hl => ?_)
    (fun l e he hl => ?_) h
  · rw [hstart.2]
    exact hstart.1
  · obtain ⟨hcredit, -, hfsm, -, hrq, -, -, htq, hresets⟩ := new_ok hl
    exact ⟨rfl, rfl, rfl, rfl, htq, hrq, hcredit, hresets, congrArg LinkFSM.state hfsm,
      congrArg LinkFSM.gotNullLatched hfsm, congrArg LinkFSM.linkDisable hfsm⟩
  · obtain ⟨-, -, -, -, htq, hrq, hcredit, hresets, hs, hg, hd⟩ := hl
    have hfeed : l.fsm.feed e = l.fsm.updateFlags e := by
      rw [LinkFSM.feed_errorReset hs, if_neg]
      obtain rfl | rfl := he <;> simp
    have hlink : l.feedFsm e = { l with fsm := l.fsm.updateFlags e } := by
      simp [feedFsm, LinkFSM.output, hfeed]
    rw [hlink]
    refine ⟨rfl, rfl, rfl, rfl, htq, hrq, hcredit, hresets, by simpa using hs, ?_, ?_⟩ <;>
      obtain rfl | rfl := he <;> assumption

section zero

/-- No credit in either direction outside Connecting and Run. -/
def NoIdleCredit (l : SpaceWireLink) : Prop :=
  l.fsm.state.exchanging = false → l.credit.txCredit = 0 ∧ l.credit.rxCredit = 0

instance (l : SpaceWireLink) : Decidable (NoIdleCredit l) :=
  inferInstanceAs (Decidable (l.fsm.state.exchanging = false → _ ∧ _))

theorem kept_noIdleCredit : Kept NoIdleCredit where
  feedFsm := by
    intro l e h hidle
    rw [feedFsm_fsm] at hidle
    rw [feedFsm_credit]
    cases hold : l.fsm.state.exchanging with
    | true => simp [LinkFSM.drops_of_leaves hold hidle]
    | false => split <;> [exact ⟨rfl, rfl⟩; exact h hold]
  frame := by
    intro l l' h hsame hidle
    rw [hsame.fsm] at hidle
    rw [hsame.credit]
    exact h hidle
  read := fun _ h => h

theorem noIdleCredit_of_exchanging {l : SpaceWireLink} (h : l.fsm.state.exchanging = true) :
    NoIdleCredit l := by
  intro hidle
  rw [h] at hidle
  cases hidle

theorem gotFct_idle {f : LinkFSM} (h : f.state.exchanging = false) :
    (f.feed .gotFct).state.exchanging = false := by
  cases hs : f.state with
  | errorReset => simp [LinkFSM.feed_errorReset hs, hs, State.exchanging]
  | errorWait =>
    rw [LinkFSM.feed_errorWait hs]
    split <;> simp [hs, State.exchanging]
  | ready =>
    rw [LinkFSM.feed_ready hs]
    split
    · simp [State.exchanging]
    · split <;> simp [hs, State.exchanging]
  | started =>
    rw [LinkFSM.feed_started hs]
    split
    · simp [State.exchanging]
    · rename_i hc
      have hg : (f.updateFlags .gotFct).gotNullLatched = false := by
        simpa [LinkFSM.waitStateError] using hc
      simp [hg, hs, State.exchanging]
  | connecting | run => simp [hs, State.exchanging] at h

theorem gotFct_exchanging {f : LinkFSM} (h : f.state.exchanging = true) :
    (f.feed .gotFct).state.exchanging = true := by
  cases hs : f.state with
  | connecting =>
    have hc : LinkFSM.connectingError .gotFct = false := rfl
    rw [LinkFSM.feed_connecting hs, hc, if_neg Bool.false_ne_true]
    split <;> simp [hs, State.exchanging]
  | run => simp [LinkFSM.feed_run hs, hs, State.exchanging]
  | errorReset | errorWait | ready | started => simp [hs, State.exchanging] at h

/-- An FCT is completed without a hard error only while FCTs are exchanged. -/
def FctInPlace (p : Endpoint) (i : Input) : Prop :=
  ∀ c, completes p i = some c → isHardError c.error = false → c.type = .fct →
    p.link.fsm.state.exchanging = true

theorem noIdleCredit_step {p : Endpoint} {i : Input} (h : NoIdleCredit p.link)
    (hi : FctInPlace p i) : NoIdleCredit (p.step i).link := by
  refine kept_noIdleCredit.step h i ?_ ?_
  · intro _ _ l' c b hpicked
    generalize hmode : stateTx p.link.fsm.state = mode at hpicked
    cases hpicked with
    | null => exact h
    | handshake | uncredited =>
      exact noIdleCredit_of_exchanging (congrArg State.exchanging (stateTx_eq_sendNullsFcts hmode))
    | fct | nchar =>
      exact noIdleCredit_of_exchanging (congrArg State.exchanging (stateTx_eq_sendNchars hmode))
  · intro c e l l' hc hsame herr hev hP hhandled
    cases hhandled with
    | fct ht =>
      rw [ht] at hev
      cases hev
      have hstay : l.fsm.state.exchanging = true := by rw [hsame.fsm]; exact hi c hc herr ht
      apply noIdleCredit_of_exchanging
      simpa only [feedFsm_fsm] using gotFct_exchanging hstay
    | nchar hn hs => exact noIdleCredit_of_exchanging (congrArg State.exchanging hs)
    | overflow => exact kept_noIdleCredit.feedFsm _ hP
    | unexpected => exact kept_noIdleCredit.feedFsm _ hP
    | discarded => exact hP
    | other => exact hP

/-- A misplaced FCT leaves transmit credit behind. -/
theorem fctInPlace_of_noIdleCredit {p : Endpoint} {i : Input} (h : NoIdleCredit p.link)
    (hstep : NoIdleCredit (p.step i).link) : FctInPlace p i := by
  intro c hc herr ht
  by_contra hidle
  rw [Bool.not_eq_true] at hidle
  obtain ⟨a, rfl⟩ | ⟨hnone, -⟩ | ⟨c', l, hc', hsame, heq⟩ := step_cases p i
  · cases hc
  · rw [hc] at hnone
    cases hnone
  · obtain rfl : c = c' := Option.some.inj (hc.symm.trans hc')
    have hl : l.fsm.state.exchanging = false := by rw [hsame.fsm]; exact hidle
    have hfed := gotFct_idle hl
    have hzero := kept_noIdleCredit.feedFsm .gotFct (kept_noIdleCredit.frame h hsame)
    rw [← feedFsm_fsm] at hfed
    have hrx : l.rxCharacter c = (l.feedFsm .gotFct).onRxCharacter c := by
      simp only [rxCharacter, dispatch, herr, ht, characterEvent]
      rfl
    rw [heq, hrx] at hstep
    have hhandled := onRxCharacter_handled (l.feedFsm .gotFct) c
    generalize (l.feedFsm .gotFct).onRxCharacter c = l' at hhandled hstep
    cases hhandled with
    | fct =>
      have htx := (hstep hfed).1
      simp [(hzero hfed).1] at htx
    | overflow _ hlt => simp [(hzero hfed).1] at hlt
    | nchar hn | unexpected hn | discarded hn => simp [Character.isNChar, isNCharType, ht] at hn
    | other hf => exact hf ht

theorem no_idle_credit_iff {cfg : LinkConfig} {p : Endpoint} (h : Endpoint.start cfg = .ok p)
    (is : List Input) :
    Always Endpoint.step (fun p => p.link.fsm.state.exchanging = false →
        p.link.credit.txCredit = 0 ∧ p.link.credit.rxCredit = 0) p is ↔
      Guarded Endpoint.step (fun p i => ∀ c, completes p i = some c →
        isHardError c.error = false → c.type = .fct → p.link.fsm.state.exchanging = true) p is := by
  have hstart : NoIdleCredit p.link := by
    refine kept_noIdleCredit.start (fun l hl _ => ?_) h
    rw [(new_ok hl).1]
    exact ⟨rfl, rfl⟩
  exact always_iff_guarded (I := fun p => NoIdleCredit p.link) hstart
    (fun q (h : NoIdleCredit q.link) => h)
    (fun _ _ => noIdleCredit_step) (fun _ _ => fctInPlace_of_noIdleCredit)

/-- NULL and FCT on the line while the link is in Started: the FCT drops the link and is
credited after the drop. -/
theorem credit_after_drop :
    ∃ p, Endpoint.start { linkStart := true } = .ok p ∧
      ¬ NoIdleCredit (run Endpoint.step p
        ([.act .txLoop, .act (.feed .tick6p4us), .act (.feed .tick12p8us), .act .txLoop,
            .act .txLoop] ++
          [false, true, true, true, false, true, false, false,
            false, true, false, false].map .bit)).link :=
  ⟨_, rfl, by decide⟩

theorem no_idle_credit_iff_fct :
    ∃ p, Endpoint.start { linkStart := true } = .ok p ∧
      (Always Endpoint.step (fun p => p.link.fsm.state.exchanging = false →
          p.link.credit.txCredit = 0 ∧ p.link.credit.rxCredit = 0) p [.character (.ofType .fct)] ↔
        Guarded Endpoint.step (fun p i => ∀ c, completes p i = some c →
          isHardError c.error = false → c.type = .fct → p.link.fsm.state.exchanging = true) p
          [.character (.ofType .fct)]) :=
  ⟨_, rfl, @no_idle_credit_iff { linkStart := true } _ rfl _⟩

end zero

/-- Credit within its bounds, and no receive credit before the handshake FCT is picked. -/
structure CreditInv (l : SpaceWireLink) : Prop where
  inRange : l.credit.InRange
  idle : l.fsm.state.exchanging = false → l.credit.rxCredit = 0
  fresh : l.fsm.state = .connecting → l.fctSentThisConnecting = false → l.credit.rxCredit = 0

theorem kept_creditInv : Kept CreditInv where
  feedFsm := by
    intro l e h
    refine ⟨?_, ?_, ?_⟩
    · rw [feedFsm_credit]
      split <;> [exact h.inRange.reset; exact h.inRange]
    · intro hidle
      rw [feedFsm_fsm] at hidle
      rw [feedFsm_credit]
      cases hold : l.fsm.state.exchanging with
      | true => simp [LinkFSM.drops_of_leaves hold hidle]
      | false => split <;> [rfl; exact h.idle hold]
    · intro hs hf
      rw [feedFsm_fsm] at hs
      rw [feedFsm_fctSentThisConnecting] at hf
      rw [feedFsm_credit]
      split
      · rfl
      · by_cases hold : l.fsm.state = .connecting
        · exact h.fresh hold (by simpa [hold] using hf)
        · apply h.idle
          cases hls : l.fsm.state with
          | connecting => exact absurd hls hold
          | run =>
            rw [LinkFSM.feed_run hls] at hs
            split at hs <;> simp [hls] at hs
          | errorReset | errorWait | ready | started => rfl
  frame := by
    intro l l' h hsame
    exact ⟨by rw [hsame.credit]; exact h.inRange, by rw [hsame.fsm, hsame.credit]; exact h.idle,
      by rw [hsame.fsm, hsame.fctSent, hsame.credit]; exact h.fresh⟩
  read := fun _ h => ⟨h.inRange, h.idle, h.fresh⟩

variable {l l' : SpaceWireLink} {c : Character} {b : Bool}

theorem CreditInv.picked (h : CreditInv l) (hp : l.Picked (stateTx l.fsm.state) l' c b) :
    CreditInv l' := by
  generalize hmode : stateTx l.fsm.state = mode at hp
  have hr := h.inRange
  cases hp with
  | null => exact h
  | handshake hn hf hle =>
    have hs := stateTx_eq_sendNullsFcts hmode
    refine ⟨hr.onFctSent (CreditCounter.onFctSent_of_le hle), fun hidle => ?_, by simp⟩
    simp [hs, State.exchanging] at hidle
  | uncredited => exact ⟨hr, h.idle, by simp⟩
  | fct hroom hle =>
    have hs := stateTx_eq_sendNchars hmode
    refine ⟨hr.onFctSent (CreditCounter.onFctSent_of_le hle), fun hidle => ?_, fun hconn => ?_⟩
    · simp [hs, State.exchanging] at hidle
    · simp [hs] at hconn
  | nchar hno hq hpos =>
    exact ⟨hr.onNcharSent (CreditCounter.onNcharSent_of_canSend (by simpa [CreditCounter.canSend])),
      h.idle, h.fresh⟩

theorem CreditInv.handled (h : CreditInv l) (hh : Handled l c l') : CreditInv l' := by
  have hr := h.inRange
  cases hh with
  | fct ht hle =>
    have hpos := hr.tx_nonneg
    exact ⟨⟨by simp; omega, hle, hr.3, hr.4, hr.5⟩, h.idle, h.fresh⟩
  | nchar hc hs hpos =>
    refine ⟨⟨hr.1, hr.2, by simp; omega, by have := hr.rx_le; simp; omega, hr.5⟩,
      fun hidle => ?_, fun hconn => ?_⟩
    · simp [hs, State.exchanging] at hidle
    · simp [hs] at hconn
  | overflow | unexpected => exact kept_creditInv.feedFsm _ h
  | discarded | other => exact h

section fifo

/-- What is waiting in the receive FIFO and what the peer may still send fit into it. -/
structure FifoInv (l : SpaceWireLink) : Prop extends CreditInv l where
  window : 8 ≤ l.credit.maxRxCredit ∧ l.credit.maxRxCredit ≤ l.rxFifoCapacityNchars
  reached : l.fsm.state = .run → l.runReached = true
  unread : l.runReached = false → l.rxNcharQueue = []
  promised : l.rxNcharQueue.length + l.credit.rxCredit ≤ l.rxFifoCapacityNchars

theorem kept_fifoInv : Kept FifoInv where
  feedFsm := by
    intro l e h
    have hmax : (l.feedFsm e).credit.maxRxCredit = l.credit.maxRxCredit := by
      rw [feedFsm_credit]
      split <;> rfl
    refine ⟨kept_creditInv.feedFsm e h.toCreditInv, ?_, ?_, ?_, ?_⟩
    · rw [hmax, feedFsm_rxFifoCapacityNchars]
      exact h.window
    · intro hs
      rw [feedFsm_fsm] at hs
      rw [feedFsm_runReached]
      by_cases hold : l.fsm.state = .run
      · simp [h.reached hold]
      · simp [hs, hold]
    · intro hr
      rw [feedFsm_runReached, Bool.or_eq_false_iff] at hr
      rw [feedFsm_rxNcharQueue]
      exact h.unread hr.1
    · rw [feedFsm_rxNcharQueue, feedFsm_rxFifoCapacityNchars, feedFsm_credit]
      have hle := h.promised
      have hpos := h.inRange.rx_nonneg
      split
      · simp only [CreditCounter.reset_rxCredit]
        omega
      · exact hle
  frame := by
    intro l l' h hsame
    refine ⟨kept_creditInv.frame h.toCreditInv hsame, ?_, ?_, ?_, ?_⟩
    · rw [hsame.credit, hsame.capacity]
      exact h.window
    · rw [hsame.fsm, hsame.runReached]
      exact h.reached
    · rw [hsame.runReached, hsame.rxQueue]
      exact h.unread
    · rw [hsame.rxQueue, hsame.credit, hsame.capacity]
      exact h.promised
  read := by
    intro l c rest hq h
    refine ⟨kept_creditInv.read hq h.toCreditInv, h.window, h.reached, fun hr => ?_, ?_⟩
    · have hnil := h.unread hr
      simp [hq] at hnil
    · have hle := h.promised
      rw [hq, List.length_cons] at hle
      push_cast at hle
      dsimp only
      omega

/-- An FCT is picked only where eight N-Chars fit beside the unread and the promised ones. -/
def FctFits (p : Endpoint) (i : Input) : Prop :=
  i = .act .txLoop → p.txLoop = .top → p.link.picksFct (stateTx p.link.fsm.state) = true →
    p.link.rxNcharQueue.length + p.link.credit.rxCredit + 8 ≤ p.link.rxFifoCapacityNchars

theorem FifoInv.picked (h : FifoInv l) (hp : l.Picked (stateTx l.fsm.state) l' c b)
    (hfits : l.picksFct (stateTx l.fsm.state) = true →
      l.rxNcharQueue.length + l.credit.rxCredit + 8 ≤ l.rxFifoCapacityNchars) : FifoInv l' := by
  have hcredit := h.toCreditInv.picked hp
  generalize hmode : stateTx l.fsm.state = mode at hp hfits
  have hwin := h.window
  cases hp with
  | null => exact h
  | handshake hn hf hle =>
    have hle := hfits (by simp [picksFct, hn, hf])
    exact ⟨hcredit, hwin, h.reached, h.unread, by dsimp only; omega⟩
  | uncredited hn hf hlt =>
    have hzero := h.fresh (stateTx_eq_sendNullsFcts hmode) hf
    omega
  | fct hroom hle =>
    have hle := hfits (CreditCounter.shouldSendFct_iff.mpr ⟨by omega, hle⟩)
    exact ⟨hcredit, hwin, h.reached, h.unread, by dsimp only; omega⟩
  | nchar => exact ⟨hcredit, hwin, h.reached, h.unread, h.promised⟩

theorem FifoInv.handled (h : FifoInv l) (hh : Handled l c l') : FifoInv l' := by
  have hcredit := h.toCreditInv.handled hh
  cases hh with
  | fct => exact ⟨hcredit, h.window, h.reached, h.unread, h.promised⟩
  | nchar hc hs hpos =>
    refine ⟨hcredit, h.window, h.reached, fun hr => ?_, ?_⟩
    · have hreached : l.runReached = true := h.reached hs
      simp [hreached] at hr
    · have hle := h.promised
      simp only [List.length_append, List.length_singleton]
      push_cast
      omega
  | overflow | unexpected => exact kept_fifoInv.feedFsm _ h
  | discarded | other => exact h

theorem fifoInv_step {p : Endpoint} {i : Input} (h : FifoInv p.link) (hi : FctFits p i) :
    FifoInv (p.step i).link :=
  kept_fifoInv.step h i (fun hact htop _ _ _ hp => h.picked hp (hi hact htop))
    (fun _ _ _ _ _ _ _ _ hfed hh => hfed.handled hh)

theorem fctFits_of_promised {p : Endpoint} {i : Input} (h : FifoInv p.link)
    (hstep : (p.step i).link.runReached = true →
      (p.step i).link.rxNcharQueue.length + (p.step i).link.credit.rxCredit ≤
        (p.step i).link.rxFifoCapacityNchars) : FctFits p i := by
  rintro rfl htop hfct
  have hwin := h.window
  obtain ⟨hmode, -⟩ | ⟨-, l', c, b, enc, hp, hlink⟩ := Endpoint.stepTxLoop_top htop
  · rw [hmode] at hfct
    cases hfct
  · have hl : (p.step (.act .txLoop)).link = { l' with encoder := enc } := by
      obtain ⟨bits, heq⟩ | ⟨-, heq⟩ := hlink <;>
        simp only [Endpoint.step, Endpoint.act, heq]
    rw [hl] at hstep
    generalize hmode : stateTx p.link.fsm.state = mode at hp hfct
    cases hp with
    | null hno | nchar hno =>
      rw [hfct] at hno
      cases hno
    | uncredited hn hf hlt =>
      have hzero := h.fresh (stateTx_eq_sendNullsFcts hmode) hf
      omega
    | handshake hn hf hle =>
      have hzero := h.fresh (stateTx_eq_sendNullsFcts hmode) hf
      cases hr : p.link.runReached with
      | true =>
        have hle := hstep hr
        dsimp only at hle
        omega
      | false =>
        rw [h.unread hr, hzero]
        simp
        omega
    | fct hroom hle =>
      have hle := hstep (h.reached (stateTx_eq_sendNchars hmode))
      dsimp only at hle
      omega

theorem fifoInv_start {cfg : LinkConfig} {p : Endpoint} (h : Endpoint.start cfg = .ok p)
    (hcap : 8 ≤ cfg.rxFifoCapacity) (hmax : cfg.maxRxCredit = none) : FifoInv p.link := by
  refine kept_fifoInv.start (fun l hl => ?_) h
  obtain ⟨hc, hr, hfsm, hcapacity, hrx, hrun, hfct, -, -⟩ := new_ok hl
  have hwin : l.credit.maxRxCredit = min cfg.rxFifoCapacity 56 := by
    rw [hc]
    simp [maxRxCreditOf, hmax, maxCredit]
  refine ⟨⟨hr, ?_, ?_⟩, ?_, ?_, ?_, ?_⟩
  · rw [hc]
    exact fun _ => rfl
  · rw [hc]
    exact fun _ _ => rfl
  · rw [hwin, hcapacity]
    omega
  · rw [hfsm]
    nofun
  · exact fun _ => hrx
  · rw [hrx, hc, hcapacity]
    simp
    omega

theorem rx_fifo_bound_iff {cfg : LinkConfig} {p : Endpoint} (h : Endpoint.start cfg = .ok p)
    (hcap : 8 ≤ cfg.rxFifoCapacity) (hmax : cfg.maxRxCredit = none) (is : List Input) :
    Always Endpoint.step (fun p => p.link.runReached = true →
        p.link.rxNcharQueue.length + p.link.credit.rxCredit ≤ p.link.rxFifoCapacityNchars ∧
          p.link.rxNcharQueue.length ≤ p.link.rxFifoCapacityNchars) p is ↔
      Guarded Endpoint.step FctFits p is := by
  refine always_iff_guarded (I := fun p => FifoInv p.link) (fifoInv_start h hcap hmax) ?_
    (fun _ _ => fifoInv_step) (fun _ _ hI hP => fctFits_of_promised hI fun hr => (hP hr).1)
  intro q (hq : FifoInv q.link) _
  have hle := hq.promised
  have hpos := hq.inRange.rx_nonneg
  exact ⟨hle, by omega⟩

/-- The inputs that bring a link that was told to start from ErrorReset to Run: its peer
sends a NULL before the link has sent its own, and an FCT before the link has sent its own. -/
def bringUp : List Input :=
  [.act .txLoop, .act (.feed .tick6p4us), .act (.feed .tick12p8us), .character Encoder.null] ++
    List.replicate 5 (.act .txLoop) ++ [.character (.ofType .fct)] ++
    List.replicate 2 (.act .txLoop)

/-- With sixteen slots, an FCT of Run and eight N-Chars: the next FCT finds eight free slots,
although they are promised already, and the peer fills the FIFO to twenty-four. -/
theorem rx_fifo_overrun :
    ∃ p, Endpoint.start { linkStart := true, rxFifoCapacity := 16 } = .ok p ∧
      ∃ q, q = run Endpoint.step p (bringUp ++ List.replicate 2 (.act .txLoop) ++
          List.replicate 8 (.character (dataChar 7)) ++ List.replicate 2 (.act .txLoop) ++
          List.replicate 16 (.character (dataChar 7))) ∧
        q.link.runReached = true ∧ q.link.rxFifoCapacityNchars = 16 ∧
        q.link.rxNcharQueue.length = 24 :=
  ⟨_, rfl, _, rfl, by decide +kernel, by decide +kernel, by decide +kernel⟩

theorem rx_fifo_bound_iff_bringUp :
    ∃ p, Endpoint.start { linkStart := true, rxFifoCapacity := 16 } = .ok p ∧
      (Always Endpoint.step (fun p => p.link.runReached = true →
          p.link.rxNcharQueue.length + p.link.credit.rxCredit ≤ p.link.rxFifoCapacityNchars ∧
            p.link.rxNcharQueue.length ≤ p.link.rxFifoCapacityNchars) p bringUp ↔
        Guarded Endpoint.step FctFits p bringUp) :=
  ⟨_, rfl, @rx_fifo_bound_iff { linkStart := true, rxFifoCapacity := 16 } _ rfl (by decide) rfl _⟩

end fifo

end SpaceWire.Accounting
