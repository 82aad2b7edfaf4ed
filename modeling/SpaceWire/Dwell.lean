import SpaceWire.Timers
import Mathlib.Data.Sum.Basic

namespace SpaceWire.Dwell

open Accounting Run SpaceWireLink Timers

/-- An action of the endpoint, or a bit that its monitor delivers. -/
abbrev Move := Action ⊕ Bool

def Move.input : Move → Input := Sum.elim .act .bit

/-- What is left of the moves when the line is silent. -/
def acts (as : List Move) : List Action := as.filterMap Sum.getLeft?

def bits (as : List Move) : List Bool := as.filterMap Sum.getRight?

def hasNull (cs : List Character) : Bool :=
  cs.any fun c => !isHardError c.error && c.type = .null

def fcts (cs : List Character) : Nat :=
  cs.countP fun c => !isHardError c.error && c.type = .fct

def room (l : SpaceWireLink) : Nat := ((56 - l.credit.txCredit) / 8).toNat

section silent

variable {l m : SpaceWireLink} {e : Event}

theorem onRxCharacter_fct {c : Character} (hs : l.fsm.state = .errorReset) (ht : c.type = .fct) :
    l.onRxCharacter c =
      if l.credit.txCredit + 8 ≤ 56 then
        { l with credit := { l.credit with txCredit := l.credit.txCredit + 8
                                           fctsReceived := l.credit.fctsReceived + 1 }
                 txWakeup := true }
      else l := by
  simp only [onRxCharacter, ht]
  cases hr : l.credit.onFctReceived with
  | ok credit =>
    obtain ⟨hle, rfl⟩ := CreditCounter.onFctReceived_ok hr
    rw [if_pos hle]
  | error err =>
    have hlt := (CreditCounter.onFctReceived_error hr).2
    rw [if_neg (by omega), feedFsm_errorReset _ _ hs, if_neg (by simp)]
    rfl

/-- A character received in ErrorReset is not ignored: a NULL is latched and an FCT is
credited. -/
theorem rxCharacter_errorReset (hs : l.fsm.state = .errorReset) (c : Character) :
    l.rxCharacter c =
      if isHardError c.error then l
      else if c.type = .null then { l with fsm := { l.fsm with gotNullLatched := true } }
      else if c.type = .fct ∧ l.credit.txCredit + 8 ≤ 56 then
        { l with credit := { l.credit with txCredit := l.credit.txCredit + 8
                                           fctsReceived := l.credit.fctsReceived + 1 }
                 txWakeup := true }
      else l := by
  have hflags (e : Event) (he : e = .gotFct ∨ e = .gotNChar ∨ e = .gotTimeCode ∨ e = .rxErr) :
      l.feedFsm e = l := by
    obtain rfl | rfl | rfl | rfl := he <;> rw [feedFsm_errorReset _ _ hs, if_neg (by simp)] <;>
      simp [LinkFSM.updateFlags, hs]
  unfold SpaceWireLink.rxCharacter dispatch
  cases isHardError c.error with
  | true => exact hflags .rxErr (by simp)
  | false =>
    cases ht : c.type with
    | null => simp [characterEvent, parserCallbacks, feedFsm_errorReset _ _ hs, onRxCharacter, ht,
        LinkFSM.updateFlags]
    | fct =>
      have hfct := onRxCharacter_fct hs ht
      simp only [characterEvent, parserCallbacks, hflags .gotFct (by simp), hfct]
      by_cases hle : l.credit.txCredit + 8 ≤ 56 <;> simp [hle]
    | data | eop | eep =>
      simp [characterEvent, parserCallbacks, hflags .gotNChar, onRxCharacter, ht, hs]
    | timecode | broadcast =>
      simp [characterEvent, parserCallbacks, hflags .gotTimeCode, onRxCharacter, ht]
    | esc => simp [characterEvent]

/-- What the bits of a dwell leave in the link, beside what it held when they began. -/
structure Heard (l : SpaceWireLink) (bs : List Bool) (l' : SpaceWireLink) : Prop where
  decoder : l'.decoder = (l.decoder.push bs).1
  gotNull : l'.fsm.gotNullLatched =
    (l.fsm.gotNullLatched || hasNull (l.decoder.push bs).2)
  txCredit : l'.credit.txCredit =
    l.credit.txCredit + 8 * min (fcts (l.decoder.push bs).2) (room l)

def unlatched (f : LinkFSM) : LinkFSM := { f with gotNullLatched := false }

/-- Two links that differ in nothing of the dwell but what they have heard. -/
structure Deaf (l l' : SpaceWireLink) : Prop where
  fsm : unlatched l'.fsm = unlatched l.fsm
  timerGen : l'.timerGen = l.timerGen
  timers : l'.scheduledTimers = l.scheduledTimers
  rxCredit : l'.credit.rxCredit = l.credit.rxCredit
  rxQueue : l'.rxNcharQueue = l.rxNcharQueue

theorem Deaf.refl (l : SpaceWireLink) : Deaf l l := ⟨rfl, rfl, rfl, rfl, rfl⟩

theorem Deaf.symm (h : Deaf l m) : Deaf m l :=
  ⟨h.fsm.symm, h.timerGen.symm, h.timers.symm, h.rxCredit.symm, h.rxQueue.symm⟩

theorem Deaf.trans {l' : SpaceWireLink} (h : Deaf l m) (h' : Deaf m l') : Deaf l l' :=
  ⟨h'.fsm.trans h.fsm, h'.timerGen.trans h.timerGen, h'.timers.trans h.timers,
    h'.rxCredit.trans h.rxCredit, h'.rxQueue.trans h.rxQueue⟩

theorem Deaf.state (h : Deaf l m) : m.fsm.state = l.fsm.state := by
  simpa [unlatched] using congrArg LinkFSM.state h.fsm

theorem rxCharacter_heard (hs : l.fsm.state = .errorReset) (c : Character) :
    (l.rxCharacter c).decoder = l.decoder ∧
      (l.rxCharacter c).fsm.gotNullLatched = (l.fsm.gotNullLatched || hasNull [c]) ∧
      (l.rxCharacter c).credit.txCredit =
        l.credit.txCredit + 8 * min (fcts [c]) (room l) ∧ Deaf l (l.rxCharacter c) := by
  rw [rxCharacter_errorReset hs]
  cases herr : isHardError c.error with
  | true => simp [hasNull, fcts, herr, Deaf.refl]
  | false =>
    rw [if_neg Bool.false_ne_true]
    by_cases hnull : c.type = .null
    · rw [if_pos hnull]
      exact ⟨rfl, by simp [hasNull, herr, hnull], by simp [fcts, herr, hnull],
        ⟨rfl, rfl, rfl, rfl, rfl⟩⟩
    · rw [if_neg hnull]
      by_cases hfct : c.type = .fct
      · by_cases hle : l.credit.txCredit + 8 ≤ 56
        · have hroom : 1 ≤ room l := by
            unfold room
            omega
          rw [if_pos ⟨hfct, hle⟩]
          exact ⟨rfl, by simp [hasNull, hfct], by simp [fcts, herr, hfct, hroom],
            ⟨rfl, rfl, rfl, rfl, rfl⟩⟩
        · have hroom : room l = 0 := by
            unfold room
            omega
          simp [hasNull, fcts, herr, hfct, hle, hroom, Deaf.refl]
      · simp [hasNull, fcts, hnull, hfct, Deaf.refl]

theorem feedBit_heard (hs : l.fsm.state = .errorReset) (b : Bool) :
    Heard l [b] (l.feedBit b) ∧ Deaf l (l.feedBit b) := by
  have hlen := l.decoder.feed_length b
  have hpush : l.decoder.push [b] = l.decoder.feed b := by simp [Decoder.push_cons]
  have hfeed : l.feedBit b = (l.decoder.feed b).2.foldl SpaceWireLink.rxCharacter
      { l with decoder := (l.decoder.feed b).1 } := rfl
  rw [hfeed]
  cases hcs : (l.decoder.feed b).2 with
  | nil =>
    refine ⟨⟨by simp [hpush], ?_, ?_⟩, ⟨rfl, rfl, rfl, rfl, rfl⟩⟩ <;>
      simp [hpush, hcs, hasNull, fcts]
  | cons c cs =>
    obtain rfl : cs = [] := by simpa [hcs] using hlen
    obtain ⟨hdec, hnull, htx, hdeaf⟩ :=
      rxCharacter_heard (l := { l with decoder := (l.decoder.feed b).1 }) hs c
    refine ⟨⟨?_, ?_, ?_⟩, ?_⟩
    · simpa [hpush] using hdec
    · simpa [hpush, hcs] using hnull
    · simpa [hpush, hcs, room] using htx
    · exact ⟨hdeaf.fsm, hdeaf.timerGen, hdeaf.timers, hdeaf.rxCredit, hdeaf.rxQueue⟩

theorem Heard.nil (hdec : m.decoder = l.decoder)
    (hnull : m.fsm.gotNullLatched = l.fsm.gotNullLatched)
    (htx : m.credit.txCredit = l.credit.txCredit) : Heard l [] m :=
  ⟨by simpa using hdec, by simpa [hasNull] using hnull, by simpa [fcts] using htx⟩

theorem feedFsm_heard (hs : l.fsm.state = .errorReset) (he : e ≠ .gotNull) :
    Heard l [] (l.feedFsm e) := by
  have hflags : (l.fsm.updateFlags e).gotNullLatched = l.fsm.gotNullLatched := by
    have hiff := l.fsm.updateFlags_gotNullLatched e
    simp only [he, or_false] at hiff
    exact Bool.eq_iff_iff.mpr hiff
  rw [feedFsm_errorReset _ _ hs]
  split
  · exact .nil rfl rfl rfl
  · exact .nil rfl hflags rfl

theorem feedFsm_deaf (h : Deaf l m) (hs : l.fsm.state = .errorReset) (e : Event) :
    Deaf (l.feedFsm e) (m.feedFsm e) := by
  obtain ⟨hfsm, hgen, htimers, hrx, hqueue⟩ := h
  have hdisable : m.fsm.linkDisable = l.fsm.linkDisable := by
    simpa [unlatched] using congrArg LinkFSM.linkDisable hfsm
  have hstate : m.fsm.state = .errorReset := by
    simpa [unlatched, hs] using congrArg LinkFSM.state hfsm
  rw [feedFsm_errorReset _ _ hs, feedFsm_errorReset _ _ hstate, hdisable]
  split
  · refine ⟨?_, by rw [hgen], by rw [htimers, hgen], hrx, hqueue⟩
    simp [unlatched, LinkFSM.enter] at hfsm ⊢
    simp [hfsm]
  · refine ⟨?_, hgen, htimers, hrx, hqueue⟩
    cases e <;> simp [unlatched, LinkFSM.updateFlags, hs, hstate] at hfsm ⊢ <;> simp [hfsm]

theorem Heard.append {l' : SpaceWireLink} {as bs : List Bool} (h : Heard l as m)
    (h' : Heard m bs l') : Heard l (as ++ bs) l' := by
  obtain ⟨hd, hn, ht⟩ := h
  obtain ⟨hd', hn', ht'⟩ := h'
  rw [hd] at hd' hn' ht'
  have hroom : room m = room l - min (fcts (l.decoder.push as).2) (room l) := by
    unfold room at ht ⊢
    omega
  refine ⟨?_, ?_, ?_⟩
  · rw [hd', Decoder.push_append]
  · rw [hn', hn, Decoder.push_append]
    simp [hasNull, Bool.or_assoc]
  · rw [ht', ht, hroom, Decoder.push_append]
    simp only [fcts, List.countP_append]
    omega

end silent

section moves

variable {p q : Endpoint}

structure Unmoved (l l' : SpaceWireLink) : Prop where
  heard : Heard l [] l'
  deaf : Deaf l l'

theorem Unmoved.of_eq {l l' : SpaceWireLink} (h : (l'.fsm, l'.decoder, l'.credit, l'.timerGen,
      l'.scheduledTimers, l'.rxNcharQueue) =
    (l.fsm, l.decoder, l.credit, l.timerGen, l.scheduledTimers, l.rxNcharQueue)) :
    Unmoved l l' := by
  simp only [Prod.mk.injEq] at h
  obtain ⟨h1, h2, h3, h4, h5, h6⟩ := h
  exact ⟨.nil h2 (by rw [h1]) (by rw [h3]), ⟨by rw [h1], h4, h5, by rw [h3], h6⟩⟩

theorem charSent_unmoved {l : SpaceWireLink} (hs : l.fsm.state = .errorReset) (c : Character)
    (b : Bool) : Unmoved l (l.charSent c b) := by
  have hsent (e : Event) (he : e = .sentNull ∨ e = .sentFct) : l.feedFsm e = l := by
    obtain rfl | rfl := he <;> rw [feedFsm_errorReset _ _ hs, if_neg (by simp)] <;>
      simp [LinkFSM.updateFlags, hs]
  obtain ⟨n, d, heq⟩ := l.charSent_eq c b
  rw [heq, hsent .sentNull (.inl rfl), hsent .sentFct (.inr rfl), ite_self, ite_self]
  exact .of_eq rfl

theorem stepTxLoop_unmoved (hs : p.link.fsm.state = .errorReset) :
    Unmoved p.link p.stepTxLoop.link := by
  have ht := p.txTurn
  generalize p.stepTxLoop = p' at ht
  cases ht with
  | rest | ended | park | wake | drive => exact .of_eq rfl
  | pick _ hmode | reject _ hmode => exact absurd (by rw [hs]; rfl) hmode
  | done => exact charSent_unmoved hs _ _

theorem enqueue_unmoved (cs : List Character) (l : SpaceWireLink) :
    Unmoved l (cs.foldl enqueueNchar l) := by
  have heq : ∀ l : SpaceWireLink, ((cs.foldl enqueueNchar l).fsm, (cs.foldl enqueueNchar l).decoder,
      (cs.foldl enqueueNchar l).credit, (cs.foldl enqueueNchar l).timerGen,
      (cs.foldl enqueueNchar l).scheduledTimers, (cs.foldl enqueueNchar l).rxNcharQueue) =
      (l.fsm, l.decoder, l.credit, l.timerGen, l.scheduledTimers, l.rxNcharQueue) := by
    induction cs with
    | nil => exact fun l => rfl
    | cons c cs ih => exact fun l => ih (l.enqueueNchar c)
  exact .of_eq (heq l)

theorem act_unmoved (hs : p.link.fsm.state = .errorReset) {a : Action}
    (ha : match a with | .feed _ | .expire _ | .recvPacket => False | _ => True) :
    Unmoved p.link (p.act a).link := by
  cases a with
  | feed | expire | recvPacket => exact ha.elim
  | watchdog disconnected =>
    have hrx : p.link.fsm.output.rxEnabled = false := by simp [LinkFSM.output, hs, stateRxEnabled]
    simp only [Endpoint.act, disconnectWatchdog, hrx, if_true]
    exact .of_eq rfl
  | txLoop => exact stepTxLoop_unmoved hs
  | sendPacket data terminator =>
    simp only [Endpoint.act, sendPacket]
    cases SpaceWirePacket.create data terminator with
    | error err => exact .of_eq rfl
    | ok pkt => exact enqueue_unmoved pkt.nchars p.link
  | sendChar char =>
    simp only [Endpoint.act, sendChar]
    cases char.isNChar with
    | false => exact .of_eq rfl
    | true => exact enqueue_unmoved [char] p.link

theorem recvPacket_link (p : Endpoint) :
    p.stepRecvPacket.link = { p.link with rxNcharQueue := p.link.rxNcharQueue.tail } := by
  unfold Endpoint.stepRecvPacket
  cases hq : p.link.rxNcharQueue with
  | nil =>
    have hsame : { p.link with rxNcharQueue := ([] : List Character).tail } = p.link := by
      rw [List.tail_nil, ← hq]
    exact hsame.symm
  | cons c rest =>
    dsimp only
    split
    · rw [Endpoint.returnPacket_link, List.tail_cons]
    · rw [Endpoint.returnPacket_link, List.tail_cons]
    · rfl

theorem act_heard (hs : p.link.fsm.state = .errorReset) (ht : TimersInv p.link) (a : Action) :
    Heard p.link [] (p.act a).link := by
  cases a with
  | feed e =>
    simp only [Endpoint.act]
    split
    · exact feedFsm_heard hs (by rintro rfl; contradiction)
    · exact .nil rfl rfl rfl
  | expire task =>
    simp only [Endpoint.act, runTimer]
    split
    · rename_i hmem
      split
      · rename_i hgen
        have ha := (ht.current task (ht.own task hmem hgen)).2
        have hheard := feedFsm_heard (e := task.event)
          (l := { p.link with scheduledTimers := p.link.scheduledTimers.erase task }) hs (by
            intro he
            rw [hs, he] at ha
            cases ha)
        exact ⟨hheard.decoder, hheard.gotNull, hheard.txCredit⟩
      · exact .nil rfl rfl rfl
    · exact .nil rfl rfl rfl
  | recvPacket =>
    simp only [Endpoint.act, recvPacket_link]
    exact .nil rfl rfl rfl
  | watchdog | txLoop | sendPacket | sendChar => exact (act_unmoved hs trivial).heard

theorem runTimer_deaf {l m : SpaceWireLink} (h : Deaf l m) (hs : l.fsm.state = .errorReset)
    (task : TimerTask) : Deaf (l.runTimer task) (m.runTimer task) := by
  have herase : Deaf { l with scheduledTimers := l.scheduledTimers.erase task }
      { m with scheduledTimers := m.scheduledTimers.erase task } :=
    ⟨h.fsm, h.timerGen, by simp only [h.timers], h.rxCredit, h.rxQueue⟩
  simp only [runTimer]
  by_cases hgen : task.gen = l.timerGen
  · rw [if_pos hgen, if_pos (hgen.trans h.timerGen.symm)]
    exact feedFsm_deaf herase hs task.event
  · rw [if_neg hgen, if_neg fun hgen' => hgen (hgen'.trans h.timerGen)]
    exact herase

theorem act_deaf (h : Deaf p.link q.link) (hs : p.link.fsm.state = .errorReset) (a : Action) :
    Deaf (p.act a).link (q.act a).link := by
  have hs' : q.link.fsm.state = .errorReset := h.state.trans hs
  cases a with
  | feed e =>
    simp only [Endpoint.act]
    split
    · exact feedFsm_deaf h hs e
    · exact h
  | expire task =>
    by_cases hmem : task ∈ p.link.scheduledTimers
    · have hmem' : task ∈ q.link.scheduledTimers := by rwa [h.timers]
      simp only [Endpoint.act, hmem, hmem', if_true]
      exact runTimer_deaf h hs task
    · have hmem' : task ∉ q.link.scheduledTimers := by rwa [h.timers]
      simp only [Endpoint.act, hmem, hmem', if_false]
      exact h
  | recvPacket =>
    simp only [Endpoint.act, recvPacket_link]
    exact ⟨h.fsm, h.timerGen, h.timers, h.rxCredit, by simp only [h.rxQueue]⟩
  | watchdog | txLoop | sendPacket | sendChar =>
    exact ((act_unmoved hs trivial).deaf.symm.trans h).trans (act_unmoved hs' trivial).deaf

end moves

section runs

variable {p q : Endpoint} {as bs : List Move}

theorem run_deaf (h : Deaf p.link q.link)
    (hdwell : Always Endpoint.step (fun p => p.link.fsm.state = .errorReset) q
      ((acts as).map .act)) :
    Deaf (run Endpoint.step p (as.map Move.input)).link
        (run Endpoint.step q ((acts as).map .act)).link ∧
      Always Endpoint.step (fun p => p.link.fsm.state = .errorReset) p (as.map Move.input) := by
  induction as generalizing p q with
  | nil =>
    refine ⟨h, fun s hs => ?_⟩
    obtain rfl := List.prefix_nil.mp hs
    exact h.symm.state.trans hdwell.head
  | cons x as ih =>
    have hs : p.link.fsm.state = .errorReset := h.symm.state.trans hdwell.head
    cases x with
    | inl a =>
      have hnext := always_cons.mp hdwell
      obtain ⟨hdeaf, halways⟩ := ih (act_deaf h hs a) hnext.2
      exact ⟨hdeaf, always_cons.mpr ⟨hs, halways⟩⟩
    | inr b =>
      obtain ⟨hdeaf, halways⟩ := ih (p := p.rxBit b) ((feedBit_heard hs b).2.symm.trans h) hdwell
      exact ⟨hdeaf, always_cons.mpr ⟨hs, halways⟩⟩

theorem run_heard (ht : TimersInv p.link)
    (hdwell : Always Endpoint.step (fun p => p.link.fsm.state = .errorReset) p
      (as.map Move.input)) :
    Heard p.link (bits as) (run Endpoint.step p (as.map Move.input)).link := by
  induction as generalizing p with
  | nil => exact .nil rfl rfl rfl
  | cons x as ih =>
    obtain ⟨hs, hnext⟩ := always_cons.mp hdwell
    have hrest := ih (timersInv_run ht [x.input]) hnext
    cases x with
    | inl a => exact (act_heard hs ht a).append hrest
    | inr b => exact (feedBit_heard hs b).1.append hrest

/-- What the two-run statement compares. -/
def Agree (l m : SpaceWireLink) : Prop :=
  l.fsm = m.fsm ∧ l.decoder = m.decoder ∧ l.credit.txCredit = m.credit.txCredit ∧
    l.credit.rxCredit = m.credit.rxCredit ∧ l.rxNcharQueue = m.rxNcharQueue

instance (l m : SpaceWireLink) : Decidable (Agree l m) :=
  inferInstanceAs (Decidable (_ ∧ _ ∧ _ ∧ _ ∧ _))

/-- Two sequences of bits leave the same trace in a link: the same unfinished character and
parity history, a NULL in both or in neither unless one has been latched before, and equally
many FCTs of those that fit. -/
def SameTrace (l : SpaceWireLink) (as bs : List Bool) : Prop :=
  (l.decoder.push as).1 = (l.decoder.push bs).1 ∧
    (l.fsm.gotNullLatched = true ∨
      hasNull (l.decoder.push as).2 = hasNull (l.decoder.push bs).2) ∧
    min (fcts (l.decoder.push as).2) (room l) = min (fcts (l.decoder.push bs).2) (room l)

theorem agree_iff {l m n : SpaceWireLink} {as bs : List Bool} (hdeaf : Deaf m n)
    (ha : Heard l as m) (hb : Heard l bs n) : Agree m n ↔ SameTrace l as bs := by
  have hfsm : m.fsm = n.fsm ↔ m.fsm.gotNullLatched = n.fsm.gotNullLatched := by
    refine ⟨fun h => by rw [h], fun h => ?_⟩
    have hrest := hdeaf.fsm
    cases hm : m.fsm
    cases hn : n.fsm
    simp only [unlatched, hm, hn, LinkFSM.mk.injEq] at hrest h ⊢
    simp [hrest, h]
  have hnull : m.fsm.gotNullLatched = n.fsm.gotNullLatched ↔
      l.fsm.gotNullLatched = true ∨
        hasNull (l.decoder.push as).2 = hasNull (l.decoder.push bs).2 := by
    rw [ha.gotNull, hb.gotNull]
    cases l.fsm.gotNullLatched <;> simp
  unfold Agree SameTrace
  rw [hfsm, hnull, ha.decoder, hb.decoder, ha.txCredit, hb.txCredit, hdeaf.rxCredit,
    hdeaf.rxQueue]
  constructor
  · rintro ⟨h1, h2, h3, -⟩
    exact ⟨h2, h1, by omega⟩
  · rintro ⟨h1, h2, h3⟩
    exact ⟨h2, h1, by omega, rfl, rfl⟩

end runs

section fresh

/-- A primitive that is under way is known to have four or ten bits. -/
def Framed (d : Decoder) : Prop :=
  d.expectedLen = none ∨ d.expectedLen = some 4 ∨ d.expectedLen = some 10

theorem feed_marked {d : Decoder} (h : Framed d) (b : Bool) :
    Framed (d.feed b).1 ∧
      ((d.feed b).1.buffer ≠ [] ∨ (d.feed b).1.prevContentBits ≠ []) := by
  have hcomplete (d : Decoder) {raw : List Bool} (hraw : 4 ≤ raw.length) :
      Framed (d.complete raw).1 ∧
        ((d.complete raw).1.buffer ≠ [] ∨ (d.complete raw).1.prevContentBits ≠ []) := by
    refine ⟨.inl (d.complete_atBoundary raw).2, .inr ?_⟩
    have hframe := Decoder.resolvePrimitive_frame
      (Decoder.parsePrimitive { d with buffer := [], expectedLen := none } raw).1
      (Decoder.parsePrimitive { d with buffer := [], expectedLen := none } raw).2
    rw [Decoder.complete, hframe.2.2.1]
    simp only [Decoder.parsePrimitive]
    apply List.ne_nil_of_length_pos
    split <;> simp <;> omega
  unfold Decoder.feed
  by_cases htwo : (d.buffer ++ [b]).length = 2
  · simp only [if_pos htwo, Framed]
    generalize (d.buffer ++ [b]).getD 1 false = dc
    cases dc <;> simp [htwo]
  · simp only [if_neg htwo]
    obtain h | h | h := h <;> simp only [h]
    · exact ⟨.inl rfl, .inl (by simp)⟩
    · split
      · exact ⟨.inr (.inl rfl), .inl (by simp)⟩
      · exact hcomplete _ (by omega)
    · split
      · exact ⟨.inr (.inr rfl), .inl (by simp)⟩
      · exact hcomplete _ (by omega)

/-- A fresh decoder shows every bit it is fed. -/
theorem push_new_iff (bits : List Bool) : (Decoder.new.push bits).1 = Decoder.new ↔ bits = [] := by
  have hframed : ∀ bs : List Bool, Framed (Decoder.new.push bs).1 := by
    intro bs
    induction bs using List.reverseRecOn with
    | nil => exact .inl rfl
    | append_singleton bs b ih =>
      rw [Decoder.push_append]
      exact (feed_marked ih b).1
  refine ⟨fun h => ?_, fun h => by rw [h]; rfl⟩
  cases hb : bits using List.reverseRecOn with
  | nil => rfl
  | append_singleton bs b =>
    have hmarked := (feed_marked (hframed bs) b).2
    have hfed : ((Decoder.new.push bs).1.feed b).1 = Decoder.new := by
      rw [hb, Decoder.push_append] at h
      exact h
    rw [hfed] at hmarked
    simp [Decoder.new] at hmarked

end fresh

/-- Two runs that differ in the bits of a dwell in ErrorReset agree when it ends if and only
if those bits leave the same trace; after a reset of the decoder, a run agrees with its silent
twin if and only if the line was silent in it too. -/
theorem disabled_receiver_iff {cfg : LinkConfig} {p : Endpoint} (h : Endpoint.start cfg = .ok p)
    (before : List Input) {as bs : List Move} (hacts : acts as = acts bs)
    (hdwell : Always Endpoint.step (fun p => p.link.fsm.state = .errorReset)
      (run Endpoint.step p before) ((acts as).map .act)) {a : Action}
    (hwait : ((run Endpoint.step (run Endpoint.step p before) ((acts as).map .act)).act
      a).link.fsm.state = .errorWait) :
    let q := run Endpoint.step p before
    let l := ((run Endpoint.step q (as.map Move.input)).act a).link
    let m := ((run Endpoint.step q (bs.map Move.input)).act a).link
    l.fsm.state = .errorWait ∧ m.fsm.state = .errorWait ∧
      (Agree l m ↔ SameTrace q.link (bits as) (bits bs)) ∧
      (q.link.decoder = Decoder.new → bits bs = [] → (Agree l m ↔ bits as = [])) := by
  intro q l m
  have ht : TimersInv q.link := timersInv_run (ticksInv_start h).timers before
  have htwin {cs : List Move} (hcs : acts cs = acts as) :
      Heard q.link (bits cs) ((run Endpoint.step q (cs.map Move.input)).act a).link ∧
        Deaf ((run Endpoint.step q (cs.map Move.input)).act a).link
          ((run Endpoint.step q ((acts as).map .act)).act a).link := by
    obtain ⟨hdeaf, halways⟩ := run_deaf (.refl q.link) (hcs ▸ hdwell)
    have hheard := (run_heard ht halways).append (act_heard halways.last (timersInv_run ht _) a)
    rw [List.append_nil] at hheard
    exact ⟨hheard, hcs ▸ act_deaf hdeaf halways.last a⟩
  obtain ⟨hal, hdl⟩ := htwin rfl
  obtain ⟨hbm, hdm⟩ := htwin hacts.symm
  have hagree := agree_iff (hdl.trans hdm.symm) hal hbm
  refine ⟨hdl.symm.state.trans hwait, hdm.symm.state.trans hwait, hagree, fun hfresh hsilent => ?_⟩
  rw [hagree, hsilent]
  refine ⟨fun hsame => ?_, fun hnone => by rw [hnone]; exact ⟨rfl, .inr rfl, rfl⟩⟩
  have hdec := hsame.1
  rw [hfresh] at hdec
  exact (push_new_iff _).mp hdec

def nullBits : List Bool := [false, true, true, true, false, true, false, false]

/-- The link starts the next dwell with gotNULL latched, and without it on a silent line. -/
theorem null_heard_in_errorReset :
    ∃ p, Endpoint.start { linkStart := true } = .ok p ∧
      ¬ Agree ((run Endpoint.step p ((nullBits.map Sum.inr).map Move.input)).act
          (.expire firstTimer)).link
        (p.act (.expire firstTimer)).link :=
  ⟨_, rfl, by decide⟩

theorem disabled_receiver_iff_null :
    ∃ p, Endpoint.start { linkStart := true } = .ok p ∧
      (Agree ((run Endpoint.step p ((nullBits.map Sum.inr).map Move.input)).act
            (.expire firstTimer)).link
          (p.act (.expire firstTimer)).link ↔
        SameTrace p.link nullBits []) :=
  ⟨_, rfl, (@disabled_receiver_iff { linkStart := true } _ rfl [] (nullBits.map Sum.inr) [] rfl
    (fun s hs => by
      obtain rfl := List.prefix_nil.mp hs
      rfl) (.expire firstTimer) rfl).2.2.1⟩

end SpaceWire.Dwell
