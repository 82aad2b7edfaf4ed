import SpaceWire.Traffic

namespace SpaceWire

@[simp] theorem Character.onWire_onWire (c : Character) : c.onWire.onWire = c.onWire := by
  cases ht : c.type <;> simp [Character.onWire, Character.ofType, ht]

@[simp] theorem Character.onWire_error (c : Character) : c.onWire.error = [] := by
  cases ht : c.type <;> simp [Character.onWire, Character.ofType, ht]

theorem Character.onWire_value {c : Character} (h : c.type = .data) : c.onWire.value = c.value := by
  simp [Character.onWire, h]

namespace SpaceWireLink

/-- A link without what matters to single bits only: the state of its decoder, and of the
characters it has received all but their type and byte. -/
def charLevel (l : SpaceWireLink) : SpaceWireLink :=
  { l with decoder := Decoder.new, rxNcharQueue := l.rxNcharQueue.map Character.onWire }

variable (l : SpaceWireLink)

section fields

@[simp] theorem charLevel_fsm : l.charLevel.fsm = l.fsm := rfl

@[simp] theorem charLevel_encoder : l.charLevel.encoder = l.encoder := rfl

@[simp] theorem charLevel_credit : l.charLevel.credit = l.credit := rfl

@[simp] theorem charLevel_txNcharQueue : l.charLevel.txNcharQueue = l.txNcharQueue := rfl

@[simp] theorem charLevel_rxNcharQueue :
    l.charLevel.rxNcharQueue = l.rxNcharQueue.map Character.onWire := rfl

@[simp] theorem charLevel_scheduledTimers :
    l.charLevel.scheduledTimers = l.scheduledTimers := rfl

@[simp] theorem charLevel_txWakeup : l.charLevel.txWakeup = l.txWakeup := rfl

@[simp] theorem charLevel_onlyNulls : l.charLevel.onlyNulls = l.onlyNulls := rfl

@[simp] theorem charLevel_fctSentThisConnecting :
    l.charLevel.fctSentThisConnecting = l.fctSentThisConnecting := rfl

@[simp] theorem charLevel_rxFifoCapacityNchars :
    l.charLevel.rxFifoCapacityNchars = l.rxFifoCapacityNchars := rfl

@[simp] theorem charLevel_errorResetCount :
    l.charLevel.errorResetCount = l.errorResetCount := rfl

end fields

theorem charLevel_fresh (hdecoder : l.decoder = Decoder.new) (hqueue : l.rxNcharQueue = []) :
    l.charLevel = l := by
  simp only [charLevel, hqueue, List.map_nil, ← hdecoder]
  rw [← hqueue]

theorem charLevel_onStateChange (out : Output) :
    (l.onStateChange out).charLevel = l.charLevel.onStateChange out := by
  cases hs : out.state <;>
    simp [onStateChange, startTimer, cancelTimer, enterErrorReset, charLevel, hs, Decoder.reset,
      Decoder.new]

theorem charLevel_feedFsm (e : Event) : (l.feedFsm e).charLevel = l.charLevel.feedFsm e := by
  have hchange := charLevel_onStateChange { l with fsm := l.fsm.feed e } (l.fsm.feed e).output
  simp only [feedFsm]
  split
  · rw [hchange, if_pos ‹_›]
    rfl
  · rw [if_neg ‹_›]
    rfl

theorem charLevel_runTimer (task : TimerTask) :
    (l.runTimer task).charLevel = l.charLevel.runTimer task := by
  simp only [runTimer]
  split
  · rw [charLevel_feedFsm, if_pos ‹_›]
    rfl
  · rw [if_neg ‹_›]
    rfl

theorem charLevel_disconnectWatchdog (disconnected : Bool) :
    (l.disconnectWatchdog disconnected).charLevel =
      l.charLevel.disconnectWatchdog disconnected := by
  cases hrx : l.fsm.output.rxEnabled <;> cases hgot : l.fsm.gotNullLatched <;>
    cases disconnected <;> simp [disconnectWatchdog, charLevel_feedFsm, hrx, hgot]

theorem charLevel_onRxCharacter (c : Character) :
    (l.onRxCharacter c).charLevel = l.charLevel.onRxCharacter c.onWire := by
  cases ht : c.type with
  | fct =>
    simp only [onRxCharacter, Character.onWire_type, ht, charLevel_credit]
    cases l.credit.onFctReceived with
    | error err => exact l.charLevel_feedFsm _
    | ok credit => rfl
  | data | eop | eep =>
    simp only [onRxCharacter, Character.onWire_type, ht, charLevel_fsm, charLevel_credit]
    by_cases hrun : l.fsm.state = .run
    · simp only [hrun, ne_eq, not_true_eq_false, if_false]
      cases l.credit.onNcharReceived with
      | error err => exact l.charLevel_feedFsm _
      | ok credit => simp [charLevel]
    · simp only [hrun, ne_eq, not_false_eq_true, if_true]
  | esc | null | timecode | broadcast => simp only [onRxCharacter, Character.onWire_type, ht]

theorem charLevel_rxCharacter {c : Character} (h : isHardError c.error = false) :
    (l.rxCharacter c).charLevel = l.charLevel.rxCharacter c.onWire := by
  have hsound : isHardError c.onWire.error = false := by
    rw [Character.onWire_error]
    rfl
  unfold rxCharacter dispatch parserCallbacks
  rw [hsound, Character.onWire_type, h]
  split
  · exact l.charLevel_feedFsm _
  · split
    · rfl
    · rw [charLevel_onRxCharacter, charLevel_feedFsm]

theorem rxCharacter_hardError {c : Character} (h : isHardError c.error = true) :
    l.rxCharacter c = l.feedFsm .rxErr := by
  unfold rxCharacter dispatch parserCallbacks
  rw [if_pos h]

/-- What a decoder makes of bits, whatever they are, is heard as noise is. -/
theorem charLevel_noise {c : Character}
    (hdata : c.type = .data → ∃ b : Nat, b < 256 ∧ c.value = some (b : Int)) :
    ∃ n : Noise, (l.rxCharacter c).charLevel = l.charLevel.rxCharacter n.heard := by
  cases herr : isHardError c.error with
  | true =>
    refine ⟨⟨c.type, 0, true⟩, ?_⟩
    rw [l.rxCharacter_hardError herr, l.charLevel.rxCharacter_hardError rfl, charLevel_feedFsm]
  | false =>
    rw [l.charLevel_rxCharacter herr]
    by_cases ht : c.type = .data
    · obtain ⟨b, hb, hvalue⟩ := hdata ht
      exact ⟨⟨.data, ⟨b, hb⟩, false⟩, by simp [Character.onWire, Noise.heard, ht, hvalue]⟩
    · exact ⟨⟨c.type, 0, false⟩, by simp [Character.onWire, Character.ofType, Noise.heard, ht]⟩

theorem charLevel_charSent (c : Character) (wasNchar : Bool) :
    (l.charSent c wasNchar).charLevel = l.charLevel.charSent c wasNchar := by
  have hfed : (if c.type = .null then l.feedFsm .sentNull
      else if c.type = .fct then l.feedFsm .sentFct else l).charLevel =
      if c.type = .null then l.charLevel.feedFsm .sentNull
      else if c.type = .fct then l.charLevel.feedFsm .sentFct else l.charLevel := by
    simp only [apply_ite charLevel, charLevel_feedFsm]
  simp only [charSent]
  rw [← hfed]
  generalize (if c.type = .null then l.feedFsm .sentNull
    else if c.type = .fct then l.feedFsm .sentFct else l) = m
  cases wasNchar with
  | false => rfl
  | true => by_cases hz : m.txNcharOutstanding - 1 = 0 <;> simp [hz, charLevel]

theorem charLevel_nextChar (mode : TxMode) :
    l.charLevel.nextChar mode = ((l.nextChar mode).1.charLevel, (l.nextChar mode).2) := by
  cases mode with
  | sendNulls => rfl
  | sendNullsFcts =>
    cases hn : l.onlyNulls with
    | true => simp [nextChar, hn]
    | false =>
      cases hf : l.fctSentThisConnecting with
      | true => simp [nextChar, hn, hf]
      | false =>
        cases hs : l.credit.onFctSent <;> simp [nextChar, charLevel, hn, hf, hs]
  | reset | sendNullsFctsNcharsTimecodes =>
    cases hs : l.credit.shouldSendFct (l.rxFifoCapacityNchars - l.rxNcharQueue.length) with
    | true => cases hc : l.credit.onFctSent <;> simp [nextChar, charLevel, hs, hc]
    | false =>
      cases hq : l.txNcharQueue with
      | nil => simp [nextChar, hs, hq]
      | cons char rest =>
        cases hc : l.credit.canSend with
        | false => simp [nextChar, hs, hq, hc]
        | true => cases hn : l.credit.onNcharSent <;> simp [nextChar, charLevel, hs, hq, hc, hn]

theorem charLevel_sendPacket (data : List Int) (terminator : String) :
    l.charLevel.sendPacket data terminator =
      (l.sendPacket data terminator).map fun x => (x.1.charLevel, x.2) := by
  have hfold (cs : List Character) (l : SpaceWireLink) :
      cs.foldl enqueueNchar l.charLevel = (cs.foldl enqueueNchar l).charLevel := by
    induction cs generalizing l with
    | nil => rfl
    | cons c cs ih => exact ih (l.enqueueNchar c)
  unfold sendPacket
  split
  · rfl
  · rw [hfold]
    rfl

end SpaceWireLink

open Accounting SpaceWireLink

/-- Unless the link was dropped, its codecs stand where they stood. -/
structure CodecsKept (l l' : SpaceWireLink) : Prop where
  resets : l.errorResetCount ≤ l'.errorResetCount
  codecs : l'.errorResetCount = l.errorResetCount →
    l'.encoder = l.encoder ∧ l'.decoder = l.decoder

namespace CodecsKept

variable {l l' m : SpaceWireLink}

theorem of_eq (h : (l'.errorResetCount, l'.encoder, l'.decoder) =
    (l.errorResetCount, l.encoder, l.decoder)) : CodecsKept l l' := by
  simp only [Prod.mk.injEq] at h
  obtain ⟨hr, he, hd⟩ := h
  exact ⟨hr.ge, fun _ => ⟨he, hd⟩⟩

theorem trans (h : CodecsKept l m) (h' : CodecsKept m l') : CodecsKept l l' := by
  have hle := h.resets
  have hle' := h'.resets
  refine ⟨hle.trans hle', fun heq => ?_⟩
  obtain ⟨he, hd⟩ := h.codecs (by omega)
  obtain ⟨he', hd'⟩ := h'.codecs (by omega)
  exact ⟨he'.trans he, hd'.trans hd⟩

theorem feedFsm (l : SpaceWireLink) (e : Event) : CodecsKept l (l.feedFsm e) := by
  have henc : (l.feedFsm e).encoder = if l.fsm.drops e then l.encoder.reset else l.encoder := by
    apply feedFsm_drops l e SpaceWireLink.encoder rfl
    cases hs : (l.fsm.feed e).state <;>
      simp [onStateChange, startTimer, cancelTimer, enterErrorReset, LinkFSM.output, hs]
  have hdec : (l.feedFsm e).decoder = if l.fsm.drops e then l.decoder.reset else l.decoder := by
    apply feedFsm_drops l e SpaceWireLink.decoder rfl
    cases hs : (l.fsm.feed e).state <;>
      simp [onStateChange, startTimer, cancelTimer, enterErrorReset, LinkFSM.output, hs]
  have hcount := l.feedFsm_errorResetCount e
  cases hdrop : l.fsm.drops e with
  | false =>
    apply of_eq
    rw [hcount, henc, hdec, hdrop]
    rfl
  | true =>
    rw [hdrop] at hcount
    refine ⟨by simp [hcount], fun heq => ?_⟩
    simp [hcount] at heq

theorem picked {mode : TxMode} {c : Character} {b : Bool} (h : l.Picked mode l' c b) :
    CodecsKept l l' := by
  cases h <;> exact of_eq rfl

theorem handled {c : Character} (h : Handled l c l') : CodecsKept l l' := by
  cases h with
  | fct | nchar | discarded | other => exact of_eq rfl
  | overflow | unexpected => exact feedFsm l _

theorem rxCharacter (l : SpaceWireLink) (c : Character) : CodecsKept l (l.rxCharacter c) := by
  unfold SpaceWireLink.rxCharacter dispatch
  split
  · exact feedFsm l _
  · split
    · exact of_eq rfl
    · exact (feedFsm l _).trans (handled (onRxCharacter_handled _ c))

theorem charSent (l : SpaceWireLink) (c : Character) (b : Bool) :
    CodecsKept l (l.charSent c b) := by
  have hfed : CodecsKept l (if c.type = .null then l.feedFsm .sentNull
      else if c.type = .fct then l.feedFsm .sentFct else l) := by
    split
    · exact feedFsm l _
    · split
      · exact feedFsm l _
      · exact of_eq rfl
  obtain ⟨n, d, heq⟩ := l.charSent_eq c b
  rw [heq]
  exact hfed.trans (of_eq rfl)

theorem enqueue (cs : List Character) (l : SpaceWireLink) :
    CodecsKept l (cs.foldl enqueueNchar l) := by
  apply Run.run_related (R := CodecsKept) (fun l => of_eq rfl) trans
  exact fun l c => of_eq rfl

theorem act {p : Endpoint} {a : Action} (ha : a ≠ .txLoop) : CodecsKept p.link (p.act a).link := by
  cases a with
  | feed e =>
    simp only [Endpoint.act]
    split
    · exact feedFsm p.link e
    · exact of_eq rfl
  | expire task =>
    have herased : CodecsKept p.link
        { p.link with scheduledTimers := p.link.scheduledTimers.erase task } := of_eq rfl
    simp only [Endpoint.act, runTimer]
    split
    · split
      · exact herased.trans (feedFsm _ _)
      · exact herased
    · exact of_eq rfl
  | watchdog disconnected =>
    simp only [Endpoint.act, disconnectWatchdog]
    repeat' split
    all_goals first | exact feedFsm p.link _ | exact of_eq rfl
  | txLoop => exact absurd rfl ha
  | sendPacket data terminator =>
    simp only [Endpoint.act, sendPacket]
    cases SpaceWirePacket.create data terminator with
    | error err => exact of_eq rfl
    | ok pkt => exact enqueue pkt.nchars p.link
  | sendChar char =>
    simp only [Endpoint.act, sendChar]
    cases char.isNChar with
    | false => exact of_eq rfl
    | true => exact enqueue [char] p.link
  | recvPacket =>
    simp only [Endpoint.act, Endpoint.stepRecvPacket]
    split
    · exact of_eq rfl
    · split
      · rw [Endpoint.returnPacket_link]
        exact of_eq rfl
      · rw [Endpoint.returnPacket_link]
        exact of_eq rfl
      · exact of_eq rfl

theorem start {cfg : LinkConfig} {p : Endpoint} (h : Endpoint.start cfg = .ok p) :
    p.link.encoder = Encoder.new ∧ p.link.decoder = Decoder.new := by
  have hkept := (start_cases (Q := fun l => ∃ m, SpaceWireLink.new cfg = .ok m ∧ CodecsKept m l)
    (fun l hl => ⟨l, hl, of_eq rfl⟩)
    (fun l e _ ⟨m, hm, hkept⟩ => ⟨m, hm, hkept.trans (feedFsm l e)⟩) h).1
  obtain ⟨m, hm, hkept⟩ := hkept
  obtain ⟨-, -, -, -, -, -, -, -, hzero⟩ := new_ok hm
  obtain ⟨hencoder, hdecoder⟩ := hkept.codecs ((fresh_start h).resets.trans hzero.symm)
  rw [hencoder, hdecoder, (new_idle hm).1]
  refine ⟨?_, rfl⟩
  unfold SpaceWireLink.new at hm
  dsimp only at hm
  split at hm <;> cases hm
  rfl

end CodecsKept

def NCharsQueued (l : SpaceWireLink) : Prop := ∀ c ∈ l.rxNcharQueue, c.isNChar = true

theorem kept_ncharsQueued : Kept NCharsQueued where
  feedFsm := by
    intro l e h
    unfold NCharsQueued
    rw [feedFsm_rxNcharQueue]
    exact h
  frame := by
    intro l l' h hsame
    unfold NCharsQueued
    rw [hsame.rxQueue]
    exact h
  read := by
    intro l c rest hq h d hd
    exact h d (by rw [hq]; exact List.mem_cons_of_mem c hd)

theorem NCharsQueued.handled {l l' : SpaceWireLink} {c : Character} (h : NCharsQueued l)
    (hh : Handled l c l') : NCharsQueued l' := by
  cases hh with
  | fct | discarded | other => exact h
  | overflow | unexpected => exact kept_ncharsQueued.feedFsm _ h
  | nchar hc =>
    intro d hd
    obtain hd | hd := List.mem_append.mp hd
    · exact h d hd
    · rwa [List.mem_singleton.mp hd]

theorem NCharsQueued.rxCharacter {l : SpaceWireLink} (h : NCharsQueued l) (c : Character) :
    NCharsQueued (l.rxCharacter c) :=
  kept_ncharsQueued.rxCharacter h c fun _ _ _ _ hfed hh => hfed.handled hh

theorem NCharsQueued.act {p : Endpoint} (h : NCharsQueued p.link) (a : Action) :
    NCharsQueued (p.act a).link :=
  kept_ncharsQueued.act h a fun _ _ l' c b hp => by
    generalize stateTx p.link.fsm.state = mode at hp
    cases hp <;> exact h

namespace Endpoint

/-- What the character level shows of an endpoint, its transmit coroutine being at `t`. -/
def seen (p : Endpoint) (t : TxLoop) : Endpoint := { p with link := p.link.charLevel, txLoop := t }

variable (p : Endpoint) (t : TxLoop)

@[simp] theorem seen_link : (p.seen t).link = p.link.charLevel := rfl

@[simp] theorem seen_txLoop : (p.seen t).txLoop = t := rfl

theorem seen_returnPacket (r : Except Exn SpaceWirePacket) :
    (p.returnPacket r).seen t = (p.seen t).returnPacket r := by
  cases r <;> rfl

theorem seen_rxCharacter {c : Character} (h : c.error = []) :
    (p.rxCharacter c).seen t = (p.seen t).rxCharacter c.onWire := by
  have hsound : isHardError c.error = false := by
    rw [h]
    rfl
  simp only [rxCharacter, seen, charLevel_rxCharacter _ hsound]

theorem seen_stepRecvPacket (h : NCharsQueued p.link) :
    p.stepRecvPacket.seen t = (p.seen t).stepRecvPacket := by
  simp only [stepRecvPacket, seen_link, charLevel_rxNcharQueue]
  cases hq : p.link.rxNcharQueue with
  | nil => rfl
  | cons c rest =>
    have hc := h c (by rw [hq]; exact List.mem_cons_self ..)
    simp only [List.map_cons, Character.onWire_type]
    cases ht : c.type with
    | eop | eep => exact seen_returnPacket _ t _
    | data =>
      simp only [Character.onWire_value ht]
      rfl
    | fct | esc | null | timecode | broadcast => simp [Character.isNChar, isNCharType, ht] at hc

theorem seen_act {a : Action} (ha : a ≠ .txLoop) (h : NCharsQueued p.link) :
    (p.act a).seen t = (p.seen t).act a := by
  cases a with
  | feed e =>
    simp only [act]
    split
    · simp only [seen, charLevel_feedFsm]
    · rfl
  | expire task =>
    by_cases hmem : task ∈ p.link.scheduledTimers
    · simp [act, hmem, seen, charLevel_runTimer]
    · simp [act, hmem]
  | watchdog disconnected => simp only [act, seen, charLevel_disconnectWatchdog]
  | txLoop => exact absurd rfl ha
  | sendPacket data terminator =>
    simp only [act, seen_link, charLevel_sendPacket]
    cases p.link.sendPacket data terminator <;> rfl
  | sendChar char =>
    simp only [act, seen_link, sendChar]
    cases char.isNChar <;> rfl
  | recvPacket => exact p.seen_stepRecvPacket t h

/-- A turn of the transmit coroutine that the character level has not been shown yet. -/
theorem seen_stepTxLoop : p.stepTxLoop.seen p.stepTxLoop.txLoop = (p.seen p.txLoop).stepTxLoop := by
  cases htx : p.txLoop with
  | top =>
    simp only [stepTxLoop, htx, seen_txLoop, seen_link, charLevel_fsm, charLevel_nextChar]
    split
    · rfl
    · obtain ⟨link, r⟩ := p.link.nextChar p.link.fsm.output.txMode
      cases r with
      | error err => rfl
      | ok x =>
        obtain ⟨c, b⟩ := x
        simp only [charLevel_encoder]
        obtain ⟨e, bits⟩ := link.encoder.encode c
        cases bits <;> rfl
  | parked =>
    cases hw : p.link.txWakeup with
    | true => simp [stepTxLoop, htx, hw, seen]
    | false => simp [stepTxLoop, htx, hw]
  | sending c b bits => simp only [stepTxLoop, htx, seen]
  | driven c b => simp only [stepTxLoop, htx, seen, charLevel_charSent]
  | dead => simp only [stepTxLoop, htx, seen_txLoop]

end Endpoint

end SpaceWire
