import SpaceWire.Accounting
import SpaceWire.Framing
import SpaceWire.Network

namespace SpaceWire.Traffic

open SpaceWireLink Accounting

/-- Every character an endpoint holds belongs to a packet or is NULL or FCT. -/
structure Clean (p : Endpoint) : Prop where
  alive : p.txLoop ≠ .dead
  queued : ∀ c ∈ p.link.txNcharQueue, PacketChar c
  underWay : ∀ c ∈ p.txLoop.underWay, LineChar c
  unread : ∀ c ∈ p.link.rxNcharQueue, PacketChar c
  bytes : ∀ b ∈ p.recvData, 0 ≤ b ∧ b ≤ 0xFF

/-- All that the accounting of credit needs: the transmit queue holds N-Chars, and what is
under way arrives as a character that links put on the line. -/
structure Regular (p : Endpoint) : Prop where
  queued : ∀ c ∈ p.link.txNcharQueue, c.isNChar = true
  underWay : ∀ c ∈ p.txLoop.underWay, LineChar c.onWire

theorem Clean.regular {p : Endpoint} (h : Clean p) : Regular p := by
  refine ⟨fun c hc => (h.queued c hc).isNChar, fun c hc => ?_⟩
  have hline := h.underWay c hc
  rwa [hline.onWire]

theorem Clean.emits {p : Endpoint} (h : Clean p) : p.emits .txLoop = p.txLoop.underWay := by
  have hsame : p.txLoop.underWay.map Character.onWire = p.txLoop.underWay.map id :=
    List.map_congr_left fun c hc => (h.underWay c hc).onWire
  rw [Endpoint.emits, hsame, List.map_id]

/-- The N-Chars that were enqueued and have not been put on the line. -/
def pending (p : Endpoint) : List Character :=
  p.txLoop.underWay.filter Character.isNChar ++ p.link.txNcharQueue

/-- The N-Chars that were put in the receive queue, read or not. -/
def taken (p : Endpoint) : List Character :=
  p.received.flatMap SpaceWirePacket.nchars ++ p.recvData.map dataChar ++ p.link.rxNcharQueue

/-- What one turn of the transmit loop does. -/
inductive Turned (p : Endpoint) : Endpoint → Prop
  | sleep (h : p.txLoop = .parked) : Turned p p
  | park (h : p.txLoop = .top) (hmode : stateTx p.link.fsm.state = .reset) :
      Turned p { p with link := { p.link with txWakeup := false }, txLoop := .parked }
  | wake (h : p.txLoop = .parked) : Turned p { p with txLoop := .top }
  | pick {link : SpaceWireLink} {char : Character} {wasNchar : Bool} {encoder : Encoder}
      {bits : List Bool} (h : p.txLoop = .top) (hmode : stateTx p.link.fsm.state ≠ .reset)
      (hp : p.link.Picked (stateTx p.link.fsm.state) link char wasNchar) (hc : LineChar char) :
      Turned p { p with link := { link with encoder }, txLoop := .sending char wasNchar bits }
  | drive {char : Character} {wasNchar : Bool} {bits : List Bool}
      (h : p.txLoop = .sending char wasNchar bits) :
      Turned p { p with txLoop := .driven char wasNchar }
  | done {char : Character} {wasNchar : Bool} (h : p.txLoop = .driven char wasNchar) :
      Turned p { p with link := p.link.charSent char wasNchar, txLoop := .top }

theorem picked_lineChar {l l' : SpaceWireLink} {mode : TxMode} {c : Character} {b : Bool}
    (hq : ∀ c ∈ l.txNcharQueue, PacketChar c) (h : l.Picked mode l' c b) : LineChar c := by
  cases h with
  | null => exact .null
  | handshake | uncredited | fct => exact .fct
  | nchar hno hqueue => exact .packet (hq c (by simp [hqueue]))

/-- A character that is picked and accepted by the encoder arrives as one that links put on
the line. -/
theorem picked_onWire {l l' : SpaceWireLink} {mode : TxMode} {c : Character} {b : Bool}
    {e e' : Encoder} {bits : List Bool} (hq : ∀ c ∈ l.txNcharQueue, c.isNChar = true)
    (h : l.Picked mode l' c b) (henc : e.encode c = (e', .ok bits)) : LineChar c.onWire := by
  cases h with
  | null => exact .null
  | handshake | uncredited | fct => exact .fct
  | nchar hno hqueue => exact .packet (packetChar_onWire (hq c (by simp [hqueue])) henc)

theorem turned {p : Endpoint} (h : Clean p) : Turned p p.stepTxLoop := by
  have ht := p.txTurn
  generalize p.stepTxLoop = p' at ht
  cases ht with
  | rest htx => exact .sleep htx
  | ended htx => exact absurd htx h.alive
  | park htx hmode => exact .park htx hmode
  | wake htx => exact .wake htx
  | pick htx hmode hp => exact .pick htx hmode hp (picked_lineChar h.queued hp)
  | @reject link _ _ _ _ _ _ hp henc =>
    obtain ⟨e', bits, hok⟩ := (picked_lineChar h.queued hp).encode link.encoder
    rw [hok] at henc
    cases henc
  | drive htx => exact .drive htx
  | done htx => exact .done htx

section queues

variable (l : SpaceWireLink)

theorem charSent_queues (c : Character) (b : Bool) :
    (l.charSent c b).txNcharQueue = l.txNcharQueue ∧
      (l.charSent c b).rxNcharQueue = l.rxNcharQueue := by
  obtain ⟨n, d, heq⟩ := l.charSent_eq c b
  rw [heq]
  dsimp only
  split
  · simp
  · split <;> simp

theorem runTimer_queues (t : TimerTask) :
    (l.runTimer t).txNcharQueue = l.txNcharQueue ∧
      (l.runTimer t).rxNcharQueue = l.rxNcharQueue := by
  unfold runTimer
  dsimp only
  split <;> simp

theorem disconnectWatchdog_queues (d : Bool) :
    (l.disconnectWatchdog d).txNcharQueue = l.txNcharQueue ∧
      (l.disconnectWatchdog d).rxNcharQueue = l.rxNcharQueue := by
  unfold disconnectWatchdog
  repeat' split
  all_goals simp

theorem enqueue_queues (cs : List Character) :
    (cs.foldl enqueueNchar l).txNcharQueue = l.txNcharQueue ++ cs ∧
      (cs.foldl enqueueNchar l).rxNcharQueue = l.rxNcharQueue := by
  induction cs generalizing l with
  | nil => simp
  | cons c cs ih =>
    obtain ⟨htx, hrx⟩ := ih (l.enqueueNchar c)
    exact ⟨by rw [List.foldl_cons, htx]; simp [enqueueNchar], by rw [List.foldl_cons, hrx]; rfl⟩

end queues

variable {p p' : Endpoint} {a : Action}

inductive Read (p : Endpoint) : Endpoint → Prop
  | wait (hq : p.link.rxNcharQueue = []) : Read p p
  | data {b : Int} {rest : List Character} (hq : p.link.rxNcharQueue = dataChar b :: rest)
      (hb : 0 ≤ b ∧ b ≤ 0xFF) :
      Read p { p with link := { p.link with rxNcharQueue := rest }
                      recvData := p.recvData ++ [b] }
  | packet {c : Character} {rest : List Character} {pkt : SpaceWirePacket}
      (hq : p.link.rxNcharQueue = c :: rest)
      (hpkt : pkt.nchars = p.recvData.map dataChar ++ [c]) :
      Read p { p with link := { p.link with rxNcharQueue := rest }
                      recvData := []
                      received := p.received ++ [pkt] }

theorem read (h : Clean p) : Read p p.stepRecvPacket := by
  unfold Endpoint.stepRecvPacket
  cases hq : p.link.rxNcharQueue with
  | nil => exact .wait hq
  | cons c rest =>
    have hc := h.unread c (by simp [hq])
    cases hc with
    | data hb => exact .data hq hb
    | eop =>
      have hcreate : SpaceWirePacket.eop p.recvData = .ok ⟨p.recvData, .eop, h.bytes⟩ := by
        simp [SpaceWirePacket.eop, SpaceWirePacket.create, validateData_ok h.bytes,
          Terminator.ofString]
      simp only [Character.ofType, hcreate, Endpoint.returnPacket]
      exact .packet hq rfl
    | eep =>
      have hcreate : SpaceWirePacket.eep p.recvData = .ok ⟨p.recvData, .eep, h.bytes⟩ := by
        simp [SpaceWirePacket.eep, SpaceWirePacket.create, validateData_ok h.bytes,
          Terminator.ofString]
      simp only [Character.ofType, hcreate, Endpoint.returnPacket]
      exact .packet hq rfl

theorem Read.taken (h : Read p p') : taken p' = taken p := by
  cases h with
  | wait => rfl
  | data hq => simp [Traffic.taken, hq]
  | packet hq hpkt => simp [Traffic.taken, hq, hpkt]

theorem picked_queues {l l' : SpaceWireLink} {mode : TxMode} {c : Character} {b : Bool}
    (hq : ∀ c ∈ l.txNcharQueue, PacketChar c) (h : l.Picked mode l' c b) :
    [c].filter Character.isNChar ++ l'.txNcharQueue = l.txNcharQueue ∧
      l'.rxNcharQueue = l.rxNcharQueue := by
  cases h with
  | null | handshake | uncredited | fct => exact ⟨rfl, rfl⟩
  | nchar hno hqueue =>
    have hc := (hq c (by simp [hqueue])).isNChar
    simp [hqueue, hc]

/-- A turn of the transmit loop moves N-Chars towards the line, in order. -/
theorem Turned.stream (h : Clean p) (ht : Turned p p') :
    p.txLoop.underWay.filter Character.isNChar ++ pending p' = pending p := by
  cases ht with
  | sleep htx | park htx | wake htx | drive htx => simp [pending, htx, TxLoop.underWay]
  | @done c b htx =>
    simp [pending, htx, (charSent_queues p.link c b).1, TxLoop.underWay]
  | pick htx hmode hp =>
    have hqueue := (picked_queues h.queued hp).1
    simpa [pending, htx, TxLoop.underWay] using hqueue

theorem Turned.taken (h : Clean p) (ht : Turned p p') :
    p'.sent = p.sent ∧ taken p' = taken p := by
  cases ht with
  | sleep | park | wake | drive => exact ⟨rfl, rfl⟩
  | @done c b htx => simp [Traffic.taken, (charSent_queues p.link c b).2]
  | pick htx hmode hp => simp [Traffic.taken, (picked_queues h.queued hp).2]

/-- `send_packet` appends the N-Chars of the packet; every other action moves what is
already there. -/
theorem act_stream (h : Clean p) (ha : a.packetLevel = true) :
    ∃ extra, (p.act a).sent = p.sent ++ extra ∧
      (p.emits a).filter Character.isNChar ++ pending (p.act a) =
        pending p ++ extra.flatMap SpaceWirePacket.nchars := by
  cases a with
  | feed e =>
    refine ⟨[], ?_⟩
    simp only [Endpoint.act, Endpoint.emits]
    split <;> simp [pending]
  | expire task =>
    refine ⟨[], ?_⟩
    simp only [Endpoint.act, Endpoint.emits]
    split <;> simp [pending, (runTimer_queues p.link task).1]
  | watchdog disconnected =>
    exact ⟨[], by simp [Endpoint.act, Endpoint.emits, pending,
      (disconnectWatchdog_queues p.link disconnected).1]⟩
  | txLoop =>
    have ht := turned h
    exact ⟨[], by simp [Endpoint.act, (ht.taken h).1],
      by simpa [Endpoint.act, h.emits] using ht.stream h⟩
  | sendPacket data terminator =>
    simp only [Endpoint.act, sendPacket, Endpoint.emits]
    cases SpaceWirePacket.create data terminator with
    | error err => exact ⟨[], by simp⟩
    | ok pkt =>
      exact ⟨[pkt], rfl, by simp [pending, (enqueue_queues p.link pkt.nchars).1]⟩
  | sendChar char => cases ha
  | recvPacket =>
    have hr := read h
    refine ⟨[], ?_⟩
    simp only [Endpoint.act, Endpoint.emits]
    generalize p.stepRecvPacket = p' at hr
    cases hr <;> simp [pending]

theorem act_taken (h : Clean p) : taken (p.act a) = taken p := by
  cases a with
  | feed e =>
    simp only [Endpoint.act]
    split <;> simp [taken]
  | expire task =>
    simp only [Endpoint.act]
    split <;> simp [taken, (runTimer_queues p.link task).2]
  | watchdog disconnected =>
    simp [Endpoint.act, taken, (disconnectWatchdog_queues p.link disconnected).2]
  | txLoop => exact ((turned h).taken h).2
  | sendPacket data terminator =>
    simp only [Endpoint.act, sendPacket]
    cases SpaceWirePacket.create data terminator with
    | error err => rfl
    | ok pkt => simp [taken, (enqueue_queues p.link pkt.nchars).2]
  | sendChar char =>
    simp only [Endpoint.act, sendChar]
    cases char.isNChar <;> rfl
  | recvPacket => exact (read h).taken

theorem picked_regular {l l' : SpaceWireLink} {mode : TxMode} {c : Character} {b : Bool}
    (hq : ∀ c ∈ l.txNcharQueue, c.isNChar = true) (h : l.Picked mode l' c b) :
    ∀ c ∈ l'.txNcharQueue, c.isNChar = true := by
  cases h with
  | null | handshake | uncredited | fct => exact hq
  | nchar hno hqueue => exact fun d hd => hq d (by simp [hqueue, hd])

theorem Regular.txLoop (h : Regular p) : Regular p.stepTxLoop := by
  have ht := p.txTurn
  generalize p.stepTxLoop = p' at ht
  cases ht with
  | rest | ended => exact h
  | park | wake | drive => exact ⟨h.queued, by simp [TxLoop.underWay]⟩
  | pick _ _ hp henc =>
    have hqueued := picked_regular h.queued hp
    refine ⟨hqueued, fun d hd => ?_⟩
    obtain rfl := List.mem_singleton.mp hd
    exact picked_onWire h.queued hp henc
  | reject _ _ hp =>
    have hqueued := picked_regular h.queued hp
    exact ⟨hqueued, by simp [TxLoop.underWay]⟩
  | done =>
    exact ⟨by simpa only [(charSent_queues p.link _ _).1] using h.queued, by simp [TxLoop.underWay]⟩

theorem Regular.act (h : Regular p) : Regular (p.act a) := by
  have hlink (l : SpaceWireLink) (hl : l.txNcharQueue = p.link.txNcharQueue) :
      Regular { p with link := l } := ⟨by simpa only [hl] using h.queued, h.underWay⟩
  have henqueue (cs : List Character) (hcs : ∀ c ∈ cs, c.isNChar = true) :
      Regular { p with link := cs.foldl enqueueNchar p.link } := by
    refine ⟨fun c hc => ?_, h.underWay⟩
    rw [(enqueue_queues p.link cs).1] at hc
    obtain hc | hc := List.mem_append.mp hc
    · exact h.queued c hc
    · exact hcs c hc
  cases a with
  | feed e =>
    simp only [Endpoint.act]
    split <;> [exact hlink _ (by simp); exact h]
  | expire task =>
    simp only [Endpoint.act]
    split <;> [exact hlink _ (runTimer_queues _ _).1; exact h]
  | watchdog disconnected => exact hlink _ (disconnectWatchdog_queues _ _).1
  | txLoop => exact h.txLoop
  | sendPacket data terminator =>
    simp only [Endpoint.act, sendPacket]
    cases SpaceWirePacket.create data terminator with
    | error err => exact h
    | ok pkt =>
      obtain ⟨hqueued, hway⟩ := henqueue pkt.nchars fun c hc =>
        (SpaceWirePacket.packetChar_of_mem_nchars hc).isNChar
      exact ⟨hqueued, hway⟩
  | sendChar c =>
    simp only [Endpoint.act, sendChar]
    cases hc : c.isNChar with
    | false => exact h
    | true => exact henqueue [c] (by simp [hc])
  | recvPacket =>
    simp only [Endpoint.act, Endpoint.stepRecvPacket]
    repeat' split
    · exact h
    all_goals exact ⟨by simpa using h.queued, by simpa using h.underWay⟩

theorem Turned.clean (h : Clean p) (ht : Turned p p') : Clean p' := by
  cases ht with
  | sleep => exact h
  | park | wake | drive =>
    exact ⟨by simp, h.queued, by simp [TxLoop.underWay], h.unread, h.bytes⟩
  | @done c b htx =>
    obtain ⟨htq, hrq⟩ := charSent_queues p.link c b
    exact ⟨by simp, by simpa only [htq] using h.queued, by simp [TxLoop.underWay],
      by simpa only [hrq] using h.unread, h.bytes⟩
  | pick htx hmode hp hc =>
    obtain ⟨htq, hrq⟩ := picked_queues h.queued hp
    refine ⟨by simp, fun d hd => ?_, ?_, fun d hd => h.unread d (by rwa [← hrq]), h.bytes⟩
    · exact h.queued d (by rw [← htq]; exact List.mem_append_right _ hd)
    · simpa [TxLoop.underWay] using hc

theorem Read.clean (h : Clean p) (hr : Read p p') : Clean p' := by
  cases hr with
  | wait => exact h
  | data hq hb =>
    refine ⟨h.alive, h.queued, h.underWay, fun d hd => h.unread d (by simp [hq, hd]), ?_⟩
    intro b hmem
    obtain hmem | hmem := List.mem_append.mp hmem
    · exact h.bytes b hmem
    · obtain rfl := List.mem_singleton.mp hmem
      exact hb
  | packet hq =>
    exact ⟨h.alive, h.queued, h.underWay, fun d hd => h.unread d (by simp [hq, hd]), by simp⟩

theorem act_clean (h : Clean p) (ha : a.packetLevel = true) : Clean (p.act a) := by
  have hlink (l : SpaceWireLink) (hl : l.txNcharQueue = p.link.txNcharQueue ∧
      l.rxNcharQueue = p.link.rxNcharQueue) : Clean { p with link := l } :=
    ⟨h.alive, by simpa only [hl.1] using h.queued, h.underWay,
      by simpa only [hl.2] using h.unread, h.bytes⟩
  cases a with
  | feed e =>
    simp only [Endpoint.act]
    split <;> [exact hlink _ (by simp); exact h]
  | expire task =>
    simp only [Endpoint.act]
    split <;> [exact hlink _ (runTimer_queues _ _); exact h]
  | watchdog disconnected => exact hlink _ (disconnectWatchdog_queues _ _)
  | txLoop => exact (turned h).clean h
  | sendPacket data terminator =>
    simp only [Endpoint.act, sendPacket]
    cases SpaceWirePacket.create data terminator with
    | error err => exact h
    | ok pkt =>
      obtain ⟨htq, hrq⟩ := enqueue_queues p.link pkt.nchars
      refine ⟨h.alive, fun c hc => ?_, h.underWay, by simpa only [hrq] using h.unread, h.bytes⟩
      rw [htq] at hc
      obtain hc | hc := List.mem_append.mp hc
      · exact h.queued c hc
      · exact SpaceWirePacket.packetChar_of_mem_nchars hc
  | sendChar char => cases ha
  | recvPacket => exact (read h).clean h

theorem emits_lineChar (h : Regular p) : ∀ c ∈ p.emits a, LineChar c := by
  cases a with
  | txLoop =>
    intro c hc
    obtain ⟨d, hd, rfl⟩ := List.mem_map.mp hc
    exact h.underWay d hd
  | feed | expire | watchdog | sendPacket | sendChar | recvPacket => simp [Endpoint.emits]

theorem rxCharacter_queues (l : SpaceWireLink) (c : Character) :
    (l.rxCharacter c).txNcharQueue = l.txNcharQueue ∧
      ((l.rxCharacter c).rxNcharQueue = l.rxNcharQueue ∨
        isHardError c.error = false ∧ c.isNChar = true ∧
          (l.rxCharacter c).rxNcharQueue = l.rxNcharQueue ++ [c]) := by
  unfold rxCharacter dispatch
  cases herr : isHardError c.error with
  | true => simp [parserCallbacks]
  | false =>
    cases hev : characterEvent c.type with
    | none => simp
    | some e =>
      have hh := onRxCharacter_handled (l.feedFsm e) c
      simp only [parserCallbacks, Bool.false_eq_true, if_false]
      generalize (l.feedFsm e).onRxCharacter c = l' at hh
      cases hh with
      | nchar hc => exact ⟨by simp, .inr ⟨trivial, hc, by simp⟩⟩
      | fct | overflow | unexpected | discarded | other => simp

theorem Regular.rxCharacter (h : Regular p) (c : Character) : Regular (p.rxCharacter c) := by
  refine ⟨?_, h.underWay⟩
  simpa only [Endpoint.rxCharacter, (rxCharacter_queues p.link c).1] using h.queued

theorem LineChar.packetChar {c : Character} (h : LineChar c) (hc : c.isNChar = true) :
    PacketChar c := by
  cases h with
  | null | fct => cases hc
  | packet h => exact h

theorem rxCharacter_clean {c : Character} (h : Clean p)
    (hc : isHardError c.error = false → c.isNChar = true → PacketChar c) :
    Clean (p.rxCharacter c) := by
  obtain ⟨htq, hrq⟩ := rxCharacter_queues p.link c
  refine ⟨h.alive, by simpa only [Endpoint.rxCharacter, htq] using h.queued, h.underWay, ?_,
    h.bytes⟩
  obtain hrq | ⟨herr, hn, hrq⟩ := hrq
  · simpa only [Endpoint.rxCharacter, hrq] using h.unread
  · intro d hd
    rw [Endpoint.rxCharacter, hrq] at hd
    obtain hd | hd := List.mem_append.mp hd
    · exact h.unread d hd
    · obtain rfl := List.mem_singleton.mp hd
      exact hc herr hn

def isTerminator (c : Character) : Bool := c.type = .eop || c.type = .eep

theorem isFrame_nchars (p : SpaceWirePacket) : Framing.IsFrame isTerminator p.nchars := by
  refine ⟨p.data.map dataChar, .ofType p.terminator.charType, rfl, ?_, ?_⟩
  · intro c hc
    obtain ⟨b, -, rfl⟩ := List.mem_map.mp hc
    rfl
  · cases p.terminator <;> rfl

theorem nchars_injective : Function.Injective SpaceWirePacket.nchars := by
  intro p q h
  obtain ⟨d, t, hd⟩ := p
  obtain ⟨d', t', hd'⟩ := q
  obtain ⟨hdata, hterm⟩ := List.append_inj' h rfl
  have hdataChar : Function.Injective dataChar := fun b b' hb => by simpa [dataChar] using hb
  obtain rfl := hdataChar.list_map hdata
  have ht : t = t' := by
    cases t <;> cases t' <;> first | rfl | simp [Terminator.charType, Character.ofType] at hterm
  rw [SpaceWirePacket.mk.injEq]
  exact ⟨rfl, ht⟩

/-- Packets read off the front of the N-Chars of others, the last of them unfinished, are
the first of those. -/
theorem prefix_of_nchars {ps qs : List SpaceWirePacket} {r s : List Character}
    (hs : ∀ c ∈ s, isTerminator c = false)
    (h : ps.flatMap SpaceWirePacket.nchars ++ r = qs.flatMap SpaceWirePacket.nchars ++ s) :
    ps <+: qs := by
  have hframes (ps : List SpaceWirePacket) :
      ∀ f ∈ ps.map SpaceWirePacket.nchars, Framing.IsFrame isTerminator f := by
    intro f hf
    obtain ⟨p, -, rfl⟩ := List.mem_map.mp hf
    exact isFrame_nchars p
  have hprefix := Framing.prefix_of_flatten_append (hframes ps) (hframes qs) hs
    (by simpa only [List.flatMap_def] using h)
  exact (List.prefix_map_iff_of_injective nchars_injective).mp hprefix

/-- The credit has been `credit` for as long as the number of drops has been `n`. -/
def Steady (n : Nat) (credit : CreditCounter) (l : SpaceWireLink) : Prop :=
  n ≤ l.errorResetCount ∧ (l.errorResetCount = n → l.credit = credit)

theorem kept_steady (n : Nat) (credit : CreditCounter) : Kept (Steady n credit) where
  feedFsm := by
    intro l e h
    unfold Steady
    rw [feedFsm_errorResetCount, feedFsm_credit]
    have hle := h.1
    split
    · exact ⟨by omega, fun heq => by omega⟩
    · exact h
  frame := by
    intro l l' h hsame
    unfold Steady
    rw [hsame.resets, hsame.credit]
    exact h
  read := fun _ h => h

theorem steady_self (l : SpaceWireLink) : Steady l.errorResetCount l.credit l :=
  ⟨le_rfl, fun _ => rfl⟩

theorem kept_resets (n : Nat) : Kept (fun l => n ≤ l.errorResetCount) where
  feedFsm := by
    intro l e h
    rw [feedFsm_errorResetCount]
    split <;> omega
  frame := by
    intro l l' h hsame
    rw [hsame.resets]
    exact h
  read := fun _ h => h

theorem picked_resets {l l' : SpaceWireLink} {mode : TxMode} {c : Character} {b : Bool}
    (h : l.Picked mode l' c b) : l'.errorResetCount = l.errorResetCount := by
  cases h <;> rfl

theorem handled_resets {l l' : SpaceWireLink} {c : Character} (h : Handled l c l') :
    l.errorResetCount ≤ l'.errorResetCount := by
  cases h with
  | fct | nchar | discarded | other => exact le_rfl
  | overflow | unexpected => exact (kept_resets _).feedFsm _ le_rfl

theorem act_resets : p.link.errorResetCount ≤ (p.act a).link.errorResetCount :=
  (kept_resets _).act le_rfl a fun _ _ _ _ _ hp => (picked_resets hp).ge

theorem rxCharacter_resets (l : SpaceWireLink) (c : Character) :
    l.errorResetCount ≤ (l.rxCharacter c).errorResetCount :=
  (kept_resets _).rxCharacter le_rfl c fun _ _ _ _ hfed hh => hfed.trans (handled_resets hh)

theorem kept_maxRxCredit (m : Int) : Kept (fun l => l.credit.maxRxCredit = m) where
  feedFsm := by
    intro l e h
    rw [feedFsm_credit]
    split <;> exact h
  frame := by
    intro l l' h hsame
    rw [hsame.credit]
    exact h
  read := fun _ h => h

theorem picked_maxRxCredit {l l' : SpaceWireLink} {mode : TxMode} {c : Character} {b : Bool}
    (h : l.Picked mode l' c b) : l'.credit.maxRxCredit = l.credit.maxRxCredit := by
  cases h <;> rfl

theorem act_maxRxCredit : (p.act a).link.credit.maxRxCredit = p.link.credit.maxRxCredit :=
  (kept_maxRxCredit _).act rfl a fun _ _ _ _ _ hp => picked_maxRxCredit hp

theorem rxCharacter_maxRxCredit (l : SpaceWireLink) (c : Character) :
    (l.rxCharacter c).credit.maxRxCredit = l.credit.maxRxCredit :=
  (kept_maxRxCredit _).rxCharacter rfl c fun e l' _ _ hfed hh => by
    cases hh with
    | fct | nchar | discarded | other => exact hfed
    | overflow | unexpected => exact (kept_maxRxCredit _).feedFsm _ hfed

section counts

def ncharCount (l : List Character) : Int := l.countP Character.isNChar

def fctCount (l : List Character) : Int := l.countP fun c => c.type = .fct

@[simp] theorem ncharCount_append (l r : List Character) :
    ncharCount (l ++ r) = ncharCount l + ncharCount r := by
  simp [ncharCount]

@[simp] theorem fctCount_append (l r : List Character) :
    fctCount (l ++ r) = fctCount l + fctCount r := by
  simp [fctCount]

@[simp] theorem ncharCount_nil : ncharCount [] = 0 := rfl

@[simp] theorem fctCount_nil : fctCount [] = 0 := rfl

theorem ncharCount_nonneg (l : List Character) : 0 ≤ ncharCount l := by simp [ncharCount]

theorem fctCount_nonneg (l : List Character) : 0 ≤ fctCount l := by simp [fctCount]

@[simp] theorem ncharCount_null : ncharCount [Encoder.null] = 0 := rfl

@[simp] theorem fctCount_null : fctCount [Encoder.null] = 0 := rfl

@[simp] theorem ncharCount_fct : ncharCount [.ofType .fct] = 0 := rfl

@[simp] theorem fctCount_fct : fctCount [.ofType .fct] = 1 := rfl

@[simp] theorem ncharCount_onWire (c : Character) :
    ncharCount [c.onWire] = ncharCount [c] := by
  simp [ncharCount]

@[simp] theorem fctCount_onWire (c : Character) : fctCount [c.onWire] = fctCount [c] := by
  simp [fctCount]

theorem fctCount_singleton (c : Character) : fctCount [c] = if c.type = .fct then 1 else 0 := by
  by_cases ht : c.type = .fct <;> simp [fctCount, ht]

theorem nchar_counts {c : Character} (h : c.isNChar = true) :
    ncharCount [c] = 1 ∧ fctCount [c] = 0 := by
  cases ht : c.type <;> simp [Character.isNChar, isNCharType, ht, ncharCount, fctCount] at h ⊢

theorem packetChar_counts {c : Character} (h : PacketChar c) :
    ncharCount [c] = 1 ∧ fctCount [c] = 0 := by
  cases h <;> exact ⟨rfl, rfl⟩

end counts

theorem act_txLoop (ha : a ≠ .txLoop) : (p.act a).txLoop = p.txLoop ∧ p.emits a = [] := by
  refine ⟨?_, by cases a <;> first | rfl | exact absurd rfl ha⟩
  cases a with
  | feed | expire =>
    simp only [Endpoint.act]
    split <;> rfl
  | watchdog => rfl
  | txLoop => exact absurd rfl ha
  | sendPacket | sendChar =>
    simp only [Endpoint.act]
    split <;> rfl
  | recvPacket =>
    simp only [Endpoint.act, Endpoint.stepRecvPacket]
    split
    · rfl
    · split
      · rw [Endpoint.returnPacket_txLoop]
      · rw [Endpoint.returnPacket_txLoop]
      · rfl

theorem act_dead (h : p.txLoop = .dead) : (p.act a).txLoop = .dead := by
  by_cases ha : a = .txLoop
  · subst ha
    simp [Endpoint.act, Endpoint.stepTxLoop, h]
  · rw [(act_txLoop ha).1, h]

/-- A pick takes and grants the credit of its character when the window holds the FCT of the
handshake. -/
theorem picked_credit {l' : SpaceWireLink} {c : Character} {b : Bool} (h : Regular p)
    (hI : CreditInv p.link) (hp : p.link.Picked (stateTx p.link.fsm.state) l' c b)
    (hfits : p.link.fsm.state = .connecting → p.link.onlyNulls = false →
      p.link.fctSentThisConnecting = false → 8 ≤ p.link.credit.maxRxCredit) :
    l'.credit.txCredit + ncharCount [c] = p.link.credit.txCredit ∧
      l'.credit.rxCredit = p.link.credit.rxCredit + 8 * fctCount [c] := by
  generalize hs : stateTx p.link.fsm.state = mode at hp
  cases hp with
  | null | handshake | fct => simp
  | uncredited hn hf hlt =>
    have hstate := stateTx_eq_sendNullsFcts hs
    have hzero := hI.fresh hstate hf
    have hle := hfits hstate hn hf
    omega
  | nchar hno hq hpos =>
    obtain ⟨hone, hnone⟩ := nchar_counts (h.queued c (by simp [hq]))
    simp [hone, hnone]

theorem picked_rejected {l l' : SpaceWireLink} {mode : TxMode} {c : Character} {b : Bool}
    (h : l.Picked mode l' c b) (hbad : ¬ LineChar c) : c ∈ l.txNcharQueue := by
  cases h with
  | null => exact absurd .null hbad
  | handshake | uncredited | fct => exact absurd .fct hbad
  | nchar hno hqueue => simp [hqueue]

/-- While the link is not dropped, credit moves only with the characters picked: an N-Char
takes one from the transmit credit, also when its encoding raises, and an FCT adds eight to
the receive credit. -/
theorem act_credit (h : Regular p) (hI : CreditInv p.link)
    (hmax : 8 ≤ p.link.credit.maxRxCredit)
    (hcount : (p.act a).link.errorResetCount = p.link.errorResetCount) :
    (p.act a).link.credit.txCredit + ncharCount (p.emits a ++ (p.act a).txLoop.underWay) ≤
        p.link.credit.txCredit + ncharCount p.txLoop.underWay ∧
      ((p.act a).txLoop ≠ .dead →
        (p.act a).link.credit.txCredit + ncharCount (p.emits a ++ (p.act a).txLoop.underWay) =
          p.link.credit.txCredit + ncharCount p.txLoop.underWay) ∧
      (p.act a).link.credit.rxCredit + 8 * fctCount p.txLoop.underWay =
        p.link.credit.rxCredit + 8 * fctCount (p.emits a ++ (p.act a).txLoop.underWay) := by
  by_cases ha : a = .txLoop
  · subst ha
    simp only [Endpoint.act, Endpoint.emits] at hcount ⊢
    cases htx : p.txLoop with
    | top =>
      obtain ⟨-, heq⟩ | ⟨-, l', c, b, enc, hp, hnext⟩ := Endpoint.stepTxLoop_top htx
      · simp [heq, TxLoop.underWay]
      · obtain ⟨htake, hgrant⟩ := picked_credit h hI hp fun _ _ _ => hmax
        obtain ⟨bits, heq⟩ | ⟨hbad, heq⟩ := hnext
        · simp [heq, TxLoop.underWay, htake, hgrant]
        · obtain ⟨-, hnone⟩ := nchar_counts (h.queued c (picked_rejected hp hbad))
          have hone := ncharCount_nonneg [c]
          rw [hnone] at hgrant
          rw [heq]
          exact ⟨by simp [TxLoop.underWay]; omega, fun halive => absurd rfl halive,
            by simpa [TxLoop.underWay] using hgrant⟩
    | parked =>
      simp only [Endpoint.stepTxLoop, htx]
      split <;> simp [htx, TxLoop.underWay]
    | sending c b bits => simp [Endpoint.stepTxLoop, htx, TxLoop.underWay]
    | driven c b =>
      have hsteady := (kept_steady _ _).charSent (steady_self p.link) c b
      simp only [Endpoint.stepTxLoop, htx] at hcount ⊢
      simp [TxLoop.underWay, hsteady.2 hcount]
    | dead => simp [Endpoint.stepTxLoop, htx, TxLoop.underWay]
  · obtain ⟨htx, hemits⟩ := act_txLoop (p := p) ha
    have hsteady := (kept_steady _ _).act (steady_self p.link) a (fun heq => absurd heq ha)
    simp [htx, hemits, hsteady.2 hcount]

section received

variable {l : SpaceWireLink} {c : Character}

theorem rxCharacter_null : l.rxCharacter Encoder.null = l.feedFsm .gotNull := rfl

theorem rxCharacter_fct :
    l.rxCharacter (.ofType .fct) = (l.feedFsm .gotFct).onRxCharacter (.ofType .fct) := rfl

theorem rxCharacter_packetChar (h : PacketChar c) :
    l.rxCharacter c = (l.feedFsm .gotNChar).onRxCharacter c := by
  cases h <;> rfl

theorem feedFsm_steady {l' : SpaceWireLink} {e : Event}
    (hle : (l.feedFsm e).errorResetCount ≤ l'.errorResetCount)
    (hcount : l'.errorResetCount = l.errorResetCount) : (l.feedFsm e).credit = l.credit := by
  have hsteady := (kept_steady _ _).feedFsm e (steady_self l)
  exact hsteady.2 (by have := hsteady.1; omega)

theorem rx_fct (hle : l.credit.txCredit + 8 ≤ 56)
    (hcount : (l.rxCharacter (.ofType .fct)).errorResetCount = l.errorResetCount) :
    (l.rxCharacter (.ofType .fct)).credit.txCredit = l.credit.txCredit + 8 ∧
      (l.rxCharacter (.ofType .fct)).credit.rxCredit = l.credit.rxCredit := by
  have hh := onRxCharacter_handled (l.feedFsm .gotFct) (.ofType .fct)
  have hcredit := feedFsm_steady (handled_resets hh) hcount
  rw [rxCharacter_fct]
  generalize (l.feedFsm .gotFct).onRxCharacter (.ofType .fct) = l' at hh
  cases hh with
  | fct => exact ⟨by rw [← hcredit], by rw [← hcredit]⟩
  | overflow ht hlt =>
    rw [hcredit] at hlt
    omega
  | nchar hc | unexpected hc | discarded hc => cases hc
  | other hf => exact absurd rfl hf

theorem rx_packetChar (hc : PacketChar c) (hI : CreditInv l) (hpos : 0 < l.credit.rxCredit)
    (hcount : (l.rxCharacter c).errorResetCount = l.errorResetCount) :
    (l.rxCharacter c).credit.txCredit = l.credit.txCredit ∧
      (l.rxCharacter c).credit.rxCredit = l.credit.rxCredit - 1 ∧
      (l.rxCharacter c).rxNcharQueue = l.rxNcharQueue ++ [c] := by
  have hh := onRxCharacter_handled (l.feedFsm .gotNChar) c
  rw [← rxCharacter_packetChar hc] at hh
  have hcredit := feedFsm_steady (handled_resets hh) hcount
  have hresets := handled_resets hh
  generalize l.rxCharacter c = l' at hh hcount hresets
  cases hh with
  | fct hf | overflow hf => cases hc <;> cases hf
  | nchar => exact ⟨by rw [← hcredit], by rw [← hcredit], by simp⟩
  | unexpected _ _ hle =>
    rw [hcredit] at hle
    omega
  | other _ hn =>
    rw [hc.isNChar] at hn
    cases hn
  | discarded _ hs =>
    rw [feedFsm_fsm] at hs
    rw [feedFsm_errorResetCount] at hcount
    cases hl : l.fsm.state with
    | run =>
      rw [LinkFSM.feed_run hl] at hs
      simp [hl] at hs
    | connecting =>
      have hdrop : l.fsm.drops .gotNChar = true := by
        rw [LinkFSM.drops_iff, LinkFSM.feed_connecting hl]
        simp [LinkFSM.connectingError, hl]
      simp [hdrop] at hcount
    | errorReset | errorWait | ready | started =>
      have hzero := hI.idle (by simp [hl, State.exchanging])
      omega

/-- A character for which there is room and credit is accounted for and kept. -/
theorem rx_lineChar (hc : LineChar c) (hI : CreditInv l)
    (hroom : l.credit.txCredit + 8 * fctCount [c] ≤ 56) (hpos : ncharCount [c] ≤ l.credit.rxCredit)
    (hcount : (l.rxCharacter c).errorResetCount = l.errorResetCount) :
    (l.rxCharacter c).credit.txCredit = l.credit.txCredit + 8 * fctCount [c] ∧
      (l.rxCharacter c).credit.rxCredit = l.credit.rxCredit - ncharCount [c] ∧
      (l.rxCharacter c).rxNcharQueue = l.rxNcharQueue ++ [c].filter Character.isNChar := by
  cases hc with
  | null =>
    have hcredit := feedFsm_steady le_rfl hcount
    have hfilter : [Encoder.null].filter Character.isNChar = [] := rfl
    simp [rxCharacter_null, hcredit, hfilter]
  | fct =>
    obtain ⟨htx, hrx⟩ := rx_fct (by simpa using hroom) hcount
    refine ⟨by simpa using htx, by simpa using hrx, ?_⟩
    obtain hq | ⟨-, hn, -⟩ := (rxCharacter_queues l (.ofType .fct)).2
    · rw [hq, show [Character.ofType .fct].filter Character.isNChar = [] from rfl, List.append_nil]
    · cases hn
  | packet hc =>
    obtain ⟨hone, hnone⟩ := packetChar_counts hc
    obtain ⟨htx, hrx, hq⟩ := rx_packetChar hc hI (by omega) hcount
    refine ⟨by rw [htx, hnone]; omega, by rw [hrx, hone], ?_⟩
    rw [hq, List.filter_cons_of_pos hc.isNChar, List.filter_nil]

end received

end SpaceWire.Traffic
