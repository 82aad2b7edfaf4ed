import SpaceWire.Traffic

namespace SpaceWire.Conservation

open Accounting Traffic Run

/-- The transmit credit of `x`, the N-Chars it has under way and the FCTs under way to it
are the receive credit of its peer. -/
def Balanced (s : System) (x : Side) : Prop :=
  (s.ends x).link.credit.txCredit + ncharCount (s.inFlight x) + 8 * fctCount (s.inFlight x.peer) =
    (s.ends x.peer).link.credit.rxCredit

/-- The N-Chars of the packets `x` has sent are in the hands of its peer, on the line, under
way and queued, in this order. -/
def InOrder (s : System) (x : Side) : Prop :=
  taken (s.ends x.peer) ++ (s.line x).filter Character.isNChar ++ pending (s.ends x) =
    (s.ends x).sent.flatMap SpaceWirePacket.nchars

/-- What holds of two connected endpoints while neither has been dropped. -/
structure Healthy (s : System) : Prop where
  clean : ∀ x, Clean (s.ends x)
  credit : ∀ x, CreditInv (s.ends x).link
  window : ∀ x, 8 ≤ (s.ends x).link.credit.maxRxCredit
  line : ∀ x, ∀ c ∈ s.line x, LineChar c
  balanced : ∀ x, Balanced s x
  inOrder : ∀ x, InOrder s x

/-- The part that needs no packets: every credit is covered, and none is lost by an endpoint
whose transmit coroutine has not ended. -/
structure Solvent (s : System) : Prop where
  regular : ∀ x, Regular (s.ends x)
  credit : ∀ x, CreditInv (s.ends x).link
  window : ∀ x, 8 ≤ (s.ends x).link.credit.maxRxCredit
  line : ∀ x, ∀ c ∈ s.line x, LineChar c
  covered : ∀ x, (s.ends x).link.credit.txCredit + ncharCount (s.inFlight x) +
    8 * fctCount (s.inFlight x.peer) ≤ (s.ends x.peer).link.credit.rxCredit
  balanced : ∀ x, (s.ends x).txLoop ≠ .dead → Balanced s x

theorem Healthy.solvent {s : System} (h : Healthy s) : Solvent s :=
  ⟨fun x => (h.clean x).regular, h.credit, h.window, h.line, fun x => (h.balanced x).le,
    fun x _ => h.balanced x⟩

/-- Neither endpoint has re-entered ErrorReset. -/
def Undropped (s : System) : Prop := ∀ x, (s.ends x).link.errorResetCount = 0

theorem creditInv_act {p : Endpoint} {a : Action} (h : CreditInv p.link) :
    CreditInv (p.act a).link :=
  kept_creditInv.act h a fun _ _ _ _ _ hp => h.picked hp

theorem creditInv_rxCharacter {l : SpaceWireLink} {c : Character} (h : CreditInv l) :
    CreditInv (l.rxCharacter c) :=
  kept_creditInv.rxCharacter h c fun _ _ _ _ hfed hh => hfed.handled hh

variable {s : System} {x : Side}

theorem Undropped.of_step {t : Turn} (h : Undropped (s.step t)) : Undropped s := by
  have hreceive {y : Side} {c : Character} (hy : (s.ends y).link.errorResetCount = 0)
      (hr : ((s.ends y.peer).rxCharacter c).link.errorResetCount = 0) : Undropped s := by
    refine (Side.forall_iff y).mpr ⟨hy, ?_⟩
    exact Nat.le_zero.mp ((rxCharacter_resets (s.ends y.peer).link c).trans hr.le)
  cases t with
  | act y a =>
    refine (Side.forall_iff y).mpr ⟨?_, by simpa using h y.peer⟩
    have hzero := h y
    rw [System.step_act_ends] at hzero
    exact Nat.le_zero.mp (act_resets.trans hzero.le)
  | deliver y =>
    simp only [System.step] at h
    split at h
    · exact h
    · exact hreceive (by simpa using h y) (by simpa using h y.peer)
  | lose y => exact h
  | noise y n => exact hreceive (by simpa using h y) (by simpa using h y.peer)

theorem Solvent.act {a : Action} (h : Solvent s)
    (hcount : ((s.ends x).act a).link.errorResetCount = (s.ends x).link.errorResetCount) :
    Solvent (s.step (.act x a)) := by
  have hregular := h.regular x
  obtain ⟨hle, htx, hrx⟩ := act_credit hregular (h.credit x) (h.window x) hcount
  have hout := h.covered x
  have hin := h.covered x.peer
  refine ⟨?_, ?_, ?_, ?_, ?_, ?_⟩
  · refine (Side.forall_iff x).mpr ⟨?_, by simpa using h.regular x.peer⟩
    simpa using hregular.act
  · refine (Side.forall_iff x).mpr ⟨?_, by simpa using h.credit x.peer⟩
    simpa using creditInv_act (h.credit x)
  · refine (Side.forall_iff x).mpr ⟨?_, by simpa using h.window x.peer⟩
    simpa [act_maxRxCredit] using h.window x
  · refine (Side.forall_iff x).mpr ⟨fun c hc => ?_, by simpa using h.line x.peer⟩
    rw [System.step_act_line] at hc
    obtain hc | hc := List.mem_append.mp hc
    · exact h.line x c hc
    · exact emits_lineChar hregular c hc
  · refine (Side.forall_iff x).mpr ⟨?_, ?_⟩
    · simp [System.inFlight] at hout hle ⊢
      omega
    · simp [System.inFlight] at hin hrx ⊢
      omega
  · refine (Side.forall_iff x).mpr ⟨fun halive => ?_, fun halive => ?_⟩
    · rw [System.step_act_ends] at halive
      have hequal := htx halive
      have hold := h.balanced x (mt act_dead halive)
      simp [Balanced, System.inFlight] at hold hequal ⊢
      omega
    · rw [System.step_act_ends_peer] at halive
      have hold := h.balanced x.peer halive
      simp [Balanced, System.inFlight] at hold hrx ⊢
      omega

theorem Healthy.act {a : Action} (h : Healthy s) (ha : a.packetLevel = true)
    (hcount : ((s.ends x).act a).link.errorResetCount = (s.ends x).link.errorResetCount) :
    Healthy (s.step (.act x a)) := by
  have hclean := h.clean x
  obtain ⟨extra, hsent, hstream⟩ := act_stream hclean ha
  have hkept : ∀ y, Clean ((s.step (.act x a)).ends y) :=
    (Side.forall_iff x).mpr ⟨by simpa using act_clean hclean ha, by simpa using h.clean x.peer⟩
  have hnext := h.solvent.act hcount
  refine ⟨hkept, hnext.credit, hnext.window, hnext.line,
    fun y => hnext.balanced y (hkept y).alive, (Side.forall_iff x).mpr ⟨?_, ?_⟩⟩
  · have hold := h.inOrder x
    simp only [InOrder, System.step_act_ends, System.step_act_ends_peer, System.step_act_line,
      List.filter_append, hsent, List.flatMap_append] at hold ⊢
    rw [← hold]
    simp only [List.append_assoc, hstream]
  · simpa [InOrder, act_taken hclean] using h.inOrder x.peer

theorem Solvent.head_bounds {c : Character} {rest : List Character} (h : Solvent s)
    (hline : s.line x = c :: rest) :
    (s.ends x.peer).link.credit.txCredit + 8 * fctCount [c] ≤ 56 ∧
      ncharCount [c] ≤ (s.ends x.peer).link.credit.rxCredit := by
  have hout := h.covered x
  have hin := h.covered x.peer
  have hsplit : s.line x = [c] ++ rest := hline
  have hnchars := ncharCount_nonneg rest
  have hnchars' := ncharCount_nonneg (s.ends x).txLoop.underWay
  have hfcts := fctCount_nonneg rest
  have hfcts' := fctCount_nonneg (s.ends x).txLoop.underWay
  have hnchars'' := ncharCount_nonneg (s.inFlight x.peer)
  have hfcts'' := fctCount_nonneg (s.inFlight x.peer)
  simp only [System.inFlight, Side.peer_peer, hsplit, ncharCount_append,
    fctCount_append] at hout hin hnchars'' hfcts''
  have hbound := (h.credit x).inRange.rx_le.trans (h.credit x).inRange.max_le
  have hpos := (h.credit x).inRange.tx_nonneg
  exact ⟨by omega, by omega⟩

theorem Solvent.receive {c : Character} {rest : List Character} (h : Solvent s)
    (hline : s.line x = c :: rest)
    (hcount : ((s.ends x.peer).link.rxCharacter c).errorResetCount =
      (s.ends x.peer).link.errorResetCount) : Solvent (s.receive x c) := by
  have hc : LineChar c := h.line x c (by simp [hline])
  have hI := h.credit x.peer
  have hout := h.covered x
  have hin := h.covered x.peer
  have htail : (s.line x).tail = rest := by rw [hline, List.tail_cons]
  have hsplit : s.line x = [c] ++ rest := hline
  obtain ⟨hroom, hcredit⟩ := h.head_bounds hline
  obtain ⟨htx, hrx, -⟩ := rx_lineChar hc hI hroom hcredit hcount
  refine ⟨?_, ?_, ?_, ?_, ?_, ?_⟩
  · refine (Side.forall_iff x).mpr ⟨by simpa using h.regular x, ?_⟩
    simpa using (h.regular x.peer).rxCharacter c
  · refine (Side.forall_iff x).mpr ⟨by simpa using h.credit x, ?_⟩
    simpa [Endpoint.rxCharacter] using creditInv_rxCharacter hI
  · refine (Side.forall_iff x).mpr ⟨by simpa using h.window x, ?_⟩
    simpa [Endpoint.rxCharacter, rxCharacter_maxRxCredit] using h.window x.peer
  · refine (Side.forall_iff x).mpr ⟨fun d hd => h.line x d ?_, by simpa using h.line x.peer⟩
    rw [System.receive_line] at hd
    exact List.mem_of_mem_tail hd
  · refine (Side.forall_iff x).mpr ⟨?_, ?_⟩
    · simp only [System.inFlight, hsplit, ncharCount_append, fctCount_append] at hout
      simp [System.inFlight, htail, Endpoint.rxCharacter, hrx]
      omega
    · simp only [System.inFlight, Side.peer_peer, hsplit, ncharCount_append,
        fctCount_append] at hin
      simp [System.inFlight, htail, Endpoint.rxCharacter, htx]
      omega
  · refine (Side.forall_iff x).mpr ⟨fun halive => ?_, fun halive => ?_⟩
    · rw [System.receive_ends] at halive
      have hold := h.balanced x halive
      simp only [Balanced, System.inFlight, hsplit, ncharCount_append, fctCount_append] at hold
      simp [Balanced, System.inFlight, htail, Endpoint.rxCharacter, hrx]
      omega
    · rw [System.receive_ends_peer] at halive
      have hold := h.balanced x.peer halive
      simp only [Balanced, System.inFlight, Side.peer_peer, hsplit, ncharCount_append,
        fctCount_append] at hold
      simp [Balanced, System.inFlight, htail, Endpoint.rxCharacter, htx]
      omega

theorem Healthy.receive {c : Character} {rest : List Character} (h : Healthy s)
    (hline : s.line x = c :: rest)
    (hcount : ((s.ends x.peer).link.rxCharacter c).errorResetCount =
      (s.ends x.peer).link.errorResetCount) : Healthy (s.receive x c) := by
  have hc : LineChar c := h.line x c (by simp [hline])
  have htail : (s.line x).tail = rest := by rw [hline, List.tail_cons]
  have hsplit : s.line x = [c] ++ rest := hline
  obtain ⟨hroom, hcredit⟩ := h.solvent.head_bounds hline
  obtain ⟨-, -, hqueue⟩ := rx_lineChar hc (h.credit x.peer) hroom hcredit hcount
  have hkept : ∀ y, Clean ((s.receive x c).ends y) :=
    (Side.forall_iff x).mpr ⟨by simpa using h.clean x,
      by simpa using rxCharacter_clean (h.clean x.peer) fun _ => LineChar.packetChar hc⟩
  have hnext := h.solvent.receive hline hcount
  refine ⟨hkept, hnext.credit, hnext.window, hnext.line,
    fun y => hnext.balanced y (hkept y).alive, (Side.forall_iff x).mpr ⟨?_, ?_⟩⟩
  · have hold := h.inOrder x
    simp only [InOrder, hsplit, List.filter_append] at hold
    simp only [InOrder, System.receive_ends, System.receive_ends_peer, System.receive_line, htail]
    rw [← hold]
    simp [taken, Endpoint.rxCharacter, hqueue]
  · have hold := h.inOrder x.peer
    simpa [InOrder, pending, Endpoint.rxCharacter, (rxCharacter_queues _ c).1] using hold

theorem healthy_step {t : Turn} (h : Healthy s) (ht : t.lossless = true)
    (hu : Undropped (s.step t)) : Healthy (s.step t) := by
  have hbefore := hu.of_step
  cases t with
  | act x a =>
    apply h.act ht
    have hafter := hu x
    rw [System.step_act_ends] at hafter
    rw [hafter, hbefore x]
  | deliver x =>
    simp only [System.step] at hu ⊢
    split at hu
    · exact h
    · rename_i c rest hline
      apply h.receive hline
      have hafter := hu x.peer
      rw [System.receive_ends_peer] at hafter
      exact hafter.trans (hbefore x.peer).symm
  | lose x | noise x n => cases ht

theorem start_ends {cfg : Side → LinkConfig} (h : System.start cfg = .ok s) :
    (∀ x, Endpoint.start (cfg x) = .ok (s.ends x)) ∧ ∀ x, s.line x = [] := by
  unfold System.start at h
  split at h
  · rename_i a b ha hb
    cases h
    exact ⟨fun x => by cases x <;> assumption, fun _ => rfl⟩
  · cases h
  · cases h

theorem healthy_start {cfg : Side → LinkConfig} (h : System.start cfg = .ok s)
    (hmax : ∀ x, 8 ≤ (s.ends x).link.credit.maxRxCredit) : Healthy s ∧ Undropped s := by
  obtain ⟨hends, hline⟩ := start_ends h
  have hfresh (x : Side) := fresh_start (hends x)
  have hway (x : Side) : (s.ends x).txLoop.underWay = [] := by
    rw [(hfresh x).txLoop]
    rfl
  refine ⟨⟨fun x => ?_, fun x => ?_, hmax, fun x c hc => ?_, fun x => ?_, fun x => ?_⟩,
    fun x => (hfresh x).resets⟩
  · exact ⟨by simp [(hfresh x).txLoop], by simp [(hfresh x).txQueue], by simp [hway],
      by simp [(hfresh x).rxQueue], by simp [(hfresh x).recvData]⟩
  · refine kept_creditInv.start (fun l hl => ?_) (hends x)
    obtain ⟨hcredit, hr, -⟩ := new_ok hl
    exact ⟨hr, by simp [hcredit], by simp [hcredit]⟩
  · simp [hline] at hc
  · simp [Balanced, System.inFlight, hline, hway, (hfresh x).credit, (hfresh x.peer).credit]
  · simp [InOrder, taken, pending, hline, hway, (hfresh x).txQueue, (hfresh x).sent,
      (hfresh x.peer).received, (hfresh x.peer).recvData, (hfresh x.peer).rxQueue]

theorem healthy_run {cfg : Side → LinkConfig} (h : System.start cfg = .ok s)
    (hmax : ∀ x, 8 ≤ (s.ends x).link.credit.maxRxCredit) {ts : List Turn}
    (hts : ∀ t ∈ ts, t.lossless = true) (hu : Undropped (run System.step s ts)) :
    Healthy (run System.step s ts) :=
  run_while (C := Undropped) (healthy_start h hmax).1 (fun _ _ => Undropped.of_step)
    (fun _ _ hs ht hu => healthy_step hs ht hu) (Guarded.of_forall_mem hts) hu

def raisesCreditError (l : SpaceWireLink) (c : Character) : Bool :=
  match c.type with
  | .fct => !l.credit.onFctReceived.isOk
  | .data | .eop | .eep => l.fsm.state = .run && !l.credit.onNcharReceived.isOk
  | _ => false

theorem Healthy.no_creditError {c : Character} {rest : List Character} (h : Healthy s)
    (hline : s.line x = c :: rest) (e : Event) :
    raisesCreditError ((s.ends x.peer).link.feedFsm e) c = false := by
  obtain ⟨hroom, hpos⟩ := h.solvent.head_bounds hline
  have hcredit := SpaceWireLink.feedFsm_credit (s.ends x.peer).link e
  have hnchar (hn : ncharCount [c] = 1) : ((s.ends x.peer).link.feedFsm e).fsm.state = .run →
      ((s.ends x.peer).link.feedFsm e).credit.onNcharReceived.isOk = true := by
    intro hs
    rw [SpaceWireLink.feedFsm_fsm] at hs
    have hdrop : (s.ends x.peer).link.fsm.drops e = false := by simp [LinkFSM.drops, hs]
    rw [hcredit, hdrop]
    cases hr : (s.ends x.peer).link.credit.onNcharReceived with
    | ok c' => simp [hr, Except.isOk, Except.toBool]
    | error err =>
      have hle := (CreditCounter.onNcharReceived_error hr).2
      omega
  unfold raisesCreditError
  cases ht : c.type with
  | fct =>
    have hone : fctCount [c] = 1 := by simp [fctCount, ht]
    cases hr : ((s.ends x.peer).link.feedFsm e).credit.onFctReceived with
    | ok c' => simp [Except.isOk, Except.toBool]
    | error err =>
      have hlt := (CreditCounter.onFctReceived_error hr).2
      rw [hcredit] at hlt
      split at hlt
      · simp at hlt
      · omega
  | data | eop | eep =>
    have hone : ncharCount [c] = 1 := by simp [ncharCount, Character.isNChar, isNCharType, ht]
    simpa using hnchar hone
  | esc | null | timecode | broadcast => rfl

/-- Credit is conserved in every state of a run in which neither link was dropped, and the
character that is received next raises no CreditError. -/
theorem credit_conserved {cfg : Side → LinkConfig} (h : System.start cfg = .ok s)
    (hmax : ∀ x, 8 ≤ (s.ends x).link.credit.maxRxCredit) (ts : List Turn)
    (hts : ∀ t ∈ ts, t.lossless = true) (hu : Undropped (run System.step s ts)) (x : Side) :
    ((run System.step s ts).ends x).link.credit.txCredit +
          ncharCount ((run System.step s ts).inFlight x) +
          8 * fctCount ((run System.step s ts).inFlight x.peer) =
        ((run System.step s ts).ends x.peer).link.credit.rxCredit ∧
      ∀ c rest e, (run System.step s ts).line x = c :: rest → characterEvent c.type = some e →
        raisesCreditError (((run System.step s ts).ends x.peer).link.feedFsm e) c = false := by
  have hrun := healthy_run h hmax hts hu
  exact ⟨hrun.balanced x, fun c rest e hline _ => hrun.no_creditError hline e⟩

theorem credit_conserved_handshake :
    ∃ s, System.start (fun _ => { linkStart := true }) = .ok s ∧
      ((run System.step s Turn.handshake).ends .a).link.credit.txCredit +
          ncharCount ((run System.step s Turn.handshake).inFlight .a) +
          8 * fctCount ((run System.step s Turn.handshake).inFlight .b) =
        ((run System.step s Turn.handshake).ends .b).link.credit.rxCredit :=
  ⟨_, rfl, (@credit_conserved _ (fun _ => { linkStart := true }) rfl
    (fun x => by cases x <;> decide) Turn.handshake (by decide)
    (fun x => by cases x <;> decide +kernel) .a).1⟩

/-- No packet is lost, repeated or reordered, and every N-Char is accounted for. -/
theorem packets_in_order {cfg : Side → LinkConfig} (h : System.start cfg = .ok s)
    (hmax : ∀ x, 8 ≤ (s.ends x).link.credit.maxRxCredit) (ts : List Turn)
    (hts : ∀ t ∈ ts, t.lossless = true) (hu : Undropped (run System.step s ts)) (x : Side) :
    ((run System.step s ts).ends x.peer).received <+: ((run System.step s ts).ends x).sent ∧
      taken ((run System.step s ts).ends x.peer) ++
          ((run System.step s ts).inFlight x).filter Character.isNChar ++
          ((run System.step s ts).ends x).link.txNcharQueue =
        ((run System.step s ts).ends x).sent.flatMap SpaceWirePacket.nchars := by
  have hrun := healthy_run h hmax hts hu
  have horder := hrun.inOrder x
  refine ⟨?_, ?_⟩
  · simp only [InOrder, taken, List.append_assoc] at horder
    exact prefix_of_nchars (s := []) (by simp) (by simpa using horder)
  · simpa [InOrder, pending, System.inFlight] using horder

/-- A packet in each direction, of which one is received whole and the other in part. -/
def exchanged : List Turn :=
  [.act .a (.sendPacket [1, 2] "EOP"), .act .b (.sendPacket [7, 8] "EEP")] ++ Turn.handshake ++
    List.replicate 12 (.act .a .txLoop) ++ List.replicate 8 (.deliver .a) ++
    List.replicate 3 (.act .b .recvPacket) ++ List.replicate 8 (.act .b .txLoop) ++
    List.replicate 5 (.deliver .b) ++ [.act .a .recvPacket, .act .a (.sendPacket [3] "EOP")]

theorem packets_in_order_exchanged :
    ∃ s, System.start (fun _ => { linkStart := true, rxFifoCapacity := 8 }) = .ok s ∧
      let s' := run System.step s exchanged
      (s'.ends .b).received = [⟨[1, 2], .eop, by decide⟩] ∧
        (s'.ends .a).recvData = [7] ∧
        (s'.ends .a).sent = [⟨[1, 2], .eop, by decide⟩, ⟨[3], .eop, by decide⟩] ∧
        (s'.ends .b).received <+: (s'.ends .a).sent ∧
        taken (s'.ends .b) ++ (s'.inFlight .a).filter Character.isNChar ++
          (s'.ends .a).link.txNcharQueue = (s'.ends .a).sent.flatMap SpaceWirePacket.nchars := by
  obtain ⟨s, hs, hreceived, hpart, hsent, hundropped⟩ :
      ∃ s, System.start (fun _ => { linkStart := true, rxFifoCapacity := 8 }) = .ok s ∧
        ((run System.step s exchanged).ends .b).received = [⟨[1, 2], .eop, by decide⟩] ∧
        ((run System.step s exchanged).ends .a).recvData = [7] ∧
        ((run System.step s exchanged).ends .a).sent =
          [⟨[1, 2], .eop, by decide⟩, ⟨[3], .eop, by decide⟩] ∧
        Undropped (run System.step s exchanged) :=
    ⟨_, rfl, by decide +kernel, by decide +kernel, by decide +kernel,
      fun x => by cases x <;> decide +kernel⟩
  exact ⟨s, hs, hreceived, hpart, hsent, @packets_in_order s
    (fun _ => { linkStart := true, rxFifoCapacity := 8 }) hs
    (fun x => by cases hs; cases x <;> decide) exchanged (by decide) hundropped .a⟩

end SpaceWire.Conservation
