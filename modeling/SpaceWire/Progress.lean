import SpaceWire.Conservation

namespace SpaceWire.Progress

open Accounting Traffic Conservation Run

def Lossless : Turn → Prop
  | .act _ _ | .deliver _ => True
  | .lose _ | .noise _ _ => False

variable {s : System} {x : Side}

theorem kept_capacity (n : Int) : Kept (fun l => l.rxFifoCapacityNchars = n) where
  feedFsm := fun e h => by rw [SpaceWireLink.feedFsm_rxFifoCapacityNchars, h]
  frame := fun h hsame => by rw [hsame.capacity, h]
  read := fun _ h => h

theorem picked_capacity {l l' : SpaceWireLink} {mode : TxMode} {c : Character} {b : Bool}
    (h : l.Picked mode l' c b) : l'.rxFifoCapacityNchars = l.rxFifoCapacityNchars := by
  cases h <;> rfl

theorem act_capacity (p : Endpoint) (a : Action) :
    (p.act a).link.rxFifoCapacityNchars = p.link.rxFifoCapacityNchars :=
  (kept_capacity _).act rfl a fun _ _ _ _ _ hp => picked_capacity hp

theorem rxCharacter_capacity (l : SpaceWireLink) (c : Character) :
    (l.rxCharacter c).rxFifoCapacityNchars = l.rxFifoCapacityNchars :=
  (kept_capacity _).rxCharacter rfl c fun e l' _ _ hfed hh => by
    cases hh with
    | fct | nchar | discarded | other => exact hfed
    | overflow | unexpected => exact (kept_capacity _).feedFsm _ hfed

/-- Solvent, with room for the N-Chars of an FCT in an empty receive queue. -/
structure Roomy (s : System) : Prop where
  solvent : Solvent s
  capacity : ∀ x, 8 ≤ (s.ends x).link.rxFifoCapacityNchars

theorem roomy_step {t : Turn} (h : Roomy s) (ht : Lossless t) (hu : Undropped (s.step t)) :
    Roomy (s.step t) := by
  have hbefore := hu.of_step
  cases t with
  | act x a =>
    have hafter := hu x
    rw [System.step_act_ends] at hafter
    refine ⟨h.solvent.act (hafter.trans (hbefore x).symm), (Side.forall_iff x).mpr ⟨?_, ?_⟩⟩
    · rw [System.step_act_ends, act_capacity]
      exact h.capacity x
    · rw [System.step_act_ends_peer]
      exact h.capacity x.peer
  | deliver x =>
    simp only [System.step] at hu ⊢
    split at hu
    · exact h
    · rename_i c rest hline
      have hafter := hu x.peer
      rw [System.receive_ends_peer] at hafter
      refine ⟨h.solvent.receive hline (hafter.trans (hbefore x.peer).symm),
        (Side.forall_iff x).mpr ⟨?_, ?_⟩⟩
      · rw [System.receive_ends]
        exact h.capacity x
      · rw [System.receive_ends_peer]
        exact (rxCharacter_capacity _ c).symm ▸ h.capacity x.peer
  | lose x | noise x n => cases ht

theorem maxRxCreditOf_ge {cfg : LinkConfig} (hcap : 8 ≤ cfg.rxFifoCapacity)
    (hmax : ∀ m, cfg.maxRxCredit = some m → 8 ≤ m) : 8 ≤ maxRxCreditOf cfg := by
  unfold maxRxCreditOf
  cases hm : cfg.maxRxCredit with
  | none => exact le_min hcap (by decide)
  | some m => exact le_min (hmax m hm) (le_min hcap (by decide))

theorem roomy_start {cfg : Side → LinkConfig} (h : System.start cfg = .ok s)
    (hcap : ∀ x, 8 ≤ (cfg x).rxFifoCapacity)
    (hmax : ∀ x m, (cfg x).maxRxCredit = some m → 8 ≤ m) : Roomy s ∧ Undropped s := by
  obtain ⟨hends, -⟩ := start_ends h
  have hwindow (x : Side) : 8 ≤ (s.ends x).link.credit.maxRxCredit := by
    rw [(fresh_start (hends x)).credit]
    exact maxRxCreditOf_ge (hcap x) (hmax x)
  obtain ⟨hhealthy, hu⟩ := healthy_start h hwindow
  refine ⟨⟨hhealthy.solvent, fun x => ?_⟩, hu⟩
  have hcapacity := (kept_capacity (cfg x).rxFifoCapacity).start
    (fun l hl => (new_ok hl).2.2.2.1) (hends x)
  rw [hcapacity]
  exact hcap x

theorem Roomy.next (h : Roomy s) (hidle : ∀ y, s.inFlight y = [])
    (hrun : ∀ y, (s.ends y).link.fsm.state = .run) (halive : (s.ends x).txLoop ≠ .dead)
    (hq : (s.ends x).link.txNcharQueue ≠ []) (hrx : (s.ends x.peer).link.rxNcharQueue = []) :
    (∃ l c b, (s.ends x).link.nextChar (s.ends x).link.fsm.output.txMode = (l, .ok (c, b)) ∧
        (c.type = .fct ∨ c.isNChar = true)) ∨
      ∃ l b, (s.ends x.peer).link.nextChar (s.ends x.peer).link.fsm.output.txMode =
        (l, .ok (.ofType .fct, b)) := by
  have hmode (y : Side) : (s.ends y).link.fsm.output.txMode = .sendNullsFctsNcharsTimecodes := by
    simp [LinkFSM.output, hrun y, stateTx]
  have hsends : TxMode.sendNullsFctsNcharsTimecodes ≠ .reset := by simp
  by_cases hcredit : 0 < (s.ends x).link.credit.txCredit
  · left
    obtain ⟨l, c, b, hnext, hpicked⟩ := (s.ends x).link.nextChar_picked hsends
    refine ⟨l, c, b, by rw [hmode x, hnext], ?_⟩
    cases hpicked with
    | fct => exact .inl rfl
    | nchar hno hqueue =>
      exact .inr ((h.solvent.regular x).queued c (by simp [hqueue]))
    | null hno =>
      cases hqueue : (s.ends x).link.txNcharQueue with
      | nil => exact absurd hqueue hq
      | cons c rest =>
        have hsend : (s.ends x).link.credit.canSend = true := by
          simpa [CreditCounter.canSend] using hcredit
        simp only [SpaceWireLink.picksFct] at hno
        simp [SpaceWireLink.nextChar, hno, hqueue, hsend,
          CreditCounter.onNcharSent_of_canSend hsend] at hnext
  · right
    have hbalance := h.solvent.balanced x halive
    have htx := (h.solvent.credit x).inRange.tx_nonneg
    simp only [Conservation.Balanced, hidle, ncharCount_nil, fctCount_nil] at hbalance
    have hwindow := h.solvent.window x.peer
    have hcapacity := h.capacity x.peer
    have hzero : (s.ends x.peer).link.credit.rxCredit = 0 := by omega
    have hfct : (s.ends x.peer).link.credit.shouldSendFct
        ((s.ends x.peer).link.rxFifoCapacityNchars -
          (s.ends x.peer).link.rxNcharQueue.length) = true := by
      rw [CreditCounter.shouldSendFct_iff, hrx]
      simp only [List.length_nil]
      omega
    obtain ⟨l, c, b, hnext, hpicked⟩ := (s.ends x.peer).link.nextChar_picked hsends
    cases hpicked with
    | fct => exact ⟨_, _, by rw [hmode x.peer, hnext]⟩
    | null hno | nchar hno => simp [SpaceWireLink.picksFct, hfct] at hno

/-- Flow control never leaves both sides with nothing but NULLs to send: while one side has
N-Chars queued and the queue of its peer has been read, one of the two makes progress. Any
character may be handed to `send_char`; a side whose coroutine has ended with an exception of
the encoder has no next character. -/
theorem flow_control_progress {cfg : Side → LinkConfig} (h : System.start cfg = .ok s)
    (hcap : ∀ x, 8 ≤ (cfg x).rxFifoCapacity)
    (hmax : ∀ x m, (cfg x).maxRxCredit = some m → 8 ≤ m) (ts : List Turn)
    (hts : ∀ t ∈ ts, Lossless t) (hu : Undropped (run System.step s ts)) (x : Side)
    (hrun : ∀ y, ((run System.step s ts).ends y).link.fsm.state = .run)
    (hidle : ∀ y, (run System.step s ts).inFlight y = [])
    (halive : ((run System.step s ts).ends x).txLoop ≠ .dead)
    (hq : ((run System.step s ts).ends x).link.txNcharQueue ≠ [])
    (hrx : ((run System.step s ts).ends x.peer).link.rxNcharQueue = []) :
    (∃ l c b, ((run System.step s ts).ends x).link.nextChar
          ((run System.step s ts).ends x).link.fsm.output.txMode = (l, .ok (c, b)) ∧
        (c.type = .fct ∨ c.isNChar = true)) ∨
      ∃ l b, ((run System.step s ts).ends x.peer).link.nextChar
        ((run System.step s ts).ends x.peer).link.fsm.output.txMode =
          (l, .ok (.ofType .fct, b)) := by
  have hroomy : Roomy (run System.step s ts) :=
    run_while (C := Undropped) (roomy_start h hcap hmax).1 (fun _ _ => Undropped.of_step)
      (fun _ _ hs ht hu => roomy_step hs ht hu) (Guarded.of_forall_mem hts) hu
  exact hroomy.next hidle hrun halive hq hrx

/-- Both sides in Run and at the top of their loops, and a packet to send. -/
def idleThenSend : List Turn :=
  Turn.handshake ++ [.act .a .txLoop, .act .a .txLoop, .act .b .txLoop, .act .b .txLoop,
    .deliver .a, .deliver .b, .act .a (.sendPacket [1, 2] "EOP")]

theorem flow_control_progress_packet :
    ∃ s, System.start (fun _ => { linkStart := true }) = .ok s ∧
      ((∃ l c b, ((run System.step s idleThenSend).ends .a).link.nextChar
            ((run System.step s idleThenSend).ends .a).link.fsm.output.txMode = (l, .ok (c, b)) ∧
          (c.type = .fct ∨ c.isNChar = true)) ∨
        ∃ l b, ((run System.step s idleThenSend).ends .b).link.nextChar
          ((run System.step s idleThenSend).ends .b).link.fsm.output.txMode =
            (l, .ok (.ofType .fct, b))) :=
  ⟨_, rfl, @flow_control_progress _ (fun _ => { linkStart := true }) rfl (by decide) (by simp)
    idleThenSend (by simp [idleThenSend, Turn.handshake, Turn.round, Lossless])
    (fun x => by cases x <;> decide +kernel) .a (by decide +kernel)
    (fun x => by cases x <;> decide +kernel) (by decide +kernel) (by decide +kernel)
    (by decide +kernel)⟩

end SpaceWire.Progress
