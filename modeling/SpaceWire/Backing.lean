import SpaceWire.Lifecycle

namespace SpaceWire.Backing

open Run SpaceWireLink Accounting Traffic

/-- Between two states of a link it has been dropped, which takes all receive credit, or it has
not, and has paid the credit of so many N-Chars. -/
structure Booked (l l' : SpaceWireLink) (paid : Nat) : Prop where
  resets : l.errorResetCount ≤ l'.errorResetCount
  kept : l'.errorResetCount = l.errorResetCount →
    l'.credit.rxCredit = l.credit.rxCredit - paid
  dropped : l'.errorResetCount ≠ l.errorResetCount → l'.credit.rxCredit = 0

theorem booked_refl (l : SpaceWireLink) : Booked l l 0 :=
  ⟨le_rfl, fun _ => (Int.sub_zero _).symm, fun h => absurd rfl h⟩

def Unpaid (l l' : SpaceWireLink) : Prop :=
  Booked l l' 0 ∧ l'.rxNcharQueue.length ≤ l.rxNcharQueue.length

theorem kept_unpaid (l : SpaceWireLink) : Kept (Unpaid l) where
  feedFsm := by
    intro m e ⟨h, hlen⟩
    refine ⟨⟨?_, ?_, ?_⟩, by rwa [feedFsm_rxNcharQueue]⟩
    · apply h.resets.trans
      rw [feedFsm_errorResetCount]
      split <;> omega
    · rw [feedFsm_errorResetCount, feedFsm_credit]
      have hle := h.resets
      split
      · intro heq
        omega
      · exact h.kept
    · rw [feedFsm_errorResetCount, feedFsm_credit]
      split
      · exact fun _ => rfl
      · exact h.dropped
  frame := by
    intro m m' ⟨h, hlen⟩ hsame
    refine ⟨⟨?_, ?_, ?_⟩, ?_⟩
    · rw [hsame.resets]
      exact h.resets
    · rw [hsame.resets, hsame.credit]
      exact h.kept
    · rw [hsame.resets, hsame.credit]
      exact h.dropped
    · rw [hsame.rxQueue]
      exact hlen
  read := by
    intro m c rest hq ⟨h, hlen⟩
    refine ⟨⟨h.resets, h.kept, h.dropped⟩, ?_⟩
    rw [hq, List.length_cons] at hlen
    exact Nat.le_of_succ_le hlen

variable {l l' m : SpaceWireLink} {c : Character} {p : Endpoint}

theorem Unpaid.booked (h : Unpaid l l') :
    Booked l l' (l'.rxNcharQueue.length - l.rxNcharQueue.length) := by
  rw [Nat.sub_eq_zero_of_le h.2]
  exact h.1

theorem handled_booked (h : Unpaid l m) (hh : Handled m c l') (hrun : m.fsm.state = .run →
    m.errorResetCount = l.errorResetCount ∧ m.rxNcharQueue = l.rxNcharQueue) :
    Booked l l' (l'.rxNcharQueue.length - l.rxNcharQueue.length) := by
  cases hh with
  | fct => exact Unpaid.booked ⟨⟨h.1.resets, h.1.kept, h.1.dropped⟩, h.2⟩
  | overflow | unexpected => exact Unpaid.booked ((kept_unpaid l).feedFsm _ h)
  | discarded | other => exact h.booked
  | nchar hc hs hpos =>
    obtain ⟨hresets, hqueue⟩ := hrun hs
    have hpaid : (m.rxNcharQueue ++ [c]).length - l.rxNcharQueue.length = 1 := by
      rw [hqueue, List.length_append]
      simp
    refine ⟨h.1.resets, fun _ => ?_, fun hne => absurd hresets hne⟩
    have hsame := h.1.kept hresets
    dsimp only
    rw [hpaid, hsame]
    push_cast
    omega

theorem rxCharacter_booked (l : SpaceWireLink) (c : Character) :
    Booked l (l.rxCharacter c)
      ((l.rxCharacter c).rxNcharQueue.length - l.rxNcharQueue.length) := by
  have hself : Unpaid l l := ⟨booked_refl l, le_rfl⟩
  have hfed (e : Event) := (kept_unpaid l).feedFsm e hself
  unfold SpaceWireLink.rxCharacter dispatch
  cases herr : isHardError c.error with
  | true =>
    have h := hfed .rxErr
    simpa [parserCallbacks] using h.1
  | false =>
    cases hev : characterEvent c.type with
    | none => simpa using booked_refl l
    | some e =>
      apply handled_booked (hfed e) (onRxCharacter_handled _ c)
      intro hs
      refine ⟨?_, feedFsm_rxNcharQueue l e⟩
      rw [feedFsm_errorResetCount, if_neg]
      rw [feedFsm_fsm] at hs
      intro hdrops
      rw [LinkFSM.drops_iff] at hdrops
      simp [hs] at hdrops

def puts (p : Endpoint) (i : LifeInput) : Nat :=
  (p.lifeStep i).link.rxNcharQueue.length - p.link.rxNcharQueue.length

theorem Booked.frame {paid : Nat} (h : Booked m l' paid) (hsame : SameAccounts l m) :
    Booked l l' paid := by
  obtain ⟨hresets, hkept, hdropped⟩ := h
  rw [hsame.resets] at hresets hkept hdropped
  rw [hsame.credit] at hkept
  exact ⟨hresets, hkept, hdropped⟩

theorem lifeStep_booked {i : LifeInput}
    (hno : i = .input (.act .txLoop) → p.txLoop = .top → stateTx p.link.fsm.state = .reset) :
    Booked p.link (p.lifeStep i).link (puts p i) := by
  have hself : Unpaid p.link p.link := ⟨booked_refl p.link, le_rfl⟩
  cases i with
  | start => exact Unpaid.booked ((kept_unpaid p.link).frame hself (.of_eq rfl))
  | started => exact Unpaid.booked ((kept_unpaid p.link).arm hself)
  | stop => exact Unpaid.booked ((kept_unpaid p.link).frame hself (.of_eq rfl))
  | input j =>
    unfold puts
    simp only [Endpoint.lifeStep]
    obtain ⟨a, rfl⟩ | ⟨-, hsame⟩ | ⟨c, l, -, hsame, heq⟩ := step_cases p j
    · apply Unpaid.booked
      apply (kept_unpaid p.link).act hself a
      rintro rfl htop l' c b hp
      rw [hno rfl htop] at hp
      cases hp
      exact hself
    · exact Unpaid.booked ((kept_unpaid p.link).frame hself hsame)
    · rw [heq, ← hsame.rxQueue]
      exact (rxCharacter_booked l c).frame hsame

/-- An endpoint with what is counted since its link last entered ErrorReset: the FCTs that
`_next_char` has returned, and the N-Chars that were put in the receive queue. -/
structure Audited where
  endpoint : Endpoint
  fcts : Nat := 0
  nchars : Nat := 0

namespace Audited

def step (s : Audited) (i : LifeInput) : Audited :=
  let endpoint := s.endpoint.lifeStep i
  if endpoint.link.errorResetCount ≠ s.endpoint.link.errorResetCount then { endpoint }
  else
    { endpoint
      fcts := s.fcts + if (s.endpoint.nextPick i).any (·.type = .fct) then 1 else 0
      nchars := s.nchars + puts s.endpoint i }

end Audited

/-- The receive credit is what the FCTs have granted and the N-Chars have not used, and a
granted N-Char is no credit error. -/
def Backed (s : Audited) : Prop :=
  s.endpoint.link.credit.rxCredit = 8 * s.fcts - s.nchars ∧
    (s.nchars < 8 * s.fcts → ∃ credit, s.endpoint.link.credit.onNcharReceived = .ok credit)

/-- The FCT of the handshake is not due before the window holds one. -/
def HandshakeFits (s : Audited) (i : LifeInput) : Prop :=
  i = .input (.act .txLoop) → s.endpoint.txLoop = .top →
    s.endpoint.link.fsm.state = .connecting → s.endpoint.link.onlyNulls = false →
    s.endpoint.link.fctSentThisConnecting = false → 8 ≤ s.endpoint.link.credit.maxRxCredit

/-- What is known of an endpoint whose FCTs have all been credited. -/
structure BackedInv (s : Audited) : Prop where
  credit : CreditInv s.endpoint.link
  regular : Regular s.endpoint
  exact : s.endpoint.link.credit.rxCredit = 8 * s.fcts - s.nchars

theorem BackedInv.backed {s : Audited} (h : BackedInv s) : Backed s := by
  refine ⟨h.exact, fun hlt => ?_⟩
  have hexact := h.exact
  have hpos : ¬s.endpoint.link.credit.rxCredit ≤ 0 := by omega
  exact ⟨_, if_neg hpos⟩

theorem picked_rxQueue {b : Bool} {mode : TxMode} (hp : l.Picked mode l' c b) :
    l'.rxNcharQueue = l.rxNcharQueue := by
  cases hp <;> rfl

theorem BackedInv.booked {s : Audited} {i : LifeInput} (h : BackedInv s)
    (hnone : s.endpoint.nextPick i = none)
    (hb : Booked s.endpoint.link (s.endpoint.lifeStep i).link (puts s.endpoint i)) :
    BackedInv (s.step i) := by
  have hcredit := h.credit.life i
  have hregular := h.regular.life i
  have hexact := h.exact
  unfold Audited.step
  dsimp only
  split
  · rename_i hne
    refine ⟨hcredit, hregular, ?_⟩
    rw [hb.dropped hne]
    rfl
  · rename_i heq
    have hkept := hb.kept (not_not.mp heq)
    refine ⟨hcredit, hregular, ?_⟩
    simp only [hnone, Option.any_none, Bool.false_eq_true, if_false, Nat.add_zero]
    push_cast
    omega

theorem audited_pick {s : Audited} {i : LifeInput} {b : Bool}
    (h : s.endpoint.Picks i l c b (s.endpoint.lifeStep i)) :
    s.step i =
      { endpoint := s.endpoint.lifeStep i
        fcts := s.fcts + if c.type = .fct then 1 else 0
        nchars := s.nchars } ∧
      (s.endpoint.lifeStep i).link.credit = l.credit := by
  obtain ⟨e, txLoop, hafter, -⟩ := h.after
  have hresets : (s.endpoint.lifeStep i).link.errorResetCount =
      s.endpoint.link.errorResetCount :=
    (congrArg (·.link.errorResetCount) hafter).trans (picked_resets h.picked)
  have hqueue : (s.endpoint.lifeStep i).link.rxNcharQueue = s.endpoint.link.rxNcharQueue :=
    (congrArg (·.link.rxNcharQueue) hafter).trans (picked_rxQueue h.picked)
  have hputs : puts s.endpoint i = 0 := by
    rw [puts, hqueue]
    exact Nat.sub_self _
  refine ⟨?_, by rw [hafter]⟩
  rw [Audited.step]
  simp [hresets, hputs, h.nextPick]

theorem backedInv_step {s : Audited} {i : LifeInput} (h : BackedInv s) (hi : HandshakeFits s i) :
    BackedInv (s.step i) := by
  obtain ⟨hnone, hno⟩ | ⟨link, char, b, hpick⟩ := s.endpoint.nextPick_cases i
  · exact h.booked hnone (lifeStep_booked hno)
  · obtain ⟨hstep, hlink⟩ := audited_pick hpick
    obtain ⟨-, hrx⟩ := picked_credit h.regular h.credit hpick.picked (hi hpick.input hpick.top)
    have hexact := h.exact
    rw [hstep]
    refine ⟨h.credit.life i, h.regular.life i, ?_⟩
    dsimp only
    rw [hlink, hrx, hexact, fctCount_singleton]
    split <;> push_cast <;> omega

theorem fits_of_backed {s : Audited} {i : LifeInput} (h : BackedInv s) (hs : Backed (s.step i)) :
    HandshakeFits s i := by
  rintro rfl htop hconn hnulls hsent
  by_contra hsmall
  obtain ⟨hnone, hno⟩ | ⟨link, char, b, hpick⟩ := s.endpoint.nextPick_cases (.input (.act .txLoop))
  · have hmode := hno rfl htop
    rw [hconn] at hmode
    cases hmode
  · obtain ⟨hstep, hlink⟩ := audited_pick hpick
    have hpicked := hpick.picked
    have hexact := h.exact
    have hafter := hs.1
    rw [hstep] at hafter
    dsimp only at hafter
    rw [hlink] at hafter
    have hzero := h.credit.fresh hconn hsent
    rw [hconn] at hpicked
    cases hpicked with
    | null hno => simp [picksFct, stateTx, hnulls, hsent] at hno
    | handshake hn hf hle => omega
    | uncredited hn hf hlt =>
      simp only [Character.ofType, if_true] at hafter
      push_cast at hafter
      omega

theorem backedInv_new {cfg : LinkConfig} (h : SpaceWireLink.new cfg = .ok l) :
    BackedInv { endpoint := { link := l } } := by
  obtain ⟨hcredit, hrange, hfsm, -, hrx, -, hsent, htx, hresets⟩ := new_ok h
  refine ⟨⟨hrange, ?_, ?_⟩, ⟨?_, ?_⟩, ?_⟩
  · intro
    rw [hcredit]
  · intro
    rw [hcredit]
    exact fun _ => rfl
  · rw [htx]
    simp
  · simp [TxLoop.underWay]
  · dsimp only
    rw [hcredit]
    rfl

/-- Over the life of a link the receive credit is that of its FCTs exactly as long as no FCT of
the handshake is due that the window does not hold. -/
theorem fct_backed_iff {cfg : LinkConfig} {link : SpaceWireLink}
    (h : SpaceWireLink.new cfg = .ok link) (is : List LifeInput) :
    Always Audited.step Backed { endpoint := { link } } is ↔
      Guarded Audited.step HandshakeFits { endpoint := { link } } is := by
  apply always_iff_guarded (I := BackedInv) (backedInv_new h)
  · exact fun s hs => hs.backed
  · exact fun s i hs hi => backedInv_step hs hi
  · exact fun s i hs hP => fits_of_backed hs hP

/-- What brings a new link that is told to start to Run. -/
def bringUpLife : List LifeInput := .start :: .started :: bringUp.map .input

theorem fct_backed_iff_bringUp : ∃ link, SpaceWireLink.new { linkStart := true } = .ok link ∧
    (Always Audited.step Backed { endpoint := { link } } bringUpLife ↔
      Guarded Audited.step HandshakeFits { endpoint := { link } } bringUpLife) :=
  ⟨_, rfl, @fct_backed_iff { linkStart := true } _ rfl bringUpLife⟩

/-- With four slots the FCT of the handshake grants the peer eight N-Chars, and its first one
is a credit error. -/
theorem handshake_uncredited :
    ∃ link, SpaceWireLink.new { linkStart := true, rxFifoCapacity := 4 } = .ok link ∧
      ∃ s, s = run Audited.step { endpoint := { link } } bringUpLife ∧
        s.endpoint.link.fsm.state = .run ∧ s.fcts = 1 ∧ s.nchars = 0 ∧
        s.endpoint.link.credit.rxCredit = 0 ∧
        s.endpoint.link.credit.onNcharReceived =
          .error (.creditError "nchar_with_zero_rx_credit") ∧
        ¬ Backed s := by
  refine ⟨_, rfl, _, rfl, by decide +kernel, by decide +kernel, by decide +kernel,
    by decide +kernel, ?_, fun h => absurd h.1 (by decide +kernel)⟩
  exact if_pos (by decide +kernel)

end SpaceWire.Backing
