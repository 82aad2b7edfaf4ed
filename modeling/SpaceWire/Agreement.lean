import SpaceWire.Conservation
import SpaceWire.Events
import SpaceWire.Handshake

namespace SpaceWire.Agreement

open Accounting Traffic Conservation Events Handshake Run

/-- The character whose last bit has been driven, while the link has not been told. -/
def justDriven : TxLoop → List Character
  | .driven char _ => [char]
  | _ => []

def NullOut (p : Endpoint) : Prop :=
  NullSent p.link.fsm ∨
    p.link.fsm.state = .started ∧ ∃ c ∈ justDriven p.txLoop, c.type = .null

def FctOut (p : Endpoint) : Prop :=
  FctSent p.link.fsm ∨
    p.link.fsm.state = .connecting ∧ ∃ c ∈ justDriven p.txLoop, c.type = .fct

/-- A link in this state may have put the character on the line. -/
structure Fits (s : State) (c : Character) : Prop where
  transmits : stateTx s ≠ .reset
  exchanging : c.type ≠ .null → s.exchanging = true
  running : c.isNChar = true → s = .run

/-- How far `p` has come, what it has put on the line and what `q` has heard of it. -/
structure Sync (p q : Endpoint) (line : List Character) : Prop where
  fits : ∀ c ∈ line, Fits p.link.fsm.state c
  null : line ≠ [] ∨ q.link.fsm.gotNullLatched = true ↔ NullOut p
  fct : (∃ c ∈ line, c.type = .fct) ∨ q.link.fsm.gotFctInConnecting = true ↔ FctOut p
  first : q.link.fsm.gotNullLatched = false →
    ∀ c, (line ++ p.txLoop.underWay).head? = some c → c.type = .null
  order : q.link.fsm.gotFctInConnecting = false →
    ∀ c, (line ++ p.txLoop.underWay).find? (fun c => c.type ≠ .null) = some c → c.type = .fct

variable {p p' q q' : Endpoint} {line : List Character} {c : Character}

theorem lineChar_cases (h : LineChar c) : c.type = .null ∨ c.type = .fct ∨ c.isNChar = true := by
  cases h with
  | null => exact .inl rfl
  | fct => exact .inr (.inl rfl)
  | packet h => exact .inr (.inr h.isNChar)

theorem isNChar_type (h : c.isNChar = true) : c.type ≠ .null ∧ c.type ≠ .fct := by
  constructor <;> intro ht <;> simp [Character.isNChar, isNCharType, ht] at h

theorem out_iff (h : justDriven p.txLoop = []) :
    (NullOut p ↔ NullSent p.link.fsm) ∧ (FctOut p ↔ FctSent p.link.fsm) := by
  simp [NullOut, FctOut, h]

theorem Sync.sender (h : Sync p q line)
    (hfits : ∀ c, Fits p.link.fsm.state c → Fits p'.link.fsm.state c)
    (hnull : NullOut p' ↔ NullOut p) (hfct : FctOut p' ↔ FctOut p)
    (hway : p'.txLoop.underWay = p.txLoop.underWay) : Sync p' q line :=
  ⟨fun c hc => hfits c (h.fits c hc), h.null.trans hnull.symm, h.fct.trans hfct.symm,
    by rw [hway]; exact h.first, by rw [hway]; exact h.order⟩

theorem Sync.receiver (h : Sync p q line)
    (hnull : q'.link.fsm.gotNullLatched = q.link.fsm.gotNullLatched)
    (hfct : q'.link.fsm.gotFctInConnecting = q.link.fsm.gotFctInConnecting) : Sync p q' line :=
  ⟨h.fits, by rw [hnull]; exact h.null, by rw [hfct]; exact h.fct, by rw [hnull]; exact h.first,
    by rw [hfct]; exact h.order⟩

theorem Fits.advance {f f' : LinkFSM} {e : Event} (hc : Fits f.state c) (h : Advance f e f') :
    Fits f'.state c :=
  ⟨h.transmits hc.transmits, fun hn => h.exchanging (hc.exchanging hn),
    fun hn => h.running (hc.running hn)⟩

theorem picked_fits {link : SpaceWireLink} {b : Bool} (hmode : stateTx p.link.fsm.state ≠ .reset)
    (hp : p.link.Picked (stateTx p.link.fsm.state) link c b) : Fits p.link.fsm.state c := by
  generalize hs : stateTx p.link.fsm.state = mode at hp
  cases hp with
  | null => exact ⟨hmode, fun hn => absurd rfl hn, nofun⟩
  | handshake | uncredited =>
    have hconn := stateTx_eq_sendNullsFcts hs
    exact ⟨hmode, fun _ => by rw [hconn]; rfl, nofun⟩
  | fct =>
    have hrun := stateTx_eq_sendNchars hs
    exact ⟨hmode, fun _ => by rw [hrun]; rfl, nofun⟩
  | nchar =>
    have hrun := stateTx_eq_sendNchars hs
    exact ⟨hmode, fun _ => by rw [hrun]; rfl, fun _ => hrun⟩

theorem Sync.pick {b : Bool} {bits : List Bool} (h : Sync p q line) (htop : p.txLoop = .top)
    (hfsm : p'.link.fsm = p.link.fsm) (hway : p'.txLoop = .sending c b bits)
    (hfits : Fits p.link.fsm.state c) (hc : LineChar c) : Sync p' q line := by
  have hout := out_iff (p := p) (by rw [htop]; rfl)
  have hout' := out_iff (p := p') (by rw [hway]; rfl)
  rw [hfsm] at hout'
  have hold : p.txLoop.underWay = [] := by rw [htop]; rfl
  have hnew : p'.txLoop.underWay = [c] := by rw [hway]; rfl
  have hfirst := h.first
  have horder := h.order
  rw [hold, List.append_nil] at hfirst horder
  refine ⟨by rw [hfsm]; exact h.fits, h.null.trans (hout.1.trans hout'.1.symm),
    h.fct.trans (hout.2.trans hout'.2.symm), ?_, ?_⟩
  · intro hg d hd
    rw [hnew] at hd
    cases line with
    | cons c' rest => exact hfirst hg d hd
    | nil =>
      obtain rfl : c = d := by simpa using hd
      by_contra hn
      have hsent : NullOut p := hout.1.mpr (.inr (hfits.exchanging hn))
      simpa [hg] using h.null.mpr hsent
  · intro hg d hd
    rw [hnew, List.find?_append] at hd
    cases hfind : line.find? (fun c => c.type ≠ .null) with
    | some d' =>
      rw [hfind] at hd
      exact horder hg d (hfind.trans hd)
    | none =>
      rw [hfind, Option.none_or] at hd
      obtain rfl := List.mem_singleton.mp (List.mem_of_find?_eq_some hd)
      obtain ht | ht | ht := lineChar_cases hc
      · simpa [ht] using List.find?_some hd
      · exact ht
      · have hsent : FctOut p := hout.2.mpr (.inr (hfits.running ht))
        obtain ⟨d, hmem, hty⟩ | hgot := h.fct.mpr hsent
        · have hnull := List.find?_eq_none.mp hfind d hmem
          simp [hty] at hnull
        · rw [hg] at hgot
          cases hgot

theorem Sync.drive {b : Bool} {bits : List Bool} (h : Sync p q line)
    (hway : p.txLoop = .sending c b bits) (hfits : Fits p.link.fsm.state c) :
    Sync { p with txLoop := .driven c b } q (line ++ [c]) := by
  have hout := out_iff (p := p) (by rw [hway]; rfl)
  have hheld : p.txLoop.underWay = [c] := by rw [hway]; rfl
  have hfirst := h.first
  have horder := h.order
  rw [hheld] at hfirst horder
  refine ⟨?_, ?_, ?_, ?_, ?_⟩
  · intro d hd
    obtain hd | hd := List.mem_append.mp hd
    · exact h.fits d hd
    · obtain rfl := List.mem_singleton.mp hd
      exact hfits
  · refine ⟨fun _ => ?_, fun _ => .inl (by simp)⟩
    by_cases hn : c.type = .null
    · cases hs : p.link.fsm.state with
      | started => exact .inr ⟨hs, c, List.mem_singleton.mpr rfl, hn⟩
      | connecting | run => exact .inl (.inr (by rw [hs]; rfl))
      | errorReset | errorWait | ready => exact absurd (by rw [hs]; rfl) hfits.transmits
    · exact .inl (.inr (hfits.exchanging hn))
  · by_cases hf : c.type = .fct
    · refine ⟨fun _ => ?_, fun _ => .inl ⟨c, by simp, hf⟩⟩
      obtain hs | hs := exchanging_iff.mp (hfits.exchanging (by simp [hf]))
      · exact .inr ⟨hs, c, List.mem_singleton.mpr rfl, hf⟩
      · exact .inl (.inr hs)
    · have hsent : FctOut { p with txLoop := .driven c b } ↔ FctOut p := by
        rw [hout.2]
        simp [FctOut, justDriven, hf]
      rw [hsent, ← h.fct]
      simp [hf]
  · simpa [TxLoop.underWay] using hfirst
  · simpa only [TxLoop.underWay, List.append_nil] using horder

theorem Sync.done {b : Bool} (h : Sync p q line) (hway : p.txLoop = .driven c b)
    (htop : p'.txLoop = .top) (hfits : Fits p.link.fsm.state c) (hc : LineChar c)
    (hnone : sentEvent c = none → p'.link.fsm = p.link.fsm)
    (hsome : ∀ e, sentEvent c = some e → Advance p.link.fsm e p'.link.fsm) : Sync p' q line := by
  have hout := out_iff (p := p') (by rw [htop]; rfl)
  have hunder : p'.txLoop.underWay = p.txLoop.underWay := by rw [htop, hway]; rfl
  obtain ht | ht | ht := lineChar_cases hc
  · have hadv := hsome .sentNull (by simp [sentEvent, ht])
    refine h.sender (fun d hd => hd.advance hadv) ?_ ?_ hunder
    · rw [hout.1, hadv.nullSent]
      simp [NullOut, hway, justDriven, ht]
    · rw [hout.2, hadv.fctSent]
      simp [FctOut, hway, justDriven, ht]
  · have hadv := hsome .sentFct (by simp [sentEvent, ht])
    refine h.sender (fun d hd => hd.advance hadv) ?_ ?_ hunder
    · rw [hout.1, hadv.nullSent]
      simp [NullOut, hway, justDriven, ht]
    · rw [hout.2, hadv.fctSent]
      refine ⟨fun _ => ?_, fun _ => .inr rfl⟩
      obtain hs | hs := exchanging_iff.mp (hfits.exchanging (by simp [ht]))
      · exact .inr ⟨hs, c, by rw [hway]; exact List.mem_singleton.mpr rfl, ht⟩
      · exact .inl (.inr hs)
  · obtain ⟨hn, hf⟩ := isNChar_type ht
    have hfsm := hnone (by simp [sentEvent, hn, hf])
    refine h.sender (fun d hd => by rwa [hfsm]) ?_ ?_ hunder
    · rw [hout.1, hfsm]
      simp [NullOut, hway, justDriven, hn]
    · rw [hout.2, hfsm]
      simp [FctOut, hway, justDriven, hf]

theorem Sync.sender_advance {e : Event} (h : Sync p q line)
    (hadv : Advance p.link.fsm e p'.link.fsm) (hloop : p'.txLoop = p.txLoop)
    (hquiet : justDriven p.txLoop = []) (hnull : e ≠ .sentNull) (hfct : e ≠ .sentFct) :
    Sync p' q line := by
  have hout := out_iff hquiet
  have hout' := out_iff (p := p') (by rw [hloop]; exact hquiet)
  refine h.sender (fun d hd => hd.advance hadv) ?_ ?_ (by rw [hloop])
  · rw [hout.1, hout'.1, hadv.nullSent]
    simp [hnull]
  · rw [hout.2, hout'.2, hadv.fctSent]
    simp [hfct]

theorem Sync.receiver_advance {e : Event} (h : Sync p q line)
    (hadv : Advance q.link.fsm e q'.link.fsm) (hnull : e ≠ .gotNull) (hfct : e ≠ .gotFct) :
    Sync p q' line := by
  refine h.receiver ?_ ?_
  · rw [Bool.eq_iff_iff, hadv.gotNull]
    simp [hnull]
  · rw [Bool.eq_iff_iff, hadv.gotFct]
    simp [hfct]

theorem characterEvent_lineChar (hc : LineChar c) :
    c.type = .null ∧ characterEvent c.type = some .gotNull ∨
      c.type = .fct ∧ characterEvent c.type = some .gotFct ∨
      c.isNChar = true ∧ characterEvent c.type = some .gotNChar := by
  cases hc with
  | null => exact .inl ⟨rfl, rfl⟩
  | fct => exact .inr (.inl ⟨rfl, rfl⟩)
  | packet h => exact .inr (.inr (by cases h <;> exact ⟨rfl, rfl⟩))

theorem characterEvent_received (hc : LineChar c) :
    ∃ e, characterEvent c.type = some e ∧ e ≠ .sentNull ∧ e ≠ .sentFct := by
  obtain ⟨-, hev⟩ | ⟨-, hev⟩ | ⟨-, hev⟩ := characterEvent_lineChar hc <;>
    exact ⟨_, hev, nofun, nofun⟩

theorem Sync.hear {e : Event} (h : Sync p q (c :: line)) (hc : LineChar c)
    (he : characterEvent c.type = some e) (hadv : Advance q.link.fsm e q'.link.fsm) :
    Sync p q' line := by
  have hgot : q'.link.fsm.gotNullLatched = true := by
    rw [hadv.gotNull]
    cases hg : q.link.fsm.gotNullLatched with
    | true => exact .inl rfl
    | false =>
      have ht := h.first hg c rfl
      rw [ht] at he
      exact .inr (Option.some.inj he).symm
  have hfct : e = .gotFct ↔ c.type = .fct := by
    obtain ⟨ht, hev⟩ | ⟨ht, hev⟩ | ⟨ht, hev⟩ := characterEvent_lineChar hc <;>
      obtain rfl := Option.some.inj (he.symm.trans hev)
    · simp [ht]
    · simp [ht]
    · simp [isNChar_type ht]
  have hlatch := hadv.gotFct
  rw [hfct] at hlatch
  refine ⟨fun d hd => h.fits d (List.mem_cons_of_mem c hd), ?_, ?_, ?_, ?_⟩
  · rw [← h.null]
    simp [hgot]
  · rw [← h.fct, hlatch]
    simp only [List.mem_cons, exists_eq_or_imp]
    rw [or_comm (b := c.type = .fct), ← or_assoc, or_comm (b := c.type = .fct)]
  · intro hg
    rw [hgot] at hg
    cases hg
  · intro hg d hd
    have hno := mt hlatch.mpr (by simp [hg])
    obtain ⟨hq, hf⟩ := not_or.mp hno
    have horder := h.order (by simpa using hq)
    by_cases hn : c.type = .null
    · apply horder d
      rw [List.cons_append, List.find?_cons_of_neg (by simp [hn])]
      exact hd
    · refine absurd (horder c ?_) hf
      rw [List.cons_append, List.find?_cons_of_pos (by simp [hn])]

/-- What the peer has put on the line does not come too early: it heard a NULL before its
first FCT and an FCT before its first N-Char, and neither left this link behind. -/
theorem hear_benign {e : Event} {back : List Character} (hpq : Sync p q (c :: line))
    (hqp : Sync q p back) (hp : Settled p.link.fsm) (hq : Settled q.link.fsm) (hc : LineChar c)
    (hquiet : justDriven q.txLoop = []) (he : characterEvent c.type = some e) :
    Benign q.link.fsm e := by
  have hfits := hpq.fits c (List.mem_cons_self ..)
  have hout := out_iff hquiet
  obtain ⟨ht, hev⟩ | ⟨ht, hev⟩ | ⟨ht, hev⟩ := characterEvent_lineChar hc <;>
    obtain rfl := Option.some.inj (he.symm.trans hev)
  · exact .gotNull
  · have hheard := hp.heard (hfits.exchanging (by simp [ht]))
    obtain ⟨hs, hn⟩ | hx := hout.1.mp (hqp.null.mp (.inr hheard))
    · have hfirst := hpq.first (hq.started hs hn) c rfl
      rw [ht] at hfirst
      cases hfirst
    · exact .gotFct hx
  · have hrun := hfits.running ht
    have hheard := (hp.run hrun).2
    obtain ⟨hs, hf⟩ | hs := hout.2.mp (hqp.fct.mp (.inr hheard))
    · have horder := hpq.order (hq.connecting hs hf) c
      rw [List.cons_append, List.find?_cons_of_pos (by simp [isNChar_type ht])] at horder
      exact absurd (horder rfl) (isNChar_type ht).2
    · exact .gotNChar hs

/-- What one endpoint keeps by itself. -/
structure Orderly (p : Endpoint) : Prop where
  ticks : OnlyTicks p.link
  settled : Settled p.link.fsm
  held : ∀ c ∈ p.txLoop.underWay ++ justDriven p.txLoop,
    LineChar c ∧ Fits p.link.fsm.state c

/-- No error, no disable, and no 12.8 us tick in Started or Connecting. -/
def Harmless (f : LinkFSM) (e : Event) : Prop :=
  e ≠ .rxErr ∧ e ≠ .linkDisable ∧ (e = .tick12p8us → f.state ≠ .started ∧ f.state ≠ .connecting)

instance (f : LinkFSM) (e : Event) : Decidable (Harmless f e) :=
  inferInstanceAs (Decidable (_ ∧ _ ∧ (_ → _)))

section event

variable {l l' : SpaceWireLink} {oe : Option Event}

theorem told_cases (ht : Told l oe l') (hs : Settled l.fsm)
    (hb : ∀ e, oe = some e → Benign l.fsm e) :
    oe = none ∧ l'.fsm = l.fsm ∨ ∃ e, oe = some e ∧ Advance l.fsm e l'.fsm := by
  have hfsm := ht.fsm
  cases oe with
  | none => exact .inl ⟨rfl, hfsm⟩
  | some e =>
    refine .inr ⟨e, rfl, ?_⟩
    rw [hfsm]
    exact advance hs (hb e rfl)

theorem told_settled (ht : Told l oe l') (hs : Settled l.fsm)
    (hb : ∀ e, oe = some e → Benign l.fsm e) : Settled l'.fsm := by
  obtain ⟨-, hfsm⟩ | ⟨e, -, hadv⟩ := told_cases ht hs hb
  · rwa [hfsm]
  · exact hadv.settled

theorem told_fits (ht : Told l oe l') (hs : Settled l.fsm)
    (hb : ∀ e, oe = some e → Benign l.fsm e) (hc : Fits l.fsm.state c) :
    Fits l'.fsm.state c := by
  obtain ⟨-, hfsm⟩ | ⟨e, -, hadv⟩ := told_cases ht hs hb
  · rwa [hfsm]
  · exact hc.advance hadv

theorem told_resets (ht : Told l oe l') (hs : Settled l.fsm)
    (hb : ∀ e, oe = some e → Benign l.fsm e) : l'.errorResetCount = l.errorResetCount :=
  ht.resets fun e he => (advance hs (hb e he)).undropped

end event

variable {a : Action}

theorem feeds_cases {e : Event} (hticks : OnlyTicks p.link) (he : p.feeds a = some e)
    (hne : e ≠ .rxErr) :
    e.external = true ∨ a = .txLoop ∧ (e = .sentNull ∨
      e = .sentFct ∧ ∃ c ∈ justDriven p.txLoop, c.type = .fct) := by
  cases a with
  | feed e' =>
    simp only [Endpoint.feeds] at he
    split at he
    · cases he
      exact .inl ‹_›
    · cases he
  | expire task =>
    simp only [Endpoint.feeds] at he
    split at he
    · rename_i hmem
      cases he
      left
      obtain ht | ht := hticks task hmem.1 <;> rw [ht] <;> rfl
    · cases he
  | watchdog disconnected =>
    simp only [Endpoint.feeds] at he
    split at he
    · cases he
      exact absurd rfl hne
    · cases he
  | txLoop =>
    cases htx : p.txLoop with
    | driven c b =>
      simp only [Endpoint.feeds, htx, sentEvent] at he
      split at he
      · cases he
        exact .inr ⟨rfl, .inl rfl⟩
      · split at he
        · rename_i hf
          cases he
          exact .inr ⟨rfl, .inr ⟨rfl, c, List.mem_singleton.mpr rfl, hf⟩⟩
        · cases he
    | top | parked | sending | dead => simp [Endpoint.feeds, htx] at he
  | sendPacket | sendChar | recvPacket => cases he

theorem feeds_benign (h : Orderly p) (hfault : ∀ e, p.feeds a = some e → Harmless p.link.fsm e) :
    ∀ e, p.feeds a = some e → Benign p.link.fsm e := by
  intro e he
  obtain ⟨hne, hd, htick⟩ := hfault e he
  obtain hext | ⟨-, rfl | ⟨rfl, c, hc, hf⟩⟩ := feeds_cases h.ticks he hne
  · exact .external hext hd htick
  · exact .sentNull
  · exact .sentFct ((h.held c (List.mem_append_right _ hc)).2.exchanging (by simp [hf]))

theorem act_orderly (h : Orderly p) (hclean : Clean p)
    (hb : ∀ e, p.feeds a = some e → Benign p.link.fsm e) : Orderly (p.act a) := by
  have ht := act_told hclean a
  have hfits {c : Character} := told_fits (c := c) ht h.settled hb
  refine ⟨h.ticks.told ht, told_settled ht h.settled hb, ?_⟩
  by_cases ha : a = .txLoop
  · subst ha
    have hturned := turned hclean
    simp only [Endpoint.act] at ht hfits ⊢
    generalize p.stepTxLoop = p' at hturned ht hfits
    cases hturned with
    | sleep htx => exact h.held
    | park | wake | done => simp [TxLoop.underWay, justDriven]
    | pick htx hmode hp hc =>
      intro d hd
      obtain rfl : d = _ := by simpa [TxLoop.underWay, justDriven] using hd
      exact ⟨hc, hfits (picked_fits hmode hp)⟩
    | drive htx =>
      intro d hd
      apply h.held d
      simpa [TxLoop.underWay, justDriven, htx] using hd
  · rw [(act_txLoop ha).1]
    exact fun c hc => ⟨(h.held c hc).1, hfits (h.held c hc).2⟩

theorem act_sender (h : Orderly p) (hclean : Clean p) (hsync : Sync p q line)
    (hb : ∀ e, p.feeds a = some e → Benign p.link.fsm e)
    (hquiet : a ≠ .txLoop → justDriven p.txLoop = []) :
    Sync (p.act a) q (line ++ p.emits a) := by
  have ht := act_told hclean a
  have hcases := told_cases ht h.settled hb
  by_cases ha : a = .txLoop
  · subst ha
    have hturned := turned hclean
    simp only [Endpoint.act, hclean.emits] at ht hcases ⊢
    generalize p.stepTxLoop = p' at hturned ht hcases
    cases hturned with
    | sleep htx => simpa [htx, TxLoop.underWay] using hsync
    | park htx | wake htx =>
      simp only [htx, TxLoop.underWay, List.append_nil]
      exact hsync.sender (fun _ hc => hc) (by simp [NullOut, htx, justDriven])
        (by simp [FctOut, htx, justDriven]) (by rw [htx]; rfl)
    | pick htx hmode hp hc =>
      simp only [htx, TxLoop.underWay, List.append_nil]
      exact hsync.pick htx (picked_told hp).fsm rfl (picked_fits hmode hp) hc
    | @drive c b bits htx =>
      simp only [htx, TxLoop.underWay]
      exact hsync.drive htx (h.held c (by simp [htx, TxLoop.underWay])).2
    | @done c b htx =>
      have hheld := h.held c (by simp [htx, justDriven])
      have hfeeds : p.feeds .txLoop = sentEvent c := by simp [Endpoint.feeds, htx]
      rw [hfeeds] at hcases
      simp only [htx, TxLoop.underWay, List.append_nil]
      refine hsync.done htx rfl hheld.2 hheld.1 (fun hn => ?_) (fun e he => ?_)
      · obtain ⟨-, hfsm⟩ | ⟨e, he, -⟩ := hcases
        · exact hfsm
        · rw [hn] at he
          cases he
      · obtain ⟨hn, -⟩ | ⟨e', he', hadv⟩ := hcases
        · rw [hn] at he
          cases he
        · cases he.symm.trans he'
          exact hadv
  · obtain ⟨hloop, hemits⟩ := act_txLoop (p := p) ha
    rw [hemits, List.append_nil]
    obtain ⟨-, hfsm⟩ | ⟨e, he, hadv⟩ := hcases
    · exact hsync.sender (fun _ hc => by rwa [hfsm]) (by simp [NullOut, hfsm, hloop])
        (by simp [FctOut, hfsm, hloop]) (by rw [hloop])
    · obtain hext | ⟨htx, -⟩ := feeds_cases h.ticks he (hb e he).ne_rxErr
      · exact hsync.sender_advance hadv hloop (hquiet ha) (by rintro rfl; cases hext)
          (by rintro rfl; cases hext)
      · exact absurd htx ha

theorem act_receiver (h : Orderly q) (hclean : Clean q) (hsync : Sync p q line)
    (hb : ∀ e, q.feeds a = some e → Benign q.link.fsm e) : Sync p (q.act a) line := by
  have ht := act_told hclean a
  obtain ⟨-, hfsm⟩ | ⟨e, he, hadv⟩ := told_cases ht h.settled hb
  · exact hsync.receiver (by rw [hfsm]) (by rw [hfsm])
  · obtain hext | ⟨-, rfl | ⟨rfl, -⟩⟩ := feeds_cases h.ticks he (hb e he).ne_rxErr
    · exact hsync.receiver_advance hadv (by rintro rfl; cases hext) (by rintro rfl; cases hext)
    · exact hsync.receiver_advance hadv nofun nofun
    · exact hsync.receiver_advance hadv nofun nofun

/-- What two endpoints keep while the handshake meets no fault. -/
structure Agreed (s : System) : Prop where
  healthy : Healthy s
  undropped : Undropped s
  orderly : ∀ x, Orderly (s.ends x)
  sync : ∀ x, Sync (s.ends x) (s.ends x.peer) (s.line x)

/-- A turn without a fault: the report of a driven character comes in the same step as its
last bit, the line is reliable, only whole packets are sent, and the events are harmless. -/
def FaultFree (s : System) (t : Turn) : Prop :=
  (∀ x, justDriven (s.ends x).txLoop ≠ [] → t = .act x .txLoop) ∧ t.lossless = true ∧
    match t with
    | .act x a => ∀ e ∈ (s.ends x).feeds a, Harmless (s.ends x).link.fsm e
    | _ => True

instance (s : System) : ∀ t, Decidable (FaultFree s t)
  | .act x a => inferInstanceAs (Decidable (_ ∧ _ ∧ ∀ e ∈ (s.ends x).feeds a, _))
  | .deliver _ | .lose _ | .noise _ _ => inferInstanceAs (Decidable (_ ∧ _ ∧ True))

variable {s : System} {x : Side}

theorem Agreed.act {a : Action} (h : Agreed s) (ht : FaultFree s (.act x a)) :
    Agreed (s.step (.act x a)) := by
  obtain ⟨hdriven, hlossless, hharmless⟩ := ht
  have hclean := h.healthy.clean x
  have hb := feeds_benign (h.orderly x) hharmless
  have hresets := told_resets (act_told hclean a) (h.orderly x).settled hb
  have hquiet (ha : a ≠ .txLoop) : justDriven (s.ends x).txLoop = [] := by
    by_contra hne
    cases hdriven x hne
    exact ha rfl
  have hsender := act_sender (h.orderly x) hclean (h.sync x) hb hquiet
  have hreceiver := act_receiver (h.orderly x) hclean
    (by simpa only [Side.peer_peer] using h.sync x.peer) hb
  refine ⟨h.healthy.act hlossless hresets, ?_, ?_, ?_⟩
  · refine (Side.forall_iff x).mpr ⟨?_, by simpa using h.undropped x.peer⟩
    simpa [hresets] using h.undropped x
  · refine (Side.forall_iff x).mpr ⟨?_, by simpa using h.orderly x.peer⟩
    simpa using act_orderly (h.orderly x) hclean hb
  · exact (Side.forall_iff x).mpr ⟨by simpa using hsender, by simpa using hreceiver⟩

theorem Agreed.deliver (h : Agreed s) (ht : FaultFree s (.deliver x)) :
    Agreed (s.step (.deliver x)) := by
  simp only [System.step]
  split
  · exact h
  · rename_i c rest hline
    have hquiet : justDriven (s.ends x.peer).txLoop = [] := by
      by_contra hne
      cases ht.1 x.peer hne
    have hc := h.healthy.line x c (by simp [hline])
    obtain ⟨e, he, hnull, hfct⟩ := characterEvent_received hc
    have hpq := h.sync x
    have hqp := h.sync x.peer
    rw [hline] at hpq
    rw [Side.peer_peer] at hqp
    obtain ⟨hroom, hpos⟩ := h.healthy.solvent.head_bounds hline
    have hs := (h.orderly x.peer).settled
    have hb := hear_benign hpq hqp (h.orderly x).settled hs hc hquiet he
    have htold := rxCharacter_told hc he hroom hpos (advance hs hb).undropped
    have hadv := advance hs hb
    have hfsm := htold.fsm
    rw [Option.elim_some] at hfsm
    rw [← hfsm] at hadv
    have hresets := htold.resets fun e' he' => by cases he'; exact hadv.undropped
    refine ⟨h.healthy.receive hline hresets, ?_, ?_, ?_⟩
    · refine (Side.forall_iff x).mpr ⟨by simpa using h.undropped x, ?_⟩
      simpa [Endpoint.rxCharacter, hresets] using h.undropped x.peer
    · refine (Side.forall_iff x).mpr ⟨by simpa using h.orderly x, ?_⟩
      rw [System.receive_ends_peer]
      refine ⟨(h.orderly x.peer).ticks.told htold, hadv.settled, fun d hd => ?_⟩
      obtain ⟨hd, hfits⟩ := (h.orderly x.peer).held d hd
      exact ⟨hd, hfits.advance hadv⟩
    · have hhear : Sync (s.ends x) ((s.ends x.peer).rxCharacter c) rest := hpq.hear hc he hadv
      have hback : Sync ((s.ends x.peer).rxCharacter c) (s.ends x) (s.line x.peer) :=
        hqp.sender_advance hadv rfl hquiet hnull hfct
      exact (Side.forall_iff x).mpr ⟨by simpa [hline] using hhear, by simpa using hback⟩

theorem agreed_step {t : Turn} (h : Agreed s) (ht : FaultFree s t) : Agreed (s.step t) := by
  cases t with
  | act x a => exact h.act ht
  | deliver x => exact h.deliver ht
  | lose x | noise x n => cases ht.2.1

theorem settled_start {cfg : LinkConfig} (h : Endpoint.start cfg = .ok p) :
    Settled p.link.fsm := by
  refine (start_cases (Q := fun l => Settled l.fsm) (fun l hl => ?_) (fun l e he hl => ?_) h).1
  · obtain ⟨-, -, hfsm, -⟩ := new_ok hl
    change Settled l.fsm
    rw [hfsm]
    exact ⟨nofun, nofun, nofun, nofun, fun _ => ⟨rfl, rfl⟩⟩
  · rw [SpaceWireLink.feedFsm_fsm]
    refine (advance hl (.external ?_ ?_ ?_)).settled <;> obtain rfl | rfl := he <;>
      first | rfl | nofun

theorem agreed_start {cfg : Side → LinkConfig} (h : System.start cfg = .ok s)
    (hmax : ∀ x, 8 ≤ (s.ends x).link.credit.maxRxCredit) : Agreed s := by
  obtain ⟨hends, hline⟩ := start_ends h
  obtain ⟨hhealthy, hundropped⟩ := healthy_start h hmax
  have hfresh (x : Side) := fresh_start (hends x)
  have hsettled (x : Side) := settled_start (hends x)
  refine ⟨hhealthy, hundropped, fun x => ?_, fun x => ?_⟩
  · refine ⟨onlyTicks_start (hends x), hsettled x, ?_⟩
    rw [(hfresh x).txLoop]
    simp [TxLoop.underWay, justDriven]
  · have hfct := ((hsettled x.peer).early (by rw [(hfresh x.peer).state]; rfl)).2
    have htx := (hfresh x).txLoop
    have hs := (hfresh x).state
    rw [hline]
    refine ⟨by simp, ?_, ?_, by simp [htx, TxLoop.underWay], by simp [htx, TxLoop.underWay]⟩
    · simp [NullOut, NullSent, hs, (hfresh x.peer).gotNull, State.exchanging]
    · simp [FctOut, FctSent, hs, hfct]

/-- A link in Run has been sent an FCT, so that its peer is not behind Connecting. -/
theorem Agreed.run (h : Agreed s) (hx : (s.ends x).link.fsm.state = .run) :
    (s.ends x.peer).link.fsm.state = .connecting ∨ (s.ends x.peer).link.fsm.state = .run := by
  have hsync := h.sync x.peer
  rw [Side.peer_peer] at hsync
  obtain (⟨hs, -⟩ | hs) | ⟨hs, -⟩ := hsync.fct.mp (.inr ((h.orderly x).settled.run hx).2)
  · exact .inl hs
  · exact .inr hs
  · exact .inl hs

/-- A fault-free handshake resets neither endpoint, and neither is in Run while the other
is behind Connecting. -/
theorem handshake_agrees {cfg : Side → LinkConfig} (h : System.start cfg = .ok s)
    (hmax : ∀ x, 8 ≤ (s.ends x).link.credit.maxRxCredit) (ts : List Turn)
    (hts : Guarded System.step FaultFree s ts) :
    Always System.step (fun s => Undropped s ∧ ∀ x, (s.ends x).link.fsm.state = .run →
      (s.ends x.peer).link.fsm.state = .connecting ∨ (s.ends x.peer).link.fsm.state = .run) s ts :=
  (always_of_guarded (agreed_start h hmax) (fun _ _ hs ht => agreed_step hs ht) hts).mono
    fun _ hs => ⟨hs.undropped, fun _ hx => hs.run hx⟩

theorem handshake_agrees_both_run :
    ∃ s, System.start (fun _ => { linkStart := true }) = .ok s ∧
      ((run System.step s Turn.handshake).ends .a).link.fsm.state = .run ∧
      (((run System.step s Turn.handshake).ends .b).link.fsm.state = .connecting ∨
        ((run System.step s Turn.handshake).ends .b).link.fsm.state = .run) :=
  ⟨_, rfl, by decide +kernel, ((@handshake_agrees _ (fun _ => { linkStart := true }) rfl (by decide)
    Turn.handshake (by decide +kernel)).last).2 .a (by decide +kernel)⟩

end SpaceWire.Agreement
