import SpaceWire.Drain
import SpaceWire.LeadsTo
import SpaceWire.NCharStream
import SpaceWire.Wakeup
import Mathlib.Data.List.DropRight
import Mathlib.Data.Prod.Lex

namespace SpaceWire.FairDelivery

open Run Accounting Traffic Conservation Events Progress Drain Wakeup NCharStream

/-- What has to go on for packets to be delivered: the transmit coroutines take their turns,
the tasks that call `recv_packet` take theirs, and characters arrive. -/
def turns : Set Turn :=
  { t | ∃ x, t = .act x .txLoop ∨ t = .act x .recvPacket ∨ t = .deliver x }

/-- Nothing more is sent or lost, and no event drops a link. -/
def Calm (s : System) : Turn → Prop
  | .act _ (.sendPacket _ _) | .act _ (.sendChar _) => False
  | .act _ .txLoop | .act _ .recvPacket => True
  | .act x a => ∀ e, (s.ends x).feeds a = some e → (s.ends x).link.fsm.drops e = false
  | .deliver _ => True
  | .lose _ | .noise _ _ => False

/-- What holds of two connected links while neither is dropped, with the accounts of
`send_packet` and of the wake-up. -/
structure Connected (s : System) : Prop extends Sound s where
  capacity : ∀ x, 8 ≤ (s.ends x).link.rxFifoCapacityNchars
  attended : ∀ x, Attended (s.ends x)
  accounted : ∀ x, Accounted (s.ends x)

/-- Both links are in Run. -/
structure Flowing (s : System) : Prop extends Connected s where
  running : ∀ x, (s.ends x).link.fsm.state = .run

variable {s : System} {x : Side} {t : Turn}

theorem lifeStep_kept {p : Endpoint} (ha : Attended p) (hac : Accounted p) (i : Input)
    (halive : (p.step i).txLoop ≠ .dead) : Attended (p.step i) ∧ Accounted (p.step i) :=
  ⟨ha.lifeStep (.input i), (hac.lifeStep (.input i) halive (by simp)).1⟩

theorem Connected.step (h : Connected s) (ht : t.lossless = true) (hk : Keeps s (s.step t)) :
    Connected (s.step t) := by
  have hsound := h.toSound.step ht hk
  have hkept : ∀ y, 8 ≤ ((s.step t).ends y).link.rxFifoCapacityNchars ∧
      Attended ((s.step t).ends y) ∧ Accounted ((s.step t).ends y) := by
    cases t with
    | act x a =>
      refine (Side.forall_iff x).mpr ⟨?_, ?_⟩
      · have halive := (hsound.clean x).alive
        rw [System.step_act_ends] at halive ⊢
        rw [act_capacity]
        exact ⟨h.capacity x, lifeStep_kept (h.attended x) (h.accounted x) (.act a) halive⟩
      · rw [System.step_act_ends_peer]
        exact ⟨h.capacity x.peer, h.attended x.peer, h.accounted x.peer⟩
    | deliver x =>
      simp only [System.step]
      split
      · exact fun y => ⟨h.capacity y, h.attended y, h.accounted y⟩
      · rename_i c rest hline
        refine (Side.forall_iff x).mpr ⟨?_, ?_⟩
        · rw [System.receive_ends]
          exact ⟨h.capacity x, h.attended x, h.accounted x⟩
        · have halive := (h.clean x.peer).alive
          rw [System.receive_ends_peer]
          refine ⟨?_, lifeStep_kept (h.attended x.peer) (h.accounted x.peer) (.character c) halive⟩
          exact (rxCharacter_capacity _ c).symm ▸ h.capacity x.peer
    | lose | noise => cases ht
  exact ⟨hsound, fun y => (hkept y).1, fun y => (hkept y).2.1, fun y => (hkept y).2.2⟩

theorem connected_start {cfg : Side → LinkConfig} (h : System.start cfg = .ok s)
    (hcap : ∀ x, 8 ≤ (cfg x).rxFifoCapacity)
    (hmax : ∀ x m, (cfg x).maxRxCredit = some m → 8 ≤ m) : Connected s := by
  obtain ⟨hroomy, -⟩ := roomy_start h hcap hmax
  obtain ⟨hhealthy, -⟩ := healthy_start h hroomy.solvent.window
  obtain ⟨hends, -⟩ := start_ends h
  refine ⟨healthy_sound hhealthy, hroomy.capacity, fun x => ?_, fun x => ?_⟩
  · intro hparked
    rw [(fresh_start (hends x)).txLoop] at hparked
    cases hparked
  · obtain ⟨⟨hqueue, hcount, hevent⟩, hp⟩ := start_cases
      (Q := fun l => l.txNcharQueue = [] ∧ l.txNcharOutstanding = 0 ∧ l.txDrainedEvt = true)
      (fun l hl => by simpa [SpaceWireLink.startTimer] using new_sendSide hl)
      (fun l e _ hl => by simpa using hl) (hends x)
    rw [hp]
    exact ⟨by simp [unsent, TxLoop.taken, hqueue, hcount], by simp [hcount, hevent]⟩

theorem run_of_kept {f : LinkFSM} {e : Event} (h : f.state = .run) (hd : f.drops e = false) :
    (f.feed e).state = .run := by
  have hfeed := LinkFSM.feed_run (e := e) h
  by_cases hc : e = .rxErr ∨ e = .creditErr ∨ e = .linkDisable
  · rw [if_pos hc] at hfeed
    have hdrop : f.drops e = true := by
      rw [LinkFSM.drops_iff, hfeed]
      simp [h]
    rw [hdrop] at hd
    cases hd
  · rw [hfeed, if_neg hc, LinkFSM.updateFlags_state, h]

theorem told_run {l l' : SpaceWireLink} {oe : Option Event} (ht : Told l oe l')
    (h : l.fsm.state = .run) (hd : ∀ e, oe = some e → l.fsm.drops e = false) :
    l'.fsm.state = .run := by
  rw [ht.fsm]
  cases oe with
  | none => exact h
  | some e => exact run_of_kept h (hd e rfl)

theorem kept_in_run {f : LinkFSM} {e : Event} (h : f.state = .run)
    (he : ¬ (e = .rxErr ∨ e = .creditErr ∨ e = .linkDisable)) : f.drops e = false := by
  by_contra hd
  rw [Bool.not_eq_false, LinkFSM.drops_iff, LinkFSM.feed_run h, if_neg he,
    LinkFSM.updateFlags_state] at hd
  exact hd.2 hd.1

theorem Flowing.reports (h : Flowing s) {e : Event} (he : (s.ends x).feeds .txLoop = some e) :
    (s.ends x).link.fsm.drops e = false := by
  apply kept_in_run (h.running x)
  cases htx : (s.ends x).txLoop with
  | driven c b =>
    simp only [Endpoint.feeds, htx, sentEvent] at he
    split at he
    · cases he
      simp
    · split at he
      · cases he
        simp
      · cases he
  | top | parked | sending | dead => simp [Endpoint.feeds, htx] at he

theorem Flowing.feeds {a : Action} (h : Flowing s) (ht : Calm s (.act x a)) :
    ∀ e, (s.ends x).feeds a = some e → (s.ends x).link.fsm.drops e = false := by
  cases a with
  | txLoop => exact fun e he => h.reports he
  | recvPacket =>
    intro e he
    cases he
  | sendPacket | sendChar => exact ht.elim
  | feed | expire | watchdog => exact ht

theorem Calm.lossless (h : Calm s t) : t.lossless = true := by
  cases t with
  | act x a =>
    cases a with
    | sendPacket | sendChar => exact h.elim
    | feed | expire | watchdog | txLoop | recvPacket => rfl
  | deliver x => rfl
  | lose | noise => exact h.elim

theorem hear_kept {f : LinkFSM} {c : Character} (h : f.state = .run) (hc : LineChar c) :
    ∃ e, characterEvent c.type = some e ∧ f.drops e = false := by
  cases hc with
  | null => exact ⟨.gotNull, rfl, kept_in_run h (by simp)⟩
  | fct => exact ⟨.gotFct, rfl, kept_in_run h (by simp)⟩
  | packet hc => cases hc <;> exact ⟨.gotNChar, rfl, kept_in_run h (by simp)⟩

theorem Flowing.hears (h : Flowing s) {c : Character} {rest : List Character}
    (hline : s.line x = c :: rest) :
    ∃ e, (s.ends x.peer).link.fsm.drops e = false ∧
      Told (s.ends x.peer).link (some e) ((s.ends x.peer).link.rxCharacter c) := by
  have hc := h.solvent.line x c (by simp [hline])
  obtain ⟨hroom, hpos⟩ := h.solvent.head_bounds hline
  obtain ⟨e, he, hd⟩ := hear_kept (h.running x.peer) hc
  exact ⟨e, hd, rxCharacter_told hc he hroom hpos hd⟩

theorem Flowing.keeps (h : Flowing s) (ht : Calm s t) : Keeps s (s.step t) := by
  cases t with
  | act x a =>
    refine (Side.forall_iff x).mpr ⟨?_, by rw [System.step_act_ends_peer]⟩
    rw [System.step_act_ends]
    exact (act_told (h.clean x) a).resets (h.feeds ht)
  | deliver x =>
    simp only [System.step]
    split
    · exact fun _ => rfl
    · rename_i c rest hline
      obtain ⟨e, hd, htold⟩ := h.hears hline
      refine (Side.forall_iff x).mpr ⟨by rw [System.receive_ends], ?_⟩
      rw [System.receive_ends_peer]
      exact htold.resets (by rintro _ ⟨⟩; exact hd)
  | lose | noise => exact ht.elim

theorem Flowing.step (h : Flowing s) (ht : Calm s t) : Flowing (s.step t) := by
  refine ⟨h.toConnected.step ht.lossless (h.keeps ht), ?_⟩
  cases t with
  | act x a =>
    refine (Side.forall_iff x).mpr ⟨?_, ?_⟩
    · rw [System.step_act_ends]
      exact told_run (act_told (h.clean x) a) (h.running x) (h.feeds ht)
    · rw [System.step_act_ends_peer]
      exact h.running x.peer
  | deliver x =>
    simp only [System.step]
    split
    · exact h.running
    · rename_i c rest hline
      obtain ⟨e, hd, htold⟩ := h.hears hline
      refine (Side.forall_iff x).mpr ⟨?_, ?_⟩
      · rw [System.receive_ends]
        exact h.running x
      · rw [System.receive_ends_peer]
        exact told_run htold (h.running x.peer) (by rintro _ ⟨⟩; exact hd)
  | lose | noise => exact ht.elim

section rank

/-- The stages that the N-Chars an endpoint holds have still to go through, counting two for
the line and one each for the driver's report and for the receive queue of the peer. -/
def stages (p : Endpoint) : ℕ :=
  (unsent p).length + 3 * p.link.txNcharQueue.length +
    2 * p.txLoop.underWay.countP Character.isNChar + p.link.rxNcharQueue.length

def owed (s : System) (x : Side) : ℕ := stages (s.ends x) + 2 * (s.line x).countP Character.isNChar

def grant (s : System) (x : Side) : ℕ :=
  ((s.ends x).link.credit.maxRxCredit - (s.ends x).link.credit.rxCredit).toNat

/-- The characters of `x` on their way, up to the last that is not a NULL. -/
def burden (s : System) (x : Side) : List Character :=
  (s.inFlight x).rdropWhile fun c => c.type = .null

def total (f : Side → ℕ) : ℕ := f .a + f .b

theorem total_eq (f : Side → ℕ) (x : Side) : total f = f x + f x.peer := by
  cases x
  · rfl
  · exact Nat.add_comm ..

def rank (s : System) : ℕ ×ₗ ℕ ×ₗ ℕ :=
  toLex (total (owed s), toLex (total (grant s), total fun x => (burden s x).length))

/-- A turn after which nobody is nearer to having delivered has kept what makes the next turns
helpful. -/
structure Held (t : Turn) (s s' : System) : Prop where
  credit : ∀ x, (s'.ends x).link.credit = (s.ends x).link.credit
  capacity : ∀ x, (s'.ends x).link.rxFifoCapacityNchars = (s.ends x).link.rxFifoCapacityNchars
  queued : ∀ x, (s'.ends x).link.txNcharQueue = (s.ends x).link.txNcharQueue
  unread : ∀ x, (s'.ends x).link.rxNcharQueue = (s.ends x).link.rxNcharQueue
  owed : total (owed s') = total (owed s)
  burden : ∀ x, burden s' x = burden s x
  line : ∀ x, t ≠ .deliver x → s.line x ≠ [] → s'.line x ≠ []
  txLoop : ∀ x, t ≠ .act x .txLoop → (s'.ends x).txLoop = (s.ends x).txLoop

variable {s' : System}

theorem Held.refl (t : Turn) (s : System) : Held t s s :=
  ⟨fun _ => rfl, fun _ => rfl, fun _ => rfl, fun _ => rfl, rfl, fun _ => rfl, fun _ _ h => h,
    fun _ _ => rfl⟩

theorem Held.rank (h : Held t s s') : rank s' = rank s := by
  have hgrant : grant s' = grant s := by
    funext x
    simp only [grant, h.credit]
  rw [FairDelivery.rank, FairDelivery.rank, h.owed, hgrant]
  simp only [h.burden]

theorem rank_lt_of_owed (h : total (owed s') < total (owed s)) : rank s' < rank s := by
  rw [rank, rank, Prod.Lex.toLex_lt_toLex]
  exact .inl h

theorem rank_lt_of_grant (howed : total (owed s') = total (owed s))
    (h : total (grant s') < total (grant s)) : rank s' < rank s := by
  rw [rank, rank, Prod.Lex.toLex_lt_toLex]
  exact .inr ⟨howed, Prod.Lex.toLex_lt_toLex.mpr (.inl h)⟩

theorem rank_lt_of_burden (howed : total (owed s') = total (owed s))
    (hgrant : total (grant s') = total (grant s))
    (h : (total fun x => (burden s' x).length) < total fun x => (burden s x).length) :
    rank s' < rank s := by
  rw [rank, rank, Prod.Lex.toLex_lt_toLex]
  exact .inr ⟨howed, Prod.Lex.toLex_lt_toLex.mpr (.inr ⟨hgrant, h⟩)⟩

theorem owed_le_of_rank (h : rank s' < rank s) : total (owed s') ≤ total (owed s) := by
  rw [rank, rank, Prod.Lex.toLex_lt_toLex] at h
  exact h.elim le_of_lt fun h => h.1.le

end rank

section act

structure Still (p : Endpoint) (emitted : List Character) (q : Endpoint) : Prop where
  credit : q.link.credit = p.link.credit
  capacity : q.link.rxFifoCapacityNchars = p.link.rxFifoCapacityNchars
  queued : q.link.txNcharQueue = p.link.txNcharQueue
  unread : q.link.rxNcharQueue = p.link.rxNcharQueue
  stages : stages q + 2 * emitted.countP Character.isNChar = stages p
  flight : ∀ line : List Character,
    (line ++ emitted ++ q.txLoop.underWay).rdropWhile (fun c => c.type = .null) =
      (line ++ p.txLoop.underWay).rdropWhile fun c => c.type = .null

variable {p q : Endpoint} {a : Action}

theorem Still.of_link (htx : q.txLoop = p.txLoop) (hcredit : q.link.credit = p.link.credit)
    (hcap : q.link.rxFifoCapacityNchars = p.link.rxFifoCapacityNchars)
    (hqueues : q.link.txNcharQueue = p.link.txNcharQueue ∧
      q.link.rxNcharQueue = p.link.rxNcharQueue) : Still p [] q where
  credit := hcredit
  capacity := hcap
  queued := hqueues.1
  unread := hqueues.2
  stages := by simp [FairDelivery.stages, unsent, htx, hqueues]
  flight := by simp [htx]

theorem owed_act (s : System) (x : Side) (a : Action) : total (owed (s.step (.act x a))) =
    stages ((s.ends x).act a) + 2 * ((s.ends x).emits a).countP Character.isNChar +
      2 * (s.line x).countP Character.isNChar + owed s x.peer := by
  rw [total_eq _ x]
  simp [owed]
  omega

theorem owed_now (s : System) (x : Side) : total (owed s) =
    stages (s.ends x) + 2 * (s.line x).countP Character.isNChar + owed s x.peer := by
  rw [total_eq _ x, owed]

theorem Still.held (h : Still (s.ends x) ((s.ends x).emits a) ((s.ends x).act a))
    (htx : a ≠ .txLoop → ((s.ends x).act a).txLoop = (s.ends x).txLoop) :
    Held (.act x a) s (s.step (.act x a)) where
  credit := (Side.forall_iff x).mpr ⟨by simpa using h.credit, by simp⟩
  capacity := (Side.forall_iff x).mpr ⟨by simpa using h.capacity, by simp⟩
  queued := (Side.forall_iff x).mpr ⟨by simpa using h.queued, by simp⟩
  unread := (Side.forall_iff x).mpr ⟨by simpa using h.unread, by simp⟩
  owed := by
    have hstages := h.stages
    rw [owed_act, owed_now s x]
    omega
  burden := (Side.forall_iff x).mpr
    ⟨by simpa [FairDelivery.burden, System.inFlight] using h.flight (s.line x),
      by simp [FairDelivery.burden, System.inFlight]⟩
  line := (Side.forall_iff x).mpr ⟨fun _ hne => by simp [hne], fun _ hne => by simpa using hne⟩
  txLoop := by
    refine (Side.forall_iff x).mpr ⟨fun hne => ?_, fun _ => by simp⟩
    rw [System.step_act_ends]
    exact htx fun ha => hne (by rw [ha])

theorem Flowing.act_still (h : Flowing s) (ht : Calm s (.act x a)) (htx : a ≠ .txLoop)
    (hrecv : a ≠ .recvPacket) : Still (s.ends x) [] ((s.ends x).act a) := by
  have hcount := (act_told (h.clean x) a).resets (h.feeds ht)
  have hsteady := (kept_steady _ _).act (steady_self (s.ends x).link) a fun heq => absurd heq htx
  refine .of_link (act_txLoop htx).1 (hsteady.2 hcount) (act_capacity _ a) ?_
  cases a with
  | feed e =>
    simp only [Endpoint.act]
    split <;> simp
  | expire task =>
    simp only [Endpoint.act]
    split
    · exact runTimer_queues _ task
    · exact ⟨rfl, rfl⟩
  | watchdog disconnected => exact disconnectWatchdog_queues _ disconnected
  | txLoop => exact absurd rfl htx
  | recvPacket => exact absurd rfl hrecv
  | sendPacket | sendChar => exact ht.elim

theorem read_stages (h : Read p q) :
    p.link.rxNcharQueue = [] ∧ q = p ∨ stages q < stages p := by
  cases h with
  | wait hnil => exact .inl ⟨hnil, rfl⟩
  | data hq | packet hq =>
    right
    simp [stages, unsent, hq]

/-- In Run a turn of the transmit coroutine moves an N-Char, grants credit, or keeps
everything. -/
theorem turned_stages (hclean : Clean p) (ht : Turned p q) (hrun : p.link.fsm.state = .run)
    (hcount : q.link.errorResetCount = p.link.errorResetCount) :
    stages q + 2 * p.txLoop.underWay.countP Character.isNChar < stages p ∨
      stages q + 2 * p.txLoop.underWay.countP Character.isNChar = stages p ∧
        q.link.credit.maxRxCredit = p.link.credit.maxRxCredit ∧
        q.link.credit.rxCredit = p.link.credit.rxCredit + 8 ∧
        q.link.credit.rxCredit ≤ q.link.credit.maxRxCredit ∨
      Still p p.txLoop.underWay q := by
  have hmode : stateTx p.link.fsm.state = .sendNullsFctsNcharsTimecodes := by
    rw [hrun]
    rfl
  cases ht with
  | sleep htx =>
    right; right
    simpa [htx, TxLoop.underWay] using Still.of_link (p := p) rfl rfl rfl ⟨rfl, rfl⟩
  | wake htx =>
    right; right
    constructor <;> simp [htx, stages, TxLoop.underWay, unsent, TxLoop.taken]
  | park _ hreset =>
    rw [hmode] at hreset
    cases hreset
  | pick htx _ hp =>
    rw [hmode] at hp
    cases hp with
    | null =>
      right; right
      constructor <;>
        simp [htx, stages, TxLoop.underWay, unsent, TxLoop.taken, Encoder.null, Character.ofType,
          Character.isNChar, isNCharType]
    | fct _ hle =>
      right; left
      refine ⟨?_, rfl, rfl, hle⟩
      simp [htx, stages, TxLoop.underWay, unsent, TxLoop.taken, Character.isNChar, isNCharType,
        Character.ofType]
    | nchar _ hq =>
      left
      have hc := hclean.queued _ (by rw [hq]; exact List.mem_cons_self)
      simp [htx, stages, TxLoop.underWay, unsent, TxLoop.taken, hq, hc.isNChar]
      omega
  | @drive c b bits htx =>
    right; right
    cases b <;> constructor <;> simp [htx, stages, TxLoop.underWay, unsent, TxLoop.taken]
    all_goals omega
  | @done c b htx =>
    have hqueues := charSent_queues p.link c b
    cases b with
    | true =>
      left
      simp [htx, stages, TxLoop.underWay, unsent, TxLoop.taken, hqueues]
    | false =>
      right; right
      have hsteady := (kept_steady _ _).charSent (steady_self p.link) c false
      have hcap := (kept_capacity _).charSent (l := p.link) rfl c false
      constructor <;>
        simp [htx, stages, TxLoop.underWay, unsent, TxLoop.taken, hqueues, hsteady.2 hcount, hcap]

theorem Flowing.recv (h : Flowing s) (x : Side) :
    rank (s.step (.act x .recvPacket)) < rank s ∨
      (s.ends x).link.rxNcharQueue = [] ∧ s.step (.act x .recvPacket) = s := by
  have howed := owed_act s x .recvPacket
  have hnow := owed_now s x
  obtain ⟨hnil, hsame⟩ | hlower := read_stages (read (h.clean x))
  · right
    simp [System.step, Endpoint.act, Endpoint.emits, hnil, hsame]
  · left
    apply rank_lt_of_owed
    simp only [Endpoint.act, Endpoint.emits, List.countP_nil] at howed
    omega

theorem Flowing.act (h : Flowing s) (ht : Calm s (.act x a)) :
    rank (s.step (.act x a)) < rank s ∨ Held (.act x a) s (s.step (.act x a)) := by
  have hclean := h.clean x
  have howed := owed_act s x a
  have hnow := owed_now s x
  have hcount := (act_told hclean a).resets (h.feeds ht)
  by_cases htx : a = .txLoop
  · subst htx
    rw [hclean.emits] at howed
    obtain hlower | ⟨hsame, hmax, hrx, hle⟩ | hstill :=
      turned_stages hclean (turned hclean) (h.running x) hcount
    · left
      apply rank_lt_of_owed
      simp only [Endpoint.act] at howed
      omega
    · left
      apply rank_lt_of_grant
      · simp only [Endpoint.act] at howed
        omega
      · simp [total_eq _ x, grant, Endpoint.act]
        omega
    · right
      rw [← hclean.emits] at hstill
      exact hstill.held fun hne => absurd rfl hne
  · obtain ⟨hloop, hemits⟩ := act_txLoop (p := s.ends x) htx
    by_cases hrecv : a = .recvPacket
    · subst hrecv
      obtain hlower | ⟨-, hsame⟩ := h.recv x
      · exact .inl hlower
      · right
        rw [hsame]
        exact .refl _ s
    · right
      have hstill := h.act_still ht htx hrecv
      rw [← hemits] at hstill
      exact hstill.held fun _ => hloop

end act

section deliver

theorem rdropWhile_cons {α : Type*} (f : α → Bool) (a : α) (l : List α) :
    (a :: l).rdropWhile f =
      if l.rdropWhile f = [] ∧ f a = true then [] else a :: l.rdropWhile f := by
  induction l using List.reverseRecOn with
  | nil => cases ha : f a <;> simp [List.rdropWhile, ha]
  | append_singleton l b ih =>
    rw [← List.cons_append]
    cases hb : f b with
    | true => rw [List.rdropWhile_concat_pos _ _ _ hb, List.rdropWhile_concat_pos _ _ _ hb, ih]
    | false =>
      rw [List.rdropWhile_concat_neg _ _ _ (by simp [hb]),
        List.rdropWhile_concat_neg _ _ _ (by simp [hb])]
      simp

theorem owed_receive {c : Character} {rest : List Character} (hline : s.line x = c :: rest)
    (htx : ((s.ends x.peer).link.rxCharacter c).txNcharQueue =
      (s.ends x.peer).link.txNcharQueue)
    (hrx : ((s.ends x.peer).link.rxCharacter c).rxNcharQueue =
      (s.ends x.peer).link.rxNcharQueue ++ [c].filter Character.isNChar) :
    total (owed (s.receive x c)) + [c].countP Character.isNChar = total (owed s) := by
  have hlen := congrArg List.length hrx
  rw [List.length_append, ← List.countP_eq_length_filter] at hlen
  have hcount : (c :: rest).countP Character.isNChar =
      [c].countP Character.isNChar + rest.countP Character.isNChar := by
    rw [← List.countP_append]
    rfl
  rw [total_eq _ x, total_eq _ x]
  simp only [owed, System.receive_ends, System.receive_ends_peer, System.receive_line,
    System.receive_line_peer, hline, hcount, List.tail_cons, stages, unsent, Endpoint.rxCharacter,
    htx, hlen]
  omega

theorem Flowing.deliver (h : Flowing s) (x : Side) :
    rank (s.step (.deliver x)) < rank s ∨
      Held (.deliver x) s (s.step (.deliver x)) ∧ (s.line x ≠ [] → burden s x = []) := by
  simp only [System.step]
  split
  · rename_i hline
    exact .inr ⟨.refl _ s, fun hne => absurd hline hne⟩
  · rename_i c rest hline
    have hc := h.solvent.line x c (by simp [hline])
    obtain ⟨hroom, hpos⟩ := h.solvent.head_bounds hline
    obtain ⟨e, hd, htold⟩ := h.hears hline
    have hcount := htold.resets (by rintro _ ⟨⟩; exact hd)
    obtain ⟨htx, hrx, hqueue⟩ := rx_lineChar hc (h.solvent.credit x.peer) hroom hpos hcount
    have hsend := (rxCharacter_queues (s.ends x.peer).link c).1
    have howed := owed_receive hline hsend hqueue
    have hmax := rxCharacter_maxRxCredit (s.ends x.peer).link c
    by_cases hn : c.isNChar = true
    · left
      apply rank_lt_of_owed
      simp only [List.countP_singleton, hn, if_true] at howed
      omega
    · have hnone : [c].countP Character.isNChar = 0 := by simp [hn]
      have hgrant : total (grant (s.receive x c)) = total (grant s) := by
        simp [total_eq _ x, grant, Endpoint.rxCharacter, hrx, hmax, ncharCount, hn]
      have hbefore : burden s x = if burden (s.receive x c) x = [] ∧ c.type = .null then []
          else c :: burden (s.receive x c) x := by
        have hnew : burden (s.receive x c) x =
            (rest ++ (s.ends x).txLoop.underWay).rdropWhile fun c => c.type = .null := by
          simp [burden, System.inFlight, hline]
        rw [hnew, burden, System.inFlight, hline, List.cons_append, rdropWhile_cons]
        simp only [decide_eq_true_eq]
      have hpeer : burden (s.receive x c) x.peer = burden s x.peer := by
        simp [burden, System.inFlight, Endpoint.rxCharacter]
      by_cases hb : burden (s.receive x c) x = [] ∧ c.type = .null
      · rw [if_pos hb] at hbefore
        have hcredit : ((s.ends x.peer).link.rxCharacter c).credit =
            (s.ends x.peer).link.credit := by
          cases hc with
          | null => exact feedFsm_steady le_rfl hcount
          | fct => cases hb.2
          | packet hp => exact absurd hp.isNChar hn
        rw [List.filter_cons_of_neg hn, List.filter_nil, List.append_nil] at hqueue
        refine .inr ⟨⟨?_, ?_, ?_, ?_, by omega, ?_, ?_, ?_⟩, fun _ => hbefore⟩
        · exact (Side.forall_iff x).mpr ⟨by simp, by rw [System.receive_ends_peer]; exact hcredit⟩
        · refine (Side.forall_iff x).mpr ⟨by simp, ?_⟩
          rw [System.receive_ends_peer]
          exact rxCharacter_capacity _ c
        · exact (Side.forall_iff x).mpr ⟨by simp, by rw [System.receive_ends_peer]; exact hsend⟩
        · exact (Side.forall_iff x).mpr ⟨by simp, by rw [System.receive_ends_peer]; exact hqueue⟩
        · exact (Side.forall_iff x).mpr ⟨by rw [hb.1, hbefore], hpeer⟩
        · exact (Side.forall_iff x).mpr ⟨fun hne => absurd rfl hne, by simp⟩
        · exact fun y _ => (Side.forall_iff (P := fun y => ((s.receive x c).ends y).txLoop =
            (s.ends y).txLoop) x).mpr ⟨by simp, by simp [Endpoint.rxCharacter]⟩ y
      · left
        rw [if_neg hb] at hbefore
        apply rank_lt_of_burden (by omega) hgrant
        rw [total_eq _ x, total_eq _ x, hpeer, hbefore, List.length_cons]
        omega

end deliver

theorem Flowing.progress (h : Flowing s) (ht : Calm s t) :
    rank (s.step t) < rank s ∨ Held t s (s.step t) := by
  cases t with
  | act x a => exact h.act ht
  | deliver x => exact (h.deliver x).imp_right And.left
  | lose | noise => exact ht.elim

section useful

/-- The next character of the link in Run will not be a NULL. -/
def Useful (l : SpaceWireLink) : Prop :=
  l.picksFct .sendNullsFctsNcharsTimecodes = true ∨ l.txNcharQueue ≠ [] ∧ 0 < l.credit.txCredit

theorem Held.useful {s' : System} (h : Held t s s') (hu : Useful (s.ends x).link) :
    Useful (s'.ends x).link := by
  simpa only [Useful, SpaceWireLink.picksFct, h.credit, h.capacity, h.unread, h.queued] using hu

/-- When only NULLs are on their way and all receive queues have been read, a link that has
N-Chars queued has credit for one, or its peer grants it some. -/
theorem Flowing.useful (h : Flowing s) (hflight : ∀ y, burden s y = [])
    (hread : ∀ y, (s.ends y).link.rxNcharQueue = [])
    (hq : (s.ends x).link.txNcharQueue ≠ []) :
    Useful (s.ends x).link ∨ Useful (s.ends x.peer).link := by
  by_cases hcredit : 0 < (s.ends x).link.credit.txCredit
  · exact .inl (.inr ⟨hq, hcredit⟩)
  · right; left
    have hnull (y : Side) : ncharCount (s.inFlight y) = 0 ∧ fctCount (s.inFlight y) = 0 := by
      have hall := List.rdropWhile_eq_nil_iff.mp (hflight y)
      simp only [decide_eq_true_eq] at hall
      simp only [ncharCount, fctCount, Int.natCast_eq_zero, List.countP_eq_zero]
      refine ⟨fun c hc => ?_, fun c hc => ?_⟩ <;>
        simp [Character.isNChar, isNCharType, hall c hc]
    have hbalance := h.solvent.balanced x (h.clean x).alive
    have htx := (h.solvent.credit x).inRange.tx_nonneg
    rw [Conservation.Balanced, (hnull x).1, (hnull x.peer).2] at hbalance
    have hwindow := h.solvent.window x.peer
    have hcapacity := h.capacity x.peer
    rw [SpaceWireLink.picksFct, CreditCounter.shouldSendFct_iff, hread]
    simp only [List.length_nil]
    omega

theorem useful_turn {p : Endpoint} (hclean : Clean p) (htop : p.txLoop = .top)
    (hrun : p.link.fsm.state = .run) (hu : Useful p.link) :
    ∃ c, p.stepTxLoop.txLoop.underWay = [c] ∧ c.type ≠ .null := by
  have hmode : p.link.fsm.output.txMode = .sendNullsFctsNcharsTimecodes := by
    simp [LinkFSM.output, hrun, stateTx]
  have hsends : TxMode.sendNullsFctsNcharsTimecodes ≠ .reset := by simp
  obtain ⟨l, c, b, hnext, hpicked⟩ := p.link.nextChar_picked hsends
  obtain ⟨e, bits, henc⟩ := (picked_lineChar hclean.queued hpicked).encode l.encoder
  refine ⟨c, by simp [Endpoint.stepTxLoop, htop, hmode, hnext, henc, TxLoop.underWay], ?_⟩
  cases hpicked with
  | fct => simp [Character.ofType]
  | nchar _ hq =>
    have hc := (hclean.queued c (by simp [hq])).isNChar
    intro hnull
    simp [Character.isNChar, isNCharType, hnull] at hc
  | null hno =>
    obtain hfct | ⟨hq, hpos⟩ := hu
    · rw [hno] at hfct
      cases hfct
    · cases hqueue : p.link.txNcharQueue with
      | nil => exact absurd hqueue hq
      | cons d rest =>
        have hsend : p.link.credit.canSend = true := by simpa [CreditCounter.canSend] using hpos
        simp only [SpaceWireLink.picksFct] at hno
        simp [SpaceWireLink.nextChar, hno, hqueue, hsend,
          CreditCounter.onNcharSent_of_canSend hsend] at hnext

end useful

section delivery

def Busy (p : Endpoint) : Prop := p.txLoop.taken ≠ [] ∨ Useful p.link

def ahead : TxLoop → ℕ
  | .top | .dead => 0
  | .parked | .driven _ _ => 1
  | .sending _ _ _ => 2

theorem Flowing.busy_turn (h : Flowing s) (hb : Busy (s.ends x)) :
    rank (s.step (.act x .txLoop)) < rank s ∨
      Busy ((s.step (.act x .txLoop)).ends x) ∧
        ahead ((s.step (.act x .txLoop)).ends x).txLoop < ahead (s.ends x).txLoop := by
  obtain hlower | hheld := h.act (x := x) (a := .txLoop) trivial
  · exact .inl hlower
  have huseful := hheld.useful (x := x)
  rw [System.step_act_ends] at huseful ⊢
  have hclean := h.clean x
  cases htx : (s.ends x).txLoop with
  | top =>
    have hu : Useful (s.ends x).link := by simpa [Busy, htx, TxLoop.taken] using hb
    obtain ⟨c, hway, hc⟩ := useful_turn hclean htx (h.running x) hu
    have hburden := hheld.burden x
    have hnone : (s.ends x).txLoop.underWay = [] := by
      rw [htx]
      rfl
    have hlonger : burden (s.step (.act x .txLoop)) x = s.line x ++ [c] := by
      simp [burden, System.inFlight, Endpoint.act, Endpoint.emits, hnone, hway,
        List.rdropWhile_concat_neg, hc]
    have hprefix : burden s x <+: s.line x := by
      rw [burden, System.inFlight, hnone, List.append_nil]
      exact List.rdropWhile_prefix ..
    have hlen := hprefix.length_le
    rw [← hburden, hlonger, List.length_append, List.length_singleton] at hlen
    omega
  | parked =>
    have hu : Useful (s.ends x).link := by simpa [Busy, htx, TxLoop.taken] using hb
    have hwake : (s.ends x).link.txWakeup = true := by
      by_contra hclear
      have hreset := h.attended x htx (by simpa using hclear)
      rw [h.running x] at hreset
      cases hreset
    right
    refine ⟨.inr (huseful hu), ?_⟩
    simp [Endpoint.act, Endpoint.stepTxLoop, htx, hwake, ahead]
  | sending c b bits =>
    right
    refine ⟨hb.imp (fun htaken => ?_) huseful, ?_⟩
    · cases b <;> simp [Endpoint.act, Endpoint.stepTxLoop, htx, TxLoop.taken] at htaken ⊢
    · simp [Endpoint.act, Endpoint.stepTxLoop, htx, ahead]
  | driven c b =>
    cases b with
    | true =>
      left
      apply rank_lt_of_owed
      rw [owed_act, owed_now s x]
      simp [Endpoint.act, Endpoint.emits, Endpoint.stepTxLoop, htx, stages, unsent, TxLoop.taken,
        TxLoop.underWay, charSent_queues]
    | false =>
      have hu : Useful (s.ends x).link := by simpa [Busy, htx, TxLoop.taken] using hb
      right
      refine ⟨.inr (huseful hu), ?_⟩
      simp [Endpoint.act, Endpoint.stepTxLoop, htx, ahead]
  | dead => exact absurd htx hclean.alive

variable {r : ℕ ×ₗ ℕ ×ₗ ℕ} {K L : System → Prop}

theorem pending_leadsTo {a : Turn} (ha : a ∈ turns)
    (hkeep : ∀ s t, Held t s (s.step t) → t ≠ a → K s → K (s.step t))
    (hhelp : ∀ s, Flowing s → K s → rank (s.step a) < rank s ∨ L (s.step a)) :
    LeadsTo System.step Calm (fun _ => turns) (Pending Flowing rank r K)
      fun s => Lowered Flowing rank r s ∨ Pending Flowing rank r L s := by
  apply Pending.leadsTo (H := Held) (a := a)
  · exact fun _ _ _ => ha
  · exact fun s t hf ht => ⟨hf.step ht, (hf.progress ht).imp_right fun hh => ⟨hh.rank, hh⟩⟩
  · exact fun s t _ _ hheld hne hk => hkeep s t hheld hne hk
  · exact fun s hf _ hk => hhelp s hf hk

theorem unread_leadsTo (r : ℕ ×ₗ ℕ ×ₗ ℕ) (x : Side) :
    LeadsTo System.step Calm (fun _ => turns)
      (Pending Flowing rank r fun s => (s.ends x).link.rxNcharQueue ≠ [])
      (Lowered Flowing rank r) := by
  refine (pending_leadsTo (L := fun _ => False) (a := .act x .recvPacket) ⟨x, by simp⟩
    (fun s t hheld _ hk => by rwa [hheld.unread]) fun s hf hk => ?_).mono (fun _ h => h) ?_
  · exact .inl ((hf.recv x).resolve_right fun hnil => hk hnil.1)
  · rintro s (h | ⟨-, -, h⟩)
    · exact h
    · exact h.elim

theorem burden_leadsTo (r : ℕ ×ₗ ℕ ×ₗ ℕ) (x : Side) : LeadsTo System.step Calm (fun _ => turns)
    (Pending Flowing rank r fun s => burden s x ≠ []) (Lowered Flowing rank r) := by
  have hput : LeadsTo System.step Calm (fun _ => turns)
      (Pending Flowing rank r fun s => burden s x ≠ []) fun s => Lowered Flowing rank r s ∨
        Pending Flowing rank r (fun s => burden s x ≠ [] ∧ s.line x ≠ []) s := by
    refine pending_leadsTo (a := .act x .txLoop) ⟨x, by simp⟩
      (fun s t hheld _ hk => by rwa [hheld.burden]) fun s hf hk => ?_
    refine (hf.act (x := x) (a := .txLoop) trivial).imp_right fun hheld => ?_
    refine ⟨by rwa [hheld.burden], ?_⟩
    by_cases hline : s.line x = []
    · intro hnone
      apply hk
      simp [hline, Endpoint.emits] at hnone
      simp [burden, System.inFlight, hline, hnone]
    · exact hheld.line x (by simp) hline
  refine hput.or_trans ((pending_leadsTo (L := fun _ => False) (a := .deliver x) ⟨x, by simp⟩
    (fun s t hheld hne hk => ?_) fun s hf hk => ?_).mono (fun _ h => h) ?_)
  · exact ⟨by rw [hheld.burden]; exact hk.1, hheld.line x hne hk.2⟩
  · exact .inl ((hf.deliver x).resolve_right fun h => hk.1 (h.2 hk.2))
  · rintro s (h | ⟨-, -, h⟩)
    · exact h
    · exact h.elim

theorem busy_leadsTo (r : ℕ ×ₗ ℕ ×ₗ ℕ) (x : Side) : LeadsTo System.step Calm (fun _ => turns)
    (Pending Flowing rank r fun s => Busy (s.ends x)) (Lowered Flowing rank r) := by
  apply LeadsTo.of_rank fun s => ahead (s.ends x).txLoop
  intro n
  have hturn := pending_leadsTo (r := r) (a := .act x .txLoop) ⟨x, by simp⟩
    (K := fun s => Busy (s.ends x) ∧ ahead (s.ends x).txLoop = n)
    (L := fun s => Busy (s.ends x) ∧ ahead (s.ends x).txLoop < n)
  refine (hturn (fun s t hheld hne hk => ?_) fun s hf hk => ?_).mono ?_ ?_
  · have htx := hheld.txLoop x hne
    refine ⟨hk.1.imp (fun htaken => by rwa [htx]) hheld.useful, by rw [htx]; exact hk.2⟩
  · rw [← hk.2]
    exact hf.busy_turn hk.1
  · rintro s ⟨⟨hf, hr, hk⟩, hn⟩
    exact ⟨hf, hr, hk, hn⟩
  · rintro s (h | ⟨hf, hr, hk, hn⟩)
    · exact .inl h
    · exact .inr ⟨⟨hf, hr, hk⟩, hn⟩

/-- While something is owed, one of the turns that have to go on is helpful. -/
theorem Flowing.helpful (h : Flowing s) (howed : total (owed s) ≠ 0) :
    (∃ x, (s.ends x).link.rxNcharQueue ≠ []) ∨ (∃ x, burden s x ≠ []) ∨
      ∃ x, Busy (s.ends x) := by
  by_contra hnone
  simp only [not_or, not_exists, not_not] at hnone
  obtain ⟨hread, hflight, hidle⟩ := hnone
  have hnull (y : Side) : (s.inFlight y).countP Character.isNChar = 0 := by
    have hall := List.rdropWhile_eq_nil_iff.mp (hflight y)
    simp only [decide_eq_true_eq] at hall
    rw [List.countP_eq_zero]
    intro c hc
    simp [Character.isNChar, isNCharType, hall c hc]
  have hqueue (y : Side) : (s.ends y).link.txNcharQueue = [] := by
    by_contra hq
    obtain hu | hu := h.useful hflight hread hq
    · exact hidle y (.inr hu)
    · exact hidle y.peer (.inr hu)
  have htaken (y : Side) : (s.ends y).txLoop.taken = [] := by
    by_contra ht
    exact hidle y (.inl ht)
  have hzero (y : Side) : owed s y = 0 := by
    have hcount := hnull y
    rw [System.inFlight, List.countP_append] at hcount
    simp only [owed, stages, unsent, hread, hqueue, htaken, List.append_nil, List.length_nil]
    omega
  exact howed (by simp [total, hzero])

/-- Whatever is owed is delivered. -/
theorem flowing_leadsTo : LeadsTo System.step Calm (fun _ => turns) Flowing
    fun s => Flowing s ∧ total (owed s) = 0 := by
  apply LeadsTo.of_pending rank
  intro s sched hp hfair hf howed
  obtain ⟨x, hx⟩ | ⟨x, hx⟩ | ⟨x, hx⟩ := hf.helpful howed
  · exact unread_leadsTo _ x s sched hp hfair ⟨hf, rfl, hx⟩
  · exact burden_leadsTo _ x s sched hp hfair ⟨hf, rfl, hx⟩
  · exact busy_leadsTo _ x s sched hp hfair ⟨hf, rfl, hx⟩

theorem Calm.sent (h : Flowing s) (ht : Calm s t) (x : Side) :
    ((s.step t).ends x).sent = (s.ends x).sent := by
  cases t with
  | act y a =>
    have hclean := h.clean y
    refine (Side.forall_iff (P := fun x => ((s.step (.act y a)).ends x).sent =
      (s.ends x).sent) y).mpr ⟨?_, by rw [System.step_act_ends_peer]⟩ x
    rw [System.step_act_ends]
    cases a with
    | feed | expire =>
      simp only [Endpoint.act]
      split <;> rfl
    | watchdog => rfl
    | txLoop => exact ((turned hclean).taken hclean).1
    | recvPacket =>
      have hread := read hclean
      simp only [Endpoint.act]
      generalize (s.ends y).stepRecvPacket = q at hread
      cases hread <;> rfl
    | sendPacket | sendChar => exact ht.elim
  | deliver y =>
    simp only [System.step]
    split
    · rfl
    · rename_i c rest hline
      exact (Side.forall_iff (P := fun x => ((s.receive y c).ends x).sent =
        (s.ends x).sent) y).mpr ⟨by simp, by simp [Endpoint.rxCharacter]⟩ x
  | lose | noise => exact ht.elim

theorem Flowing.delivered (h : Flowing s) (howed : total (owed s) = 0) (x : Side) :
    taken (s.ends x.peer) = stream s x ∧ (s.ends x.peer).link.rxNcharQueue = [] ∧
      (s.ends x).link.txDrainedEvt = true := by
  rw [total_eq _ x] at howed
  simp only [owed, stages, Nat.add_eq_zero_iff, Nat.mul_eq_zero, List.length_eq_zero_iff,
    List.countP_eq_length_filter] at howed
  obtain ⟨⟨⟨⟨⟨hunsent, hqueue⟩, hway⟩, -⟩, hline⟩, ⟨-, hread⟩, -⟩ := howed
  replace hqueue := hqueue.resolve_left (by decide)
  replace hway := hway.resolve_left (by decide)
  replace hline := hline.resolve_left (by decide)
  refine ⟨?_, hread, ?_⟩
  · rw [stream, hline, pending, hway, hqueue]
    simp
  · rw [(h.accounted x).drained, (h.accounted x).outstanding, hunsent]
    rfl

/-- Everything has been delivered that was in the hands of the links in `s₀`. -/
structure Delivered (s₀ s : System) (x : Side) : Prop where
  flowing : Flowing s
  sent : (s.ends x).sent = (s₀.ends x).sent
  taken : taken (s.ends x.peer) = stream s₀ x
  read : (s.ends x.peer).link.rxNcharQueue = []
  drained : (s.ends x).link.txDrainedEvt = true
  resets : (s.ends x).link.errorResetCount = (s₀.ends x).link.errorResetCount

theorem Flowing.delivers {s₀ : System} (h : Flowing s₀) {sched : ℕ → Turn}
    (hcalm : Permitted System.step Calm s₀ sched)
    (hfair : Fair System.step (fun _ => turns) s₀ sched) :
    ∃ n, ∀ m, n ≤ m → ∀ x, Delivered s₀ (visit System.step s₀ sched m) x := by
  have hsince : ∀ n, Flowing (visit System.step s₀ sched n) ∧
      Since (stream s₀) (fun x => (s₀.ends x).sent) (visit System.step s₀ sched n) ∧
      (∀ x, ((visit System.step s₀ sched n).ends x).sent = (s₀.ends x).sent) ∧
      Keeps s₀ (visit System.step s₀ sched n) := by
    apply visit_keeps (P := fun s => Flowing s ∧ Since (stream s₀) (fun x => (s₀.ends x).sent) s ∧
      (∀ x, (s.ends x).sent = (s₀.ends x).sent) ∧ Keeps s₀ s) _ hcalm
      ⟨h, .refl s₀, fun _ => rfl, fun _ => rfl⟩
    rintro s t ⟨hf, hs, hsent, hk⟩ ht
    have hkeeps := hf.keeps ht
    exact ⟨hf.step ht, hs.step hf.toSound ht.lossless hkeeps,
      fun x => (ht.sent hf x).trans (hsent x), fun x => (hkeeps x).trans (hk x)⟩
  obtain ⟨n, hn⟩ := flowing_leadsTo s₀ sched hcalm hfair h
  refine ⟨n, fun m hm x => ?_⟩
  obtain ⟨k, rfl⟩ := Nat.exists_eq_add_of_le hm
  have hkept : Flowing (visit System.step s₀ sched (n + k)) ∧
      total (owed (visit System.step s₀ sched (n + k))) = 0 := by
    rw [visit_add]
    apply visit_keeps (P := fun s => Flowing s ∧ total (owed s) = 0) _ (hcalm.drop n) hn
    intro s t hs ht
    refine ⟨hs.1.step ht, ?_⟩
    obtain hlower | hheld := hs.1.progress ht
    · have hle := owed_le_of_rank hlower
      omega
    · rw [hheld.owed, hs.2]
  obtain ⟨-, hs, hsent, hk⟩ := hsince (n + k)
  obtain ⟨htaken, hread, hdrained⟩ := hkept.1.delivered hkept.2 x
  refine ⟨hkept.1, hsent x, ?_, hread, hdrained, hk x⟩
  obtain ⟨extra, hextra, hstream⟩ := hs x
  have hnone : extra = [] := by simpa using (hsent x).symm.trans hextra
  rw [htaken, hstream, hnone, List.flatMap_nil, List.append_nil]

/-- What has been sent when nobody sends any more is delivered: in every endless schedule in
which both transmit coroutines, both tasks that call `recv_packet` and both lines get their
turns again and again, and in which no link is dropped, there is a point from which on all packets
have been received, and every call of `send_packet` has been released. -/
theorem packets_delivered {cfg : Side → LinkConfig} (h : System.start cfg = .ok s)
    (hcap : ∀ x, 8 ≤ (cfg x).rxFifoCapacity)
    (hmax : ∀ x m, (cfg x).maxRxCredit = some m → 8 ≤ m) (ts : List Turn)
    (hts : ∀ t ∈ ts, t.lossless = true) (hu : Undropped (run System.step s ts))
    (hrun : ∀ x, ((run System.step s ts).ends x).link.fsm.state = .run) (sched : ℕ → Turn)
    (hcalm : Permitted System.step Calm (run System.step s ts) sched)
    (hfair : Fair System.step (fun _ => turns) (run System.step s ts) sched) :
    ∃ n, ∀ m, n ≤ m → ∀ x,
      ((visit System.step (run System.step s ts) sched m).ends x.peer).received =
          ((run System.step s ts).ends x).sent ∧
        ((visit System.step (run System.step s ts) sched m).ends x).link.txDrainedEvt = true := by
  have hstart := connected_start h hcap hmax
  have hconnected : Connected (run System.step s ts) :=
    run_while (C := Undropped) hstart (fun _ _ => Undropped.of_step)
      (fun _ _ hs ht hu => hs.step ht (undropped_keeps hu)) (Guarded.of_forall_mem hts) hu
  have hhealthy := healthy_run h hstart.solvent.window hts hu
  obtain ⟨n, hn⟩ := Flowing.delivers ⟨hconnected, hrun⟩ hcalm hfair
  refine ⟨n, fun m hm x => ?_⟩
  have hdelivered := hn m hm x
  refine ⟨received_of_taken ?_ hdelivered.read, hdelivered.drained⟩
  exact hdelivered.taken.trans (hhealthy.inOrder x)

def roundRobin (n : ℕ) : Turn :=
  match n % 6 with
  | 0 => .act .a .txLoop
  | 1 => .act .b .txLoop
  | 2 => .deliver .a
  | 3 => .deliver .b
  | 4 => .act .a .recvPacket
  | _ => .act .b .recvPacket

theorem calm_roundRobin (s : System) (n : ℕ) : Calm s (roundRobin n) := by
  unfold roundRobin
  split <;> trivial

theorem fair_roundRobin (s : System) : Fair System.step (fun _ => turns) s roundRobin := by
  apply fair_of_mod (k := 6) (N := 0)
  rintro t ⟨-, -, x, rfl | rfl | rfl⟩ <;> cases x
  · exact ⟨0, by decide, fun n _ hn => by simp [roundRobin, hn]⟩
  · exact ⟨1, by decide, fun n _ hn => by simp [roundRobin, hn]⟩
  · exact ⟨4, by decide, fun n _ hn => by simp [roundRobin, hn]⟩
  · exact ⟨5, by decide, fun n _ hn => by simp [roundRobin, hn]⟩
  · exact ⟨2, by decide, fun n _ hn => by simp [roundRobin, hn]⟩
  · exact ⟨3, by decide, fun n _ hn => by simp [roundRobin, hn]⟩

theorem packets_delivered_roundRobin :
    ∃ s, System.start (fun _ => { linkStart := true }) = .ok s ∧
      ((run System.step s idleThenSend).ends .a).sent.length = 1 ∧
      ∃ n, ∀ m, n ≤ m → ∀ x,
        ((visit System.step (run System.step s idleThenSend) roundRobin m).ends x.peer).received =
            ((run System.step s idleThenSend).ends x).sent ∧
          ((visit System.step (run System.step s idleThenSend) roundRobin m).ends
            x).link.txDrainedEvt = true :=
  ⟨_, rfl, by decide +kernel, @packets_delivered _ (fun _ => { linkStart := true }) rfl (by decide)
    (by simp) idleThenSend (by simp [idleThenSend, Turn.handshake, Turn.round, Turn.lossless,
      Action.packetLevel]) (fun x => by cases x <;> decide +kernel)
    (fun x => by cases x <;> decide +kernel) roundRobin (fun n => calm_roundRobin _ n)
    (fair_roundRobin _)⟩

end delivery

end SpaceWire.FairDelivery
