import SpaceWire.Agreement
import SpaceWire.Delivery

namespace SpaceWire.CableHandshake

open Run Conservation Agreement Traffic Delivery Handover

/-- The driver has released the transmit coroutine, which has not had its turn yet. -/
def released (p : Port) : Bool :=
  match p.endpoint.txLoop with
  | .sending _ _ _ => p.bitsDriven
  | _ => false

/-- What is done at an end feeds its FSM no error, no disable and no 12.8 us tick in Started or
Connecting. -/
def Undisturbed (p : Port) (a : Action) : Prop :=
  ∀ e ∈ p.endpoint.feeds a, Harmless p.link.fsm e

instance (p : Port) (a : Action) : Decidable (Undisturbed p a) :=
  inferInstanceAs (Decidable (∀ e ∈ p.endpoint.feeds a, _))

/-- A turn of the cable without a fault: a coroutine that has been released runs before the
lines are looked at, whole packets are sent, and nothing disturbs the handshake. -/
def FaultFree (c : Cable) (t : CableTurn) : Prop :=
  c.Paced t ∧ t.packetLevel = true ∧
    match t with
    | .port x (.call a) => a.isCall = true → Undisturbed (c.ends x) a
    | .port x .watchdog =>
      (c.ends x).disconnectTask = true →
        Undisturbed (c.ends x) (.watchdog (c.ends x).monitor.disconnected)
    | .sample x => released (c.ends x) = false
    | _ => True

instance (c : Cable) : ∀ t, Decidable (FaultFree c t)
  | .port x (.call a) => inferInstanceAs (Decidable (_ ∧ _ ∧ (_ → Undisturbed (c.ends x) a)))
  | .port x .watchdog =>
    inferInstanceAs (Decidable (_ ∧ _ ∧ (_ → Undisturbed (c.ends x) (.watchdog _))))
  | .sample _ => inferInstanceAs (Decidable (_ ∧ _ ∧ _ = false))
  | .port _ .start | .port _ .started | .port _ .stop => inferInstanceAs (Decidable (_ ∧ _ ∧ True))
  | .port _ .txLoop | .port _ .driver | .port _ .monitor =>
    inferInstanceAs (Decidable (_ ∧ _ ∧ True))
  | .port _ (.line _) | .port _ .timeout => inferInstanceAs (Decidable (_ ∧ _ ∧ True))

variable {c : Cable} {s : System} {x : Side} {p : Port}

/-- At the character level nothing is ahead of the cable. -/
structure InTime (c : Cable) (s : System) : Prop where
  joined : Joined c s
  agreed : Agreed s
  reported : ∀ x, justDriven (s.ends x).txLoop = []

theorem InTime.undropped (h : InTime c s) : c.Undropped :=
  fun x => ((h.joined.shown x).resets).symm.trans (h.agreed.undropped x)

theorem InTime.loop (h : InTime c s) (x : Side) :
    (s.ends x).txLoop = (c.ends x).endpoint.txLoop := by
  apply (h.joined.shown x).there
  intro ch b htx
  have hnone := h.reported x
  rw [htx] at hnone
  cases hnone

theorem faultFree_txLoop (h : ∀ y, justDriven (s.ends y).txLoop ≠ [] → y = x) :
    Agreement.FaultFree s (.act x .txLoop) := by
  refine ⟨fun y hy => by rw [h y hy], rfl, fun e he => ?_⟩
  cases htx : (s.ends x).txLoop with
  | driven ch b =>
    simp only [Endpoint.feeds, htx, sentEvent] at he
    split at he
    · cases he
      exact ⟨by simp, by simp, by simp⟩
    · split at he
      · cases he
        exact ⟨by simp, by simp, by simp⟩
      · cases he
  | top | parked | sending | dead => simp [Endpoint.feeds, htx] at he

theorem feeds_seen (p : Endpoint) (t : TxLoop) {a : Action} (ha : a ≠ .txLoop) :
    (p.seen t).feeds a = p.feeds a := by
  cases a with
  | txLoop => exact absurd rfl ha
  | feed | expire | watchdog | sendPacket | sendChar | recvPacket => rfl

theorem InTime.faultFree_act (h : InTime c s) {a : Action} (ha : a ≠ .txLoop)
    (hp : a.packetLevel = true) (hu : Undisturbed (c.ends x) a) :
    Agreement.FaultFree s (.act x a) := by
  refine ⟨fun y hy => absurd (h.reported y) hy, hp, fun e he => ?_⟩
  rw [(h.joined.shown x).fsm]
  rw [(h.joined.shown x).seen, feeds_seen _ _ ha] at he
  exact hu e he

theorem reported_act {a : Action} (h : ∀ y, justDriven (s.ends y).txLoop = [])
    (hx : justDriven ((s.ends x).act a).txLoop = []) (y : Side) :
    justDriven ((s.step (.act x a)).ends y).txLoop = [] := by
  obtain rfl | rfl := x.eq_or_eq_peer y
  · simpa using hx
  · simpa using h x.peer

/-- What a turn without a fault leads to at the character level. -/
def Timely (c : Cable) (s : System) : Prop :=
  Joined c s ∧ ∀ x, justDriven (s.ends x).txLoop = []

theorem matched_top {c' : Cable} (hquiet : ∀ y, justDriven (s.ends y).txLoop = [])
    (htop : (s.ends x).txLoop = .top) (hj : Joined c' (s.step (.act x .txLoop))) :
    Matched System.step Agreement.FaultFree Timely c' s := by
  refine matched_one (faultFree_txLoop fun y hy => absurd (hquiet y) hy)
    ⟨hj, reported_act hquiet ?_⟩
  cases htx : ((s.ends x).act .txLoop).txLoop with
  | driven ch b => exact absurd htx (Up.between_top htop ch b)
  | top | parked | sending | dead => rfl

theorem matched_move {c' : Cable} (hx : ∀ y, justDriven (s.ends y).txLoop ≠ [] → y = x)
    (htop : ((s.ends x).act .txLoop).txLoop = .top)
    (hj : Joined c' ((s.step (.act x .txLoop)).step (.act x .txLoop))) :
    Matched System.step Agreement.FaultFree Timely c' s := by
  have hquiet (y : Side) : justDriven ((s.step (.act x .txLoop)).ends y).txLoop = [] := by
    obtain rfl | rfl := x.eq_or_eq_peer y
    · rw [System.step_act_ends, htop]
      rfl
    · rw [System.step_act_ends_peer]
      by_contra hne
      exact x.peer_ne (hx _ hne)
  have hone : Guarded System.step Agreement.FaultFree s [.act x .txLoop] :=
    guarded_cons.mpr ⟨faultFree_txLoop hx, guarded_nil⟩
  exact .after hone (matched_top hquiet (by simpa using htop) hj)

theorem InTime.txLoop (h : InTime c s) :
    Matched System.step Agreement.FaultFree Timely (c.step (.port x .txLoop)) s := by
  have hloop := h.loop x
  have hquiet (y : Side) (hy : justDriven (s.ends y).txLoop ≠ []) : y = x :=
    absurd (h.reported y) hy
  have hmoves := (c.ends x).txTurn_moved
  rw [show c.step (.port x .txLoop) = c.setPort x (c.ends x).txTurn from rfl]
  generalize (c.ends x).txTurn = p at hmoves
  cases hmoves with
  | idle =>
    exact matched_nil ⟨h.joined.quiet rfl (Cable.setPort_bits_eq rfl) (h.joined.up x), h.reported⟩
  | top htop =>
    rw [htop] at hloop
    exact matched_top h.reported hloop (h.joined.txTop htop)
  | wake hparked hw =>
    have hw' : (s.ends x).link.txWakeup = true := by
      rw [(h.joined.shown x).seen]
      exact hw
    rw [hparked] at hloop
    exact matched_move hquiet (by simp [Endpoint.act, Endpoint.stepTxLoop, hloop, hw'])
      (h.joined.wakeTop hparked hw)
  | @report ch b bs hsending hdriven =>
    rw [hsending] at hloop
    have hahead : ((s.step (.act x .txLoop)).ends x).txLoop = .driven ch b := by
      simp [Endpoint.act, Endpoint.stepTxLoop, hloop]
    have hone : Guarded System.step Agreement.FaultFree s [.act x .txLoop] :=
      guarded_cons.mpr ⟨faultFree_txLoop hquiet, guarded_nil⟩
    refine .after hone (matched_move (fun y hy => ?_) ?_
      ((h.joined.runAhead hloop).reportTop hsending hahead))
    · by_contra hne
      obtain rfl | rfl := x.eq_or_eq_peer y
      · exact hne rfl
      · rw [run_cons, run_nil, System.step_act_ends_peer] at hy
        exact hy (h.reported _)
    · rw [run_cons, run_nil]
      simp only [Endpoint.act, Endpoint.stepTxLoop, hahead]

theorem released_of_driven (h : Handed p) {ch : Character} {b : Bool} {bs : List Bool}
    (hsending : p.endpoint.txLoop = .sending ch b bs) (hqueue : p.driver.queue = []) :
    released p = true := by
  obtain ⟨event, hwait, htracks⟩ := h.waiting ch b bs hsending
  have hcounted := h.counted
  rw [hqueue, List.length_nil, Nat.add_zero] at hcounted
  have hset : event ∈ p.driver.setEvents := htracks.released_iff.mpr hcounted.ge
  simp [released, hsending, Port.bitsDriven, hwait, hset]

/-- The lines are looked at: the character level has put on its line what is heard. -/
theorem InTime.sample (h : InTime c s) (hr : released (c.ends x) = false) :
    Matched System.step Agreement.FaultFree Timely (c.step (.sample x)) s := by
  cases hmoved : c.moved x with
  | false =>
    have hsame : c.step (.sample x) = c := by simp [Cable.step, hmoved]
    rw [hsame]
    exact matched_nil ⟨h.joined, h.reported⟩
  | true =>
    obtain hinside | ⟨ch, rest, hflight, hlast, hdeliver⟩ := h.joined.sample h.undropped hmoved
    · exact matched_nil ⟨hinside, h.reported⟩
    · have hline : s.line x ≠ [] := by
        intro hline
        rw [System.inFlight, hline, List.nil_append] at hflight
        cases htx : (s.ends x).txLoop with
        | sending ch' b bs =>
          rw [htx] at hflight
          cases hflight
          have hloop := h.loop x
          rw [htx] at hloop
          rw [released_of_driven (h.joined.up x).handed hloop.symm (hlast rfl)] at hr
          cases hr
        | top | parked | driven | dead =>
          rw [htx] at hflight
          cases hflight
      refine matched_one ⟨fun y hy => absurd (h.reported y) hy, rfl, trivial⟩
        ⟨hdeliver hline, fun y => ?_⟩
      obtain ⟨first, tail, htail⟩ := List.exists_cons_of_ne_nil hline
      have hstep : s.step (.deliver x) = s.receive x first := by simp only [System.step, htail]
      rw [hstep]
      obtain rfl | rfl := x.eq_or_eq_peer y
      · simpa using h.reported y
      · rw [System.receive_ends_peer]
        exact h.reported x.peer

theorem InTime.port (h : InTime c s) {i : PortInput} (ht : FaultFree c (.port x i))
    (hne : i ≠ .txLoop) :
    Matched System.step Agreement.FaultFree Timely (c.step (.port x i)) s := by
  obtain ⟨hpaced, hpackets, hcalm⟩ := ht
  obtain hquiet | ⟨a, ha, hmem, hact⟩ := h.joined.port_act hpaced hne
  · exact matched_nil ⟨hquiet, h.reported⟩
  · have hfed : a.packetLevel = true ∧ Undisturbed (c.ends x) a := by
      cases i with
      | call action =>
        simp only [Port.inputs] at hmem
        split at hmem
        · cases List.mem_singleton.mp hmem
          exact ⟨hpackets, hcalm ‹_›⟩
        · cases hmem
      | watchdog =>
        simp only [Port.inputs] at hmem
        split at hmem
        · cases List.mem_singleton.mp hmem
          exact ⟨rfl, hcalm ‹_›⟩
        · cases hmem
      | txLoop => exact absurd rfl hne
      | start | started | stop | driver | monitor | timeout => cases hmem
      | line di => exact absurd hpaced id
    refine matched_one (h.faultFree_act ha hfed.1 hfed.2) ⟨hact, reported_act h.reported ?_⟩
    rw [(act_txLoop ha).1]
    exact h.reported x

theorem InTime.step (h : InTime c s) {t : CableTurn} (ht : FaultFree c t) :
    Matched System.step Agreement.FaultFree InTime (c.step t) s := by
  have hmatched : Matched System.step Agreement.FaultFree Timely (c.step t) s := by
    cases t with
    | sample x => exact h.sample ht.2.2
    | port x i =>
      by_cases hi : i = .txLoop
      · subst hi
        exact h.txLoop
      · exact h.port ht hi
  obtain ⟨us, hus, hj, hquiet⟩ := hmatched
  exact ⟨us, hus, hj, (always_of_guarded h.agreed (fun _ _ => agreed_step) hus).last, hquiet⟩

open Progress in
theorem inTime_start {cfg : Side → LinkConfig} (h : Cable.start cfg = .ok c)
    (hcap : ∀ x, 8 ≤ (cfg x).rxFifoCapacity)
    (hmax : ∀ x m, (cfg x).maxRxCredit = some m → 8 ≤ m) : ∃ s, InTime c s := by
  obtain ⟨s, hs, hjoined, hu⟩ := joined_start h
  have hwindow (x : Side) : 8 ≤ (s.ends x).link.credit.maxRxCredit :=
    (roomy_start hs hcap hmax).1.solvent.window x
  refine ⟨s, hjoined, agreed_start hs hwindow, fun x => ?_⟩
  rw [(Accounting.fresh_start ((start_ends hs).1 x)).txLoop]
  rfl

/-- A handshake over the cable that meets no fault drops neither link: no bit on its way will be
an error, neither link is in Run while the other is behind Connecting, and packets arrive in
the order they were sent in. -/
theorem handshake_over_cable {cfg : Side → LinkConfig} (h : Cable.start cfg = .ok c)
    (hcap : ∀ x, 8 ≤ (cfg x).rxFifoCapacity)
    (hmax : ∀ x m, (cfg x).maxRxCredit = some m → 8 ≤ m) (ts : List CableTurn)
    (hts : Guarded Cable.step FaultFree c ts) :
    Always Cable.step (fun c => c.Undropped ∧ ∀ x,
      (∀ ch ∈ flying c x, ch.error = []) ∧
      ((c.ends x).link.fsm.state = .run → (c.ends x.peer).link.fsm.state = .connecting ∨
        (c.ends x.peer).link.fsm.state = .run) ∧
      (c.ends x.peer).endpoint.received <+: (c.ends x).endpoint.sent) c ts := by
  intro p hp
  obtain ⟨s, hs⟩ := inTime_start h hcap hmax
  obtain ⟨us, -, hrun⟩ := run_matched (C := fun _ => True) hs (fun _ _ _ h => h)
    (fun _ _ _ h ht _ => h.step ht) (hts.take hp) trivial
  have hu := hrun.undropped
  refine ⟨hu, fun x => ⟨(hrun.joined.inStep hu x).clean, fun hx => ?_, ?_⟩⟩
  · have hagreed := hrun.agreed.run (x := x)
    rw [(hrun.joined.shown x).fsm, (hrun.joined.shown x.peer).fsm] at hagreed
    exact hagreed hx
  · have horder := hrun.agreed.healthy.inOrder x
    simp only [InOrder, taken, List.append_assoc] at horder
    have hprefix := prefix_of_nchars (s := []) (by simp) (by simpa using horder)
    rw [(hrun.joined.shown x).seen, (hrun.joined.shown x.peer).seen] at hprefix
    exact hprefix

theorem handshake_over_cable_packet :
    ∃ c, Cable.start (fun _ => { linkStart := true }) = .ok c ∧
      ((run Cable.step c Cable.onePacket).ends .a).link.fsm.state = .run ∧
      (((run Cable.step c Cable.onePacket).ends .b).link.fsm.state = .connecting ∨
        ((run Cable.step c Cable.onePacket).ends .b).link.fsm.state = .run) := by
  refine ⟨_, rfl, by decide +kernel, ?_⟩
  obtain ⟨-, hends⟩ := (@handshake_over_cable _ (fun _ => { linkStart := true }) rfl
    (by decide) (by simp) Cable.onePacket (by decide +kernel)).last
  obtain ⟨-, hrun, -⟩ := hends .a
  rw [Side.peer] at hrun
  apply hrun
  decide +kernel

end SpaceWire.CableHandshake
