import SpaceWire.CableRuns

namespace SpaceWire.Delivery

open Run Traffic Conservation Progress Accounting

/-- The characters the peer's decoder will make of the bits on their way. -/
def flying (c : Cable) (x : Side) : List Character :=
  ((c.ends x.peer).link.decoder.push (c.bits x)).2

/-- What the peer of `x` has taken into its receive queue, read or not, as the bits told it. -/
def heard (p : Endpoint) : List Character :=
  p.received.flatMap SpaceWirePacket.nchars ++ p.recvData.map dataChar ++
    p.link.rxNcharQueue.map Character.onWire

theorem ncharCount_map_onWire (cs : List Character) :
    ncharCount (cs.map Character.onWire) = ncharCount cs := by
  simp [ncharCount, List.countP_map, Function.comp_def]

theorem fctCount_map_onWire (cs : List Character) :
    fctCount (cs.map Character.onWire) = fctCount cs := by
  simp [fctCount, List.countP_map, Function.comp_def]

variable {c : Cable} {s : System} {cfg : Side → LinkConfig}

theorem flying_eq (h : Joined c s) (hu : c.Undropped) (x : Side) :
    (flying c x).map Character.onWire = (s.inFlight x).map Character.onWire :=
  (h.inStep hu x).decoded

theorem flying_counts (h : Joined c s) (hu : c.Undropped) (x : Side) :
    ncharCount (flying c x) = ncharCount (s.inFlight x) ∧
      fctCount (flying c x) = fctCount (s.inFlight x) := by
  have heq := flying_eq h hu x
  rw [← ncharCount_map_onWire, ← fctCount_map_onWire, heq, ncharCount_map_onWire,
    fctCount_map_onWire]
  exact ⟨rfl, rfl⟩

theorem undropped_system (h : Joined c s) (hu : c.Undropped) : Conservation.Undropped s :=
  fun x => ((h.shown x).resets).trans (hu x)

theorem shown_credit (h : Joined c s) (x : Side) :
    (s.ends x).link.credit = (c.ends x).link.credit := by
  rw [(h.shown x).seen]
  rfl

theorem shown_dead (h : Joined c s) {x : Side} (halive : (c.ends x).endpoint.txLoop ≠ .dead) :
    (s.ends x).txLoop ≠ .dead := by
  have hr := (h.shown x).reached
  generalize (c.ends x).endpoint.txLoop = t at hr halive
  generalize (s.ends x).txLoop = t' at hr
  cases hr with
  | there => exact halive
  | ahead => simp

/-- Runs over the cable, bit by bit, refine runs of the character level: some run of turns that
lose no character has sent and received the same packets, its links stand where these stand,
and its characters on their way are those that the peer will make of the bits on theirs. -/
theorem cable_refines (h : Cable.start cfg = .ok c) (ts : List CableTurn)
    (hts : Guarded Cable.step Cable.Paced c ts) (hu : (run Cable.step c ts).Undropped) :
    ∃ s us, System.start cfg = .ok s ∧ Guarded System.step (fun _ => Lossless) s us ∧
      ∀ x, let p := ((run Cable.step c ts).ends x).endpoint
        let q := (run System.step s us).ends x
        q.sent = p.sent ∧ q.received = p.received ∧ q.link.fsm = p.link.fsm ∧
          q.link.credit = p.link.credit ∧ q.link.txNcharQueue = p.link.txNcharQueue ∧
          ((run System.step s us).inFlight x).map Character.onWire =
            (flying (run Cable.step c ts) x).map Character.onWire := by
  obtain ⟨s, hs, us, hus, hjoined⟩ := exists_joined h hts hu
  refine ⟨s, us, hs, hus.mono fun _ _ ht => ht.1, fun x => ?_⟩
  have hseen := (hjoined.shown x).seen
  refine ⟨?_, ?_, ?_, ?_, ?_, (flying_eq hjoined hu x).symm⟩
  all_goals
    rw [hseen]
    rfl

theorem cable_refines_packet :
    ∃ c, Cable.start (fun _ => { linkStart := true }) = .ok c ∧
      ∃ s us, System.start (fun _ => { linkStart := true }) = .ok s ∧
        Guarded System.step (fun _ => Lossless) s us ∧
        ((run System.step s us).ends .b).received.length = 1 := by
  refine ⟨_, rfl, ?_⟩
  obtain ⟨s, us, hs, hus, heq⟩ := @cable_refines _ (fun _ => { linkStart := true }) rfl
    Cable.onePacket (by decide +kernel) (fun x => by cases x <;> decide +kernel)
  refine ⟨s, us, hs, hus, ?_⟩
  rw [(heq .b).2.1]
  decide +kernel

/-- Over the cable credit is conserved bit by bit: the transmit credit of a link, the N-Chars
that its peer will make of the bits on their way, and the FCTs in the bits on their way back,
are covered by the receive credit of the peer, and no bit on its way will be an error. -/
theorem credit_over_cable (h : Cable.start cfg = .ok c)
    (hcap : ∀ x, 8 ≤ (cfg x).rxFifoCapacity)
    (hmax : ∀ x m, (cfg x).maxRxCredit = some m → 8 ≤ m) (ts : List CableTurn)
    (hts : Guarded Cable.step Cable.Paced c ts) (hu : (run Cable.step c ts).Undropped) (x : Side) :
    (∀ ch ∈ flying (run Cable.step c ts) x, ch.error = []) ∧
      ((run Cable.step c ts).ends x).link.credit.txCredit +
            ncharCount (flying (run Cable.step c ts) x) +
            8 * fctCount (flying (run Cable.step c ts) x.peer) ≤
          ((run Cable.step c ts).ends x.peer).link.credit.rxCredit ∧
      (((run Cable.step c ts).ends x).endpoint.txLoop ≠ .dead →
        ((run Cable.step c ts).ends x).link.credit.txCredit +
              ncharCount (flying (run Cable.step c ts) x) +
              8 * fctCount (flying (run Cable.step c ts) x.peer) =
            ((run Cable.step c ts).ends x.peer).link.credit.rxCredit) := by
  obtain ⟨s, hs, us, hus, hjoined⟩ := exists_joined h hts hu
  have hundropped := undropped_system hjoined hu
  have hroomy : Roomy (run System.step s us) :=
    run_while (C := Undropped) (roomy_start hs hcap hmax).1 (fun _ _ => Undropped.of_step)
      (fun _ _ hs ht hu => roomy_step hs ht.1 hu) hus hundropped
  have hcovered := hroomy.solvent.covered x
  have hbalanced := hroomy.solvent.balanced x
  obtain ⟨hn, -⟩ := flying_counts hjoined hu x
  obtain ⟨-, hf⟩ := flying_counts hjoined hu x.peer
  rw [Conservation.Balanced] at hbalanced
  rw [shown_credit hjoined, shown_credit hjoined, ← hn, ← hf] at hcovered hbalanced
  exact ⟨(hjoined.inStep hu x).clean, hcovered, fun halive =>
    hbalanced (shown_dead hjoined halive)⟩

theorem credit_over_cable_packet :
    ∃ c, Cable.start (fun _ => { linkStart := true }) = .ok c ∧
      ((run Cable.step c Cable.onePacket).ends .a).link.credit.txCredit +
          ncharCount (flying (run Cable.step c Cable.onePacket) .a) +
          8 * fctCount (flying (run Cable.step c Cable.onePacket) .b) ≤
        ((run Cable.step c Cable.onePacket).ends .b).link.credit.rxCredit := by
  refine ⟨_, rfl, ?_⟩
  obtain ⟨-, hcovered, -⟩ := @credit_over_cable _ (fun _ => { linkStart := true }) rfl (by decide)
    (by simp) Cable.onePacket (by decide +kernel) (fun x => by cases x <;> decide +kernel) .a
  rwa [Side.peer] at hcovered

/-- Over the cable no packet is lost, repeated or reordered, and every N-Char is accounted for:
it has been taken, it is in the bits on their way, or it is still queued. -/
theorem packets_over_cable (h : Cable.start cfg = .ok c)
    (hcap : ∀ x, 8 ≤ (cfg x).rxFifoCapacity)
    (hmax : ∀ x m, (cfg x).maxRxCredit = some m → 8 ≤ m) (ts : List CableTurn)
    (hts : Guarded Cable.step Cable.Paced c ts) (hpackets : ∀ t ∈ ts, t.packetLevel = true)
    (hu : (run Cable.step c ts).Undropped) (x : Side) :
    ((run Cable.step c ts).ends x.peer).endpoint.received <+:
        ((run Cable.step c ts).ends x).endpoint.sent ∧
      heard ((run Cable.step c ts).ends x.peer).endpoint ++
          ((flying (run Cable.step c ts) x).map Character.onWire).filter Character.isNChar ++
          ((run Cable.step c ts).ends x).link.txNcharQueue =
        ((run Cable.step c ts).ends x).endpoint.sent.flatMap SpaceWirePacket.nchars := by
  obtain ⟨s, hs, us, hus, hjoined⟩ := exists_joined h hts hu
  have hundropped := undropped_system hjoined hu
  have hwindow (x : Side) : 8 ≤ (s.ends x).link.credit.maxRxCredit :=
    (roomy_start hs hcap hmax).1.solvent.window x
  have hhealthy : Healthy (run System.step s us) :=
    run_while (C := Undropped) (healthy_start hs hwindow).1 (fun _ _ => Undropped.of_step)
      (fun _ _ hs ht hu => healthy_step hs (ht.2 hpackets) hu) hus hundropped
  have horder := hhealthy.inOrder x
  have hx := (hjoined.shown x).seen
  have hpeer := (hjoined.shown x.peer).seen
  have hline : ∀ ch ∈ (run System.step s us).inFlight x, ch.onWire = ch := by
    intro ch hch
    obtain hch | hch := List.mem_append.mp hch
    · exact hjoined.wired x ch hch
    · exact ((hhealthy.clean x).underWay ch hch).onWire
  have hflying : (flying (run Cable.step c ts) x).map Character.onWire =
      (run System.step s us).inFlight x := by
    rw [flying_eq hjoined hu x, List.map_congr_left hline, List.map_id']
  have htaken : taken ((run System.step s us).ends x.peer) =
      heard ((run Cable.step c ts).ends x.peer).endpoint := by
    rw [hpeer]
    rfl
  have hsent : ((run System.step s us).ends x).sent =
      ((run Cable.step c ts).ends x).endpoint.sent := by
    rw [hx]
    rfl
  have hqueue : ((run System.step s us).ends x).link.txNcharQueue =
      ((run Cable.step c ts).ends x).link.txNcharQueue := by
    rw [hx]
    rfl
  have hall : heard ((run Cable.step c ts).ends x.peer).endpoint ++
      ((flying (run Cable.step c ts) x).map Character.onWire).filter Character.isNChar ++
      ((run Cable.step c ts).ends x).link.txNcharQueue =
      ((run Cable.step c ts).ends x).endpoint.sent.flatMap SpaceWirePacket.nchars := by
    rw [hflying, ← htaken, ← hsent, ← hqueue, ← horder, pending, System.inFlight,
      List.filter_append]
    simp only [List.append_assoc]
  refine ⟨?_, hall⟩
  simp only [heard, List.append_assoc] at hall
  exact prefix_of_nchars (s := []) (by simp) (by simpa using hall)

theorem packets_over_cable_one :
    ∃ c, Cable.start (fun _ => { linkStart := true }) = .ok c ∧
      ((run Cable.step c Cable.onePacket).ends .b).endpoint.received.length = 1 ∧
      ((run Cable.step c Cable.onePacket).ends .b).endpoint.received <+:
        ((run Cable.step c Cable.onePacket).ends .a).endpoint.sent :=
  ⟨_, rfl, by decide +kernel, (@packets_over_cable _ (fun _ => { linkStart := true }) rfl
    (by decide) (by simp) Cable.onePacket (by decide +kernel) (by decide +kernel)
    (fun x => by cases x <;> decide +kernel) .a).1⟩

end SpaceWire.Delivery
