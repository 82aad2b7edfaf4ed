import SpaceWire.FairHandshake

namespace SpaceWire.ColdStart

open Run Traffic Conservation Events Agreement FairDelivery FairHandshake Handshake NCharStream

variable {s : System} {t : Turn}

def sends : Turn → Bool
  | .act _ (.sendPacket _ _) => true
  | _ => false

theorem calm_of_eager (h : Attuned s) (ht : Eager s t) (hsend : sends t = false) : Calm s t := by
  cases t with
  | act x a =>
    have hkept : ∀ e, (s.ends x).feeds a = some e → (s.ends x).link.fsm.drops e = false :=
      fun e he => (advance (h.orderly x).settled
        (feeds_benign (h.orderly x) ht.1.2.2 e he)).undropped
    cases a with
    | sendPacket => cases hsend
    | sendChar => cases ht.1.2.1
    | txLoop | recvPacket => trivial
    | feed | expire | watchdog => exact hkept
  | deliver => trivial
  | lose | noise => cases ht.1.2.1

/-- What two links keep from `s₀` on, while there is no fault. -/
structure Underway (s₀ s : System) : Prop where
  connected : Connected s
  handshaking : Handshaking s
  since : Since (stream s₀) (fun x => (s₀.ends x).sent) s
  keeps : Keeps s₀ s

theorem Underway.step {s₀ : System} (h : Underway s₀ s) (ht : Eager s t) :
    Underway s₀ (s.step t) := by
  have hkeeps := h.handshaking.toAttuned.keeps ht.1
  exact ⟨h.connected.step ht.1.2.1 hkeeps, h.handshaking.step ht,
    h.since.step h.connected.toSound ht.1.2.1 hkeeps, fun x => (hkeeps x).trans (h.keeps x)⟩

/-- Both links are in Run, and the peer of `x` has read, in order, what was in the stream in `s₀`
and the packets sent since. -/
structure Caught (s₀ s : System) (x : Side) : Prop where
  running : (s.ends x).link.fsm.state = .run
  resets : (s.ends x).link.errorResetCount = (s₀.ends x).link.errorResetCount
  taken : ∃ extra, (s.ends x).sent = (s₀.ends x).sent ++ extra ∧
    taken (s.ends x.peer) = stream s₀ x ++ extra.flatMap SpaceWirePacket.nchars
  read : (s.ends x.peer).link.rxNcharQueue = []
  drained : (s.ends x).link.txDrainedEvt = true

/-- From any point at which two links may shake hands they come to Run and deliver. -/
theorem catches_up {s₀ : System} (hconnected : Connected s₀) (hshaking : Handshaking s₀)
    {sched : ℕ → Turn} (heager : Permitted System.step Eager s₀ sched)
    (hfair : Fair System.step (fun s => asked s ∪ turns) s₀ sched) {N : ℕ}
    (hsends : ∀ n, N ≤ n → sends (sched n) = false) :
    ∃ n, ∀ m, n ≤ m → ∀ x, Caught s₀ (visit System.step s₀ sched m) x := by
  have hunderway : ∀ n, Underway s₀ (visit System.step s₀ sched n) :=
    visit_keeps (P := Underway s₀) (fun s t hs ht => hs.step ht) heager
      ⟨hconnected, hshaking, .refl s₀, fun _ => rfl⟩
  obtain ⟨n, hn⟩ := hshaking.completes heager (hfair.mono fun _ => Set.subset_union_left)
  -- From here on both links are in Run, and the last packet has been handed over.
  have hflowing : Flowing (visit System.step s₀ sched (n + N)) :=
    ⟨(hunderway (n + N)).connected, (hn (n + N) (by omega)).running⟩
  have hcalm : Permitted System.step Calm (visit System.step s₀ sched (n + N))
      fun k => sched (n + N + k) := by
    intro k
    rw [← visit_add]
    exact calm_of_eager (hunderway _).handshaking.toAttuned (heager _) (hsends _ (by omega))
  obtain ⟨m₀, hm₀⟩ := hflowing.delivers hcalm
    ((hfair.mono fun _ => Set.subset_union_right).drop (n + N))
  refine ⟨n + N + m₀, fun m hm x => ?_⟩
  obtain ⟨k, rfl⟩ := Nat.exists_eq_add_of_le hm
  have hdelivered := hm₀ (m₀ + k) (by omega) x
  obtain ⟨extra, hsent, hstream⟩ := (hunderway (n + N)).since x
  rw [Nat.add_assoc (n + N), visit_add]
  refine ⟨hdelivered.flowing.running x, ?_, ⟨extra, ?_, ?_⟩, hdelivered.read, hdelivered.drained⟩
  · exact hdelivered.resets.trans ((hunderway (n + N)).keeps x)
  · exact hdelivered.sent.trans hsent
  · exact hdelivered.taken.trans hstream

/-- Two links that are started, connect and deliver: in every endless schedule without a fault in
which the transmit coroutines, the lines, the tasks that call `recv_packet` and the timers of
ErrorReset and ErrorWait get their turns, and in which packets are handed over any time before
some point, however early, there is a point from which on both links are in Run, all packets have
been received, in order and unaltered, and every call of `send_packet` has been released. -/
theorem started_delivers {cfg : Side → LinkConfig} (h : System.start cfg = .ok s)
    (hcap : ∀ x, 8 ≤ (cfg x).rxFifoCapacity)
    (hmax : ∀ x m, (cfg x).maxRxCredit = some m → 8 ≤ m)
    (hwill : ∀ x, (cfg x).linkStart = true ∨ (cfg x).autoStart = true)
    (hstarter : ∃ x, (cfg x).linkStart = true) (hnulls : ∀ x, (cfg x).onlyNulls = false)
    (sched : ℕ → Turn) (heager : Permitted System.step Eager s sched)
    (hfair : Fair System.step (fun s => asked s ∪ turns) s sched) {N : ℕ}
    (hsends : ∀ n, N ≤ n → sends (sched n) = false) :
    ∃ n, ∀ m, n ≤ m → ∀ x,
      ((visit System.step s sched m).ends x).link.fsm.state = .run ∧
        ((visit System.step s sched m).ends x.peer).received =
          ((visit System.step s sched m).ends x).sent ∧
        ((visit System.step s sched m).ends x).link.txDrainedEvt = true := by
  have hconnected := connected_start h hcap hmax
  have hshaking := handshaking_start h hconnected.solvent.window hwill hstarter hnulls
  obtain ⟨n, hn⟩ := catches_up hconnected hshaking heager hfair hsends
  obtain ⟨hhealthy, -⟩ := healthy_start h hconnected.solvent.window
  refine ⟨n, fun m hm x => ?_⟩
  have hcaught := hn m hm x
  obtain ⟨extra, hsent, htaken⟩ := hcaught.taken
  have horder : stream s x = (s.ends x).sent.flatMap SpaceWirePacket.nchars := hhealthy.inOrder x
  refine ⟨hcaught.running, received_of_taken ?_ hcaught.read, hcaught.drained⟩
  rw [htaken, horder, hsent, List.flatMap_append]

theorem connectSchedule_sends {gen : Side → ℕ} {n : ℕ} (hn : 5 ≤ n) :
    sends (connectSchedule gen n) = false := by
  obtain ⟨k, rfl⟩ := Nat.exists_eq_add_of_le' hn
  simp only [connectSchedule]
  repeat' split
  all_goals rfl

theorem started_delivers_alternating :
    ∃ s, System.start (fun _ => { linkStart := true }) = .ok s ∧
      ∃ n, ∀ m, n ≤ m → ∀ x,
        ((visit System.step s (connectSchedule fun _ => 1) m).ends x).link.fsm.state = .run ∧
          ((visit System.step s (connectSchedule fun _ => 1) m).ends x.peer).received =
            ((visit System.step s (connectSchedule fun _ => 1) m).ends x).sent ∧
          ((visit System.step s (connectSchedule fun _ => 1) m).ends x).link.txDrainedEvt =
            true := by
  refine ⟨_, rfl, ?_⟩
  have hshaking := @handshaking_start _ (fun _ => { linkStart := true }) rfl (by decide)
    (fun _ => .inl rfl) ⟨.a, rfl⟩ fun _ => rfl
  obtain ⟨hpermitted, hperiod⟩ := @connectSchedule_permitted _ (fun _ => 1) hshaking
    (by decide +kernel) (fun x => by cases x <;> decide +kernel)
  exact @started_delivers _ (fun _ => { linkStart := true }) rfl (by decide) (by simp)
    (fun _ => .inl rfl) ⟨.a, rfl⟩ (fun _ => rfl) (connectSchedule fun _ => 1) hpermitted
    (connectSchedule_fair hperiod) 5 fun n hn => connectSchedule_sends hn

end SpaceWire.ColdStart
