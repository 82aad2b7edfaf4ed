import SpaceWire.Draining
import SpaceWire.Handover
import SpaceWire.Operations
import SpaceWire.Restart

namespace SpaceWire

open SpaceWireLink Run Draining

/-- The N-Char that the transmit coroutine has taken from the queue and not accounted for. -/
def TxLoop.taken : TxLoop → List Character
  | .sending char true _ => [char]
  | .driven char true => [char]
  | _ => []

/-- The N-Char that the driver has driven when the transmit coroutine takes its turn. -/
def Port.drives (p : Port) : PortInput → List Character
  | .txLoop =>
    match p.endpoint.txLoop with
    | .sending char true _ => if p.txTask && p.bitsDriven then [char] else []
    | _ => []
  | _ => []

namespace Drain

/-- The N-Chars that have been enqueued and not been driven. -/
def unsent (p : Endpoint) : List Character := p.txLoop.taken ++ p.link.txNcharQueue

/-- The account of `send_packet` is that of the N-Chars not driven. -/
structure Accounted (p : Endpoint) : Prop where
  outstanding : p.link.txNcharOutstanding = (unsent p).length
  drained : p.link.txDrainedEvt = true ↔ p.link.txNcharOutstanding = 0

variable {l l' : SpaceWireLink} {p p' : Endpoint}

theorem Accounted.frame (h : Accounted p) (hunsent : unsent p' = unsent p)
    (hcount : p'.link.txNcharOutstanding = p.link.txNcharOutstanding)
    (hevent : p'.link.txDrainedEvt = p.link.txDrainedEvt) : Accounted p' := by
  constructor
  · rw [hcount, hunsent]
    exact h.outstanding
  · rw [hevent, hcount]
    exact h.drained

theorem Accounted.operated (h : Accounted p) (htx : p'.txLoop = p.txLoop)
    (hop : Operated p.link p'.link) : Accounted p' ∧ unsent p' = unsent p := by
  obtain ⟨hqueue, hcount, hevent⟩ := hop.accounts
  have hunsent : unsent p' = unsent p := by rw [unsent, htx, hqueue, unsent]
  exact ⟨h.frame hunsent hcount hevent, hunsent⟩

theorem Accounted.enqueue (h : Accounted p) (cs : List Character) :
    Accounted { p with link := cs.foldl enqueueNchar p.link } ∧
      unsent { p with link := cs.foldl enqueueNchar p.link } = unsent p ++ cs := by
  induction cs generalizing p with
  | nil => exact ⟨h, (List.append_nil _).symm⟩
  | cons c cs ih =>
    have hone : Accounted { p with link := p.link.enqueueNchar c } := by
      have hcount := h.outstanding
      constructor
      · simp [unsent, enqueueNchar] at hcount ⊢
        omega
      · simp [enqueueNchar]
        omega
    obtain ⟨haccounted, hunsent⟩ := ih hone
    refine ⟨haccounted, ?_⟩
    rw [List.foldl_cons, hunsent]
    simp [unsent, enqueueNchar]

def sent : TxLoop → List Character
  | .driven char true => [char]
  | _ => []

theorem picked_unsent {mode : TxMode} {c : Character} {b : Bool} (hp : l.Picked mode l' c b)
    (bits : List Bool) :
    (TxLoop.sending c b bits).taken ++ l'.txNcharQueue = l.txNcharQueue ∧
      l'.txNcharOutstanding = l.txNcharOutstanding ∧ l'.txDrainedEvt = l.txDrainedEvt := by
  cases hp with
  | null | handshake | uncredited | fct => exact ⟨rfl, rfl, rfl⟩
  | nchar hno hqueue => exact ⟨hqueue.symm, rfl, rfl⟩

theorem charSent_operated (l : SpaceWireLink) (c : Character) (wasNchar : Bool) :
    ∃ m, Operated l m ∧ l.charSent c wasNchar =
      if wasNchar then
        if m.txNcharOutstanding - 1 = 0 then
          { m with txNcharOutstanding := m.txNcharOutstanding - 1, txDrainedEvt := true }
        else { m with txNcharOutstanding := m.txNcharOutstanding - 1 }
      else m := by
  refine ⟨if c.type = .null then l.feedFsm .sentNull
    else if c.type = .fct then l.feedFsm .sentFct else l, ?_, rfl⟩
  split
  · exact .feed l .sentNull
  · split
    · exact .feed l .sentFct
    · exact .refl l

theorem Accounted.charSent (h : Accounted p) {char : Character} {wasNchar : Bool}
    (htx : p.txLoop = .driven char wasNchar) :
    Accounted { p with link := p.link.charSent char wasNchar, txLoop := .top } ∧
      sent p.txLoop ++ (p.link.charSent char wasNchar).txNcharQueue = unsent p := by
  obtain ⟨m, hop, hsent⟩ := charSent_operated p.link char wasNchar
  obtain ⟨hqueue, hsame, hevent⟩ := hop.accounts
  have hcount := h.outstanding
  have hdrained := h.drained
  rw [← hsame] at hcount hdrained
  rw [← hevent] at hdrained
  rw [(Traffic.charSent_queues p.link char wasNchar).1, hsent]
  cases wasNchar with
  | false =>
    simp only [unsent, htx, TxLoop.taken, List.nil_append] at hcount ⊢
    refine ⟨⟨?_, hdrained⟩, rfl⟩
    simpa [unsent, TxLoop.taken, hqueue] using hcount
  | true =>
    simp only [unsent, htx, TxLoop.taken, List.length_append, List.length_singleton] at hcount ⊢
    push_cast at hcount
    refine ⟨?_, rfl⟩
    rw [if_pos trivial]
    split
    · refine ⟨?_, by simpa⟩
      simp [unsent, TxLoop.taken, hqueue]
      omega
    · refine ⟨?_, ?_⟩
      · simp [unsent, TxLoop.taken, hqueue]
        omega
      · have hclear : m.txDrainedEvt = false := by
          rw [← Bool.not_eq_true, hdrained]
          omega
        simpa [hclear]

theorem Accounted.turn (h : Accounted p) (ht : TxTurn p p') (hrunning : p'.txLoop ≠ .dead) :
    Accounted p' ∧ sent p.txLoop ++ unsent p' = unsent p := by
  cases ht with
  | rest htx =>
    refine ⟨h, ?_⟩
    rw [htx]
    rfl
  | ended htx => exact absurd htx hrunning
  | park htx | wake htx =>
    have hunsent : p.link.txNcharQueue = unsent p := by rw [unsent, htx]; rfl
    refine ⟨h.frame hunsent rfl rfl, ?_⟩
    rw [htx]
    exact hunsent
  | @pick link char wasNchar encoder bits htx _ hp =>
    obtain ⟨hflow, hcount, hevent⟩ := picked_unsent hp bits
    have hunsent : (TxLoop.sending char wasNchar bits).taken ++ link.txNcharQueue = unsent p := by
      rw [hflow, unsent, htx]
      rfl
    refine ⟨h.frame hunsent hcount hevent, ?_⟩
    rw [htx]
    exact hunsent
  | reject => exact absurd rfl hrunning
  | @drive char wasNchar bits htx =>
    have hunsent : (TxLoop.driven char wasNchar).taken ++ p.link.txNcharQueue = unsent p := by
      rw [unsent, htx]
      cases wasNchar <;> rfl
    refine ⟨h.frame hunsent rfl rfl, ?_⟩
    rw [htx]
    exact hunsent
  | done htx => exact h.charSent htx

def drives (p : Endpoint) : LifeInput → List Character
  | .input (.act .txLoop) => sent p.txLoop
  | _ => []

theorem drives_of_ne {i : LifeInput} (hi : i ≠ .input (.act .txLoop)) (p : Endpoint) :
    drives p i = [] := by
  unfold drives
  split
  · exact absurd rfl hi
  · rfl

theorem Accounted.lifeStep (h : Accounted p) (i : LifeInput)
    (hrunning : (p.lifeStep i).txLoop ≠ .dead) (hstarted : i = .started → p.txLoop = .top) :
    Accounted (p.lifeStep i) ∧
      drives p i ++ unsent (p.lifeStep i) = unsent p ++ i.enqueues := by
  have hmoved := moved p i
  generalize p.lifeStep i = p' at hmoved hrunning
  cases hmoved with
  | operated hne htx hop =>
    obtain ⟨henqueued, hflow⟩ := h.enqueue i.enqueues
    obtain ⟨haccounted, hsame⟩ := henqueued.operated htx hop
    refine ⟨haccounted, ?_⟩
    rw [drives_of_ne hne, List.nil_append, hsame, hflow]
  | started htx hop =>
    obtain ⟨haccounted, hsame⟩ := h.operated (htx.trans (hstarted rfl).symm) hop
    refine ⟨haccounted, ?_⟩
    rw [hsame]
    exact (List.append_nil _).symm
  | turned ht =>
    obtain ⟨haccounted, hflow⟩ := h.turn ht hrunning
    refine ⟨haccounted, hflow.trans ?_⟩
    exact (List.append_nil _).symm

def drivesAll (p : Endpoint) : List LifeInput → List Character
  | [] => []
  | i :: is => drives p i ++ drivesAll (p.lifeStep i) is

theorem Accounted.run (h : Accounted p) (halive : Alive p) {is : List LifeInput}
    (his : ∀ i ∈ is, ∀ c ∈ i.enqueues, Accepted c)
    (hstarted : Guarded Endpoint.lifeStep (fun p i => i = .started → p.txLoop = .top) p is) :
    Accounted (run Endpoint.lifeStep p is) ∧ Alive (run Endpoint.lifeStep p is) ∧
      drivesAll p is ++ unsent (run Endpoint.lifeStep p is) =
        unsent p ++ is.flatMap LifeInput.enqueues := by
  induction is generalizing p with
  | nil => exact ⟨h, halive, (List.append_nil _).symm⟩
  | cons i is ih =>
    obtain ⟨hfirst, hrest⟩ := guarded_cons.mp hstarted
    have halive' := halive.lifeStep i (his i (by simp))
    obtain ⟨hstep, hflow⟩ := h.lifeStep i halive'.running hfirst
    obtain ⟨hrun, hlast, hflows⟩ := ih hstep halive'
      (fun j hj => his j (List.mem_cons_of_mem i hj)) hrest
    refine ⟨hrun, hlast, ?_⟩
    rw [drivesAll, List.append_assoc, run_cons, hflows, ← List.append_assoc, hflow,
      List.flatMap_cons, List.append_assoc]

section port

variable {q : Port} {i : PortInput}

theorem txTurn_notMem_life (hi : i ≠ .txLoop) : .input (.act .txLoop) ∉ q.life i := by
  cases i with
  | start | started =>
    simp only [Port.life]
    split <;> simp
  | stop | driver | monitor | timeout => simp [Port.life, Port.inputs]
  | call action =>
    simp only [Port.life, Port.inputs]
    cases action with
    | feed e => cases e <;> simp [Action.isCall, Event.isTick]
    | expire | watchdog | txLoop | sendPacket | sendChar | recvPacket => simp [Action.isCall]
  | txLoop => exact absurd rfl hi
  | watchdog =>
    simp only [Port.life, Port.inputs]
    split <;> simp
  | line di => simp [Port.life, Port.inputs]

theorem drivesAll_of_notMem {is : List LifeInput} (h : .input (.act .txLoop) ∉ is) (p : Endpoint) :
    drivesAll p is = [] := by
  induction is generalizing p with
  | nil => rfl
  | cons j is ih =>
    rw [List.mem_cons, not_or] at h
    rw [drivesAll, ih h.2, List.append_nil]
    exact drives_of_ne (Ne.symm h.1) p

theorem drives_ne_nil (h : q.drives i ≠ []) :
    i = .txLoop ∧ q.bitsDriven = true ∧
      ∃ char bits, q.endpoint.txLoop = .sending char true bits := by
  cases i with
  | txLoop =>
    cases htx : q.endpoint.txLoop with
    | sending char wasNchar bits =>
      cases wasNchar with
      | true =>
        cases hdriven : q.bitsDriven with
        | true => exact ⟨rfl, rfl, char, bits, rfl⟩
        | false => simp [Port.drives, htx, hdriven] at h
      | false => simp [Port.drives, htx] at h
    | top | parked | driven | dead => simp [Port.drives, htx] at h
  | start | started | stop | call | watchdog | driver | monitor | line | timeout =>
    exact absurd rfl h

theorem life_drives (q : Port) (i : PortInput) :
    drivesAll q.endpoint (q.life i) = q.drives i := by
  by_cases hi : i = .txLoop
  · subst hi
    simp only [Port.life, Port.inputs, Port.txMoves, Port.drives]
    cases htx : q.endpoint.txLoop with
    | top => cases q.txTask <;> simp [drivesAll, drives, htx, sent]
    | parked =>
      cases hw : q.endpoint.link.txWakeup <;> cases q.txTask <;>
        simp [drivesAll, drives, htx, sent, List.replicate, Endpoint.lifeStep, Endpoint.step,
          Endpoint.act, Endpoint.stepTxLoop, hw, Port.link]
    | sending char wasNchar bits =>
      cases q.txTask <;> cases q.bitsDriven <;> cases wasNchar <;>
        simp [drivesAll, drives, htx, sent, List.replicate, Endpoint.lifeStep, Endpoint.step,
          Endpoint.act, Endpoint.stepTxLoop]
    | driven | dead => cases q.txTask <;> simp [drivesAll]
  · rw [drivesAll_of_notMem (txTurn_notMem_life hi)]
    by_contra hne
    exact hi (drives_ne_nil fun hnil => hne hnil.symm).1

/-- Up to a `stop` the transmit coroutine is made once, when none is there. -/
structure Launched (q : Port) : Prop where
  idle : q.txTask = false → q.endpoint.txLoop = .top
  once : q.starting = 0 ∨ q.starting = 1 ∧ q.txTask = false
  flagged : q.link.started = false → q.starting = 0 ∧ q.txTask = false

theorem step_txTask (q : Port) (hi : i.isLifecycle = false) : (q.step i).txTask = q.txTask := by
  cases i with
  | start | started | stop => cases hi
  | call | watchdog =>
    simp only [Port.step]
    split <;> rfl
  | txLoop =>
    obtain ⟨endpoint, driver, txWait, heq, -⟩ := q.txTurn_cases
    rw [show q.step .txLoop = _ from heq]
  | driver | monitor | line | timeout => rfl

theorem step_idle (hl : i.isLifecycle = false) (h : q.txTask = false) :
    (q.step i).endpoint.txLoop = q.endpoint.txLoop := by
  by_cases hi : i = .txLoop
  · subst hi
    simp [Port.step, Port.txTurn, h]
  · exact Handover.step_txLoop q hl hi

theorem Launched.step (h : Launched q) (hi : i ≠ .stop) : Launched (q.step i) := by
  obtain ⟨hidle, honce, hflagged⟩ := h
  by_cases hl : i.isLifecycle = false
  · have htask := step_txTask q hl
    have hstart : i ≠ .start := by
      rintro rfl
      cases hl
    have hstarted : i ≠ .started := by
      rintro rfl
      cases hl
    have hflag := q.step_link_started hstart hi
    have hcount := (Restart.step_counts q hstart hstarted).1
    refine ⟨fun hno => ?_, ?_, ?_⟩
    · rw [htask] at hno
      rw [step_idle hl hno]
      exact hidle hno
    · rw [htask, hcount]
      exact honce
    · rw [hflag, hcount, htask]
      exact hflagged
  · cases i with
    | start =>
      obtain ⟨-, heq⟩ | ⟨hs, -, heq⟩ | ⟨hs, -, heq⟩ := q.step_start_cases <;> rw [heq]
      · exact ⟨hidle, honce, hflagged⟩
      · exact ⟨hidle, honce, nofun⟩
      · obtain ⟨hzero, hno⟩ := hflagged hs
        exact ⟨hidle, .inr ⟨by simp [hzero], hno⟩, nofun⟩
    | started =>
      obtain ⟨-, heq⟩ | ⟨hz, -, heq⟩ | ⟨hz, -, heq⟩ := q.step_started_cases <;> rw [heq]
      · exact ⟨hidle, honce, hflagged⟩
      · obtain ⟨hone, hno⟩ := honce.resolve_left hz
        refine ⟨hidle, .inl (by simp [hone]), fun hs => ?_⟩
        exact absurd (hflagged hs).1 hz
      · obtain ⟨hone, hno⟩ := honce.resolve_left hz
        refine ⟨nofun, .inl (by simp [hone]), fun hs => ?_⟩
        have hbefore : q.link.started = false := q.link.arm_started.symm.trans hs
        exact absurd (hflagged hbefore).1 hz
    | stop => exact absurd rfl hi
    | call | txLoop | watchdog | driver | monitor | line | timeout => exact absurd rfl hl

theorem started_notMem_life (hi : i ≠ .started) : .started ∉ q.life i := by
  cases i with
  | start =>
    simp only [Port.life]
    split <;> simp
  | started => exact absurd rfl hi
  | stop | driver | monitor | timeout | call | txLoop | watchdog | line =>
    simp [Port.life, Port.inputs]

theorem Accounted.port_step (h : Accounted q.endpoint) (halive : Alive q.endpoint)
    (hl : Launched q) (hi : ∀ c ∈ i.enqueues, Accepted c) :
    Accounted (q.step i).endpoint ∧ Alive (q.step i).endpoint ∧
      q.drives i ++ unsent (q.step i).endpoint = unsent q.endpoint ++ i.enqueues := by
  rw [q.step_life i, ← q.life_enqueues i, ← life_drives q i]
  apply h.run halive
  · intro j hj c hc
    apply hi c
    rw [← q.life_enqueues i]
    exact List.mem_flatMap.mpr ⟨j, hj, hc⟩
  · by_cases hstarted : i = .started
    · subst hstarted
      simp only [Port.life]
      split
      · exact fun before j hj => by simp at hj
      · rename_i hz
        refine guarded_cons.mpr ⟨fun _ => ?_, fun before j hj => by simp at hj⟩
        simp only [Bool.or_eq_true, decide_eq_true_eq, not_or] at hz
        exact hl.idle (hl.once.resolve_left hz.1).2
    · have hno : ∀ j ∈ q.life i, j ≠ .started := by
        rintro j hj rfl
        exact started_notMem_life hstarted hj
      exact (Guarded.of_forall_mem hno).mono fun p j hne heq => absurd heq hne

end port

/-- A port with the calls of `send_char` and `send_packet` made on it, by any number of tasks. -/
structure Callers where
  port : Port
  ledger : Ledger Character := {}

/-- A call enqueues its N-Chars and waits for the drained event: `wait` returns at once where the
event is set, and `set` lets all return that wait. -/
def Callers.step (s : Callers) (i : PortInput) : Callers where
  port := s.port.step i
  ledger := s.ledger.step i.enqueues (s.port.drives i) (s.port.step i).link.txDrainedEvt

theorem Callers.run_port (s : Callers) (is : List PortInput) :
    (run Callers.step s is).port = run Port.step s.port is := by
  induction is generalizing s with
  | nil => rfl
  | cons i is ih => exact ih (s.step i)

/-- What is known of a link that has not been stopped, and of the calls made on it. -/
structure Served (s : Callers) : Prop where
  launched : Launched s.port
  accounted : Accounted s.port.endpoint
  alive : Alive s.port.endpoint
  sound : s.ledger.Sound (unsent s.port.endpoint)

theorem Served.step {s : Callers} {i : PortInput} (h : Served s) (hi : i ≠ .stop)
    (haccepted : ∀ c ∈ i.enqueues, Accepted c) : Served (s.step i) := by
  obtain ⟨haccounted, halive, hflow⟩ := h.accounted.port_step h.alive h.launched haccepted
  refine ⟨h.launched.step hi, haccounted, halive, h.sound.step hflow fun hset => ?_⟩
  have hzero := haccounted.drained.mp hset
  rw [haccounted.outstanding] at hzero
  exact List.length_eq_zero_iff.mp (Int.natCast_eq_zero.mp hzero)

theorem served_new {cfg : LinkConfig} {p : Port} (h : Port.new cfg = .ok p) :
    Served { port := p } := by
  have halive := alive_new h
  obtain ⟨link, hlink, rfl⟩ := Port.new_ok h
  obtain ⟨hqueue, hcount, hevent⟩ := new_sendSide hlink
  have hunsent : unsent { link } = [] := by simp [unsent, TxLoop.taken, hqueue]
  refine ⟨⟨fun _ => rfl, .inl rfl, fun _ => ⟨rfl, rfl⟩⟩, ⟨?_, ?_⟩, halive, ?_⟩
  · rw [hunsent]
    exact hcount
  · simp [hcount, hevent]
  · rw [hunsent]
    exact Ledger.sound_empty

theorem enqueues_accepted {i : PortInput}
    (hi : ∀ c, i = .call (.sendChar c) → c.isNChar = true → Accepted c) :
    ∀ c ∈ i.enqueues, Accepted c := by
  intro c hc
  cases i with
  | call action =>
    cases action with
    | sendPacket data terminator =>
      simp only [PortInput.enqueues, Action.enqueues] at hc
      split at hc
      · cases hc
      · have hpacket := SpaceWirePacket.packetChar_of_mem_nchars hc
        exact fun e => (LineChar.packet hpacket).encode e
    | sendChar char =>
      simp only [PortInput.enqueues, Action.enqueues] at hc
      split at hc
      · obtain rfl := List.mem_singleton.mp hc
        exact hi c rfl ‹_›
      · cases hc
    | feed | expire | watchdog | txLoop | recvPacket => cases hc
  | start | started | stop | txLoop | watchdog | driver | monitor | line | timeout => cases hc

theorem Callers.run_enqueued (s : Callers) (is : List PortInput) :
    (run Callers.step s is).ledger.enqueued =
      s.ledger.enqueued ++ is.flatMap PortInput.enqueues := by
  induction is generalizing s with
  | nil => exact (List.append_nil _).symm
  | cons i is ih =>
    rw [run_cons, ih, List.flatMap_cons, ← List.append_assoc]
    rfl

theorem drives_driven {q : Port} (h : Handover.Handed q) {i : PortInput} (hi : q.drives i ≠ []) :
    q.driver.queue = [] ∧ q.driver.drivenBits = q.driver.enqueuedBits := by
  obtain ⟨-, hdriven, char, bits, htx⟩ := drives_ne_nil hi
  exact h.driven htx hdriven

/-- In every run of a link that is not stopped, `_tx_nchar_outstanding` counts the queued N-Chars
and the one under way, the drained event is set when there is none, an N-Char is driven with its
last bit, and a call of `send_char` or `send_packet` returns only after its own N-Chars. -/
theorem draining_exact {cfg : LinkConfig} {p : Port} (hnew : Port.new cfg = .ok p)
    {is : List PortInput} (hstop : .stop ∉ is)
    (haccepted : ∀ c, PortInput.call (.sendChar c) ∈ is → c.isNChar = true → Accepted c) :
    let s := run Callers.step { port := p } is
    s.port = run Port.step p is ∧
      s.port.link.txNcharOutstanding =
        s.port.link.txNcharQueue.length + s.port.endpoint.txLoop.taken.length ∧
      (s.port.link.txDrainedEvt = true ↔ s.port.link.txNcharOutstanding = 0) ∧
      s.ledger.enqueued = is.flatMap PortInput.enqueues ∧
      s.ledger.enqueued =
        s.ledger.delivered ++ (s.port.endpoint.txLoop.taken ++ s.port.link.txNcharQueue) ∧
      (∀ call ∈ s.ledger.calls, call.returned = true → call.In s.ledger.delivered) ∧
      ∀ i, s.port.drives i ≠ [] →
        s.port.driver.queue = [] ∧ s.port.driver.drivenBits = s.port.driver.enqueuedBits := by
  intro s
  have hserved : Served s := by
    apply run_keeps (served_new hnew)
    intro s i hi hs
    apply hs.step
    · rintro rfl
      exact hstop hi
    · apply enqueues_accepted
      rintro c rfl
      exact haccepted c hi
  have hport : s.port = run Port.step p is := Callers.run_port { port := p } is
  have hhanded : Handover.Handed s.port := by
    rw [hport]
    exact Handover.handed_run hnew is
  have hcount := hserved.accounted.outstanding
  refine ⟨hport, ?_, hserved.accounted.drained, ?_, hserved.sound.flow, hserved.sound.served, ?_⟩
  · rw [unsent, List.length_append, Nat.add_comm] at hcount
    exact_mod_cast hcount
  · exact Callers.run_enqueued { port := p } is
  · exact fun i hi => drives_driven hhanded hi

def twoSenders : List PortInput :=
  Port.handshake ++ [.call (.sendChar (dataChar 65)), .call (.sendPacket [] "EOP")] ++
    (List.replicate 4 (List.replicate 10 .driver ++ [.txLoop])).flatten

theorem draining_exact_twoSenders :
    ∃ p, Port.new { linkStart := true, rxFifoCapacity := 8 } = .ok p ∧
      (run Callers.step { port := p } twoSenders).port.link.fsm.state = .run ∧
      (run Callers.step { port := p } twoSenders).ledger.enqueued =
        [dataChar 65, .ofType .eop] ∧
      ∀ call ∈ (run Callers.step { port := p } twoSenders).ledger.calls,
        call.returned = true ∧
          call.In (run Callers.step { port := p } twoSenders).ledger.delivered := by
  refine ⟨_, rfl, by decide +kernel, ?_⟩
  have hstop : PortInput.stop ∉ twoSenders := by
    simp [twoSenders, Port.handshake]
  have haccepted : ∀ c, PortInput.call (.sendChar c) ∈ twoSenders → c.isNChar = true →
      Accepted c := by
    intro c hc _
    have hone : c = dataChar 65 := by simpa [twoSenders, Port.handshake] using hc
    rw [hone]
    exact fun e => (LineChar.packet (.data (by decide))).encode e
  obtain ⟨-, -, -, henqueued, -, hserved, -⟩ :=
    @draining_exact { linkStart := true, rxFifoCapacity := 8 } _ rfl twoSenders hstop haccepted
  refine ⟨henqueued, fun call hcall => ?_⟩
  have hreturned : call.returned = true := by
    revert call
    decide +kernel
  exact ⟨hreturned, hserved call hcall hreturned⟩

end Drain

end SpaceWire
