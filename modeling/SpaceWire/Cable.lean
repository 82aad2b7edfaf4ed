import SpaceWire.CharLevel
import SpaceWire.Handover
import SpaceWire.InStep

namespace SpaceWire

open DataStrobe Run Traffic Accounting SpaceWireDriver Handover

/-- Two ports with crossed lines, as `dual_loopback` connects them, and whether the lines each
of them drives have changed since the monitor of the other last looked. -/
structure Cable where
  ends : Side → Port
  moved : Side → Bool := fun _ => false

/-- A turn of the cable: something happens at an end, or the peer's monitor looks at lines that
have changed. -/
inductive CableTurn
  | port (x : Side) (input : PortInput)
  | sample (x : Side)

namespace Port

/-- The levels the peer sees; a line that was never driven is low. -/
def wire (p : Port) : Levels := p.driver.lines.getD (false, false)

def bringUp : List PortInput := [.start, .started, .monitor]

end Port

namespace Cable

def setPort (c : Cable) (x : Side) (p : Port) : Cable :=
  { ends := Function.update c.ends x p
    moved := Function.update c.moved x (c.moved x || decide (p.wire ≠ (c.ends x).wire)) }

def step (c : Cable) : CableTurn → Cable
  | .port x input => c.setPort x ((c.ends x).step input)
  | .sample x =>
    if c.moved x then
      let heard := (c.ends x.peer).step (.line (some (c.ends x).wire.1))
      { ends := Function.update c.ends x.peer heard
        moved := Function.update c.moved x false }
    else c

def new (cfg : Side → LinkConfig) : Except Exn Cable :=
  match Port.new (cfg .a), Port.new (cfg .b) with
  | .ok a, .ok b => .ok { ends := fun | .a => a | .b => b }
  | .error err, _ => .error err
  | _, .error err => .error err

def bringUp : List CableTurn := Port.bringUp.map (.port .a) ++ Port.bringUp.map (.port .b)

def start (cfg : Side → LinkConfig) : Except Exn Cable :=
  (new cfg).map fun c => run step c bringUp

/-- What happens while both links are up: the lines change by their drivers alone, and a
driver does not drive its next bit before the last one has been seen. -/
def Paced (c : Cable) : CableTurn → Prop
  | .port _ (.line _) => False
  | .port x .driver => c.moved x = false
  | .port _ input => input.isLifecycle = false
  | .sample _ => True

instance (c : Cable) : ∀ t, Decidable (Paced c t)
  | .port _ (.line _) => isFalse id
  | .port x .driver => inferInstanceAs (Decidable (c.moved x = false))
  | .port _ .start | .port _ .started | .port _ .stop => inferInstanceAs (Decidable (_ = false))
  | .port _ (.call _) | .port _ .txLoop => inferInstanceAs (Decidable (_ = false))
  | .port _ .watchdog => inferInstanceAs (Decidable (_ = false))
  | .port _ .monitor | .port _ .timeout => inferInstanceAs (Decidable (_ = false))
  | .sample _ => isTrue trivial

/-- The bits `x` has handed to its driver and its peer has not heard, oldest first. -/
def bits (c : Cable) (x : Side) : List Bool :=
  (if c.moved x then [(c.ends x).wire.1] else []) ++ (c.ends x).driver.queue

/-- Neither end has re-entered ErrorReset. -/
def Undropped (c : Cable) : Prop := ∀ x, (c.ends x).link.errorResetCount = 0

def period : List CableTurn :=
  [.port .a .driver, .port .b .driver, .port .a .txLoop, .port .b .txLoop, .sample .a, .sample .b]

def exchange (n : Nat) : List CableTurn :=
  [.port .a (.call (.expire ⟨tick6p4Ns, .tick6p4us, 1⟩)),
    .port .b (.call (.expire ⟨tick6p4Ns, .tick6p4us, 1⟩)),
    .port .a (.call (.expire ⟨tick12p8Ns, .tick12p8us, 3⟩)),
    .port .b (.call (.expire ⟨tick12p8Ns, .tick12p8us, 3⟩)),
    .port .a .txLoop, .port .b .txLoop] ++ (List.replicate n period).flatten

/-- A handshake, the FCTs that follow it, and a packet of one byte. -/
def onePacket : List CableTurn :=
  .port .a (.call (.sendPacket [5] "EOP")) :: exchange 66 ++
    [.port .b (.call .recvPacket), .port .b (.call .recvPacket)]

section fields

variable (c : Cable) (x : Side) (p : Port)

@[simp] theorem setPort_ends : (c.setPort x p).ends x = p := by simp [setPort]

@[simp] theorem setPort_ends_peer : (c.setPort x p).ends x.peer = c.ends x.peer := by
  simp [setPort]

@[simp] theorem setPort_bits_peer : (c.setPort x p).bits x.peer = c.bits x.peer := by
  simp [bits, setPort]

end fields

end Cable

theorem Port.run_bringUp {cfg : LinkConfig} {p : Port} (h : Port.new cfg = .ok p) :
    ∃ q, Endpoint.start cfg = .ok q ∧ run Port.step p bringUp =
        { endpoint := q
          driver := { lines := some (false, false), prevD := false, s := false,
                      task := some .created }
          monitor := { callbacks := [.feedBit], task := some .receiving }
          txTask := true
          disconnectTask := true } ∧
      Always Port.step (fun p => p.wire = (false, false)) p bringUp := by
  obtain ⟨link, hlink, rfl⟩ := Port.new_ok h
  obtain ⟨-, -, -, -, hs⟩ := new_idle hlink
  refine ⟨{ link := { link with started := true }.arm }, ?_, ?_, ?_⟩
  · simp only [Endpoint.start, hlink, SpaceWireLink.start_eq_arm, hs]
    rfl
  · simp [run, bringUp, Port.step, Port.start, Port.started, Port.link, Port.setLink, hs,
      SpaceWireDriver.start, driveLevels, SpaceWireMonitor.start, SpaceWireMonitor.onBit,
      SpaceWireMonitor.resume]
  · simp [bringUp, always_cons, always_nil, Port.wire, Port.step, Port.start, Port.started,
      Port.link, Port.setLink, hs, SpaceWireDriver.start, driveLevels, SpaceWireMonitor.start,
      SpaceWireMonitor.onBit, SpaceWireMonitor.resume]

namespace Cable

theorem run_port {c : Cable} {x : Side} {is : List PortInput}
    (h : Always Port.step (fun p => p.wire = (c.ends x).wire) (c.ends x) is) :
    run step c (is.map (.port x)) =
      { c with ends := Function.update c.ends x (run Port.step (c.ends x) is) } := by
  induction is generalizing c with
  | nil => simp
  | cons i is ih =>
    obtain ⟨-, hrest⟩ := always_cons.mp h
    have hmoved : c.step (.port x i) =
        { c with ends := Function.update c.ends x ((c.ends x).step i) } := by
      simp [step, setPort, hrest.head]
    rw [List.map_cons, run_cons, run_cons, hmoved, ih]
    · simp
    · simpa [hrest.head] using hrest

theorem new_ok {cfg : Side → LinkConfig} {c : Cable} (h : new cfg = .ok c) :
    (∀ x, Port.new (cfg x) = .ok (c.ends x)) ∧ c.moved = fun _ => false := by
  unfold new at h
  split at h
  · rename_i a b ha hb
    cases h
    exact ⟨fun x => by cases x <;> assumption, rfl⟩
  · cases h
  · cases h

theorem start_ok {cfg : Side → LinkConfig} {c : Cable} (h : start cfg = .ok c) :
    (∀ x, ∃ p, Port.new (cfg x) = .ok p ∧ c.ends x = run Port.step p Port.bringUp) ∧
      c.moved = fun _ => false := by
  unfold start at h
  cases hnew : new cfg with
  | error err =>
    rw [hnew] at h
    cases h
  | ok c0 =>
    rw [hnew] at h
    cases h
    obtain ⟨hports, hmoved⟩ := new_ok hnew
    have hquiet (x : Side) :
        Always Port.step (fun p => p.wire = (c0.ends x).wire) (c0.ends x) Port.bringUp := by
      obtain ⟨-, -, -, hwire⟩ := Port.run_bringUp (hports x)
      rw [hwire.head]
      exact hwire
    dsimp only
    rw [bringUp, run_append, run_port (hquiet .a), run_port]
    · refine ⟨fun x => ⟨c0.ends x, hports x, ?_⟩, hmoved⟩
      cases x <;> simp
    · simpa using hquiet .b

end Cable

theorem SpaceWireLink.feedBit_cases (l : SpaceWireLink) (bit : Bool) :
    (l.decoder.feed bit).2 = [] ∧ l.feedBit bit = { l with decoder := (l.decoder.feed bit).1 } ∨
      ∃ ch, (l.decoder.feed bit).2 = [ch] ∧
        l.feedBit bit =
          ({ l with decoder := (l.decoder.feed bit).1 } : SpaceWireLink).rxCharacter ch := by
  have hlen := l.decoder.feed_length bit
  cases hfeed : (l.decoder.feed bit).2 with
  | nil => exact .inl ⟨rfl, by simp only [feedBit, hfeed, List.foldl_nil]⟩
  | cons ch rest =>
    rw [hfeed] at hlen
    obtain rfl : rest = [] := by simpa using hlen
    exact .inr ⟨ch, rfl, by simp only [feedBit, hfeed, List.foldl_cons, List.foldl_nil]⟩

namespace Decoder

theorem resolvePrimitive_data (d : Decoder) {c₀ : Character}
    (h : c₀.type = .data → ∃ b : Nat, b < 256 ∧ c₀.value = some (b : Int)) :
    ∀ c ∈ (d.resolvePrimitive c₀).2,
      c.type = .data → ∃ b : Nat, b < 256 ∧ c.value = some (b : Int) := by
  intro c hc ht
  unfold resolvePrimitive at hc
  split at hc
  · split at hc
    · cases hc
    · obtain rfl := List.mem_singleton.mp hc
      exact h ht
  · dsimp only at hc
    split at hc
    · obtain rfl := List.mem_singleton.mp hc
      cases ht
    · obtain rfl := List.mem_singleton.mp hc
      unfold decodeEscapedData at ht
      dsimp only at ht
      repeat' split at ht
      all_goals cases ht
    · rename_i hdata
      obtain rfl := List.mem_singleton.mp hc
      exact absurd ht hdata

theorem parsePrimitive_data (d : Decoder) (raw : List Bool) :
    (d.parsePrimitive raw).2.type = .data →
      ∃ b : Nat, b < 256 ∧ (d.parsePrimitive raw).2.value = some (b : Int) := by
  unfold parsePrimitive
  dsimp only
  cases raw.getD 1 false with
  | true =>
    intro ht
    exact absurd ht (controlTypeByBits_ne_data _)
  | false =>
    intro _
    exact ⟨_, lsbBitsToNat_lt (List.length_take_le 8 _), rfl⟩

theorem feed_data (d : Decoder) (bit : Bool) :
    ∀ c ∈ (d.feed bit).2, c.type = .data → ∃ b : Nat, b < 256 ∧ c.value = some (b : Int) := by
  unfold feed
  dsimp only
  split
  · simp
  · split
    · simp
    · exact resolvePrimitive_data _ (parsePrimitive_data _ _)

end Decoder

/-- A bit from the line, whatever it is, completes no character or is heard as noise is. -/
theorem SpaceWireLink.charLevel_feedBit (l : SpaceWireLink) (bit : Bool) :
    (l.feedBit bit).charLevel = l.charLevel ∨
      ∃ n : Noise, (l.feedBit bit).charLevel = l.charLevel.rxCharacter n.heard := by
  obtain ⟨-, heq⟩ | ⟨c, hc, heq⟩ := l.feedBit_cases bit
  · rw [heq]
    exact .inl rfl
  · rw [heq]
    exact .inr (charLevel_noise _ (l.decoder.feed_data bit c (by simp [hc])))

def TxLoop.bits : TxLoop → List Bool
  | .sending _ _ bits => bits
  | _ => []

/-- A link that is up: its monitor listens, its driver's lines are at the driver's levels, and
the transmit coroutine is not between a driven character and its report. -/
structure Up (p : Port) : Prop where
  receiving : p.monitor.task = some .receiving
  callbacks : p.monitor.callbacks = [.feedBit]
  patient : p.monitor.raiseOnDisconnect = false
  lines : p.driver.lines = some p.driver.levels
  regular : Regular p.endpoint
  queued : NCharsQueued p.link
  handed : Handed p
  between : ∀ c b, p.endpoint.txLoop ≠ .driven c b

namespace Port

variable {p : Port}

theorem wire_of_up (h : Up p) : p.wire = p.driver.levels := by
  rw [wire, h.lines, Option.getD_some]

theorem sendBits_spec (p : Port) : ∃ driver txWait, p.sendBits = { p with driver, txWait } ∧
    Queues p.driver p.endpoint.txLoop.bits driver := by
  unfold sendBits
  cases htx : p.endpoint.txLoop with
  | top | parked | driven | dead => exact ⟨p.driver, p.txWait, rfl, .refl p.driver⟩
  | sending c b bits =>
    obtain ⟨err, hbad, -⟩ | ⟨bs, driver, txWait, hbits, hsend, hqueues, -⟩ :=
      p.driver.sendBitsAndWait_spec (bits.map bitValue)
    · rw [normalizeBits_map_bitValue] at hbad
      cases hbad
    · rw [normalizeBits_map_bitValue] at hbits
      cases hbits
      exact ⟨driver, txWait, by simp only [hsend], hqueues⟩

theorem txTop_spec (p : Port) : ∃ driver txWait,
    p.txTop = { p with endpoint := p.endpoint.stepTxLoop, driver, txWait } ∧
      Queues p.driver p.endpoint.stepTxLoop.txLoop.bits driver :=
  ({ p with endpoint := p.endpoint.stepTxLoop } : Port).sendBits_spec

/-- What the transmit coroutine does in a turn, when what it waits for has come. -/
inductive TxMoved (p : Port) : Port → Prop
  | idle : TxMoved p p
  | top (htop : p.endpoint.txLoop = .top) : TxMoved p p.txTop
  | wake (hparked : p.endpoint.txLoop = .parked) (hw : p.link.txWakeup = true) :
      TxMoved p ({ p with endpoint := p.endpoint.stepTxLoop } : Port).txTop
  | report {ch : Character} {b : Bool} {bs : List Bool}
      (hsending : p.endpoint.txLoop = .sending ch b bs) (hdriven : p.bitsDriven = true) :
      TxMoved p ({ p with endpoint := p.endpoint.stepTxLoop.stepTxLoop } : Port).txTop

theorem txTurn_moved (p : Port) : TxMoved p p.txTurn := by
  unfold txTurn
  split
  · cases htx : p.endpoint.txLoop with
    | top => exact .top htx
    | parked =>
      dsimp only
      split
      · exact .wake htx ‹_›
      · exact .idle
    | sending ch b bs =>
      dsimp only
      split
      · exact .report htx ‹_›
      · exact .idle
    | driven | dead => exact .idle
  · exact .idle

end Port

namespace Up

variable {p p' : Port}

theorem between_top {q : Endpoint} (htop : q.txLoop = .top) (c : Character) (b : Bool) :
    q.stepTxLoop.txLoop ≠ .driven c b := by
  obtain ⟨-, heq⟩ | ⟨-, l, d, b', e, -, ⟨bits, heq⟩ | ⟨-, heq⟩⟩ := Endpoint.stepTxLoop_top htop <;>
    simp [heq]

theorem setEndpoint (h : Up p) {q : Endpoint} (hregular : Regular q) (hqueued : NCharsQueued q.link)
    (hhanded : Handed { p with endpoint := q }) (hbetween : ∀ c b, q.txLoop ≠ .driven c b) :
    Up { p with endpoint := q } :=
  ⟨h.receiving, h.callbacks, h.patient, h.lines, hregular, hqueued, hhanded, hbetween⟩

theorem act (h : Up p) {a : Action} (ha : a ≠ .txLoop) :
    Up { p with endpoint := p.endpoint.act a } := by
  have htx := (act_txLoop (p := p.endpoint) ha).1
  refine h.setEndpoint h.regular.act (h.queued.act a) (h.handed.frame rfl rfl htx) ?_
  rw [htx]
  exact h.between

theorem top (h : Up p) {q : Endpoint} (hregular : Regular q) (hqueued : NCharsQueued q.link)
    (htop : q.txLoop = .top) : Up { p with endpoint := q } := by
  refine h.setEndpoint hregular hqueued ⟨h.handed.issued, h.handed.counted, ?_⟩ ?_
  · intro c b bits htx
    rw [htop] at htx
    cases htx
  · simp [htop]

theorem txTop (h : Up p) (htop : p.endpoint.txLoop = .top) : Up p.txTop := by
  have hhanded := handed_txTop h.handed.issued h.handed.counted htop
  obtain ⟨driver, txWait, heq, hqueues⟩ := p.txTop_spec
  rw [heq] at hhanded ⊢
  refine ⟨h.receiving, h.callbacks, h.patient, ?_, h.regular.txLoop, h.queued.act .txLoop, hhanded,
    between_top htop⟩
  rw [hqueues.lines, hqueues.levels]
  exact h.lines

theorem resume (h : Up p) : Up { p with driver := p.driver.resume } := by
  refine ⟨h.receiving, h.callbacks, h.patient, ?_, h.regular, h.queued, h.handed.resume, h.between⟩
  obtain ⟨hqueues, -⟩ | ⟨-, bit, hdrives⟩ := p.driver.resume_spec
  · rw [hqueues.lines, hqueues.levels]
    exact h.lines
  · rw [hdrives.lines, hdrives.levels]

theorem listen (h : Up p) {m : SpaceWireMonitor LineCallback}
    (ht : m.task = some .receiving) (hc : m.callbacks = p.monitor.callbacks)
    (hr : m.raiseOnDisconnect = p.monitor.raiseOnDisconnect) : Up { p with monitor := m } :=
  ⟨ht, hc.trans h.callbacks, hr.trans h.patient, h.lines, h.regular, h.queued,
    h.handed.frame rfl rfl rfl, h.between⟩

theorem step_line (h : Up p) (bit : Bool) : p.step (.line (some bit)) =
    { p with
      monitor := { p.monitor with
        disconnected := false, queue := p.monitor.queue ++ [bit], bitAvailable := true }
      endpoint := p.endpoint.rxBit bit } := by
  simp [Port.step, Port.lineBit, SpaceWireMonitor.edge, h.receiving, h.callbacks]

theorem hear (h : Up p) (bit : Bool) : Up (p.step (.line (some bit))) := by
  have hheard : Regular (p.endpoint.rxBit bit) ∧ NCharsQueued (p.endpoint.rxBit bit).link := by
    obtain ⟨-, heq⟩ | ⟨ch, -, heq⟩ := p.endpoint.link.feedBit_cases bit
    · rw [Endpoint.rxBit, heq]
      exact ⟨⟨h.regular.queued, h.regular.underWay⟩, h.queued⟩
    · rw [Endpoint.rxBit, heq]
      let q : Endpoint := { p.endpoint with
        link := { p.endpoint.link with decoder := (p.endpoint.link.decoder.feed bit).1 } }
      have hq : Regular q := ⟨h.regular.queued, h.regular.underWay⟩
      have hn : NCharsQueued q.link := h.queued
      exact ⟨hq.rxCharacter ch, hn.rxCharacter ch⟩
  rw [h.step_line]
  exact (h.listen (m := { p.monitor with
      disconnected := false, queue := p.monitor.queue ++ [bit], bitAvailable := true })
    h.receiving rfl rfl).setEndpoint hheard.1 hheard.2 (h.handed.frame rfl rfl rfl) h.between

end Up

end SpaceWire
