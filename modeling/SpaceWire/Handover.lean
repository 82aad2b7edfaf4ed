import SpaceWire.Senders
import SpaceWire.Traffic
import SpaceWire.Port

namespace SpaceWire

open DataStrobe Run Waiting

namespace Encoder

variable {e e' : Encoder} {bits : List Bool} {v : Int} {c : Character}

theorem encodePrimitive_ne_nil (e : Encoder) (dcFlag : Bool) (content : List Bool) :
    (e.encodePrimitive dcFlag content).2 ≠ [] := by
  simp [encodePrimitive]

theorem encodeData_ne_nil (h : e.encodeData v = (e', .ok bits)) : bits ≠ [] := by
  unfold encodeData at h
  split at h
  · cases h
  · cases h
    exact encodePrimitive_ne_nil e false _

theorem encodeEscaped_ne_nil (h : e.encodeEscaped v = (e', .ok bits)) : bits ≠ [] := by
  simp only [encodeEscaped, Prod.mk.injEq] at h
  cases hdata : ((e.encodeControl .esc).1.encodeData v).2 with
  | error err =>
    rw [hdata] at h
    cases h.2
  | ok rest =>
    rw [hdata] at h
    cases h.2
    simp [encodeControl, encodePrimitive]

theorem encode_ne_nil (h : e.encode c = (e', .ok bits)) : bits ≠ [] := by
  cases htype : c.type with
  | fct | eop | eep | esc =>
    simp only [encode, htype] at h
    cases h
    exact encodePrimitive_ne_nil e true _
  | null =>
    simp only [encode, htype] at h
    cases h
    exact List.append_ne_nil_of_left_ne_nil (encodePrimitive_ne_nil e true _) _
  | data =>
    simp only [encode, htype] at h
    cases hvalue : c.value with
    | none =>
      rw [hvalue] at h
      cases h
    | some value =>
      rw [hvalue] at h
      exact encodeData_ne_nil h
  | timecode | broadcast =>
    simp only [encode, htype] at h
    split at h
    · exact encodeEscaped_ne_nil h
    · split at h
      · cases h
      · exact encodeEscaped_ne_nil h

end Encoder

namespace Handover

/-- The transmit coroutine waits for all the bits that have been handed to the driver. -/
structure Handed (q : Port) : Prop where
  issued : q.driver.waiters.Issued
  counted : q.driver.drivenBits + q.driver.queue.length = q.driver.enqueuedBits
  waiting : ∀ char wasNchar bits, q.endpoint.txLoop = .sending char wasNchar bits →
    ∃ event, q.txWait = some event ∧ q.driver.waiters.Tracks q.driver.enqueuedBits event

variable {q : Port} {i : PortInput}

/-- When it is released, every bit that was handed to the driver has been driven. -/
theorem Handed.driven (h : Handed q) {char : Character} {wasNchar : Bool} {bits : List Bool}
    (htx : q.endpoint.txLoop = .sending char wasNchar bits) (hdriven : q.bitsDriven = true) :
    q.driver.queue = [] ∧ q.driver.drivenBits = q.driver.enqueuedBits := by
  obtain ⟨event, hwait, htracks⟩ := h.waiting char wasNchar bits htx
  have hcounted := h.counted
  have hset : event ∈ q.driver.setEvents := by simpa [Port.bitsDriven, hwait] using hdriven
  have hle : q.driver.enqueuedBits ≤ q.driver.drivenBits := htracks.released_iff.mp hset
  refine ⟨List.length_eq_zero_iff.mp ?_, ?_⟩ <;> omega

theorem Handed.resume (h : Handed q) : Handed { q with driver := q.driver.resume } := by
  have hmoves := q.driver.resume_waiters
  have hbits := q.driver.resume_enqueuedBits
  refine ⟨h.issued.moves hmoves, ?_, ?_⟩
  · have hcounted := h.counted
    dsimp only
    rw [hbits, ← hcounted]
    obtain ⟨hqueues, -⟩ | ⟨-, bit, hdrives⟩ := q.driver.resume_spec
    · rw [hqueues.queue, hqueues.drivenBits, List.append_nil]
    · rw [hdrives.queue, hdrives.drivenBits, List.length_cons, Nat.add_right_comm,
        Nat.add_assoc]
  · intro char wasNchar bits htx
    obtain ⟨event, hwait, htracks⟩ := h.waiting char wasNchar bits htx
    refine ⟨event, hwait, ?_⟩
    dsimp only
    rw [hbits]
    exact htracks.moves hmoves

theorem sendBitsAndWait_tracks {d : SpaceWireDriver} (hissued : d.waiters.Issued)
    (hcounted : d.drivenBits + d.queue.length = d.enqueuedBits) (b : Bool) (bs : List Bool) :
    ∃ d', d.sendBitsAndWait ((b :: bs).map bitValue) = .ok (d', some d.events) ∧
      d'.waiters.Issued ∧ d'.drivenBits + d'.queue.length = d'.enqueuedBits ∧
      d'.waiters.Tracks d'.enqueuedBits d.events := by
  have hbits := SpaceWireDriver.normalizeBits_map_bitValue (b :: bs)
  obtain ⟨d', hsend, hwaiters⟩ := SpaceWireDriver.sendBitsAndWait_registers hbits
    (by omega : d.drivenBits ≤ d.enqueuedBits)
  have hcount := SpaceWireDriver.sendBitsAndWait_enqueuedBits hsend
  rw [List.length_map] at hcount
  refine ⟨d', hsend, ?_, ?_, ?_⟩
  · rw [hwaiters]
    exact hissued.moves (.registers _)
  · obtain ⟨err, hbad, -⟩ | ⟨cs, d'', w, hok, heq, hqueues, -⟩ :=
      d.sendBitsAndWait_spec ((b :: bs).map bitValue)
    · rw [hbits] at hbad
      cases hbad
    · rw [hbits] at hok
      rw [hsend] at heq
      cases hok
      cases heq
      rw [hcount, hqueues.queue, hqueues.drivenBits, List.length_append]
      omega
  · have hbelow : d.waiters.count < d.enqueuedBits + (bs.length + 1) := by
      simp only [SpaceWireDriver.waiters]
      omega
    rw [hwaiters, hcount]
    exact hissued.tracks hbelow

theorem handed_txTop (hissued : q.driver.waiters.Issued)
    (hcounted : q.driver.drivenBits + q.driver.queue.length = q.driver.enqueuedBits)
    (htop : q.endpoint.txLoop = .top) : Handed q.txTop := by
  have hidle (htx : ∀ c b bits, q.endpoint.stepTxLoop.txLoop ≠ .sending c b bits) :
      Handed q.txTop := by
    have hsame : q.txTop = { q with endpoint := q.endpoint.stepTxLoop } := by
      simp only [Port.txTop, Port.sendBits]
    rw [hsame]
    exact ⟨hissued, hcounted, fun c b bits h => absurd h (htx c b bits)⟩
  cases htx : q.endpoint.stepTxLoop.txLoop with
  | top | parked | driven | dead => exact hidle (by simp [htx])
  | sending char wasNchar bits =>
    obtain ⟨e, e', henc⟩ := Endpoint.stepTxLoop_sending htop htx
    obtain ⟨b, bs, rfl⟩ := List.exists_cons_of_ne_nil (Encoder.encode_ne_nil henc)
    obtain ⟨d, hsend, hissued', hcounted', htracks⟩ :=
      sendBitsAndWait_tracks hissued hcounted b bs
    have htop' : q.txTop =
        { q with endpoint := q.endpoint.stepTxLoop, driver := d,
                 txWait := some q.driver.events } := by
      simp only [Port.txTop, Port.sendBits, htx, hsend]
    rw [htop']
    exact ⟨hissued', hcounted', fun _ _ _ _ => ⟨_, rfl, htracks⟩⟩

theorem Handed.txTurn (h : Handed q) : Handed q.txTurn := by
  simp only [Port.txTurn]
  split
  · cases htx : q.endpoint.txLoop with
    | top => exact handed_txTop h.issued h.counted htx
    | parked =>
      dsimp only
      split
      · rename_i hw
        have hw' : q.endpoint.link.txWakeup = true := hw
        exact handed_txTop h.issued h.counted (by simp [Endpoint.stepTxLoop, htx, hw'])
      · exact h
    | sending char wasNchar bits =>
      dsimp only
      split
      · exact handed_txTop h.issued h.counted (by simp [Endpoint.stepTxLoop, htx])
      · exact h
    | driven | dead => exact h
  · exact h

theorem step_txLoop (q : Port) (hl : i.isLifecycle = false) (hi : i ≠ .txLoop) :
    (q.step i).endpoint.txLoop = q.endpoint.txLoop := by
  cases i with
  | start | started | stop => cases hl
  | call action =>
    simp only [Port.step]
    split
    · have hne : action ≠ .txLoop := by
        rintro rfl
        cases ‹Action.isCall _ = true›
      exact (Traffic.act_txLoop hne).1
    · rfl
  | txLoop => exact absurd rfl hi
  | watchdog =>
    simp only [Port.step]
    split <;> rfl
  | driver | monitor | timeout => rfl
  | line di =>
    rw [show (q.step (.line di)).endpoint = _ from q.lineBit_endpoint di]
    apply run_keeps (I := fun p : Endpoint => p.txLoop = q.endpoint.txLoop) rfl
    intro p j hj hp
    obtain ⟨x, -, rfl⟩ := List.mem_map.mp hj
    exact hp

theorem step_driver (q : Port) (hl : i.isLifecycle = false) (hi : i ≠ .txLoop)
    (hd : i ≠ .driver) : (q.step i).driver = q.driver ∧ (q.step i).txWait = q.txWait := by
  cases i with
  | start | started | stop => cases hl
  | txLoop => exact absurd rfl hi
  | driver => exact absurd rfl hd
  | call | watchdog =>
    simp only [Port.step]
    split <;> exact ⟨rfl, rfl⟩
  | monitor | line | timeout => exact ⟨rfl, rfl⟩

theorem Handed.frame {q' : Port} (h : Handed q)
    (hdriver : (q'.driver.waiters, q'.driver.drivenBits, q'.driver.queue, q'.driver.enqueuedBits) =
      (q.driver.waiters, q.driver.drivenBits, q.driver.queue, q.driver.enqueuedBits))
    (hwait : q'.txWait = q.txWait) (htx : q'.endpoint.txLoop = q.endpoint.txLoop) : Handed q' := by
  simp only [Prod.mk.injEq] at hdriver
  obtain ⟨h1, h2, h3, h4⟩ := hdriver
  refine ⟨h1 ▸ h.issued, ?_, ?_⟩
  · rw [h2, h3, h4]
    exact h.counted
  · rw [htx, hwait, h1, h4]
    exact h.waiting

theorem Handed.quiet (h : Handed q) (hl : i.isLifecycle = false) (hi : i ≠ .txLoop)
    (hd : i ≠ .driver) : Handed (q.step i) := by
  obtain ⟨hdriver, hwait⟩ := step_driver q hl hi hd
  exact h.frame (by rw [hdriver]) hwait (step_txLoop q hl hi)

theorem Handed.step (h : Handed q) (i : PortInput) : Handed (q.step i) := by
  cases i with
  | start =>
    obtain ⟨-, heq⟩ | ⟨-, -, heq⟩ | ⟨-, -, heq⟩ := q.step_start_cases <;> rw [heq]
    · exact h
    · exact h.frame rfl rfl rfl
    · exact h.frame rfl rfl rfl
  | started =>
    obtain ⟨-, heq⟩ | ⟨-, -, heq⟩ | ⟨-, -, heq⟩ := q.step_started_cases <;> rw [heq]
    · exact h
    · exact h.frame rfl rfl rfl
    · refine ⟨h.issued, h.counted, fun _ _ _ htx => ?_⟩
      cases htx
  | stop => exact h.frame rfl rfl rfl
  | txLoop => exact h.txTurn
  | driver => exact h.resume
  | call | watchdog | monitor | line | timeout => exact h.quiet rfl (by simp) (by simp)

theorem handed_new {cfg : LinkConfig} {p : Port} (h : Port.new cfg = .ok p) : Handed p := by
  obtain ⟨link, -, rfl⟩ := Port.new_ok h
  refine ⟨⟨?_, ?_⟩, rfl, fun _ _ _ htx => ?_⟩
  · simp [SpaceWireDriver.waiters]
  · simp [SpaceWireDriver.waiters]
  · cases htx

theorem handed_run {cfg : LinkConfig} {p : Port} (h : Port.new cfg = .ok p)
    (is : List PortInput) : Handed (run Port.step p is) :=
  run_keeps (handed_new h) fun _ i _ hq => hq.step i

end Handover

end SpaceWire
