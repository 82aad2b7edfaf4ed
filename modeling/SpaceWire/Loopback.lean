import SpaceWire.Driver
import SpaceWire.Monitor
import SpaceWire.Run

namespace SpaceWire

open DataStrobe Run

/-- A driver whose lines a monitor listens to, the levels after each change of the lines since
they are defined, and the bits the monitor has returned. -/
structure Loopback (κ : Type) where
  driver : SpaceWireDriver
  monitor : SpaceWireMonitor κ
  wire : List Levels := []
  returned : List Bool := []

namespace Loopback

variable {κ : Type}

inductive Act (κ : Type)
  | start
  | stop
  | sendBits (bits : List Int)
  | sendBitsAndWait (bits : List Int)
  | txTurn
  | monitorStart
  | monitorStop
  | onBit (cb : κ)
  | rxTurn
  | recvBit
  | timeout

/-- The driver has moved on: a change of its lines wakes the monitor once. -/
def drive (l : Loopback κ) (driver : SpaceWireDriver) : Loopback κ :=
  if driver.lines = l.driver.lines then { l with driver }
  else
    { l with driver
             monitor := (l.monitor.edge (driver.lines.map Prod.fst)).1
             wire := if l.driver.lines.isSome then l.wire ++ driver.lines.toList else l.wire }

def step (l : Loopback κ) : Act κ → Loopback κ
  | .start => l.drive (l.driver.start.toOption.getD l.driver)
  | .stop => l.drive l.driver.stop
  | .sendBits bits => l.drive ((l.driver.sendBits bits).toOption.getD l.driver)
  | .sendBitsAndWait bits =>
    l.drive (((l.driver.sendBitsAndWait bits).toOption.map Prod.fst).getD l.driver)
  | .txTurn => l.drive l.driver.resume
  | .monitorStart => { l with monitor := l.monitor.start.toOption.getD l.monitor }
  | .monitorStop => { l with monitor := l.monitor.stop }
  | .onBit cb => { l with monitor := l.monitor.onBit cb }
  | .rxTurn => { l with monitor := l.monitor.resume }
  | .recvBit =>
    let (monitor, bit) := l.monitor.recvBit
    { l with monitor, returned := l.returned ++ bit.toList }
  | .timeout => { l with monitor := l.monitor.timeout }

/-- The bits a call hands to the driver: all of them, or none when it raises. -/
def Act.accepted : Act κ → List Int
  | .sendBits bits | .sendBitsAndWait bits =>
    if (SpaceWireDriver.normalizeBits bits).toOption.isSome then bits else []
  | _ => []

/-- Calls and timeouts that leave the receive coroutine running. -/
def Act.listens (raiseOnDisconnect : Bool) : Act κ → Bool
  | .monitorStop => false
  | .timeout => !raiseOnDisconnect
  | _ => true

def heard (l : Loopback κ) : List Bool := l.returned ++ l.monitor.queue

/-- What a run has driven and what is left, after the bits `bs` have been accepted by a driver
that began with the levels `v`. -/
structure Sent (v : Levels) (bs : List Bool) (l : Loopback κ) : Prop where
  drivenBits : l.driver.drivenBits ≤ bs.length
  queue : l.driver.queue = bs.drop l.driver.drivenBits
  levels : l.driver.levels = final v (bs.take l.driver.drivenBits)
  wire : l.wire = wave v (bs.take l.driver.drivenBits)
  lines : l.driver.lines = some l.driver.levels ∨
    l.driver.lines = none ∧ l.driver.task = none ∧ l.driver.drivenBits = 0

variable {v : Levels} {bs : List Bool} {l : Loopback κ} {d : SpaceWireDriver}

theorem drive_quiet (h : d.lines = l.driver.lines) : l.drive d = { l with driver := d } :=
  if_pos h

@[simp] theorem drive_driver (l : Loopback κ) (d : SpaceWireDriver) : (l.drive d).driver = d := by
  unfold drive
  split <;> rfl

namespace Sent

theorem frame (h : Sent v bs l) {l' : Loopback κ} (hd : l'.driver = l.driver)
    (hw : l'.wire = l.wire) : Sent v bs l' := by
  obtain ⟨h1, h2, h3, h4, h5⟩ := h
  rw [← hd] at h1 h2 h3 h4 h5
  exact ⟨h1, h2, h3, hw.trans h4, h5⟩

theorem queues (h : Sent v bs l) {cs : List Bool} (hq : SpaceWireDriver.Queues l.driver cs d)
    (ht : d.task.isSome → l.driver.task.isSome) : Sent v (bs ++ cs) (l.drive d) := by
  have htake : (bs ++ cs).take l.driver.drivenBits = bs.take l.driver.drivenBits :=
    List.take_append_of_le_length h.drivenBits
  rw [drive_quiet hq.lines]
  refine ⟨?_, ?_, ?_, ?_, ?_⟩
  · rw [List.length_append]
    exact hq.drivenBits.trans_le (h.drivenBits.trans (Nat.le_add_right _ _))
  · rw [hq.queue, hq.drivenBits, h.queue, List.drop_append_of_le_length h.drivenBits]
  · rw [hq.levels, hq.drivenBits, htake, h.levels]
  · rw [hq.drivenBits, htake, h.wire]
  · rw [hq.lines, hq.levels, hq.drivenBits]
    refine h.lines.imp id fun ⟨hnone, htask, hn⟩ => ⟨hnone, ?_, hn⟩
    rw [htask] at ht
    simpa using ht

theorem drives (h : Sent v bs l) {bit : Bool} (hd : SpaceWireDriver.Drives l.driver d bit)
    (ht : l.driver.task.isSome) : Sent v bs (l.drive d) ∧
      l.driver.lines = some l.driver.levels ∧ (l.drive d).wire = l.wire ++ [d.levels] := by
  have hlines : l.driver.lines = some l.driver.levels := by
    refine h.lines.resolve_right fun ⟨_, hnone, _⟩ => ?_
    rw [hnone] at ht
    cases ht
  have hmoved : d.lines ≠ l.driver.lines := by
    rw [hd.lines, hlines]
    exact fun heq => (next_oneChanges l.driver.levels bit).ne (Option.some.inj heq)
  have hbit : bs.drop l.driver.drivenBits = bit :: d.queue := by rw [← h.queue, hd.queue]
  have hlt : l.driver.drivenBits < bs.length := by
    by_contra hge
    rw [List.drop_eq_nil_of_le (by omega)] at hbit
    cases hbit
  have hget : bs[l.driver.drivenBits] = bit := by
    rw [List.drop_eq_getElem_cons hlt] at hbit
    exact (List.cons.inj hbit).1
  have htake : bs.take (l.driver.drivenBits + 1) = bs.take l.driver.drivenBits ++ [bit] := by
    rw [List.take_succ_eq_append_getElem hlt, hget]
  have hwire : (l.drive d).wire = l.wire ++ [d.levels] := by
    simp only [drive, if_neg hmoved]
    rw [hlines, hd.lines, hd.levels]
    rfl
  refine ⟨⟨?_, ?_, ?_, ?_, ?_⟩, hlines, hwire⟩
  · rw [drive_driver, hd.drivenBits]
    exact hlt
  · rw [drive_driver, hd.drivenBits, ← List.tail_drop, hbit, List.tail_cons]
  · rw [drive_driver, hd.drivenBits, htake, final_concat, ← h.levels, hd.levels]
  · rw [hwire, drive_driver, hd.drivenBits, htake, wave_concat, ← h.levels, ← h.wire, hd.levels]
  · left
    rw [drive_driver, hd.lines, hd.levels]

theorem start (h : Sent v bs l) (hstart : l.driver.start = .ok d) : Sent v bs (l.drive d) := by
  obtain ⟨htask, rfl⟩ := SpaceWireDriver.start_spec hstart
  have hwire : (l.drive { l.driver with
      lines := some l.driver.levels, task := some .created }).wire = l.wire := by
    unfold drive
    split
    · rfl
    · rename_i hne
      have hnone : l.driver.lines = none := (h.lines.resolve_left fun heq => hne heq.symm).1
      simp [hnone]
  refine ⟨?_, ?_, ?_, ?_, ?_⟩
  · simpa using h.drivenBits
  · simpa using h.queue
  · rw [drive_driver]
    exact h.levels
  · simpa [hwire] using h.wire
  · simp [SpaceWireDriver.levels]

end Sent

/-- One bit is driven by a change of one line, or no bit by no change. -/
def OneBit (d d' : SpaceWireDriver) : Prop :=
  d'.drivenBits = d.drivenBits ∧ d'.lines = d.lines ∨
    d'.drivenBits = d.drivenBits + 1 ∧
      ∃ v w, d.lines = some v ∧ d'.lines = some w ∧ OneChanges v w

theorem OneBit.isSome {d' : SpaceWireDriver} (h : OneBit d d') (hd : d.lines.isSome) :
    d'.lines.isSome := by
  obtain ⟨-, heq⟩ | ⟨-, _, _, -, heq, -⟩ := h
  · rwa [heq]
  · rw [heq]
    rfl

/-- What a step does to the queue, to the lines and to what has been driven. -/
def Steps (v : Levels) (bs : List Bool) (l : Loopback κ) (cs : List Bool) (l' : Loopback κ) :
    Prop :=
  Sent v (bs ++ cs) l' ∧ (l.driver.lines.isSome → OneBit l.driver l'.driver)

theorem Sent.same (h : Sent v bs l) {l' : Loopback κ} (hd : l'.driver = l.driver)
    (hw : l'.wire = l.wire) : Steps v bs l [] l' := by
  refine ⟨?_, fun _ => .inl ⟨by rw [hd], by rw [hd]⟩⟩
  rw [List.append_nil]
  exact h.frame hd hw

theorem Sent.call (h : Sent v bs l) {cs : List Bool}
    (hq : SpaceWireDriver.Queues l.driver cs d) (ht : d.task.isSome → l.driver.task.isSome) :
    Steps v bs l cs (l.drive d) :=
  ⟨h.queues hq ht, fun _ => .inl (by rw [drive_driver]; exact ⟨hq.drivenBits, hq.lines⟩)⟩

theorem Sent.turn (h : Sent v bs l) : Steps v bs l [] (l.drive l.driver.resume) := by
  obtain ⟨hq, ht⟩ | ⟨ht, bit, hd⟩ := l.driver.resume_spec
  · exact h.call hq ht
  · obtain ⟨hsent, hlines, -⟩ := h.drives hd ht
    rw [← List.append_nil bs] at hsent
    refine ⟨hsent, fun _ => .inr ?_⟩
    rw [drive_driver]
    exact ⟨hd.drivenBits, _, _, hlines, hd.lines, next_oneChanges _ bit⟩

theorem Sent.started (h : Sent v bs l) : Steps v bs l [] (l.step .start) := by
  simp only [step]
  cases hstart : l.driver.start with
  | error err => exact h.call (.refl l.driver) id
  | ok d =>
    refine ⟨by rw [List.append_nil]; exact h.start hstart, fun hsome => .inl ?_⟩
    obtain ⟨-, rfl⟩ := SpaceWireDriver.start_spec hstart
    have hlines : l.driver.lines = some l.driver.levels := by
      refine h.lines.resolve_right fun ⟨hnone, _⟩ => ?_
      rw [hnone] at hsome
      cases hsome
    simp [Except.toOption, hlines]

theorem Sent.send (h : Sent v bs l) {bits : List Int} {r : Option SpaceWireDriver}
    (hr : (∃ err, SpaceWireDriver.normalizeBits bits = .error err ∧ r = none) ∨
      ∃ cs d', SpaceWireDriver.normalizeBits bits = .ok cs ∧ r = some d' ∧
        SpaceWireDriver.Queues l.driver cs d' ∧ d'.task = l.driver.task) :
    ∃ cs : List Bool, (if (SpaceWireDriver.normalizeBits bits).toOption.isSome then bits else []) =
        cs.map bitValue ∧ Steps v bs l cs (l.drive (r.getD l.driver)) := by
  obtain ⟨err, hbits, rfl⟩ | ⟨cs, d', hbits, rfl, hq, ht⟩ := hr
  · exact ⟨[], by simp [hbits, Except.toOption], h.call (.refl l.driver) id⟩
  · refine ⟨cs, ?_, h.call hq fun hsome => by rwa [Option.getD_some, ht] at hsome⟩
    simpa [hbits, Except.toOption] using SpaceWireDriver.normalizeBits_ok hbits

theorem Sent.step (h : Sent v bs l) (a : Act κ) :
    ∃ cs : List Bool, a.accepted = cs.map bitValue ∧ Steps v bs l cs (l.step a) := by
  cases a with
  | start => exact ⟨[], rfl, h.started⟩
  | stop =>
    refine ⟨[], rfl, h.call ⟨?_, rfl, rfl, rfl⟩ ?_⟩
    · exact (List.append_nil _).symm
    · exact fun hsome => by cases hsome
  | sendBits bits =>
    apply h.send
    obtain ⟨err, hbits, heq⟩ | ⟨cs, d', hbits, heq, hq, ht⟩ := l.driver.sendBits_spec bits
    · exact .inl ⟨err, hbits, by rw [heq]; rfl⟩
    · exact .inr ⟨cs, d', hbits, by rw [heq]; rfl, hq, ht⟩
  | sendBitsAndWait bits =>
    apply h.send
    obtain ⟨err, hbits, heq⟩ | ⟨cs, d', _, hbits, heq, hq, ht⟩ :=
      l.driver.sendBitsAndWait_spec bits
    · exact .inl ⟨err, hbits, by rw [heq]; rfl⟩
    · exact .inr ⟨cs, d', hbits, by rw [heq]; rfl, hq, ht⟩
  | txTurn => exact ⟨[], rfl, h.turn⟩
  | monitorStart | monitorStop | onBit cb | rxTurn | recvBit | timeout =>
    exact ⟨[], rfl, h.same rfl rfl⟩

/-- The bits the calls of a run hand to the driver, in call order. -/
def accepted (as : List (Act κ)) : List Int := as.flatMap Act.accepted

theorem started_isSome (h : Sent v bs l) : (l.step .start).driver.lines.isSome := by
  simp only [Loopback.step, drive_driver, SpaceWireDriver.start]
  obtain hsome | ⟨-, hnone, -⟩ := h.lines
  · split
    · simp [hsome, Except.toOption]
    · rfl
  · rw [if_neg (by simp [hnone])]
    rfl

theorem run_sent (h0 : Sent v [] l) (as : List (Act κ)) :
    ∃ bs : List Bool, accepted as = bs.map bitValue ∧ Sent v bs (run step l as) ∧
      (.start ∈ as → (run step l as).driver.lines.isSome) := by
  induction as using List.reverseRecOn with
  | nil => exact ⟨[], rfl, h0, by simp⟩
  | append_singleton as a ih =>
    obtain ⟨bs, hbs, hsent, hlines⟩ := ih
    obtain ⟨cs, hcs, hstep, hone⟩ := hsent.step a
    rw [run_concat]
    refine ⟨bs ++ cs, ?_, hstep, fun hmem => ?_⟩
    · simp only [accepted, List.flatMap_append, List.map_append] at hbs ⊢
      rw [hbs, List.flatMap_singleton, hcs]
    · obtain hmem | hmem := List.mem_append.mp hmem
      · exact (hone (hlines hmem)).isSome (hlines hmem)
      · obtain rfl := List.mem_singleton.mp hmem
        exact started_isSome hsent

/-- A monitor that listens has heard what the data line has carried between two states. -/
structure Hears (l l' : Loopback κ) : Prop where
  task : l'.monitor.task = some .receiving
  raises : l'.monitor.raiseOnDisconnect = l.monitor.raiseOnDisconnect
  wire : ∃ ws, l'.wire = l.wire ++ ws ∧ l'.heard = l.heard ++ ws.map Prod.fst

theorem Hears.of_heard {l' : Loopback κ} (ht : l'.monitor.task = some .receiving)
    (hr : l'.monitor.raiseOnDisconnect = l.monitor.raiseOnDisconnect) (hw : l'.wire = l.wire)
    (hh : l'.heard = l.heard) : Hears l l' :=
  ⟨ht, hr, [], by simpa using hw, by simpa using hh⟩

theorem Hears.refl (ht : l.monitor.task = some .receiving) : Hears l l := .of_heard ht rfl rfl rfl

theorem Hears.trans {l' l'' : Loopback κ} (h : Hears l l') (h' : Hears l' l'') : Hears l l'' := by
  obtain ⟨-, hr, ws, hw, hh⟩ := h
  obtain ⟨ht, hr', ws', hw', hh'⟩ := h'
  refine ⟨ht, hr'.trans hr, ws ++ ws', ?_, ?_⟩
  · rw [hw', hw, List.append_assoc]
  · rw [hh', hh, List.map_append, List.append_assoc]

theorem drive_hears (ht : l.monitor.task = some .receiving) (hl : l.driver.lines.isSome)
    (hd : d.lines.isSome) : Hears l (l.drive d) := by
  obtain ⟨w, hw⟩ := Option.isSome_iff_exists.mp hd
  unfold drive
  split
  · exact ⟨ht, rfl, [], by simp, by simp [heard]⟩
  · rw [hw]
    refine ⟨?_, ?_, [w], ?_, ?_⟩ <;> simp [SpaceWireMonitor.edge, ht, heard]

theorem step_hears (hs : Sent v bs l) (ht : l.monitor.task = some .receiving)
    (hl : l.driver.lines.isSome) {a : Act κ} (ha : a.listens l.monitor.raiseOnDisconnect) :
    Hears l (l.step a) := by
  have hd : (l.step a).driver.lines.isSome := by
    obtain ⟨cs, -, -, hone⟩ := hs.step a
    exact (hone hl).isSome hl
  cases a with
  | start | stop | sendBits bits | sendBitsAndWait bits | txTurn =>
    simp only [Loopback.step, drive_driver] at hd
    exact drive_hears ht hl hd
  | monitorStart =>
    have hstarted : l.monitor.start.toOption = none := by
      simp [SpaceWireMonitor.start, ht, Except.toOption]
    simpa [Loopback.step, hstarted] using Hears.refl ht
  | monitorStop => cases ha
  | onBit cb => exact .of_heard ht rfl rfl rfl
  | rxTurn => simpa [Loopback.step, SpaceWireMonitor.resume, ht] using Hears.refl ht
  | recvBit =>
    simp only [Loopback.step, SpaceWireMonitor.recvBit]
    cases hq : l.monitor.queue with
    | nil => exact .of_heard ht rfl rfl (by simp [heard, hq])
    | cons bit rest => exact .of_heard ht rfl rfl (by simp [heard, hq])
  | timeout =>
    have hr : l.monitor.raiseOnDisconnect = false := by simpa [Act.listens] using ha
    simp only [Loopback.step, SpaceWireMonitor.timeout, if_pos ht]
    exact .of_heard (by simp [hr]) rfl rfl rfl

theorem run_hears (hs : Sent v bs l) (ht : l.monitor.task = some .receiving)
    (hl : l.driver.lines.isSome) {as : List (Act κ)}
    (ha : ∀ a ∈ as, a.listens l.monitor.raiseOnDisconnect) : Hears l (run step l as) := by
  induction as generalizing l bs with
  | nil => exact .refl ht
  | cons a as ih =>
    have hstep := step_hears hs ht hl (ha a (by simp))
    obtain ⟨cs, -, hs', hone⟩ := hs.step a
    have hrest : ∀ b ∈ as, b.listens (l.step a).monitor.raiseOnDisconnect := by
      intro b hb
      rw [hstep.raises]
      exact ha b (List.mem_cons_of_mem a hb)
    exact hstep.trans (ih hs' hstep.task ((hone hl).isSome hl) hrest)

/-- Driver, batch encoder and monitor agree over every run: the wire has carried the encoded
bits that have been driven, a step drives one bit by a change of one line or none at all, and
a monitor that listens receives the bits driven meanwhile. -/
theorem loopback_agrees {initialD initialS : Int}
    (h : SpaceWireDriver.new initialD initialS = .ok d) (m : SpaceWireMonitor κ)
    (as : List (Act κ)) :
    let l := run step { driver := d, monitor := m } as
    dsEncode ((accepted as).take l.driver.drivenBits) initialD initialS =
        .ok (l.wire.map Prod.fst, l.wire.map Prod.snd) ∧
      l.wire.length = l.driver.drivenBits ∧
      l.driver.queue.map bitValue = (accepted as).drop l.driver.drivenBits ∧
      (.start ∈ as → (∀ a, OneBit l.driver (l.step a).driver) ∧
        (l.monitor.task = some .receiving → ∀ bs : List (Act κ),
          (∀ b ∈ bs, b.listens l.monitor.raiseOnDisconnect) →
          let l' := run step l bs
          l'.heard.map bitValue = l.heard.map bitValue ++
            ((accepted (as ++ bs)).take l'.driver.drivenBits).drop l.driver.drivenBits)) := by
  obtain ⟨v, rfl, rfl, rfl⟩ := SpaceWireDriver.new_ok h
  have h0 : Sent v [] ({ driver := { prevD := v.1, s := v.2 }, monitor := m } : Loopback κ) :=
    ⟨Nat.le_refl 0, rfl, rfl, rfl, .inr ⟨rfl, rfl, rfl⟩⟩
  obtain ⟨cs, hcs, hsent, hlines⟩ := run_sent h0 as
  have hdata : ∀ {cs : List Bool} {l : Loopback κ}, Sent v cs l →
      l.wire.map Prod.fst = cs.take l.driver.drivenBits :=
    fun h => by rw [h.wire, map_fst_wave]
  dsimp only
  generalize hl : run step { driver := { prevD := v.1, s := v.2 }, monitor := m } as = l at *
  refine ⟨?_, ?_, ?_, fun hstart => ⟨fun a => ?_, fun ht bs hbs => ?_⟩⟩
  · rw [hcs, ← List.map_take, dsEncode_eq, ← hsent.wire]
  · have hlen := congrArg List.length (hdata hsent)
    rwa [List.length_map, List.length_take_of_le hsent.drivenBits] at hlen
  · rw [hcs, ← List.map_drop, hsent.queue]
  · obtain ⟨_, -, -, hone⟩ := hsent.step a
    exact hone (hlines hstart)
  · obtain ⟨ws, hw, hh⟩ := (run_hears hsent ht (hlines hstart) hbs).wire
    obtain ⟨cs', hcs', hsent', -⟩ := run_sent h0 (as ++ bs)
    rw [run_append, hl] at hsent'
    have hws : (cs'.take (run step l bs).driver.drivenBits).drop l.driver.drivenBits =
        ws.map Prod.fst := by
      rw [← hdata hsent', hw, List.map_append, hdata hsent,
        List.drop_left' (List.length_take_of_le hsent.drivenBits)]
    rw [hcs', ← List.map_take, ← List.map_drop, hws, hh, List.map_append]

theorem loopback_agrees_restart :
    let l : Loopback Unit := run step { driver := { prevD := false, s := true }, monitor := {} }
      [.start, .monitorStart, .rxTurn, .sendBits [1, 0, 1], .txTurn, .txTurn, .stop, .start,
        .sendBits [0, 2], .sendBitsAndWait [1, 0], .txTurn, .txTurn, .txTurn]
    dsEncode [1, 0, 1, 1, 0] 0 1 = .ok (l.wire.map Prod.fst, l.wire.map Prod.snd) ∧
      l.wire.length = 5 ∧ l.heard = [true, false, true, true, false] :=
  have h := @loopback_agrees Unit _ 0 1 rfl {}
    [.start, .monitorStart, .rxTurn, .sendBits [1, 0, 1], .txTurn, .txTurn, .stop, .start,
      .sendBits [0, 2], .sendBitsAndWait [1, 0], .txTurn, .txTurn, .txTurn]
  ⟨h.1, h.2.1, by decide⟩

end Loopback

end SpaceWire
