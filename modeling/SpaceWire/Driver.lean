import SpaceWire.DsCodec

namespace SpaceWire

open DataStrobe

/-- Where the transmit coroutine of a driver stands: not run yet, waiting for a bit, or in the
period of the bit it has driven. -/
inductive DriverTask
  | created | waiting | timing
  deriving DecidableEq

/-- The attributes of a driver and the levels of its two lines, undefined before the first
start. Events are numbered in the order they are created in, and those that are set are kept. The
simulator is taken to accept the bit period. -/
structure SpaceWireDriver where
  lines : Option Levels := none
  prevD : Bool
  s : Bool
  queue : List Bool := []
  task : Option DriverTask := none
  notEmpty : Bool := false
  enqueuedBits : Nat := 0
  drivenBits : Nat := 0
  driveWaiters : List (Nat × Nat) := []
  events : Nat := 0
  setEvents : List Nat := []
  deriving DecidableEq

namespace SpaceWireDriver

def normalizeBit (bit : Int) (name : String) : Except Exn Bool :=
  if bit = 0 then .ok false
  else if bit = 1 then .ok true
  else .error (.valueError s!"{name} must contain only binary values (0 or 1); got {bit}")

def normalizeBits (bits : List Int) : Except Exn (List Bool) :=
  bits.mapM fun bit => normalizeBit bit "bits"

def new (initialD initialS : Int := 0) : Except Exn SpaceWireDriver := do
  let prevD ← normalizeBit initialD "initial_d"
  let s ← normalizeBit initialS "initial_s"
  pure { prevD, s }

def driveLevels (d : SpaceWireDriver) (dLevel sLevel : Bool) : SpaceWireDriver :=
  { d with lines := some (dLevel, sLevel) }

def start (d : SpaceWireDriver) : Except Exn SpaceWireDriver :=
  if d.task.isSome then .error (.runtimeError "SpaceWireDriver is already started")
  else .ok { d.driveLevels d.prevD d.s with task := some .created }

def stop (d : SpaceWireDriver) : SpaceWireDriver := { d with task := none }

def enqueueBit (d : SpaceWireDriver) (bit : Bool) : SpaceWireDriver :=
  { d with queue := d.queue ++ [bit], enqueuedBits := d.enqueuedBits + 1, notEmpty := true }

def sendBits (d : SpaceWireDriver) (bits : List Int) : Except Exn SpaceWireDriver :=
  match normalizeBits bits with
  | .error err => .error err
  | .ok bits => .ok (bits.foldl enqueueBit d)

def waitUntilDriven (d : SpaceWireDriver) (targetCount : Nat) : SpaceWireDriver × Option Nat :=
  if d.drivenBits ≥ targetCount then (d, none)
  else
    ({ d with driveWaiters := d.driveWaiters ++ [(targetCount, d.events)]
              events := d.events + 1 }, some d.events)

/-- `send_bits_and_wait` up to its wait. -/
def sendBitsAndWait (d : SpaceWireDriver) (bits : List Int) :
    Except Exn (SpaceWireDriver × Option Nat) :=
  match normalizeBits bits with
  | .error err => .error err
  | .ok [] => .ok (d, none)
  | .ok bits =>
    let d := bits.foldl enqueueBit d
    .ok (d.waitUntilDriven d.enqueuedBits)

def markBitDriven (d : SpaceWireDriver) : SpaceWireDriver :=
  let drivenBits := d.drivenBits + 1
  let ready := d.driveWaiters.filter fun waiter => waiter.1 ≤ drivenBits
  let pending := d.driveWaiters.filter fun waiter => ¬ waiter.1 ≤ drivenBits
  { d with drivenBits, driveWaiters := pending, setEvents := d.setEvents ++ ready.map Prod.snd }

def txBit (d : SpaceWireDriver) (bit : Bool) : SpaceWireDriver :=
  let d := if bit = d.prevD then { d with s := !d.s } else d
  let d := d.driveLevels bit d.s
  let d := { d with prevD := bit }
  { d.markBitDriven with task := some .timing }

def runLoop (d : SpaceWireDriver) : SpaceWireDriver :=
  match d.queue with
  | [] => { d with notEmpty := false, task := some .waiting }
  | bit :: rest => { d with queue := rest }.txBit bit

/-- A turn of the transmit coroutine, when what it waits for has come. -/
def resume (d : SpaceWireDriver) : SpaceWireDriver :=
  match d.task with
  | none => d
  | some .created | some .timing => d.runLoop
  | some .waiting => if d.notEmpty then d.runLoop else d

def levels (d : SpaceWireDriver) : Levels := (d.prevD, d.s)

theorem normalizeBit_eq_dsBit (bit : Int) (name : String) :
    normalizeBit bit name = dsBit bit name := by
  unfold normalizeBit dsBit
  by_cases h0 : bit = 0
  · simp [h0]
  · simp [h0]

theorem normalizeBits_ok {bits : List Int} {bs : List Bool} (h : normalizeBits bits = .ok bs) :
    bits = bs.map bitValue := by
  induction bits generalizing bs with
  | nil =>
    cases h
    rfl
  | cons bit bits ih =>
    simp only [normalizeBits, List.mapM_cons, normalizeBit_eq_dsBit] at h ih
    cases hbit : dsBit bit "bits" with
    | error err =>
      rw [hbit] at h
      cases h
    | ok b =>
      cases hbits : bits.mapM fun bit => dsBit bit "bits" with
      | error err =>
        rw [hbit, hbits] at h
        cases h
      | ok rest =>
        rw [hbit, hbits] at h
        cases h
        rw [List.map_cons, ← dsBit_ok hbit, ← ih hbits]

@[simp] theorem normalizeBits_map_bitValue (bits : List Bool) :
    normalizeBits (bits.map bitValue) = .ok bits := by
  simp only [normalizeBits, normalizeBit_eq_dsBit]
  exact dsBits_map_bitValue bits "bits"

theorem new_ok {initialD initialS : Int} {d : SpaceWireDriver} (h : new initialD initialS = .ok d) :
    ∃ v : Levels, initialD = bitValue v.1 ∧ initialS = bitValue v.2 ∧
      d = { prevD := v.1, s := v.2 } := by
  simp only [new, normalizeBit_eq_dsBit] at h
  cases hd : dsBit initialD "initial_d" with
  | error err =>
    rw [hd] at h
    cases h
  | ok prevD =>
    cases hs : dsBit initialS "initial_s" with
    | error err =>
      rw [hd, hs] at h
      cases h
    | ok s =>
      rw [hd, hs] at h
      cases h
      exact ⟨(prevD, s), dsBit_ok hd, dsBit_ok hs, rfl⟩

theorem foldl_enqueueBit (bits : List Bool) (d : SpaceWireDriver) :
    bits.foldl enqueueBit d =
      { d with queue := d.queue ++ bits, enqueuedBits := d.enqueuedBits + bits.length,
               notEmpty := d.notEmpty || !bits.isEmpty } := by
  induction bits generalizing d with
  | nil => simp
  | cons b bits ih =>
    rw [List.foldl_cons, ih]
    simp [enqueueBit, Nat.add_assoc, Nat.add_comm 1]

/-- Bits are queued, and nothing else happens to the queue or to the lines. -/
structure Queues (d : SpaceWireDriver) (bits : List Bool) (d' : SpaceWireDriver) : Prop where
  queue : d'.queue = d.queue ++ bits
  lines : d'.lines = d.lines
  levels : d'.levels = d.levels
  drivenBits : d'.drivenBits = d.drivenBits

theorem Queues.refl (d : SpaceWireDriver) : Queues d [] d := ⟨by simp, rfl, rfl, rfl⟩

/-- The first bit of the queue is driven. -/
structure Drives (d d' : SpaceWireDriver) (bit : Bool) : Prop where
  queue : d.queue = bit :: d'.queue
  lines : d'.lines = some (next d.levels bit)
  levels : d'.levels = next d.levels bit
  drivenBits : d'.drivenBits = d.drivenBits + 1

section specs

variable {d d' : SpaceWireDriver}

theorem queues_foldl (bits : List Bool) (d : SpaceWireDriver) :
    Queues d bits (bits.foldl enqueueBit d) := by
  rw [foldl_enqueueBit]
  exact ⟨rfl, rfl, rfl, rfl⟩

theorem queues_waitUntilDriven {bits : List Bool} (h : Queues d bits d') (targetCount : Nat) :
    Queues d bits (d'.waitUntilDriven targetCount).1 := by
  simp only [waitUntilDriven]
  split
  · exact h
  · exact ⟨h.queue, h.lines, h.levels, h.drivenBits⟩

theorem waitUntilDriven_task (d : SpaceWireDriver) (targetCount : Nat) :
    (d.waitUntilDriven targetCount).1.task = d.task := by
  simp only [waitUntilDriven]
  split <;> rfl

theorem start_spec (h : d.start = .ok d') :
    d.task = none ∧ d' = { d with lines := some d.levels, task := some .created } := by
  unfold start at h
  split at h
  · cases h
  · cases h
    simp_all [driveLevels, levels]

theorem sendBits_spec (d : SpaceWireDriver) (bits : List Int) :
    (∃ err, normalizeBits bits = .error err ∧ d.sendBits bits = .error err) ∨
      ∃ bs d', normalizeBits bits = .ok bs ∧ d.sendBits bits = .ok d' ∧ Queues d bs d' ∧
        d'.task = d.task := by
  simp only [sendBits]
  cases hbits : normalizeBits bits with
  | error err => exact .inl ⟨err, rfl, rfl⟩
  | ok bs => exact .inr ⟨bs, _, rfl, rfl, queues_foldl bs d, by rw [foldl_enqueueBit]⟩

theorem sendBitsAndWait_spec (d : SpaceWireDriver) (bits : List Int) :
    (∃ err, normalizeBits bits = .error err ∧ d.sendBitsAndWait bits = .error err) ∨
      ∃ bs d' waiter, normalizeBits bits = .ok bs ∧ d.sendBitsAndWait bits = .ok (d', waiter) ∧
        Queues d bs d' ∧ d'.task = d.task := by
  simp only [sendBitsAndWait]
  cases hbits : normalizeBits bits with
  | error err => exact .inl ⟨err, rfl, rfl⟩
  | ok bs =>
    right
    cases bs with
    | nil => exact ⟨[], d, none, rfl, rfl, .refl d, rfl⟩
    | cons b bs =>
      let e := (b :: bs).foldl enqueueBit d
      have ht : e.task = d.task := by simp only [e, foldl_enqueueBit]
      exact ⟨b :: bs, (e.waitUntilDriven e.enqueuedBits).1, (e.waitUntilDriven e.enqueuedBits).2,
        rfl, rfl, queues_waitUntilDriven (queues_foldl (b :: bs) d) _,
        (e.waitUntilDriven_task _).trans ht⟩

theorem txBit_eq (d : SpaceWireDriver) (bit : Bool) :
    d.txBit bit = { d.markBitDriven with
      lines := some (next d.levels bit), prevD := bit, s := (next d.levels bit).2,
      task := some .timing } := by
  by_cases h : bit = d.prevD <;> simp [txBit, next, levels, driveLevels, markBitDriven, h]

theorem txBit_drives {rest : List Bool} {bit : Bool} (h : d.queue = bit :: rest) :
    Drives d ({ d with queue := rest }.txBit bit) bit := by
  rw [txBit_eq]
  exact ⟨h, rfl, rfl, rfl⟩

/-- A turn of the transmit coroutine drives one bit or leaves queue and lines alone. -/
theorem resume_spec (d : SpaceWireDriver) :
    Queues d [] d.resume ∧ (d.resume.task.isSome → d.task.isSome) ∨
      d.task.isSome ∧ ∃ bit, Drives d d.resume bit := by
  have hloop : Queues d [] d.runLoop ∨ ∃ bit, Drives d d.runLoop bit := by
    simp only [runLoop]
    cases hq : d.queue with
    | nil => exact .inl ⟨by simp [hq], rfl, rfl, rfl⟩
    | cons bit rest => exact .inr ⟨bit, txBit_drives hq⟩
  cases ht : d.task with
  | none => simpa [resume, ht] using Queues.refl d
  | some t =>
    have hturn : d.resume = d.runLoop ∨ d.resume = d := by
      cases t <;> simp [resume, ht]
      exact (Bool.eq_false_or_eq_true d.notEmpty).imp (by simp_all) (by simp_all)
    obtain heq | heq := hturn
    · rw [heq]
      exact hloop.imp (fun h => ⟨h, by simp⟩) (fun h => ⟨rfl, h⟩)
    · rw [heq]
      exact .inl ⟨.refl d, by simp⟩

/-- The lines, once driven, have the present levels, and a driver that waits with its event
clear has nothing to send. -/
structure Sound (d : SpaceWireDriver) : Prop where
  lines : d.lines = none ∨ d.lines = some d.levels
  parked : d.task = some .waiting → d.notEmpty = false → d.queue = []

theorem Sound.start (h : d.start = .ok d') : Sound d' := by
  obtain ⟨-, rfl⟩ := start_spec h
  exact ⟨.inr rfl, by simp⟩

theorem Sound.stop (h : Sound d) : Sound d.stop := ⟨h.lines, by simp [SpaceWireDriver.stop]⟩

theorem Sound.foldl (h : Sound d) (bits : List Bool) : Sound (bits.foldl enqueueBit d) := by
  rw [foldl_enqueueBit]
  refine ⟨h.lines, fun ht hn => ?_⟩
  obtain ⟨hn, hbits⟩ := Bool.or_eq_false_iff.mp hn
  rw [h.parked ht hn]
  simpa using hbits

theorem Sound.sendBitsAndWait (h : Sound d) {bits : List Int} {waiter : Option Nat}
    (hsend : d.sendBitsAndWait bits = .ok (d', waiter)) : Sound d' := by
  unfold SpaceWireDriver.sendBitsAndWait at hsend
  cases hbits : normalizeBits bits with
  | error err =>
    rw [hbits] at hsend
    cases hsend
  | ok bs =>
    rw [hbits] at hsend
    cases bs with
    | nil =>
      cases hsend
      exact h
    | cons b bs =>
      obtain rfl := congrArg Prod.fst (Except.ok.inj hsend)
      have hq := h.foldl (b :: bs)
      simp only [waitUntilDriven]
      split
      · exact hq
      · exact ⟨hq.lines, hq.parked⟩

theorem Sound.resume (h : Sound d) : Sound d.resume := by
  have hloop : Sound d.runLoop := by
    simp only [runLoop]
    cases hq : d.queue with
    | nil => exact ⟨h.lines, fun _ _ => rfl⟩
    | cons bit rest =>
      have hd := txBit_drives hq
      exact ⟨.inr (by rw [hd.lines, hd.levels]), by simp [txBit]⟩
  unfold SpaceWireDriver.resume
  split
  · exact h
  · exact hloop
  · exact hloop
  · split
    · exact hloop
    · exact h

theorem Sound.resume_drives (h : Sound d) (ht : d.task.isSome) {bit : Bool} {rest : List Bool}
    (hq : d.queue = bit :: rest) : Drives d d.resume bit := by
  have hloop : Drives d d.runLoop bit := by
    simp only [runLoop, hq]
    exact txBit_drives hq
  cases htask : d.task with
  | none =>
    rw [htask] at ht
    cases ht
  | some t =>
    cases t with
    | created | timing => simpa only [SpaceWireDriver.resume, htask] using hloop
    | waiting =>
      have hn : d.notEmpty = true := by
        by_contra hn
        have hnil := h.parked htask (by simpa using hn)
        rw [hq] at hnil
        cases hnil
      simpa only [SpaceWireDriver.resume, htask, hn, if_true] using hloop

end specs

end SpaceWireDriver

end SpaceWire
