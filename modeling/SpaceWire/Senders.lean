import SpaceWire.Loopback
import SpaceWire.Waiters

namespace SpaceWire

open Run Waiting

namespace SpaceWireDriver

/-- The callers of `send_bits_and_wait`, who wait for the number of driven bits. -/
def waiters (d : SpaceWireDriver) : Waiters where
  count := d.drivenBits
  waiting := d.driveWaiters
  tickets := d.events
  released := d.setEvents

variable {d d' : SpaceWireDriver}

@[simp] theorem foldl_enqueueBit_waiters (bits : List Bool) (d : SpaceWireDriver) :
    (bits.foldl enqueueBit d).waiters = d.waiters := by
  rw [foldl_enqueueBit]
  rfl

theorem sendBits_waiters {bits : List Int} (h : d.sendBits bits = .ok d') :
    d'.waiters = d.waiters := by
  unfold sendBits at h
  split at h <;> cases h
  exact foldl_enqueueBit_waiters _ d

theorem waitUntilDriven_waiters (d : SpaceWireDriver) (targetCount : Nat) :
    Waiters.Moves d.waiters (d.waitUntilDriven targetCount).1.waiters := by
  unfold waitUntilDriven
  split
  · exact .stays
  · exact .registers targetCount

theorem sendBitsAndWait_waiters {bits : List Int} {waiter : Option Nat}
    (h : d.sendBitsAndWait bits = .ok (d', waiter)) : Waiters.Moves d.waiters d'.waiters := by
  unfold sendBitsAndWait at h
  split at h
  · cases h
  · cases h
    exact .stays
  case h_3 bs _ _ =>
    obtain rfl := congrArg Prod.fst (Except.ok.inj h)
    rw [← foldl_enqueueBit_waiters bs d]
    exact waitUntilDriven_waiters _ _

theorem resume_waiters (d : SpaceWireDriver) : Waiters.Moves d.waiters d.resume.waiters := by
  have hloop : Waiters.Moves d.waiters d.runLoop.waiters := by
    unfold runLoop
    split
    · exact .stays
    · rw [txBit_eq]
      exact .advances
  unfold resume
  split
  · exact .stays
  · exact hloop
  · exact hloop
  · split
    · exact hloop
    · exact .stays

theorem normalizeBits_length {bits : List Int} {bs : List Bool}
    (h : normalizeBits bits = .ok bs) : bits.length = bs.length := by
  rw [normalizeBits_ok h, List.length_map]

theorem sendBits_enqueuedBits {bits : List Int} (h : d.sendBits bits = .ok d') :
    d'.enqueuedBits = d.enqueuedBits + bits.length := by
  unfold sendBits at h
  cases hbits : normalizeBits bits with
  | error err =>
    rw [hbits] at h
    cases h
  | ok bs =>
    rw [hbits] at h
    cases h
    rw [normalizeBits_length hbits, foldl_enqueueBit]

theorem waitUntilDriven_enqueuedBits (d : SpaceWireDriver) (targetCount : Nat) :
    (d.waitUntilDriven targetCount).1.enqueuedBits = d.enqueuedBits := by
  unfold waitUntilDriven
  split <;> rfl

theorem sendBitsAndWait_enqueuedBits {bits : List Int} {waiter : Option Nat}
    (h : d.sendBitsAndWait bits = .ok (d', waiter)) :
    d'.enqueuedBits = d.enqueuedBits + bits.length := by
  unfold sendBitsAndWait at h
  cases hbits : normalizeBits bits with
  | error err =>
    rw [hbits] at h
    cases h
  | ok bs =>
    rw [hbits] at h
    rw [normalizeBits_length hbits]
    cases bs with
    | nil =>
      cases h
      rfl
    | cons b bs =>
      obtain rfl := congrArg Prod.fst (Except.ok.inj h)
      rw [waitUntilDriven_enqueuedBits, foldl_enqueueBit]

theorem resume_enqueuedBits (d : SpaceWireDriver) : d.resume.enqueuedBits = d.enqueuedBits := by
  have hloop : d.runLoop.enqueuedBits = d.enqueuedBits := by
    unfold runLoop
    split
    · rfl
    · rw [txBit_eq]
      rfl
  unfold resume
  split
  · rfl
  · exact hloop
  · exact hloop
  · split
    · exact hloop
    · rfl

/-- What can happen to a driver at one step, with the bits that are accepted there. -/
inductive Calls (d : SpaceWireDriver) : List Int → SpaceWireDriver → Prop
  | rejected : Calls d [] d
  | start {d' : SpaceWireDriver} (h : d.start = .ok d') : Calls d [] d'
  | stop : Calls d [] d.stop
  | sendBits {bits : List Int} {d' : SpaceWireDriver} (h : d.sendBits bits = .ok d') :
      Calls d bits d'
  | sendBitsAndWait {bits : List Int} {d' : SpaceWireDriver} {waiter : Option Nat}
      (h : d.sendBitsAndWait bits = .ok (d', waiter)) : Calls d bits d'
  | resume : Calls d [] d.resume

theorem Calls.waiters {bits : List Int} (h : Calls d bits d') :
    Waiters.Moves d.waiters d'.waiters := by
  cases h with
  | rejected | stop => exact .stays
  | start h =>
    obtain ⟨-, rfl⟩ := start_spec h
    exact .stays
  | sendBits h =>
    rw [sendBits_waiters h]
    exact .stays
  | sendBitsAndWait h => exact sendBitsAndWait_waiters h
  | resume => exact resume_waiters d

theorem Calls.enqueuedBits {bits : List Int} (h : Calls d bits d') :
    d'.enqueuedBits = d.enqueuedBits + bits.length := by
  cases h with
  | rejected | stop => rfl
  | start h =>
    obtain ⟨-, rfl⟩ := start_spec h
    rfl
  | sendBits h => exact sendBits_enqueuedBits h
  | sendBitsAndWait h => exact sendBitsAndWait_enqueuedBits h
  | resume => exact resume_enqueuedBits d

theorem Calls.sound {bits : List Int} (h : Calls d bits d') (hs : Sound d) : Sound d' := by
  cases h with
  | rejected => exact hs
  | start h => exact .start h
  | stop => exact hs.stop
  | @sendBits bits d' h =>
    unfold SpaceWireDriver.sendBits at h
    split at h <;> cases h
    exact hs.foldl _
  | sendBitsAndWait h => exact hs.sendBitsAndWait h
  | resume => exact hs.resume

theorem sendBitsAndWait_registers {bits : List Int} {b : Bool} {bs : List Bool}
    (hbits : normalizeBits bits = .ok (b :: bs)) (hle : d.drivenBits ≤ d.enqueuedBits) :
    ∃ d', d.sendBitsAndWait bits = .ok (d', some d.events) ∧
      d'.waiters = d.waiters.register (d.enqueuedBits + (bs.length + 1)) := by
  have hlt : ¬d.drivenBits ≥ d.enqueuedBits + (bs.length + 1) := by omega
  simp only [sendBitsAndWait, hbits, foldl_enqueueBit, waitUntilDriven, List.length_cons]
  rw [if_neg hlt]
  exact ⟨_, rfl, rfl⟩

end SpaceWireDriver

namespace Loopback

variable {κ : Type} {l : Loopback κ} {d : SpaceWireDriver}

theorem step_calls (l : Loopback κ) (a : Act κ) :
    SpaceWireDriver.Calls l.driver a.accepted (l.step a).driver := by
  cases a with
  | start =>
    simp only [step, drive_driver]
    cases h : l.driver.start with
    | error err => exact .rejected
    | ok d => exact .start h
  | stop =>
    simp only [step, drive_driver]
    exact .stop
  | sendBits bits =>
    simp only [step, drive_driver, Act.accepted]
    obtain ⟨err, hbits, heq⟩ | ⟨cs, d', hbits, heq, -⟩ := l.driver.sendBits_spec bits
    · simp only [heq, hbits]
      exact .rejected
    · simp only [heq, hbits]
      exact .sendBits heq
  | sendBitsAndWait bits =>
    simp only [step, drive_driver, Act.accepted]
    obtain ⟨err, hbits, heq⟩ | ⟨cs, d', _, hbits, heq, -⟩ := l.driver.sendBitsAndWait_spec bits
    · simp only [heq, hbits]
      exact .rejected
    · simp only [heq, hbits]
      exact .sendBitsAndWait heq
  | txTurn =>
    simp only [step, drive_driver]
    exact .resume
  | monitorStart | monitorStop | onBit cb | rxTurn | recvBit | timeout => exact .rejected

theorem run_enqueuedBits (h0 : l.driver.enqueuedBits = 0) (as : List (Act κ)) :
    (run step l as).driver.enqueuedBits = (accepted as).length := by
  induction as using List.reverseRecOn with
  | nil => exact h0
  | append_singleton as a ih =>
    rw [run_concat, (step_calls _ a).enqueuedBits, ih]
    simp [accepted]

theorem run_issued (h0 : l.driver.waiters.Issued) (as : List (Act κ)) :
    (run step l as).driver.waiters.Issued :=
  @run_keeps _ _ step (fun l => l.driver.waiters.Issued) l as h0
    fun l a _ h => h.moves (l.step_calls a).waiters

theorem run_tracks {target ticket : Nat} (h0 : l.driver.waiters.Tracks target ticket)
    (as : List (Act κ)) : (run step l as).driver.waiters.Tracks target ticket :=
  @run_keeps _ _ step (fun l => l.driver.waiters.Tracks target ticket) l as h0
    fun l a _ h => h.moves (l.step_calls a).waiters

theorem bits_of_accepted {bits : List Int}
    (h : (Act.sendBitsAndWait bits : Act κ).accepted ≠ []) :
    ∃ b bs, SpaceWireDriver.normalizeBits bits = .ok (b :: bs) := by
  simp only [Act.accepted] at h
  cases hbits : SpaceWireDriver.normalizeBits bits with
  | error err => simp [hbits, Except.toOption] at h
  | ok bs =>
    cases bs with
    | nil =>
      rw [SpaceWireDriver.normalizeBits_ok hbits] at h
      simp at h
    | cons b bs => exact ⟨b, bs, rfl⟩

theorem Sent.length_wire {v : DataStrobe.Levels} {bs : List Bool} (h : Sent v bs l) :
    l.wire.length = l.driver.drivenBits := by
  rw [h.wire, DataStrobe.length_wave, List.length_take_of_le h.drivenBits]

/-- What has been driven and what is queued are the accepted lists, whole and in call order,
and a caller of `send_bits_and_wait` waits exactly until the last bit of its own list has been
driven. -/
theorem senders_served {initialD initialS : Int}
    (h : SpaceWireDriver.new initialD initialS = .ok d) (m : SpaceWireMonitor κ)
    (as : List (Act κ)) :
    let l := run step { driver := d, monitor := m } as
    (l.wire.map Prod.fst ++ l.driver.queue).map bitValue = accepted as ∧
      (l.driver.task = some .waiting → l.driver.notEmpty = false → l.driver.queue = []) ∧
      ∀ pre bits post, as = pre ++ .sendBitsAndWait bits :: post →
        (Act.sendBitsAndWait bits : Act κ).accepted ≠ [] →
        ∃ d' event, (run step { driver := d, monitor := m } pre).driver.sendBitsAndWait bits =
            .ok (d', some event) ∧
          (event ∈ l.driver.setEvents ↔ (accepted pre ++ bits).length ≤ l.wire.length) ∧
          ((∃ target, (target, event) ∈ l.driver.driveWaiters) ↔
            l.wire.length < (accepted pre ++ bits).length) := by
  obtain ⟨v, rfl, rfl, rfl⟩ := SpaceWireDriver.new_ok h
  have h0 : Sent v [] ({ driver := { prevD := v.1, s := v.2 }, monitor := m } : Loopback κ) :=
    ⟨Nat.le_refl 0, rfl, rfl, rfl, .inr ⟨rfl, rfl, rfl⟩⟩
  dsimp only
  obtain ⟨cs, hcs, hsent, -⟩ := run_sent h0 as
  refine ⟨?_, ?_, ?_⟩
  · rw [hcs, hsent.wire, DataStrobe.map_fst_wave, hsent.queue, List.take_append_drop]
  · have hsound : SpaceWireDriver.Sound { prevD := v.1, s := v.2 } := ⟨.inl rfl, by simp⟩
    exact (@run_keeps _ _ step (fun l => l.driver.Sound) _ as hsound
      fun l a _ hl => (l.step_calls a).sound hl).parked
  · intro pre bits post has hne
    obtain ⟨csp, hcsp, hsentp, -⟩ := run_sent h0 pre
    have hcount := @run_enqueuedBits κ { driver := { prevD := v.1, s := v.2 }, monitor := m } rfl
      pre
    have hissued := @run_issued κ { driver := { prevD := v.1, s := v.2 }, monitor := m }
      ⟨by simp [SpaceWireDriver.waiters], by simp [SpaceWireDriver.waiters]⟩ pre
    subst has
    rw [run_append, run_cons] at hsent ⊢
    generalize run step { driver := { prevD := v.1, s := v.2 }, monitor := m } pre = lp at *
    have hdriven : lp.driver.drivenBits ≤ lp.driver.enqueuedBits := by
      rw [hcount, hcsp, List.length_map]
      exact hsentp.drivenBits
    obtain ⟨b, bs, hbits⟩ := bits_of_accepted hne
    obtain ⟨d', hcall, hd'⟩ := SpaceWireDriver.sendBitsAndWait_registers hbits hdriven
    have htarget : (accepted pre ++ bits).length = lp.driver.enqueuedBits + (bs.length + 1) := by
      rw [List.length_append, hcount, SpaceWireDriver.normalizeBits_length hbits, List.length_cons]
    have hstep : (lp.step (.sendBitsAndWait bits)).driver = d' := by
      simp [step, hcall, Except.toOption]
    have htracks : (lp.step (.sendBitsAndWait bits)).driver.waiters.Tracks
        (accepted pre ++ bits).length lp.driver.events := by
      rw [hstep, hd', htarget]
      exact hissued.tracks (by simp only [SpaceWireDriver.waiters]; omega)
    obtain ⟨-, hreleased, hwaiting⟩ := run_tracks htracks post
    rw [hsent.length_wire]
    refine ⟨d', lp.driver.events, hcall, hreleased, ?_⟩
    constructor
    · rintro ⟨t, ht⟩
      exact ((hwaiting t).mp ht).2
    · exact fun hlt => ⟨_, (hwaiting _).mpr ⟨rfl, hlt⟩⟩

/-- Two callers of `send_bits_and_wait` and one of `send_bits`: the first caller is released
by the second of its two bits, while the other one still waits. -/
theorem senders_served_two :
    let l : Loopback Unit := run step { driver := { prevD := false, s := false }, monitor := {} }
      ([.start] ++ .sendBitsAndWait [1, 0] ::
        [.sendBits [1, 2], .sendBits [1], .sendBitsAndWait [1], .txTurn, .txTurn, .txTurn])
    (∃ event, event ∈ l.driver.setEvents) ∧ l.driver.driveWaiters ≠ [] ∧
      (l.wire.map Prod.fst ++ l.driver.queue).map bitValue = [1, 0, 1, 1] := by
  have h := @senders_served Unit _ 0 0 rfl {}
    ([.start] ++ .sendBitsAndWait [1, 0] ::
      [.sendBits [1, 2], .sendBits [1], .sendBitsAndWait [1], .txTurn, .txTurn, .txTurn])
  obtain ⟨d', event, -, hset, -⟩ := h.2.2 _ _ _ rfl (by decide)
  exact ⟨⟨event, hset.mpr (by decide)⟩, by decide, h.1⟩

end Loopback

end SpaceWire
