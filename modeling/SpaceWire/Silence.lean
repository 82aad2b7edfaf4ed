import SpaceWire.Port

namespace SpaceWire.Silence

open Run SpaceWireDriver

variable {p : Port} {i : PortInput}

def InReset (p : Port) : Prop := stateTx p.link.fsm.state = .reset

/-- The step changes the state, and the new one has the transmitter in reset. -/
def Drops (p : Port) (i : PortInput) : Prop :=
  (p.step i).link.fsm.state ≠ p.link.fsm.state ∧ InReset (p.step i)

/-- Whatever happens until the transmitter leaves its reset, the lines are low and no bit is
driven. -/
def Silent (p : Port) : Prop :=
  ∀ is, Always Port.step InReset p is → (run Port.step p is).driver.lines = some (false, false) ∧
    (run Port.step p is).driver.drivenBits = p.driver.drivenBits

/-- Both lines are low, and nothing is left to drive. -/
def Low (d : SpaceWireDriver) : Prop := d.queue = [] ∧ d.lines = some (false, false)

instance : Decidable (Drops p i) :=
  inferInstanceAs (Decidable ((p.step i).link.fsm.state ≠ p.link.fsm.state ∧
    stateTx (p.step i).link.fsm.state = .reset))

instance (d : SpaceWireDriver) : Decidable (Low d) :=
  inferInstanceAs (Decidable (d.queue = [] ∧ d.lines = some (false, false)))

theorem sound_step (h : Sound p.driver) (i : PortInput) : Sound (p.step i).driver := by
  cases i with
  | start =>
    obtain ⟨-, heq⟩ | ⟨-, -, heq⟩ | ⟨-, -, heq⟩ := p.step_start_cases <;> rw [heq]
    · exact h
    · exact h
    · exact ⟨.inr rfl, by simp⟩
  | started =>
    obtain ⟨-, heq⟩ | ⟨-, -, heq⟩ | ⟨-, -, heq⟩ := p.step_started_cases <;> rw [heq] <;> exact h
  | stop => exact h.stop
  | call | watchdog =>
    simp only [Port.step]
    split <;> exact h
  | txLoop =>
    obtain ⟨endpoint, driver, txWait, heq, hdriver⟩ := p.txTurn_cases
    rw [show p.step .txLoop = _ from heq]
    obtain hsame | ⟨-, bits, hbits⟩ := hdriver
    · exact hsame ▸ h
    · exact h.sendBitsAndWait hbits
  | driver => exact h.resume
  | monitor | line | timeout => exact h

theorem step_fsm (hi : i = .start ∨ i = .stop ∨ i = .driver) :
    (p.step i).link.fsm = p.link.fsm := by
  obtain rfl | rfl | rfl := hi
  · obtain ⟨-, heq⟩ | ⟨-, -, heq⟩ | ⟨-, -, heq⟩ := p.step_start_cases <;> rw [heq] <;> rfl
  · rfl
  · rfl

theorem step_driver (hr : InReset (p.step i)) (hi : i ≠ .start) (hi' : i ≠ .stop)
    (hi'' : i ≠ .driver) : (p.step i).driver = p.driver := by
  cases i with
  | start => exact absurd rfl hi
  | stop => exact absurd rfl hi'
  | driver => exact absurd rfl hi''
  | started =>
    obtain ⟨-, heq⟩ | ⟨-, -, heq⟩ | ⟨-, -, heq⟩ := p.step_started_cases <;> rw [heq]
  | call | watchdog =>
    simp only [Port.step]
    split <;> rfl
  | txLoop =>
    obtain ⟨endpoint, driver, txWait, heq, hdriver⟩ := p.txTurn_cases
    rw [show p.step .txLoop = _ from heq] at hr ⊢
    obtain hsame | ⟨hmode, -⟩ := hdriver
    · exact hsame
    · exact absurd hr hmode
  | monitor | line | timeout => rfl

theorem Drops.driver (h : Drops p i) : (p.step i).driver = p.driver := by
  have hne (hi : i = .start ∨ i = .stop ∨ i = .driver) : False :=
    h.1 (congrArg LinkFSM.state (step_fsm hi))
  exact step_driver h.2 (fun he => hne (.inl he)) (fun he => hne (.inr (.inl he)))
    (fun he => hne (.inr (.inr he)))

theorem Low.step (hs : Sound p.driver) (h : Low p.driver) (hr : InReset (p.step i)) :
    Low (p.step i).driver ∧ (p.step i).driver.drivenBits = p.driver.drivenBits := by
  obtain ⟨hq, hl⟩ := h
  have hlevels : p.driver.levels = (false, false) := by
    obtain hnone | hsome := hs.lines
    · rw [hnone] at hl
      cases hl
    · rw [hsome] at hl
      exact Option.some.inj hl
  by_cases hi : i = .start
  · subst hi
    obtain ⟨-, heq⟩ | ⟨-, -, heq⟩ | ⟨-, -, heq⟩ := p.step_start_cases <;> rw [heq]
    · exact ⟨⟨hq, hl⟩, rfl⟩
    · exact ⟨⟨hq, hl⟩, rfl⟩
    · exact ⟨⟨hq, congrArg some hlevels⟩, rfl⟩
  · by_cases hi' : i = .stop
    · subst hi'
      exact ⟨⟨hq, hl⟩, rfl⟩
    · by_cases hi'' : i = .driver
      · subst hi''
        obtain ⟨hquiet, -⟩ | ⟨-, bit, hdrives⟩ := p.driver.resume_spec
        · refine ⟨⟨?_, hquiet.lines.trans hl⟩, hquiet.drivenBits⟩
          rw [Port.step, hquiet.queue, hq]
          rfl
        · have hempty := hdrives.queue
          rw [hq] at hempty
          cases hempty
      · rw [step_driver hr hi hi' hi'']
        exact ⟨⟨hq, hl⟩, rfl⟩

theorem Low.run (hs : Sound p.driver) (h : Low p.driver) {is : List PortInput}
    (hr : Always Port.step InReset p is) : Low (run Port.step p is).driver ∧
      (run Port.step p is).driver.drivenBits = p.driver.drivenBits := by
  induction is generalizing p with
  | nil => exact ⟨h, rfl⟩
  | cons i is ih =>
    obtain ⟨-, hrest⟩ := always_cons.mp hr
    obtain ⟨hlow, hn⟩ := Low.step hs h hrest.head
    obtain ⟨hlow', hn'⟩ := ih (sound_step hs i) hlow hrest
    exact ⟨hlow', hn'.trans hn⟩

theorem always_inReset (hr : InReset p) {is : List PortInput}
    (hi : ∀ i ∈ is, i = .start ∨ i = .stop ∨ i = .driver) : Always Port.step InReset p is := by
  induction is generalizing p with
  | nil => exact always_nil.mpr hr
  | cons i is ih =>
    have hr' : InReset (p.step i) := by
      unfold InReset
      rw [step_fsm (hi i (by simp))]
      exact hr
    exact always_cons.mpr ⟨hr, ih hr' fun j hj => hi j (List.mem_cons_of_mem i hj)⟩

theorem drives_left (hs : Sound p.driver) (hr : InReset p) (hq : p.driver.queue ≠ []) :
    ∃ is, Always Port.step InReset p is ∧
      (run Port.step p is).driver.drivenBits = p.driver.drivenBits + 1 := by
  obtain ⟨bit, rest, hbits⟩ := List.exists_cons_of_ne_nil hq
  cases ht : p.driver.task with
  | some t =>
    exact ⟨[.driver], always_inReset hr (by simp),
      (hs.resume_drives (by simp [ht]) hbits).drivenBits⟩
  | none =>
    refine ⟨[.stop, .start, .driver], always_inReset hr (by simp), ?_⟩
    have hs' := sound_step (sound_step hs .stop) .start
    have hstart := (p.step .stop).start_of_stopped rfl rfl
    rw [hstart] at hs'
    have hdrives := (hs'.resume_drives rfl hbits).drivenBits
    rw [run_cons, run_cons, run_cons, run_nil, hstart]
    exact hdrives

theorem silent_iff (hs : Sound p.driver) (hr : InReset p) : Silent p ↔ Low p.driver := by
  constructor
  · intro h
    refine ⟨?_, (h [] ?_).1⟩
    · by_contra hq
      obtain ⟨is, halways, hn⟩ := drives_left hs hr hq
      have hsame := (h is halways).2
      omega
    · exact always_nil.mpr hr
  · intro h is halways
    obtain ⟨⟨-, hl⟩, hn⟩ := Low.run hs h halways
    exact ⟨hl, hn⟩

theorem sound_new {cfg : LinkConfig} (hnew : Port.new cfg = .ok p) : Sound p.driver := by
  obtain ⟨l, -, rfl⟩ := Port.new_ok hnew
  exact ⟨.inl rfl, by simp⟩

/-- The transmitter is silent from each drop on exactly when each drop finds the lines low and
no bit left in the driver: nothing drives the lines low or empties the driver. -/
theorem reset_silent_iff {cfg : LinkConfig} (hnew : Port.new cfg = .ok p)
    (is : List PortInput) :
    (∀ as i, as ++ [i] <+: is → Drops (run Port.step p as) i →
        Silent (run Port.step p (as ++ [i]))) ↔
      Guarded Port.step (fun p i => Drops p i → Low p.driver) p is := by
  have hexact (as : List PortInput) (i : PortInput) (hdrop : Drops (run Port.step p as) i) :
      Silent (run Port.step p (as ++ [i])) ↔ Low (run Port.step p as).driver := by
    have hsound : Sound (run Port.step p as).driver :=
      run_keeps (I := fun p : Port => Sound p.driver) (sound_new hnew) fun _ i _ h => sound_step h i
    rw [run_concat, silent_iff (sound_step hsound i) hdrop.2, hdrop.driver]
  constructor
  · exact fun h as i hp hdrop => (hexact as i hdrop).mp (h as i hp hdrop)
  · exact fun h as i hp hdrop => (hexact as i hdrop).mpr (h as i hp hdrop)

theorem reset_silent_iff_bringUp : ∃ p, Port.new {} = .ok p ∧
    ∀ as i, as ++ [i] <+: [.start, .started, .call (.expire ⟨tick6p4Ns, .tick6p4us, 1⟩)] →
      Drops (run Port.step p as) i → Silent (run Port.step p (as ++ [i])) :=
  ⟨_, rfl, (@reset_silent_iff _ {} rfl
    [.start, .started, .call (.expire ⟨tick6p4Ns, .tick6p4us, 1⟩)]).mpr (by decide +kernel)⟩

/-- A link that drops after two bits of a NULL leaves both lines high and drives the other six. -/
theorem drop_not_silent : ∃ p, Port.new { linkStart := true } = .ok p ∧
    let q := run Port.step p (Port.handshake ++ [.driver, .driver])
    let r := q.step (.call (.feed .linkDisable))
    Drops q (.call (.feed .linkDisable)) ∧ r.driver.lines = some (true, true) ∧
      (run Port.step r (List.replicate 6 .driver)).driver.drivenBits = r.driver.drivenBits + 6 ∧
      ¬ Silent r := by
  refine ⟨_, rfl, by decide +kernel, by decide +kernel, by decide +kernel, fun h => ?_⟩
  refine absurd (h [] (always_nil.mpr ?_)).1 ?_
  · unfold InReset
    decide +kernel
  · decide +kernel

end SpaceWire.Silence
