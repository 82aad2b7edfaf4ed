import SpaceWire.Scoreboard

namespace SpaceWire

open Run

/-- A call of the driver, one bit from its sink to the source of the monitor at a simulation time,
or a call of `recv`. -/
inductive BenchInput
  | call (call : DriverCall)
  | bit (simTime : Option Nat)
  | recv

/-- A driver and a monitor of the character layer on one line, of whose bits the monitor has taken
the first `taken`, the characters received from it, and the scoreboard. -/
structure Bench where
  driver : CharDriver := {}
  monitor : CharMonitor := {}
  taken : Nat := 0
  received : List Published := []
  board : Scoreboard := {}

namespace Bench

def step (s : Bench) : BenchInput → Bench
  | .call call =>
    match s.driver.call call with
    | (driver, .error _) => { s with driver }
    | (driver, .ok ()) => { s with driver, board := s.board.enter call }
  | .bit simTime =>
    match s.driver.sunk[s.taken]? with
    | none => s
    | some bit => { s with monitor := s.monitor.takeBit (bit, simTime), taken := s.taken + 1 }
  | .recv =>
    match s.monitor.recv with
    | (_, none) => s
    | (monitor, some p) => { s with monitor, received := s.received ++ [p] }

def published (s : Bench) : List Character :=
  (s.received ++ s.monitor.queue).map Published.character

/-- The decoder after the bits that have been taken, and what they were decoded as. -/
def decodes (s : Bench) : Decoder × List Character :=
  (Decoder.new).push (s.driver.sunk.take s.taken)

/-- The scoreboard is right about all bits, and the monitor publishes what the bits it has taken
say. -/
structure Consistent (s : Bench) : Prop where
  agree : s.board.Agree s.driver.encoder ((Decoder.new).push s.driver.sunk).1
  expected : s.board.expected =
    ((Decoder.new).push s.driver.sunk).2.map Character.reading
  taken : s.taken ≤ s.driver.sunk.length
  strict : s.monitor.strict = false
  raised : s.monitor.raised = none
  decoder : s.monitor.decoder.toDecoder = s.decodes.1
  published : s.published = s.decodes.2
  tallied : CharMonitor.Tallied s.monitor.decoder s.published

variable {s : Bench} {is : List BenchInput}

theorem Consistent.sink (h : Consistent s) {driver : CharDriver} {board : Scoreboard}
    {bits : List Bool} (hsunk : driver.sunk = s.driver.sunk ++ bits)
    (hagree : board.Agree driver.encoder ((Decoder.new).push driver.sunk).1)
    (hexpected : board.expected = ((Decoder.new).push driver.sunk).2.map Character.reading) :
    Consistent { s with driver, board } := by
  have hdecodes : decodes { s with driver, board } = s.decodes := by
    simp only [decodes, hsunk, List.take_append_of_le_length h.taken]
  refine ⟨hagree, hexpected, ?_, h.strict, h.raised, ?_, ?_, h.tallied⟩
  · rw [hsunk, List.length_append]
    exact h.taken.trans (Nat.le_add_right _ _)
  · rw [hdecodes]
    exact h.decoder
  · rw [hdecodes]
    exact h.published

theorem Consistent.call (h : Consistent s) {call : DriverCall} (hf : call.Framed) :
    Consistent (s.step (.call call)) := by
  have hcalled := s.driver.called hf
  simp only [step]
  generalize s.driver.call call = r at hcalled
  cases hcalled with
  | rejected err => exact h
  | @forced offset hcall =>
    subst hcall
    refine h.sink (List.append_nil _).symm ?_ h.expected
    refine ⟨h.agree.boundary, h.agree.content, fun o => ?_, h.agree.held⟩
    simp [Scoreboard.enter, h.agree.targets]
  | sent hforce hsends =>
    have hps : ∀ p ∈ call.requests.flatMap Character.sentPrimitives, p.WellFormed := by
      intro p hp
      obtain ⟨c, hc, hp⟩ := List.mem_flatMap.mp hp
      exact (hsends c hc).wellFormed p hp
    obtain ⟨hagree, hread⟩ := h.agree.primitives hps
    rw [Scoreboard.enter_requests hforce]
    apply h.sink rfl
    · rw [CharDriver.after, Decoder.push_append]
      exact hagree
    · rw [CharDriver.after, Decoder.push_append, List.map_append, ← h.expected]
      exact hread

theorem Consistent.bit (h : Consistent s) (simTime : Option Nat) :
    Consistent (s.step (.bit simTime)) := by
  simp only [step]
  split
  · exact h
  · rename_i bit hbit
    have htake : s.driver.sunk.take (s.taken + 1) = s.driver.sunk.take s.taken ++ [bit] := by
      rw [List.take_add_one, hbit]
      rfl
    have hdecodes : ((Decoder.new).push (s.driver.sunk.take (s.taken + 1))) =
        ((s.decodes.1.feed bit).1, s.decodes.2 ++ (s.decodes.1.feed bit).2) := by
      rw [htake, Decoder.push_append]
      simp [Bench.decodes, Decoder.push_cons]
    have hfeed := CoverageDecoder.feed_toDecoder s.monitor.decoder bit
    rw [h.decoder] at hfeed
    rw [← hfeed] at hdecodes
    have hpublished : (s.received ++ (s.monitor.queue ++
        (s.monitor.decoder.feed bit).2.map fun c => (⟨c, simTime⟩ : Published))).map
          Published.character =
          s.published ++ (s.monitor.decoder.feed bit).2 := by
      simp [Bench.published, Function.comp_def]
    rw [CharMonitor.takeBit_lenient h.strict h.raised]
    refine ⟨h.agree, h.expected, ?_, h.strict, h.raised, ?_, ?_, ?_⟩
    · exact (List.getElem?_eq_some_iff.mp hbit).1
    · exact (congrArg Prod.fst hdecodes).symm
    · refine hpublished.trans ?_
      rw [h.published]
      exact (congrArg Prod.snd hdecodes).symm
    · rw [Bench.published, hpublished]
      exact h.tallied.feed bit

theorem Consistent.recv (h : Consistent s) : Consistent (s.step .recv) := by
  simp only [step, CharMonitor.recv]
  cases hqueue : s.monitor.queue with
  | nil => exact h
  | cons p rest =>
    have hpublished : Bench.published { s with
        monitor := { s.monitor with queue := rest }, received := s.received ++ [p] } =
          s.published := by
      simp [Bench.published, hqueue]
    refine ⟨h.agree, h.expected, h.taken, h.strict, h.raised, h.decoder, ?_, ?_⟩
    · exact hpublished.trans h.published
    · rw [hpublished]
      exact h.tallied

end Bench

end SpaceWire
