import SpaceWire.TestBench

namespace SpaceWire

open Run

/-- A call that sends no ESC by itself. -/
def DriverCall.Paired (call : DriverCall) : Prop :=
  call.injectsEscape = true ∨ ∀ c ∈ call.requests, c.type ≠ .esc

theorem DriverCall.eq_sendIllegalEscape {call : DriverCall} (h : call.injectsEscape = true) :
    ∃ following, call = .sendIllegalEscape following := by
  cases call with
  | sendIllegalEscape following => exact ⟨following, rfl⟩
  | _ => cases h

/-- Types that a request and its character share. -/
def CharType.plain : CharType → Bool
  | .fct | .eop | .eep | .data | .null => true
  | .esc | .timecode | .broadcast => false

namespace Coverage

/-- The requests for a corrupt parity bit that are still to come. -/
def ahead (b : Scoreboard) : Nat := b.targets.countP (b.places ≤ ·)

/-- The counters of the driver beside what is expected of the monitor. -/
structure Reconciled (d : CharDriver) (b : Scoreboard) : Prop where
  held : b.held = none
  types : ∀ type, type.plain = true →
    d.typeCounts.get type = (b.expected.map Reading.type).count type
  codes : d.typeCounts.get .timecode + d.typeCounts.get .broadcast =
    (b.expected.map Reading.type).count .timecode +
      (b.expected.map Reading.type).count .broadcast
  escapes : d.typeCounts.get .esc =
    (b.expected.map Reading.type).count .esc + d.errorCounts.get .escapeError
  escapeErrors : (b.expected.flatMap Reading.error).count .escapeError =
    d.errorCounts.get .escapeError
  parityErrors : (b.expected.flatMap Reading.error).count .parityError + ahead b ≤
    d.errorCounts.get .badParity

/-- One more reading, after which fewer corrupt parity bits are to come when it has one. -/
structure Read (b : Scoreboard) (r : Reading) (b' : Scoreboard) : Prop where
  held : b'.held = none
  expected : b'.expected = b.expected ++ [r]
  parityErrors : r.error.count .parityError + ahead b' ≤ ahead b

variable {b b' : Scoreboard} {p q : Primitive} {c : Character} {d : CharDriver}

theorem countP_le_succ (targets : List Nat) (n : Nat) :
    targets.countP (n + 1 ≤ ·) + targets.count n = targets.countP (n ≤ ·) := by
  induction targets with
  | nil => rfl
  | cons t targets ih =>
    rw [List.countP_cons, List.countP_cons, List.count_cons, ← ih]
    simp only [decide_eq_true_eq, beq_iff_eq]
    split <;> split <;> split <;> omega

theorem ahead_primitive (b : Scoreboard) (p : Primitive) :
    ahead (b.primitive p) + b.targets.count b.places = ahead b := by
  obtain ⟨hplaces, htargets⟩ := b.primitive_places p
  rw [ahead, hplaces, htargets]
  exact countP_le_succ b.targets b.places

theorem parityErrors_le (b : Scoreboard) :
    (Reading.parityErrors (b.places ∈ b.targets)).count .parityError ≤
      b.targets.count b.places := by
  by_cases hmem : b.places ∈ b.targets
  · simp [Reading.parityErrors, hmem]
  · simp [Reading.parityErrors, hmem]

theorem read_single (hb : b.held = none) (hp : p.type ≠ .esc) :
    Read b (.single p (b.places ∈ b.targets)) (b.primitive p) := by
  have hahead := ahead_primitive b p
  have hle := parityErrors_le b
  refine ⟨?_, ?_, ?_⟩
  · simp [Scoreboard.primitive, hb, hp]
  · simp [Scoreboard.primitive, hb, hp]
  · simp only [Reading.single]
    omega

theorem count_escaped (q : Primitive) (corrupt : Bool) {label : ErrorLabel}
    (hlabel : label = .parityError) : (Reading.escaped q corrupt).error.count label =
      (Reading.parityErrors corrupt).count .parityError := by
  subst hlabel
  unfold Reading.escaped
  cases q.type with
  | data =>
    simp only [List.count_append]
    split <;> simp
  | _ => simp

theorem count_parityErrors_or (a b : Bool) :
    (Reading.parityErrors (a || b)).count .parityError ≤
      (Reading.parityErrors a).count .parityError +
        (Reading.parityErrors b).count .parityError := by
  cases a <;> cases b <;> decide

theorem primitive_held {corrupt : Bool} (h : b.held = some corrupt) (q : Primitive) :
    (b.primitive q).held = none ∧ (b.primitive q).expected =
      b.expected ++ [.escaped q (corrupt || decide (b.places ∈ b.targets))] := by
  simp [Scoreboard.primitive, h]

theorem read_pair (hb : b.held = none) (hp : p.type = .esc) (q : Primitive) :
    ∃ corrupt, Read b (.escaped q corrupt) ((b.primitive p).primitive q) := by
  have hheld : (b.primitive p).held = some (decide (b.places ∈ b.targets)) := by
    simp [Scoreboard.primitive, hb, hp]
  have hsame : (b.primitive p).expected = b.expected := by
    simp [Scoreboard.primitive, hb, hp]
  obtain ⟨hnone, hexpected⟩ := primitive_held hheld q
  refine ⟨_, hnone, hsame ▸ hexpected, ?_⟩
  have hahead := ahead_primitive b p
  have hahead' := ahead_primitive (b.primitive p) q
  have hle := parityErrors_le b
  have hle' := parityErrors_le (b.primitive p)
  have hor := count_parityErrors_or (b.places ∈ b.targets)
    ((b.primitive p).places ∈ (b.primitive p).targets)
  rw [count_escaped q _ rfl]
  omega

def IsCode (type : CharType) : Prop := type = .timecode ∨ type = .broadcast

theorem request_read (hb : b.held = none) (hc : c.type ≠ .esc) :
    ∃ r, Read b r (c.sentPrimitives.foldl Scoreboard.primitive b) ∧
      (r.type = c.type ∧ c.type.plain = true ∨ IsCode r.type ∧ IsCode c.type) ∧
      r.error.count .escapeError = 0 := by
  have hparity (corrupt : Bool) :
      (Reading.parityErrors corrupt).count .escapeError = 0 := by
    cases corrupt <;> rfl
  unfold Character.sentPrimitives
  cases ht : c.type with
  | esc => exact absurd ht hc
  | fct | eop | eep | data =>
    exact ⟨_, read_single hb (by simp [Primitive.type, controlContentBits, controlTypeByBits]),
      .inl ⟨rfl, rfl⟩, hparity _⟩
  | null =>
    obtain ⟨corrupt, hread⟩ := read_pair (p := ⟨true, [true, true]⟩) hb rfl ⟨true, [false, false]⟩
    exact ⟨_, hread, .inl ⟨rfl, rfl⟩, hparity corrupt⟩
  | timecode | broadcast =>
    obtain ⟨corrupt, hread⟩ := read_pair (p := ⟨true, [true, true]⟩) hb rfl
      ⟨false, lsbBits (c.escapedByte.getD 0).toNat⟩
    refine ⟨_, hread, .inr ⟨?_, ?_⟩, ?_⟩
    · simp only [Reading.escaped, Primitive.type, IsCode, Bool.false_eq_true, if_false]
      split <;> simp
    · simp [IsCode]
    · simp only [Reading.escaped, Primitive.type, Bool.false_eq_true, if_false, List.count_append,
        hparity]
      split <;> rfl

theorem illegal_read {following : CharType} (hb : b.held = none)
    (h : following = .esc ∨ following = .eop ∨ following = .eep) :
    ∃ r, Read b r (((Character.ofType .esc).sentPrimitives ++
        (Character.ofType following).sentPrimitives).foldl Scoreboard.primitive b) ∧
      r.type = following ∧ r.error.count .escapeError = 1 := by
  obtain ⟨bits, hbits, htype⟩ : ∃ bits, (Character.ofType following).sentPrimitives =
      [⟨true, bits⟩] ∧ controlTypeByBits bits = following := by
    obtain rfl | rfl | rfl := h <;> exact ⟨_, rfl, rfl⟩
  obtain ⟨corrupt, hread⟩ := read_pair (p := ⟨true, [true, true]⟩) hb rfl ⟨true, bits⟩
  have hescaped : Reading.escaped ⟨true, bits⟩ corrupt =
      { type := following, error := Reading.parityErrors corrupt ++ [.escapeError] } := by
    simp only [Reading.escaped, Primitive.type, if_pos, htype]
    obtain rfl | rfl | rfl := h <;> rfl
  refine ⟨_, by rw [hbits]; exact hread, ?_⟩
  rw [hescaped]
  refine ⟨rfl, ?_⟩
  cases corrupt <;> rfl

/-- Requests of these types are counted as the one reading that comes of them. -/
structure Alike (sent : List CharType) (r : Reading) (injected : Nat) : Prop where
  types : ∀ type, type.plain = true → sent.count type = [r.type].count type
  codes : sent.count .timecode + sent.count .broadcast =
    [r.type].count .timecode + [r.type].count .broadcast
  escapes : sent.count .esc = [r.type].count .esc + injected
  escapeErrors : r.error.count .escapeError = injected

theorem Reconciled.read {sent : List CharType} {r : Reading} {injected : Nat} {d' : CharDriver}
    (h : Reconciled d b) (hread : Read b r b') (halike : Alike sent r injected)
    (htypes : d'.typeCounts = d.typeCounts.addAll sent)
    (hescape : d'.errorCounts.get .escapeError = d.errorCounts.get .escapeError + injected)
    (hparity : d'.errorCounts.get .badParity = d.errorCounts.get .badParity) :
    Reconciled d' b' := by
  have hcount (type : CharType) : (b'.expected.map Reading.type).count type =
      (b.expected.map Reading.type).count type + [r.type].count type := by
    rw [hread.expected, List.map_append, List.count_append]
    rfl
  have herror (label : ErrorLabel) : (b'.expected.flatMap Reading.error).count label =
      (b.expected.flatMap Reading.error).count label + r.error.count label := by
    rw [hread.expected, List.flatMap_append, List.count_append, List.flatMap_singleton]
  refine ⟨hread.held, ?_, ?_, ?_, ?_, ?_⟩
  · intro type hplain
    rw [htypes, Counter.get_addAll, hcount, h.types type hplain, halike.types type hplain]
  · have hcodes := h.codes
    have hmore := halike.codes
    simp only [htypes, Counter.get_addAll, hcount]
    omega
  · have hescapes := h.escapes
    have hmore := halike.escapes
    rw [htypes, Counter.get_addAll, hcount, hescape]
    omega
  · rw [herror, hescape, h.escapeErrors, halike.escapeErrors]
  · have hbefore := h.parityErrors
    have hmore := hread.parityErrors
    rw [herror, hparity]
    omega

theorem Reconciled.request (h : Reconciled d b) (hc : c.type ≠ .esc) :
    Reconciled (d.after [c]) (c.sentPrimitives.foldl Scoreboard.primitive b) := by
  obtain ⟨r, hread, htype, hescape⟩ := request_read h.held hc
  have halike : Alike [c.type] r 0 := by
    obtain ⟨htype, _⟩ | ⟨hr, hc⟩ := htype
    · rw [← htype]
      exact ⟨fun _ _ => rfl, rfl, rfl, hescape⟩
    · refine ⟨fun type hplain => ?_, ?_, ?_, hescape⟩
      · rw [List.count_singleton, List.count_singleton]
        obtain hr | hr := hr <;> obtain hc | hc := hc <;> rw [hr, hc] <;>
          cases type <;> simp_all [CharType.plain]
      · obtain hr | hr := hr <;> obtain hc | hc := hc <;> rw [hr, hc] <;> rfl
      · obtain hr | hr := hr <;> obtain hc | hc := hc <;> rw [hr, hc] <;> rfl
  exact h.read hread halike rfl rfl rfl

theorem Reconciled.illegal (h : Reconciled d b) {following : CharType}
    (hf : following = .esc ∨ following = .eop ∨ following = .eep) :
    Reconciled { d.after [.ofType .esc, .ofType following] with
        errorCounts := d.errorCounts.add .escapeError }
      (((Character.ofType .esc).sentPrimitives ++
        (Character.ofType following).sentPrimitives).foldl Scoreboard.primitive b) := by
  obtain ⟨r, hread, htype, hescape⟩ := illegal_read h.held hf
  have halike : Alike [.esc, following] r 1 := by
    refine ⟨fun type hplain => ?_, ?_, ?_, hescape⟩
    · have hne : CharType.esc ≠ type := by
        rintro rfl
        cases hplain
      rw [htype, List.count_cons_of_ne hne]
    · rw [htype]
      rfl
    · rw [htype]
      exact List.count_cons_self
  refine h.read hread halike rfl ?_ ?_
  · rw [Counter.get_add, if_pos rfl]
  · rw [Counter.get_add, if_neg (by decide), Nat.add_zero]

theorem Reconciled.requests (h : Reconciled d b) {cs : List Character}
    (hcs : ∀ c ∈ cs, c.type ≠ .esc) :
    Reconciled (d.after cs)
      ((cs.flatMap Character.sentPrimitives).foldl Scoreboard.primitive b) := by
  induction cs generalizing d b with
  | nil =>
    have hnone : d.after [] = d := by
      simp [CharDriver.after, Encoder.encodePrimitives, Counter.addAll]
    rw [hnone]
    exact h
  | cons c cs ih =>
    obtain ⟨hc, hcs⟩ := List.forall_mem_cons.mp hcs
    have hrest := ih (h.request hc) hcs
    rwa [← CharDriver.after_append, ← List.foldl_append] at hrest

theorem Reconciled.forced (h : Reconciled d b) (encoder : Encoder) (offset : Nat) :
    Reconciled { d with encoder, errorCounts := d.errorCounts.add .badParity }
      { b with targets := b.targets ++ [b.places + offset] } := by
  refine ⟨h.held, h.types, h.codes, ?_, ?_, ?_⟩
  · rw [Counter.get_add, if_neg (by decide)]
    exact h.escapes
  · rw [Counter.get_add, if_neg (by decide)]
    exact h.escapeErrors
  · have hparity := h.parityErrors
    have hahead : ahead { b with targets := b.targets ++ [b.places + offset] } = ahead b + 1 := by
      simp [ahead]
    rw [Counter.get_add, if_pos rfl, hahead]
    exact Nat.succ_le_succ hparity

theorem Reconciled.call (h : Reconciled d b) {call : DriverCall} (hf : call.Framed)
    (hp : call.Paired) {s : Bench} (hd : s.driver = d) (hb : s.board = b) :
    Reconciled (s.step (.call call)).driver (s.step (.call call)).board := by
  subst hd hb
  have hcalled := s.driver.called hf
  simp only [Bench.step]
  generalize s.driver.call call = r at hcalled
  cases hcalled with
  | rejected err => exact h
  | @forced offset hcall =>
    subst hcall
    exact h.forced _ offset.toNat
  | sent hforce hsends hfollowing =>
    rw [Scoreboard.enter_requests hforce]
    cases hinjects : call.injectsEscape with
    | true =>
      obtain ⟨following, rfl⟩ := DriverCall.eq_sendIllegalEscape hinjects
      simpa [DriverCall.requests] using h.illegal (hfollowing following rfl)
    | false =>
      have hesc := hp.resolve_left (by simp [hinjects])
      exact h.requests hesc

variable {s : Bench}

/-- What the monitor has counted is what the scoreboard says of the bits it has taken. -/
theorem counted (h : s.Consistent) (type : CharType) (label : ErrorLabel) :
    s.monitor.decoder.typeCounts.get type =
        ((s.published.map Character.reading).map Reading.type).count type ∧
      s.monitor.decoder.errorCounts.get label =
        ((s.published.map Character.reading).flatMap Reading.error).count label := by
  rw [h.tallied.typeCounts, h.tallied.errorCounts, Counter.get_addAll, Counter.get_addAll,
    Counter.get_empty, Counter.get_empty, Nat.zero_add, Nat.zero_add, List.map_map,
    List.flatMap_map]
  exact ⟨rfl, rfl⟩

end Coverage

end SpaceWire
