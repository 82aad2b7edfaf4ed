import SpaceWire.CharDriver
import SpaceWire.Decoder
import SpaceWire.ErrorText
import SpaceWire.Run

namespace SpaceWire

open Run Labels

/-- A decoder with its functional coverage counters. -/
structure CoverageDecoder extends Decoder where
  typeCounts : Counter CharType := .empty
  errorCounts : Counter ErrorLabel := .empty

namespace CoverageDecoder

def new (initialPrevContentBits : List Bool := []) : CoverageDecoder :=
  { toDecoder := Decoder.new initialPrevContentBits }

def reset (d : CoverageDecoder) : CoverageDecoder := { toDecoder := d.toDecoder.reset }

def record (d : CoverageDecoder) (c : Character) : CoverageDecoder :=
  { d with typeCounts := d.typeCounts.add c.type, errorCounts := d.errorCounts.addAll c.error }

def feed (d : CoverageDecoder) (bit : Bool) : CoverageDecoder × List Character :=
  let (decoder, characters) := d.toDecoder.feed bit
  (characters.foldl record { d with toDecoder := decoder }, characters)

def stats (d : CoverageDecoder) : CoverageStats :=
  { characters := coverageDict CharType.name d.typeCounts
    errors := coverageDict ErrorLabel.text d.errorCounts }

theorem foldl_record_toDecoder (d : CoverageDecoder) (cs : List Character) :
    (cs.foldl record d).toDecoder = d.toDecoder := by
  induction cs generalizing d with
  | nil => rfl
  | cons c cs ih => exact ih (d.record c)

theorem feed_toDecoder (d : CoverageDecoder) (bit : Bool) :
    ((d.feed bit).1.toDecoder, (d.feed bit).2) = d.toDecoder.feed bit := by
  simp only [feed, foldl_record_toDecoder]

end CoverageDecoder

inductive StrictError
  | escapeError | parityError | protocolError
  deriving DecidableEq

structure MonitorError where
  error : StrictError
  character : Character
  message : String
  deriving DecidableEq

/-- A decoded character with the simulation time of its last bit. -/
structure Published where
  character : Character
  simTime : Option Nat
  deriving DecidableEq

def bitRepr (bit : Bool) : String := if bit then "1" else "0"

def bitsRepr (bits : List Bool) : String := "[" ++ ", ".intercalate (bits.map bitRepr) ++ "]"

namespace Published

def formatError (p : Published) : String :=
  let checks := ", ".intercalate ((p.character.parityChecks.filter
    fun check => check.expected ≠ check.got).map fun check =>
      "bit" ++ toString check.bitIndex ++ ":expected=" ++ bitRepr check.expected ++
        ":got=" ++ bitRepr check.got)
  let parityDetail := if checks = "" then "" else " parity=(" ++ checks ++ ")"
  (errorText p.character.error).getD "None" ++ " on " ++ p.character.type.name ++ " raw=" ++
    bitsRepr p.character.rawBits ++ parityDetail ++ " sim_time=" ++
    (p.simTime.map toString).getD "None"

def strictError (p : Published) : MonitorError :=
  { error := if "escape_error" ∈ errorTypes (errorText p.character.error) then .escapeError
      else if "parity_error" ∈ errorTypes (errorText p.character.error) then .parityError
      else .protocolError
    character := p.character
    message := p.formatError }

end Published

/-- A character monitor; `raised` is the exception that has ended its `run`. -/
structure CharMonitor where
  decoder : CoverageDecoder := .new
  strict : Bool := false
  queue : List Published := []
  raised : Option MonitorError := none

namespace CharMonitor

/-- Check one decoded character and put it on the queue. -/
def publish (m : CharMonitor) (p : Published) : CharMonitor :=
  if m.raised.isSome then m
  else if p.character.error ≠ [] ∧ m.strict = true then { m with raised := some p.strictError }
  else { m with queue := m.queue ++ [p] }

/-- `run` takes one bit from its source, at a simulation time. -/
def takeBit (m : CharMonitor) (input : Bool × Option Nat) : CharMonitor :=
  if m.raised.isSome then m
  else
    let (decoder, characters) := m.decoder.feed input.1
    (characters.map fun character => ⟨character, input.2⟩).foldl publish { m with decoder }

/-- The next decoded character, none when the caller has to wait. -/
def recv (m : CharMonitor) : CharMonitor × Option Published :=
  match m.queue with
  | [] => (m, none)
  | p :: rest => ({ m with queue := rest }, some p)

def stats (m : CharMonitor) : CoverageStats := m.decoder.stats

/-- What a monitor has published, and what it has raised for. -/
def decoded (m : CharMonitor) : List Character :=
  m.queue.map Published.character ++ (m.raised.map MonitorError.character).toList

def coverageOf (cs : List Character) : CoverageStats :=
  { characters := (firstSeen (cs.map Character.type)).map fun type =>
      (type.name, (cs.map Character.type).count type)
    errors := (firstSeen (cs.flatMap Character.error)).map fun label =>
      (label.text, (cs.flatMap Character.error).count label) }

structure Tallied (d : CoverageDecoder) (cs : List Character) : Prop where
  typeCounts : d.typeCounts = Counter.empty.addAll (cs.map Character.type)
  errorCounts : d.errorCounts = Counter.empty.addAll (cs.flatMap Character.error)

structure Lenient (m : CharMonitor) : Prop where
  strict : m.strict = false
  raised : m.raised = none
  tallied : Tallied m.decoder (m.queue.map Published.character)

/-- A strict monitor is where the other is while all goes well, and where it was at its first
erroneous character after that. -/
inductive Stricter (lenient : CharMonitor) : CharMonitor → Prop
  | going {m : CharMonitor} (hstrict : m.strict = true) (hraised : m.raised = none)
      (hdecoder : m.decoder = lenient.decoder) (hqueue : m.queue = lenient.queue)
      (hclean : ∀ p ∈ m.queue, p.character.error = []) : Stricter lenient m
  | stopped {m : CharMonitor} {p : Published} {rest : List Published}
      (hraised : m.raised = some p.strictError) (herror : p.character.error ≠ [])
      (hqueue : lenient.queue = m.queue ++ p :: rest)
      (hclean : ∀ p ∈ m.queue, p.character.error = [])
      (htallied : Tallied m.decoder ((m.queue ++ [p]).map Published.character)) :
      Stricter lenient m

variable {d : CoverageDecoder} {m m' : CharMonitor} {cs : List Character} {c : Character}

theorem Tallied.record (h : Tallied d cs) (c : Character) : Tallied (d.record c) (cs ++ [c]) := by
  constructor
  · simp only [CoverageDecoder.record, h.typeCounts, List.map_append, List.map_singleton,
      Counter.addAll_append]
    rfl
  · simp only [CoverageDecoder.record, h.errorCounts, List.flatMap_append, List.flatMap_singleton,
      Counter.addAll_append]

theorem Tallied.feed (h : Tallied d cs) (bit : Bool) :
    Tallied (d.feed bit).1 (cs ++ (d.feed bit).2) := by
  have hrecord (characters : List Character) {d : CoverageDecoder} {cs : List Character}
      (h : Tallied d cs) :
      Tallied (characters.foldl CoverageDecoder.record d) (cs ++ characters) := by
    induction characters generalizing d cs with
    | nil => rwa [List.append_nil]
    | cons c characters ih =>
      have hrest := ih (h.record c)
      rwa [List.append_assoc] at hrest
  exact hrecord _ (d := { d with toDecoder := _ }) ⟨h.typeCounts, h.errorCounts⟩

theorem Tallied.stats (h : Tallied d cs) : d.stats = coverageOf cs := by
  simp only [CoverageDecoder.stats, coverageDict, coverageOf, h.typeCounts, h.errorCounts,
    Counter.items_addAll_empty, List.map_map]
  rfl

/-- What a bit does to every monitor with this decoder: it completes at most one character, which
is recorded and published. -/
inductive Taken (d : CoverageDecoder) (input : Bool × Option Nat) : Prop
  | nothing (d' : CoverageDecoder)
      (htake : ∀ m : CharMonitor, m.raised = none → m.decoder = d →
        m.takeBit input = { m with decoder := d' })
      (htallied : ∀ cs, Tallied d cs → Tallied d' cs)
  | character (d' : CoverageDecoder) (p : Published)
      (htake : ∀ m : CharMonitor, m.raised = none → m.decoder = d →
        m.takeBit input = publish { m with decoder := d' } p)
      (htallied : ∀ cs, Tallied d cs → Tallied d' (cs ++ [p.character]))

theorem taken (d : CoverageDecoder) (input : Bool × Option Nat) : Taken d input := by
  have hlen := d.toDecoder.feed_length input.1
  have hsame : (d.feed input.1).2 = (d.toDecoder.feed input.1).2 := rfl
  have htallied (cs : List Character) (h : Tallied d cs) := h.feed input.1
  cases hcs : (d.feed input.1).2 with
  | nil =>
    rw [hcs] at htallied
    refine .nothing (d.feed input.1).1 (fun m hraised hdecoder => ?_) ?_
    · simp [takeBit, hraised, hdecoder, hcs]
    · simpa using htallied
  | cons c cs =>
    obtain rfl : cs = [] := by simpa [← hsame, hcs] using hlen
    rw [hcs] at htallied
    refine .character (d.feed input.1).1 ⟨c, input.2⟩ (fun m hraised hdecoder => ?_) htallied
    simp [takeBit, hraised, hdecoder, hcs]

theorem takeBit_raised (h : m.raised.isSome = true) (input : Bool × Option Nat) :
    m.takeBit input = m := by simp [takeBit, h]

theorem publish_going {p : Published} (hraised : m.raised = none)
    (hgoes : m.strict = true → p.character.error = []) :
    m.publish p = { m with queue := m.queue ++ [p] } := by
  have hno : ¬ (p.character.error ≠ [] ∧ m.strict = true) := fun h => h.1 (hgoes h.2)
  simp only [publish, hraised, if_neg hno]
  rfl

theorem publish_stops {p : Published} (hraised : m.raised = none) (hstrict : m.strict = true)
    (herror : p.character.error ≠ []) :
    m.publish p = { m with raised := some p.strictError } := by
  simp only [publish, hraised, if_pos (And.intro herror hstrict)]
  rfl

theorem takeBit_lenient (hstrict : m.strict = false) (hraised : m.raised = none)
    (input : Bool × Option Nat) : m.takeBit input =
      { m with decoder := (m.decoder.feed input.1).1
               queue := m.queue ++ (m.decoder.feed input.1).2.map fun c => ⟨c, input.2⟩ } := by
  have hlen := m.decoder.toDecoder.feed_length input.1
  have hsame : (m.decoder.feed input.1).2 = (m.decoder.toDecoder.feed input.1).2 := rfl
  simp only [takeBit, hraised]
  cases hcs : (m.decoder.feed input.1).2 with
  | nil => simp
  | cons c cs =>
    obtain rfl : cs = [] := by simpa [← hsame, hcs] using hlen
    simp [publish, hstrict]

theorem Lenient.takeBit (h : Lenient m) (input : Bool × Option Nat) :
    Lenient (m.takeBit input) := by
  have hno : m.strict = true → False := by simp [h.strict]
  cases taken m.decoder input with
  | nothing d htake htallied =>
    rw [htake m h.raised rfl]
    exact ⟨h.strict, h.raised, htallied _ h.tallied⟩
  | character d p htake htallied =>
    rw [htake m h.raised rfl,
      publish_going (m := { m with decoder := d }) h.raised fun hs => (hno hs).elim]
    refine ⟨h.strict, h.raised, ?_⟩
    simpa using htallied _ h.tallied

theorem Stricter.takeBit (hm : Lenient m) (h : Stricter m m') (input : Bool × Option Nat) :
    Stricter (m.takeBit input) (m'.takeBit input) := by
  have hno : m.strict = true → False := by simp [hm.strict]
  cases h with
  | going hstrict hraised hdecoder hqueue hclean =>
    cases taken m.decoder input with
    | nothing d htake htallied =>
      rw [htake m hm.raised rfl, htake m' hraised hdecoder]
      exact .going hstrict hraised rfl hqueue hclean
    | character d p htake htallied =>
      rw [htake m hm.raised rfl, htake m' hraised hdecoder,
        publish_going (m := { m with decoder := d }) hm.raised fun hs => (hno hs).elim]
      by_cases herror : p.character.error = []
      · rw [publish_going (m := { m' with decoder := d }) hraised fun _ => herror]
        refine .going hstrict hraised rfl (by simp [hqueue]) ?_
        simpa [or_imp, forall_and, herror] using hclean
      · rw [publish_stops (m := { m' with decoder := d }) hraised hstrict herror]
        refine @Stricter.stopped _ _ p [] rfl herror (by simp [hqueue]) hclean ?_
        have hpublished := htallied _ hm.tallied
        rwa [← hqueue, ← List.map_singleton, ← List.map_append] at hpublished
  | @stopped p rest hraised herror hqueue hclean htallied =>
    rw [takeBit_raised (m := m') (by rw [hraised]; rfl)]
    obtain ⟨rest', hrest⟩ : ∃ rest', (m.takeBit input).queue = m.queue ++ rest' := by
      cases taken m.decoder input with
      | nothing d htake =>
        rw [htake m hm.raised rfl]
        exact ⟨[], (List.append_nil _).symm⟩
      | character d q htake =>
        rw [htake m hm.raised rfl,
          publish_going (m := { m with decoder := d }) hm.raised fun hs => (hno hs).elim]
        exact ⟨[q], rfl⟩
    refine @Stricter.stopped _ _ p (rest ++ rest') hraised herror ?_ hclean htallied
    rw [hrest, hqueue, List.append_assoc, List.cons_append]

theorem strictError_error (p : Published) : p.strictError.error =
    if .escapeError ∈ p.character.error then .escapeError
    else if .parityError ∈ p.character.error then .parityError
    else .protocolError := by
  have hlabel (label : ErrorLabel) :
      label.text ∈ errorTypes (errorText p.character.error) ↔ label ∈ p.character.error := by
    rw [ErrorText.errorTypes_errorText]
    exact List.mem_map_of_injective ErrorText.text_injective
  have hescape := hlabel .escapeError
  have hparity := hlabel .parityError
  simp only [ErrorLabel.text] at hescape hparity
  simp only [Published.strictError, hescape, hparity]

theorem takeWhile_find {ps rest : List Published} {p : Published} {f : Published → Bool}
    (hps : ∀ q ∈ ps, f q = true) (hp : f p = false) :
    (ps ++ p :: rest).takeWhile f = ps ∧ (ps ++ p :: rest).find? (!f ·) = some p := by
  constructor
  · rw [List.takeWhile_append_of_pos hps, List.takeWhile_cons_of_neg (by simp [hp]),
      List.append_nil]
  · rw [List.find?_append, List.find?_eq_none.mpr (by simpa using hps)]
    simp [hp]

theorem stricter_run (hm : Lenient m) (h : Stricter m m') (inputs : List (Bool × Option Nat)) :
    Lenient (run takeBit m inputs) ∧ Stricter (run takeBit m inputs) (run takeBit m' inputs) := by
  induction inputs generalizing m m' with
  | nil => exact ⟨hm, h⟩
  | cons input inputs ih => exact ih (hm.takeBit input) (h.takeBit hm input)

/-- A strict monitor publishes what another one does before its first erroneous character, and
raises what that one calls for; either counts all that it has decoded. -/
theorem strict_stops_at_first_error (decoder : Decoder) (inputs : List (Bool × Option Nat)) :
    let start : CharMonitor := { decoder := { toDecoder := decoder } }
    let lenient := run takeBit start inputs
    let strict := run takeBit { start with strict := true } inputs
    let clean (p : Published) : Bool := p.character.error = []
    lenient.raised = none ∧ strict.queue = lenient.queue.takeWhile clean ∧
      strict.raised = (lenient.queue.find? (!clean ·)).map Published.strictError ∧
      lenient.stats = coverageOf lenient.decoded ∧ strict.stats = coverageOf strict.decoded ∧
      ∀ p ∈ lenient.queue, p.strictError.error =
        if .escapeError ∈ p.character.error then .escapeError
        else if .parityError ∈ p.character.error then .parityError
        else .protocolError := by
  intro start lenient strict clean
  have hstart : Lenient start := ⟨rfl, rfl, ⟨rfl, rfl⟩⟩
  have hstrict : Stricter start { start with strict := true } :=
    .going rfl rfl rfl rfl (by simp [start])
  obtain ⟨hlenient, hstricter⟩ := stricter_run hstart hstrict inputs
  change Lenient lenient at hlenient
  change Stricter lenient strict at hstricter
  have hstats : lenient.stats = coverageOf lenient.decoded := by
    rw [stats, hlenient.tallied.stats, decoded, hlenient.raised]
    simp
  refine ⟨hlenient.raised, ?_⟩
  cases hstricter with
  | going hstrict hraised hdecoder hqueue hclean =>
    have hall : ∀ p ∈ lenient.queue, clean p = true := by
      rw [← hqueue]
      exact fun p hp => decide_eq_true (hclean p hp)
    refine ⟨?_, ?_, hstats, ?_, fun p _ => strictError_error p⟩
    · rw [hqueue, List.takeWhile_eq_self_iff.mpr hall]
    · rw [hraised, List.find?_eq_none.mpr (by simpa using hall)]
      rfl
    · rw [stats, hdecoder, ← stats, hstats, decoded, decoded, hqueue, hraised, hlenient.raised]
  | @stopped p rest hraised herror hqueue hclean htallied =>
    obtain ⟨htake, hfind⟩ := @takeWhile_find strict.queue rest p clean
      (fun p hp => decide_eq_true (hclean p hp)) (decide_eq_false herror)
    refine ⟨?_, ?_, hstats, ?_, fun p _ => strictError_error p⟩
    · rw [hqueue, htake]
    · rw [hqueue, hfind, hraised]
      rfl
    · rw [stats, htallied.stats, decoded, hraised]
      simp [Published.strictError]

end CharMonitor

end SpaceWire
