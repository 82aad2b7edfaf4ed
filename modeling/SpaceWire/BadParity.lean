import SpaceWire.Attribution
import SpaceWire.Requests
import Mathlib.Data.List.Forall2

namespace SpaceWire

open Primitive

def Character.sentPrimitives (c : Character) : List Primitive :=
  let esc : Primitive := ⟨true, [true, true]⟩
  match c.type with
  | .fct | .eop | .eep | .esc => [⟨true, (controlContentBits c.type).getD []⟩]
  | .data => [⟨false, lsbBits (c.value.getD 0).toNat⟩]
  | .null => [esc, ⟨true, [false, false]⟩]
  | .timecode | .broadcast => [esc, ⟨false, lsbBits (c.escapedByte.getD 0).toNat⟩]

/-- A call on an encoder whose parity bits are to be corrupted. -/
inductive Injection
  | forceBadParity (offset : Nat)
  | encode (request : Character)

def Injection.requests (script : List Injection) : List Character :=
  script.filterMap fun
    | .forceBadParity _ => none
    | .encode request => some request

def Injection.primitives (script : List Injection) : List Primitive :=
  (requests script).flatMap Character.sentPrimitives

/-- A primitive that a call has asked to corrupt, counted from one that has `n` before it. -/
def Injection.TargetedFrom (n : Nat) (script : List Injection) (k : Nat) : Prop :=
  ∃ before offset after, script = before ++ .forceBadParity offset :: after ∧
    k = n + (primitives before).length + offset

namespace Encoder

def inject (e : Encoder) : List Injection → Encoder × Except Exn (List Bool)
  | [] => (e, .ok [])
  | .forceBadParity offset :: script =>
    match e.forceBadParity offset with
    | .error err => (e, .error err)
    | .ok e => e.inject script
  | .encode request :: script =>
    match e.encode request with
    | (e, .error err) => (e, .error err)
    | (e, .ok bits) =>
      let (e, rest) := e.inject script
      (e, rest.map (bits ++ ·))

def encodePrimitives (e : Encoder) : List Primitive → Encoder × List Bool
  | [] => (e, [])
  | p :: ps =>
    let (e, raw) := e.encodePrimitive p.dcFlag p.contentBits
    let (e, rest) := e.encodePrimitives ps
    (e, raw ++ rest)

end Encoder

/-- The bits of primitives that follow the content `prev` and have `k` primitives before them:
the parity bits that are wrong are those at the places that are bad. -/
inductive Primitive.Inverted (bad : Nat → Prop) :
    Nat → List Bool → List Primitive → List (List Bool) → Prop
  | nil (k : Nat) (prev : List Bool) : Inverted bad k prev [] []
  | cons {k : Nat} {prev : List Bool} {parity : Bool} {p : Primitive} {ps : List Primitive}
      {raws : List (List Bool)} (h : parity ≠ computeParity prev p.dcFlag ↔ bad k)
      (rest : Inverted bad (k + 1) p.contentBits ps raws) :
      Inverted bad k prev (p :: ps) ((parity :: p.dcFlag :: p.contentBits) :: raws)

namespace Primitive.Inverted

variable {bad bad' : Nat → Prop} {k : Nat} {prev : List Bool} {ps qs : List Primitive}
  {raws raws' : List (List Bool)}

theorem congr (h : Inverted bad k prev ps raws)
    (hiff : ∀ j, k ≤ j → j < k + ps.length → (bad j ↔ bad' j)) : Inverted bad' k prev ps raws := by
  induction h with
  | nil => exact .nil _ _
  | cons h rest ih =>
    simp only [List.length_cons] at hiff
    refine .cons (h.trans (hiff _ le_rfl (by omega))) (ih fun j hj hlt => hiff j ?_ ?_)
    · omega
    · omega

theorem append (h : Inverted bad k prev ps raws)
    (h' : Inverted bad (k + ps.length) (lastContent prev ps) qs raws') :
    Inverted bad k prev (ps ++ qs) (raws ++ raws') := by
  induction h with
  | nil => exact h'
  | @cons k prev parity p ps raws h rest ih =>
    refine .cons h (ih ?_)
    simpa only [List.length_cons, lastContent, Nat.add_assoc, Nat.add_comm 1] using h'

theorem length_eq (h : Inverted bad k prev ps raws) : raws.length = ps.length := by
  induction h with
  | nil => rfl
  | cons _ _ ih => rw [List.length_cons, List.length_cons, ih]

end Primitive.Inverted

namespace Encoder

variable {e e' : Encoder} {c : Character} {bits : List Bool} {v : Int}

theorem encodePrimitives_new (prev : List Bool) (ps : List Primitive) :
    (new prev).encodePrimitives ps = (new (lastContent prev ps), stream prev ps) := by
  induction ps generalizing prev with
  | nil => rfl
  | cons p ps ih =>
    simp only [encodePrimitives, encodePrimitive_new, ih, lastContent, stream]

/-- The pending requests are the bad places ahead, and each primitive meets the one at its own
place. -/
theorem encodePrimitives_inverted {bad : Nat → Prop} {k : Nat} (ps : List Primitive)
    (h : ∀ o, o ∈ e.badParityOffsets ↔ bad (k + o)) :
    (∃ raws, (e.encodePrimitives ps).2 = raws.flatten ∧
        Inverted bad k e.prevContentBits ps raws) ∧
      (∀ o, o ∈ (e.encodePrimitives ps).1.badParityOffsets ↔ bad (k + ps.length + o)) ∧
      (e.encodePrimitives ps).1.prevContentBits = lastContent e.prevContentBits ps := by
  induction ps generalizing e k with
  | nil => exact ⟨⟨[], rfl, .nil _ _⟩, h, rfl⟩
  | cons p ps ih =>
    have hnext (o : Nat) : o ∈ (e.encodePrimitive p.dcFlag p.contentBits).1.badParityOffsets ↔
        bad (k + 1 + o) := by
      simp only [encodePrimitive, mem_advanceBadParityRequests, h, Nat.add_assoc, Nat.add_comm o]
    obtain ⟨⟨raws, hbits, hinv⟩, hpending, hprev⟩ := ih hnext
    have hhit : e.consumeBadParityRequest = true ↔ bad k := by
      simp only [consumeBadParityRequest, List.any_eq_true, beq_iff_eq, exists_eq_right, h]
      rfl
    refine ⟨⟨(e.encodePrimitive p.dcFlag p.contentBits).2 :: raws, ?_, .cons ?_ hinv⟩, ?_, hprev⟩
    · simp only [encodePrimitives, hbits, List.flatten_cons]
    · rw [← hhit]
      cases e.consumeBadParityRequest <;> simp
    · simpa only [encodePrimitives, List.length_cons, Nat.add_assoc, Nat.add_comm 1] using hpending

/-- An accepted request is the chain of its primitives, for any encoder. -/
structure Sends (c : Character) : Prop where
  wellFormed : ∀ p ∈ c.sentPrimitives, p.WellFormed
  encode (e : Encoder) : e.encode c =
    ((e.encodePrimitives c.sentPrimitives).1, .ok (e.encodePrimitives c.sentPrimitives).2)

theorem encodeData_primitives (e : Encoder) (h : 0 ≤ v ∧ v ≤ 255) :
    e.encodeData v = ((e.encodePrimitives [⟨false, lsbBits v.toNat⟩]).1,
      .ok (e.encodePrimitives [⟨false, lsbBits v.toNat⟩]).2) := by
  simp [encodeData, byteToLsbBits_ok h, encodePrimitives]

theorem encodeEscaped_primitives (e : Encoder) (h : 0 ≤ v ∧ v ≤ 255) :
    e.encodeEscaped v =
      ((e.encodePrimitives [⟨true, [true, true]⟩, ⟨false, lsbBits v.toNat⟩]).1,
        .ok (e.encodePrimitives [⟨true, [true, true]⟩, ⟨false, lsbBits v.toNat⟩]).2) := by
  simp only [encodeEscaped, encodeData_primitives _ h, encodeControl, controlContentBits,
    Option.getD_some, encodePrimitives, Except.map]

theorem sends_escaped (ht : c.type = .timecode ∨ c.type = .broadcast)
    (h : e.encode c = (e', .ok bits)) : Sends c := by
  obtain ⟨v, hb, hv⟩ := escapedByte_of_ok ht h
  have hps : c.sentPrimitives = [⟨true, [true, true]⟩, ⟨false, lsbBits v.toNat⟩] := by
    obtain ht | ht := ht <;> simp only [Character.sentPrimitives, ht, hb, Option.getD_some]
  refine ⟨by simp [hps, WellFormed], fun e => ?_⟩
  rw [encode_escapedByte e hb, hps, encodeEscaped_primitives e hv]

theorem sends_of_encode (h : e.encode c = (e', .ok bits)) : Sends c := by
  cases ht : c.type with
  | fct | eop | eep | esc =>
    refine ⟨by simp [Character.sentPrimitives, ht, controlContentBits, WellFormed], fun e => ?_⟩
    simp [encode, Character.sentPrimitives, ht, encodeControl, encodePrimitives]
  | null =>
    refine ⟨by simp [Character.sentPrimitives, ht, WellFormed], fun e => ?_⟩
    simp [encode, Character.sentPrimitives, ht, encodeControl, encodePrimitives, controlContentBits]
  | data =>
    simp only [encode, ht] at h
    cases hv : c.value with
    | none =>
      rw [hv] at h
      cases h
    | some v =>
      simp only [hv] at h
      by_cases hb : 0 ≤ v ∧ v ≤ 255
      · refine ⟨by simp [Character.sentPrimitives, ht, WellFormed], fun e => ?_⟩
        simpa [encode, Character.sentPrimitives, ht, hv] using encodeData_primitives e hb
      · obtain ⟨err, herr⟩ := e.encodeData_error hb
        rw [herr] at h
        cases h
  | timecode => exact sends_escaped (.inl ht) h
  | broadcast => exact sends_escaped (.inr ht) h

end Encoder

namespace Injection

variable {n k offset : Nat} {c : Character} {script : List Injection}

@[simp] theorem requests_nil : requests [] = [] := rfl

@[simp] theorem requests_force : requests (.forceBadParity offset :: script) = requests script :=
  rfl

@[simp] theorem requests_encode : requests (.encode c :: script) = c :: requests script := rfl

@[simp] theorem primitives_nil : primitives [] = [] := rfl

@[simp] theorem primitives_force :
    primitives (.forceBadParity offset :: script) = primitives script := rfl

@[simp] theorem primitives_encode :
    primitives (.encode c :: script) = c.sentPrimitives ++ primitives script := rfl

@[simp] theorem not_targetedFrom_nil : ¬TargetedFrom n [] k := by
  rintro ⟨before, offset, after, heq, -⟩
  simp at heq

theorem targetedFrom_force : TargetedFrom n (.forceBadParity offset :: script) k ↔
    k = n + offset ∨ TargetedFrom n script k := by
  constructor
  · rintro ⟨before, offset', after, heq, hk⟩
    cases before with
    | nil =>
      cases heq
      exact .inl (by simpa using hk)
    | cons a before =>
      obtain ⟨rfl, hrest⟩ := List.cons.inj heq
      exact .inr ⟨before, offset', after, hrest, hk⟩
  · rintro (hk | ⟨before, offset', after, rfl, hk⟩)
    · exact ⟨[], offset, script, rfl, by simpa using hk⟩
    · exact ⟨.forceBadParity offset :: before, offset', after, rfl, hk⟩

theorem TargetedFrom.le (h : TargetedFrom n script k) : n ≤ k := by
  obtain ⟨before, offset, after, -, rfl⟩ := h
  omega

theorem targetedFrom_encode : TargetedFrom n (.encode c :: script) k ↔
    TargetedFrom (n + c.sentPrimitives.length) script k := by
  constructor
  · rintro ⟨before, offset, after, heq, hk⟩
    cases before with
    | nil => cases heq
    | cons a before =>
      obtain ⟨rfl, hrest⟩ := List.cons.inj heq
      refine ⟨before, offset, after, hrest, ?_⟩
      rw [primitives_encode, List.length_append] at hk
      omega
  · rintro ⟨before, offset, after, rfl, hk⟩
    refine ⟨.encode c :: before, offset, after, rfl, ?_⟩
    rw [primitives_encode, List.length_append]
    omega

end Injection

namespace Encoder

open Injection

variable {e e' : Encoder} {bits : List Bool} {script : List Injection}

theorem inject_force (e : Encoder) (offset : Nat) (script : List Injection) :
    e.inject (.forceBadParity offset :: script) =
      inject { e with badParityOffsets := e.badParityOffsets ++ [offset] } script := by
  have hpos : ¬(offset : Int) < 0 := by omega
  simp only [inject, forceBadParity, if_neg hpos, Int.toNat_natCast]

theorem inject_encode {c : Character} (h : e.inject (.encode c :: script) = (e', .ok bits)) :
    Sends c ∧ ∃ rest, bits = (e.encodePrimitives c.sentPrimitives).2 ++ rest ∧
      (e.encodePrimitives c.sentPrimitives).1.inject script = (e', .ok rest) := by
  simp only [inject] at h
  cases henc : e.encode c with
  | mk e₁ r =>
    cases r with
    | error err =>
      rw [henc] at h
      cases h
    | ok raw =>
      have hsends := sends_of_encode henc
      rw [hsends.encode e] at h
      dsimp only at h
      cases hrest : (e.encodePrimitives c.sentPrimitives).1.inject script with
      | mk e₂ r =>
        rw [hrest] at h
        cases r with
        | error err => cases h
        | ok rest =>
          cases h
          exact ⟨hsends, rest, rfl, rfl⟩

theorem inject_sends (h : e.inject script = (e', .ok bits)) : ∀ c ∈ requests script, Sends c := by
  induction script generalizing e bits with
  | nil => simp
  | cons a script ih =>
    cases a with
    | forceBadParity offset =>
      rw [inject_force] at h
      exact ih h
    | encode c =>
      obtain ⟨hsends, rest, -, hrest⟩ := inject_encode h
      simpa using ⟨hsends, ih hrest⟩

theorem inject_inverted {bad : Nat → Prop} {k : Nat} (h : e.inject script = (e', .ok bits))
    (hpending : ∀ o, o ∈ e.badParityOffsets ↔ bad (k + o)) :
    ∃ raws, bits = raws.flatten ∧ Inverted (fun j => bad j ∨ TargetedFrom k script j) k
      e.prevContentBits (primitives script) raws := by
  induction script generalizing e bits bad k with
  | nil =>
    cases h
    exact ⟨[], rfl, .nil _ _⟩
  | cons a script ih =>
    cases a with
    | forceBadParity offset =>
      rw [inject_force] at h
      obtain ⟨raws, hbits, hinv⟩ := @ih _ _ (fun j => bad j ∨ j = k + offset) k h fun o => by
        simp [hpending]
      refine ⟨raws, hbits, hinv.congr fun j _ _ => ?_⟩
      rw [targetedFrom_force, or_assoc]
    | encode c =>
      obtain ⟨-, rest, rfl, hrest⟩ := inject_encode h
      obtain ⟨⟨raws, hraws, hinv⟩, hpending', hprev⟩ :=
        encodePrimitives_inverted c.sentPrimitives hpending
      obtain ⟨raws', rfl, hinv'⟩ := ih hrest hpending'
      rw [hprev] at hinv'
      refine ⟨raws ++ raws', by rw [hraws, List.flatten_append], ?_⟩
      simp only [targetedFrom_encode, primitives_encode]
      refine .append (hinv.congr fun j _ hj => ?_) hinv'
      -- a later call asks for places behind the primitives of this request
      have hlater : ¬TargetedFrom (k + c.sentPrimitives.length) script j :=
        fun h => absurd h.le (Nat.not_le.mpr hj)
      simp [hlater]

theorem encodeAll_sends (prev : List Bool) {cs : List Character} (h : ∀ c ∈ cs, Sends c) :
    (new prev).encodeAll cs =
      (new (lastContent prev (cs.flatMap Character.sentPrimitives)),
        .ok (stream prev (cs.flatMap Character.sentPrimitives))) := by
  apply encodeAll_chain
  intro c hc prev
  rw [(h c hc).encode, encodePrimitives_new]

end Encoder

namespace BadParity

open Injection Decoder Attribution

/-- What a character means, whatever its parity bits. -/
structure SameMeaning (c c' : Character) : Prop where
  type : c.type = c'.type
  value : c.value = c'.value
  typeField : c.typeField = c'.typeField
  codeValue : c.codeValue = c'.codeValue

/-- The bits of one primitive, with two parity bits. -/
inductive SamePrimitive : List Bool → List Bool → Prop
  | intro (parity parity' : Bool) {dc : Bool} {content : List Bool}
      (h : content.length = if dc then 2 else 8) :
      SamePrimitive (parity :: dc :: content) (parity' :: dc :: content)

variable {d d' : Decoder} {raw raw' : List Bool} {c c' : Character}

theorem parsePrimitive_meaning (d d' : Decoder) (h : SamePrimitive raw raw') :
    SameMeaning (d.parsePrimitive raw).2 (d'.parsePrimitive raw').2 := by
  cases h with
  | intro => constructor <;> simp [parsePrimitive]

theorem decodeEscapedData_meaning (e e' : Character) (hc : SameMeaning c c') :
    SameMeaning (decodeEscapedData e c) (decodeEscapedData e' c') := by
  unfold decodeEscapedData
  rw [hc.value]
  constructor <;> rfl

/-- The outcome for a primitive depends on what it means, and on whether an ESC is held. -/
theorem resolvePrimitive_meaning (hd : d.pendingEscape.isSome = d'.pendingEscape.isSome)
    (hc : SameMeaning c c') :
    List.Forall₂ SameMeaning (d.resolvePrimitive c).2 (d'.resolvePrimitive c').2 ∧
      (d.resolvePrimitive c).1.pendingEscape.isSome =
        (d'.resolvePrimitive c').1.pendingEscape.isSome := by
  cases he : d.pendingEscape with
  | none =>
    have he' : d'.pendingEscape = none := by simpa [he] using hd
    by_cases ht : c.type = .esc
    · simp [resolvePrimitive, he, he', ht, ← hc.type]
    · simpa [resolvePrimitive, he, he', ht, ← hc.type] using hc
  | some e =>
    obtain ⟨e', he'⟩ : ∃ e', d'.pendingEscape = some e' := by
      rw [he] at hd
      exact Option.isSome_iff_exists.mp hd.symm
    simp only [resolvePrimitive, he, he', ← hc.type]
    cases c.type with
    | data => exact ⟨.cons (decodeEscapedData_meaning e e' hc) .nil, rfl⟩
    | fct | eop | eep | esc | null | timecode | broadcast =>
      exact ⟨.cons ⟨rfl, by simp [combineEscaped, hc.value], rfl, rfl⟩ .nil, rfl⟩

theorem push_meaning {raws raws' : List (List Bool)} (h : List.Forall₂ SamePrimitive raws raws')
    (hb : d.AtBoundary) (hb' : d'.AtBoundary)
    (hd : d.pendingEscape.isSome = d'.pendingEscape.isSome) :
    List.Forall₂ SameMeaning (d.push raws.flatten).2 (d'.push raws'.flatten).2 := by
  induction h generalizing d d' with
  | nil => exact .nil
  | @cons raw raw' raws raws' hraw _ ih =>
    have hw : RawPrimitive raw ∧ RawPrimitive raw' := by
      cases hraw with
      | intro _ _ h => exact ⟨⟨_, _, _, rfl, h⟩, ⟨_, _, _, rfl, h⟩⟩
    obtain ⟨hmeaning, hpending⟩ := @resolvePrimitive_meaning
      (parsePrimitive { d with buffer := [], expectedLen := none } raw).1
      (parsePrimitive { d' with buffer := [], expectedLen := none } raw').1 _ _ hd
      (parsePrimitive_meaning _ _ hraw)
    have hrest := ih (complete_atBoundary d raw) (complete_atBoundary d' raw') hpending
    rw [List.flatten_cons, List.flatten_cons, push_append, push_append, push_raw hb hw.1,
      push_raw hb' hw.2]
    exact List.rel_append hmeaning hrest

def failed (check : ParityCheck) : Bool := check.expected != check.got

theorem map_failed_checksOf (prev : List Bool) (n m : Nat) (raws : List (List Bool)) :
    (checksOf prev n raws).map failed = (checksOf prev m raws).map failed := by
  induction raws generalizing prev n m with
  | nil => rfl
  | cons raw raws ih =>
    simp only [checksOf, List.map_cons]
    rw [ih (raw.drop 2) (n + raw.length) (m + raw.length)]
    rfl

/-- The parity checks of the characters returned, and of an ESC that is still held. -/
def allChecks (d : Decoder) (cs : List Character) : List ParityCheck :=
  cs.flatMap Character.parityChecks ++ (d.pendingEscape.map Character.parityChecks).getD []

theorem length_checksOf (prev : List Bool) (n : Nat) (raws : List (List Bool)) :
    (checksOf prev n raws).length = raws.length := by
  induction raws generalizing prev n with
  | nil => rfl
  | cons raw raws ih => simp [checksOf, ih]

theorem push_checks {prev : List Bool} {held raws : List (List Bool)} (hd : d.AtBoundary)
    (h : Holds d prev held) (hraws : ∀ raw ∈ raws, RawPrimitive raw) :
    (allChecks (d.push raws.flatten).1 (d.push raws.flatten).2).map failed =
      (checksOf prev 0 (held ++ raws)).map failed := by
  induction raws generalizing d prev held with
  | nil =>
    rw [List.flatten_nil, push_nil, List.append_nil]
    cases h with
    | nothing hnone => simp [allChecks, hnone, checksOf]
    | escape hsome _ he => simp [allChecks, hsome, he.parityChecks]
  | cons raw raws ih =>
    obtain ⟨hraw, hrest⟩ := List.forall_mem_cons.mp hraws
    have hb := complete_atBoundary d raw
    rw [List.flatten_cons, push_append, push_raw hd hraw]
    obtain ⟨rfl, hnone, hheld⟩ | ⟨c, hone, hc, hheld⟩ := complete_cases h hraw
    · rw [hnone]
      exact ih hb hheld hrest
    · have hlater := ih hb hheld hrest
      have hlast : contentAfter prev (held ++ [raw]) = raw.drop 2 :=
        contentAfter_append prev held [raw]
      have hsplit : held ++ raw :: raws = (held ++ [raw]) ++ raws := by simp
      rw [hone, hsplit, checksOf_append, hlast, ← hc.parityChecks, List.map_append,
        map_failed_checksOf _ _ 0]
      rw [List.nil_append] at hlater
      rw [← hlater, ← List.map_append]
      simp only [allChecks, List.singleton_append, List.flatMap_cons, List.append_assoc]

theorem inverted_checks {bad : Nat → Prop} {k n : Nat} {prev : List Bool} {ps : List Primitive}
    {raws : List (List Bool)} (h : Inverted bad k prev ps raws) :
    ∀ i check, (checksOf prev n raws)[i]? = some check → (failed check = true ↔ bad (k + i)) := by
  induction h generalizing n with
  | nil => simp [checksOf]
  | @cons k prev parity p ps raws h rest ih =>
    intro i check hi
    cases i with
    | zero =>
      obtain rfl := Option.some.inj hi
      rw [Nat.add_zero, ← h]
      simp only [failed, List.getD_cons_zero, List.getD_cons_succ, bne_iff_ne]
      exact ne_comm
    | succ i =>
      have hnext := ih i check hi
      rwa [Nat.add_assoc, Nat.add_comm 1] at hnext

theorem inverted_same {bad bad' : Nat → Prop} {k : Nat} {prev : List Bool} {ps : List Primitive}
    {raws raws' : List (List Bool)} (h : Inverted bad k prev ps raws)
    (h' : Inverted bad' k prev ps raws') (hps : ∀ p ∈ ps, p.WellFormed) :
    List.Forall₂ SamePrimitive raws raws' := by
  induction h generalizing raws' with
  | nil =>
    cases h'
    exact .nil
  | cons h rest ih =>
    cases h' with
    | cons h' rest' =>
      obtain ⟨hp, hps⟩ := List.forall_mem_cons.mp hps
      exact .cons (.intro _ _ hp) (ih rest' hps)

theorem inverted_rawPrimitive {bad : Nat → Prop} {k : Nat} {prev : List Bool} {ps : List Primitive}
    {raws : List (List Bool)} (h : Inverted bad k prev ps raws) (hps : ∀ p ∈ ps, p.WellFormed) :
    ∀ raw ∈ raws, RawPrimitive raw := by
  induction h with
  | nil => simp
  | cons h rest ih =>
    obtain ⟨hp, hps⟩ := List.forall_mem_cons.mp hps
    exact List.forall_mem_cons.mpr ⟨⟨_, _, _, rfl, hp⟩, ih hps⟩

theorem stream_inverted (k : Nat) (prev : List Bool) (ps : List Primitive) :
    ∃ raws, stream prev ps = raws.flatten ∧ Inverted (fun _ => False) k prev ps raws := by
  induction ps generalizing k prev with
  | nil => exact ⟨[], rfl, .nil _ _⟩
  | cons p ps ih =>
    obtain ⟨raws, hraws, hinv⟩ := ih (k + 1) p.contentBits
    exact ⟨p.bits prev :: raws, by rw [stream, hraws, List.flatten_cons], .cons (by simp) hinv⟩

def holdsNext (held : Bool) (p : Primitive) : Bool :=
  !held && (p.dcFlag && controlTypeByBits p.contentBits = .esc)

theorem resolvePrimitive_pending (d : Decoder) (c : Character) :
    (d.resolvePrimitive c).1.pendingEscape.isSome =
      (!d.pendingEscape.isSome && c.type = .esc) := by
  cases he : d.pendingEscape with
  | none => by_cases ht : c.type = .esc <;> simp [resolvePrimitive, he, ht]
  | some e => cases ht : c.type <;> simp [resolvePrimitive, he, ht]

theorem complete_pending (d : Decoder) (parity : Bool) {p : Primitive} (hp : p.WellFormed) :
    (d.complete (parity :: p.dcFlag :: p.contentBits)).1.pendingEscape.isSome =
      holdsNext d.pendingEscape.isSome p := by
  obtain ⟨dc, content⟩ := p
  have hlen : content.length = if dc then 2 else 8 := hp
  simp only [complete, resolvePrimitive_pending]
  cases dc with
  | true =>
    have htake : content.take 2 = content := List.take_of_length_le hlen.le
    simp [parsePrimitive, holdsNext, htake]
  | false => simp [parsePrimitive, holdsNext]

theorem push_pending {bad : Nat → Prop} {k : Nat} {prev : List Bool} {ps : List Primitive}
    {raws : List (List Bool)} (h : Inverted bad k prev ps raws) (hps : ∀ p ∈ ps, p.WellFormed)
    (hd : d.AtBoundary) : (d.push raws.flatten).1.pendingEscape.isSome =
      ps.foldl holdsNext d.pendingEscape.isSome := by
  induction h generalizing d with
  | nil => rfl
  | @cons k prev parity p ps raws _ rest ih =>
    obtain ⟨hp, hps⟩ := List.forall_mem_cons.mp hps
    have hrest := ih hps (complete_atBoundary d (parity :: p.dcFlag :: p.contentBits))
    rw [complete_pending d parity hp] at hrest
    rw [List.flatten_cons, push_append, push_raw hd ⟨_, _, _, rfl, hp⟩]
    exact hrest

theorem foldl_holdsNext {cs : List Character} (h : ∀ c ∈ cs, c.type ≠ .esc) :
    (cs.flatMap Character.sentPrimitives).foldl holdsNext false = false := by
  induction cs with
  | nil => rfl
  | cons c cs ih =>
    obtain ⟨hc, hcs⟩ := List.forall_mem_cons.mp h
    have hone : c.sentPrimitives.foldl holdsNext false = false := by
      unfold Character.sentPrimitives
      cases ht : c.type <;> simp_all [holdsNext, controlContentBits, controlTypeByBits]
    rw [List.flatMap_cons, List.foldl_append, hone, ih hcs]

/-- Forced parity errors hit exactly the primitives they were asked for: no other parity bit is
wrong, the receiver sees the characters that would have come without them, and the checks that
fail are those of the primitives hit. -/
theorem injection_exact {script : List Injection} {e' : Encoder} {bits : List Bool}
    (h : (Encoder.new).inject script = (e', .ok bits)) :
    ∃ plain raws, ((Encoder.new).encodeAll (requests script)).2 = .ok plain ∧
      bits = raws.flatten ∧
      Inverted (TargetedFrom 0 script) 0 [] (primitives script) raws ∧
      List.Forall₂ SameMeaning ((Decoder.new).push bits).2 ((Decoder.new).push plain).2 ∧
      (allChecks ((Decoder.new).push bits).1 ((Decoder.new).push bits).2).length =
        (primitives script).length ∧
      (∀ k check,
        (allChecks ((Decoder.new).push bits).1 ((Decoder.new).push bits).2)[k]? = some check →
          (check.expected ≠ check.got ↔ TargetedFrom 0 script k)) ∧
      ((∀ c ∈ requests script, c.type ≠ .esc) →
        ((Decoder.new).push bits).1.pendingEscape = none) := by
  have hsends := Encoder.inject_sends h
  have hps : ∀ p ∈ primitives script, p.WellFormed := by
    intro p hp
    obtain ⟨c, hc, hp⟩ := List.mem_flatMap.mp hp
    exact (hsends c hc).wellFormed p hp
  obtain ⟨raws, rfl, hinv⟩ :=
    @Encoder.inject_inverted _ _ _ _ (fun _ => False) 0 h (by simp [Encoder.new])
  simp only [false_or] at hinv
  obtain ⟨plains, hplain, hclean⟩ := stream_inverted 0 [] (primitives script)
  have hchecks := push_checks (d := Decoder.new) ⟨rfl, rfl⟩ (.nothing rfl)
    (inverted_rawPrimitive hinv hps)
  rw [List.nil_append] at hchecks
  refine ⟨plains.flatten, raws, ?_, rfl, hinv, ?_, ?_, ?_, ?_⟩
  · rw [Encoder.encodeAll_sends [] hsends, ← hplain]
    rfl
  · exact push_meaning (inverted_same hinv hclean hps) ⟨rfl, rfl⟩ ⟨rfl, rfl⟩ rfl
  · have hlen := congrArg List.length hchecks
    rwa [List.length_map, List.length_map, length_checksOf, hinv.length_eq] at hlen
  · intro k check hk
    have hfailed : ((checksOf (Decoder.new).prevContentBits 0 raws).map failed)[k]? =
        some (failed check) := by
      rw [← hchecks, List.getElem?_map, hk]
      rfl
    rw [List.getElem?_map] at hfailed
    obtain ⟨check', hk', heq⟩ := Option.map_eq_some_iff.mp hfailed
    have hiff := inverted_checks hinv k check' hk'
    rw [heq, Nat.zero_add] at hiff
    rw [← hiff]
    simp [failed]
  · intro hesc
    have hpending := push_pending hinv hps (d := Decoder.new) ⟨rfl, rfl⟩
    have hnone : (primitives script).foldl holdsNext (Decoder.new).pendingEscape.isSome = false :=
      foldl_holdsNext hesc
    rw [hnone] at hpending
    simpa using hpending

theorem injection_exact_null :
    let script := [.forceBadParity 1, .forceBadParity 1, .encode Encoder.null, .forceBadParity 0,
      .encode { type := .data, value := some 5 }]
    ∃ e' bits, (Encoder.new).inject script = (e', .ok bits) ∧
      ((Decoder.new).push bits).1.pendingEscape = none ∧
      (allChecks ((Decoder.new).push bits).1 ((Decoder.new).push bits).2).map failed =
        [false, true, true] := by
  intro script
  obtain ⟨plain, raws, -, -, -, -, -, -, hpending⟩ := @injection_exact script _ _ rfl
  refine ⟨_, _, rfl, hpending ?_, by decide⟩
  simp [script, requests, Encoder.null, Character.ofType]

end BadParity

end SpaceWire
