import SpaceWire.Decoder

namespace SpaceWire.Attribution

open Decoder

/-- The content that primitives leave for the next parity bit, given by their bits. -/
def contentAfter (prev : List Bool) : List (List Bool) → List Bool
  | [] => prev
  | raw :: raws => contentAfter (raw.drop 2) raws

/-- One check for each primitive: where its parity bit stands, the parity bit and the flag
that stand there, and the content before it. -/
def checksOf (prev : List Bool) (offset : Nat) : List (List Bool) → List ParityCheck
  | [] => []
  | raw :: raws =>
    { bitIndex := offset
      expected := computeParity prev (raw.getD 1 false)
      got := raw.getD 0 false
      prevContentBits := prev
      dcFlag := raw.getD 1 false } :: checksOf (raw.drop 2) (offset + raw.length) raws

/-- A character that was decoded from these primitives, which follow the content `prev`. -/
structure Attributed (prev : List Bool) (raws : List (List Bool)) (c : Character) : Prop where
  rawBits : c.rawBits = raws.flatten
  parityChecks : c.parityChecks = checksOf prev 0 raws
  parityOk : c.parityOk = true ↔ ∀ check ∈ c.parityChecks, check.expected = check.got
  error : c.parityOk = true ↔ .parityError ∉ c.error

/-- The primitives a decoder holds back, and the content before them: none, or an ESC. -/
inductive Holds (d : Decoder) : List Bool → List (List Bool) → Prop
  | nothing (h : d.pendingEscape = none) : Holds d d.prevContentBits []
  | escape {prev raw : List Bool} {e : Character} (h : d.pendingEscape = some e)
      (hraw : RawPrimitive raw) (he : Attributed prev [raw] e)
      (hprev : d.prevContentBits = raw.drop 2) : Holds d prev [raw]

theorem offsetChecks_checksOf (prev : List Bool) (n m : Nat) (raws : List (List Bool)) :
    offsetChecks (checksOf prev n raws) m = checksOf prev (n + m) raws := by
  induction raws generalizing prev n with
  | nil => rfl
  | cons raw raws ih =>
    have hrest := ih (raw.drop 2) (n + raw.length)
    have hcomm : n + raw.length + m = n + m + raw.length := by omega
    rw [hcomm] at hrest
    simpa [offsetChecks, checksOf] using hrest

theorem checksOf_append (prev : List Bool) (n : Nat) (raws raws' : List (List Bool)) :
    checksOf prev n (raws ++ raws') =
      checksOf prev n raws ++
        checksOf (contentAfter prev raws) (n + raws.flatten.length) raws' := by
  induction raws generalizing prev n with
  | nil => rfl
  | cons raw raws ih =>
    simp only [List.cons_append, checksOf, ih, contentAfter, List.flatten_cons, List.length_append,
      Nat.add_assoc]

theorem contentAfter_append (prev : List Bool) (raws raws' : List (List Bool)) :
    contentAfter prev (raws ++ raws') = contentAfter (contentAfter prev raws) raws' := by
  induction raws generalizing prev with
  | nil => rfl
  | cons raw raws ih => exact ih (raw.drop 2)

variable {d : Decoder} {prev raw : List Bool} {e c : Character} {raws : List (List Bool)}

theorem parsePrimitive_prev (d : Decoder) (hraw : RawPrimitive raw) :
    (d.parsePrimitive raw).1 = { d with prevContentBits := raw.drop 2 } := by
  obtain ⟨parity, dc, content, rfl, hlen⟩ := hraw
  cases dc with
  | true =>
    have htake : content.take 2 = content := List.take_of_length_le hlen.le
    simp [parsePrimitive, htake]
  | false =>
    have htake : content.take 8 = content := List.take_of_length_le hlen.le
    simp [parsePrimitive, htake]

theorem parsePrimitive_attributed (d : Decoder) (raw : List Bool) :
    Attributed d.prevContentBits [raw] (d.parsePrimitive raw).2 := by
  refine ⟨by simp [parsePrimitive], rfl, ?_, ?_⟩
  · simp only [parsePrimitive, List.mem_singleton, forall_eq, beq_iff_eq]
    exact eq_comm
  · simp only [parsePrimitive]
    split <;> simp_all

theorem Attributed.combine (he : Attributed prev [raw] e) {raw' : List Bool}
    (hc : Attributed (raw.drop 2) [raw'] c) (type : CharType) (v tf cv : Option Int)
    {extra : List ErrorLabel} (hextra : .parityError ∉ extra) :
    Attributed prev [raw, raw'] (combineEscaped e c type v tf cv extra) := by
  have hchecks : (combineEscaped e c type v tf cv extra).parityChecks =
      e.parityChecks ++ offsetChecks c.parityChecks e.rawBits.length := by
    simp [combineEscaped, offsetChecks]
  have hok : (combineEscaped e c type v tf cv extra).parityOk = true ↔
      e.parityOk = true ∧ c.parityOk = true := by simp [combineEscaped]
  refine ⟨?_, ?_, ?_, ?_⟩
  · simp [combineEscaped, he.rawBits, hc.rawBits]
  · rw [hchecks, he.parityChecks, hc.parityChecks, offsetChecks_checksOf, he.rawBits]
    exact (checksOf_append prev 0 [raw] [raw']).symm
  · rw [hok, hchecks, he.parityOk, hc.parityOk]
    simp only [List.mem_append, or_imp, forall_and]
    refine and_congr_right fun _ => ?_
    simp [offsetChecks]
  · rw [hok, he.error, hc.error]
    simp [combineEscaped, mem_combineErrors, hextra]

theorem decodeEscapedData_attributed (he : Attributed prev [raw] e) {raw' : List Bool}
    (hc : Attributed (raw.drop 2) [raw'] c) :
    Attributed prev [raw, raw'] (decodeEscapedData e c) := by
  unfold decodeEscapedData
  dsimp only
  repeat' split
  all_goals exact he.combine hc _ _ _ _ (by simp)

theorem complete_cases (h : Holds d prev raws) (hraw : RawPrimitive raw) :
    (raws = [] ∧ (d.complete raw).2 = [] ∧ Holds (d.complete raw).1 prev [raw]) ∨
      ∃ c, (d.complete raw).2 = [c] ∧ Attributed prev (raws ++ [raw]) c ∧
        Holds (d.complete raw).1 (raw.drop 2) [] := by
  have hparsed := parsePrimitive_attributed { d with buffer := [], expectedLen := none } raw
  have hprev := parsePrimitive_prev { d with buffer := [], expectedLen := none } hraw
  simp only [complete]
  generalize hparse : parsePrimitive { d with buffer := [], expectedLen := none } raw = r at *
  obtain ⟨d', c⟩ := r
  simp only at hprev hparsed
  subst hprev
  cases h with
  | nothing hnone =>
    by_cases htype : c.type = .esc
    · left
      simp only [resolvePrimitive, hnone, htype, if_true, true_and]
      exact .escape rfl hraw hparsed rfl
    · right
      simp only [resolvePrimitive, hnone, htype, if_false, List.cons.injEq, and_true,
        exists_eq_left', List.nil_append]
      exact ⟨hparsed, .nothing rfl⟩
  | @escape _ raw₀ e hsome _ he hd =>
    right
    rw [hd] at hparsed
    simp only [resolvePrimitive, hsome]
    split
    · exact ⟨_, rfl, he.combine hparsed _ _ _ _ (by simp), .nothing rfl⟩
    · exact ⟨_, rfl, decodeEscapedData_attributed he hparsed, .nothing rfl⟩
    · exact ⟨_, rfl, he.combine hparsed _ _ _ _ (by simp), .nothing rfl⟩

/-- Where the bits of a stream have gone: into the characters that were returned, into the ESC
that is pending, and into the buffer. The primitives of a character are those that follow the
primitives of the characters before it, the first of which follows the content `prev`. -/
structure Accounted (prev bits : List Bool) (d : Decoder) (cs : List Character) : Prop where
  bits : cs.flatMap Character.rawBits ++ (d.pendingEscape.map Character.rawBits).getD [] ++
    d.buffer = bits
  characters : ∀ before c after, cs = before ++ c :: after → ∃ earlier raws : List (List Bool),
    (∀ raw ∈ earlier ++ raws, RawPrimitive raw) ∧
      earlier.flatten = before.flatMap Character.rawBits ∧
      (raws.length = 1 ∨ raws.length = 2) ∧ Attributed (contentAfter prev earlier) raws c

theorem Holds.rawPrimitive (h : Holds d prev raws) : ∀ raw ∈ raws, RawPrimitive raw := by
  cases h with
  | nothing => simp
  | escape _ hraw => simpa using hraw

theorem Holds.length_le (h : Holds d prev raws) : raws.length ≤ 1 := by
  cases h <;> simp

theorem Holds.short (h : Holds d prev raws) {bits : List Bool} (n : Option Nat) :
    Accounted prev (raws.flatten ++ bits) { d with buffer := bits, expectedLen := n } [] := by
  refine ⟨?_, fun before c after heq => by simp at heq⟩
  cases h with
  | nothing hnone => simp [hnone]
  | escape hsome _ he => simp [hsome, he.rawBits]

theorem Accounted.cons {bits : List Bool} {cs : List Character}
    (h : Accounted (raw.drop 2) bits d cs) (hc : Attributed prev (raws ++ [raw]) c)
    (hraws : ∀ raw' ∈ raws ++ [raw], RawPrimitive raw') (hlen : raws.length ≤ 1) :
    Accounted prev ((raws ++ [raw]).flatten ++ bits) d (c :: cs) := by
  have hlast : contentAfter prev (raws ++ [raw]) = raw.drop 2 := contentAfter_append prev raws [raw]
  refine ⟨?_, fun before c' after heq => ?_⟩
  · rw [List.flatMap_cons, hc.rawBits, List.append_assoc, List.append_assoc, ← h.bits,
      List.append_assoc]
  · cases before with
    | nil =>
      obtain ⟨rfl, -⟩ := List.cons.inj heq
      refine ⟨[], raws ++ [raw], by simpa using hraws, rfl, ?_, hc⟩
      rw [List.length_append, List.length_singleton]
      omega
    | cons b before =>
      obtain ⟨rfl, hrest⟩ := List.cons.inj heq
      obtain ⟨earlier, raws', hprims, hearlier, hsize, hattr⟩ := h.characters before c' after hrest
      refine ⟨raws ++ [raw] ++ earlier, raws', fun raw' hmem => ?_, ?_, hsize, ?_⟩
      · rw [List.append_assoc] at hmem
        exact (List.mem_append.mp hmem).elim (hraws raw') (hprims raw')
      · rw [List.flatten_append, hearlier, List.flatMap_cons, hc.rawBits]
      · rwa [contentAfter_append, hlast]

theorem push_accounted (bits : List Bool) : ∀ {d : Decoder} {prev : List Bool}
    {raws : List (List Bool)}, d.AtBoundary → Holds d prev raws →
      Accounted prev (raws.flatten ++ bits) (d.push bits).1 (d.push bits).2 := by
  induction bits using stream_induction with
  | short bits hshort =>
    intro d prev raws hd h
    obtain ⟨n, hpush⟩ := push_of_short hd hshort
    rw [hpush]
    exact h.short n
  | raw raw rest hraw ih =>
    intro d prev raws hd h
    have hb := complete_atBoundary d raw
    rw [push_append, push_raw hd hraw]
    obtain ⟨rfl, hnone, hheld⟩ | ⟨c, hone, hc, hheld⟩ := complete_cases h hraw
    · rw [hnone]
      simpa using ih hb hheld
    · have hrest := ih hb hheld
      have hraws : ∀ raw' ∈ raws ++ [raw], RawPrimitive raw' := by
        intro raw' hmem
        obtain hmem | hmem := List.mem_append.mp hmem
        · exact h.rawPrimitive raw' hmem
        · rwa [List.mem_singleton.mp hmem]
      rw [hone]
      simpa using hrest.cons hc hraws h.length_le

/-- No bit is lost, and no check is put down to the wrong primitive, whatever the stream. -/
theorem bits_attributed (prev bits : List Bool) :
    Accounted prev bits ((Decoder.new prev).push bits).1 ((Decoder.new prev).push bits).2 :=
  @push_accounted bits (Decoder.new prev) prev [] ⟨rfl, rfl⟩ (.nothing rfl)

end SpaceWire.Attribution
