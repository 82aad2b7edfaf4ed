import SpaceWire.CharacterParser

namespace SpaceWire.LineErrors

open Primitive Decoder

def Reported (cs : List Character) : Prop := ∃ c ∈ cs, .parityError ∈ c.error

theorem Reported.left {cs : List Character} (h : Reported cs) (ds : List Character) :
    Reported (cs ++ ds) := by
  obtain ⟨c, hc, hx⟩ := h
  exact ⟨c, List.mem_append_left _ hc, hx⟩

theorem Reported.right {ds : List Character} (h : Reported ds) (cs : List Character) :
    Reported (cs ++ ds) := by
  obtain ⟨c, hc, hx⟩ := h
  exact ⟨c, List.mem_append_right _ hc, hx⟩

/-- The parity error of a pending ESC, not yet reported. -/
def Held (d : Decoder) : Prop := ∃ e, d.pendingEscape = some e ∧ .parityError ∈ e.error

theorem combineEscaped_error {e c : Character} {x : ErrorLabel} (h : x ∈ e.error ∨ x ∈ c.error)
    (type : CharType) (v tf cv : Option Int) (extra : List ErrorLabel) :
    x ∈ (combineEscaped e c type v tf cv extra).error := by
  obtain h | h := h
  · exact mem_combineErrors.mpr ⟨e.error, by simp, h⟩
  · exact mem_combineErrors.mpr ⟨c.error, by simp, h⟩

theorem resolve_pending {d : Decoder} {e : Character} (he : d.pendingEscape = some e)
    (c : Character) : ∃ c', (d.resolvePrimitive c).2 = [c'] ∧
      ∀ x, x ∈ e.error ∨ x ∈ c.error → x ∈ c'.error := by
  unfold resolvePrimitive
  rw [he]
  dsimp only
  split
  · exact ⟨_, rfl, fun x hx => combineEscaped_error hx ..⟩
  · exact ⟨_, rfl, fun x hx => combineEscaped_error hx ..⟩
  · exact ⟨_, rfl, fun x hx => combineEscaped_error hx ..⟩

theorem resolve_held {d : Decoder} (h : Held d) (c : Character) :
    Reported (d.resolvePrimitive c).2 := by
  obtain ⟨e, he, hx⟩ := h
  obtain ⟨c', hc', herr⟩ := resolve_pending he c
  exact ⟨c', by simp [hc'], herr _ (.inl hx)⟩

theorem complete_held {d : Decoder} (h : Held d) (raw : List Bool) :
    Reported (d.complete raw).2 :=
  resolve_held (d := (parsePrimitive { d with buffer := [], expectedLen := none } raw).1) h _

theorem resolve_error {d : Decoder} {c : Character} (hx : .parityError ∈ c.error) :
    Reported (d.resolvePrimitive c).2 ∨ c.type = .esc ∧ Held (d.resolvePrimitive c).1 := by
  cases hp : d.pendingEscape with
  | some e =>
    obtain ⟨c', hc', herr⟩ := resolve_pending hp c
    exact .inl ⟨c', by simp [hc'], herr _ (.inr hx)⟩
  | none =>
    by_cases htype : c.type = .esc
    · exact .inr ⟨htype, c, by simp [resolvePrimitive, hp, htype], hx⟩
    · exact .inl ⟨c, by simp [resolvePrimitive, hp, htype], hx⟩

theorem push_held {d : Decoder} (hd : d.AtBoundary) (h : Held d) {bits : List Bool}
    (hlen : 10 ≤ bits.length) : Reported (d.push bits).2 := by
  obtain ⟨parity, dc, rest, rfl⟩ : ∃ parity dc rest, bits = parity :: dc :: rest := by
    match bits with
    | parity :: dc :: rest => exact ⟨parity, dc, rest, rfl⟩
    | [] | [_] => simp at hlen
  have hraw : RawPrimitive (parity :: dc :: rest.take (if dc then 2 else 8)) := by
    refine ⟨parity, dc, _, rfl, ?_⟩
    simp only [List.length_cons] at hlen
    cases dc <;> simp <;> omega
  have hsplit : parity :: dc :: rest =
      (parity :: dc :: rest.take (if dc then 2 else 8)) ++ rest.drop (if dc then 2 else 8) := by
    simp
  rw [hsplit, push_append, push_raw hd hraw]
  exact (complete_held h _).left _

theorem push_wrongParity {d : Decoder} (hd : d.AtBoundary) {parity dc : Bool} {content : List Bool}
    (hlen : content.length = if dc then 2 else 8)
    (hwrong : parity ≠ computeParity d.prevContentBits dc) :
    Reported (d.push (parity :: dc :: content)).2 ∨
      dc = true ∧ Held (d.push (parity :: dc :: content)).1 := by
  rw [push_raw hd ⟨parity, dc, content, rfl, hlen⟩]
  have herr : .parityError ∈ (parsePrimitive { d with buffer := [], expectedLen := none }
      (parity :: dc :: content)).2.error := by
    simp [parsePrimitive, hwrong]
  obtain h | ⟨htype, h⟩ := resolve_error herr
  · exact .inl h
  · refine .inr ⟨?_, h⟩
    cases dc with
    | true => rfl
    | false => simp [parsePrimitive] at htype

/-- Wherever the wrong parity bit stands, ten more bits bring it out. -/
theorem push_wrongParity_append {d : Decoder} (hd : d.AtBoundary) {parity dc : Bool}
    {content rest : List Bool} (hlen : content.length = if dc then 2 else 8)
    (hwrong : parity ≠ computeParity d.prevContentBits dc) (hrest : dc = true → 10 ≤ rest.length) :
    Reported (d.push (parity :: dc :: content ++ rest)).2 := by
  rw [push_append]
  obtain h | ⟨hdc, h⟩ := push_wrongParity hd hlen hwrong
  · exact h.left _
  · have hb : (d.push (parity :: dc :: content)).1.AtBoundary := by
      rw [push_raw hd ⟨parity, dc, content, rfl, hlen⟩]
      exact complete_atBoundary d _
    exact (push_held hb h (hrest hdc)).right _

theorem modify_append (f : Bool → Bool) (l r : List Bool) (i : Nat) :
    (l ++ r).modify i f =
      if i < l.length then l.modify i f ++ r else l ++ r.modify (i - l.length) f := by
  induction l generalizing i with
  | nil => simp
  | cons a l ih =>
    cases i with
    | zero => simp
    | succ i => by_cases hi : i < l.length <;> simp [ih, hi]

theorem count_modify_not {l : List Bool} {j : Nat} (hj : j < l.length) :
    (l.modify j not).count true % 2 ≠ l.count true % 2 := by
  induction l generalizing j with
  | nil => simp at hj
  | cons b l ih =>
    cases j with
    | zero => cases b <;> simp <;> omega
    | succ j =>
      have h := ih (by simpa using hj)
      cases b <;> simp <;> omega

theorem computeParity_modify {l : List Bool} {j : Nat} (hj : j < l.length) (dc : Bool) :
    computeParity l dc ≠ computeParity (l.modify j not) dc := by
  have h := count_modify_not hj
  unfold computeParity
  intro heq
  rw [Bool.eq_iff_iff] at heq
  simp only [beq_iff_eq] at heq
  omega

theorem computeParity_dcFlag (l : List Bool) : computeParity l true ≠ computeParity l false := by
  unfold computeParity
  intro heq
  rw [Bool.eq_iff_iff] at heq
  simp only [beq_iff_eq, Bool.toNat_true, Bool.toNat_false] at heq
  omega

theorem push_raw_state {d : Decoder} (hd : d.AtBoundary) (parity : Bool) {dc : Bool}
    {content : List Bool} (hlen : content.length = if dc then 2 else 8) :
    (d.push (parity :: dc :: content)).1.AtBoundary ∧
      (d.push (parity :: dc :: content)).1.prevContentBits = content := by
  rw [push_raw hd ⟨parity, dc, content, rfl, hlen⟩]
  refine ⟨complete_atBoundary d _, ?_⟩
  have hframe := resolvePrimitive_frame
    (parsePrimitive { d with buffer := [], expectedLen := none } (parity :: dc :: content)).1
    (parsePrimitive { d with buffer := [], expectedLen := none } (parity :: dc :: content)).2
  rw [complete, hframe.2.2.1]
  cases dc with
  | true => exact List.take_of_length_le hlen.le
  | false => exact List.take_of_length_le hlen.le

/-- A flipped bit of one primitive is reported, by that primitive when its parity bit or
its data-control flag is hit, and by the next one when its content is. -/
theorem push_flipped_head {d : Decoder} (hd : d.AtBoundary) {p q : Primitive} (hp : p.WellFormed)
    (hq : q.WellFormed) (rest : List Bool) (hrest : q.dcFlag = true → 10 ≤ rest.length) {i : Nat}
    (hi : i < (p.bits d.prevContentBits).length) :
    Reported (d.push ((p.bits d.prevContentBits).modify i not ++
      (q.bits p.contentBits ++ rest))).2 := by
  obtain ⟨dc, content⟩ := p
  have hlen : content.length = if dc then 2 else 8 := hp
  have hnext : 10 ≤ (q.bits content ++ rest).length := by
    obtain ⟨qdc, qcontent⟩ := q
    have hq' : qcontent.length = if qdc then 2 else 8 := hq
    cases qdc with
    | true => have := hrest rfl; simp; omega
    | false => simp [Primitive.bits, hq']
  match i, hi with
  | 0, _ =>
    exact push_wrongParity_append hd hlen (by simp) (fun _ => hnext)
  | 1, _ =>
    have hwrong := computeParity_dcFlag d.prevContentBits
    cases dc with
    | true =>
      -- read as a data character, the primitive takes six bits of what follows
      have hsplit : (Primitive.bits d.prevContentBits ⟨true, content⟩).modify 1 not ++
          (q.bits content ++ rest) = computeParity d.prevContentBits true :: false ::
            (content ++ (q.bits content ++ rest).take 6) ++ (q.bits content ++ rest).drop 6 := by
        simp [Primitive.bits]
      rw [hsplit]
      refine push_wrongParity_append hd ?_ hwrong nofun
      simp only [List.length_append, List.length_take] at hlen hnext ⊢
      simp at hlen ⊢
      omega
    | false =>
      -- read as a control character, it leaves six bits of its own behind
      have hsplit : (Primitive.bits d.prevContentBits ⟨false, content⟩).modify 1 not ++
          (q.bits content ++ rest) = computeParity d.prevContentBits false :: true ::
            content.take 2 ++ (content.drop 2 ++ (q.bits content ++ rest)) := by
        rw [List.cons_append, List.cons_append, ← List.append_assoc (content.take 2),
          List.take_append_drop]
        rfl
      rw [hsplit]
      refine push_wrongParity_append hd ?_ hwrong.symm (fun _ => ?_)
      · simp at hlen ⊢; omega
      · rw [List.length_append]; omega
  | j + 2, hj =>
    have hj' : j < content.length := by simpa [Primitive.bits] using hj
    have hlen' : (content.modify j not).length = if dc then 2 else 8 := by simpa using hlen
    have hsplit : (Primitive.bits d.prevContentBits ⟨dc, content⟩).modify (j + 2) not =
        computeParity d.prevContentBits dc :: dc :: content.modify j not := rfl
    rw [hsplit, push_append]
    obtain ⟨hb, hprev⟩ := push_raw_state hd (computeParity d.prevContentBits dc) hlen'
    refine (push_wrongParity_append hb hq ?_ hrest).right _
    rw [hprev]
    exact computeParity_modify hj' _

theorem stream_length {prev : List Bool} {ps : List Primitive} {last : Primitive}
    (hlast : last.WellFormed) (hdata : last.dcFlag = false) :
    10 ≤ (stream prev (ps ++ [last])).length := by
  obtain ⟨dc, content⟩ := last
  cases hdata
  have hlen : content.length = 8 := hlast
  rw [stream_append]
  simp [stream, Primitive.bits, hlen]

theorem push_flipped {ps : List Primitive} {last : Primitive} (hps : ∀ p ∈ ps, p.WellFormed)
    (hlast : last.WellFormed) (hdata : last.dcFlag = false) {d : Decoder} (hd : d.AtBoundary)
    {i : Nat} (hi : i < (stream d.prevContentBits ps).length) :
    Reported (d.push ((stream d.prevContentBits (ps ++ [last])).modify i not)).2 := by
  induction ps generalizing d i with
  | nil => simp [stream] at hi
  | cons p ps ih =>
    have hp := hps p (by simp)
    rw [List.cons_append, stream]
    by_cases hhead : i < (p.bits d.prevContentBits).length
    · rw [modify_append, if_pos hhead]
      cases ps with
      | nil =>
        have hflip := push_flipped_head hd hp hlast [] (by simp [hdata]) hhead
        simpa [stream] using hflip
      | cons q ps =>
        exact push_flipped_head hd hp (hps q (by simp)) _ (fun _ => stream_length hlast hdata) hhead
    · rw [modify_append, if_neg hhead, push_append]
      obtain ⟨hb, hprev⟩ := push_raw_state hd (computeParity d.prevContentBits p.dcFlag) hp
      have hrest := ih (fun q hq => hps q (by simp [hq])) hb
        (i := i - (p.bits d.prevContentBits).length) (by
          rw [hprev]
          simp [stream] at hi
          omega)
      rw [hprev] at hrest
      exact hrest.right _

/-- Every single-bit error in the part of a legal stream before its final data character
is reported as a parity error, and the parser turns it into RX_ERR. -/
theorem single_bit_error_caught {cs : List Character} (hlegal : ∀ c ∈ cs, Legal c) {b : Int}
    {final : Character} (hfinal : Encoder.data b = .ok final) :
    ∃ body bits, (Encoder.new.encodeAll cs).2 = .ok body ∧
      (Encoder.new.encodeAll (cs ++ [final])).2 = .ok bits ∧ body <+: bits ∧
      ∀ i < body.length, (∃ c ∈ (Decoder.new.push (bits.modify i not)).2, .parityError ∈ c.error) ∧
        .rxErr ∈ (Capture.new.feedBits (bits.modify i not)).events := by
  have hlegal' : ∀ c ∈ cs ++ [final], Legal c := by
    intro c hc
    obtain hc | hc := List.mem_append.mp hc
    · exact hlegal c hc
    · rw [List.mem_singleton.mp hc]
      exact .data hfinal
  obtain ⟨-, rfl⟩ := Encoder.data_ok hfinal
  have hps : ∀ p ∈ cs.flatMap Character.primitives, p.WellFormed := by
    intro p hp
    obtain ⟨c, hc, hpc⟩ := List.mem_flatMap.mp hp
    exact (hlegal c hc).primitives_wellFormed p hpc
  have hbody := Encoder.encodeAll_legal [] hlegal
  have hbits := Encoder.encodeAll_legal [] hlegal'
  refine ⟨_, _, by rw [hbody], by rw [hbits], ?_, fun i hi => ?_⟩
  · rw [List.flatMap_append, stream_append]
    exact List.prefix_append _ _
  · have hlast : WellFormed ⟨false, lsbBits b.toNat⟩ := by simp [WellFormed]
    have hreport := push_flipped hps hlast rfl (d := Decoder.new) ⟨rfl, rfl⟩ hi
    have hflat : (cs ++ [({ type := .data, value := some b } : Character)]).flatMap
        Character.primitives = cs.flatMap Character.primitives ++ [⟨false, lsbBits b.toNat⟩] := by
      simp [Character.primitives]
    rw [hflat]
    refine ⟨hreport, ?_⟩
    obtain ⟨c, hc, herr⟩ := hreport
    rw [Capture.feedBits_eq]
    exact Capture.rxErr_mem hc (by simp [isHardError, herr])

theorem single_bit_error_caught_null :
    ∃ body bits, (Encoder.new.encodeAll [Encoder.null]).2 = .ok body ∧
      (Encoder.new.encodeAll [Encoder.null, { type := .data, value := some 3 }]).2 = .ok bits ∧
      ∀ i < body.length, .rxErr ∈ (Capture.new.feedBits (bits.modify i not)).events := by
  obtain ⟨body, bits, hbody, hbits, -, hcaught⟩ := single_bit_error_caught
    (fun _ hc => List.mem_singleton.mp hc ▸ Legal.null) (b := 3) rfl
  exact ⟨body, bits, hbody, hbits, fun i hi => (hcaught i hi).2⟩

end SpaceWire.LineErrors
