import SpaceWire.LineErrors
import SpaceWire.RoundTrip

namespace SpaceWire.Reencode

open Primitive Decoder LineErrors RoundTrip

section framing

theorem exists_raw {d : Decoder} (hd : d.AtBoundary) {bits : List Bool} (hne : bits ≠ [])
    (hbuf : (d.push bits).1.buffer = []) :
    ∃ parity dc content rest, bits = parity :: dc :: content ++ rest ∧
      content.length = if dc then 2 else 8 := by
  obtain hshort | ⟨raw, rest, ⟨parity, dc, content, rfl, hlen⟩, rfl⟩ := short_or_raw bits
  · obtain ⟨n, hpush⟩ := push_of_short hd hshort
    rw [hpush] at hbuf
    exact absurd hbuf hne
  · exact ⟨parity, dc, content, rest, rfl, hlen⟩

theorem exists_stream {d : Decoder} (hd : d.AtBoundary) (hheld : ¬ Held d) {bits : List Bool}
    (hbuf : (d.push bits).1.buffer = []) (hend : ¬ Held (d.push bits).1)
    (hclean : ¬ Reported (d.push bits).2) :
    ∃ ps, (∀ p ∈ ps, p.WellFormed) ∧ bits = stream d.prevContentBits ps := by
  induction bits using stream_induction generalizing d with
  | short bits hshort =>
    obtain ⟨n, hpush⟩ := push_of_short hd hshort
    rw [hpush] at hbuf
    exact ⟨[], by simp, hbuf⟩
  | raw raw rest hraw ih =>
    obtain ⟨parity, dc, content, rfl, hlen⟩ := hraw
    obtain ⟨hboundary, hprev⟩ := push_raw_state hd parity hlen
    rw [push_append] at hbuf hend hclean
    have hclean1 : ¬ Reported (d.push (parity :: dc :: content)).2 :=
      fun h => hclean (h.left _)
    have hclean2 : ¬ Reported ((d.push (parity :: dc :: content)).1.push rest).2 :=
      fun h => hclean (h.right _)
    have hheld1 : ¬ Held (d.push (parity :: dc :: content)).1 := by
      intro h
      by_cases hrest : rest = []
      · subst hrest
        exact hend h
      · obtain ⟨parity', dc', content', rest', rfl, hlen'⟩ := exists_raw hboundary hrest hbuf
        rw [push_append, push_raw hboundary ⟨_, _, _, rfl, hlen'⟩] at hclean2
        exact hclean2 ((complete_held h _).left _)
    have hright : parity = computeParity d.prevContentBits dc := by
      by_contra hwrong
      cases push_wrongParity hd hlen hwrong with
      | inl h => exact hclean1 h
      | inr h => exact hheld1 h.2
    obtain ⟨ps, hps, hstream⟩ := ih hboundary hheld1 hbuf hend hclean2
    refine ⟨⟨dc, content⟩ :: ps, ?_, ?_⟩
    · simpa using ⟨hlen, hps⟩
    · rw [hprev] at hstream
      simp [stream, Primitive.bits, ← hstream, hright]

end framing

section pairing

/-- A character as the decoder reports it is encoded to the bits it was decoded from. -/
def Faithful (prev content bits : List Bool) (c : Character) : Prop :=
  (Encoder.new prev).encode c = (Encoder.new content, .ok bits)

theorem faithful_single (prev : List Bool) {p : Primitive} (hp : p.WellFormed) :
    Faithful prev p.contentBits (stream prev [p]) (decodedAs prev p) := by
  obtain ⟨dc, content⟩ := p
  have hlen : content.length = if dc then 2 else 8 := hp
  cases dc with
  | true =>
    match content with
    | [a, b] => cases a <;> cases b <;> rfl
  | false =>
    have hb := lsbBitsToNat_lt hlen.le
    have hdata : (Encoder.new prev).encodeData (lsbBitsToNat content : Int) = _ :=
      Encoder.encodeData_new prev (by omega)
    simp only [Int.toNat_natCast, lsbBits_lsbBitsToNat hlen] at hdata
    simpa [Faithful, decodedAs, Encoder.encode, stream] using hdata

theorem faithful_escapedData (prev : List Bool) {b : Nat} (hb : b < 256) {c : Character}
    (htype : c.type = if b / 64 = 0 then .timecode else .broadcast)
    (hvalue : c.value = some (b : Int)) (hcode : c.codeValue = some (b % 64 : Int)) :
    Faithful prev (lsbBits b) (stream prev [escape, ⟨false, lsbBits b⟩]) c := by
  have hesc : (Encoder.new prev).encodeEscaped (b : Int) =
      (Encoder.new (lsbBits b), .ok (stream prev [escape, ⟨false, lsbBits b⟩])) :=
    Encoder.encodeEscaped_new prev (by omega)
  by_cases hzero : b / 64 = 0
  · rw [if_pos hzero] at htype
    have hmod : (b : Int) % 64 = b := by omega
    simpa [Faithful, Encoder.encode, htype, hcode, hmod] using hesc
  · rw [if_neg hzero] at htype
    simpa [Faithful, Encoder.encode, htype, hvalue] using hesc

theorem resolve_control (d : Decoder) (escaped : Character) {content : List Bool}
    (hlen : content.length = 2) :
    ∃ type extra, { d with pendingEscape := some escaped }.resolvePrimitive
          (decodedAs [true, true] ⟨true, content⟩) =
        ({ d with pendingEscape := none },
          [combineEscaped escaped (decodedAs [true, true] ⟨true, content⟩) type none none none
            extra]) ∧
      (type = .null ∧ content = [false, false] ∨ .escapeError ∈ extra) := by
  match content with
  | [false, false] => exact ⟨.null, [], rfl, .inl ⟨rfl, rfl⟩⟩
  | [false, true] => exact ⟨.eop, [.escapeError], rfl, .inr (by simp)⟩
  | [true, false] => exact ⟨.eep, [.escapeError], rfl, .inr (by simp)⟩
  | [true, true] => exact ⟨.esc, [.escapeError], rfl, .inr (by simp)⟩

theorem push_pair {d : Decoder} (hd : d.AtBoundary) (hnone : d.pendingEscape = none)
    {p : Primitive} (hp : p.WellFormed) :
    ∃ c, d.push (stream d.prevContentBits [escape, p]) =
        ({ d with prevContentBits := p.contentBits }, [c]) ∧
      (.escapeError ∉ c.error →
        Faithful d.prevContentBits p.contentBits (stream d.prevContentBits [escape, p]) c) := by
  obtain ⟨dc, content⟩ := p
  have hlen : content.length = if dc then 2 else 8 := hp
  cases dc with
  | false =>
    have hb := lsbBitsToNat_lt hlen.le
    obtain ⟨c, hpush, htype, hvalue, -, hcode, -⟩ := push_escapedData hd hnone hb
    rw [lsbBits_lsbBitsToNat hlen] at hpush
    refine ⟨c, hpush, fun _ => ?_⟩
    have hfaithful := faithful_escapedData d.prevContentBits hb htype hvalue hcode
    rwa [lsbBits_lsbBitsToNat hlen] at hfaithful
  | true =>
    have hpush := push_escaped hd hnone hp
    obtain ⟨type, extra, heq, hcases⟩ := resolve_control
      { d with prevContentBits := content } (decodedAs d.prevContentBits escape) hlen
    refine ⟨_, hpush.trans (heq.trans (by simp only [hnone]; rfl)), fun hclean => ?_⟩
    cases hcases with
    | inl hnull =>
      obtain ⟨rfl, rfl⟩ := hnull
      rfl
    | inr hextra =>
      exact absurd (mem_combineErrors.mpr ⟨extra, by simp, hextra⟩) hclean

theorem eq_escape {prev : List Bool} {p : Primitive} (hp : p.WellFormed)
    (h : (decodedAs prev p).type = .esc) : p = escape := by
  obtain ⟨dc, content⟩ := p
  have hlen : content.length = if dc then 2 else 8 := hp
  cases dc with
  | false => cases h
  | true =>
    match content with
    | [true, true] => rfl
    | [false, false] | [false, true] | [true, false] => cases h

/-- The encoder retraces a stream of primitives that leaves no ESC unpaired. -/
theorem encodeAll_push {d : Decoder} (hd : d.AtBoundary) (hnone : d.pendingEscape = none)
    {ps : List Primitive} (hps : ∀ p ∈ ps, p.WellFormed)
    (hesc : (d.push (stream d.prevContentBits ps)).1.pendingEscape = none)
    (hclean : ∀ c ∈ (d.push (stream d.prevContentBits ps)).2, .escapeError ∉ c.error) :
    ((Encoder.new d.prevContentBits).encodeAll (d.push (stream d.prevContentBits ps)).2).2 =
      .ok (stream d.prevContentBits ps) := by
  induction hn : ps.length using Nat.strong_induction_on generalizing d ps with
  | _ n ih =>
    -- one character, from one primitive or two, and the stream behind it
    have hnext (tok rest : List Primitive) {content : List Bool} {c : Character}
        (heq : ps = tok ++ rest) (hpos : tok ≠ [])
        (hlast : lastContent d.prevContentBits tok = content)
        (hpush : d.push (stream d.prevContentBits tok) =
          ({ d with prevContentBits := content }, [c]))
        (hfaithful : .escapeError ∉ c.error →
          Faithful d.prevContentBits content (stream d.prevContentBits tok) c) :
        ((Encoder.new d.prevContentBits).encodeAll (d.push (stream d.prevContentBits ps)).2).2 =
          .ok (stream d.prevContentBits ps) := by
      subst heq
      have hlen : rest.length < n := by
        have htok := List.length_pos_iff.mpr hpos
        rw [← hn, List.length_append]
        omega
      simp only [stream_append, hlast, push_append, hpush] at hesc hclean ⊢
      have hrest := ih rest.length hlen (d := { d with prevContentBits := content }) hd hnone
        (fun p hp => hps p (by simp [hp])) hesc (fun e he => hclean e (by simp [he])) rfl
      have hone : (Encoder.new d.prevContentBits).encode c = _ := hfaithful (hclean c (by simp))
      simp only [List.singleton_append, Encoder.encodeAll, hone]
      simp only at hrest
      simp [hrest, Except.map]
    cases hcons : ps with
    | nil => rfl
    | cons p rest =>
      have hp : p.WellFormed := hps p (by simp [hcons])
      rw [← hcons]
      by_cases htype : (decodedAs d.prevContentBits p).type = .esc
      · obtain rfl := eq_escape hp htype
        cases hcons' : rest with
        | nil =>
          rw [hcons, hcons'] at hesc
          have hpush := push_primitive hd hp
          simp only [stream, List.append_nil, hpush] at hesc
          simp [resolvePrimitive, hnone, htype] at hesc
        | cons q rest' =>
          obtain ⟨c, hpush, hfaithful⟩ := push_pair hd hnone (hps q (by simp [hcons, hcons']))
          exact hnext [escape, q] rest' (by simp [hcons, hcons']) (by simp) rfl hpush hfaithful
      · exact hnext [p] rest hcons (by simp) rfl (push_single hd hnone hp htype)
          fun _ => faithful_single _ hp

end pairing

/-- What the decoder accepts is what the encoder makes of the characters it reports: any bit
stream without parity and escape errors that ends between two characters. -/
theorem encode_decoded (bits : List Bool)
    (hclean : ∀ c ∈ (Decoder.new.push bits).2, .parityError ∉ c.error ∧ .escapeError ∉ c.error)
    (hbuf : (Decoder.new.push bits).1.buffer = [])
    (hesc : (Decoder.new.push bits).1.pendingEscape = none) :
    (Encoder.new.encodeAll (Decoder.new.push bits).2).2 = .ok bits := by
  have hheld {d : Decoder} (h : d.pendingEscape = none) : ¬ Held d := by
    rintro ⟨e, he, -⟩
    rw [h] at he
    cases he
  have hnone : (Decoder.new).pendingEscape = none := rfl
  have hreported : ¬ Reported (Decoder.new.push bits).2 := by
    rintro ⟨c, hc, hx⟩
    exact (hclean c hc).1 hx
  obtain ⟨ps, hps, hstream⟩ :=
    exists_stream ⟨rfl, rfl⟩ (hheld hnone) hbuf (hheld hesc) hreported
  rw [hstream] at hesc hclean ⊢
  exact encodeAll_push ⟨rfl, rfl⟩ hnone hps hesc fun c hc => (hclean c hc).2

theorem encode_decoded_reserved :
    let bits := [false, true, false, false] ++
      [false, true, true, true, false, true, false, false] ++
      [false, true, true, true, true, false, false, false, false, false, false, false, true, false]
    (Encoder.new.encodeAll (Decoder.new.push bits).2).2 = .ok bits :=
  encode_decoded _ (by decide) (by decide) (by decide)

end SpaceWire.Reencode
