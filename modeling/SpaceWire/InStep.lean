import SpaceWire.Endpoint
import SpaceWire.RoundTrip

namespace SpaceWire

open Primitive Decoder RoundTrip

/-- The bits on their way to a decoder are those of the characters on theirs, and behind them
the decoder stands where the encoder that wrote them stands. -/
structure InStep (e : Encoder) (d : Decoder) (cs : List Character) (bits : List Bool) : Prop where
  decoded : (d.push bits).2.map Character.onWire = cs.map Character.onWire
  clean : ∀ c ∈ (d.push bits).2, c.error = []
  boundary : (d.push bits).1.AtBoundary
  resolved : (d.push bits).1.pendingEscape = none
  parity : (d.push bits).1.prevContentBits = e.prevContentBits
  unforced : e.badParityOffsets = []

theorem LineChar.legal {c : Character} (h : LineChar c) : Legal c := by
  cases h with
  | null => exact .null
  | fct => exact .fct
  | packet h =>
    cases h with
    | eop => exact .eop
    | eep => exact .eep
    | @data b hb => exact .data (b := b) (by simp [Encoder.data, byte, hb, dataChar])

theorem LineChar.readBack {c decoded : Character} (hc : LineChar c) (h : ReadBack c decoded) :
    decoded.onWire = c ∧ decoded.error = [] := by
  have htype := h.type
  have hvalue := h.value
  have herror := h.error
  cases hc with
  | null | fct =>
    have ht : decoded.type = _ := htype
    constructor
    · simp [Character.onWire, ht, Encoder.null, Character.ofType]
    · simpa [Encoder.null, Character.ofType] using herror
  | packet hc =>
    cases hc with
    | eop | eep =>
      have ht : decoded.type = _ := htype
      constructor
      · simp [Character.onWire, ht, Character.ofType]
      · simpa [Character.ofType] using herror
    | @data b hb =>
      have ht : decoded.type = .data := htype
      constructor
      · simp [Character.onWire, ht, hvalue, dataChar]
      · simpa [dataChar] using herror

namespace Decoder

variable {d : Decoder}

theorem resolvePrimitive_resolved {c : Character} (h : (d.resolvePrimitive c).2 ≠ []) :
    (d.resolvePrimitive c).1.pendingEscape = none := by
  unfold resolvePrimitive at h ⊢
  cases hp : d.pendingEscape with
  | none =>
    rw [hp] at h
    dsimp only at h ⊢
    split
    · rw [if_pos ‹_›] at h
      exact absurd rfl h
    · exact hp
  | some escaped =>
    dsimp only
    split <;> rfl

theorem feed_completes {b : Bool} (h : (d.feed b).2 ≠ []) :
    (d.feed b).1.AtBoundary ∧ (d.feed b).1.pendingEscape = none := by
  unfold feed at h ⊢
  dsimp only at h ⊢
  split
  · rename_i hn
    rw [hn] at h
    exact absurd rfl h
  · rename_i n hn
    rw [hn] at h
    dsimp only at h ⊢
    split
    · rw [if_pos ‹_›] at h
      exact absurd rfl h
    · rw [if_neg ‹_›] at h
      exact ⟨complete_atBoundary _ _, resolvePrimitive_resolved h⟩

theorem resolvePrimitive_silent {c : Character} (h : (d.resolvePrimitive c).2 = []) :
    d.pendingEscape = none ∧ (d.resolvePrimitive c).1.pendingEscape ≠ none := by
  unfold resolvePrimitive at h ⊢
  cases hp : d.pendingEscape with
  | none =>
    rw [hp] at h
    dsimp only at h ⊢
    split
    · exact ⟨rfl, by simp⟩
    · rw [if_neg ‹_›] at h
      cases h
  | some escaped =>
    rw [hp] at h
    dsimp only at h
    split at h <;> cases h

theorem complete_silent {raw : List Bool} (h : (d.complete raw).2 = []) :
    d.pendingEscape = none ∧ (d.complete raw).1.pendingEscape ≠ none :=
  resolvePrimitive_silent (d := (parsePrimitive { d with buffer := [], expectedLen := none } raw).1)
    h

theorem push_silent {bits : List Bool} (hd : d.AtBoundary) (hsilent : (d.push bits).2 = [])
    (hboundary : (d.push bits).1.AtBoundary) (hresolved : (d.push bits).1.pendingEscape = none) :
    bits = [] := by
  have hshort {d : Decoder} {bits : List Bool} (hd : d.AtBoundary) (h : Short bits)
      (hb : (d.push bits).1.AtBoundary) : bits = [] := by
    obtain ⟨n, heq⟩ := push_of_short hd h
    rw [heq] at hb
    exact hb.1
  obtain h | ⟨esc, rest, hesc, rfl⟩ := short_or_raw bits
  · exact hshort hd h hboundary
  · rw [push_append, push_raw hd hesc] at hsilent hboundary hresolved
    obtain ⟨hnone, hsilent⟩ := List.append_eq_nil_iff.mp hsilent
    obtain ⟨-, hheld⟩ := complete_silent hnone
    obtain h | ⟨raw, rest, hraw, rfl⟩ := short_or_raw rest
    · obtain rfl := hshort (d.complete_atBoundary esc) h hboundary
      exact absurd hresolved hheld
    · rw [push_append, push_raw (d.complete_atBoundary esc) hraw] at hsilent
      exact absurd (complete_silent (List.append_eq_nil_iff.mp hsilent).1).1 hheld

end Decoder

namespace InStep

variable {e e' : Encoder} {d : Decoder} {cs : List Character} {bits : List Bool} {c : Character}

theorem start : InStep (Encoder.new []) (Decoder.new []) [] [] :=
  ⟨rfl, by simp, ⟨rfl, rfl⟩, rfl, rfl, rfl⟩

theorem congr {cs' : List Character} (h : InStep e d cs bits)
    (hcs : cs'.map Character.onWire = cs.map Character.onWire) : InStep e d cs' bits :=
  ⟨h.decoded.trans hcs.symm, h.clean, h.boundary, h.resolved, h.parity, h.unforced⟩

theorem encode {bs : List Bool} (h : InStep e d cs bits) (hc : LineChar c.onWire)
    (henc : e.encode c.onWire = (e', .ok bs)) : InStep e' d (cs ++ [c]) (bits ++ bs) := by
  have he : e = Encoder.new e.prevContentBits := by
    rw [Encoder.new, ← h.unforced]
  have hlegal := hc.legal
  rw [he, Encoder.encode_legal _ hlegal, Prod.mk.injEq, Except.ok.injEq] at henc
  obtain ⟨rfl, rfl⟩ := henc
  obtain ⟨decoded, hpush, hread⟩ := push_request h.boundary h.resolved hlegal
  obtain ⟨hwire, herror⟩ := hc.readBack hread
  rw [h.parity] at hpush
  have hall : d.push (bits ++ stream e.prevContentBits c.onWire.primitives) =
      ({ (d.push bits).1 with
          prevContentBits := lastContent e.prevContentBits c.onWire.primitives },
        (d.push bits).2 ++ [decoded]) := by
    rw [push_append, hpush]
  refine ⟨?_, ?_, ?_, ?_, ?_, rfl⟩ <;> rw [hall]
  · rw [List.map_append, List.map_append, h.decoded, List.map_singleton, List.map_singleton, hwire]
  · intro x hx
    obtain hx | hx := List.mem_append.mp hx
    · exact h.clean x hx
    · rwa [List.mem_singleton.mp hx]
  · exact h.boundary
  · exact h.resolved
  · rfl

theorem feed {b : Bool} (h : InStep e d cs (b :: bits)) :
    (d.feed b).2 = [] ∧ InStep e (d.feed b).1 cs bits ∨
      ∃ decoded c rest, (d.feed b).2 = [decoded] ∧ cs = c :: rest ∧
        decoded.onWire = c.onWire ∧ decoded.error = [] ∧ InStep e (d.feed b).1 rest bits ∧
        (rest = [] → bits = []) := by
  obtain ⟨hdecoded, hclean, hboundary, hresolved, hparity, hunforced⟩ := h
  rw [push_cons] at hdecoded hclean hboundary hresolved hparity
  have hlen := d.feed_length b
  cases hfeed : (d.feed b).2 with
  | nil =>
    rw [hfeed, List.nil_append] at hdecoded hclean
    exact .inl ⟨rfl, hdecoded, hclean, hboundary, hresolved, hparity, hunforced⟩
  | cons decoded more =>
    rw [hfeed] at hdecoded hclean hlen
    obtain rfl : more = [] := by simpa using hlen
    cases cs with
    | nil => cases hdecoded
    | cons c rest =>
      simp only [List.singleton_append, List.map_cons, List.cons.injEq] at hdecoded
      obtain ⟨hhead, hrest⟩ := hdecoded
      refine .inr ⟨decoded, c, rest, rfl, rfl, hhead, hclean _ (by simp), ?_, ?_⟩
      · exact ⟨hrest, fun x hx => hclean x (List.mem_append_right _ hx), hboundary, hresolved,
          hparity, hunforced⟩
      · rintro rfl
        obtain ⟨hb, -⟩ := Decoder.feed_completes (d := d) (b := b) (by simp [hfeed])
        exact push_silent hb (List.map_eq_nil_iff.mp hrest) hboundary hresolved

end InStep

end SpaceWire
