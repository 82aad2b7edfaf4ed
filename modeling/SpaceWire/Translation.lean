import SpaceWire.CharacterParser

namespace SpaceWire

/-- A character parser whose callbacks act on a state of their own and never reset it. -/
structure CharacterParser (σ : Type) where
  decoder : Decoder := Decoder.new
  owner : σ

namespace CharacterParser

variable {σ : Type}

def feedBit (cb : ParserCallbacks σ) (p : CharacterParser σ) (bit : Bool) : CharacterParser σ :=
  let (decoder, characters) := p.decoder.feed bit
  { decoder, owner := characters.foldl (dispatch cb) p.owner }

def feedBits (cb : ParserCallbacks σ) (p : CharacterParser σ) (bits : List Bool) :
    CharacterParser σ := bits.foldl (feedBit cb) p

theorem feedBits_eq (cb : ParserCallbacks σ) (p : CharacterParser σ) (bits : List Bool) :
    p.feedBits cb bits =
      { decoder := (p.decoder.push bits).1
        owner := (p.decoder.push bits).2.foldl (dispatch cb) p.owner } := by
  induction bits generalizing p with
  | nil => rfl
  | cons b bits ih =>
    have hfeed : p.feedBits cb (b :: bits) = (p.feedBit cb b).feedBits cb bits := rfl
    rw [hfeed, ih, Decoder.push_cons, List.foldl_append]
    rfl

end CharacterParser

inductive Invoked
  | event (e : Event)
  | character (c : Character)

def ParserCallbacks.invoke {σ : Type} (cb : ParserCallbacks σ) (s : σ) : Invoked → σ
  | .event e => cb.onEvent s e
  | .character c => cb.onCharacter s c

namespace Translation

open Decoder

/-- What a character is translated to: RX_ERR when it has a parity or an escape error, else the
event of its type and then the character itself. -/
inductive Translated (c : Character) : List Invoked → Prop
  | rxErr (h : .parityError ∈ c.error ∨ .escapeError ∈ c.error) : Translated c [.event .rxErr]
  | character {e : Event} (hparity : .parityError ∉ c.error) (hescape : .escapeError ∉ c.error)
      (he : characterEvent c.type = some e) : Translated c [.event e, .character c]

variable {d : Decoder} {c : Character}

/-- An ESC is only ever returned as an escape error, and with an ESC pending no primitive is
returned as an FCT. -/
theorem resolvePrimitive_types (d : Decoder) (c₀ : Character) :
    ∀ c ∈ (d.resolvePrimitive c₀).2,
      (c.type = .esc → .escapeError ∈ c.error) ∧ (d.pendingEscape.isSome → c.type ≠ .fct) := by
  intro c hc
  unfold resolvePrimitive at hc
  cases hp : d.pendingEscape with
  | none =>
    rw [hp] at hc
    dsimp only at hc
    split at hc
    · simp at hc
    · rename_i htype
      rw [List.mem_singleton.mp hc]
      exact ⟨fun h => absurd h htype, nofun⟩
  | some e =>
    rw [hp] at hc
    dsimp only at hc
    split at hc
    · rw [List.mem_singleton.mp hc]
      exact ⟨nofun, fun _ => nofun⟩
    · rw [List.mem_singleton.mp hc, decodeEscapedData]
      dsimp only
      repeat' split
      all_goals exact ⟨nofun, fun _ => nofun⟩
    · rename_i hfct hdata
      rw [List.mem_singleton.mp hc]
      exact ⟨fun _ => mem_combineErrors.mpr ⟨[.escapeError], by simp, by simp⟩, fun _ h => hfct h⟩

theorem feed_types (d : Decoder) (bit : Bool) :
    ∀ c ∈ (d.feed bit).2,
      (c.type = .esc → .escapeError ∈ c.error) ∧ (d.pendingEscape.isSome → c.type ≠ .fct) := by
  unfold feed
  dsimp only
  split
  · simp
  · split
    · simp
    · exact resolvePrimitive_types _ _

theorem push_types (d : Decoder) (bits : List Bool) :
    ∀ c ∈ (d.push bits).2, c.type = .esc → .escapeError ∈ c.error := by
  induction bits generalizing d with
  | nil => simp
  | cons b bits ih =>
    intro c hc
    rw [push_cons] at hc
    obtain hc | hc := List.mem_append.mp hc
    · exact (feed_types d b c hc).1
    · exact ih _ c hc

/-- The branch for a bare ESC is not taken by a character that the decoder returns. -/
theorem dispatch_translated (hesc : c.type = .esc → .escapeError ∈ c.error) :
    ∃ log, Translated c log ∧ ∀ {σ : Type} (cb : ParserCallbacks σ) (s : σ),
      dispatch cb s c = log.foldl cb.invoke s := by
  cases hhard : isHardError c.error with
  | true =>
    refine ⟨_, .rxErr (by simpa [isHardError] using hhard), fun cb s => ?_⟩
    simp [dispatch, hhard, ParserCallbacks.invoke]
  | false =>
    obtain ⟨hparity, hescape⟩ : .parityError ∉ c.error ∧ .escapeError ∉ c.error := by
      simpa [isHardError] using hhard
    cases hev : characterEvent c.type with
    | none =>
      have htype : c.type = .esc := by
        cases ht : c.type <;> simp [ht, characterEvent] at hev
        rfl
      exact absurd (hesc htype) hescape
    | some e =>
      refine ⟨_, .character hparity hescape hev, fun cb s => ?_⟩
      simp [dispatch, hhard, hev, ParserCallbacks.invoke]

theorem foldl_dispatch_translated {cs : List Character}
    (hesc : ∀ c ∈ cs, c.type = .esc → .escapeError ∈ c.error) :
    ∃ logs, List.Forall₂ Translated cs logs ∧ ∀ {σ : Type} (cb : ParserCallbacks σ) (s : σ),
      cs.foldl (dispatch cb) s = logs.flatten.foldl cb.invoke s := by
  induction cs with
  | nil => exact ⟨[], .nil, fun _ _ => rfl⟩
  | cons c cs ih =>
    obtain ⟨log, hlog, hone⟩ := dispatch_translated (hesc c (by simp))
    obtain ⟨logs, hlogs, hrest⟩ := ih fun c' hc' => hesc c' (List.mem_cons_of_mem c hc')
    refine ⟨log :: logs, .cons hlog hlogs, fun cb s => ?_⟩
    rw [List.foldl_cons, hone, hrest, List.flatten_cons, List.foldl_append]

theorem Translated.gotFct {log : List Invoked} (h : Translated c log)
    (hmem : .event .gotFct ∈ log) :
    c.type = .fct := by
  cases h with
  | rxErr => simp at hmem
  | character _ _ he =>
    cases ht : c.type <;> simp [ht, characterEvent] at he <;> subst he <;> simp at hmem
    rfl

/-- The parser makes one event of every character of a stream, in order, and passes on exactly
the characters whose event is not RX_ERR. A bit that comes with an ESC pending makes no GOT_FCT. -/
theorem parser_one_to_one (bits : List Bool) :
    (∃ logs, List.Forall₂ Translated (Decoder.new.push bits).2 logs ∧
      ∀ {σ : Type} (cb : ParserCallbacks σ) (s : σ),
        CharacterParser.feedBits cb { owner := s } bits =
          { decoder := (Decoder.new.push bits).1, owner := logs.flatten.foldl cb.invoke s }) ∧
      (∀ c ∈ (Decoder.new.push bits).2, c.type = .esc → .escapeError ∈ c.error) ∧
      ((Decoder.new.push bits).1.pendingEscape.isSome → ∀ bit,
        ∀ c ∈ ((Decoder.new.push bits).1.feed bit).2, ∀ log, Translated c log →
          .event .gotFct ∉ log) := by
  have hesc := push_types Decoder.new bits
  obtain ⟨logs, hlogs, hall⟩ := foldl_dispatch_translated hesc
  refine ⟨⟨logs, hlogs, fun cb s => ?_⟩, hesc, fun hpending bit c hc log hlog hmem => ?_⟩
  · rw [CharacterParser.feedBits_eq, hall]
  · exact (feed_types _ bit c hc).2 hpending (hlog.gotFct hmem)

end Translation

end SpaceWire
