import Mathlib.Data.List.Forall2
import SpaceWire.RoundTrip
import SpaceWire.Run

namespace SpaceWire.Resync

open Primitive Decoder RoundTrip Run

inductive EncoderCall
  | encode (request : Character)
  | forceBadParity (offset : Int)
  | reset (initialPrevContentBits : List Bool)

def EncoderCall.apply (e : Encoder) : EncoderCall → Encoder
  | .encode request => (e.encode request).1
  | .forceBadParity offset => (e.forceBadParity offset).toOption.getD e
  | .reset initialPrevContentBits => e.reset initialPrevContentBits

inductive DecoderCall
  | feed (bit : Bool)
  | push (bits : List Bool)
  | reset

def DecoderCall.apply (d : Decoder) : DecoderCall → Decoder
  | .feed bit => (d.feed bit).1
  | .push bits => (d.push bits).1
  | .reset => d.reset

/-- A request for a character that the standard defines: escaped data of type 0 is a time-code, of
type 2 a broadcast code, and the other two types are reserved. -/
def Plain (c : Character) : Prop := c.type = .broadcast → c.typeField = some 2

/-- The character is decoded without an error, with the type and the payload requested. -/
structure Same (request decoded : Character) : Prop where
  type : decoded.type = request.type
  value : decoded.value = request.value
  typeField : decoded.typeField = request.typeField
  codeValue : decoded.codeValue = request.codeValue
  parityOk : decoded.parityOk = true
  error : decoded.error = []

/-- After `reset()` on both, the decoder reads back every legal sequence that the encoder writes. -/
def Resynchronised (e : Encoder) (d : Decoder) : Prop :=
  ∀ cs : List Character, (∀ c ∈ cs, Legal c) →
    ∃ bits, (e.reset.encodeAll cs).2 = .ok bits ∧
      List.Forall₂ (fun request decoded =>
        ReadBack request decoded ∧ (Plain request → Same request decoded))
        cs (d.reset.push bits).2

variable {e : Encoder} {d : Decoder} {prev prev' : List Bool}

theorem same_of_readBack {c decoded : Character} (h : ReadBack c decoded) (hc : Plain c) :
    Same c decoded := by
  have hfield (t : Int) (ht : t ≠ 2) : ¬(c.type = .broadcast ∧ c.typeField = some t) := by
    rintro ⟨hb, hf⟩
    rw [hc hb] at hf
    exact ht (Option.some.inj hf).symm
  refine ⟨?_, h.value, h.typeField, h.codeValue, h.parityOk, ?_⟩
  · rw [h.type, if_neg (hfield 0 (by decide))]
  · rw [h.error, if_neg]
    rintro ⟨hb, hone | hthree⟩
    · exact hfield 1 (by decide) ⟨hb, hone⟩
    · exact hfield 3 (by decide) ⟨hb, hthree⟩

theorem computeParity_congr (h : prev.count true % 2 = prev'.count true % 2) (dcFlag : Bool) :
    computeParity prev dcFlag = computeParity prev' dcFlag := by
  unfold computeParity
  rw [Nat.add_mod, h, ← Nat.add_mod]

theorem stream_congr (h : prev.count true % 2 = prev'.count true % 2) (ps : List Primitive) :
    stream prev ps = stream prev' ps := by
  cases ps with
  | nil => rfl
  | cons p ps => simp only [stream, Primitive.bits, computeParity_congr h]

theorem push_initial (d : Decoder) (bits : List Bool) :
    (d.push bits).1.initialPrevContentBits = d.initialPrevContentBits := by
  induction bits generalizing d with
  | nil => rfl
  | cons b bits ih => rw [push_cons, ih, d.feed_initial]

theorem reset_run (initial : List Bool) (calls : List DecoderCall) :
    (run DecoderCall.apply (Decoder.new initial) calls).reset = Decoder.new initial := by
  have hinitial : (run DecoderCall.apply (Decoder.new initial) calls).initialPrevContentBits =
      initial := by
    apply run_keeps (I := fun d : Decoder => d.initialPrevContentBits = initial) rfl
    intro d call _ hd
    cases call with
    | feed bit => exact (d.feed_initial bit).trans hd
    | push bits => exact (push_initial d bits).trans hd
    | reset => exact hd
  rw [Decoder.reset, hinitial]
  rfl

theorem resynchronised_of_even (heven : prev.count true % 2 = 0) (hd : d.reset = Decoder.new prev) :
    Resynchronised e d := by
  intro cs hcs
  have hbits : (e.reset.encodeAll cs).2 = .ok (stream [] (cs.flatMap Character.primitives)) :=
    congrArg Prod.snd (Encoder.encodeAll_legal [] hcs)
  obtain ⟨decoded, hpush, hread⟩ :=
    push_requests (d := Decoder.new prev) ⟨rfl, rfl⟩ rfl hcs
  have hstream : stream [] (cs.flatMap Character.primitives) =
      stream (Decoder.new prev).prevContentBits (cs.flatMap Character.primitives) := by
    apply stream_congr
    rw [List.count_nil]
    exact heven.symm
  refine ⟨_, hbits, ?_⟩
  rw [hd, hstream, hpush]
  exact hread.imp fun c decoded h => ⟨h, same_of_readBack h⟩

theorem push_fct_odd (hodd : prev.count true % 2 = 1) :
    ∃ decoded, ((Decoder.new prev).push [false, true, false, false]).2 = [decoded] ∧
      decoded.type = .fct ∧ decoded.parityOk = false ∧ decoded.error = [.parityError] := by
  have hparity : computeParity prev true = true := by
    simp [computeParity]
    omega
  have hraw : RawPrimitive [false, true, false, false] := ⟨false, true, [false, false], rfl, rfl⟩
  rw [push_raw ⟨rfl, rfl⟩ hraw]
  simp [complete, parsePrimitive, resolvePrimitive, Decoder.new, hparity, controlTypeByBits]

theorem not_resynchronised_of_odd (hodd : prev.count true % 2 = 1)
    (hd : d.reset = Decoder.new prev) : ¬ Resynchronised e d := by
  intro h
  obtain ⟨bits, hbits, hread⟩ := h [.ofType .fct] (by simp [Legal.fct])
  obtain ⟨decoded, hpush, -, hfail, -⟩ := push_fct_odd hodd
  have hfct : bits = [false, true, false, false] := (Except.ok.inj hbits).symm
  rw [hd, hfct, hpush] at hread
  cases hread with
  | cons hone _ =>
    rw [hone.1.parityOk] at hfail
    cases hfail

/-- `reset()` takes the decoder back to the content it was constructed with and the encoder to none
at all, whatever was called on them, so that the two agree on the parity of the next character
exactly when the number of ones in that content is even. -/
theorem reset_resynchronises_iff (initial : List Bool) (encoderCalls : List EncoderCall)
    (decoderCalls : List DecoderCall) :
    Resynchronised (run EncoderCall.apply (Encoder.new initial) encoderCalls)
        (run DecoderCall.apply (Decoder.new initial) decoderCalls) ↔
      initial.count true % 2 = 0 := by
  have hd := reset_run initial decoderCalls
  constructor
  · intro h
    by_contra hne
    exact not_resynchronised_of_odd (by omega) hd h
  · exact fun heven => resynchronised_of_even heven hd

/-- Constructed with a single one, and reset at once: the first FCT has a parity error. -/
theorem reset_parity_error :
    ((Encoder.new [true]).reset.encodeAll [.ofType .fct]).2 = .ok [false, true, false, false] ∧
      (((Decoder.new [true]).reset.push [false, true, false, false]).2.map Character.error) =
        [[.parityError]] ∧
      ¬ Resynchronised (Encoder.new [true]) (Decoder.new [true]) := by
  refine ⟨rfl, by decide, ?_⟩
  have hodd : [true].count true % 2 = 1 := by decide
  exact not_resynchronised_of_odd hodd rfl

end SpaceWire.Resync
