import SpaceWire.BadParity
import SpaceWire.CharMonitor

namespace SpaceWire

open Primitive Run

/-- What a character says, apart from the bits it came in. -/
structure Reading where
  type : CharType
  value : Option Int := none
  typeField : Option Int := none
  codeValue : Option Int := none
  error : List ErrorLabel := []
  deriving DecidableEq

def Character.reading (c : Character) : Reading :=
  { type := c.type, value := c.value, typeField := c.typeField, codeValue := c.codeValue
    error := c.error }

namespace Primitive

def type (p : Primitive) : CharType :=
  if p.dcFlag then controlTypeByBits p.contentBits else .data

def value (p : Primitive) : Option Int :=
  if p.dcFlag then none else some (lsbBitsToNat p.contentBits)

end Primitive

namespace Reading

def parityErrors (corrupt : Bool) : List ErrorLabel := if corrupt then [.parityError] else []

def single (p : Primitive) (corrupt : Bool) : Reading :=
  { type := p.type, value := p.value, error := parityErrors corrupt }

/-- An ESC and the primitive after it: a NULL, a code, or an illegal sequence. -/
def escaped (p : Primitive) (corrupt : Bool) : Reading :=
  match p.type with
  | .fct => { type := .null, error := parityErrors corrupt }
  | .data =>
    let byte := p.value.getD 0
    { type := if byte / 64 = 0 then .timecode else .broadcast
      value := some byte
      typeField := some (byte / 64)
      codeValue := some (byte % 64)
      error := parityErrors corrupt ++
        if byte / 64 = 1 ∨ byte / 64 = 3 then [.reservedEscapeDataType] else [] }
  | type => { type, error := parityErrors corrupt ++ [.escapeError] }

end Reading

/-- What a test bench expects: how many primitives have been sent, which ones are to have a
corrupt parity bit, an ESC that waits for the next primitive, and the readings so far. -/
structure Scoreboard where
  places : Nat := 0
  targets : List Nat := []
  held : Option Bool := none
  expected : List Reading := []

def DriverCall.requests : DriverCall → List Character
  | .send request | .sendTruncated request _ =>
    (Encoder.coerceCharacter request).toOption.toList
  | .sendData byte => (Encoder.data byte).toOption.toList
  | .sendNull => [Encoder.null]
  | .sendTimeCode value => (Encoder.timeCode value).toOption.toList
  | .sendBroadcast value typeField => (Encoder.broadcast value typeField).toOption.toList
  | .sendFct => [.ofType .fct]
  | .sendEop => [.ofType .eop]
  | .sendEep => [.ofType .eep]
  | .sendEscape => [.ofType .esc]
  | .sendIllegalEscape following => [.ofType .esc, .ofType following]
  | .forceBadParity _ | .sendRawBits _ => []

/-- Calls that send whole characters, without a request that the encoder rejects after it has
encoded an ESC for it. -/
def DriverCall.Framed : DriverCall → Prop
  | .send (.character c) => ¬ c.RejectedAfterEsc
  | .sendRawBits _ | .sendTruncated _ _ => False
  | _ => True

theorem Legal.not_rejected {c : Character} (h : Legal c) : ¬ c.RejectedAfterEsc := by
  rw [Encoder.rejectedAfterEsc_iff]
  rintro ⟨v, hv, hout⟩
  obtain ⟨e, bits, henc⟩ : ∃ e bits, (Encoder.new).encode c = (e, .ok bits) :=
    ⟨_, _, Encoder.encode_legal [] h⟩
  obtain ⟨err, herr⟩ := (Encoder.new).encodeEscaped_error hout
  rw [Encoder.encode_escapedByte _ hv, herr] at henc
  cases henc

theorem not_rejected_ofType (type : CharType) : ¬ (Character.ofType type).RejectedAfterEsc := by
  rintro (⟨_, hv, _⟩ | ⟨_, hv, _⟩ | ⟨_, _, _, hout⟩)
  · cases hv
  · cases hv
  · exact hout ⟨by simp [Character.ofType], by simp [Character.ofType]⟩

theorem DriverCall.Framed.requests {call : DriverCall} (h : call.Framed) :
    ∀ c ∈ call.requests, ¬ c.RejectedAfterEsc := by
  have hbuilt {b : Except Exn Character} (hb : ∀ c, b = .ok c → Legal c) :
      ∀ c ∈ b.toOption.toList, ¬ c.RejectedAfterEsc := by
    intro c hc
    cases b with
    | error err => cases hc
    | ok d =>
      obtain rfl : c = d := by simpa [Except.toOption] using hc
      exact (hb c rfl).not_rejected
  cases call with
  | send r =>
    cases r with
    | character c =>
      have hc : ¬ c.RejectedAfterEsc := h
      simpa [DriverCall.requests, Encoder.coerceCharacter, Except.toOption] using hc
    | charType type =>
      simpa [DriverCall.requests, Encoder.coerceCharacter, Except.toOption] using
        not_rejected_ofType type
    | byte value => exact hbuilt fun c hc => .data hc
    | other => simp [DriverCall.requests, Encoder.coerceCharacter, Except.toOption]
  | sendData => exact hbuilt fun c hc => .data hc
  | sendTimeCode => exact hbuilt fun c hc => .timeCode hc
  | sendBroadcast => exact hbuilt fun c hc => .broadcast hc
  | sendNull | sendFct | sendEop | sendEep | sendEscape =>
    exact fun c hc => List.mem_singleton.mp hc ▸ not_rejected_ofType _
  | sendIllegalEscape following =>
    simpa [DriverCall.requests] using ⟨not_rejected_ofType .esc, not_rejected_ofType following⟩
  | forceBadParity => simp [DriverCall.requests]
  | sendRawBits | sendTruncated => exact h.elim

namespace Scoreboard

def primitive (s : Scoreboard) (p : Primitive) : Scoreboard :=
  let corrupt : Bool := s.places ∈ s.targets
  match s.held with
  | none =>
    if p.type = .esc then { s with places := s.places + 1, held := some corrupt }
    else { s with places := s.places + 1, expected := s.expected ++ [.single p corrupt] }
  | some corruptEsc =>
    { s with places := s.places + 1
             held := none
             expected := s.expected ++ [.escaped p (corruptEsc || corrupt)] }

def enter (s : Scoreboard) (call : DriverCall) : Scoreboard :=
  match call with
  | .forceBadParity offset => { s with targets := s.targets ++ [s.places + offset.toNat] }
  | call => (call.requests.flatMap Character.sentPrimitives).foldl primitive s

theorem enter_requests {s : Scoreboard} {call : DriverCall}
    (hforce : ∀ offset, call ≠ .forceBadParity offset) :
    s.enter call = (call.requests.flatMap Character.sentPrimitives).foldl primitive s := by
  unfold enter
  split
  · exact absurd rfl (hforce _)
  · rfl

/-- The codec behind a scoreboard: an encoder, and a decoder that has had all of its bits. -/
structure Agree (s : Scoreboard) (e : Encoder) (d : Decoder) : Prop where
  boundary : d.AtBoundary
  content : d.prevContentBits = e.prevContentBits
  targets : ∀ o, o ∈ e.badParityOffsets ↔ s.places + o ∈ s.targets
  held : d.pendingEscape.map Character.error = s.held.map Reading.parityErrors

variable {s : Scoreboard} {e : Encoder} {d : Decoder} {p : Primitive}

theorem parsePrimitive_reading (d : Decoder) (hp : p.WellFormed) (corrupt : Bool) {parity : Bool}
    (hparity : parity = (computeParity d.prevContentBits p.dcFlag ^^ corrupt)) :
    (d.parsePrimitive (parity :: p.dcFlag :: p.contentBits)).2.reading = .single p corrupt := by
  obtain ⟨dc, content⟩ := p
  have hlen : content.length = if dc then 2 else 8 := hp
  subst hparity
  cases dc with
  | true =>
    have htake : content.take 2 = content := List.take_of_length_le hlen.le
    cases corrupt <;>
      simp [Decoder.parsePrimitive, Character.reading, Reading.single, Primitive.type,
        Primitive.value, Reading.parityErrors, htake]
  | false =>
    have htake : content.take 8 = content := List.take_of_length_le hlen.le
    cases corrupt <;>
      simp [Decoder.parsePrimitive, Character.reading, Reading.single, Primitive.type,
        Primitive.value, Reading.parityErrors, htake]

theorem value_lt (hp : p.WellFormed) (ht : p.type = .data) :
    ∃ n : Nat, n < 256 ∧ p.value = some (n : Int) := by
  obtain ⟨dc, content⟩ := p
  have hlen : content.length = if dc then 2 else 8 := hp
  cases dc with
  | true => exact absurd ht (controlTypeByBits_ne_data content)
  | false => exact ⟨_, lsbBitsToNat_lt hlen.le, rfl⟩

theorem value_none (ht : p.type ≠ .data) : p.value = none := by
  obtain ⟨dc, content⟩ := p
  cases dc with
  | true => rfl
  | false => exact absurd rfl ht

theorem combine_parityErrors (a b : Bool) {extra : List ErrorLabel} (hextra : extra.length ≤ 1)
    (hno : .parityError ∉ extra) :
    combineErrors [Reading.parityErrors a, Reading.parityErrors b, extra] =
      Reading.parityErrors (a || b) ++ extra := by
  have hcases : extra = [] ∨ ∃ label, extra = [label] := by
    cases extra with
    | nil => exact .inl rfl
    | cons label rest =>
      obtain rfl : rest = [] := by simpa using hextra
      exact .inr ⟨label, rfl⟩
  obtain rfl | ⟨label, rfl⟩ := hcases
  · cases a <;> cases b <;> rfl
  · have hne : label ≠ .parityError := by simpa [eq_comm] using hno
    cases a <;> cases b <;> cases label <;> first | rfl | exact absurd rfl hne

theorem escaped_reading {c escaped : Character} {corrupt corruptEsc : Bool} (hp : p.WellFormed)
    (hc : c.reading = .single p corrupt)
    (hescaped : escaped.error = Reading.parityErrors corruptEsc)
    (hd : d.pendingEscape = some escaped) :
    (d.resolvePrimitive c).1 = { d with pendingEscape := none } ∧
      (d.resolvePrimitive c).2.map Character.reading = [.escaped p (corruptEsc || corrupt)] := by
  have htype : c.type = p.type := congrArg Reading.type hc
  have hvalue : c.value = p.value := congrArg Reading.value hc
  have herror : c.error = Reading.parityErrors corrupt := congrArg Reading.error hc
  have hcombine := @combine_parityErrors corruptEsc corrupt
  simp only [Decoder.resolvePrimitive, hd, Reading.escaped, htype]
  cases ht : p.type with
  | fct =>
    refine ⟨rfl, ?_⟩
    simp [Character.reading, Decoder.combineEscaped, hescaped, herror, hcombine]
  | data =>
    obtain ⟨n, hn, hp⟩ := value_lt hp ht
    rw [hp] at hvalue
    have hfield : (n : Int) / 64 % 4 = n / 64 := by omega
    have hdiv : (n : Int) / 64 = 0 ∨ (n : Int) / 64 = 1 ∨ (n : Int) / 64 = 2 ∨
        (n : Int) / 64 = 3 := by omega
    refine ⟨rfl, ?_⟩
    simp only [Decoder.decodeEscapedData, hvalue, hp, Option.getD_some, hfield]
    obtain h | h | h | h := hdiv <;>
      simp [Character.reading, Decoder.combineEscaped, hescaped, herror, hcombine, h]
  | eop | eep | esc | null | timecode | broadcast =>
    have hnone : c.value = none := hvalue.trans (value_none (by simp [ht]))
    refine ⟨rfl, ?_⟩
    simp [Character.reading, Decoder.combineEscaped, hescaped, herror, hcombine, hnone]

theorem primitive_places (s : Scoreboard) (p : Primitive) :
    (s.primitive p).places = s.places + 1 ∧ (s.primitive p).targets = s.targets := by
  unfold Scoreboard.primitive
  dsimp only
  split
  · split <;> exact ⟨rfl, rfl⟩
  · exact ⟨rfl, rfl⟩

/-- Between two characters and after an ESC, decoder and scoreboard make the same of a primitive. -/
theorem resolve_reading {c : Character} (hp : p.WellFormed)
    (hheld : d.pendingEscape.map Character.error = s.held.map Reading.parityErrors)
    (hc : c.reading = .single p (s.places ∈ s.targets)) :
    (∃ escape, (d.resolvePrimitive c).1 = { d with pendingEscape := escape } ∧
        escape.map Character.error = (s.primitive p).held.map Reading.parityErrors) ∧
      (s.primitive p).expected =
        s.expected ++ (d.resolvePrimitive c).2.map Character.reading := by
  have htype : c.type = p.type := congrArg Reading.type hc
  have herror := congrArg Reading.error hc
  cases hs : s.held with
  | none =>
    have hd : d.pendingEscape = none := by simpa [hs] using hheld
    simp only [Decoder.resolvePrimitive, hd, Scoreboard.primitive, hs, htype]
    by_cases ht : p.type = .esc
    · rw [if_pos ht, if_pos ht]
      exact ⟨⟨some c, rfl, congrArg some herror⟩, (List.append_nil _).symm⟩
    · rw [if_neg ht, if_neg ht]
      exact ⟨⟨none, by rw [← hd], rfl⟩, by simp [hc]⟩
  | some corruptEsc =>
    obtain ⟨escaped, hd, hescaped⟩ : ∃ escaped, d.pendingEscape = some escaped ∧
        escaped.error = Reading.parityErrors corruptEsc := by
      simpa [hs] using hheld
    obtain ⟨hstate, hreading⟩ := escaped_reading hp hc hescaped hd
    rw [hreading]
    refine ⟨⟨none, hstate, ?_⟩, ?_⟩
    · simp [Scoreboard.primitive, hs]
    · simp [Scoreboard.primitive, hs]

theorem encodePrimitive_bits (e : Encoder) (p : Primitive) :
    (e.encodePrimitive p.dcFlag p.contentBits).2 =
      (computeParity e.prevContentBits p.dcFlag ^^ e.consumeBadParityRequest) :: p.dcFlag ::
        p.contentBits := by
  simp only [Encoder.encodePrimitive]
  cases e.consumeBadParityRequest <;> simp

theorem Agree.primitive (h : Agree s e d) (hp : p.WellFormed) :
    Agree (s.primitive p) (e.encodePrimitive p.dcFlag p.contentBits).1
        (d.push (e.encodePrimitive p.dcFlag p.contentBits).2).1 ∧
      (s.primitive p).expected = s.expected ++
        (d.push (e.encodePrimitive p.dcFlag p.contentBits).2).2.map Character.reading := by
  have hcorrupt : e.consumeBadParityRequest = decide (s.places ∈ s.targets) := by
    rw [Bool.eq_iff_iff, decide_eq_true_iff, Encoder.consumeBadParityRequest, List.any_eq_true]
    simpa using h.targets 0
  have hbits := encodePrimitive_bits e p
  generalize hparity : (computeParity e.prevContentBits p.dcFlag ^^ e.consumeBadParityRequest) =
    parity at hbits
  rw [← h.content, hcorrupt] at hparity
  have hraw : Decoder.RawPrimitive (parity :: p.dcFlag :: p.contentBits) := ⟨_, _, _, rfl, hp⟩
  have hframe : ({ d with buffer := [], expectedLen := none } : Decoder) = d := by
    rw [← h.boundary.1, ← h.boundary.2]
  have hread := parsePrimitive_reading d hp _ hparity.symm
  have hparsed := Attribution.parsePrimitive_prev d hraw
  rw [hbits, Decoder.push_raw h.boundary hraw, Decoder.complete, hframe]
  generalize d.parsePrimitive (parity :: p.dcFlag :: p.contentBits) = r at hread hparsed
  obtain ⟨d', c⟩ := r
  obtain rfl : d' = { d with prevContentBits := p.contentBits } := hparsed
  obtain ⟨⟨escape, hstate, hescape⟩, hreads⟩ :=
    resolve_reading (d := { d with prevContentBits := p.contentBits }) hp h.held hread
  obtain ⟨hplaces, htargets⟩ := s.primitive_places p
  refine ⟨?_, hreads⟩
  dsimp only
  rw [hstate]
  refine ⟨h.boundary, rfl, fun o => ?_, hescape⟩
  rw [hplaces, htargets]
  simp only [Encoder.encodePrimitive, Encoder.mem_advanceBadParityRequests, h.targets]
  rw [Nat.add_assoc, Nat.add_comm o]

theorem Agree.primitives (h : Agree s e d) {ps : List Primitive} (hps : ∀ p ∈ ps, p.WellFormed) :
    Agree (ps.foldl Scoreboard.primitive s) (e.encodePrimitives ps).1
        (d.push (e.encodePrimitives ps).2).1 ∧
      (ps.foldl Scoreboard.primitive s).expected = s.expected ++
        (d.push (e.encodePrimitives ps).2).2.map Character.reading := by
  induction ps generalizing s e d with
  | nil => exact ⟨h, (List.append_nil _).symm⟩
  | cons p ps ih =>
    obtain ⟨hp, hps⟩ := List.forall_mem_cons.mp hps
    obtain ⟨hone, hread⟩ := h.primitive hp
    obtain ⟨hall, hreads⟩ := ih hone hps
    simp only [List.foldl_cons, Encoder.encodePrimitives, Decoder.push_append]
    refine ⟨hall, ?_⟩
    rw [hreads, hread, List.map_append, List.append_assoc]

end Scoreboard

/-- A call that injects an illegal escape sequence. -/
def DriverCall.injectsEscape : DriverCall → Bool
  | .sendIllegalEscape _ => true
  | _ => false

namespace CharDriver

def after (d : CharDriver) (requests : List Character) : CharDriver :=
  let (encoder, bits) := d.encoder.encodePrimitives (requests.flatMap Character.sentPrimitives)
  { d with encoder
           typeCounts := d.typeCounts.addAll (requests.map Character.type)
           sunk := d.sunk ++ bits }

/-- What a framed call does: nothing when it raises, else it leaves a request for a corrupt parity
bit, or it sends its requests. -/
inductive Called (d : CharDriver) (call : DriverCall) : CharDriver × Except Exn Unit → Prop
  | rejected (err : Exn) : Called d call (d, .error err)
  | forced {offset : Int} (hcall : call = .forceBadParity offset) :
      Called d call
        ({ d with encoder := { d.encoder with
                    badParityOffsets := d.encoder.badParityOffsets ++ [offset.toNat] }
                  errorCounts := d.errorCounts.add .badParity }, .ok ())
  | sent (hforce : ∀ offset, call ≠ .forceBadParity offset)
      (hsends : ∀ c ∈ call.requests, Encoder.Sends c)
      (hfollowing : ∀ following, call = .sendIllegalEscape following →
        following = .esc ∨ following = .eop ∨ following = .eep) :
      Called d call
        ({ d.after call.requests with
           errorCounts := if call.injectsEscape then d.errorCounts.add .escapeError
             else d.errorCounts }, .ok ())

variable {d : CharDriver} {c : Character} {call : DriverCall}

theorem encodePrimitives_append (e : Encoder) (ps qs : List Primitive) :
    e.encodePrimitives (ps ++ qs) =
      (((e.encodePrimitives ps).1.encodePrimitives qs).1,
        (e.encodePrimitives ps).2 ++ ((e.encodePrimitives ps).1.encodePrimitives qs).2) := by
  induction ps generalizing e with
  | nil => rfl
  | cons p ps ih => simp only [List.cons_append, Encoder.encodePrimitives, ih, List.append_assoc]

theorem after_append (d : CharDriver) (cs cs' : List Character) :
    d.after (cs ++ cs') = (d.after cs).after cs' := by
  simp only [after, List.flatMap_append, List.map_append, encodePrimitives_append,
    Counter.addAll_append, List.append_assoc]

theorem send_sends (d : CharDriver) {r : CharRequest} (hc : Encoder.coerceCharacter r = .ok c)
    (h : Encoder.Sends c) : d.send r = (d.after [c], .ok ()) := by
  simp only [send, sendKept, hc, h.encode, after, List.flatMap_singleton, List.map_singleton]
  rfl

theorem send_cases (d : CharDriver) {r : CharRequest}
    (h : ∀ c, Encoder.coerceCharacter r = .ok c → ¬ c.RejectedAfterEsc) :
    (∃ err, d.send r = (d, .error err)) ∨
      ∃ c, Encoder.coerceCharacter r = .ok c ∧ Encoder.Sends c ∧
        d.send r = (d.after [c], .ok ()) := by
  cases hc : Encoder.coerceCharacter r with
  | error err => exact .inl ⟨err, by simp only [send, sendKept, hc]⟩
  | ok c =>
    cases henc : d.encoder.encode c with
    | mk encoder result =>
      cases result with
      | error err =>
        have hkeep := (d.encoder.encode_atomic_iff c).mpr (.inl (h c hc)) encoder err henc
        subst hkeep
        exact .inl ⟨err, by simp only [send, sendKept, hc, henc]⟩
      | ok bits =>
        have hsends := Encoder.sends_of_encode henc
        exact .inr ⟨c, rfl, hsends, d.send_sends hc hsends⟩

theorem called_send {r : CharRequest} (hforce : ∀ offset, call ≠ .forceBadParity offset)
    (hno : call.injectsEscape = false)
    (hrequests : call.requests = (Encoder.coerceCharacter r).toOption.toList)
    (h : ∀ c ∈ call.requests, ¬ c.RejectedAfterEsc) : Called d call (d.send r) := by
  rw [hrequests] at h
  obtain ⟨err, hrejected⟩ | ⟨c, hc, hsends, hsent⟩ := d.send_cases (r := r) fun c hc =>
    h c (by simp [hc, Except.toOption])
  · rw [hrejected]
    exact .rejected err
  · have hone : call.requests = [c] := by simp [hrequests, hc, Except.toOption]
    have hcalled : Called d call _ := .sent hforce (by simpa [hone] using hsends)
      fun following heq => by simp [heq, DriverCall.injectsEscape] at hno
    rw [hno, hone] at hcalled
    rw [hsent]
    exact hcalled

theorem called_sendBuilt {b : Except Exn Character}
    (hforce : ∀ offset, call ≠ .forceBadParity offset) (hno : call.injectsEscape = false)
    (hrequests : call.requests = b.toOption.toList)
    (h : ∀ c ∈ call.requests, ¬ c.RejectedAfterEsc) : Called d call (d.sendBuilt b) := by
  cases b with
  | error err => exact .rejected err
  | ok c => exact called_send hforce hno hrequests h

theorem called_sendIllegalEscape (d : CharDriver) (following : CharType) :
    Called d (.sendIllegalEscape following) (d.sendIllegalEscape following) := by
  simp only [sendIllegalEscape]
  split
  · rename_i hfollowing
    have hesc : Encoder.Sends (.ofType .esc) := Encoder.sends_of_encode (e := .new) rfl
    have hnext : Encoder.Sends (.ofType following) := by
      obtain rfl | rfl | rfl := hfollowing <;> exact Encoder.sends_of_encode (e := .new) rfl
    have hcalled : Called d (.sendIllegalEscape following) _ :=
      .sent (by simp) (by simpa [DriverCall.requests] using ⟨hesc, hnext⟩)
        (by simpa using hfollowing)
    have hpair : d.after (DriverCall.sendIllegalEscape following).requests =
        (d.after [.ofType .esc]).after [.ofType following] := d.after_append [_] [_]
    rw [hpair] at hcalled
    have hfirst : d.send (.charType .esc) = (d.after [.ofType .esc], .ok ()) :=
      d.send_sends rfl hesc
    have hsecond : (d.after [.ofType .esc]).send (.charType following) =
        ((d.after [.ofType .esc]).after [.ofType following], .ok ()) :=
      (d.after [.ofType .esc]).send_sends rfl hnext
    simp only [hfirst, hsecond]
    exact hcalled
  · exact .rejected _

theorem called (d : CharDriver) (h : call.Framed) : Called d call (d.call call) := by
  have hrejected := h.requests
  cases call with
  | forceBadParity offset =>
    by_cases hneg : offset < 0
    · simp only [CharDriver.call, forceBadParity, Encoder.forceBadParity, if_pos hneg]
      exact .rejected _
    · simp only [CharDriver.call, forceBadParity, Encoder.forceBadParity, if_neg hneg]
      exact .forced rfl
  | send r => exact called_send (by simp) rfl rfl hrejected
  | sendData byte => exact called_sendBuilt (b := Encoder.data byte) (by simp) rfl rfl hrejected
  | sendNull => exact called_sendBuilt (b := .ok Encoder.null) (by simp) rfl rfl hrejected
  | sendTimeCode value =>
    exact called_sendBuilt (b := Encoder.timeCode value) (by simp) rfl rfl hrejected
  | sendBroadcast value typeField =>
    exact called_sendBuilt (b := Encoder.broadcast value typeField) (by simp) rfl rfl hrejected
  | sendFct => exact called_send (r := .charType .fct) (by simp) rfl rfl hrejected
  | sendEop => exact called_send (r := .charType .eop) (by simp) rfl rfl hrejected
  | sendEep => exact called_send (r := .charType .eep) (by simp) rfl rfl hrejected
  | sendEscape => exact called_send (r := .charType .esc) (by simp) rfl rfl hrejected
  | sendIllegalEscape following => exact d.called_sendIllegalEscape following
  | sendRawBits | sendTruncated => exact h.elim

end CharDriver

end SpaceWire
