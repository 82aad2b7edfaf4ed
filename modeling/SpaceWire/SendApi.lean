import SpaceWire.Operations
import SpaceWire.Requests

namespace SpaceWire

open SpaceWireLink Run

/-- A Python object, as far as the send API tells objects apart. A `bool` is an `int` for
`isinstance`, and any other object can be looked up in a set only if it has a hash. -/
inductive PyObject
  | none
  | bool (b : Bool)
  | int (n : Int)
  | str (s : String)
  | other (typeName repr : String) (hashable : Bool)
  deriving DecidableEq

namespace PyObject

def typeName : PyObject → String
  | none => "NoneType"
  | bool _ => "bool"
  | int _ => "int"
  | str _ => "str"
  | other typeName _ _ => typeName

def repr : PyObject → String
  | none => "None"
  | bool b => if b then "True" else "False"
  | int n => s!"{n}"
  | str s => strRepr s
  | other _ repr _ => repr

def asInt : PyObject → Option Int
  | bool b => some (if b then 1 else 0)
  | int n => some n
  | none | str _ | other _ _ _ => .none

end PyObject

/-- What a send call raises: an exception of the package, a missing attribute of its argument, or
whatever iterating over the data raises. -/
inductive SendExn
  | own (err : Exn)
  | attributeError (message : String)
  | foreign (typeName : String)
  deriving DecidableEq

def validatePyData (data : List PyObject) (i : Nat := 0) :
    Except Exn { l : List Int // ∀ b ∈ l, 0 ≤ b ∧ b ≤ 0xFF } :=
  match data with
  | [] => .ok ⟨[], by simp⟩
  | .int b :: rest =>
    if hb : 0 ≤ b ∧ b ≤ 0xFF then
      match validatePyData rest (i + 1) with
      | .ok ⟨l, hl⟩ => .ok ⟨b :: l, by simpa [hb] using hl⟩
      | .error err => .error err
    else .error (.valueError s!"data[{i}] must be in 0..255, got {b}")
  | object :: _ => .error (.valueError s!"data[{i}] must be int, got {object.typeName}")

/-- The terminator is looked up in a set, which takes its hash. -/
def Terminator.ofPyObject : PyObject → Except Exn Terminator
  | .str name => Terminator.ofString name
  | .other typeName _ false => .error (.typeError s!"unhashable type: '{typeName}'")
  | object =>
    .error (.valueError s!"terminator must be one of ['EEP', 'EOP'], got {object.repr}")

def SpaceWirePacket.createPy (data : List PyObject) (terminator : PyObject) :
    Except Exn SpaceWirePacket :=
  match validatePyData data with
  | .error err => .error err
  | .ok ⟨bytes, hbytes⟩ =>
    match Terminator.ofPyObject terminator with
    | .error err => .error err
    | .ok terminator => .ok { data := bytes, terminator, bytes := hbytes }

/-- What the encoder takes an object with a `type` for. -/
inductive CharClass
  | character
  | integer (n : Int)
  | other
  deriving DecidableEq

/-- An object whose attribute `type` is a `CharType`. A `Character` can hold any value. -/
structure PyChar where
  cls : CharClass := .character
  type : CharType
  value : PyObject := .none
  deriving DecidableEq

/-- What `send_char` puts in the transmit queue: it has looked at the type, and at nothing else. -/
structure QueuedChar extends PyChar where
  isNChar : isNCharType type = true
  deriving DecidableEq

def Encoder.encodePy (e : Encoder) (char : QueuedChar) : Encoder × Except Exn (List Bool) :=
  match char.cls with
  | .other =>
    (e, .error (.typeError "char must be a Character, CharType, or data byte integer"))
  | .integer n =>
    match Encoder.data n with
    | .error err => (e, .error err)
    | .ok request => e.encode request
  | .character =>
    match char.type with
    | .data =>
      match char.value with
      | .none => (e, .error (.valueError "DATA character requires value"))
      | value =>
        match value.asInt with
        | none => (e, .error (.typeError "value must be an integer"))
        | some n => e.encodeData n
    | type =>
      let (e, bits) := e.encodeControl type
      (e, .ok bits)

namespace QueuedChar

/-- The request that stands for an object in the queue of the link. The encoder rejects a DATA
request without value, as it rejects what is not a `Character` and a value that is no integer. -/
def lower (char : QueuedChar) : Character :=
  match char.cls with
  | .character => { type := char.type, value := char.value.asInt }
  | .integer n => dataChar n
  | .other => { type := .data }

def data (b : Int) : QueuedChar := { type := .data, value := .int b, isNChar := rfl }

def terminator (t : Terminator) : QueuedChar :=
  { type := t.charType, isNChar := by cases t <;> rfl }

def Encodable (char : QueuedChar) : Prop :=
  ∀ e : Encoder, ∃ e' bits, e.encodePy char = (e', .ok bits)

end QueuedChar

/-- The transmit queue as the send API fills it: `_tx_nchar_queue`, `_tx_nchar_outstanding` and
`_tx_drained_evt`. -/
structure TxQueue where
  queue : List QueuedChar := []
  outstanding : Int := 0
  drainedEvt : Bool := true

/-- An argument of `send_char`: it has no `type`, or one that is no `CharType` and itself has a
`name` or not, or it is an object with a type. -/
inductive SendCharArg
  | untyped (typeName : String)
  | mistyped (typeName : String) (name : Option String)
  | typed (char : PyChar)

/-- A call of the send API. The data is what `tuple(data)` gives, or raises. -/
inductive SendCall
  | sendChar (char : SendCharArg)
  | sendPacket (data : Except SendExn (List PyObject)) (terminator : PyObject := .str "EOP")

namespace TxQueue

def enqueueNchar (t : TxQueue) (char : QueuedChar) : TxQueue :=
  { queue := t.queue ++ [char], outstanding := t.outstanding + 1, drainedEvt := false }

def sendChar (t : TxQueue) : SendCharArg → TxQueue × Except SendExn Unit
  | .untyped typeName =>
    (t, .error (.attributeError s!"'{typeName}' object has no attribute 'type'"))
  | .mistyped typeName none =>
    (t, .error (.attributeError s!"'{typeName}' object has no attribute 'name'"))
  | .mistyped _ (some name) =>
    (t, .error (.own (.valueError
      ("send_char accepts N-Chars only (DATA/EOP/EEP), got " ++ name))))
  | .typed char =>
    if h : isNCharType char.type = true then
      (t.enqueueNchar { char with isNChar := h }, .ok ())
    else
      (t, .error (.own (.valueError
        ("send_char accepts N-Chars only (DATA/EOP/EEP), got " ++ char.type.name))))

def packetChars (pkt : SpaceWirePacket) : List QueuedChar :=
  pkt.data.map QueuedChar.data ++ [.terminator pkt.terminator]

def sendPacket (t : TxQueue) (data : Except SendExn (List PyObject)) (terminator : PyObject) :
    TxQueue × Except SendExn SpaceWirePacket :=
  match data with
  | .error err => (t, .error err)
  | .ok data =>
    match SpaceWirePacket.createPy data terminator with
    | .error err => (t, .error (.own err))
    | .ok pkt => ((packetChars pkt).foldl enqueueNchar t, .ok pkt)

end TxQueue

namespace SendCall

/-- The transmit queue after a call has waited or raised, and what it raised. -/
def apply (t : TxQueue) : SendCall → TxQueue × Except SendExn Unit
  | .sendChar char => t.sendChar char
  | .sendPacket data terminator =>
    let (t, r) := t.sendPacket data terminator
    (t, r.map fun _ => ())

def enqueues : SendCall → List QueuedChar
  | .sendChar (.typed char) =>
    if h : isNCharType char.type = true then [{ char with isNChar := h }] else []
  | .sendChar (.untyped _) | .sendChar (.mistyped _ _) => []
  | .sendPacket (.error _) _ => []
  | .sendPacket (.ok data) terminator =>
    match SpaceWirePacket.createPy data terminator with
    | .error _ => []
    | .ok pkt => TxQueue.packetChars pkt

def action : SendCall → Option Action
  | .sendChar (.typed char) =>
    if h : isNCharType char.type = true then
      some (.sendChar { char with isNChar := h : QueuedChar }.lower)
    else none
  | .sendChar (.untyped _) | .sendChar (.mistyped _ _) => none
  | .sendPacket (.error _) _ => none
  | .sendPacket (.ok data) terminator =>
    match SpaceWirePacket.createPy data terminator with
    | .error _ => none
    | .ok pkt => some (.sendPacket pkt.data pkt.terminator.charType.name)

end SendCall

namespace PyChar

/-- The object is one that the encoder turns into bits, where its type is that of an N-Char. -/
def IsRequest (char : PyChar) : Prop :=
  match char.cls with
  | .character => char.type = .data → ∃ b, char.value.asInt = some b ∧ 0 ≤ b ∧ b ≤ 0xFF
  | .integer n => 0 ≤ n ∧ n ≤ 0xFF
  | .other => False

end PyChar

def Action.isSend : Action → Bool
  | .sendPacket _ _ | .sendChar _ => true
  | _ => false

def PortInput.isSend : PortInput → Bool
  | .call action => action.isSend
  | _ => false

/-- The call does not enqueue an object that is no request. -/
def SendCall.Sendable : SendCall → Prop
  | .sendChar (.typed char) => isNCharType char.type = true → char.IsRequest
  | .sendChar (.untyped _) | .sendChar (.mistyped _ _) | .sendPacket _ _ => True

namespace SendApi

/-- A call raises and leaves the transmit queue and its accounts alone, or the encoder accepts
every N-Char that it enqueues. -/
def Safe (t : TxQueue) (call : SendCall) : Prop :=
  (∃ err, call.apply t = (t, .error err)) ∨
    ∃ cs, (call.apply t).1.queue = t.queue ++ cs ∧ ∀ c ∈ cs, c.Encodable

variable {t : TxQueue} {call : SendCall} {l : SpaceWireLink} {c : QueuedChar}

theorem encodeData_ok_iff (e : Encoder) (n : Int) :
    (∃ e' bits, e.encodeData n = (e', .ok bits)) ↔ 0 ≤ n ∧ n ≤ 0xFF := by
  constructor
  · rintro ⟨e', bits, hok⟩
    by_contra hout
    obtain ⟨err, herr⟩ := e.encodeData_error hout
    rw [herr] at hok
    cases hok
  · exact e.encodeData_total

theorem encodePy_data (e : Encoder) (hcls : c.cls = .character) (htype : c.type = .data) :
    (∃ err, c.value.asInt = none ∧ e.encodePy c = (e, .error err)) ∨
      ∃ n, c.value.asInt = some n ∧ e.encodePy c = e.encodeData n := by
  simp only [Encoder.encodePy, hcls, htype]
  cases c.value with
  | none => exact .inl ⟨_, rfl, rfl⟩
  | bool b => exact .inr ⟨_, rfl, rfl⟩
  | int n => exact .inr ⟨_, rfl, rfl⟩
  | str s => exact .inl ⟨_, rfl, rfl⟩
  | other typeName repr hashable => exact .inl ⟨_, rfl, rfl⟩

theorem encodePy_control (e : Encoder) (hcls : c.cls = .character) (htype : c.type ≠ .data) :
    ∃ e' bits, e.encodePy c = (e', .ok bits) ∧ e.encode c.lower = (e', .ok bits) := by
  obtain ⟨⟨cls, type, value⟩, hn⟩ := c
  dsimp only at hcls htype
  subst hcls
  cases type with
  | data => exact absurd rfl htype
  | eop | eep => exact ⟨_, _, rfl, rfl⟩
  | fct | esc | null | timecode | broadcast => cases hn

theorem encodePy_integer (e : Encoder) {n : Int} (hcls : c.cls = .integer n) :
    (∃ err, e.encodePy c = (e, .error err) ∧ ¬(0 ≤ n ∧ n ≤ 0xFF)) ∨
      e.encodePy c = e.encodeData n := by
  simp only [Encoder.encodePy, hcls]
  by_cases hn : 0 ≤ n ∧ n ≤ 0xFF
  · right
    simp only [Encoder.data, byte, if_pos hn]
    rfl
  · left
    simp only [Encoder.data, byte, if_neg hn]
    exact ⟨_, rfl, hn⟩

/-- The encoder accepts what stands for a request, and nothing else. -/
theorem encodePy_ok_iff (c : QueuedChar) (e : Encoder) :
    (∃ e' bits, e.encodePy c = (e', .ok bits)) ↔ c.IsRequest := by
  unfold PyChar.IsRequest
  cases hcls : c.cls with
  | character =>
    by_cases htype : c.type = .data
    · simp only [htype, true_imp_iff]
      obtain ⟨err, hnone, herr⟩ | ⟨n, hsome, heq⟩ := encodePy_data e hcls htype
      · simp [hnone, herr]
      · rw [heq, encodeData_ok_iff]
        simp [hsome]
    · obtain ⟨e', bits, hok, -⟩ := encodePy_control e hcls htype
      simp [hok, htype]
  | integer n =>
    obtain ⟨err, herr, hn⟩ | heq := encodePy_integer e hcls
    · simp only [herr, Prod.mk.injEq, reduceCtorEq, and_false, exists_false, false_iff]
      exact hn
    · rw [heq, encodeData_ok_iff]
  | other => simp [Encoder.encodePy, hcls]

/-- A request and the object it stands for have the same effect on the encoder, which accepts
both or none. -/
theorem encode_lower (c : QueuedChar) (e : Encoder) :
    (e.encode c.lower).1 = (e.encodePy c).1 ∧
      (e.encode c.lower).2.toOption = (e.encodePy c).2.toOption := by
  cases hcls : c.cls with
  | character =>
    by_cases htype : c.type = .data
    · have hlower : c.lower = { type := .data, value := c.value.asInt } := by
        simp only [QueuedChar.lower, hcls, htype]
      rw [hlower]
      obtain ⟨err, hnone, herr⟩ | ⟨n, hsome, heq⟩ := encodePy_data e hcls htype
      · rw [hnone, herr]
        exact ⟨rfl, rfl⟩
      · rw [hsome, heq]
        exact ⟨rfl, rfl⟩
    · obtain ⟨e', bits, hpy, hok⟩ := encodePy_control e hcls htype
      rw [hpy, hok]
      exact ⟨rfl, rfl⟩
  | integer n =>
    have hlower : c.lower = dataChar n := by simp only [QueuedChar.lower, hcls]
    have hencode : e.encode (dataChar n) = e.encodeData n := rfl
    rw [hlower, hencode]
    obtain ⟨err, herr, hn⟩ | heq := encodePy_integer e hcls
    · obtain ⟨err', herr'⟩ := e.encodeData_error hn
      rw [herr, herr']
      exact ⟨rfl, rfl⟩
    · rw [heq]
      exact ⟨rfl, rfl⟩
  | other =>
    simp only [QueuedChar.lower, Encoder.encodePy, hcls]
    exact ⟨rfl, rfl⟩

theorem accepted_lower (h : c.Encodable) : Accepted c.lower := by
  intro e
  obtain ⟨e', bits, hok⟩ := h e
  obtain ⟨-, hresult⟩ := encode_lower c e
  rw [hok] at hresult
  cases hencode : e.encode c.lower with
  | mk e'' r =>
    rw [hencode] at hresult
    cases r with
    | ok bits' => exact ⟨e'', bits', rfl⟩
    | error err => cases hresult

theorem encodable_iff : c.Encodable ↔ c.IsRequest := by
  constructor
  · exact fun h => (encodePy_ok_iff c (.new)).mp (h .new)
  · exact fun h e => (encodePy_ok_iff c e).mpr h

theorem lower_isNChar (c : QueuedChar) : c.lower.isNChar = true := by
  unfold QueuedChar.lower
  split
  · exact c.isNChar
  · rfl
  · rfl

theorem lower_terminator (x : Terminator) :
    (QueuedChar.terminator x).lower = .ofType x.charType := rfl

theorem packetChars_lower (pkt : SpaceWirePacket) :
    (TxQueue.packetChars pkt).map QueuedChar.lower = pkt.nchars := by
  simp only [TxQueue.packetChars, SpaceWirePacket.nchars, List.map_append, List.map_map,
    List.map_cons, List.map_nil, lower_terminator]
  rfl

theorem packetChars_encodable (pkt : SpaceWirePacket) (h : c ∈ TxQueue.packetChars pkt) :
    c.Encodable := by
  apply encodable_iff.mpr
  simp only [TxQueue.packetChars, List.mem_append, List.mem_map, List.mem_singleton] at h
  obtain ⟨b, hb, rfl⟩ | rfl := h
  · exact fun _ => ⟨b, rfl, pkt.bytes b hb⟩
  · intro hdata
    cases hx : pkt.terminator <;> rw [QueuedChar.terminator, hx] at hdata <;> cases hdata

theorem ofString_name (x : Terminator) : Terminator.ofString x.charType.name = .ok x := by
  cases x <;> rfl

theorem create_self (pkt : SpaceWirePacket) :
    SpaceWirePacket.create pkt.data pkt.terminator.charType.name = .ok pkt := by
  simp only [SpaceWirePacket.create, validateData_ok pkt.bytes, ofString_name]

theorem foldl_enqueue (cs : List QueuedChar) (t : TxQueue) :
    (cs.foldl TxQueue.enqueueNchar t).queue = t.queue ++ cs := by
  induction cs generalizing t with
  | nil => exact (List.append_nil _).symm
  | cons c cs ih =>
    rw [List.foldl_cons, ih]
    simp [TxQueue.enqueueNchar]

/-- A call raises before it enqueues anything, or enqueues something. -/
theorem apply_cases (t : TxQueue) (call : SendCall) :
    (∃ err, call.apply t = (t, .error err) ∧ call.enqueues = [] ∧ call.action = none) ∨
      ∃ a, call.apply t = (call.enqueues.foldl TxQueue.enqueueNchar t, .ok ()) ∧
        call.enqueues ≠ [] ∧ call.action = some a ∧ a.isSend = true ∧
        a.enqueues = call.enqueues.map QueuedChar.lower := by
  cases call with
  | sendChar arg =>
    cases arg with
    | untyped typeName => exact .inl ⟨_, rfl, rfl, rfl⟩
    | mistyped typeName name => cases name <;> exact .inl ⟨_, rfl, rfl, rfl⟩
    | typed char =>
      simp only [SendCall.apply, TxQueue.sendChar, SendCall.enqueues, SendCall.action]
      split
      · refine .inr ⟨_, rfl, List.cons_ne_nil _ _, rfl, rfl, ?_⟩
        simp [Action.enqueues, lower_isNChar]
      · exact .inl ⟨_, rfl, rfl, rfl⟩
  | sendPacket data terminator =>
    cases data with
    | error err => exact .inl ⟨err, rfl, rfl, rfl⟩
    | ok data =>
      simp only [SendCall.apply, TxQueue.sendPacket, SendCall.enqueues, SendCall.action]
      cases SpaceWirePacket.createPy data terminator with
      | error err => exact .inl ⟨_, rfl, rfl, rfl⟩
      | ok pkt =>
        refine .inr ⟨_, rfl, ?_, rfl, rfl, ?_⟩
        · simp [TxQueue.packetChars]
        · simp only [Action.enqueues, create_self, packetChars_lower]

theorem safe_iff_encodable (t : TxQueue) (call : SendCall) :
    Safe t call ↔ ∀ c ∈ call.enqueues, c.Encodable := by
  obtain ⟨err, hraised, hnone, -⟩ | ⟨-, hdone, -⟩ := apply_cases t call
  · rw [hnone]
    constructor
    · intro _ c hc
      cases hc
    · exact fun _ => .inl ⟨err, hraised⟩
  · constructor
    · rintro (⟨err, herr⟩ | ⟨cs, hqueue, hcs⟩)
      · rw [hdone] at herr
        cases congrArg Prod.snd herr
      · rw [hdone, foldl_enqueue] at hqueue
        rwa [List.append_cancel_left hqueue]
    · exact fun hall => .inr ⟨call.enqueues, by rw [hdone, foldl_enqueue], hall⟩

theorem sendable_iff_encodable (call : SendCall) :
    call.Sendable ↔ ∀ c ∈ call.enqueues, c.Encodable := by
  cases call with
  | sendChar arg =>
    cases arg with
    | untyped | mistyped => simp [SendCall.Sendable, SendCall.enqueues]
    | typed char =>
      by_cases hn : isNCharType char.type = true
      · simp [SendCall.Sendable, SendCall.enqueues, hn, encodable_iff]
      · simp [SendCall.Sendable, SendCall.enqueues, hn]
  | sendPacket data terminator =>
    simp only [SendCall.Sendable, true_iff]
    intro c hc
    cases data with
    | error err => cases hc
    | ok data =>
      simp only [SendCall.enqueues] at hc
      split at hc
      · cases hc
      · exact packetChars_encodable _ hc

/-- The transmit queue is that of the link, object for request. -/
structure Lowers (t : TxQueue) (l : SpaceWireLink) : Prop where
  queue : l.txNcharQueue = t.queue.map QueuedChar.lower
  outstanding : l.txNcharOutstanding = t.outstanding
  drainedEvt : l.txDrainedEvt = t.drainedEvt

theorem Lowers.enqueue (h : Lowers t l) (cs : List QueuedChar) :
    Lowers (cs.foldl TxQueue.enqueueNchar t)
      ((cs.map QueuedChar.lower).foldl enqueueNchar l) := by
  induction cs generalizing t l with
  | nil => exact h
  | cons c cs ih =>
    apply ih
    constructor
    · simp [enqueueNchar, TxQueue.enqueueNchar, h.queue]
    · simp [enqueueNchar, TxQueue.enqueueNchar, h.outstanding]
    · rfl

theorem act_isSend {a : Action} (ha : a.isSend = true) (p : Endpoint) :
    (p.act a).link = a.enqueues.foldl enqueueNchar p.link := by
  cases a with
  | sendPacket data terminator =>
    simp only [Endpoint.act, Action.enqueues, sendPacket]
    cases SpaceWirePacket.create data terminator <;> rfl
  | sendChar char =>
    simp only [Endpoint.act, Action.enqueues, sendChar]
    cases char.isNChar <;> rfl
  | feed | expire | watchdog | txLoop | recvPacket => cases ha

/-- What a call does to the objects in the transmit queue, its action does to the requests that
stand for them. -/
theorem lowers_apply {p : Endpoint} (h : Lowers t p.link) (call : SendCall) :
    Lowers (call.apply t).1 (call.action.elim p p.act).link := by
  obtain ⟨err, hraised, -, hnone⟩ | ⟨a, hdone, -, hsome, hsend, henqueues⟩ := apply_cases t call
  · rw [hraised, hnone]
    exact h
  · have hlink : (call.action.elim p p.act).link = (p.act a).link := by rw [hsome]; rfl
    rw [hlink, act_isSend hsend, henqueues, hdone]
    exact h.enqueue call.enqueues

end SendApi

/-- What happens to a port whose send calls take any objects. -/
inductive ApiInput
  | send (call : SendCall)
  | other (input : PortInput)

namespace ApiInput

/-- A rejected call does nothing, and a call with requests for arguments is no other input. -/
def inputs : ApiInput → List PortInput
  | .send call => call.action.toList.map .call
  | .other input => if input.isSend then [] else [input]

def step (p : Port) (i : ApiInput) : Port := run Port.step p i.inputs

def Sendable : ApiInput → Prop
  | .send call => call.Sendable
  | .other _ => True

end ApiInput

namespace SendApi

variable {q : Port} {i : ApiInput}

theorem inputs_accepted (h : i.Sendable) :
    ∀ j ∈ i.inputs, ∀ c ∈ j.enqueues, Accepted c := by
  intro j hj c hc
  cases i with
  | send call =>
    obtain ⟨-, -, -, hnone⟩ | ⟨a, -, -, hsome, -, henqueues⟩ := apply_cases {} call
    · rw [ApiInput.inputs, hnone] at hj
      cases hj
    · rw [ApiInput.inputs, hsome] at hj
      obtain rfl := List.mem_singleton.mp hj
      rw [PortInput.enqueues, henqueues] at hc
      obtain ⟨d, hd, rfl⟩ := List.mem_map.mp hc
      exact accepted_lower ((sendable_iff_encodable call).mp h d hd)
  | other input =>
    simp only [ApiInput.inputs] at hj
    split at hj
    · cases hj
    · rename_i hno
      obtain rfl := List.mem_singleton.mp hj
      cases j with
      | call a =>
        cases a with
        | sendPacket | sendChar => exact absurd rfl hno
        | feed | expire | watchdog | txLoop | recvPacket => cases hc
      | start | started | stop | txLoop | watchdog | driver | monitor | line | timeout => cases hc

theorem alive_step (halive : Alive q.endpoint) (h : i.Sendable) :
    Alive (ApiInput.step q i).endpoint := by
  apply run_keeps (I := fun p : Port => Alive p.endpoint) halive
  intro p j hj hp
  exact hp.portStep (inputs_accepted h j hj)

/-- The transmit coroutine has not ended, and the encoder does not raise on the character that it
would pick next. -/
def Healthy (p : Endpoint) : Prop :=
  p.txLoop ≠ .dead ∧ ∀ link char wasNchar, p.link.fsm.output.txMode ≠ .reset →
    p.link.nextChar p.link.fsm.output.txMode = (link, .ok (char, wasNchar)) →
    ∃ e bits, link.encoder.encode char = (e, .ok bits)

theorem healthy_of_alive {p : Endpoint} (h : Alive p) : Healthy p := by
  refine ⟨h.running, fun link char wasNchar hmode hnext => ?_⟩
  obtain ⟨link', char', wasNchar', hnext', hpicked⟩ := p.link.nextChar_picked hmode
  rw [hnext] at hnext'
  cases hnext'
  obtain ⟨haccepted, -⟩ := picked_accepted h.accepted hpicked
  exact haccepted link.encoder

/-- A call of the send API keeps to its contract exactly when it is not a `send_char` of an object
that the encoder does not turn into bits, and in every run of a link without such a call the
encoder does not raise in the transmit coroutine. -/
theorem send_safe_iff {cfg : LinkConfig} {p : Port} (hnew : Port.new cfg = .ok p)
    {is : List ApiInput} (hsendable : ∀ i ∈ is, i.Sendable) :
    (∀ t call, Safe t call ↔ call.Sendable) ∧ Healthy (run ApiInput.step p is).endpoint := by
  constructor
  · intro t call
    rw [safe_iff_encodable, sendable_iff_encodable]
  · apply healthy_of_alive
    apply run_keeps (I := fun p : Port => Alive p.endpoint) (alive_new hnew)
    intro q i hi halive
    exact alive_step halive (hsendable i hi)

def afterCall (call : SendCall) : List ApiInput :=
  Port.handshake.map .other ++ .send call ::
    (List.replicate 10 (.other .driver) ++ [.other .txLoop])

def dataCall (value : PyObject) : SendCall := .sendChar (.typed { type := .data, value })

theorem send_safe_iff_byte : ∃ p, Port.new { linkStart := true, rxFifoCapacity := 8 } = .ok p ∧
    (run ApiInput.step p (afterCall (dataCall (.int 30)))).link.fsm.state = .run ∧
    Healthy (run ApiInput.step p (afterCall (dataCall (.int 30)))).endpoint := by
  refine ⟨_, rfl, by decide +kernel, ?_⟩
  have hsendable : ∀ i ∈ afterCall (dataCall (.int 30)), i.Sendable := by
    intro i hi
    cases i with
    | send call =>
      obtain rfl : call = dataCall (.int 30) := by simpa [afterCall] using hi
      exact fun _ _ => ⟨30, rfl, by decide⟩
    | other input => trivial
  exact (@send_safe_iff { linkStart := true, rxFifoCapacity := 8 } _ rfl _ hsendable).2

/-- `send_char` of a DATA character with the value 300 is not rejected, and ends the transmit
coroutine of a link that was in Run. -/
theorem send_char_ends_txLoop : ¬ Safe {} (dataCall (.int 300)) ∧
    ∃ p, Port.new { linkStart := true, rxFifoCapacity := 8 } = .ok p ∧
      (run ApiInput.step p (Port.handshake.map .other)).link.fsm.state = .run ∧
      (run ApiInput.step p (afterCall (dataCall (.int 300)))).endpoint.txLoop = .dead := by
  refine ⟨fun hsafe => ?_, _, rfl, by decide +kernel, by decide +kernel⟩
  have hsendable : (dataCall (.int 300)).Sendable := by
    rw [sendable_iff_encodable]
    exact (safe_iff_encodable {} _).mp hsafe
  obtain ⟨b, hvalue, -, hb⟩ := hsendable rfl rfl
  cases hvalue
  exact absurd hb (by decide)

end SendApi

end SpaceWire
