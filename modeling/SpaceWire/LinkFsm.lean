import Mathlib.Tactic.Common
import Mathlib.Data.List.Basic

namespace SpaceWire

inductive State
  | errorReset | errorWait | ready | started | connecting | run
  deriving DecidableEq

/-- The states in which FCTs are exchanged. -/
def State.exchanging (s : State) : Bool := s = .connecting || s = .run

inductive TxMode
  | reset | sendNulls | sendNullsFcts | sendNullsFctsNcharsTimecodes
  deriving DecidableEq

inductive Event
  | gotNull | gotFct | gotNChar | gotTimeCode | rxErr | creditErr | sentNull | sentFct
  | linkStart | linkStartClear | linkDisable | linkDisableClear | autoStart | autoStartClear
  | tick6p4us | tick12p8us
  deriving DecidableEq

structure Output where
  state : State
  txMode : TxMode
  rxEnabled : Bool
  bitRateBps : Int

def initialBitRateBps : Int := 10000000

def stateTx : State → TxMode
  | .errorReset | .errorWait | .ready => .reset
  | .started => .sendNulls
  | .connecting => .sendNullsFcts
  | .run => .sendNullsFctsNcharsTimecodes

theorem stateTx_eq_sendNullsFcts {s : State} (h : stateTx s = .sendNullsFcts) :
    s = .connecting := by
  cases s <;> first | rfl | cases h

theorem stateTx_eq_sendNchars {s : State} (h : stateTx s = .sendNullsFctsNcharsTimecodes) :
    s = .run := by
  cases s <;> first | rfl | cases h

def stateRxEnabled : State → Bool
  | .errorReset => false
  | _ => true

structure LinkFSM where
  targetBitRateBps : Int := 200000000
  state : State := .errorReset
  gotNullLatched : Bool := false
  linkStart : Bool := false
  linkDisable : Bool := false
  autoStart : Bool := false
  sentNullInStarted : Bool := false
  sentFctInConnecting : Bool := false
  gotFctInConnecting : Bool := false
  deriving DecidableEq

namespace LinkFSM

def output (f : LinkFSM) : Output :=
  { state := f.state
    txMode := stateTx f.state
    rxEnabled := stateRxEnabled f.state
    bitRateBps := if f.state = .run then f.targetBitRateBps else initialBitRateBps }

def updateFlags (f : LinkFSM) : Event → LinkFSM
  | .gotNull => { f with gotNullLatched := true }
  | .linkStart => { f with linkStart := true }
  | .linkStartClear => { f with linkStart := false }
  | .linkDisable => { f with linkDisable := true }
  | .linkDisableClear => { f with linkDisable := false }
  | .autoStart => { f with autoStart := true }
  | .autoStartClear => { f with autoStart := false }
  | .sentNull => if f.state = .started then { f with sentNullInStarted := true } else f
  | .sentFct => if f.state = .connecting then { f with sentFctInConnecting := true } else f
  | .gotFct => if f.state = .connecting then { f with gotFctInConnecting := true } else f
  | _ => f

/-- Move to the next state and reset the flags of the visit. -/
def enter (f : LinkFSM) (next : State) : LinkFSM :=
  match next with
  | .errorReset =>
    { f with state := next, gotNullLatched := false, sentNullInStarted := false,
             sentFctInConnecting := false, gotFctInConnecting := false }
  | .started => { f with state := next, sentNullInStarted := false }
  | .connecting =>
    { f with state := next, sentFctInConnecting := false, gotFctInConnecting := false }
  | _ => { f with state := next }

def linkEnabled (f : LinkFSM) : Bool :=
  if f.linkDisable then false else if f.linkStart then true else f.autoStart && f.gotNullLatched

/-- Error condition shared by ErrorWait, Ready and Started. Characters count as errors only
once the first NULL has been seen. -/
def waitStateError (f : LinkFSM) (event : Option Event) : Bool :=
  if event = some .rxErr then true
  else if !f.gotNullLatched then false
  else event = some .gotFct || event = some .gotNChar || event = some .gotTimeCode

def inErrorReset (f : LinkFSM) (event : Option Event) : Option State :=
  if event = some .tick6p4us ∧ f.linkDisable = false then some .errorWait else none

def inErrorWait (f : LinkFSM) (event : Option Event) : Option State :=
  if f.waitStateError event then some .errorReset
  else if event = some .tick12p8us then some .ready
  else none

def inReady (f : LinkFSM) (event : Option Event) : Option State :=
  if f.waitStateError event then some .errorReset
  else if f.linkEnabled then some .started
  else none

def inStarted (f : LinkFSM) (event : Option Event) : Option State :=
  if f.waitStateError event then some .errorReset
  else if event = some .tick12p8us then some .errorReset
  else if f.sentNullInStarted && f.gotNullLatched then some .connecting
  else none

def inConnecting (f : LinkFSM) (event : Option Event) : Option State :=
  if event = some .rxErr then some .errorReset
  else if event = some .creditErr then some .errorReset
  else if event = some .gotNChar ∨ event = some .gotTimeCode then some .errorReset
  else if event = some .tick12p8us then some .errorReset
  else if f.sentFctInConnecting && f.gotFctInConnecting then some .run
  else none

def inRun (_ : LinkFSM) (event : Option Event) : Option State :=
  if event = some .rxErr ∨ event = some .creditErr then some .errorReset
  else if event = some .linkDisable then some .errorReset
  else none

def handler (f : LinkFSM) (event : Option Event) : Option State :=
  match f.state with
  | .errorReset => f.inErrorReset event
  | .errorWait => f.inErrorWait event
  | .ready => f.inReady event
  | .started => f.inStarted event
  | .connecting => f.inConnecting event
  | .run => f.inRun event

/-- The bounded loop of `feed`: after a transition the next handler sees no event. -/
def settle : Nat → LinkFSM → Option Event → LinkFSM
  | 0, f, _ => f
  | n + 1, f, event =>
    match f.handler event with
    | none => f
    | some next => if next = f.state then f else settle n (f.enter next) none

/-- The states the loop of `feed` enters, each with the machine about to enter it. -/
def entries : Nat → LinkFSM → Option Event → List (State × LinkFSM)
  | 0, _, _ => []
  | n + 1, f, event =>
    match f.handler event with
    | none => []
    | some next =>
      if next = f.state then [] else (next, f) :: entries n (f.enter next) none

/-- Process one event; the snapshot `feed` returns is the `output` of the result. -/
def feed (f : LinkFSM) (event : Event) : LinkFSM := settle 8 (f.updateFlags event) (some event)

/-- The states entered while one event is processed. -/
def entered (f : LinkFSM) (event : Event) : List (State × LinkFSM) :=
  entries 8 (f.updateFlags event) (some event)

@[simp] theorem updateFlags_state (f : LinkFSM) (e : Event) :
    (f.updateFlags e).state = f.state := by
  cases e <;> simp only [updateFlags] <;> split <;> rfl

section latches

variable (f : LinkFSM) (e : Event)

theorem updateFlags_gotNullLatched :
    (f.updateFlags e).gotNullLatched = true ↔ f.gotNullLatched = true ∨ e = .gotNull := by
  cases e <;> simp only [updateFlags] <;> (try split) <;> simp

theorem updateFlags_sentNullInStarted :
    (f.updateFlags e).sentNullInStarted = true ↔
      f.sentNullInStarted = true ∨ e = .sentNull ∧ f.state = .started := by
  cases e <;> simp only [updateFlags] <;> (try split) <;> simp_all

theorem updateFlags_sentFctInConnecting :
    (f.updateFlags e).sentFctInConnecting = true ↔
      f.sentFctInConnecting = true ∨ e = .sentFct ∧ f.state = .connecting := by
  cases e <;> simp only [updateFlags] <;> (try split) <;> simp_all

theorem updateFlags_gotFctInConnecting :
    (f.updateFlags e).gotFctInConnecting = true ↔
      f.gotFctInConnecting = true ∨ e = .gotFct ∧ f.state = .connecting := by
  cases e <;> simp only [updateFlags] <;> (try split) <;> simp_all

theorem updateFlags_linkDisable :
    (f.updateFlags e).linkDisable = true ↔
      e = .linkDisable ∨ f.linkDisable = true ∧ e ≠ .linkDisableClear := by
  cases e <;> simp only [updateFlags] <;> (try split) <;> simp

end latches

@[simp] theorem enter_linkDisable (f : LinkFSM) (s : State) :
    (f.enter s).linkDisable = f.linkDisable := by
  cases s <;> rfl

@[simp] theorem enter_state (f : LinkFSM) (s : State) : (f.enter s).state = s := by
  cases s <;> rfl

@[simp] theorem waitStateError_none (f : LinkFSM) : f.waitStateError none = false := by
  simp [waitStateError]

theorem handler_ne {f : LinkFSM} {ev : Option Event} {s : State} (h : f.handler ev = some s) :
    s ≠ f.state := by
  intro hs
  subst hs
  unfold handler at h
  split at h <;> rename_i hstate <;> rw [hstate] at h
  · simp [inErrorReset] at h
  · simp only [inErrorWait] at h; split at h <;> [cases h; split at h <;> cases h]
  · simp only [inReady] at h; split at h <;> [cases h; split at h <;> cases h]
  · simp only [inStarted] at h; repeat' split at h
    all_goals cases h
  · simp only [inConnecting] at h; repeat' split at h
    all_goals cases h
  · simp only [inRun] at h; repeat' split at h
    all_goals cases h

@[simp] theorem linkEnabled_enter_ready (f : LinkFSM) :
    (f.enter .ready).linkEnabled = f.linkEnabled := rfl

theorem handler_enter (f : LinkFSM) (s : State) :
    (f.enter s).handler none = if s = .ready ∧ f.linkEnabled then some .started else none := by
  cases s <;>
    simp [handler, inErrorReset, inErrorWait, inReady, inStarted, inConnecting, inRun, enter]
  rfl

/-- One feed makes no transition, or one, or two when it passes through Ready. -/
theorem feed_eq (f : LinkFSM) (e : Event) :
    f.feed e = match (f.updateFlags e).handler (some e) with
      | none => f.updateFlags e
      | some .ready =>
        if (f.updateFlags e).linkEnabled then (f.updateFlags e).enter .started
        else (f.updateFlags e).enter .ready
      | some s => (f.updateFlags e).enter s := by
  unfold feed
  generalize f.updateFlags e = u
  rw [settle]
  cases h : u.handler (some e) with
  | none => rfl
  | some s =>
    simp only [if_neg (handler_ne h), settle, handler_enter]
    cases s <;> simp
    by_cases hen : u.linkEnabled = true
    · simp [hen]
      rfl
    · simp [hen]

theorem entered_eq (f : LinkFSM) (e : Event) :
    f.entered e = match (f.updateFlags e).handler (some e) with
      | none => []
      | some .ready =>
        if (f.updateFlags e).linkEnabled then
          [(.ready, f.updateFlags e), (.started, (f.updateFlags e).enter .ready)]
        else [(.ready, f.updateFlags e)]
      | some s => [(s, f.updateFlags e)] := by
  unfold entered
  generalize f.updateFlags e = u
  rw [entries]
  cases h : u.handler (some e) with
  | none => rfl
  | some s =>
    simp only [if_neg (handler_ne h), entries, handler_enter]
    cases s <;> simp
    by_cases hen : u.linkEnabled = true
    · simp [hen]
    · simp [hen]

/-- The transitions an event can cause, `u` being the machine after its flag updates. -/
inductive Edge (u : LinkFSM) (e : Event) : State → Prop
  | wait (hs : u.state = .errorReset) (he : e = .tick6p4us) (hd : u.linkDisable = false) :
      Edge u e .errorWait
  | ready (hs : u.state = .errorWait) (he : e = .tick12p8us) : Edge u e .ready
  | start (hs : u.state = .ready) (hen : u.linkEnabled = true) : Edge u e .started
  | connect (hs : u.state = .started) (hsent : u.sentNullInStarted = true)
      (hgot : u.gotNullLatched = true) : Edge u e .connecting
  | run (hs : u.state = .connecting) (hsent : u.sentFctInConnecting = true)
      (hgot : u.gotFctInConnecting = true) : Edge u e .run
  | drop (hs : u.state ≠ .errorReset) : Edge u e .errorReset

theorem edge_of_handler {u : LinkFSM} {e : Event} {s : State} (h : u.handler (some e) = some s) :
    Edge u e s := by
  unfold handler at h
  split at h <;> rename_i hs
  · simp only [inErrorReset, Option.some.injEq] at h
    split at h <;> cases h
    rename_i hc
    exact .wait hs hc.1 hc.2
  · simp only [inErrorWait, Option.some.injEq] at h
    split at h
    · cases h; exact .drop (by simp [hs])
    · split at h <;> cases h
      exact .ready hs ‹_›
  · simp only [inReady] at h
    split at h
    · cases h; exact .drop (by simp [hs])
    · split at h <;> cases h
      exact .start hs ‹_›
  · simp only [inStarted, Bool.and_eq_true] at h
    split at h
    · cases h; exact .drop (by simp [hs])
    · split at h
      · cases h; exact .drop (by simp [hs])
      · split at h <;> cases h
        rename_i hc
        exact .connect hs hc.1 hc.2
  · simp only [inConnecting, Bool.and_eq_true] at h
    repeat' split at h
    all_goals cases h
    all_goals first | exact .drop (by simp [hs]) | skip
    rename_i hc
    exact .run hs hc.1 hc.2
  · simp only [inRun] at h
    repeat' split at h
    all_goals cases h
    all_goals exact .drop (by simp [hs])

/-- What one feed can do: nothing but the flag updates, one transition, or the two that
lead from ErrorWait to Started. -/
inductive Fed (f : LinkFSM) (e : Event) : LinkFSM → List (State × LinkFSM) → Prop
  | stay (h : (f.updateFlags e).handler (some e) = none) : Fed f e (f.updateFlags e) []
  | enter {s : State} (h : Edge (f.updateFlags e) e s)
      (hr : s = .ready → (f.updateFlags e).linkEnabled = false) :
      Fed f e ((f.updateFlags e).enter s) [(s, f.updateFlags e)]
  | chain (h : Edge (f.updateFlags e) e .ready) (hen : (f.updateFlags e).linkEnabled = true) :
      Fed f e ((f.updateFlags e).enter .started)
        [(.ready, f.updateFlags e), (.started, (f.updateFlags e).enter .ready)]

theorem updateFlags_targetBitRateBps (f : LinkFSM) (e : Event) :
    (f.updateFlags e).targetBitRateBps = f.targetBitRateBps := by
  cases e with
  | sentNull | sentFct | gotFct =>
    simp only [updateFlags]
    split <;> rfl
  | _ => rfl

theorem enter_targetBitRateBps (f : LinkFSM) (s : State) :
    (f.enter s).targetBitRateBps = f.targetBitRateBps := by
  cases s <;> rfl

theorem fed (f : LinkFSM) (e : Event) : Fed f e (f.feed e) (f.entered e) := by
  rw [feed_eq, entered_eq]
  cases h : (f.updateFlags e).handler (some e) with
  | none => exact .stay h
  | some s =>
    have hedge := edge_of_handler h
    cases s with
    | ready =>
      by_cases hen : (f.updateFlags e).linkEnabled = true
      · simpa only [hen, if_true] using Fed.chain hedge hen
      · rw [if_neg hen, if_neg hen]
        exact .enter hedge (fun _ => by simpa using hen)
    | errorReset | errorWait | started | connecting | run => exact .enter hedge nofun

theorem feed_targetBitRateBps (f : LinkFSM) (e : Event) :
    (f.feed e).targetBitRateBps = f.targetBitRateBps := by
  have hfed := f.fed e
  generalize f.feed e = f', f.entered e = ss at hfed
  cases hfed with
  | stay => exact f.updateFlags_targetBitRateBps e
  | enter | chain => rw [enter_targetBitRateBps, updateFlags_targetBitRateBps]

/-- The feed drops the link: it ends in ErrorReset and did not begin there. -/
def drops (f : LinkFSM) (e : Event) : Bool :=
  (f.feed e).state = .errorReset && f.state ≠ .errorReset

theorem drops_iff {f : LinkFSM} {e : Event} :
    f.drops e = true ↔ (f.feed e).state = .errorReset ∧ f.state ≠ .errorReset := by
  simp [drops]

theorem countP_entered (f : LinkFSM) (e : Event) :
    (f.entered e).countP (fun p => p.1 = .errorReset) = if f.drops e then 1 else 0 := by
  have hfed := fed f e
  unfold drops
  generalize f.feed e = f', f.entered e = ss at hfed
  cases hfed with
  | stay hstay => by_cases hs : f.state = .errorReset <;> simp [hs]
  | chain hedge hen => simp
  | enter hedge hr =>
    cases hedge with
    | drop hs =>
      rw [updateFlags_state] at hs
      simp [hs]
    | wait | ready | start | connect | run => simp

theorem entered_eq_nil_iff (f : LinkFSM) (e : Event) :
    f.entered e = [] ↔ (f.feed e).state = f.state := by
  have hfed := fed f e
  generalize f.feed e = f', f.entered e = ss at hfed
  cases hfed with
  | stay hstay => simp
  | chain hedge hen =>
    cases hedge with
    | ready hs he =>
      rw [updateFlags_state] at hs
      simp [hs]
  | enter hedge hr =>
    cases hedge with
    | wait hs | ready hs | start hs | connect hs | run hs =>
      rw [updateFlags_state] at hs
      simp [hs]
    | drop hs =>
      rw [updateFlags_state] at hs
      simpa using hs.symm

section states

variable {f : LinkFSM} {e : Event}

theorem feed_errorReset (h : f.state = .errorReset) :
    f.feed e = if e = .tick6p4us ∧ f.linkDisable = false then f.enter .errorWait
      else f.updateFlags e := by
  cases e <;> simp [feed_eq, handler, inErrorReset, updateFlags, h]
  by_cases hd : f.linkDisable = false <;> simp [hd]

theorem feed_errorWait (h : f.state = .errorWait) :
    f.feed e = if (f.updateFlags e).waitStateError (some e) then (f.updateFlags e).enter .errorReset
      else if e = .tick12p8us then
        if f.linkEnabled then f.enter .started else f.enter .ready
      else f.updateFlags e := by
  cases e <;> simp [feed_eq, handler, inErrorWait, updateFlags, h, waitStateError]
  all_goals cases f.gotNullLatched <;> rfl

theorem feed_ready (h : f.state = .ready) :
    f.feed e = if (f.updateFlags e).waitStateError (some e) then (f.updateFlags e).enter .errorReset
      else if (f.updateFlags e).linkEnabled then (f.updateFlags e).enter .started
      else f.updateFlags e := by
  rw [feed_eq]
  simp only [handler, updateFlags_state, h, inReady]
  split <;> rename_i hc <;> revert hc <;> split <;> simp_all

theorem feed_started (h : f.state = .started) :
    f.feed e = if (f.updateFlags e).waitStateError (some e) = true ∨ e = .tick12p8us then
        (f.updateFlags e).enter .errorReset
      else if (f.updateFlags e).sentNullInStarted ∧ (f.updateFlags e).gotNullLatched then
        (f.updateFlags e).enter .connecting
      else f.updateFlags e := by
  rw [feed_eq]
  simp only [handler, updateFlags_state, h, inStarted]
  split <;> rename_i hc <;> revert hc <;> (repeat' split) <;> simp_all

def connectingError (e : Event) : Bool :=
  e = .rxErr || e = .creditErr || e = .gotNChar || e = .gotTimeCode || e = .tick12p8us

theorem feed_connecting (h : f.state = .connecting) :
    f.feed e = if connectingError e then (f.updateFlags e).enter .errorReset
      else if (f.updateFlags e).sentFctInConnecting ∧ (f.updateFlags e).gotFctInConnecting then
        (f.updateFlags e).enter .run
      else f.updateFlags e := by
  rw [feed_eq]
  simp only [handler, updateFlags_state, h, inConnecting, connectingError]
  split <;> rename_i hc <;> revert hc <;> (repeat' split) <;> simp_all

theorem feed_run (h : f.state = .run) :
    f.feed e = if e = .rxErr ∨ e = .creditErr ∨ e = .linkDisable then
        (f.updateFlags e).enter .errorReset
      else f.updateFlags e := by
  rw [feed_eq]
  simp only [handler, updateFlags_state, h, inRun]
  split <;> rename_i hc <;> revert hc <;> (repeat' split) <;> simp_all

end states

theorem drops_of_leaves {f : LinkFSM} {e : Event} (h : f.state.exchanging = true)
    (h' : (f.feed e).state.exchanging = false) : f.drops e = true := by
  rw [drops_iff]
  cases hs : f.state with
  | connecting =>
    rw [feed_connecting hs] at h' ⊢
    split
    · simp
    · rename_i hc
      rw [if_neg hc] at h'
      split at h' <;> simp [hs, State.exchanging] at h'
  | run =>
    rw [feed_run hs] at h' ⊢
    split
    · simp
    · rename_i hc
      rw [if_neg hc] at h'
      simp [hs, State.exchanging] at h'
  | errorReset | errorWait | ready | started => simp [hs, State.exchanging] at h

end LinkFSM

end SpaceWire
