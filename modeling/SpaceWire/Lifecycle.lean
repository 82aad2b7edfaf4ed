import SpaceWire.Port
import SpaceWire.Traffic

namespace SpaceWire

open Run SpaceWireLink Accounting Traffic History Events

/-- What can happen to an endpoint over the whole life of its link: besides the steps between
them, the two parts of `start` and `stop`. -/
inductive LifeInput
  | input (input : Input)
  | start
  | started
  | stop

namespace Endpoint

def lifeStep (p : Endpoint) : LifeInput → Endpoint
  | .input i => p.step i
  | .start => { p with link := { p.link with started := true } }
  | .started => { p with link := p.link.arm, txLoop := .top }
  | .stop => { p with link := { p.link.cancelTimer with started := false } }

def nextPick (p : Endpoint) : LifeInput → Option Character
  | .input (.act .txLoop) =>
    if p.txLoop = .top ∧ p.link.fsm.output.txMode ≠ .reset then
      match (p.link.nextChar p.link.fsm.output.txMode).2 with
      | .ok (char, _) => some char
      | .error _ => none
    else none
  | _ => none

/-- A step in which a character is picked, with what becomes of it. -/
structure Picks (p : Endpoint) (i : LifeInput) (link : SpaceWireLink) (char : Character)
    (wasNchar : Bool) (p' : Endpoint) : Prop where
  input : i = .input (.act .txLoop)
  top : p.txLoop = .top
  nextPick : p.nextPick i = some char
  picked : p.link.Picked (stateTx p.link.fsm.state) link char wasNchar
  after : ∃ encoder txLoop, p' = { p with link := { link with encoder }, txLoop } ∧
    (txLoop = .dead ∨ ∃ bits, txLoop = .sending char wasNchar bits)

theorem nextPick_cases (p : Endpoint) (i : LifeInput) :
    (p.nextPick i = none ∧
        (i = .input (.act .txLoop) → p.txLoop = .top → stateTx p.link.fsm.state = .reset)) ∨
      ∃ link char wasNchar, Picks p i link char wasNchar (p.lifeStep i) := by
  by_cases hi : i = .input (.act .txLoop) ∧ p.txLoop = .top ∧ stateTx p.link.fsm.state ≠ .reset
  · obtain ⟨rfl, htop, hmode⟩ := hi
    obtain ⟨link, char, wasNchar, hnext, hpicked⟩ := p.link.nextChar_picked hmode
    have hmode' : p.link.fsm.output.txMode ≠ .reset := hmode
    refine .inr ⟨link, char, wasNchar, rfl, htop, ?_, hpicked, ?_⟩
    · rw [nextPick, if_pos ⟨htop, hmode'⟩]
      simp only [LinkFSM.output, hnext]
    · simp only [lifeStep, Endpoint.step, act, stepTxLoop, htop, LinkFSM.output, hmode, if_false,
        hnext]
      cases henc : link.encoder.encode char with
      | mk encoder r =>
        cases r with
        | ok bits => exact ⟨encoder, _, rfl, .inr ⟨bits, rfl⟩⟩
        | error err => exact ⟨encoder, _, rfl, .inl rfl⟩
  · left
    refine ⟨?_, fun hact htop => by_contra fun hmode => hi ⟨hact, htop, hmode⟩⟩
    unfold nextPick
    split
    · exact if_neg fun h => hi ⟨rfl, h⟩
    · rfl

end Endpoint

namespace Port

/-- The steps of the endpoint that an input amounts to. -/
def life (p : Port) : PortInput → List LifeInput
  | .start => if p.link.started then [] else [.start]
  | .started => if p.starting = 0 || p.monitor.task.isSome then [] else [.started]
  | .stop => [.stop]
  | i => (p.inputs i).map .input

theorem run_input (p : Endpoint) (is : List Input) :
    run Endpoint.lifeStep p (is.map .input) = run Endpoint.step p is := by
  induction is generalizing p with
  | nil => rfl
  | cons i is ih => exact ih (p.step i)

theorem step_life (p : Port) (i : PortInput) :
    (p.step i).endpoint = run Endpoint.lifeStep p.endpoint (p.life i) := by
  cases i with
  | start =>
    obtain ⟨hs, heq⟩ | ⟨hs, -, heq⟩ | ⟨hs, -, heq⟩ := p.step_start_cases
    · rw [heq, life, if_pos hs]
      rfl
    · rw [heq, life, if_neg (by simp [hs])]
      rfl
    · rw [heq, life, if_neg (by simp [hs])]
      rfl
  | started =>
    obtain ⟨hz, heq⟩ | ⟨hz, hm, heq⟩ | ⟨hz, hm, heq⟩ := p.step_started_cases
    · rw [heq, life, if_pos (by simp [hz])]
      rfl
    · rw [heq, life, if_pos (by simp [hm])]
      rfl
    · rw [heq, life, if_neg (by simp [hz, hm])]
      rfl
  | stop => rfl
  | call | txLoop | watchdog | driver | monitor | line | timeout =>
    rw [p.step_endpoint rfl]
    exact (run_input _ _).symm

/-- The steps of the endpoint in a run, over its whole life. -/
def lifeTrace (p : Port) : List PortInput → List LifeInput
  | [] => []
  | i :: is => p.life i ++ (p.step i).lifeTrace is

/-- Every run of a port is a life of its endpoint. -/
theorem run_life (p : Port) (is : List PortInput) :
    (run step p is).endpoint = run Endpoint.lifeStep p.endpoint (p.lifeTrace is) := by
  induction is generalizing p with
  | nil => rfl
  | cons i is ih => rw [run_cons, ih, step_life, lifeTrace, run_append]

end Port

section kept

variable {P : SpaceWireLink → Prop} {p : Endpoint}

theorem Accounting.Kept.arm (hP : Kept P) {l : SpaceWireLink} (h : P l) : P l.arm := by
  have hif (e : Event) (b : Bool) {m : SpaceWireLink} (hm : P m) :
      P (if b then m.feedFsm e else m) := by
    split
    · exact hP.feedFsm e hm
    · exact hm
  apply hif .linkStart
  apply hif .autoStart
  exact hP.frame h (.of_eq rfl)

theorem Accounting.Kept.life (hP : Kept P) (h : P p.link) (i : LifeInput)
    (hstep : ∀ j, i = .input j → P (p.step j).link) : P (p.lifeStep i).link := by
  cases i with
  | input j => exact hstep j rfl
  | start => exact hP.frame h (.of_eq rfl)
  | started => exact hP.arm h
  | stop => exact hP.frame h (.of_eq rfl)

theorem Accounting.CreditInv.life (h : CreditInv p.link) (i : LifeInput) :
    CreditInv (p.lifeStep i).link := by
  apply kept_creditInv.life h
  intro j _
  exact kept_creditInv.step h j (fun _ _ _ _ _ hp => h.picked hp)
    (fun _ _ _ _ _ _ _ _ hfed hh => hfed.handled hh)

theorem SpaceWireLink.arm_txNcharQueue (l : SpaceWireLink) :
    l.arm.txNcharQueue = l.txNcharQueue := by
  simp only [arm]
  split <;> split <;> simp [startTimer]

theorem SpaceWireLink.rxCharacters_txNcharQueue (cs : List Character) (l : SpaceWireLink) :
    (cs.foldl rxCharacter l).txNcharQueue = l.txNcharQueue := by
  induction cs generalizing l with
  | nil => rfl
  | cons c cs ih =>
    rw [List.foldl_cons, ih]
    exact (rxCharacter_queues l c).1

theorem Traffic.Regular.life (h : Regular p) (i : LifeInput) : Regular (p.lifeStep i) := by
  cases i with
  | input j =>
    cases j with
    | act a => exact h.act
    | bit bit =>
      refine ⟨?_, h.underWay⟩
      have hqueue := rxCharacters_txNcharQueue (p.link.decoder.feed bit).2
        { p.link with decoder := (p.link.decoder.feed bit).1 }
      intro c hc
      exact h.queued c (hqueue ▸ hc)
    | character c => exact h.rxCharacter c
  | start => exact ⟨h.queued, h.underWay⟩
  | started =>
    refine ⟨?_, by simp [Endpoint.lifeStep, TxLoop.underWay]⟩
    simpa [Endpoint.lifeStep, arm_txNcharQueue] using h.queued
  | stop => exact ⟨h.queued, h.underWay⟩

end kept

section calls

def Endpoint.lifeCalls (p : Endpoint) : LifeInput → List Call
  | .input i => p.calls i
  | .started => p.link.armCalls
  | .start | .stop => []

variable {p : Endpoint} {l l' : SpaceWireLink} {cs : List Call}

theorem Endpoint.lifeStep_chain (p : Endpoint) (i : LifeInput) :
    ∃ l, Told p.link none l ∧ Chain l (p.lifeCalls i) (p.lifeStep i).link := by
  cases i with
  | input j =>
    refine ⟨p.calling j, ?_, step_chain p j⟩
    unfold Endpoint.calling
    split
    · exact told_nothing rfl rfl fun t ht => List.mem_of_mem_erase ht
    · exact .refl p.link
  | started =>
    refine ⟨p.link.startTimer tick6p4Ns .tick6p4us, ⟨rfl, fun _ => rfl, fun t ht => ?_⟩,
      p.link.arm_chain⟩
    obtain hmem | heq := List.mem_append.mp ht
    · exact .inl hmem
    · rw [List.mem_singleton.mp heq]
      exact .inr (.inl rfl)
  | start => exact ⟨p.link, .refl p.link, .done (.of_eq rfl)⟩
  | stop => exact ⟨p.link.cancelTimer, told_nothing rfl rfl fun _ ht => ht, .done (.of_eq rfl)⟩

theorem History.Chain.fsm {I : LinkFSM → Prop} (h : Chain l cs l') (h0 : I l.fsm)
    (hcall : ∀ f, ∀ c ∈ cs, I f → I (f.feed c.event)) : I l'.fsm := by
  induction h with
  | done hq =>
    rw [hq.fsm]
    exact h0
  | @call l l' c cs hq _ ih =>
    apply ih
    · rw [Call.after, feedFsm_fsm, hq.fsm]
      exact hcall _ c (by simp) h0
    · exact fun f d hd => hcall f d (List.mem_cons_of_mem c hd)

/-- A link that is dropped by its calls is left in ErrorReset, unless a later one is the tick that
ends it. -/
theorem History.Chain.dropped (h : Chain l cs l') (htail : ∀ c ∈ cs.tail, c.event ≠ .tick6p4us) :
    l'.errorResetCount = l.errorResetCount ∨ l'.fsm.state = .errorReset := by
  induction h with
  | done hq => exact .inl hq.resets
  | @call l l' c cs hq h ih =>
    by_cases hd : c.link.fsm.drops c.event = true
    · right
      apply h.fsm (I := fun f => f.state = .errorReset)
      · rw [Call.after, feedFsm_fsm]
        exact (LinkFSM.drops_iff.mp hd).1
      · intro f d hmem hs
        rw [LinkFSM.feed_errorReset hs, if_neg fun he => htail d hmem he.1]
        simpa using hs
    · refine (ih fun d hmem => htail d (List.mem_of_mem_tail hmem)).imp_left fun heq => ?_
      rw [heq, Call.after, feedFsm_errorResetCount, if_neg hd, hq.resets]

theorem armCalls_events {c : Call} (h : c ∈ l.armCalls) :
    c.event = .autoStart ∨ c.event = .linkStart := by
  have hone {b : Bool} {d : Call} (h : c ∈ if b then [d] else []) : c = d := by
    cases b with
    | true => exact List.mem_singleton.mp h
    | false => cases h
  obtain h | h := List.mem_append.mp h
  · rw [hone h]
    exact .inl rfl
  · rw [hone h]
    exact .inr rfl

theorem lifeCalls_tail (p : Endpoint) (i : LifeInput) :
    ∀ c ∈ (p.lifeCalls i).tail, c.event ≠ .tick6p4us := by
  have hrx (l : SpaceWireLink) (c : Character) :
      ∀ d ∈ (l.rxCalls c).tail, d.event ≠ .tick6p4us := by
    intro d hd heq
    have hext := Timers.rxCalls_external (List.mem_of_mem_tail hd)
    rw [heq] at hext
    cases hext
  cases i with
  | input j =>
    cases j with
    | act a =>
      intro c hc
      simp only [Endpoint.lifeCalls, Endpoint.calls] at hc
      cases hf : p.feeds a <;> simp [hf] at hc
    | bit bit =>
      have hlen := p.link.decoder.feed_length bit
      simp only [Endpoint.lifeCalls, Endpoint.calls]
      cases hcs : (p.link.decoder.feed bit).2 with
      | nil => simp
      | cons c cs =>
        obtain rfl : cs = [] := by simpa [hcs] using hlen
        simpa using hrx _ c
    | character c => exact hrx p.link c
  | started =>
    intro c hc
    obtain heq | heq := armCalls_events (List.mem_of_mem_tail hc)
    · simp [heq]
    · simp [heq]
  | start | stop => simp [Endpoint.lifeCalls]

theorem lifeStep_dropped (p : Endpoint) (i : LifeInput) :
    (p.lifeStep i).link.errorResetCount = p.link.errorResetCount ∨
      (p.lifeStep i).link.fsm.state = .errorReset := by
  obtain ⟨l, htold, hchain⟩ := p.lifeStep_chain i
  refine (hchain.dropped (lifeCalls_tail p i)).imp_left fun heq => ?_
  rw [heq]
  exact htold.resets nofun

theorem lifeStep_fsm {I : LinkFSM → Prop} {i : LifeInput} (h : I p.link.fsm)
    (hcall : ∀ f, ∀ c ∈ p.lifeCalls i, I f → I (f.feed c.event)) : I (p.lifeStep i).link.fsm := by
  obtain ⟨l, htold, hchain⟩ := p.lifeStep_chain i
  refine hchain.fsm ?_ hcall
  rw [htold.fsm]
  exact h

theorem History.Chain.onlyTicks (h : Chain l cs l') (hticks : OnlyTicks l) : OnlyTicks l' := by
  induction h with
  | done hq =>
    intro t ht
    rw [hq.timers] at ht
    exact hticks t ht
  | @call l l' c cs hq _ ih =>
    apply ih
    apply OnlyTicks.told _ (told_feedFsm c.link c.event)
    intro t ht
    rw [hq.timers] at ht
    exact hticks t ht

theorem Events.OnlyTicks.life (h : OnlyTicks p.link) (i : LifeInput) :
    OnlyTicks (p.lifeStep i).link := by
  obtain ⟨l, htold, hchain⟩ := p.lifeStep_chain i
  exact hchain.onlyTicks (h.told htold)

end calls

end SpaceWire
