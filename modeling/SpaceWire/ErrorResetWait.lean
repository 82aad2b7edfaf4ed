import SpaceWire.Port

namespace SpaceWire

open Run SpaceWireLink

/-- Where a call of `wait_for_error_reset` stands: waiting for the event, woken, or over. -/
inductive ResetPhase
  | waiting
  | woken
  | returned
  | timedOut (message : String)
  deriving DecidableEq

/-- A call of `wait_for_error_reset`, and how often ErrorReset had been entered when it was
made, which the code does not keep. -/
structure ResetCall where
  count : Int
  timeoutUs : Int
  deadlineLeft : Int := count
  phase : ResetPhase := .returned
  since : Nat
  deriving DecidableEq

/-- A port and the calls of `wait_for_error_reset` on its link, in the order they were made. -/
structure ResetWaits where
  port : Port
  calls : List ResetCall := []

/-- A step of the port, a new call, a woken caller that has its turn, or a timeout. -/
inductive ResetInput
  | port (input : PortInput)
  | call (count timeoutUs : Int)
  | resume (k : Nat)
  | timeout (k : Nat)

namespace ResetCall

def message (observed timeoutUs : Int) : String :=
  "only observed " ++ toString observed ++ " ErrorReset re-entries within " ++
    toString timeoutUs ++ " us"

def wake (c : ResetCall) : ResetCall :=
  if c.phase = .waiting then { c with phase := .woken } else c

end ResetCall

/-- The head of the loop: the call is over, or it clears the event and waits for it. -/
def Port.awaitReset (p : Port) (c : ResetCall) : Port × ResetCall :=
  if 0 < c.deadlineLeft then
    (p.setLink { p.link with errorResetEntered := false }, { c with phase := .waiting })
  else (p, { c with phase := .returned })

namespace ResetWaits

def step (s : ResetWaits) : ResetInput → ResetWaits
  | .port input =>
    let port := s.port.step input
    { port, calls := if port.link.errorResetEntered then s.calls.map ResetCall.wake else s.calls }
  | .call count timeoutUs =>
    let (port, c) :=
      s.port.awaitReset { count, timeoutUs, since := s.port.link.errorResetCount }
    { port, calls := s.calls ++ [c] }
  | .resume k =>
    match s.calls[k]? with
    | none => s
    | some c =>
      if c.phase = .woken then
        let (port, c) := s.port.awaitReset { c with deadlineLeft := c.deadlineLeft - 1 }
        { port, calls := s.calls.set k c }
      else s
  | .timeout k =>
    match s.calls[k]? with
    | none => s
    | some c =>
      if c.phase = .waiting then
        let message := ResetCall.message (c.count - c.deadlineLeft) c.timeoutUs
        { s with calls := s.calls.set k { c with phase := .timedOut message } }
      else s

/-- Whoever has been woken has its turn before ErrorReset is entered again. -/
def Prompt (s : ResetWaits) : ResetInput → Prop
  | .port input =>
    s.port.link.errorResetCount < (s.port.step input).link.errorResetCount →
      ∀ c ∈ s.calls, c.phase ≠ .woken
  | _ => True

end ResetWaits

/-- What a call has to show for the entries to ErrorReset since it was made, of which it sees
at most as many as there were, and all of them where it is prompt. -/
def ResetCall.Observed (prompt : Prop) (l : SpaceWireLink) (c : ResetCall) : Prop :=
  c.since ≤ l.errorResetCount ∧
    let entries : Int := l.errorResetCount - c.since
    let observed := c.count - c.deadlineLeft
    match c.phase with
    | .waiting =>
      l.errorResetEntered = false ∧ 0 < c.deadlineLeft ∧ 0 ≤ observed ∧ observed ≤ entries ∧
        (prompt → observed = entries)
    | .woken =>
      0 < c.deadlineLeft ∧ 0 ≤ observed ∧ observed + 1 ≤ entries ∧
        (prompt → observed + 1 = entries)
    | .returned => c.count ≤ entries
    | .timedOut message =>
      ∃ k, 0 ≤ k ∧ k < c.count ∧ k ≤ entries ∧ message = ResetCall.message k c.timeoutUs

namespace ErrorResetWait

/-- ErrorReset was entered at most once, and its event set exactly when it was. -/
structure Flagged (l l' : SpaceWireLink) : Prop where
  entered : l'.errorResetEntered = true ↔
    l.errorResetEntered = true ∨ l.errorResetCount < l'.errorResetCount
  once : l'.errorResetCount = l.errorResetCount ∨
    l'.errorResetCount = l.errorResetCount + 1 ∧ l'.fsm.state = .errorReset ∧
      l.fsm.state ≠ .errorReset

/-- So it is, however many steps follow each other, while none of them leads out of it. -/
structure Resting (l l' : SpaceWireLink) : Prop extends Flagged l l' where
  still : l.fsm.state = .errorReset → l'.fsm.state = .errorReset

variable {l l' m : SpaceWireLink} {p : Port} {c : ResetCall} {s : ResetWaits}

theorem Flagged.of_eq (h : (l'.errorResetCount, l'.errorResetEntered) =
    (l.errorResetCount, l.errorResetEntered)) : Flagged l l' := by
  simp only [Prod.mk.injEq] at h
  exact ⟨by simp [h.1, h.2], .inl h.1⟩

theorem Resting.of_eq (h : (l'.errorResetCount, l'.errorResetEntered, l'.fsm.state) =
    (l.errorResetCount, l.errorResetEntered, l.fsm.state)) : Resting l l' := by
  simp only [Prod.mk.injEq] at h
  obtain ⟨hcount, hentered, hstate⟩ := h
  exact ⟨.of_eq (by rw [hcount, hentered]), hstate.trans⟩

theorem Resting.refl (l : SpaceWireLink) : Resting l l := .of_eq rfl

theorem Resting.trans (h : Resting l m) (h' : Resting m l') : Resting l l' := by
  have hstill := h.still
  have hstill' := h'.still
  refine ⟨⟨?_, ?_⟩, fun hs => hstill' (hstill hs)⟩
  · rw [h'.entered, h.entered, or_assoc]
    apply or_congr_right
    have honce := h.once
    have honce' := h'.once
    omega
  · obtain hsame | ⟨hentered, hinside, houtside⟩ := h.once
    · obtain hsame' | ⟨hentered, hinside, houtside⟩ := h'.once
      · exact .inl (hsame'.trans hsame)
      · exact .inr ⟨hsame ▸ hentered, hinside, fun hs => houtside (hstill hs)⟩
    · obtain hsame' | ⟨-, -, houtside'⟩ := h'.once
      · exact .inr ⟨hsame'.trans hentered, hstill' hinside, houtside⟩
      · exact absurd hinside houtside'

theorem Flagged.of_eq_trans (h : (m.errorResetCount, m.errorResetEntered, m.fsm.state) =
    (l.errorResetCount, l.errorResetEntered, l.fsm.state)) (h' : Flagged m l') :
    Flagged l l' := by
  simp only [Prod.mk.injEq] at h
  obtain ⟨hcount, hentered, hstate⟩ := h
  exact ⟨hentered ▸ hcount ▸ h'.entered, hstate ▸ hcount ▸ h'.once⟩

theorem flagged_feedFsm (l : SpaceWireLink) (e : Event) : Flagged l (l.feedFsm e) := by
  have hentered := l.feedFsm_drops e errorResetEntered (x := true) rfl
    (by cases hs : (l.fsm.feed e).state <;>
      simp [onStateChange, LinkFSM.output, startTimer, cancelTimer, enterErrorReset, hs])
  refine ⟨?_, ?_⟩
  · rw [hentered, feedFsm_errorResetCount]
    cases l.fsm.drops e <;> simp
  · rw [feedFsm_errorResetCount, feedFsm_fsm]
    cases hdrop : l.fsm.drops e with
    | false => exact .inl rfl
    | true => exact .inr ⟨rfl, LinkFSM.drops_iff.mp hdrop⟩

theorem resting_feedFsm (l : SpaceWireLink) {e : Event} (he : e ≠ .tick6p4us) :
    Resting l (l.feedFsm e) := by
  refine ⟨flagged_feedFsm l e, fun hs => ?_⟩
  rw [feedFsm_fsm, LinkFSM.feed_errorReset hs, if_neg (by simp [he]), LinkFSM.updateFlags_state, hs]

theorem resting_feedIf (b : Bool) (l : SpaceWireLink) {e : Event} (he : e ≠ .tick6p4us) :
    Resting l (if b then l.feedFsm e else l) := by
  cases b with
  | false => exact .refl l
  | true => exact resting_feedFsm l he

theorem resting_rxCharacter (l : SpaceWireLink) (c : Character) : Resting l (l.rxCharacter c) := by
  have hcharacter (l : SpaceWireLink) : Resting l (l.onRxCharacter c) := by
    have hh := onRxCharacter_handled l c
    generalize l.onRxCharacter c = l' at hh
    cases hh with
    | fct | nchar => exact .of_eq rfl
    | overflow | unexpected => exact resting_feedFsm l (by simp)
    | discarded | other => exact .refl l
  unfold rxCharacter dispatch parserCallbacks
  split
  · exact resting_feedFsm l (by simp)
  · split
    · exact .refl l
    · rename_i e he
      have htick : e ≠ .tick6p4us := by
        rintro rfl
        cases hc : c.type <;> simp [characterEvent, hc] at he
      exact (resting_feedFsm l htick).trans (hcharacter _)

theorem resting_charSent (l : SpaceWireLink) (c : Character) (b : Bool) :
    Resting l (l.charSent c b) := by
  obtain ⟨n, d, heq⟩ := l.charSent_eq c b
  rw [heq]
  dsimp only
  split
  · exact (resting_feedFsm l (by simp)).trans (.of_eq rfl)
  · split
    · exact (resting_feedFsm l (by simp)).trans (.of_eq rfl)
    · exact .of_eq rfl

theorem resting_turn {p q : Endpoint} (h : TxTurn p q) : Resting p.link q.link := by
  cases h with
  | rest | ended | wake | drive => exact .refl _
  | park => exact .of_eq rfl
  | pick _ _ hp | reject _ _ hp =>
    generalize stateTx p.link.fsm.state = mode at hp
    cases hp <;> exact .of_eq rfl
  | done => exact resting_charSent p.link _ _

/-- Only a timer, or a caller that feeds its tick, leads out of ErrorReset. -/
def ticks : Input → Bool
  | .act (.feed _) | .act (.expire _) => true
  | _ => false

theorem resting_endpoint (p : Endpoint) (i : Input) (hi : ticks i = false) :
    Resting p.link (p.step i).link := by
  have henqueue (cs : List Character) : Resting p.link (cs.foldl enqueueNchar p.link) := by
    apply run_related Resting.refl Resting.trans
    exact fun _ _ => .of_eq rfl
  cases i with
  | character c => exact resting_rxCharacter p.link c
  | bit bit =>
    apply Resting.trans (.of_eq rfl : Resting p.link
      { p.link with decoder := (p.link.decoder.feed bit).1 })
    exact run_related Resting.refl Resting.trans resting_rxCharacter _ _
  | act a =>
    cases a with
    | feed | expire => cases hi
    | watchdog disconnected =>
      simp only [Endpoint.step, Endpoint.act, disconnectWatchdog]
      split
      · exact .refl p.link
      · split
        · exact .refl p.link
        · exact resting_feedIf disconnected p.link (by simp)
    | txLoop => exact resting_turn p.txTurn
    | sendPacket data terminator =>
      simp only [Endpoint.step, Endpoint.act, sendPacket]
      cases SpaceWirePacket.create data terminator with
      | error err => exact .refl p.link
      | ok pkt => exact henqueue pkt.nchars
    | sendChar char =>
      simp only [Endpoint.step, Endpoint.act, sendChar]
      cases char.isNChar with
      | false => exact .refl p.link
      | true => exact henqueue [char]
    | recvPacket =>
      simp only [Endpoint.step, Endpoint.act, Endpoint.stepRecvPacket]
      split
      · exact .refl p.link
      · split
        · rw [Endpoint.returnPacket_link]
          exact .of_eq rfl
        · rw [Endpoint.returnPacket_link]
          exact .of_eq rfl
        · exact .of_eq rfl

theorem flagged_endpoint (p : Endpoint) (i : Input) : Flagged p.link (p.step i).link := by
  by_cases hi : ticks i = true
  · cases i with
    | character | bit => cases hi
    | act a =>
      cases a with
      | feed e =>
        simp only [Endpoint.step, Endpoint.act]
        split
        · exact flagged_feedFsm p.link e
        · exact .of_eq rfl
      | expire task =>
        simp only [Endpoint.step, Endpoint.act]
        split
        · simp only [runTimer]
          split
          · refine .of_eq_trans ?_ (flagged_feedFsm _ _)
            rfl
          · exact .of_eq rfl
        · exact .of_eq rfl
      | watchdog | txLoop | sendPacket | sendChar | recvPacket => cases hi
  · exact (resting_endpoint p i (by simpa using hi)).toFlagged

theorem resting_arm (l : SpaceWireLink) : Resting l l.arm := by
  apply Resting.trans (.of_eq rfl : Resting l (l.startTimer tick6p4Ns .tick6p4us))
  apply Resting.trans (resting_feedIf l.pendingAutoStart _ (e := .autoStart) (by simp))
  exact resting_feedIf _ _ (e := .linkStart) (by simp)

theorem flagged_step (p : Port) (i : PortInput) : Flagged p.link (p.step i).link := by
  by_cases hi : i.isLifecycle = true
  · cases i with
    | start =>
      obtain ⟨-, heq⟩ | ⟨-, -, heq⟩ | ⟨-, -, heq⟩ := p.step_start_cases <;> rw [heq]
      · exact .of_eq rfl
      · exact .of_eq rfl
      · exact .of_eq rfl
    | started =>
      obtain ⟨-, heq⟩ | ⟨-, -, heq⟩ | ⟨-, -, heq⟩ := p.step_started_cases <;> rw [heq]
      · exact .of_eq rfl
      · exact .of_eq rfl
      · exact (resting_arm p.link).toFlagged
    | stop => exact .of_eq rfl
    | call | txLoop | watchdog | driver | monitor | line | timeout => cases hi
  · have hendpoint := p.step_endpoint (by simpa using hi)
    by_cases hticks : ∃ a, p.inputs i = [a]
    · obtain ⟨a, ha⟩ := hticks
      rw [Port.link, Port.link, hendpoint, ha]
      exact flagged_endpoint p.endpoint a
    · apply Resting.toFlagged
      rw [Port.link, Port.link, hendpoint]
      apply run_keeps (I := fun q : Endpoint => Resting p.endpoint.link q.link) (.refl _)
      intro q a ha hq
      refine hq.trans (resting_endpoint q a ?_)
      cases i with
      | call action =>
        simp only [Port.inputs] at ha hticks
        split at ha <;> simp_all
      | txLoop => simp_all [Port.inputs, ticks]
      | watchdog =>
        simp only [Port.inputs] at ha
        split at ha <;> simp_all [ticks]
      | line di =>
        simp only [Port.inputs, List.mem_map] at ha
        obtain ⟨x, -, rfl⟩ := ha
        rfl
      | start | started | stop | driver | monitor | timeout => cases ha

theorem observed_clear {prompt : Prop} (h : c.Observed prompt l) :
    c.Observed prompt { l with errorResetEntered := false } := by
  refine ⟨h.1, ?_⟩
  have hphase := h.2
  dsimp only at hphase ⊢
  split at hphase
  · exact ⟨rfl, hphase.2⟩
  · exact hphase
  · exact hphase
  · exact hphase

/-- A step of the link between two calls of the coroutine: who waits is woken exactly when
ErrorReset has been entered. -/
theorem observed_port {prompt : Prop} (h : c.Observed prompt l) (hflag : Flagged l l')
    (hprompt : prompt → l.errorResetCount < l'.errorResetCount → c.phase ≠ .woken) :
    (if l'.errorResetEntered then c.wake else c).Observed prompt l' := by
  have hentered := hflag.entered
  have hcount : l'.errorResetCount = l.errorResetCount ∨
      l'.errorResetCount = l.errorResetCount + 1 := hflag.once.imp_right And.left
  obtain ⟨hsince, hphase⟩ := h
  dsimp only at hphase
  split at hphase
  · rename_i hp
    obtain ⟨hclear, hleft, hnonneg, hle, hexact⟩ := hphase
    by_cases hset : l'.errorResetEntered = true
    · have hlt : l.errorResetCount < l'.errorResetCount := by simpa [hclear] using hentered.mp hset
      rw [if_pos hset, ResetCall.wake, if_pos hp]
      refine ⟨hsince.trans hlt.le, hleft, hnonneg, ?_, fun hprompt => ?_⟩
      · dsimp only
        omega
      · have heq := hexact hprompt
        dsimp only at heq ⊢
        omega
    · have hsame : l'.errorResetCount = l.errorResetCount := by
        have hnot := mt hentered.mpr hset
        omega
      rw [if_neg hset]
      refine ⟨hsame ▸ hsince, ?_⟩
      dsimp only
      rw [hp, hsame]
      exact ⟨by simpa using hset, hleft, hnonneg, hle, hexact⟩
  all_goals
    rename_i hp
    have hwake : (if l'.errorResetEntered then c.wake else c) = c := by
      simp [ResetCall.wake, hp]
    rw [hwake]
    refine ⟨by omega, ?_⟩
    dsimp only
    rw [hp]
  · obtain ⟨hleft, hnonneg, hle, hexact⟩ := hphase
    refine ⟨hleft, hnonneg, by omega, fun hp' => ?_⟩
    have heq := hexact hp'
    have hnot : ¬ l.errorResetCount < l'.errorResetCount := fun hlt => hprompt hp' hlt hp
    omega
  · dsimp only at hphase ⊢
    omega
  · obtain ⟨k, hnonneg, hlt, hle, hmessage⟩ := hphase
    exact ⟨k, hnonneg, hlt, by omega, hmessage⟩

theorem observed_awaitReset {prompt : Prop} (p : Port) (hsince : c.since ≤ p.link.errorResetCount)
    (hnonneg : 0 ≤ c.count - c.deadlineLeft ∨ c.deadlineLeft = c.count)
    (hle : c.count - c.deadlineLeft ≤ p.link.errorResetCount - c.since)
    (hover : c.deadlineLeft ≤ 0 → c.deadlineLeft = 0 ∨ c.deadlineLeft = c.count)
    (hexact : prompt → c.count - c.deadlineLeft = p.link.errorResetCount - c.since) :
    (p.awaitReset c).2.Observed prompt (p.awaitReset c).1.link := by
  unfold Port.awaitReset
  split
  · rename_i hleft
    exact ⟨hsince, rfl, hleft, by dsimp only; omega, hle, hexact⟩
  · rename_i hleft
    refine ⟨hsince, ?_⟩
    have hzero := hover (by omega)
    dsimp only
    omega

theorem awaitReset_link (p : Port) (c : ResetCall) : (p.awaitReset c).1.link = p.link ∨
    (p.awaitReset c).1.link = { p.link with errorResetEntered := false } := by
  unfold Port.awaitReset
  split
  · exact .inr rfl
  · exact .inl rfl

/-- Every call keeps its count, whatever step is taken and whoever else waits. -/
theorem observed_step {prompt : Prop} (i : ResetInput) (hi : prompt → s.Prompt i)
    (h : ∀ c ∈ s.calls, c.Observed prompt s.port.link) :
    ∀ c ∈ (s.step i).calls, c.Observed prompt (s.step i).port.link := by
  have hothers {p : Port} (hp : p.link = s.port.link ∨
      p.link = { s.port.link with errorResetEntered := false }) {c : ResetCall}
      (hc : c ∈ s.calls) : c.Observed prompt p.link := by
    obtain hp | hp := hp
    · exact hp ▸ h c hc
    · exact hp ▸ observed_clear (h c hc)
  cases i with
  | port input =>
    have hwake (c : ResetCall) (hc : c ∈ s.calls) :=
      observed_port (h c hc) (flagged_step s.port input) fun hp hlt => hi hp hlt c hc
    intro c hc
    simp only [ResetWaits.step] at hc ⊢
    split at hc
    · rename_i hset
      obtain ⟨d, hd, rfl⟩ := List.mem_map.mp hc
      simpa [hset] using hwake d hd
    · rename_i hset
      simpa [hset] using hwake c hc
  | call count timeoutUs =>
    intro c hc
    simp only [ResetWaits.step, List.mem_append, List.mem_singleton] at hc ⊢
    obtain hc | rfl := hc
    · exact hothers (awaitReset_link _ _) hc
    · apply observed_awaitReset <;> dsimp only <;> omega
  | resume k =>
    simp only [ResetWaits.step]
    split
    · exact h
    · rename_i c hk
      have hc := h c (List.mem_of_getElem? hk)
      split
      · rename_i hwoken
        intro d hd
        obtain hd | rfl := List.mem_or_eq_of_mem_set hd
        · exact hothers (awaitReset_link _ _) hd
        · obtain ⟨hsince, hphase⟩ := hc
          simp only [hwoken] at hphase
          obtain ⟨hleft, hnonneg, hle, hexact⟩ := hphase
          apply observed_awaitReset <;> dsimp only
          · exact hsince
          · omega
          · omega
          · omega
          · intro hp
            have heq := hexact hp
            omega
      · exact h
  | timeout k =>
    simp only [ResetWaits.step]
    split
    · exact h
    · rename_i c hk
      have hc := h c (List.mem_of_getElem? hk)
      split
      · rename_i hwaiting
        intro d hd
        obtain hd | rfl := List.mem_or_eq_of_mem_set hd
        · exact h d hd
        · obtain ⟨hsince, hphase⟩ := hc
          simp only [hwaiting] at hphase
          obtain ⟨-, hleft, hnonneg, hle, -⟩ := hphase
          exact ⟨hsince, _, hnonneg, by dsimp only; omega, hle, rfl⟩
      · exact h

/-- Whatever a port does and however many callers wait on its link, none returns before
ErrorReset has been entered as often as it asked for, and a timeout reports no entry that did
not happen. Where woken callers have their turn before the next entry, none is missed. -/
theorem error_resets_awaited (p : Port) (ins : List ResetInput) :
    let s := run ResetWaits.step { port := p } ins
    ∀ c ∈ s.calls,
      let entries : Int := s.port.link.errorResetCount - c.since
      (c.phase = .returned → c.count ≤ entries) ∧
      (∀ message, c.phase = .timedOut message →
        ∃ k, 0 ≤ k ∧ k < c.count ∧ k ≤ entries ∧ message = ResetCall.message k c.timeoutUs) ∧
      (c.phase = .waiting → s.port.link.errorResetEntered = false ∧
        c.count - c.deadlineLeft ≤ entries) ∧
      (Guarded ResetWaits.step ResetWaits.Prompt { port := p } ins → c.phase = .waiting →
        c.count - c.deadlineLeft = entries) := by
  intro s c hc
  let prompt := Guarded ResetWaits.step ResetWaits.Prompt { port := p } ins
  have hcalls : ∀ c ∈ ({ port := p } : ResetWaits).calls, c.Observed prompt p.link := nofun
  have hturns : Guarded ResetWaits.step (fun s i => prompt → s.Prompt i) { port := p } ins :=
    fun q i hq hprompt => hprompt q i hq
  have halways := always_of_guarded
    (I := fun s : ResetWaits => ∀ c ∈ s.calls, c.Observed prompt s.port.link) hcalls
    (fun s i h hi => observed_step i hi h) hturns
  obtain ⟨-, hphase⟩ := halways ins (List.prefix_refl ins) c hc
  dsimp only at hphase
  refine ⟨fun hp => ?_, fun message hp => ?_, fun hp => ?_, fun hprompt hp => ?_⟩
  · simpa only [hp] using hphase
  · simpa only [hp] using hphase
  · simp only [hp] at hphase
    exact ⟨hphase.1, hphase.2.2.2.1⟩
  · simp only [hp] at hphase
    exact hphase.2.2.2.2 hprompt

end ErrorResetWait

end SpaceWire
