import SpaceWire.LinkFsm
import SpaceWire.Run

namespace SpaceWire.LinkFsmRuns

open LinkFSM Run

/-- What can be seen of a run: an event fed to the machine as it then was, and a state
entered, with the machine about to enter it. -/
inductive Obs
  | fed (fsm : LinkFSM) (e : Event)
  | entered (s : State) (fsm : LinkFSM)

def Obs.isReset : Obs → Bool
  | .entered .errorReset _ => true
  | _ => false

def observe (f : LinkFSM) (e : Event) : List Obs :=
  .fed f e :: (f.entered e).map fun p => .entered p.1 p.2

def history (f : LinkFSM) : List Event → List Obs
  | [] => []
  | e :: es => observe f e ++ history (f.feed e) es

theorem history_concat (f : LinkFSM) (es : List Event) (e : Event) :
    history f (es ++ [e]) = history f es ++ observe (run feed f es) e := by
  induction es generalizing f with
  | nil => simp [history]
  | cons a es ih => simp [history, ih]

/-- The steps of a handshake up to a state, in order. The two FCTs come in either order. -/
inductive Evidence : State → List Obs → Prop
  | errorReset : Evidence .errorReset []
  | errorWait {f : LinkFSM} (hs : f.state = .errorReset) (hd : f.linkDisable = false) :
      Evidence .errorWait [.fed f .tick6p4us]
  | ready {l : List Obs} {f : LinkFSM} (h : Evidence .errorWait l) (hs : f.state = .errorWait) :
      Evidence .ready (l ++ [.fed f .tick12p8us])
  | started {l : List Obs} {f : LinkFSM} (h : Evidence .ready l) (hd : f.linkDisable = false)
      (hen : f.linkStart = true ∨ f.autoStart = true ∧ f.gotNullLatched = true) :
      Evidence .started (l ++ [.entered .started f])
  | connecting {l : List Obs} {f g : LinkFSM} (h : Evidence .started l) (hs : f.state = .started) :
      Evidence .connecting (l ++ [.fed f .sentNull, .entered .connecting g])
  | runSentFirst {l : List Obs} {f g : LinkFSM} (h : Evidence .connecting l)
      (hf : f.state = .connecting) (hg : g.state = .connecting) :
      Evidence .run (l ++ [.fed f .sentFct, .fed g .gotFct])
  | runGotFirst {l : List Obs} {f g : LinkFSM} (h : Evidence .connecting l)
      (hf : f.state = .connecting) (hg : g.state = .connecting) :
      Evidence .run (l ++ [.fed f .gotFct, .fed g .sentFct])

/-- What the state and the latches of the machine say about the observations `tr` made
since the last entry into ErrorReset. -/
structure Traced (f : LinkFSM) (tr l : List Obs) : Prop where
  evidence : Evidence f.state l
  sublist : l.Sublist tr
  gotNull : f.gotNullLatched = true → ∃ g, Obs.fed g .gotNull ∈ tr
  sentNull : f.state = .started → f.sentNullInStarted = true →
    ∃ g : LinkFSM, g.state = .started ∧ (l ++ [Obs.fed g .sentNull]).Sublist tr
  sentFct : f.state = .connecting → f.sentFctInConnecting = true →
    ∃ g : LinkFSM, g.state = .connecting ∧ (l ++ [Obs.fed g .sentFct]).Sublist tr
  gotFct : f.state = .connecting → f.gotFctInConnecting = true →
    ∃ g : LinkFSM, g.state = .connecting ∧ (l ++ [Obs.fed g .gotFct]).Sublist tr
  oneFct : f.state = .connecting → ¬ (f.sentFctInConnecting = true ∧ f.gotFctInConnecting = true)
  nullFirst : f.state = .connecting ∨ f.state = .run → ∃ g c, Obs.entered .connecting c ∈ l ∧
    [Obs.fed g .gotNull, Obs.entered .connecting c].Sublist tr

theorem linkEnabled_eq {f : LinkFSM} (h : f.linkEnabled = true) :
    f.linkDisable = false ∧
      (f.linkStart = true ∨ f.autoStart = true ∧ f.gotNullLatched = true) := by
  revert h
  cases hd : f.linkDisable <;> cases hl : f.linkStart <;> simp [linkEnabled, hd, hl]

theorem Traced.of_reset {f : LinkFSM} : Traced (f.enter .errorReset) [] [] where
  evidence := .errorReset
  sublist := .slnil
  gotNull := nofun
  sentNull := nofun
  sentFct := nofun
  gotFct := nofun
  oneFct := nofun
  nullFirst := by simp

variable {f : LinkFSM} {tr l : List Obs} {e : Event}

theorem latch_seen {s : State} {x : Event} (hl : l.Sublist tr)
    (h : (∃ g : LinkFSM, g.state = s ∧ (l ++ [Obs.fed g x]).Sublist tr) ∨ e = x ∧ f.state = s) :
    ∃ g : LinkFSM, g.state = s ∧ (l ++ [Obs.fed g x]).Sublist (tr ++ [Obs.fed f e]) := by
  obtain ⟨g, hg, hsub⟩ | ⟨rfl, hs⟩ := h
  · exact ⟨g, hg, hsub.trans (List.sublist_append_left _ _)⟩
  · exact ⟨f, hs, hl.append (List.Sublist.refl _)⟩

theorem Traced.stay (h : Traced f tr l) (hstay : (f.updateFlags e).handler (some e) = none) :
    Traced (f.updateFlags e) (tr ++ [Obs.fed f e]) l where
  evidence := by simpa using h.evidence
  sublist := h.sublist.trans (List.sublist_append_left _ _)
  gotNull := by
    intro hg
    obtain hg | rfl := (updateFlags_gotNullLatched f e).mp hg
    · obtain ⟨g, hmem⟩ := h.gotNull hg
      exact ⟨g, by simp [hmem]⟩
    · exact ⟨f, by simp⟩
  sentNull := by
    intro hs hn
    rw [updateFlags_state] at hs
    exact latch_seen h.sublist
      (((updateFlags_sentNullInStarted f e).mp hn).imp (h.sentNull hs) id)
  sentFct := by
    intro hs hn
    rw [updateFlags_state] at hs
    exact latch_seen h.sublist
      (((updateFlags_sentFctInConnecting f e).mp hn).imp (h.sentFct hs) id)
  gotFct := by
    intro hs hn
    rw [updateFlags_state] at hs
    exact latch_seen h.sublist
      (((updateFlags_gotFctInConnecting f e).mp hn).imp (h.gotFct hs) id)
  oneFct := by
    intro hs hboth
    unfold handler at hstay
    simp only [hs, inConnecting, hboth.1, hboth.2, Bool.and_self, if_true] at hstay
    repeat' split at hstay
    all_goals cases hstay
  nullFirst := by
    intro hs
    rw [updateFlags_state] at hs
    obtain ⟨g, c, hmem, hsub⟩ := h.nullFirst hs
    exact ⟨g, c, hmem, hsub.trans (List.sublist_append_left _ _)⟩

theorem gotNull_seen (h : Traced f tr l) (hg : (f.updateFlags e).gotNullLatched = true) :
    ∃ g, [Obs.fed g .gotNull].Sublist (tr ++ [Obs.fed f e]) := by
  obtain hg | rfl := (updateFlags_gotNullLatched f e).mp hg
  · obtain ⟨g, hmem⟩ := h.gotNull hg
    exact ⟨g, List.singleton_sublist.mpr (by simp [hmem])⟩
  · exact ⟨f, List.singleton_sublist.mpr (by simp)⟩

theorem Traced.enter (h : Traced f tr l) {s : State} (hedge : Edge (f.updateFlags e) e s)
    (hs : s ≠ .errorReset) :
    ∃ l', Traced ((f.updateFlags e).enter s)
      (tr ++ [Obs.fed f e, Obs.entered s (f.updateFlags e)]) l' := by
  have hgot : (f.updateFlags e).gotNullLatched = true →
      ∃ g, Obs.fed g .gotNull ∈ tr ++ [Obs.fed f e, Obs.entered s (f.updateFlags e)] := by
    intro hg
    obtain ⟨g, hsub⟩ := gotNull_seen h hg
    have hmem := List.singleton_sublist.mp hsub
    exact ⟨g, by simp at hmem ⊢; tauto⟩
  have hev := h.evidence
  have hfed : ∀ x, (l ++ [x]).Sublist (tr ++ [x]) := fun x => h.sublist.append (.refl _)
  have hsplit : tr ++ [Obs.fed f e, Obs.entered s (f.updateFlags e)] =
      tr ++ [Obs.fed f e] ++ [Obs.entered s (f.updateFlags e)] := by simp
  cases hedge with
  | drop => exact absurd rfl hs
  | wait hst he hd =>
    subst he
    rw [updateFlags_state] at hst
    rw [hst] at hev
    cases hev
    refine ⟨_, .errorWait hst hd, ?_, hgot, by simp, by simp, by simp, by simp, by simp⟩
    exact List.singleton_sublist.mpr (by simp)
  | ready hst he =>
    subst he
    rw [updateFlags_state] at hst
    rw [hst] at hev
    refine ⟨_, .ready hev hst, ?_, hgot, by simp, by simp, by simp, by simp, by simp⟩
    rw [hsplit]
    exact (hfed _).trans (List.sublist_append_left _ _)
  | start hst hen =>
    rw [updateFlags_state] at hst
    rw [hst] at hev
    obtain ⟨hd, hen⟩ := linkEnabled_eq hen
    refine ⟨_, .started hev hd hen, ?_, hgot, ?_, by simp, by simp, by simp, by simp⟩
    · rw [hsplit]
      exact (h.sublist.trans (List.sublist_append_left _ _)).append (.refl _)
    · exact fun _ hn => by simp [LinkFSM.enter] at hn
  | connect hst hsent hg =>
    have hst' : f.state = .started := by simpa using hst
    rw [hst'] at hev
    obtain ⟨g, hgs, hsub⟩ := latch_seen h.sublist
      (((updateFlags_sentNullInStarted f e).mp hsent).imp (h.sentNull hst') id)
    obtain ⟨n, hnull⟩ := gotNull_seen h hg
    refine ⟨_, .connecting (g := f.updateFlags e) hev hgs, ?_, hgot, by simp, ?_, ?_, ?_, ?_⟩
    · rw [hsplit]
      simpa using hsub.append (.refl [Obs.entered .connecting (f.updateFlags e)])
    · exact fun _ hn => by simp [LinkFSM.enter] at hn
    · exact fun _ hn => by simp [LinkFSM.enter] at hn
    · exact fun _ hn => by simp [LinkFSM.enter] at hn
    · refine fun _ => ⟨n, f.updateFlags e, by simp, ?_⟩
      rw [hsplit]
      exact hnull.append (.refl _)
  | run hst hsent hg =>
    have hst' : f.state = .connecting := by simpa using hst
    rw [hst'] at hev
    obtain ⟨n, c, hmem, hnull⟩ := h.nullFirst (Or.inl hst')
    have hnull' : ∀ x, [Obs.fed n .gotNull, Obs.entered .connecting c].Sublist (tr ++ x) :=
      fun x => hnull.trans (List.sublist_append_left _ _)
    -- one FCT was seen before, and the event now fed is the other
    obtain hold | ⟨rfl, -⟩ := (updateFlags_sentFctInConnecting f e).mp hsent
    · obtain hold' | ⟨rfl, -⟩ := (updateFlags_gotFctInConnecting f e).mp hg
      · exact absurd ⟨hold, hold'⟩ (h.oneFct hst')
      · obtain ⟨g, hgs, hsub⟩ := h.sentFct hst' hold
        refine ⟨_, .runSentFirst hev hgs hst', ?_, hgot, by simp, by simp, by simp, by simp, ?_⟩
        · rw [hsplit]
          refine List.Sublist.trans ?_ (List.sublist_append_left _ _)
          simpa using hsub.append (.refl [Obs.fed f .gotFct])
        · exact fun _ => ⟨n, c, by simp [hmem], hnull' _⟩
    · obtain hold | ⟨heq, -⟩ := (updateFlags_gotFctInConnecting f _).mp hg
      · obtain ⟨g, hgs, hsub⟩ := h.gotFct hst' hold
        refine ⟨_, .runGotFirst hev hgs hst', ?_, hgot, by simp, by simp, by simp, by simp, ?_⟩
        · rw [hsplit]
          refine List.Sublist.trans ?_ (List.sublist_append_left _ _)
          simpa using hsub.append (.refl [Obs.fed f .sentFct])
        · exact fun _ => ⟨n, c, by simp [hmem], hnull' _⟩
      · cases heq

theorem Traced.chain (h : Traced f tr l) (hedge : Edge (f.updateFlags e) e .ready)
    (hen : (f.updateFlags e).linkEnabled = true) :
    ∃ l', Traced ((f.updateFlags e).enter .started)
      (tr ++ [Obs.fed f e, Obs.entered .ready (f.updateFlags e),
        Obs.entered .started ((f.updateFlags e).enter .ready)]) l' := by
  obtain ⟨l', h'⟩ := h.enter hedge nofun
  have hev := h'.evidence
  rw [enter_state] at hev
  obtain ⟨hd, hen⟩ := linkEnabled_eq hen
  refine ⟨_, .started hev (f := (f.updateFlags e).enter .ready) hd hen, ?_, ?_, ?_, by simp,
    by simp, by simp, by simp⟩
  · simpa using h'.sublist.append
      (.refl [Obs.entered .started ((f.updateFlags e).enter .ready)])
  · intro hg
    obtain ⟨g, hmem⟩ := h'.gotNull hg
    exact ⟨g, by simp at hmem ⊢; tauto⟩
  · exact fun _ hn => by simp [LinkFSM.enter] at hn

/-- A feed either carries the handshake on, or ends in ErrorReset with everything forgotten. -/
theorem Traced.feed (h : Traced f tr l) (e : Event) :
    (∃ l', Traced (f.feed e) (tr ++ observe f e) l' ∧ ∀ o ∈ observe f e, o.isReset = false) ∨
      ((f.feed e) = (f.updateFlags e).enter .errorReset ∧
        observe f e = [Obs.fed f e, Obs.entered .errorReset (f.updateFlags e)]) := by
  have hfed := fed f e
  unfold observe
  generalize f.feed e = f', f.entered e = ss at hfed
  cases hfed with
  | stay hstay => exact .inl ⟨l, by simpa using h.stay hstay, by simp [Obs.isReset]⟩
  | enter hedge hr =>
    rename_i s
    by_cases hs : s = .errorReset
    · subst hs
      exact .inr ⟨rfl, rfl⟩
    · obtain ⟨l', h'⟩ := h.enter hedge hs
      exact .inl ⟨l', by simpa using h', by cases s <;> simp_all [Obs.isReset]⟩
  | chain hedge hen =>
    obtain ⟨l', h'⟩ := h.chain hedge hen
    exact .inl ⟨l', by simpa using h', by simp [Obs.isReset]⟩

def fresh (targetBitRateBps : Int) : LinkFSM := { targetBitRateBps }

/-- The observations split at the last entry into ErrorReset, and those that follow hold the
evidence for the present state. -/
theorem run_traced (rate : Nat) (es : List Event) :
    ∃ before since l, history (fresh rate) es = before ++ since ∧
      (before = [] ∨ ∃ g, before.getLast? = some (.entered .errorReset g)) ∧
      (∀ o ∈ since, o.isReset = false) ∧ Traced (run feed (fresh rate) es) since l := by
  induction es using List.reverseRecOn with
  | nil =>
    exact ⟨[], [], [], rfl, .inl rfl, by simp, .errorReset, .slnil, nofun, nofun, nofun, nofun,
      nofun, by simp [fresh]⟩
  | append_singleton es e ih =>
    obtain ⟨before, since, l, heq, hlast, hno, htr⟩ := ih
    rw [history_concat, run_concat, heq]
    obtain ⟨l', htr', hno'⟩ | ⟨hreset, hobs⟩ := htr.feed e
    · refine ⟨before, since ++ observe _ e, l', by simp, hlast, ?_, htr'⟩
      intro o ho
      obtain ho | ho := List.mem_append.mp ho
      · exact hno o ho
      · exact hno' o ho
    · refine ⟨before ++ since ++ observe (run feed (fresh rate) es) e, [], [], by simp, .inr ?_,
        by simp, by rw [hreset]; exact .of_reset⟩
      exact ⟨(run feed (fresh rate) es).updateFlags e, by rw [hobs]; simp⟩

/-- Run is reached only by a complete handshake since the last entry into ErrorReset: its
steps are found there in order, with a NULL received before Connecting was entered. -/
theorem run_requires_handshake (rate : Nat) (es : List Event)
    (h : (run feed (fresh rate) es).state = .run) :
    ∃ before since l, history (fresh rate) es = before ++ since ∧
      (before = [] ∨ ∃ g, before.getLast? = some (.entered .errorReset g)) ∧
      (∀ o ∈ since, o.isReset = false) ∧ Evidence .run l ∧ l.Sublist since ∧
      ∃ g c, Obs.entered .connecting c ∈ l ∧
        [Obs.fed g .gotNull, Obs.entered .connecting c].Sublist since := by
  obtain ⟨before, since, l, heq, hlast, hno, htr⟩ := run_traced rate es
  have hev := htr.evidence
  rw [h] at hev
  exact ⟨before, since, l, heq, hlast, hno, hev, htr.sublist, htr.nullFirst (.inr h)⟩

theorem run_requires_handshake_once :
    ∃ before since l, history (fresh 200000000)
        [.linkStart, .tick6p4us, .tick12p8us, .gotNull, .sentNull, .sentFct, .gotFct] =
          before ++ since ∧
      (∀ o ∈ since, o.isReset = false) ∧ Evidence .run l ∧ l.Sublist since := by
  obtain ⟨before, since, l, heq, -, hno, hev, hsub, -⟩ := run_requires_handshake 200000000
    [.linkStart, .tick6p4us, .tick12p8us, .gotNull, .sentNull, .sentFct, .gotFct] (by decide)
  exact ⟨before, since, l, heq, hno, hev, hsub⟩

/-- The last LINK_DISABLE has not been followed by a LINK_DISABLE_CLEAR. -/
def Disabled (es : List Event) : Prop :=
  ∃ pre post, es = pre ++ .linkDisable :: post ∧ .linkDisableClear ∉ post

theorem Disabled.concat {es : List Event} (e : Event) :
    Disabled (es ++ [e]) ↔ e = .linkDisable ∨ Disabled es ∧ e ≠ .linkDisableClear := by
  constructor
  · rintro ⟨pre, post, heq, hpost⟩
    obtain rfl | ⟨post, x, rfl⟩ := List.eq_nil_or_concat post
    · obtain ⟨-, h⟩ := List.append_inj' heq rfl
      cases h
      exact .inl rfl
    · have heq' : es ++ [e] = (pre ++ .linkDisable :: post) ++ [x] := by simpa using heq
      obtain ⟨rfl, h⟩ := List.append_inj' heq' rfl
      cases h
      simp at hpost
      exact .inr ⟨⟨pre, post, rfl, hpost.1⟩, Ne.symm hpost.2⟩
  · rintro (rfl | ⟨⟨pre, post, rfl, hpost⟩, he⟩)
    · exact ⟨es, [], rfl, by simp⟩
    · exact ⟨pre, post ++ [e], by simp, by simp [hpost, Ne.symm he]⟩

theorem linkDisable_iff (rate : Nat) (es : List Event) :
    (run feed (fresh rate) es).linkDisable = true ↔ Disabled es := by
  have hkeep : ∀ f e, (feed f e).linkDisable = (updateFlags f e).linkDisable := by
    intro f e
    have hfed := fed f e
    generalize f.feed e = f', f.entered e = ss at hfed
    cases hfed <;> simp
  induction es using List.reverseRecOn with
  | nil => simp [fresh, Disabled]
  | append_singleton es e ih =>
    rw [run_concat, hkeep, updateFlags_linkDisable, Disabled.concat]
    exact or_congr_right (and_congr_left' ih)

/-- The event completes the FCT exchange of a machine that has been disabled. -/
def CompletesDisabled (f : LinkFSM) (e : Event) : Prop :=
  f.linkDisable = true ∧ f.state = .connecting ∧
    (e = .sentFct ∧ f.gotFctInConnecting = true ∨ e = .gotFct ∧ f.sentFctInConnecting = true)

/-- Not in Run while disabled, and at most one FCT latch set while Connecting. -/
def Blocked (f : LinkFSM) : Prop :=
  (f.linkDisable = true → f.state ≠ .run) ∧
    (f.state = .connecting → ¬ (f.sentFctInConnecting = true ∧ f.gotFctInConnecting = true))

theorem blocked_feed {f : LinkFSM} {e : Event} (h : Blocked f) (he : ¬ CompletesDisabled f e) :
    Blocked (f.feed e) := by
  have hfed := fed f e
  generalize f.feed e = f', f.entered e = ss at hfed
  cases hfed with
  | stay hstay =>
    refine ⟨fun hd hs => ?_, fun hs hboth => ?_⟩
    · rw [updateFlags_state] at hs
      obtain rfl | ⟨hd, -⟩ := (updateFlags_linkDisable f e).mp hd
      · simp [handler, inRun, updateFlags, hs] at hstay
      · exact h.1 hd hs
    · unfold handler at hstay
      simp only [hs, inConnecting, hboth.1, hboth.2, Bool.and_self, if_true] at hstay
      repeat' split at hstay
      all_goals cases hstay
  | chain hedge hen => exact ⟨by simp, by simp⟩
  | enter hedge hr =>
    cases hedge with
    | wait | ready | start | drop => exact ⟨by simp, by simp⟩
    | connect => exact ⟨by simp, fun _ hboth => by simp [enter] at hboth⟩
    | run hs hsent hgot =>
      rw [updateFlags_state] at hs
      refine ⟨fun hd _ => ?_, by simp⟩
      -- Run was entered disabled, so one latch was set before and the event set the other
      rw [enter_linkDisable, updateFlags_linkDisable] at hd
      rw [updateFlags_sentFctInConnecting] at hsent
      rw [updateFlags_gotFctInConnecting] at hgot
      have hnot := h.2 hs
      apply he
      obtain hsent | ⟨rfl, -⟩ := hsent <;> obtain hgot | ⟨he', -⟩ := hgot
      · exact absurd ⟨hsent, hgot⟩ hnot
      · subst he'
        exact ⟨by simpa using hd, hs, .inr ⟨rfl, hsent⟩⟩
      · exact ⟨by simpa using hd, hs, .inl ⟨rfl, hgot⟩⟩
      · cases he'

theorem feed_completesDisabled {f : LinkFSM} {e : Event} (he : CompletesDisabled f e) :
    (f.feed e).linkDisable = true ∧ (f.feed e).state = .run := by
  obtain ⟨hd, hs, ⟨rfl, hlatch⟩ | ⟨rfl, hlatch⟩⟩ := he <;>
    simp [feed_connecting hs, connectingError, updateFlags, hs, hlatch, hd]

/-- The machine stays out of Run while disabled exactly as long as no FCT completes the
exchange of a disabled machine. -/
theorem disabled_not_run_iff (rate : Nat) (es : List Event) :
    (∀ p, p <+: es → Disabled p → (run feed (fresh rate) p).state ≠ .run) ↔
      ∀ p e, p ++ [e] <+: es → ¬ CompletesDisabled (run feed (fresh rate) p) e := by
  have hiff : Always feed (fun f => f.linkDisable = true → f.state ≠ .run) (fresh rate) es ↔
      Guarded feed (fun f e => ¬ CompletesDisabled f e) (fresh rate) es :=
    always_iff_guarded (I := Blocked) ⟨by simp [fresh], by simp [fresh]⟩
      (fun _ h => h.1) (fun _ _ h he => blocked_feed h he)
      (fun _ _ _ hP he => hP (feed_completesDisabled he).1 (feed_completesDisabled he).2)
  simpa only [Always, Guarded, linkDisable_iff] using hiff

/-- Disabled in Connecting, the machine goes on to Run when the two FCTs arrive. -/
theorem disabled_reaches_run :
    ¬ ∀ es : List Event, Disabled es → (run feed (fresh 200000000) es).state ≠ .run := by
  intro h
  refine h [.linkStart, .tick6p4us, .tick12p8us, .gotNull, .sentNull, .linkDisable, .sentFct,
    .gotFct] ?_ (by decide)
  exact ⟨[.linkStart, .tick6p4us, .tick12p8us, .gotNull, .sentNull], [.sentFct, .gotFct], rfl,
    by decide⟩

/-- A disable that arrives anywhere but in Started or Connecting is honoured: the machine
stays in ErrorReset, ErrorWait or Ready until it is enabled again. -/
theorem disabled_waits (rate : Nat) (es : List Event)
    (hquiet : Guarded feed (fun f e => e = .linkDisable → f.state ≠ .started ∧
      f.state ≠ .connecting) (fresh rate) es) (hd : Disabled es) :
    (run feed (fresh rate) es).state = .errorReset ∨
      (run feed (fresh rate) es).state = .errorWait ∨
      (run feed (fresh rate) es).state = .ready := by
  have hinv := always_of_guarded (I := fun f : LinkFSM => f.linkDisable = true →
      f.state = .errorReset ∨ f.state = .errorWait ∨ f.state = .ready)
    (by simp [fresh]) (fun f e h hq => ?_) hquiet
  · exact hinv.last ((linkDisable_iff rate es).mpr hd)
  · have hfed := fed f e
    generalize f.feed e = f', f.entered e = ss at hfed
    cases hfed with
    | stay hstay =>
      intro hd
      rw [updateFlags_state]
      obtain rfl | ⟨hd, -⟩ := (updateFlags_linkDisable f e).mp hd
      · obtain ⟨h1, h2⟩ := hq rfl
        cases hs : f.state <;> simp_all [handler, inRun, updateFlags]
      · exact h hd
    | chain hedge hen =>
      intro hd
      rw [enter_linkDisable] at hd
      exact absurd hd (by simp [(linkEnabled_eq hen).1])
    | enter hedge hr =>
      intro hd
      rw [enter_linkDisable] at hd
      rw [enter_state]
      cases hedge with
      | wait | ready | drop => simp
      | start hs hen => exact absurd hd (by simp [(linkEnabled_eq hen).1])
      | connect hs hsent hg | run hs hsent hg =>
        rw [updateFlags_state] at hs
        obtain rfl | ⟨hd, -⟩ := (updateFlags_linkDisable f e).mp hd
        · obtain ⟨h1, h2⟩ := hq rfl
          simp_all
        · simpa [hs] using h hd

end SpaceWire.LinkFsmRuns
