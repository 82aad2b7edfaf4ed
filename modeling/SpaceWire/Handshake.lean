import SpaceWire.Endpoint

namespace SpaceWire.Handshake

open LinkFSM

/-- No transition of the handshake is due, and the latches fit the state. -/
structure Settled (f : LinkFSM) : Prop where
  started : f.state = .started → f.sentNullInStarted = true → f.gotNullLatched = false
  connecting : f.state = .connecting → f.sentFctInConnecting = true → f.gotFctInConnecting = false
  heard : f.state.exchanging = true → f.gotNullLatched = true
  run : f.state = .run → f.sentFctInConnecting = true ∧ f.gotFctInConnecting = true
  early : f.state.exchanging = false → f.sentFctInConnecting = false ∧ f.gotFctInConnecting = false

/-- The events of a handshake without a fault: nothing of the peer comes too early, no
timeout and no disable. -/
inductive Benign (f : LinkFSM) : Event → Prop
  | external {e : Event} (he : e.external = true) (hd : e ≠ .linkDisable)
      (ht : e = .tick12p8us → f.state ≠ .started ∧ f.state ≠ .connecting) : Benign f e
  | gotNull : Benign f .gotNull
  | gotFct (h : f.state.exchanging = true) : Benign f .gotFct
  | gotNChar (h : f.state = .run) : Benign f .gotNChar
  | sentNull : Benign f .sentNull
  | sentFct (h : f.state.exchanging = true) : Benign f .sentFct

/-- The state shows that a NULL has been sent. -/
def NullSent (f : LinkFSM) : Prop :=
  f.state = .started ∧ f.sentNullInStarted = true ∨ f.state.exchanging = true

/-- The state shows that an FCT has been sent. -/
def FctSent (f : LinkFSM) : Prop :=
  f.state = .connecting ∧ f.sentFctInConnecting = true ∨ f.state = .run

/-- What a benign event does to a settled machine. -/
structure Advance (f : LinkFSM) (e : Event) (f' : LinkFSM) : Prop where
  settled : Settled f'
  undropped : f.drops e = false
  transmits : stateTx f.state ≠ .reset → stateTx f'.state ≠ .reset
  exchanging : f.state.exchanging = true → f'.state.exchanging = true
  running : f.state = .run → f'.state = .run
  gotNull : f'.gotNullLatched = true ↔ f.gotNullLatched = true ∨ e = .gotNull
  gotFct : f'.gotFctInConnecting = true ↔ f.gotFctInConnecting = true ∨ e = .gotFct
  nullSent : NullSent f' ↔ NullSent f ∨ e = .sentNull ∧ f.state = .started
  fctSent : FctSent f' ↔ FctSent f ∨ e = .sentFct

variable {f : LinkFSM} {e : Event}

theorem Benign.waitStateError (he : Benign f e) (h : f.state.exchanging = false) :
    (f.updateFlags e).waitStateError (some e) = false := by
  cases he with
  | external he => cases e <;> simp [Event.external] at he <;> simp [LinkFSM.waitStateError]
  | gotNull | sentNull => simp [LinkFSM.waitStateError]
  | gotFct hx | sentFct hx =>
    rw [h] at hx
    cases hx
  | gotNChar hs => simp [hs, State.exchanging] at h

theorem exchanging_iff {s : State} : s.exchanging = true ↔ s = .connecting ∨ s = .run := by
  simp [State.exchanging]

theorem Benign.exchanging (he : Benign f e) (hev : e = .gotFct ∨ e = .sentFct) :
    f.state.exchanging = true := by
  cases he with
  | external he => obtain rfl | rfl := hev <;> cases he
  | gotFct hx | sentFct hx => exact hx
  | gotNull | gotNChar | sentNull => obtain hev | hev := hev <;> cases hev

theorem Benign.no_fct (he : Benign f e) (h : f.state.exchanging = false) :
    e ≠ .gotFct ∧ e ≠ .sentFct := by
  refine ⟨fun hev => ?_, fun hev => ?_⟩
  · rw [he.exchanging (.inl hev)] at h
    cases h
  · rw [he.exchanging (.inr hev)] at h
    cases h

theorem Benign.gotFct_iff (h : Settled f) (he : Benign f e) :
    (f.updateFlags e).gotFctInConnecting = true ↔ f.gotFctInConnecting = true ∨ e = .gotFct := by
  rw [updateFlags_gotFctInConnecting]
  constructor
  · exact Or.imp_right And.left
  · rintro (hg | rfl)
    · exact .inl hg
    · obtain hs | hs := exchanging_iff.mp (he.exchanging (.inl rfl))
      · exact .inr ⟨rfl, hs⟩
      · exact .inl (h.run hs).2

theorem Benign.sentFct_iff (h : Settled f) (he : Benign f e) :
    (f.updateFlags e).sentFctInConnecting = true ↔
      f.sentFctInConnecting = true ∨ e = .sentFct := by
  rw [updateFlags_sentFctInConnecting]
  constructor
  · exact Or.imp_right And.left
  · rintro (hg | rfl)
    · exact .inl hg
    · obtain hs | hs := exchanging_iff.mp (he.exchanging (.inr rfl))
      · exact .inr ⟨rfl, hs⟩
      · exact .inl (h.run hs).1

theorem Benign.early (h : Settled f) (he : Benign f e) (hx : f.state.exchanging = false) :
    (f.updateFlags e).sentFctInConnecting = false ∧
      (f.updateFlags e).gotFctInConnecting = false := by
  obtain ⟨hs, hg⟩ := h.early hx
  obtain ⟨hgot, hsent⟩ := he.no_fct hx
  rw [← Bool.not_eq_true, ← Bool.not_eq_true, he.sentFct_iff h, he.gotFct_iff h, hs, hg]
  exact ⟨by simpa using hsent, by simpa using hgot⟩

theorem advance_stay (h : Settled f) (he : Benign f e) (hfeed : f.feed e = f.updateFlags e)
    (hstarted : f.state = .started → (f.updateFlags e).sentNullInStarted = true →
      (f.updateFlags e).gotNullLatched = false)
    (hconnecting : f.state = .connecting → (f.updateFlags e).sentFctInConnecting = true →
      (f.updateFlags e).gotFctInConnecting = false) : Advance f e (f.feed e) := by
  have hgotFct := he.gotFct_iff h
  have hsentFct := he.sentFct_iff h
  have hgotNull := updateFlags_gotNullLatched f e
  have hsentNull := updateFlags_sentNullInStarted f e
  have hdrops : f.drops e = false := by
    simp [LinkFSM.drops, hfeed]
  rw [hfeed]
  refine ⟨⟨by simpa using hstarted, by simpa using hconnecting, ?_, ?_, ?_⟩, hdrops, by simp,
    by simp, by simp, hgotNull, hgotFct, ?_, ?_⟩
  · rw [updateFlags_state, hgotNull]
    exact fun hx => .inl (h.heard hx)
  · rw [updateFlags_state, hsentFct, hgotFct]
    exact fun hs => ⟨.inl (h.run hs).1, .inl (h.run hs).2⟩
  · rw [updateFlags_state]
    exact he.early h
  · simp only [NullSent, updateFlags_state, hsentNull]
    constructor
    · rintro (⟨hs, hn | hn⟩ | hx)
      · exact .inl (.inl ⟨hs, hn⟩)
      · exact .inr hn
      · exact .inl (.inr hx)
    · rintro ((⟨hs, hn⟩ | hx) | hn)
      · exact .inl ⟨hs, .inl hn⟩
      · exact .inr hx
      · exact .inl ⟨hn.2, .inr hn⟩
  · simp only [FctSent, updateFlags_state, hsentFct]
    constructor
    · rintro (⟨hs, hf | hf⟩ | hs)
      · exact .inl (.inl ⟨hs, hf⟩)
      · exact .inr hf
      · exact .inl (.inr hs)
    · rintro ((⟨hs, hf⟩ | hs) | hf)
      · exact .inl ⟨hs, .inl hf⟩
      · exact .inr hs
      · exact (exchanging_iff.mp (he.exchanging (.inr hf))).imp (fun hs => ⟨hs, .inr hf⟩) id

theorem enter_early {s : State} (hs : s.exchanging = false) (hne : s ≠ .errorReset)
    (f : LinkFSM) : (f.enter s).gotNullLatched = f.gotNullLatched ∧
      (f.enter s).sentFctInConnecting = f.sentFctInConnecting ∧
      (f.enter s).gotFctInConnecting = f.gotFctInConnecting ∧
      (s = .started → (f.enter s).sentNullInStarted = false) := by
  cases s with
  | errorReset => exact absurd rfl hne
  | connecting | run => cases hs
  | errorWait | ready | started => simp [LinkFSM.enter]

theorem advance_early {s : State} (h : Settled f) (he : Benign f e)
    (hfeed : f.feed e = (f.updateFlags e).enter s) (hs : s.exchanging = false)
    (hne : s ≠ .errorReset) (hreset : stateTx f.state = .reset) : Advance f e (f.feed e) := by
  have hx : f.state.exchanging = false := by
    cases hold : f.state <;> first | rfl | (rw [hold] at hreset; cases hreset)
  have hstarted : f.state ≠ .started := by
    intro hold
    rw [hold] at hreset
    cases hreset
  have hfrun : f.state ≠ .connecting ∧ f.state ≠ .run := by simpa [State.exchanging] using hx
  have hrun : s ≠ .connecting ∧ s ≠ .run := by simpa [State.exchanging] using hs
  obtain ⟨hgn, hsf, hgf, hsn⟩ := enter_early hs hne (f.updateFlags e)
  have hdrops : f.drops e = false := by simp [LinkFSM.drops, hfeed, hne]
  have hearly := he.early h hx
  have hfct := (he.no_fct hx).2
  rw [hfeed]
  refine ⟨⟨?_, ?_, ?_, ?_, ?_⟩, hdrops, fun hmode => absurd hreset hmode, ?_, ?_, ?_, ?_, ?_, ?_⟩
  · rw [enter_state]
    intro heq hn
    rw [hsn heq] at hn
    cases hn
  · rw [enter_state]
    exact fun heq => absurd heq hrun.1
  · simp [hs]
  · rw [enter_state]
    exact fun heq => absurd heq hrun.2
  · rw [hsf, hgf]
    exact fun _ => hearly
  · simp [hx]
  · exact fun heq => absurd heq hfrun.2
  · rw [hgn, updateFlags_gotNullLatched]
  · rw [hgf, he.gotFct_iff h]
  · simp only [NullSent, enter_state, hx, hs]
    constructor
    · rintro (⟨heq, hn⟩ | hn)
      · rw [hsn heq] at hn
        cases hn
      · cases hn
    · rintro ((⟨heq, -⟩ | hn) | ⟨-, heq⟩)
      · exact absurd heq hstarted
      · cases hn
      · exact absurd heq hstarted
  · simp [FctSent, hrun, hfrun, hfct]

theorem advance_connect (h : Settled f) (he : Benign f e) (hs : f.state = .started)
    (hfeed : f.feed e = (f.updateFlags e).enter .connecting)
    (hsent : (f.updateFlags e).sentNullInStarted = true)
    (hgot : (f.updateFlags e).gotNullLatched = true) : Advance f e (f.feed e) := by
  have hx : f.state.exchanging = false := by rw [hs]; rfl
  obtain ⟨hgotFct, hsentFct⟩ := he.no_fct hx
  have hnull := (updateFlags_sentNullInStarted f e).mp hsent
  have hsn : ((f.updateFlags e).enter .connecting).sentFctInConnecting = false ∧
      ((f.updateFlags e).enter .connecting).gotFctInConnecting = false := ⟨rfl, rfl⟩
  have hdrops : f.drops e = false := by simp [LinkFSM.drops, hfeed]
  rw [hfeed]
  refine ⟨⟨by simp, by simp [hsn.1], fun _ => hgot, by simp, fun _ => hsn⟩, hdrops,
    by simp [stateTx], fun _ => rfl, by simp [hs], updateFlags_gotNullLatched f e, ?_, ?_, ?_⟩
  · rw [hsn.2, (h.early hx).2]
    simpa using hgotFct
  · refine ⟨fun _ => ?_, fun _ => .inr rfl⟩
    exact hnull.imp (fun hn => .inl ⟨hs, hn⟩) id
  · simp [FctSent, hs, hsentFct, hsn.1]

theorem advance_run (h : Settled f) (he : Benign f e) (hs : f.state = .connecting)
    (hfeed : f.feed e = (f.updateFlags e).enter .run)
    (hsent : (f.updateFlags e).sentFctInConnecting = true)
    (hgot : (f.updateFlags e).gotFctInConnecting = true) : Advance f e (f.feed e) := by
  have hx : f.state.exchanging = true := by rw [hs]; rfl
  have hnull := updateFlags_gotNullLatched f e
  have hdrops : f.drops e = false := by simp [LinkFSM.drops, hfeed]
  rw [hfeed]
  refine ⟨⟨by simp, by simp, fun _ => hnull.mpr (.inl (h.heard hx)), fun _ => ⟨hsent, hgot⟩,
    by simp [State.exchanging]⟩, hdrops, by simp [stateTx], fun _ => rfl, fun _ => rfl, hnull,
    he.gotFct_iff h, ?_, ?_⟩
  · exact ⟨fun _ => .inl (.inr hx), fun _ => .inr rfl⟩
  · refine ⟨fun _ => ?_, fun _ => .inr rfl⟩
    exact ((he.sentFct_iff h).mp hsent).imp (fun hf => .inl ⟨hs, hf⟩) id

theorem Benign.connectingError (he : Benign f e) (hs : f.state = .connecting) :
    LinkFSM.connectingError e = false := by
  cases he with
  | external he hd ht =>
    have htick : e ≠ .tick12p8us := fun heq => (ht heq).2 hs
    cases e <;> simp [Event.external] at he htick <;> rfl
  | gotNull | gotFct | sentNull | sentFct => rfl
  | gotNChar hrun =>
    rw [hs] at hrun
    cases hrun

theorem Benign.no_run_error (he : Benign f e) :
    ¬ (e = .rxErr ∨ e = .creditErr ∨ e = .linkDisable) := by
  cases he with
  | external he hd =>
    rintro (rfl | rfl | rfl)
    · cases he
    · cases he
    · exact hd rfl
  | gotNull | gotFct | gotNChar | sentNull | sentFct => simp

theorem Benign.ne_rxErr (he : Benign f e) : e ≠ .rxErr := fun h => he.no_run_error (.inl h)

/-- A settled machine stays settled on a benign event, and is not dropped. -/
theorem advance (h : Settled f) (he : Benign f e) : Advance f e (f.feed e) := by
  have hwait := he.waitStateError
  cases hs : f.state with
  | errorReset =>
    have hmode : stateTx f.state = .reset := by rw [hs]; rfl
    have hfeed := feed_errorReset (e := e) hs
    split at hfeed
    · rename_i hc
      obtain ⟨rfl, -⟩ := hc
      exact advance_early h he hfeed rfl (by simp) hmode
    · exact advance_stay h he hfeed (by simp [hs]) (by simp [hs])
  | errorWait =>
    have hmode : stateTx f.state = .reset := by rw [hs]; rfl
    have hfeed := feed_errorWait (e := e) hs
    rw [hwait (by rw [hs]; rfl), if_neg Bool.false_ne_true] at hfeed
    split at hfeed
    · rename_i hc
      subst hc
      split at hfeed
      · exact advance_early h he hfeed rfl (by simp) hmode
      · exact advance_early h he hfeed rfl (by simp) hmode
    · exact advance_stay h he hfeed (by simp [hs]) (by simp [hs])
  | ready =>
    have hmode : stateTx f.state = .reset := by rw [hs]; rfl
    have hfeed := feed_ready (e := e) hs
    rw [hwait (by rw [hs]; rfl), if_neg Bool.false_ne_true] at hfeed
    split at hfeed
    · exact advance_early h he hfeed rfl (by simp) hmode
    · exact advance_stay h he hfeed (by simp [hs]) (by simp [hs])
  | started =>
    have hfeed := feed_started (e := e) hs
    have htick : e ≠ .tick12p8us := by
      rintro rfl
      cases he with
      | external _ _ ht => exact (ht rfl).1 hs
    rw [hwait (by rw [hs]; rfl), if_neg (by simp [htick])] at hfeed
    split at hfeed
    · rename_i hc
      exact advance_connect h he hs hfeed hc.1 hc.2
    · rename_i hc
      exact advance_stay h he hfeed (fun _ hn => by simpa [hn] using hc) (by simp [hs])
  | connecting =>
    have hfeed := feed_connecting (e := e) hs
    rw [he.connectingError hs, if_neg Bool.false_ne_true] at hfeed
    split at hfeed
    · rename_i hc
      exact advance_run h he hs hfeed hc.1 hc.2
    · rename_i hc
      exact advance_stay h he hfeed (by simp [hs]) (fun _ hf => by simpa [hf] using hc)
  | run =>
    have hfeed := feed_run (e := e) hs
    rw [if_neg he.no_run_error] at hfeed
    exact advance_stay h he hfeed (by simp [hs]) (by simp [hs])

end SpaceWire.Handshake
