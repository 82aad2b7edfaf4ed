import SpaceWire.Burst
import SpaceWire.FairDelivery
import SpaceWire.Timers

namespace SpaceWire

def State.toRun : State → ℕ
  | .errorReset => 5
  | .errorWait => 4
  | .ready => 3
  | .started => 2
  | .connecting => 1
  | .run => 0

theorem State.toRun_inj {s t : State} : s.toRun = t.toRun ↔ s = t := by
  cases s <;> cases t <;> simp [toRun]

namespace FairHandshake

open Run Accounting Traffic Conservation Events Handshake Agreement Timers Wakeup History
open NCharStream
open Burst (FctHeld)

section fsm

variable {f f' : LinkFSM} {e : Event}

instance (f : LinkFSM) : Decidable (NullSent f) := inferInstanceAs (Decidable (_ ∧ _ ∨ _))

instance (f : LinkFSM) : Decidable (FctSent f) := inferInstanceAs (Decidable (_ ∧ _ ∨ _))

/-- What an endpoint has still to reach, to send and to hear. -/
def left (f : LinkFSM) : ℕ :=
  f.state.toRun + (if NullSent f then 0 else 1) + (if f.gotNullLatched then 0 else 1) +
    (if FctSent f then 0 else 1) + (if f.gotFctInConnecting then 0 else 1)

/-- No step of the handshake has been made. -/
structure Stays (f f' : LinkFSM) : Prop where
  state : f'.state = f.state
  nullSent : NullSent f' ↔ NullSent f
  gotNull : f'.gotNullLatched = f.gotNullLatched
  fctSent : FctSent f' ↔ FctSent f
  gotFct : f'.gotFctInConnecting = f.gotFctInConnecting

theorem Stays.refl (f : LinkFSM) : Stays f f := ⟨rfl, .rfl, rfl, .rfl, rfl⟩

theorem Stays.left_eq (h : Stays f f') : left f' = left f := by
  simp only [left, h.state, h.nullSent, h.gotNull, h.fctSent, h.gotFct]

theorem toRun_feed (hd : f.drops e = false) : (f.feed e).state.toRun ≤ f.state.toRun := by
  have hfed := f.fed e
  unfold LinkFSM.drops at hd
  generalize f.feed e = f', f.entered e = ss at hd hfed
  cases hfed with
  | stay => simp
  | chain hedge =>
    cases hedge with
    | ready hs =>
      rw [LinkFSM.updateFlags_state] at hs
      simp [hs, State.toRun]
  | enter hedge =>
    cases hedge with
    | wait hs | ready hs | start hs | connect hs | run hs =>
      rw [LinkFSM.updateFlags_state] at hs
      simp [hs, State.toRun]
    | drop hs =>
      rw [LinkFSM.updateFlags_state] at hs
      simp [hs] at hd

/-- A benign event makes a step of the handshake or none, but never undoes one. -/
theorem advance_left (h : Advance f e (f.feed e)) :
    left (f.feed e) < left f ∨ Stays f (f.feed e) := by
  have hstate := toRun_feed h.undropped
  have hnull : NullSent f → NullSent (f.feed e) := fun hn => h.nullSent.mpr (.inl hn)
  have hgotNull := fun hg => h.gotNull.mpr (.inl hg)
  have hfct : FctSent f → FctSent (f.feed e) := fun hn => h.fctSent.mpr (.inl hn)
  have hgotFct := fun hg => h.gotFct.mpr (.inl hg)
  generalize f.feed e = f' at hstate hnull hgotNull hfct hgotFct
  by_cases hstays : Stays f f'
  · exact .inr hstays
  · left
    by_contra hle
    apply hstays
    unfold left at hle
    refine ⟨State.toRun_inj.mp ?_, ⟨?_, hnull⟩, ?_, ⟨?_, hfct⟩, ?_⟩ <;>
      grind

/-- The application wants the link to start, and Ready is left at once when it may be. -/
structure Willing (f : LinkFSM) : Prop where
  enabled : f.linkDisable = false
  start : f.linkStart = true ∨ f.autoStart = true
  ready : f.state = .ready → f.linkEnabled = false

/-- The events by which the application changes its mind. -/
def withdraws : Event → Bool
  | .linkStartClear | .autoStartClear => true
  | _ => false

theorem feed_flags (f : LinkFSM) (e : Event) :
    (f.feed e).linkStart = (f.updateFlags e).linkStart ∧
      (f.feed e).autoStart = (f.updateFlags e).autoStart ∧
      (f.feed e).linkDisable = (f.updateFlags e).linkDisable := by
  have henter (s : State) : ((f.updateFlags e).enter s).linkStart = (f.updateFlags e).linkStart ∧
      ((f.updateFlags e).enter s).autoStart = (f.updateFlags e).autoStart ∧
      ((f.updateFlags e).enter s).linkDisable = (f.updateFlags e).linkDisable := by
    cases s <;> exact ⟨rfl, rfl, rfl⟩
  have hfed := f.fed e
  generalize f.feed e = f', f.entered e = ss at hfed
  cases hfed with
  | stay => exact ⟨rfl, rfl, rfl⟩
  | enter | chain => exact henter _

theorem linkStart_feed (h : f.linkStart = true) (he : withdraws e = false) :
    (f.feed e).linkStart = true := by
  rw [(feed_flags f e).1]
  cases e with
  | linkStartClear | autoStartClear => cases he
  | linkStart => rfl
  | sentNull | sentFct | gotFct =>
    simp only [LinkFSM.updateFlags]
    split <;> exact h
  | _ => exact h

theorem autoStart_feed (h : f.autoStart = true) (he : withdraws e = false) :
    (f.feed e).autoStart = true := by
  rw [(feed_flags f e).2.1]
  cases e with
  | linkStartClear | autoStartClear => cases he
  | autoStart => rfl
  | sentNull | sentFct | gotFct =>
    simp only [LinkFSM.updateFlags]
    split <;> exact h
  | _ => exact h

theorem Willing.feed (h : Willing f) (he : withdraws e = false) (hd : e ≠ .linkDisable) :
    Willing (f.feed e) := by
  refine ⟨?_, ?_, ?_⟩
  · rw [(feed_flags f e).2.2, ← Bool.not_eq_true, LinkFSM.updateFlags_linkDisable, h.enabled]
    simp [hd]
  · exact h.start.imp (fun hs => linkStart_feed hs he) fun hs => autoStart_feed hs he
  · have hfed := f.fed e
    generalize f.feed e = f', f.entered e = ss at hfed
    intro hs
    cases hfed with
    | stay hnone =>
      rw [LinkFSM.handler, hs] at hnone
      simp only [LinkFSM.inReady] at hnone
      split at hnone
      · cases hnone
      · split at hnone
        · cases hnone
        · simpa using ‹¬ (f.updateFlags e).linkEnabled = true›
    | enter hedge hr =>
      rw [LinkFSM.enter_state] at hs
      subst hs
      rw [LinkFSM.linkEnabled_enter_ready]
      exact hr rfl
    | chain => simp at hs

end fsm

/-- What two links keep during a handshake without a fault, whatever has been before it. -/
structure Attuned (s : System) : Prop extends Sound s where
  orderly : ∀ x, Orderly (s.ends x)
  sync : ∀ x, Sync (s.ends x) (s.ends x.peer) (s.line x)

variable {s : System} {x : Side} {t : Turn}

theorem attuned_of_agreed (h : Agreed s) : Attuned s :=
  { healthy_sound h.healthy with orderly := h.orderly, sync := h.sync }

/-- What a turn without a fault does to the FSM of `x`. -/
inductive Effect (s : System) (t : Turn) (x : Side) : Prop
  | none (h : ((s.step t).ends x).link.fsm = (s.ends x).link.fsm)
  | acted {a : Action} {e : Event} (ht : t = .act x a) (he : (s.ends x).feeds a = some e)
      (hb : Benign (s.ends x).link.fsm e)
      (h : ((s.step t).ends x).link.fsm = (s.ends x).link.fsm.feed e)
  | heard {c : Character} {rest : List Character} {e : Event} (ht : t = .deliver x.peer)
      (hline : s.line x.peer = c :: rest) (he : characterEvent c.type = some e)
      (hb : Benign (s.ends x).link.fsm e)
      (h : ((s.step t).ends x).link.fsm = (s.ends x).link.fsm.feed e)

theorem effect_act {y : Side} {a : Action} (h : Attuned s) (ht : FaultFree s (.act y a))
    (x : Side) : Effect s (.act y a) x := by
  obtain rfl | rfl := y.eq_or_eq_peer x
  · have hfsm := (act_told (h.clean x) a).fsm
    have hb := feeds_benign (h.orderly x) ht.2.2
    rw [← System.step_act_ends] at hfsm
    cases he : (s.ends x).feeds a with
    | none =>
      rw [he] at hfsm
      exact .none hfsm
    | some e =>
      rw [he] at hfsm
      exact .acted rfl he (hb e he) hfsm
  · exact .none (by rw [System.step_act_ends_peer])

theorem hears_told {y : Side} {c : Character} {rest : List Character} (h : Attuned s)
    (ht : FaultFree s (.deliver y)) (hline : s.line y = c :: rest) :
    LineChar c ∧ ∃ e, characterEvent c.type = some e ∧ Benign (s.ends y.peer).link.fsm e ∧
      Told (s.ends y.peer).link (some e) ((s.ends y.peer).link.rxCharacter c) := by
  have hquiet : justDriven (s.ends y.peer).txLoop = [] := by
    by_contra hne
    cases ht.1 y.peer hne
  have hc := h.solvent.line y c (by simp [hline])
  obtain ⟨e, he, -⟩ := characterEvent_received hc
  have hpq := h.sync y
  have hqp := h.sync y.peer
  rw [hline] at hpq
  rw [Side.peer_peer] at hqp
  obtain ⟨hroom, hpos⟩ := h.solvent.head_bounds hline
  have hs := (h.orderly y.peer).settled
  have hb := hear_benign hpq hqp (h.orderly y).settled hs hc hquiet he
  exact ⟨hc, e, he, hb, rxCharacter_told hc he hroom hpos (advance hs hb).undropped⟩

theorem hears {y : Side} {c : Character} {rest : List Character} (h : Attuned s)
    (ht : FaultFree s (.deliver y)) (hline : s.line y = c :: rest) :
    LineChar c ∧ ∃ e, characterEvent c.type = some e ∧ Benign (s.ends y.peer).link.fsm e ∧
      ((s.ends y.peer).rxCharacter c).link.fsm = (s.ends y.peer).link.fsm.feed e := by
  obtain ⟨hc, e, he, hb, htold⟩ := hears_told h ht hline
  exact ⟨hc, e, he, hb, htold.fsm⟩

theorem effect_deliver {y : Side} (h : Attuned s) (ht : FaultFree s (.deliver y)) (x : Side) :
    Effect s (.deliver y) x := by
  cases hline : s.line y with
  | nil => exact .none (by simp only [System.step, hline])
  | cons c rest =>
    have hstep : s.step (.deliver y) = s.receive y c := by simp only [System.step, hline]
    obtain rfl | rfl := y.eq_or_eq_peer x
    · exact .none (by rw [hstep, System.receive_ends])
    · obtain ⟨-, e, he, hb, hfsm⟩ := hears h ht hline
      refine .heard (by rw [Side.peer_peer]) (by rwa [Side.peer_peer]) he hb ?_
      rw [hstep, System.receive_ends_peer]
      exact hfsm

theorem effect (h : Attuned s) (ht : FaultFree s t) (x : Side) : Effect s t x := by
  cases t with
  | act y a => exact effect_act h ht x
  | deliver y => exact effect_deliver h ht x
  | lose | noise => cases ht.2.1

theorem Attuned.keeps (h : Attuned s) (ht : FaultFree s t) : Keeps s (s.step t) := by
  cases t with
  | act x a =>
    refine (Side.forall_iff x).mpr ⟨?_, by rw [System.step_act_ends_peer]⟩
    rw [System.step_act_ends]
    exact told_resets (act_told (h.clean x) a) (h.orderly x).settled
      (feeds_benign (h.orderly x) ht.2.2)
  | deliver x =>
    simp only [System.step]
    split
    · exact fun _ => rfl
    · rename_i c rest hline
      obtain ⟨-, e, -, hb, htold⟩ := hears_told h ht hline
      refine (Side.forall_iff x).mpr ⟨by rw [System.receive_ends], ?_⟩
      rw [System.receive_ends_peer]
      exact told_resets htold (h.orderly x.peer).settled (by rintro _ ⟨⟩; exact hb)
  | lose | noise => cases ht.2.1

theorem Attuned.act {y : Side} {a : Action} (h : Attuned s) (ht : FaultFree s (.act y a)) :
    Attuned (s.step (.act y a)) := by
  have hclean := h.clean y
  have hb := feeds_benign (h.orderly y) ht.2.2
  have hquiet (ha : a ≠ .txLoop) : justDriven (s.ends y).txLoop = [] := by
    by_contra hne
    cases ht.1 y hne
    exact ha rfl
  have hsender := act_sender (h.orderly y) hclean (h.sync y) hb hquiet
  have hreceiver := act_receiver (h.orderly y) hclean
    (by simpa only [Side.peer_peer] using h.sync y.peer) hb
  refine { h.toSound.step ht.2.1 (h.keeps ht) with orderly := ?_, sync := ?_ }
  · refine (Side.forall_iff y).mpr ⟨?_, by simpa using h.orderly y.peer⟩
    simpa using act_orderly (h.orderly y) hclean hb
  · exact (Side.forall_iff y).mpr ⟨by simpa using hsender, by simpa using hreceiver⟩

theorem Attuned.deliver {y : Side} (h : Attuned s) (ht : FaultFree s (.deliver y)) :
    Attuned (s.step (.deliver y)) := by
  have hsound := h.toSound.step ht.2.1 (h.keeps ht)
  simp only [System.step] at hsound ⊢
  split at hsound
  · exact h
  · rename_i c rest hline
    have hquiet : justDriven (s.ends y.peer).txLoop = [] := by
      by_contra hne
      cases ht.1 y.peer hne
    obtain ⟨hc, e, he, hb, htold⟩ := hears_told h ht hline
    obtain ⟨e', he', hnull, hfct⟩ := characterEvent_received hc
    obtain rfl := Option.some.inj (he.symm.trans he')
    have hpq := h.sync y
    have hqp := h.sync y.peer
    rw [hline] at hpq
    rw [Side.peer_peer] at hqp
    have hadv := advance (h.orderly y.peer).settled hb
    have hfsm := htold.fsm
    rw [Option.elim_some] at hfsm
    rw [← hfsm] at hadv
    refine { hsound with orderly := ?_, sync := ?_ }
    · refine (Side.forall_iff y).mpr ⟨by simpa using h.orderly y, ?_⟩
      rw [System.receive_ends_peer]
      refine ⟨(h.orderly y.peer).ticks.told htold, hadv.settled, fun d hd => ?_⟩
      obtain ⟨hd, hfits⟩ := (h.orderly y.peer).held d hd
      exact ⟨hd, hfits.advance hadv⟩
    · have hhear : Sync (s.ends y) ((s.ends y.peer).rxCharacter c) rest := hpq.hear hc he hadv
      have hback : Sync ((s.ends y.peer).rxCharacter c) (s.ends y) (s.line y.peer) :=
        hqp.sender_advance hadv rfl hquiet hnull hfct
      exact (Side.forall_iff y).mpr ⟨by simpa [hline] using hhear, by simpa using hback⟩

theorem Attuned.step (h : Attuned s) (ht : FaultFree s t) : Attuned (s.step t) := by
  cases t with
  | act y a => exact h.act ht
  | deliver y => exact h.deliver ht
  | lose y | noise y n => cases ht.2.1

/-- A turn without a fault, in which the application does not change its mind. -/
def Eager (s : System) (t : Turn) : Prop :=
  FaultFree s t ∧ ∀ x e, t = .act x (.feed e) → withdraws e = false

/-- What the link of `x` has picked for the handshake of Connecting it still holds or has sent. -/
def FctPromised (p : Endpoint) : Prop :=
  p.link.fsm.state = .connecting → p.link.fctSentThisConnecting = true →
    FctSent p.link.fsm ∨ FctHeld p

/-- What two links keep that are to connect. -/
structure Handshaking (s : System) : Prop extends Attuned s where
  attended : ∀ x, Attended (s.ends x)
  timers : ∀ x, TimersInv (s.ends x).link
  unwedged : ∀ x, Unwedged (s.ends x).link
  willing : ∀ x, Willing (s.ends x).link.fsm
  starter : ∃ x, (s.ends x).link.fsm.linkStart = true
  nulls : ∀ x, (s.ends x).link.onlyNulls = false
  promised : ∀ x, FctPromised (s.ends x)

theorem not_withdrawn (h : Attuned s) (ht : Eager s t) {a : Action} {e : Event}
    (hact : t = .act x a) (he : (s.ends x).feeds a = some e) : withdraws e = false := by
  cases a with
  | feed e' =>
    simp only [Endpoint.feeds] at he
    split at he <;> cases he
    exact ht.2 x _ hact
  | expire task =>
    simp only [Endpoint.feeds] at he
    split at he <;> cases he
    rename_i hlive
    obtain htick | htick := (h.orderly x).ticks task hlive.1 <;> rw [htick] <;> rfl
  | watchdog disconnected =>
    simp only [Endpoint.feeds] at he
    split at he <;> cases he
    rfl
  | txLoop =>
    simp only [Endpoint.feeds, sentEvent] at he
    repeat' split at he
    all_goals cases he
    all_goals rfl
  | sendPacket | sendChar | recvPacket => cases he

theorem Handshaking.willing_step (h : Handshaking s) (ht : Eager s t) (x : Side) :
    Willing ((s.step t).ends x).link.fsm ∧
      ((s.ends x).link.fsm.linkStart = true → ((s.step t).ends x).link.fsm.linkStart = true) := by
  cases effect h.toAttuned ht.1 x with
  | none heq =>
    rw [heq]
    exact ⟨h.willing x, id⟩
  | acted hact he hb heq =>
    have hkeep := not_withdrawn h.toAttuned ht hact he
    rw [heq]
    exact ⟨(h.willing x).feed hkeep fun hd => hb.no_run_error (.inr (.inr hd)),
      fun hs => linkStart_feed hs hkeep⟩
  | @heard c rest e _ _ he hb heq =>
    have hkeep : withdraws e = false := by
      have hext := characterEvent_external he
      cases e <;> first | rfl | cases hext
    rw [heq]
    exact ⟨(h.willing x).feed hkeep fun hd => hb.no_run_error (.inr (.inr hd)),
      fun hs => linkStart_feed hs hkeep⟩

section endpoint

variable {p : Endpoint} {i : Input}

theorem kept_onlyNulls : Kept (fun l => l.onlyNulls = false) where
  feedFsm := by
    intro l e h
    rw [SpaceWireLink.feedFsm_onlyNulls]
    exact h
  frame := by
    intro l l' h hsame
    rw [hsame.onlyNulls]
    exact h
  read := fun _ h => h

theorem onlyNulls_step (h : p.link.onlyNulls = false) (i : Input) :
    (p.step i).link.onlyNulls = false := by
  apply kept_onlyNulls.step h i
  · intro _ _ l' c b hp
    generalize stateTx p.link.fsm.state = mode at hp
    cases hp <;> exact h
  · intro c e l l' _ _ _ _ hfed hh
    cases hh with
    | fct | nchar | discarded | other => exact hfed
    | overflow | unexpected => exact kept_onlyNulls.feedFsm _ hfed

theorem kept_promised (H : Prop) : Kept (fun l => l.fsm.state = .connecting →
    l.fctSentThisConnecting = true → FctSent l.fsm ∨ H) where
  feedFsm := by
    intro l e h hs hf
    rw [SpaceWireLink.feedFsm_fsm] at hs ⊢
    rw [SpaceWireLink.feedFsm_fctSentThisConnecting] at hf
    split at hf
    · cases hf
    · rename_i hnew
      have hold : l.fsm.state = .connecting := by_contra fun hne => hnew ⟨hs, hne⟩
      refine (h hold hf).imp_left fun hsent => .inl ⟨hs, ?_⟩
      have hlatch : l.fsm.sentFctInConnecting = true := by
        obtain ⟨-, hlatch⟩ | hrun := hsent
        · exact hlatch
        · rw [hold] at hrun
          cases hrun
      have hfeed := LinkFSM.feed_connecting (e := e) hold
      split at hfeed
      · simp [hfeed] at hs
      · split at hfeed
        · simp [hfeed] at hs
        · rw [hfeed, LinkFSM.updateFlags_sentFctInConnecting]
          exact .inl hlatch
  frame := by
    intro l l' h hsame
    rw [hsame.fsm, hsame.fctSent]
    exact h
  read := fun _ h => h

theorem fctHeld_iff {c : Character} {b : Bool} (h : (∃ bits, p.txLoop = .sending c b bits) ∨
    p.txLoop = .driven c b) : FctHeld p ↔ c.type = .fct := by
  obtain ⟨bits, htx⟩ | htx := h <;> simp [FctHeld, htx, TxLoop.underWay, justDriven]

theorem not_fctHeld (h : p.txLoop = .top ∨ p.txLoop = .parked) : ¬ FctHeld p := by
  obtain htx | htx := h <;> simp [FctHeld, htx, TxLoop.underWay, justDriven]

theorem promised_turn (h : FctPromised p) {p' : Endpoint} (ht : Turned p p')
    (hsent : ∀ c b, p.txLoop = .driven c b → c.type = .fct → FctSent p'.link.fsm) :
    FctPromised p' := by
  cases ht with
  | sleep => exact h
  | park htx | wake htx =>
    intro hs hf
    exact .inl ((h hs hf).resolve_right (not_fctHeld (by simp [htx])))
  | @pick link c b encoder bits htx hmode hp hc =>
    intro hs hf
    by_cases hfct : c.type = .fct
    · exact .inr ((fctHeld_iff (.inl ⟨bits, rfl⟩)).mpr hfct)
    · left
      dsimp only at hs hf ⊢
      generalize stateTx p.link.fsm.state = mode at hp
      cases hp with
      | null | nchar => exact (h hs hf).resolve_right (not_fctHeld (.inl htx))
      | handshake | uncredited | fct => exact absurd rfl hfct
  | @drive c b bits htx =>
    intro hs hf
    refine (h hs hf).imp_right fun hheld => ?_
    rw [fctHeld_iff (.inl ⟨bits, htx⟩)] at hheld
    exact (fctHeld_iff (.inr rfl)).mpr hheld
  | @done c b htx =>
    by_cases hfct : c.type = .fct
    · exact fun _ _ => .inl (hsent c b htx hfct)
    · intro hs hf
      have hkept := (kept_promised (FctHeld p)).charSent h c b hs hf
      exact .inl (hkept.resolve_right fun hheld => hfct ((fctHeld_iff (.inr htx)).mp hheld))

theorem promised_step (h : FctPromised p) (hi : i ≠ .act .txLoop)
    (htx : (p.step i).txLoop = p.txLoop) : FctPromised (p.step i) := by
  have hheld : FctHeld (p.step i) ↔ FctHeld p := by rw [FctHeld, htx, FctHeld]
  unfold FctPromised
  rw [hheld]
  apply (kept_promised (FctHeld p)).step h i
  · exact fun hact => absurd hact hi
  · intro c e l l' _ _ _ _ hfed hh
    cases hh with
    | fct | nchar | discarded | other => exact hfed
    | overflow | unexpected => exact (kept_promised (FctHeld p)).feedFsm _ hfed

end endpoint

theorem ends_cases (ht : FaultFree s t) (x : Side) : (s.step t).ends x = s.ends x ∨
    (∃ a, t = .act x a ∧ (s.step t).ends x = (s.ends x).act a) ∨
      ∃ c rest, t = .deliver x.peer ∧ s.line x.peer = c :: rest ∧
        (s.step t).ends x = (s.ends x).rxCharacter c := by
  cases t with
  | act y a =>
    obtain rfl | rfl := y.eq_or_eq_peer x
    · exact .inr (.inl ⟨a, rfl, by simp⟩)
    · exact .inl (by simp)
  | deliver y =>
    cases hline : s.line y with
    | nil => exact .inl (by simp only [System.step, hline])
    | cons c rest =>
      have hstep : s.step (.deliver y) = s.receive y c := by simp only [System.step, hline]
      rw [hstep]
      obtain rfl | rfl := y.eq_or_eq_peer x
      · exact .inl (by simp)
      · exact .inr (.inr ⟨c, rest, by simp, by simpa using hline, by simp⟩)
  | lose | noise => cases ht.2.1

theorem Handshaking.promised_step (h : Handshaking s) (ht : FaultFree s t) (x : Side) :
    FctPromised ((s.step t).ends x) := by
  obtain heq | ⟨a, rfl, heq⟩ | ⟨c, -, -, -, heq⟩ := ends_cases ht x
  · rw [heq]
    exact h.promised x
  · by_cases ha : a = .txLoop
    · subst ha
      have hclean := h.clean x
      have hb := feeds_benign (h.orderly x) ht.2.2
      rw [heq]
      apply promised_turn (h.promised x) (turned hclean)
      intro c b htx hfct
      have hcases := told_cases (act_told hclean .txLoop) (h.orderly x).settled hb
      have hfeeds : (s.ends x).feeds .txLoop = some .sentFct := by
        simp [Endpoint.feeds, htx, sentEvent, hfct]
      obtain ⟨hnone, -⟩ | ⟨e, he, hadv⟩ := hcases
      · rw [hfeeds] at hnone
        cases hnone
      · cases hfeeds.symm.trans he
        exact hadv.fctSent.mpr (.inr rfl)
    · rw [heq]
      exact FairHandshake.promised_step (i := .act a) (h.promised x) (by simpa using ha)
        (Traffic.act_txLoop ha).1
  · rw [heq]
    exact FairHandshake.promised_step (i := .character c) (h.promised x) (by simp) rfl

theorem Handshaking.step (h : Handshaking s) (ht : Eager s t) : Handshaking (s.step t) := by
  have hown (x : Side) : Attended ((s.step t).ends x) ∧ TimersInv ((s.step t).ends x).link ∧
      Unwedged ((s.step t).ends x).link ∧ ((s.step t).ends x).link.onlyNulls = false := by
    have hinput (i : Input) : Attended ((s.ends x).step i) ∧ TimersInv ((s.ends x).step i).link ∧
        Unwedged ((s.ends x).step i).link ∧ ((s.ends x).step i).link.onlyNulls = false := by
      refine ⟨(h.attended x).lifeStep (.input i), timersInv_run (h.timers x) [i],
        unwedged_step (h.timers x) (h.unwedged x) fun _ hs => ?_, onlyNulls_step (h.nulls x) i⟩
      apply (h.timers x).live_iff.mp
      apply h.unwedged x
      simp [timed, hs, (h.willing x).enabled]
    obtain heq | ⟨a, -, heq⟩ | ⟨c, -, -, -, heq⟩ := ends_cases ht.1 x
    · rw [heq]
      exact ⟨h.attended x, h.timers x, h.unwedged x, h.nulls x⟩
    · rw [heq]
      exact hinput (.act a)
    · rw [heq]
      exact hinput (.character c)
  obtain ⟨x, hx⟩ := h.starter
  exact { h.toAttuned.step ht.1 with
    attended := fun x => (hown x).1
    timers := fun x => (hown x).2.1
    unwedged := fun x => (hown x).2.2.1
    willing := fun x => (h.willing_step ht x).1
    starter := ⟨x, (h.willing_step ht x).2 hx⟩
    nulls := fun x => (hown x).2.2.2
    promised := h.promised_step ht.1 }

section rank

def rank (s : System) : ℕ := FairDelivery.total fun x => left (s.ends x).link.fsm

/-- Neither endpoint is nearer to Run, nor has one sent or heard more of the handshake. -/
def Held (s s' : System) : Prop := ∀ x, Stays (s.ends x).link.fsm (s'.ends x).link.fsm

theorem Effect.left (h : Attuned s) (he : Effect s t x) :
    left ((s.step t).ends x).link.fsm < left (s.ends x).link.fsm ∨
      Stays (s.ends x).link.fsm ((s.step t).ends x).link.fsm := by
  cases he with
  | none heq =>
    rw [heq]
    exact .inr (.refl _)
  | acted _ _ hb heq | heard _ _ _ hb heq =>
    rw [heq]
    exact advance_left (advance (h.orderly x).settled hb)

theorem Handshaking.progress (h : Handshaking s) (ht : Eager s t) :
    rank (s.step t) < rank s ∨ rank (s.step t) = rank s ∧ Held s (s.step t) := by
  have hside (x : Side) := (effect h.toAttuned ht.1 x).left h.toAttuned
  simp only [rank, FairDelivery.total]
  obtain ha | ha := hside .a <;> obtain hb | hb := hside .b
  · omega
  · have hkept := hb.left_eq
    omega
  · have hkept := ha.left_eq
    omega
  · right
    rw [ha.left_eq, hb.left_eq]
    exact ⟨rfl, fun x => by cases x <;> assumption⟩

/-- A step of the handshake at one side is a step of the whole. -/
theorem Handshaking.lower (h : Handshaking s) (ht : Eager s t)
    (hx : ¬ Stays (s.ends x).link.fsm ((s.step t).ends x).link.fsm) :
    rank (s.step t) < rank s :=
  (h.progress ht).resolve_right fun hheld => hx (hheld.2 x)

end rank

/-- The timers that are to expire: those of ErrorReset and of ErrorWait. -/
def Due (s : System) (x : Side) (task : TimerTask) : Prop :=
  ((s.ends x).link.fsm.state = .errorReset ∨ (s.ends x).link.fsm.state = .errorWait) ∧
    task ∈ (s.ends x).link.scheduledTimers ∧ task.gen = (s.ends x).link.timerGen

/-- What has to go on for the links to connect: the transmit coroutines take their turns,
characters arrive, and the two timers of the reset phase expire. -/
def asked (s : System) : Set Turn :=
  { t | ∃ x, t = .act x .txLoop ∨ t = .deliver x ∨
    ∃ task, t = .act x (.expire task) ∧ Due s x task }

section timers

variable {p : Endpoint} {task : TimerTask}

theorem chain_timers {l l' : SpaceWireLink} {cs : List Call} (h : Chain l cs l')
    (hlen : cs.length ≤ 1) (hs : l'.fsm.state = l.fsm.state) :
    l'.scheduledTimers = l.scheduledTimers ∧ l'.timerGen = l.timerGen := by
  cases h with
  | done hq => exact ⟨hq.timers, hq.timerGen⟩
  | @call _ _ c cs hq hlast =>
    obtain rfl : cs = [] := by simpa using hlen
    cases hlast with
    | done hq' =>
      simp only [Call.after] at hq'
      rw [hq'.fsm] at hs
      rw [hq'.timers, hq'.timerGen]
      cases rearmed c.link c.event with
      | kept _ hgen _ ht => exact ⟨ht.trans hq.timers, hgen.trans hq.timerGen⟩
      | stopped hne | armed hne => exact absurd (hs.trans (by rw [hq.fsm])) hne

theorem timer_act {a : Action} (hmem : task ∈ p.link.scheduledTimers)
    (hgen : task.gen = p.link.timerGen) (ha : a ≠ .expire task)
    (hs : (p.act a).link.fsm.state = p.link.fsm.state) :
    task ∈ (p.act a).link.scheduledTimers ∧ task.gen = (p.act a).link.timerGen := by
  have hcalling : (p.calling (.act a)).fsm = p.link.fsm ∧
      (p.calling (.act a)).timerGen = p.link.timerGen ∧
      task ∈ (p.calling (.act a)).scheduledTimers := by
    cases a with
    | expire task' =>
      exact ⟨rfl, rfl, (List.mem_erase_of_ne fun heq => ha (by rw [heq])).mpr hmem⟩
    | feed | watchdog | txLoop | sendPacket | sendChar | recvPacket => exact ⟨rfl, rfl, hmem⟩
  obtain ⟨hfsm, hcgen, hcmem⟩ := hcalling
  have hlen : (p.calls (.act a)).length ≤ 1 := by
    simp only [Endpoint.calls, List.length_map]
    cases p.feeds a <;> simp
  obtain ⟨htimers, hgen'⟩ := chain_timers (step_chain p (.act a)) hlen (by rw [hfsm]; exact hs)
  simp only [Endpoint.step] at htimers hgen'
  rw [htimers, hgen', hcgen]
  exact ⟨hcmem, hgen⟩

theorem timer_null (hmem : task ∈ p.link.scheduledTimers) (hgen : task.gen = p.link.timerGen)
    (hs : (p.rxCharacter Encoder.null).link.fsm.state = p.link.fsm.state) :
    task ∈ (p.rxCharacter Encoder.null).link.scheduledTimers ∧
      task.gen = (p.rxCharacter Encoder.null).link.timerGen := by
  obtain ⟨htimers, hgen'⟩ := chain_timers (step_chain p (.character Encoder.null)) (le_of_eq rfl) hs
  simp only [Endpoint.step] at htimers hgen'
  rw [htimers, hgen']
  exact ⟨hmem, hgen⟩

end timers

variable {r : ℕ} {K L : System → Prop}

theorem pending_leadsTo {a : Turn} (ha : ∀ s, K s → a ∈ asked s)
    (hkeep : ∀ s t, Handshaking s → Eager s t → Held s (s.step t) → t ≠ a → K s → K (s.step t))
    (hhelp : ∀ s, Handshaking s → Eager s a → K s → rank (s.step a) < rank s ∨ L (s.step a)) :
    LeadsTo System.step Eager asked (Pending Handshaking rank r K)
      fun s => Lowered Handshaking rank r s ∨ Pending Handshaking rank r L s := by
  apply Pending.leadsTo (H := fun _ => Held) (a := a)
  · exact fun s _ hk => ha s hk
  · exact fun s t hs ht => ⟨hs.step ht, hs.progress ht⟩
  · exact hkeep
  · exact hhelp

theorem lowered_leadsTo {P : System → Prop}
    (h : LeadsTo System.step Eager asked P fun s => Lowered Handshaking rank r s ∨
      Pending Handshaking rank r (fun _ => False) s) :
    LeadsTo System.step Eager asked P (Lowered Handshaking rank r) := by
  refine h.mono (fun _ h => h) ?_
  rintro s (h | ⟨-, -, h⟩)
  · exact h
  · exact h.elim

theorem hears_null (h : Attuned s) (ht : FaultFree s (.deliver x.peer)) {c : Character}
    {rest : List Character} (hline : s.line x.peer = c :: rest)
    (hx : (s.ends x).link.fsm.state.exchanging = false) : c = Encoder.null := by
  obtain ⟨hc, e, he, hb, -⟩ := hears h ht hline
  rw [Side.peer_peer] at hb
  obtain ⟨hgotFct, -⟩ := hb.no_fct hx
  cases hc with
  | null => rfl
  | fct =>
    cases he
    exact absurd rfl hgotFct
  | packet hp =>
    have hrun : e = .gotNChar → False := by
      rintro rfl
      cases hb with
      | external hext => cases hext
      | gotNChar hs => simp [hs, State.exchanging] at hx
    cases hp <;> exact (hrun (Option.some.inj he).symm).elim

theorem due_leadsTo (r : ℕ) (x : Side) (task : TimerTask) : LeadsTo System.step Eager asked
    (Pending Handshaking rank r fun s => Due s x task) (Lowered Handshaking rank r) := by
  apply lowered_leadsTo
  apply pending_leadsTo (a := .act x (.expire task))
  · exact fun s hk => ⟨x, .inr (.inr ⟨task, rfl, hk⟩)⟩
  · rintro s t hs ht hheld hne ⟨hstate, hmem, hgen⟩
    have hsame := (hheld x).state
    refine ⟨by rwa [hsame], ?_⟩
    obtain heq | ⟨a, rfl, heq⟩ | ⟨c, rest, rfl, hline, heq⟩ := ends_cases ht.1 x
    · rw [heq]
      exact ⟨hmem, hgen⟩
    · rw [heq] at hsame ⊢
      exact timer_act hmem hgen (fun ha => hne (by rw [ha])) hsame
    · have hearly : (s.ends x).link.fsm.state.exchanging = false := by
        obtain hstate | hstate := hstate <;> rw [hstate] <;> rfl
      obtain rfl := hears_null hs.toAttuned ht.1 hline hearly
      rw [heq] at hsame ⊢
      exact timer_null hmem hgen hsame
  · rintro s hs ht ⟨hstate, hmem, hgen⟩
    left
    apply hs.lower (x := x) ht
    intro hstays
    have hawaits := ((hs.timers x).current task ((hs.timers x).own task hmem hgen)).2
    have hfsm : ((s.step (.act x (.expire task))).ends x).link.fsm =
        (s.ends x).link.fsm.feed task.event := by
      simp [Endpoint.act, hmem, SpaceWireLink.runTimer, hgen]
    have hs' := hstays.state
    rw [hfsm] at hs'
    have hdisabled := (tick_changes hawaits hs').2
    rw [(hs.willing x).enabled] at hdisabled
    cases hdisabled

section send

variable {w : CharType}

def Unsent (f : LinkFSM) (w : CharType) : Prop :=
  w = .null ∧ f.state = .started ∧ ¬ NullSent f ∨ w = .fct ∧ f.state = .connecting ∧ ¬ FctSent f

def turnsTo (w : CharType) : TxLoop → ℕ
  | .driven c _ => if c.type = w then 0 else 4
  | .sending c _ _ => if c.type = w then 1 else 5
  | .top => 2
  | .parked => 3
  | .dead => 0

theorem Unsent.stays {f f' : LinkFSM} (h : Unsent f w) (hs : Stays f f') : Unsent f' w := by
  unfold Unsent at h ⊢
  rwa [hs.state, hs.nullSent, hs.fctSent]

theorem Unsent.transmits {f : LinkFSM} (h : Unsent f w) : stateTx f.state ≠ .reset := by
  obtain ⟨-, hs, -⟩ | ⟨-, hs, -⟩ := h <;> rw [hs] <;> nofun

theorem picks_unsent {p : Endpoint} {l' : SpaceWireLink} {c : Character} {b : Bool}
    (htop : p.txLoop = .top) (hnulls : p.link.onlyNulls = false) (hprom : FctPromised p)
    (hu : Unsent p.link.fsm w) (hp : p.link.Picked (stateTx p.link.fsm.state) l' c b) :
    c.type = w := by
  obtain ⟨rfl, hs, -⟩ | ⟨rfl, hs, hunsent⟩ := hu <;> rw [hs] at hp
  · cases hp
    rfl
  · cases hp with
    | handshake | uncredited => rfl
    | null hno =>
      have hflag : p.link.fctSentThisConnecting = true := by
        simpa [SpaceWireLink.picksFct, stateTx, hnulls] using hno
      obtain hsent | hheld := hprom hs hflag
      · exact absurd hsent hunsent
      · exact absurd hheld (not_fctHeld (.inl htop))

theorem turnsTo_lt {p : Endpoint} (hclean : Clean p) (hatt : Attended p)
    (hnulls : p.link.onlyNulls = false) (hprom : FctPromised p) (hu : Unsent p.link.fsm w)
    (hreport : ∀ c b, p.txLoop = .driven c b → c.type ≠ w) :
    turnsTo w p.stepTxLoop.txLoop < turnsTo w p.txLoop := by
  have hturned := turned hclean
  cases htx : p.txLoop with
  | parked =>
    have hwake : p.link.txWakeup = true := by
      by_contra hclear
      exact hu.transmits (hatt htx (by simpa using hclear))
    simp [Endpoint.stepTxLoop, htx, hwake, turnsTo]
  | dead => exact absurd htx hclean.alive
  | top =>
    generalize p.stepTxLoop = p' at hturned
    cases hturned with
    | pick _ _ hp => simp [turnsTo, picks_unsent htx hnulls hprom hu hp]
    | park _ hmode => exact absurd hmode hu.transmits
    | sleep h | wake h | drive h | done h =>
      rw [htx] at h
      cases h
  | sending c b bits =>
    simp only [Endpoint.stepTxLoop, htx, turnsTo]
    split <;> omega
  | driven c b => simp [Endpoint.stepTxLoop, htx, turnsTo, hreport c b htx]

theorem report_changes {c : Character} {b : Bool} (h : Attuned s)
    (ht : FaultFree s (.act x .txLoop)) (hu : Unsent (s.ends x).link.fsm w)
    (htx : (s.ends x).txLoop = .driven c b) (hc : c.type = w) :
    ¬ Stays (s.ends x).link.fsm ((s.step (.act x .txLoop)).ends x).link.fsm := by
  intro hstays
  have hfeeds : (s.ends x).feeds .txLoop = sentEvent c := by simp [Endpoint.feeds, htx]
  have hcases := told_cases (act_told (h.clean x) .txLoop) (h.orderly x).settled
    (feeds_benign (h.orderly x) ht.2.2)
  rw [hfeeds] at hcases
  rw [System.step_act_ends] at hstays
  obtain ⟨rfl, hs, hunsent⟩ | ⟨rfl, hs, hunsent⟩ := hu
  · obtain ⟨hnone, -⟩ | ⟨e, he, hadv⟩ := hcases
    · simp [sentEvent, hc] at hnone
    · obtain rfl : .sentNull = e := by simpa [sentEvent, hc] using he
      exact hunsent (hstays.nullSent.mp (hadv.nullSent.mpr (.inr ⟨rfl, hs⟩)))
  · obtain ⟨hnone, -⟩ | ⟨e, he, hadv⟩ := hcases
    · simp [sentEvent, hc] at hnone
    · obtain rfl : .sentFct = e := by simpa [sentEvent, hc] using he
      exact hunsent (hstays.fctSent.mp (hadv.fctSent.mpr (.inr rfl)))

theorem send_leadsTo (r : ℕ) (x : Side) (w : CharType) : LeadsTo System.step Eager asked
    (Pending Handshaking rank r fun s => Unsent (s.ends x).link.fsm w)
    (Lowered Handshaking rank r) := by
  apply LeadsTo.of_rank fun s => turnsTo w (s.ends x).txLoop
  intro n
  have hturn := pending_leadsTo (r := r) (a := .act x .txLoop)
    (K := fun s => Unsent (s.ends x).link.fsm w ∧ turnsTo w (s.ends x).txLoop = n)
    (L := fun s => Unsent (s.ends x).link.fsm w ∧ turnsTo w (s.ends x).txLoop < n)
  refine (hturn (fun _ _ => ⟨x, .inl rfl⟩) (fun s t hs ht hheld hne hk => ?_)
    fun s hs ht hk => ?_).mono ?_ ?_
  · have htx : ((s.step t).ends x).txLoop = (s.ends x).txLoop := by
      obtain heq | ⟨a, rfl, heq⟩ | ⟨c, rest, rfl, -, heq⟩ := ends_cases ht.1 x
      · rw [heq]
      · rw [heq]
        exact (Traffic.act_txLoop fun ha => hne (by rw [ha])).1
      · rw [heq]
        rfl
    rw [htx]
    exact ⟨hk.1.stays (hheld x), hk.2⟩
  · obtain hlower | ⟨-, hheld⟩ := hs.progress ht
    · exact .inl hlower
    · have hlt := turnsTo_lt (hs.clean x) (hs.attended x) (hs.nulls x) (hs.promised x) hk.1
        fun c b htx hc => report_changes hs.toAttuned ht.1 hk.1 htx hc (hheld x)
      refine .inr ⟨hk.1.stays (hheld x), ?_⟩
      rw [System.step_act_ends]
      rwa [hk.2] at hlt
  · rintro s ⟨⟨hs, hr, hu⟩, hn⟩
    exact ⟨hs, hr, hu, hn⟩
  · rintro s (h | ⟨hs, hr, hu, hn⟩)
    · exact .inl h
    · exact .inr ⟨⟨hs, hr, hu⟩, hn⟩

end send

section hear

variable {w : CharType}

def Unheard (f : LinkFSM) (w : CharType) : Prop :=
  w = .null ∧ f.gotNullLatched = false ∨ w = .fct ∧ f.gotFctInConnecting = false

theorem Unheard.stays {f f' : LinkFSM} (h : Unheard f w) (hs : Stays f f') : Unheard f' w := by
  unfold Unheard at h ⊢
  rwa [hs.gotNull, hs.gotFct]

def place (s : System) (x : Side) (w : CharType) : ℕ := (s.line x).findIdx fun c => c.type = w

def OnLine (s : System) (x : Side) (w : CharType) : Prop := ∃ c ∈ s.line x, c.type = w

theorem onLine_kept (ht : FaultFree s t) (hne : t ≠ .deliver x) (h : OnLine s x w) :
    OnLine (s.step t) x w ∧ place (s.step t) x w = place s x w := by
  have hline : ∃ cs, (s.step t).line x = s.line x ++ cs := by
    cases t with
    | act y a =>
      obtain rfl | rfl := y.eq_or_eq_peer x
      · exact ⟨_, System.step_act_line ..⟩
      · exact ⟨[], by simp⟩
    | deliver y =>
      obtain rfl | rfl := y.eq_or_eq_peer x
      · exact absurd rfl hne
      · refine ⟨[], ?_⟩
        simp only [System.step]
        split <;> simp
    | lose | noise => cases ht.2.1
  obtain ⟨cs, hcs⟩ := hline
  obtain ⟨c, hmem, hc⟩ := h
  refine ⟨⟨c, by simp [hcs, hmem], hc⟩, ?_⟩
  have hlt : (s.line x).findIdx (fun c => c.type = w) < (s.line x).length :=
    List.findIdx_lt_length_of_exists ⟨c, hmem, by simpa using hc⟩
  simp only [place, hcs, List.findIdx_append, if_pos hlt]

theorem hear_changes {c : Character} {rest : List Character} (h : Attuned s)
    (ht : FaultFree s (.deliver x)) (hline : s.line x = c :: rest)
    (hu : Unheard (s.ends x.peer).link.fsm w) (hc : c.type = w) :
    ¬ Stays (s.ends x.peer).link.fsm ((s.step (.deliver x)).ends x.peer).link.fsm := by
  intro hstays
  obtain ⟨-, e, he, hb, hfsm⟩ := hears h ht hline
  have hadv := advance (h.orderly x.peer).settled hb
  rw [← hfsm] at hadv
  simp only [System.step, hline, System.receive_ends_peer] at hstays
  obtain ⟨rfl, hunheard⟩ | ⟨rfl, hunheard⟩ := hu
  · rw [hc] at he
    have hgot := hadv.gotNull.mpr (.inr (Option.some.inj he).symm)
    rw [hstays.gotNull, hunheard] at hgot
    cases hgot
  · rw [hc] at he
    have hgot := hadv.gotFct.mpr (.inr (Option.some.inj he).symm)
    rw [hstays.gotFct, hunheard] at hgot
    cases hgot

theorem hear_leadsTo (r : ℕ) (x : Side) (w : CharType) : LeadsTo System.step Eager asked
    (Pending Handshaking rank r fun s => OnLine s x w ∧ Unheard (s.ends x.peer).link.fsm w)
    (Lowered Handshaking rank r) := by
  apply LeadsTo.of_rank fun s => place s x w
  intro n
  have hturn := pending_leadsTo (r := r) (a := .deliver x)
    (K := fun s => (OnLine s x w ∧ Unheard (s.ends x.peer).link.fsm w) ∧ place s x w = n)
    (L := fun s => (OnLine s x w ∧ Unheard (s.ends x.peer).link.fsm w) ∧ place s x w < n)
  refine (hturn (fun _ _ => ⟨x, .inr (.inl rfl)⟩) (fun s t hs ht hheld hne hk => ?_)
    fun s hs ht hk => ?_).mono ?_ ?_
  · obtain ⟨honline, hplace⟩ := onLine_kept ht.1 hne hk.1.1
    exact ⟨⟨honline, hk.1.2.stays (hheld x.peer)⟩, hplace.trans hk.2⟩
  · obtain hlower | ⟨-, hheld⟩ := hs.progress ht
    · exact .inl hlower
    · obtain ⟨⟨⟨c, hmem, hc⟩, hu⟩, hn⟩ := hk
      cases hline : s.line x with
      | nil => simp [hline] at hmem
      | cons d rest =>
        have hd : d.type ≠ w := fun hd => hear_changes hs.toAttuned ht.1 hline hu hd (hheld x.peer)
        have hrest : (s.step (.deliver x)).line x = rest := by
          simp [System.step, hline]
        have hmem' : c ∈ rest := by
          rw [hline, List.mem_cons] at hmem
          exact hmem.resolve_left fun heq => hd (heq ▸ hc)
        refine .inr ⟨⟨⟨c, by rwa [hrest], hc⟩, hu.stays (hheld x.peer)⟩, ?_⟩
        rw [place, hline, List.findIdx_cons] at hn
        rw [place, hrest]
        simp [hd] at hn
        omega
  · rintro s ⟨⟨hs, hr, hu⟩, hn⟩
    exact ⟨hs, hr, hu, hn⟩
  · rintro s (h | ⟨hs, hr, hu, hn⟩)
    · exact .inl h
    · exact .inr ⟨⟨hs, hr, hu⟩, hn⟩

end hear

theorem Handshaking.due (h : Handshaking s) (hs : (s.ends x).link.fsm.state = .errorReset ∨
    (s.ends x).link.fsm.state = .errorWait) : ∃ task, Due s x task := by
  have htimed : timed (s.ends x).link.fsm = true := by
    obtain hs | hs := hs <;> simp [timed, hs, (h.willing x).enabled]
  obtain ⟨task, hmem, hgen, -⟩ := h.unwedged x htimed
  exact ⟨task, hs, hmem, hgen⟩

theorem Willing.not_ready {f : LinkFSM} (h : Willing f)
    (hstart : f.linkStart = true ∨ f.gotNullLatched = true) : f.state ≠ .ready := by
  intro hs
  have hidle := h.ready hs
  obtain hstart | hgot := hstart
  · simp [LinkFSM.linkEnabled, h.enabled, hstart] at hidle
  · obtain hl | ha := h.start
    · simp [LinkFSM.linkEnabled, h.enabled, hl] at hidle
    · simp [LinkFSM.linkEnabled, h.enabled, ha, hgot] at hidle

theorem Handshaking.null_heard (h : Handshaking s) (hsent : NullSent (s.ends x).link.fsm)
    (hline : ¬ (OnLine s x .null ∧ Unheard (s.ends x.peer).link.fsm .null)) :
    (s.ends x.peer).link.fsm.gotNullLatched = true := by
  have hsync := h.sync x
  by_contra hgot
  rw [Bool.not_eq_true] at hgot
  obtain hne | hheard := hsync.null.mpr (.inl hsent)
  · obtain ⟨c, rest, hcons⟩ := List.exists_cons_of_ne_nil hne
    have hnull := hsync.first hgot c (by simp [hcons])
    exact hline ⟨⟨c, by simp [hcons], hnull⟩, .inl ⟨rfl, hgot⟩⟩
  · rw [hgot] at hheard
    cases hheard

theorem Handshaking.fct_heard (h : Handshaking s) (hsent : FctSent (s.ends x).link.fsm)
    (hline : ¬ (OnLine s x .fct ∧ Unheard (s.ends x.peer).link.fsm .fct)) :
    (s.ends x.peer).link.fsm.gotFctInConnecting = true := by
  by_contra hgot
  rw [Bool.not_eq_true] at hgot
  obtain honline | hheard := (h.sync x).fct.mpr (.inl hsent)
  · exact hline ⟨honline, .inr ⟨rfl, hgot⟩⟩
  · rw [hgot] at hheard
    cases hheard

/-- Until both links are in Run, one of the turns that are asked for is a step of the handshake, or
leads to one. -/
theorem Handshaking.helpful (h : Handshaking s)
    (hrun : ¬ ∀ x, (s.ends x).link.fsm.state = .run) :
    (∃ x task, Due s x task) ∨ (∃ x w, Unsent (s.ends x).link.fsm w) ∨
      ∃ x w, OnLine s x w ∧ Unheard (s.ends x.peer).link.fsm w := by
  by_contra hnone
  simp only [not_or, not_exists] at hnone
  obtain ⟨hdue, hsent, hheard⟩ := hnone
  apply hrun
  have hlate (x : Side) : (s.ends x).link.fsm.state ≠ .errorReset ∧
      (s.ends x).link.fsm.state ≠ .errorWait := by
    constructor <;> intro hs
    · obtain ⟨task, htask⟩ := h.due (.inl hs)
      exact hdue x task htask
    · obtain ⟨task, htask⟩ := h.due (.inr hs)
      exact hdue x task htask
  have hnull (x : Side) (hready : (s.ends x).link.fsm.state ≠ .ready) :
      NullSent (s.ends x).link.fsm := by
    by_contra hunsent
    cases hs : (s.ends x).link.fsm.state with
    | errorReset => exact (hlate x).1 hs
    | errorWait => exact (hlate x).2 hs
    | ready => exact hready hs
    | started => exact hsent x .null (.inl ⟨rfl, hs, hunsent⟩)
    | connecting | run => exact hunsent (.inr (by rw [hs]; rfl))
  have hgotNull (x : Side) (hready : (s.ends x).link.fsm.state ≠ .ready) :
      (s.ends x.peer).link.fsm.gotNullLatched = true :=
    h.null_heard (hnull x hready) (hheard x .null)
  -- The peer of the link that starts by itself starts when it hears it.
  obtain ⟨x₀, hx₀⟩ := h.starter
  have hstarter := (h.willing x₀).not_ready (.inl hx₀)
  have hready : ∀ x, (s.ends x).link.fsm.state ≠ .ready :=
    (Side.forall_iff x₀).mpr ⟨hstarter, (h.willing x₀.peer).not_ready (.inr (hgotNull x₀ hstarter))⟩
  have hgot (x : Side) : (s.ends x).link.fsm.gotNullLatched = true := by
    have hpeer := hgotNull x.peer (hready x.peer)
    rwa [Side.peer_peer] at hpeer
  have hfct (x : Side) : FctSent (s.ends x).link.fsm := by
    by_contra hunsent
    cases hs : (s.ends x).link.fsm.state with
    | errorReset => exact (hlate x).1 hs
    | errorWait => exact (hlate x).2 hs
    | ready => exact hready x hs
    | started =>
      obtain ⟨-, hn⟩ | hx := hnull x (hready x)
      · have hclear := (h.orderly x).settled.started hs hn
        rw [hgot x] at hclear
        cases hclear
      · rw [hs] at hx
        cases hx
    | connecting => exact hsent x .fct (.inr ⟨rfl, hs, hunsent⟩)
    | run => exact hunsent (.inr hs)
  intro x
  obtain ⟨hs, hf⟩ | hs := hfct x
  · have hclear := (h.orderly x).settled.connecting hs hf
    have hpeer := h.fct_heard (hfct x.peer) (hheard x.peer .fct)
    rw [Side.peer_peer, hclear] at hpeer
    cases hpeer
  · exact hs

/-- Whatever the order of the turns, both links come to Run. -/
theorem handshaking_leadsTo : LeadsTo System.step Eager asked Handshaking
    fun s => Handshaking s ∧ ∀ x, (s.ends x).link.fsm.state = .run := by
  apply LeadsTo.of_pending rank
  intro s sched hp hfair hs hrun
  obtain ⟨x, task, hk⟩ | ⟨x, w, hk⟩ | ⟨x, w, hk⟩ := hs.helpful hrun
  · exact due_leadsTo _ x task s sched hp hfair ⟨hs, rfl, hk⟩
  · exact send_leadsTo _ x w s sched hp hfair ⟨hs, rfl, hk⟩
  · exact hear_leadsTo _ x w s sched hp hfair ⟨hs, rfl, hk⟩

section start

theorem start_flags {cfg : LinkConfig} {p : Endpoint} (h : Endpoint.start cfg = .ok p) :
    p.link.fsm.linkStart = cfg.linkStart ∧ p.link.fsm.autoStart = cfg.autoStart := by
  unfold Endpoint.start at h
  cases hl : SpaceWireLink.new cfg with
  | error err => simp [hl] at h
  | ok l =>
    obtain ⟨-, -, hfsm, -⟩ := new_ok hl
    have hpending : l.pendingLinkStart = cfg.linkStart ∧ l.pendingAutoStart = cfg.autoStart := by
      unfold SpaceWireLink.new at hl
      dsimp only at hl
      split at hl <;> cases hl
      exact ⟨rfl, rfl⟩
    simp only [hl, SpaceWireLink.start] at h
    split at h
    · cases h
    · rename_i l' hl'
      cases h
      split at hl'
      · cases hl'
      · cases hl'
        have htold (l : SpaceWireLink) (e : Event) (hs : l.fsm.state = .errorReset)
            (he : e ≠ .tick6p4us) : l.feedFsm e = { l with fsm := l.fsm.updateFlags e } := by
          have hfeed : l.fsm.feed e = l.fsm.updateFlags e := by
            rw [LinkFSM.feed_errorReset hs, if_neg (by simp [he])]
          simp [SpaceWireLink.feedFsm, LinkFSM.output, hfeed]
        cases ha : cfg.autoStart <;> cases hs : cfg.linkStart <;>
          simp [SpaceWireLink.startTimer, hpending, ha, hs, hfsm, htold, LinkFSM.updateFlags]

theorem start_onlyNulls {cfg : LinkConfig} {p : Endpoint} (h : Endpoint.start cfg = .ok p) :
    p.link.onlyNulls = cfg.onlyNulls :=
  (start_cases (Q := fun l => l.onlyNulls = cfg.onlyNulls)
    (fun l hl => by simpa [SpaceWireLink.startTimer] using Burst.new_onlyNulls hl)
    (fun l e _ hl => (SpaceWireLink.feedFsm_onlyNulls ..).trans hl) h).1

theorem handshaking_start {cfg : Side → LinkConfig} (h : System.start cfg = .ok s)
    (hmax : ∀ x, 8 ≤ (s.ends x).link.credit.maxRxCredit)
    (hwill : ∀ x, (cfg x).linkStart = true ∨ (cfg x).autoStart = true)
    (hstarter : ∃ x, (cfg x).linkStart = true) (hnulls : ∀ x, (cfg x).onlyNulls = false) :
    Handshaking s := by
  obtain ⟨hends, -⟩ := start_ends h
  have hfresh (x : Side) := fresh_start (hends x)
  obtain ⟨x₀, hx₀⟩ := hstarter
  exact { attuned_of_agreed (agreed_start h hmax) with
    attended := fun x hparked => by
      rw [(hfresh x).txLoop] at hparked
      cases hparked
    timers := fun x => (ticksInv_start (hends x)).timers
    unwedged := fun x => unwedged_start (hends x)
    willing := fun x => by
      obtain ⟨hlink, hauto⟩ := start_flags (hends x)
      refine ⟨(hfresh x).enabled, by rw [hlink, hauto]; exact hwill x, fun hs => ?_⟩
      rw [(hfresh x).state] at hs
      cases hs
    starter := ⟨x₀, by rw [(start_flags (hends x₀)).1, hx₀]⟩
    nulls := fun x => (start_onlyNulls (hends x)).trans (hnulls x)
    promised := fun x hs => by
      rw [(hfresh x).state] at hs
      cases hs }

theorem Handshaking.run_step (h : Handshaking s) (ht : Eager s t)
    (hrun : ∀ x, (s.ends x).link.fsm.state = .run) (x : Side) :
    ((s.step t).ends x).link.fsm.state = .run := by
  cases effect h.toAttuned ht.1 x with
  | none heq => rw [heq, hrun x]
  | acted _ _ hb heq | heard _ _ _ hb heq =>
    rw [heq]
    exact (advance (h.orderly x).settled hb).running (hrun x)

/-- Both links are in Run, and neither has been dropped on the way from `s₀`. -/
structure Completed (s₀ s : System) : Prop where
  handshaking : Handshaking s
  running : ∀ x, (s.ends x).link.fsm.state = .run
  keeps : Keeps s₀ s

theorem Handshaking.completes {s₀ : System} (h : Handshaking s₀) {sched : ℕ → Turn}
    (heager : Permitted System.step Eager s₀ sched) (hfair : Fair System.step asked s₀ sched) :
    ∃ n, ∀ m, n ≤ m → Completed s₀ (visit System.step s₀ sched m) := by
  have hkeeps : ∀ n, Handshaking (visit System.step s₀ sched n) ∧
      Keeps s₀ (visit System.step s₀ sched n) :=
    visit_keeps (P := fun s => Handshaking s ∧ Keeps s₀ s) (fun s t hs ht => ⟨hs.1.step ht,
      fun x => (hs.1.toAttuned.keeps ht.1 x).trans (hs.2 x)⟩) heager ⟨h, fun _ => rfl⟩
  obtain ⟨n, hn⟩ := handshaking_leadsTo s₀ sched heager hfair h
  refine ⟨n, fun m hm => ?_⟩
  obtain ⟨k, rfl⟩ := Nat.exists_eq_add_of_le hm
  have hrun : ∀ x, ((visit System.step s₀ sched (n + k)).ends x).link.fsm.state = .run := by
    rw [visit_add]
    exact (visit_keeps (P := fun s => Handshaking s ∧ ∀ x, (s.ends x).link.fsm.state = .run)
      (fun s t hs ht => ⟨hs.1.step ht, hs.1.run_step ht hs.2⟩) (heager.drop n) hn k).2
  exact ⟨(hkeeps _).1, hrun, (hkeeps _).2⟩

/-- Two links connect: in every endless schedule without a fault in which both transmit coroutines
and both lines get their turns again and again and the timers of ErrorReset and ErrorWait expire,
both come to Run and stay there, without a single re-entry to ErrorReset. One of them has to start
by itself, the other may wait for its NULL. -/
theorem handshake_completes {cfg : Side → LinkConfig} (h : System.start cfg = .ok s)
    (hmax : ∀ x, 8 ≤ (s.ends x).link.credit.maxRxCredit)
    (hwill : ∀ x, (cfg x).linkStart = true ∨ (cfg x).autoStart = true)
    (hstarter : ∃ x, (cfg x).linkStart = true) (hnulls : ∀ x, (cfg x).onlyNulls = false)
    (sched : ℕ → Turn) (heager : Permitted System.step Eager s sched)
    (hfair : Fair System.step asked s sched) :
    ∃ n, ∀ m, n ≤ m → ∀ x, ((visit System.step s sched m).ends x).link.fsm.state = .run ∧
      ((visit System.step s sched m).ends x).link.errorResetCount = 0 := by
  obtain ⟨n, hn⟩ := (handshaking_start h hmax hwill hstarter hnulls).completes heager hfair
  obtain ⟨-, hundropped⟩ := healthy_start h hmax
  exact ⟨n, fun m hm x => ⟨(hn m hm).running x, ((hn m hm).keeps x).trans (hundropped x)⟩⟩

/-- Both links leave ErrorReset and ErrorWait, by the timers of these generations, and a packet is
sent; then, again and again, each transmit coroutine takes the three turns of one character, and
each side receives a character and reads one. -/
def connectSchedule (gen : Side → ℕ) : ℕ → Turn
  | 0 => .act .a (.expire ⟨tick6p4Ns, .tick6p4us, gen .a⟩)
  | 1 => .act .b (.expire ⟨tick6p4Ns, .tick6p4us, gen .b⟩)
  | 2 => .act .a (.expire ⟨tick12p8Ns, .tick12p8us, gen .a + 2⟩)
  | 3 => .act .b (.expire ⟨tick12p8Ns, .tick12p8us, gen .b + 2⟩)
  | 4 => .act .a (.sendPacket [1, 2] "EOP")
  | n + 5 =>
    if n % 10 < 3 then .act .a .txLoop
    else if n % 10 < 6 then .act .b .txLoop
    else if n % 10 = 6 then .deliver .a
    else if n % 10 = 7 then .deliver .b
    else if n % 10 = 8 then .act .a .recvPacket
    else .act .b .recvPacket

def phase : TxLoop → ℕ
  | .top => 0
  | .sending _ _ _ => 1
  | .driven _ _ => 2
  | .parked | .dead => 3

theorem phase_turn {p : Endpoint} (hclean : Clean p) (hmode : stateTx p.link.fsm.state ≠ .reset)
    (h : phase p.txLoop < 3) : phase p.stepTxLoop.txLoop = (phase p.txLoop + 1) % 3 := by
  have hturned := turned hclean
  cases htx : p.txLoop with
  | top =>
    generalize p.stepTxLoop = p' at hturned
    cases hturned with
    | pick => rfl
    | park _ hreset => exact absurd hreset hmode
    | sleep h | wake h | drive h | done h =>
      rw [htx] at h
      cases h
  | sending c b bits => simp [Endpoint.stepTxLoop, htx, phase]
  | driven c b => simp [Endpoint.stepTxLoop, htx, phase]
  | parked | dead => simp [htx, phase] at h

/-- Where the coroutines stand when the schedule has come to this place in its period. -/
structure InPeriod (n : ℕ) (s : System) : Prop extends Handshaking s where
  transmits : ∀ x, stateTx (s.ends x).link.fsm.state ≠ .reset
  phaseA : phase (s.ends .a).txLoop = if n % 10 < 3 then n % 10 else 0
  phaseB : phase (s.ends .b).txLoop = if 3 ≤ n % 10 ∧ n % 10 < 6 then n % 10 - 3 else 0

theorem driven_phase {l : TxLoop} (h : justDriven l ≠ []) : phase l = 2 := by
  cases l with
  | driven => rfl
  | top | parked | sending | dead => exact absurd rfl h

theorem eager_txLoop {y : Side} (h : phase (s.ends y.peer).txLoop ≠ 2) :
    Eager s (.act y .txLoop) := by
  refine ⟨⟨(Side.forall_iff y).mpr ⟨fun _ => rfl, fun hne => absurd (driven_phase hne) h⟩, rfl,
    fun e he => ?_⟩, by simp⟩
  simp only [Endpoint.feeds, sentEvent] at he
  repeat' split at he
  all_goals cases he
  all_goals simp [Harmless]

theorem eager_deliver {y : Side} (h : ∀ x, phase (s.ends x).txLoop ≠ 2) : Eager s (.deliver y) :=
  ⟨⟨fun x hne => absurd (driven_phase hne) (h x), rfl, trivial⟩, nofun⟩

theorem eager_recv {y : Side} (h : ∀ x, phase (s.ends x).txLoop ≠ 2) :
    Eager s (.act y .recvPacket) :=
  ⟨⟨fun x hne => absurd (driven_phase hne) (h x), rfl, nofun⟩, nofun⟩

theorem deliver_txLoop (s : System) (x y : Side) :
    ((s.step (.deliver y)).ends x).txLoop = (s.ends x).txLoop := by
  simp only [System.step]
  split
  · rfl
  · obtain rfl | rfl := y.eq_or_eq_peer x
    · rw [System.receive_ends]
    · rw [System.receive_ends_peer]
      rfl

theorem recv_txLoop (s : System) (x y : Side) :
    ((s.step (.act y .recvPacket)).ends x).txLoop = (s.ends x).txLoop := by
  obtain rfl | rfl := y.eq_or_eq_peer x
  · rw [System.step_act_ends]
    exact (Traffic.act_txLoop (by simp)).1
  · rw [System.step_act_ends_peer]

theorem Handshaking.transmits_step (h : Handshaking s) (ht : Eager s t)
    (hx : stateTx (s.ends x).link.fsm.state ≠ .reset) :
    stateTx ((s.step t).ends x).link.fsm.state ≠ .reset := by
  cases effect h.toAttuned ht.1 x with
  | none heq => rwa [heq]
  | acted _ _ hb heq | heard _ _ _ hb heq =>
    rw [heq]
    exact (advance (h.orderly x).settled hb).transmits hx

variable {gen : Side → ℕ}

theorem InPeriod.next {n : ℕ} (h : InPeriod n s) : Eager s (connectSchedule gen (n + 5)) ∧
    InPeriod (n + 1) (s.step (connectSchedule gen (n + 5))) := by
  have hA := h.phaseA
  have hB := h.phaseB
  have hturnA := phase_turn (h.clean .a) (h.transmits .a)
  have hturnB := phase_turn (h.clean .b) (h.transmits .b)
  have hnext (t : Turn) (ht : Eager s t)
      (hA' : phase ((s.step t).ends .a).txLoop = if (n + 1) % 10 < 3 then (n + 1) % 10 else 0)
      (hB' : phase ((s.step t).ends .b).txLoop =
        if 3 ≤ (n + 1) % 10 ∧ (n + 1) % 10 < 6 then (n + 1) % 10 - 3 else 0) :
      Eager s t ∧ InPeriod (n + 1) (s.step t) :=
    ⟨ht, { h.toHandshaking.step ht with
      transmits := fun x => h.toHandshaking.transmits_step ht (h.transmits x)
      phaseA := hA'
      phaseB := hB' }⟩
  simp only [connectSchedule]
  split
  · have hother : phase (s.ends .b).txLoop = 0 := by rw [hB, if_neg (by omega)]
    have hkept : (s.step (.act .a .txLoop)).ends .b = s.ends .b :=
      System.step_act_ends_peer s .a .txLoop
    apply hnext _ (eager_txLoop (by rw [Side.peer, hother]; decide))
    · rw [System.step_act_ends, Endpoint.act, hturnA (by rw [hA]; split <;> omega), hA]
      split <;> split <;> omega
    · rw [hkept, hother]
      split <;> omega
  · split
    · have hother : phase (s.ends .a).txLoop = 0 := by rw [hA, if_neg (by omega)]
      have hkept : (s.step (.act .b .txLoop)).ends .a = s.ends .a :=
        System.step_act_ends_peer s .b .txLoop
      apply hnext _ (eager_txLoop (by rw [Side.peer, hother]; decide))
      · rw [hkept, hother]
        split <;> omega
      · rw [System.step_act_ends, Endpoint.act, hturnB (by rw [hB]; split <;> omega), hB]
        split <;> split <;> omega
    · -- The other turns are taken while both coroutines are at the top of their loops.
      have hidle : phase (s.ends .a).txLoop = 0 ∧ phase (s.ends .b).txLoop = 0 := by
        rw [hA, hB, if_neg (by omega), if_neg (by omega)]
        exact ⟨rfl, rfl⟩
      have hrest : ∀ x, phase (s.ends x).txLoop ≠ 2 := fun x => by cases x <;> simp [hidle]
      have hdeliver (y : Side) := hnext (.deliver y) (eager_deliver hrest)
        (by rw [deliver_txLoop, hidle.1]; split <;> omega)
        (by rw [deliver_txLoop, hidle.2]; split <;> omega)
      have hrecv (y : Side) := hnext (.act y .recvPacket) (eager_recv hrest)
        (by rw [recv_txLoop, hidle.1]; split <;> omega)
        (by rw [recv_txLoop, hidle.2]; split <;> omega)
      repeat' split
      · exact hdeliver .a
      · exact hdeliver .b
      · exact hrecv .a
      · exact hrecv .b

theorem connectSchedule_permitted (h : Handshaking s)
    (hfirst : ∀ n < 5,
      FaultFree (visit System.step s (connectSchedule gen) n) (connectSchedule gen n))
    (hstart : ∀ x,
      ((visit System.step s (connectSchedule gen) 5).ends x).link.fsm.state = .started ∧
        ((visit System.step s (connectSchedule gen) 5).ends x).txLoop = .top) :
    Permitted System.step Eager s (connectSchedule gen) ∧
      ∀ n, InPeriod n (visit System.step s (connectSchedule gen) (n + 5)) := by
  have heager : ∀ n < 5,
      Eager (visit System.step s (connectSchedule gen) n) (connectSchedule gen n) := by
    intro n hn
    refine ⟨hfirst n hn, fun x e he => ?_⟩
    match n, hn, he with
    | 0, _, he | 1, _, he | 2, _, he | 3, _, he | 4, _, he => cases he
  have hshaking : ∀ n ≤ 5, Handshaking (visit System.step s (connectSchedule gen) n) := by
    intro n hn
    induction n with
    | zero => exact h
    | succ n ih => exact (ih (by omega)).step (heager n (by omega))
  have hperiod : ∀ n, InPeriod n (visit System.step s (connectSchedule gen) (n + 5)) := by
    intro n
    induction n with
    | zero =>
      exact { hshaking 5 le_rfl with
        transmits := fun x => by rw [(hstart x).1]; nofun
        phaseA := by rw [(hstart .a).2]; rfl
        phaseB := by rw [(hstart .b).2]; rfl }
    | succ n ih =>
      rw [Nat.add_right_comm, visit]
      exact ih.next.2
  refine ⟨fun n => ?_, hperiod⟩
  obtain hn | hn := Nat.lt_or_ge n 5
  · exact heager n hn
  · obtain ⟨k, rfl⟩ := Nat.exists_eq_add_of_le' hn
    exact (hperiod k).next.1

theorem connectSchedule_recurs {t : Turn} (ht : t ∈ FairDelivery.turns) :
    ∃ i < 10, ∀ n, 5 ≤ n → n % 10 = i → connectSchedule gen n = t := by
  have hrecurs {i : ℕ} (hi : i < 10) (h : ∀ n, n % 10 = i → connectSchedule gen (n + 5) = t) :
      ∃ i < 10, ∀ n, 5 ≤ n → n % 10 = i → connectSchedule gen n = t := by
    refine ⟨(i + 5) % 10, Nat.mod_lt _ (by decide), fun n hn hk => ?_⟩
    obtain ⟨m, rfl⟩ := Nat.exists_eq_add_of_le' hn
    exact h m (by omega)
  obtain ⟨x, rfl | rfl | rfl⟩ := ht <;> cases x
  · exact hrecurs (i := 0) (by decide) fun n hn => by simp [connectSchedule, hn]
  · exact hrecurs (i := 3) (by decide) fun n hn => by simp [connectSchedule, hn]
  · exact hrecurs (i := 8) (by decide) fun n hn => by simp [connectSchedule, hn]
  · exact hrecurs (i := 9) (by decide) fun n hn => by simp [connectSchedule, hn]
  · exact hrecurs (i := 6) (by decide) fun n hn => by simp [connectSchedule, hn]
  · exact hrecurs (i := 7) (by decide) fun n hn => by simp [connectSchedule, hn]

theorem connectSchedule_fair
    (h : ∀ n, InPeriod n (visit System.step s (connectSchedule gen) (n + 5))) :
    Fair System.step (fun s => asked s ∪ FairDelivery.turns) s (connectSchedule gen) := by
  apply fair_of_mod (k := 10) (N := 5)
  rintro t ⟨n, hn, ⟨x, rfl | rfl | ⟨task, -, hdue, -⟩⟩ | ht⟩
  · exact connectSchedule_recurs ⟨x, .inl rfl⟩
  · exact connectSchedule_recurs ⟨x, .inr (.inr rfl)⟩
  · obtain ⟨m, rfl⟩ := Nat.exists_eq_add_of_le' hn
    have htransmits := (h m).transmits x
    obtain hs | hs := hdue <;> rw [hs] at htransmits <;> exact absurd rfl htransmits
  · exact connectSchedule_recurs ht

theorem handshake_completes_alternating :
    ∃ s, System.start (fun _ => { linkStart := true }) = .ok s ∧
      ∃ n, ∀ m, n ≤ m → ∀ x,
        ((visit System.step s (connectSchedule fun _ => 1) m).ends x).link.fsm.state = .run ∧
          ((visit System.step s (connectSchedule fun _ => 1) m).ends x).link.errorResetCount =
            0 := by
  refine ⟨_, rfl, ?_⟩
  have hshaking := @handshaking_start _ (fun _ => { linkStart := true }) rfl (by decide)
    (fun _ => .inl rfl) ⟨.a, rfl⟩ fun _ => rfl
  obtain ⟨hpermitted, hperiod⟩ := @connectSchedule_permitted _ (fun _ => 1) hshaking
    (by decide +kernel) (fun x => by cases x <;> decide +kernel)
  exact @handshake_completes _ (fun _ => { linkStart := true }) rfl (by decide) (fun _ => .inl rfl)
    ⟨.a, rfl⟩ (fun _ => rfl) (connectSchedule fun _ => 1) hpermitted
    ((connectSchedule_fair hperiod).mono fun _ => Set.subset_union_left)

end start

end FairHandshake

end SpaceWire
