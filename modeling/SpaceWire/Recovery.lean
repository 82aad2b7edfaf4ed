import SpaceWire.ColdStart
import SpaceWire.Resets

namespace SpaceWire.Recovery

open Run Accounting Traffic Conservation Events Agreement Timers Wakeup Drain Progress Resets
open FairDelivery FairHandshake Handshake NCharStream ColdStart

/-- Only in Connecting and Run are there FCTs to remember. -/
def Early (f : LinkFSM) : Prop :=
  f.state.exchanging = false → f.sentFctInConnecting = false ∧ f.gotFctInConnecting = false

theorem early_updateFlags {f : LinkFSM} (h : Early f) (e : Event)
    (hs : f.state.exchanging = false) :
    (f.updateFlags e).sentFctInConnecting = false ∧
      (f.updateFlags e).gotFctInConnecting = false := by
  obtain ⟨hsent, hgot⟩ := h hs
  have hne : f.state ≠ .connecting := by
    intro hc
    rw [hc] at hs
    cases hs
  rw [← Bool.not_eq_true, ← Bool.not_eq_true, LinkFSM.updateFlags_sentFctInConnecting,
    LinkFSM.updateFlags_gotFctInConnecting]
  simp [hsent, hgot, hne]

theorem Early.feed {f : LinkFSM} (h : Early f) (e : Event) : Early (f.feed e) := by
  have hfed := f.fed e
  generalize f.feed e = f', f.entered e = ss at hfed
  cases hfed with
  | stay =>
    intro hs
    rw [LinkFSM.updateFlags_state] at hs
    exact early_updateFlags h e hs
  | enter hedge =>
    cases hedge with
    | wait hs | ready hs | start hs =>
      rw [LinkFSM.updateFlags_state] at hs
      exact fun _ => early_updateFlags h e (by rw [hs]; rfl)
    | connect | run =>
      intro hs
      cases hs
    | drop => exact fun _ => ⟨rfl, rfl⟩
  | chain hedge =>
    cases hedge with
    | ready hs =>
      rw [LinkFSM.updateFlags_state] at hs
      exact fun _ => early_updateFlags h e (by rw [hs]; rfl)

theorem kept_early : Kept (fun l => Early l.fsm) where
  feedFsm := by
    intro l e h
    rw [SpaceWireLink.feedFsm_fsm]
    exact h.feed e
  frame := by
    intro l l' h hsame
    rw [hsame.fsm]
    exact h
  read := fun _ h => h

theorem early_step {p : Endpoint} (h : Early p.link.fsm) (i : Input) :
    Early (p.step i).link.fsm := by
  apply kept_early.step h i
  · intro _ _ l' c b hp
    generalize stateTx p.link.fsm.state = mode at hp
    cases hp <;> exact h
  · intro c e l l' _ _ _ _ hfed hh
    cases hh with
    | fct | nchar | discarded | other => exact hfed
    | overflow | unexpected => exact kept_early.feedFsm _ hfed

/-- What an endpoint keeps through faults, drops and new handshakes. -/
structure Intact (p : Endpoint) : Prop where
  clean : Clean p
  credit : CreditInv p.link
  window : 8 ≤ p.link.credit.maxRxCredit
  capacity : 8 ≤ p.link.rxFifoCapacityNchars
  attended : Attended p
  accounted : Accounted p
  timers : TimersInv p.link
  ticks : OnlyTicks p.link
  early : Early p.link.fsm
  nulls : p.link.onlyNulls = false

theorem Intact.act {p : Endpoint} {a : Action} (h : Intact p) (ha : a.packetLevel = true) :
    Intact (p.act a) := by
  have hclean := act_clean h.clean ha
  obtain ⟨hattended, haccounted⟩ := lifeStep_kept h.attended h.accounted (.act a) hclean.alive
  exact {
    clean := hclean
    credit := creditInv_act h.credit
    window := by rw [act_maxRxCredit]; exact h.window
    capacity := by rw [act_capacity]; exact h.capacity
    attended := hattended
    accounted := haccounted
    timers := timersInv_run h.timers [.act a]
    ticks := h.ticks.life (.input (.act a))
    early := early_step h.early (.act a)
    nulls := onlyNulls_step h.nulls (.act a) }

theorem Intact.rxCharacter {p : Endpoint} {c : Character} (h : Intact p)
    (hc : isHardError c.error = false → c.isNChar = true → PacketChar c) :
    Intact (p.rxCharacter c) := by
  have hclean := rxCharacter_clean h.clean hc
  obtain ⟨hattended, haccounted⟩ :=
    lifeStep_kept h.attended h.accounted (.character c) hclean.alive
  exact {
    clean := hclean
    credit := creditInv_rxCharacter h.credit
    window := (rxCharacter_maxRxCredit p.link c).symm ▸ h.window
    capacity := (rxCharacter_capacity p.link c).symm ▸ h.capacity
    attended := hattended
    accounted := haccounted
    timers := timersInv_run h.timers [.character c]
    ticks := h.ticks.life (.input (.character c))
    early := early_step h.early (.character c)
    nulls := onlyNulls_step h.nulls (.character c) }

theorem Intact.landed {p p' : Endpoint} {c : Character} (h : Intact p) (hl : Landed p c p')
    (hc : LineChar c) : Intact p' := by
  cases hl with
  | lost => exact h
  | received => exact h.rxCharacter fun _ => LineChar.packetChar hc

/-- Two links and the lines between them, whatever has become of them. -/
structure Survives (s : System) : Prop where
  ends : ∀ x, Intact (s.ends x)
  line : ∀ x, ∀ c ∈ s.line x, LineChar c

variable {s : System} {t : Turn}

theorem Survives.step (h : Survives s) (ht : packetLevel t = true) : Survives (s.step t) := by
  cases hl : leaving s t with
  | none =>
    obtain ⟨x, a, rfl⟩ | ⟨x, n, rfl⟩ | hsame := leaving_none hl
    · refine ⟨(Side.forall_iff x).mpr ⟨?_, ?_⟩, (Side.forall_iff x).mpr ⟨?_, ?_⟩⟩
      · rw [System.step_act_ends]
        exact (h.ends x).act ht
      · rw [System.step_act_ends_peer]
        exact h.ends x.peer
      · intro c hc
        rw [System.step_act_line] at hc
        obtain hc | hc := List.mem_append.mp hc
        · exact h.line x c hc
        · exact emits_lineChar (h.ends x).clean.regular c hc
      · rw [System.step_act_line_peer]
        exact h.line x.peer
    · refine ⟨(Side.forall_iff x).mpr ⟨?_, ?_⟩, h.line⟩
      · rw [System.step_noise_ends]
        exact h.ends x
      · rw [System.step_noise_ends_peer]
        exact (h.ends x.peer).rxCharacter Noise.packetChar
    · rwa [hsame]
  | some left =>
    obtain ⟨x, c⟩ := left
    obtain ⟨rest, hline, hrest, hpeer, hends, hland⟩ := leaving_some hl
    have hc : LineChar c := h.line x c (by simp [hline])
    refine ⟨(Side.forall_iff x).mpr ⟨?_, ?_⟩, (Side.forall_iff x).mpr ⟨?_, ?_⟩⟩
    · rw [hends]
      exact h.ends x
    · exact (h.ends x.peer).landed hland hc
    · intro d hd
      rw [hrest] at hd
      exact h.line x d (by simp [hline, hd])
    · rw [hpeer]
      exact h.line x.peer

/-- Both links have fallen back to ErrorReset and all is still: nothing is on the lines, no
character is held, no NULL has been heard and no transmit credit is left since the drop, and the
timers of the visit are pending. -/
structure Rested (s : System) : Prop where
  reset : ∀ x, (s.ends x).link.fsm.state = .errorReset
  silent : ∀ x, s.line x = []
  free : ∀ x, (s.ends x).txLoop.underWay ++ justDriven (s.ends x).txLoop = []
  unheard : ∀ x, (s.ends x).link.fsm.gotNullLatched = false
  spent : ∀ x, (s.ends x).link.credit.txCredit = 0
  armed : ∀ x, Live (s.ends x).link

/-- The application wants a connection: both links may start, and one of them does. -/
structure Wanted (s : System) : Prop where
  enabled : ∀ x, (s.ends x).link.fsm.linkDisable = false
  start : ∀ x, (s.ends x).link.fsm.linkStart = true ∨ (s.ends x).link.fsm.autoStart = true
  starter : ∃ x, (s.ends x).link.fsm.linkStart = true

theorem Survives.connected (h : Survives s) (hr : Rested s) : Connected s := by
  have hflight (x : Side) : s.inFlight x = [] := by
    have hway := (List.append_eq_nil_iff.mp (hr.free x)).1
    rw [System.inFlight, hr.silent, hway, List.append_nil]
  have hrx (x : Side) : (s.ends x).link.credit.rxCredit = 0 :=
    (h.ends x).credit.idle (by rw [hr.reset x]; rfl)
  exact {
    clean := fun x => (h.ends x).clean
    solvent := {
      regular := fun x => (h.ends x).clean.regular
      credit := fun x => (h.ends x).credit
      window := fun x => (h.ends x).window
      line := h.line
      covered := fun x => by simp [hflight, hr.spent x, hrx x.peer]
      balanced := fun x _ => by simp [Conservation.Balanced, hflight, hr.spent x, hrx x.peer] }
    capacity := fun x => (h.ends x).capacity
    attended := fun x => (h.ends x).attended
    accounted := fun x => (h.ends x).accounted }

/-- Two links at rest may shake hands as if they had just been started. -/
theorem Survives.handshaking (h : Survives s) (hr : Rested s) (hw : Wanted s) :
    Handshaking s := by
  have hfct (x : Side) := (h.ends x).early (by rw [hr.reset x]; rfl)
  exact { (h.connected hr).toSound with
    orderly := fun x => by
      refine ⟨(h.ends x).ticks, ⟨?_, ?_, ?_, ?_, (h.ends x).early⟩, ?_⟩
      · simp [hr.reset x]
      · simp [hr.reset x]
      · simp [hr.reset x, State.exchanging]
      · simp [hr.reset x]
      · simp [hr.free x]
    sync := fun x => by
      obtain ⟨hway, hdriven⟩ := List.append_eq_nil_iff.mp (hr.free x)
      obtain ⟨hnull, hout⟩ := out_iff hdriven
      refine ⟨?_, ?_, ?_, ?_, ?_⟩
      · simp [hr.silent x]
      · simp [hnull, hr.silent x, hr.unheard x.peer, NullSent, hr.reset x, State.exchanging]
      · simp [hout, hr.silent x, (hfct x.peer).2, FctSent, hr.reset x]
      · simp [hr.silent x, hway]
      · simp [hr.silent x, hway]
    attended := fun x => (h.ends x).attended
    timers := fun x => (h.ends x).timers
    unwedged := fun x _ => hr.armed x
    willing := fun x => ⟨hw.enabled x, hw.start x, by simp [hr.reset x]⟩
    starter := hw.starter
    nulls := fun x => (h.ends x).nulls
    promised := fun x hs => by simp [hr.reset x] at hs }

end SpaceWire.Recovery
