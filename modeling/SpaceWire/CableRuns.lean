import SpaceWire.Cable
import SpaceWire.Progress
import SpaceWire.Simulation

namespace SpaceWire

open DataStrobe Run Traffic Conservation SpaceWireDriver

/-- At the character level a transmit coroutine stands where it stands, or it is ahead: the last
bit of a character has been heard, and the coroutine has not had its turn since. -/
inductive Reached : TxLoop → TxLoop → Prop
  | there (t : TxLoop) : Reached t t
  | ahead (c : Character) (b : Bool) (bits : List Bool) : Reached (.sending c b bits) (.driven c b)

/-- An endpoint of the character level shows an end of the cable. -/
structure Shown (p : Port) (q : Endpoint) : Prop where
  reached : Reached p.endpoint.txLoop q.txLoop
  seen : q = p.endpoint.seen q.txLoop

/-- A cable and its character level. While no end has been dropped, the bits that are on their
way are those of the characters that are on theirs. -/
structure Joined (c : Cable) (s : System) : Prop where
  up : ∀ x, Up (c.ends x)
  shown : ∀ x, Shown (c.ends x) (s.ends x)
  wired : ∀ x, ∀ ch ∈ s.line x, ch.onWire = ch
  inStep : c.Undropped → ∀ x, InStep (c.ends x).link.encoder (c.ends x.peer).link.decoder
    (s.inFlight x) (c.bits x)

namespace Shown

variable {p : Port} {q : Endpoint}

theorem fsm (h : Shown p q) : q.link.fsm = p.link.fsm := by rw [h.seen]; rfl

theorem resets (h : Shown p q) : q.link.errorResetCount = p.link.errorResetCount := by
  rw [h.seen]; rfl

theorem there (h : Shown p q) (htx : ∀ c b, q.txLoop ≠ .driven c b) :
    q.txLoop = p.endpoint.txLoop := by
  have hr := h.reached
  generalize p.endpoint.txLoop = t at hr
  generalize q.txLoop = t' at hr htx
  cases hr with
  | there => rfl
  | ahead c b bits => exact absurd rfl (htx c b)

theorem of_ne_sending (h : Shown p q) (htx : ∀ c b bits, p.endpoint.txLoop ≠ .sending c b bits) :
    q.txLoop = p.endpoint.txLoop := by
  have hr := h.reached
  generalize p.endpoint.txLoop = t at hr htx
  generalize q.txLoop = t' at hr
  cases hr with
  | there => rfl
  | ahead c b bits => exact absurd rfl (htx c b bits)

end Shown

namespace Cable

variable {c : Cable} {x : Side} {p : Port}

theorem setPort_setPort {p' : Port} (h : p.wire = (c.ends x).wire) :
    (c.setPort x p).setPort x p' = c.setPort x p' := by
  simp [setPort, h]

theorem setPort_bits {bs : List Bool} (hwire : p.wire = (c.ends x).wire)
    (hqueue : p.driver.queue = (c.ends x).driver.queue ++ bs) :
    (c.setPort x p).bits x = c.bits x ++ bs := by
  simp [bits, setPort, hwire, hqueue]

theorem setPort_bits_eq (hdriver : p.driver = (c.ends x).driver) :
    (c.setPort x p).bits x = c.bits x := by
  have hwire : p.wire = (c.ends x).wire := by rw [Port.wire, hdriver, Port.wire]
  have hqueue : p.driver.queue = (c.ends x).driver.queue ++ [] := by simp [hdriver]
  simp [setPort_bits hwire hqueue]

end Cable

theorem Encoder.encode_rejected {e e' : Encoder} {c : Character} {err : Exn}
    (hc : c.isNChar = true) (h : e.encode c = (e', .error err)) : e' = e := by
  cases ht : c.type with
  | data =>
    simp only [Encoder.encode, Encoder.encodeData, ht] at h
    split at h
    · cases h
      rfl
    · split at h <;> cases h
      rfl
  | eop | eep =>
    simp only [Encoder.encode, ht] at h
    cases h
  | fct | esc | null | timecode | broadcast => simp [Character.isNChar, isNCharType, ht] at hc

theorem Endpoint.stepTxLoop_top_resets {p : Endpoint} (htop : p.txLoop = .top) :
    p.stepTxLoop.link.errorResetCount = p.link.errorResetCount := by
  obtain ⟨-, heq⟩ | ⟨-, l, d, b, e, hp, ⟨bits, heq⟩ | ⟨-, heq⟩⟩ :=
    Endpoint.stepTxLoop_top htop
  · rw [heq]
  · have hsame := picked_resets hp
    rwa [heq]
  · have hsame := picked_resets hp
    rwa [heq]

/-- At the top of its loop the transmit coroutine hands over the bits of the character that is
now under way. -/
theorem InStep.turn {p : Endpoint} {d : Decoder} {line : List Character} {bits : List Bool}
    (hregular : Regular p) (htop : p.txLoop = .top) (h : InStep p.link.encoder d line bits) :
    p.stepTxLoop.link.decoder = p.link.decoder ∧
      InStep p.stepTxLoop.link.encoder d (line ++ p.stepTxLoop.txLoop.underWay)
        (bits ++ p.stepTxLoop.txLoop.bits) := by
  have ht := p.txTurn
  generalize p.stepTxLoop = q at ht
  cases ht with
  | rest hno | ended hno | wake hno | drive hno | done hno =>
    rw [htop] at hno
    cases hno
  | park =>
    refine ⟨rfl, ?_⟩
    simpa [TxLoop.underWay, TxLoop.bits] using h
  | @pick link ch b e bs _ _ hp henc =>
    obtain ⟨hencoder, hdecoder⟩ := (CodecsKept.picked hp).codecs (picked_resets hp)
    have hwire : p.link.encoder.encode ch.onWire = (e, .ok bs) := by
      rw [← hencoder, ← henc]
      by_cases hc : ch.isNChar = true
      · exact Encoder.encode_onWire _ hc
      · congr 1
        generalize stateTx p.link.fsm.state = mode at hp
        cases hp with
        | null | handshake | uncredited | fct => rfl
        | nchar _ hq => exact absurd (hregular.queued ch (by simp [hq])) hc
    exact ⟨hdecoder, h.encode (picked_onWire hregular.queued hp henc) hwire⟩
  | @reject link ch b e err _ _ hp henc =>
    obtain ⟨hencoder, hdecoder⟩ := (CodecsKept.picked hp).codecs (picked_resets hp)
    have hc : ch.isNChar = true := by
      apply hregular.queued
      apply picked_rejected hp
      intro hline
      obtain ⟨e', bits, hok⟩ := hline.encode link.encoder
      rw [henc] at hok
      cases hok
    refine ⟨hdecoder, ?_⟩
    rw [show e = p.link.encoder from (Encoder.encode_rejected hc henc).trans hencoder]
    simpa [TxLoop.underWay, TxLoop.bits] using h

namespace Joined

variable {c : Cable} {s s' : System} {x : Side} {p : Port}

theorem setPort (h : Joined c s) (hup : Up p) (hshown : Shown p (s'.ends x))
    (hends : s'.ends x.peer = s.ends x.peer) (hline : s'.line x.peer = s.line x.peer)
    (hwired : ∀ ch ∈ s'.line x, ch.onWire = ch)
    (hresets : (c.ends x).link.errorResetCount ≤ p.link.errorResetCount)
    (hstep : p.link.errorResetCount = (c.ends x).link.errorResetCount →
      InStep (c.ends x).link.encoder (c.ends x.peer).link.decoder (s.inFlight x) (c.bits x) →
      p.link.decoder = (c.ends x).link.decoder ∧
        InStep p.link.encoder (c.ends x.peer).link.decoder (s'.inFlight x)
          ((c.setPort x p).bits x)) :
    Joined (c.setPort x p) s' := by
  refine ⟨(Side.forall_iff x).mpr ⟨by simpa using hup, by simpa using h.up x.peer⟩,
    (Side.forall_iff x).mpr ⟨by simpa using hshown, ?_⟩,
    (Side.forall_iff x).mpr ⟨hwired, ?_⟩, fun hu => ?_⟩
  · rw [hends]
    simpa using h.shown x.peer
  · rw [hline]
    exact h.wired x.peer
  · have hx := hu x
    have hpeer := hu x.peer
    rw [Cable.setPort_ends] at hx
    rw [Cable.setPort_ends_peer] at hpeer
    have hbefore : c.Undropped := (Side.forall_iff x).mpr ⟨by omega, hpeer⟩
    have hcount : p.link.errorResetCount = (c.ends x).link.errorResetCount :=
      hx.trans (hbefore x).symm
    obtain ⟨hdecoder, hin⟩ := hstep hcount (h.inStep hbefore x)
    have hback := h.inStep hbefore x.peer
    rw [Side.peer_peer] at hback
    refine (Side.forall_iff x).mpr ⟨by simpa using hin, ?_⟩
    rw [Cable.setPort_ends_peer, Side.peer_peer, Cable.setPort_ends, hdecoder,
      Cable.setPort_bits_peer]
    simpa only [System.inFlight, hends, hline] using hback

theorem act (h : Joined c s) {a : Action} (ha : a ≠ .txLoop)
    (hendpoint : p.endpoint = (c.ends x).endpoint.act a) (hdriver : p.driver = (c.ends x).driver)
    (hup : Up p) : Joined (c.setPort x p) (s.step (.act x a)) := by
  have hshown := h.shown x
  have hkept := CodecsKept.act (p := (c.ends x).endpoint) ha
  obtain ⟨htx, hemits⟩ := act_txLoop (p := s.ends x) ha
  have hseen : (s.ends x).act a = p.endpoint.seen (s.ends x).txLoop := by
    rw [hendpoint, Endpoint.seen_act _ _ ha (h.up x).queued, ← hshown.seen]
  have hlink : p.link = ((c.ends x).endpoint.act a).link := by rw [Port.link, hendpoint]
  rw [← hlink] at hkept
  refine h.setPort hup ⟨?_, ?_⟩ (by simp) (by simp) ?_ hkept.resets fun hcount hin => ?_
  · rw [System.step_act_ends, htx, hendpoint, (act_txLoop ha).1]
    exact hshown.reached
  · rw [System.step_act_ends, htx]
    exact hseen
  · simpa [hemits] using h.wired x
  · obtain ⟨henc, hdec⟩ := hkept.codecs hcount
    refine ⟨hdec, ?_⟩
    rw [Cable.setPort_bits_eq hdriver, henc]
    simpa [System.inFlight, hemits, htx, Port.link] using hin

theorem quiet (h : Joined c s) (hendpoint : p.endpoint = (c.ends x).endpoint)
    (hbits : (c.setPort x p).bits x = c.bits x) (hup : Up p) : Joined (c.setPort x p) s := by
  have hlink : p.link = (c.ends x).link := by rw [Port.link, hendpoint, Port.link]
  refine h.setPort hup ⟨?_, ?_⟩ rfl rfl (h.wired x) ?_ fun _ hin => ?_
  · rw [hendpoint]
    exact (h.shown x).reached
  · rw [hendpoint]
    exact (h.shown x).seen
  · rw [hlink]
  · rw [hlink, hbits]
    exact ⟨rfl, hin⟩

theorem drive (h : Joined c s) (hseen : c.moved x = false) :
    Joined (c.setPort x { c.ends x with driver := (c.ends x).driver.resume }) s := by
  have hup := h.up x
  have hwire := Port.wire_of_up hup
  have hwire' := Port.wire_of_up hup.resume
  refine h.quiet rfl ?_ hup.resume
  obtain ⟨hqueues, -⟩ | ⟨-, bit, hdrives⟩ := (c.ends x).driver.resume_spec
  · have hsame : ({ c.ends x with driver := (c.ends x).driver.resume } : Port).wire =
        (c.ends x).wire := by
      rw [hwire, hwire']
      exact hqueues.levels
    rw [Cable.setPort_bits hsame hqueues.queue, List.append_nil]
  · have hmoved : ({ c.ends x with driver := (c.ends x).driver.resume } : Port).wire =
        next (c.ends x).wire bit := by
      rw [hwire, hwire']
      exact hdrives.levels
    have hne := (next_oneChanges (c.ends x).wire bit).ne
    simp only [Cable.bits, Cable.setPort, Function.update_self, hmoved, hseen, hdrives.queue]
    simp [hne]

/-- The character level runs ahead: the last bit of a character has been driven. -/
theorem runAhead (h : Joined c s) {ch : Character} {b : Bool} {bs : List Bool}
    (hsending : (s.ends x).txLoop = .sending ch b bs) : Joined c (s.step (.act x .txLoop)) := by
  have hturn : (s.ends x).act .txLoop = { s.ends x with txLoop := .driven ch b } := by
    simp only [Endpoint.act, Endpoint.stepTxLoop, hsending]
  have hemits : (s.ends x).emits .txLoop = [ch.onWire] := by
    simp [Endpoint.emits, hsending, TxLoop.underWay]
  have hloop : (c.ends x).endpoint.txLoop = .sending ch b bs := by
    rw [← (h.shown x).there (by simp [hsending]), hsending]
  refine ⟨h.up, (Side.forall_iff x).mpr ⟨⟨?_, ?_⟩, by simpa using h.shown x.peer⟩,
    (Side.forall_iff x).mpr ⟨?_, by simpa using h.wired x.peer⟩, fun hu => ?_⟩
  · rw [System.step_act_ends, hturn, hloop]
    exact .ahead ch b bs
  · rw [System.step_act_ends, hturn]
    nth_rewrite 1 [(h.shown x).seen]
    rfl
  · intro d hd
    rw [System.step_act_line, hemits] at hd
    obtain hd | hd := List.mem_append.mp hd
    · exact h.wired x d hd
    · rw [List.mem_singleton.mp hd, Character.onWire_onWire]
  · have hx := h.inStep hu x
    have hpeer := h.inStep hu x.peer
    refine (Side.forall_iff x).mpr ⟨hx.congr ?_, ?_⟩
    · simp [System.inFlight, hemits, hturn, hsending, TxLoop.underWay]
    · simpa [System.inFlight] using hpeer

theorem report (h : Joined c s) {ch : Character} {b : Bool} {bs : List Bool}
    (hsending : (c.ends x).endpoint.txLoop = .sending ch b bs)
    (hdriven : (s.ends x).txLoop = .driven ch b)
    (hendpoint : p.endpoint = (c.ends x).endpoint.stepTxLoop.stepTxLoop)
    (hdriver : p.driver = (c.ends x).driver) (hup : Up p) :
    Joined (c.setPort x p) (s.step (.act x .txLoop)) := by
  have hdrive : (c.ends x).endpoint.stepTxLoop =
      { (c.ends x).endpoint with txLoop := .driven ch b } := by
    simp only [Endpoint.stepTxLoop, hsending]
  have hreport : p.endpoint = { (c.ends x).endpoint with
      link := (c.ends x).link.charSent ch b, txLoop := .top } := by
    rw [hendpoint, hdrive]
    rfl
  have hturn : (s.ends x).act .txLoop = p.endpoint.seen .top := by
    have hseen := (h.shown x).seen
    rw [hdriven] at hseen
    rw [hseen, hreport]
    simp only [Endpoint.act, Endpoint.stepTxLoop, Endpoint.seen,
      SpaceWireLink.charLevel_charSent]
    rfl
  have hemits : (s.ends x).emits .txLoop = [] := by
    simp [Endpoint.emits, hdriven, TxLoop.underWay]
  have hkept := CodecsKept.charSent (c.ends x).link ch b
  have hlink : p.link = (c.ends x).link.charSent ch b := by rw [Port.link, hreport]
  rw [← hlink] at hkept
  refine h.setPort hup ⟨?_, ?_⟩ (by simp) (by simp) ?_ hkept.resets fun hcount hin => ?_
  · rw [System.step_act_ends, hturn, hreport]
    exact .there .top
  · rw [System.step_act_ends, hturn]
    rfl
  · simpa [hemits] using h.wired x
  · obtain ⟨henc, hdec⟩ := hkept.codecs hcount
    refine ⟨hdec, ?_⟩
    rw [Cable.setPort_bits_eq hdriver, henc]
    simpa [System.inFlight, hemits, hturn, hdriven, TxLoop.underWay] using hin

theorem wake (h : Joined c s) (hparked : (c.ends x).endpoint.txLoop = .parked)
    (hendpoint : p.endpoint = (c.ends x).endpoint.stepTxLoop)
    (hdriver : p.driver = (c.ends x).driver) (hup : Up p) :
    Joined (c.setPort x p) (s.step (.act x .txLoop)) := by
  have hloop := (h.shown x).of_ne_sending (by simp [hparked])
  rw [hparked] at hloop
  have hturn : (s.ends x).act .txLoop = p.endpoint.seen p.endpoint.txLoop := by
    rw [hendpoint, Endpoint.seen_stepTxLoop, hparked, ← hloop, ← (h.shown x).seen]
    rfl
  have hway : (s.ends x).txLoop.underWay = [] := by rw [hloop]; rfl
  have hemits : (s.ends x).emits .txLoop = [] := by simp [Endpoint.emits, hway]
  have hlink : p.link = (c.ends x).link ∧ p.endpoint.txLoop.underWay = [] := by
    rw [Port.link, hendpoint]
    simp only [Endpoint.stepTxLoop, hparked]
    split <;> simp [TxLoop.underWay, Port.link, hparked]
  refine h.setPort hup ⟨?_, ?_⟩ (by simp) (by simp) ?_ (by rw [hlink.1]) fun _ hin => ?_
  · rw [System.step_act_ends, hturn]
    exact .there _
  · rw [System.step_act_ends, hturn]
    rfl
  · simpa [hemits] using h.wired x
  · refine ⟨by rw [hlink.1], ?_⟩
    rw [Cable.setPort_bits_eq hdriver, hlink.1]
    simpa [System.inFlight, hemits, hturn, hway, hlink.2] using hin

theorem txTop (h : Joined c s) (htop : (c.ends x).endpoint.txLoop = .top) :
    Joined (c.setPort x (c.ends x).txTop) (s.step (.act x .txLoop)) := by
  have hup := h.up x
  have hloop := (h.shown x).of_ne_sending (by simp [htop])
  rw [htop] at hloop
  have hendpoint := (c.ends x).txTop_endpoint
  have hturn : (s.ends x).act .txLoop =
      (c.ends x).endpoint.stepTxLoop.seen (c.ends x).endpoint.stepTxLoop.txLoop := by
    rw [Endpoint.seen_stepTxLoop, htop, ← hloop, ← (h.shown x).seen]
    rfl
  have hway : (s.ends x).txLoop.underWay = [] := by rw [hloop]; rfl
  have hemits : (s.ends x).emits .txLoop = [] := by simp [Endpoint.emits, hway]
  obtain ⟨driver, txWait, htxTop, hqueues⟩ := (c.ends x).txTop_spec
  have hwire : (c.ends x).txTop.wire = (c.ends x).wire := by
    rw [Port.wire, Port.wire, htxTop]
    exact congrArg (fun lines => Option.getD lines (false, false)) hqueues.lines
  have hqueue : (c.ends x).txTop.driver.queue =
      (c.ends x).driver.queue ++ (c.ends x).endpoint.stepTxLoop.txLoop.bits := by
    rw [htxTop]
    exact hqueues.queue
  have hlink : (c.ends x).txTop.link = (c.ends x).endpoint.stepTxLoop.link := by
    rw [Port.link, hendpoint]
  have hresets := Endpoint.stepTxLoop_top_resets htop
  refine h.setPort (hup.txTop htop) ⟨?_, ?_⟩ (by simp) (by simp) ?_ ?_ fun _ hin => ?_
  · rw [System.step_act_ends, hturn, hendpoint]
    exact .there _
  · rw [System.step_act_ends, hturn, hendpoint]
    rfl
  · simpa [hemits] using h.wired x
  · rw [hlink, Port.link, hresets]
  · have hline : s.inFlight x = s.line x := by rw [System.inFlight, hway, List.append_nil]
    rw [hline] at hin
    obtain ⟨hdec, hin⟩ := InStep.turn hup.regular htop hin
    rw [hlink, Cable.setPort_bits hwire hqueue]
    refine ⟨hdec, ?_⟩
    simpa [System.inFlight, hemits, hturn] using hin

theorem heard (h : Joined c s) (hmoved : c.moved x = true)
    (hup : Up p) (hp : p = (c.ends x.peer).step (.line (some (c.ends x).wire.1)))
    (hshown : Shown p (s'.ends x.peer)) (hends : s'.ends x = s.ends x)
    (hloop : (s'.ends x.peer).txLoop = (s.ends x.peer).txLoop)
    (hline : s'.line x.peer = s.line x.peer) (hwired : ∀ ch ∈ s'.line x, ch.onWire = ch)
    (hstep : c.Undropped → p.link.errorResetCount = (c.ends x.peer).link.errorResetCount →
      p.link.encoder = (c.ends x.peer).link.encoder ∧
        InStep (c.ends x).link.encoder p.link.decoder (s'.inFlight x)
          (c.ends x).driver.queue)
    (hresets : (c.ends x.peer).link.errorResetCount ≤ p.link.errorResetCount) :
    Joined (c.step (.sample x)) s' := by
  have hc : c.step (.sample x) =
      { ends := Function.update c.ends x.peer p, moved := Function.update c.moved x false } := by
    rw [Cable.step, if_pos hmoved, hp]
  have hdriver : p.driver = (c.ends x.peer).driver := by
    rw [hp, (h.up x.peer).step_line]
  rw [hc]
  refine ⟨(Side.forall_iff x).mpr ⟨by simpa using h.up x, by simpa using hup⟩,
    (Side.forall_iff x).mpr ⟨?_, by simpa using hshown⟩,
    (Side.forall_iff x).mpr ⟨hwired, ?_⟩, fun hu => ?_⟩
  · rw [hends]
    simpa using h.shown x
  · rw [hline]
    exact h.wired x.peer
  · have hx := hu x
    have hpeer := hu x.peer
    simp only [Function.update_self, ne_eq, Side.ne_peer, not_false_eq_true,
      Function.update_of_ne] at hx hpeer
    have hbefore : c.Undropped := (Side.forall_iff x).mpr ⟨hx, by omega⟩
    have hcount : p.link.errorResetCount = (c.ends x.peer).link.errorResetCount :=
      hpeer.trans (hbefore x.peer).symm
    obtain ⟨hencoder, hin⟩ := hstep hbefore hcount
    have hback := h.inStep hbefore x.peer
    rw [Side.peer_peer] at hback
    refine (Side.forall_iff x).mpr ⟨?_, ?_⟩
    · simpa [Cable.bits] using hin
    · rw [Side.peer_peer]
      simpa [Cable.bits, System.inFlight, hencoder, hdriver, Port.wire, hline, hloop] using hback

/-- The monitor of one end hears a bit of the other. Where it completes a character, that is the
oldest on its way, and it is delivered if the character level has put it on the line. -/
theorem sample (h : Joined c s) (hu : c.Undropped) (hmoved : c.moved x = true) :
    Joined (c.step (.sample x)) s ∨ ∃ ch rest, s.inFlight x = ch :: rest ∧
      (rest = [] → (c.ends x).driver.queue = []) ∧
      (s.line x ≠ [] → Joined (c.step (.sample x)) (s.step (.deliver x))) := by
  have hbits : c.bits x = (c.ends x).wire.1 :: (c.ends x).driver.queue := by
    simp [Cable.bits, hmoved]
  have hin := h.inStep hu x
  rw [hbits] at hin
  have hup := (h.up x.peer).hear (c.ends x).wire.1
  have hendpoint : ((c.ends x.peer).step (.line (some (c.ends x).wire.1))).endpoint =
      (c.ends x.peer).endpoint.rxBit (c.ends x).wire.1 := by rw [(h.up x.peer).step_line]
  generalize hp : (c.ends x.peer).step (.line (some (c.ends x).wire.1)) = p at hup hendpoint
  have hlink : p.link = (c.ends x.peer).link.feedBit (c.ends x).wire.1 := by
    rw [Port.link, hendpoint]
    rfl
  let q : Endpoint := { (c.ends x.peer).endpoint with
    link := { (c.ends x.peer).link with
      decoder := ((c.ends x.peer).link.decoder.feed (c.ends x).wire.1).1 } }
  have hq : q.seen (s.ends x.peer).txLoop = s.ends x.peer := (h.shown x.peer).seen.symm
  have hcases := (c.ends x.peer).link.feedBit_cases (c.ends x).wire.1
  rw [← hlink] at hcases
  obtain ⟨hnone, hin⟩ | ⟨decoded, ch, rest, hone, hflight, hwire, herror, hin, hlast⟩ := hin.feed
  · obtain ⟨-, hfed⟩ | ⟨ch, hch, -⟩ := hcases
    · have hpq : p.endpoint = q := by
        rw [hendpoint, Endpoint.rxBit, ← Port.link, ← hlink, hfed]
      refine .inl (h.heard hmoved hup hp.symm ⟨?_, ?_⟩ rfl rfl rfl (h.wired x) (fun _ _ => ?_) ?_)
      · rw [hpq]
        exact (h.shown x.peer).reached
      · rw [hpq, hq]
      · rw [hfed]
        exact ⟨rfl, hin⟩
      · rw [hfed]
    · rw [hnone] at hch
      cases hch
  · obtain ⟨hnone, -⟩ | ⟨ch', hch, hfed⟩ := hcases
    · rw [hnone] at hone
      cases hone
    · obtain rfl : ch' = decoded := by
        rw [hone] at hch
        simpa using hch.symm
      have hpq : p.endpoint = q.rxCharacter ch' := by
        rw [hendpoint, Endpoint.rxBit, ← Port.link, ← hlink, hfed]
        rfl
      refine .inr ⟨ch, rest, hflight, hlast, fun hline => ?_⟩
      obtain ⟨first, tail, htail⟩ := List.exists_cons_of_ne_nil hline
      have hsplit : first = ch ∧ rest = tail ++ (s.ends x).txLoop.underWay := by
        rw [System.inFlight, htail, List.cons_append, List.cons.injEq] at hflight
        exact ⟨hflight.1, hflight.2.symm⟩
      obtain ⟨rfl, hrest⟩ := hsplit
      have hself := h.wired x first (by simp [htail])
      rw [hself] at hwire
      have hdeliver : s.step (.deliver x) = s.receive x first := by simp only [System.step, htail]
      have hkept := CodecsKept.rxCharacter q.link ch'
      have hplink : p.link = q.link.rxCharacter ch' := hfed
      rw [← hplink] at hkept
      rw [hdeliver]
      refine h.heard hmoved hup hp.symm ⟨?_, ?_⟩ (by simp) (by simp; rfl) (by simp) ?_
        (fun _ hcount => ?_) hkept.resets
      · rw [System.receive_ends_peer, hpq]
        exact (h.shown x.peer).reached
      · rw [System.receive_ends_peer, hpq, ← hwire]
        nth_rewrite 1 [← hq]
        exact (q.seen_rxCharacter _ herror).symm
      · intro d hd
        rw [System.receive_line] at hd
        exact h.wired x d (List.mem_of_mem_tail hd)
      · obtain ⟨hencoder, hdecoder⟩ := hkept.codecs hcount
        refine ⟨hencoder, ?_⟩
        rw [hdecoder, System.inFlight, System.receive_line, htail, System.receive_ends,
          List.tail_cons, ← hrest]
        exact hin

theorem wakeTop (h : Joined c s) (hparked : (c.ends x).endpoint.txLoop = .parked)
    (hw : (c.ends x).link.txWakeup = true) :
    Joined (c.setPort x ({ c.ends x with endpoint := (c.ends x).endpoint.stepTxLoop } : Port).txTop)
      ((s.step (.act x .txLoop)).step (.act x .txLoop)) := by
  have hw' : (c.ends x).endpoint.link.txWakeup = true := hw
  have htop : (c.ends x).endpoint.stepTxLoop.txLoop = .top := by
    simp [Endpoint.stepTxLoop, hparked, hw']
  generalize hp : ({ c.ends x with endpoint := (c.ends x).endpoint.stepTxLoop } : Port) = p
  have hendpoint : p.endpoint = (c.ends x).endpoint.stepTxLoop := by rw [← hp]
  have hdriver : p.driver = (c.ends x).driver := by rw [← hp]
  have hup : Up p := by
    rw [← hp]
    exact (h.up x).top (h.up x).regular.txLoop ((h.up x).queued.act .txLoop) htop
  have hnext := (h.wake hparked hendpoint hdriver hup).txTop (x := x) (by
    rw [Cable.setPort_ends, hendpoint, htop])
  rwa [Cable.setPort_ends, Cable.setPort_setPort (by rw [Port.wire, hdriver, Port.wire])] at hnext

theorem reportTop (h : Joined c s) {ch : Character} {b : Bool} {bs : List Bool}
    (hsending : (c.ends x).endpoint.txLoop = .sending ch b bs)
    (hdriven : (s.ends x).txLoop = .driven ch b) :
    Joined (c.setPort x
        ({ c.ends x with endpoint := (c.ends x).endpoint.stepTxLoop.stepTxLoop } : Port).txTop)
      ((s.step (.act x .txLoop)).step (.act x .txLoop)) := by
  have htop : (c.ends x).endpoint.stepTxLoop.stepTxLoop.txLoop = .top := by
    simp [Endpoint.stepTxLoop, hsending]
  generalize hp : ({ c.ends x with
    endpoint := (c.ends x).endpoint.stepTxLoop.stepTxLoop } : Port) = p
  have hendpoint : p.endpoint = (c.ends x).endpoint.stepTxLoop.stepTxLoop := by rw [← hp]
  have hdriver : p.driver = (c.ends x).driver := by rw [← hp]
  have hup : Up p := by
    rw [← hp]
    exact (h.up x).top (h.up x).regular.txLoop.txLoop
      (((h.up x).queued.act .txLoop).act .txLoop) htop
  have hnext := (h.report hsending hdriven hendpoint hdriver hup).txTop (x := x) (by
    rw [Cable.setPort_ends, hendpoint, htop])
  rwa [Cable.setPort_ends, Cable.setPort_setPort (by rw [Port.wire, hdriver, Port.wire])] at hnext

end Joined

def CableTurn.packetLevel : CableTurn → Bool
  | .port _ (.call action) => action.packetLevel
  | _ => true

/-- A turn of the character level that a turn of the cable may amount to. -/
def Amounts (t : CableTurn) (t' : Turn) : Prop :=
  Progress.Lossless t' ∧ (t.packetLevel = true → t'.lossless = true)

namespace Joined

variable {c : Cable} {s : System} {x : Side}

theorem amounts_act {t : CableTurn} {a : Action}
    (ha : t.packetLevel = true → a.packetLevel = true) : Amounts t (.act x a) := ⟨trivial, ha⟩

theorem amounts_deliver {t : CableTurn} : Amounts t (.deliver x) := ⟨trivial, fun _ => rfl⟩

theorem port_act (h : Joined c s) {i : PortInput} (hi : c.Paced (.port x i)) (hne : i ≠ .txLoop) :
    Joined (c.step (.port x i)) s ∨ ∃ a, a ≠ .txLoop ∧ .act a ∈ (c.ends x).inputs i ∧
      Joined (c.step (.port x i)) (s.step (.act x a)) := by
  have hup := h.up x
  rw [Cable.step]
  cases i with
  | start | started | stop => cases hi
  | line di => exact absurd hi id
  | txLoop => exact absurd rfl hne
  | call a =>
    cases hcall : a.isCall with
    | true =>
      have ha : a ≠ .txLoop := by
        rintro rfl
        cases hcall
      rw [show (c.ends x).step (.call a) = _ from if_pos hcall]
      exact .inr ⟨a, ha, by simp [Port.inputs, hcall], h.act ha rfl rfl (hup.act ha)⟩
    | false =>
      refine .inl (h.quiet ?_ (Cable.setPort_bits_eq ?_) ?_) <;> simp [Port.step, hcall, hup]
  | watchdog =>
    cases htask : (c.ends x).disconnectTask with
    | true =>
      have hne : Action.watchdog (c.ends x).monitor.disconnected ≠ .txLoop := by simp
      rw [show (c.ends x).step .watchdog = _ from if_pos htask]
      exact .inr ⟨_, hne, by simp [Port.inputs, htask], h.act hne rfl rfl (hup.act hne)⟩
    | false =>
      refine .inl (h.quiet ?_ (Cable.setPort_bits_eq ?_) ?_) <;> simp [Port.step, htask, hup]
  | monitor =>
    have hsame : (c.ends x).monitor.resume = (c.ends x).monitor := by
      simp [SpaceWireMonitor.resume, hup.receiving]
    refine .inl (h.quiet rfl (Cable.setPort_bits_eq rfl) ?_)
    simpa only [Port.step, hsame] using hup
  | timeout =>
    refine .inl (h.quiet rfl (Cable.setPort_bits_eq rfl) ?_)
    exact hup.listen (by simp [SpaceWireMonitor.timeout, hup.receiving, hup.patient])
      (by simp [SpaceWireMonitor.timeout, hup.receiving])
      (by simp [SpaceWireMonitor.timeout, hup.receiving])
  | driver => exact .inl (h.drive hi)

theorem txLoop (h : Joined c s) : Matched System.step (fun _ => Amounts (.port x .txLoop)) Joined
    (c.step (.port x .txLoop)) s := by
  have hmoves := (c.ends x).txTurn_moved
  have hguard (n : Nat) : Guarded System.step (fun _ => Amounts (.port x .txLoop)) s
      (List.replicate n (.act x .txLoop)) := by
    apply Guarded.of_forall_mem
    intro t ht
    rw [List.eq_of_mem_replicate ht]
    exact amounts_act fun _ => rfl
  rw [show c.step (.port x .txLoop) = c.setPort x (c.ends x).txTurn from rfl]
  generalize (c.ends x).txTurn = p at hmoves
  cases hmoves with
  | idle => exact matched_nil (h.quiet rfl (Cable.setPort_bits_eq rfl) (h.up x))
  | top htop => exact ⟨_, hguard 1, h.txTop htop⟩
  | wake hparked hw => exact ⟨_, hguard 2, h.wakeTop hparked hw⟩
  | @report ch b bs hsending hdriven =>
    have hreached := (h.shown x).reached
    rw [hsending] at hreached
    generalize hloop : (s.ends x).txLoop = t at hreached
    cases hreached with
    | there =>
      have hahead : ((s.step (.act x .txLoop)).ends x).txLoop = .driven ch b := by
        simp [Endpoint.act, Endpoint.stepTxLoop, hloop]
      exact ⟨_, hguard 3, (h.runAhead hloop).reportTop hsending hahead⟩
    | ahead => exact ⟨_, hguard 2, h.reportTop hsending hloop⟩

theorem port (h : Joined c s) {i : PortInput} (hi : c.Paced (.port x i)) :
    Matched System.step (fun _ => Amounts (.port x i)) Joined (c.step (.port x i)) s := by
  by_cases hne : i = .txLoop
  · subst hne
    exact h.txLoop
  · obtain hquiet | ⟨a, -, hmem, hact⟩ := h.port_act hi hne
    · exact matched_nil hquiet
    · refine matched_one (amounts_act fun hp => ?_) hact
      cases i with
      | call action =>
        simp only [Port.inputs] at hmem
        split at hmem
        · cases List.mem_singleton.mp hmem
          exact hp
        · cases hmem
      | watchdog =>
        simp only [Port.inputs] at hmem
        split at hmem
        · cases List.mem_singleton.mp hmem
          rfl
        · cases hmem
      | txLoop => exact absurd rfl hne
      | start | started | stop | driver | monitor | timeout => cases hmem
      | line di => exact absurd hi id

/-- A turn of the cable is a number of turns at the character level. -/
theorem step (h : Joined c s) (hu : c.Undropped) {t : CableTurn} (ht : c.Paced t) :
    Matched System.step (fun _ => Amounts t) Joined (c.step t) s := by
  cases t with
  | port x i => exact h.port ht
  | sample x =>
    cases hmoved : c.moved x with
    | false =>
      have hsame : c.step (.sample x) = c := by simp [Cable.step, hmoved]
      rw [hsame]
      exact matched_nil h
    | true =>
      have hguard : Guarded System.step (fun _ => Amounts (.sample x)) s
          [.act x .txLoop, .deliver x] := by
        exact guarded_cons.mpr ⟨amounts_act fun _ => rfl,
          guarded_cons.mpr ⟨amounts_deliver, guarded_nil⟩⟩
      obtain hinside | ⟨ch, rest, hflight, -, hdeliver⟩ := h.sample hu hmoved
      · exact matched_nil hinside
      · by_cases hline : s.line x = []
        · have hsending : ∃ b bs, (s.ends x).txLoop = .sending ch b bs := by
            rw [System.inFlight, hline, List.nil_append] at hflight
            cases htx : (s.ends x).txLoop with
            | sending ch' b bs =>
              rw [htx] at hflight
              cases hflight
              exact ⟨b, bs, rfl⟩
            | top | parked | driven | dead =>
              rw [htx] at hflight
              cases hflight
          obtain ⟨b, bs, hsending⟩ := hsending
          have hahead := h.runAhead hsending
          have hput : (s.step (.act x .txLoop)).line x ≠ [] := by
            simp [Endpoint.emits, hsending, TxLoop.underWay]
          obtain hinside | ⟨-, -, -, -, hdeliver⟩ := hahead.sample hu hmoved
          · exact matched_one (amounts_act fun _ => rfl) hinside
          · exact ⟨_, hguard, hdeliver hput⟩
        · exact matched_one amounts_deliver (hdeliver hline)

end Joined

open Accounting in
theorem joined_start {cfg : Side → LinkConfig} {c : Cable} (h : Cable.start cfg = .ok c) :
    ∃ s, System.start cfg = .ok s ∧ Joined c s ∧ c.Undropped := by
  obtain ⟨hports, hmoved⟩ := Cable.start_ok h
  have hends (x : Side) : Endpoint.start (cfg x) = .ok (c.ends x).endpoint ∧
      Up (c.ends x) ∧ (c.ends x).driver.queue = [] := by
    obtain ⟨p, hnew, heq⟩ := hports x
    obtain ⟨q, hq, hup, -⟩ := Port.run_bringUp hnew
    have hhanded := Handover.handed_run hnew Port.bringUp
    have hfresh := fresh_start hq
    rw [heq]
    rw [hup] at hhanded ⊢
    refine ⟨hq, ⟨rfl, rfl, rfl, rfl, ?_, ?_, hhanded, by simp [hfresh.txLoop]⟩, rfl⟩
    · exact ⟨by simp [hfresh.txQueue], by simp [hfresh.txLoop, TxLoop.underWay]⟩
    · simp [NCharsQueued, Port.link, hfresh.rxQueue]
  have hfresh (x : Side) := fresh_start (hends x).1
  have hcodecs (x : Side) := CodecsKept.start (hends x).1
  refine ⟨{ ends := fun x => (c.ends x).endpoint, line := fun _ => [] }, ?_,
    ⟨fun x => (hends x).2.1, fun x => ⟨.there _, ?_⟩, fun x ch hch => (by simp at hch),
      fun _ x => ?_⟩,
    fun x => (hfresh x).resets⟩
  · simp only [System.start, (hends .a).1, (hends .b).1]
    congr 2
    funext x
    cases x <;> rfl
  · rw [Endpoint.seen, SpaceWireLink.charLevel_fresh _ (hcodecs x).2 (hfresh x).rxQueue]
  · have hbits : c.bits x = [] := by simp [Cable.bits, hmoved, (hends x).2.2]
    have hflight : (c.ends x).endpoint.txLoop.underWay = [] := by
      rw [(hfresh x).txLoop]
      rfl
    rw [hbits, System.inFlight, hflight, Port.link, Port.link, (hcodecs x).1, (hcodecs x.peer).2]
    exact .start

theorem Endpoint.step_resets (p : Endpoint) (i : Input) :
    p.link.errorResetCount ≤ (p.step i).link.errorResetCount :=
  (kept_resets _).step le_rfl i (fun _ _ _ _ _ hp => (picked_resets hp).ge)
    fun _ _ _ _ _ _ _ _ hfed hh => hfed.trans (handled_resets hh)

theorem Port.step_resets (p : Port) {i : PortInput} (hi : i.isLifecycle = false) :
    p.link.errorResetCount ≤ (p.step i).link.errorResetCount := by
  rw [Port.link, Port.link, p.step_endpoint hi]
  apply run_related (R := fun p q : Endpoint => p.link.errorResetCount ≤ q.link.errorResetCount)
  · exact fun _ => le_rfl
  · exact Nat.le_trans
  · exact Endpoint.step_resets

theorem Cable.Undropped.of_step {c : Cable} {t : CableTurn} (ht : c.Paced t)
    (h : (c.step t).Undropped) : c.Undropped := by
  cases t with
  | port x i =>
    have hi : i.isLifecycle = false := by
      cases i with
      | start | started | stop => cases ht
      | call | txLoop | watchdog | driver | monitor | line | timeout => rfl
    have hx := h x
    have hle := (c.ends x).step_resets hi
    rw [Cable.step, Cable.setPort_ends] at hx
    refine (Side.forall_iff x).mpr ⟨by omega, ?_⟩
    simpa [Cable.step] using h x.peer
  | sample x =>
    cases hmoved : c.moved x with
    | false => simpa [Cable.step, hmoved] using h
    | true =>
      have hle := (c.ends x.peer).step_resets (i := .line (some (c.ends x).wire.1)) rfl
      have hpeer := h x.peer
      simp only [Cable.step, hmoved, if_true, Function.update_self] at hpeer
      refine (Side.forall_iff x).mpr ⟨?_, by omega⟩
      simpa [Cable.step, hmoved] using h x

/-- Runs of two links over a cable, bit by bit, are runs of the character level, as long as
neither link is dropped. -/
theorem exists_joined {cfg : Side → LinkConfig} {c : Cable} (h : Cable.start cfg = .ok c)
    {ts : List CableTurn} (hts : Guarded Cable.step Cable.Paced c ts)
    (hu : (run Cable.step c ts).Undropped) : ∃ s, System.start cfg = .ok s ∧
      Matched System.step (fun _ t => Progress.Lossless t ∧
        ((∀ t ∈ ts, t.packetLevel = true) → t.lossless = true)) Joined (run Cable.step c ts) s := by
  obtain ⟨s, hs, hjoined, -⟩ := joined_start h
  refine ⟨s, hs, ?_⟩
  have hmem : Guarded Cable.step (fun c t => c.Paced t ∧ t ∈ ts) c ts :=
    hts.and (.of_forall_mem fun _ => id)
  refine run_matched hjoined (fun _ _ ht hu => hu.of_step ht.1) (fun c s t hj ht hu => ?_) hmem hu
  obtain ⟨us, hus, hR⟩ := hj.step (hu.of_step ht.1) ht.1
  exact ⟨us, hus.mono fun _ _ hu => ⟨hu.1, fun hall => hu.2 (hall t ht.2)⟩, hR⟩

end SpaceWire
