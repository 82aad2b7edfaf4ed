import SpaceWire.LinkFsmRuns

namespace SpaceWire.Noise

open LinkFSM LinkFsmRuns Run

/-- The characters that count for nothing before the first NULL. -/
def isNoise (e : Event) : Bool := e = .gotFct || e = .gotNChar || e = .gotTimeCode

/-- Between two events Ready has no transition due, and the states behind the first NULL have it
latched. -/
structure Settled (f : LinkFSM) : Prop where
  ready : f.state = .ready → f.linkEnabled = false
  gotNull : f.state = .connecting ∨ f.state = .run → f.gotNullLatched = true

variable {f : LinkFSM} {e : Event}

theorem settled_fresh (targetBitRateBps : Int) : Settled (fresh targetBitRateBps) := by
  constructor <;> simp [fresh]

theorem Settled.gotNull_updateFlags (h : Settled f) (hs : f.state = .connecting ∨ f.state = .run) :
    (f.updateFlags e).gotNullLatched = true := by
  rw [updateFlags_gotNullLatched]
  exact .inl (h.gotNull hs)

theorem linkEnabled_of_wait (hs : f.state = .ready) (h : f.handler (some e) = none) :
    f.linkEnabled = false := by
  simp only [handler, hs, inReady] at h
  split at h
  · cases h
  · split at h
    · cases h
    · simpa using ‹¬ f.linkEnabled = true›

theorem Settled.feed (h : Settled f) (e : Event) : Settled (f.feed e) := by
  have hfed := fed f e
  generalize f.feed e = f', f.entered e = ss at hfed
  cases hfed with
  | stay hstay =>
    constructor
    · intro hs
      exact linkEnabled_of_wait hs hstay
    · intro hs
      rw [updateFlags_state] at hs
      exact h.gotNull_updateFlags hs
  | chain hedge hen => constructor <;> simp
  | @enter s hedge hready =>
    cases hedge with
    | wait | start | drop => constructor <;> simp
    | ready =>
      refine ⟨fun _ => ?_, by simp⟩
      rw [linkEnabled_enter_ready]
      exact hready rfl
    | connect hs hsent hgot =>
      refine ⟨by simp, fun _ => ?_⟩
      exact hgot
    | run hs =>
      refine ⟨by simp, fun _ => ?_⟩
      rw [updateFlags_state] at hs
      exact h.gotNull_updateFlags (.inl hs)

theorem feed_noise (h : Settled f) (hnull : f.gotNullLatched = false) (he : isNoise e = true) :
    f.feed e = f := by
  have hflags : f.updateFlags e = f := by
    cases e with
    | gotFct =>
      apply if_neg
      intro hs
      rw [h.gotNull (.inl hs)] at hnull
      cases hnull
    | gotNChar | gotTimeCode => rfl
    | _ => cases he
  have hquiet : f.waitStateError (some e) = false := by
    have herr : e ≠ .rxErr := by
      rintro rfl
      cases he
    simp [waitStateError, hnull, herr]
  have h6 : e ≠ .tick6p4us := by
    rintro rfl
    cases he
  have h12 : e ≠ .tick12p8us := by
    rintro rfl
    cases he
  cases hs : f.state with
  | errorReset => rw [feed_errorReset hs, if_neg fun hc => h6 hc.1, hflags]
  | errorWait => rw [feed_errorWait hs, hflags, hquiet, if_neg (by simp), if_neg h12]
  | ready => rw [feed_ready hs, hflags, hquiet, h.ready hs, if_neg (by simp), if_neg (by simp)]
  | started =>
    rw [feed_started hs, hflags, if_neg (by simp [hquiet, h12]), if_neg (by simp [hnull])]
  | connecting =>
    rw [h.gotNull (.inl hs)] at hnull
    cases hnull
  | run =>
    rw [h.gotNull (.inr hs)] at hnull
    cases hnull

/-- An event of a run, and whether it has been inserted there. -/
structure Arrival where
  event : Event
  inserted : Bool := false

def feedNext (f : LinkFSM) (x : Arrival) : LinkFSM := f.feed x.event

/-- Only noise is inserted, and only where gotNULL is not latched. -/
def BeforeNull (f : LinkFSM) (x : Arrival) : Prop :=
  x.inserted = true → isNoise x.event = true ∧ f.gotNullLatched = false

instance (f : LinkFSM) (x : Arrival) : Decidable (BeforeNull f x) :=
  inferInstanceAs (Decidable (_ → _))

theorem run_feedNext (f : LinkFSM) (xs : List Arrival) :
    run feedNext f xs = run LinkFSM.feed f (xs.map Arrival.event) := by
  induction xs generalizing f with
  | nil => rfl
  | cons x xs ih => exact ih (f.feed x.event)

/-- However much noise is inserted before the first NULL, and at whatever points, the machine is
after every event the one of the run without it, its latches and its output included. -/
theorem noise_invisible (targetBitRateBps : Int) (xs : List Arrival)
    (hxs : Guarded feedNext BeforeNull (fresh targetBitRateBps) xs) {before : List Arrival}
    (hbefore : before <+: xs) :
    run LinkFSM.feed (fresh targetBitRateBps) (before.map Arrival.event) =
      run LinkFSM.feed (fresh targetBitRateBps)
        ((before.filter fun x => !x.inserted).map Arrival.event) := by
  rw [← run_feedNext, ← run_feedNext]
  apply run_skip (I := Settled) (G := BeforeNull) (settled_fresh targetBitRateBps)
  · exact fun f x hf _ => hf.feed x.event
  · intro f x hf hx hinserted
    obtain ⟨hnoise, hnull⟩ := hx hinserted
    exact feed_noise hf hnull hnoise
  · exact hxs.take hbefore

def noisyStart : List Arrival :=
  [⟨.gotNChar, true⟩, ⟨.tick6p4us, false⟩, ⟨.gotFct, true⟩, ⟨.gotTimeCode, true⟩,
    ⟨.tick12p8us, false⟩, ⟨.gotFct, true⟩, ⟨.linkStart, false⟩, ⟨.sentNull, false⟩,
    ⟨.gotNChar, true⟩, ⟨.gotNull, false⟩, ⟨.gotFct, false⟩]

theorem noise_invisible_start :
    Guarded feedNext BeforeNull (fresh 200000000) noisyStart ∧
      run LinkFSM.feed (fresh 200000000) (noisyStart.map Arrival.event) =
        run LinkFSM.feed (fresh 200000000)
          [.tick6p4us, .tick12p8us, .linkStart, .sentNull, .gotNull, .gotFct] := by
  have hxs : Guarded feedNext BeforeNull (fresh 200000000) noisyStart := by decide
  exact ⟨hxs, noise_invisible 200000000 noisyStart hxs (List.prefix_refl noisyStart)⟩

end SpaceWire.Noise
