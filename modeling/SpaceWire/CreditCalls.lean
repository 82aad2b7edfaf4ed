import SpaceWire.FlowControl
import SpaceWire.Run

namespace SpaceWire

open Run

/-- A method of a credit counter, one statement after another: what has been assigned before an
exception stays assigned. -/
abbrev CreditMethod := EStateM Exn CreditCounter Unit

namespace CreditMethod

def onFctReceived : CreditMethod := do
  let newCredit := (← get).txCredit + fctCreditUnits
  if newCredit > maxCredit then throw (.creditError "fct_overflow")
  modify fun c => { c with txCredit := newCredit }
  modify fun c => { c with fctsReceived := c.fctsReceived + 1 }

def onNcharSent : CreditMethod := do
  if (← get).txCredit ≤ 0 then
    throw (.runtimeError "on_nchar_sent called with tx_credit == 0 (caller must gate on can_send)")
  modify fun c => { c with txCredit := c.txCredit - 1 }
  modify fun c => { c with ncharsSent := c.ncharsSent + 1 }

def onFctSent : CreditMethod := do
  let newCredit := (← get).rxCredit + fctCreditUnits
  if newCredit > (← get).maxRxCredit then
    throw (.runtimeError ("on_fct_sent would push rx_credit past max_rx_credit " ++
      "(caller must gate on should_send_fct)"))
  modify fun c => { c with rxCredit := newCredit }
  modify fun c => { c with fctsSent := c.fctsSent + 1 }

def onNcharReceived : CreditMethod := do
  if (← get).rxCredit ≤ 0 then throw (.creditError "nchar_with_zero_rx_credit")
  modify fun c => { c with rxCredit := c.rxCredit - 1 }
  modify fun c => { c with ncharsReceived := c.ncharsReceived + 1 }

def reset : CreditMethod := do
  modify fun c => { c with txCredit := 0 }
  modify fun c => { c with rxCredit := 0 }

end CreditMethod

inductive CreditCall
  | onFctReceived | onNcharSent | onFctSent | onNcharReceived | reset
  deriving DecidableEq

def CreditCall.method : CreditCall → CreditMethod
  | .onFctReceived => CreditMethod.onFctReceived
  | .onNcharSent => CreditMethod.onNcharSent
  | .onFctSent => CreditMethod.onFctSent
  | .onNcharReceived => CreditMethod.onNcharReceived
  | .reset => CreditMethod.reset

namespace CreditCounter

def call (c : CreditCounter) (m : CreditCall) : EStateM.Result Exn CreditCounter Unit :=
  m.method.run c

def apply (c : CreditCounter) : CreditCall → Except Exn CreditCounter
  | .onFctReceived => c.onFctReceived
  | .onNcharSent => c.onNcharSent
  | .onFctSent => c.onFctSent
  | .onNcharReceived => c.onNcharReceived
  | .reset => .ok c.reset

/-- No method assigns anything before it raises. -/
theorem call_eq (c : CreditCounter) (m : CreditCall) :
    c.call m = match c.apply m with
      | .error err => .error err c
      | .ok c' => .ok () c' := by
  cases m with
  | onFctReceived =>
    by_cases h : maxCredit < c.txCredit + fctCreditUnits <;>
      simp [call, CreditCall.method, CreditMethod.onFctReceived, apply, onFctReceived, h]
  | onNcharSent =>
    by_cases h : c.txCredit ≤ 0 <;>
      simp [call, CreditCall.method, CreditMethod.onNcharSent, apply, onNcharSent, h]
  | onFctSent =>
    by_cases h : c.maxRxCredit < c.rxCredit + fctCreditUnits <;>
      simp [call, CreditCall.method, CreditMethod.onFctSent, apply, onFctSent, h,
        -String.reduceAppend]
  | onNcharReceived =>
    by_cases h : c.rxCredit ≤ 0 <;>
      simp [call, CreditCall.method, CreditMethod.onNcharReceived, apply, onNcharReceived, h]
  | reset => simp [call, CreditCall.method, CreditMethod.reset, apply, reset]

theorem call_ok {c c' : CreditCounter} {m : CreditCall} (h : c.call m = .ok () c') :
    c.apply m = .ok c' := by
  rw [call_eq] at h
  split at h <;> cases h
  assumption

theorem call_error {c c' : CreditCounter} {m : CreditCall} {err : Exn}
    (h : c.call m = .error err c') : c' = c ∧ c.apply m = .error err := by
  rw [call_eq] at h
  split at h <;> cases h
  exact ⟨rfl, by assumption⟩

end CreditCounter

/-- A counter, and the calls made on it: which method, and whether it returned. -/
structure CreditRun where
  counter : CreditCounter
  log : List (CreditCall × Bool) := []

namespace CreditRun

def step (r : CreditRun) (m : CreditCall) : CreditRun :=
  match r.counter.call m with
  | .ok _ counter => { counter, log := r.log ++ [(m, true)] }
  | .error _ counter => { counter, log := r.log ++ [(m, false)] }

/-- The calls of a method that have returned since the last reset. -/
def successes (log : List (CreditCall × Bool)) (m : CreditCall) : Nat :=
  (log.reverse.takeWhile fun x => x.1 ≠ .reset).count (m, true)

@[simp] theorem successes_nil (m : CreditCall) : successes [] m = 0 := rfl

theorem successes_concat (log : List (CreditCall × Bool)) (m m' : CreditCall) (ok : Bool) :
    successes (log ++ [(m', ok)]) m =
      if m' = .reset then 0 else successes log m + if m' = m ∧ ok = true then 1 else 0 := by
  by_cases h : m' = .reset
  · simp [successes, h]
  · simp [successes, h, List.count_cons]

/-- Each credit is what the calls since the last reset have made of it. -/
structure Exact (r : CreditRun) : Prop where
  inRange : r.counter.InRange
  tx : r.counter.txCredit =
    8 * successes r.log .onFctReceived - successes r.log .onNcharSent
  rx : r.counter.rxCredit = 8 * successes r.log .onFctSent - successes r.log .onNcharReceived

theorem Exact.step {r : CreditRun} (h : Exact r) (m : CreditCall) :
    Exact (r.step m) ∧ (r.step m).counter.maxRxCredit = r.counter.maxRxCredit := by
  obtain ⟨hr, htx, hrx⟩ := h
  unfold CreditRun.step
  cases hcall : r.counter.call m with
  | error err c' =>
    obtain ⟨rfl, happly⟩ := CreditCounter.call_error hcall
    have hne : m ≠ .reset := by
      rintro rfl
      cases happly
    refine ⟨⟨hr, ?_, ?_⟩, rfl⟩ <;> simpa [successes_concat, hne]
  | ok u c' =>
    have happly := CreditCounter.call_ok hcall
    cases m with
    | onFctReceived =>
      have hrange := hr.onFctReceived happly
      obtain ⟨-, rfl⟩ := CreditCounter.onFctReceived_ok happly
      refine ⟨⟨hrange, ?_, ?_⟩, rfl⟩ <;> simp [successes_concat] <;> omega
    | onNcharSent =>
      have hrange := hr.onNcharSent happly
      obtain ⟨-, rfl⟩ := CreditCounter.onNcharSent_ok happly
      refine ⟨⟨hrange, ?_, ?_⟩, rfl⟩ <;> simp [successes_concat] <;> omega
    | onFctSent =>
      have hrange := hr.onFctSent happly
      obtain ⟨-, rfl⟩ := CreditCounter.onFctSent_ok happly
      refine ⟨⟨hrange, ?_, ?_⟩, rfl⟩ <;> simp [successes_concat] <;> omega
    | onNcharReceived =>
      have hrange := hr.onNcharReceived happly
      obtain ⟨-, rfl⟩ := CreditCounter.onNcharReceived_ok happly
      refine ⟨⟨hrange, ?_, ?_⟩, rfl⟩ <;> simp [successes_concat] <;> omega
    | reset =>
      cases happly
      refine ⟨⟨hr.reset, ?_, ?_⟩, rfl⟩ <;> simp [successes_concat]

theorem run_exact {m : Int} {c : CreditCounter} (h : CreditCounter.new m = .ok c)
    (calls : List CreditCall) :
    Exact (run step { counter := c } calls) ∧
      (run step { counter := c } calls).counter.maxRxCredit = m := by
  obtain ⟨rfl, hpos, hle⟩ := CreditCounter.new_ok h
  have h0 : Exact { counter := { maxRxCredit := m } } :=
    ⟨⟨le_rfl, by simp, le_rfl, hpos, hle⟩, by simp, by simp⟩
  exact @run_keeps _ _ step (fun r => Exact r ∧ r.counter.maxRxCredit = m) _ calls ⟨h0, rfl⟩
    fun r a _ hr => ⟨(hr.1.step a).1, (hr.1.step a).2.trans hr.2⟩

/-- The counters are exact after any calls, those that raise included, and a call raises
exactly when its guard says so, leaving the counter as it was. -/
theorem counters_exact {m : Int} (h0 : 0 ≤ m) (h56 : m ≤ 56) :
    ∃ c, CreditCounter.new m = .ok c ∧ ∀ calls,
      let r := run step { counter := c } calls
      (0 ≤ r.counter.txCredit ∧ r.counter.txCredit ≤ 56) ∧
        (0 ≤ r.counter.rxCredit ∧ r.counter.rxCredit ≤ m) ∧
        r.counter.txCredit =
          8 * successes r.log .onFctReceived - successes r.log .onNcharSent ∧
        r.counter.rxCredit =
          8 * successes r.log .onFctSent - successes r.log .onNcharReceived ∧
        (∀ call err c', r.counter.call call = .error err c' → c' = r.counter) ∧
        ((∃ err c', r.counter.call .onNcharSent = .error err c') ↔ r.counter.canSend = false) ∧
        ((∃ headroom, r.counter.shouldSendFct headroom = true) →
          ∃ c', r.counter.call .onFctSent = .ok () c') := by
  have hnew : CreditCounter.new m = .ok { maxRxCredit := m } := by
    simp [CreditCounter.new, maxCredit, not_lt.mpr h0, not_lt.mpr h56]
  refine ⟨_, hnew, fun calls => ?_⟩
  intro r
  obtain ⟨⟨hr, htx, hrx⟩, hmax⟩ := run_exact hnew calls
  refine ⟨⟨hr.tx_nonneg, hr.tx_le⟩, ⟨hr.rx_nonneg, hmax ▸ hr.rx_le⟩, htx, hrx,
    fun call err c' hcall => (CreditCounter.call_error hcall).1, ?_, fun ⟨headroom, hsend⟩ => ?_⟩
  · rw [CreditCounter.call_eq]
    by_cases hle : r.counter.txCredit ≤ 0
    · simp [CreditCounter.apply, CreditCounter.onNcharSent, CreditCounter.canSend, hle]
    · simp [CreditCounter.apply, CreditCounter.onNcharSent, CreditCounter.canSend, hle]
  · have hle := (CreditCounter.shouldSendFct_iff.mp hsend).2
    rw [CreditCounter.call_eq]
    simp [CreditCounter.apply, CreditCounter.onFctSent_of_le hle]

theorem counters_exact_window :
    let r := run step { counter := { maxRxCredit := 20 } }
      [.onFctSent, .onFctSent, .onFctSent, .onNcharReceived, .onNcharSent]
    (0 ≤ r.counter.rxCredit ∧ r.counter.rxCredit ≤ 20) ∧ r.counter.rxCredit = 15 := by
  obtain ⟨c, hnew, h⟩ := @counters_exact 20 (by decide) (by decide)
  cases hnew
  exact ⟨(h _).2.1, by decide⟩

end CreditRun

end SpaceWire
