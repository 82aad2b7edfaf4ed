import SpaceWire.Exceptions
import Mathlib.Tactic.Common
import Mathlib.Algebra.Order.Group.Int

namespace SpaceWire

def fctCreditUnits : Int := 8

def maxCredit : Int := 56

def maxOutstandingFcts : Int := 7

/-- Transmit and receive credit, with the running totals of the four events. -/
structure CreditCounter where
  maxRxCredit : Int
  txCredit : Int := 0
  rxCredit : Int := 0
  fctsReceived : Int := 0
  ncharsSent : Int := 0
  fctsSent : Int := 0
  ncharsReceived : Int := 0
  deriving DecidableEq

namespace CreditCounter

def new (maxRxCredit : Int := maxCredit) : Except Exn CreditCounter :=
  if maxRxCredit < 0 then .error (.valueError "max_rx_credit must be non-negative")
  else if maxRxCredit > maxCredit then
    .error (.valueError s!"max_rx_credit {maxRxCredit} exceeds ECSS §5.5.4h/n cap of {maxCredit}")
  else .ok { maxRxCredit }

def onFctReceived (c : CreditCounter) : Except Exn CreditCounter :=
  let newCredit := c.txCredit + fctCreditUnits
  if newCredit > maxCredit then .error (.creditError "fct_overflow")
  else .ok { c with txCredit := newCredit, fctsReceived := c.fctsReceived + 1 }

def onNcharSent (c : CreditCounter) : Except Exn CreditCounter :=
  if c.txCredit ≤ 0 then
    .error (.runtimeError
      "on_nchar_sent called with tx_credit == 0 (caller must gate on can_send)")
  else .ok { c with txCredit := c.txCredit - 1, ncharsSent := c.ncharsSent + 1 }

def canSend (c : CreditCounter) : Bool := 0 < c.txCredit

def onFctSent (c : CreditCounter) : Except Exn CreditCounter :=
  let newCredit := c.rxCredit + fctCreditUnits
  if newCredit > c.maxRxCredit then
    .error (.runtimeError ("on_fct_sent would push rx_credit past max_rx_credit " ++
      "(caller must gate on should_send_fct)"))
  else .ok { c with rxCredit := newCredit, fctsSent := c.fctsSent + 1 }

def onNcharReceived (c : CreditCounter) : Except Exn CreditCounter :=
  if c.rxCredit ≤ 0 then .error (.creditError "nchar_with_zero_rx_credit")
  else .ok { c with rxCredit := c.rxCredit - 1, ncharsReceived := c.ncharsReceived + 1 }

def shouldSendFct (c : CreditCounter) (rxBufferHeadroomNchars : Int) : Bool :=
  if rxBufferHeadroomNchars < fctCreditUnits then false
  else c.rxCredit ≤ c.maxRxCredit - fctCreditUnits

def reset (c : CreditCounter) : CreditCounter := { c with txCredit := 0, rxCredit := 0 }

/-- One FCT for each eight slots of the receive buffer, at most seven. -/
def initialFctCount (rxFifoCapacityNchars : Int) : Except Exn Int :=
  if rxFifoCapacityNchars < 0 then
    .error (.valueError "rx_fifo_capacity_nchars must be non-negative")
  else .ok (min (rxFifoCapacityNchars / fctCreditUnits) maxOutstandingFcts)

@[simp] theorem reset_txCredit (c : CreditCounter) : c.reset.txCredit = 0 := rfl
@[simp] theorem reset_rxCredit (c : CreditCounter) : c.reset.rxCredit = 0 := rfl
@[simp] theorem reset_maxRxCredit (c : CreditCounter) : c.reset.maxRxCredit = c.maxRxCredit := rfl

structure InRange (c : CreditCounter) : Prop where
  tx_nonneg : 0 ≤ c.txCredit
  tx_le : c.txCredit ≤ 56
  rx_nonneg : 0 ≤ c.rxCredit
  rx_le : c.rxCredit ≤ c.maxRxCredit
  max_le : c.maxRxCredit ≤ 56

variable {c c' : CreditCounter}

theorem new_ok {m : Int} (h : new m = .ok c) :
    c = { maxRxCredit := m } ∧ 0 ≤ m ∧ m ≤ 56 := by
  unfold new maxCredit at h
  split at h
  · cases h
  · split at h <;> cases h
    exact ⟨rfl, by omega, by omega⟩

theorem onFctReceived_ok (h : c.onFctReceived = .ok c') :
    c.txCredit + 8 ≤ 56 ∧
      c' = { c with txCredit := c.txCredit + 8, fctsReceived := c.fctsReceived + 1 } := by
  unfold onFctReceived fctCreditUnits maxCredit at h
  dsimp only at h
  split at h <;> cases h
  exact ⟨by omega, rfl⟩

theorem onFctReceived_error {x : Exn} (h : c.onFctReceived = .error x) :
    x = .creditError "fct_overflow" ∧ 56 < c.txCredit + 8 := by
  unfold onFctReceived fctCreditUnits maxCredit at h
  dsimp only at h
  split at h <;> cases h
  exact ⟨rfl, by omega⟩

theorem onNcharSent_ok (h : c.onNcharSent = .ok c') :
    0 < c.txCredit ∧
      c' = { c with txCredit := c.txCredit - 1, ncharsSent := c.ncharsSent + 1 } := by
  unfold onNcharSent at h
  split at h <;> cases h
  exact ⟨by omega, rfl⟩

theorem onNcharSent_of_canSend (h : c.canSend = true) :
    c.onNcharSent =
      .ok { c with txCredit := c.txCredit - 1, ncharsSent := c.ncharsSent + 1 } := by
  have hpos : ¬ c.txCredit ≤ 0 := by simpa [canSend] using h
  simp [onNcharSent, hpos]

theorem onFctSent_ok (h : c.onFctSent = .ok c') :
    c.rxCredit + 8 ≤ c.maxRxCredit ∧
      c' = { c with rxCredit := c.rxCredit + 8, fctsSent := c.fctsSent + 1 } := by
  unfold onFctSent fctCreditUnits at h
  dsimp only at h
  split at h <;> cases h
  exact ⟨by omega, rfl⟩

theorem onFctSent_of_le (h : c.rxCredit + 8 ≤ c.maxRxCredit) :
    c.onFctSent = .ok { c with rxCredit := c.rxCredit + 8, fctsSent := c.fctsSent + 1 } := by
  have hle : ¬ c.rxCredit + 8 > c.maxRxCredit := by omega
  simp [onFctSent, fctCreditUnits, hle]

theorem onNcharReceived_ok (h : c.onNcharReceived = .ok c') :
    0 < c.rxCredit ∧
      c' = { c with rxCredit := c.rxCredit - 1, ncharsReceived := c.ncharsReceived + 1 } := by
  unfold onNcharReceived at h
  split at h <;> cases h
  exact ⟨by omega, rfl⟩

theorem onNcharReceived_error {x : Exn} (h : c.onNcharReceived = .error x) :
    x = .creditError "nchar_with_zero_rx_credit" ∧ c.rxCredit ≤ 0 := by
  unfold onNcharReceived at h
  split at h <;> cases h
  exact ⟨rfl, by omega⟩

theorem shouldSendFct_iff {headroom : Int} :
    c.shouldSendFct headroom = true ↔ 8 ≤ headroom ∧ c.rxCredit + 8 ≤ c.maxRxCredit := by
  unfold shouldSendFct fctCreditUnits
  split
  · simp; omega
  · simp; omega

theorem InRange.reset (h : c.InRange) : c.reset.InRange :=
  ⟨by simp, by simp, by simp, by simpa using h.rx_nonneg.trans h.rx_le, h.max_le⟩

theorem InRange.onFctReceived (h : c.InRange) (hc : c.onFctReceived = .ok c') : c'.InRange := by
  obtain ⟨hle, rfl⟩ := onFctReceived_ok hc
  exact ⟨by have := h.tx_nonneg; simp; omega, hle, h.rx_nonneg, h.rx_le, h.max_le⟩

theorem InRange.onNcharSent (h : c.InRange) (hc : c.onNcharSent = .ok c') : c'.InRange := by
  obtain ⟨hpos, rfl⟩ := onNcharSent_ok hc
  exact ⟨by simp; omega, by have := h.tx_le; simp; omega, h.rx_nonneg, h.rx_le, h.max_le⟩

theorem InRange.onFctSent (h : c.InRange) (hc : c.onFctSent = .ok c') : c'.InRange := by
  obtain ⟨hle, rfl⟩ := onFctSent_ok hc
  exact ⟨h.tx_nonneg, h.tx_le, by have := h.rx_nonneg; simp; omega, hle, h.max_le⟩

theorem InRange.onNcharReceived (h : c.InRange) (hc : c.onNcharReceived = .ok c') :
    c'.InRange := by
  obtain ⟨hpos, rfl⟩ := onNcharReceived_ok hc
  exact ⟨h.tx_nonneg, h.tx_le, by simp; omega, by have := h.rx_le; simp; omega, h.max_le⟩

end CreditCounter

end SpaceWire
