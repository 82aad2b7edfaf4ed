import Mathlib.Data.List.Basic
import Mathlib.Tactic.Common

namespace SpaceWire.Draining

variable {α : Type*}

/-- A call that has enqueued items and waits for all that is enqueued to be delivered: how many
items others had enqueued before it, its own, and whether it has been let return. -/
structure Call (α : Type*) where
  before : Nat
  items : List α
  returned : Bool

/-- Everything that was enqueued and everything that was delivered, oldest first, and the calls. -/
structure Ledger (α : Type*) where
  enqueued : List α := []
  delivered : List α := []
  calls : List (Call α) := []

def Call.In (call : Call α) (history : List α) : Prop :=
  ∃ earlier later, history = earlier ++ call.items ++ later ∧ earlier.length = call.before

theorem Call.In.append {call : Call α} {history : List α} (h : call.In history) (more : List α) :
    call.In (history ++ more) := by
  obtain ⟨earlier, later, rfl, hlen⟩ := h
  exact ⟨earlier, later ++ more, by simp, hlen⟩

namespace Ledger

def newCall (g : Ledger α) (items : List α) : List (Call α) :=
  if items.isEmpty then []
  else [{ before := g.enqueued.length, items, returned := false }]

/-- Items are enqueued by one call, others are delivered, and the drained event, where it is set
now, lets all that wait return. -/
def step (g : Ledger α) (items delivered : List α) (drained : Bool) : Ledger α where
  enqueued := g.enqueued ++ items
  delivered := g.delivered ++ delivered
  calls := (g.calls ++ g.newCall items).map fun call =>
    { call with returned := call.returned || drained }

/-- The undelivered items are those pending, and a call that has returned has had its own
delivered. -/
structure Sound (g : Ledger α) (pending : List α) : Prop where
  flow : g.enqueued = g.delivered ++ pending
  placed : ∀ call ∈ g.calls, call.In g.enqueued
  served : ∀ call ∈ g.calls, call.returned = true → call.In g.delivered

variable {g : Ledger α} {pending pending' items delivered : List α} {drained : Bool}

theorem sound_empty : Sound ({} : Ledger α) [] := ⟨rfl, by simp, by simp⟩

theorem Sound.placed_step (h : Sound g pending) {call : Call α}
    (hmem : call ∈ g.calls ++ g.newCall items) : call.In (g.enqueued ++ items) := by
  obtain hmem | hmem := List.mem_append.mp hmem
  · exact (h.placed call hmem).append items
  · unfold newCall at hmem
    split at hmem
    · cases hmem
    · obtain rfl := List.mem_singleton.mp hmem
      exact ⟨g.enqueued, [], by simp, rfl⟩

theorem Sound.step (h : Sound g pending) (hflow : delivered ++ pending' = pending ++ items)
    (hdrained : drained = true → pending' = []) :
    Sound (g.step items delivered drained) pending' := by
  have hall : g.enqueued ++ items = g.delivered ++ delivered ++ pending' := by
    rw [h.flow, List.append_assoc, List.append_assoc, hflow]
  refine ⟨hall, ?_, ?_⟩
  · intro call hcall
    obtain ⟨call, hmem, rfl⟩ := List.mem_map.mp hcall
    have hplaced := h.placed_step hmem
    exact hplaced
  · intro call hcall hreturned
    obtain ⟨call, hmem, rfl⟩ := List.mem_map.mp hcall
    cases drained with
    | true =>
      have hplaced := h.placed_step hmem
      rw [hall, hdrained rfl, List.append_nil] at hplaced
      exact hplaced
    | false =>
      have hbefore : call.returned = true := by simpa using hreturned
      obtain hold | hnew := List.mem_append.mp hmem
      · exact (h.served call hold hbefore).append delivered
      · unfold newCall at hnew
        split at hnew
        · cases hnew
        · rw [List.mem_singleton.mp hnew] at hbefore
          cases hbefore

end Ledger

end SpaceWire.Draining
