import Mathlib.Data.List.Basic

/-! A queue of scheduled events. An event has a handle and what it calls; it can be cancelled by its handle, and fires
once. A handle may outlive its event. -/

namespace NfdPitless

structure TimerEvent (α : Type) where
  id : Nat
  due : Nat
  callback : α
  deriving DecidableEq

structure TimerQueue (α : Type) where
  pending : List (TimerEvent α)
  nextId : Nat

namespace TimerQueue

variable {α : Type}

def empty : TimerQueue α := { pending := [], nextId := 0 }

/-- The event gets the next handle. -/
def schedule (q : TimerQueue α) (due : Nat) (callback : α) : TimerQueue α :=
  { pending := q.pending ++ [⟨q.nextId, due, callback⟩], nextId := q.nextId + 1 }

/-- No handle, or one whose event is gone, is nothing to cancel. -/
def cancel (q : TimerQueue α) (id : Option Nat) : TimerQueue α :=
  { q with pending := q.pending.filter fun e => decide (id ≠ some e.id) }

/-- The event of a handle if it is pending and due. -/
def dueEvent (q : TimerQueue α) (now id : Nat) : Option (TimerEvent α) :=
  q.pending.find? fun e => e.id == id && decide (e.due ≤ now)

variable {q : TimerQueue α} {e : TimerEvent α} {now due id : Nat} {callback : α}

@[simp] theorem mem_schedule : e ∈ (q.schedule due callback).pending ↔ e ∈ q.pending ∨
    e = ⟨q.nextId, due, callback⟩ := by
  rw [schedule, List.mem_append, List.mem_singleton]

@[simp] theorem mem_cancel {id : Option Nat} : e ∈ (q.cancel id).pending ↔ e ∈ q.pending ∧ id ≠ some e.id := by
  rw [cancel, List.mem_filter, decide_eq_true_iff]

theorem mem_of_dueEvent (h : q.dueEvent now id = some e) : e ∈ q.pending ∧ e.id = id ∧ e.due ≤ now := by
  have hcond := List.find?_some h
  rw [Bool.and_eq_true, beq_iff_eq, decide_eq_true_iff] at hcond
  exact ⟨List.mem_of_find?_eq_some h, hcond⟩

end TimerQueue
end NfdPitless
