import Mathlib.Data.List.Basic

/-! # Bounded queues

A queue between one who writes and one who takes.  A write into a full queue is lost; one that
finds room is not, and the order is kept (`all_push`). -/

namespace BoundedFifo

/-- What is in the queue, and what was taken from it. -/
structure State (α : Type*) where
  items : List α
  taken : List α

variable {α : Type*} {n : ℕ} {q q' : State α} {a : α}

/-- There is no room. -/
def Full (n : ℕ) (q : State α) : Prop := n ≤ q.items.length

instance (n : ℕ) (q : State α) : Decidable (Full n q) := inferInstanceAs (Decidable (_ ≤ _))

/-- Write. -/
def push (n : ℕ) (q : State α) (a : α) : State α :=
  if Full n q then q else { q with items := q.items ++ [a] }

/-- Take the first item. -/
inductive Shift : State α → State α → Prop
  | mk (a : α) (l t : List α) : Shift ⟨a :: l, t⟩ ⟨l, t ++ [a]⟩

/-- All that ever was in the queue. -/
def State.all (q : State α) : List α := q.taken ++ q.items

theorem all_push (h : ¬ Full n q) : (push n q a).all = q.all ++ [a] := by
  rw [push, if_neg h]
  exact (List.append_assoc _ _ _).symm

theorem Shift.all_eq (h : Shift q q') : q'.all = q.all := by
  cases h with
  | mk a l t => exact List.append_assoc t [a] l

theorem length_push_le (q : State α) (a : α) : (push n q a).items.length ≤ q.items.length + 1 := by
  unfold push
  split_ifs <;> simp

theorem bound_push (h : q.items.length ≤ n) : (push n q a).items.length ≤ n := by
  unfold push
  split_ifs with hf
  · exact h
  · unfold Full at hf
    rw [List.length_append, List.length_singleton]
    omega

theorem Shift.length_eq (h : Shift q q') : q'.items.length + 1 = q.items.length := by
  cases h with
  | mk a l t => rfl

theorem exists_shift (h : q.items ≠ []) : ∃ q', Shift q q' := by
  obtain ⟨a, l, hl⟩ := List.exists_cons_of_ne_nil h
  have hq : q = ⟨a :: l, q.taken⟩ := by rw [← hl]
  refine ⟨⟨l, q.taken ++ [a]⟩, ?_⟩
  rw [hq]
  exact .mk a l q.taken

end BoundedFifo
