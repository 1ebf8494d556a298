import AArch64Os.Lib.Runs
import Mathlib.Data.List.Basic

/-! # First come, first served, with a quantum

A line of waiting customers of whom the front one is served next.  Time passes in ticks; the
customer on service has some ticks left, and whoever is served gets a quantum of `q`.  More
customers may line up at any moment.  Nobody is overtaken or skipped (`served_append`), and
everyone is served in bounded time (`served_of_ticks`). -/

namespace Fifo

open Runs

variable {α : Type*}

/-- Who waits, the front first, and the ticks that are left to the customer on service. -/
structure Line (α : Type*) where
  waiting : List α
  left : ℕ

/-- What a step shows: whether time passes, and who is served. -/
structure Event (α : Type*) where
  tick : Bool
  served : Option α

/-- One step.  Without a service a tick uses up time, and time may be given up; even with
nothing left the service lasts until the next tick. -/
inductive Step (q : ℕ) : Line α → Event α → Line α → Prop
  | wait {l ext : List α} {n m : ℕ} {tick : Bool} (h : max 1 m + tick.toNat ≤ max 1 n) :
      Step q ⟨l, n⟩ ⟨tick, none⟩ ⟨l ++ ext, m⟩
  | serve {l ext l' : List α} {x : α} {n : ℕ} {tick : Bool} (h : l ++ ext = x :: l') :
      Step q ⟨l, n⟩ ⟨tick, some x⟩ ⟨l', q⟩

/-- A step in which nobody comes and nobody is served. -/
theorem Step.stay {q : ℕ} {l : List α} {n m : ℕ} {tick : Bool}
    (h : max 1 m + tick.toNat ≤ max 1 n) : Step q ⟨l, n⟩ ⟨tick, none⟩ ⟨l, m⟩ := by
  have hs : Step q ⟨l, n⟩ ⟨tick, none⟩ ⟨l ++ [], m⟩ := .wait h
  rwa [List.append_nil] at hs

/-- Who was served in a trace, in the order of the services; `es` has the last event first. -/
def served (es : List (Event α)) : List α := es.reverse.filterMap Event.served

/-- How many ticks have passed. -/
def ticks (es : List (Event α)) : ℕ := es.countP Event.tick

theorem served_cons (e : Event α) (es : List (Event α)) :
    served (e :: es) = served es ++ e.served.toList := by
  unfold served
  rw [List.reverse_cons, List.filterMap_append]
  cases h : e.served with
  | none => rw [List.filterMap_cons_none h]; rfl
  | some x => rw [List.filterMap_cons_some h]; rfl

theorem ticks_cons (e : Event α) (es : List (Event α)) :
    ticks (e :: es) = ticks es + e.tick.toNat := by
  unfold ticks
  rw [List.countP_cons]
  cases e.tick <;> rfl

section
variable {q : ℕ} {a b : Line α} {t : List (Line α × Event α × Line α)}

/-- **Nobody is overtaken or skipped**: those served and those who still wait are, in this order,
those who waited at first and those who came later. -/
theorem served_append (h : Trace (Step q) a t b) :
    ∃ ext, a.waiting ++ ext = served (t.map (·.2.1)) ++ b.waiting := by
  induction h with
  | start => exact ⟨[], List.append_nil _⟩
  | next _ hs ih =>
      obtain ⟨ext, he⟩ := ih
      rw [List.map_cons, served_cons]
      cases hs with
      | @wait l e n m tick =>
          refine ⟨ext ++ e, ?_⟩
          rw [← List.append_assoc, he, List.append_assoc]
          exact congrArg (· ++ _) (List.append_nil _).symm
      | @serve l e l' x n tick hl =>
          refine ⟨ext ++ e, ?_⟩
          rw [← List.append_assoc, he, List.append_assoc]
          show _ ++ (l ++ e) = _
          rw [hl, List.append_assoc]
          rfl

/-- Every tick brings the next service nearer, and a service is at most a quantum away from the
one before. -/
theorem ticks_le (hq : 1 ≤ q) (h : Trace (Step q) a t b) :
    max 1 b.left + ticks (t.map (·.2.1)) ≤
      max 1 a.left + q * (served (t.map (·.2.1))).length := by
  induction h with
  | start => exact Nat.le_refl _
  | next _ hs ih =>
      rw [List.map_cons, served_cons, ticks_cons, List.length_append]
      cases hs with
      | @wait l e n m tick hm =>
          simp only [Option.toList_none, List.length_nil, Nat.add_zero] at ih ⊢
          omega
      | @serve l e l' x n tick hl =>
          have htick : tick.toNat ≤ 1 := Bool.toNat_le tick
          simp only [Option.toList_some, List.length_singleton, Nat.mul_add, Nat.mul_one] at ih ⊢
          omega

/-- The customer at position `j` of the line is the `j + 1`-st to be served. -/
theorem served_eq (h : Trace (Step q) a t b) {j : ℕ} (hj : j < a.waiting.length) {y : α}
    (hy : (served (t.map (·.2.1)))[j]? = some y) : a.waiting[j]? = some y := by
  obtain ⟨ext, he⟩ := served_append h
  obtain ⟨hlt, -⟩ := List.getElem?_eq_some_iff.mp hy
  calc a.waiting[j]? = (a.waiting ++ ext)[j]? := (List.getElem?_append_left hj).symm
    _ = some y := by rw [he, List.getElem?_append_left hlt, hy]

/-- **Everyone is served in bounded time.** -/
theorem served_of_ticks (hq : 1 ≤ q) (h : Trace (Step q) a t b) {k : ℕ} {x : α}
    (hx : a.waiting[k]? = some x) (hn : max 1 a.left + q * k ≤ ticks (t.map (·.2.1))) :
    (served (t.map (·.2.1)))[k]? = some x := by
  have hk : k < (served (t.map (·.2.1))).length := by
    by_contra hc
    have hle := Nat.mul_le_mul_left q (Nat.not_lt.mp hc)
    have hb := ticks_le hq h
    omega
  have hy := List.getElem?_eq_getElem hk
  have hlen : k < a.waiting.length := (List.getElem?_eq_some_iff.mp hx).1
  rw [hy, ← served_eq h hlen hy, hx]

end
end Fifo
