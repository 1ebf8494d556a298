import AArch64Os.Lib.Runs
import Mathlib.Logic.Function.Basic

/-! # Stores of objects

What a memory allocator is for, without addresses and free lists: objects with names, which come
and go, and the contents of each of them, which nobody changes but its owner (`Step.keeps`). -/

namespace Objects

open Runs

variable {ι β : Type*}

/-- What is live, and what it holds. -/
abbrev Store (ι β : Type*) := ι → Option β

/-- An operation with the contents that it may leave. -/
inductive Op (ι β : Type*)
  | new (i : ι) (ok : β → Prop)
  | set (i : ι) (ok : β → Prop)
  | drop (i : ι)
  | skip

/-- Whether the operation is made by the owner of an object. -/
def Op.Touches (i : ι) : Op ι β → Prop
  | .set j _ => j = i
  | .drop j => j = i
  | _ => False

inductive Step [DecidableEq ι] : Store ι β → Op ι β → Store ι β → Prop
  | new {s : Store ι β} {i : ι} {ok : β → Prop} {b : β} (h : s i = none) (hb : ok b) :
      Step s (.new i ok) (Function.update s i (some b))
  | set {s : Store ι β} {i : ι} {ok : β → Prop} {b : β} (h : s i ≠ none) (hb : ok b) :
      Step s (.set i ok) (Function.update s i (some b))
  | drop {s : Store ι β} {i : ι} (h : s i ≠ none) : Step s (.drop i) (Function.update s i none)
  | skip (s : Store ι β) : Step s .skip s

variable [DecidableEq ι] {s s' : Store ι β} {o : Op ι β} {i : ι} {b : β}

/-- Nobody but the owner changes an object. -/
theorem Step.keeps (h : Step s o s') (hb : s i = some b) (ho : ¬ o.Touches i) : s' i = some b := by
  cases h with
  | @new j _ _ hnone _ =>
      have hne : i ≠ j := by
        rintro rfl
        rw [hnone] at hb
        cases hb
      rw [Function.update_of_ne hne, hb]
  | set _ _ => rw [Function.update_of_ne (fun he => ho he.symm), hb]
  | drop _ => rw [Function.update_of_ne (fun he => ho he.symm), hb]
  | skip => exact hb

/-- **An object persists** through a run in which its owner does nothing to it. -/
theorem persists {t : List (Store ι β × Op ι β × Store ι β)} (h : Trace Step s t s')
    (hb : s i = some b) (ho : ∀ o ∈ t.map (·.2.1), ¬ o.Touches i) : s' i = some b := by
  rw [List.forall_mem_map] at ho
  exact trace_invariant (I := fun s => s i = some b) hb (fun _ _ _ hI hs hc => hs.keeps hI hc) h ho

end Objects
