import AArch64Os.Lib.Runs
import Mathlib.Data.Set.Insert

/-! # Caches that fill at any time

A system in a state `s` gives some keys a value, `give s`.  A cache holds pairs of a key and a
value; it may take in any pair that the current state gives, and a step of the system drops the
keys that `drops` names.  `Filled` are the contents that a cache can have along a trace.  They
are right in every state of the trace exactly if each step keeps every value that it does not
drop (`coherent_iff`). -/

namespace Cache

open Runs

variable {σ ι α δ : Type*} (give : σ → α → Option δ) (drops : σ → ι → α → Prop)
  (step : σ → ι → σ → Prop) (a : σ)

/-- The contents of a cache at the end of a trace from `a`. -/
inductive Filled : List (σ × ι × σ) → σ → Set (α × δ) → Prop
  | start : Filled [] a ∅
  | fill {t : List (σ × ι × σ)} {b : σ} {T : Set (α × δ)} {x : α} {d : δ} (h : Filled t b T)
      (hd : give b x = some d) : Filled t b (insert (x, d) T)
  | next {t : List (σ × ι × σ)} {b c : σ} {i : ι} {T : Set (α × δ)} (h : Filled t b T)
      (hs : step b i c) : Filled ((b, i, c) :: t) c {e ∈ T | ¬ drops b i e.1}

/-- Every pair in the cache is what the state gives. -/
def Coherent (b : σ) (T : Set (α × δ)) : Prop := ∀ e ∈ T, give b e.1 = some e.2

/-- The step drops each key whose value it changes. -/
def Keeps (b : σ) (i : ι) (c : σ) : Prop :=
  ∀ x d, give b x = some d → ¬ drops b i x → give c x = some d

section
variable {give drops step a} {t : List (σ × ι × σ)} {b : σ} {T : Set (α × δ)}

/-- A cache that never fills. -/
theorem filled_empty (h : Trace step a t b) : Filled give drops step a t b ∅ := by
  induction h with
  | start => exact .start
  | next _ hs ih =>
      have hn := ih.next hs
      rw [Set.sep_empty] at hn
      exact hn

/-- Steps that drop what they change leave a right cache. -/
theorem Filled.coherent (h : Filled give drops step a t b T)
    (hk : ∀ x ∈ t, Keeps give drops x.1 x.2.1 x.2.2) : Coherent give b T := by
  induction h with
  | start => exact fun e he => he.elim
  | fill _ hd ih =>
      rintro e (rfl | he)
      · exact hd
      · exact ih hk e he
  | next _ _ ih =>
      rw [List.forall_mem_cons] at hk
      rintro e ⟨he, hdrop⟩
      exact hk.1 e.1 e.2 (ih hk.2 e he) hdrop

/-- **Exactly the steps that drop what they change** keep every cache right. -/
theorem coherent_iff (h : Trace step a t b) :
    (∀ u c T, u <:+ t → Filled give drops step a u c T → Coherent give c T) ↔
      ∀ x ∈ t, Keeps give drops x.1 x.2.1 x.2.2 := by
  constructor
  · intro hc
    induction h with
    | start => simp
    | next h hs ih =>
        rw [List.forall_mem_cons]
        refine ⟨?_, ih (fun u c T hu => hc u c T (hu.trans (List.suffix_cons _ _)))⟩
        -- the cache that took in this one pair just before the step
        intro x d hd hdrop
        apply hc _ _ _ List.suffix_rfl (((filled_empty h).fill hd).next hs) (x, d)
        exact ⟨Set.mem_insert _ _, hdrop⟩
  · intro hk u c T hu hf
    exact hf.coherent (fun x hx => hk x (hu.subset hx))

end
end Cache
