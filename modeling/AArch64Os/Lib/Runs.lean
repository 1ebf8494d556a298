import Mathlib.Logic.Relation
import Mathlib.Data.List.Basic

/-! # Runs of a transition system

A run of a step relation is a path of its reflexive transitive closure.  An inductive invariant
holds in every state of a run (`run_invariant`).  A counted loop whose rounds may get stuck has the
same rule: what a round preserves (`loop_invariant`), and when the loop comes to its end
(`loop_total`).

A run that notes its steps is a `Trace`.  When a property of single steps fails exactly where a
condition fails, as long as an invariant holds that the steps under the condition preserve, a
whole trace has the property exactly if all its steps meet the condition (`trace_exact`).
A relation that every step preserves by an abstract step relates the ends of a trace to those of an
abstract one (`trace_simulation`). -/

namespace Runs

open Relation

variable {σ τ : Type*} {step : σ → σ → Prop} {astep : τ → τ → Prop}

/-- What holds initially and is preserved by every step holds at the end of every run. -/
theorem run_invariant {I : σ → Prop} {a b : σ} (h0 : I a)
    (hs : ∀ s s', I s → step s s' → I s') (h : ReflTransGen step a b) : I b := by
  induction h with
  | refl => exact h0
  | tail _ hst ih => exact hs _ _ ih hst

/-! ### Counted loops that may get stuck -/

section
variable {f : σ → ℕ → Option σ} {I : ℕ → σ → Prop} {n : ℕ} {s s' : σ}

/-- What every round preserves holds after the last round. -/
theorem loop_invariant (h0 : I 0 s)
    (hs : ∀ i < n, ∀ s s', I i s → f s i = some s' → I (i + 1) s')
    (h : (List.range n).foldlM f s = some s') : I n s' := by
  induction n generalizing s' with
  | zero =>
      cases h
      exact h0
  | succ n ih =>
      rw [List.range_succ, List.foldlM_append] at h
      obtain ⟨t, ht, hlast⟩ := Option.bind_eq_some_iff.mp h
      simp only [List.foldlM_cons, List.foldlM_nil] at hlast
      obtain ⟨t', ht', hpure⟩ := Option.bind_eq_some_iff.mp hlast
      cases hpure
      exact hs n (by omega) t s' (ih (fun i hi => hs i (by omega)) ht) ht'

/-- When every round goes through, the loop does. -/
theorem loop_total (h0 : I 0 s)
    (hs : ∀ i < n, ∀ s, I i s → ∃ s', f s i = some s' ∧ I (i + 1) s') :
    ∃ s', (List.range n).foldlM f s = some s' ∧ I n s' := by
  induction n with
  | zero => exact ⟨s, rfl, h0⟩
  | succ n ih =>
      obtain ⟨t, ht, hi⟩ := ih (fun i hi => hs i (by omega))
      obtain ⟨t', ht', hi'⟩ := hs n (by omega) t hi
      refine ⟨t', ?_, hi'⟩
      rw [List.range_succ, List.foldlM_append, ht]
      simp only [List.foldlM_cons, List.foldlM_nil, Option.bind_eq_bind, Option.bind_some, ht']
      rfl

/-- Two loops whose rounds agree as long as an invariant of the second holds. -/
theorem loop_congr {g : σ → ℕ → Option σ} (h0 : I 0 s) (hfg : ∀ i < n, ∀ s, I i s → f s i = g s i)
    (hs : ∀ i < n, ∀ s s', I i s → g s i = some s' → I (i + 1) s') :
    (List.range n).foldlM f s = (List.range n).foldlM g s := by
  induction n with
  | zero => rfl
  | succ n ih =>
      have ih' := ih (fun i hi => hfg i (by omega)) (fun i hi => hs i (by omega))
      rw [List.range_succ, List.foldlM_append, List.foldlM_append, ih']
      cases hg : (List.range n).foldlM g s with
      | none => rfl
      | some t =>
          have hI : I n t := loop_invariant h0 (fun i hi => hs i (by omega)) hg
          simp only [List.foldlM_cons, List.foldlM_nil, Option.bind_eq_bind, Option.bind_some,
            hfg n (by omega) t hI]

end

/-! ### Two runs that may get stuck

Two runs that are stuck together, or end in related states. -/

section
variable {α β γ δ : Type*} {R : α → β → Prop} {S : γ → δ → Prop} {a : Option α} {b : Option β}

theorem rel_bind {f : α → Option γ} {g : β → Option δ} (h : Option.Rel R a b)
    (hfg : ∀ x y, b = some y → R x y → Option.Rel S (f x) (g y)) :
    Option.Rel S (a.bind f) (b.bind g) := by
  cases h with
  | none => exact .none
  | some hxy => exact hfg _ _ rfl hxy

theorem rel_isSome (h : Option.Rel R a b) : a.isSome = b.isSome := by
  cases h <;> rfl

theorem rel_some {x : α} (h : Option.Rel R (some x) b) : ∃ y, b = some y ∧ R x y := by
  cases h with
  | some hxy => exact ⟨_, rfl, hxy⟩

theorem rel_some_right {y : β} (h : Option.Rel R a (some y)) : ∃ x, a = some x ∧ R x y := by
  cases h with
  | some hxy => exact ⟨_, rfl, hxy⟩

/-- Two loops, with what holds of the rounds of the second. -/
theorem rel_loop {I : ℕ → β → Prop} {f : α → ℕ → Option α} {g : β → ℕ → Option β} {n : ℕ} {x : α}
    {y : β} (hxy : R x y) (h0 : I 0 y) (hI : ∀ i < n, ∀ y y', I i y → g y i = some y' → I (i + 1) y')
    (hfg : ∀ i < n, ∀ x y, R x y → I i y → Option.Rel R (f x i) (g y i)) :
    Option.Rel R ((List.range n).foldlM f x) ((List.range n).foldlM g y) := by
  induction n with
  | zero => exact .some hxy
  | succ n ih =>
      have ih' := ih (fun i hi => hI i (by omega)) (fun i hi => hfg i (by omega))
      rw [List.range_succ, List.foldlM_append, List.foldlM_append]
      refine rel_bind ih' (fun u v hv huv => ?_)
      have hIv : I n v := loop_invariant h0 (fun i hi => hI i (by omega)) hv
      simpa using hfg n (by omega) u v huv hIv

end

/-! ### Runs that note their steps -/

/-- A run from `a`: each step with the state before, its label and the state after, the last
step first. -/
inductive Trace {σ ι : Type*} (step : σ → ι → σ → Prop) (a : σ) : List (σ × ι × σ) → σ → Prop
  | start : Trace step a [] a
  | next {t : List (σ × ι × σ)} {b c : σ} {i : ι} (h : Trace step a t b) (hs : step b i c) :
      Trace step a ((b, i, c) :: t) c

section
variable {ι : Type*} {step : σ → ι → σ → Prop} {I : σ → Prop} {P C : σ → ι → σ → Prop}
  {t : List (σ × ι × σ)} {a b : σ}

/-- What the steps under a condition preserve holds at the end of a trace of such steps. -/
theorem trace_invariant (h0 : I a) (hs : ∀ b i c, I b → step b i c → C b i c → I c)
    (h : Trace step a t b) (hc : ∀ x ∈ t, C x.1 x.2.1 x.2.2) : I b := by
  induction h with
  | start => exact h0
  | next _ hst ih =>
      rw [List.forall_mem_cons] at hc
      exact hs _ _ _ (ih hc.2) hst hc.1

/-- What the steps under a condition do holds all along a trace of such steps. -/
theorem trace_along (h0 : I a) (hs : ∀ b i c, I b → step b i c → C b i c → I c)
    (hP : ∀ b i c, I b → step b i c → C b i c → P b i c) (h : Trace step a t b)
    (hc : ∀ x ∈ t, C x.1 x.2.1 x.2.2) : ∀ x ∈ t, P x.1 x.2.1 x.2.2 := by
  induction h with
  | start => simp
  | next h hst ih =>
      rw [List.forall_mem_cons] at hc ⊢
      exact ⟨hP _ _ _ (trace_invariant h0 hs h hc.2) hst hc.1, ih hc.2⟩

/-- All steps of a trace have the property exactly if all of them meet the condition. -/
theorem trace_exact (h0 : I a) (hs : ∀ b i c, I b → step b i c → C b i c → I c)
    (hP : ∀ b i c, I b → step b i c → (P b i c ↔ C b i c)) (h : Trace step a t b) :
    (∀ x ∈ t, P x.1 x.2.1 x.2.2) ↔ ∀ x ∈ t, C x.1 x.2.1 x.2.2 := by
  refine ⟨fun hp => ?_, trace_along h0 hs (fun b i c hi hst => (hP b i c hi hst).mpr) h⟩
  induction h with
  | start => simp
  | next h hst ih =>
      rw [List.forall_mem_cons] at hp ⊢
      have hc := ih hp.2
      exact ⟨(hP _ _ _ (trace_invariant h0 hs h hc) hst).mp hp.1, hc⟩

/-- When every step is matched by an abstract step, a trace is matched by an abstract trace with
the labels of the matching steps. -/
theorem trace_simulation {κ : Type*} {astep : τ → κ → τ → Prop} {R : σ → τ → Prop}
    (f : σ → ι → κ) {x : τ} (h0 : R a x)
    (hs : ∀ b i c y, R b y → step b i c → ∃ z, astep y (f b i) z ∧ R c z)
    (h : Trace step a t b) :
    ∃ u y, Trace astep x u y ∧ R b y ∧ u.map (·.2.1) = t.map (fun s => f s.1 s.2.1) := by
  induction h with
  | start => exact ⟨[], x, .start, h0, rfl⟩
  | next _ hst ih =>
      obtain ⟨u, y, hu, hR, hm⟩ := ih
      obtain ⟨z, hz, hR'⟩ := hs _ _ _ _ hR hst
      exact ⟨_, z, .next hu hz, hR', by rw [List.map_cons, List.map_cons, hm]⟩

end
end Runs
