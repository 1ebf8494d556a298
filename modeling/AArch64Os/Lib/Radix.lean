import Mathlib.Data.Set.Insert
import Mathlib.Data.List.Induction
import Mathlib.Tactic.Tauto

/-! # Forests of radix tables

A store of tables is a function `m : τ → ι → δ`: table, index, descriptor.  `child` reads a
descriptor as a link to a table of the next level.  `walk` follows a path of indexes from a
root, and `leaf` is the descriptor at the end of a walk of full depth.

In a `Forest` of depth `n` every table is reached by at most one path of length at most `n`
from at most one root.  The three ways of changing such a store keep it a forest: writing an
entry of a table of full depth changes one leaf (`Forest.setLeaf`), linking a fresh empty
table changes no leaf (`Forest.link`), and a fresh empty root has no leaf (`Forest.addRoot`). -/

namespace Radix

variable {τ ι δ : Type*} {child : δ → Option τ} {m m' m'' : τ → ι → δ}

/-- Follow a path of indexes through the tables. -/
def walk (child : δ → Option τ) (m : τ → ι → δ) : τ → List ι → Option τ
  | t, [] => some t
  | t, i :: p =>
      match child (m t i) with
      | none => none
      | some u => walk child m u p

/-- The descriptor that a walk ends in, `z` where it breaks off. -/
def leaf (child : δ → Option τ) (z : δ) (m : τ → ι → δ) (r : τ) (p : List ι) (i : ι) : δ :=
  match walk child m r p with
  | none => z
  | some t => m t i

theorem walk_append (t : τ) (p q : List ι) :
    walk child m t (p ++ q) = (walk child m t p).bind (fun u => walk child m u q) := by
  induction p generalizing t with
  | nil => rfl
  | cons i p ih =>
      simp only [List.cons_append, walk]
      cases child (m t i) with
      | none => rfl
      | some u => exact ih u

theorem walk_concat (t : τ) (p : List ι) (i : ι) :
    walk child m t (p ++ [i]) = (walk child m t p).bind (fun u => child (m u i)) := by
  rw [walk_append]
  congr 1
  funext u
  simp only [walk]
  cases child (m u i) <;> rfl

theorem walk_concat_some {t v : τ} {p : List ι} {i : ι} :
    walk child m t (p ++ [i]) = some v ↔
      ∃ u, walk child m t p = some u ∧ child (m u i) = some v := by
  rw [walk_concat, Option.bind_eq_some_iff]

theorem leaf_of_walk {z : δ} {r t : τ} {p : List ι} (h : walk child m r p = some t) (i : ι) :
    leaf child z m r p i = m t i := by
  simp only [leaf, h]

theorem leaf_of_none {z : δ} {r : τ} {p : List ι} (h : walk child m r p = none) (i : ι) :
    leaf child z m r p i = z := by
  simp only [leaf, h]

/-! ### Forests -/

/-- The tables in `A` are those that the roots reach within `n` links, each in one way, and the
entries of tables of less than full depth satisfy `ok`. -/
structure Forest (child : δ → Option τ) (ok : δ → Prop) (n : ℕ) (roots A : Set τ)
    (m : τ → ι → δ) : Prop where
  closed : ∀ r ∈ roots, ∀ p : List ι, p.length ≤ n → ∀ t, walk child m r p = some t → t ∈ A
  inj : ∀ r ∈ roots, ∀ r' ∈ roots, ∀ p p' : List ι, p.length ≤ n → p'.length ≤ n → ∀ t,
    walk child m r p = some t → walk child m r' p' = some t → r = r' ∧ p = p'
  covered : ∀ t ∈ A, ∃ r ∈ roots, ∃ p : List ι, p.length ≤ n ∧ walk child m r p = some t
  upper : ∀ r ∈ roots, ∀ p : List ι, p.length < n → ∀ t, walk child m r p = some t →
    ∀ j, ok (m t j)

section
variable {ok : δ → Prop} {n : ℕ} {roots A A' A'' : Set τ}

theorem Forest.root_mem (h : Forest child ok n roots A m) {r : τ} (hr : r ∈ roots) : r ∈ A :=
  h.closed r hr [] (Nat.zero_le _) r rfl

/-- Walks within the depth only look at tables of less than full depth. -/
theorem walk_congr
    (hm : ∀ r ∈ roots, ∀ p : List ι, p.length < n → ∀ t, walk child m r p = some t →
      ∀ j, m' t j = m t j)
    {r : τ} (hr : r ∈ roots) (p : List ι) (hp : p.length ≤ n) :
    walk child m' r p = walk child m r p := by
  induction p using List.reverseRecOn with
  | nil => rfl
  | append_singleton p j ih =>
      simp only [List.length_append, List.length_cons, List.length_nil] at hp
      rw [walk_concat, walk_concat, ih (by omega)]
      cases hw : walk child m r p with
      | none => rfl
      | some t =>
          simp only [Option.bind_some]
          rw [hm r hr p (by omega) t hw j]

/-- The forest depends on the entries of tables of less than full depth alone. -/
theorem Forest.of_upper (h : Forest child ok n roots A m)
    (hm : ∀ r ∈ roots, ∀ p : List ι, p.length < n → ∀ t, walk child m r p = some t →
      ∀ j, m' t j = m t j) : Forest child ok n roots A m' := by
  have hw : ∀ r ∈ roots, ∀ p : List ι, p.length ≤ n → walk child m' r p = walk child m r p :=
    fun r hr p hp => walk_congr hm hr p hp
  refine ⟨?_, ?_, ?_, ?_⟩
  · intro r hr p hp t ht
    rw [hw r hr p hp] at ht
    exact h.closed r hr p hp t ht
  · intro r hr r' hr' p p' hp hp' t ht ht'
    rw [hw r hr p hp] at ht
    rw [hw r' hr' p' hp'] at ht'
    exact h.inj r hr r' hr' p p' hp hp' t ht ht'
  · intro t ht
    obtain ⟨r, hr, p, hp, hwt⟩ := h.covered t ht
    exact ⟨r, hr, p, hp, (hw r hr p hp).trans hwt⟩
  · intro r hr p hp t ht j
    rw [hw r hr p hp.le] at ht
    rw [hm r hr p hp t ht j]
    exact h.upper r hr p hp t ht j

/-- A change outside the tables of the forest is invisible. -/
theorem Forest.congr (h : Forest child ok n roots A m) (hm : ∀ t ∈ A, ∀ j, m' t j = m t j) :
    Forest child ok n roots A m' :=
  h.of_upper (fun r hr p hp t ht => hm t (h.closed r hr p hp.le t ht))

theorem Forest.leaf_congr (h : Forest child ok n roots A m) (hm : ∀ t ∈ A, ∀ j, m' t j = m t j)
    {z : δ} {r : τ} (hr : r ∈ roots) {p : List ι} (hp : p.length = n) (j : ι) :
    leaf child z m' r p j = leaf child z m r p j := by
  have hw : walk child m' r p = walk child m r p := walk_congr
    (fun r hr p hp t ht => hm t (h.closed r hr p (by omega) t ht)) hr p hp.le
  cases ht : walk child m r p with
  | none => rw [leaf_of_none ht, leaf_of_none (hw.trans ht)]
  | some t =>
      rw [leaf_of_walk ht, leaf_of_walk (hw.trans ht)]
      exact hm t (h.closed r hr p hp.le t ht) j

/-! ### Writing a leaf -/

/-- Writing an entry of a table of full depth changes no other table. -/
theorem Forest.upper_setLeaf (h : Forest child ok n roots A m) {r₀ t₀ : τ} {p₀ : List ι} {i₀ : ι}
    (hr₀ : r₀ ∈ roots) (hp₀ : p₀.length = n) (ht₀ : walk child m r₀ p₀ = some t₀)
    (hm : ∀ t ∈ A, ∀ j, t ≠ t₀ ∨ j ≠ i₀ → m' t j = m t j) :
    ∀ r ∈ roots, ∀ p : List ι, p.length < n → ∀ t, walk child m r p = some t →
      ∀ j, m' t j = m t j := by
  intro r hr p hp t ht j
  have hne : t ≠ t₀ := by
    rintro rfl
    have := (h.inj r hr r₀ hr₀ p p₀ (by omega) (by omega) t ht ht₀).2
    subst this
    omega
  exact hm t (h.closed r hr p (by omega) t ht) j (.inl hne)

theorem Forest.walk_setLeaf (h : Forest child ok n roots A m) {r₀ t₀ : τ} {p₀ : List ι} {i₀ : ι}
    (hr₀ : r₀ ∈ roots) (hp₀ : p₀.length = n) (ht₀ : walk child m r₀ p₀ = some t₀)
    (hm : ∀ t ∈ A, ∀ j, t ≠ t₀ ∨ j ≠ i₀ → m' t j = m t j)
    {r : τ} (hr : r ∈ roots) {p : List ι} (hp : p.length ≤ n) :
    walk child m' r p = walk child m r p :=
  walk_congr (h.upper_setLeaf hr₀ hp₀ ht₀ hm) hr p hp

theorem Forest.setLeaf (h : Forest child ok n roots A m) {r₀ t₀ : τ} {p₀ : List ι} {i₀ : ι}
    (hr₀ : r₀ ∈ roots) (hp₀ : p₀.length = n) (ht₀ : walk child m r₀ p₀ = some t₀)
    (hm : ∀ t ∈ A, ∀ j, t ≠ t₀ ∨ j ≠ i₀ → m' t j = m t j) : Forest child ok n roots A m' :=
  h.of_upper (h.upper_setLeaf hr₀ hp₀ ht₀ hm)

/-- The written leaf. -/
theorem Forest.leaf_setLeaf_same (h : Forest child ok n roots A m) {r₀ t₀ : τ} {p₀ : List ι} {i₀ : ι}
    (hr₀ : r₀ ∈ roots) (hp₀ : p₀.length = n) (ht₀ : walk child m r₀ p₀ = some t₀)
    (hm : ∀ t ∈ A, ∀ j, t ≠ t₀ ∨ j ≠ i₀ → m' t j = m t j) (z : δ) :
    leaf child z m' r₀ p₀ i₀ = m' t₀ i₀ := by
  have hw : walk child m' r₀ p₀ = some t₀ := by
    rw [h.walk_setLeaf hr₀ hp₀ ht₀ hm hr₀ hp₀.le, ht₀]
  exact leaf_of_walk hw i₀

/-- All other leaves are as before. -/
theorem Forest.leaf_setLeaf_ne (h : Forest child ok n roots A m) {r₀ t₀ : τ} {p₀ : List ι} {i₀ : ι}
    (hr₀ : r₀ ∈ roots) (hp₀ : p₀.length = n) (ht₀ : walk child m r₀ p₀ = some t₀)
    (hm : ∀ t ∈ A, ∀ j, t ≠ t₀ ∨ j ≠ i₀ → m' t j = m t j) {z : δ}
    {r : τ} (hr : r ∈ roots) {p : List ι} (hp : p.length = n) {j : ι}
    (hne : ¬ (r = r₀ ∧ p = p₀ ∧ j = i₀)) :
    leaf child z m' r p j = leaf child z m r p j := by
  have hw := h.walk_setLeaf hr₀ hp₀ ht₀ hm hr hp.le
  cases ht : walk child m r p with
  | none => rw [leaf_of_none ht, leaf_of_none (hw.trans ht)]
  | some t =>
      rw [leaf_of_walk ht, leaf_of_walk (hw.trans ht)]
      refine hm t (h.closed r hr p hp.le t ht) j ?_
      by_contra hc
      push Not at hc
      obtain ⟨rfl, rfl⟩ := hc
      obtain ⟨rfl, rfl⟩ := h.inj r hr r₀ hr₀ p p₀ hp.le hp₀.le t ht ht₀
      exact hne ⟨rfl, rfl, rfl⟩

/-! ### Growing -/

/-- From `m` to `m'` the forest has grown: no walk is lost and no leaf changed. -/
structure Grows (child : δ → Option τ) (ok : δ → Prop) (z : δ) (n : ℕ) (roots : Set τ)
    (A A' : Set τ) (m m' : τ → ι → δ) : Prop where
  forest : Forest child ok n roots A' m'
  subset : A ⊆ A'
  walk : ∀ r ∈ roots, ∀ p : List ι, p.length ≤ n → ∀ t,
    Radix.walk child m r p = some t → Radix.walk child m' r p = some t
  leaf : ∀ r ∈ roots, ∀ p : List ι, p.length = n → ∀ j,
    Radix.leaf child z m' r p j = Radix.leaf child z m r p j

theorem Grows.refl {z : δ} (h : Forest child ok n roots A m) : Grows child ok z n roots A A m m :=
  ⟨h, Set.Subset.rfl, fun _ _ _ _ _ ht => ht, fun _ _ _ _ _ => rfl⟩

section
variable {r₀ t₀ u : τ} {p₀ : List ι} {i₀ : ι} {z : δ}

/-- The walks after the fresh table `u` was linked at `t₀`, `i₀`. -/
theorem Forest.walk_link (h : Forest child ok n roots A m) (hz : child z = none) (hr₀ : r₀ ∈ roots)
    (hp₀ : p₀.length < n) (ht₀ : walk child m r₀ p₀ = some t₀) (hnone : child (m t₀ i₀) = none)
    (hm : ∀ t ∈ A, ∀ j, t ≠ t₀ ∨ j ≠ i₀ → m' t j = m t j)
    (hlink : child (m' t₀ i₀) = some u) (hu : u ∉ A) (hempty : ∀ j, m' u j = z)
    {r : τ} (hr : r ∈ roots) (p : List ι) (hp : p.length ≤ n) (v : τ) :
    walk child m' r p = some v ↔
      walk child m r p = some v ∨ (r = r₀ ∧ p = p₀ ++ [i₀] ∧ v = u) := by
  induction p using List.reverseRecOn generalizing v with
  | nil =>
      simp only [walk, Option.some.injEq]
      exact ⟨.inl, fun hc => hc.elim id (fun hc => absurd hc.2.1 (by simp))⟩
  | append_singleton p j ih =>
      simp only [List.length_append, List.length_cons, List.length_nil] at hp
      have ih' := ih (by omega)
      -- an entry other than the linked one is as before
      have hold : ∀ t, walk child m r p = some t → ¬ (t = t₀ ∧ j = i₀) → m' t j = m t j := by
        intro t ht hne
        exact hm t (h.closed r hr p (by omega) t ht) j (by
          by_contra hc
          push Not at hc
          exact hne hc)
      constructor
      · intro hw
        obtain ⟨t, ht, hc⟩ := walk_concat_some.mp hw
        rcases (ih' t).mp ht with ht | ⟨rfl, rfl, rfl⟩
        · by_cases he : t = t₀ ∧ j = i₀
          · obtain ⟨rfl, rfl⟩ := he
            obtain ⟨rfl, rfl⟩ := h.inj r hr r₀ hr₀ p p₀ (by omega) (by omega) t ht ht₀
            rw [hlink] at hc
            exact .inr ⟨rfl, rfl, (Option.some.inj hc).symm⟩
          · rw [hold t ht he] at hc
            exact .inl (walk_concat_some.mpr ⟨t, ht, hc⟩)
        · rw [hempty, hz] at hc
          cases hc
      · rintro (hw | ⟨rfl, he, rfl⟩)
        · obtain ⟨t, ht, hc⟩ := walk_concat_some.mp hw
          refine walk_concat_some.mpr ⟨t, (ih' t).mpr (.inl ht), ?_⟩
          by_cases he : t = t₀ ∧ j = i₀
          · obtain ⟨rfl, rfl⟩ := he
            rw [hnone] at hc
            cases hc
          · rw [hold t ht he]
            exact hc
        · obtain ⟨rfl, hij⟩ := List.append_inj' he rfl
          obtain rfl := List.singleton_inj.mp hij
          exact walk_concat_some.mpr ⟨t₀, (ih' t₀).mpr (.inl ht₀), hlink⟩

/-- **Linking a fresh empty table** keeps the forest and its leaves. -/
theorem Forest.link (h : Forest child ok n roots A m) (hz : child z = none) (hr₀ : r₀ ∈ roots)
    (hp₀ : p₀.length < n) (ht₀ : walk child m r₀ p₀ = some t₀) (hnone : child (m t₀ i₀) = none)
    (hm : ∀ t ∈ A, ∀ j, t ≠ t₀ ∨ j ≠ i₀ → m' t j = m t j)
    (hlink : child (m' t₀ i₀) = some u) (hok : ok (m' t₀ i₀)) (hokz : ok z) (hu : u ∉ A)
    (hempty : ∀ j, m' u j = z) : Grows child ok z n roots A (insert u A) m m' := by
  have hw : ∀ r ∈ roots, ∀ p : List ι, p.length ≤ n → ∀ v, walk child m' r p = some v ↔
      walk child m r p = some v ∨ (r = r₀ ∧ p = p₀ ++ [i₀] ∧ v = u) :=
    fun r hr p hp v => h.walk_link hz hr₀ hp₀ ht₀ hnone hm hlink hu hempty hr p hp v
  refine ⟨⟨?_, ?_, ?_, ?_⟩, Set.subset_insert u A, ?_, ?_⟩
  · intro r hr p hp t ht
    rcases (hw r hr p hp t).mp ht with ht | ⟨_, _, rfl⟩
    · exact Set.mem_insert_of_mem u (h.closed r hr p hp t ht)
    · exact Set.mem_insert t A
  · intro r hr r' hr' p p' hp hp' t ht ht'
    rcases (hw r hr p hp t).mp ht with ht | ⟨rfl, rfl, rfl⟩
    · rcases (hw r' hr' p' hp' t).mp ht' with ht' | ⟨_, _, rfl⟩
      · exact h.inj r hr r' hr' p p' hp hp' t ht ht'
      · exact absurd (h.closed r hr p hp t ht) hu
    · rcases (hw r' hr' p' hp' t).mp ht' with ht' | ⟨rfl, rfl, _⟩
      · exact absurd (h.closed r' hr' p' hp' t ht') hu
      · exact ⟨rfl, rfl⟩
  · rintro t (rfl | ht)
    · have hlen : (p₀ ++ [i₀]).length ≤ n := by
        simp only [List.length_append, List.length_cons, List.length_nil]
        omega
      exact ⟨r₀, hr₀, p₀ ++ [i₀], hlen, (hw r₀ hr₀ _ hlen t).mpr (.inr ⟨rfl, rfl, rfl⟩)⟩
    · obtain ⟨r, hr, p, hp, hwt⟩ := h.covered t ht
      exact ⟨r, hr, p, hp, (hw r hr p hp t).mpr (.inl hwt)⟩
  · intro r hr p hp t ht j
    rcases (hw r hr p hp.le t).mp ht with ht | ⟨_, _, rfl⟩
    · by_cases he : t = t₀ ∧ j = i₀
      · obtain ⟨rfl, rfl⟩ := he
        exact hok
      · rw [hm t (h.closed r hr p hp.le t ht) j (by tauto)]
        exact h.upper r hr p hp t ht j
    · rw [hempty]
      exact hokz
  · intro r hr p hp t ht
    exact (hw r hr p hp t).mpr (.inl ht)
  · intro r hr p hp j
    cases ht' : walk child m' r p with
    | none =>
        have ht : walk child m r p = none := by
          cases ht : walk child m r p with
          | none => rfl
          | some t => rw [(hw r hr p hp.le t).mpr (.inl ht)] at ht'; cases ht'
        rw [leaf_of_none ht, leaf_of_none ht']
    | some t =>
        rw [leaf_of_walk ht']
        rcases (hw r hr p hp.le t).mp ht' with ht | ⟨rfl, rfl, rfl⟩
        · rw [leaf_of_walk ht]
          refine hm t (h.closed r hr p hp.le t ht) j (.inl ?_)
          rintro rfl
          have := (h.inj r hr r₀ hr₀ p p₀ hp.le hp₀.le t ht ht₀).2
          subst this
          omega
        · have hbroken : walk child m r (p₀ ++ [i₀]) = none := by
            rw [walk_concat, ht₀]
            exact hnone
          rw [leaf_of_none hbroken, hempty]

/-- **A fresh empty root** keeps the forest, and the leaves of the other roots. -/
theorem Forest.addRoot (h : Forest child ok n roots A m) (hz : child z = none)
    (hm : ∀ t ∈ A, ∀ j, m' t j = m t j) (hokz : ok z) (hu : u ∉ A) (hempty : ∀ j, m' u j = z) :
    Forest child ok n (insert u roots) (insert u A) m' ∧ ∀ p j, leaf child z m' u p j = z := by
  have hnew : ∀ p : List ι, ∀ t, walk child m' u p = some t → p = [] ∧ t = u := by
    intro p t ht
    cases p with
    | nil => exact ⟨rfl, (Option.some.inj ht).symm⟩
    | cons i p => simp only [walk, hempty, hz] at ht; cases ht
  have hw : ∀ r ∈ roots, ∀ p : List ι, p.length ≤ n → walk child m' r p = walk child m r p :=
    fun r hr p hp => walk_congr
      (fun r hr p hp t ht => hm t (h.closed r hr p (by omega) t ht)) hr p hp
  refine ⟨⟨?_, ?_, ?_, ?_⟩, ?_⟩
  · rintro r (rfl | hr) p hp t ht
    · rw [(hnew p t ht).2]
      exact Set.mem_insert r A
    · rw [hw r hr p hp] at ht
      exact Set.mem_insert_of_mem u (h.closed r hr p hp t ht)
  · rintro r (rfl | hr) r' (rfl | hr') p p' hp hp' t ht ht'
    · exact ⟨rfl, (hnew p t ht).1.trans (hnew p' t ht').1.symm⟩
    · rw [hw r' hr' p' hp'] at ht'
      rw [(hnew p t ht).2] at ht'
      exact absurd (h.closed r' hr' p' hp' r ht') hu
    · rw [hw r hr p hp] at ht
      rw [(hnew p' t ht').2] at ht
      exact absurd (h.closed r hr p hp r' ht) hu
    · rw [hw r hr p hp] at ht
      rw [hw r' hr' p' hp'] at ht'
      exact h.inj r hr r' hr' p p' hp hp' t ht ht'
  · rintro t (rfl | ht)
    · exact ⟨t, Set.mem_insert t roots, [], Nat.zero_le _, rfl⟩
    · obtain ⟨r, hr, p, hp, hwt⟩ := h.covered t ht
      exact ⟨r, Set.mem_insert_of_mem u hr, p, hp, (hw r hr p hp).trans hwt⟩
  · rintro r (rfl | hr) p hp t ht j
    · rw [(hnew p t ht).2, hempty]
      exact hokz
    · rw [hw r hr p hp.le] at ht
      rw [hm t (h.closed r hr p hp.le t ht) j]
      exact h.upper r hr p hp t ht j
  · intro p j
    cases ht : walk child m' u p with
    | none => exact leaf_of_none ht j
    | some t =>
        rw [leaf_of_walk ht, (hnew p t ht).2]
        exact hempty j

end
end
end Radix
