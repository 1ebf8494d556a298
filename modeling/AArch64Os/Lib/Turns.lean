import Mathlib.Data.List.Basic
import Mathlib.Data.List.Nodup

/-! # Taking turns

Members of a group stand in an order; the first one is served and goes to the end.  Others may join
or leave at any position.  Of two members who stay, one is then served as often as the other, up to
one: whoever of the two stands in front is the next one of the two to be served
(`Step.balance`). -/

namespace Turns

variable {α : Type*}

/-- One step, with the one who is served.  Members join or leave before the service. -/
inductive Step : List α → Option α → List α → Prop
  | pass {o o' : List α} (h : o.Sublist o' ∨ o'.Sublist o) : Step o none o'
  | serve {o m : List α} {z : α} (h : o.Sublist (z :: m) ∨ (z :: m).Sublist o) :
      Step o (some z) (m ++ [z])

/-- Two members who stand in the order. -/
structure Both (x y : α) (o : List α) : Prop where
  nodup : o.Nodup
  left : x ∈ o
  right : y ∈ o

section
variable {x y z : α} {o o' m : List α}

/-! ### Who stands in front -/

/-- Of two members one stands in front of the other. -/
theorem pair_total (hne : x ≠ y) (hx : x ∈ o) (hy : y ∈ o) :
    [x, y].Sublist o ∨ [y, x].Sublist o := by
  induction o with
  | nil => cases hx
  | cons z o ih =>
      rcases List.mem_cons.mp hx with rfl | hx'
      · have hy' := (List.mem_cons.mp hy).resolve_left hne.symm
        exact .inl (.cons_cons x (List.singleton_sublist.mpr hy'))
      rcases List.mem_cons.mp hy with rfl | hy'
      · exact .inr (.cons_cons y (List.singleton_sublist.mpr hx'))
      · exact (ih hx' hy').imp (·.cons z) (·.cons z)

/-- They do not both stand in front. -/
theorem pair_asymm (hn : o.Nodup) (h : [x, y].Sublist o) : ¬ [y, x].Sublist o := by
  intro h'
  have hxy := hn.sublist h
  have hne : x ≠ y := by
    rintro rfl
    simp at hxy
  induction o with
  | nil => cases h
  | cons z o ih =>
      obtain ⟨hz, hn⟩ := List.nodup_cons.mp hn
      cases h with
      | cons _ h₁ =>
          cases h' with
          | cons _ h₂ => exact ih hn h₁ h₂
          | cons_cons _ h₂ => exact hz (h₁.subset (by simp))
      | cons_cons _ h₁ =>
          cases h' with
          | cons _ h₂ => exact hz (h₂.subset (by simp))
          | cons_cons _ h₂ => exact hne rfl

theorem pair_iff (h : Both x y o) (hne : x ≠ y) : [x, y].Sublist o ↔ ¬ [y, x].Sublist o :=
  ⟨pair_asymm h.nodup, fun hc => (pair_total hne h.left h.right).resolve_right hc⟩

/-- Who comes or goes does not matter to the two. -/
theorem pair_congr (h : Both x y o) (h' : Both x y o') (hne : x ≠ y)
    (hs : o.Sublist o' ∨ o'.Sublist o) : [x, y].Sublist o' ↔ [x, y].Sublist o := by
  rcases hs with hs | hs
  · refine ⟨fun hp => ?_, fun hp => hp.trans hs⟩
    rw [pair_iff h hne]
    exact fun hq => pair_asymm h'.nodup hp (hq.trans hs)
  · refine ⟨fun hp => hp.trans hs, fun hp => ?_⟩
    rw [pair_iff h' hne]
    exact fun hq => pair_asymm h.nodup hp (hq.trans hs)

theorem Both.of_rotate (h : Both x y (m ++ [z])) : Both x y (z :: m) := by
  have hp : (m ++ [z]).Perm (z :: m) := List.perm_append_singleton z m
  exact ⟨hp.nodup_iff.mp h.nodup, hp.mem_iff.mp h.left, hp.mem_iff.mp h.right⟩

end

/-! ### Counting -/

section
variable [DecidableEq α] {x y z : α} {o o' m : List α}

/-- 1 if `x` stands in front of `y`. -/
def front (x y : α) (o : List α) : ℕ := if [x, y].Sublist o then 1 else 0

theorem front_le (x y : α) (o : List α) : front x y o ≤ 1 := by
  unfold front
  split_ifs <;> decide

/-- The first member goes to the end. -/
theorem rotate_balance (h : Both x y (z :: m)) (h' : Both x y (m ++ [z])) (hne : x ≠ y) :
    [z].count x + front x y (m ++ [z]) = [z].count y + front x y (z :: m) := by
  rcases eq_or_ne z x with rfl | hzx
  · have hy : y ∈ m := (List.mem_cons.mp h.right).resolve_left hne.symm
    have h₁ : [z, y].Sublist (z :: m) := .cons_cons z (List.singleton_sublist.mpr hy)
    have h₂ : [y, z].Sublist (m ++ [z]) := (List.singleton_sublist.mpr hy).append (.refl [z])
    rw [front, front, if_pos h₁, if_neg (pair_asymm h'.nodup h₂), List.count_singleton_self,
      List.count_singleton, if_neg (by simpa using hne)]
  rcases eq_or_ne z y with rfl | hzy
  · have hx : x ∈ m := (List.mem_cons.mp h.left).resolve_left hne
    have h₁ : [z, x].Sublist (z :: m) := .cons_cons z (List.singleton_sublist.mpr hx)
    have h₂ : [x, z].Sublist (m ++ [z]) := (List.singleton_sublist.mpr hx).append (.refl [z])
    rw [front, front, if_neg (pair_asymm h.nodup h₁), if_pos h₂, List.count_singleton_self,
      List.count_singleton, if_neg (by simpa using hzx)]
  · have hm : Both x y m := by
      refine ⟨(List.nodup_cons.mp h.nodup).2, ?_, ?_⟩
      · exact (List.mem_cons.mp h.left).resolve_left hzx.symm
      · exact (List.mem_cons.mp h.right).resolve_left hzy.symm
    have h₁ := pair_congr hm h hne (.inl (List.sublist_cons_self z m))
    have h₂ := pair_congr hm h' hne (.inl (List.sublist_append_left m [z]))
    have hcx : [z].count x = 0 := List.count_eq_zero_of_not_mem (by simpa using hzx.symm)
    have hcy : [z].count y = 0 := List.count_eq_zero_of_not_mem (by simpa using hzy.symm)
    rw [front, front, if_congr h₁ rfl rfl, if_congr h₂ rfl rfl, hcx, hcy]

/-- **One step keeps the balance** of two members who stay. -/
theorem Step.balance {e : Option α} (hs : Step o e o') (h : Both x y o) (h' : Both x y o')
    (hne : x ≠ y) : e.toList.count x + front x y o' = e.toList.count y + front x y o := by
  cases hs with
  | pass hsub =>
      rw [front, front, if_congr (pair_congr h h' hne hsub) rfl rfl]
      rfl
  | @serve m z hsub =>
      have hmid := h'.of_rotate
      have hcongr := pair_congr h hmid hne hsub
      rw [Option.toList_some, rotate_balance hmid h' hne, front, if_congr hcongr rfl rfl]
      rfl

end
end Turns
