import Mathlib.Data.List.Basic
import Mathlib.Order.Nat

/-! # Reading a C string

A loop that reads bytes one after the other until it meets a zero.  `scan` is the loop over a
partial memory, `load i` for the byte at offset `i`: a byte that cannot be loaded ends it with
a fault.  A reader who sees only a part of the memory can foresee the result, whatever the rest
of the memory holds, if every byte that the loop loads is in that part (`scan_of_visible`), and
where not even the way it ends depends on the rest there is no other case (`visible_of_end`). -/

namespace CString

/-- How the loop ends. -/
inductive End
  | terminator
  | fault (i : ℕ)
  /-- no end among the bytes that were allowed -/
  | unending
deriving DecidableEq

/-- The bytes that the loop reads from offset `i` on, at most `n` of them. -/
def scan (load : ℕ → Option (BitVec 8)) : ℕ → ℕ → List (BitVec 8) × End
  | 0, _ => ([], .unending)
  | n + 1, i =>
      match load i with
      | none => ([], .fault i)
      | some c =>
          if c = 0 then ([], .terminator)
          else
            let r := scan load n (i + 1)
            (c :: r.1, r.2)

/-- The bytes from offset `i` on, up to offset `j`, do not end the string. -/
def Goes (load : ℕ → Option (BitVec 8)) (i j : ℕ) : Prop :=
  ∀ k, i ≤ k → k < j → ∃ c, c ≠ 0 ∧ load k = some c

section
variable {load load' vis : ℕ → Option (BitVec 8)} {n i j : ℕ}

theorem Goes.refl (load : ℕ → Option (BitVec 8)) (i : ℕ) : Goes load i i :=
  fun _ h1 h2 => absurd h2 (not_lt.mpr h1)

theorem Goes.cons {c : BitVec 8} (hi : load i = some c) (hc : c ≠ 0) (h : Goes load (i + 1) j) :
    Goes load i j := by
  intro k h1 h2
  rcases h1.eq_or_lt with rfl | h1
  · exact ⟨c, hc, hi⟩
  · exact h k h1 h2

theorem Goes.mono (h : Goes vis i j) (hsub : ∀ k c, vis k = some c → load k = some c) :
    Goes load i j := by
  intro k h1 h2
  obtain ⟨c, hc, hv⟩ := h k h1 h2
  exact ⟨c, hc, hsub k c hv⟩

theorem scan_none (hi : load i = none) (n : ℕ) : scan load (n + 1) i = ([], .fault i) := by
  rw [scan, hi]

theorem scan_zero (hi : load i = some 0) (n : ℕ) : scan load (n + 1) i = ([], .terminator) := by
  rw [scan, hi]
  rfl

theorem scan_step {c : BitVec 8} (hi : load i = some c) (hc : c ≠ 0) (n : ℕ) :
    scan load (n + 1) i = (c :: (scan load n (i + 1)).1, (scan load n (i + 1)).2) := by
  rw [scan, hi]
  exact if_neg hc

/-- A string in the memory is read as it is. -/
theorem scan_string {l : List (BitVec 8)} (h : ∀ j c, l[j]? = some c → c ≠ 0 ∧ load (i + j) = some c)
    (hz : load (i + l.length) = some 0) (hn : l.length < n) : scan load n i = (l, .terminator) := by
  induction l generalizing n i with
  | nil =>
      obtain ⟨n, rfl⟩ := Nat.exists_eq_succ_of_ne_zero (Nat.ne_of_gt hn)
      exact scan_zero hz n
  | cons c l ih =>
      obtain ⟨n, rfl⟩ := Nat.exists_eq_succ_of_ne_zero (Nat.ne_of_gt (Nat.zero_lt_of_lt hn))
      obtain ⟨hc, hl⟩ := h 0 c rfl
      have hrest : scan load n (i + 1) = (l, .terminator) := by
        apply ih
        · intro j b hj
          rw [Nat.add_right_comm, Nat.add_assoc]
          exact h (j + 1) b hj
        · rw [Nat.add_right_comm, Nat.add_assoc]
          exact hz
        · exact Nat.lt_of_succ_lt_succ hn
      rw [scan_step (i := i) hl hc, hrest]

/-- The loop loads no byte behind its end. -/
theorem scan_congr (h : ∀ j, i ≤ j → j < i + n → Goes load i j → load' j = load j) :
    scan load' n i = scan load n i := by
  induction n generalizing i with
  | zero => rfl
  | succ n ih =>
      have hi : load' i = load i := h i le_rfl (by omega) (.refl load i)
      cases hl : load i with
      | none => rw [scan_none hl, scan_none (hi.trans hl)]
      | some c =>
          by_cases hc : c = 0
          · subst hc
            rw [scan_zero hl, scan_zero (hi.trans hl)]
          · rw [scan_step hl hc, scan_step (hi.trans hl) hc]
            rw [ih (fun j h1 h2 hg => h j (by omega) (by omega) (hg.cons hl hc))]

/-- A string that goes on up to offset `j` ends as it does from there. -/
theorem scan_end (h : Goes load i j) (hij : i ≤ j) (hn : j ≤ i + n) :
    (scan load n i).2 = (scan load (i + n - j) j).2 := by
  induction n generalizing i with
  | zero =>
      obtain rfl : j = i := by omega
      rw [Nat.add_zero, Nat.sub_self]
  | succ n ih =>
      rcases hij.eq_or_lt with rfl | hlt
      · rw [Nat.add_sub_cancel_left]
      · obtain ⟨c, hc, hl⟩ := h i le_rfl hlt
        rw [scan_step hl hc, ih (fun k h1 h2 => h k (by omega) h2) hlt (by omega)]
        congr 2
        omega

/-- A fault is at or behind the start. -/
theorem le_of_fault (h : (scan load n i).2 = .fault j) : i ≤ j := by
  induction n generalizing i with
  | zero => cases h
  | succ n ih =>
      cases hl : load i with
      | none =>
          rw [scan_none hl] at h
          cases h
          exact le_rfl
      | some c =>
          by_cases hc : c = 0
          · subst hc
            rw [scan_zero hl] at h
            cases h
          · rw [scan_step hl hc] at h
            exact (Nat.le_succ i).trans (ih h)

/-- The loop faults at its first byte exactly if that byte cannot be loaded. -/
theorem fault_here_iff : (scan load (n + 1) i).2 = .fault i ↔ load i = none := by
  constructor
  · intro h
    cases hl : load i with
    | none => rfl
    | some c =>
        by_cases hc : c = 0
        · subst hc
          rw [scan_zero hl] at h
          cases h
        · rw [scan_step hl hc] at h
          exact absurd (le_of_fault h) (by omega)
  · intro h
    rw [scan_none h]

/-- If only visible bytes may decide how the loop ends, then it loads visible bytes only. -/
theorem visible_of_end (hsub : ∀ k c, vis k = some c → load k = some c)
    (h : ∀ load', (∀ k c, vis k = some c → load' k = some c) →
      (scan load' n 0).2 = (scan load n 0).2) : ∀ k < n, Goes vis 0 k → (vis k).isSome := by
  intro k hk hgo
  by_contra hv
  rw [Option.not_isSome_iff_eq_none] at hv
  -- another memory can load the byte at `k` exactly if this one cannot
  let load' := Function.update load k (if load k = none then some 0 else none)
  have hsub' : ∀ j c, vis j = some c → load' j = some c := by
    intro j c hj
    have hne : j ≠ k := by
      rintro rfl
      rw [hv] at hj
      cases hj
    rw [show load' j = load j from Function.update_of_ne hne _ _]
    exact hsub j c hj
  have hend := h load' hsub'
  rw [scan_end (hgo.mono hsub') k.zero_le (by omega),
    scan_end (hgo.mono hsub) k.zero_le (by omega)] at hend
  obtain ⟨d, hd⟩ : ∃ d, 0 + n - k = d + 1 := ⟨n - k - 1, by omega⟩
  rw [hd] at hend
  have hfault : load' k = none ↔ load k = none := by
    rw [← fault_here_iff (n := d), ← fault_here_iff (n := d), hend]
  rw [show load' k = _ from Function.update_self _ _ _] at hfault
  by_cases hl : load k = none
  · rw [if_pos hl] at hfault
    exact absurd (hfault.mpr hl) (by simp)
  · rw [if_neg hl] at hfault
    exact hl (hfault.mp rfl)

/-- If the loop loads visible bytes only, then they decide the result. -/
theorem scan_of_visible (hsub : ∀ k c, vis k = some c → load k = some c)
    (h : ∀ k < n, Goes vis 0 k → (vis k).isSome)
    (hsub' : ∀ k c, vis k = some c → load' k = some c) : scan load' n 0 = scan load n 0 := by
  have hsome : ∀ k < n, Goes vis 0 k → load' k = load k := by
    intro k hk hgo
    obtain ⟨c, hc⟩ := Option.isSome_iff_exists.mp (h k hk hgo)
    rw [hsub' k c hc, hsub k c hc]
  -- as far as the loop goes, it goes over visible bytes
  have hgo : ∀ k ≤ n, Goes load 0 k → Goes vis 0 k := by
    intro k
    induction k with
    | zero => exact fun _ _ => .refl vis 0
    | succ k ih =>
        intro hk hg
        have hv := ih (by omega) (fun j h1 h2 => hg j h1 (by omega))
        intro j h1 h2
        rcases (Nat.lt_succ_iff.mp h2).eq_or_lt with rfl | h2
        · obtain ⟨c, hc, hl⟩ := hg j h1 (by omega)
          obtain ⟨d, hd⟩ := Option.isSome_iff_exists.mp (h j (by omega) hv)
          obtain rfl : c = d := Option.some.inj (hl.symm.trans (hsub j d hd))
          exact ⟨c, hc, hd⟩
        · exact hv j h1 h2
  exact scan_congr (fun k _ hk hg => hsome k (by omega) (hgo k (by omega) hg))

end
end CString
