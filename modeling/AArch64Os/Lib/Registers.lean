import Mathlib.Data.List.Induction

/-! # Registers

Two things that a driver rests on.  A word may hold several fields of `b` bits each: a field is
replaced by a read-modify-write with a shifted mask, and the other fields keep their value
(`field_setField`).  And a cell that some calls write holds, after any sequence of calls, what the
last of them wrote (`read_foldl`). -/

namespace Registers

/-! ### Fields of a word -/

section
variable {w b : ℕ}

/-- Field `k` of a word. -/
def field (b k : ℕ) (v : BitVec w) : BitVec b := v.extractLsb' (k * b) b

/-- Replace field `k`: clear it with a shifted mask, and shift the new value in. -/
def setField (b k : ℕ) (v : BitVec w) (x : BitVec b) : BitVec w :=
  (v &&& ~~~((BitVec.allOnes b).setWidth w <<< (k * b))) ||| (x.setWidth w <<< (k * b))

theorem getLsbD_setField (k : ℕ) (v : BitVec w) (x : BitVec b) {i : ℕ} (hi : i < w) :
    (setField b k v x).getLsbD i =
      if k * b ≤ i ∧ i < k * b + b then x.getLsbD (i - k * b) else v.getLsbD i := by
  have hlow : i - k * b < w := by omega
  simp only [setField, BitVec.getLsbD_or, BitVec.getLsbD_and, BitVec.getLsbD_not,
    BitVec.getLsbD_shiftLeft, BitVec.getLsbD_setWidth, BitVec.getLsbD_allOnes, hi, hlow,
    decide_true, Bool.true_and]
  by_cases h1 : i < k * b
  · have hno : ¬ (k * b ≤ i ∧ i < k * b + b) := by omega
    simp [h1, hno]
  · by_cases h2 : i - k * b < b
    · have hyes : k * b ≤ i ∧ i < k * b + b := by omega
      simp [h1, h2, hyes]
    · have hno : ¬ (k * b ≤ i ∧ i < k * b + b) := by omega
      have hzero : x.getLsbD (i - k * b) = false := BitVec.getLsbD_of_ge x _ (by omega)
      simp [h1, h2, hno, hzero]

/-- The fields of a word are independent cells. -/
theorem field_setField (k : ℕ) (v : BitVec w) (x : BitVec b) {j : ℕ}
    (hj : j * b + b ≤ w) : field b j (setField b k v x) = if j = k then x else field b j v := by
  apply BitVec.eq_of_getLsbD_eq
  intro i hi
  have hin : j * b + i < w := by omega
  rw [field, BitVec.getLsbD_extractLsb', decide_eq_true hi, Bool.true_and, getLsbD_setField k v x hin]
  split_ifs with hrange hjk hjk
  · rw [hjk, Nat.add_sub_cancel_left]
  · -- two fields have no bit in common
    exfalso
    rcases Nat.lt_or_gt_of_ne hjk with hlt | hlt
    · have := Nat.mul_le_mul_right b (Nat.succ_le_of_lt hlt)
      rw [Nat.succ_mul] at this
      omega
    · have := Nat.mul_le_mul_right b (Nat.succ_le_of_lt hlt)
      rw [Nat.succ_mul] at this
      omega
  · subst hjk
    exact absurd ⟨Nat.le_add_right _ _, Nat.add_lt_add_left hi _⟩ hrange
  · rw [field, BitVec.getLsbD_extractLsb', decide_eq_true hi, Bool.true_and]

end

/-! ### Cells that calls write -/

section
variable {σ ι α : Type*} {w : ι → Option α} {a : α} {l : List ι}

/-- What the last of the calls that write the cell left in it; `w c` is what the call `c` writes. -/
def lastWrite (w : ι → Option α) (a : α) (l : List ι) : α := (l.filterMap w).getLast?.getD a

theorem lastWrite_concat (w : ι → Option α) (a : α) (l : List ι) (c : ι) :
    lastWrite w a (l ++ [c]) = (w c).getD (lastWrite w a l) := by
  cases h : w c <;> simp [lastWrite, h]

/-- **The last write wins**, when each call writes the cell as `w` says. -/
theorem read_foldl (step : σ → ι → σ) (read : σ → α) (I : σ → Prop) {s : σ} (h0 : I s)
    (hI : ∀ s, ∀ c ∈ l, I s → I (step s c))
    (hw : ∀ s, ∀ c ∈ l, I s → read (step s c) = (w c).getD (read s)) :
    read (l.foldl step s) = lastWrite w (read s) l ∧ I (l.foldl step s) := by
  induction l using List.reverseRecOn with
  | nil => exact ⟨rfl, h0⟩
  | append_singleton l c ih =>
      obtain ⟨hread, hinv⟩ := ih (fun s c hc => hI s c (List.mem_append_left _ hc))
        (fun s c hc => hw s c (List.mem_append_left _ hc))
      have hc : c ∈ l ++ [c] := List.mem_append_right _ List.mem_cons_self
      rw [List.foldl_append, List.foldl_cons, List.foldl_nil, lastWrite_concat, ← hread]
      exact ⟨hw _ c hc hinv, hI _ c hc hinv⟩

end

end Registers
