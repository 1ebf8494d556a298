import Mathlib.Algebra.Order.Ring.Nat
import Mathlib.Tactic.Ring
import Mathlib.Tactic.NormNum

/-! # Byte-addressed memory

A memory is a function from addresses to bytes.  Multi-byte cells are little endian:
`readLE m a n` is the number stored in the `n` bytes at `a` and `writeLE m a n v` stores
the low `n` bytes of `v` there.  Every store changes only the bytes of its own cell
(`writeLE_of_lt`, `writeLE_of_ge`), a load depends only on the bytes of its cell
(`readLE_congr`), and a load from inside a cell that was just stored returns the
corresponding digits of the stored number (`readLE_writeLE_sub`), which is what one needs
when two structures overlap. -/

namespace ByteMem

/-- Memory: one byte per address. -/
abbrev Mem := ℕ → BitVec 8

namespace Mem

/-- The little-endian number in the `n` bytes at `a`. -/
def readLE (m : Mem) : ℕ → ℕ → ℕ
  | _, 0 => 0
  | a, n + 1 => (m a).toNat + 256 * readLE m (a + 1) n

/-- Store the low `n` bytes of `v` at `a`. -/
def writeLE (m : Mem) (a n v : ℕ) : Mem :=
  fun x => if a ≤ x ∧ x < a + n then BitVec.ofNat 8 (v / 256 ^ (x - a)) else m x

theorem writeLE_of_lt {m : Mem} {a n v x : ℕ} (h : x < a) : m.writeLE a n v x = m x := by
  simp only [writeLE]; rw [if_neg (by omega)]

theorem writeLE_of_ge {m : Mem} {a n v x : ℕ} (h : a + n ≤ x) : m.writeLE a n v x = m x := by
  simp only [writeLE]; rw [if_neg (by omega)]

theorem readLE_lt (m : Mem) : ∀ (a n : ℕ), m.readLE a n < 256 ^ n
  | _, 0 => by simp [readLE]
  | a, n + 1 => by
      have h1 := readLE_lt m (a + 1) n
      have h2 := (m a).isLt
      simp only [readLE, Nat.pow_succ]
      omega

/-- A load only looks at its own bytes. -/
theorem readLE_congr {m m' : Mem} : ∀ {a n : ℕ}, (∀ x, a ≤ x → x < a + n → m x = m' x) →
    m.readLE a n = m'.readLE a n
  | _, 0, _ => rfl
  | a, n + 1, h => by
      have ih : m.readLE (a + 1) n = m'.readLE (a + 1) n :=
        readLE_congr (fun x h1 h2 => h x (by omega) (by omega))
      simp only [readLE]
      rw [ih, h a le_rfl (by omega)]

/-- A store leaves the loads of disjoint cells alone. -/
theorem readLE_writeLE_ne {m : Mem} {a n v b k : ℕ} (h : b + k ≤ a ∨ a + n ≤ b) :
    (m.writeLE a n v).readLE b k = m.readLE b k := by
  apply readLE_congr
  intro x h1 h2
  rcases h with h | h
  · exact writeLE_of_lt (by omega)
  · exact writeLE_of_ge (by omega)

/-- A load from inside a stored cell returns the digits stored there. -/
theorem readLE_writeLE_sub {m : Mem} {a n v : ℕ} : ∀ {k j : ℕ}, k + j ≤ n →
    (m.writeLE a n v).readLE (a + k) j = v / 256 ^ k % 256 ^ j
  | k, 0, _ => by simp [readLE, Nat.mod_one]
  | k, j + 1, h => by
      have ih : (m.writeLE a n v).readLE (a + (k + 1)) j = v / 256 ^ (k + 1) % 256 ^ j :=
        readLE_writeLE_sub (by omega)
      have hb : m.writeLE a n v (a + k) = BitVec.ofNat 8 (v / 256 ^ k) := by
        simp only [writeLE]
        rw [if_pos (by omega), Nat.add_sub_cancel_left]
      have hd : v / 256 ^ (k + 1) = v / 256 ^ k / 256 := by
        rw [Nat.pow_succ, Nat.div_div_eq_div_mul]
      have hp : 256 ^ (j + 1) = 256 * 256 ^ j := by rw [Nat.pow_succ, Nat.mul_comm]
      simp only [readLE]
      rw [hb, show a + k + 1 = a + (k + 1) by omega, ih, hd, BitVec.toNat_ofNat, hp, Nat.mod_mul]

theorem readLE_writeLE_same {m : Mem} {a n v : ℕ} :
    (m.writeLE a n v).readLE a n = v % 256 ^ n := by
  have := readLE_writeLE_sub (m := m) (a := a) (v := v) (k := 0) (j := n) (n := n) (by omega)
  simpa using this

/-- The first bytes of a cell hold its low digits. -/
theorem readLE_mod (m : Mem) : ∀ (a n k : ℕ), m.readLE a (n + k) % 256 ^ n = m.readLE a n
  | a, 0, k => by simp [readLE, Nat.mod_one]
  | a, n + 1, k => by
      have ih := readLE_mod m (a + 1) n k
      have hb := (m a).isLt
      have hp : 256 ^ (n + 1) = 256 * 256 ^ n := by rw [Nat.pow_succ, Nat.mul_comm]
      rw [Nat.add_right_comm n 1 k]
      simp only [readLE]
      rw [hp, Nat.mod_mul, Nat.add_mul_mod_self_left, Nat.mod_eq_of_lt hb,
        Nat.add_mul_div_left _ _ (by decide), Nat.div_eq_of_lt hb, Nat.zero_add, ih]

/-! ### 64-bit and 32-bit cells -/

/-- The 64-bit word at `a`. -/
def load64 (m : Mem) (a : ℕ) : BitVec 64 := BitVec.ofNat 64 (m.readLE a 8)

/-- Store a 64-bit word at `a`. -/
def store64 (m : Mem) (a : ℕ) (w : BitVec 64) : Mem := m.writeLE a 8 w.toNat

/-- The 32-bit word at `a`. -/
def load32 (m : Mem) (a : ℕ) : BitVec 32 := BitVec.ofNat 32 (m.readLE a 4)

/-- Store a 32-bit word at `a`. -/
def store32 (m : Mem) (a : ℕ) (w : BitVec 32) : Mem := m.writeLE a 4 w.toNat

theorem load64_congr {m m' : Mem} {a : ℕ} (h : ∀ x, a ≤ x → x < a + 8 → m x = m' x) :
    m.load64 a = m'.load64 a := by
  simp only [load64, readLE_congr h]

theorem load32_congr {m m' : Mem} {a : ℕ} (h : ∀ x, a ≤ x → x < a + 4 → m x = m' x) :
    m.load32 a = m'.load32 a := by
  simp only [load32, readLE_congr h]

@[simp] theorem load64_store64_same (m : Mem) (a : ℕ) (w : BitVec 64) :
    (m.store64 a w).load64 a = w := by
  apply BitVec.eq_of_toNat_eq
  have := w.isLt
  simp only [load64, store64, readLE_writeLE_same, BitVec.toNat_ofNat]
  omega

@[simp] theorem load32_store32_same (m : Mem) (a : ℕ) (w : BitVec 32) :
    (m.store32 a w).load32 a = w := by
  apply BitVec.eq_of_toNat_eq
  have := w.isLt
  simp only [load32, store32, readLE_writeLE_same, BitVec.toNat_ofNat]
  omega

theorem load64_store64_ne {m : Mem} {a b : ℕ} (w : BitVec 64) (h : b + 8 ≤ a ∨ a + 8 ≤ b) :
    (m.store64 a w).load64 b = m.load64 b := by
  simp only [load64, store64, readLE_writeLE_ne h]

theorem load64_store32_ne {m : Mem} {a b : ℕ} (w : BitVec 32) (h : b + 8 ≤ a ∨ a + 4 ≤ b) :
    (m.store32 a w).load64 b = m.load64 b := by
  simp only [load64, store32, readLE_writeLE_ne h]

theorem load32_store64_ne {m : Mem} {a b : ℕ} (w : BitVec 64) (h : b + 4 ≤ a ∨ a + 8 ≤ b) :
    (m.store64 a w).load32 b = m.load32 b := by
  simp only [load32, store64, readLE_writeLE_ne h]

theorem load32_store32_ne {m : Mem} {a b : ℕ} (w : BitVec 32) (h : b + 4 ≤ a ∨ a + 4 ≤ b) :
    (m.store32 a w).load32 b = m.load32 b := by
  simp only [load32, store32, readLE_writeLE_ne h]

/-- A 32-bit load reads the low half of the word there. -/
theorem load32_eq_setWidth (m : Mem) (a : ℕ) : m.load32 a = (m.load64 a).setWidth 32 := by
  apply BitVec.eq_of_toNat_eq
  have hmod : m.readLE a 8 % 256 ^ 4 = m.readLE a 4 := readLE_mod m a 4 4
  have hlt := readLE_lt m a 8
  simp only [load32, load64, BitVec.toNat_ofNat, BitVec.toNat_setWidth]
  omega

theorem store64_of_lt {m : Mem} {a x : ℕ} {w : BitVec 64} (h : x < a) : m.store64 a w x = m x :=
  writeLE_of_lt h

theorem store64_of_ge {m : Mem} {a x : ℕ} {w : BitVec 64} (h : a + 8 ≤ x) :
    m.store64 a w x = m x := writeLE_of_ge h

theorem store32_of_lt {m : Mem} {a x : ℕ} {w : BitVec 32} (h : x < a) : m.store32 a w x = m x :=
  writeLE_of_lt h

theorem store32_of_ge {m : Mem} {a x : ℕ} {w : BitVec 32} (h : a + 4 ≤ x) :
    m.store32 a w x = m x := writeLE_of_ge h

/-! ### Filling and copying -/

/-- Set `n` bytes at `a` to `c`, one byte at a time. -/
def fill (m : Mem) (a : ℕ) (c : BitVec 8) (n : ℕ) : Mem :=
  (List.range n).foldl (fun m i => fun x => if x = a + i then c else m x) m

/-- Copy `n` bytes from `src` to `dst`, one byte at a time from the lowest address up. -/
def copy (m : Mem) (dst src n : ℕ) : Mem :=
  (List.range n).foldl (fun m i => fun x => if x = dst + i then m (src + i) else m x) m

/-- The stores of a copy in their order: address and byte. -/
def copyStores (m : Mem) (dst src n : ℕ) : List (ℕ × BitVec 8) :=
  (List.range n).map (fun i => (dst + i, m.copy dst src i (src + i)))

theorem fill_apply (m : Mem) (a : ℕ) (c : BitVec 8) (n x : ℕ) :
    m.fill a c n x = if a ≤ x ∧ x < a + n then c else m x := by
  induction n with
  | zero => simp only [fill, List.range_zero, List.foldl_nil]; rw [if_neg (by omega)]
  | succ n ih =>
      simp only [fill] at ih
      simp only [fill, List.range_succ, List.foldl_append, List.foldl_cons, List.foldl_nil, ih]
      split_ifs <;> first | rfl | omega

attribute [irreducible] fill

/-- A copy makes its stores, one after the other. -/
theorem copy_eq_stores (m : Mem) (dst src n : ℕ) :
    m.copy dst src n = (m.copyStores dst src n).foldl (fun m w => Function.update m w.1 w.2) m := by
  induction n with
  | zero => rfl
  | succ n ih =>
      unfold copyStores at ih ⊢
      rw [List.range_succ, List.map_append, List.foldl_append, ← ih]
      funext x
      simp only [copy, List.range_succ, List.foldl_append, List.foldl_cons, List.foldl_nil,
        List.map_cons, List.map_nil, Function.update_apply]

theorem mem_copyStores {m : Mem} {dst src n : ℕ} {w : ℕ × BitVec 8} (h : w ∈ m.copyStores dst src n) :
    dst ≤ w.1 ∧ w.1 < dst + n := by
  obtain ⟨i, hi, rfl⟩ := List.mem_map.mp h
  have hlt := List.mem_range.mp hi
  exact ⟨Nat.le_add_right _ _, Nat.add_lt_add_left hlt _⟩

/-- Every byte of the destination is stored to. -/
theorem exists_copyStore (m : Mem) (dst src : ℕ) {n i : ℕ} (hi : i < n) :
    ∃ b, (dst + i, b) ∈ m.copyStores dst src n :=
  ⟨_, List.mem_map.mpr ⟨i, List.mem_range.mpr hi, rfl⟩⟩

theorem copy_of_lt {m : Mem} {dst src n x : ℕ} (h : x < dst) : m.copy dst src n x = m x := by
  induction n with
  | zero => rfl
  | succ n ih =>
      simp only [copy] at ih
      simp only [copy, List.range_succ, List.foldl_append, List.foldl_cons, List.foldl_nil]
      rw [if_neg (by omega), ih]

theorem copy_of_ge {m : Mem} {dst src n x : ℕ} (h : dst + n ≤ x) : m.copy dst src n x = m x := by
  induction n with
  | zero => rfl
  | succ n ih =>
      have ih' := ih (by omega)
      simp only [copy] at ih'
      simp only [copy, List.range_succ, List.foldl_append, List.foldl_cons, List.foldl_nil]
      rw [if_neg (by omega), ih']

theorem copy_outside {m : Mem} {dst src n x : ℕ} (h : ¬ (dst ≤ x ∧ x < dst + n)) :
    m.copy dst src n x = m x := by
  rcases Nat.lt_or_ge x dst with hlt | hge
  · exact copy_of_lt hlt
  · exact copy_of_ge (by omega)

/-- What a copy writes depends on what it reads only, also when the two overlap. -/
theorem copy_congr {m m' : Mem} {dst src n : ℕ} (h : ∀ x, src ≤ x → x < src + n → m x = m' x) {x : ℕ}
    (hx : dst ≤ x ∧ x < dst + n) : m.copy dst src n x = m'.copy dst src n x := by
  -- after `k` rounds the memories agree on the source and on the first `k` bytes written
  have hrounds : ∀ k ≤ n, ∀ x, (dst ≤ x ∧ x < dst + k) ∨ (src ≤ x ∧ x < src + n) →
      m.copy dst src k x = m'.copy dst src k x := by
    intro k
    induction k with
    | zero =>
        intro _ x hx
        rcases hx with hx | hx
        · omega
        · exact h x hx.1 hx.2
    | succ k ih =>
        intro hk x hx
        have ih := ih (by omega)
        simp only [copy] at ih
        simp only [copy, List.range_succ, List.foldl_append, List.foldl_cons, List.foldl_nil]
        split_ifs with hxk
        · exact ih (src + k) (.inr ⟨by omega, by omega⟩)
        · apply ih
          omega
  exact hrounds n le_rfl x (.inl hx)

/-- Which byte of the source a copy leaves in byte `i` of the destination: where the destination
starts inside the source, the copy reads what it has written, and repeats the bytes in front. -/
def copiedFrom (dst src i : ℕ) : ℕ := if src < dst then i % (dst - src) else i

theorem copy_apply {m : Mem} {dst src n i : ℕ} (hi : i < n) :
    m.copy dst src n (dst + i) = m (src + copiedFrom dst src i) := by
  induction n generalizing i with
  | zero => omega
  | succ n ih =>
      have hlt : ∀ x, x < dst → m.copy dst src n x = m x := fun x hx => copy_of_lt hx
      have hge : ∀ x, dst + n ≤ x → m.copy dst src n x = m x := fun x hx => copy_of_ge hx
      simp only [copy] at ih hlt hge
      simp only [copy, List.range_succ, List.foldl_append, List.foldl_cons, List.foldl_nil]
      by_cases hin : i = n
      · subst hin
        rw [if_pos rfl, copiedFrom]
        split_ifs with hsd
        · rcases Nat.lt_or_ge i (dst - src) with hd | hd
          · rw [Nat.mod_eq_of_lt hd]
            exact hlt _ (by omega)
          · -- a byte that was written before
            have hsrc : src + i = dst + (i - (dst - src)) := by omega
            have hrec := ih (show i - (dst - src) < i by omega)
            rw [copiedFrom, if_pos hsd, ← Nat.mod_eq_sub_mod hd] at hrec
            rw [hsrc]
            exact hrec
        · exact hge _ (by omega)
      · rw [if_neg (by omega)]
        exact ih (by omega)

attribute [irreducible] copy

theorem readLE_zero {m : Mem} : ∀ {a n : ℕ}, (∀ x, a ≤ x → x < a + n → m x = 0) →
    m.readLE a n = 0
  | _, 0, _ => rfl
  | a, n + 1, h => by
      simp only [readLE]
      rw [h a le_rfl (by omega), readLE_zero (fun x h1 h2 => h x (by omega) (by omega))]
      rfl

theorem load64_fill_zero {m : Mem} {a n b : ℕ} (h1 : a ≤ b) (h2 : b + 8 ≤ a + n) :
    (m.fill a 0 n).load64 b = 0 := by
  have : (m.fill a 0 n).readLE b 8 = 0 := by
    apply readLE_zero
    intro x hx1 hx2
    rw [fill_apply, if_pos (by omega)]
  rw [load64, this]
  rfl

end Mem
end ByteMem
