import AArch64Os.Lib.ByteMem
import Mathlib.Data.Set.Insert
import Mathlib.Logic.Function.Basic
import Mathlib.Order.Nat

/-! # AArch64 registers and exceptions

The registers that kernel entry code moves around, with the ones that are banked by exception
level, and the instructions that such code is written in.  Straight-line code is a list of
instructions; the position in it is not part of the state, so `pc` changes by exceptions and
exception returns only.

Register save areas are arrays of words, `slot f i` for the address of word `i` of the area at
`f`; addresses wrap around at `2^64`.  `Stored` says what a sequence of stores does to such an
area, and `run_stps` and `run_ldps` are the rules for the chains of pair instructions. -/

namespace A64

open ByteMem

/-! ### State -/

/-- The levels that take exceptions. -/
inductive Level
  | el1
  | el2
deriving DecidableEq, Repr

/-- The number of a level. -/
def Level.num : Level → ℕ
  | .el1 => 1
  | .el2 => 2

/-- There are general-purpose registers, so numerals name them. -/
instance neZeroRegisters : NeZero 31 := ⟨by decide⟩

/-- The registers and the memory.  `PSTATE` has the format of an `SPSR`. -/
structure Cpu where
  x : Fin 31 → BitVec 64
  spEl0 : BitVec 64
  sp : Level → BitVec 64
  pc : BitVec 64
  pstate : BitVec 64
  elr : Level → BitVec 64
  spsr : Level → BitVec 64
  mem : Mem

/-- `PSTATE.EL` -/
def elOf (pstate : BitVec 64) : ℕ := (pstate.extractLsb' 2 2).toNat
/-- `PSTATE.SP`: the stack pointer of the level itself is in use. -/
def spSel (pstate : BitVec 64) : Bool := pstate.getLsbD 0
/-- The mask bits `PSTATE.DAIF`. -/
def daif (pstate : BitVec 64) : BitVec 4 := pstate.extractLsb' 6 4
/-- `PSTATE.I` -/
def irqMasked (pstate : BitVec 64) : Bool := pstate.getLsbD 7

/-- `PSTATE` of a handler: the level's own stack pointer, all exceptions masked, the condition
flags as they were. -/
def handlerPstate (n : Level) (pstate : BitVec 64) : BitVec 64 :=
  (pstate &&& 0xF0000000) ||| 0x3C0 ||| BitVec.ofNat 64 (4 * n.num + 1)

namespace Cpu

/-- The bank that the name `sp` stands for, none for `SP_EL0`. -/
def bank (c : Cpu) : Option Level :=
  if spSel c.pstate then
    if elOf c.pstate = 1 then some .el1 else if elOf c.pstate = 2 then some .el2 else none
  else none

/-- The value of `sp`. -/
def curSp (c : Cpu) : BitVec 64 :=
  match c.bank with
  | none => c.spEl0
  | some n => c.sp n

/-- Write `sp`. -/
def setSp (c : Cpu) (v : BitVec 64) : Cpu :=
  match c.bank with
  | none => { c with spEl0 := v }
  | some n => { c with sp := Function.update c.sp n v }

/-- Write a general-purpose register. -/
def setX (c : Cpu) (d : Fin 31) (v : BitVec 64) : Cpu := { c with x := Function.update c.x d v }

/-- An exception is taken to a level. -/
def takeException (n : Level) (c : Cpu) : Cpu :=
  { c with
    elr := Function.update c.elr n c.pc, spsr := Function.update c.spsr n c.pstate,
    pstate := handlerPstate n c.pstate }

/-- `eret` at a level. -/
def eret (n : Level) (c : Cpu) : Cpu := { c with pc := c.elr n, pstate := c.spsr n }

end Cpu

/-! ### Instructions -/

/-- The base register of a load or store. -/
inductive Base
  | sp
  | x (n : Fin 31)
deriving DecidableEq

/-- The system registers that are moved. -/
inductive SysReg
  | elr (n : Level)
  | spsr (n : Level)
deriving DecidableEq

/-- The instructions. -/
inductive Insn
  | stp (t₁ t₂ : Fin 31) (base : Base) (off : ℕ)
  | ldp (t₁ t₂ : Fin 31) (base : Base) (off : ℕ)
  | str (t : Fin 31) (base : Base) (off : ℕ)
  | ldr (t : Fin 31) (base : Base) (off : ℕ)
  /-- `add sp, sp, #imm` -/
  | addSp (imm : ℕ)
  /-- `sub sp, sp, #imm` -/
  | subSp (imm : ℕ)
  /-- `add xd, sp, #imm`, and `mov xd, sp` for 0 -/
  | addFromSp (d : Fin 31) (imm : ℕ)
  /-- `mov sp, xn` -/
  | movToSp (n : Fin 31)
  | mrs (d : Fin 31) (r : SysReg)
  | msr (r : SysReg) (n : Fin 31)
deriving DecidableEq

/-- The value of a base register. -/
def Cpu.base (c : Cpu) : Base → BitVec 64
  | .sp => c.curSp
  | .x n => c.x n

/-- The value of a system register. -/
def Cpu.sysReg (c : Cpu) : SysReg → BitVec 64
  | .elr n => c.elr n
  | .spsr n => c.spsr n

/-- Write a system register. -/
def Cpu.setSysReg (c : Cpu) (v : BitVec 64) : SysReg → Cpu
  | .elr n => { c with elr := Function.update c.elr n v }
  | .spsr n => { c with spsr := Function.update c.spsr n v }

/-- The address of word `i` of the area at `f`. -/
def slot (f : BitVec 64) (i : ℕ) : ℕ := (f + BitVec.ofNat 64 (8 * i)).toNat

/-- One instruction.  The offsets of loads and stores are multiples of 8. -/
def exec (c : Cpu) : Insn → Cpu
  | .stp t₁ t₂ b off =>
      { c with
        mem := (c.mem.store64 (slot (c.base b) (off / 8)) (c.x t₁)).store64
          (slot (c.base b) (off / 8 + 1)) (c.x t₂) }
  | .ldp t₁ t₂ b off =>
      (c.setX t₁ (c.mem.load64 (slot (c.base b) (off / 8)))).setX t₂
        (c.mem.load64 (slot (c.base b) (off / 8 + 1)))
  | .str t b off => { c with mem := c.mem.store64 (slot (c.base b) (off / 8)) (c.x t) }
  | .ldr t b off => c.setX t (c.mem.load64 (slot (c.base b) (off / 8)))
  | .addSp imm => c.setSp (c.curSp + BitVec.ofNat 64 imm)
  | .subSp imm => c.setSp (c.curSp - BitVec.ofNat 64 imm)
  | .addFromSp d imm => c.setX d (c.curSp + BitVec.ofNat 64 imm)
  | .movToSp n => c.setSp (c.x n)
  | .mrs d r => c.setX d (c.sysReg r)
  | .msr r n => c.setSysReg (c.x n) r

/-- Straight-line code. -/
def run (code : List Insn) (c : Cpu) : Cpu := code.foldl exec c

theorem run_append (l l' : List Insn) (c : Cpu) : run (l ++ l') c = run l' (run l c) :=
  List.foldl_append

theorem run_cons (i : Insn) (l : List Insn) (c : Cpu) : run (i :: l) c = run l (exec c i) := rfl

@[simp] theorem run_nil (c : Cpu) : run [] c = c := rfl

/-! ### `PSTATE` of a handler -/

section
variable (n : Level) (p : BitVec 64)

/-- The bits of `PSTATE` that an exception sets, apart from the flags. -/
theorem handlerPstate_extract {i k : ℕ} (h : (0xF0000000 : BitVec 64).extractLsb' i k = 0) :
    (handlerPstate n p).extractLsb' i k =
      (0x3C0 ||| BitVec.ofNat 64 (4 * n.num + 1) : BitVec 64).extractLsb' i k := by
  unfold handlerPstate
  rw [BitVec.extractLsb'_or, BitVec.extractLsb'_or, BitVec.extractLsb'_and, h,
    BitVec.extractLsb'_or]
  simp

@[simp] theorem elOf_handlerPstate : elOf (handlerPstate n p) = n.num := by
  rw [elOf, handlerPstate_extract n p (by decide)]
  cases n <;> decide

@[simp] theorem daif_handlerPstate : daif (handlerPstate n p) = 0xF := by
  rw [daif, handlerPstate_extract n p (by decide)]
  cases n <;> decide

theorem spSel_eq : spSel p = (p.extractLsb' 0 1).getLsbD 0 := by simp [spSel]

theorem irqMasked_eq : irqMasked p = (daif p).getLsbD 1 := by simp [irqMasked, daif]

@[simp] theorem spSel_handlerPstate : spSel (handlerPstate n p) = true := by
  rw [spSel_eq, handlerPstate_extract n p (by decide)]
  cases n <;> decide

@[simp] theorem irqMasked_handlerPstate : irqMasked (handlerPstate n p) = true := by
  rw [irqMasked_eq, daif_handlerPstate]
  decide

/-- A handler runs on the stack pointer of its level. -/
theorem Cpu.bank_handler {c : Cpu} (hs : spSel c.pstate = true) (he : elOf c.pstate = n.num) :
    c.bank = some n := by
  unfold Cpu.bank
  rw [if_pos hs, he]
  cases n <;> rfl

end

/-! ### Save areas -/

/-- The bytes of word `i` of the area at `f`. -/
def InSlot (f : BitVec 64) (i x : ℕ) : Prop := slot f i ≤ x ∧ x < slot f i + 8

/-- Two words of an area share no byte, also when the area wraps around. -/
theorem slot_disjoint (f : BitVec 64) {i j : ℕ} (hi : i < 2 ^ 32) (hj : j < 2 ^ 32) (h : i ≠ j) :
    slot f i + 8 ≤ slot f j ∨ slot f j + 8 ≤ slot f i := by
  have hf := f.isLt
  simp only [slot, BitVec.toNat_add, BitVec.toNat_ofNat]
  omega

theorem not_inSlot (f : BitVec 64) {i j x : ℕ} (hi : i < 2 ^ 32) (hj : j < 2 ^ 32) (h : i ≠ j)
    (hx : InSlot f i x) : ¬ InSlot f j x := by
  have := slot_disjoint f hi hj h
  unfold InSlot at *
  omega

/-- From `m` to `m'` the words in `S` of the area at `f` were set to `v` and no other byte
changed. -/
structure Stored (f : BitVec 64) (v : ℕ → BitVec 64) (S : Set ℕ) (m m' : Mem) : Prop where
  word : ∀ i ∈ S, m'.load64 (slot f i) = v i
  other : ∀ x, (∀ i ∈ S, ¬ InSlot f i x) → m' x = m x

section
variable {f : BitVec 64} {v v' : ℕ → BitVec 64} {S T : Set ℕ} {m m' m'' : Mem}

theorem Stored.refl (f : BitVec 64) (v : ℕ → BitVec 64) (m : Mem) : Stored f v ∅ m m :=
  ⟨fun _ hi => hi.elim, fun _ _ => rfl⟩

/-- A word that was not stored is as before. -/
theorem Stored.unchanged (h : Stored f v S m m') (hS : ∀ i ∈ S, i < 2 ^ 32) {i : ℕ}
    (hi : i < 2 ^ 32) (hn : i ∉ S) : m'.load64 (slot f i) = m.load64 (slot f i) := by
  apply Mem.load64_congr
  intro x h1 h2
  apply h.other
  intro j hj
  exact not_inSlot f hi (hS j hj) (fun e => hn (e ▸ hj)) ⟨h1, h2⟩

theorem Stored.trans (h : Stored f v S m m') (h' : Stored f v T m' m'')
    (hS : ∀ i ∈ S, i < 2 ^ 32) (hT : ∀ i ∈ T, i < 2 ^ 32) : Stored f v (S ∪ T) m m'' := by
  constructor
  · rintro i (hi | hi)
    · by_cases ht : i ∈ T
      · exact h'.word i ht
      · rw [h'.unchanged hT (hS i hi) ht]
        exact h.word i hi
    · exact h'.word i hi
  · intro x hx
    rw [h'.other x (fun i hi => hx i (.inr hi)), h.other x (fun i hi => hx i (.inl hi))]

theorem Stored.congr (h : Stored f v S m m') (hv : ∀ i ∈ S, v' i = v i) (hT : T = S) :
    Stored f v' T m m' := by
  subst hT
  exact ⟨fun i hi => (h.word i hi).trans (hv i hi).symm, h.other⟩

/-- One word. -/
theorem stored_one (f : BitVec 64) (i : ℕ) (w : BitVec 64) (m : Mem) :
    Stored f (fun _ => w) {i} m (m.store64 (slot f i) w) := by
  constructor
  · rintro _ rfl
    exact Mem.load64_store64_same m _ w
  · intro x hx
    have hn : ¬ InSlot f i x := hx i rfl
    unfold InSlot at hn
    rcases Nat.lt_or_ge x (slot f i) with h | h
    · exact Mem.store64_of_lt h
    · exact Mem.store64_of_ge (by omega)

/-- One more word behind the first `k`. -/
theorem Stored.push {k : ℕ} {w : BitVec 64} (h : Stored f v {i | i < k} m m') (hk : k < 2 ^ 32)
    (hw : v k = w) : Stored f v {i | i < k + 1} m (m'.store64 (slot f k) w) := by
  have h₁ : Stored f v {k} m' (m'.store64 (slot f k) w) := by
    refine (stored_one f k w m').congr ?_ rfl
    rintro _ rfl
    exact hw
  refine (h.trans h₁ (fun i hi => lt_trans hi hk) ?_).congr (fun _ _ => rfl) ?_
  · rintro _ rfl
    exact hk
  · ext i
    simp only [Set.mem_ofPred_eq, Set.mem_union, Set.mem_singleton_iff]
    omega

end

/-! ### Chains of pair instructions -/

/-- `stp x(2i), x(2i+1), [b, #16i]` -/
def stpPair (b : Base) (i : Fin 15) : Insn :=
  .stp ⟨2 * i, by omega⟩ ⟨2 * i + 1, by omega⟩ b (16 * i)

/-- `ldp x(2i), x(2i+1), [b, #16i]` -/
def ldpPair (b : Base) (i : Fin 15) : Insn :=
  .ldp ⟨2 * i, by omega⟩ ⟨2 * i + 1, by omega⟩ b (16 * i)

/-- The general-purpose registers as an array. -/
def regs (x : Fin 31 → BitVec 64) (i : ℕ) : BitVec 64 := if h : i < 31 then x ⟨i, h⟩ else 0

theorem regs_val (x : Fin 31 → BitVec 64) (i : Fin 31) : regs x i = x i := dif_pos i.isLt

/-- The words that the pairs in `l` move. -/
def pairWords (l : List (Fin 15)) : Set ℕ := {j | j / 2 ∈ l.map Fin.val}

theorem pairWords_lt {l : List (Fin 15)} {j : ℕ} (h : j ∈ pairWords l) : j < 2 ^ 32 := by
  obtain ⟨i, -, hi⟩ := List.mem_map.mp h
  have := i.isLt
  omega

theorem mem_pairWords_finRange {j : ℕ} : j ∈ pairWords (List.finRange 15) ↔ j < 30 := by
  unfold pairWords
  constructor
  · exact fun h => by
      obtain ⟨i, -, hi⟩ := List.mem_map.mp h
      have := i.isLt
      omega
  · exact fun h => List.mem_map.mpr ⟨⟨j / 2, by omega⟩, List.mem_finRange _, rfl⟩

section
variable {b : Base} {c : Cpu}

@[simp] theorem Cpu.base_mem (c : Cpu) (b : Base) (m : Mem) :
    ({ c with mem := m } : Cpu).base b = c.base b := by
  cases b <;> rfl

theorem exec_stpPair (b : Base) (i : Fin 15) (c : Cpu) :
    ∃ m, exec c (stpPair b i) = { c with mem := m } ∧
      Stored (c.base b) (regs c.x) (pairWords [i]) c.mem m := by
  have hi := i.isLt
  have hoff : 16 * i.val / 8 = 2 * i := by omega
  refine ⟨_, rfl, ?_⟩
  rw [hoff]
  have h₁ := stored_one (c.base b) (2 * i) (c.x ⟨2 * i, by omega⟩) c.mem
  have h₂ := stored_one (c.base b) (2 * i + 1) (c.x ⟨2 * i + 1, by omega⟩)
    (c.mem.store64 (slot (c.base b) (2 * i)) (c.x ⟨2 * i, by omega⟩))
  refine Stored.congr (v := regs c.x) (S := {2 * i.val} ∪ {2 * i.val + 1})
    ((h₁.congr ?_ rfl).trans (h₂.congr ?_ rfl) ?_ ?_) (fun _ _ => rfl) ?_
  · rintro _ rfl
    exact regs_val c.x ⟨2 * i, by omega⟩
  · rintro _ rfl
    exact regs_val c.x ⟨2 * i + 1, by omega⟩
  · rintro _ rfl
    omega
  · rintro _ rfl
    omega
  · ext j
    simp only [pairWords, List.map_cons, List.map_nil, List.mem_singleton, Set.mem_ofPred_eq,
      Set.mem_union, Set.mem_singleton_iff]
    omega

/-- **A chain of stores** writes the registers into their words. -/
theorem run_stps (b : Base) (l : List (Fin 15)) (c : Cpu) :
    ∃ m, run (l.map (stpPair b)) c = { c with mem := m } ∧
      Stored (c.base b) (regs c.x) (pairWords l) c.mem m := by
  induction l generalizing c with
  | nil =>
      exact ⟨c.mem, rfl, (Stored.refl _ (regs c.x) _).congr (fun _ _ => rfl) (by
        ext j
        simp [pairWords])⟩
  | cons i l ih =>
      obtain ⟨m₁, he, h₁⟩ := exec_stpPair b i c
      obtain ⟨m₂, hr, h₂⟩ := ih { c with mem := m₁ }
      rw [Cpu.base_mem] at h₂
      refine ⟨m₂, ?_, (h₁.trans h₂ (fun _ => pairWords_lt) (fun _ => pairWords_lt)).congr
        (fun _ _ => rfl) ?_⟩
      · rw [List.map_cons, run_cons, he, hr]
      · ext j
        simp [pairWords]

/-- Registers loaded from the words of the pairs in `l`. -/
def loadPairs (m : Mem) (f : BitVec 64) (l : List (Fin 15)) (x : Fin 31 → BitVec 64) :
    Fin 31 → BitVec 64 :=
  fun j => if j.val / 2 ∈ l.map Fin.val then m.load64 (slot f j) else x j

theorem exec_ldpPair (b : Base) (i : Fin 15) (c : Cpu) :
    exec c (ldpPair b i) = { c with x := loadPairs c.mem (c.base b) [i] c.x } := by
  have hi := i.isLt
  have hoff : 16 * i.val / 8 = 2 * i := by omega
  unfold ldpPair
  simp only [exec, Cpu.setX]
  rw [hoff]
  congr 1
  funext j
  simp only [loadPairs, List.map_cons, List.map_nil, List.mem_singleton]
  by_cases h₂ : j = ⟨2 * i + 1, by omega⟩
  · subst h₂
    rw [Function.update_self, if_pos (by simp only; omega)]
  · rw [Function.update_of_ne h₂]
    by_cases h₁ : j = ⟨2 * i, by omega⟩
    · subst h₁
      rw [Function.update_self, if_pos (by simp only; omega)]
    · rw [Function.update_of_ne h₁, if_neg]
      rw [Fin.ext_iff] at h₁ h₂
      simp only at h₁ h₂
      omega

/-- The base register is none of the registers that the pairs in `l` load. -/
def BaseKept (b : Base) (l : List (Fin 15)) : Prop :=
  ∀ n : Fin 31, b = .x n → n.val / 2 ∉ l.map Fin.val

/-- **A chain of loads** reads the registers from their words. -/
theorem run_ldps {l : List (Fin 15)} (hb : BaseKept b l) (c : Cpu) :
    run (l.map (ldpPair b)) c = { c with x := loadPairs c.mem (c.base b) l c.x } := by
  induction l generalizing c with
  | nil =>
      rw [List.map_nil, run_nil]
      congr 1
  | cons i l ih =>
      have hbase : ({ c with x := loadPairs c.mem (c.base b) [i] c.x } : Cpu).base b = c.base b := by
        cases b with
        | sp => rfl
        | x n =>
            have hn := hb n rfl
            simp only [List.map_cons, List.mem_cons, not_or] at hn
            simp only [Cpu.base, loadPairs, List.map_cons, List.map_nil, List.mem_singleton]
            exact if_neg hn.1
      rw [List.map_cons, run_cons, exec_ldpPair,
        ih (fun n hn hm => hb n hn (List.mem_cons_of_mem _ hm)), hbase]
      congr 1
      funext j
      simp only [loadPairs, List.map_cons, List.map_nil, List.mem_cons, List.not_mem_nil, or_false]
      by_cases hl : j.val / 2 ∈ l.map Fin.val
      · rw [if_pos hl, if_pos (.inr hl)]
      · simp only [hl, or_false, if_false]

end
end A64
