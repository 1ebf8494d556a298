import Mathlib.Algebra.Order.Ring.Nat
import Mathlib.Logic.Function.Basic

/-! # Arithmetic with condition flags

The general-purpose registers with the flags `NZCV`, the data-processing instructions that start-up
code and small programs are made of, and the conditions of their branches.  `holds_gt_subs` says
what the signed comparison after a flag-setting subtraction means. -/

namespace A64

/-- The registers, and the condition flags. -/
structure Alu where
  x : Fin 31 → BitVec 64
  n : Bool
  z : Bool
  c : Bool
  v : Bool

/-- Data-processing instructions.  `movImm` is also what `adr` and the load of a literal do. -/
inductive AluOp
  | mov (d n : Fin 31)
  | movImm (d : Fin 31) (imm : BitVec 64)
  | lsr (d n : Fin 31) (shift : ℕ)
  | bic (d n : Fin 31) (imm : BitVec 64)
  | orr (d n : Fin 31) (imm : BitVec 64)
  | sub (d n m : Fin 31)
  | subs (d n : Fin 31) (imm : BitVec 64)
  | cmp (n : Fin 31) (imm : BitVec 64)
deriving DecidableEq

/-- What a branch asks for. -/
inductive Cond
  | eq
  | ne
  | gt
  /-- `cbz` -/
  | zero (n : Fin 31)
deriving DecidableEq

namespace Alu

/-- Write a register. -/
def setX (a : Alu) (d : Fin 31) (w : BitVec 64) : Alu := { a with x := Function.update a.x d w }

/-- The flags of a subtraction; the carry is set if nothing is borrowed. -/
def subFlags (a : Alu) (u w : BitVec 64) : Alu :=
  { a with n := (u - w).msb, z := u - w == 0, c := decide (w ≤ u), v := u.ssubOverflow w }

/-- One instruction. -/
def exec (a : Alu) : AluOp → Alu
  | .mov d n => a.setX d (a.x n)
  | .movImm d imm => a.setX d imm
  | .lsr d n shift => a.setX d (a.x n >>> shift)
  | .bic d n imm => a.setX d (a.x n &&& ~~~imm)
  | .orr d n imm => a.setX d (a.x n ||| imm)
  | .sub d n m => a.setX d (a.x n - a.x m)
  | .subs d n imm => (a.subFlags (a.x n) imm).setX d (a.x n - imm)
  | .cmp n imm => a.subFlags (a.x n) imm

/-- Whether the branch is taken. -/
def holds (a : Alu) : Cond → Bool
  | .eq => a.z
  | .ne => !a.z
  | .gt => !a.z && a.n == a.v
  | .zero n => a.x n == 0

section
variable (a : Alu) (d n : Fin 31) (w u : BitVec 64)

@[simp] theorem setX_same : (a.setX d w).x d = w := by
  simp only [setX, Function.update_self]

theorem setX_ne {i : Fin 31} (h : i ≠ d) : (a.setX d w).x i = a.x i := by
  simp only [setX, Function.update_of_ne h]

@[simp] theorem setX_holds_gt : (a.setX d w).holds .gt = a.holds .gt := rfl

@[simp] theorem setX_holds_eq : (a.setX d w).holds .eq = a.holds .eq := rfl

@[simp] theorem setX_holds_ne : (a.setX d w).holds .ne = a.holds .ne := rfl

@[simp] theorem subFlags_x : (a.subFlags u w).x = a.x := rfl

/-- A difference is zero if the two are the same. -/
theorem sub_beq_zero : (u - w == 0) = decide (u = w) := by
  rw [Bool.eq_iff_iff, beq_iff_eq, decide_eq_true_eq]
  constructor
  · intro h
    apply BitVec.eq_of_toNat_eq
    have hz := congrArg BitVec.toNat h
    have hu := u.isLt
    have hw := w.isLt
    rw [BitVec.toNat_sub] at hz
    simp only [BitVec.ofNat_eq_ofNat, BitVec.toNat_ofNat] at hz
    omega
  · rintro rfl
    exact BitVec.sub_self u

theorem holds_eq_cmp : (a.exec (.cmp n w)).holds .eq = decide (a.x n = w) := sub_beq_zero w (a.x n)

theorem holds_ne_subs : (a.exec (.subs d n w)).holds .ne = !decide (a.x n = w) :=
  congrArg not (sub_beq_zero w (a.x n))

/-- The sign of a difference, corrected by the overflow, is the sign of the true difference. -/
theorem msb_sub_eq : ((u - w).msb == u.ssubOverflow w) = decide (w.toInt ≤ u.toInt) := by
  have hu₁ := u.toInt_lt
  have hu₂ := u.le_toInt
  have hw₁ := w.toInt_lt
  have hw₂ := w.le_toInt
  have hmsb : (u - w).msb = decide ((u - w).toInt < 0) := BitVec.msb_eq_toInt
  rw [Bool.eq_iff_iff, beq_iff_eq, decide_eq_true_eq, hmsb, BitVec.toInt_sub, BitVec.ssubOverflow,
    Bool.eq_iff_iff, decide_eq_true_eq, Bool.or_eq_true, decide_eq_true_eq, decide_eq_true_eq,
    Int.bmod_def]
  split_ifs <;> omega

/-- **The signed comparison** after a subtraction that sets the flags. -/
theorem holds_gt_subs :
    (a.exec (.subs d n w)).holds .gt = decide (w.toInt < (a.x n).toInt) := by
  have h : (a.exec (.subs d n w)).holds .gt =
      (!decide (a.x n = w) && decide (w.toInt ≤ (a.x n).toInt)) := by
    rw [← sub_beq_zero, ← msb_sub_eq]
    rfl
  rw [h, Bool.eq_iff_iff, Bool.and_eq_true, Bool.not_eq_true', decide_eq_false_iff_not,
    decide_eq_true_eq, decide_eq_true_eq, ← BitVec.toInt_inj]
  omega

end
end Alu
end A64
