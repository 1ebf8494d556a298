import AArch64Os.Layout
import AArch64Os.Lib.A64
import AArch64Os.Lib.A64Alu
import AArch64Os.Lib.Flow
import AArch64Os.Lib.Runs

/-! # The entry point

`_start` of `entry.S`, from the state in which the firmware leaves the CPU to the call of
`kernel_main`.  At EL1 and at EL2 it comes to the call with an MMU and caches that are off, a stack,
vectors and a cleared BSS section (`start_enters_kernel`); at any other level it stays in `hang`
for ever and has changed nothing (`start_hangs`). -/

namespace AArch64Os

open A64 ByteMem Flow

/-! ### The sections of the image -/

/-- What `linker.ld` says about the sections in front of the page tables; `task_pool` is in the BSS
section. -/
structure BootLayout extends Linker where
  /-- `__bss_start` -/
  bssStart : ℕ
  /-- `__bss_end` -/
  bssEnd : ℕ
  /-- `__stack_top_el1` and `__stack_top_el2` -/
  stackTop : Level → ℕ
  /-- `exception_vectors_el1` and `exception_vectors_el2` -/
  exceptionVectors : Level → Word
  bss_aligned : bssStart % 4096 = 0
  bss_ge : kernelBase ≤ bssStart
  bss_le : bssStart ≤ bssEnd
  pool_in_bss : bssStart ≤ taskPool ∧ taskPool + taskSize * maxTasks ≤ bssEnd
  /-- `.stack_el2` starts at the next multiple of 16 -/
  stack_el2 : stackTop .el2 = (bssEnd + 15) / 16 * 16 + 0x10000
  stack_el1 : stackTop .el1 = stackTop .el2 + 0x10000
  stack_le : stackTop .el1 ≤ pageTablesStart

/-- A layout that meets the conditions. -/
instance : Inhabited BootLayout where
  default :=
    { toLinker := default, bssStart := 0x404FF000, bssEnd := 0x40503305
      stackTop := fun n => if n = .el1 then 0x40523310 else 0x40513310
      exceptionVectors := fun n => if n = .el1 then 0x40400800 else 0x40401000
      bss_aligned := by decide, bss_ge := by decide, bss_le := by decide, pool_in_bss := by decide
      stack_el2 := rfl, stack_el1 := rfl, stack_le := by decide }

/-! ### The machine -/

/-- The system registers that the entry code uses. -/
inductive EntryReg
  | sctlr (n : Level)
  | vbar (n : Level)
  | hcrEl2
  | cptrEl2
  | cpacrEl1
deriving DecidableEq

/-- The state of the CPU at the entry; `sp` is the stack pointer in use. -/
structure EntryCpu where
  alu : Alu
  sp : Word
  currentEL : Word
  sys : EntryReg → Word
  mem : Mem

/-- The primitives of the entry code. -/
inductive EntryOp
  | alu (op : AluOp)
  | mrsCurrentEL (d : Fin 31)
  | mrs (d : Fin 31) (r : EntryReg)
  | msr (r : EntryReg) (n : Fin 31)
  /-- `msr r, xzr` -/
  | msrZero (r : EntryReg)
  /-- `mov sp, xn` -/
  | movSp (n : Fin 31)
  /-- `str xzr, [xn], #8` -/
  | strZero (n : Fin 31)
  | isb
  | wfe

/-- Write a system register. -/
def EntryCpu.setSys (s : EntryCpu) (r : EntryReg) (w : Word) : EntryCpu :=
  { s with sys := Function.update s.sys r w }

/-- One primitive. -/
def EntryOp.exec : EntryOp → EntryCpu → EntryCpu
  | .alu op, s => { s with alu := s.alu.exec op }
  | .mrsCurrentEL d, s => { s with alu := s.alu.setX d s.currentEL }
  | .mrs d r, s => { s with alu := s.alu.setX d (s.sys r) }
  | .msr r n, s => s.setSys r (s.alu.x n)
  | .msrZero r, s => s.setSys r 0
  | .movSp n, s => { s with sp := s.alu.x n }
  | .strZero n, s =>
      { s with
        mem := s.mem.store64 (s.alu.x n).toNat 0, alu := s.alu.setX n (s.alu.x n + 8) }
  | .isb, s => s
  | .wfe, s => s

/-- The machine of the entry code. -/
def entrySem : Sem EntryOp Cond EntryCpu := ⟨EntryOp.exec, fun t s => s.alu.holds t⟩

/-- The code that is called. -/
inductive EntryCall
  | kernelMain
deriving DecidableEq

abbrev EntryInstr := Instr EntryOp Cond EntryCall

/-! ### The code -/

/-- `el2_entry` -/
def el2Entry : ℕ := 8
/-- `el1_entry` -/
def el1Entry : ℕ := 25
/-- `common_init` -/
def commonInit : ℕ := 36
/-- `clear_bss` -/
def clearBss : ℕ := 44
/-- `bss_done` -/
def bssDone : ℕ := 47
/-- the `bl kernel_main` -/
def blKernelMain : ℕ := 50
/-- `hang` -/
def hang : ℕ := 51

/-- Up to the reading of the level. -/
def readLevel : List EntryOp :=
  [.alu (.mov 20 0), .mrsCurrentEL 0, .alu (.lsr 0 0 2), .alu (.cmp 0 2)]

/-- The part of a level up to its vectors. -/
def levelSetup (B : BootLayout) (n : Level) : List EntryOp :=
  [.mrs 0 (.sctlr n), .alu (.bic 0 0 0x1), .alu (.bic 0 0 0x4), .alu (.bic 0 0 0x1000),
   .msr (.sctlr n) 0, .isb,
   .alu (.movImm 0 (BitVec.ofNat 64 (B.stackTop n))), .movSp 0,
   .alu (.movImm 0 (B.exceptionVectors n)), .msr (.vbar n) 0, .isb]

/-- What EL2 configures besides. -/
def el2Setup : List EntryOp :=
  [.alu (.movImm 0 0x80000000), .msr .hcrEl2 0, .isb, .msrZero .cptrEl2, .isb]

/-- From `common_init` up to the test for an empty section. -/
def commonSetup (B : BootLayout) : List EntryOp :=
  [.mrs 0 .cpacrEl1, .alu (.orr 0 0 0x300000), .msr .cpacrEl1 0, .isb,
   .alu (.movImm 0 (BitVec.ofNat 64 B.bssStart)), .alu (.movImm 1 (BitVec.ofNat 64 B.bssEnd)),
   .alu (.sub 1 1 0)]

/-- One round of `clear_bss`. -/
def clearRound : List EntryOp := [.strZero 0, .alu (.subs 1 1 8)]

/-- The arguments of `kernel_main`. -/
def mainArguments : List EntryOp := [.alu (.mov 0 20), .mrsCurrentEL 1, .alu (.lsr 1 1 2)]

/-- `_start` -/
def start (B : BootLayout) : List EntryInstr :=
  readLevel.map .prim ++ [.branch .eq el2Entry, .prim (.alu (.cmp 0 1)), .branch .eq el1Entry,
    .jump hang] ++
  (levelSetup B .el2 ++ el2Setup).map .prim ++ [.jump commonInit] ++
  (levelSetup B .el1).map .prim ++
  (commonSetup B).map .prim ++ [.branch (.zero 1) bssDone] ++
  clearRound.map .prim ++ [.branch .gt clearBss] ++
  mainArguments.map .prim ++ [.call .kernelMain] ++
  [.prim .wfe, .jump hang]

/-! ### What the kernel finds -/

/-- The registers that the entry code of a level writes. -/
def writtenRegs : Level → List EntryReg
  | .el1 => [.sctlr .el1, .vbar .el1, .cpacrEl1]
  | .el2 => [.sctlr .el2, .vbar .el2, .hcrEl2, .cptrEl2, .cpacrEl1]

/-- The state at the call of `kernel_main`, from the one at the entry. -/
structure KernelEntered (B : BootLayout) (n : Level) (s s' : EntryCpu) : Prop where
  /-- the device tree pointer and the level are the arguments -/
  dtb : s'.alu.x 0 = s.alu.x 0
  level : s'.alu.x 1 = BitVec.ofNat 64 n.num
  sp : s'.sp = BitVec.ofNat 64 (B.stackTop n)
  /-- MMU, data cache and instruction cache are off -/
  sctlr : s'.sys (.sctlr n) = s.sys (.sctlr n) &&& ~~~0x1 &&& ~~~0x4 &&& ~~~0x1000
  vbar : s'.sys (.vbar n) = B.exceptionVectors n
  el2 : n = .el2 → s'.sys .hcrEl2 = 0x80000000 ∧ s'.sys .cptrEl2 = 0
  cpacr : s'.sys .cpacrEl1 = s.sys .cpacrEl1 ||| 0x300000
  sysOther : ∀ r, r ∉ writtenRegs n → s'.sys r = s.sys r
  bss : ∀ x, B.bssStart ≤ x → x < B.bssEnd → s'.mem x = 0
  /-- up to seven bytes behind the section are cleared, but none of the stacks -/
  memOther : ∀ x, x < B.bssStart ∨ (B.bssEnd + 7) / 8 * 8 ≤ x → s'.mem x = s.mem x

/-! ### The blocks -/

section
variable {B : BootLayout} {s s' : EntryCpu} {n : Level}

/-- The effect of a block. -/
abbrev runBlock (ops : List EntryOp) (s : EntryCpu) : EntryCpu :=
  ops.foldl (fun s op => op.exec s) s

theorem start_block {ops : List EntryOp} {pc next : ℕ}
    (h : CodeAt (start B) pc (ops.map .prim)) (hn : pc + ops.length = next) :
    Reaches entrySem (start B) ⟨pc, s⟩ ⟨next, runBlock ops s⟩ := by
  subst hn
  exact reaches_block h

/-- What the setup of a level leaves. -/
structure LevelReady (B : BootLayout) (n : Level) (s s' : EntryCpu) : Prop where
  x20 : s'.alu.x 20 = s.alu.x 20
  currentEL : s'.currentEL = s.currentEL
  mem : s'.mem = s.mem
  sp : s'.sp = BitVec.ofNat 64 (B.stackTop n)
  sctlr : s'.sys (.sctlr n) = s.sys (.sctlr n) &&& ~~~0x1 &&& ~~~0x4 &&& ~~~0x1000
  vbar : s'.sys (.vbar n) = B.exceptionVectors n
  el2 : n = .el2 → s'.sys .hcrEl2 = 0x80000000 ∧ s'.sys .cptrEl2 = 0
  sysOther : ∀ r, r ∉ writtenRegs n ∨ r = .cpacrEl1 → s'.sys r = s.sys r

theorem levelSetup_el1 (s : EntryCpu) : LevelReady B .el1 s (runBlock (levelSetup B .el1) s) := by
  constructor
  case el2 => exact nofun
  case sysOther =>
    intro r hr
    have h1 : r ≠ .sctlr .el1 := by rintro rfl; simp [writtenRegs] at hr
    have h2 : r ≠ .vbar .el1 := by rintro rfl; simp [writtenRegs] at hr
    simp [levelSetup, EntryOp.exec, EntryCpu.setSys, h1, h2]
  all_goals simp [levelSetup, EntryOp.exec, EntryCpu.setSys, Alu.exec, Alu.setX]

theorem levelSetup_el2 (s : EntryCpu) :
    LevelReady B .el2 s (runBlock (levelSetup B .el2 ++ el2Setup) s) := by
  constructor
  case sysOther =>
    intro r hr
    have h1 : r ≠ .sctlr .el2 := by rintro rfl; simp [writtenRegs] at hr
    have h2 : r ≠ .vbar .el2 := by rintro rfl; simp [writtenRegs] at hr
    have h3 : r ≠ .hcrEl2 := by rintro rfl; simp [writtenRegs] at hr
    have h4 : r ≠ .cptrEl2 := by rintro rfl; simp [writtenRegs] at hr
    simp [levelSetup, el2Setup, EntryOp.exec, EntryCpu.setSys, h1, h2, h3, h4]
  all_goals simp [levelSetup, el2Setup, EntryOp.exec, EntryCpu.setSys, Alu.exec, Alu.setX]

/-- After the reading of the level. -/
theorem start_read (s : EntryCpu) : ∃ s₁, Reaches entrySem (start B) ⟨0, s⟩ ⟨4, s₁⟩ ∧
    s₁ = { s with alu := s₁.alu } ∧ s₁.alu.x 20 = s.alu.x 0 ∧ s₁.alu.x 0 = s.currentEL >>> 2 ∧
    s₁.alu.holds .eq = decide (s.currentEL >>> 2 = 2) := by
  refine ⟨runBlock readLevel s, start_block ⟨_, rfl⟩ rfl, rfl, ?_, ?_, ?_⟩
  · simp [readLevel, EntryOp.exec, Alu.exec, Alu.setX]
  · simp [readLevel, EntryOp.exec, Alu.exec, Alu.setX]
  · refine (Alu.holds_eq_cmp _ 0 2).trans ?_
    simp [EntryOp.exec, Alu.exec, Alu.setX]

/-- At EL2. -/
theorem start_el2 (h : s.currentEL >>> 2 = 2) : ∃ s', Reaches entrySem (start B) ⟨0, s⟩
    ⟨commonInit, s'⟩ ∧ s'.alu.x 20 = s.alu.x 0 ∧ LevelReady B .el2 { s with alu := s'.alu } s' := by
  obtain ⟨s₁, h₁, hs₁, hx, -, heq⟩ := start_read (B := B) s
  have h₂ : Reaches entrySem (start B) ⟨4, s₁⟩ ⟨el2Entry, s₁⟩ :=
    reaches_taken rfl (heq.trans (decide_eq_true h))
  have h₃ : Reaches entrySem (start B) ⟨el2Entry, s₁⟩
      ⟨24, runBlock (levelSetup B .el2 ++ el2Setup) s₁⟩ := start_block ⟨_, rfl⟩ rfl
  have hready := levelSetup_el2 (B := B) s₁
  generalize runBlock (levelSetup B .el2 ++ el2Setup) s₁ = s₂ at h₃ hready
  refine ⟨s₂, ((h₁.trans h₂).trans h₃).trans (reaches_jump rfl), hready.x20.trans hx, ?_⟩
  rw [hs₁] at hready
  exact { hready with x20 := rfl }

/-- The second comparison. -/
theorem start_not_el2 (h : s.currentEL >>> 2 ≠ 2) : ∃ s₁, Reaches entrySem (start B) ⟨0, s⟩
    ⟨6, s₁⟩ ∧ s₁ = { s with alu := s₁.alu } ∧ s₁.alu.x 20 = s.alu.x 0 ∧
    s₁.alu.holds .eq = decide (s.currentEL >>> 2 = 1) := by
  obtain ⟨s₁, h₁, hs₁, hx, hx0, heq⟩ := start_read (B := B) s
  have h₂ : Reaches entrySem (start B) ⟨4, s₁⟩ ⟨5, s₁⟩ :=
    reaches_fall rfl (heq.trans (decide_eq_false h))
  have h₃ : Reaches entrySem (start B) ⟨5, s₁⟩ ⟨6, { s₁ with alu := s₁.alu.exec (.cmp 0 1) }⟩ :=
    .head (step_prim rfl) (.refl _)
  refine ⟨_, (h₁.trans h₂).trans h₃, ?_, hx, ?_⟩
  · rw [hs₁]
  · rw [← hx0]
    exact Alu.holds_eq_cmp s₁.alu 0 1

/-- At EL1. -/
theorem start_el1 (h : s.currentEL >>> 2 = 1) : ∃ s', Reaches entrySem (start B) ⟨0, s⟩
    ⟨commonInit, s'⟩ ∧ s'.alu.x 20 = s.alu.x 0 ∧ LevelReady B .el1 { s with alu := s'.alu } s' := by
  have hne : s.currentEL >>> 2 ≠ 2 := by
    rw [h]
    decide
  obtain ⟨s₁, h₁, hs₁, hx, heq⟩ := start_not_el2 (B := B) hne
  have h₂ : Reaches entrySem (start B) ⟨6, s₁⟩ ⟨el1Entry, s₁⟩ :=
    reaches_taken rfl (heq.trans (decide_eq_true h))
  have h₃ :
      Reaches entrySem (start B) ⟨el1Entry, s₁⟩ ⟨commonInit, runBlock (levelSetup B .el1) s₁⟩ :=
    start_block ⟨_, rfl⟩ rfl
  have hready := levelSetup_el1 (B := B) s₁
  generalize runBlock (levelSetup B .el1) s₁ = s₂ at h₃ hready
  refine ⟨s₂, (h₁.trans h₂).trans h₃, hready.x20.trans hx, ?_⟩
  rw [hs₁] at hready
  exact { hready with x20 := rfl }

/-! ### The BSS section -/

/-- The size of the section. -/
def BootLayout.bssSize (B : BootLayout) : ℕ := B.bssEnd - B.bssStart

/-- In the loop, when the first `j` words are cleared. -/
structure Clearing (B : BootLayout) (s₀ : EntryCpu) (j : ℕ) (s : EntryCpu) : Prop where
  x0 : s.alu.x 0 = BitVec.ofNat 64 (B.bssStart + 8 * j)
  x1 : 8 * j ≤ B.bssSize → s.alu.x 1 = BitVec.ofNat 64 (B.bssSize - 8 * j)
  x20 : s.alu.x 20 = s₀.alu.x 20
  state : s = { s₀ with alu := s.alu, mem := s₀.mem.fill B.bssStart 0 (8 * j) }

/-- The section is in front of the end of the kernel. -/
theorem BootLayout.bss_bounds (B : BootLayout) :
    (B.bssEnd + 7) / 8 * 8 ≤ B.stackTop .el2 - 0x10000 ∧ B.bssEnd + 8 < 2 ^ 32 ∧
      B.bssStart ≤ B.bssEnd ∧ B.bssStart % 8 = 0 := by
  have h1 := B.stack_el2
  have h2 := B.stack_el1
  have h3 := B.stack_le
  have h4 := B.bss_aligned
  have h5 := B.bss_le
  have h6 := B.end_eq
  have h7 := B.le_kernelEnd
  simp only [kernelBase, kernelSize] at h7
  omega

/-- One more word. -/
theorem fill_word (m : Mem) (a j : ℕ) :
    (m.fill a 0 (8 * j)).store64 (a + 8 * j) 0 = m.fill a 0 (8 * (j + 1)) := by
  funext x
  rw [Mem.fill_apply]
  rcases Nat.lt_or_ge x (a + 8 * j) with hlt | hge
  · rw [Mem.store64_of_lt hlt, Mem.fill_apply]
    split_ifs <;> first | rfl | omega
  · rcases Nat.lt_or_ge x (a + 8 * j + 8) with hlt' | hge'
    · rw [if_pos (by omega)]
      unfold Mem.store64 Mem.writeLE
      rw [if_pos ⟨hge, hlt'⟩]
      show BitVec.ofNat 8 (0 / _) = 0
      rw [Nat.zero_div]
      rfl
    · rw [Mem.store64_of_ge hge', Mem.fill_apply, if_neg (by omega), if_neg (by omega)]

/-- One round of the loop, up to its branch. -/
theorem clear_round {s₀ : EntryCpu} {j : ℕ} (h : Clearing B s₀ j s) (hj : 8 * j < B.bssSize) :
    ∃ s', Reaches entrySem (start B) ⟨clearBss, s⟩ ⟨46, s'⟩ ∧ Clearing B s₀ (j + 1) s' ∧
      s'.alu.holds .gt = decide (8 * (j + 1) < B.bssSize) := by
  obtain ⟨-, hlt, hle, -⟩ := B.bss_bounds
  have hsize : B.bssSize = B.bssEnd - B.bssStart := rfl
  have hx1 := h.x1 hj.le
  refine ⟨runBlock clearRound s, start_block ⟨_, rfl⟩ rfl, ⟨?_, ?_, ?_, ?_⟩, ?_⟩
  · simp only [clearRound, List.foldl_cons, List.foldl_nil, EntryOp.exec, Alu.exec]
    rw [Alu.setX_ne _ _ _ (by decide), Alu.subFlags_x, Alu.setX_same, h.x0]
    rw [show (8 : Word) = BitVec.ofNat 64 8 from rfl, ← BitVec.ofNat_add]
    congr 1
  · intro hj'
    simp only [clearRound, List.foldl_cons, List.foldl_nil, EntryOp.exec, Alu.exec]
    rw [Alu.setX_same, Alu.setX_ne _ _ _ (by decide), hx1]
    apply BitVec.eq_of_toNat_eq
    rw [BitVec.toNat_sub, BitVec.toNat_ofNat, BitVec.toNat_ofNat]
    have h8 : (8 : Word).toNat = 8 := rfl
    rw [h8]
    omega
  · simp only [clearRound, List.foldl_cons, List.foldl_nil, EntryOp.exec, Alu.exec]
    rw [Alu.setX_ne _ _ _ (by decide), Alu.subFlags_x, Alu.setX_ne _ _ _ (by decide), h.x20]
  · have hx0 : (s.alu.x 0).toNat = B.bssStart + 8 * j := by
      rw [h.x0, BitVec.toNat_ofNat]
      omega
    have hmem : s.mem = s₀.mem.fill B.bssStart 0 (8 * j) := by rw [h.state]
    have hsame : s = { s₀ with alu := s.alu, mem := s.mem } := by rw [h.state]
    simp only [clearRound, List.foldl_cons, List.foldl_nil, EntryOp.exec]
    rw [hx0, hmem, fill_word, hsame]
  · refine (Alu.holds_gt_subs _ 1 1 8).trans (decide_eq_decide.mpr ?_)
    have hleft : ((s.alu.setX 0 (s.alu.x 0 + 8)).x 1).toInt = ((B.bssSize - 8 * j : ℕ) : ℤ) := by
      rw [Alu.setX_ne _ _ _ (by decide), hx1]
      rw [BitVec.toInt_eq_toNat_of_lt] <;> rw [BitVec.toNat_ofNat] <;> omega
    show (8 : ℤ) < ((s.alu.setX 0 (s.alu.x 0 + 8)).x 1).toInt ↔ _
    rw [hleft]
    omega

/-- The whole loop clears the words of the section. -/
theorem clear_loop {s₀ : EntryCpu} (h : Clearing B s₀ 0 s) (hpos : 0 < B.bssSize) :
    ∃ s', Reaches entrySem (start B) ⟨clearBss, s⟩ ⟨bssDone, s'⟩ ∧
      Clearing B s₀ ((B.bssSize + 7) / 8) s' := by
  have hround : ∀ (n : ℕ) (t : EntryCpu),
      (∃ j, j + (n + 1) + 1 = (B.bssSize + 7) / 8 ∧ Clearing B s₀ j t) →
      ∃ t', Reaches entrySem (start B) ⟨clearBss, t⟩ ⟨clearBss, t'⟩ ∧
        ∃ j, j + n + 1 = (B.bssSize + 7) / 8 ∧ Clearing B s₀ j t' := by
    rintro n t ⟨j, hj, hc⟩
    obtain ⟨t', ht, hc', hgt⟩ := clear_round hc (by omega)
    refine ⟨t', ht.trans (reaches_taken rfl ?_), j + 1, by omega, hc'⟩
    exact hgt.trans (decide_eq_true (by omega))
  have hfirst : ∃ j, j + ((B.bssSize + 7) / 8 - 1) + 1 = (B.bssSize + 7) / 8 ∧ Clearing B s₀ j s :=
    ⟨0, by omega, h⟩
  obtain ⟨t, ht, j, hj, hc⟩ := reaches_loop
    (fun n t => ∃ j, j + n + 1 = (B.bssSize + 7) / 8 ∧ Clearing B s₀ j t) hround hfirst
  -- the last round
  obtain ⟨t', ht', hc', hgt⟩ := clear_round hc (by omega)
  have hlast : j + 1 = (B.bssSize + 7) / 8 := hj
  have hfall : Reaches entrySem (start B) ⟨46, t'⟩ ⟨bssDone, t'⟩ :=
    reaches_fall rfl (hgt.trans (decide_eq_false (by omega)))
  exact ⟨t', (ht.trans ht').trans hfall, hlast ▸ hc'⟩

theorem fill_nothing (m : Mem) (a : ℕ) (c : BitVec 8) : m.fill a c 0 = m := by
  funext x
  rw [Mem.fill_apply, if_neg (by omega)]

/-- From `common_init` to the section. -/
theorem common_spec (s : EntryCpu) : ∃ s', Reaches entrySem (start B) ⟨commonInit, s⟩ ⟨43, s'⟩ ∧
    Clearing B (s.setSys .cpacrEl1 (s.sys .cpacrEl1 ||| 0x300000)) 0 s' := by
  obtain ⟨-, hlt, hle, -⟩ := B.bss_bounds
  refine ⟨runBlock (commonSetup B) s, start_block ⟨_, rfl⟩ rfl, ⟨?_, ?_, ?_, ?_⟩⟩
  · simp [commonSetup, EntryOp.exec, EntryCpu.setSys, Alu.exec, Alu.setX]
  · intro _
    simp only [commonSetup, List.foldl_cons, List.foldl_nil, EntryOp.exec, EntryCpu.setSys,
      Alu.exec]
    rw [Alu.setX_same, Alu.setX_same, Alu.setX_ne _ _ _ (by decide), Alu.setX_same]
    apply BitVec.eq_of_toNat_eq
    rw [BitVec.toNat_sub, BitVec.toNat_ofNat, BitVec.toNat_ofNat, BitVec.toNat_ofNat,
      BootLayout.bssSize]
    omega
  · simp [commonSetup, EntryOp.exec, EntryCpu.setSys, Alu.exec, Alu.setX]
  · rw [Nat.mul_zero, fill_nothing]
    simp [commonSetup, EntryOp.exec, EntryCpu.setSys, Alu.exec, Alu.setX]

/-- From `common_init` to `bss_done`. -/
theorem common_clears (s : EntryCpu) :
    ∃ s', Reaches entrySem (start B) ⟨commonInit, s⟩ ⟨bssDone, s'⟩ ∧
    Clearing B (s.setSys .cpacrEl1 (s.sys .cpacrEl1 ||| 0x300000)) ((B.bssSize + 7) / 8) s' := by
  obtain ⟨-, hlt, hle, -⟩ := B.bss_bounds
  obtain ⟨s₁, h₁, hc⟩ := common_spec (B := B) s
  have hx1 := hc.x1 (Nat.zero_le _)
  have hsize : B.bssSize = B.bssEnd - B.bssStart := rfl
  by_cases hz : B.bssSize = 0
  · refine ⟨s₁, h₁.trans (reaches_taken rfl ?_), ?_⟩
    · show (s₁.alu.x 1 == 0) = true
      rw [hx1, hz]
      rfl
    · rw [hz]
      exact hc
  · have hne : (s₁.alu.x 1 == 0) = false := by
      rw [hx1, beq_eq_false_iff_ne]
      intro he
      have hnat := congrArg BitVec.toNat he
      rw [BitVec.toNat_ofNat] at hnat
      have h0 : (0 : Word).toNat = 0 := rfl
      omega
    obtain ⟨s₂, h₂, hc'⟩ := clear_loop hc (by omega)
    exact ⟨s₂, (h₁.trans (reaches_fall rfl hne)).trans h₂, hc'⟩

/-- The words of the section are its bytes and at most seven more. -/
theorem cleared_bytes (m : Mem) (x : ℕ) :
    ((B.bssStart ≤ x → x < B.bssEnd → m.fill B.bssStart 0 (8 * ((B.bssSize + 7) / 8)) x = 0) ∧
      (x < B.bssStart ∨ (B.bssEnd + 7) / 8 * 8 ≤ x →
        m.fill B.bssStart 0 (8 * ((B.bssSize + 7) / 8)) x = m x)) := by
  obtain ⟨-, -, hle, halign⟩ := B.bss_bounds
  have hsize : B.bssSize = B.bssEnd - B.bssStart := rfl
  rw [Mem.fill_apply]
  constructor
  · intro h1 h2
    rw [if_pos (by omega)]
  · intro h
    rw [if_neg (by omega)]

/-- From `common_init` to the call. -/
theorem LevelReady.enters {s₀ : EntryCpu} (h : LevelReady B n { s₀ with alu := s.alu } s)
    (hx : s.alu.x 20 = s₀.alu.x 0) (hel : s₀.currentEL >>> 2 = BitVec.ofNat 64 n.num) :
    ∃ s', Reaches entrySem (start B) ⟨commonInit, s⟩ ⟨blKernelMain, s'⟩ ∧
      KernelEntered B n s₀ s' := by
  obtain ⟨s₁, h₁, hc⟩ := common_clears (B := B) s
  obtain ⟨hsp, hcur, hsys, hmem⟩ : s₁.sp = s.sp ∧ s₁.currentEL = s.currentEL ∧
      s₁.sys = Function.update s.sys .cpacrEl1 (s.sys .cpacrEl1 ||| 0x300000) ∧
      s₁.mem = s.mem.fill B.bssStart 0 (8 * ((B.bssSize + 7) / 8)) := by
    rw [hc.state]
    exact ⟨rfl, rfl, rfl, rfl⟩
  have hold : ∀ r, r ≠ .cpacrEl1 → s₁.sys r = s.sys r := by
    intro r hr
    rw [hsys, Function.update_of_ne hr]
  refine ⟨runBlock mainArguments s₁, h₁.trans (start_block ⟨_, rfl⟩ rfl), ?_⟩
  constructor
  case dtb =>
    simp only [mainArguments, List.foldl_cons, List.foldl_nil, EntryOp.exec, Alu.exec]
    rw [Alu.setX_ne _ _ _ (by decide), Alu.setX_ne _ _ _ (by decide), Alu.setX_same, hc.x20]
    exact hx
  case level =>
    simp only [mainArguments, List.foldl_cons, List.foldl_nil, EntryOp.exec, Alu.exec]
    rw [Alu.setX_same, Alu.setX_same, hcur, h.currentEL]
    exact hel
  case sp => exact hsp.trans h.sp
  case sctlr => exact (hold (.sctlr n) nofun).trans h.sctlr
  case vbar => exact (hold (.vbar n) nofun).trans h.vbar
  case el2 =>
    intro hn
    obtain ⟨hhcr, hcptr⟩ := h.el2 hn
    exact ⟨(hold .hcrEl2 nofun).trans hhcr, (hold .cptrEl2 nofun).trans hcptr⟩
  case cpacr =>
    have hcpacr := h.sysOther .cpacrEl1 (.inr rfl)
    show s₁.sys .cpacrEl1 = _
    rw [hsys, Function.update_self, hcpacr]
  case sysOther =>
    intro r hr
    refine (hold r ?_).trans (h.sysOther r (.inl hr))
    rintro rfl
    cases n <;> simp [writtenRegs] at hr
  case bss =>
    intro x h1 h2
    show s₁.mem x = 0
    rw [hmem]
    exact (cleared_bytes s.mem x).1 h1 h2
  case memOther =>
    intro x hx
    show s₁.mem x = s₀.mem x
    rw [hmem, (cleared_bytes s.mem x).2 hx, h.mem]

end

/-! ### The entry -/

/-- **The entry point brings up the kernel**: from any state at EL1 or EL2 it comes to the call of
`kernel_main`, with the registers, the stack and the BSS section as the C code expects them. -/
theorem start_enters_kernel (B : BootLayout) (s : EntryCpu) (n : Level)
    (hel : s.currentEL >>> 2 = BitVec.ofNat 64 n.num) :
    ∃ s', Reaches entrySem (start B) ⟨0, s⟩ ⟨blKernelMain, s'⟩ ∧
      (start B)[blKernelMain]? = some (.call .kernelMain) ∧ KernelEntered B n s s' := by
  cases n with
  | el1 =>
      obtain ⟨s₁, h₁, hx, hready⟩ := start_el1 (B := B) hel
      obtain ⟨s', h₂, he⟩ := hready.enters hx hel
      exact ⟨s', h₁.trans h₂, rfl, he⟩
  | el2 =>
      obtain ⟨s₁, h₁, hx, hready⟩ := start_el2 (B := B) hel
      obtain ⟨s', h₂, he⟩ := hready.enters hx hel
      exact ⟨s', h₁.trans h₂, rfl, he⟩

/-- The firmware of a machine without virtualization starts the kernel at EL1. -/
theorem start_enters_kernel_el1 : ∃ s s', s.currentEL = 4 ∧
    Reaches entrySem (start default) ⟨0, s⟩ ⟨blKernelMain, s'⟩ ∧
      KernelEntered default .el1 s s' := by
  let s : EntryCpu := ⟨⟨fun _ => 0, false, false, false, false⟩, 0, 4, fun _ => 0, fun _ => 0⟩
  obtain ⟨s', hr, -, he⟩ := start_enters_kernel default s .el1 (by decide)
  exact ⟨s, s', rfl, hr, he⟩

/-- On the way to `hang`: where the code is, and what it has found out. -/
structure Hanging (s : EntryCpu) (c : Cfg EntryCpu) : Prop where
  state : c.st = { s with alu := c.st.alu }
  at_pc : c.pc ≤ 1 ∨ (c.pc = 2 ∧ c.st.alu.x 0 = s.currentEL) ∨
    (c.pc = 3 ∧ c.st.alu.x 0 = s.currentEL >>> 2) ∨
    (c.pc = 4 ∧ c.st.alu.x 0 = s.currentEL >>> 2 ∧ c.st.alu.holds .eq = false) ∨
    (c.pc = 5 ∧ c.st.alu.x 0 = s.currentEL >>> 2) ∨ (c.pc = 6 ∧ c.st.alu.holds .eq = false) ∨
    c.pc = 7 ∨ c.pc = hang ∨ c.pc = hang + 1

theorem Hanging.step {B : BootLayout} {s : EntryCpu} {c : Cfg EntryCpu} (h : Hanging s c)
    (hel : ∀ n : Level, s.currentEL >>> 2 ≠ BitVec.ofNat 64 n.num) :
    ∃ c', Flow.step entrySem (start B) c = some c' ∧ Hanging s c' := by
  obtain ⟨pc, t⟩ := c
  obtain ⟨hst, hpc⟩ := h
  simp only at hst hpc
  have h2 : decide (s.currentEL >>> 2 = 2) = false := decide_eq_false (hel .el2)
  have h1 : decide (s.currentEL >>> 2 = 1) = false := decide_eq_false (hel .el1)
  rcases hpc with hle | ⟨rfl, hx⟩ | ⟨rfl, hx⟩ | ⟨rfl, hx, hf⟩ | ⟨rfl, hx⟩ | ⟨rfl, hf⟩ | rfl | rfl |
    rfl
  · obtain rfl | rfl : pc = 0 ∨ pc = 1 := by omega
    · refine ⟨_, step_prim rfl, by rw [hst]; rfl, .inl le_rfl⟩
    · refine ⟨_, step_prim rfl, by rw [hst]; rfl, .inr (.inl ⟨rfl, ?_⟩)⟩
      rw [hst]
      exact Alu.setX_same _ _ _
  · refine ⟨_, step_prim rfl, by rw [hst]; rfl, .inr (.inr (.inl ⟨rfl, ?_⟩))⟩
    show (t.alu.setX 0 (t.alu.x 0 >>> 2)).x 0 = _
    rw [Alu.setX_same, hx]
  · refine ⟨_, step_prim rfl, by rw [hst]; rfl, .inr (.inr (.inr (.inl ⟨rfl, hx, ?_⟩)))⟩
    exact (Alu.holds_eq_cmp _ 0 2).trans (by rw [hx]; exact h2)
  · exact ⟨_, step_fall rfl hf, hst, .inr (.inr (.inr (.inr (.inl ⟨rfl, hx⟩))))⟩
  · refine ⟨_, step_prim rfl, by rw [hst]; rfl, .inr (.inr (.inr (.inr (.inr (.inl ⟨rfl, ?_⟩)))))⟩
    exact (Alu.holds_eq_cmp _ 0 1).trans (by rw [hx]; exact h1)
  · exact ⟨_, step_fall rfl hf, hst, by simp⟩
  · exact ⟨_, step_jump rfl, hst, by simp⟩
  · exact ⟨_, step_prim rfl, by rw [hst]; rfl, by simp⟩
  · exact ⟨_, step_jump rfl, hst, by simp⟩

/-- **At any other level** the entry point never calls the kernel: it goes on for ever, and changes
neither the memory nor a system register nor the stack pointer. -/
theorem start_hangs (B : BootLayout) (s : EntryCpu)
    (hel : ∀ n : Level, s.currentEL >>> 2 ≠ BitVec.ofNat 64 n.num) {c : Cfg EntryCpu}
    (h : Reaches entrySem (start B) ⟨0, s⟩ c) :
    (∃ c', Flow.step entrySem (start B) c = some c') ∧ c.st = { s with alu := c.st.alu } := by
  have hinv : Hanging s c := Runs.run_invariant (I := Hanging s) ⟨rfl, .inl (Nat.zero_le 1)⟩
    (fun d d' hd hs => by
      obtain ⟨d'', hs', hd'⟩ := hd.step (B := B) hel
      obtain rfl := Option.some.inj (hs.symm.trans hs')
      exact hd') h
  obtain ⟨c', hs, -⟩ := hinv.step (B := B) hel
  exact ⟨⟨c', hs⟩, hinv.state⟩

/-- At EL3. -/
theorem start_hangs_el3 : ∃ s : EntryCpu, s.currentEL = 12 ∧
    ∀ c, Reaches entrySem (start default) ⟨0, s⟩ c →
      ∃ c', Flow.step entrySem (start default) c = some c' := by
  let s : EntryCpu := ⟨⟨fun _ => 0, false, false, false, false⟩, 0, 12, fun _ => 0, fun _ => 0⟩
  have hel : ∀ n : Level, s.currentEL >>> 2 ≠ BitVec.ofNat 64 n.num := by
    intro n
    cases n <;> decide
  exact ⟨s, rfl, fun c h => (start_hangs default s hel h).1⟩

end AArch64Os
