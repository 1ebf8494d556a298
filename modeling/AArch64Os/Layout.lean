import Mathlib.Algebra.BigOperators.Group.List.Basic
import Mathlib.Algebra.Order.Ring.Nat
import Mathlib.Tactic.NormNum
import Mathlib.Tactic.Ring
import Mathlib.Tactic.Tauto

/-! # Memory layout

The address constants of `kernel.h` and `mmu.h` and the symbols that `linker.ld` places.
The linker script fixes where the image starts and how large the page-table region is; the
other addresses depend on the size of the compiled kernel, so they are the fields of
`Linker`, together with what the script guarantees about them. -/

namespace AArch64Os

/-- `uint64_t`. -/
abbrev Word := BitVec 64

/-- `PAGE_SIZE` -/
def pageSize : ℕ := 4096
/-- `PAGE_MASK`, that is `~(PAGE_SIZE - 1)` -/
def pageMask : Word := ~~~(0xFFF : Word)

/-- `KERNEL_BASE` -/
def kernelBase : ℕ := 0x40400000
/-- `KERNEL_SIZE` (16 MB) -/
def kernelSize : ℕ := 16 * 1024 * 1024
/-- `DRAM_BASE` -/
def dramBase : ℕ := 0x40000000
/-- `DRAM_SIZE` (1 GB) -/
def dramSize : ℕ := 2 ^ 30

/-- `UART0_BASE` -/
def uart0Base : ℕ := 0x09000000
/-- `GIC_DIST_BASE` -/
def gicDistBase : ℕ := 0x08000000
/-- `GIC_CPU_BASE` -/
def gicCpuBase : ℕ := 0x08010000
/-- `IRQ_TIMER_PHYS` -/
def irqTimerPhys : ℕ := 30

/-- `sizeof(struct exception_frame)`: `x0`-`x30`, `sp`, `elr`, `spsr`. -/
def frameSize : ℕ := 272
/-- `sizeof(struct task)` -/
def taskSize : ℕ := 408
/-- `offsetof(struct task, context)` -/
def contextOffset : ℕ := 56
/-- `MAX_TASKS` -/
abbrev maxTasks : ℕ := 32

/-- The symbols of `linker.ld`: the page-table region is 256 KB, page aligned, behind the
`.bss` section (which holds `task_pool`) and inside the 16 MB that `pmm_init` reserves for
the kernel. -/
structure Linker where
  taskPool : ℕ
  /-- `__page_tables_start` -/
  pageTablesStart : ℕ
  /-- `__page_tables_end` -/
  pageTablesEnd : ℕ
  taskPool_aligned : taskPool % 8 = 0
  taskPool_ge : kernelBase ≤ taskPool
  taskPool_le : taskPool + taskSize * maxTasks ≤ pageTablesStart
  aligned : pageTablesStart % pageSize = 0
  end_eq : pageTablesEnd = pageTablesStart + 0x40000
  le_kernelEnd : pageTablesEnd ≤ kernelBase + kernelSize

/-- A layout that meets the conditions. -/
instance : Inhabited Linker where
  default := ⟨0x40500000, 0x40600000, 0x40640000, by decide, by decide, by decide, by decide, rfl,
    by decide⟩

namespace Linker

/-- `&task_pool[i].context` -/
def context (L : Linker) (i : ℕ) : ℕ := L.taskPool + taskSize * i + contextOffset

end Linker
end AArch64Os
