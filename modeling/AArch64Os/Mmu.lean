import AArch64Os.Layout
import AArch64Os.Lib.ByteMem

/-! # Page tables

The page-table code of `mm/mmu.c`.  A `page_table_t *` is its address, `0` for `NULL`; the
entries are read and written in the physical memory.  The registers that the code programs
are part of the state; TLB maintenance and console output are left out.

`alloc_page_table` spins in `wfe` when the region of the linker script is used up, so every
function that may allocate a table is an `Option`, with `none` for a call that never
returns. -/

namespace AArch64Os

open ByteMem

/-! ### Constants of `mmu.h` -/

/-- `USER_VA_BITS` -/
def userVaBits : ℕ := 39
/-- `KERNEL_VA_BITS` -/
def kernelVaBits : ℕ := 39
/-- `USER_VA_SIZE` -/
def userVaSize : ℕ := 2 ^ userVaBits

/-- `x & 0x1FF` -/
def indexBits (x : ℕ) : Fin 512 := ⟨x % 512, Nat.mod_lt x (by decide)⟩

/-- `VA_L0_INDEX` -/
def vaL0Index (va : Word) : Fin 512 := indexBits (va.toNat / 2 ^ 39)
/-- `VA_L1_INDEX` -/
def vaL1Index (va : Word) : Fin 512 := indexBits (va.toNat / 2 ^ 30)
/-- `VA_L2_INDEX` -/
def vaL2Index (va : Word) : Fin 512 := indexBits (va.toNat / 2 ^ 21)
/-- `VA_L3_INDEX` -/
def vaL3Index (va : Word) : Fin 512 := indexBits (va.toNat / 2 ^ 12)

/-- `PTE_VALID` -/
def pteValid : Word := 1
/-- `PTE_TABLE` -/
def pteTable : Word := 2
/-- `PTE_TYPE_TABLE` -/
def pteTypeTable : Word := 3
/-- `PTE_TYPE_PAGE` -/
def pteTypePage : Word := 3
/-- `PTE_AF` -/
def pteAf : Word := 1 <<< 10
/-- `PTE_NG` -/
def pteNg : Word := 1 <<< 11
/-- `PTE_PXN` -/
def ptePxn : Word := 1 <<< 53
/-- `PTE_UXN` -/
def pteUxn : Word := 1 <<< 54
/-- `PTE_ATTRINDX(PTE_ATTR_DEVICE)` -/
def pteAttrDevice : Word := 0 <<< 2
/-- `PTE_ATTRINDX(PTE_ATTR_NORMAL)` -/
def pteAttrNormal : Word := 2 <<< 2
/-- `PTE_SH_INNER` -/
def pteShInner : Word := 3 <<< 8
/-- `PTE_AP_RW_EL1` -/
def pteApRwEl1 : Word := 0 <<< 6
/-- `PTE_AP_RW_ALL` -/
def pteApRwAll : Word := 1 <<< 6
/-- `PTE_AP_RO_EL1` -/
def pteApRoEl1 : Word := 2 <<< 6
/-- `PTE_AP_RO_ALL` -/
def pteApRoAll : Word := 3 <<< 6

/-- `PAGE_KERNEL_RO` -/
def pageKernelRo : Word :=
  pteValid ||| pteAf ||| pteAttrNormal ||| pteShInner ||| pteApRoEl1 ||| ptePxn ||| pteUxn
/-- `PAGE_KERNEL_RW` -/
def pageKernelRw : Word :=
  pteValid ||| pteAf ||| pteAttrNormal ||| pteShInner ||| pteApRwEl1 ||| ptePxn ||| pteUxn
/-- `PAGE_KERNEL_RX` -/
def pageKernelRx : Word :=
  pteValid ||| pteAf ||| pteAttrNormal ||| pteShInner ||| pteApRoEl1 ||| pteUxn
/-- `PAGE_KERNEL_RWX` -/
def pageKernelRwx : Word := pteValid ||| pteAf ||| pteAttrNormal ||| pteShInner ||| pteApRwEl1
/-- `PAGE_DEVICE` -/
def pageDevice : Word :=
  pteValid ||| pteAf ||| pteAttrDevice ||| pteApRwEl1 ||| ptePxn ||| pteUxn
/-- `PAGE_USER_RO` -/
def pageUserRo : Word :=
  pteValid ||| pteAf ||| pteAttrNormal ||| pteShInner ||| pteApRoAll ||| ptePxn ||| pteUxn ||| pteNg
/-- `PAGE_USER_RW` -/
def pageUserRw : Word :=
  pteValid ||| pteAf ||| pteAttrNormal ||| pteShInner ||| pteApRwAll ||| ptePxn ||| pteUxn ||| pteNg
/-- `PAGE_USER_RX` -/
def pageUserRx : Word :=
  pteValid ||| pteAf ||| pteAttrNormal ||| pteShInner ||| pteApRoAll ||| ptePxn ||| pteNg

/-- The value that `mmu_enable` writes to `TCR_EL1`. -/
def tcrValue : Word :=
  BitVec.ofNat 64 (64 - userVaBits) ||| 1 <<< 8 ||| 1 <<< 10 ||| 3 <<< 12 ||| 0 <<< 14 |||
    BitVec.ofNat 64 (64 - kernelVaBits) <<< 16 ||| 1 <<< 24 ||| 1 <<< 26 ||| 3 <<< 28 |||
    2 <<< 30 ||| 5 <<< 32

/-- `MAIR_VALUE` -/
def mairValue : Word := 0x00 ||| 0x44 <<< 8 ||| 0xFF <<< 16

/-- `SCTLR_M | SCTLR_C | SCTLR_I` -/
def sctlrEnable : Word := 1 <<< 0 ||| 1 <<< 2 ||| 1 <<< 12

/-- `page_align_down` -/
def pageAlignDown (addr : Word) : Word := addr &&& pageMask

/-- `page_align_up` -/
def pageAlignUp (addr : Word) : Word := (addr + BitVec.ofNat 64 pageSize - 1) &&& pageMask

/-! ### State -/

/-- The static data of `mmu.c`, the registers it programs, and the physical memory. -/
structure Mmu where
  kernelPgd : ℕ
  nextPageTable : ℕ
  currentUserPgd : ℕ
  ttbr0 : Word
  ttbr1 : Word
  tcr : Word
  mair : Word
  sctlr : Word
  mem : Mem

/-- The state of `mmu.c` before `mmu_init`: the static data is zero, the registers and the
memory hold anything. -/
def Mmu.boot (s : Mmu) : Mmu := { s with kernelPgd := 0, nextPageTable := 0, currentUserPgd := 0 }

/-- `mmu.c` before `mmu_init` with zeroed registers and memory. -/
def bssMmu : Mmu := ⟨0, 0, 0, 0, 0, 0, 0, 0, fun _ => 0⟩

/-- Store a word at an address. -/
def Mmu.store64 (s : Mmu) (a : ℕ) (w : Word) : Mmu := { s with mem := s.mem.store64 a w }

/-! ### Building tables -/

/-- Allocate a page table from reserved space. -/
def allocPageTable (L : Linker) (s : Mmu) : Option (ℕ × Mmu) :=
  let s := if s.nextPageTable = 0 then { s with nextPageTable := L.pageTablesStart } else s
  if L.pageTablesEnd < s.nextPageTable + pageSize then none
  else
    let pt := s.nextPageTable
    let s := { s with nextPageTable := s.nextPageTable + pageSize }
    some (pt, { s with mem := s.mem.fill pt 0 pageSize })

/-- `&table->entries[index]` -/
def entryAddr (table : ℕ) (index : Fin 512) : ℕ := table + 8 * index

/-- Get or create page table entry. -/
def getOrCreateTable (L : Linker) (s : Mmu) (parent : ℕ) (index : Fin 512) : Option (ℕ × Mmu) :=
  let entry := s.mem.load64 (entryAddr parent index)
  if entry &&& pteValid ≠ 0 ∧ entry &&& pteTable ≠ 0 then
    some ((entry &&& pageMask).toNat, s)
  else
    match allocPageTable L s with
    | none => none
    | some (table, s) =>
        some (table, s.store64 (entryAddr parent index)
          ((BitVec.ofNat 64 table &&& pageMask) ||| pteTypeTable ||| pteValid))

/-- The page descriptor for a frame. -/
def pageDescriptor (phys flags : Word) : Word := (phys &&& pageMask) ||| flags ||| pteTypePage

/-- The body that `map_page` and `mmu_map_user_page` share: walk and create the tables below
`pgd`, then write the page entry. -/
def installPage (L : Linker) (s : Mmu) (pgd : ℕ) (virt phys flags : Word) : Option Mmu :=
  match getOrCreateTable L s pgd (vaL0Index virt) with
  | none => none
  | some (pud, s) =>
      match getOrCreateTable L s pud (vaL1Index virt) with
      | none => none
      | some (pmd, s) =>
          match getOrCreateTable L s pmd (vaL2Index virt) with
          | none => none
          | some (pte, s) =>
              some (s.store64 (entryAddr pte (vaL3Index virt)) (pageDescriptor phys flags))

/-- Map a single 4KB page. -/
def mapPage (L : Linker) (s : Mmu) (virt phys flags : Word) : Option Mmu :=
  if s.kernelPgd = 0 then some s
  else installPage L s s.kernelPgd virt phys flags

/-- Map a single page in user page table. -/
def mmuMapUserPage (L : Linker) (s : Mmu) (userPgd : ℕ) (virt phys flags : Word) : Option Mmu :=
  if userPgd = 0 then some s
  else if userVaSize ≤ virt.toNat then some s
  else installPage L s userPgd virt phys flags

/-- The loop of `map_range` and `mmu_map_user_range`, over a function that maps one page. -/
def mapPages (f : Mmu → Word → Word → Option Mmu) (s : Mmu) (virt phys size : Word) : Option Mmu :=
  let virtAddr := pageAlignDown virt
  let physAddr := pageAlignDown phys
  let endAddr := pageAlignUp (virt + size)
  -- both ends are page aligned, so the `<` loop runs once for each page between them
  (List.range ((endAddr.toNat - virtAddr.toNat) / pageSize)).foldlM
    (fun s i => f s (virtAddr + BitVec.ofNat 64 (pageSize * i))
      (physAddr + BitVec.ofNat 64 (pageSize * i))) s

/-- Map a range of pages. -/
def mapRange (L : Linker) (s : Mmu) (virt phys size flags : Word) : Option Mmu :=
  mapPages (fun s v p => mapPage L s v p flags) s virt phys size

/-- Map a range of pages in user page table. -/
def mmuMapUserRange (L : Linker) (s : Mmu) (userPgd : ℕ) (virt phys size flags : Word) :
    Option Mmu :=
  mapPages (fun s v p => mmuMapUserPage L s userPgd v p flags) s virt phys size

/-! ### Walking tables -/

/-- One level of a walk: the table that a valid entry links to. -/
def nextTable (entry : Word) : Option ℕ :=
  if entry &&& pteValid = 0 then none else some (entry &&& pageMask).toNat

/-- The upper three levels of the walk in `unmap_page` and `mmu_get_physical`. -/
def walkTables (m : Mem) (pgd : ℕ) (virt : Word) : Option ℕ :=
  match nextTable (m.load64 (entryAddr pgd (vaL0Index virt))) with
  | none => none
  | some pud =>
      match nextTable (m.load64 (entryAddr pud (vaL1Index virt))) with
      | none => none
      | some pmd => nextTable (m.load64 (entryAddr pmd (vaL2Index virt)))

/-- Unmap a page. -/
def unmapPage (s : Mmu) (virt : Word) : Mmu :=
  if s.kernelPgd = 0 then s
  else
    match walkTables s.mem s.kernelPgd virt with
    | none => s
    | some pte => s.store64 (entryAddr pte (vaL3Index virt)) 0

/-- Get physical address from virtual address. -/
def mmuGetPhysical (s : Mmu) (pgd : ℕ) (virt : Word) : Word :=
  if pgd = 0 then 0
  else
    match walkTables s.mem pgd virt with
    | none => 0
    | some pteTable =>
        let pte := s.mem.load64 (entryAddr pteTable (vaL3Index virt))
        if pte &&& pteValid = 0 then 0
        else (pte &&& pageMask) ||| (virt &&& ~~~pageMask)

/-! ### Initialisation and user tables -/

/-- Create identity mapping for kernel and devices. -/
def createIdentityMapping (L : Linker) (s : Mmu) : Option Mmu := do
  let s ← mapRange L s (BitVec.ofNat 64 dramBase) (BitVec.ofNat 64 dramBase)
    (BitVec.ofNat 64 (64 * 1024 * 1024)) pageKernelRwx
  let s ← mapRange L s (BitVec.ofNat 64 uart0Base) (BitVec.ofNat 64 uart0Base)
    (BitVec.ofNat 64 pageSize) pageDevice
  let s ← mapRange L s (BitVec.ofNat 64 gicDistBase) (BitVec.ofNat 64 gicDistBase)
    (BitVec.ofNat 64 (64 * 1024)) pageDevice
  mapRange L s (BitVec.ofNat 64 gicCpuBase) (BitVec.ofNat 64 gicCpuBase)
    (BitVec.ofNat 64 (8 * 1024)) pageDevice

/-- Enable MMU with dual address space. -/
def mmuEnable (s : Mmu) : Mmu :=
  { s with ttbr0 := 0, ttbr1 := BitVec.ofNat 64 s.kernelPgd, tcr := tcrValue, mair := mairValue,
           sctlr := s.sctlr ||| sctlrEnable }

/-- `kernel_pgd = alloc_page_table()` -/
def allocKernelPgd (L : Linker) (s : Mmu) : Option Mmu :=
  match allocPageTable L s with
  | none => none
  | some (pgd, s) => some { s with kernelPgd := pgd }

/-- Initialize MMU. -/
def mmuInit (L : Linker) (s : Mmu) : Option Mmu := do
  let s ← allocKernelPgd L s
  let s ← createIdentityMapping L s
  some (mmuEnable s)

/-- Create a new user page table. -/
def mmuCreateUserTable (L : Linker) (s : Mmu) : Option (ℕ × Mmu) := allocPageTable L s

/-- Destroy a user page table. -/
def mmuDestroyUserTable (s : Mmu) (userPgd : ℕ) : Mmu :=
  if s.currentUserPgd = userPgd then { s with currentUserPgd := 0, ttbr0 := 0 } else s

/-- Switch to user page table (update TTBR0_EL1). -/
def mmuSwitchUserTable (s : Mmu) (userPgd : ℕ) : Mmu :=
  if userPgd = s.currentUserPgd then s
  else { s with currentUserPgd := userPgd, ttbr0 := BitVec.ofNat 64 userPgd }

end AArch64Os
