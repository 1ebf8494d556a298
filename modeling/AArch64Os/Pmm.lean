import AArch64Os.Layout
import AArch64Os.Lib.Chain
import Mathlib.Data.Int.Notation

/-! # Physical memory manager

The page allocator of `mm/pmm.c`.  A page descriptor is named by its index in `pages[]`,
so a `struct page *` is an `Option ℕ`.  `alloc_pages` and `free_pages` keep every free page
on the order-0 list; blocks of a higher order are found by scanning the flags and taken out
of the list page by page.

The walk that unlinks a page from the middle of the list does not end when the list is
cyclic; `allocPages` is therefore an `Option`, with `none` for a call that never returns. -/

namespace AArch64Os

open Linked

/-- `MAX_ORDER` -/
def maxOrder : ℕ := 10

/-- `PAGE_FREE` -/
def pageFree : ℕ := 0
/-- `PAGE_USED` -/
def pageUsed : ℕ := 1
/-- `PAGE_RESERVED` -/
def pageReserved : ℕ := 2

/-- `struct page` -/
structure Page where
  flags : ℕ
  order : ℕ
  refcount : ℕ
  next : Option ℕ
deriving DecidableEq, Repr

/-- `struct mem_zone`; its `pages` pointer is always the array `pages[]`. -/
structure MemZone where
  base : ℕ
  size : ℕ
  freeLists : ℕ → Option ℕ
  freePages : ℕ

/-- The static data of `pmm.c`. -/
structure Pmm where
  mainZone : MemZone
  pages : ℕ → Page
  numPages : ℕ

/-- `pmm.c`'s data before `pmm_init`: the zeroed `.bss`. -/
def bssPmm : Pmm := ⟨⟨0, 0, fun _ => none, 0⟩, fun _ => ⟨0, 0, 0, none⟩, 0⟩

namespace Pmm

/-- `pages[i] = p` -/
def setPage (s : Pmm) (i : ℕ) (p : Page) : Pmm := { s with pages := Function.update s.pages i p }

/-- The links of the free list. -/
def next (s : Pmm) (i : ℕ) : Option ℕ := (s.pages i).next

/-- `main_zone.free_lists[0]` -/
def freeList (s : Pmm) : Option ℕ := s.mainZone.freeLists 0

/-- `main_zone.free_lists[0] = h` -/
def setFreeList (s : Pmm) (h : Option ℕ) : Pmm :=
  { s with mainZone := { s.mainZone with freeLists := Function.update s.mainZone.freeLists 0 h } }

/-- `main_zone.free_pages = n` -/
def setFreePages (s : Pmm) (n : ℕ) : Pmm :=
  { s with mainZone := { s.mainZone with freePages := n } }

end Pmm

/-! ### Initialisation -/

/-- Mark a memory region with specific flags. -/
def pmmMarkRegion (s : Pmm) (base size : Word) (flags : ℕ) : Pmm :=
  let startPage := ((base - BitVec.ofNat 64 dramBase) / BitVec.ofNat 64 pageSize).toNat
  let endPage := ((base + size - BitVec.ofNat 64 dramBase + BitVec.ofNat 64 pageSize - 1) /
    BitVec.ofNat 64 pageSize).toNat
  if s.numPages ≤ startPage then s
  else
    let endPage := if s.numPages < endPage then s.numPages else endPage
    (List.range' startPage (endPage - startPage)).foldl
      (fun s i => s.setPage i { s.pages i with flags := flags }) s

/-- The first loop of `pmm_init`: all pages are free. -/
def initPages (s : Pmm) : Pmm :=
  (List.range s.numPages).foldl
    (fun s i => s.setPage i { flags := pageFree, order := 0, refcount := 0, next := none }) s

/-- The second loop of `pmm_init`: all free lists are empty. -/
def clearFreeLists (s : Pmm) : Pmm :=
  (List.range (maxOrder + 1)).foldl
    (fun s i => { s with mainZone := { s.mainZone with
      freeLists := Function.update s.mainZone.freeLists i none } }) s

/-- One round of the last loop of `pmm_init`: add page `i` to the order-0 list. -/
def addFreePage (s : Pmm) (i : ℕ) : Pmm :=
  if (s.pages i).flags = pageFree then
    let s := s.setPage i { s.pages i with next := s.freeList }
    let s := s.setFreeList (some i)
    s.setFreePages (s.mainZone.freePages + 1)
  else s

/-- Initialize physical memory manager. -/
@[irreducible]
def pmmInit (s : Pmm) : Pmm :=
  let s := { s with mainZone := { s.mainZone with base := dramBase, size := dramSize,
                                                  freePages := 0 } }
  let n := dramSize / pageSize
  let s := { s with numPages := if 16384 < n then 16384 else n }
  let s := initPages s
  let s := pmmMarkRegion s (BitVec.ofNat 64 kernelBase) (BitVec.ofNat 64 kernelSize) pageReserved
  let s := clearFreeLists s
  (List.range s.numPages).foldl addFreePage s

/-! ### Allocation -/

/-- `1UL << order`; a register shift takes the amount modulo 64. -/
def pageCount (order : ℤ) : ℕ := 2 ^ (order % 64).toNat

/-- The inner scan: are the `count` pages from `i` on all free? -/
def allFree (s : Pmm) (count i : ℕ) : Bool :=
  (List.range count).all (fun j => (s.pages (i + j)).flags == pageFree)

/-- Remove page `p` from the free list, wherever it is.  The walk of a null-terminated list of
distinct pages ends within `num_pages + 1` links. -/
def unlinkFree (s : Pmm) (p : ℕ) : Option Pmm :=
  (findLink s.next s.freeList p (s.numPages + 1) .head).map (fun link =>
    match link.deref s.next s.freeList, link with
    | none, _ => s
    | some _, .head => s.setFreeList (s.pages p).next
    | some _, .next q => s.setPage q { s.pages q with next := (s.pages p).next })

/-- The descriptor updates that make `p` a used page. -/
def takePage (s : Pmm) (p order : ℕ) : Pmm :=
  let s := s.setPage p { flags := pageUsed, order := order, refcount := 1, next := none }
  s.setFreePages (s.mainZone.freePages - 1)

/-- One round of the allocation loop: page `i + j` of the block found at `i`. -/
def allocRound (i : ℕ) (order : ℤ) (s : Pmm) (j : ℕ) : Option Pmm :=
  (unlinkFree s (i + j)).map
    (fun s => takePage s (i + j) (if j = 0 then (order % 2 ^ 32).toNat else 0))

/-- Allocate pages. -/
def allocPages (s : Pmm) (order : ℤ) : Option (Option ℕ × Pmm) :=
  if (maxOrder : ℤ) < order then some (none, s)
  else if order = 0 then
    match s.freeList with
    | none => some (none, s)
    | some p => some (some p, takePage (s.setFreeList (s.pages p).next) p 0)
  else
    let count := pageCount order
    -- `i <= num_pages - count` on unsigned 64-bit numbers
    match (List.range ((s.numPages + 2 ^ 64 - count) % 2 ^ 64 + 1)).find? (allFree s count) with
    | none => some (none, s)
    | some i => ((List.range count).foldlM (allocRound i order) s).map (fun s => (some i, s))

/-- One round of the loop of `free_pages`. -/
def releasePage (s : Pmm) (p : ℕ) : Pmm :=
  let s := s.setPage p { s.pages p with flags := pageFree, order := 0, next := s.freeList }
  let s := s.setFreeList (some p)
  s.setFreePages (s.mainZone.freePages + 1)

/-- Free pages. -/
def freePages (s : Pmm) (page : Option ℕ) (order : ℤ) : Pmm :=
  match page with
  | none => s
  | some p =>
      if (maxOrder : ℤ) < order then s
      else
        let s := if 0 < (s.pages p).refcount then
            s.setPage p { s.pages p with refcount := (s.pages p).refcount - 1 }
          else s
        if (s.pages p).refcount = 0 then
          (List.range (pageCount order)).foldl (fun s i => releasePage s (p + i)) s
        else s

/-! ### Addresses -/

/-- Convert page descriptor to physical address. -/
def pageToPhys (p : ℕ) : ℕ := dramBase + p * pageSize

/-- Convert physical address to page descriptor. -/
def physToPage (s : Pmm) (phys : ℕ) : Option ℕ :=
  if phys < dramBase ∨ dramBase + dramSize ≤ phys then none
  else
    let index := (phys - dramBase) / pageSize
    if s.numPages ≤ index then none else some index

end AArch64Os
