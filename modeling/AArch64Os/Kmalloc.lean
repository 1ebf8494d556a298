import AArch64Os.Pmm
import AArch64Os.Lib.ByteMem
import Mathlib.Data.Fin.VecNotation

/-! # Kernel heap

`mm/kmalloc.c`: small requests are served from slabs, pages that are divided into objects of one
size, others from the page allocator.  In front of the memory that is handed out stands a header,
24 bytes in an object and 16 bytes in a page block; `kfree` tells the two apart by a magic number
that it reads 8 bytes in front of its argument, where an object has its link. -/

namespace AArch64Os

open ByteMem

/-- `NUM_SLABS` -/
abbrev numSlabs : ℕ := 8

/-- `slab_sizes` -/
def slabSizes : Fin numSlabs → ℕ := ![16, 32, 64, 128, 256, 512, 1024, 2048]

/-- `KMALLOC_MAGIC` -/
def kmallocMagic : BitVec 32 := 0xDEADBEEF

/-- `KMALLOC_PAGE_MAGIC` -/
def kmallocPageMagic : BitVec 32 := 0xCAFEBABE

/-- `sizeof(struct obj_header)`: `size`, `magic` at 8, `next` at 16. -/
def objHeaderSize : ℕ := 24

/-- `sizeof(struct page_header)`: `size`, `magic` at 8, `order` at 12. -/
def pageHeaderSize : ℕ := 16

/-- `struct slab`; `freeList` is an address, 0 for `NULL`. -/
structure Slab where
  size : ℕ
  freeList : ℕ
  totalObjects : Word
  freeObjects : Word

/-- The static data of `kmalloc.c`, the page allocator and the memory. -/
structure Heap where
  pmm : Pmm
  mem : Mem
  slabs : Fin numSlabs → Slab
  totalAllocated : Word
  totalFreed : Word

namespace Heap

/-- Update slab `i`. -/
def upd (h : Heap) (i : Fin numSlabs) (f : Slab → Slab) : Heap :=
  { h with slabs := Function.update h.slabs i (f (h.slabs i)) }

/-- `obj->next` -/
def next (h : Heap) (obj : ℕ) : ℕ := (h.mem.load64 (obj + 16)).toNat

end Heap

/-- Find appropriate slab for size. -/
def findSlab (size : Word) : Option (Fin numSlabs) :=
  (List.finRange numSlabs).find? (fun i => size.toNat ≤ slabSizes i)

/-- Initialize heap allocator. -/
def kmallocInit (h : Heap) : Heap := { h with slabs := fun i => ⟨slabSizes i, 0, 0, 0⟩ }

/-! ### Slabs -/

/-- Take the first object of the free list. -/
def slabTake (h : Heap) (i : Fin numSlabs) : ℕ × Heap :=
  let obj := (h.slabs i).freeList
  (obj + objHeaderSize,
    h.upd i (fun s => { s with freeList := h.next obj, freeObjects := s.freeObjects - 1 }))

/-- One round of the loop that divides the page at `virt`: object `k`. -/
def carveRound (i : Fin numSlabs) (virt : ℕ) (h : Heap) (k : ℕ) : Heap :=
  let obj := virt + k * ((h.slabs i).size + objHeaderSize)
  let mem := h.mem.store64 obj (BitVec.ofNat 64 (h.slabs i).size)
  let mem := mem.store32 (obj + 8) kmallocMagic
  let mem := mem.store64 (obj + 16) (BitVec.ofNat 64 (h.slabs i).freeList)
  { h with mem := mem }.upd i (fun s =>
    { s with freeList := obj, totalObjects := s.totalObjects + 1, freeObjects := s.freeObjects + 1 })

/-- Allocate memory from slab: an address, 0 for `NULL`. -/
def slabAlloc (h : Heap) (i : Fin numSlabs) : Option (ℕ × Heap) :=
  if (h.slabs i).freeList ≠ 0 then some (slabTake h i)
  else
    match allocPages h.pmm 0 with
    | none => none
    | some (none, pmm) => some (0, { h with pmm := pmm })
    | some (some page, pmm) =>
        let objectsPerPage := pageSize / ((h.slabs i).size + objHeaderSize)
        some (slabTake ((List.range objectsPerPage).foldl (carveRound i (pageToPhys page))
          { h with pmm := pmm }) i)

/-- Free memory back to slab. -/
def slabFree (h : Heap) (ptr : ℕ) : Heap :=
  if ptr = 0 then h
  else
    let obj := ptr - objHeaderSize
    if h.mem.load32 (obj + 8) ≠ kmallocMagic then h
    else
      match findSlab (h.mem.load64 obj) with
      | none => h
      | some i =>
          { h with mem := h.mem.store64 (obj + 16) (BitVec.ofNat 64 (h.slabs i).freeList) }.upd i
            (fun s => { s with freeList := obj, freeObjects := s.freeObjects + 1 })

/-! ### The calls -/

/-- `PAGE_SIZE << order`; a register shift takes the amount modulo 64. -/
def pageSizeShl (order : ℕ) : Word := BitVec.ofNat 64 pageSize <<< (order % 64)

/-- The loop that counts `order` up; none if it does not end.  The amounts of the shift repeat
after 64 rounds. -/
def orderFor (totalSize : Word) : Option ℕ :=
  (List.range 64).find? (fun order => ¬ pageSizeShl order < totalSize)

/-- Allocate memory: an address, 0 for `NULL`. -/
def kmalloc (h : Heap) (size : Word) : Option (ℕ × Heap) :=
  if size = 0 then some (0, h)
  else
    match findSlab size with
    | none =>
        let totalSize := size + BitVec.ofNat 64 pageHeaderSize
        match orderFor totalSize with
        | none => none
        | some order =>
            match allocPages h.pmm order with
            | none => none
            | some (none, pmm) => some (0, { h with pmm := pmm })
            | some (some page, pmm) =>
                let hdr := pageToPhys page
                let mem := h.mem.store64 hdr size
                let mem := mem.store32 (hdr + 8) kmallocPageMagic
                let mem := mem.store32 (hdr + 12) (BitVec.ofNat 32 order)
                some (hdr + pageHeaderSize, { h with
                  pmm := pmm, mem := mem, totalAllocated := h.totalAllocated + pageSizeShl order })
    | some i =>
        match slabAlloc h i with
        | none => none
        | some (ptr, h) =>
            if ptr ≠ 0 then
              some (ptr, { h with
                totalAllocated := h.totalAllocated + BitVec.ofNat 64 (h.slabs i).size })
            else some (ptr, h)

/-- Allocate zeroed memory. -/
def kzalloc (h : Heap) (size : Word) : Option (ℕ × Heap) :=
  (kmalloc h size).map (fun x =>
    if x.1 ≠ 0 then (x.1, { x.2 with mem := x.2.mem.fill x.1 0 size.toNat }) else x)

/-- Allocate array. -/
def kcalloc (h : Heap) (nmemb size : Word) : Option (ℕ × Heap) := kzalloc h (nmemb * size)

/-- Free memory. -/
def kfree (h : Heap) (ptr : ℕ) : Heap :=
  if ptr = 0 then h
  else
    let pageHdr := ptr - pageHeaderSize
    if h.mem.load32 (pageHdr + 8) = kmallocPageMagic then
      let order := h.mem.load32 (pageHdr + 12)
      { h with totalFreed := h.totalFreed + pageSizeShl order.toNat,
               pmm := freePages h.pmm (physToPage h.pmm pageHdr) order.toInt }
    else
      let obj := ptr - objHeaderSize
      slabFree (if h.mem.load32 (obj + 8) = kmallocMagic then
        { h with totalFreed := h.totalFreed + h.mem.load64 obj } else h) ptr

end AArch64Os
