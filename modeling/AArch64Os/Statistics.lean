import AArch64Os.HeapAccounts
import AArch64Os.Hex
import Mathlib.Algebra.BigOperators.Group.Finset.Basic
import Mathlib.Algebra.BigOperators.Fin

/-! # The statistics that are printed

`kernel_main` prints the statistics of the page allocator and of the heap.  The texts are readable,
and in every state of a run the numbers balance: the used pages are those of the kernel, of the
slabs, of the page blocks that are live, and of other kernel code.  All of these but the last can
be computed from what the heap prints, so the two texts say how many pages other kernel code has
(`pages_from_statistics`). -/

namespace AArch64Os

open Report Relation Finset

/-! ### The texts -/

/-- Dump PMM statistics. -/
def pmmDumpStats (s : Pmm) : List (BitVec 8) :=
  uartPuts (ascii "\nPhysical Memory Manager Statistics:\n") ++
  uartPuts (ascii "  Total pages:    ") ++
  uartPuthex (BitVec.ofNat 64 s.numPages) ++
  uartPuts (ascii "\n") ++
  uartPuts (ascii "  Free pages:     ") ++
  uartPuthex (BitVec.ofNat 64 s.mainZone.freePages) ++
  uartPuts (ascii "\n") ++
  uartPuts (ascii "  Used pages:     ") ++
  uartPuthex (BitVec.ofNat 64 s.numPages - BitVec.ofNat 64 s.mainZone.freePages) ++
  uartPuts (ascii "\n")

/-- Dump heap statistics. -/
def kmallocDumpStats (h : Heap) : List (BitVec 8) :=
  uartPuts (ascii "\nKernel Heap Statistics:\n") ++
  uartPuts (ascii "  Total allocated: ") ++
  uartPuthex h.totalAllocated ++
  uartPuts (ascii " bytes\n") ++
  uartPuts (ascii "  Total freed:     ") ++
  uartPuthex h.totalFreed ++
  uartPuts (ascii " bytes\n") ++
  uartPuts (ascii "  Currently used:  ") ++
  uartPuthex (h.totalAllocated - h.totalFreed) ++
  uartPuts (ascii " bytes\n") ++
  uartPuts (ascii "\nSlab Statistics:\n") ++
  (List.finRange numSlabs).flatMap (fun i =>
    uartPuts (ascii "  Slab ") ++
    uartPuthex (BitVec.ofNat 64 (slabSizes i)) ++
    uartPuts (ascii ": ") ++
    uartPuthex (h.slabs i).totalObjects ++
    uartPuts (ascii " total, ") ++
    uartPuthex (h.slabs i).freeObjects ++
    uartPuts (ascii " free\n"))

/-! ### Reading them -/

/-- The numbers of the two texts, in the order in which they are printed. -/
def statValues (h : Heap) : List Word :=
  [BitVec.ofNat 64 h.pmm.numPages, BitVec.ofNat 64 h.pmm.mainZone.freePages,
    BitVec.ofNat 64 h.pmm.numPages - BitVec.ofNat 64 h.pmm.mainZone.freePages,
    h.totalAllocated, h.totalFreed, h.totalAllocated - h.totalFreed] ++
  (List.finRange numSlabs).flatMap (fun i =>
    [BitVec.ofNat 64 (slabSizes i), (h.slabs i).totalObjects, (h.slabs i).freeObjects])

/-- What is printed in front of the line of slab `i`. -/
def slabLead (i : Fin numSlabs) : List (BitVec 8) :=
  if i = 0 then uartPuts (ascii " bytes\n") ++ uartPuts (ascii "\nSlab Statistics:\n")
  else uartPuts (ascii " free\n")

/-- The texts in front of these numbers. -/
def statTemplate : Template Word (BitVec 8) :=
  ([uartPuts (ascii "\nPhysical Memory Manager Statistics:\n") ++
      uartPuts (ascii "  Total pages:    "),
    uartPuts (ascii "\n") ++ uartPuts (ascii "  Free pages:     "),
    uartPuts (ascii "\n") ++ uartPuts (ascii "  Used pages:     "),
    uartPuts (ascii "\n") ++ uartPuts (ascii "\nKernel Heap Statistics:\n") ++
      uartPuts (ascii "  Total allocated: "),
    uartPuts (ascii " bytes\n") ++ uartPuts (ascii "  Total freed:     "),
    uartPuts (ascii " bytes\n") ++ uartPuts (ascii "  Currently used:  ")] ++
  (List.finRange numSlabs).flatMap (fun i =>
    [slabLead i ++ uartPuts (ascii "  Slab "), uartPuts (ascii ": "),
      uartPuts (ascii " total, ")])).map (fun text _ => text)

/-- What the two texts say, as numbers. -/
structure Statistics where
  totalPages : ℕ
  freePages : ℕ
  usedPages : ℕ
  allocated : ℕ
  freed : ℕ
  used : ℕ
  slabSize : Fin numSlabs → ℕ
  slabTotal : Fin numSlabs → ℕ
  slabFree : Fin numSlabs → ℕ

namespace Statistics

/-- From the numbers in the order in which they are printed. -/
def ofValues (l : List Word) : Statistics where
  totalPages := (l.getD 0 0).toNat
  freePages := (l.getD 1 0).toNat
  usedPages := (l.getD 2 0).toNat
  allocated := (l.getD 3 0).toNat
  freed := (l.getD 4 0).toNat
  used := (l.getD 5 0).toNat
  slabSize i := (l.getD (6 + 3 * i) 0).toNat
  slabTotal i := (l.getD (7 + 3 * i) 0).toNat
  slabFree i := (l.getD (8 + 3 * i) 0).toNat

/-- The pages that the slabs took: each was divided into as many objects as fit. -/
def slabPages (st : Statistics) : ℕ :=
  ∑ i, st.slabTotal i / (pageSize / (st.slabSize i + objHeaderSize))

/-- The bytes charged for objects. -/
def slabBytes (st : Statistics) : ℕ :=
  ∑ i, st.slabSize i * (st.slabTotal i - st.slabFree i)

/-- The pages of the live page blocks: whatever is charged otherwise. -/
def blockPages (st : Statistics) : ℕ := (st.used - st.slabBytes) / pageSize

/-- The pages of other kernel code: the kernel itself has 4096. -/
def otherPages (st : Statistics) : ℕ := st.usedPages - (4096 + st.slabPages + st.blockPages)

end Statistics

/-- Read both texts. -/
def readStatistics (l : List (BitVec 8)) : Option Statistics :=
  match Report.read hexField statTemplate [] l with
  | some (values, rest) =>
      if rest = uartPuts (ascii " free\n") then some (.ofValues values) else none
  | none => none

theorem statistics_eq (h : Heap) : pmmDumpStats h.pmm ++ kmallocDumpStats h =
    print hexField statTemplate [] (statValues h) ++ uartPuts (ascii " free\n") := by
  simp [pmmDumpStats, kmallocDumpStats, statTemplate, statValues, slabLead, numSlabs,
    List.finRange_succ, print]

theorem readStatistics_eq (h : Heap) :
    readStatistics (pmmDumpStats h.pmm ++ kmallocDumpStats h) =
      some (.ofValues (statValues h)) := by
  have hlen : (statValues h).length = statTemplate.length := by
    simp [statValues, statTemplate, numSlabs, List.finRange_succ]
  rw [readStatistics, statistics_eq, read_print _ _ _ _ _ hlen]
  simp only [List.nil_append, if_pos]

/-- The numbers of a slab. -/
theorem statValues_slab (h : Heap) (i : Fin numSlabs) :
    (Statistics.ofValues (statValues h)).slabSize i = slabSizes i ∧
      (Statistics.ofValues (statValues h)).slabTotal i = (h.slabs i).totalObjects.toNat ∧
      (Statistics.ofValues (statValues h)).slabFree i = (h.slabs i).freeObjects.toNat := by
  have hsize : (BitVec.ofNat 64 (slabSizes i)).toNat = slabSizes i := by
    have := slabSizes_bounds i
    rw [BitVec.toNat_ofNat, Nat.mod_eq_of_lt (by omega)]
  refine ⟨Eq.trans ?_ hsize, ?_, ?_⟩ <;>
  · refine congrArg BitVec.toNat ?_
    simp only [statValues, numSlabs, List.finRange_succ]
    revert i
    simp [Fin.forall_fin_succ, numSlabs]

/-! ### What the objects and the blocks add up to -/

/-- The sum of the weights of the keys of a list, key by key. -/
theorem sum_mul_countP {α ι : Type*} [Fintype ι] [DecidableEq ι] (w : ι → ℕ) (f : α → Option ι)
    (l : List α) : ∑ i, w i * l.countP (fun a => decide (f a = some i)) =
      (l.map (fun a => (f a).elim 0 w)).sum := by
  induction l with
  | nil => simp
  | cons a l ih =>
      have hone : ∑ i, w i * (if f a = some i then 1 else 0) = (f a).elim 0 w := by
        cases f a with
        | none => simp
        | some j => simp
      simp only [List.countP_cons, decide_eq_true_eq, mul_add, sum_add_distrib, ih, hone,
        List.map_cons, List.sum_cons]
      exact Nat.add_comm _ _

/-- The slab of an object. -/
def Alloc.slab? (a : Alloc) : Option (Fin numSlabs) :=
  match a.origin with
  | .object i _ => some i
  | .block _ => none

theorem Alloc.object?_isSome (a : Alloc) (i : Fin numSlabs) :
    (a.object? i).isSome = decide (a.slab? = some i) := by
  rcases a with ⟨⟨j, obj⟩ | b, size⟩
  · simp only [object?, slab?, Option.some.injEq]
    split_ifs with hj <;> simp [hj]
  · simp [object?, slab?]

/-- What is charged for objects, and what for page blocks. -/
theorem Alloc.charge_eq (a : Alloc) :
    a.charge = a.slab?.elim 0 slabSizes + a.block?.elim 0 (fun b => b.size * pageSize) := by
  rcases a with ⟨⟨j, obj⟩ | b, size⟩
  · rfl
  · exact (Nat.zero_add _).symm

namespace Layout
variable (G : Layout)

theorem taken_length (i : Fin numSlabs) :
    (G.taken i).length = G.live.countP (fun a => decide (a.slab? = some i)) := by
  rw [taken, List.length_filterMap_eq_countP]
  exact List.countP_congr (fun a _ => by rw [a.object?_isSome])

theorem blockPages_liveBlocks : blockPages G.liveBlocks * pageSize =
    (G.live.map (fun a => a.block?.elim 0 (fun b => b.size * pageSize))).sum := by
  unfold liveBlocks blockPages
  induction G.live with
  | nil => rfl
  | cons a l ih =>
      cases ha : a.block? with
      | none => simpa [List.filterMap_cons, ha] using ih
      | some b =>
          simp only [List.filterMap_cons, ha, List.map_cons, List.sum_cons, Nat.add_mul, ih,
            Option.elim_some]

/-- Objects and blocks make up all that is charged. -/
theorem charged_eq : G.charged =
    ∑ i, slabSizes i * (G.taken i).length + blockPages G.liveBlocks * pageSize := by
  have hcharge : G.live.map Alloc.charge = G.live.map (fun a => a.slab?.elim 0 slabSizes +
      a.block?.elim 0 (fun b => b.size * pageSize)) :=
    List.map_congr_left (fun a _ => a.charge_eq)
  simp only [taken_length, sum_mul_countP]
  rw [charged, hcharge, List.sum_map_add, blockPages_liveBlocks]

theorem objects_length (i : Fin numSlabs) :
    (G.objects i).length = G.pages.countP (fun p => decide (some p.slab = some i)) *
      SlabPage.count i := by
  unfold objects
  induction G.pages with
  | nil => simp
  | cons p l ih =>
      by_cases hp : p.slab = i
      · simp [hp, ih, Nat.add_mul, SlabPage.objects, Nat.add_comm]
      · simp [hp, ih]

/-- The pages of the slabs, from the numbers of objects. -/
theorem slabPages_eq : ∑ i, (G.objects i).length / SlabPage.count i = G.pages.length := by
  have hdiv : ∀ i, (G.objects i).length / SlabPage.count i =
      1 * G.pages.countP (fun p => decide (some p.slab = some i)) := by
    intro i
    have hcount : 0 < SlabPage.count i := by
      revert i
      decide
    rw [objects_length, Nat.mul_div_cancel _ hcount, one_mul]
  simp only [hdiv]
  rw [sum_mul_countP (fun _ => 1) (fun p : SlabPage => some p.slab)]
  simp

theorem blockPages_blocks (other : List Block) : blockPages (G.blocks ++ other) =
    G.pages.length + blockPages G.liveBlocks + blockPages other := by
  have hone : (G.pages.map SlabPage.block).map Block.size = G.pages.map (fun _ => 1) := by
    rw [List.map_map]
    rfl
  simp only [blockPages, blocks, List.map_append, List.sum_append, hone]
  simp

end Layout

/-! ### The balance -/

/-- What the statistics say about a state of a run. -/
structure Balanced (st : Statistics) (r : HeapRun) : Prop where
  total : st.totalPages = managedPages
  pages : st.freePages + st.usedPages = st.totalPages
  /-- Used pages: the kernel's, the slabs', those of live page blocks, those of other code. -/
  used : st.usedPages = 4096 + st.slabPages + st.blockPages + blockPages r.other
  /-- The live requests that no slab serves. -/
  blocks : st.blockPages * pageSize =
    (r.live.map (fun p => if findSlab p.2 = none then chargeFor p.2 else 0)).sum
  bytes : st.used = (r.live.map (fun p => chargeFor p.2)).sum

theorem Alloc.Served.block_charge {a : Alloc} (h : a.Served) :
    a.block?.elim 0 (fun b => b.size * pageSize) =
      if findSlab a.size = none then chargeFor a.size else 0 := by
  have hcharge := h.charge
  rcases a with ⟨⟨i, obj⟩ | b, size⟩
  · have hfind : findSlab size = some i := h
    simp [block?, hfind]
  · rw [if_pos h.1, ← hcharge]
    rfl

namespace RunLayout
variable {r : HeapRun} {G : Layout}

theorem blockPages_eq (hr : RunLayout r G) : blockPages G.liveBlocks * pageSize =
    (r.live.map (fun p => if findSlab p.2 = none then chargeFor p.2 else 0)).sum := by
  have hblock : G.live.map (fun a => a.block?.elim 0 (fun b => b.size * pageSize)) =
      (G.live.map Alloc.client).map
        (fun p => if findSlab p.2 = none then chargeFor p.2 else 0) := by
    rw [List.map_map]
    exact List.map_congr_left (fun a ha => (hr.served a ha).block_charge)
  rw [Layout.blockPages_liveBlocks, hblock]
  exact (hr.live.map _).sum_eq.symm

theorem slab_values (hr : RunLayout r G) (i : Fin numSlabs) :
    (Statistics.ofValues (statValues r.heap)).slabTotal i = (G.objects i).length ∧
      (Statistics.ofValues (statValues r.heap)).slabTotal i -
        (Statistics.ofValues (statValues r.heap)).slabFree i = (G.taken i).length := by
  obtain ⟨-, htotal, hfree⟩ := statValues_slab r.heap i
  obtain ⟨hfreeNat, htotalNat⟩ := hr.inv.slab_toNat i
  have hperm := (hr.inv.slab i).perm.length_eq
  rw [List.length_append] at hperm
  rw [htotal, hfree, hfreeNat, htotalNat]
  omega

theorem slabPages_eq (hr : RunLayout r G) :
    (Statistics.ofValues (statValues r.heap)).slabPages = G.pages.length := by
  rw [← G.slabPages_eq]
  refine sum_congr rfl (fun i _ => ?_)
  rw [(hr.slab_values i).1, (statValues_slab r.heap i).1]
  rfl

theorem slabBytes_eq (hr : RunLayout r G) : (Statistics.ofValues (statValues r.heap)).slabBytes =
    ∑ i, slabSizes i * (G.taken i).length := by
  refine sum_congr rfl (fun i _ => ?_)
  rw [(hr.slab_values i).2, (statValues_slab r.heap i).1]

/-- What is not charged for objects is charged for page blocks. -/
theorem blockPages_values (hr : RunLayout r G) :
    (Statistics.ofValues (statValues r.heap)).blockPages = blockPages G.liveBlocks := by
  have hused : (Statistics.ofValues (statValues r.heap)).used = G.charged := hr.inv.used_toNat
  rw [Statistics.blockPages, hused, hr.slabBytes_eq, Layout.charged_eq, Nat.add_sub_cancel_left,
    Nat.mul_div_cancel _ (by decide)]

theorem balanced (hr : RunLayout r G) : Balanced (.ofValues (statValues r.heap)) r := by
  have hnum : r.heap.pmm.numPages = 16384 := hr.inv.pmm.numPages.trans managedPages_eq
  have hcount := hr.inv.pmm.count
  rw [hr.inv.pmm.reservedPages_eq, hnum, Layout.blockPages_blocks] at hcount
  have htotal : (Statistics.ofValues (statValues r.heap)).totalPages = 16384 := by
    show (BitVec.ofNat 64 r.heap.pmm.numPages).toNat = 16384
    rw [hnum]
    rfl
  have hfree : (Statistics.ofValues (statValues r.heap)).freePages =
      r.heap.pmm.mainZone.freePages := by
    show (BitVec.ofNat 64 _).toNat = _
    rw [BitVec.toNat_ofNat, Nat.mod_eq_of_lt (by omega)]
  have hused : (Statistics.ofValues (statValues r.heap)).usedPages =
      16384 - r.heap.pmm.mainZone.freePages := by
    show (BitVec.ofNat 64 r.heap.pmm.numPages - BitVec.ofNat 64 _).toNat = _
    rw [hnum, BitVec.toNat_sub, BitVec.toNat_ofNat, BitVec.toNat_ofNat]
    omega
  refine ⟨htotal.trans managedPages_eq.symm, ?_, ?_, ?_, ?_⟩
  · omega
  · rw [hused, hr.slabPages_eq, hr.blockPages_values]
    omega
  · rw [hr.blockPages_values]
    exact hr.blockPages_eq
  · exact hr.inv.used_toNat.trans hr.charged_eq

end RunLayout

theorem Balanced.otherPages {st : Statistics} {r : HeapRun} (h : Balanced st r) :
    st.otherPages = blockPages r.other := by
  rw [Statistics.otherPages, h.used, Nat.add_sub_cancel_left]

/-- **The statistics balance.**  In every state of a run the two texts are readable; free and used
pages are all pages; and what the texts say leaves exactly the pages of other kernel code. -/
theorem pages_from_statistics {s : Pmm} {m : ByteMem.Mem} {slabs : Fin numSlabs → Slab}
    {other : List Block} (hs : PmmInv s other) {r : HeapRun}
    (hr : ReflTransGen HeapStep ⟨kmallocInit ⟨s, m, slabs, 0, 0⟩, [], other⟩ r) :
    ∃ st, readStatistics (pmmDumpStats r.heap.pmm ++ kmallocDumpStats r.heap) = some st ∧
      Balanced st r ∧ st.otherPages = blockPages r.other := by
  obtain ⟨G, hlayout⟩ := heapRun_layout hs hr
  exact ⟨_, readStatistics_eq r.heap, hlayout.balanced, hlayout.balanced.otherPages⟩

/-- A page and its header are asked for after the start. -/
theorem pages_from_statistics_page : ∃ ptr h' st, kmalloc bootHeap 0x1000 = some (ptr, h') ∧
    ptr ≠ 0 ∧ readStatistics (pmmDumpStats h'.pmm ++ kmallocDumpStats h') = some st ∧
    st.used = 0x2000 ∧ st.otherPages = 0 := by
  obtain ⟨ptr, h', he, hptr⟩ := bootHeap_kmalloc_page
  obtain ⟨st, hread, hbalanced, hother⟩ :=
    pages_from_statistics (r := ⟨h', [(ptr, 0x1000)], []⟩) (pmmInit_inv bssPmm)
      (.single (.kmalloc (by decide) he hptr))
  have hcharge : chargeFor 0x1000 = 0x2000 := by decide
  refine ⟨ptr, h', st, he, hptr, hread, hbalanced.bytes.trans ?_, hother⟩
  rw [List.map_cons, List.map_nil, List.sum_singleton, hcharge]

end AArch64Os
