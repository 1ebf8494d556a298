import AArch64Os.HeapRuns
import Mathlib.Algebra.Order.BigOperators.Group.List

/-! # The accounts of the heap

What `kmalloc_dump_stats` reports.  The bytes that a request is charged follow from its size alone;
no sum of charges reaches 2^64, since the pointers of live memory are different addresses in DRAM.
So in every state of a run the counters say, as numbers, what is live (`heap_accounts`). -/

namespace AArch64Os

open ByteMem Linked Relation

/-- The bytes that `kmalloc(size)` charges: the slab size, or `PAGE_SIZE << order`. -/
def chargeFor (size : Word) : ℕ :=
  match findSlab size with
  | some i => slabSizes i
  | none =>
      match orderFor (size + BitVec.ofNat 64 pageHeaderSize) with
      | some order => pageSize <<< order
      | none => 0

/-- The request was served from slab `i`. -/
def FromSlab (i : Fin numSlabs) (p : ℕ × Word) : Prop := findSlab p.2 = some i

instance (i : Fin numSlabs) : DecidablePred (FromSlab i) := fun _ => inferInstanceAs (Decidable (_ = _))

/-- The counters are those of what is live: `Currently used` of `kmalloc_dump_stats`, and the two
numbers of each slab. -/
structure AccountsExact (r : HeapRun) : Prop where
  used : (r.heap.totalAllocated - r.heap.totalFreed).toNat = (r.live.map (fun p => chargeFor p.2)).sum
  slab : ∀ i, ∃ free, Chain (linkOf r.heap.mem) (toPtr (r.heap.slabs i).freeList) free ∧
    (r.heap.slabs i).freeObjects.toNat = free.length ∧
    (r.heap.slabs i).totalObjects.toNat - (r.heap.slabs i).freeObjects.toNat =
      r.live.countP (FromSlab i) ∧
    (r.heap.slabs i).freeObjects.toNat ≤ (r.heap.slabs i).totalObjects.toNat

/-! ### Charges -/

namespace Alloc
variable {a : Alloc}

/-- What an allocation is charged follows from its size. -/
theorem Served.charge (h : a.Served) : a.charge = chargeFor a.size := by
  rcases a with ⟨⟨i, obj⟩ | b, size⟩
  · have hfind : findSlab size = some i := h
    simp only [chargeFor, hfind]
    rfl
  · obtain ⟨hfind, horder⟩ : findSlab size = none ∧
        orderFor (size + BitVec.ofNat 64 pageHeaderSize) = some b.order := h
    simp only [chargeFor, hfind, horder, Nat.shiftLeft_eq]
    exact Nat.mul_comm _ _

/-- The objects of slab `i` are handed out for the sizes that it serves. -/
theorem Served.object?_isSome (h : a.Served) (i : Fin numSlabs) :
    (a.object? i).isSome = decide (FromSlab i a.client) := by
  rcases a with ⟨⟨j, obj⟩ | b, size⟩
  · have hfind : findSlab size = some j := h
    unfold object? FromSlab client
    simp only [hfind, Option.some.injEq]
    split_ifs with hj <;> simp [hj]
  · have hfind : findSlab size = none := h.1
    simp [object?, FromSlab, client, hfind]

theorem ptr_lt_limit (a : Alloc) : a.ptr < a.limit := by
  rcases a with ⟨⟨i, obj⟩ | b, size⟩
  · have := slabSizes_bounds i
    simp only [ptr, limit, objSize]
    omega
  · have hpages : 1 * pageSize ≤ b.size * pageSize :=
      Nat.mul_le_mul_right _ (Nat.two_pow_pos b.order)
    simp only [ptr, limit, pageHeaderSize, pageSize] at *
    omega

end Alloc

/-! ### Nothing wraps -/

/-- Different addresses in DRAM are at most as many as it has bytes. -/
theorem length_le_dramSize {l : List ℕ} (hl : l.Nodup)
    (h : ∀ x ∈ l, dramBase ≤ x ∧ x < dramBase + dramSize) : l.length ≤ dramSize := by
  have hsub : l ⊆ List.range' dramBase dramSize := by
    intro x hx
    have := h x hx
    rw [List.mem_range'_1]
    omega
  have hle := (hl.subperm hsub).length_le
  rwa [List.length_range'] at hle

namespace HeapInv
variable {h : Heap} {G : Layout} {other : List Block} (hi : HeapInv h G other)
include hi

theorem objects_length (i : Fin numSlabs) : (G.objects i).length ≤ dramSize := by
  refine length_le_dramSize (hi.objects_nodup i) (fun o ho => ?_)
  have hb := hi.object_bounds ho
  have := objSize_bounds i
  omega

/-- The pointers that are handed out are different. -/
theorem ptrs_nodup : (G.live.map Alloc.ptr).Nodup := by
  refine List.pairwise_map.mpr (hi.live_disjoint.imp (fun {a b} hab => ?_))
  have ha := a.ptr_lt_limit
  have hb := b.ptr_lt_limit
  omega

theorem live_length : G.live.length ≤ dramSize := by
  rw [← List.length_map Alloc.ptr]
  refine length_le_dramSize hi.ptrs_nodup (fun x hx => ?_)
  obtain ⟨a, ha, rfl⟩ := List.mem_map.mp hx
  have hb := hi.live_bounds ha
  have := a.ptr_lt_limit
  omega

theorem charge_le {a : Alloc} (ha : a ∈ G.live) : a.charge ≤ dramSize := by
  have hb := hi.live_bounds ha
  rcases a with ⟨⟨i, obj⟩ | b, size⟩
  · have := slabSizes_bounds i
    simp only [Alloc.charge, dramSize]
    omega
  · simp only [Alloc.charge, Alloc.ptr, Alloc.limit, pageToPhys] at *
    omega

/-- The charges together are far from wrapping. -/
theorem charged_lt : G.charged < 2 ^ 64 := by
  have hsum : G.charged ≤ (G.live.map Alloc.charge).length • dramSize := by
    refine List.sum_le_card_nsmul _ _ (fun c hc => ?_)
    obtain ⟨a, ha, rfl⟩ := List.mem_map.mp hc
    exact hi.charge_le ha
  have hlength := Nat.mul_le_mul_right dramSize hi.live_length
  rw [List.length_map, Nat.nsmul_eq_mul] at hsum
  have hdram : dramSize * dramSize < 2 ^ 64 := by decide
  omega

theorem used_toNat : (h.totalAllocated - h.totalFreed).toNat = G.charged := by
  rw [hi.account, BitVec.add_comm, BitVec.add_sub_cancel, BitVec.toNat_ofNat,
    Nat.mod_eq_of_lt hi.charged_lt]

/-- The two numbers of a slab. -/
theorem slab_toNat (i : Fin numSlabs) : (h.slabs i).freeObjects.toNat = (G.free i).length ∧
    (h.slabs i).totalObjects.toNat = (G.free i).length + (G.taken i).length := by
  have hlength := (hi.slab i).perm.length_eq
  have hle := hi.objects_length i
  have hdram : dramSize < 2 ^ 64 := by decide
  rw [List.length_append] at hlength
  rw [(hi.slab i).freeObjects, (hi.slab i).totalObjects, BitVec.toNat_ofNat, BitVec.toNat_ofNat,
    Nat.mod_eq_of_lt (by omega), Nat.mod_eq_of_lt (by omega)]
  exact ⟨rfl, hlength.symm⟩

end HeapInv

/-! ### Runs -/

namespace RunLayout
variable {r : HeapRun} {G : Layout}

theorem charged_eq (hr : RunLayout r G) :
    G.charged = (r.live.map (fun p => chargeFor p.2)).sum := by
  have hcharge : G.live.map Alloc.charge = (G.live.map Alloc.client).map (fun p => chargeFor p.2) := by
    rw [List.map_map]
    exact List.map_congr_left (fun a ha => (hr.served a ha).charge)
  rw [Layout.charged, hcharge]
  exact (hr.live.map _).sum_eq.symm

theorem taken_length (hr : RunLayout r G) (i : Fin numSlabs) :
    (G.taken i).length = r.live.countP (FromSlab i) := by
  rw [hr.live.countP_eq, List.countP_map, Layout.taken, List.length_filterMap_eq_countP]
  exact List.countP_congr (fun a ha => by
    simp [(hr.served a ha).object?_isSome i])

theorem accounts (hr : RunLayout r G) : AccountsExact r where
  used := hr.inv.used_toNat.trans hr.charged_eq
  slab i := by
    obtain ⟨hfree, htotal⟩ := hr.inv.slab_toNat i
    refine ⟨G.free i, (hr.inv.slab i).chain, hfree, ?_, ?_⟩
    · rw [hfree, htotal, Nat.add_sub_cancel_left]
      exact hr.taken_length i
    · omega

end RunLayout

/-- **The accounts are exact**, in every state that any steps of clients and of other kernel code
reach from `kmalloc_init`. -/
theorem heap_accounts {s : Pmm} {m : Mem} {slabs : Fin numSlabs → Slab} {other : List Block}
    (hs : PmmInv s other) {r : HeapRun}
    (hr : ReflTransGen HeapStep ⟨kmallocInit ⟨s, m, slabs, 0, 0⟩, [], other⟩ r) :
    AccountsExact r := by
  obtain ⟨G, hlayout⟩ := heapRun_layout hs hr
  exact hlayout.accounts

/-- A page and its header are asked for after the start. -/
theorem heap_accounts_page : ∃ ptr h', kmalloc bootHeap 0x1000 = some (ptr, h') ∧ ptr ≠ 0 ∧
    (h'.totalAllocated - h'.totalFreed).toNat = 0x2000 := by
  obtain ⟨ptr, h', he, hptr⟩ := bootHeap_kmalloc_page
  have haccounts : AccountsExact ⟨h', [(ptr, 0x1000)], []⟩ :=
    heap_accounts (pmmInit_inv bssPmm) (.single (.kmalloc (by decide) he hptr))
  have hcharge : chargeFor 0x1000 = 0x2000 := by decide
  refine ⟨ptr, h', he, hptr, haccounts.used.trans ?_⟩
  rw [List.map_cons, List.map_nil, List.sum_singleton, hcharge]

end AArch64Os
