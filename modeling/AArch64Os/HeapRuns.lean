import AArch64Os.HeapSizes

/-! # Runs of the heap

Clients call `kmalloc` and `kfree` and write in the memory they have, other kernel code calls the
page allocator and writes in its own pages.  In every state of such a run the live memory is apart
from itself and from everything that the allocator needs, and the next `kfree` sends a pointer
back the way it came (`heap_run_safe`). -/

namespace AArch64Os

open ByteMem Linked Relation

/-- The heap, the pointers that are live with the sizes that were asked for, and the blocks that
other kernel code has from the page allocator. -/
structure HeapRun where
  heap : Heap
  live : List (ℕ × Word)
  other : List Block

namespace HeapRun

/-- Byte `x` is in a page that the page allocator gave to the heap. -/
def HeapByte (r : HeapRun) (x : ℕ) : Prop :=
  ∃ q < r.heap.pmm.numPages, pageToPhys q ≤ x ∧ x < pageToPhys q + pageSize ∧
    (r.heap.pmm.pages q).flags = pageUsed ∧ ∀ b ∈ r.other, ¬ b.Has q

end HeapRun

/-- One step of the clients or of other kernel code. -/
inductive HeapStep : HeapRun → HeapRun → Prop
  | kmalloc {h h' : Heap} {live : List (ℕ × Word)} {other : List Block} {size : Word} {ptr : ℕ}
      (hs : size.toNat < 2 ^ 62) (he : kmalloc h size = some (ptr, h')) (hp : ptr ≠ 0) :
      HeapStep ⟨h, live, other⟩ ⟨h', (ptr, size) :: live, other⟩
  | kmallocNull {h h' : Heap} {live : List (ℕ × Word)} {other : List Block} {size : Word}
      (hs : size.toNat < 2 ^ 62) (he : kmalloc h size = some (0, h')) :
      HeapStep ⟨h, live, other⟩ ⟨h', live, other⟩
  | kfree {h : Heap} {live : List (ℕ × Word)} {other : List Block} {p : ℕ × Word} (hp : p ∈ live) :
      HeapStep ⟨h, live, other⟩ ⟨kfree h p.1, live.erase p, other⟩
  | kfreeNull {h : Heap} {live : List (ℕ × Word)} {other : List Block} :
      HeapStep ⟨h, live, other⟩ ⟨kfree h 0, live, other⟩
  | write {h : Heap} {live : List (ℕ × Word)} {other : List Block} {p : ℕ × Word} {m : Mem}
      (hp : p ∈ live) (hm : ∀ x, x < p.1 ∨ p.1 + p.2.toNat ≤ x → m x = h.mem x) :
      HeapStep ⟨h, live, other⟩ ⟨{ h with mem := m }, live, other⟩
  | otherAlloc {h : Heap} {live : List (ℕ × Word)} {other : List Block} {order p : ℕ} {s : Pmm}
      (ho : order ≤ maxOrder) (he : allocPages h.pmm order = some (some p, s)) :
      HeapStep ⟨h, live, other⟩ ⟨{ h with pmm := s }, live, ⟨p, order⟩ :: other⟩
  | otherAllocNull {h : Heap} {live : List (ℕ × Word)} {other : List Block} {order : ℕ} {s : Pmm}
      (ho : order ≤ maxOrder) (he : allocPages h.pmm order = some (none, s)) :
      HeapStep ⟨h, live, other⟩ ⟨{ h with pmm := s }, live, other⟩
  | otherFree {h : Heap} {live : List (ℕ × Word)} {other : List Block} {b : Block} (hb : b ∈ other) :
      HeapStep ⟨h, live, other⟩
        ⟨{ h with pmm := freePages h.pmm (some b.page) b.order }, live, other.erase b⟩
  | otherWrite {h : Heap} {live : List (ℕ × Word)} {other : List Block} {m : Mem}
      (hm : ∀ x, HeapRun.HeapByte ⟨h, live, other⟩ x → m x = h.mem x) :
      HeapStep ⟨h, live, other⟩ ⟨{ h with mem := m }, live, other⟩

/-- What was handed out last is given back. -/
theorem HeapStep.kfree_head {h : Heap} {live : List (ℕ × Word)} {other : List Block}
    {p : ℕ × Word} : HeapStep ⟨h, p :: live, other⟩ ⟨AArch64Os.kfree h p.1, live, other⟩ := by
  have hs : HeapStep ⟨h, p :: live, other⟩ ⟨AArch64Os.kfree h p.1, (p :: live).erase p, other⟩ :=
    .kfree List.mem_cons_self
  rwa [List.erase_cons_head] at hs

/-! ### The invariant -/

/-- What a client knows of an allocation. -/
def Alloc.client (a : Alloc) : ℕ × Word := (a.ptr, a.size)

/-- The run has the layout `G`, and every size was served. -/
structure RunLayout (r : HeapRun) (G : Layout) : Prop where
  inv : HeapInv r.heap G r.other
  live : r.live.Perm (G.live.map Alloc.client)
  served : ∀ a ∈ G.live, a.Served
  size : ∀ a ∈ G.live, a.size.toNat < 2 ^ 62

namespace RunLayout
variable {r : HeapRun} {G : Layout}

theorem fits (hr : RunLayout r G) {a : Alloc} (ha : a ∈ G.live) : a.ptr + a.size.toNat ≤ a.limit :=
  (hr.served a ha).fits (by have := hr.size a ha; omega)

theorem mem_live (hr : RunLayout r G) {p : ℕ × Word} (hp : p ∈ r.live) :
    ∃ a ∈ G.live, a.client = p := List.mem_map.mp (hr.live.subset hp)

/-- The bytes of a block of the heap. -/
theorem heapByte (hr : RunLayout r G) {b : Block} (hb : b ∈ G.blocks) {x : ℕ}
    (h1 : pageToPhys b.page ≤ x) (h2 : x < pageToPhys b.page + b.size * pageSize) : r.HeapByte x := by
  obtain ⟨q, hq, hle, hlt⟩ := Block.page_of_byte h1 h2
  obtain ⟨hpage, hused⟩ := hr.inv.pmm.used b (List.mem_append_left _ hb) q hq
  refine ⟨q, hpage, hle, hlt, hused, fun c hc => ?_⟩
  exact (List.pairwise_append.mp hr.inv.pmm.disjoint).2.2 b hb c hc q hq

theorem objectByte (hr : RunLayout r G) {i : Fin numSlabs} {obj x : ℕ} (ho : obj ∈ G.objects i)
    (h1 : obj ≤ x) (h2 : x < obj + objSize i) : r.HeapByte x := by
  obtain ⟨p, hp, rfl, k, hk, rfl⟩ := Layout.mem_objects.mp ho
  have hb := p.object_bounds hk
  have hblock : p.block ∈ G.blocks := List.mem_append_left _ (List.mem_map.mpr ⟨p, hp, rfl⟩)
  refine hr.heapByte hblock ?_ ?_
  · show pageToPhys p.page ≤ x
    omega
  · show x < pageToPhys p.page + 1 * pageSize
    omega

/-- A request that was served. -/
theorem give {h h' : Heap} {live : List (ℕ × Word)} {other : List Block} {a : Alloc}
    (hr : RunLayout ⟨h, live, other⟩ G) (hg : Gives h h' G other a) (hserved : a.Served)
    (hsize : a.size.toNat < 2 ^ 62) : ∃ G', RunLayout ⟨h', a.client :: live, other⟩ G' := by
  obtain ⟨G', hlive, hinv⟩ := hg.inv
  have hall : ∀ c ∈ (G'.give a).live, c = a ∨ c ∈ G.live := by
    intro c hc
    rw [Layout.give, hlive] at hc
    exact List.mem_cons.mp hc
  refine ⟨G'.give a, hinv, ?_, fun c hc => ?_, fun c hc => ?_⟩
  · show (a.client :: live).Perm ((a :: G'.live).map _)
    rw [hlive]
    exact hr.live.cons _
  · rcases hall c hc with rfl | hc
    · exact hserved
    · exact hr.served c hc
  · rcases hall c hc with rfl | hc
    · exact hsize
    · exact hr.size c hc

/-- A layout in which the allocation of a live pointer comes first. -/
theorem split {h : Heap} {live : List (ℕ × Word)} {other : List Block}
    (hr : RunLayout ⟨h, live, other⟩ G) {p : ℕ × Word} (hp : p ∈ live) :
    ∃ (G' : Layout) (a : Alloc), a.client = p ∧ HeapInv h (G'.give a) other ∧ a.Served ∧
      ∀ (h' : Heap) (G'' : Layout), G''.live = G'.live → HeapInv h' G'' other →
        RunLayout ⟨h', live.erase p, other⟩ G'' := by
  obtain ⟨a, ha, rfl⟩ := hr.mem_live hp
  obtain ⟨rest, hperm, hfront⟩ := hr.inv.front ha
  have hsub : ∀ c ∈ rest, c ∈ G.live := fun c hc => hperm.mem_iff.mpr (List.mem_cons_of_mem _ hc)
  refine ⟨{ G with live := rest }, a, rfl, hfront, hr.served a ha, ?_⟩
  intro h' G'' hlive hinv
  change G''.live = rest at hlive
  refine ⟨hinv, ?_, fun c hc => hr.served c (hsub c (hlive ▸ hc)),
    fun c hc => hr.size c (hsub c (hlive ▸ hc))⟩
  show (live.erase a.client).Perm (G''.live.map Alloc.client)
  rw [hlive]
  have herase := (hr.live.trans (hperm.map _)).erase a.client
  rwa [List.map_cons, List.erase_cons_head] at herase

end RunLayout

/-- A step keeps a layout. -/
theorem HeapStep.layout {r r' : HeapRun} (hs : HeapStep r r') (h : ∃ G, RunLayout r G) :
    ∃ G, RunLayout r' G := by
  obtain ⟨G, hr⟩ := h
  cases hs with
  | @kmalloc h h' live other size ptr hs he hp =>
      have hi : HeapInv h G other := hr.inv
      rcases hi.kmalloc_cases size with ⟨he', -⟩ | ⟨he', -⟩ | ⟨a, h', he', -, rfl, hserved, hg⟩
      · rw [he] at he'
        cases he'
        exact absurd rfl hp
      · rw [he] at he'
        cases he'
      · rw [he] at he'
        cases he'
        exact hr.give hg hserved hs
  | @kmallocNull h h' live other size hs he =>
      have hi : HeapInv h G other := hr.inv
      rcases hi.kmalloc_cases size with ⟨he', -⟩ | ⟨he', -⟩ | ⟨a, h', he', -, rfl, -, hg⟩
      · rw [he] at he'
        cases he'
        exact ⟨G, hr⟩
      · rw [he] at he'
        cases he'
      · rw [he] at he'
        have := hg.bounds
        have hzero : 0 = a.ptr := congrArg Prod.fst (Option.some.inj he')
        omega
  | kfree hp =>
      obtain ⟨G', a, rfl, hinv, -, hrest⟩ := hr.split hp
      rcases a with ⟨⟨i, obj⟩ | b, size⟩
      · obtain ⟨hfree, hinv⟩ := hinv.freeObject
        exact ⟨_, hrest _ (G'.setFree i (obj :: G'.free i)) rfl (hfree ▸ hinv)⟩
      · exact ⟨_, hrest _ G' rfl hinv.freeBlock.2⟩
  | kfreeNull => exact ⟨G, hr⟩
  | write hp hm =>
      obtain ⟨a, ha, rfl⟩ := hr.mem_live hp
      have hfits := hr.fits ha
      refine ⟨G, hr.inv.setLive ha (fun x hx => hm x ?_), hr.live, hr.served, hr.size⟩
      simp only [Alloc.client]
      omega
  | otherAlloc ho he =>
      rcases hr.inv.pmm.allocPages ho with he' | ⟨p, s, he', hs⟩
      · rw [he] at he'
        cases he'
      · rw [he] at he'
        cases he'
        exact ⟨G, hr.inv.setPmm (hs.perm List.perm_middle.symm), hr.live, hr.served, hr.size⟩
  | otherAllocNull ho he =>
      rcases hr.inv.pmm.allocPages ho with he' | ⟨p, s, he', hs⟩
      · rw [he] at he'
        cases he'
        exact ⟨G, hr⟩
      · rw [he] at he'
        cases he'
  | otherFree hb =>
      have hperm := ((List.perm_cons_erase hb).append_left G.blocks).trans List.perm_middle
      exact ⟨G, hr.inv.setPmm (hr.inv.pmm.perm hperm).free, hr.live, hr.served, hr.size⟩
  | otherWrite hm =>
      refine ⟨G, hr.inv.setMem (fun i obj ho x h1 h2 => hm x ?_) (fun b hb x h1 h2 => hm x ?_),
        hr.live, hr.served, hr.size⟩
      · have hhdr : objHeaderSize ≤ objSize i := Nat.le_add_left _ _
        exact hr.objectByte ho h1 (by omega)
      · have hhdr := b.pageHeader_le
        exact hr.heapByte (List.mem_append_right _ hb) h1 (by omega)

/-! ### Safety -/

/-- `kfree` sends what `kmalloc` returned for `size` back the way it came: page blocks to the page
allocator, and objects to the front of the free list of the slab that they were divided for. -/
structure FreesAsAllocated (h : Heap) (G : Layout) (ptr : ℕ) (size : Word) : Prop where
  pagePath : TakesPagePath h ptr ↔ findSlab size = none
  block : findSlab size = none → ∃ b ∈ G.liveBlocks, ptr = pageToPhys b.page + pageHeaderSize ∧
    (kfree h ptr).pmm = freePages h.pmm (some b.page) b.order ∧ (kfree h ptr).slabs = h.slabs ∧
    (kfree h ptr).mem = h.mem
  object : ∀ i, findSlab size = some i → ∃ obj ∈ G.taken i, ptr = obj + objHeaderSize ∧
    Chain (linkOf (kfree h ptr).mem) (toPtr ((kfree h ptr).slabs i).freeList) (obj :: G.free i) ∧
    (∀ j, j ≠ i → (kfree h ptr).slabs j = h.slabs j) ∧ (kfree h ptr).pmm = h.pmm

/-- What the heap promises in every state of a run, `G` being its layout. -/
structure HeapSafe (r : HeapRun) (G : Layout) : Prop where
  layout : HeapInv r.heap G r.other
  /-- Live memory is pairwise disjoint. -/
  disjoint : r.live.Pairwise (fun p q => p.1 + p.2.toNat ≤ q.1 ∨ q.1 + q.2.toNat ≤ p.1)
  aligned : ∀ p ∈ r.live, p.1 % 8 = 0
  /-- It is apart from the headers of all objects. -/
  objHeaders : ∀ p ∈ r.live, ∀ i, ∀ obj ∈ G.objects i,
    obj + objHeaderSize ≤ p.1 ∨ p.1 + p.2.toNat ≤ obj
  /-- It is apart from the headers of all page blocks. -/
  pageHeaders : ∀ p ∈ r.live, ∀ b ∈ G.liveBlocks,
    pageToPhys b.page + pageHeaderSize ≤ p.1 ∨ p.1 + p.2.toNat ≤ pageToPhys b.page
  /-- It is apart from the objects on the free lists. -/
  freeObjects : ∀ p ∈ r.live, ∀ i, ∀ obj ∈ G.free i,
    obj + objSize i ≤ p.1 ∨ p.1 + p.2.toNat ≤ obj
  /-- It lies in pages that the page allocator gave to the heap. -/
  pages : ∀ p ∈ r.live, ∀ x, p.1 ≤ x → x < p.1 + p.2.toNat → r.HeapByte x
  kfree : ∀ p ∈ r.live, FreesAsAllocated r.heap G p.1 p.2

/-- A free object is apart from live memory. -/
theorem HeapInv.live_free_apart {h : Heap} {G : Layout} {other : List Block} (hi : HeapInv h G other)
    {a : Alloc} (ha : a ∈ G.live) {i : Fin numSlabs} {obj : ℕ} (ho : obj ∈ G.free i) :
    obj + objSize i ≤ a.ptr ∨ a.limit ≤ obj := by
  have hobj := hi.free_objects ho
  rcases a with ⟨⟨j, obj'⟩ | b, size⟩
  · have htaken : obj' ∈ G.taken j := Layout.mem_taken.mpr ⟨_, ha, rfl⟩
    have hne : ¬ (i = j ∧ obj = obj') := by
      rintro ⟨rfl, rfl⟩
      exact (List.nodup_append.mp (hi.free_taken_nodup i)).2.2 obj ho obj htaken rfl
    have hapart := (hi.objects_apart hobj (hi.taken_objects htaken)).resolve_left hne
    simp only [Alloc.ptr, Alloc.limit]
    omega
  · have hapart := hi.object_block_apart hobj (Layout.mem_liveBlocks.mpr ⟨_, ha, rfl⟩)
    simp only [Alloc.ptr, Alloc.limit]
    omega

namespace RunLayout
variable {r : HeapRun} {G : Layout}

theorem disjoint (hr : RunLayout r G) :
    r.live.Pairwise (fun p q => p.1 + p.2.toNat ≤ q.1 ∨ q.1 + q.2.toNat ≤ p.1) := by
  rw [hr.live.pairwise_iff (fun hpq => hpq.symm), List.pairwise_map]
  refine hr.inv.live_disjoint.imp_of_mem (fun {a b} ha hb hab => ?_)
  have hfits := hr.fits ha
  have hfits' := hr.fits hb
  simp only [Alloc.client]
  omega

theorem allocByte (hr : RunLayout r G) {a : Alloc} (ha : a ∈ G.live) {x : ℕ} (h1 : a.ptr ≤ x)
    (h2 : x < a.limit) : r.HeapByte x := by
  rcases a with ⟨⟨i, obj⟩ | b, size⟩
  · have hobj := hr.inv.taken_objects (Layout.mem_taken.mpr ⟨_, ha, rfl⟩)
    simp only [Alloc.ptr, Alloc.limit] at h1 h2
    exact hr.objectByte hobj (by omega) h2
  · simp only [Alloc.ptr, Alloc.limit] at h1 h2
    exact hr.heapByte (List.mem_append_right _ (Layout.mem_liveBlocks.mpr ⟨_, ha, rfl⟩)) (by omega) h2

theorem frees (hr : RunLayout r G) {a : Alloc} (ha : a ∈ G.live) :
    FreesAsAllocated r.heap G a.ptr a.size := by
  have hserved := hr.served a ha
  obtain ⟨rest, -, hinv⟩ := hr.inv.front ha
  rcases a with ⟨⟨i, obj⟩ | b, size⟩
  · have htaken : obj ∈ G.taken i := Layout.mem_taken.mpr ⟨_, ha, rfl⟩
    have hfind : findSlab size = some i := hserved
    have hheader := (hr.inv.slab i).header obj (hr.inv.taken_objects htaken)
    obtain ⟨hfree, hinv'⟩ := hinv.freeObject
    refine ⟨?_, ?_, ?_⟩
    · rw [hfind]
      exact ⟨fun hpath => absurd hpath hheader.not_pagePath, fun hno => nomatch hno⟩
    · rw [hfind]
      exact fun hno => nomatch hno
    · intro j hj
      rw [hfind] at hj
      cases hj
      refine ⟨obj, htaken, rfl, ?_, fun j hj => ?_, ?_⟩
      · have hchain := (hinv'.slab i).chain
        rw [Layout.setFree_free_same, ← hfree] at hchain
        exact hchain
      · exact hfree ▸ Function.update_of_ne hj _ _
      · exact hfree ▸ rfl
  · have hb : b ∈ G.liveBlocks := Layout.mem_liveBlocks.mpr ⟨_, ha, rfl⟩
    have hfind : findSlab size = none := hserved.1
    have hfree := hinv.freeBlock.1
    refine ⟨⟨fun _ => hfind, fun _ => (hr.inv.pageHeader _ ha b rfl).pagePath⟩, fun _ => ?_, ?_⟩
    · refine ⟨b, hb, rfl, ?_⟩
      simp only [Alloc.ptr]
      rw [hfree]
      exact ⟨rfl, rfl, rfl⟩
    · intro i hi
      rw [hfind] at hi
      cases hi

theorem safe (hr : RunLayout r G) : HeapSafe r G where
  layout := hr.inv
  disjoint := hr.disjoint
  aligned p hp := by
    obtain ⟨a, ha, rfl⟩ := hr.mem_live hp
    exact (hr.inv.live_bounds ha).2.2
  objHeaders p hp i obj ho := by
    obtain ⟨a, ha, rfl⟩ := hr.mem_live hp
    exact (hr.inv.live_object_apart ha ho).imp_right (hr.fits ha).trans
  pageHeaders p hp b hb := by
    obtain ⟨a, ha, rfl⟩ := hr.mem_live hp
    exact (hr.inv.live_block_apart ha hb).imp_right (hr.fits ha).trans
  freeObjects p hp i obj ho := by
    obtain ⟨a, ha, rfl⟩ := hr.mem_live hp
    exact (hr.inv.live_free_apart ha ho).imp_right (hr.fits ha).trans
  pages p hp x h1 h2 := by
    obtain ⟨a, ha, rfl⟩ := hr.mem_live hp
    exact hr.allocByte ha h1 (h2.trans_le (hr.fits ha))
  kfree p hp := by
    obtain ⟨a, ha, rfl⟩ := hr.mem_live hp
    exact hr.frees ha

end RunLayout

/-- Every state that steps reach from `kmalloc_init` has a layout. -/
theorem heapRun_layout {s : Pmm} {m : Mem} {slabs : Fin numSlabs → Slab} {other : List Block}
    (hs : PmmInv s other) {r : HeapRun}
    (hr : ReflTransGen HeapStep ⟨kmallocInit ⟨s, m, slabs, 0, 0⟩, [], other⟩ r) :
    ∃ G, RunLayout r G := by
  have hinit : ∃ G, RunLayout ⟨kmallocInit ⟨s, m, slabs, 0, 0⟩, [], other⟩ G :=
    ⟨.empty, kmallocInit_inv hs rfl, .nil, fun _ ha => absurd ha List.not_mem_nil,
      fun _ ha => absurd ha List.not_mem_nil⟩
  exact Runs.run_invariant (I := fun r => ∃ G, RunLayout r G) hinit (fun _ _ hi hs => hs.layout hi) hr

/-- A request that is served returns a pointer. -/
theorem HeapInv.kmalloc_serves {h : Heap} {G : Layout} {other : List Block} {size : Word}
    (hi : HeapInv h G other) (hs : Serves h size) :
    ∃ ptr h', kmalloc h size = some (ptr, h') ∧ ptr ≠ 0 := by
  rcases hi.kmalloc_cases size with ⟨-, hno⟩ | ⟨-, hno, -⟩ | ⟨a, h', he, -, -, -, hg⟩
  · exact absurd hs hno
  · exact absurd hs hno
  · have hptr : a.ptr ≠ 0 := by
      have := hg.bounds
      omega
    exact ⟨a.ptr, h', he, hptr⟩

/-- As long as not all objects of a page are out, a slab that has handed out one serves. -/
theorem RunLayout.serves {r : HeapRun} {G : Layout} (hr : RunLayout r G) {p : ℕ × Word}
    (hp : p ∈ r.live) {i : Fin numSlabs} (hpi : findSlab p.2 = some i) {size : Word}
    (hs : findSlab size = some i) (h0 : size ≠ 0) (hfew : r.live.length < SlabPage.count i) :
    Serves r.heap size := by
  have hslab := hr.inv.slab i
  obtain ⟨a, ha, rfl⟩ := hr.mem_live hp
  -- the page of the object is one of the slab
  have hobj : ∃ obj, obj ∈ G.taken i := by
    have hserved := hr.served a ha
    rcases a with ⟨⟨j, obj⟩ | b, size⟩
    · obtain rfl : i = j := Option.some.inj (hpi.symm.trans hserved)
      exact ⟨obj, Layout.mem_taken.mpr ⟨_, ha, rfl⟩⟩
    · have hnone : findSlab size = none := hserved.1
      have hsome : findSlab size = some i := hpi
      rw [hnone] at hsome
      cases hsome
  obtain ⟨obj, hobj⟩ := hobj
  obtain ⟨q, hq, hqi, -⟩ := Layout.mem_objects.mp (hr.inv.taken_objects hobj)
  have hobjects : SlabPage.count i ≤ (G.objects i).length := by
    have hmem : q ∈ G.pages.filter (fun p => p.slab = i) :=
      List.mem_filter.mpr ⟨hq, decide_eq_true hqi⟩
    have hsub := List.sublist_flatten_of_mem (List.mem_map_of_mem (f := SlabPage.objects) hmem)
    have hle := hsub.length_le
    rw [SlabPage.objects, List.length_map, List.length_range, hqi] at hle
    rw [Layout.objects, List.flatMap_def]
    exact hle
  have htaken : (G.taken i).length ≤ r.live.length := by
    rw [hr.live.length_eq, List.length_map]
    exact List.length_filterMap_le _ _
  have hperm := hslab.perm.length_eq
  rw [List.length_append] at hperm
  refine ⟨h0, ?_⟩
  rw [hs]
  left
  intro hnull
  have hchain := hslab.chain
  rw [hnull] at hchain
  cases hfree : G.free i with
  | nil =>
      rw [hfree, List.length_nil] at hperm
      omega
  | cons x l =>
      rw [hfree] at hchain
      cases hchain.1

theorem bootHeap_kmalloc_page : ∃ ptr h', kmalloc bootHeap 0x1000 = some (ptr, h') ∧ ptr ≠ 0 := by
  have hrun : ∃ p, FreeRun bootHeap.pmm 1 p := by
    obtain ⟨hn, -, ht⟩ := pmmInit_spec bssPmm
    exact ⟨0, freeRun_init hn ht (by decide)⟩
  refine bootHeap_inv.kmalloc_serves ⟨by decide, ?_⟩
  have hfind : findSlab 0x1000 = none := by decide
  rw [hfind]
  exact ⟨1, by decide, by decide, hrun⟩

/-- After the start an object is asked for, and then two more, the first of which is given back in
between. -/
theorem bootHeap_reuse : ∃ p₁ h₁ p₂ h₂ p₃ h₃,
    (kmalloc bootHeap 64 = some (p₁, h₁) ∧ p₁ ≠ 0) ∧
    (kmalloc h₁ 64 = some (p₂, h₂) ∧ p₂ ≠ 0 ∧ p₂ ≠ p₁) ∧
    (kmalloc (kfree h₂ p₂) 64 = some (p₃, h₃) ∧ p₃ ≠ 0) := by
  have hfind : findSlab 64 = some 2 := by decide
  have hcount : 1 < SlabPage.count 2 := by decide
  have hboot : RunLayout ⟨bootHeap, [], []⟩ .empty :=
    ⟨bootHeap_inv, .nil, fun _ ha => absurd ha List.not_mem_nil,
      fun _ ha => absurd ha List.not_mem_nil⟩
  have hserves : Serves bootHeap 64 := by
    refine ⟨by decide, ?_⟩
    rw [hfind]
    exact .inr bootHeap_freeRun
  obtain ⟨p₁, h₁, he₁, hp₁⟩ := bootHeap_inv.kmalloc_serves hserves
  have hs₁ : HeapStep ⟨bootHeap, [], []⟩ ⟨h₁, [(p₁, 64)], []⟩ := .kmalloc (by decide) he₁ hp₁
  obtain ⟨G₁, hr₁⟩ := hs₁.layout ⟨_, hboot⟩
  obtain ⟨p₂, h₂, he₂, hp₂⟩ :=
    hr₁.inv.kmalloc_serves (hr₁.serves List.mem_cons_self hfind hfind (by decide) hcount)
  have hs₂ : HeapStep ⟨h₁, [(p₁, 64)], []⟩ ⟨h₂, [(p₂, 64), (p₁, 64)], []⟩ :=
    .kmalloc (by decide) he₂ hp₂
  obtain ⟨G₂, hr₂⟩ := hs₂.layout ⟨_, hr₁⟩
  have hne : p₂ ≠ p₁ := by
    have hapart := List.rel_of_pairwise_cons hr₂.disjoint List.mem_cons_self
    have h64 : (64 : Word).toNat = 64 := rfl
    simp only [h64] at hapart
    omega
  have hs₃ : HeapStep ⟨h₂, [(p₂, 64), (p₁, 64)], []⟩ ⟨kfree h₂ p₂, [(p₁, 64)], []⟩ := .kfree_head
  obtain ⟨G₃, hr₃⟩ := hs₃.layout ⟨_, hr₂⟩
  obtain ⟨p₃, h₃, he₃, hp₃⟩ :=
    hr₃.inv.kmalloc_serves (hr₃.serves List.mem_cons_self hfind hfind (by decide) hcount)
  exact ⟨p₁, h₁, p₂, h₂, p₃, h₃, ⟨he₁, hp₁⟩, ⟨he₂, hp₂, hne⟩, he₃, hp₃⟩

/-- **Safety of the heap**, in every state that any steps of clients and of other kernel code reach
from `kmalloc_init`. -/
theorem heap_run_safe {s : Pmm} {m : Mem} {slabs : Fin numSlabs → Slab} {other : List Block}
    (hs : PmmInv s other) {r : HeapRun}
    (hr : ReflTransGen HeapStep ⟨kmallocInit ⟨s, m, slabs, 0, 0⟩, [], other⟩ r) :
    ∃ G, HeapSafe r G := by
  obtain ⟨G, hlayout⟩ := heapRun_layout hs hr
  exact ⟨G, hlayout.safe⟩

/-- An object is given back between two others. -/
theorem heap_run_safe_reuse : ∃ p₁ h₁ p₂ h₂ p₃ h₃ G, kmalloc bootHeap 64 = some (p₁, h₁) ∧
    kmalloc h₁ 64 = some (p₂, h₂) ∧ p₂ ≠ 0 ∧ kmalloc (kfree h₂ p₂) 64 = some (p₃, h₃) ∧ p₃ ≠ 0 ∧
    HeapSafe ⟨h₃, [(p₃, 64), (p₁, 64)], []⟩ G := by
  obtain ⟨p₁, h₁, p₂, h₂, p₃, h₃, ⟨he₁, hp₁⟩, ⟨he₂, hp₂, -⟩, he₃, hp₃⟩ := bootHeap_reuse
  have hfree : HeapStep ⟨h₂, [(p₂, 64), (p₁, 64)], []⟩ ⟨kfree h₂ p₂, [(p₁, 64)], []⟩ :=
    .kfree_head
  have hrun : ReflTransGen HeapStep ⟨bootHeap, [], []⟩ ⟨h₃, [(p₃, 64), (p₁, 64)], []⟩ :=
    .tail (.tail (.tail (.single (.kmalloc (by decide) he₁ hp₁)) (.kmalloc (by decide) he₂ hp₂))
      hfree) (.kmalloc (by decide) he₃ hp₃)
  obtain ⟨G, hsafe⟩ := heap_run_safe (pmmInit_inv bssPmm) hrun
  exact ⟨p₁, h₁, p₂, h₂, p₃, h₃, G, he₁, he₂, hp₂, he₃, hp₃, hsafe⟩

end AArch64Os
