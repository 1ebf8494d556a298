import AArch64Os.Heap

/-! # Calls of the heap

What `kmalloc` and `kfree` do to a heap that has a layout.  An allocation takes the first object
of a free list (`HeapInv.take`), if need be after a page was divided (`HeapInv.refill`), or a page
block (`HeapInv.takeBlock`); `kfree` goes the same ways back (`HeapInv.freeObject`,
`HeapInv.freeBlock`). -/

namespace AArch64Os

open ByteMem Linked

/-! ### Orders -/

theorem pageSizeShl_toNat {order : ℕ} (h : order ≤ 51) :
    (pageSizeShl order).toNat = pageSize * 2 ^ order := by
  have hpow : 2 ^ order ≤ 2 ^ 51 := Nat.pow_le_pow_right (by decide) h
  rw [pageSizeShl, Nat.mod_eq_of_lt (by omega : order < 64), BitVec.toNat_shiftLeft,
    BitVec.toNat_ofNat, Nat.shiftLeft_eq]
  simp only [pageSize]
  omega

/-- The bytes of a block. -/
theorem pageSizeShl_block {b : Block} (h : b.order ≤ maxOrder) :
    pageSizeShl b.order = BitVec.ofNat 64 (b.size * pageSize) := by
  have ho : b.order ≤ 10 := h
  have hpow : 2 ^ b.order ≤ 2 ^ 10 := Nat.pow_le_pow_right (by decide) ho
  apply BitVec.eq_of_toNat_eq
  rw [pageSizeShl_toNat (by omega), BitVec.toNat_ofNat, Nat.mul_comm, Block.size]
  simp only [pageSize]
  omega

/-- From 52 on the page size is shifted out of the word. -/
theorem pageSizeShl_zero {order : ℕ} (h1 : 52 ≤ order) (h2 : order < 64) : pageSizeShl order = 0 := by
  obtain ⟨k, rfl⟩ : ∃ k, order = 52 + k := ⟨order - 52, by omega⟩
  apply BitVec.eq_of_toNat_eq
  rw [pageSizeShl, Nat.mod_eq_of_lt h2, BitVec.toNat_shiftLeft, BitVec.toNat_ofNat,
    Nat.shiftLeft_eq, Nat.pow_add]
  have hzero : (0 : Word).toNat = 0 := rfl
  simp only [pageSize]
  omega

/-- The loop finds the least order that is large enough, if the size is at most 2^63. -/
theorem orderFor_some {total : Word} (h : total.toNat ≤ 2 ^ 63) : ∃ order, orderFor total = some order ∧
    order ≤ 51 ∧ total.toNat ≤ pageSize * 2 ^ order ∧ ∀ k < order, pageSize * 2 ^ k < total.toNat := by
  have hlast : ¬ pageSizeShl 51 < total := by
    rw [BitVec.lt_def, pageSizeShl_toNat le_rfl]
    simp only [pageSize]
    omega
  have hsome : (orderFor total).isSome := by
    rw [orderFor, List.find?_isSome]
    exact ⟨51, List.mem_range.mpr (by omega), by simpa using hlast⟩
  obtain ⟨order, ho⟩ := Option.isSome_iff_exists.mp hsome
  obtain ⟨hge, -, hlt⟩ := List.find?_range_eq_some.mp ho
  have hle : order ≤ 51 := by
    by_contra hgt
    exact hlast (by simpa using hlt 51 (by omega))
  refine ⟨order, ho, hle, ?_, ?_⟩
  · have hge : ¬ pageSizeShl order < total := by simpa using hge
    rwa [BitVec.lt_def, pageSizeShl_toNat hle, Nat.not_lt] at hge
  · intro k hk
    have hlt : pageSizeShl k < total := by simpa using hlt k hk
    rwa [BitVec.lt_def, pageSizeShl_toNat (by omega)] at hlt

/-- Beyond, no shifted page size is large enough, and the loop does not end. -/
theorem orderFor_none {total : Word} (h : 2 ^ 63 < total.toNat) : orderFor total = none := by
  rw [orderFor, List.find?_eq_none]
  intro order hmem
  have hlt := List.mem_range.mp hmem
  have : pageSizeShl order < total := by
    rw [BitVec.lt_def]
    rcases Nat.lt_or_ge order 52 with ho | ho
    · have hpow : 2 ^ order ≤ 2 ^ 51 := Nat.pow_le_pow_right (by decide) (by omega)
      rw [pageSizeShl_toNat (by omega)]
      simp only [pageSize]
      omega
    · have hzero : (0 : Word).toNat = 0 := rfl
      rw [pageSizeShl_zero ho hlt]
      omega
  simpa using this

/-! ### Layouts after a call -/

namespace Layout
variable (G : Layout) (i j : Fin numSlabs) (a : Alloc) (p : SlabPage) (l : List ℕ)

/-- Another allocation. -/
def give : Layout := { G with live := a :: G.live }

/-- Another free list of slab `i`. -/
def setFree : Layout := { G with free := Function.update G.free i l }

/-- Another page of a slab. -/
def addPage : Layout := { G with pages := p :: G.pages }

@[simp] theorem give_free : (G.give a).free j = G.free j := rfl

@[simp] theorem give_objects : (G.give a).objects j = G.objects j := rfl

@[simp] theorem setFree_objects : (G.setFree i l).objects j = G.objects j := rfl

@[simp] theorem setFree_taken : (G.setFree i l).taken j = G.taken j := rfl

@[simp] theorem setFree_free_same : (G.setFree i l).free i = l := Function.update_self _ _ _

theorem setFree_free_ne {i j : Fin numSlabs} (h : j ≠ i) : (G.setFree i l).free j = G.free j :=
  Function.update_of_ne h _ _

theorem addPage_objects_same : (G.addPage p).objects p.slab = p.objects ++ G.objects p.slab := by
  simp [addPage, objects]

theorem addPage_objects_ne {p : SlabPage} (h : p.slab ≠ j) : (G.addPage p).objects j = G.objects j := by
  simp [addPage, objects, h]

variable (obj : ℕ) (b : Block) (size : Word)

@[simp] theorem give_object_taken_same :
    (G.give ⟨.object i obj, size⟩).taken i = obj :: G.taken i := by
  simp [give, taken, Alloc.object?]

theorem give_object_taken_ne {i j : Fin numSlabs} (h : j ≠ i) :
    (G.give ⟨.object i obj, size⟩).taken j = G.taken j := by
  simp [give, taken, Alloc.object?, h.symm]

@[simp] theorem give_block_charged :
    (G.give ⟨.block b, size⟩).charged = b.size * pageSize + G.charged := rfl

/-- A page block more. -/
theorem give_block_blocks (other : List Block) :
    (b :: (G.blocks ++ other)).Perm ((G.give ⟨.block b, size⟩).blocks ++ other) := by
  show (b :: ((G.pages.map SlabPage.block ++ G.liveBlocks) ++ other)).Perm
    ((G.pages.map SlabPage.block ++ (b :: G.liveBlocks)) ++ other)
  exact (List.perm_middle.symm).append_right other

variable {G b} in
/-- A block from the page allocator is apart from the memory of the heap. -/
theorem fresh_apart {other : List Block} {s : Pmm}
    (hs : PmmInv s (b :: (G.blocks ++ other))) :
    (∀ i, ∀ o ∈ G.objects i, o + objSize i ≤ pageToPhys b.page ∨
      pageToPhys b.page + b.size * pageSize ≤ o) ∧
    ∀ c ∈ G.liveBlocks, pageToPhys b.page + b.size * pageSize ≤ pageToPhys c.page ∨
      pageToPhys c.page + c.size * pageSize ≤ pageToPhys b.page := by
  have hdisj := (List.pairwise_cons.mp hs.disjoint).1
  constructor
  · intro i o ho
    obtain ⟨p, hp, rfl, k, hk, rfl⟩ := Layout.mem_objects.mp ho
    have hapart := (hdisj p.block (List.mem_append_left _ (List.mem_append_left _
      (List.mem_map.mpr ⟨p, hp, rfl⟩)))).apart
    have hbounds := p.object_bounds hk
    simp only [SlabPage.block, Block.size, pow_zero, Nat.one_mul] at hapart ⊢
    omega
  · intro c hc
    exact (hdisj c (List.mem_append_left _ (List.mem_append_right _ hc))).apart

end Layout

/-- The bytes charged for an allocation come on top. -/
theorem charge_add {allocated freed : Word} {c d : ℕ} (h : allocated = freed + BitVec.ofNat 64 d) :
    allocated + BitVec.ofNat 64 c = freed + BitVec.ofNat 64 (c + d) := by
  rw [h, BitVec.ofNat_add, BitVec.add_assoc, BitVec.add_comm (BitVec.ofNat 64 c)]

/-- A charge that is refunded. -/
theorem charge_sub {allocated freed : Word} {c d : ℕ}
    (h : allocated = freed + BitVec.ofNat 64 (c + d)) :
    allocated = freed + BitVec.ofNat 64 c + BitVec.ofNat 64 d := by
  rw [h, BitVec.ofNat_add, BitVec.add_assoc]

/-! ### Dividing a page -/

/-- The three stores that make a header. -/
theorem storeHeader_spec (m : Mem) (obj : ℕ) (size next : Word) :
    ∃ m', m' = ((m.store64 obj size).store32 (obj + 8) kmallocMagic).store64 (obj + 16) next ∧
      m'.load64 obj = size ∧ m'.load32 (obj + 8) = kmallocMagic ∧ m'.load64 (obj + 16) = next ∧
      ∀ x, x < obj ∨ obj + objHeaderSize ≤ x → m' x = m x := by
  refine ⟨_, rfl, ?_, ?_, ?_, ?_⟩
  · rw [Mem.load64_store64_ne _ (.inl (by omega)), Mem.load64_store32_ne _ (.inl (by omega)),
      Mem.load64_store64_same]
  · rw [Mem.load32_store64_ne _ (.inl (by omega)), Mem.load32_store32_same]
  · rw [Mem.load64_store64_same]
  · intro x hx
    simp only [objHeaderSize] at hx
    rcases hx with hx | hx
    · rw [Mem.store64_of_lt (by omega), Mem.store32_of_lt (by omega), Mem.store64_of_lt hx]
    · rw [Mem.store64_of_ge (by omega), Mem.store32_of_ge (by omega), Mem.store64_of_ge (by omega)]

/-- The three stores that make the header of a page block. -/
theorem storePageHeader_spec (m : Mem) (b : Block) (size : Word) :
    ∃ m', m' = ((m.store64 (pageToPhys b.page) size).store32 (pageToPhys b.page + 8)
        kmallocPageMagic).store32 (pageToPhys b.page + 12) (BitVec.ofNat 32 b.order) ∧
      PageHeader m' b size ∧
      ∀ x, x < pageToPhys b.page ∨ pageToPhys b.page + pageHeaderSize ≤ x → m' x = m x := by
  refine ⟨_, rfl, ⟨?_, ?_, Mem.load32_store32_same _ _ _⟩, ?_⟩
  · rw [Mem.load64_store32_ne _ (.inl (by omega)), Mem.load64_store32_ne _ (.inl (by omega)),
      Mem.load64_store64_same]
  · rw [Mem.load32_store32_ne _ (.inl (by omega)), Mem.load32_store32_same]
  · intro x hx
    simp only [pageHeaderSize] at hx
    rcases hx with hx | hx
    · rw [Mem.store32_of_lt (by omega), Mem.store32_of_lt (by omega), Mem.store64_of_lt hx]
    · rw [Mem.store32_of_ge (by omega), Mem.store32_of_ge (by omega), Mem.store64_of_ge (by omega)]

/-- `h'` is `h` after `k` rounds of the loop that divides the page `p`. -/
structure Carved (h h' : Heap) (G : Layout) (p : SlabPage) (k : ℕ) : Prop where
  slab : SlabInv h'.mem p.slab (h'.slabs p.slab)
    (((List.range k).map p.object).reverse ++ G.free p.slab) (G.taken p.slab)
    (((List.range k).map p.object).reverse ++ G.objects p.slab)
  others : ∀ j, j ≠ p.slab → h'.slabs j = h.slabs j
  frame : ∀ x, x < pageToPhys p.page ∨ pageToPhys p.page + pageSize ≤ x → h'.mem x = h.mem x
  pmm : h'.pmm = h.pmm
  totalAllocated : h'.totalAllocated = h.totalAllocated
  totalFreed : h'.totalFreed = h.totalFreed

/-- One round. -/
theorem Carved.round {h h' : Heap} {G : Layout} {p : SlabPage} {k : ℕ} (hc : Carved h h' G p k)
    (hk : k < SlabPage.count p.slab) (hp : p.page < 16384)
    (hold : ∀ o ∈ G.objects p.slab, (o + objSize p.slab ≤ pageToPhys p.page ∨
      pageToPhys p.page + pageSize ≤ o) ∧ o < 2 ^ 64 ∧ o % 8 = 0) :
    Carved h (carveRound p.slab (pageToPhys p.page) h' k) G p (k + 1) := by
  have hsize := objSize_bounds p.slab
  have hbounds := p.object_bounds hk
  have hphys : pageToPhys p.page + pageSize ≤ 2 ^ 64 := by
    simp only [pageToPhys, dramBase, pageSize]
    omega
  have hne : p.object k ≠ 0 := by
    have := pageToPhys_ne_zero p.page
    omega
  -- the objects that there are so far
  have hobjects : ∀ o ∈ ((List.range k).map p.object).reverse ++ G.objects p.slab,
      (o + objHeaderSize ≤ p.object k ∨ p.object k + objHeaderSize ≤ o) ∧ o < 2 ^ 64 ∧ o % 8 = 0 := by
    intro o ho
    have hhdr : objHeaderSize ≤ objSize p.slab := Nat.le_add_left _ _
    rcases List.mem_append.mp ho with ho | ho
    · obtain ⟨l, hl, rfl⟩ := List.mem_map.mp (List.mem_reverse.mp ho)
      have hlk := List.mem_range.mp hl
      have hapart := p.object_apart hlk
      have hb := p.object_bounds (hlk.trans hk)
      exact ⟨.inl (by omega), by omega, hb.2.2⟩
    · obtain ⟨hapart, hb⟩ := hold o ho
      exact ⟨by omega, hb⟩
  have hlist := hc.slab.freeList_bounds (fun o ho => (hobjects o ho).2)
  obtain ⟨m, hm, hload, hmagic, hnext, hkeep⟩ := storeHeader_spec h'.mem (p.object k)
    (BitVec.ofNat 64 (slabSizes p.slab)) (BitVec.ofNat 64 (h'.slabs p.slab).freeList)
  have hround : carveRound p.slab (pageToPhys p.page) h' k =
      { h' with mem := m }.upd p.slab (fun s => { s with
        freeList := p.object k, totalObjects := s.totalObjects + 1, freeObjects := s.freeObjects + 1 }) := by
    rw [hm, carveRound, hc.slab.size]
    rfl
  have hlink : (m.load64 (p.object k + 16)).toNat = (h'.slabs p.slab).freeList := by
    rw [hnext, BitVec.toNat_ofNat, Nat.mod_eq_of_lt hlist.1]
  have hheader : ObjHeader m p.slab (p.object k) := ⟨hload, hmagic, by rw [hlink]; exact hlist.2⟩
  have hnew : p.object k ∉ ((List.range k).map p.object).reverse ++ G.free p.slab := by
    intro ho
    have := (hobjects _ (hc.slab.perm.subset (List.mem_append_left _ ho))).1
    simp only [objHeaderSize] at this
    omega
  have hlast : ((List.range (k + 1)).map p.object).reverse =
      p.object k :: ((List.range k).map p.object).reverse := by
    simp [List.range_succ]
  rw [hround]
  refine ⟨?_, ?_, ?_, hc.pmm, hc.totalAllocated, hc.totalFreed⟩
  · rw [hlast, List.cons_append, List.cons_append]
    simp only [Heap.upd, Function.update_self]
    refine hc.slab.push hne hnew (fun o ho _ x h1 h2 => hkeep x ?_) hheader hlink
      (hc.slab.perm.cons _) (fun o ho => List.mem_cons.mp ho) ?_
    · have := (hobjects o ho).1
      omega
    · rw [hc.slab.totalObjects, List.length_cons, BitVec.ofNat_add]
      rfl
  · intro j hj
    exact (Function.update_of_ne hj _ _).trans (hc.others j hj)
  · intro x hx
    refine (hkeep x ?_).trans (hc.frame x hx)
    simp only [objHeaderSize]
    omega

/-- All rounds. -/
theorem carved {h : Heap} {G : Layout} {p : SlabPage} (hp : p.page < 16384)
    (hslab : SlabInv h.mem p.slab (h.slabs p.slab) (G.free p.slab) (G.taken p.slab)
      (G.objects p.slab))
    (hold : ∀ o ∈ G.objects p.slab, (o + objSize p.slab ≤ pageToPhys p.page ∨
      pageToPhys p.page + pageSize ≤ o) ∧ o < 2 ^ 64 ∧ o % 8 = 0) :
    ∀ k ≤ SlabPage.count p.slab,
      Carved h ((List.range k).foldl (carveRound p.slab (pageToPhys p.page)) h) G p k := by
  intro k
  induction k with
  | zero => exact fun _ => ⟨hslab, fun _ _ => rfl, fun _ _ => rfl, rfl, rfl, rfl⟩
  | succ k ih =>
      intro hk
      rw [List.range_succ, List.foldl_append, List.foldl_cons, List.foldl_nil]
      exact (ih (by omega)).round (by omega) hp hold

namespace HeapInv
variable {h : Heap} {G : Layout} {other : List Block} {i j : Fin numSlabs} {obj obj' : ℕ}

/-- The allocations in another order. -/
theorem permLive (hi : HeapInv h G other) {live : List Alloc} (hp : G.live.Perm live) :
    HeapInv h { G with live := live } other where
  pmm := hi.pmm.perm (((hp.filterMap _).append_left _).append_right _)
  slab i :=
    { hi.slab i with perm := ((hp.filterMap _).append_left _).symm.trans (hi.slab i).perm }
  pageHeader a ha := hi.pageHeader a (hp.mem_iff.mpr ha)
  account := by
    have hsum : (live.map Alloc.charge).sum = (G.live.map Alloc.charge).sum := (hp.map _).sum_eq.symm
    rw [hi.account, Layout.charged, Layout.charged, hsum]

/-- An allocation as the last one. -/
theorem front (hi : HeapInv h G other) {a : Alloc} (ha : a ∈ G.live) :
    ∃ rest, G.live.Perm (a :: rest) ∧ HeapInv h (Layout.give { G with live := rest } a) other := by
  obtain ⟨pre, post, hsplit⟩ := List.append_of_mem ha
  have hperm : G.live.Perm (a :: (pre ++ post)) := by
    rw [hsplit]
    exact List.perm_middle
  exact ⟨pre ++ post, hperm, hi.permLive hperm⟩

/-! ### Allocation -/

/-- A page from the page allocator is divided into objects. -/
theorem refill (hi : HeapInv h G other) {page : ℕ} {s : Pmm}
    (hs : PmmInv s (⟨page, 0⟩ :: (G.blocks ++ other))) :
    ∃ h', (List.range (SlabPage.count i)).foldl (carveRound i (pageToPhys page))
        { h with pmm := s } = h' ∧
      HeapInv h' ((G.addPage ⟨page, i⟩).setFree i
        ((SlabPage.objects ⟨page, i⟩).reverse ++ G.free i)) other ∧
      h'.pmm = s ∧
      ∀ x, x < pageToPhys page ∨ pageToPhys page + pageSize ≤ x → h'.mem x = h.mem x := by
  have hpage : page < 16384 := by
    have hlt := (hs.used _ List.mem_cons_self page (Block.has_page ⟨page, 0⟩)).1
    rwa [hs.numPages, managedPages_eq] at hlt
  obtain ⟨hobj, hblock⟩ := Layout.fresh_apart hs
  simp only [Block.size, pow_zero, Nat.one_mul] at hobj hblock
  have hc := carved (h := { h with pmm := s }) (p := ⟨page, i⟩) hpage (hi.slab i) (fun o ho => by
    have hb := hi.object_bounds ho
    simp only [dramBase, dramSize] at hb
    exact ⟨hobj i o ho, by omega, hb.2.2⟩) (SlabPage.count i) le_rfl
  refine ⟨_, rfl, ⟨?_, ?_, ?_, ?_⟩, hc.pmm, hc.frame⟩
  · rw [hc.pmm]
    exact hs
  · intro j
    by_cases hj : j = i
    · subst hj
      rw [Layout.setFree_free_same, Layout.setFree_objects, Layout.addPage_objects_same (p := ⟨page, j⟩)]
      exact hc.slab.objects_perm ((List.reverse_perm _).append_right _)
    · rw [Layout.setFree_free_ne _ _ hj, Layout.setFree_objects, Layout.addPage_objects_ne _ _ (Ne.symm hj),
        hc.others j hj]
      refine (hi.slab j).congr (fun o ho x h1 h2 => hc.frame x ?_)
      have hhdr : objHeaderSize ≤ objSize j := Nat.le_add_left _ _
      have := hobj j o ho
      show x < pageToPhys page ∨ pageToPhys page + pageSize ≤ x
      omega
  · intro a ha b hb
    refine (hi.pageHeader a ha b hb).congr (fun x h1 h2 => hc.frame x ?_)
    have hb' : pageHeaderSize ≤ 2 ^ b.order * pageSize := b.pageHeader_le
    have := hblock b (Layout.mem_liveBlocks.mpr ⟨a, ha, hb⟩)
    show x < pageToPhys page ∨ pageToPhys page + pageSize ≤ x
    omega
  · rw [hc.totalAllocated, hc.totalFreed]
    exact hi.account

/-- The first object of a free list is handed out. -/
theorem take (hi : HeapInv h G other) {rest : List ℕ} (hf : G.free i = obj :: rest) (size : Word) :
    (h.slabs i).freeList = obj ∧
      HeapInv { (slabTake h i).2 with
          totalAllocated := h.totalAllocated + BitVec.ofNat 64 (slabSizes i) }
        ((G.setFree i rest).give ⟨.object i obj, size⟩) other := by
  have hslab := hi.slab i
  rw [hf] at hslab
  obtain ⟨hhead, htake⟩ := hslab.take
  refine ⟨hhead, hi.pmm, ?_, ?_, charge_add hi.account⟩
  · intro j
    by_cases hj : j = i
    · subst hj
      rw [Layout.give_object_taken_same]
      show SlabInv _ _ _ ((G.setFree j rest).free j) _ _
      rw [Layout.setFree_free_same]
      simp only [slabTake, Heap.upd, Heap.next, Function.update_self, hhead]
      exact htake
    · rw [Layout.give_object_taken_ne _ _ _ hj]
      show SlabInv _ _ _ ((G.setFree i rest).free j) _ _
      rw [Layout.setFree_free_ne _ _ hj]
      simp only [slabTake, Heap.upd, Function.update_of_ne hj]
      exact hi.slab j
  · intro a ha b hb
    rcases List.mem_cons.mp ha with rfl | ha
    · cases hb
    · exact hi.pageHeader a ha b hb

/-- A page block is handed out. -/
theorem takeBlock (hi : HeapInv h G other) {b : Block} {s : Pmm}
    (hs : PmmInv s (b :: (G.blocks ++ other))) (size : Word) :
    HeapInv { h with
        pmm := s
        mem := ((h.mem.store64 (pageToPhys b.page) size).store32 (pageToPhys b.page + 8)
          kmallocPageMagic).store32 (pageToPhys b.page + 12) (BitVec.ofNat 32 b.order)
        totalAllocated := h.totalAllocated + pageSizeShl b.order }
      (G.give ⟨.block b, size⟩) other := by
  obtain ⟨m, hm, hheader, hkeep⟩ := storePageHeader_spec h.mem b size
  obtain ⟨hobj, hblock⟩ := Layout.fresh_apart hs
  have hpage := b.pageHeader_le
  have hmem := hi.setMem (m := m) (fun i o ho x h1 h2 => hkeep x (by
      have hhdr : objHeaderSize ≤ objSize i := Nat.le_add_left _ _
      have := hobj i o ho
      omega)) (fun c hc x h1 h2 => hkeep x (by
      have hc' := c.pageHeader_le
      have := hblock c hc
      omega))
  rw [← hm]
  refine ⟨hs.perm (G.give_block_blocks b size other), hmem.slab, ?_, ?_⟩
  · intro a ha c hc
    rcases List.mem_cons.mp ha with rfl | ha
    · cases hc
      exact hheader
    · exact hmem.pageHeader a ha c hc
  · show h.totalAllocated + pageSizeShl b.order = _
    rw [pageSizeShl_block (hs.order b List.mem_cons_self)]
    exact charge_add hi.account

end HeapInv

/-- Address `x` is in a page that was free in `s` and is used in `s'`. -/
def Took (s s' : Pmm) (x : ℕ) : Prop :=
  ∃ q, pageToPhys q ≤ x ∧ x < pageToPhys q + pageSize ∧
    (s.pages q).flags = pageFree ∧ (s'.pages q).flags = pageUsed

theorem Took.of_block {s s' : Pmm} {live : List Block} {b : Block} {x : ℕ}
    (hf : FreeRun s b.order b.page) (hs : PmmInv s' (b :: live)) (h1 : pageToPhys b.page ≤ x)
    (h2 : x < pageToPhys b.page + b.size * pageSize) : Took s s' x := by
  obtain ⟨q, hq, hle, hlt⟩ := Block.page_of_byte h1 h2
  have hfree := hf.2 (q - b.page) (Nat.sub_lt_left_of_lt_add hq.1 hq.2)
  rw [Nat.add_sub_of_le hq.1] at hfree
  exact ⟨q, hle, hlt, hfree, (hs.used b List.mem_cons_self q hq).2⟩

/-- `h'` is `h` after the memory of `a` was handed out; nothing was written outside the pages that
were taken for it. -/
structure Gives (h h' : Heap) (G : Layout) (other : List Block) (a : Alloc) : Prop where
  inv : ∃ G' : Layout, G'.live = G.live ∧ HeapInv h' (G'.give a) other
  frame : ∀ x, h'.mem x ≠ h.mem x → Took h.pmm h'.pmm x

/-- There is memory for a request of `size` bytes. -/
def Serves (h : Heap) (size : Word) : Prop :=
  size ≠ 0 ∧
    match findSlab size with
    | some i => (h.slabs i).freeList ≠ 0 ∨ ∃ p, FreeRun h.pmm 0 p
    | none => ∃ order ≤ maxOrder, orderFor (size + BitVec.ofNat 64 pageHeaderSize) = some order ∧
        ∃ p, FreeRun h.pmm order p

theorem SlabPage.count_pos (i : Fin numSlabs) : 0 < SlabPage.count i := by
  have := objSize_bounds i
  exact Nat.div_pos (by simp only [pageSize]; omega) (by omega)

namespace HeapInv
variable {h : Heap} {G : Layout} {other : List Block}

/-- A call of `slab_alloc` finds no memory and changes nothing, or hands out an object. -/
theorem slabAlloc_cases (hi : HeapInv h G other) (i : Fin numSlabs) (size : Word) :
    (slabAlloc h i = some (0, h) ∧ ¬ ((h.slabs i).freeList ≠ 0 ∨ ∃ p, FreeRun h.pmm 0 p)) ∨
    ∃ obj h₁, slabAlloc h i = some (obj + objHeaderSize, h₁) ∧ (h₁.slabs i).size = slabSizes i ∧
      ((h.slabs i).freeList ≠ 0 ∨ ∃ p, FreeRun h.pmm 0 p) ∧
      Gives h { h₁ with totalAllocated := h₁.totalAllocated + BitVec.ofNat 64 (slabSizes i) } G other
        ⟨.object i obj, size⟩ := by
  have hupd : ∀ h : Heap, ((slabTake h i).2.slabs i).size = (h.slabs i).size := by
    intro h
    simp [slabTake, Heap.upd]
  by_cases hl : (h.slabs i).freeList ≠ 0
  · have hc := (hi.slab i).chain
    rw [toPtr_of_ne hl] at hc
    cases hf : G.free i with
    | nil =>
        rw [hf] at hc
        cases hc
    | cons obj rest =>
        obtain ⟨hhead, hinv⟩ := hi.take hf size
        refine .inr ⟨obj, (slabTake h i).2, ?_, ?_, .inl hl, ⟨G.setFree i rest, rfl, hinv⟩, ?_⟩
        · rw [slabAlloc, if_pos hl, slabTake, hhead]
        · rw [hupd, (hi.slab i).size]
        · exact fun x hx => absurd rfl hx
  · have hsize : pageSize / ((h.slabs i).size + objHeaderSize) = SlabPage.count i := by
      rw [(hi.slab i).size]
      rfl
    rcases hi.pmm.allocPages_takes (Nat.zero_le _) with ⟨he, hno⟩ | ⟨page, s, he, hrun, hs⟩
    · refine .inl ⟨?_, fun hc => hc.elim hl hno⟩
      simp only [Nat.cast_zero] at he
      rw [slabAlloc, if_neg hl, he]
    · obtain ⟨h₁, hcarve, hinv, hpmm, hframe⟩ := hi.refill (i := i) hs
      obtain ⟨obj, rest, hobjects⟩ : ∃ obj rest,
          (SlabPage.objects ⟨page, i⟩).reverse ++ G.free i = obj :: rest := by
        have hpos := SlabPage.count_pos i
        cases hl : (SlabPage.objects ⟨page, i⟩).reverse ++ G.free i with
        | nil =>
            have hlen := congrArg List.length hl
            simp [SlabPage.objects] at hlen
            omega
        | cons obj rest => exact ⟨obj, rest, rfl⟩
      rw [hobjects] at hinv
      obtain ⟨hhead, htake⟩ := hinv.take (Layout.setFree_free_same _ _ _) size
      simp only [Nat.cast_zero] at he
      refine .inr ⟨obj, (slabTake h₁ i).2, ?_, ?_, .inr ⟨page, hrun⟩,
        ⟨((G.addPage ⟨page, i⟩).setFree i (obj :: rest)).setFree i rest, rfl, htake⟩, ?_⟩
      · rw [slabAlloc, if_neg hl, he]
        simp only [hsize, hcarve]
        rw [slabTake, hhead]
      · rw [hupd, (hinv.slab i).size]
      · intro x hx
        have hin : pageToPhys page ≤ x ∧ x < pageToPhys page + pageSize := by
          by_contra hout
          exact hx (hframe x (by omega))
        refine Took.of_block (b := ⟨page, 0⟩) hrun (hpmm.symm ▸ hs) hin.1 ?_
        rw [Block.size, pow_zero, Nat.one_mul]
        exact hin.2

/-- What a call of `kmalloc` does: there is no memory, and nothing changes; or the order loop does
not end; or memory is handed out. -/
theorem kmalloc_cases (hi : HeapInv h G other) (size : Word) :
    (kmalloc h size = some (0, h) ∧ ¬ Serves h size) ∨
    (kmalloc h size = none ∧ ¬ Serves h size ∧ findSlab size = none ∧
      orderFor (size + BitVec.ofNat 64 pageHeaderSize) = none) ∨
    ∃ a h', kmalloc h size = some (a.ptr, h') ∧ Serves h size ∧ a.size = size ∧ a.Served ∧
      Gives h h' G other a := by
  by_cases h0 : size = 0#64
  · exact .inl ⟨by simp [kmalloc, h0], fun hs => hs.1 h0⟩
  cases hf : findSlab size with
  | some i =>
      rcases hi.slabAlloc_cases i size with ⟨he, hno⟩ | ⟨obj, h₁, he, hsize, hroom, hgives⟩
      · refine .inl ⟨?_, fun hs => hno ?_⟩
        · simp [kmalloc, h0, hf, he]
        · have := hs.2
          rwa [hf] at this
      · refine .inr (.inr ⟨⟨.object i obj, size⟩, _, ?_, ⟨h0, ?_⟩, rfl, hf, hgives⟩)
        · simp [kmalloc, h0, hf, he, objHeaderSize, hsize, Alloc.ptr]
        · rw [hf]
          exact hroom
  | none =>
      cases ho : orderFor (size + BitVec.ofNat 64 pageHeaderSize) with
      | none =>
          refine .inr (.inl ⟨by simp [kmalloc, h0, hf, ho], fun hs => ?_, rfl, rfl⟩)
          have hserve := hs.2
          rw [hf] at hserve
          obtain ⟨order, -, he, -⟩ := hserve
          rw [ho] at he
          cases he
      | some order =>
          have hserve : Serves h size ↔ order ≤ maxOrder ∧ ∃ p, FreeRun h.pmm order p := by
            simp [Serves, h0, hf, ho]
          by_cases hmax : order ≤ maxOrder
          · rcases hi.pmm.allocPages_takes hmax with ⟨he, hno⟩ | ⟨page, s, he, hrun, hs⟩
            · exact .inl ⟨by simp [kmalloc, h0, hf, ho, he], fun hs => hno (hserve.mp hs).2⟩
            · refine .inr (.inr ⟨⟨.block ⟨page, order⟩, size⟩, _, ?_, hserve.mpr ⟨hmax, page, hrun⟩,
                rfl, ⟨hf, ho⟩, ⟨G, rfl, hi.takeBlock hs size⟩, ?_⟩)
              · simp [kmalloc, h0, hf, ho, he, Alloc.ptr]
              · intro x hx
                obtain ⟨m, hm, -, hkeep⟩ := storePageHeader_spec h.mem ⟨page, order⟩ size
                have hpage := (⟨page, order⟩ : Block).pageHeader_le
                have hin : pageToPhys page ≤ x ∧ x < pageToPhys page + pageHeaderSize := by
                  by_contra hout
                  refine hx ?_
                  simp only [← hm]
                  exact hkeep x (show x < pageToPhys page ∨ pageToPhys page + pageHeaderSize ≤ x by omega)
                exact Took.of_block (b := ⟨page, order⟩) hrun hs hin.1 (by
                  show x < pageToPhys page + _
                  omega)
          · refine .inl ⟨?_, fun hs => hmax (hserve.mp hs).1⟩
            have hnull : allocPages h.pmm order = some (none, h.pmm) := by
              rw [allocPages, if_pos (by exact_mod_cast Nat.lt_of_not_le hmax)]
            simp [kmalloc, h0, hf, ho, hnull]

end HeapInv

/-! ### Release -/

/-- The test of `kfree` for page blocks. -/
def TakesPagePath (h : Heap) (ptr : ℕ) : Prop :=
  h.mem.load32 (ptr - pageHeaderSize + 8) = kmallocPageMagic

theorem ObjHeader.not_pagePath {h : Heap} {i : Fin numSlabs} {obj : ℕ} (hh : ObjHeader h.mem i obj) :
    ¬ TakesPagePath h (obj + objHeaderSize) := by
  unfold TakesPagePath
  rw [show obj + objHeaderSize - pageHeaderSize + 8 = obj + 16 by
    simp only [objHeaderSize, pageHeaderSize]; omega]
  exact hh.not_page

theorem PageHeader.pagePath {h : Heap} {b : Block} {size : Word} (hh : PageHeader h.mem b size) :
    TakesPagePath h (pageToPhys b.page + pageHeaderSize) := by
  unfold TakesPagePath
  rw [Nat.add_sub_cancel]
  exact hh.magic

/-- The heap after the object `obj` went back to slab `i`. -/
def putBack (h : Heap) (i : Fin numSlabs) (obj : ℕ) : Heap :=
  { h with
    mem := h.mem.store64 (obj + 16) (BitVec.ofNat 64 (h.slabs i).freeList)
    totalFreed := h.totalFreed + BitVec.ofNat 64 (slabSizes i) }.upd i
      (fun s => { s with freeList := obj, freeObjects := s.freeObjects + 1 })

/-- `kfree` of an object, told by its header. -/
theorem ObjHeader.kfree {h : Heap} {i : Fin numSlabs} {obj : ℕ} (hh : ObjHeader h.mem i obj) :
    kfree h (obj + objHeaderSize) = putBack h i obj := by
  have hpath := hh.not_pagePath
  unfold TakesPagePath at hpath
  have h0 : obj + objHeaderSize ≠ 0 := by simp [objHeaderSize]
  rw [AArch64Os.kfree, if_neg h0]
  simp only [hpath, if_false, slabFree, h0, Nat.add_sub_cancel, hh.magic, if_true, hh.size, ne_eq,
    not_true_eq_false, findSlab_slabSizes]
  rfl

/-- `kfree` of a page block, told by its header. -/
theorem PageHeader.kfree {h : Heap} {b : Block} {size : Word} {live : List Block}
    (hh : PageHeader h.mem b size) (hs : PmmInv h.pmm live) (hb : b ∈ live) :
    kfree h (pageToPhys b.page + pageHeaderSize) = { h with
      pmm := freePages h.pmm (some b.page) b.order
      totalFreed := h.totalFreed + pageSizeShl b.order } := by
  have ho : b.order ≤ 10 := hs.order b hb
  have h0 : pageToPhys b.page + pageHeaderSize ≠ 0 := by simp [pageHeaderSize]
  have htoNat : (BitVec.ofNat 32 b.order).toNat = b.order := by
    rw [BitVec.toNat_ofNat]
    omega
  have htoInt : (BitVec.ofNat 32 b.order).toInt = b.order := by
    rw [BitVec.toInt_eq_toNat_of_lt (by rw [htoNat]; omega), htoNat]
  rw [AArch64Os.kfree, if_neg h0]
  simp only [Nat.add_sub_cancel, hh.magic, if_true, hh.order, htoNat, htoInt,
    hs.physToPage_pageToPhys hb]

namespace HeapInv
variable {h : Heap} {G : Layout} {other : List Block} {i : Fin numSlabs} {obj : ℕ} {size : Word}

/-- An object goes back to the front of its slab's free list. -/
theorem freeObject (hi : HeapInv h (G.give ⟨.object i obj, size⟩) other) :
    kfree h (obj + objHeaderSize) = putBack h i obj ∧
      HeapInv (putBack h i obj) (G.setFree i (obj :: G.free i)) other := by
  have hslab := hi.slab i
  rw [Layout.give_object_taken_same] at hslab
  have hobj : obj ∈ G.objects i := hslab.perm.subset (List.mem_append_right _ List.mem_cons_self)
  have hheader := hslab.header obj hobj
  refine ⟨hheader.kfree, ?_⟩
  have hlist := hi.freeList_bounds i
  have hb := hi.object_bounds hobj
  -- the only cell that is written is the link
  have hkeep : ∀ x, x < obj + 16 ∨ obj + objHeaderSize ≤ x → (putBack h i obj).mem x = h.mem x := by
    intro x hx
    simp only [objHeaderSize] at hx
    rcases hx with hx | hx
    · exact Mem.store64_of_lt hx
    · exact Mem.store64_of_ge (by omega)
  have hapart : ∀ j, ∀ o ∈ G.objects j, ¬ (i = j ∧ obj = o) → ∀ x, o ≤ x → x < o + objHeaderSize →
      (putBack h i obj).mem x = h.mem x := by
    intro j o ho hne x h1 h2
    have hsize : objHeaderSize ≤ objSize i := Nat.le_add_left _ _
    have hsize' : objHeaderSize ≤ objSize j := Nat.le_add_left _ _
    have := (hi.objects_apart hobj ho).resolve_left hne
    exact hkeep x (by omega)
  refine ⟨hi.pmm, ?_, ?_, charge_sub hi.account⟩
  · intro j
    rw [Layout.setFree_objects, Layout.setFree_taken]
    by_cases hj : j = i
    · subst hj
      rw [Layout.setFree_free_same]
      have hnext : (putBack h j obj).mem.load64 (obj + 16) = BitVec.ofNat 64 (h.slabs j).freeList :=
        Mem.load64_store64_same _ _ _
      have hlink : ((putBack h j obj).mem.load64 (obj + 16)).toNat = (h.slabs j).freeList := by
        rw [hnext, BitVec.toNat_ofNat, Nat.mod_eq_of_lt hlist.1]
      have hnew : obj ∉ G.free j := by
        have hnodup := hi.free_taken_nodup j
        rw [Layout.give_object_taken_same] at hnodup
        exact fun ho => (List.nodup_append.mp hnodup).2.2 obj ho obj List.mem_cons_self rfl
      have hnewHeader : ObjHeader (putBack h j obj).mem j obj := by
        refine ⟨?_, ?_, by rw [hlink]; exact hlist.2⟩
        · exact (Mem.load64_store64_ne _ (.inl (by omega))).trans hheader.size
        · exact (Mem.load32_store64_ne _ (.inl (by omega))).trans hheader.magic
      have hpush := hslab.push (by simp only [dramBase] at hb; omega) hnew
        (fun o ho hne => hapart j o ho (fun hc => hne hc.2.symm)) hnewHeader hlink
        (List.perm_middle.symm.trans hslab.perm) (fun o ho => .inr ho) hslab.totalObjects
      simpa [putBack, Heap.upd] using hpush
    · rw [Layout.setFree_free_ne _ _ hj]
      have hold := hi.slab j
      rw [Layout.give_object_taken_ne _ _ _ hj] at hold
      have hsame : (putBack h i obj).slabs j = h.slabs j := Function.update_of_ne hj _ _
      rw [hsame]
      exact hold.congr (fun o ho => hapart j o ho (fun hc => hj hc.1.symm))
  · intro a ha b hb'
    have hapart := hi.object_block_apart hobj (b := b)
      (Layout.mem_liveBlocks.mpr ⟨a, List.mem_cons_of_mem _ ha, hb'⟩)
    have hsize : objHeaderSize ≤ objSize i := Nat.le_add_left _ _
    have hpage := b.pageHeader_le
    refine (hi.pageHeader a (List.mem_cons_of_mem _ ha) b hb').congr (fun x h1 h2 => hkeep x ?_)
    omega

/-- A page block goes back to the page allocator. -/
theorem freeBlock {b : Block} (hi : HeapInv h (G.give ⟨.block b, size⟩) other) :
    kfree h (pageToPhys b.page + pageHeaderSize) = { h with
        pmm := freePages h.pmm (some b.page) b.order
        totalFreed := h.totalFreed + pageSizeShl b.order } ∧
      HeapInv (kfree h (pageToPhys b.page + pageHeaderSize)) G other := by
  have hperm := hi.pmm.perm (G.give_block_blocks b size other).symm
  have hfree := (hi.pageHeader _ List.mem_cons_self b rfl).kfree hperm List.mem_cons_self
  refine ⟨hfree, ?_⟩
  rw [hfree]
  refine ⟨hperm.free, hi.slab, fun a ha => hi.pageHeader a (List.mem_cons_of_mem _ ha), ?_⟩
  have hcharge := hi.account
  rw [Layout.give_block_charged] at hcharge
  rw [pageSizeShl_block (hperm.order b List.mem_cons_self)]
  exact charge_sub hcharge

end HeapInv
end AArch64Os
