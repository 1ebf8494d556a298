import AArch64Os.Kmalloc
import AArch64Os.PmmExact
import Mathlib.Data.List.Pairwise

/-! # The layout of the heap

Every page that `slab_alloc` took is divided into objects of one slab, and each object is free or
handed out; the free lists run through the free ones.  `HeapInv` says so of a `Layout`, together
with what the headers hold.  What makes `kfree` tell objects from page blocks is in it: links are
addresses of objects or null, so their low bits are 0, and no number of that kind is the magic
number of a page block (`ObjHeader.not_page`). -/

namespace AArch64Os

open ByteMem Linked

/-! ### Slabs and sizes -/

/-- The size of an object with its header. -/
def objSize (i : Fin numSlabs) : ℕ := slabSizes i + objHeaderSize

theorem slabSizes_bounds (i : Fin numSlabs) : 16 ≤ slabSizes i ∧ slabSizes i ≤ 2048 ∧
    slabSizes i % 8 = 0 := by
  revert i
  decide

theorem objSize_bounds (i : Fin numSlabs) : 40 ≤ objSize i ∧ objSize i ≤ 2072 ∧ objSize i % 8 = 0 := by
  have := slabSizes_bounds i
  simp only [objSize, objHeaderSize]
  omega

theorem findSlab_some {size : Word} {i : Fin numSlabs} (h : findSlab size = some i) :
    size.toNat ≤ slabSizes i := by
  simpa using List.find?_some h

theorem findSlab_none {size : Word} : findSlab size = none ↔ 2048 < size.toNat := by
  have hlast : ∀ i, slabSizes i ≤ 2048 := fun i => (slabSizes_bounds i).2.1
  unfold findSlab
  rw [List.find?_eq_none]
  constructor
  · intro h
    have := h 7 (List.mem_finRange 7)
    have h7 : slabSizes 7 = 2048 := rfl
    simpa [h7] using this
  · intro h i _
    have := hlast i
    simp
    omega

/-- An object goes back to the slab of its own size. -/
theorem findSlab_slabSizes (i : Fin numSlabs) :
    findSlab (BitVec.ofNat 64 (slabSizes i)) = some i := by
  revert i
  decide

/-! ### Layouts -/

/-- A page that was divided into objects of a slab. -/
structure SlabPage where
  page : ℕ
  slab : Fin numSlabs

namespace SlabPage

def block (p : SlabPage) : Block := ⟨p.page, 0⟩

/-- The address of object `k`. -/
def object (p : SlabPage) (k : ℕ) : ℕ := pageToPhys p.page + k * objSize p.slab

/-- How many objects a page has. -/
def count (i : Fin numSlabs) : ℕ := pageSize / objSize i

def objects (p : SlabPage) : List ℕ := (List.range (count p.slab)).map p.object

end SlabPage

/-- Where the memory of an allocation comes from. -/
inductive Origin
  | object (i : Fin numSlabs) (obj : ℕ)
  | block (b : Block)

/-- An allocation: where it comes from, and how many bytes were asked for. -/
structure Alloc where
  origin : Origin
  size : Word

namespace Alloc

/-- The address that was handed out. -/
def ptr (a : Alloc) : ℕ :=
  match a.origin with
  | .object _ obj => obj + objHeaderSize
  | .block b => pageToPhys b.page + pageHeaderSize

/-- The end of the object or the block. -/
def limit (a : Alloc) : ℕ :=
  match a.origin with
  | .object i obj => obj + objSize i
  | .block b => pageToPhys b.page + b.size * pageSize

/-- The bytes that `total_allocated` is charged. -/
def charge (a : Alloc) : ℕ :=
  match a.origin with
  | .object i _ => slabSizes i
  | .block b => b.size * pageSize

def object? (a : Alloc) (i : Fin numSlabs) : Option ℕ :=
  match a.origin with
  | .object j obj => if j = i then some obj else none
  | .block _ => none

def block? (a : Alloc) : Option Block :=
  match a.origin with
  | .object _ _ => none
  | .block b => some b

/-- The request was served as `kmalloc` serves its size. -/
def Served (a : Alloc) : Prop :=
  match a.origin with
  | .object i _ => findSlab a.size = some i
  | .block b => findSlab a.size = none ∧
      orderFor (a.size + BitVec.ofNat 64 pageHeaderSize) = some b.order

end Alloc

/-- What the heap consists of: the pages of the slabs, the free lists, the allocations. -/
structure Layout where
  pages : List SlabPage
  free : Fin numSlabs → List ℕ
  live : List Alloc

namespace Layout

/-- The objects of a slab. -/
def objects (G : Layout) (i : Fin numSlabs) : List ℕ :=
  (G.pages.filter (fun p => p.slab = i)).flatMap SlabPage.objects

/-- The objects of a slab that are handed out. -/
def taken (G : Layout) (i : Fin numSlabs) : List ℕ := G.live.filterMap (fun a => a.object? i)

/-- The page blocks that are handed out. -/
def liveBlocks (G : Layout) : List Block := G.live.filterMap Alloc.block?

/-- The blocks that the heap has from the page allocator. -/
def blocks (G : Layout) : List Block := G.pages.map SlabPage.block ++ G.liveBlocks

/-- The bytes that are charged. -/
def charged (G : Layout) : ℕ := (G.live.map Alloc.charge).sum

end Layout

/-- Read as a pointer. -/
def toPtr (w : ℕ) : Option ℕ := if w = 0 then none else some w

/-- The links of the free lists. -/
def linkOf (m : Mem) (obj : ℕ) : Option ℕ := toPtr (m.load64 (obj + 16)).toNat

/-- The header of an object. -/
structure ObjHeader (m : Mem) (i : Fin numSlabs) (obj : ℕ) : Prop where
  size : m.load64 obj = BitVec.ofNat 64 (slabSizes i)
  magic : m.load32 (obj + 8) = kmallocMagic
  next : (m.load64 (obj + 16)).toNat % 8 = 0

/-- The header of a page block. -/
structure PageHeader (m : Mem) (b : Block) (size : Word) : Prop where
  size : m.load64 (pageToPhys b.page) = size
  magic : m.load32 (pageToPhys b.page + 8) = kmallocPageMagic
  order : m.load32 (pageToPhys b.page + 12) = BitVec.ofNat 32 b.order

theorem toPtr_eq_some {w o : ℕ} : toPtr w = some o ↔ w = o ∧ o ≠ 0 := by
  unfold toPtr
  split_ifs with h
  · simp [h]
    omega
  · simp
    omega

@[simp] theorem toPtr_eq_none {w : ℕ} : toPtr w = none ↔ w = 0 := by simp [toPtr]

theorem toPtr_of_ne {w : ℕ} (h : w ≠ 0) : toPtr w = some w := if_neg h

namespace ObjHeader
variable {m m' : Mem} {i : Fin numSlabs} {obj : ℕ}

theorem congr (h : ObjHeader m i obj) (he : ∀ x, obj ≤ x → x < obj + objHeaderSize → m' x = m x) :
    ObjHeader m' i obj := by
  simp only [objHeaderSize] at he
  have hsize : m'.load64 obj = m.load64 obj :=
    Mem.load64_congr (fun x h1 h2 => he x h1 (by omega))
  have hmagic : m'.load32 (obj + 8) = m.load32 (obj + 8) :=
    Mem.load32_congr (fun x h1 h2 => he x (by omega) (by omega))
  have hnext : m'.load64 (obj + 16) = m.load64 (obj + 16) :=
    Mem.load64_congr (fun x h1 h2 => he x (by omega) (by omega))
  exact ⟨hsize.trans h.size, hmagic.trans h.magic, by rw [hnext]; exact h.next⟩

/-- Eight bytes in front of an object's memory `kfree` reads the low half of a link. -/
theorem not_page (h : ObjHeader m i obj) : m.load32 (obj + 16) ≠ kmallocPageMagic := by
  have hnext := h.next
  rw [Mem.load32_eq_setWidth]
  intro he
  have hlow := congrArg BitVec.toNat he
  rw [BitVec.toNat_setWidth, show kmallocPageMagic.toNat = 0xCAFEBABE from rfl] at hlow
  omega

end ObjHeader

theorem PageHeader.congr {m m' : Mem} {b : Block} {size : Word} (h : PageHeader m b size)
    (he : ∀ x, pageToPhys b.page ≤ x → x < pageToPhys b.page + pageHeaderSize → m' x = m x) :
    PageHeader m' b size := by
  simp only [pageHeaderSize] at he
  have hsize : m'.load64 (pageToPhys b.page) = m.load64 (pageToPhys b.page) :=
    Mem.load64_congr (fun x h1 h2 => he x h1 (by omega))
  have hmagic : m'.load32 (pageToPhys b.page + 8) = m.load32 (pageToPhys b.page + 8) :=
    Mem.load32_congr (fun x h1 h2 => he x (by omega) (by omega))
  have horder : m'.load32 (pageToPhys b.page + 12) = m.load32 (pageToPhys b.page + 12) :=
    Mem.load32_congr (fun x h1 h2 => he x (by omega) (by omega))
  exact ⟨hsize.trans h.size, hmagic.trans h.magic, horder.trans h.order⟩

theorem linkOf_congr {m m' : Mem} {obj : ℕ}
    (he : ∀ x, obj ≤ x → x < obj + objHeaderSize → m' x = m x) : linkOf m' obj = linkOf m obj := by
  simp only [objHeaderSize] at he
  have hnext : m'.load64 (obj + 16) = m.load64 (obj + 16) :=
    Mem.load64_congr (fun x h1 h2 => he x (by omega) (by omega))
  rw [linkOf, hnext, linkOf]

/-- Slab `i`, `s` in the memory `m`: its free objects, those that are handed out, and all. -/
structure SlabInv (m : Mem) (i : Fin numSlabs) (s : Slab) (free taken objects : List ℕ) : Prop where
  size : s.size = slabSizes i
  chain : Chain (linkOf m) (toPtr s.freeList) free
  perm : (free ++ taken).Perm objects
  header : ∀ obj ∈ objects, ObjHeader m i obj
  freeObjects : s.freeObjects = BitVec.ofNat 64 free.length
  totalObjects : s.totalObjects = BitVec.ofNat 64 objects.length

/-- The heap `h` has the layout `G`; `other` are the blocks of other kernel code. -/
structure HeapInv (h : Heap) (G : Layout) (other : List Block) : Prop where
  pmm : PmmInv h.pmm (G.blocks ++ other)
  slab : ∀ i, SlabInv h.mem i (h.slabs i) (G.free i) (G.taken i) (G.objects i)
  pageHeader : ∀ a ∈ G.live, ∀ b, a.origin = .block b → PageHeader h.mem b a.size
  account : h.totalAllocated = h.totalFreed + BitVec.ofNat 64 G.charged

/-! ### One slab -/

namespace SlabInv
variable {m m' : Mem} {i : Fin numSlabs} {s : Slab} {free taken objects : List ℕ} {obj : ℕ}

/-- A slab depends on the headers of its objects only. -/
theorem congr (hs : SlabInv m i s free taken objects)
    (he : ∀ obj ∈ objects, ∀ x, obj ≤ x → x < obj + objHeaderSize → m' x = m x) :
    SlabInv m' i s free taken objects where
  size := hs.size
  chain := hs.chain.congr (fun obj ho =>
    linkOf_congr (he obj (hs.perm.subset (List.mem_append_left _ ho))))
  perm := hs.perm
  header obj ho := (hs.header obj ho).congr (he obj ho)
  freeObjects := hs.freeObjects
  totalObjects := hs.totalObjects

/-- The first free object is handed out. -/
theorem take (hs : SlabInv m i s (obj :: free) taken objects) : s.freeList = obj ∧
    SlabInv m i { s with freeList := (m.load64 (obj + 16)).toNat, freeObjects := s.freeObjects - 1 }
      free (obj :: taken) objects := by
  obtain ⟨hhead, hrest⟩ := hs.chain
  refine ⟨(toPtr_eq_some.mp hhead).1, hs.size, hrest, List.perm_middle.trans hs.perm, hs.header, ?_,
    hs.totalObjects⟩
  show s.freeObjects - 1 = _
  rw [hs.freeObjects, List.length_cons, BitVec.ofNat_add]
  exact BitVec.add_sub_cancel _ _

/-- An object whose link was set to the head of the free list is put in front of it. -/
theorem push (hs : SlabInv m i s free taken objects) (h0 : obj ≠ 0) (hf : obj ∉ free)
    (he : ∀ o ∈ objects, o ≠ obj → ∀ x, o ≤ x → x < o + objHeaderSize → m' x = m x)
    (hm : ObjHeader m' i obj) (hlink : (m'.load64 (obj + 16)).toNat = s.freeList)
    {taken' objects' : List ℕ} {total : Word} (hp : (obj :: free ++ taken').Perm objects')
    (hsub : ∀ o ∈ objects', o = obj ∨ o ∈ objects) (ht : total = BitVec.ofNat 64 objects'.length) :
    SlabInv m' i { s with freeList := obj, totalObjects := total, freeObjects := s.freeObjects + 1 }
      (obj :: free) taken' objects' where
  size := hs.size
  chain := by
    refine ⟨toPtr_of_ne h0, ?_⟩
    rw [linkOf, hlink]
    refine hs.chain.congr (fun o ho => linkOf_congr ?_)
    exact he o (hs.perm.subset (List.mem_append_left _ ho)) (fun e => hf (e ▸ ho))
  perm := hp
  header o ho := by
    by_cases hobj : o = obj
    · rw [hobj]
      exact hm
    · have ho := (hsub o ho).resolve_left hobj
      exact (hs.header o ho).congr (he o ho hobj)
  freeObjects := by
    show s.freeObjects + 1 = _
    rw [hs.freeObjects, List.length_cons, BitVec.ofNat_add]
    rfl
  totalObjects := ht

/-- The head of a free list is null or the address of an object. -/
theorem freeList_bounds (hs : SlabInv m i s free taken objects)
    (hb : ∀ o ∈ objects, o < 2 ^ 64 ∧ o % 8 = 0) : s.freeList < 2 ^ 64 ∧ s.freeList % 8 = 0 := by
  have hc := hs.chain
  cases free with
  | nil =>
      rw [chain_nil, toPtr_eq_none] at hc
      simp [hc]
  | cons o l =>
      rw [chain_cons, toPtr_eq_some] at hc
      rw [hc.1.1]
      exact hb o (hs.perm.subset List.mem_cons_self)

/-- The objects in another order. -/
theorem objects_perm (hs : SlabInv m i s free taken objects) {objects' : List ℕ}
    (hp : objects.Perm objects') : SlabInv m i s free taken objects' where
  size := hs.size
  chain := hs.chain
  perm := hs.perm.trans hp
  header o ho := hs.header o (hp.mem_iff.mpr ho)
  freeObjects := hs.freeObjects
  totalObjects := hp.length_eq ▸ hs.totalObjects

end SlabInv

/-! ### Apart -/

theorem Block.pageHeader_le (b : Block) : pageHeaderSize ≤ b.size * pageSize := by
  have hpages : 1 * pageSize ≤ b.size * pageSize := Nat.mul_le_mul_right _ (Nat.two_pow_pos b.order)
  simp only [pageHeaderSize, pageSize] at *
  omega

/-- The page of a block that has byte `x`. -/
theorem Block.page_of_byte {b : Block} {x : ℕ} (h1 : pageToPhys b.page ≤ x)
    (h2 : x < pageToPhys b.page + b.size * pageSize) :
    ∃ q, b.Has q ∧ pageToPhys q ≤ x ∧ x < pageToPhys q + pageSize := by
  have hmod := Nat.div_add_mod (x - pageToPhys b.page) pageSize
  have hlt := Nat.mod_lt (x - pageToPhys b.page) (show 0 < pageSize by decide)
  have hj : (x - pageToPhys b.page) / pageSize < b.size :=
    (Nat.div_lt_iff_lt_mul (by decide)).mpr (by omega)
  have hq : pageToPhys (b.page + (x - pageToPhys b.page) / pageSize) =
      pageToPhys b.page + pageSize * ((x - pageToPhys b.page) / pageSize) := by
    simp only [pageToPhys]
    rw [Nat.add_mul, Nat.mul_comm pageSize, Nat.add_assoc]
  exact ⟨_, ⟨Nat.le_add_right _ _, Nat.add_lt_add_left hj _⟩, by omega, by omega⟩

/-- Disjoint blocks are apart in memory. -/
theorem Block.Disjoint.apart {b c : Block} (h : b.Disjoint c) :
    pageToPhys b.page + b.size * pageSize ≤ pageToPhys c.page ∨
      pageToPhys c.page + c.size * pageSize ≤ pageToPhys b.page := by
  have hb : 0 < b.size := Nat.two_pow_pos _
  have hc : 0 < c.size := Nat.two_pow_pos _
  have hpages : b.page + b.size ≤ c.page ∨ c.page + c.size ≤ b.page := by
    by_contra hno
    exact h (max b.page c.page) ⟨by omega, by omega⟩ ⟨by omega, by omega⟩
  simp only [pageToPhys, ← Nat.add_mul, Nat.add_assoc, pageSize] at *
  omega

namespace Layout
variable {G : Layout} {i j : Fin numSlabs} {obj obj' : ℕ}

theorem mem_objects : obj ∈ G.objects i ↔
    ∃ p ∈ G.pages, p.slab = i ∧ ∃ k < SlabPage.count i, obj = p.object k := by
  simp only [objects, List.mem_flatMap, List.mem_filter, decide_eq_true_eq, SlabPage.objects,
    List.mem_map, List.mem_range]
  constructor
  · rintro ⟨p, ⟨hp, rfl⟩, k, hk, rfl⟩
    exact ⟨p, hp, rfl, k, hk, rfl⟩
  · rintro ⟨p, hp, rfl, k, hk, rfl⟩
    exact ⟨p, ⟨hp, rfl⟩, k, hk, rfl⟩

theorem mem_taken : obj ∈ G.taken i ↔ ∃ a ∈ G.live, a.origin = .object i obj := by
  simp only [taken, List.mem_filterMap]
  refine exists_congr (fun a => and_congr_right (fun _ => ?_))
  unfold Alloc.object?
  cases a.origin with
  | object j o =>
      simp only [Origin.object.injEq]
      split_ifs with hj
      · simp [hj]
      · simp [hj]
  | block b => simp

theorem mem_liveBlocks {b : Block} : b ∈ G.liveBlocks ↔ ∃ a ∈ G.live, a.origin = .block b := by
  simp only [liveBlocks, List.mem_filterMap]
  refine exists_congr (fun a => and_congr_right (fun _ => ?_))
  unfold Alloc.block?
  cases a.origin <;> simp

end Layout

/-- An object lies in its page, at a multiple of 8. -/
theorem SlabPage.object_bounds (p : SlabPage) {k : ℕ} (hk : k < SlabPage.count p.slab) :
    pageToPhys p.page ≤ p.object k ∧ p.object k + objSize p.slab ≤ pageToPhys p.page + pageSize ∧
      p.object k % 8 = 0 := by
  have hsize := objSize_bounds p.slab
  have hend : (k + 1) * objSize p.slab ≤ pageSize :=
    (Nat.mul_le_mul_right _ hk).trans (Nat.div_mul_le_self _ _)
  rw [Nat.add_mul, Nat.one_mul] at hend
  have hmul : k * objSize p.slab % 8 = 0 := by
    rw [Nat.mul_mod, hsize.2.2, Nat.mul_zero]
  have hdram : dramBase % 8 = 0 := by decide
  have hpage : p.page * pageSize % 8 = 0 := by
    simp only [pageSize]
    omega
  unfold SlabPage.object pageToPhys
  omega

/-- Two objects of a page are apart. -/
theorem SlabPage.object_apart (p : SlabPage) {k k' : ℕ} (hk : k < k') :
    p.object k + objSize p.slab ≤ p.object k' := by
  have := Nat.mul_le_mul_right (objSize p.slab) hk
  rw [Nat.succ_mul] at this
  unfold SlabPage.object
  omega

namespace HeapInv
variable {h : Heap} {G : Layout} {other : List Block} {i j : Fin numSlabs} {obj obj' : ℕ}

theorem pages_disjoint (hi : HeapInv h G other) :
    G.pages.Pairwise (fun p q => p.block.Disjoint q.block) :=
  List.pairwise_map.mp (List.pairwise_append.mp (List.pairwise_append.mp hi.pmm.disjoint).1).1

theorem page_block_disjoint (hi : HeapInv h G other) {p : SlabPage} (hp : p ∈ G.pages) {b : Block}
    (hb : b ∈ G.liveBlocks) : p.block.Disjoint b :=
  (List.pairwise_append.mp (List.pairwise_append.mp hi.pmm.disjoint).1).2.2 _
    (List.mem_map.mpr ⟨p, hp, rfl⟩) b hb

theorem blocks_disjoint (hi : HeapInv h G other) : G.liveBlocks.Pairwise Block.Disjoint :=
  (List.pairwise_append.mp (List.pairwise_append.mp hi.pmm.disjoint).1).2.1

/-- Two objects are the same one or apart. -/
theorem objects_apart (hi : HeapInv h G other) (ho : obj ∈ G.objects i) (ho' : obj' ∈ G.objects j) :
    (i = j ∧ obj = obj') ∨ obj + objSize i ≤ obj' ∨ obj' + objSize j ≤ obj := by
  obtain ⟨p, hp, rfl, k, hk, rfl⟩ := Layout.mem_objects.mp ho
  obtain ⟨q, hq, rfl, l, hl, rfl⟩ := Layout.mem_objects.mp ho'
  by_cases hpq : p = q
  · subst hpq
    rcases Nat.lt_trichotomy k l with hkl | rfl | hkl
    · exact .inr (.inl (p.object_apart hkl))
    · exact .inl ⟨rfl, rfl⟩
    · exact .inr (.inr (p.object_apart hkl))
  · have hsymm : Std.Symm (fun p q : SlabPage => p.block.Disjoint q.block) :=
      ⟨fun _ _ hd => hd.symm⟩
    have hdisj : p.block.Disjoint q.block := hi.pages_disjoint.forall hp hq hpq
    have hapart := hdisj.apart
    have hb := p.object_bounds hk
    have hb' := q.object_bounds hl
    simp only [SlabPage.block, Block.size, pow_zero, Nat.one_mul] at hapart
    omega

/-- No object is there twice. -/
theorem objects_nodup (hi : HeapInv h G other) (i : Fin numSlabs) : (G.objects i).Nodup := by
  unfold Layout.objects
  rw [List.nodup_flatMap]
  constructor
  · intro p _
    unfold SlabPage.objects
    refine List.Nodup.map (fun k k' he => ?_) List.nodup_range
    rcases Nat.lt_trichotomy k k' with hk | hk | hk
    · have := p.object_apart hk
      have := objSize_bounds p.slab
      omega
    · exact hk
    · have := p.object_apart hk
      have := objSize_bounds p.slab
      omega
  · refine (hi.pages_disjoint.filter _).imp (fun {p q} hdisj o hp hq => ?_)
    obtain ⟨k, hk, rfl⟩ := List.mem_map.mp hp
    obtain ⟨l, hl, he⟩ := List.mem_map.mp hq
    have hapart := hdisj.apart
    have hb := p.object_bounds (List.mem_range.mp hk)
    have hb' := q.object_bounds (List.mem_range.mp hl)
    have hp := objSize_bounds p.slab
    have hq := objSize_bounds q.slab
    simp only [SlabPage.block, Block.size, pow_zero, Nat.one_mul] at hapart
    omega

/-- A slab's objects are free or handed out, never both. -/
theorem free_taken_nodup (hi : HeapInv h G other) (i : Fin numSlabs) :
    (G.free i ++ G.taken i).Nodup :=
  (hi.slab i).perm.nodup_iff.mpr (hi.objects_nodup i)

/-- An object and a page block are apart. -/
theorem object_block_apart (hi : HeapInv h G other) (ho : obj ∈ G.objects i) {b : Block}
    (hb : b ∈ G.liveBlocks) :
    obj + objSize i ≤ pageToPhys b.page ∨ pageToPhys b.page + b.size * pageSize ≤ obj := by
  obtain ⟨p, hp, rfl, k, hk, rfl⟩ := Layout.mem_objects.mp ho
  have hapart := (hi.page_block_disjoint hp hb).apart
  have hbounds := p.object_bounds hk
  simp only [SlabPage.block, Block.size, pow_zero, Nat.one_mul] at hapart ⊢
  omega

/-- The addresses of an object. -/
theorem object_bounds (hi : HeapInv h G other) (ho : obj ∈ G.objects i) :
    dramBase ≤ obj ∧ obj + objSize i ≤ dramBase + dramSize ∧ obj % 8 = 0 := by
  obtain ⟨p, hp, rfl, k, hk, rfl⟩ := Layout.mem_objects.mp ho
  have hbounds := p.object_bounds hk
  have hlt := (hi.pmm.used p.block (List.mem_append_left _ (List.mem_append_left _
    (List.mem_map.mpr ⟨p, hp, rfl⟩))) p.page (Block.has_page p.block)).1
  rw [hi.pmm.numPages, managedPages_eq] at hlt
  simp only [pageToPhys, pageSize, dramBase, dramSize] at *
  omega

theorem free_objects (hi : HeapInv h G other) (ho : obj ∈ G.free i) : obj ∈ G.objects i :=
  (hi.slab i).perm.subset (List.mem_append_left _ ho)

theorem taken_objects (hi : HeapInv h G other) (ho : obj ∈ G.taken i) : obj ∈ G.objects i :=
  (hi.slab i).perm.subset (List.mem_append_right _ ho)

theorem freeList_bounds (hi : HeapInv h G other) (i : Fin numSlabs) :
    (h.slabs i).freeList < 2 ^ 64 ∧ (h.slabs i).freeList % 8 = 0 := by
  apply (hi.slab i).freeList_bounds
  intro o ho
  have hb := hi.object_bounds ho
  simp only [dramBase, dramSize] at hb
  omega

/-- Only the headers matter. -/
theorem setMem (hi : HeapInv h G other) {m : Mem}
    (hobj : ∀ i, ∀ obj ∈ G.objects i, ∀ x, obj ≤ x → x < obj + objHeaderSize → m x = h.mem x)
    (hblock : ∀ b ∈ G.liveBlocks, ∀ x, pageToPhys b.page ≤ x →
      x < pageToPhys b.page + pageHeaderSize → m x = h.mem x) :
    HeapInv { h with mem := m } G other where
  pmm := hi.pmm
  slab i := (hi.slab i).congr (hobj i)
  pageHeader a ha b hb := (hi.pageHeader a ha b hb).congr (fun x h1 h2 =>
    hblock b (Layout.mem_liveBlocks.mpr ⟨a, ha, hb⟩) x h1 h2)
  account := hi.account

/-- The memory of an allocation lies behind a header, at a multiple of 8. -/
theorem live_bounds (hi : HeapInv h G other) {a : Alloc} (ha : a ∈ G.live) :
    dramBase < a.ptr ∧ a.limit ≤ dramBase + dramSize ∧ a.ptr % 8 = 0 := by
  rcases a with ⟨⟨i, obj⟩ | b, size⟩
  · have hb := hi.object_bounds (hi.taken_objects (Layout.mem_taken.mpr ⟨_, ha, rfl⟩))
    simp only [Alloc.ptr, Alloc.limit, objHeaderSize] at *
    omega
  · have hb : b ∈ G.liveBlocks := Layout.mem_liveBlocks.mpr ⟨_, ha, rfl⟩
    have hlast : b.Has (b.page + b.size - 1) := by
      have := Nat.two_pow_pos b.order
      simp only [Block.Has, Block.size]
      omega
    have hlt := (hi.pmm.used b (List.mem_append_left _ (List.mem_append_right _ hb)) _ hlast).1
    rw [hi.pmm.numPages, managedPages_eq] at hlt
    simp only [Alloc.ptr, Alloc.limit, pageToPhys, pageHeaderSize, pageSize, dramBase, dramSize] at *
    omega

/-- The memory of an allocation is apart from the headers of objects, free or not. -/
theorem live_object_apart (hi : HeapInv h G other) {a : Alloc} (ha : a ∈ G.live)
    (ho : obj ∈ G.objects i) : obj + objHeaderSize ≤ a.ptr ∨ a.limit ≤ obj := by
  have hhdr : objHeaderSize ≤ objSize i := Nat.le_add_left _ _
  rcases a with ⟨⟨j, obj'⟩ | b, size⟩
  · have hhdr' : objHeaderSize ≤ objSize j := Nat.le_add_left _ _
    have hapart := hi.objects_apart ho (hi.taken_objects (Layout.mem_taken.mpr ⟨_, ha, rfl⟩))
    simp only [Alloc.ptr, Alloc.limit]
    omega
  · have hapart := hi.object_block_apart ho (Layout.mem_liveBlocks.mpr ⟨_, ha, rfl⟩)
    simp only [Alloc.ptr, Alloc.limit]
    omega

/-- The memory of an allocation is apart from the headers of page blocks. -/
theorem live_block_apart (hi : HeapInv h G other) {a : Alloc} (ha : a ∈ G.live) {b : Block}
    (hb : b ∈ G.liveBlocks) :
    pageToPhys b.page + pageHeaderSize ≤ a.ptr ∨ a.limit ≤ pageToPhys b.page := by
  have hhdr := b.pageHeader_le
  rcases a with ⟨⟨j, obj⟩ | c, size⟩
  · have hapart := hi.object_block_apart (hi.taken_objects (Layout.mem_taken.mpr ⟨_, ha, rfl⟩)) hb
    simp only [Alloc.ptr, Alloc.limit]
    omega
  · have hc : c ∈ G.liveBlocks := Layout.mem_liveBlocks.mpr ⟨_, ha, rfl⟩
    have hsymm : Std.Symm Block.Disjoint := ⟨fun _ _ hd => hd.symm⟩
    simp only [Alloc.ptr, Alloc.limit]
    by_cases hbc : b = c
    · subst hbc
      exact .inl le_rfl
    · have hapart := (hi.blocks_disjoint.forall hb hc hbc).apart
      omega

/-- The memory of two allocations is apart. -/
theorem live_disjoint (hi : HeapInv h G other) :
    G.live.Pairwise (fun a b => a.limit ≤ b.ptr ∨ b.limit ≤ a.ptr) := by
  have hobjects : ∀ i, G.live.Pairwise (fun a b => ∀ o, a.object? i = some o → ∀ o',
      b.object? i = some o' → o ≠ o') := fun i =>
    List.pairwise_filterMap.mp (List.nodup_append.mp (hi.free_taken_nodup i)).2.1
  have hblocks : G.live.Pairwise (fun a b => ∀ c, a.block? = some c → ∀ c',
      b.block? = some c' → c.Disjoint c') := List.pairwise_filterMap.mp hi.blocks_disjoint
  rw [List.pairwise_iff_getElem] at hblocks ⊢
  intro k l hk hl hkl
  have hmem : G.live[k] ∈ G.live := List.getElem_mem hk
  have hmem' : G.live[l] ∈ G.live := List.getElem_mem hl
  have hblock := hblocks k l hk hl hkl
  have hobject := fun i => List.pairwise_iff_getElem.mp (hobjects i) k l hk hl hkl
  generalize G.live[k] = a at hmem hblock hobject ⊢
  generalize G.live[l] = b at hmem' hblock hobject ⊢
  rcases a with ⟨⟨i, obj⟩ | c, size⟩
  · have hhdr : objHeaderSize ≤ objSize i := Nat.le_add_left _ _
    have ho := hi.taken_objects (Layout.mem_taken.mpr ⟨_, hmem, rfl⟩)
    rcases b with ⟨⟨j, obj'⟩ | c', size'⟩
    · have hhdr' : objHeaderSize ≤ objSize j := Nat.le_add_left _ _
      have hne : ¬ (i = j ∧ obj = obj') := by
        rintro ⟨rfl, rfl⟩
        exact hobject i obj (by simp [Alloc.object?]) obj (by simp [Alloc.object?]) rfl
      have hapart := (hi.objects_apart ho
        (hi.taken_objects (Layout.mem_taken.mpr ⟨_, hmem', rfl⟩))).resolve_left hne
      simp only [Alloc.ptr, Alloc.limit]
      omega
    · have hapart := hi.object_block_apart ho (Layout.mem_liveBlocks.mpr ⟨_, hmem', rfl⟩)
      simp only [Alloc.ptr, Alloc.limit]
      omega
  · have hc : c ∈ G.liveBlocks := Layout.mem_liveBlocks.mpr ⟨_, hmem, rfl⟩
    rcases b with ⟨⟨j, obj'⟩ | c', size'⟩
    · have hapart := hi.object_block_apart
        (hi.taken_objects (Layout.mem_taken.mpr ⟨_, hmem', rfl⟩)) hc
      simp only [Alloc.ptr, Alloc.limit]
      omega
    · have hapart := (hblock c rfl c' rfl).apart
      simp only [Alloc.ptr, Alloc.limit]
      omega

/-- A client writes in the memory of an allocation. -/
theorem setLive (hi : HeapInv h G other) {a : Alloc} (ha : a ∈ G.live) {m : Mem}
    (hm : ∀ x, x < a.ptr ∨ a.limit ≤ x → m x = h.mem x) : HeapInv { h with mem := m } G other := by
  refine hi.setMem (fun i obj ho x h1 h2 => hm x ?_) (fun b hb x h1 h2 => hm x ?_)
  · have := hi.live_object_apart ha ho
    omega
  · have := hi.live_block_apart ha hb
    omega

/-- Other code calls the page allocator. -/
theorem setPmm (hi : HeapInv h G other) {s : Pmm} {other' : List Block}
    (hs : PmmInv s (G.blocks ++ other')) : HeapInv { h with pmm := s } G other' where
  pmm := hs
  slab := hi.slab
  pageHeader := hi.pageHeader
  account := hi.account

end HeapInv

/-! ### The first heap -/

/-- Nothing is handed out. -/
def Layout.empty : Layout := ⟨[], fun _ => [], []⟩

/-- The heap in zeroed memory. -/
def bssHeap (s : Pmm) : Heap := ⟨s, fun _ => 0, fun _ => ⟨0, 0, 0, 0⟩, 0, 0⟩

theorem kmallocInit_inv {h : Heap} {other : List Block} (hs : PmmInv h.pmm other)
    (ht : h.totalAllocated = h.totalFreed) : HeapInv (kmallocInit h) .empty other where
  pmm := hs
  slab i := ⟨rfl, rfl, .nil, fun _ ho => absurd ho List.not_mem_nil, rfl, rfl⟩
  pageHeader _ ha := absurd ha List.not_mem_nil
  account := by
    show h.totalAllocated = h.totalFreed + 0#64
    rw [BitVec.add_zero, ht]

end AArch64Os
