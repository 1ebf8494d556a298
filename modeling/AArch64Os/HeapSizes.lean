import AArch64Os.HeapCalls

/-! # Sizes of heap requests

Which sizes `kmalloc` and `kcalloc` honour.  Adding the header to a size of 2^64 - 16 or more
wraps, so that the block is a single page; for the other sizes above 2^63 - 16 no shifted page
size is large enough and the order loop does not end (`kmalloc_honours_iff`).  `kcalloc`
multiplies modulo 2^64 and hands out what the remainder asks for (`kcalloc_honours_iff`). -/

namespace AArch64Os

open ByteMem

theorem add_header_toNat (size : Word) (h : size.toNat + 16 < 2 ^ 64) :
    (size + BitVec.ofNat 64 pageHeaderSize).toNat = size.toNat + 16 := by
  rw [BitVec.toNat_add, BitVec.toNat_ofNat]
  simp only [pageHeaderSize]
  omega

/-- A size whose header wraps gets one page. -/
theorem orderFor_wrap {size : Word} (h : 2 ^ 64 ≤ size.toNat + 16) :
    orderFor (size + BitVec.ofNat 64 pageHeaderSize) = some 0 := by
  have hlt := size.isLt
  have htotal : (size + BitVec.ofNat 64 pageHeaderSize).toNat = size.toNat + 16 - 2 ^ 64 := by
    rw [BitVec.toNat_add, BitVec.toNat_ofNat]
    simp only [pageHeaderSize]
    omega
  have hle : (size + BitVec.ofNat 64 pageHeaderSize).toNat ≤ 2 ^ 63 := by omega
  obtain ⟨order, ho, -, -, hmin⟩ := orderFor_some hle
  cases order with
  | zero => exact ho
  | succ k =>
      have := hmin 0 (Nat.succ_pos k)
      simp only [pageSize] at this
      omega

/-- Where the header does not wrap the memory is large enough. -/
theorem Alloc.Served.fits {a : Alloc} (h : a.Served) (hs : a.size.toNat + 16 < 2 ^ 64) :
    a.ptr + a.size.toNat ≤ a.limit := by
  rcases a with ⟨⟨i, obj⟩ | b, size⟩
  · have hle : size.toNat ≤ slabSizes i := findSlab_some h
    simp only [Alloc.ptr, Alloc.limit, objSize]
    omega
  · have ho : orderFor (size + BitVec.ofNat 64 pageHeaderSize) = some b.order := h.2
    have htotal := add_header_toNat size hs
    have hle : size.toNat + 16 ≤ 2 ^ 63 := by
      by_contra hgt
      rw [orderFor_none (by omega)] at ho
      cases ho
    obtain ⟨order, ho', -, hfit, -⟩ := orderFor_some (htotal.trans_le hle)
    rw [ho] at ho'
    cases ho'
    simp only [Alloc.ptr, Alloc.limit, Block.size, pageHeaderSize]
    rw [Nat.mul_comm pageSize] at hfit
    omega

/-! ### `kmalloc` -/

/-- `kmalloc(size)` returns `NULL`, or an address in front of `size` bytes of what was handed out. -/
def KmallocHonours (h : Heap) (G : Layout) (other : List Block) (size : Word) : Prop :=
  ∃ ptr h', kmalloc h size = some (ptr, h') ∧
    (ptr = 0 ∨ ∃ a, Gives h h' G other a ∧ ptr = a.ptr ∧ ptr + size.toNat ≤ a.limit)

section
variable {h h' : Heap} {G : Layout} {other : List Block} {a : Alloc} {size : Word}

theorem Gives.bounds (hg : Gives h h' G other a) :
    dramBase < a.ptr ∧ a.limit ≤ dramBase + dramSize := by
  obtain ⟨G', -, hi⟩ := hg.inv
  have hb := hi.live_bounds (a := a) List.mem_cons_self
  exact ⟨hb.1, hb.2.1⟩

theorem HeapInv.kmalloc_honours (hi : HeapInv h G other) (hs : size.toNat + 16 ≤ 2 ^ 63) :
    KmallocHonours h G other size := by
  have htotal := add_header_toNat size (by omega)
  rcases hi.kmalloc_cases size with ⟨he, -⟩ | ⟨-, -, -, ho⟩ | ⟨a, h', he, -, hsize, hserved, hg⟩
  · exact ⟨0, h, he, .inl rfl⟩
  · obtain ⟨order, ho', -⟩ := orderFor_some (htotal.trans_le hs)
    rw [ho] at ho'
    cases ho'
  · subst hsize
    exact ⟨a.ptr, h', he, .inr ⟨a, hg, rfl, hserved.fits (by omega)⟩⟩

/-- Without a free page a size that wraps is refused. -/
theorem HeapInv.kmalloc_honours_full (hi : HeapInv h G other) (hs : 2 ^ 64 ≤ size.toNat + 16)
    (hno : ¬ ∃ p, FreeRun h.pmm 0 p) : KmallocHonours h G other size := by
  have hslab : findSlab size = none := findSlab_none.mpr (by omega)
  have hserves : ¬ Serves h size := by
    rintro ⟨-, hserve⟩
    rw [hslab] at hserve
    obtain ⟨order, -, ho, hrun⟩ := hserve
    rw [orderFor_wrap hs] at ho
    cases ho
    exact hno hrun
  rcases hi.kmalloc_cases size with ⟨he, -⟩ | ⟨-, -, -, ho⟩ | ⟨a, h', -, hserve, -⟩
  · exact ⟨0, h, he, .inl rfl⟩
  · rw [orderFor_wrap hs] at ho
    cases ho
  · exact absurd hserve hserves

/-- Sizes for which the order loop does not end. -/
theorem kmalloc_not_returns (h1 : 2 ^ 63 < size.toNat + 16) (h2 : size.toNat + 16 < 2 ^ 64) :
    kmalloc h size = none := by
  have hslab : findSlab size = none := findSlab_none.mpr (by omega)
  have h0 : size ≠ 0 := by
    rintro rfl
    have hzero : (0 : Word).toNat = 0 := rfl
    omega
  have ho : orderFor (size + BitVec.ofNat 64 pageHeaderSize) = none :=
    orderFor_none (by rw [add_header_toNat size h2]; exact h1)
  rw [kmalloc, if_neg h0, hslab]
  simp only [ho]

/-- What was handed out is never large enough for a size that wraps. -/
theorem HeapInv.not_kmalloc_honours (hi : HeapInv h G other) (hs : 2 ^ 63 < size.toNat + 16)
    (hroom : 2 ^ 64 ≤ size.toNat + 16 → ∃ p, FreeRun h.pmm 0 p) : ¬ KmallocHonours h G other size := by
  have hslab : findSlab size = none := findSlab_none.mpr (by omega)
  have h0 : size ≠ 0 := by
    rintro rfl
    have hzero : (0 : Word).toNat = 0 := rfl
    omega
  rintro ⟨ptr, h', he, hptr⟩
  by_cases hwrap : 2 ^ 64 ≤ size.toNat + 16
  · have hserves : Serves h size := by
      refine ⟨h0, ?_⟩
      rw [hslab]
      exact ⟨0, Nat.zero_le _, orderFor_wrap hwrap, hroom hwrap⟩
    rcases hi.kmalloc_cases size with ⟨-, hno⟩ | ⟨-, hno, -⟩ | ⟨a, h'', he', -, -, -, hg⟩
    · exact hno hserves
    · exact hno hserves
    · rw [he] at he'
      cases he'
      rcases hptr with h0 | ⟨a', hg', -, hle⟩
      · have := hg.bounds
        omega
      · have := hg'.bounds
        simp only [dramBase, dramSize] at this
        omega
  · rw [kmalloc_not_returns hs (by omega)] at he
    cases he

/-- **Which sizes `kmalloc` honours**: those that with their header are at most 2^63; for a size
whose header wraps there must be no free page. -/
theorem kmalloc_honours_iff (hi : HeapInv h G other) : KmallocHonours h G other size ↔
    size.toNat + 16 ≤ 2 ^ 63 ∨ (2 ^ 64 ≤ size.toNat + 16 ∧ ¬ ∃ p, FreeRun h.pmm 0 p) := by
  constructor
  · intro hh
    by_contra hno
    push Not at hno
    exact hi.not_kmalloc_honours hno.1 hno.2 hh
  · rintro (hs | ⟨hs, hno⟩)
    · exact hi.kmalloc_honours hs
    · exact hi.kmalloc_honours_full hs hno

end

/-- The heap after `pmm_init` and `kmalloc_init`. -/
def bootHeap : Heap := kmallocInit (bssHeap (pmmInit bssPmm))

theorem bootHeap_inv : HeapInv bootHeap .empty [] := kmallocInit_inv (pmmInit_inv bssPmm) rfl

theorem bootHeap_freeRun : ∃ p, FreeRun bootHeap.pmm 0 p := by
  obtain ⟨hn, -, ht⟩ := pmmInit_spec bssPmm
  exact ⟨0, freeRun_init hn ht (by decide)⟩

/-- A request of a page is honoured. -/
theorem kmalloc_honours_iff_page : KmallocHonours bootHeap .empty [] 0x1000 :=
  (kmalloc_honours_iff bootHeap_inv).mpr (.inl (by decide))

/-- For 2^64 - 1 bytes a single page is handed out, and for 2^63 bytes the call does not return. -/
theorem kmalloc_largest_sizes :
    HeapInv bootHeap .empty [] ∧ ¬ KmallocHonours bootHeap .empty [] 0xFFFFFFFFFFFFFFFF ∧
      kmalloc bootHeap 0x8000000000000000 = none := by
  refine ⟨bootHeap_inv, ?_, ?_⟩
  · exact bootHeap_inv.not_kmalloc_honours (by decide) (fun _ => bootHeap_freeRun)
  · exact kmalloc_not_returns (by decide) (by decide)

/-! ### `kcalloc` -/

/-- Where `kcalloc(nmemb, size)` returns memory, it is large enough for the product and zero, and
nothing was written outside of it and of the pages that were taken for it. -/
def KcallocHonours (h : Heap) (G : Layout) (other : List Block) (nmemb size : Word) : Prop :=
  ∀ ptr h', kcalloc h nmemb size = some (ptr, h') → ptr ≠ 0 →
    ∃ a, (∃ G' : Layout, G'.live = G.live ∧ HeapInv h' (G'.give a) other) ∧
      ptr = a.ptr ∧ ptr + nmemb.toNat * size.toNat ≤ a.limit ∧
      (∀ x, ptr ≤ x → x < ptr + nmemb.toNat * size.toNat → h'.mem x = 0) ∧
      ∀ x, h'.mem x ≠ h.mem x → (a.ptr ≤ x ∧ x < a.limit) ∨ Took h.pmm h'.pmm x

section
variable {h h' : Heap} {G : Layout} {other : List Block} {nmemb size : Word}

/-- A call that finds no memory returns none. -/
theorem HeapInv.kcalloc_honours_full (hi : HeapInv h G other) (hno : ¬ Serves h (nmemb * size)) :
    KcallocHonours h G other nmemb size := by
  intro ptr h' he hptr
  rw [kcalloc, kzalloc] at he
  rcases hi.kmalloc_cases (nmemb * size) with ⟨hk, -⟩ | ⟨hk, -⟩ | ⟨a, h₁, -, hserves, -⟩
  · rw [hk] at he
    cases he
    exact absurd rfl hptr
  · rw [hk] at he
    cases he
  · exact absurd hserves hno

/-- What a call returns that finds memory. -/
theorem HeapInv.kcalloc_serves (hi : HeapInv h G other) (hs : Serves h (nmemb * size)) :
    ∃ a h₁, kcalloc h nmemb size =
        some (a.ptr, { h₁ with mem := h₁.mem.fill a.ptr 0 (nmemb * size).toNat }) ∧
      a.ptr ≠ 0 ∧ a.size = nmemb * size ∧ a.Served ∧ Gives h h₁ G other a := by
  rcases hi.kmalloc_cases (nmemb * size) with ⟨-, hno⟩ | ⟨-, hno, -⟩ | ⟨a, h₁, he, -, hsize, hserved, hg⟩
  · exact absurd hs hno
  · exact absurd hs hno
  · have hptr : a.ptr ≠ 0 := by
      have := hg.bounds
      omega
    refine ⟨a, h₁, ?_, hptr, hsize, hserved, hg⟩
    simp [kcalloc, kzalloc, he, hptr]

/-- A product that fits the word with its header. -/
theorem HeapInv.kcalloc_honours (hi : HeapInv h G other)
    (hs : nmemb.toNat * size.toNat + 16 < 2 ^ 64) : KcallocHonours h G other nmemb size := by
  by_cases hserves : Serves h (nmemb * size)
  · intro ptr h' he _
    obtain ⟨a, h₁, he', -, hsize, hserved, hg⟩ := hi.kcalloc_serves hserves
    rw [he'] at he
    cases he
    have hproduct : (nmemb * size).toNat = nmemb.toNat * size.toNat := by
      rw [BitVec.toNat_mul, Nat.mod_eq_of_lt (by omega)]
    have hfits := hserved.fits (by rw [hsize, hproduct]; exact hs)
    rw [hsize, hproduct] at hfits
    rw [hproduct]
    obtain ⟨G', hlive, hinv⟩ := hg.inv
    refine ⟨a, ⟨G', hlive, hinv.setLive (a := a) List.mem_cons_self (fun x hx => ?_)⟩, rfl, hfits,
      fun x h1 h2 => ?_, fun x hx => ?_⟩
    · rw [Mem.fill_apply, if_neg (by omega)]
    · show h₁.mem.fill _ _ _ x = 0
      rw [Mem.fill_apply, if_pos ⟨h1, h2⟩]
    · by_cases hin : a.ptr ≤ x ∧ x < a.ptr + nmemb.toNat * size.toNat
      · exact .inl ⟨hin.1, by omega⟩
      · refine .inr (hg.frame x (fun e => hx ?_))
        show h₁.mem.fill _ _ _ x = _
        rw [Mem.fill_apply, if_neg hin, e]
  · exact hi.kcalloc_honours_full hserves

/-- No memory is large enough for a larger product. -/
theorem HeapInv.not_kcalloc_honours (hi : HeapInv h G other)
    (hs : 2 ^ 64 ≤ nmemb.toNat * size.toNat + 16) (hserves : Serves h (nmemb * size)) :
    ¬ KcallocHonours h G other nmemb size := by
  intro hh
  obtain ⟨a, h₁, he, hptr, -⟩ := hi.kcalloc_serves hserves
  obtain ⟨a', ⟨G', -, hinv⟩, -, hle, -⟩ := hh _ _ he hptr
  have hb := (hinv.live_bounds (a := a') List.mem_cons_self).2.1
  simp only [dramBase, dramSize] at hb
  omega

/-- **Which products `kcalloc` honours**: those below 2^64 - 16; for the others there must be no
memory for what is left of the product in 64 bits. -/
theorem kcalloc_honours_iff (hi : HeapInv h G other) : KcallocHonours h G other nmemb size ↔
    nmemb.toNat * size.toNat + 16 < 2 ^ 64 ∨ ¬ Serves h (nmemb * size) := by
  constructor
  · intro hh
    by_contra hno
    push Not at hno
    exact hi.not_kcalloc_honours hno.1 hno.2 hh
  · rintro (hs | hs)
    · exact hi.kcalloc_honours hs
    · exact hi.kcalloc_honours_full hs

end

/-- An array of 100 words is honoured. -/
theorem kcalloc_honours_iff_array : KcallocHonours bootHeap .empty [] 100 8 :=
  (kcalloc_honours_iff bootHeap_inv).mpr (.inl (by decide))

/-- For 2^60 + 1 elements of 16 bytes there are 16 bytes. -/
theorem kcalloc_product_wraps :
    HeapInv bootHeap .empty [] ∧ ¬ KcallocHonours bootHeap .empty [] 0x1000000000000001 16 := by
  have hsize : (0x1000000000000001 * 16 : Word) = BitVec.ofNat 64 (slabSizes 0) := by decide
  have hserves : Serves bootHeap (0x1000000000000001 * 16) := by
    refine ⟨by decide, ?_⟩
    rw [hsize, findSlab_slabSizes]
    exact .inr bootHeap_freeRun
  exact ⟨bootHeap_inv, bootHeap_inv.not_kcalloc_honours (by decide) hserves⟩

end AArch64Os
