import AArch64Os.MmuLookup
import AArch64Os.MmuRoom

/-! # Exact ranges

`map_range` rounds the end of its range up with `page_align_up`.  For a range that reaches into
the last page of the 64-bit space the sum wraps, the end is 0 and the loop does nothing; every
other range is mapped exactly, whatever its alignment, as long as there is room for the tables
that lack (`map_range_exact_iff`).  User ranges end far below the wrap. -/

namespace AArch64Os

open Radix

/-! ### Ranges of addresses -/

/-- The page of `v` has an address of the `size` bytes from `virt` on. -/
def MeetsRange (virt size v : Word) : Prop :=
  ∃ a, a / pageSize = v.toNat / pageSize ∧ virt.toNat ≤ a ∧ a < virt.toNat + size.toNat

/-- How many pages have an address of the range. -/
def pagesInRange (virt size : Word) : ℕ :=
  (virt.toNat + size.toNat + pageSize - 1) / pageSize - virt.toNat / pageSize

/-- The pages of a range. -/
def rangePages (virt size : Word) : List Word :=
  (List.range (pagesInRange virt size)).map (pageAt (pageAlignDown virt))

/-- The frame for the page of `v`: as far from that of `phys` as the page from that of `virt`. -/
def frameOf (virt phys v : Word) : Word :=
  pageAlignDown phys + (pageAlignDown v - pageAlignDown virt)

/-- From `s` to `s'` exactly the pages of a range were mapped. -/
structure RangeMapped (roots : Set ℕ) (s s' : Mmu) (r : ℕ) (virt phys size flags : Word) :
    Prop where
  root : r ∈ roots
  mapped : ∀ v, MeetsRange virt size v →
    leafEntry s'.mem r v = pageDescriptor (frameOf virt phys v) flags
  other : ∀ r' ∈ roots, ∀ v,
    r' ≠ r ∨ (∀ w, MeetsRange virt size w → pageNumber v ≠ pageNumber w) →
    leafEntry s'.mem r' v = leafEntry s.mem r' v

theorem toNat_pageAlignDown (v : Word) : (pageAlignDown v).toNat = v.toNat / pageSize * pageSize :=
  toNat_and_pageMask v

section
variable {virt phys size v : Word}

theorem meetsRange_iff (hs : 0 < size.toNat) : MeetsRange virt size v ↔
    ∃ i < pagesInRange virt size, virt.toNat / pageSize + i = v.toNat / pageSize := by
  have hsize : pageSize = 4096 := rfl
  unfold MeetsRange pagesInRange
  rw [hsize]
  constructor
  · rintro ⟨a, h1, h2, h3⟩
    exact ⟨v.toNat / 4096 - virt.toNat / 4096, by omega, by omega⟩
  · rintro ⟨i, h1, h2⟩
    exact ⟨max virt.toNat (v.toNat / 4096 * 4096), by omega, by omega, by omega⟩

/-- Page `i` of a range that does not wrap. -/
theorem toNat_rangePage (hlt : virt.toNat + size.toNat + pageSize ≤ 2 ^ 64) {i : ℕ}
    (hi : i < pagesInRange virt size) :
    (pageAt (pageAlignDown virt) i).toNat = (virt.toNat / pageSize + i) * pageSize := by
  have hsize : pageSize = 4096 := rfl
  unfold pagesInRange at hi
  have hin : (pageAlignDown virt).toNat + pageSize * i < 2 ^ 64 := by
    rw [toNat_pageAlignDown]
    rw [hsize] at hi hlt ⊢
    omega
  rw [toNat_pageAt hin, toNat_pageAlignDown]
  ring

theorem meetsRange_rangePage (hs : 0 < size.toNat)
    (hlt : virt.toNat + size.toNat + pageSize ≤ 2 ^ 64) {i : ℕ} (hi : i < pagesInRange virt size) :
    MeetsRange virt size (pageAt (pageAlignDown virt) i) := by
  refine (meetsRange_iff hs).mpr ⟨i, hi, ?_⟩
  rw [toNat_rangePage hlt hi, Nat.mul_div_cancel _ (by decide)]

theorem frameOf_eq {i : ℕ} (hi : virt.toNat / pageSize + i = v.toNat / pageSize) :
    frameOf virt phys v = pageAt (pageAlignDown phys) i := by
  have hsize : pageSize = 4096 := rfl
  have hv := v.isLt
  have hdiff : pageAlignDown v - pageAlignDown virt = BitVec.ofNat 64 (pageSize * i) := by
    apply BitVec.eq_of_toNat_eq
    rw [BitVec.toNat_sub, toNat_pageAlignDown, toNat_pageAlignDown, BitVec.toNat_ofNat]
    rw [hsize] at hi ⊢
    omega
  rw [frameOf, hdiff, pageAt]

/-! ### The loop -/

/-- The loop over a range that does not wrap. -/
theorem mapPages_range (f : Mmu → Word → Word → Option Mmu) (s : Mmu)
    (hlt : virt.toNat + size.toNat + pageSize ≤ 2 ^ 64) :
    mapPages f s virt phys size = (List.range (pagesInRange virt size)).foldlM
      (fun s i => f s (pageAt (pageAlignDown virt) i) (pageAt (pageAlignDown phys) i)) s := by
  have hsize : pageSize = 4096 := rfl
  have hend : (pageAlignUp (virt + size)).toNat =
      (virt.toNat + size.toNat + pageSize - 1) / pageSize * pageSize := by
    rw [toNat_pageAlignUp, BitVec.toNat_add]
    rw [hsize] at hlt ⊢
    omega
  have hcount : ((pageAlignUp (virt + size)).toNat - (pageAlignDown virt).toNat) / pageSize =
      pagesInRange virt size := by
    rw [hend, toNat_pageAlignDown, ← Nat.sub_mul, Nat.mul_div_cancel _ (by decide)]
    rfl
  unfold mapPages
  simp only [hcount]
  rfl

/-- The loop over a range that wraps does nothing. -/
theorem mapPages_wrap (f : Mmu → Word → Word → Option Mmu) (s : Mmu)
    (hle : virt.toNat + size.toNat ≤ 2 ^ 64)
    (hwrap : 2 ^ 64 < virt.toNat + size.toNat + pageSize) : mapPages f s virt phys size = some s := by
  have hend : (pageAlignUp (virt + size)).toNat = 0 := by
    rw [toNat_pageAlignUp, BitVec.toNat_add]
    simp only [pageSize] at hwrap
    omega
  unfold mapPages
  simp only [hend, Nat.zero_sub, Nat.zero_div, List.range_zero, List.foldlM_nil]
  rfl

end

/-! ### Room for the tables of a range -/

section
variable {L : Linker} {roots : Set ℕ} {s s' : Mmu} {r : ℕ} {virt phys size flags : Word}

/-- Pages 2 MB apart have different tables, so that a range with room for its tables has no more
pages than the tables of the region have entries. -/
theorem pagesInRange_le (hlt : virt.toNat + size.toNat + pageSize ≤ 2 ^ 64)
    (hcard : (pathsOf (rangePages virt size)).card ≤ 64) : pagesInRange virt size ≤ 32768 := by
  by_contra hc
  have hsize : pageSize = 4096 := rfl
  have hlt65 : ∀ k ∈ Finset.range 65, 512 * k < pagesInRange virt size := by
    intro k hk
    have := Finset.mem_range.mp hk
    omega
  have hinto : ∀ k ∈ Finset.range 65,
      tablePath (pageAt (pageAlignDown virt) (512 * k)) ∈ pathsOf (rangePages virt size) := by
    intro k hk
    refine mem_pathsOf.mpr ⟨_, List.mem_map.mpr ⟨512 * k, List.mem_range.mpr (hlt65 k hk), rfl⟩, ?_⟩
    simp [tablePaths]
  have hinj : ∀ k ∈ Finset.range 65, ∀ k' ∈ Finset.range 65,
      tablePath (pageAt (pageAlignDown virt) (512 * k)) =
        tablePath (pageAt (pageAlignDown virt) (512 * k')) → k = k' := by
    intro k hk k' hk' he
    have h1 := Finset.mem_range.mp hk
    have h2 := Finset.mem_range.mp hk'
    have hl2 : vaL2Index (pageAt (pageAlignDown virt) (512 * k)) =
        vaL2Index (pageAt (pageAlignDown virt) (512 * k')) := by
      simp only [tablePath, List.cons.injEq, and_true] at he
      exact he.2.2
    simp only [vaL2Index, indexBits, Fin.ext_iff] at hl2
    rw [toNat_rangePage hlt (hlt65 k hk), toNat_rangePage hlt (hlt65 k' hk'), hsize] at hl2
    omega
  have hle := Finset.card_le_card_of_injOn _ hinto hinj
  rw [Finset.card_range] at hle
  omega

/-- The loop of a range, with room for its tables: it comes to its end. -/
theorem installRange_builds (h : MmuInv L roots s) (hr : r ∈ roots) (virt phys size flags : Word)
    {f : Mmu → ℕ → Option Mmu}
    (hf : ∀ i < pagesInRange virt size, ∀ s₁, Mmu.Frame L s s₁ → f s₁ i =
      installPage L s₁ r (pageAt (pageAlignDown virt) i) (pageAt (pageAlignDown phys) i) flags) :
    Builds L roots s r (pathsOf (rangePages virt size)) id
      ((List.range (pagesInRange virt size)).foldlM f s) := by
  have hcongr := Runs.loop_congr (f := f) (s := s)
    (I := fun _ s₁ => MmuInv L roots s₁ ∧ Mmu.Frame L s s₁)
    (g := fun s₁ i => installPage L s₁ r (pageAt (pageAlignDown virt) i)
      (pageAt (pageAlignDown phys) i) flags)
    ⟨h, .refl L s⟩ (fun i hi s₁ h₁ => hf i hi s₁ h₁.2) (by
      rintro i _ s₁ s₂ ⟨h₁, hframe⟩ he
      have hset := (installPage_spec h₁ hr he).1
      exact ⟨hset.inv, hframe.trans hset.frame⟩)
  have hb := installPages_builds h hr flags ((List.range (pagesInRange virt size)).map
    (fun i => (pageAt (pageAlignDown virt) i, pageAt (pageAlignDown phys) i)))
  rw [List.foldlM_map, List.map_map] at hb
  rw [hcongr]
  exact hb

theorem mapRange_builds (h : MmuInv L roots s) (hk : s.kernelPgd ≠ 0)
    (hlt : virt.toNat + size.toNat + pageSize ≤ 2 ^ 64) (phys flags : Word) :
    Builds L roots s s.kernelPgd (pathsOf (rangePages virt size)) id
      (mapRange L s virt phys size flags) := by
  unfold mapRange
  rw [mapPages_range _ s hlt]
  refine installRange_builds h (h.kernel.resolve_left hk) virt phys size flags ?_
  intro i _ s₁ hframe
  rw [mapPage_eq_install (by rw [hframe.kernelPgd]; exact hk), hframe.kernelPgd]

/-- The tables on the path of a page depend on its 2 MB block alone. -/
theorem tablePaths_congr {v w : Word} (h : v.toNat / 2 ^ 21 = w.toNat / 2 ^ 21) :
    tablePaths v = tablePaths w := by
  have h0 : vaL0Index v = vaL0Index w := by
    simp only [vaL0Index, indexBits, Fin.ext_iff]
    omega
  have h1 : vaL1Index v = vaL1Index w := by
    simp only [vaL1Index, indexBits, Fin.ext_iff]
    omega
  have h2 : vaL2Index v = vaL2Index w := by
    simp only [vaL2Index, indexBits, Fin.ext_iff]
    omega
  simp only [tablePaths, tablePath, h0, h1, h2]

/-- A range within one 2 MB block. -/
theorem pathsOf_block (hs : 0 < size.toNat)
    (hlt : virt.toNat + size.toNat + pageSize ≤ 2 ^ 64)
    (hb : virt.toNat / 2 ^ 21 = (virt.toNat + size.toNat - 1) / 2 ^ 21) :
    pathsOf (rangePages virt size) = tablePaths virt := by
  have hpage : ∀ i < pagesInRange virt size,
      tablePaths (pageAt (pageAlignDown virt) i) = tablePaths virt := by
    intro i hi
    apply tablePaths_congr
    rw [toNat_rangePage hlt hi]
    unfold pagesInRange at hi
    simp only [pageSize] at hi ⊢
    omega
  ext p
  rw [mem_pathsOf]
  constructor
  · rintro ⟨v, hv, hp⟩
    obtain ⟨i, hi, rfl⟩ := List.mem_map.mp hv
    rwa [hpage i (List.mem_range.mp hi)] at hp
  · intro hp
    have h0 : 0 < pagesInRange virt size := by
      unfold pagesInRange
      simp only [pageSize]
      omega
    refine ⟨_, List.mem_map.mpr ⟨0, List.mem_range.mpr h0, rfl⟩, ?_⟩
    rwa [hpage 0 h0]

/-! ### What a range maps -/

/-- Every forest of page tables stands for some maps. -/
theorem MmuInv.refines (h : MmuInv L roots s) : ∃ σ, Refines L s σ ∧ σ.roots = roots := by
  classical
  let σ : Spaces := fun r =>
    if r ∈ roots then
      some (fun page => leafEntry s.mem r (BitVec.ofNat 64 (page.toNat * pageSize)))
    else none
  have hroots : σ.roots = roots := by
    ext t
    show (σ t).isSome ↔ t ∈ roots
    by_cases ht : t ∈ roots <;> simp [σ, ht]
  refine ⟨σ, ⟨by rw [hroots]; exact h, ?_⟩, hroots⟩
  intro r f hf virt
  have hpage : pageNumber (BitVec.ofNat 64 ((pageNumber virt).toNat * pageSize)) =
      pageNumber virt := by
    have hlt := (pageNumber virt).isLt
    apply BitVec.eq_of_toNat_eq
    rw [toNat_pageNumber, BitVec.toNat_ofNat]
    simp only [pageSize]
    omega
  by_cases hr : r ∈ roots
  · simp only [σ, if_pos hr, Option.some.injEq] at hf
    rw [← hf]
    exact (leafEntry_congr hpage s.mem r).symm
  · simp only [σ, if_neg hr] at hf
    cases hf

theorem pageNumber_rangePage {v : Word} {i : ℕ}
    (hi : virt.toNat / pageSize + i = v.toNat / pageSize) (hlt : i < 2 ^ 36) :
    (pageNumber v - pageNumber (pageAlignDown virt)).toNat = i := by
  have hsize : pageSize = 4096 := rfl
  rw [BitVec.toNat_sub, toNat_pageNumber, toNat_pageNumber, toNat_pageAlignDown]
  rw [hsize] at hi ⊢
  omega

/-- The loop of a range maps its pages and nothing else. -/
theorem rangeMapped_of_loop (h : MmuInv L roots s) (hr : r ∈ roots) (hs : 0 < size.toNat)
    (hlt : virt.toNat + size.toNat + pageSize ≤ 2 ^ 64)
    (hn : pagesInRange virt size ≤ 32768) {f : Mmu → ℕ → Option Mmu}
    (hf : ∀ i < pagesInRange virt size, ∀ s₁, Mmu.Frame L s s₁ → f s₁ i =
      installPage L s₁ r (pageAt (pageAlignDown virt) i) (pageAt (pageAlignDown phys) i) flags)
    (he : (List.range (pagesInRange virt size)).foldlM f s = some s') :
    RangeMapped roots s s' r virt phys size flags := by
  obtain ⟨σ, href, rfl⟩ := h.refines
  obtain ⟨href', -⟩ := href.installRange hr hf he
  obtain ⟨g, hg⟩ := Option.isSome_iff_exists.mp hr
  have hself := Spaces.setRange_self hg (pageAlignDown virt) (pageAlignDown phys) flags
    (n := pagesInRange virt size) (by omega)
  refine ⟨hr, ?_, ?_⟩
  · intro v hv
    obtain ⟨i, hi, hpage⟩ := (meetsRange_iff hs).mp hv
    rw [href'.leaf r _ hself v, frameOf_eq hpage]
    simp only [withRange, pageNumber_rangePage hpage (show i < 2 ^ 36 by omega), if_pos hi]
  · intro r' hr' v hne
    obtain ⟨g', hg'⟩ := Option.isSome_iff_exists.mp hr'
    by_cases hrr : r' = r
    · subst hrr
      have hout := hne.resolve_left (fun hc => hc rfl)
      rw [href'.leaf r' _ hself v, href.leaf r' g hg v]
      simp only [withRange]
      refine if_neg (fun hin => ?_)
      -- the page of that index has the number of `v`
      refine hout _ (meetsRange_rangePage hs hlt hin) ?_
      rw [pageNumber_pageAt]
      apply BitVec.eq_of_toNat_eq
      rw [BitVec.toNat_add, BitVec.toNat_ofNat, BitVec.toNat_sub]
      have h1 := (pageNumber v).isLt
      have h2 := (pageNumber (pageAlignDown virt)).isLt
      omega
    · have hother : σ.setRange r (pageAlignDown virt) (pageAlignDown phys) flags
          (pagesInRange virt size) r' = some g' := by
        rw [Spaces.setRange_of_ne hrr]
        exact hg'
      rw [href'.leaf r' g' hother v, href.leaf r' g' hg' v]

/-- A range of installed pages, with room for its tables. -/
theorem rangeMapped_total (h : MmuInv L roots s) (hr : r ∈ roots) (hs : 0 < size.toNat)
    (hlt : virt.toNat + size.toNat + pageSize ≤ 2 ^ 64)
    (hroom : s.next L + tablesNeeded s.mem r (rangePages virt size) * pageSize ≤ L.pageTablesEnd)
    {f : Mmu → ℕ → Option Mmu}
    (hf : ∀ i < pagesInRange virt size, ∀ s₁, Mmu.Frame L s s₁ → f s₁ i =
      installPage L s₁ r (pageAt (pageAlignDown virt) i) (pageAt (pageAlignDown phys) i) flags) :
    ∃ s', (List.range (pagesInRange virt size)).foldlM f s = some s' ∧
      RangeMapped roots s s' r virt phys size flags := by
  have hb := installRange_builds h hr virt phys size flags hf
  obtain ⟨s', he⟩ := Option.isSome_iff_exists.mp (hb.room.mpr hroom)
  have hcard := (hb.adds s' he).card_le hr (fun p hp => length_of_mem_pathsOf hp)
  exact ⟨s', he, rangeMapped_of_loop h hr hs hlt (pagesInRange_le hlt hcard) hf he⟩

/-- The pages of the range are mapped as asked already. -/
def AlreadyMapped (s : Mmu) (r : ℕ) (virt phys size flags : Word) : Prop :=
  ∀ v, MeetsRange virt size v → leafEntry s.mem r v = pageDescriptor (frameOf virt phys v) flags

/-- **When range mapping is exact.**  `map_range` returns with exactly the pages of the range
mapped unless the range reaches into the last page of the 64-bit space; there it maps nothing.
`mmu_map_user_range` always does. -/
theorem map_range_exact_iff (h : MmuInv L roots s) (hs : 0 < size.toNat) :
    (virt.toNat + size.toNat ≤ 2 ^ 64 →
      s.next L + tablesNeeded s.mem s.kernelPgd (rangePages virt size) * pageSize ≤
        L.pageTablesEnd →
      ((∃ s', mapRange L s virt phys size flags = some s' ∧
          RangeMapped roots s s' s.kernelPgd virt phys size flags) ↔
        s.kernelPgd ≠ 0 ∧ (virt.toNat + size.toNat + pageSize ≤ 2 ^ 64 ∨
          AlreadyMapped s s.kernelPgd virt phys size flags))) ∧
    (∀ userPgd ∈ roots, virt.toNat + size.toNat ≤ userVaSize →
      s.next L + tablesNeeded s.mem userPgd (rangePages virt size) * pageSize ≤ L.pageTablesEnd →
      ∃ s', mmuMapUserRange L s userPgd virt phys size flags = some s' ∧
        RangeMapped roots s s' userPgd virt phys size flags) := by
  constructor
  · intro hle hroom
    by_cases hlt : virt.toNat + size.toNat + pageSize ≤ 2 ^ 64
    · constructor
      · rintro ⟨s', -, hm⟩
        exact ⟨h.root_ne_zero hm.root, .inl hlt⟩
      · rintro ⟨hk, -⟩
        unfold mapRange
        rw [mapPages_range _ s hlt]
        refine rangeMapped_total h (h.kernel.resolve_left hk) hs hlt hroom ?_
        intro i _ s₁ hframe
        rw [mapPage_eq_install (by rw [hframe.kernelPgd]; exact hk), hframe.kernelPgd]
    · have he : mapRange L s virt phys size flags = some s := mapPages_wrap _ s hle (by omega)
      constructor
      · rintro ⟨s', he', hm⟩
        obtain rfl : s = s' := Option.some.inj (he.symm.trans he')
        exact ⟨h.root_ne_zero hm.root, .inr hm.mapped⟩
      · rintro ⟨hk, hc | hm⟩
        · exact absurd hc hlt
        · exact ⟨s, he, h.kernel.resolve_left hk, hm, fun _ _ _ _ => rfl⟩
  · intro userPgd hr hle hroom
    have hva : userVaSize = 2 ^ 39 := rfl
    have hlt : virt.toNat + size.toNat + pageSize ≤ 2 ^ 64 := by
      simp only [pageSize]
      omega
    unfold mmuMapUserRange
    rw [mapPages_range _ s hlt]
    refine rangeMapped_total h hr hs hlt hroom ?_
    intro i hi s₁ _
    have hpage : (pageAt (pageAlignDown virt) i).toNat < userVaSize := by
      rw [toNat_rangePage hlt hi]
      unfold pagesInRange at hi
      simp only [pageSize] at hi ⊢
      omega
    rw [mmuMapUserPage, if_neg (h.root_ne_zero hr), if_neg (not_le.mpr hpage)]

end

/-! ### The ends of the kernel's half -/

theorem card_tablePaths_le (virt : Word) : (tablePaths virt).card ≤ 3 := by
  unfold tablePaths
  refine (Finset.card_union_le _ _).trans ?_
  have := Finset.card_union_le {[vaL0Index virt, vaL1Index virt]} {tablePath virt}
  simp only [Finset.card_singleton] at this ⊢
  omega

/-- Three tables a page are enough. -/
theorem tablesNeeded_le (m : ByteMem.Mem) (r : ℕ) (vs : List Word) :
    tablesNeeded m r vs ≤ 3 * vs.length := by
  refine (Finset.card_filter_le _ _).trans ?_
  induction vs with
  | nil => exact Nat.le_refl 0
  | cons v vs ih =>
      have h1 := Finset.card_union_le (tablePaths v) (pathsOf vs)
      have h2 := card_tablePaths_le v
      simp only [pathsOf, List.length_cons]
      omega

/-- `KERNEL_VA_BASE` -/
def kernelVaBase : Word := 0xFFFFFF8000000000

/-- A range of 4 KB that starts in the middle of the first page of the kernel's half. -/
theorem map_range_exact_iff_kernel_base :
    ∃ s s', mmuInit default bssMmu.boot = some s ∧
      mapRange default s (kernelVaBase + 0x800) 0x40000800 0x1000 pageKernelRw = some s' ∧
      RangeMapped {s.kernelPgd} s s' s.kernelPgd (kernelVaBase + 0x800) 0x40000800 0x1000
        pageKernelRw := by
  obtain ⟨s, hs, hready⟩ := mmuInit_total default bssMmu
  have hinv := hready.refines.inv
  rw [hready.roots] at hinv
  have hcount : (rangePages (kernelVaBase + 0x800) 0x1000).length = 2 := by
    rw [rangePages, List.length_map, List.length_range]
    decide
  have hneed := tablesNeeded_le s.mem s.kernelPgd (rangePages (kernelVaBase + 0x800) 0x1000)
  have hend := (default : Linker).end_eq
  have hroom := hready.room
  rw [hcount] at hneed
  simp only [pageSize] at hroom
  have hpos : 0 < (0x1000 : Word).toNat := by decide
  have hle : (kernelVaBase + 0x800).toNat + (0x1000 : Word).toNat + pageSize ≤ 2 ^ 64 := by decide
  have hroom' : s.next default + tablesNeeded s.mem s.kernelPgd
      (rangePages (kernelVaBase + 0x800) 0x1000) * pageSize ≤ (default : Linker).pageTablesEnd := by
    simp only [pageSize]
    omega
  obtain ⟨s', he, hm⟩ := ((map_range_exact_iff hinv hpos).1 ((Nat.le_add_right _ _).trans hle) hroom').mpr
    ⟨hinv.root_ne_zero rfl, .inl hle⟩
  exact ⟨s, s', hs, he, hm⟩

/-- The last page of the kernel's half is not mapped. -/
theorem map_range_top :
    ∃ s, mmuInit default bssMmu.boot = some s ∧
      mapRange default s 0xFFFFFFFFFFFFF000 0x40000000 0x1000 pageKernelRw = some s ∧
      leafEntry s.mem s.kernelPgd 0xFFFFFFFFFFFFF000 = 0 ∧
      ¬ ∃ s', mapRange default s 0xFFFFFFFFFFFFF000 0x40000000 0x1000 pageKernelRw = some s' ∧
        RangeMapped {s.kernelPgd} s s' s.kernelPgd 0xFFFFFFFFFFFFF000 0x40000000 0x1000
          pageKernelRw := by
  obtain ⟨s, hs, hready⟩ := mmuInit_total default bssMmu
  have he : mapRange default s 0xFFFFFFFFFFFFF000 0x40000000 0x1000 pageKernelRw = some s :=
    mapPages_wrap _ s (by decide) (by decide)
  have hleaf : leafEntry s.mem s.kernelPgd 0xFFFFFFFFFFFFF000 = 0 := by
    rw [hready.refines.leaf _ _ hready.space]
    decide
  refine ⟨s, hs, he, hleaf, ?_⟩
  rintro ⟨s', he', hm⟩
  obtain rfl : s = s' := Option.some.inj (he.symm.trans he')
  have hmapped := hm.mapped 0xFFFFFFFFFFFFF000 ⟨0xFFFFFFFFFFFFF000, rfl, le_rfl, by decide⟩
  rw [hleaf] at hmapped
  have hdesc := pageDescriptor_and_pteValid
    (frameOf 0xFFFFFFFFFFFFF000 0x40000000 0xFFFFFFFFFFFFF000) pageKernelRw
  rw [← hmapped] at hdesc
  exact hdesc rfl

end AArch64Os
