import AArch64Os.PmmReserve

/-! # The pages of a region

`pmm_mark_region(base, size, flags)` computes the first and the last page of the region in unsigned
arithmetic.  A base below `DRAM_BASE` wraps around to a page number behind the last managed page, so
that nothing is marked; a region that is empty, but begins within a page, is rounded up to that page.
In every other case the pages that are marked are those whose frame meets the region
(`mark_region_iff`). -/

namespace AArch64Os

/-- The frame of page `q` has an address in the region. -/
def Meets (base size : Word) (q : ℕ) : Prop :=
  ∃ x, base.toNat ≤ x ∧ x < base.toNat + size.toNat ∧ pageToPhys q ≤ x ∧ x < pageToPhys (q + 1)

/-- **What the call is for**: the managed pages of the region get the flags, the others keep
theirs. -/
def RegionMarked (s : Pmm) (base size : Word) (flags : ℕ) : Prop :=
  ∀ q < s.numPages,
    (Meets base size q → ((pmmMarkRegion s base size flags).pages q).flags = flags) ∧
    (¬ Meets base size q → ((pmmMarkRegion s base size flags).pages q).flags = (s.pages q).flags)

section
variable {s : Pmm} {base size : Word} {q flags : ℕ}

theorem meets_iff : Meets base size q ↔ 0 < size.toNat ∧
    base.toNat < pageToPhys (q + 1) ∧ pageToPhys q < base.toNat + size.toNat := by
  have hnext : pageToPhys q < pageToPhys (q + 1) := by
    simp only [pageToPhys, pageSize]
    omega
  constructor
  · rintro ⟨x, h1, h2, h3, h4⟩
    omega
  · rintro ⟨h1, h2, h3⟩
    exact ⟨max base.toNat (pageToPhys q), by omega, by omega, by omega, by omega⟩

theorem toNat_dramBase : (BitVec.ofNat 64 dramBase).toNat = 0x40000000 := by decide

theorem toNat_pageSize : (BitVec.ofNat 64 pageSize).toNat = 4096 := by decide

theorem regionStart_of_le (h : dramBase ≤ base.toNat) :
    regionStart base = (base.toNat - dramBase) / pageSize := by
  have hb := base.isLt
  unfold regionStart
  rw [BitVec.toNat_udiv, BitVec.toNat_sub, toNat_dramBase, toNat_pageSize]
  simp only [dramBase, pageSize] at h ⊢
  have hsub : (2 ^ 64 - 0x40000000 + base.toNat) % 2 ^ 64 = base.toNat - 0x40000000 := by omega
  rw [hsub]

/-- A base below `DRAM_BASE` wraps around. -/
theorem regionStart_of_lt (h : base.toNat < dramBase) : 16384 ≤ regionStart base := by
  unfold regionStart
  rw [BitVec.toNat_udiv, BitVec.toNat_sub, toNat_dramBase, toNat_pageSize]
  simp only [dramBase] at h
  omega

theorem regionEnd_of_le (h : dramBase ≤ base.toNat) (hend : base.toNat + size.toNat ≤ 2 ^ 64) :
    regionEnd base size = (base.toNat + size.toNat - dramBase + (pageSize - 1)) / pageSize := by
  have hone : (1 : Word).toNat = 1 := by decide
  unfold regionEnd
  rw [BitVec.toNat_udiv, BitVec.toNat_sub, BitVec.toNat_add, BitVec.toNat_sub, BitVec.toNat_add,
    toNat_dramBase, toNat_pageSize, hone]
  simp only [dramBase, pageSize] at h ⊢
  have hsum : (2 ^ 64 - 1 + ((2 ^ 64 - 0x40000000 + (base.toNat + size.toNat) % 2 ^ 64) % 2 ^ 64 +
      4096) % 2 ^ 64) % 2 ^ 64 = base.toNat + size.toNat - 0x40000000 + (4096 - 1) := by omega
  rw [hsum]

/-- From `DRAM_BASE` on, the pages that are marked are those of the region, and one more if the
region is empty and begins within a page. -/
theorem marks_iff (h : dramBase ≤ base.toNat) (hend : base.toNat + size.toNat ≤ 2 ^ 64) :
    Marks s base size q ↔ q < s.numPages ∧ (Meets base size q ∨
      size.toNat = 0 ∧ pageToPhys q < base.toNat ∧ base.toNat < pageToPhys (q + 1)) := by
  rw [Marks, regionStart_of_le h, regionEnd_of_le h hend, meets_iff]
  simp only [pageToPhys, dramBase, pageSize] at h ⊢
  omega

/-- Below `DRAM_BASE` nothing is marked. -/
theorem not_marks (h : base.toNat < dramBase) (hn : s.numPages ≤ 16384) : ¬ Marks s base size q := by
  have hstart := regionStart_of_lt h
  rintro ⟨h1, -, h3⟩
  omega

end

/-- Where the call does not follow the region, it makes no difference: the pages have the flags
already. -/
structure RegionOk (s : Pmm) (base size : Word) (flags : ℕ) : Prop where
  /-- The pages of a region that begins below `DRAM_BASE` are not marked. -/
  below : base.toNat < dramBase → ∀ q < s.numPages, pageToPhys q < base.toNat + size.toNat →
    (s.pages q).flags = flags
  /-- The page in which an empty region begins is marked. -/
  empty : size.toNat = 0 → ∀ q < s.numPages, pageToPhys q < base.toNat →
    base.toNat < pageToPhys (q + 1) → (s.pages q).flags = flags

section
variable {s : Pmm} {base size : Word} {flags : ℕ}

theorem regionMarked_below_iff (h : base.toNat < dramBase) (hn : s.numPages ≤ 16384) :
    RegionMarked s base size flags ↔ ∀ q < s.numPages, pageToPhys q < base.toNat + size.toNat →
      (s.pages q).flags = flags := by
  have hkeep : ∀ q, ((pmmMarkRegion s base size flags).pages q).flags = (s.pages q).flags := by
    intro q
    rw [region_flags, if_neg (not_marks h hn)]
  have hphys : ∀ q, dramBase ≤ pageToPhys q := fun q => Nat.le_add_right _ _
  have hmeets : ∀ q, Meets base size q ↔ pageToPhys q < base.toNat + size.toNat := by
    intro q
    have h1 := hphys q
    have h2 := hphys (q + 1)
    rw [meets_iff]
    omega
  constructor
  · intro hall q hq hlt
    rw [← hkeep q]
    exact (hall q hq).1 ((hmeets q).mpr hlt)
  · intro hall q hq
    refine ⟨fun hm => ?_, fun _ => hkeep q⟩
    rw [hkeep q]
    exact hall q hq ((hmeets q).mp hm)

theorem regionMarked_above_iff (h : dramBase ≤ base.toNat)
    (hend : base.toNat + size.toNat ≤ 2 ^ 64) :
    RegionMarked s base size flags ↔ (size.toNat = 0 → ∀ q < s.numPages,
      pageToPhys q < base.toNat → base.toNat < pageToPhys (q + 1) → (s.pages q).flags = flags) := by
  constructor
  · intro hall h0 q hq h1 h2
    have hnot : ¬ Meets base size q := fun hm => by
      have := (meets_iff.mp hm).1
      omega
    have hkeep := (hall q hq).2 hnot
    rw [region_flags, if_pos ((marks_iff h hend).mpr ⟨hq, .inr ⟨h0, h1, h2⟩⟩)] at hkeep
    exact hkeep.symm
  · intro hall q hq
    rw [region_flags]
    constructor
    · intro hm
      rw [if_pos ((marks_iff h hend).mpr ⟨hq, .inl hm⟩)]
    · intro hm
      split_ifs with hmarks
      · obtain ⟨-, hm' | ⟨h0, h1, h2⟩⟩ := (marks_iff h hend).mp hmarks
        · exact absurd hm' hm
        · exact (hall h0 q hq h1 h2).symm
      · rfl

/-- **When exactly the region is marked**: it does not begin below `DRAM_BASE` and reach a managed
page, and it is not empty and begins within one, as far as the flags are new. -/
theorem mark_region_iff (hn : s.numPages ≤ 16384) (hend : base.toNat + size.toNat ≤ 2 ^ 64) :
    RegionMarked s base size flags ↔ RegionOk s base size flags := by
  have hphys : ∀ q, dramBase ≤ pageToPhys q := fun q => Nat.le_add_right _ _
  rcases Nat.lt_or_ge base.toNat dramBase with h | h
  · rw [regionMarked_below_iff h hn]
    refine ⟨fun hall => ⟨fun _ => hall, fun _ q _ hlt => ?_⟩, fun hok => hok.below h⟩
    have := hphys q
    omega
  · rw [regionMarked_above_iff h hend]
    exact ⟨fun hall => ⟨fun hlt => absurd hlt (not_lt.mpr h), hall⟩, fun hok => hok.empty⟩

end

/-- The kernel's own region after `pmm_init`. -/
theorem mark_region_iff_kernel : RegionMarked (pmmInit bssPmm) (BitVec.ofNat 64 kernelBase)
    (BitVec.ofNat 64 kernelSize) pageReserved := by
  have hn : (pmmInit bssPmm).numPages ≤ 16384 := by
    rw [(pmmInit_spec bssPmm).1, managedPages_eq]
  have hbase : (BitVec.ofNat 64 kernelBase).toNat = 0x40400000 := by decide
  have hsize : (BitVec.ofNat 64 kernelSize).toNat = 0x1000000 := by decide
  refine (mark_region_iff hn (by rw [hbase, hsize]; decide)).mpr ⟨fun h => ?_, fun h => ?_⟩
  · rw [hbase] at h
    exact absurd h (by decide)
  · rw [hsize] at h
    exact absurd h (by decide)

/-- A free page 0 is not reserved with a region that begins in front of it. -/
theorem page_zero_kept {s : Pmm} (hn : s.numPages = 16384) (hf : (s.tags 0).flags = pageFree)
    {base size : Word} (h : base.toNat < dramBase) (hreach : pageToPhys 0 < base.toNat + size.toNat) :
    ¬ RegionMarked s base size pageReserved := by
  intro hall
  have hflag := (regionMarked_below_iff h hn.le).mp hall 0 (by rw [hn]; decide) hreach
  exact absurd (hf.symm.trans hflag) (by decide)

/-- Two pages from `0x3FFFF000` on: the second one is page 0, which stays free. -/
theorem mark_region_below_dram : ¬ RegionMarked (pmmInit bssPmm) 0x3FFFF000 0x2000 pageReserved ∧
    (0x3FFFF000 : Word).toNat + (0x2000 : Word).toNat ≤ 2 ^ 64 := by
  have hn : (pmmInit bssPmm).numPages = 16384 := (pmmInit_spec bssPmm).1.trans managedPages_eq
  have hf : ((pmmInit bssPmm).tags 0).flags = pageFree := by
    rw [(pmmInit_spec bssPmm).2.2 0 (by rw [managedPages_eq]; decide)]
    decide
  exact ⟨page_zero_kept hn hf (by decide) (by decide), by decide⟩

end AArch64Os
