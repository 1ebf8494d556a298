import AArch64Os.Mmu
import AArch64Os.Lib.Radix

/-! # The page tables form a forest

The tables that `alloc_page_table` has handed out are a forest of depth 3 under the roots:
each is reached from one root by one path of indexes.  `MmuInv` says so, and each function
that builds tables gets one specification: it keeps the invariant, and it changes no leaf but
the one it is asked to change. -/

namespace AArch64Os

open ByteMem Radix

/-! ### Descriptors -/

theorem pageMask_getLsbD : ∀ i < 64, pageMask.getLsbD i = decide (12 ≤ i) := by decide

theorem and_pageMask (w : Word) : w &&& pageMask = (w >>> 12) <<< 12 := by
  apply BitVec.eq_of_getLsbD_eq
  intro i hi
  rw [BitVec.getLsbD_and, pageMask_getLsbD i hi, BitVec.getLsbD_shiftLeft,
    BitVec.getLsbD_ushiftRight]
  by_cases h : 12 ≤ i
  · have : 12 + (i - 12) = i := by omega
    simp [h, hi, this]
  · simp [h, hi]

/-- Masking clears the offset within the page. -/
theorem toNat_and_pageMask (w : Word) : (w &&& pageMask).toNat = w.toNat / 4096 * 4096 := by
  rw [and_pageMask, BitVec.toNat_shiftLeft, BitVec.toNat_ushiftRight, Nat.shiftLeft_eq,
    Nat.shiftRight_eq_div_pow]
  have := w.isLt
  omega

/-- Rounding up may wrap to 0. -/
theorem toNat_pageAlignUp (addr : Word) :
    (pageAlignUp addr).toNat = (addr.toNat + 4095) % 2 ^ 64 / 4096 * 4096 := by
  have h1 : (BitVec.ofNat 64 pageSize).toNat = 4096 := by decide
  have h2 : (1 : Word).toNat = 1 := by decide
  have := addr.isLt
  rw [pageAlignUp, toNat_and_pageMask, BitVec.toNat_sub, BitVec.toNat_add, h1, h2]
  omega

/-- The table descriptor that `get_or_create_table` writes. -/
def tableDescriptor (table : ℕ) : Word :=
  (BitVec.ofNat 64 table &&& pageMask) ||| pteTypeTable ||| pteValid

theorem tableDescriptor_bits (table : ℕ) :
    tableDescriptor table &&& pteValid ≠ 0 ∧ tableDescriptor table &&& pteTable ≠ 0 := by
  have h1 : pageMask &&& pteValid = 0#64 := by decide
  have h2 : pageMask &&& pteTable = 0#64 := by decide
  have h3 : (pteTypeTable &&& pteValid) ||| (pteValid &&& pteValid) ≠ 0 := by decide
  have h4 : (pteTypeTable &&& pteTable) ||| (pteValid &&& pteTable) ≠ 0 := by decide
  simp only [tableDescriptor, BitVec.and_or_distrib_right, BitVec.and_assoc, h1, h2]
  rw [BitVec.and_zero, BitVec.zero_or]
  exact ⟨h3, h4⟩

/-- The descriptor links to its table. -/
theorem nextTable_tableDescriptor {table : ℕ} (h : table % pageSize = 0) (hlt : table < 2 ^ 64) :
    nextTable (tableDescriptor table) = some table := by
  have hmask : tableDescriptor table &&& pageMask = BitVec.ofNat 64 table &&& pageMask := by
    have h1 : pteTypeTable &&& pageMask = 0#64 := by decide
    have h2 : pteValid &&& pageMask = 0#64 := by decide
    simp only [tableDescriptor, BitVec.and_or_distrib_right, BitVec.and_assoc, h1, h2,
      BitVec.and_self, BitVec.or_zero]
  rw [nextTable, if_neg (tableDescriptor_bits table).1, hmask, toNat_and_pageMask,
    BitVec.toNat_ofNat]
  simp only [pageSize] at h
  congr 1
  omega

theorem nextTable_zero : nextTable 0 = none := by decide

/-- What the entries of the upper three levels look like. -/
def IsTableEntry (e : Word) : Prop := e = 0 ∨ (e &&& pteValid ≠ 0 ∧ e &&& pteTable ≠ 0)

theorem IsTableEntry.some_iff {e : Word} (h : IsTableEntry e) {u : ℕ} :
    nextTable e = some u ↔ (e &&& pteValid ≠ 0 ∧ e &&& pteTable ≠ 0) ∧ (e &&& pageMask).toNat = u := by
  rcases h with rfl | h
  · rw [nextTable_zero]
    constructor
    · intro hc; cases hc
    · intro hc; exact absurd rfl hc.1.1
  · rw [nextTable, if_neg h.1, Option.some.injEq]
    exact ⟨fun he => ⟨h, he⟩, fun he => he.2⟩

/-! ### Tables in memory -/

/-- The entries of the table at `t`. -/
def entries (m : Mem) (t : ℕ) (j : Fin 512) : Word := m.load64 (entryAddr t j)

/-- The indexes of the upper three levels. -/
def tablePath (virt : Word) : List (Fin 512) := [vaL0Index virt, vaL1Index virt, vaL2Index virt]

/-- The leaf entry that the 4-level walk from `root` reaches, 0 when the walk breaks off. -/
def leafEntry (m : Mem) (root : ℕ) (virt : Word) : Word :=
  match walkTables m root virt with
  | none => 0
  | some pte => m.load64 (entryAddr pte (vaL3Index virt))

theorem walkTables_eq (m : Mem) (root : ℕ) (virt : Word) :
    walkTables m root virt = walk nextTable (entries m) root (tablePath virt) := by
  simp only [walkTables, tablePath, walk, entries]
  cases nextTable (m.load64 (entryAddr root (vaL0Index virt))) with
  | none => rfl
  | some pud =>
      simp only
      cases nextTable (m.load64 (entryAddr pud (vaL1Index virt))) with
      | none => rfl
      | some pmd =>
          simp only
          cases nextTable (m.load64 (entryAddr pmd (vaL2Index virt))) <;> rfl

theorem leafEntry_eq (m : Mem) (root : ℕ) (virt : Word) :
    leafEntry m root virt = leaf nextTable 0 (entries m) root (tablePath virt) (vaL3Index virt) := by
  rw [leafEntry, leaf, walkTables_eq]
  cases walk nextTable (entries m) root (tablePath virt) <;> rfl

/-- The page number of an address: its bits 47:12. -/
def pageNumber (virt : Word) : BitVec 36 := virt.extractLsb' 12 36

theorem toNat_pageNumber (virt : Word) : (pageNumber virt).toNat = virt.toNat / 4096 % 2 ^ 36 := by
  rw [pageNumber, BitVec.extractLsb'_toNat, Nat.shiftRight_eq_div_pow]

/-- The four indexes are the page number. -/
theorem pageNumber_eq_iff (v w : Word) :
    pageNumber v = pageNumber w ↔ tablePath v = tablePath w ∧ vaL3Index v = vaL3Index w := by
  have hv := v.isLt
  have hw := w.isLt
  rw [← BitVec.toNat_inj, toNat_pageNumber, toNat_pageNumber]
  simp only [tablePath, List.cons.injEq, and_true, vaL0Index, vaL1Index, vaL2Index, vaL3Index,
    indexBits, Fin.ext_iff]
  omega

theorem leafEntry_congr {v w : Word} (h : pageNumber v = pageNumber w) (m : Mem) (root : ℕ) :
    leafEntry m root v = leafEntry m root w := by
  obtain ⟨hp, hi⟩ := (pageNumber_eq_iff v w).mp h
  unfold leafEntry
  rw [walkTables_eq, walkTables_eq, hp, hi]

/-! ### The invariant -/

namespace Mmu

/-- The next table to hand out. -/
def next (L : Linker) (s : Mmu) : ℕ :=
  if s.nextPageTable = 0 then L.pageTablesStart else s.nextPageTable

/-- The tables handed out so far. -/
def tables (L : Linker) (s : Mmu) : Set ℕ :=
  {t | L.pageTablesStart ≤ t ∧ t < s.next L ∧ t % pageSize = 0}

@[simp] theorem mem_store64 (s : Mmu) (a : ℕ) (w : Word) :
    (s.store64 a w).mem = s.mem.store64 a w := rfl
@[simp] theorem next_store64 (L : Linker) (s : Mmu) (a : ℕ) (w : Word) :
    (s.store64 a w).next L = s.next L := rfl
/-- What building tables leaves alone. -/
structure Frame (L : Linker) (s s' : Mmu) : Prop where
  kernelPgd : s'.kernelPgd = s.kernelPgd
  currentUserPgd : s'.currentUserPgd = s.currentUserPgd
  ttbr0 : s'.ttbr0 = s.ttbr0
  ttbr1 : s'.ttbr1 = s.ttbr1
  tcr : s'.tcr = s.tcr
  mem : ∀ x, x < L.pageTablesStart ∨ L.pageTablesEnd ≤ x → s'.mem x = s.mem x
  next_le : s.next L ≤ s'.next L

theorem Frame.refl (L : Linker) (s : Mmu) : Frame L s s :=
  ⟨rfl, rfl, rfl, rfl, rfl, fun _ _ => rfl, le_rfl⟩

theorem Frame.trans {L : Linker} {s s' s'' : Mmu} (h : Frame L s s') (h' : Frame L s' s'') :
    Frame L s s'' :=
  ⟨h'.kernelPgd.trans h.kernelPgd, h'.currentUserPgd.trans h.currentUserPgd,
    h'.ttbr0.trans h.ttbr0, h'.ttbr1.trans h.ttbr1, h'.tcr.trans h.tcr,
    fun x hx => (h'.mem x hx).trans (h.mem x hx), h.next_le.trans h'.next_le⟩

end Mmu

/-- The page tables are a forest under the roots. -/
structure MmuInv (L : Linker) (roots : Set ℕ) (s : Mmu) : Prop where
  aligned : s.next L % pageSize = 0
  start_le : L.pageTablesStart ≤ s.next L
  next_le : s.next L ≤ L.pageTablesEnd
  forest : Forest nextTable IsTableEntry 3 roots (s.tables L) (entries s.mem)
  kernel : s.kernelPgd = 0 ∨ s.kernelPgd ∈ roots

theorem Linker.start_pos (L : Linker) : 0 < L.pageTablesStart := by
  have h1 := L.taskPool_le
  have h2 := L.taskPool_ge
  have h3 : 0 < kernelBase := by decide
  omega

theorem Linker.end_le (L : Linker) : L.pageTablesEnd ≤ 2 ^ 32 := by
  have h1 := L.le_kernelEnd
  have h2 : kernelBase + kernelSize ≤ 2 ^ 32 := by decide
  exact h1.trans h2

section
variable {L : Linker} {roots : Set ℕ} {s s' : Mmu}

theorem MmuInv.table_bounds (h : MmuInv L roots s) {t : ℕ} (ht : t ∈ s.tables L) :
    L.pageTablesStart ≤ t ∧ t + pageSize ≤ L.pageTablesEnd := by
  obtain ⟨h1, h2, h3⟩ := ht
  have := h.aligned
  have := h.next_le
  simp only [pageSize] at *
  omega

theorem MmuInv.root_bounds (h : MmuInv L roots s) {r : ℕ} (hr : r ∈ roots) :
    L.pageTablesStart ≤ r ∧ r + pageSize ≤ L.pageTablesEnd :=
  h.table_bounds (h.forest.root_mem hr)

theorem MmuInv.root_ne_zero (h : MmuInv L roots s) {r : ℕ} (hr : r ∈ roots) : r ≠ 0 := by
  have h1 := (h.root_bounds hr).1
  have h2 := L.start_pos
  omega

/-- Two entries of tables share no byte. -/
theorem entryAddr_disjoint {t u : ℕ} {i j : Fin 512} (ht : t % pageSize = 0)
    (hu : u % pageSize = 0) (hne : u ≠ t ∨ j ≠ i) :
    entryAddr u j + 8 ≤ entryAddr t i ∨ entryAddr t i + 8 ≤ entryAddr u j := by
  have hi := i.isLt
  have hj := j.isLt
  simp only [Ne, Fin.ext_iff] at hne
  simp only [pageSize] at ht hu
  simp only [entryAddr]
  omega

theorem entries_store64_same (m : Mem) (t : ℕ) (i : Fin 512) (w : Word) :
    entries (m.store64 (entryAddr t i) w) t i = w := Mem.load64_store64_same m _ w

theorem entries_store64_ne {m : Mem} {t u : ℕ} {i j : Fin 512} {w : Word} (ht : t % pageSize = 0)
    (hu : u % pageSize = 0) (hne : u ≠ t ∨ j ≠ i) :
    entries (m.store64 (entryAddr t i) w) u j = entries m u j :=
  Mem.load64_store64_ne w (entryAddr_disjoint ht hu hne)

/-! ### `alloc_page_table` -/

/-- `alloc_page_table` in terms of the next table. -/
theorem allocPageTable_eq (L : Linker) (s : Mmu) :
    allocPageTable L s = if L.pageTablesEnd < s.next L + pageSize then none
      else some (s.next L, { s with
        nextPageTable := s.next L + pageSize, mem := s.mem.fill (s.next L) 0 pageSize }) := by
  unfold allocPageTable Mmu.next
  by_cases h0 : s.nextPageTable = 0
  · simp only [if_pos h0]
  · simp only [if_neg h0]

/-- `alloc_page_table` returns iff there is room for one more table. -/
theorem allocPageTable_isSome (L : Linker) (s : Mmu) :
    (allocPageTable L s).isSome ↔ s.next L + pageSize ≤ L.pageTablesEnd := by
  rw [allocPageTable_eq]
  split_ifs with hc
  · simp only [Option.isSome_none, Bool.false_eq_true, false_iff, not_le]
    exact hc
  · simp only [Option.isSome_some, true_iff]
    omega

/-- The table that `alloc_page_table` returns is fresh and empty. -/
theorem allocPageTable_spec (h : MmuInv L roots s) {u : ℕ} (he : allocPageTable L s = some (u, s')) :
    u = s.next L ∧ s'.next L = u + pageSize ∧ u + pageSize ≤ L.pageTablesEnd ∧
    u ∉ s.tables L ∧ s'.tables L = insert u (s.tables L) ∧ (∀ j, entries s'.mem u j = 0) ∧
    (∀ t ∈ s.tables L, ∀ j, entries s'.mem t j = entries s.mem t j) ∧ Mmu.Frame L s s' := by
  have hpos := L.start_pos
  have h1 := h.aligned
  have h2 := h.start_le
  obtain ⟨rfl, hle, hs'⟩ : u = s.next L ∧ s.next L + pageSize ≤ L.pageTablesEnd ∧
      s' = { s with nextPageTable := s.next L + pageSize, mem := s.mem.fill (s.next L) 0 pageSize } := by
    rw [allocPageTable_eq] at he
    split_ifs at he with hc
    cases he
    exact ⟨rfl, not_lt.mp hc, rfl⟩
  have hnext : s'.next L = s.next L + pageSize := by
    rw [hs']
    exact if_neg (by simp only [pageSize]; omega)
  have hbytes : ∀ x, ¬ (s.next L ≤ x ∧ x < s.next L + pageSize) → s'.mem x = s.mem x := by
    intro x hx
    rw [hs']
    simp only [Mem.fill_apply]
    exact if_neg hx
  refine ⟨rfl, hnext, hle, ?_, ?_, ?_, ?_, ?_⟩
  · rintro ⟨_, hlt, _⟩
    omega
  · ext t
    simp only [Mmu.tables, Set.mem_insert_iff, Set.mem_ofPred_eq, hnext]
    simp only [pageSize] at *
    omega
  · intro j
    have := j.isLt
    rw [hs']
    exact Mem.load64_fill_zero (by simp only [entryAddr]; omega) (by simp only [entryAddr, pageSize]; omega)
  · rintro t ⟨_, ht2, ht3⟩ j
    have := j.isLt
    apply Mem.load64_congr
    intro x hx1 hx2
    apply hbytes
    simp only [entryAddr, pageSize] at *
    omega
  · refine ⟨by rw [hs'], by rw [hs'], by rw [hs'], by rw [hs'], by rw [hs'], ?_, ?_⟩
    · intro x hx
      apply hbytes
      omega
    · rw [hnext]
      omega

/-- A fresh table as a new root. -/
theorem MmuInv.addRoot (h : MmuInv L roots s) {u : ℕ} (he : allocPageTable L s = some (u, s')) :
    MmuInv L (insert u roots) s' ∧ (∀ virt, leafEntry s'.mem u virt = 0) ∧
    ∀ r ∈ roots, ∀ virt, leafEntry s'.mem r virt = leafEntry s.mem r virt := by
  obtain ⟨hu, hnext, hle, hfresh, htab, hempty, hold, hframe⟩ := allocPageTable_spec h he
  obtain ⟨hf, hleaf⟩ := h.forest.addRoot nextTable_zero hold (.inl rfl) hfresh hempty
  have h1 := h.aligned
  have h2 := h.start_le
  refine ⟨⟨?_, ?_, ?_, ?_, ?_⟩, ?_, ?_⟩
  · rw [hnext, hu]
    simp only [pageSize] at *
    omega
  · rw [hnext]
    omega
  · rw [hnext]
    exact hle
  · rw [htab]
    exact hf
  · rw [hframe.kernelPgd]
    exact h.kernel.imp id (Set.mem_insert_of_mem u)
  · intro virt
    rw [leafEntry_eq]
    exact hleaf _ _
  · intro r hr virt
    rw [leafEntry_eq, leafEntry_eq]
    exact h.forest.leaf_congr hold hr rfl _

/-! ### `get_or_create_table` -/

/-- What `get_or_create_table` guarantees, for the table at path `p` below root `r`. -/
structure Created (L : Linker) (roots : Set ℕ) (s s' : Mmu) (r : ℕ) (p : List (Fin 512))
    (u : ℕ) : Prop where
  inv : MmuInv L roots s'
  grows : Grows nextTable IsTableEntry 0 3 roots (s.tables L) (s'.tables L) (entries s.mem)
    (entries s'.mem)
  walk : Radix.walk nextTable (entries s'.mem) r p = some u
  frame : Mmu.Frame L s s'

/-- An entry that is there is used as it is. -/
theorem getOrCreateTable_hit (h : MmuInv L roots s) {r t u : ℕ} {p : List (Fin 512)} {i : Fin 512}
    (hr : r ∈ roots) (hp : p.length < 3) (ht : walk nextTable (entries s.mem) r p = some t)
    (hu : nextTable (entries s.mem t i) = some u) : getOrCreateTable L s t i = some (u, s) := by
  obtain ⟨hbits, hmask⟩ := (h.forest.upper r hr p hp t ht i).some_iff.mp hu
  unfold getOrCreateTable
  simp only [entries] at hbits hmask
  rw [if_pos hbits, hmask]

/-- A missing entry gets a fresh table. -/
theorem getOrCreateTable_miss (L : Linker) {s : Mmu} {t : ℕ} {i : Fin 512}
    (hu : nextTable (entries s.mem t i) = none) :
    getOrCreateTable L s t i = (allocPageTable L s).map (fun r =>
      (r.1, r.2.store64 (entryAddr t i) (tableDescriptor r.1))) := by
  have hnv : s.mem.load64 (entryAddr t i) &&& pteValid = 0 := by
    by_contra hc
    unfold entries nextTable at hu
    rw [if_neg hc] at hu
    cases hu
  unfold getOrCreateTable
  simp only [hnv]
  rw [if_neg (fun hc => hc.1 rfl)]
  cases allocPageTable L s <;> rfl

theorem getOrCreateTable_spec (h : MmuInv L roots s) {r t u : ℕ} {p : List (Fin 512)} {i : Fin 512}
    (hr : r ∈ roots) (hp : p.length < 3) (ht : walk nextTable (entries s.mem) r p = some t)
    (he : getOrCreateTable L s t i = some (u, s')) : Created L roots s s' r (p ++ [i]) u := by
  cases hu : nextTable (entries s.mem t i) with
  | some v =>
      rw [getOrCreateTable_hit h hr hp ht hu] at he
      cases he
      exact ⟨h, .refl h.forest, walk_concat_some.mpr ⟨t, ht, hu⟩, .refl L s⟩
  | none =>
      rw [getOrCreateTable_miss L hu] at he
      obtain ⟨⟨w, s₁⟩, ha, hp'⟩ := Option.map_eq_some_iff.mp he
      obtain ⟨rfl, rfl⟩ := Prod.mk.inj hp'
      obtain ⟨hv, hnext, hle, hfresh, htab, hempty, hold, hframe⟩ := allocPageTable_spec h ha
      have htA : t ∈ s.tables L := h.forest.closed r hr p hp.le t ht
      have hta : t % pageSize = 0 := htA.2.2
      have hta' := h.table_bounds htA
      have hua : w % pageSize = 0 := by rw [hv]; exact h.aligned
      have hut : w ≠ t := fun e => hfresh (e ▸ htA)
      have hend := L.end_le
      have hdesc : nextTable (tableDescriptor w) = some w := by
        apply nextTable_tableDescriptor hua
        simp only [pageSize] at hle
        omega
      have hgrows := h.forest.link (u := w) nextTable_zero hr hp ht hu
        (fun v hv j hne => (entries_store64_ne hta hv.2.2 hne).trans (hold v hv j))
        (by rw [entries_store64_same]; exact hdesc)
        (by rw [entries_store64_same]; exact .inr (tableDescriptor_bits w)) (.inl rfl) hfresh
        (fun j => (entries_store64_ne hta hua (.inl hut)).trans (hempty j))
      have hnext' : (s₁.store64 (entryAddr t i) (tableDescriptor w)).next L =
          w + pageSize := hnext
      have htab' : (s₁.store64 (entryAddr t i) (tableDescriptor w)).tables L =
          insert w (s.tables L) := htab
      have h1 := h.start_le
      refine ⟨⟨?_, ?_, ?_, ?_, ?_⟩, ?_, ?_, ?_⟩
      · rw [hnext']
        simp only [pageSize] at *
        omega
      · rw [hnext']
        omega
      · rw [hnext']
        exact hle
      · rw [htab']
        exact hgrows.forest
      · rw [show (s₁.store64 (entryAddr t i) (tableDescriptor w)).kernelPgd = s.kernelPgd from
          hframe.kernelPgd]
        exact h.kernel
      · rw [htab']
        exact hgrows
      · exact walk_concat_some.mpr ⟨t, hgrows.walk r hr p hp.le t ht, by
          rw [Mmu.mem_store64, entries_store64_same]; exact hdesc⟩
      · refine ⟨hframe.kernelPgd, hframe.currentUserPgd, hframe.ttbr0, hframe.ttbr1, hframe.tcr,
          ?_, hframe.next_le⟩
        intro x hx
        rw [← hframe.mem x hx]
        have := i.isLt
        simp only [pageSize] at hta'
        rcases hx with hx | hx
        · exact Mem.store64_of_lt (by simp only [entryAddr]; omega)
        · exact Mem.store64_of_ge (by simp only [entryAddr]; omega)

/-! ### Writing page entries -/

/-- From `s` to `s'` the leaf of page `virt` below `r` was set to `d` and nothing else changed. -/
structure LeafSet (L : Linker) (roots : Set ℕ) (s s' : Mmu) (r : ℕ) (virt d : Word) : Prop where
  inv : MmuInv L roots s'
  same : ∀ v, pageNumber v = pageNumber virt → leafEntry s'.mem r v = d
  other : ∀ r' ∈ roots, ∀ v, r' ≠ r ∨ pageNumber v ≠ pageNumber virt →
    leafEntry s'.mem r' v = leafEntry s.mem r' v
  walk : ∀ r' ∈ roots, ∀ p : List (Fin 512), p.length ≤ 3 → ∀ t,
    Radix.walk nextTable (entries s.mem) r' p = some t →
    Radix.walk nextTable (entries s'.mem) r' p = some t
  frame : Mmu.Frame L s s'

/-- Writing a page entry that the walk reaches. -/
theorem MmuInv.storeLeaf (h : MmuInv L roots s) {r t : ℕ} (virt : Word) (hr : r ∈ roots)
    (ht : walk nextTable (entries s.mem) r (tablePath virt) = some t) (d : Word) :
    LeafSet L roots s (s.store64 (entryAddr t (vaL3Index virt)) d) r virt d := by
  have htA : t ∈ s.tables L := h.forest.closed r hr (tablePath virt) le_rfl t ht
  have hta := htA.2.2
  have hb := h.table_bounds htA
  have hm : ∀ u ∈ s.tables L, ∀ j, u ≠ t ∨ j ≠ vaL3Index virt →
      entries (s.mem.store64 (entryAddr t (vaL3Index virt)) d) u j = entries s.mem u j :=
    fun u hu j hne => entries_store64_ne hta hu.2.2 hne
  refine ⟨⟨h.aligned, h.start_le, h.next_le, h.forest.setLeaf hr rfl ht hm, h.kernel⟩, ?_, ?_, ?_, ?_⟩
  · intro v hv
    obtain ⟨hpath, hidx⟩ := (pageNumber_eq_iff v virt).mp hv
    rw [leafEntry_eq, hpath, hidx, Mmu.mem_store64, h.forest.leaf_setLeaf_same hr rfl ht hm,
      entries_store64_same]
  · intro r' hr' v hne
    rw [leafEntry_eq, leafEntry_eq, Mmu.mem_store64]
    refine h.forest.leaf_setLeaf_ne hr rfl ht hm hr' rfl ?_
    rintro ⟨he, hpath, hidx⟩
    exact hne.elim (fun hc => hc he) (fun hc => hc ((pageNumber_eq_iff v virt).mpr ⟨hpath, hidx⟩))
  · intro r' hr' p hp u hu
    rw [Mmu.mem_store64, h.forest.walk_setLeaf hr rfl ht hm hr' hp]
    exact hu
  · refine ⟨rfl, rfl, rfl, rfl, rfl, ?_, le_rfl⟩
    intro x hx
    have := (vaL3Index virt).isLt
    simp only [pageSize] at hb
    rcases hx with hx | hx
    · exact Mem.store64_of_lt (by simp only [entryAddr]; omega)
    · exact Mem.store64_of_ge (by simp only [entryAddr]; omega)

/-- Growing changes no leaf entry. -/
theorem Created.leafEntry_eq {r u : ℕ} {p : List (Fin 512)} (h : Created L roots s s' r p u)
    {r' : ℕ} (hr' : r' ∈ roots) (virt : Word) :
    leafEntry s'.mem r' virt = leafEntry s.mem r' virt := by
  rw [AArch64Os.leafEntry_eq, AArch64Os.leafEntry_eq]
  exact h.grows.leaf r' hr' _ rfl _

theorem installPage_eq (L : Linker) (s : Mmu) (pgd : ℕ) (virt phys flags : Word) :
    installPage L s pgd virt phys flags =
      (getOrCreateTable L s pgd (vaL0Index virt)).bind fun x =>
      (getOrCreateTable L x.2 x.1 (vaL1Index virt)).bind fun y =>
      (getOrCreateTable L y.2 y.1 (vaL2Index virt)).bind fun z =>
        some (z.2.store64 (entryAddr z.1 (vaL3Index virt)) (pageDescriptor phys flags)) := by
  unfold installPage
  cases getOrCreateTable L s pgd (vaL0Index virt) with
  | none => rfl
  | some x =>
      simp only [Option.bind_some]
      cases getOrCreateTable L x.2 x.1 (vaL1Index virt) with
      | none => rfl
      | some y =>
          simp only [Option.bind_some]
          cases getOrCreateTable L y.2 y.1 (vaL2Index virt) <;> rfl

/-- The body of `map_page` and `mmu_map_user_page`. -/
theorem installPage_spec (h : MmuInv L roots s) {r : ℕ} {virt phys flags : Word} (hr : r ∈ roots)
    (he : installPage L s r virt phys flags = some s') :
    LeafSet L roots s s' r virt (pageDescriptor phys flags) ∧
    ∃ t, walk nextTable (entries s'.mem) r (tablePath virt) = some t := by
  unfold installPage at he
  split at he
  · cases he
  rename_i pud s₁ h₁
  split at he
  · cases he
  rename_i pmd s₂ h₂
  split at he
  · cases he
  rename_i pte s₃ h₃
  cases he
  have c₁ := getOrCreateTable_spec h hr (p := []) (by decide) rfl h₁
  have c₂ := getOrCreateTable_spec c₁.inv hr (by simp) c₁.walk h₂
  have c₃ := getOrCreateTable_spec c₂.inv hr (by simp) c₂.walk h₃
  have hset := c₃.inv.storeLeaf virt hr c₃.walk (pageDescriptor phys flags)
  refine ⟨⟨hset.inv, hset.same, ?_, ?_, c₁.frame.trans (c₂.frame.trans (c₃.frame.trans hset.frame))⟩,
    pte, hset.walk r hr _ le_rfl pte c₃.walk⟩
  · intro r' hr' v hne
    rw [hset.other r' hr' v hne, c₃.leafEntry_eq hr', c₂.leafEntry_eq hr', c₁.leafEntry_eq hr']
  · intro r' hr' p hp t ht
    exact hset.walk r' hr' p hp t (c₃.grows.walk r' hr' p hp t (c₂.grows.walk r' hr' p hp t
      (c₁.grows.walk r' hr' p hp t ht)))

/-- Nothing changed. -/
theorem LeafSet.refl (h : MmuInv L roots s) {r : ℕ} {virt d : Word}
    (hd : ∀ v, pageNumber v = pageNumber virt → leafEntry s.mem r v = d) :
    LeafSet L roots s s r virt d :=
  ⟨h, hd, fun _ _ _ _ => rfl, fun _ _ _ _ _ ht => ht, .refl L s⟩

/-- `unmap_page` makes the leaf invalid. -/
theorem unmapPage_spec (h : MmuInv L roots s) (hk : s.kernelPgd ≠ 0) (virt : Word) :
    LeafSet L roots s (unmapPage s virt) s.kernelPgd virt 0 := by
  have hr : s.kernelPgd ∈ roots := h.kernel.resolve_left hk
  unfold unmapPage
  rw [if_neg hk]
  split
  · rename_i hw
    apply LeafSet.refl h
    intro v hv
    rw [walkTables_eq, ← ((pageNumber_eq_iff v virt).mp hv).1, ← walkTables_eq] at hw
    rw [leafEntry, hw]
  · rename_i pte hw
    rw [walkTables_eq] at hw
    exact h.storeLeaf virt hr hw 0

/-- `mmu_get_physical` is the frame of the leaf entry with the offset of the address. -/
theorem mmuGetPhysical_eq (s : Mmu) {pgd : ℕ} (hp : pgd ≠ 0) (virt : Word) :
    mmuGetPhysical s pgd virt =
      if leafEntry s.mem pgd virt &&& pteValid = 0 then 0
      else (leafEntry s.mem pgd virt &&& pageMask) ||| (virt &&& ~~~pageMask) := by
  unfold mmuGetPhysical leafEntry
  rw [if_neg hp]
  cases walkTables s.mem pgd virt with
  | none =>
      have hz : (0 : Word) &&& pteValid = 0 := by decide
      exact (if_pos hz).symm
  | some pte => rfl

/-! ### Room

How many tables a call takes, counted over what is missing on the path of its page. -/

/-- 1 if no table is at path `p` below `r`, else 0. -/
def missing (m : Mem) (r : ℕ) (p : List (Fin 512)) : ℕ :=
  match walk nextTable (entries m) r p with
  | none => 1
  | some _ => 0

/-- The number of tables missing on the path of a page. -/
def tablesMissing (m : Mem) (r : ℕ) (virt : Word) : ℕ :=
  missing m r [vaL0Index virt] + missing m r [vaL0Index virt, vaL1Index virt] +
    missing m r (tablePath virt)

theorem missing_le (m : Mem) (r : ℕ) (p : List (Fin 512)) : missing m r p ≤ 1 := by
  unfold missing
  split <;> omega

theorem missing_of_walk {m : Mem} {r t : ℕ} {p : List (Fin 512)}
    (h : walk nextTable (entries m) r p = some t) : missing m r p = 0 := by
  unfold missing
  rw [h]

/-- Growing only shrinks what is missing. -/
theorem missing_mono {m m' : Mem} {r : ℕ} {p : List (Fin 512)}
    (h : ∀ t, walk nextTable (entries m) r p = some t → walk nextTable (entries m') r p = some t) :
    missing m' r p ≤ missing m r p := by
  cases hw : walk nextTable (entries m) r p with
  | none =>
      have : missing m r p = 1 := by rw [missing, hw]
      rw [this]
      exact missing_le m' r p
  | some t => rw [missing_of_walk hw, missing_of_walk (h t hw)]

theorem getOrCreateTable_room (h : MmuInv L roots s) {r t : ℕ} {p : List (Fin 512)} {i : Fin 512}
    (hr : r ∈ roots) (hp : p.length < 3) (ht : walk nextTable (entries s.mem) r p = some t)
    (hroom : s.next L + missing s.mem r (p ++ [i]) * pageSize ≤ L.pageTablesEnd) :
    ∃ u s', getOrCreateTable L s t i = some (u, s') ∧
      s'.next L ≤ s.next L + missing s.mem r (p ++ [i]) * pageSize := by
  cases hu : nextTable (entries s.mem t i) with
  | some u => exact ⟨u, s, getOrCreateTable_hit h hr hp ht hu, Nat.le_add_right _ _⟩
  | none =>
      have hw : walk nextTable (entries s.mem) r (p ++ [i]) = none := by
        rw [walk_concat, ht]
        exact hu
      have h1 : missing s.mem r (p ++ [i]) = 1 := by rw [missing, hw]
      rw [h1, Nat.one_mul] at hroom ⊢
      obtain ⟨⟨u, s₁⟩, ha⟩ :=
        Option.isSome_iff_exists.mp ((allocPageTable_isSome L s).mpr hroom)
      refine ⟨u, s₁.store64 (entryAddr t i) (tableDescriptor u), ?_, ?_⟩
      · rw [getOrCreateTable_miss L hu, ha]
        rfl
      · obtain ⟨hu', hnext, _⟩ := allocPageTable_spec h ha
        rw [Mmu.next_store64, hnext, hu']

/-- `map_page` returns when there is room for the missing tables. -/
theorem installPage_room (h : MmuInv L roots s) {r : ℕ} (hr : r ∈ roots) (virt phys flags : Word)
    (hroom : s.next L + tablesMissing s.mem r virt * pageSize ≤ L.pageTablesEnd) :
    ∃ s', installPage L s r virt phys flags = some s' ∧
      s'.next L ≤ s.next L + tablesMissing s.mem r virt * pageSize := by
  unfold tablesMissing at hroom ⊢
  simp only [Nat.add_mul] at hroom ⊢
  obtain ⟨pud, s₁, h₁, n₁⟩ := getOrCreateTable_room h hr (p := []) (i := vaL0Index virt) (by decide)
    rfl (by simp only [List.nil_append]; omega)
  have c₁ := getOrCreateTable_spec h hr (p := []) (by decide) rfl h₁
  have m₂ : missing s₁.mem r [vaL0Index virt, vaL1Index virt] ≤
      missing s.mem r [vaL0Index virt, vaL1Index virt] :=
    missing_mono (c₁.grows.walk r hr _ (by simp))
  have m₃ : missing s₁.mem r (tablePath virt) ≤ missing s.mem r (tablePath virt) :=
    missing_mono (c₁.grows.walk r hr _ le_rfl)
  have hm₂ := Nat.mul_le_mul_right pageSize m₂
  have hm₃ := Nat.mul_le_mul_right pageSize m₃
  simp only [List.nil_append] at n₁ c₁
  obtain ⟨pmd, s₂, h₂, n₂⟩ := getOrCreateTable_room c₁.inv hr (i := vaL1Index virt) (by simp)
    c₁.walk (by simp only [List.singleton_append]; omega)
  have c₂ := getOrCreateTable_spec c₁.inv hr (by simp) c₁.walk h₂
  simp only [List.singleton_append] at n₂ c₂
  have m₄ : missing s₂.mem r (tablePath virt) ≤ missing s₁.mem r (tablePath virt) :=
    missing_mono (c₂.grows.walk r hr _ le_rfl)
  have hm₄ := Nat.mul_le_mul_right pageSize m₄
  have hpath : [vaL0Index virt, vaL1Index virt] ++ [vaL2Index virt] = tablePath virt := rfl
  obtain ⟨pte, s₃, h₃, n₃⟩ := getOrCreateTable_room c₂.inv hr (i := vaL2Index virt) (by simp)
    c₂.walk (by rw [hpath]; omega)
  rw [hpath] at n₃
  refine ⟨s₃.store64 (entryAddr pte (vaL3Index virt)) (pageDescriptor phys flags), ?_, ?_⟩
  · simp only [installPage, h₁, h₂, h₃]
  · rw [Mmu.next_store64]
    omega

theorem tablesMissing_le (m : Mem) (r : ℕ) (virt : Word) : tablesMissing m r virt ≤ 3 := by
  have h1 := missing_le m r [vaL0Index virt]
  have h2 := missing_le m r [vaL0Index virt, vaL1Index virt]
  have h3 := missing_le m r (tablePath virt)
  unfold tablesMissing
  omega

/-- The tables on the path of a page serve the pages next to it. -/
theorem tablesMissing_of_walk {m : Mem} {r t : ℕ} {v : Word} (virt : Word)
    (h : walk nextTable (entries m) r (tablePath v) = some t) :
    (tablePath virt = tablePath v → tablesMissing m r virt = 0) ∧
    (vaL0Index virt = vaL0Index v → vaL1Index virt = vaL1Index v → tablesMissing m r virt ≤ 1) := by
  have hpath : tablePath v = [vaL0Index v, vaL1Index v] ++ [vaL2Index v] := rfl
  rw [hpath] at h
  obtain ⟨pmd, h₂, _⟩ := walk_concat_some.mp h
  have hpath' : [vaL0Index v, vaL1Index v] = [vaL0Index v] ++ [vaL1Index v] := rfl
  obtain ⟨pud, h₁, _⟩ := walk_concat_some.mp (hpath' ▸ h₂)
  rw [← hpath] at h
  constructor
  · intro he
    obtain ⟨e0, e1, _⟩ : vaL0Index virt = vaL0Index v ∧ vaL1Index virt = vaL1Index v ∧
        vaL2Index virt = vaL2Index v := by simpa [tablePath] using he
    rw [tablesMissing, he, e0, e1, missing_of_walk h₁, missing_of_walk h₂, missing_of_walk h]
  · intro e0 e1
    rw [tablesMissing, e0, e1, missing_of_walk h₁, missing_of_walk h₂]
    have := missing_le m r (tablePath virt)
    omega

end
end AArch64Os
