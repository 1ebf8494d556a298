import AArch64Os.MmuInit

/-! # The walk of the hardware

The translation-table walk of ARMv8-A with a 4 KB granule, under the registers that
`mmu_enable` and `mmu_switch_user_table` write.  `TCR_EL1` selects a 39-bit region, so the
hardware starts at level 1 with `VA[38:30]`, at the table that the C code builds and walks as
its level 0.  The hardware therefore looks one level above the page entries, and the two
walks meet only by accident (`hardware_walk_agrees_iff`). -/

namespace AArch64Os

open ByteMem Radix Relation

/-! ### The architecture -/

/-- `TCR_EL1.T0SZ` -/
def t0sz (tcr : Word) : ℕ := tcr.toNat % 64
/-- `TCR_EL1.T1SZ` -/
def t1sz (tcr : Word) : ℕ := tcr.toNat / 2 ^ 16 % 64

/-- The base register for an address and the width of its region: `TTBR0` when the bits above
the region are zero, `TTBR1` when they are one, else a fault. -/
def selectTtbr (s : Mmu) (va : Word) : Option (Word × ℕ) :=
  if va.toNat / 2 ^ (64 - t0sz s.tcr) = 0 then some (s.ttbr0, 64 - t0sz s.tcr)
  else if va.toNat / 2 ^ (64 - t1sz s.tcr) = 2 ^ t1sz s.tcr - 1 then
    some (s.ttbr1, 64 - t1sz s.tcr)
  else none

/-- The level at which the walk of a region starts: nine bits for each level. -/
def startLevel (width : ℕ) : ℕ := 4 - (width - 12 + 8) / 9

/-- The index at a level. -/
def hwIndex (width level : ℕ) (va : Word) : Fin 512 :=
  indexBits (va.toNat % 2 ^ width / 2 ^ (39 - 9 * level))

/-- The table address in a descriptor or a base register: bits 47:12. -/
def tableAddr (d : Word) : ℕ := d.toNat % 2 ^ 48 / 4096 * 4096

/-- The walk from a table on, with `rem` levels below it; the result is the address of the
descriptor that it ends in.  A descriptor with bit 0 clear faults; above level 3 one with bit 1
clear is a block, which level 0 does not have. -/
def hwWalk (m : Mem) (width : ℕ) (va : Word) : ℕ → ℕ → Option ℕ
  | 0, table =>
      let slot := entryAddr table (hwIndex width 3 va)
      let d := m.load64 slot
      if d &&& pteValid = 0 ∨ d &&& pteTable = 0 then none else some slot
  | rem + 1, table =>
      let slot := entryAddr table (hwIndex width (3 - (rem + 1)) va)
      let d := m.load64 slot
      if d &&& pteValid = 0 then none
      else if d &&& pteTable = 0 then if rem + 1 = 3 then none else some slot
      else hwWalk m width va rem (tableAddr d)

/-- The address of the leaf descriptor that the MMU uses for an address. -/
def hwLeaf (s : Mmu) (va : Word) : Option ℕ :=
  match selectTtbr s va with
  | none => none
  | some (ttbr, width) => hwWalk s.mem width va (3 - startLevel width) (tableAddr ttbr)

/-- The address of the leaf descriptor that the C code's walk reaches. -/
def swLeaf (s : Mmu) (root : ℕ) (va : Word) : Option ℕ :=
  (walkTables s.mem root va).map (fun pte => entryAddr pte (vaL3Index va))

/-- The address is mapped below the root. -/
def Mapped (s : Mmu) (root : ℕ) (va : Word) : Prop := leafEntry s.mem root va &&& pteValid ≠ 0

/-- Both walks end in the same descriptor. -/
def WalksAgree (s : Mmu) (root : ℕ) (va : Word) : Prop :=
  ∃ slot, hwLeaf s va = some slot ∧ swLeaf s root va = some slot

instance (s : Mmu) (root : ℕ) (va : Word) : Decidable (WalksAgree s root va) :=
  decidable_of_iff ((hwLeaf s va).isSome ∧ hwLeaf s va = swLeaf s root va) (by
    unfold WalksAgree
    cases hwLeaf s va with
    | none => simp
    | some slot => simp [eq_comm])

/-! ### Under the kernel's registers -/

theorem t0sz_tcrValue : t0sz tcrValue = 25 := by decide
theorem t1sz_tcrValue : t1sz tcrValue = 25 := by decide

/-- With `TxSZ` = 25 the walk starts at level 1. -/
theorem hwLeaf_eq {s : Mmu} (ht : s.tcr = tcrValue) (va : Word) :
    hwLeaf s va =
      if va.toNat / 2 ^ 39 = 0 then hwWalk s.mem 39 va 2 (tableAddr s.ttbr0)
      else if va.toNat / 2 ^ 39 = 2 ^ 25 - 1 then hwWalk s.mem 39 va 2 (tableAddr s.ttbr1)
      else none := by
  have hlevel : 3 - startLevel 39 = 2 := by decide
  unfold hwLeaf selectTtbr
  rw [ht, t0sz_tcrValue, t1sz_tcrValue]
  split_ifs with h1 h2
  · simp only [show 64 - 25 = 39 from rfl, hlevel]
  · simp only [show 64 - 25 = 39 from rfl, hlevel]
  · rfl

theorem hwIndex_eq (va : Word) : hwIndex 39 1 va = vaL1Index va ∧ hwIndex 39 2 va = vaL2Index va ∧
    hwIndex 39 3 va = vaL3Index va := by
  simp only [hwIndex, vaL1Index, vaL2Index, vaL3Index, indexBits, Fin.ext_iff]
  omega

/-- A descriptor that the hardware follows to a table. -/
def hwNext (d : Word) : Option ℕ :=
  if d &&& pteValid = 0 ∨ d &&& pteTable = 0 then none else some (tableAddr d)

theorem hwNext_of_bits {d : Word} (h1 : d &&& pteValid ≠ 0) (h2 : d &&& pteTable ≠ 0) :
    hwNext d = some (tableAddr d) := if_neg (not_or.mpr ⟨h1, h2⟩)

/-- One level above the last: the walk ends in a block, or goes on in the next table. -/
theorem hwWalk_succ_some {m : Mem} {width : ℕ} {va : Word} {rem table slot : ℕ} :
    hwWalk m width va (rem + 1) table = some slot →
    (slot = entryAddr table (hwIndex width (3 - (rem + 1)) va) ∧
      m.load64 slot &&& pteValid ≠ 0 ∧ m.load64 slot &&& pteTable = 0) ∨
    ∃ t, hwNext (m.load64 (entryAddr table (hwIndex width (3 - (rem + 1)) va))) = some t ∧
      hwWalk m width va rem t = some slot := by
  rw [hwWalk]
  generalize entryAddr table (hwIndex width (3 - (rem + 1)) va) = a
  intro h
  by_cases h1 : m.load64 a &&& pteValid = 0
  · rw [if_pos h1] at h
    cases h
  rw [if_neg h1] at h
  by_cases h2 : m.load64 a &&& pteTable = 0
  · rw [if_pos h2] at h
    split_ifs at h
    cases h
    exact .inl ⟨rfl, h1, h2⟩
  · rw [if_neg h2] at h
    exact .inr ⟨_, hwNext_of_bits h1 h2, h⟩

theorem hwWalk_succ_of_next {m : Mem} {width : ℕ} {va : Word} {k table t : ℕ}
    (h : hwNext (m.load64 (entryAddr table (hwIndex width (3 - (k + 1)) va))) = some t) :
    hwWalk m width va (k + 1) table = hwWalk m width va k t := by
  unfold hwNext at h
  split_ifs at h with hc
  obtain ⟨h1, h2⟩ := not_or.mp hc
  obtain rfl := Option.some.inj h
  rw [hwWalk]
  simp only [if_neg h1, if_neg h2]

theorem hwWalk_zero_iff {m : Mem} {width : ℕ} {va : Word} {table slot : ℕ} :
    hwWalk m width va 0 table = some slot ↔
      slot = entryAddr table (hwIndex width 3 va) ∧
      m.load64 slot &&& pteValid ≠ 0 ∧ m.load64 slot &&& pteTable ≠ 0 := by
  rw [hwWalk]
  generalize entryAddr table (hwIndex width 3 va) = a
  constructor
  · intro h
    split_ifs at h with hc
    cases h
    exact ⟨rfl, not_or.mp hc⟩
  · rintro ⟨rfl, hbits⟩
    exact if_neg (not_or.mpr hbits)

/-- The three outcomes of a walk that starts at level 1. -/
theorem hwWalk_cases {m : Mem} {va : Word} {base slot : ℕ} (h : hwWalk m 39 va 2 base = some slot) :
    (slot = entryAddr base (vaL1Index va) ∧
      m.load64 slot &&& pteValid ≠ 0 ∧ m.load64 slot &&& pteTable = 0) ∨
    (∃ t, hwNext (m.load64 (entryAddr base (vaL1Index va))) = some t ∧
      slot = entryAddr t (vaL2Index va) ∧
      m.load64 slot &&& pteValid ≠ 0 ∧ m.load64 slot &&& pteTable = 0) ∨
    ∃ t u, hwNext (m.load64 (entryAddr base (vaL1Index va))) = some t ∧
      hwNext (m.load64 (entryAddr t (vaL2Index va))) = some u ∧
      slot = entryAddr u (vaL3Index va) := by
  obtain ⟨i1, i2, i3⟩ := hwIndex_eq va
  rcases hwWalk_succ_some h with ⟨hs, hb⟩ | ⟨t, ht, h⟩
  · rw [i1] at hs
    exact .inl ⟨hs, hb⟩
  rw [i1] at ht
  rcases hwWalk_succ_some h with ⟨hs, hb⟩ | ⟨u, hu, h⟩
  · rw [i2] at hs
    exact .inr (.inl ⟨t, ht, hs, hb⟩)
  rw [i2] at hu
  obtain ⟨hs, _⟩ := hwWalk_zero_iff.mp h
  rw [i3] at hs
  exact .inr (.inr ⟨t, u, ht, hu, hs⟩)

/-- A walk through two tables to a page entry. -/
theorem hwWalk_of_next {m : Mem} {va : Word} {base t u : ℕ}
    (h1 : hwNext (m.load64 (entryAddr base (vaL1Index va))) = some t)
    (h2 : hwNext (m.load64 (entryAddr t (vaL2Index va))) = some u)
    (h3 : m.load64 (entryAddr u (vaL3Index va)) &&& pteValid ≠ 0)
    (h4 : m.load64 (entryAddr u (vaL3Index va)) &&& pteTable ≠ 0) :
    hwWalk m 39 va 2 base = some (entryAddr u (vaL3Index va)) := by
  obtain ⟨i1, i2, i3⟩ := hwIndex_eq va
  rw [← i1] at h1
  rw [← i2] at h2
  rw [hwWalk_succ_of_next (k := 1) h1, hwWalk_succ_of_next (k := 0) h2, hwWalk_zero_iff, i3]
  exact ⟨rfl, h3, h4⟩

/-! ### In the forest of tables -/

theorem tableAddr_ofNat {t : ℕ} (h : t % pageSize = 0) (hlt : t < 2 ^ 32) :
    tableAddr (BitVec.ofNat 64 t) = t := by
  rw [tableAddr, BitVec.toNat_ofNat]
  simp only [pageSize] at h
  omega

section
variable {L : Linker} {roots : Set ℕ} {s : Mmu}

/-- The hardware finds the table that a table descriptor of the forest links to. -/
theorem MmuInv.tableAddr_of_next (h : MmuInv L roots s) {d : Word} {t : ℕ} (ht : t ∈ s.tables L)
    (hd : nextTable d = some t) : tableAddr d = t := by
  have hb := (h.table_bounds ht).2
  have hend := L.end_le
  unfold nextTable at hd
  split_ifs at hd
  have hmask : d.toNat / 4096 * 4096 = t := (toNat_and_pageMask d).symm.trans (Option.some.inj hd)
  have hlt : t < 2 ^ 32 := by
    simp only [pageSize] at hb
    omega
  rw [tableAddr, Nat.mod_eq_of_lt (by omega)]
  exact hmask

/-- In a table of the forest that is not of full depth the hardware sees no block, and goes
where the C code goes. -/
theorem MmuInv.hwNext_eq (h : MmuInv L roots s) {r t : ℕ} {p : List (Fin 512)} (hr : r ∈ roots)
    (hp : p.length < 3) (ht : walk nextTable (entries s.mem) r p = some t) (i : Fin 512) :
    hwNext (s.mem.load64 (entryAddr t i)) = nextTable (entries s.mem t i) := by
  rcases h.forest.upper r hr p hp t ht i with hz | ⟨h1, h2⟩
  · have hz' : s.mem.load64 (entryAddr t i) = 0 := hz
    rw [hz', hz]
    decide
  · have hnext : nextTable (entries s.mem t i) = some (entries s.mem t i &&& pageMask).toNat :=
      if_neg h1
    have hu := h.forest.closed r hr (p ++ [i]) (by simp; omega) _
      (walk_concat_some.mpr ⟨t, ht, hnext⟩)
    rw [hnext, ← h.tableAddr_of_next hu hnext]
    exact hwNext_of_bits h1 h2

theorem MmuInv.not_block (h : MmuInv L roots s) {r t : ℕ} {p : List (Fin 512)} (hr : r ∈ roots)
    (hp : p.length < 3) (ht : walk nextTable (entries s.mem) r p = some t) {i : Fin 512}
    (h1 : s.mem.load64 (entryAddr t i) &&& pteValid ≠ 0)
    (h2 : s.mem.load64 (entryAddr t i) &&& pteTable = 0) : False := by
  rcases h.forest.upper r hr p hp t ht i with hz | ⟨_, h2'⟩
  · have hz' : s.mem.load64 (entryAddr t i) = 0 := hz
    rw [hz'] at h1
    exact h1 (by decide)
  · exact h2' h2

/-- From a root the hardware ends in an entry of a table of depth 2. -/
theorem MmuInv.hwWalk_root (h : MmuInv L roots s) {r slot : ℕ} {va : Word} (hr : r ∈ roots)
    (hw : hwWalk s.mem 39 va 2 r = some slot) :
    ∃ t, walk nextTable (entries s.mem) r [vaL1Index va, vaL2Index va] = some t ∧
      slot = entryAddr t (vaL3Index va) := by
  rcases hwWalk_cases hw with ⟨rfl, h1, h2⟩ | ⟨t, ht, rfl, h1, h2⟩ | ⟨t, u, ht, hu, rfl⟩
  · exact (h.not_block hr (p := []) (by decide) rfl h1 h2).elim
  · rw [h.hwNext_eq hr (p := []) (by decide) rfl] at ht
    have hwt := walk_concat_some.mpr ⟨r, (rfl : walk nextTable (entries s.mem) r [] = some r), ht⟩
    exact (h.not_block hr (by simp) hwt h1 h2).elim
  · rw [h.hwNext_eq hr (p := []) (by decide) rfl] at ht
    have hwt := walk_concat_some.mpr ⟨r, (rfl : walk nextTable (entries s.mem) r [] = some r), ht⟩
    rw [h.hwNext_eq hr (by simp) hwt] at hu
    exact ⟨u, walk_concat_some.mpr ⟨t, hwt, hu⟩, rfl⟩

theorem entryAddr_inj {t u : ℕ} {i j : Fin 512} (ht : t % pageSize = 0) (hu : u % pageSize = 0)
    (he : entryAddr t i = entryAddr u j) : t = u ∧ i = j := by
  by_contra hne
  have := entryAddr_disjoint (t := u) (u := t) (i := j) (j := i) hu ht (by tauto)
  omega

/-- The table of the C code's walk. -/
theorem swLeaf_some {root slot : ℕ} {va : Word} (h : swLeaf s root va = some slot) :
    ∃ t, walk nextTable (entries s.mem) root (tablePath va) = some t ∧
      slot = entryAddr t (vaL3Index va) := by
  obtain ⟨t, ht, rfl⟩ := Option.map_eq_some_iff.mp h
  rw [walkTables_eq] at ht
  exact ⟨t, ht, rfl⟩

/-- A hardware walk from a root never ends in the descriptor of a C walk: it is one table
short. -/
theorem MmuInv.walks_differ (h : MmuInv L roots s) {r root slot : ℕ} {va : Word} (hr : r ∈ roots)
    (hroot : root ∈ roots) (hw : hwWalk s.mem 39 va 2 r = some slot) : swLeaf s root va ≠ some slot := by
  intro hsw
  obtain ⟨t, ht, hslot⟩ := h.hwWalk_root hr hw
  obtain ⟨u, hu, hslot'⟩ := swLeaf_some hsw
  have hta := (h.forest.closed r hr _ (by simp) t ht).2.2
  have hua := (h.forest.closed root hroot _ le_rfl u hu).2.2
  obtain ⟨rfl, _⟩ := entryAddr_inj hta hua (hslot.symm.trans hslot')
  have hlen := congrArg List.length (h.forest.inj r hr root hroot _ _ (by simp) le_rfl t ht hu).2
  simp [tablePath] at hlen

end

/-! ### Runs -/

/-- The kernel after `mmu_init`: the calls on page tables, a change of the user table, and
anything that other code writes outside the page-table region. -/
inductive TableStep (L : Linker) : MmuRun → MmuRun → Prop
  | call {c : MmuCall} {r r' : MmuRun} (h : MmuStep L c r r') : TableStep L r r'
  | switchUserTable {s : Mmu} {σ : Spaces} {userPgd : ℕ} (hr : userPgd = 0 ∨ userPgd ∈ σ.roots) :
      TableStep L ⟨s, σ⟩ ⟨mmuSwitchUserTable s userPgd, σ⟩
  | destroyUserTable {s : Mmu} {σ : Spaces} (userPgd : ℕ) :
      TableStep L ⟨s, σ⟩ ⟨mmuDestroyUserTable s userPgd, σ⟩
  | write {s : Mmu} {σ : Spaces} {m : Mem}
      (h : ∀ x, L.pageTablesStart ≤ x → x < L.pageTablesEnd → m x = s.mem x) :
      TableStep L ⟨s, σ⟩ ⟨{ s with mem := m }, σ⟩

/-- Page entries are 0 or page descriptors. -/
def Spaces.PageEntries (σ : Spaces) : Prop :=
  ∀ r f, σ r = some f → ∀ page, f page = 0 ∨ f page &&& pteTable ≠ 0

theorem pageDescriptor_table (phys flags : Word) : pageDescriptor phys flags &&& pteTable ≠ 0 := by
  have h : pteTypePage &&& pteTable = 2#64 := by decide
  have h2 : (2#64 : Word) ≠ 0 := by decide
  rw [pageDescriptor, BitVec.and_or_distrib_right, h]
  intro hz
  exact h2 (BitVec.or_eq_zero_iff.mp hz).2

theorem Spaces.PageEntries.newRoot {σ : Spaces} (h : σ.PageEntries) (u : ℕ) :
    (σ.newRoot u).PageEntries := by
  intro r f hf page
  by_cases hr : r = u
  · rw [hr, Spaces.newRoot, Function.update_self] at hf
    cases hf
    exact .inl rfl
  · rw [Spaces.newRoot, Function.update_of_ne hr] at hf
    exact h r f hf page

theorem Spaces.PageEntries.set {σ : Spaces} (h : σ.PageEntries) {d : Word}
    (hd : d = 0 ∨ d &&& pteTable ≠ 0) (u : ℕ) (p : BitVec 36) : (σ.set u p d).PageEntries := by
  intro r f hf page
  by_cases hr : r = u
  · rw [hr, Spaces.set, Function.update_self] at hf
    obtain ⟨g, hg, rfl⟩ := Option.map_eq_some_iff.mp hf
    by_cases hp : page = p
    · rw [hp, Function.update_self]
      exact hd
    · rw [Function.update_of_ne hp]
      exact h u g hg page
  · rw [Spaces.set, Function.update_of_ne hr] at hf
    exact h r f hf page

theorem withRange_entry {f : BitVec 36 → Word} (h : ∀ page, f page = 0 ∨ f page &&& pteTable ≠ 0)
    (virt phys flags : Word) (n : ℕ) (page : BitVec 36) :
    withRange f virt phys flags n page = 0 ∨
      withRange f virt phys flags n page &&& pteTable ≠ 0 := by
  simp only [withRange]
  split_ifs
  · exact .inr (pageDescriptor_table _ _)
  · exact h page

theorem initSpaces_entries (L : Linker) : (initSpaces L).PageEntries := by
  intro r f hf page
  by_cases hr : r = L.pageTablesStart
  · rw [hr, initSpaces, Function.update_self] at hf
    cases hf
    exact withRange_entry (withRange_entry (withRange_entry (withRange_entry (fun _ => .inl rfl)
      _ _ _ _) _ _ _ _) _ _ _ _) _ _ _ _ page
  · rw [initSpaces, Function.update_of_ne hr] at hf
    cases hf

/-- The registers belong to the tables. -/
structure WalkInv (L : Linker) (r : MmuRun) : Prop where
  refines : Refines L r.mmu r.spaces
  kernel : r.mmu.kernelPgd ∈ r.spaces.roots
  tcr : r.mmu.tcr = tcrValue
  ttbr1 : r.mmu.ttbr1 = BitVec.ofNat 64 r.mmu.kernelPgd
  ttbr0 : r.mmu.ttbr0 = BitVec.ofNat 64 r.mmu.currentUserPgd
  user : r.mmu.currentUserPgd = 0 ∨ r.mmu.currentUserPgd ∈ r.spaces.roots
  entries : r.spaces.PageEntries

/-- `mmu_init` establishes it. -/
theorem MmuReady.walkInv {L : Linker} {s s' : Mmu} (h : MmuReady L s s' (initSpaces L)) :
    WalkInv L ⟨s', initSpaces L⟩ where
  refines := h.refines
  kernel := by
    show s'.kernelPgd ∈ (initSpaces L).roots
    rw [h.roots]
    exact rfl
  tcr := h.tcr
  ttbr1 := h.ttbr1
  ttbr0 := by rw [h.ttbr0, h.currentUserPgd]; rfl
  user := .inl h.currentUserPgd
  entries := initSpaces_entries L

/-- A call leaves the registers alone and keeps the roots. -/
theorem MmuStep.frame {L : Linker} {c : MmuCall} {r r' : MmuRun} (h : Refines L r.mmu r.spaces)
    (hk : r.mmu.kernelPgd ≠ 0) (hs : MmuStep L c r r') :
    Mmu.Frame L r.mmu r'.mmu ∧ r.spaces.roots ⊆ r'.spaces.roots ∧
      (r.spaces.PageEntries → r'.spaces.PageEntries) := by
  have hroot := h.inv.kernel.resolve_left hk
  cases hs with
  | createKernelTable h0 he => exact absurd h0 hk
  | createUserTable he =>
      refine ⟨(allocPageTable_spec h.inv he).2.2.2.2.2.2.2, ?_, fun hp => hp.newRoot _⟩
      show _ ⊆ Spaces.roots (Spaces.newRoot _ _)
      rw [Spaces.roots_newRoot]
      exact Set.subset_insert _ _
  | mapPage he =>
      rw [mapPage_eq_install hk] at he
      exact ⟨(installPage_spec h.inv hroot he).1.frame, (Spaces.roots_set _ _ _ _).ge,
        fun hp => hp.set (.inr (pageDescriptor_table _ _)) _ _⟩
  | unmapPage virt =>
      exact ⟨(unmapPage_spec h.inv hk virt).frame, (Spaces.roots_set _ _ _ _).ge,
        fun hp => hp.set (.inl rfl) _ _⟩
  | mapUserPage hr he =>
      rename_i s s' σ userPgd virt phys flags
      by_cases hv : virt.toNat < userVaSize
      · simp only [MmuCall.target, if_pos hv, Spaces.apply]
        refine ⟨?_, (Spaces.roots_set _ _ _ _).ge,
          fun hp => hp.set (.inr (pageDescriptor_table _ _)) _ _⟩
        unfold mmuMapUserPage at he
        rw [if_neg (not_le.mpr hv)] at he
        split_ifs at he with h0
        · cases he
          exact .refl L _
        · exact (installPage_spec h.inv (hr.resolve_left h0) he).1.frame
      · rw [mmuMapUserPage_outside L s userPgd (not_lt.mp hv)] at he
        cases he
        simp only [MmuCall.target, if_neg hv, Spaces.apply]
        exact ⟨.refl L _, subset_rfl, id⟩

theorem Refines.congr {L : Linker} {s s' : Mmu} {σ : Spaces} (h : Refines L s σ)
    (hk : s'.kernelPgd = s.kernelPgd) (hn : s'.next L = s.next L)
    (hm : ∀ x, L.pageTablesStart ≤ x → x < L.pageTablesEnd → s'.mem x = s.mem x) :
    Refines L s' σ := by
  have htab : s'.tables L = s.tables L := by
    unfold Mmu.tables
    rw [hn]
  have hent : ∀ t ∈ s.tables L, ∀ j, entries s'.mem t j = entries s.mem t j := by
    intro t ht j
    have hb := h.inv.table_bounds ht
    have := j.isLt
    simp only [pageSize] at hb
    exact Mem.load64_congr (fun x h1 h2 => hm x (by simp only [entryAddr] at h1; omega)
      (by simp only [entryAddr] at h2; omega))
  refine ⟨⟨by rw [hn]; exact h.inv.aligned, by rw [hn]; exact h.inv.start_le,
    by rw [hn]; exact h.inv.next_le, by rw [htab]; exact h.inv.forest.congr hent,
    by rw [hk]; exact h.inv.kernel⟩, ?_⟩
  intro r f hf virt
  rw [← h.leaf r f hf virt, leafEntry_eq, leafEntry_eq]
  exact h.inv.forest.leaf_congr hent (Spaces.mem_roots hf) rfl _

/-- Every step keeps it. -/
theorem TableStep.walkInv {L : Linker} {r r' : MmuRun} (h : WalkInv L r) (hs : TableStep L r r') :
    WalkInv L r' := by
  have hk : r.mmu.kernelPgd ≠ 0 := h.refines.inv.root_ne_zero h.kernel
  cases hs with
  | call hc =>
      obtain ⟨hf, hsub, hp⟩ := hc.frame h.refines hk
      refine ⟨hc.refines h.refines, ?_, ?_, ?_, ?_, ?_, hp h.entries⟩
      · rw [hf.kernelPgd]
        exact hsub h.kernel
      · rw [hf.tcr]
        exact h.tcr
      · rw [hf.ttbr1, hf.kernelPgd]
        exact h.ttbr1
      · rw [hf.ttbr0, hf.currentUserPgd]
        exact h.ttbr0
      · rw [hf.currentUserPgd]
        exact h.user.imp id (fun hu => hsub hu)
  | switchUserTable hr =>
      unfold mmuSwitchUserTable
      split_ifs with hc
      · exact h
      · exact ⟨h.refines.congr rfl rfl (fun _ _ _ => rfl), h.kernel, h.tcr, h.ttbr1, rfl, hr,
          h.entries⟩
  | destroyUserTable userPgd =>
      unfold mmuDestroyUserTable
      split_ifs with hc
      · exact ⟨h.refines.congr rfl rfl (fun _ _ _ => rfl), h.kernel, h.tcr, h.ttbr1, rfl, .inl rfl,
          h.entries⟩
      · exact h
  | write hm =>
      exact ⟨h.refines.congr rfl rfl hm, h.kernel, h.tcr, h.ttbr1, h.ttbr0, h.user, h.entries⟩

/-! ### When the walks agree -/

/-- No user table is active, the address is below 512 GB, and the word at its `VA[38:30]` in the
page at physical address 0, which is not memory of this kernel, happens to lead by `VA[29:21]`
to the last table of the C code's walk. -/
def StrayLink (s : Mmu) (va : Word) : Prop :=
  va.toNat < 2 ^ 39 ∧ s.ttbr0 = 0 ∧
  ∃ t u, hwNext (s.mem.load64 (entryAddr 0 (vaL1Index va))) = some t ∧
    hwNext (s.mem.load64 (entryAddr t (vaL2Index va))) = some u ∧
    walkTables s.mem s.kernelPgd va = some u

/-- A mapped page has a page descriptor. -/
theorem WalkInv.leaf_bits {L : Linker} {r : MmuRun} (h : WalkInv L r) {root t : ℕ} {va : Word}
    (hroot : root ∈ r.spaces.roots) (hm : Mapped r.mmu root va)
    (ht : walkTables r.mmu.mem root va = some t) :
    r.mmu.mem.load64 (entryAddr t (vaL3Index va)) &&& pteValid ≠ 0 ∧
    r.mmu.mem.load64 (entryAddr t (vaL3Index va)) &&& pteTable ≠ 0 := by
  obtain ⟨f, hf⟩ := Option.isSome_iff_exists.mp hroot
  have hleaf : leafEntry r.mmu.mem root va = r.mmu.mem.load64 (entryAddr t (vaL3Index va)) := by
    rw [leafEntry, ht]
  unfold Mapped at hm
  rw [hleaf] at hm
  refine ⟨hm, ?_⟩
  rw [← hleaf, h.refines.leaf root f hf va]
  refine (h.entries root f hf (pageNumber va)).resolve_left ?_
  intro hz
  rw [← h.refines.leaf root f hf va, hleaf] at hz
  rw [hz] at hm
  exact hm (by decide)

/-- A walk that starts at a root does not agree with the C code's walk from any root. -/
theorem WalkInv.root_disagrees {L : Linker} {r : MmuRun} (h : WalkInv L r) {base root : ℕ}
    {va : Word} (hbase : base ∈ r.spaces.roots) (hroot : root ∈ r.spaces.roots) {slot : ℕ}
    (hw : hwWalk r.mmu.mem 39 va 2 (tableAddr (BitVec.ofNat 64 base)) = some slot) :
    swLeaf r.mmu root va ≠ some slot := by
  have hb := (h.refines.inv.root_bounds hbase).2
  have hend := L.end_le
  have hal := (h.refines.inv.forest.root_mem hbase).2.2
  have hlt : base < 2 ^ 32 := by
    simp only [pageSize] at hb
    omega
  rw [tableAddr_ofNat hal hlt] at hw
  exact h.refines.inv.walks_differ hbase hroot hw

/-- An agreement needs the walk from physical address 0. -/
theorem WalkInv.agree_cases {L : Linker} {r : MmuRun} (h : WalkInv L r) {root : ℕ} {va : Word}
    (hroot : root ∈ r.spaces.roots) (ha : WalksAgree r.mmu root va) :
    va.toNat < 2 ^ 39 ∧ r.mmu.currentUserPgd = 0 ∧
    ∃ slot, hwWalk r.mmu.mem 39 va 2 0 = some slot ∧ swLeaf r.mmu root va = some slot := by
  obtain ⟨slot, hhw, hsw⟩ := ha
  rw [hwLeaf_eq h.tcr, h.ttbr0, h.ttbr1] at hhw
  split_ifs at hhw with h1 h2
  · rcases h.user with hu | hu
    · rw [hu] at hhw
      exact ⟨by omega, hu, slot, hhw, hsw⟩
    · exact absurd hsw (h.root_disagrees hu hroot hhw)
  · exact absurd hsw (h.root_disagrees h.kernel hroot hhw)

theorem WalkInv.kernel_agree_iff {L : Linker} {r : MmuRun} (h : WalkInv L r) {va : Word}
    (hm : Mapped r.mmu r.mmu.kernelPgd va) :
    WalksAgree r.mmu r.mmu.kernelPgd va ↔ StrayLink r.mmu va := by
  constructor
  · intro ha
    obtain ⟨hva, hu, slot, hhw, hsw⟩ := h.agree_cases h.kernel ha
    obtain ⟨t, ht, hslot⟩ := Option.map_eq_some_iff.mp hsw
    obtain ⟨_, hbits⟩ := h.leaf_bits h.kernel hm ht
    have htA := h.refines.inv.forest.closed _ h.kernel _ le_rfl t (by rw [← walkTables_eq]; exact ht)
    have htb := (h.refines.inv.table_bounds htA).1
    have hstart := L.taskPool_le
    have hpool := L.taskPool_ge
    have hbase : 4096 ≤ kernelBase := by decide
    refine ⟨hva, by rw [h.ttbr0, hu]; rfl, ?_⟩
    rcases hwWalk_cases hhw with ⟨he, _, _⟩ | ⟨_, _, _, _, hb⟩ | ⟨t₂, u, h1, h2, he⟩
    · have hi := (vaL1Index va).isLt
      simp only [entryAddr] at hslot he
      omega
    · rw [← hslot] at hb
      exact absurd hb hbits
    · have hut : u = t := by
        have := hslot.trans he
        simp only [entryAddr] at this
        omega
      exact ⟨t₂, u, h1, h2, by rw [hut]; exact ht⟩
  · rintro ⟨hva, h0, t, u, h1, h2, hu⟩
    obtain ⟨hv, hp⟩ := h.leaf_bits h.kernel hm hu
    refine ⟨entryAddr u (vaL3Index va), ?_, by rw [swLeaf, hu]; rfl⟩
    rw [hwLeaf_eq h.tcr, if_pos (by omega), h0]
    exact hwWalk_of_next h1 h2 hv hp

/-- A user table that is active is never walked as the C code walks it. -/
theorem WalkInv.user_disagrees {L : Linker} {r : MmuRun} (h : WalkInv L r)
    (hu : r.mmu.currentUserPgd ≠ 0) (va : Word) :
    ¬ WalksAgree r.mmu r.mmu.currentUserPgd va := by
  intro ha
  exact hu (h.agree_cases (h.user.resolve_left hu) ha).2.1

/-- **When the hardware walk ends where the C walk ends**, in every state after `mmu_init`: for
an address of the kernel table iff `StrayLink` holds, for an address of the active user table
never. -/
theorem hardware_walk_agrees_iff (L : Linker) (s : Mmu) {s₀ : Mmu}
    (h₀ : mmuInit L s.boot = some s₀) {r : MmuRun}
    (h : ReflTransGen (TableStep L) ⟨s₀, initSpaces L⟩ r) :
    (∀ va, Mapped r.mmu r.mmu.kernelPgd va →
      (WalksAgree r.mmu r.mmu.kernelPgd va ↔ StrayLink r.mmu va)) ∧
    (∀ va, r.mmu.currentUserPgd ≠ 0 → Mapped r.mmu r.mmu.currentUserPgd va →
      ¬ WalksAgree r.mmu r.mmu.currentUserPgd va) := by
  obtain ⟨s', he, hready⟩ := mmuInit_total L s
  rw [h₀] at he
  cases he
  have hi := Runs.run_invariant hready.walkInv (fun _ _ hi hs => hs.walkInv hi) h
  exact ⟨fun va hm => hi.kernel_agree_iff hm, fun va hu _ => hi.user_disagrees hu va⟩

/-- The equivalence right after `mmu_init`. -/
theorem hardware_walk_agrees_iff_after_init : ∃ s₀, mmuInit default bssMmu.boot = some s₀ ∧
    ∀ va, Mapped s₀ s₀.kernelPgd va → (WalksAgree s₀ s₀.kernelPgd va ↔ StrayLink s₀ va) := by
  obtain ⟨s₀, he, _⟩ := mmuInit_total default bssMmu
  exact ⟨s₀, he, (hardware_walk_agrees_iff default bssMmu he .refl).1⟩

/-- The UART is mapped, and the hardware faults on its address. -/
theorem hardware_walk_uart_faults : ∃ s₀, mmuInit default bssMmu.boot = some s₀ ∧
    Mapped s₀ s₀.kernelPgd (BitVec.ofNat 64 uart0Base) ∧
    hwLeaf s₀ (BitVec.ofNat 64 uart0Base) = none ∧
    ¬ WalksAgree s₀ s₀.kernelPgd (BitVec.ofNat 64 uart0Base) := by
  obtain ⟨s₀, he, hready⟩ := mmuInit_total default bssMmu
  have hspace : kernelSpace (pageNumber (BitVec.ofNat 64 uart0Base)) &&& pteValid ≠ 0 := by decide
  have hhw : hwLeaf s₀ (BitVec.ofNat 64 uart0Base) = none := by
    have hva : (BitVec.ofNat 64 uart0Base).toNat / 2 ^ 39 = 0 := by decide
    have hzero : s₀.mem.load64 (entryAddr 0 (hwIndex 39 1 (BitVec.ofNat 64 uart0Base))) = 0 := by
      have hlow : (4096 : ℕ) ≤ (default : Linker).pageTablesStart := by decide
      have hb : bssMmu.boot.mem.load64 (entryAddr 0 (hwIndex 39 1 (BitVec.ofNat 64 uart0Base))) = 0 := by
        decide
      rw [← hb]
      refine Mem.load64_congr (fun x _ hx => hready.mem x (.inl ?_))
      have hi := (hwIndex 39 1 (BitVec.ofNat 64 uart0Base)).isLt
      simp only [entryAddr] at hx
      omega
    have hbase : tableAddr (0 : Word) = 0 := by decide
    rw [hwLeaf_eq hready.tcr, if_pos hva, hready.ttbr0, hbase, hwWalk]
    simp only [show 3 - (1 + 1) = 1 from rfl, hzero]
    exact if_pos (by decide)
  refine ⟨s₀, he, ?_, hhw, ?_⟩
  · unfold Mapped
    rw [hready.refines.leaf _ _ hready.space]
    exact hspace
  · rintro ⟨slot, hslot, _⟩
    rw [hhw] at hslot
    cases hslot

end AArch64Os
