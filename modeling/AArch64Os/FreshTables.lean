import AArch64Os.TaskSlots
import AArch64Os.UserSpace

/-! # Fresh tables

`task_create_user` builds the page table of a task from tables that `alloc_page_table` has just
cleared.  So what it builds depends on where the next table is and on nothing else in memory:
the same calls in a memory of zeros give the same tables (`buildUserTable_shadow`), whatever a
program or a copy has done to the older tables. -/

namespace AArch64Os

open Radix ByteMem Runs

/-- The position of the next table. -/
structure NextOk (L : Linker) (s : Mmu) : Prop where
  aligned : s.next L % pageSize = 0
  start_le : L.pageTablesStart ≤ s.next L
  next_le : s.next L ≤ L.pageTablesEnd

theorem MmuInv.nextOk {L : Linker} {roots : Set ℕ} {s : Mmu} (h : MmuInv L roots s) : NextOk L s :=
  ⟨h.aligned, h.start_le, h.next_le⟩

theorem Mmu.next_congr {L : Linker} {s s' : Mmu} (h : s'.nextPageTable = s.nextPageTable) :
    s'.next L = s.next L := by
  unfold Mmu.next
  rw [h]

theorem NextOk.congr {L : Linker} {s s' : Mmu} (h : NextOk L s)
    (hn : s'.nextPageTable = s.nextPageTable) : NextOk L s' := by
  have hn' : s'.next L = s.next L := Mmu.next_congr hn
  exact ⟨hn' ▸ h.aligned, hn' ▸ h.start_le, hn' ▸ h.next_le⟩

/-- The same table allocator over a memory of zeros. -/
def Mmu.blank (s : Mmu) : Mmu := { bssMmu with nextPageTable := s.nextPageTable }

/-- The spaces of a memory of zeros: each table is an empty root. -/
def blankSpaces (L : Linker) (s : Mmu) : Spaces :=
  fun t => if L.pageTablesStart ≤ t ∧ t < s.next L ∧ t % pageSize = 0 then some (fun _ => 0) else none

/-- `s₀` has the new tables of `s`, those from `n₀` on; outside the region of the tables `s` has the memory
`base`. -/
structure Shadows (L : Linker) (base : Mem) (n₀ : ℕ) (s s₀ : Mmu) : Prop where
  nextPageTable : s₀.nextPageTable = s.nextPageTable
  fresh : ∀ x, n₀ ≤ x → x < s.next L → s₀.mem x = s.mem x
  outside : ∀ x, x < L.pageTablesStart ∨ L.pageTablesEnd ≤ x → s.mem x = base x

section
variable {L : Linker} {base : Mem} {n₀ : ℕ} {s s₀ : Mmu}

theorem blank_refines (h : NextOk L s) : Refines L s.blank (blankSpaces L s) := by
  have hnext : s.blank.next L = s.next L := Mmu.next_congr rfl
  have hroots : (blankSpaces L s).roots = s.blank.tables L := by
    ext t
    show (blankSpaces L s t).isSome ↔ L.pageTablesStart ≤ t ∧ t < s.blank.next L ∧ t % pageSize = 0
    unfold blankSpaces
    rw [hnext, Option.isSome_ite]
  have hentries : ∀ t j, entries s.blank.mem t j = 0 := by
    intro t j
    have hzero : Mem.readLE (fun _ => 0) (entryAddr t j) 8 = 0 := Mem.readLE_zero (fun _ _ _ => rfl)
    show Mem.load64 (fun _ => 0) (entryAddr t j) = 0
    rw [Mem.load64, hzero]
    rfl
  have hwalk : ∀ r p t, walk nextTable (entries s.blank.mem) r p = some t → t = r ∧ p = [] := by
    intro r p t ht
    cases p with
    | nil => exact ⟨(Option.some.inj ht).symm, rfl⟩
    | cons i p =>
        rw [walk, hentries, nextTable_zero] at ht
        cases ht
  refine ⟨⟨hnext ▸ h.aligned, hnext ▸ h.start_le, hnext ▸ h.next_le, ?_, .inl rfl⟩, ?_⟩
  · rw [hroots]
    refine ⟨?_, ?_, ?_, ?_⟩
    · intro r hr p hp t ht
      rwa [(hwalk r p t ht).1]
    · intro r _ r' _ p p' _ _ t ht ht'
      obtain ⟨rfl, rfl⟩ := hwalk r p t ht
      obtain ⟨rfl, rfl⟩ := hwalk r' p' t ht'
      exact ⟨rfl, rfl⟩
    · intro t ht
      exact ⟨t, ht, [], Nat.zero_le _, rfl⟩
    · intro r _ p _ t _ j
      rw [hentries]
      exact .inl rfl
  · intro r f hf virt
    unfold blankSpaces at hf
    split_ifs at hf
    cases hf
    rw [leafEntry_eq]
    apply leaf_of_none
    show walk nextTable _ r (_ :: _) = none
    rw [walk, hentries, nextTable_zero]

/-- `alloc_page_table`. -/
theorem Shadows.alloc (h : Shadows L base n₀ s s₀) (hn : NextOk L s) :
    Option.Rel (fun a b => a.1 = b.1 ∧ Shadows L base n₀ a.2 b.2) (allocPageTable L s)
      (allocPageTable L s₀) := by
  have hnext : s₀.next L = s.next L := Mmu.next_congr h.nextPageTable
  have hpos := L.start_pos
  have hstart := hn.start_le
  rw [allocPageTable_eq, allocPageTable_eq, hnext]
  split_ifs with hc
  · exact .none
  refine .some ⟨rfl, rfl, ?_, ?_⟩
  · intro x h1 h2
    have h2' : x < s.next L + pageSize := by
      rwa [Mmu.next, if_neg (by show s.next L + pageSize ≠ 0; omega)] at h2
    show Mem.fill s₀.mem _ _ _ x = Mem.fill s.mem _ _ _ x
    rw [Mem.fill_apply, Mem.fill_apply]
    split_ifs with hx
    · rfl
    · exact h.fresh x h1 (by omega)
  · intro x hx
    show Mem.fill s.mem _ _ _ x = base x
    rw [Mem.fill_apply, if_neg (by omega)]
    exact h.outside x hx

/-- A store to a table. -/
theorem Shadows.store64 (h : Shadows L base n₀ s s₀) {t : ℕ} (ht : L.pageTablesStart ≤ t)
    (ht' : t + pageSize ≤ L.pageTablesEnd) (i : Fin 512) (w : Word) :
    Shadows L base n₀ (s.store64 (entryAddr t i) w) (s₀.store64 (entryAddr t i) w) := by
  refine ⟨h.nextPageTable, ?_, ?_⟩
  · intro x h1 h2
    show Mem.writeLE s₀.mem _ _ _ x = Mem.writeLE s.mem _ _ _ x
    unfold Mem.writeLE
    split_ifs
    · rfl
    · exact h.fresh x h1 h2
  · intro x hx
    have hi := i.isLt
    simp only [pageSize] at ht'
    rw [← h.outside x hx, Mmu.mem_store64]
    rcases hx with hx | hx
    · exact Mem.store64_of_lt (by simp only [entryAddr]; omega)
    · exact Mem.store64_of_ge (by simp only [entryAddr]; omega)

/-- The older tables are roots of their own in the memory of zeros. -/
def OldRoots (L : Linker) (n₀ : ℕ) (roots : Set ℕ) : Prop :=
  ∀ t, L.pageTablesStart ≤ t → t < n₀ → t % pageSize = 0 → t ∈ roots

section
variable {roots : Set ℕ}

/-- A walk from a new root goes through new tables. -/
theorem OldRoots.walk_fresh (hold : OldRoots L n₀ roots) (hinv : MmuInv L roots s₀) {r t : ℕ}
    {p : List (Fin 512)} (hr : r ∈ roots) (hr₀ : n₀ ≤ r) (hp : p.length ≤ 3)
    (ht : walk nextTable (entries s₀.mem) r p = some t) : n₀ ≤ t := by
  obtain ⟨h1, -, h3⟩ := hinv.forest.closed r hr p hp t ht
  by_contra hlt
  have htr : t ∈ roots := hold t h1 (not_le.mp hlt) h3
  obtain ⟨rfl, -⟩ := hinv.forest.inj r hr t htr p [] hp (Nat.zero_le _) t ht rfl
  exact hlt hr₀

theorem Shadows.entries_eq (h : Shadows L base n₀ s s₀) (hinv : MmuInv L roots s₀) {t : ℕ}
    (ht : t ∈ s₀.tables L) (ht₀ : n₀ ≤ t) (j : Fin 512) : entries s₀.mem t j = entries s.mem t j := by
  have hnext : s₀.next L = s.next L := Mmu.next_congr h.nextPageTable
  have hal := hinv.aligned
  have hj := j.isLt
  obtain ⟨-, h2, h3⟩ := ht
  rw [hnext] at h2 hal
  apply Mem.load64_congr
  intro x hx1 hx2
  apply h.fresh
  · simp only [entryAddr] at hx1
    omega
  · simp only [entryAddr, pageSize] at *
    omega

/-- `get_or_create_table` at a new table. -/
theorem Shadows.getOrCreateTable (h : Shadows L base n₀ s s₀) (hold : OldRoots L n₀ roots)
    (hinv : MmuInv L roots s₀) {r t : ℕ} {p : List (Fin 512)} (hr : r ∈ roots) (hr₀ : n₀ ≤ r)
    (hp : p.length ≤ 3) (ht : walk nextTable (entries s₀.mem) r p = some t) (i : Fin 512) :
    Option.Rel (fun a b => a.1 = b.1 ∧ Shadows L base n₀ a.2 b.2) (getOrCreateTable L s t i)
      (getOrCreateTable L s₀ t i) := by
  have htab := hinv.forest.closed r hr p hp t ht
  obtain ⟨hlo, hhi⟩ := hinv.table_bounds htab
  have hentry : s₀.mem.load64 (entryAddr t i) = s.mem.load64 (entryAddr t i) :=
    h.entries_eq hinv htab (hold.walk_fresh hinv hr hr₀ hp ht) i
  have halloc := h.alloc (hinv.nextOk.congr h.nextPageTable.symm)
  unfold AArch64Os.getOrCreateTable
  simp only [hentry]
  split_ifs
  · exact .some ⟨rfl, h⟩
  · generalize allocPageTable L s = a at halloc
    generalize allocPageTable L s₀ = b at halloc
    cases halloc with
    | none => exact .none
    | @some a b hab =>
        obtain ⟨u, s₁⟩ := a
        obtain ⟨v, s₂⟩ := b
        obtain ⟨rfl, hs⟩ := hab
        exact .some ⟨rfl, hs.store64 hlo hhi i _⟩

/-- A page below a new root. -/
theorem Shadows.installPage (h : Shadows L base n₀ s s₀) (hold : OldRoots L n₀ roots)
    (hinv : MmuInv L roots s₀) {r : ℕ} (hr : r ∈ roots) (hr₀ : n₀ ≤ r) (virt phys flags : Word) :
    Option.Rel (Shadows L base n₀) (installPage L s r virt phys flags)
      (installPage L s₀ r virt phys flags) := by
  rw [installPage_eq, installPage_eq]
  have h₁ := h.getOrCreateTable hold hinv hr hr₀ (p := []) (by decide) rfl (vaL0Index virt)
  refine rel_bind h₁ ?_
  rintro ⟨pud, s₁⟩ ⟨_, t₁⟩ he₁ ⟨rfl, hs₁⟩
  have c₁ := getOrCreateTable_spec hinv hr (p := []) (by decide) rfl he₁
  have h₂ := hs₁.getOrCreateTable hold c₁.inv hr hr₀ (by simp) c₁.walk (vaL1Index virt)
  refine rel_bind h₂ ?_
  rintro ⟨pmd, s₂⟩ ⟨_, t₂⟩ he₂ ⟨rfl, hs₂⟩
  have c₂ := getOrCreateTable_spec c₁.inv hr (by simp) c₁.walk he₂
  have h₃ := hs₂.getOrCreateTable hold c₂.inv hr hr₀ (by simp) c₂.walk (vaL2Index virt)
  refine rel_bind h₃ ?_
  rintro ⟨pte, s₃⟩ ⟨_, t₃⟩ he₃ ⟨rfl, hs₃⟩
  have c₃ := getOrCreateTable_spec c₂.inv hr (by simp) c₂.walk he₃
  obtain ⟨hlo, hhi⟩ := c₃.inv.table_bounds (c₃.inv.forest.closed r hr _ (by simp) _ c₃.walk)
  exact .some (hs₃.store64 hlo hhi _ _)

end

/-! ### The table of a user task -/

theorem Shadows.blank (L : Linker) (s : Mmu) : Shadows L s.mem (s.next L) s s.blank :=
  ⟨rfl, fun _ h1 h2 => absurd h2 (not_lt.mpr h1), fun _ _ => rfl⟩

theorem buildUserTable_eq (L : Linker) (s : Mmu) (progPhys : ℕ) (size : Word) (stackPhys : ℕ) :
    buildUserTable L s progPhys size stackPhys =
      (mmuCreateUserTable L s).bind fun x => if x.1 = 0 then some x else
      (mmuMapUserRange L x.2 x.1 userProgBase (BitVec.ofNat 64 progPhys) size pageUserRx).bind fun s =>
      (mmuMapUserPage L s x.1 userStackBase (BitVec.ofNat 64 stackPhys) pageUserRw).bind fun s =>
        some (x.1, s) := by
  unfold buildUserTable
  cases mmuCreateUserTable L s with
  | none => rfl
  | some x =>
      simp only [Option.bind_some]
      split_ifs
      · rfl
      · cases mmuMapUserRange L x.2 x.1 userProgBase (BitVec.ofNat 64 progPhys) size pageUserRx with
        | none => rfl
        | some s =>
            simp only [Option.bind_some]
            cases mmuMapUserPage L s x.1 userStackBase (BitVec.ofNat 64 stackPhys) pageUserRw <;> rfl

/-- The new root comes after the older tables. -/
theorem OldRoots.newRoot {u : ℕ} (hu : u = s.next L) :
    OldRoots L (s.next L) ((blankSpaces L s).newRoot u).roots ∧
      u ∈ ((blankSpaces L s).newRoot u).roots ∧ s.next L ≤ u := by
  rw [Spaces.roots_newRoot]
  refine ⟨fun t h1 h2 h3 => ?_, Set.mem_insert u _, hu.ge⟩
  exact Set.mem_insert_of_mem u (Spaces.mem_roots (if_pos ⟨h1, h2, h3⟩))

/-- **The table that `task_create_user` builds** is the one that it builds in a memory of zeros. -/
theorem buildUserTable_shadow (hn : NextOk L s) {progPhys n : ℕ} (stackPhys : ℕ) {size : Word}
    (hp : progPhys % pageSize = 0) (hp' : progPhys < 2 ^ 48) (hs : size.toNat = pageSize * n)
    (hn8 : n ≤ 8) :
    Option.Rel (fun a b => a.1 = b.1 ∧ Shadows L s.mem (s.next L) a.2 b.2)
      (buildUserTable L s progPhys size stackPhys)
      (buildUserTable L s.blank progPhys size stackPhys) := by
  have hblank := blank_refines hn
  rw [buildUserTable_eq, buildUserTable_eq]
  refine rel_bind ((Shadows.blank L s).alloc hn) ?_
  rintro ⟨u, s₁⟩ ⟨_, t₁⟩ he₁ ⟨rfl, hs₁⟩
  have href₁ := hblank.newRoot he₁
  obtain ⟨hold, hroot, hu⟩ := OldRoots.newRoot (allocPageTable_spec hblank.inv he₁).1
  have hne : u ≠ 0 := href₁.inv.root_ne_zero hroot
  simp only [if_neg hne]
  rw [mmuMapUserRange_eq hp hp' hs hn8, mmuMapUserRange_eq hp hp' hs hn8]
  -- the pages of the program, one after the other
  let map : Mmu → ℕ → Option Mmu := fun s i => mmuMapUserPage L s u (pageAt userProgBase i)
    (pageAt (BitVec.ofNat 64 progPhys) i) pageUserRx
  have hmap : ∀ i < n, ∀ s, map s i = installPage L s u (pageAt userProgBase i)
      (pageAt (BitVec.ofNat 64 progPhys) i) pageUserRx :=
    fun i hi s => mmuMapUserPage_eq hne (progPage_lt (by omega)) _ _
  have hrange := rel_loop
    (I := fun i t => Refines L t (((blankSpaces L s).newRoot u).setRange u userProgBase
      (BitVec.ofNat 64 progPhys) pageUserRx i))
    (f := map) (g := map) (n := n) hs₁ href₁ ?_ ?_
  · refine rel_bind hrange ?_
    intro s₂ t₂ he₂ hs₂
    obtain ⟨href₂, -⟩ := href₁.installRange hroot (fun i hi s _ => hmap i hi s) he₂
    have hinv := href₂.inv
    rw [Spaces.roots_setRange] at hinv
    rw [mmuMapUserPage_eq hne userStackBase_lt, mmuMapUserPage_eq hne userStackBase_lt]
    refine rel_bind (hs₂.installPage hold hinv hroot hu _ _ _) ?_
    intro s₃ t₃ _ hs₃
    exact .some ⟨rfl, hs₃⟩
  · intro i hi t t' hI he
    rw [hmap i hi] at he
    have hset := (installPage_spec hI.inv (by rw [Spaces.roots_setRange]; exact hroot) he).1
    rw [Spaces.setRange_succ]
    exact hI.set hset
  · intro i hi s₂ t₂ hs₂ hI
    rw [hmap i hi, hmap i hi]
    have hinv := hI.inv
    rw [Spaces.roots_setRange] at hinv
    exact hs₂.installPage hold hinv hroot hu _ _ _

/-- What a new user table is. -/
structure FreshTable (L : Linker) (s s' : Mmu) (userPgd progPhys stackPhys n : ℕ) : Prop where
  nextOk : NextOk L s'
  /-- The walk reads no memory but that of the tables. -/
  leaf : ∀ m : Mem, (∀ x, L.pageTablesStart ≤ x → x < L.pageTablesEnd → m x = s'.mem x) →
    ∀ virt, leafEntry m userPgd virt = userSpace progPhys stackPhys n (pageNumber virt)
  outside : ∀ x, x < L.pageTablesStart ∨ L.pageTablesEnd ≤ x → s'.mem x = s.mem x

/-- The new tables are read alike. -/
theorem Shadows.leafEntry_eq (h : Shadows L base n₀ s s₀) {roots : Set ℕ} (hold : OldRoots L n₀ roots)
    (hinv : MmuInv L roots s₀) {r : ℕ} (hr : r ∈ roots) (hr₀ : n₀ ≤ r) {m : Mem}
    (hm : ∀ x, L.pageTablesStart ≤ x → x < L.pageTablesEnd → m x = s.mem x) (virt : Word) :
    leafEntry m r virt = leafEntry s₀.mem r virt := by
  have hentries : ∀ t ∈ s₀.tables L, n₀ ≤ t → ∀ j, entries m t j = entries s₀.mem t j := by
    intro t ht ht₀ j
    obtain ⟨hlo, hhi⟩ := hinv.table_bounds ht
    have hj := j.isLt
    rw [h.entries_eq hinv ht ht₀]
    apply Mem.load64_congr
    intro x hx1 hx2
    apply hm
    · simp only [entryAddr] at hx1
      omega
    · simp only [entryAddr, pageSize] at *
      omega
  have hfresh : ∀ p : List (Fin 512), p.length ≤ 3 → ∀ t, walk nextTable (entries s₀.mem) r p = some t →
      ∀ j, entries m t j = entries s₀.mem t j :=
    fun p hp t ht => hentries t (hinv.forest.closed r hr p hp t ht)
      (hold.walk_fresh hinv hr hr₀ hp ht)
  have hwalk : walk nextTable (entries m) r (tablePath virt) =
      walk nextTable (entries s₀.mem) r (tablePath virt) := by
    refine walk_congr (n := 3) (fun r' hr' p hp t ht => ?_) (Set.mem_singleton r) _ le_rfl
    cases hr'
    exact hfresh p hp.le t ht
  rw [AArch64Os.leafEntry_eq, AArch64Os.leafEntry_eq]
  cases ht : walk nextTable (entries s₀.mem) r (tablePath virt) with
  | none => rw [leaf_of_none ht, leaf_of_none (hwalk.trans ht)]
  | some t =>
      rw [leaf_of_walk ht, leaf_of_walk (hwalk.trans ht)]
      exact hfresh (tablePath virt) le_rfl t ht _

/-- **A new user table** maps the program and the stack and nothing else. -/
theorem buildUserTable_fresh (hn : NextOk L s) {progPhys stackPhys n userPgd : ℕ} {size : Word} {s' : Mmu}
    (hp : progPhys % pageSize = 0) (hp' : progPhys < 2 ^ 48) (hs : size.toNat = pageSize * n)
    (hn8 : n ≤ 8) (he : buildUserTable L s progPhys size stackPhys = some (userPgd, s')) :
    FreshTable L s s' userPgd progPhys stackPhys n := by
  have hblank := blank_refines hn
  have hrel := buildUserTable_shadow hn stackPhys hp hp' hs hn8
  rw [he] at hrel
  obtain ⟨⟨_, t⟩, ht, rfl, hsh⟩ := rel_some hrel
  have hspec := buildUserTable_spec hblank hp hp' hs hn8 ht (buildUserTable_ne_zero ht)
  have hinv := hspec.refines.inv
  set σ : Spaces := Function.update (blankSpaces L s) userPgd
    (some (userSpace progPhys stackPhys n)) with hσ
  have hself : σ userPgd = some (userSpace progPhys stackPhys n) := by
    rw [hσ, Function.update_self]
  have hroot : userPgd ∈ σ.roots := Spaces.mem_roots hself
  have hold : OldRoots L (s.next L) σ.roots := by
    intro t h1 h2 h3
    by_cases htu : t = userPgd
    · rwa [htu]
    · have hother : σ t = some (fun _ => 0) := by
        rw [hσ, Function.update_of_ne htu]
        exact if_pos ⟨h1, h2, h3⟩
      exact Spaces.mem_roots hother
  have hge : s.next L ≤ userPgd := by
    obtain ⟨h1, -, h3⟩ := hinv.forest.root_mem hroot
    by_contra hlt
    have hblank' : blankSpaces L s userPgd = some (fun _ => 0) := if_pos ⟨h1, not_le.mp hlt, h3⟩
    exact hspec.fresh (Spaces.mem_roots hblank')
  refine ⟨hinv.nextOk.congr hsh.nextPageTable.symm, ?_, hsh.outside⟩
  intro m hm virt
  rw [hsh.leafEntry_eq hold hinv hroot hge hm]
  exact hspec.refines.leaf userPgd _ hself virt

/-- Whether the table can be built depends on the next table only. -/
theorem buildUserTable_same (hn : NextOk L s) {s₁ s' : Mmu} (hnext : s₁.nextPageTable = s.nextPageTable)
    {progPhys stackPhys n userPgd : ℕ} {size : Word}
    (hp : progPhys % pageSize = 0) (hp' : progPhys < 2 ^ 48) (hs : size.toNat = pageSize * n)
    (hn8 : n ≤ 8) (he : buildUserTable L s progPhys size stackPhys = some (userPgd, s')) :
    ∃ s₁', buildUserTable L s₁ progPhys size stackPhys = some (userPgd, s₁') := by
  have hrel := buildUserTable_shadow hn stackPhys hp hp' hs hn8
  have hrel₁ := buildUserTable_shadow (hn.congr hnext) stackPhys hp hp' hs hn8
  have hblank : s₁.blank = s.blank := by
    unfold Mmu.blank
    rw [hnext]
  rw [he] at hrel
  obtain ⟨⟨_, t⟩, ht, rfl, -⟩ := rel_some hrel
  rw [hblank, ht] at hrel₁
  obtain ⟨⟨_, s₁'⟩, hs₁, rfl, -⟩ := rel_some_right hrel₁
  exact ⟨s₁', hs₁⟩

end

end AArch64Os
