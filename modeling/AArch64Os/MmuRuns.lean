import AArch64Os.MmuForest
import AArch64Os.Lib.Runs

/-! # Page tables refine finite maps

The purpose of the page tables: each root stands for a map from page numbers to descriptors,
and every call changes one page of one map.  `Spaces` is that abstract model; a run carries
it along, and the leaf entries of every root agree with it (`page_tables_refine_maps`). -/

namespace AArch64Os

open Relation Radix

/-- For every root the descriptor of each page, 0 for a page that is not mapped. -/
abbrev Spaces := ℕ → Option (BitVec 36 → Word)

namespace Spaces

/-- No root. -/
def empty : Spaces := fun _ => none

/-- A new root maps nothing. -/
def newRoot (σ : Spaces) (r : ℕ) : Spaces := Function.update σ r (some (fun _ => 0))

/-- Page `page` of root `r` gets the descriptor `d`. -/
def set (σ : Spaces) (r : ℕ) (page : BitVec 36) (d : Word) : Spaces :=
  Function.update σ r ((σ r).map (fun f => Function.update f page d))

/-- The roots of the spaces. -/
def roots (σ : Spaces) : Set ℕ := {r | (σ r).isSome}

theorem mem_roots {σ : Spaces} {r : ℕ} {f : BitVec 36 → Word} (h : σ r = some f) : r ∈ σ.roots := by
  show (σ r).isSome
  rw [h]
  rfl

theorem roots_newRoot (σ : Spaces) (r : ℕ) : (σ.newRoot r).roots = insert r σ.roots := by
  ext t
  simp only [roots, newRoot, Set.mem_insert_iff, Set.mem_ofPred_eq]
  by_cases h : t = r
  · subst h
    rw [Function.update_self]
    exact ⟨fun _ => .inl rfl, fun _ => rfl⟩
  · rw [Function.update_of_ne h]
    exact ⟨.inr, fun hc => hc.resolve_left h⟩

theorem roots_set (σ : Spaces) (r : ℕ) (page : BitVec 36) (d : Word) :
    (σ.set r page d).roots = σ.roots := by
  ext t
  simp only [roots, set, Set.mem_ofPred_eq]
  by_cases h : t = r
  · subst h
    rw [Function.update_self, Option.isSome_map]
  · rw [Function.update_of_ne h]

theorem set_of_not_root {σ : Spaces} {r : ℕ} (h : r ∉ σ.roots) (page : BitVec 36) (d : Word) :
    σ.set r page d = σ := by
  have hn : σ r = none := by
    cases hr : σ r with
    | none => rfl
    | some f => exact absurd (mem_roots hr) h
  rw [set, hn, Option.map_none, ← hn]
  exact Function.update_eq_self r σ

end Spaces

/-- The calls on page tables. -/
inductive MmuCall
  | createKernelTable
  | createUserTable
  | mapPage (virt phys flags : Word)
  | unmapPage (virt : Word)
  | mapUserPage (userPgd : ℕ) (virt phys flags : Word)

/-- The page that a call is about, and its new descriptor. -/
def MmuCall.target (kernelPgd : ℕ) : MmuCall → Option (ℕ × BitVec 36 × Word)
  | createKernelTable => none
  | createUserTable => none
  | mapPage virt phys flags => some (kernelPgd, pageNumber virt, pageDescriptor phys flags)
  | unmapPage virt => some (kernelPgd, pageNumber virt, 0)
  | mapUserPage userPgd virt phys flags =>
      if virt.toNat < userVaSize then some (userPgd, pageNumber virt, pageDescriptor phys flags)
      else none

/-- The effect of a call on the abstract spaces, apart from a new root. -/
def Spaces.apply (σ : Spaces) : Option (ℕ × BitVec 36 × Word) → Spaces
  | none => σ
  | some (r, page, d) => σ.set r page d

theorem allocKernelPgd_eq_some {L : Linker} {s s' : Mmu} : allocKernelPgd L s = some s' ↔
    ∃ pgd s₁, allocPageTable L s = some (pgd, s₁) ∧ s' = { s₁ with kernelPgd := pgd } := by
  unfold allocKernelPgd
  cases allocPageTable L s with
  | none => simp
  | some x =>
      obtain ⟨pgd, s₁⟩ := x
      constructor
      · intro he
        exact ⟨pgd, s₁, rfl, (Option.some.inj he).symm⟩
      · rintro ⟨pgd, s₁, ha, rfl⟩
        cases ha
        rfl

/-- The page tables together with the abstract spaces. -/
structure MmuRun where
  mmu : Mmu
  spaces : Spaces

/-- A call that returns.  `mmu_map_user_page` gets a root that was created before, or `NULL`. -/
inductive MmuStep (L : Linker) : MmuCall → MmuRun → MmuRun → Prop
  | createKernelTable {s s' : Mmu} {σ : Spaces} (h0 : s.kernelPgd = 0)
      (he : allocKernelPgd L s = some s') :
      MmuStep L .createKernelTable ⟨s, σ⟩ ⟨s', σ.newRoot s'.kernelPgd⟩
  | createUserTable {s s' : Mmu} {σ : Spaces} {u : ℕ} (he : mmuCreateUserTable L s = some (u, s')) :
      MmuStep L .createUserTable ⟨s, σ⟩ ⟨s', σ.newRoot u⟩
  | mapPage {s s' : Mmu} {σ : Spaces} {virt phys flags : Word}
      (he : mapPage L s virt phys flags = some s') :
      MmuStep L (.mapPage virt phys flags) ⟨s, σ⟩
        ⟨s', σ.apply ((MmuCall.mapPage virt phys flags).target s.kernelPgd)⟩
  | unmapPage {s : Mmu} {σ : Spaces} (virt : Word) :
      MmuStep L (.unmapPage virt) ⟨s, σ⟩
        ⟨unmapPage s virt, σ.apply ((MmuCall.unmapPage virt).target s.kernelPgd)⟩
  | mapUserPage {s s' : Mmu} {σ : Spaces} {userPgd : ℕ} {virt phys flags : Word}
      (hr : userPgd = 0 ∨ userPgd ∈ σ.roots)
      (he : mmuMapUserPage L s userPgd virt phys flags = some s') :
      MmuStep L (.mapUserPage userPgd virt phys flags) ⟨s, σ⟩
        ⟨s', σ.apply ((MmuCall.mapUserPage userPgd virt phys flags).target s.kernelPgd)⟩

/-- The tables are a forest under the roots of the spaces, and agree with the spaces. -/
structure Refines (L : Linker) (s : Mmu) (σ : Spaces) : Prop where
  inv : MmuInv L σ.roots s
  leaf : ∀ r f, σ r = some f → ∀ virt, leafEntry s.mem r virt = f (pageNumber virt)

section
variable {L : Linker} {s s' : Mmu} {σ : Spaces}

/-- A root that is added. -/
theorem Refines.newRoot (h : Refines L s σ) {u : ℕ} (he : allocPageTable L s = some (u, s')) :
    Refines L s' (σ.newRoot u) := by
  obtain ⟨hinv, hempty, hold⟩ := h.inv.addRoot he
  refine ⟨by rw [Spaces.roots_newRoot]; exact hinv, ?_⟩
  intro r f hf virt
  by_cases hr : r = u
  · subst hr
    rw [Spaces.newRoot, Function.update_self] at hf
    cases hf
    exact hempty virt
  · rw [Spaces.newRoot, Function.update_of_ne hr] at hf
    rw [hold r (Spaces.mem_roots hf) virt]
    exact h.leaf r f hf virt

/-- A leaf that is written. -/
theorem Refines.set (h : Refines L s σ) {r : ℕ} {virt d : Word}
    (hs : LeafSet L σ.roots s s' r virt d) : Refines L s' (σ.set r (pageNumber virt) d) := by
  refine ⟨by rw [Spaces.roots_set]; exact hs.inv, ?_⟩
  intro t f hf v
  by_cases ht : t = r
  · subst ht
    rw [Spaces.set, Function.update_self] at hf
    obtain ⟨g, hg, rfl⟩ := Option.map_eq_some_iff.mp hf
    by_cases hv : pageNumber v = pageNumber virt
    · rw [hs.same v hv, hv, Function.update_self]
    · rw [hs.other t (Spaces.mem_roots hg) v (.inr hv), Function.update_of_ne hv]
      exact h.leaf t g hg v
  · rw [Spaces.set, Function.update_of_ne ht] at hf
    rw [hs.other t (Spaces.mem_roots hf) v (.inl ht)]
    exact h.leaf t f hf v

theorem Refines.zero_not_root (h : Refines L s σ) : 0 ∉ σ.roots :=
  fun hc => h.inv.root_ne_zero hc rfl

theorem Refines.mapPage (h : Refines L s σ) {virt phys flags : Word}
    (he : mapPage L s virt phys flags = some s') :
    Refines L s' (σ.set s.kernelPgd (pageNumber virt) (pageDescriptor phys flags)) := by
  unfold AArch64Os.mapPage at he
  split_ifs at he with hk
  · cases he
    rw [hk, Spaces.set_of_not_root h.zero_not_root]
    exact h
  · exact h.set (installPage_spec h.inv (h.inv.kernel.resolve_left hk) he).1

theorem Refines.unmapPage (h : Refines L s σ) (virt : Word) :
    Refines L (unmapPage s virt) (σ.set s.kernelPgd (pageNumber virt) 0) := by
  by_cases hk : s.kernelPgd = 0
  · unfold AArch64Os.unmapPage
    rw [if_pos hk, hk, Spaces.set_of_not_root h.zero_not_root]
    exact h
  · exact h.set (unmapPage_spec h.inv hk virt)

/-- An address outside user space: nothing happens. -/
theorem mmuMapUserPage_outside (L : Linker) (s : Mmu) (userPgd : ℕ) {virt : Word}
    (hv : userVaSize ≤ virt.toNat) (phys flags : Word) :
    mmuMapUserPage L s userPgd virt phys flags = some s := by
  unfold mmuMapUserPage
  split_ifs <;> rfl

theorem Refines.mapUserPage (h : Refines L s σ) {userPgd : ℕ} {virt phys flags : Word}
    (hr : userPgd = 0 ∨ userPgd ∈ σ.roots) (hv : virt.toNat < userVaSize)
    (he : mmuMapUserPage L s userPgd virt phys flags = some s') :
    Refines L s' (σ.set userPgd (pageNumber virt) (pageDescriptor phys flags)) := by
  unfold mmuMapUserPage at he
  rw [if_neg (not_le.mpr hv)] at he
  split_ifs at he with h0
  · cases he
    rw [h0, Spaces.set_of_not_root h.zero_not_root]
    exact h
  · exact h.set (installPage_spec h.inv (hr.resolve_left h0) he).1

end

/-- Every call keeps the refinement. -/
theorem MmuStep.refines {L : Linker} {c : MmuCall} {r r' : MmuRun} (h : Refines L r.mmu r.spaces)
    (hs : MmuStep L c r r') : Refines L r'.mmu r'.spaces := by
  cases hs with
  | @createKernelTable s s' σ h0 he =>
      obtain ⟨pgd, s₁, ha, rfl⟩ := allocKernelPgd_eq_some.mp he
      have hn := h.newRoot ha
      have hroot : pgd ∈ (σ.newRoot pgd).roots := by
        rw [Spaces.roots_newRoot]
        exact Set.mem_insert pgd _
      exact ⟨⟨hn.inv.aligned, hn.inv.start_le, hn.inv.next_le, hn.inv.forest, .inr hroot⟩, hn.leaf⟩
  | createUserTable he => exact h.newRoot he
  | mapPage he => exact h.mapPage he
  | unmapPage virt => exact h.unmapPage virt
  | mapUserPage hr he =>
      rename_i s s' σ userPgd virt phys flags
      by_cases hv : virt.toNat < userVaSize
      · simp only [MmuCall.target, if_pos hv, Spaces.apply]
        exact h.mapUserPage hr hv he
      · rw [mmuMapUserPage_outside L s userPgd (not_lt.mp hv)] at he
        cases he
        simp only [MmuCall.target, if_neg hv, Spaces.apply]
        exact h

/-- No table is handed out. -/
theorem Mmu.boot_refines (L : Linker) (s : Mmu) : Refines L s.boot .empty := by
  have hnext : s.boot.next L = L.pageTablesStart := if_pos rfl
  have hroots : Spaces.empty.roots = ∅ := by
    ext t
    exact ⟨fun hc => Bool.noConfusion hc, fun hc => hc.elim⟩
  have htab : s.boot.tables L = ∅ := by
    ext t
    simp only [Mmu.tables, hnext, Set.mem_ofPred_eq, Set.mem_empty_iff_false, iff_false]
    omega
  have hend : L.pageTablesStart ≤ L.pageTablesEnd := L.end_eq ▸ Nat.le_add_right _ _
  refine ⟨⟨by rw [hnext]; exact L.aligned, by rw [hnext], by rw [hnext]; exact hend, ?_, .inl rfl⟩, ?_⟩
  · rw [hroots, htab]
    refine ⟨fun r hr => hr.elim, fun r hr => hr.elim, fun t ht => ht.elim, fun r hr => hr.elim⟩
  · intro r f hf
    cases hf

/-- What the page tables promise in every state of a run, and for the call after it. -/
structure SpacesOk (L : Linker) (r : MmuRun) : Prop where
  /-- The leaf entry of a page is the descriptor last installed for it, or 0. -/
  leaf : ∀ root f, r.spaces root = some f → ∀ virt,
    leafEntry r.mmu.mem root virt = f (pageNumber virt)
  /-- A call changes the leaf of its own page only. -/
  frame : ∀ c r', MmuStep L c r r' → ∀ root ∈ r.spaces.roots, ∀ virt,
    (∀ root' page d, c.target r.mmu.kernelPgd = some (root', page, d) →
      root ≠ root' ∨ pageNumber virt ≠ page) →
    leafEntry r'.mmu.mem root virt = leafEntry r.mmu.mem root virt
  /-- Outside user space `mmu_map_user_page` changes nothing. -/
  outside : ∀ userPgd virt phys flags, userVaSize ≤ virt.toNat →
    mmuMapUserPage L r.mmu userPgd virt phys flags = some r.mmu

/-- What a call does to a page that it is not about. -/
theorem MmuStep.spaces_other {L : Linker} {c : MmuCall} {r r' : MmuRun} (h : Refines L r.mmu r.spaces)
    (hs : MmuStep L c r r') {root : ℕ} {f : BitVec 36 → Word} (hf : r.spaces root = some f)
    {page : BitVec 36} (hne : ∀ root' page' d, c.target r.mmu.kernelPgd = some (root', page', d) →
      root ≠ root' ∨ page ≠ page') :
    ∃ g, r'.spaces root = some g ∧ g page = f page := by
  have hset : ∀ (σ : Spaces) root' page' d, σ root = some f → (root ≠ root' ∨ page ≠ page') →
      ∃ g, σ.set root' page' d root = some g ∧ g page = f page := by
    intro σ root' page' d hf hne
    by_cases hr : root = root'
    · subst hr
      refine ⟨Function.update f page' d, by rw [Spaces.set, Function.update_self, hf]; rfl, ?_⟩
      exact Function.update_of_ne (hne.resolve_left (fun hc => hc rfl)) _ _
    · exact ⟨f, by rw [Spaces.set, Function.update_of_ne hr, hf], rfl⟩
  have happly : ∀ (σ : Spaces) o, σ root = some f → (∀ root' page' d, o = some (root', page', d) →
      root ≠ root' ∨ page ≠ page') → ∃ g, σ.apply o root = some g ∧ g page = f page := by
    intro σ o hf hne
    cases o with
    | none => exact ⟨f, hf, rfl⟩
    | some w => exact hset σ w.1 w.2.1 w.2.2 hf (hne w.1 w.2.1 w.2.2 rfl)
  have hnew : ∀ {s s' : Mmu} {σ : Spaces} {u : ℕ}, Refines L s σ → σ root = some f →
      allocPageTable L s = some (u, s') → ∃ g, σ.newRoot u root = some g ∧ g page = f page := by
    intro s s' σ u h hf ha
    have hu := (allocPageTable_spec h.inv ha).2.2.2.1
    have hroot := h.inv.forest.root_mem (Spaces.mem_roots hf)
    have hne : root ≠ u := fun e => hu (e ▸ hroot)
    exact ⟨f, by rw [Spaces.newRoot, Function.update_of_ne hne, hf], rfl⟩
  cases hs with
  | createKernelTable h0 he =>
      obtain ⟨pgd, s₁, ha, rfl⟩ := allocKernelPgd_eq_some.mp he
      exact hnew h hf ha
  | createUserTable he => exact hnew h hf he
  | mapPage he => exact happly _ _ hf hne
  | unmapPage virt => exact happly _ _ hf hne
  | mapUserPage hr he => exact happly _ _ hf hne

theorem Refines.spacesOk {L : Linker} {r : MmuRun} (h : Refines L r.mmu r.spaces) :
    SpacesOk L r where
  leaf := h.leaf
  frame c r' hs root hroot virt hne := by
    obtain ⟨f, hf⟩ := Option.isSome_iff_exists.mp hroot
    obtain ⟨g, hg, hgf⟩ := hs.spaces_other h hf hne
    rw [(hs.refines h).leaf root g hg virt, h.leaf root f hf virt, hgf]
  outside userPgd virt phys flags hv := mmuMapUserPage_outside L r.mmu userPgd hv phys flags

/-- **Page tables refine independent finite maps**, in every state that any sequence of calls
reaches that does not use up the page-table region. -/
theorem page_tables_refine_maps (L : Linker) (s : Mmu) {r : MmuRun}
    (h : ReflTransGen (fun r r' => ∃ c, MmuStep L c r r') ⟨s.boot, .empty⟩ r) :
    SpacesOk L r :=
  (Runs.run_invariant (I := fun r => Refines L r.mmu r.spaces) (Mmu.boot_refines L s)
    (fun _ _ hi hs => hs.elim (fun _ hs => hs.refines hi)) h).spacesOk

/-- A run that maps the page of the UART in the kernel table. -/
theorem uart_run (L : Linker) (s : Mmu) : ∃ r,
    ReflTransGen (fun r r' => ∃ c, MmuStep L c r r') ⟨s.boot, .empty⟩ r ∧
    leafEntry r.mmu.mem r.mmu.kernelPgd (BitVec.ofNat 64 uart0Base) =
      pageDescriptor (BitVec.ofNat 64 uart0Base) pageDevice := by
  have h0 := Mmu.boot_refines L s
  have hn0 : s.boot.next L = L.pageTablesStart := if_pos rfl
  have hend := L.end_eq
  have hsize : pageSize = 0x1000 := rfl
  obtain ⟨⟨pgd, s₁⟩, ha⟩ := Option.isSome_iff_exists.mp
    ((allocPageTable_isSome L s.boot).mpr (by omega))
  obtain ⟨hpgd, hn1, _⟩ := allocPageTable_spec h0.inv ha
  have hk := allocKernelPgd_eq_some.mpr ⟨pgd, s₁, ha, rfl⟩
  have step₁ : MmuStep L _ ⟨s.boot, .empty⟩ _ := .createKernelTable rfl hk
  have h1 := step₁.refines h0
  have hroot : pgd ∈ (Spaces.empty.newRoot pgd).roots := by
    rw [Spaces.roots_newRoot]
    exact Set.mem_insert pgd _
  have hn2 : Mmu.next L { s₁ with kernelPgd := pgd } = pgd + pageSize := hn1
  have hle := Nat.mul_le_mul_right pageSize
    (tablesMissing_le s₁.mem pgd (BitVec.ofNat 64 uart0Base))
  obtain ⟨s₃, hi, _⟩ := installPage_room h1.inv hroot (BitVec.ofNat 64 uart0Base)
    (BitVec.ofNat 64 uart0Base) pageDevice (by
      refine (Nat.add_le_add_left hle _).trans ?_
      rw [hn2]
      omega)
  have hset := (installPage_spec h1.inv hroot hi).1
  have hm : mapPage L { s₁ with kernelPgd := pgd } (BitVec.ofNat 64 uart0Base)
      (BitVec.ofNat 64 uart0Base) pageDevice = some s₃ := by
    rw [mapPage, if_neg (h1.inv.root_ne_zero hroot)]
    exact hi
  refine ⟨⟨s₃, _⟩, .tail (.single ⟨_, step₁⟩) ⟨_, .mapPage hm⟩, ?_⟩
  rw [hset.frame.kernelPgd]
  exact hset.same _ rfl

/-- The refinement in a state where the UART is mapped. -/
theorem page_tables_refine_maps_uart : ∃ r : MmuRun, SpacesOk default r ∧
    leafEntry r.mmu.mem r.mmu.kernelPgd (BitVec.ofNat 64 uart0Base) =
      pageDescriptor (BitVec.ofNat 64 uart0Base) pageDevice := by
  obtain ⟨r, hr, hleaf⟩ := uart_run default bssMmu
  exact ⟨r, page_tables_refine_maps default bssMmu hr, hleaf⟩

end AArch64Os
