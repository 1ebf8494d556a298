import AArch64Os.HardwareWalk
import AArch64Os.Lib.Cache

/-! # TLB maintenance

The TLB holds leaf descriptors of addresses.  It may take in any valid translation of the
active tables at any time; `unmap_page` drops one page (`tlbi vaae1is`), a switch of the user
table drops everything (`tlbi vmalle1is`), and no other call drops anything.  The tables are
read here as the C code builds them, in four levels from the root; that the hardware starts one
level further down is the subject of the module before.

A call writes at most one valid leaf or the base register, in one store, so an entry that comes
in while the call runs is one that could have come in right before or right after it. -/

namespace AArch64Os

open Runs Radix

/-- The root whose table translates an address, none when the base register is 0. -/
def activeRoot (s : Mmu) (va : Word) : Option ℕ :=
  match selectTtbr s va with
  | none => none
  | some (ttbr, _) => if tableAddr ttbr = 0 then none else some (tableAddr ttbr)

/-- The valid leaf descriptor of an address under the active tables. -/
def translation (s : Mmu) (va : Word) : Option Word :=
  match activeRoot s va with
  | none => none
  | some root =>
      let d := leafEntry s.mem root va
      if d &&& pteValid = 0 then none else some d

/-- The calls on tables and base registers. -/
inductive TableCall
  | table (c : MmuCall)
  | switchUserTable (userPgd : ℕ)
  | destroyUserTable (userPgd : ℕ)
  /-- Other code writes memory outside the page-table region. -/
  | write

/-- A call that returns, after `mmu_init`. -/
inductive TableCallStep (L : Linker) : MmuRun → TableCall → MmuRun → Prop
  | table {c : MmuCall} {r r' : MmuRun} (h : MmuStep L c r r') : TableCallStep L r (.table c) r'
  | switchUserTable {s : Mmu} {σ : Spaces} {userPgd : ℕ} (hr : userPgd = 0 ∨ userPgd ∈ σ.roots) :
      TableCallStep L ⟨s, σ⟩ (.switchUserTable userPgd) ⟨mmuSwitchUserTable s userPgd, σ⟩
  | destroyUserTable {s : Mmu} {σ : Spaces} (userPgd : ℕ) :
      TableCallStep L ⟨s, σ⟩ (.destroyUserTable userPgd) ⟨mmuDestroyUserTable s userPgd, σ⟩
  | write {s : Mmu} {σ : Spaces} {m : ByteMem.Mem}
      (h : ∀ x, L.pageTablesStart ≤ x → x < L.pageTablesEnd → m x = s.mem x) :
      TableCallStep L ⟨s, σ⟩ .write ⟨{ s with mem := m }, σ⟩

/-- The addresses that `tlbi vaae1is` drops for the operand `virt >> 12`: bits 43:0 of the
operand are bits 55:12 of the address. -/
def TlbiVaae1is (operand va : Word) : Prop := va.toNat / 2 ^ 12 % 2 ^ 44 = operand.toNat % 2 ^ 44

/-- The addresses whose entries a call drops. -/
def TlbDrops (s : Mmu) (va : Word) : TableCall → Prop
  | .table (.unmapPage virt) =>
      -- every path on which an entry is missing returns before the `tlbi`
      s.kernelPgd ≠ 0 ∧ (walkTables s.mem s.kernelPgd virt).isSome ∧ TlbiVaae1is (virt >>> 12) va
  | .table _ => False
  | .switchUserTable userPgd => userPgd ≠ s.currentUserPgd
  | .destroyUserTable _ => False
  | .write => False

/-- The contents that the TLB can have along a trace of calls. -/
abbrev Tlb (L : Linker) (r₀ : MmuRun) :
    List (MmuRun × TableCall × MmuRun) → MmuRun → Set (Word × Word) → Prop :=
  Cache.Filled (fun r => translation r.mmu) (fun r c va => TlbDrops r.mmu va c) (TableCallStep L) r₀

/-- Every entry is the descriptor that the active tables give. -/
def TlbCoherent (r : MmuRun) (T : Set (Word × Word)) : Prop :=
  ∀ e ∈ T, translation r.mmu e.1 = some e.2

/-- No valid translation is lost or replaced without being dropped: a page entry is written
only where the active tables give nothing, the same descriptor, or an address that is dropped,
and a table that is destroyed while it is active maps nothing. -/
def NothingStale (s : Mmu) : TableCall → Prop
  | .table c => ∀ root page d, c.target s.kernelPgd = some (root, page, d) →
      ∀ va old, activeRoot s va = some root → pageNumber va = page →
        translation s va = some old → TlbDrops s va (.table c) ∨ d = old
  | .switchUserTable _ => True
  | .destroyUserTable userPgd =>
      userPgd = s.currentUserPgd → ∀ va, va.toNat < userVaSize → translation s va = none
  | .write => True

/-! ### Translations -/

theorem translation_some_iff {s : Mmu} {va d : Word} :
    translation s va = some d ↔
      ∃ root, activeRoot s va = some root ∧ leafEntry s.mem root va = d ∧ d &&& pteValid ≠ 0 := by
  unfold translation
  cases activeRoot s va with
  | none => simp
  | some root =>
      simp only [Option.some.injEq, exists_eq_left']
      constructor
      · intro h
        split_ifs at h with hv
        cases h
        exact ⟨rfl, hv⟩
      · rintro ⟨rfl, hv⟩
        exact if_neg hv

/-- The registers decide which root is active. -/
theorem activeRoot_congr {s s' : Mmu} (h0 : s'.ttbr0 = s.ttbr0) (h1 : s'.ttbr1 = s.ttbr1)
    (ht : s'.tcr = s.tcr) (va : Word) : activeRoot s' va = activeRoot s va := by
  simp only [activeRoot, selectTtbr, h0, h1, ht]

/-- A change that neither the base registers nor the leaves show. -/
theorem translation_congr {s s' : Mmu} {va : Word} (hr : activeRoot s' va = activeRoot s va)
    (hl : ∀ root, activeRoot s va = some root → leafEntry s'.mem root va = leafEntry s.mem root va) :
    translation s' va = translation s va := by
  unfold translation
  rw [hr]
  cases h : activeRoot s va with
  | none => rfl
  | some root => simp only [hl root h]

theorem tableAddr_zero : tableAddr 0 = 0 := by decide

section
variable {L : Linker} {r r' : MmuRun}

theorem WalkInv.tableAddr_root (h : WalkInv L r) {root : ℕ} (hr : root ∈ r.spaces.roots) :
    tableAddr (BitVec.ofNat 64 root) = root := by
  have hb := (h.refines.inv.root_bounds hr).2
  have hend := L.end_le
  apply tableAddr_ofNat (h.refines.inv.forest.root_mem hr).2.2
  simp only [pageSize] at hb
  omega

/-- What `TTBR0` translates: the current user table. -/
theorem WalkInv.activeRoot_user (h : WalkInv L r) {va : Word} (hva : va.toNat < userVaSize) :
    activeRoot r.mmu va =
      if r.mmu.currentUserPgd = 0 then none else some r.mmu.currentUserPgd := by
  have hsel : selectTtbr r.mmu va = some (r.mmu.ttbr0, 64 - t0sz r.mmu.tcr) := by
    refine if_pos ?_
    rw [h.tcr, t0sz_tcrValue]
    exact Nat.div_eq_of_lt hva
  simp only [activeRoot, hsel, h.ttbr0]
  rcases h.user with hu | hu
  · rw [hu, if_pos rfl]
    exact if_pos tableAddr_zero
  · rw [h.tableAddr_root hu]

/-- What `TTBR1` translates: the kernel table, at the top of the address space. -/
theorem WalkInv.activeRoot_kernel (h : WalkInv L r) {va : Word} (hva : userVaSize ≤ va.toNat) :
    activeRoot r.mmu va =
      if va.toNat / userVaSize = 2 ^ 25 - 1 then some r.mmu.kernelPgd else none := by
  have h0 : va.toNat / 2 ^ 39 ≠ 0 :=
    Nat.ne_of_gt (Nat.div_pos hva (by decide))
  have hk := h.refines.inv.root_ne_zero h.kernel
  have hroot : tableAddr r.mmu.ttbr1 = r.mmu.kernelPgd := by
    rw [h.ttbr1, h.tableAddr_root h.kernel]
  simp only [activeRoot, selectTtbr, h.tcr, t0sz_tcrValue, t1sz_tcrValue]
  rw [if_neg h0]
  by_cases h1 : va.toNat / userVaSize = 2 ^ 25 - 1
  · rw [if_pos h1, if_pos (show va.toNat / 2 ^ (64 - 25) = 2 ^ 25 - 1 from h1)]
    simp only [hroot, if_neg hk]
  · rw [if_neg h1, if_neg (show ¬ va.toNat / 2 ^ (64 - 25) = 2 ^ 25 - 1 from h1)]

theorem WalkInv.activeRoot_mem (h : WalkInv L r) {va : Word} {root : ℕ}
    (ha : activeRoot r.mmu va = some root) : root ∈ r.spaces.roots := by
  by_cases hva : va.toNat < userVaSize
  · rw [h.activeRoot_user hva] at ha
    split_ifs at ha with h0
    cases ha
    exact h.user.resolve_left h0
  · rw [h.activeRoot_kernel (not_lt.mp hva)] at ha
    split_ifs at ha
    cases ha
    exact h.kernel

/-! ### What a call keeps -/

theorem TableCallStep.tableStep {c : TableCall} (h : TableCallStep L r c r') : TableStep L r r' := by
  cases h with
  | table h => exact .call h
  | switchUserTable hr => exact .switchUserTable hr
  | destroyUserTable userPgd => exact .destroyUserTable userPgd
  | write h => exact .write h

/-- The leaf that a call is about gets its new descriptor. -/
theorem MmuStep.leaf_target {c : MmuCall} (h : Refines L r.mmu r.spaces) (hs : MmuStep L c r r')
    {root : ℕ} {page : BitVec 36} {d : Word}
    (ht : c.target r.mmu.kernelPgd = some (root, page, d)) (hr : root ∈ r.spaces.roots) {va : Word}
    (hva : pageNumber va = page) : leafEntry r'.mmu.mem root va = d := by
  have hspaces : r'.spaces = r.spaces.set root page d := by
    cases hs with
    | createKernelTable h0 he => cases ht
    | createUserTable he => cases ht
    | mapPage he => exact congrArg (Spaces.apply _) ht
    | unmapPage virt => exact congrArg (Spaces.apply _) ht
    | mapUserPage hr he => exact congrArg (Spaces.apply _) ht
  obtain ⟨f, hf⟩ := Option.isSome_iff_exists.mp hr
  have hf' : r'.spaces root = some (Function.update f page d) := by
    rw [hspaces, Spaces.set, Function.update_self, hf]
    rfl
  rw [(hs.refines h).leaf root _ hf' va, hva, Function.update_self]

/-- A call on tables drops what it changes exactly if it leaves nothing stale. -/
theorem MmuStep.keeps_iff {c : MmuCall} (h : WalkInv L r) (hs : MmuStep L c r r') :
    (∀ va d, translation r.mmu va = some d → ¬ TlbDrops r.mmu va (.table c) →
      translation r'.mmu va = some d) ↔ NothingStale r.mmu (.table c) := by
  have hk : r.mmu.kernelPgd ≠ 0 := h.refines.inv.root_ne_zero h.kernel
  obtain ⟨hf, _, _⟩ := hs.frame h.refines hk
  have hactive : ∀ va, activeRoot r'.mmu va = activeRoot r.mmu va :=
    activeRoot_congr hf.ttbr0 hf.ttbr1 hf.tcr
  constructor
  · intro hkeep root page d ht va old ha hpage hold
    by_cases hdrop : TlbDrops r.mmu va (.table c)
    · exact .inl hdrop
    · obtain ⟨root', ha', hleaf, _⟩ := translation_some_iff.mp (hkeep va old hold hdrop)
      obtain rfl : root = root' := Option.some.inj (ha.symm.trans ((hactive va).symm.trans ha'))
      exact .inr ((hs.leaf_target h.refines ht (h.activeRoot_mem ha) hpage).symm.trans hleaf)
  · intro hn va d htr hdrop
    obtain ⟨root, ha, hleaf, hvalid⟩ := translation_some_iff.mp htr
    have hroot := h.activeRoot_mem ha
    refine translation_some_iff.mpr ⟨root, (hactive va).trans ha, ?_, hvalid⟩
    by_cases ht : ∃ d', c.target r.mmu.kernelPgd = some (root, pageNumber va, d')
    · obtain ⟨d', ht⟩ := ht
      rw [hs.leaf_target h.refines ht hroot rfl]
      exact (hn root _ d' ht va d ha rfl htr).resolve_left hdrop
    · rw [← hleaf]
      apply h.refines.spacesOk.frame c r' hs root hroot va
      intro root' page d' ht'
      by_contra hc
      push Not at hc
      obtain ⟨rfl, rfl⟩ := hc
      exact ht ⟨d', ht'⟩

/-- Destroying the active table takes away all that `TTBR0` translates. -/
theorem WalkInv.destroy_keeps_iff (h : WalkInv L r) (userPgd : ℕ) :
    (∀ va d, translation r.mmu va = some d →
      translation (mmuDestroyUserTable r.mmu userPgd) va = some d) ↔
    NothingStale r.mmu (.destroyUserTable userPgd) := by
  unfold mmuDestroyUserTable
  by_cases hc : r.mmu.currentUserPgd = userPgd
  · rw [if_pos hc]
    have h' : WalkInv L ⟨{ r.mmu with currentUserPgd := 0, ttbr0 := 0 }, r.spaces⟩ :=
      ⟨h.refines.congr rfl rfl (fun _ _ _ => rfl), h.kernel, h.tcr, h.ttbr1, rfl, .inl rfl, h.entries⟩
    have hlow : ∀ va : Word, va.toNat < userVaSize →
        translation { r.mmu with currentUserPgd := 0, ttbr0 := 0 } va = none := by
      intro va hva
      have ha := h'.activeRoot_user hva
      rw [if_pos rfl] at ha
      unfold translation
      rw [ha]
    constructor
    · intro hkeep _ va hva
      cases htr : translation r.mmu va with
      | none => rfl
      | some d => exact absurd ((hlow va hva).symm.trans (hkeep va d htr)) (by simp)
    · intro hn va d htr
      by_cases hva : va.toNat < userVaSize
      · rw [hn hc.symm va hva] at htr
        cases htr
      · rw [← htr]
        have ha := (h'.activeRoot_kernel (not_lt.mp hva)).trans
          (h.activeRoot_kernel (not_lt.mp hva)).symm
        exact translation_congr ha (fun _ _ => rfl)
  · rw [if_neg hc]
    exact ⟨fun _ he => absurd he.symm hc, fun _ va d htr => htr⟩

/-- A write outside the tables changes no translation. -/
theorem WalkInv.write_translation (h : WalkInv L r) {m : ByteMem.Mem}
    (hm : ∀ x, L.pageTablesStart ≤ x → x < L.pageTablesEnd → m x = r.mmu.mem x) (va : Word) :
    translation { r.mmu with mem := m } va = translation r.mmu va := by
  have h' : Refines L { r.mmu with mem := m } r.spaces := h.refines.congr rfl rfl hm
  have hactive : activeRoot { r.mmu with mem := m } va = activeRoot r.mmu va := rfl
  refine translation_congr hactive (fun root ha => ?_)
  obtain ⟨f, hf⟩ := Option.isSome_iff_exists.mp (h.activeRoot_mem ha)
  rw [h'.leaf root f hf va, h.refines.leaf root f hf va]

/-- **A call drops what it changes exactly if it leaves nothing stale.** -/
theorem TableCallStep.keeps_iff {c : TableCall} (h : WalkInv L r) (hs : TableCallStep L r c r') :
    Cache.Keeps (fun r => translation r.mmu) (fun r c va => TlbDrops r.mmu va c) r c r' ↔
      NothingStale r.mmu c := by
  cases hs with
  | table hc => exact hc.keeps_iff h
  | switchUserTable hr =>
      rename_i s σ userPgd
      refine iff_of_true ?_ trivial
      intro va d htr hdrop
      -- not dropped: the early return for the current table
      have he : userPgd = s.currentUserPgd := not_not.mp hdrop
      show translation (mmuSwitchUserTable s userPgd) va = some d
      rw [mmuSwitchUserTable, if_pos he]
      exact htr
  | destroyUserTable userPgd =>
      rename_i s σ
      rw [← h.destroy_keeps_iff userPgd]
      exact ⟨fun hk va d htr => hk va d htr id, fun hk va d htr _ => hk va d htr⟩
  | write hm =>
      refine iff_of_true ?_ trivial
      intro va d htr _
      exact (h.write_translation hm va).trans htr

end

/-- **When the TLB stays coherent**, for every order of calls after `mmu_init` and whatever the
TLB takes in between them: exactly if no call leaves a stale translation behind. -/
theorem tlb_coherent_iff (L : Linker) (s : Mmu) {s₀ : Mmu} (h₀ : mmuInit L s.boot = some s₀)
    {t : List (MmuRun × TableCall × MmuRun)} {r : MmuRun}
    (h : Trace (TableCallStep L) ⟨s₀, initSpaces L⟩ t r) :
    (∀ u r' T, u <:+ t → Tlb L ⟨s₀, initSpaces L⟩ u r' T → TlbCoherent r' T) ↔
      ∀ x ∈ t, NothingStale x.1.mmu x.2.1 := by
  obtain ⟨s', he, hready⟩ := mmuInit_total L s
  rw [h₀] at he
  cases he
  have hexact := trace_exact (I := WalkInv L)
    (P := Cache.Keeps (fun r => translation r.mmu) (fun r c va => TlbDrops r.mmu va c))
    (C := fun r c _ => NothingStale r.mmu c) hready.walkInv
    (fun _ _ _ hi hs _ => hs.tableStep.walkInv hi) (fun _ _ _ hi hs => hs.keeps_iff hi) h
  exact (Cache.coherent_iff h).trans hexact

/-- A run that creates a user table, maps the page of `USER_CODE_START` in it and switches to
it. -/
theorem user_page_run : ∃ s₀ t r d, mmuInit default bssMmu.boot = some s₀ ∧
    Trace (TableCallStep default) ⟨s₀, initSpaces default⟩ t r ∧
    (∀ x ∈ t, NothingStale x.1.mmu x.2.1) ∧ WalkInv default r ∧
    translation r.mmu (0x400000 : Word) = some d := by
  obtain ⟨s₀, he, hready⟩ := mmuInit_total default bssMmu
  have hend := (default : Linker).end_eq
  have hroom := hready.room
  have hsize : pageSize = 4096 := rfl
  have w₀ := hready.walkInv
  obtain ⟨⟨u, s₁⟩, ha⟩ := Option.isSome_iff_exists.mp
    ((allocPageTable_isSome default s₀).mpr (by omega))
  obtain ⟨hu, hn₁, _, hfresh, _⟩ := allocPageTable_spec hready.refines.inv ha
  have step₁ : TableCallStep default ⟨s₀, initSpaces default⟩ (.table .createUserTable)
      ⟨s₁, (initSpaces default).newRoot u⟩ := .table (.createUserTable ha)
  have w₁ := step₁.tableStep.walkInv w₀
  have hroot : u ∈ ((initSpaces default).newRoot u).roots := by
    rw [Spaces.roots_newRoot]
    exact Set.mem_insert u _
  have hu0 : u ≠ 0 := w₁.refines.inv.root_ne_zero hroot
  have hle := Nat.mul_le_mul_right pageSize (tablesMissing_le s₁.mem u 0x400000)
  obtain ⟨s₂, hi, _⟩ := installPage_room w₁.refines.inv hroot 0x400000 0x41000000 pageUserRx (by
    refine (Nat.add_le_add_left hle _).trans ?_
    rw [hn₁]
    omega)
  have hmap : mmuMapUserPage default s₁ u 0x400000 0x41000000 pageUserRx = some s₂ := by
    rw [mmuMapUserPage, if_neg hu0, if_neg (by decide)]
    exact hi
  have mstep₂ := MmuStep.mapUserPage (L := default) (.inr hroot) hmap
  have step₂ := TableCallStep.table mstep₂
  have w₂ := step₂.tableStep.walkInv w₁
  have htarget : (MmuCall.mapUserPage u 0x400000 0x41000000 pageUserRx).target s₁.kernelPgd =
      some (u, pageNumber 0x400000, pageDescriptor 0x41000000 pageUserRx) := by
    rw [MmuCall.target, if_pos (by decide)]
  have hleaf := mstep₂.leaf_target w₁.refines htarget hroot rfl
  simp only [htarget] at step₂ w₂
  have hroot₂ : u ∈ (((initSpaces default).newRoot u).set u (pageNumber 0x400000)
      (pageDescriptor 0x41000000 pageUserRx)).roots := by
    rw [Spaces.roots_set]
    exact hroot
  have step₃ := TableCallStep.switchUserTable (L := default) (s := s₂) (.inr hroot₂)
  have w₃ := step₃.tableStep.walkInv w₂
  -- until the switch no user table is active
  have hcur : s₁.currentUserPgd = 0 :=
    (allocPageTable_spec hready.refines.inv ha).2.2.2.2.2.2.2.currentUserPgd.trans
      hready.currentUserPgd
  refine ⟨s₀, _, _, pageDescriptor 0x41000000 pageUserRx, he,
    ((Trace.start.next step₁).next step₂).next step₃, ?_, w₃, ?_⟩
  · rw [List.forall_mem_cons, List.forall_mem_cons, List.forall_mem_cons]
    refine ⟨trivial, ?_, ?_, fun _ hx => absurd hx List.not_mem_nil⟩
    · intro root page d ht va old hact _ _
      rw [htarget] at ht
      cases ht
      by_cases hva : va.toNat < userVaSize
      · rw [w₁.activeRoot_user hva, if_pos hcur] at hact
        cases hact
      · rw [w₁.activeRoot_kernel (not_lt.mp hva)] at hact
        split_ifs at hact
        have hk := w₀.refines.inv.forest.root_mem w₀.kernel
        have hk' : s₁.kernelPgd = s₀.kernelPgd :=
          (allocPageTable_spec hready.refines.inv ha).2.2.2.2.2.2.2.kernelPgd
        rw [← hk', Option.some.inj hact] at hk
        exact absurd hk hfresh
    · intro root page d ht
      cases ht
  · have hne : u ≠ s₂.currentUserPgd := by
      rw [(installPage_spec w₁.refines.inv hroot hi).1.frame.currentUserPgd, hcur]
      exact hu0
    have hswitch : mmuSwitchUserTable s₂ u =
        { s₂ with currentUserPgd := u, ttbr0 := BitVec.ofNat 64 u } := if_neg hne
    rw [translation_some_iff]
    refine ⟨u, ?_, ?_, by decide⟩
    · rw [w₃.activeRoot_user (by decide)]
      simp only [hswitch, if_neg hu0]
    · simp only [hswitch]
      exact hleaf

/-- On that run the TLB is coherent throughout. -/
theorem tlb_coherent_user_page : ∃ s₀ t r, mmuInit default bssMmu.boot = some s₀ ∧
    Trace (TableCallStep default) ⟨s₀, initSpaces default⟩ t r ∧
    ∀ u r' T, u <:+ t → Tlb default ⟨s₀, initSpaces default⟩ u r' T → TlbCoherent r' T := by
  obtain ⟨s₀, t, r, _, he, ht, hn, _⟩ := user_page_run
  exact ⟨s₀, t, r, he, ht, (tlb_coherent_iff default bssMmu he ht).mpr hn⟩

/-- Destroying the table after that run leaves its translation in the TLB. -/
theorem tlb_stale_after_destroy : ∃ s₀ t r, mmuInit default bssMmu.boot = some s₀ ∧
    Trace (TableCallStep default) ⟨s₀, initSpaces default⟩ t r ∧
    ∃ T, Tlb default ⟨s₀, initSpaces default⟩ t r T ∧ ¬ TlbCoherent r T := by
  obtain ⟨s₀, t, r, d, he, ht, _, hw, hd⟩ := user_page_run
  have step : TableCallStep default r (.destroyUserTable r.mmu.currentUserPgd)
      ⟨mmuDestroyUserTable r.mmu r.mmu.currentUserPgd, r.spaces⟩ := .destroyUserTable _
  refine ⟨s₀, _, _, he, ht.next step, _, ((Cache.filled_empty ht).fill hd).next step, ?_⟩
  intro hc
  have hkeep : translation (mmuDestroyUserTable r.mmu r.mmu.currentUserPgd) 0x400000 = some d :=
    hc (0x400000, d) ⟨Set.mem_insert _ _, id⟩
  have hw' := step.tableStep.walkInv hw
  obtain ⟨root, ha, _⟩ := translation_some_iff.mp hkeep
  rw [hw'.activeRoot_user (by decide)] at ha
  simp only [mmuDestroyUserTable, if_true] at ha
  cases ha

end AArch64Os
