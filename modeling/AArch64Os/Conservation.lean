import AArch64Os.Isolation

/-! # Resource conservation

As long as no user task exits, the pages in use are those of the live tasks and of other
kernel code, and the page tables in use are those below the kernel's root and below the roots
of the live user tasks (`resources_conserved`).  The exit of a user task breaks both: its
program block is not freed, and its page table is not destroyed (`user_exit_leaks`). -/

namespace AArch64Os

open ByteMem Radix Relation

/-- A live task owns the page: it is its kernel stack, its user stack or a page that its table
maps in the program region. -/
def OwnsPage (k : Kernel) (i : Slot) (q : ℕ) : Prop :=
  k.sched.state i ≠ .terminated ∧
  ((k.task i).kernelStackBase = pageToPhys q ∨
    (k.task i).level = .user ∧ ((k.task i).userStackBase = pageToPhys q ∨
      ∃ j < 8, ∃ d, d = leafEntry k.mmu.mem (k.task i).pageTable (pageAt userProgBase j) ∧
        IsPage d ∧ tableAddr d = pageToPhys q))

/-- The tables reached from a root. -/
def tablesBelow (m : Mem) (root : ℕ) : Set ℕ :=
  {t | ∃ p : List (Fin 512), p.length ≤ 3 ∧ walk nextTable (entries m) root p = some t}

/-- Nothing is in use that nobody owns. -/
structure Conserved (L : Linker) (r : KernelRun) : Prop where
  /-- The pages that are neither free nor reserved for the kernel nor allocated by other kernel
  code are those of the live tasks. -/
  pages : ∀ q < r.kernel.pmm.numPages,
    ((r.kernel.pmm.pages q).flags ≠ pageFree ∧ ¬ kernelPage q ∧ ∀ b ∈ r.heap, ¬ b.Has q) ↔
      ∃ i, OwnsPage r.kernel i q
  /-- The tables handed out are the kernel's and those of the live user tasks. -/
  tables : ∀ t, t ∈ r.kernel.mmu.tables L ↔
    t ∈ tablesBelow r.kernel.mmu.mem r.kernel.mmu.kernelPgd ∨
      ∃ i, LiveUser r.kernel.sched i ∧
        t ∈ tablesBelow r.kernel.mmu.mem (r.kernel.task i).pageTable

/-! ### Pages -/

theorem pageToPhys_inj {p q : ℕ} (h : pageToPhys p = pageToPhys q) : p = q := by
  simp only [pageToPhys, dramBase, pageSize] at h
  omega

theorem Block.has_one {p q : ℕ} : (⟨p, 0⟩ : Block).Has q ↔ q = p := by
  simp only [Block.Has, Block.size]
  omega

theorem progPage_inj {i j : ℕ} (hi : i < 8) (hj : j < 8)
    (h : pageNumber (pageAt userProgBase i) = pageNumber (pageAt userProgBase j)) : i = j := by
  have h1 := congrArg BitVec.toNat h
  have h2 : pageSize = 4096 := rfl
  rw [toNat_pageNumber, toNat_pageNumber, toNat_progPage hi, toNat_progPage hj, h2] at h1
  omega

/-- The program pages that a table maps. -/
theorem MapsExactly.program_iff {m : Mem} {root prog n stack q : ℕ}
    (h : MapsExactly m root prog n stack) (hn : n ≤ 8) :
    (∃ j < 8, ∃ d, d = leafEntry m root (pageAt userProgBase j) ∧ IsPage d ∧
      tableAddr d = pageToPhys q) ↔ prog ≤ q ∧ q < prog + n := by
  constructor
  · rintro ⟨j, hj, d, rfl, hpage, haddr⟩
    by_cases hjn : j < n
    · have := (h.program j hjn _ rfl).2.1
      have hq := pageToPhys_inj (haddr.symm.trans this)
      omega
    · have h0 : leafEntry m root (pageAt userProgBase j) = 0 := by
        refine h.other _ (fun i hi he => ?_) (progPage_ne_stack hj)
        have := progPage_inj hj (by omega) he
        omega
      rw [h0] at hpage
      exact absurd hpage.1 (by decide)
  · rintro ⟨h1, h2⟩
    obtain ⟨hp, ha, -⟩ := h.program (q - prog) (by omega) _ rfl
    refine ⟨q - prog, by omega, _, rfl, hp, ?_⟩
    rw [ha, Nat.add_sub_cancel' h1]

/-- The pages that a task owns are those of its blocks. -/
theorem KernelInv.ownsPage_iff {L : Linker} {r : KernelRun} {g : Slot → Holding} {σ : Spaces}
    {leaked : List Block} {dead : Set ℕ} (h : KernelInv L r g σ leaked dead) (i : Slot) (q : ℕ) :
    OwnsPage r.kernel i q ↔ ∃ b ∈ slotBlocks (r.kernel.task i) (g i), b.Has q := by
  unfold OwnsPage
  by_cases hs : r.kernel.sched.state i = .terminated
  · have hnil : slotBlocks (r.kernel.task i) (g i) = [] := if_pos hs
    rw [hnil]
    simp [hs]
  · have hb : slotBlocks (r.kernel.task i) (g i) = (g i).blocks (r.kernel.task i).level :=
      slotBlocks_live hs (g i)
    have hk := (h.owns.task i hs).kstack
    have hk' : (r.kernel.task i).kernelStackBase = pageToPhys q ↔ q = (g i).kstack := by
      rw [hk]
      exact ⟨fun e => (pageToPhys_inj e).symm, fun e => by rw [e]⟩
    rw [hb, hk']
    cases hl : (r.kernel.task i).level with
    | kernel =>
        simp [hs, Holding.blocks, Block.has_one]
    | user =>
        have hu := (h.owns.task i hs).ustack hl
        have hu' : (r.kernel.task i).userStackBase = pageToPhys q ↔ q = (g i).ustack := by
          rw [hu]
          exact ⟨fun e => (pageToPhys_inj e).symm, fun e => by rw [e]⟩
        obtain ⟨hord, hle⟩ := (h.owns.task i hs).order hl
        have hpow : 2 ^ r.order i ≤ 8 := hord ▸ Nat.pow_le_pow_right (by decide) hle
        have hm := (h.isolated.maps i ⟨hs, hl⟩).program_iff (q := q) hpow
        rw [hu', hm, ← hord]
        simp only [hs, Holding.blocks, List.mem_cons, List.not_mem_nil, or_false, exists_eq_or_imp,
          exists_eq_left, Block.has_one, ne_eq, not_false_eq_true, true_and]
        rfl

/-- What is in use and not the kernel's: the blocks of the tasks, and what was leaked. -/
theorem KernelInv.inUse_iff {L : Linker} {r : KernelRun} {g : Slot → Holding} {σ : Spaces}
    {leaked : List Block} {dead : Set ℕ} (h : KernelInv L r g σ leaked dead) {q : ℕ}
    (hq : q < r.kernel.pmm.numPages) :
    ((r.kernel.pmm.pages q).flags ≠ pageFree ∧ ¬ kernelPage q ∧ ∀ b ∈ r.heap, ¬ b.Has q) ↔
      (∃ i, OwnsPage r.kernel i q) ∨ ∃ b ∈ leaked, b.Has q := by
  have hp := h.owns.pmm
  have hown : (∃ i, OwnsPage r.kernel i q) ↔ ∃ b ∈ liveBlocks r.kernel.sched g, b.Has q := by
    simp only [h.ownsPage_iff]
    constructor
    · rintro ⟨i, b, hb, hbq⟩
      exact ⟨b, slotBlocks_sub r.kernel.sched g i hb, hbq⟩
    · rintro ⟨b, hb, hbq⟩
      obtain ⟨i, -, hi⟩ := List.mem_flatMap.mp hb
      exact ⟨i, b, hi, hbq⟩
  have hflag : (r.kernel.pmm.pages q).flags = (r.kernel.pmm.tags q).flags := rfl
  rw [hown, hflag]
  constructor
  · rintro ⟨hfree, hk, hheap⟩
    have hused : (r.kernel.pmm.tags q).flags = pageUsed := by
      rcases h.owns.pmm.flags q hq with hf | hf | hf
      · exact absurd hf hfree
      · exact hf
      · exact absurd ((hp.reserved q hq).mp hf) hk
    obtain ⟨b, hb, hbq⟩ := hp.cover q hq hused
    rcases List.mem_append.mp hb with hb | hb
    · exact .inl ⟨b, hb, hbq⟩
    · rcases List.mem_append.mp hb with hb | hb
      · exact absurd hbq (hheap b hb)
      · exact .inr ⟨b, hb, hbq⟩
  · have hmain : ∀ b ∈ liveBlocks r.kernel.sched g ++ (r.heap ++ leaked), b.Has q →
        (r.kernel.pmm.tags q).flags ≠ pageFree ∧ ¬ kernelPage q := by
      intro b hb hbq
      have hu := (hp.used b hb q hbq).2
      rw [← hp.reserved q hq, hu]
      decide
    obtain ⟨-, hrest, hlive⟩ := List.pairwise_append.mp hp.disjoint
    obtain ⟨-, -, hheap⟩ := List.pairwise_append.mp hrest
    rintro (⟨b, hb, hbq⟩ | ⟨b, hb, hbq⟩)
    · obtain ⟨h1, h2⟩ := hmain b (List.mem_append_left _ hb) hbq
      exact ⟨h1, h2, fun b' hb' => hlive b hb b' (List.mem_append_left _ hb') q hbq⟩
    · obtain ⟨h1, h2⟩ := hmain b (List.mem_append_right _ (List.mem_append_right _ hb)) hbq
      exact ⟨h1, h2, fun b' hb' => (hheap b' hb' b hb).symm q hbq⟩

/-! ### Tables -/

/-- The tables handed out are those below the roots. -/
theorem KernelInv.tables_iff {L : Linker} {r : KernelRun} {g : Slot → Holding} {σ : Spaces}
    {leaked : List Block} {dead : Set ℕ} (h : KernelInv L r g σ leaked dead) (t : ℕ) :
    t ∈ r.kernel.mmu.tables L ↔
      t ∈ tablesBelow r.kernel.mmu.mem r.kernel.mmu.kernelPgd ∨
      (∃ i, LiveUser r.kernel.sched i ∧
        t ∈ tablesBelow r.kernel.mmu.mem (r.kernel.task i).pageTable) ∨
      ∃ u ∈ dead, t ∈ tablesBelow r.kernel.mmu.mem u := by
  have hforest := h.tables.refines.inv.forest
  have hroots := h.tables.roots
  constructor
  · intro ht
    obtain ⟨u, hu, p, hp, hw⟩ := hforest.covered t ht
    rw [hroots] at hu
    rcases hu with rfl | ⟨i, hi, rfl⟩ | hu
    · exact .inl ⟨p, hp, hw⟩
    · exact .inr (.inl ⟨i, hi, p, hp, hw⟩)
    · exact .inr (.inr ⟨u, hu, p, hp, hw⟩)
  · have hin : ∀ u ∈ σ.roots, t ∈ tablesBelow r.kernel.mmu.mem u → t ∈ r.kernel.mmu.tables L := by
      rintro u hu ⟨p, hp, hw⟩
      exact hforest.closed u hu p hp t hw
    rw [hroots] at hin
    rintro (ht | ⟨i, hi, ht⟩ | ⟨u, hu, ht⟩)
    · exact hin _ (.inl rfl) ht
    · exact hin _ (.inr (.inl ⟨i, hi, rfl⟩)) ht
    · exact hin u (.inr (.inr hu)) ht

/-- Resources are conserved while nothing was leaked, -/
theorem KernelInv.conserved {L : Linker} {r : KernelRun} {g : Slot → Holding} {σ : Spaces}
    (h : KernelInv L r g σ [] ∅) : Conserved L r where
  pages q hq := by
    rw [h.inUse_iff hq]
    simp
  tables t := by
    rw [h.tables_iff t]
    simp

/-- and not afterwards. -/
theorem KernelInv.not_conserved {L : Linker} {r : KernelRun} {g : Slot → Holding} {σ : Spaces}
    {b : Block} {leaked : List Block} {dead : Set ℕ} (h : KernelInv L r g σ (b :: leaked) dead) :
    ¬ Conserved L r := by
  intro hc
  have hp := h.owns.pmm
  have hb : b ∈ liveBlocks r.kernel.sched g ++ (r.heap ++ b :: leaked) :=
    List.mem_append_right _ (List.mem_append_right _ List.mem_cons_self)
  have hq := (hp.used b hb b.page b.has_page).1
  have huse := (h.inUse_iff hq).mpr (.inr ⟨b, List.mem_cons_self, b.has_page⟩)
  obtain ⟨i, hi⟩ := (hc.pages b.page hq).mp huse
  obtain ⟨b', hb', hbq⟩ := (h.ownsPage_iff i b.page).mp hi
  have hdisj := (List.pairwise_append.mp hp.disjoint).2.2 b' (slotBlocks_sub r.kernel.sched g i hb')
    b (List.mem_append_right _ List.mem_cons_self)
  exact hdisj b.page hbq b.has_page

/-- **Resource conservation**, in every state of every run in which no user task exits. -/
theorem resources_conserved (L : Linker) (idleFunc : Word) (s : Mmu) {r : KernelRun}
    (h : Reachable L idleFunc s (fun c r => c.Fits ∧ ¬ EndsUser c r) r) : Conserved L r := by
  obtain ⟨g, σ, hi⟩ := h.invariant (I := fun r => ∃ g σ, KernelInv L r g σ [] ∅)
    (fun _ _ hb => ⟨_, _, hb.kernelInv⟩)
    (by
      rintro c r r' ⟨g, σ, hi⟩ ⟨hfits, hne⟩ hstep
      obtain ⟨g', σ', _, _, hi', hsame⟩ := hstep.kernelInv hi hfits
      obtain ⟨rfl, rfl⟩ := hsame hne
      exact ⟨g', σ', hi'⟩)
  exact hi.conserved

/-- The state after `boot` and the creation of a user task. -/
theorem resources_conserved_first_user : ∃ r, Conserved default r ∧
    ∃ i, LiveUser r.kernel.sched i := by
  obtain ⟨k, stack, hk, hb⟩ := boot_total default 0 bssMmu
  have hsize : (64 : Word).toNat ≤ pageSize := by decide
  obtain ⟨id, k', i, _, _, he, _, _, _, hl⟩ := hb.first_user hsize [] 0x40500000 1
  have hfits : (KernelCall.createUser [] 0x40500000 64 1).Fits := by
    show (64 : Word).toNat ≤ 8 * pageSize
    decide
  have hne : ¬ EndsUser (.createUser [] 0x40500000 64 1) ⟨k, [], fun _ => 0⟩ := fun hc => by
    cases hc.1
  exact ⟨_, resources_conserved default 0 bssMmu
    ⟨k, hk, .single ⟨_, ⟨hfits, hne⟩, .createUser he⟩⟩, i, hl⟩

/-- A user task is created after `boot`, dispatched at the next tick and exits: idle runs again,
and the page of the program is lost. -/
theorem user_exit_leaks : ∃ k id k', boot default 0 bssMmu = some k ∧
    taskCreateUser default k [] 0x40500000 64 1 = some (id, k') ∧
    Reachable default 0 bssMmu (fun c _ => c.Fits)
      ⟨(taskExit (schedule (taskYield k')).1).1, [], noteOrder (fun _ => 0) k.sched 64⟩ ∧
    (taskExit (schedule (taskYield k')).1).1.sched.currentTask = some 0 ∧
    ¬ Conserved default
      ⟨(taskExit (schedule (taskYield k')).1).1, [], noteOrder (fun _ => 0) k.sched 64⟩ := by
  obtain ⟨k, stack, hk, hb⟩ := boot_total default 0 bssMmu
  have hsize : (64 : Word).toNat ≤ pageSize := by decide
  obtain ⟨id, k', i, g, σ, he, hinv, hi, hi0, hl⟩ := hb.first_user hsize [] 0x40500000 1
  have hfits : (KernelCall.createUser [] 0x40500000 64 1).Fits := by
    show (64 : Word).toNat ≤ 8 * pageSize
    decide
  -- the two steps that lead to the user task
  have hyield : KernelStep default .yield ⟨k', [], noteOrder (fun _ => 0) k.sched 64⟩
    ⟨taskYield k', [], noteOrder (fun _ => 0) k.sched 64⟩ := .yield _ _ _
  have htick : KernelStep default .tick ⟨taskYield k', [], noteOrder (fun _ => 0) k.sched 64⟩
    ⟨(schedule (taskYield k')).1, [], noteOrder (fun _ => 0) k.sched 64⟩ := .tick _ _ _
  obtain ⟨g₁, σ₁, _, _, hinv₁, hsame₁⟩ := hyield.kernelInv (c := .yield) hinv trivial
  obtain ⟨rfl, rfl⟩ := hsame₁ (fun hc => by cases hc.1)
  obtain ⟨g₂, σ₂, _, _, hinv₂, hsame₂⟩ := htick.kernelInv (c := .tick) hinv₁ trivial
  obtain ⟨rfl, rfl⟩ := hsame₂ (fun hc => by cases hc.1)
  obtain ⟨hi', ht⟩ := hi.dispatch
  have hcur := hi'.current
  have huser : ((schedule (taskYield k')).1.task i).level = .user :=
    ((ht.sameOwners.liveUser i).mpr hl).2
  have hexit := hinv₂.exit hcur hi0
  rw [forgotten, huser] at hexit
  refine ⟨k, id, k', hk, he, ⟨k, hk, ?_⟩, ?_, hexit.not_conserved⟩
  · exact (((ReflTransGen.single ⟨_, hfits, .createUser he⟩).tail ⟨.yield, trivial, hyield⟩).tail
      ⟨.tick, trivial, htick⟩).tail ⟨.exit, trivial, .exit (hi'.current_ne_idle hi0)⟩
  · exact (hi'.exit hi0).1.current

end AArch64Os
