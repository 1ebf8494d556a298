import AArch64Os.KernelRuns
import AArch64Os.UserSpace

/-! # Who owns which page

A live task owns the page of its kernel stack; a user task also owns the page of its user
stack, its program block and the tables below its root.  `Owns` says that the blocks that the
page allocator has given out are those of the live tasks, those of other kernel code and the
ones in `leaked`; `Tables` says the same of the roots of the page tables, with `dead` for the
roots of user tasks that are gone.  Both are kept by every call (`KernelStep.kernelInv`), and
only the exit of a user task adds to `leaked` and `dead`. -/

namespace AArch64Os

open ByteMem

/-! ### Blocks of the tasks -/

/-- The pages that a task was given when it was created. -/
structure Holding where
  kstack : ℕ
  ustack : ℕ
  prog : ℕ
  order : ℕ

/-- The blocks that a task of a level holds. -/
def Holding.blocks (h : Holding) : TaskLevel → List Block
  | .kernel => [⟨h.kstack, 0⟩]
  | .user => [⟨h.kstack, 0⟩, ⟨h.ustack, 0⟩, ⟨h.prog, h.order⟩]

/-- The blocks that belong to a slot. -/
def slotBlocks (t : Task) (h : Holding) : List Block :=
  if t.state = .terminated then [] else h.blocks t.level

/-- The blocks of all live tasks. -/
def liveBlocks (s : Sched) (g : Slot → Holding) : List Block :=
  (List.finRange maxTasks).flatMap (fun i => slotBlocks (s.taskPool i) (g i))

theorem slotBlocks_live {t : Task} (h : t.state ≠ .terminated) (g : Holding) :
    slotBlocks t g = g.blocks t.level := if_neg h

/-- The blocks of the slots other than `i`. -/
def otherBlocks (s : Sched) (g : Slot → Holding) (i : Slot) : List Block :=
  ((List.finRange maxTasks).erase i).flatMap (fun j => slotBlocks (s.taskPool j) (g j))

theorem liveBlocks_perm (s : Sched) (g : Slot → Holding) (i : Slot) :
    (liveBlocks s g).Perm (slotBlocks (s.taskPool i) (g i) ++ otherBlocks s g i) :=
  (List.perm_cons_erase (List.mem_finRange i)).flatMap_right
    (fun j => slotBlocks (s.taskPool j) (g j))

theorem blockPages_liveBlocks (s : Sched) (g : Slot → Holding) : blockPages (liveBlocks s g) =
    ((List.finRange maxTasks).map (fun i => blockPages (slotBlocks (s.taskPool i) (g i)))).sum := by
  unfold blockPages liveBlocks
  rw [List.map_flatMap, List.flatMap_def, List.sum_flatten, List.map_map]
  rfl

theorem otherBlocks_congr {s s' : Sched} {g g' : Slot → Holding} {i : Slot}
    (hne : ∀ j, j ≠ i → slotBlocks (s'.taskPool j) (g' j) = slotBlocks (s.taskPool j) (g j)) :
    otherBlocks s' g' i = otherBlocks s g i := by
  apply List.flatMap_congr
  intro j hj
  have hji : j ≠ i := by
    rintro rfl
    exact (List.nodup_finRange maxTasks).not_mem_erase hj
  exact hne j hji

/-- A slot without a task comes to hold blocks. -/
theorem liveBlocks_fill {s s' : Sched} {g g' : Slot → Holding} {i : Slot}
    (hi : s.state i = .terminated)
    (hne : ∀ j, j ≠ i → slotBlocks (s'.taskPool j) (g' j) = slotBlocks (s.taskPool j) (g j)) :
    (liveBlocks s' g').Perm (slotBlocks (s'.taskPool i) (g' i) ++ liveBlocks s g) := by
  have hnil : slotBlocks (s.taskPool i) (g i) = [] := if_pos hi
  have hold := liveBlocks_perm s g i
  rw [hnil, List.nil_append] at hold
  have hnew := liveBlocks_perm s' g' i
  rw [otherBlocks_congr hne] at hnew
  exact hnew.trans (List.Perm.append_left _ hold.symm)

/-- From `s` to `s'` the live tasks are the same, and have kept what they own. -/
structure SameOwners (s s' : Sched) : Prop where
  terminated : ∀ i, s'.state i = .terminated ↔ s.state i = .terminated
  resources : ∀ i, s.state i ≠ .terminated →
    (s'.taskPool i).resources = (s.taskPool i).resources

theorem SameTasks.sameOwners {s s' : Sched} (h : SameTasks s s') : SameOwners s s' :=
  ⟨h.terminated, fun i _ => h.resources i⟩

theorem FreeSlotsOnly.sameOwners {s s' : Sched} (h : FreeSlotsOnly s s') : SameOwners s s' := by
  constructor
  · intro i
    rw [h.state]
  · intro i hi
    rw [h.live i hi]

section
variable {t t' : Task}

theorem level_of_resources (h : t'.resources = t.resources) : t'.level = t.level :=
  (congrArg Task.level h : t'.resources.level = t.resources.level)

theorem pageTable_of_resources (h : t'.resources = t.resources) : t'.pageTable = t.pageTable :=
  (congrArg Task.pageTable h : t'.resources.pageTable = t.resources.pageTable)

theorem kernelStackBase_of_resources (h : t'.resources = t.resources) :
    t'.kernelStackBase = t.kernelStackBase :=
  (congrArg Task.kernelStackBase h : t'.resources.kernelStackBase = t.resources.kernelStackBase)

theorem userStackBase_of_resources (h : t'.resources = t.resources) :
    t'.userStackBase = t.userStackBase :=
  (congrArg Task.userStackBase h : t'.resources.userStackBase = t.resources.userStackBase)

end

theorem SameOwners.liveBlocks_eq {s s' : Sched} (h : SameOwners s s') (g : Slot → Holding) :
    liveBlocks s' g = liveBlocks s g := by
  unfold liveBlocks
  congr 1
  funext i
  unfold slotBlocks
  split_ifs with h1 h2 h2
  · rfl
  · exact absurd ((h.terminated i).mp h1) h2
  · exact absurd ((h.terminated i).mpr h2) h1
  · rw [level_of_resources (h.resources i h2)]

/-! ### The invariant -/

/-- The fields of a live task name the pages it holds. -/
structure Holds (t : Task) (h : Holding) (order : ℕ) : Prop where
  kstack : t.kernelStackBase = pageToPhys h.kstack
  noUstack : t.level = .kernel → t.userStackBase = 0
  ustack : t.level = .user → t.userStackBase = pageToPhys h.ustack
  order : t.level = .user → h.order = order ∧ h.order ≤ 3

theorem Holds.congr {t t' : Task} {h : Holding} {order : ℕ} (hh : Holds t h order)
    (hr : t'.resources = t.resources) : Holds t' h order := by
  have hl := level_of_resources hr
  refine ⟨(kernelStackBase_of_resources hr).trans hh.kstack, ?_, ?_, ?_⟩
  · intro hk
    exact (userStackBase_of_resources hr).trans (hh.noUstack (hl ▸ hk))
  · intro hu
    exact (userStackBase_of_resources hr).trans (hh.ustack (hl ▸ hu))
  · intro hu
    exact hh.order (hl ▸ hu)

/-- What the page allocator has given out. -/
structure Owns (r : KernelRun) (g : Slot → Holding) (leaked : List Block) : Prop where
  pmm : PmmInv r.kernel.pmm (liveBlocks r.kernel.sched g ++ (r.heap ++ leaked))
  task : ∀ i, r.kernel.sched.state i ≠ .terminated → Holds (r.kernel.task i) (g i) (r.order i)

/-- A user task lives in the slot. -/
def LiveUser (s : Sched) (i : Slot) : Prop :=
  s.state i ≠ .terminated ∧ (s.taskPool i).level = .user

/-- The roots of the live user tasks. -/
def userRoots (s : Sched) : Set ℕ := {u | ∃ i, LiveUser s i ∧ (s.taskPool i).pageTable = u}

/-- The table that belongs into `TTBR0_EL1` while a task runs. -/
def userTable (t : Task) : ℕ :=
  match t.level with
  | .kernel => 0
  | .user => t.pageTable

/-- What the page tables hold. -/
structure Tables (L : Linker) (k : Kernel) (g : Slot → Holding) (σ : Spaces) (dead : Set ℕ) :
    Prop where
  refines : Refines L k.mmu σ
  kernelPgd : k.mmu.kernelPgd ≠ 0
  roots : σ.roots = insert k.mmu.kernelPgd (userRoots k.sched ∪ dead)
  space : ∀ i, LiveUser k.sched i → σ (k.task i).pageTable =
    some (userSpace (pageToPhys (g i).prog) (pageToPhys (g i).ustack) (2 ^ (g i).order))
  ttbr0 : k.mmu.ttbr0 = BitVec.ofNat 64 k.mmu.currentUserPgd
  current : ∀ c, k.sched.currentTask = some c → k.mmu.currentUserPgd = userTable (k.task c)

theorem SameOwners.liveUser {s s' : Sched} (h : SameOwners s s') (i : Slot) :
    LiveUser s' i ↔ LiveUser s i := by
  unfold LiveUser
  rw [Ne, h.terminated i]
  constructor
  · rintro ⟨h1, h2⟩
    exact ⟨h1, (level_of_resources (h.resources i h1)) ▸ h2⟩
  · rintro ⟨h1, h2⟩
    exact ⟨h1, (level_of_resources (h.resources i h1)).trans h2⟩

theorem SameOwners.userRoots_eq {s s' : Sched} (h : SameOwners s s') :
    userRoots s' = userRoots s := by
  ext u
  constructor
  · rintro ⟨i, hi, rfl⟩
    have hi' := (h.liveUser i).mp hi
    exact ⟨i, hi', (pageTable_of_resources (h.resources i hi'.1)).symm⟩
  · rintro ⟨i, hi, rfl⟩
    exact ⟨i, (h.liveUser i).mpr hi, pageTable_of_resources (h.resources i hi.1)⟩

theorem userTable_of_resources {t t' : Task} (h : t'.resources = t.resources) :
    userTable t' = userTable t := by
  unfold userTable
  rw [level_of_resources h, pageTable_of_resources h]

/-- The invariant of a run. -/
structure KernelInv (L : Linker) (r : KernelRun) (g : Slot → Holding) (σ : Spaces)
    (leaked : List Block) (dead : Set ℕ) : Prop where
  sched : ∃ l c, SchedInv r.kernel.sched l c
  owns : Owns r g leaked
  tables : Tables L r.kernel g σ dead

/-! ### Calls that leave every task what it has -/

theorem SchedInv.current_live {s : Sched} {l : List Slot} {c : Slot} (h : SchedInv s l c) :
    s.state c ≠ .terminated := by
  rw [(h.running c).mpr rfl]
  simp

section
variable {L : Linker} {k k' : Kernel} {g : Slot → Holding} {σ : Spaces} {dead : Set ℕ}

theorem Tables.same (h : Tables L k g σ dead) (ho : SameOwners k.sched k'.sched)
    (href : Refines L k'.mmu σ) (hk : k'.mmu.kernelPgd = k.mmu.kernelPgd)
    (ht : k'.mmu.ttbr0 = BitVec.ofNat 64 k'.mmu.currentUserPgd)
    (hc : ∀ c, k'.sched.currentTask = some c → k'.mmu.currentUserPgd = userTable (k'.task c)) :
    Tables L k' g σ dead where
  refines := href
  kernelPgd := hk ▸ h.kernelPgd
  roots := by rw [ho.userRoots_eq, hk, h.roots]
  space i hi := by
    have hi' := (ho.liveUser i).mp hi
    have hp : (k'.task i).pageTable = (k.task i).pageTable :=
      pageTable_of_resources (ho.resources i hi'.1)
    rw [hp]
    exact h.space i hi'
  ttbr0 := ht
  current := hc

/-- The registers are untouched and the current task is the same one. -/
theorem Tables.sameCurrent {l : List Slot} {c : Slot} (h : Tables L k g σ dead)
    (hi : SchedInv k.sched l c) (ho : SameOwners k.sched k'.sched)
    (hcur : k'.sched.currentTask = k.sched.currentTask) (href : Refines L k'.mmu σ)
    (hk : k'.mmu.kernelPgd = k.mmu.kernelPgd) (ht : k'.mmu.ttbr0 = k.mmu.ttbr0)
    (hu : k'.mmu.currentUserPgd = k.mmu.currentUserPgd) : Tables L k' g σ dead := by
  refine h.same ho href hk (by rw [ht, hu, h.ttbr0]) ?_
  intro d hd
  have hd' : k.sched.currentTask = some d := hcur ▸ hd
  obtain rfl : c = d := Option.some.inj (hi.current.symm.trans hd')
  have hres : userTable (k'.task c) = userTable (k.task c) :=
    userTable_of_resources (ho.resources c hi.current_live)
  rw [hu, h.current c hd', hres]

theorem Owns.same {r r' : KernelRun} {leaked : List Block} (h : Owns r g leaked)
    (ho : SameOwners r.kernel.sched r'.kernel.sched)
    (hp : PmmInv r'.kernel.pmm (liveBlocks r.kernel.sched g ++ (r'.heap ++ leaked)))
    (hord : ∀ i, r.kernel.sched.state i ≠ .terminated → r'.order i = r.order i) :
    Owns r' g leaked where
  pmm := by
    rw [ho.liveBlocks_eq]
    exact hp
  task i hi := by
    have hi' : r.kernel.sched.state i ≠ .terminated := fun e => hi ((ho.terminated i).mpr e)
    rw [hord i hi']
    exact (h.task i hi').congr (ho.resources i hi')

/-- What a switch does to the registers. -/
theorem switchTables_spec (m : Mmu) {t : Task} (ht : m.ttbr0 = BitVec.ofNat 64 m.currentUserPgd)
    (hp : t.level = .user → t.pageTable ≠ 0) :
    (switchTables m t).currentUserPgd = userTable t ∧
    (switchTables m t).ttbr0 = BitVec.ofNat 64 (switchTables m t).currentUserPgd ∧
    (switchTables m t).kernelPgd = m.kernelPgd ∧
    (switchTables m t).nextPageTable = m.nextPageTable ∧ (switchTables m t).mem = m.mem := by
  have hsw : ∀ u, (mmuSwitchUserTable m u).currentUserPgd = u ∧
      (mmuSwitchUserTable m u).ttbr0 = BitVec.ofNat 64 (mmuSwitchUserTable m u).currentUserPgd ∧
      (mmuSwitchUserTable m u).kernelPgd = m.kernelPgd ∧
      (mmuSwitchUserTable m u).nextPageTable = m.nextPageTable ∧
      (mmuSwitchUserTable m u).mem = m.mem := by
    intro u
    unfold mmuSwitchUserTable
    split_ifs with h
    · exact ⟨h.symm, ht, rfl, rfl, rfl⟩
    · exact ⟨rfl, rfl, rfl, rfl, rfl⟩
  unfold switchTables userTable
  cases hl : t.level with
  | kernel =>
      rw [if_neg (by simp), if_pos rfl]
      exact hsw 0
  | user =>
      rw [if_pos ⟨rfl, hp hl⟩]
      exact hsw t.pageTable

theorem Refines.switchTables {m : Mmu} (h : Refines L m σ) (t : Task)
    (ht : m.ttbr0 = BitVec.ofNat 64 m.currentUserPgd) (hp : t.level = .user → t.pageTable ≠ 0) :
    Refines L (AArch64Os.switchTables m t) σ := by
  obtain ⟨_, _, hk, hn, hm⟩ := switchTables_spec m ht hp
  refine h.congr hk ?_ (fun x _ _ => congrFun hm x)
  unfold Mmu.next
  rw [hn]

/-- The table of a live user task is a root. -/
theorem Tables.pageTable_ne_zero (h : Tables L k g σ dead) {i : Slot} (hi : LiveUser k.sched i) :
    (k.task i).pageTable ≠ 0 :=
  h.refines.inv.root_ne_zero (Spaces.mem_roots (h.space i hi))

/-- A switch to a live task. -/
theorem Tables.switched {s : Sched} {l : List Slot} {n : Slot} {pmm : Pmm}
    (h : Tables L k g σ dead) (ho : SameOwners k.sched s) (hi : SchedInv s l n) :
    Tables L ⟨pmm, AArch64Os.switchTables k.mmu (s.taskPool n), s⟩ g σ dead := by
  have hn : k.sched.state n ≠ .terminated := fun e => hi.current_live ((ho.terminated n).mpr e)
  have hp : (s.taskPool n).level = .user → (s.taskPool n).pageTable ≠ 0 := by
    intro hl
    rw [pageTable_of_resources (ho.resources n hn)]
    exact h.pageTable_ne_zero ⟨hn, (level_of_resources (ho.resources n hn)) ▸ hl⟩
  obtain ⟨hu, ht, hk, _, _⟩ := switchTables_spec k.mmu h.ttbr0 hp
  refine h.same ho (h.refines.switchTables _ h.ttbr0 hp) hk ht ?_
  intro c hc
  obtain rfl : n = c := Option.some.inj (hi.current.symm.trans hc)
  exact hu

end

/-! ### Creation -/

/-- From `s` to `s'` slot `i`, which was free, has got the task `t`. -/
structure Admits (s s' : Sched) (i : Slot) (t : Task) : Prop where
  free : s.state i = .terminated
  state : s'.state i ≠ .terminated
  task : (s'.taskPool i).resources = t.resources
  other : ∀ j, j ≠ i → s'.state j = s.state j ∧
    (s'.taskPool j).resources = (s.taskPool j).resources
  currentTask : s'.currentTask = s.currentTask

/-- A task that was put into a free slot and behind the queue. -/
theorem SlotOnly.admits {s s₁ : Sched} {l : List Slot} {c i : Slot} (h : SlotOnly i s s₁)
    (hi : SchedInv s l c) (hfree : s.state i = .terminated)
    (hready : (s₁.taskPool i).state = .ready) :
    Admits s (addToReadyQueue s₁ i) i (s₁.taskPool i) := by
  have hil := (hi.free_slot hfree).1
  obtain ⟨-, hl⟩ := addToReadyQueue_spec (h.queue hi.queue) hil
  refine ⟨hfree, ?_, hl.resources i, ?_, hl.currentTask.trans h.currentTask⟩
  · rw [hl.state, Sched.state, hready]
    simp
  · intro j hj
    rw [hl.state, hl.resources, h.other j hj]
    exact ⟨h.state hj, rfl⟩

theorem slotBlocks_congr {t t' : Task} (hs : t'.state = t.state) (hr : t'.resources = t.resources)
    (g : Holding) : slotBlocks t' g = slotBlocks t g := by
  unfold slotBlocks
  rw [hs, level_of_resources hr]

section
variable {L : Linker} {g : Slot → Holding} {σ : Spaces} {dead : Set ℕ} {leaked : List Block}
  {i : Slot} {t : Task} {h' : Holding}

/-- The new task owns the blocks that were allocated for it. -/
theorem Owns.admit {r r' : KernelRun} (h : Owns r g leaked)
    (ha : Admits r.kernel.sched r'.kernel.sched i t)
    (hp : PmmInv r'.kernel.pmm
      (h'.blocks t.level ++ (liveBlocks r.kernel.sched g ++ (r'.heap ++ leaked))))
    (hord : ∀ j, j ≠ i → r'.order j = r.order j) (ht : Holds t h' (r'.order i)) :
    Owns r' (Function.update g i h') leaked := by
  have hblocks : slotBlocks (r'.kernel.sched.taskPool i) (Function.update g i h' i) =
      h'.blocks t.level := by
    rw [Function.update_self, slotBlocks_live ha.state, level_of_resources ha.task]
  have hperm : (liveBlocks r'.kernel.sched (Function.update g i h')).Perm
      (h'.blocks t.level ++ liveBlocks r.kernel.sched g) := by
    rw [← hblocks]
    refine liveBlocks_fill ha.free (fun j hj => ?_)
    rw [Function.update_of_ne hj]
    exact slotBlocks_congr (ha.other j hj).1 (ha.other j hj).2 (g j)
  constructor
  · refine hp.perm ?_
    rw [← List.append_assoc]
    exact List.Perm.append_right _ hperm.symm
  · intro j hj
    rcases eq_or_ne j i with rfl | hne
    · rw [Function.update_self]
      exact ht.congr ha.task
    · rw [Function.update_of_ne hne, hord j hne]
      exact (h.task j ((ha.other j hne).1 ▸ hj)).congr (ha.other j hne).2

theorem Admits.liveUser_of_ne {s s' : Sched} (ha : Admits s s' i t) {j : Slot} (hj : j ≠ i) :
    LiveUser s' j ↔ LiveUser s j := by
  unfold LiveUser
  rw [(ha.other j hj).1, level_of_resources (ha.other j hj).2]

/-- The current task is not the new one. -/
theorem Admits.userTable_current {s s' : Sched} (ha : Admits s s' i t) {l : List Slot} {c : Slot}
    (hi : SchedInv s l c) : userTable (s'.taskPool c) = userTable (s.taskPool c) := by
  have hne : c ≠ i := by
    rintro rfl
    exact hi.current_live ha.free
  exact userTable_of_resources (ha.other c hne).2

/-- A new kernel task has no table. -/
theorem Tables.admitKernel {k k' : Kernel} {l : List Slot} {c : Slot} (h : Tables L k g σ dead)
    (hi : SchedInv k.sched l c) (ha : Admits k.sched k'.sched i t) (hk : t.level = .kernel)
    (href : Refines L k'.mmu σ) (hregs : k'.mmu.kernelPgd = k.mmu.kernelPgd ∧
      k'.mmu.ttbr0 = k.mmu.ttbr0 ∧ k'.mmu.currentUserPgd = k.mmu.currentUserPgd) :
    Tables L k' (Function.update g i h') σ dead := by
  obtain ⟨hpgd, htt, hcu⟩ := hregs
  have hnot : ¬ LiveUser k'.sched i := by
    rintro ⟨-, hl⟩
    rw [level_of_resources ha.task, hk] at hl
    cases hl
  have hnot' : ¬ LiveUser k.sched i := fun hl => hl.1 ha.free
  have hroots : userRoots k'.sched = userRoots k.sched := by
    ext u
    constructor
    · rintro ⟨j, hj, rfl⟩
      have hne : j ≠ i := fun e => hnot (e ▸ hj)
      exact ⟨j, (ha.liveUser_of_ne hne).mp hj, (pageTable_of_resources (ha.other j hne).2).symm⟩
    · rintro ⟨j, hj, rfl⟩
      have hne : j ≠ i := fun e => hnot' (e ▸ hj)
      exact ⟨j, (ha.liveUser_of_ne hne).mpr hj, pageTable_of_resources (ha.other j hne).2⟩
  refine ⟨href, hpgd ▸ h.kernelPgd, by rw [hroots, hpgd, h.roots], ?_, by rw [htt, hcu, h.ttbr0], ?_⟩
  · intro j hj
    have hne : j ≠ i := fun e => hnot (e ▸ hj)
    have hp : (k'.task j).pageTable = (k.task j).pageTable :=
      pageTable_of_resources (ha.other j hne).2
    rw [Function.update_of_ne hne, hp]
    exact h.space j ((ha.liveUser_of_ne hne).mp hj)
  · intro d hd
    have hd' : k.sched.currentTask = some d := ha.currentTask ▸ hd
    obtain rfl : c = d := Option.some.inj (hi.current.symm.trans hd')
    rw [hcu, h.current c hd']
    exact (ha.userTable_current hi).symm

/-- A new user task has a new table. -/
theorem Tables.admitUser {k k' : Kernel} {l : List Slot} {c : Slot} (h' : Holding)
    (h : Tables L k g σ dead)
    (hi : SchedInv k.sched l c) (ha : Admits k.sched k'.sched i t) (hu : t.level = .user)
    (hfresh : t.pageTable ∉ σ.roots)
    (href : Refines L k'.mmu (Function.update σ t.pageTable
      (some (userSpace (pageToPhys h'.prog) (pageToPhys h'.ustack) (2 ^ h'.order)))))
    (hregs : k'.mmu.kernelPgd = k.mmu.kernelPgd ∧ k'.mmu.ttbr0 = k.mmu.ttbr0 ∧
      k'.mmu.currentUserPgd = k.mmu.currentUserPgd) :
    Tables L k' (Function.update g i h') (Function.update σ t.pageTable
      (some (userSpace (pageToPhys h'.prog) (pageToPhys h'.ustack) (2 ^ h'.order)))) dead := by
  obtain ⟨hpgd, htt, hcu⟩ := hregs
  have hlive : LiveUser k'.sched i :=
    ⟨ha.state, (level_of_resources ha.task).trans hu⟩
  have hpt : (k'.sched.taskPool i).pageTable = t.pageTable := pageTable_of_resources ha.task
  have hnot' : ¬ LiveUser k.sched i := fun hl => hl.1 ha.free
  have hroots : userRoots k'.sched = insert t.pageTable (userRoots k.sched) := by
    ext u
    constructor
    · rintro ⟨j, hj, rfl⟩
      rcases eq_or_ne j i with rfl | hne
      · exact .inl hpt
      · exact .inr ⟨j, (ha.liveUser_of_ne hne).mp hj,
          (pageTable_of_resources (ha.other j hne).2).symm⟩
    · rintro (rfl | ⟨j, hj, rfl⟩)
      · exact ⟨i, hlive, hpt⟩
      · have hne : j ≠ i := fun e => hnot' (e ▸ hj)
        exact ⟨j, (ha.liveUser_of_ne hne).mpr hj, pageTable_of_resources (ha.other j hne).2⟩
  refine ⟨href, hpgd ▸ h.kernelPgd, ?_, ?_, by rw [htt, hcu, h.ttbr0], ?_⟩
  · ext u
    simp only [Spaces.roots, Set.mem_ofPred_eq, hroots, hpgd, Set.mem_insert_iff, Set.mem_union]
    have hu := Set.ext_iff.mp h.roots u
    simp only [Spaces.roots, Set.mem_ofPred_eq, Set.mem_insert_iff, Set.mem_union] at hu
    rcases eq_or_ne u t.pageTable with rfl | hne
    · rw [Function.update_self]
      simp
    · rw [Function.update_of_ne hne, hu]
      simp only [hne, false_or]
  · intro j hj
    rcases eq_or_ne j i with rfl | hne
    · rw [Function.update_self, show (k'.task j).pageTable = t.pageTable from hpt,
        Function.update_self]
    · have hj' := (ha.liveUser_of_ne hne).mp hj
      have hp : (k'.task j).pageTable = (k.task j).pageTable :=
        pageTable_of_resources (ha.other j hne).2
      have hold : (k.task j).pageTable ≠ t.pageTable :=
        fun e => hfresh (e ▸ Spaces.mem_roots (h.space j hj'))
      rw [Function.update_of_ne hne, hp, Function.update_of_ne hold]
      exact h.space j hj'
  · intro d hd
    have hd' : k.sched.currentTask = some d := ha.currentTask ▸ hd
    obtain rfl : c = d := Option.some.inj (hi.current.symm.trans hd')
    rw [hcu, h.current c hd']
    exact (ha.userTable_current hi).symm

end

/-! ### Exit -/

/-- From `s` to `s'` the task of slot `c` has ended. -/
structure Drops (s s' : Sched) (c : Slot) : Prop where
  live : s.state c ≠ .terminated
  ended : s'.state c = .terminated
  terminated : ∀ j, j ≠ c → (s'.state j = .terminated ↔ s.state j = .terminated)
  resources : ∀ j, j ≠ c → (s'.taskPool j).resources = (s.taskPool j).resources

/-- `task_exit` ends the current task. -/
theorem endTask_drops {k : Kernel} {s : Sched} {c : Slot} (hc : k.sched.state c ≠ .terminated)
    (ht : SameTasks (endTask k c).sched s) : Drops k.sched s c := by
  obtain ⟨hslot, hst, -, -⟩ := endTask_spec k c
  refine ⟨hc, (ht.terminated c).mpr hst, ?_, ?_⟩
  · intro j hj
    rw [ht.terminated j, hslot.state hj]
  · intro j hj
    rw [ht.resources j, hslot.other j hj]

/-- The block that `task_exit` forgets: the program of a user task. -/
def forgotten (t : Task) (h : Holding) : List Block :=
  match t.level with
  | .kernel => []
  | .user => [⟨h.prog, h.order⟩]

/-- The root that `task_exit` forgets: the page table of a user task. -/
def forgottenRoot (t : Task) : Set ℕ := {u | t.level = .user ∧ t.pageTable = u}

section
variable {L : Linker} {k : Kernel} {g : Slot → Holding} {σ : Spaces} {dead : Set ℕ}
  {leaked : List Block} {c : Slot}

theorem Drops.slotBlocks_eq {s s' : Sched} (h : Drops s s' c) {j : Slot} (hj : j ≠ c)
    (g : Holding) : slotBlocks (s'.taskPool j) g = slotBlocks (s.taskPool j) g := by
  unfold slotBlocks
  have ht := h.terminated j hj
  unfold Sched.state at ht
  rw [level_of_resources (h.resources j hj)]
  simp only [ht]

/-- The stacks go back to the page allocator, the program block does not. -/
theorem Owns.drop {heap : List Block} {order : Slot → ℕ} {s : Sched} {mmu : Mmu}
    (h : Owns ⟨k, heap, order⟩ g leaked) (hd : Drops k.sched s c) :
    Owns ⟨⟨(endTask k c).pmm, mmu, s⟩, heap, order⟩ g
      (forgotten (k.task c) (g c) ++ leaked) := by
  have hholds : Holds (k.task c) (g c) (order c) := h.task c hd.live
  have hperm : (liveBlocks k.sched g).Perm ((g c).blocks (k.task c).level ++ liveBlocks s g) := by
    have := liveBlocks_fill hd.ended (fun j hj => (hd.slotBlocks_eq hj (g j)).symm)
    rwa [slotBlocks_live hd.live] at this
  have hp : PmmInv k.pmm (((g c).blocks (k.task c).level ++ liveBlocks s g) ++ (heap ++ leaked)) :=
    h.pmm.perm (List.Perm.append_right _ hperm)
  constructor
  · obtain ⟨hkernel, huser⟩ := endTask_pmm
      (liveBlocks s g ++ (heap ++ (forgotten (k.task c) (g c) ++ leaked))) hholds.kstack
    cases hl : (k.task c).level with
    | kernel =>
        have hf : forgotten (k.task c) (g c) = [] := by rw [forgotten, hl]
        rw [hl] at hp
        rw [hf] at hkernel ⊢
        exact hkernel (hholds.noUstack hl) hp
    | user =>
        have hf : forgotten (k.task c) (g c) = [⟨(g c).prog, (g c).order⟩] := by rw [forgotten, hl]
        rw [hl] at hp
        rw [hf] at huser ⊢
        refine huser (g c).ustack (hholds.ustack hl) (hp.perm ?_)
        simp only [Holding.blocks, List.cons_append, List.nil_append]
        refine List.Perm.cons _ (List.Perm.cons _ ?_)
        rw [← List.append_assoc, ← List.append_assoc]
        exact List.perm_middle.symm
  · intro j hj
    have hne : j ≠ c := fun e => hj (e ▸ hd.ended)
    exact (h.task j (fun e => hj ((hd.terminated j hne).mpr e))).congr (hd.resources j hne)

theorem Drops.liveUser {s s' : Sched} (h : Drops s s' c) (j : Slot) :
    LiveUser s' j ↔ j ≠ c ∧ LiveUser s j := by
  rcases eq_or_ne j c with rfl | hne
  · constructor
    · exact fun hl => absurd h.ended hl.1
    · exact fun hl => absurd rfl hl.1
  · unfold LiveUser
    rw [Ne, h.terminated j hne, level_of_resources (h.resources j hne)]
    exact ⟨fun hl => ⟨hne, hl⟩, fun hl => hl.2⟩

/-- The tables below the root of the task stay in use. -/
theorem Tables.drop {l : List Slot} {n : Slot} {s : Sched} {pmm : Pmm} (h : Tables L k g σ dead)
    (hd : Drops k.sched s c) (hi : SchedInv s l n) :
    Tables L ⟨pmm, AArch64Os.switchTables k.mmu (s.taskPool n), s⟩ g σ
      (forgottenRoot (k.task c) ∪ dead) := by
  have hnc : n ≠ c := by
    rintro rfl
    exact hi.current_live hd.ended
  have hn : k.sched.state n ≠ .terminated := fun e => hi.current_live ((hd.terminated n hnc).mpr e)
  have hp : (s.taskPool n).level = .user → (s.taskPool n).pageTable ≠ 0 := by
    intro hl
    rw [pageTable_of_resources (hd.resources n hnc)]
    exact h.pageTable_ne_zero ⟨hn, (level_of_resources (hd.resources n hnc)) ▸ hl⟩
  obtain ⟨hu, ht, hk, _, _⟩ := switchTables_spec k.mmu h.ttbr0 hp
  have hroots : userRoots s ∪ forgottenRoot (k.task c) = userRoots k.sched := by
    ext u
    constructor
    · rintro (⟨j, hj, rfl⟩ | ⟨hl, rfl⟩)
      · obtain ⟨hne, hj'⟩ := (hd.liveUser j).mp hj
        exact ⟨j, hj', (pageTable_of_resources (hd.resources j hne)).symm⟩
      · exact ⟨c, ⟨hd.live, hl⟩, rfl⟩
    · rintro ⟨j, hj, rfl⟩
      rcases eq_or_ne j c with rfl | hne
      · exact .inr ⟨hj.2, rfl⟩
      · exact .inl ⟨j, (hd.liveUser j).mpr ⟨hne, hj⟩, pageTable_of_resources (hd.resources j hne)⟩
  refine ⟨h.refines.switchTables _ h.ttbr0 hp, hk ▸ h.kernelPgd, ?_, ?_, ht, ?_⟩
  · rw [h.roots, ← hroots, Set.union_assoc, hk]
  · intro j hj
    obtain ⟨hne, hj'⟩ := (hd.liveUser j).mp hj
    have hpt : (s.taskPool j).pageTable = (k.task j).pageTable :=
      pageTable_of_resources (hd.resources j hne)
    show σ (s.taskPool j).pageTable = _
    rw [hpt]
    exact h.space j hj'
  · intro d hd'
    obtain rfl : n = d := Option.some.inj (hi.current.symm.trans hd')
    exact hu

end

/-! ### Every call keeps the invariant -/

/-- A program fits into the largest block. -/
def KernelCall.Fits : KernelCall → Prop
  | .createUser _ _ binarySize _ => binarySize.toNat ≤ 8 * pageSize
  | _ => True

/-- An allocated block is managed memory outside the region reserved for the kernel. -/
theorem PmmInv.block_region {s : Pmm} {live : List Block} (h : PmmInv s live) {b : Block}
    (hb : b ∈ live) : b.page + b.size ≤ 16384 ∧
      (pageToPhys b.page + b.size * pageSize ≤ kernelBase ∨
        kernelBase + kernelSize ≤ pageToPhys b.page) := by
  have hin : ∀ q, b.Has q → q < 16384 ∧ ¬ kernelPage q := by
    intro q hq
    obtain ⟨hlt, hu⟩ := h.used b hb q hq
    refine ⟨?_, ?_⟩
    · rw [h.numPages, managedPages_eq] at hlt
      exact hlt
    · rw [← h.reserved q hlt, hu]
      decide
  have hpos : 0 < b.size := Nat.two_pow_pos _
  have hlast := (hin (b.page + (b.size - 1)) ⟨by omega, by omega⟩).1
  refine ⟨by omega, ?_⟩
  simp only [pageToPhys, dramBase, pageSize, kernelBase, kernelSize]
  by_cases hlow : b.page < 1024
  · left
    by_contra hc
    exact (hin 1024 ⟨by omega, by omega⟩).2 (by decide)
  · right
    have := (hin b.page b.has_page).2
    unfold kernelPage at this
    omega

section
variable {L : Linker} {k : Kernel} {g : Slot → Holding} {σ : Spaces} {dead : Set ℕ}
  {leaked : List Block}

/-- Memory outside the page tables changes. -/
theorem Refines.setMem (h : Refines L k.mmu σ) {m : Mem}
    (hm : ∀ x, L.pageTablesStart ≤ x → x < L.pageTablesEnd → m x = k.mmu.mem x) :
    Refines L (k.setMem m).mmu σ := h.congr rfl rfl hm

/-- The copy of a program stays inside its block. -/
theorem Refines.copyProgram (h : Refines L k.mmu σ) {pmm : Pmm} {live : List Block} {prog : ℕ}
    {binarySize : Word} (hp : PmmInv pmm live) (hb : ⟨prog, blockOrder binarySize⟩ ∈ live)
    (hfits : binarySize.toNat ≤ 8 * pageSize) (binary : ℕ) :
    Refines L (k.setMem (k.mmu.mem.copy (pageToPhys prog) binary binarySize.toNat)).mmu σ := by
  obtain ⟨-, hregion⟩ := hp.block_region hb
  have hsz := blockOrder_fits hfits
  refine h.setMem (fun x h1 h2 => ?_)
  have hstart := L.taskPool_le
  have hge := L.taskPool_ge
  have hle := L.le_kernelEnd
  simp only [Block.size] at hregion
  rcases hregion with hr | hr
  · exact Mem.copy_of_ge (by omega)
  · exact Mem.copy_of_lt (by omega)

/-- Saved registers are not in the page tables. -/
theorem context_outside (L : Linker) (i : Slot) {x : ℕ} (hx : L.pageTablesStart ≤ x) :
    x < L.context i ∨ L.context i + frameSize ≤ x :=
  .inr ((L.context_bounds i).2.trans hx)

/-- `task_create` admits a kernel task to a free slot. -/
theorem KernelTaskCreated.admits {k' : Kernel} {i : Slot} {stack : ℕ} {func arg : Word}
    {l : List Slot} {c : Slot} (h : KernelTaskCreated L k k' i stack func arg)
    (hi : SchedInv k.sched l c) : ∃ x, Admits k.sched k'.sched i x ∧ KernelTask x stack := by
  obtain ⟨s, hslot, ht, hs⟩ := h.task
  exact ⟨s.taskPool i, hs ▸ hslot.admits hi h.free ht.state, ht⟩

/-- `task_create` gives the new task its stack. -/
theorem KernelTaskCreated.owns {k' : Kernel} {heap : List Block} {order : Slot → ℕ} {i : Slot}
    {stack : ℕ} {func arg : Word} {l : List Slot} {c : Slot} (h : Owns ⟨k, heap, order⟩ g leaked)
    (hi : SchedInv k.sched l c) (hc : KernelTaskCreated L k k' i stack func arg) :
    Owns ⟨k', heap, order⟩ (Function.update g i ⟨stack, 0, 0, 0⟩) leaked := by
  obtain ⟨x, ha, ht⟩ := hc.admits hi
  refine h.admit ha ?_ (fun _ _ => rfl) ⟨ht.kernelStackBase, fun _ => ht.userStackBase, ?_, ?_⟩
  · rw [ht.level]
    exact hc.pmm _ h.pmm
  · intro hu
    exact absurd (ht.level.symm.trans hu) (by decide)
  · intro hu
    exact absurd (ht.level.symm.trans hu) (by decide)

/-- `task_create` keeps the invariant. -/
theorem KernelTaskCreated.kernelInv {k' : Kernel} {heap : List Block} {order : Slot → ℕ} {i : Slot}
    {stack : ℕ} {func arg : Word} (h : KernelInv L ⟨k, heap, order⟩ g σ leaked dead)
    (hc : KernelTaskCreated L k k' i stack func arg) :
    ∃ g', KernelInv L ⟨k', heap, order⟩ g' σ leaked dead := by
  obtain ⟨l, c, hi⟩ := h.sched
  obtain ⟨s, hslot, ht, hs⟩ := hc.task
  have ha : Admits k.sched k'.sched i (s.taskPool i) :=
    hs ▸ hslot.admits hi hc.free ht.state
  have hregs : k'.mmu.kernelPgd = k.mmu.kernelPgd ∧ k'.mmu.ttbr0 = k.mmu.ttbr0 ∧
      k'.mmu.currentUserPgd = k.mmu.currentUserPgd := by
    rw [hc.mmu]
    exact ⟨rfl, rfl, rfl⟩
  have href : Refines L k'.mmu σ := by
    rw [hc.mmu]
    exact h.tables.refines.setMem (fun x hx _ => initContext_outside _ _ _ _ _ (context_outside L i hx))
  refine ⟨Function.update g i ⟨stack, 0, 0, 0⟩, ⟨l ++ [i], c, ?_⟩, ?_, ?_⟩
  · show SchedInv k'.sched (l ++ [i]) c
    rw [hs]
    exact hslot.enqueue hi hc.free ht.state
  · exact hc.owns h.owns hi
  · exact h.tables.admitKernel hi ha ht.level href hregs

/-- A user task is admitted to the slot that was found. -/
theorem UserTaskCreated.order_eq {k' : Kernel} {order : Slot → ℕ} {i : Slot}
    {kstack ustack prog binary : ℕ} {binarySize : Word}
    (hc : UserTaskCreated L k k' i kstack ustack prog binary binarySize) :
    noteOrder order k.sched binarySize = Function.update order i (blockOrder binarySize) := by
  unfold noteOrder
  rw [hc.slot]

/-- `task_create_user` gives the new task its stacks and its program block. -/
theorem UserTaskCreated.owns {k' : Kernel} {heap : List Block} {order : Slot → ℕ} {i : Slot}
    {kstack ustack prog binary : ℕ} {binarySize : Word} {l : List Slot} {c : Slot}
    (h : Owns ⟨k, heap, order⟩ g leaked) (hi : SchedInv k.sched l c)
    (hc : UserTaskCreated L k k' i kstack ustack prog binary binarySize) :
    Owns ⟨k', heap, noteOrder order k.sched binarySize⟩
      (Function.update g i ⟨kstack, ustack, prog, blockOrder binarySize⟩) leaked := by
  have hfree := findSlot_free hc.slot
  have hpmm := hc.pmm _ h.pmm
  obtain ⟨userPgd, s, mmu, hslot, ht, hs, -⟩ := hc.task
  have ha : Admits k.sched k'.sched i (s.taskPool i) := hs ▸ hslot.admits hi hfree ht.state
  refine h.admit ha ?_ ?_ ⟨ht.kernelStackBase, ?_, fun _ => ht.userStackBase, fun _ => ?_⟩
  · rw [ht.level]
    refine hpmm.perm ?_
    simp only [Holding.blocks, List.cons_append, List.nil_append]
    have hrev : List.Perm ([⟨prog, blockOrder binarySize⟩, ⟨ustack, 0⟩, ⟨kstack, 0⟩] : List Block)
        [⟨kstack, 0⟩, ⟨ustack, 0⟩, ⟨prog, blockOrder binarySize⟩] :=
      List.reverse_perm ([⟨kstack, 0⟩, ⟨ustack, 0⟩, ⟨prog, blockOrder binarySize⟩] : List Block)
    exact hrev.append_right _
  · intro j hj
    show noteOrder order k.sched binarySize j = order j
    rw [hc.order_eq, Function.update_of_ne hj]
  · intro hk
    exact absurd (ht.level.symm.trans hk) (by decide)
  · show blockOrder binarySize = noteOrder order k.sched binarySize i ∧ _
    rw [hc.order_eq, Function.update_self]
    exact ⟨rfl, blockOrder_le binarySize⟩

/-- `task_create_user` keeps the invariant. -/
theorem UserTaskCreated.kernelInv {k' : Kernel} {heap : List Block} {order : Slot → ℕ} {i : Slot}
    {kstack ustack prog binary : ℕ} {binarySize : Word}
    (h : KernelInv L ⟨k, heap, order⟩ g σ leaked dead)
    (hc : UserTaskCreated L k k' i kstack ustack prog binary binarySize)
    (hfits : binarySize.toNat ≤ 8 * pageSize) :
    ∃ g' σ', KernelInv L ⟨k', heap, noteOrder order k.sched binarySize⟩ g' σ' leaked dead := by
  obtain ⟨l, c, hi⟩ := h.sched
  have hfree := findSlot_free hc.slot
  have hpmm := hc.pmm _ h.owns.pmm
  obtain ⟨userPgd, s, mmu, hslot, ht, hs, hne, hbuild, hmmu⟩ := hc.task
  have ha : Admits k.sched k'.sched i (s.taskPool i) := hs ▸ hslot.admits hi hfree ht.state
  obtain ⟨hin, -⟩ := hpmm.block_region (b := ⟨prog, blockOrder binarySize⟩) List.mem_cons_self
  have href₁ := h.tables.refines.copyProgram hpmm List.mem_cons_self hfits binary
  have hpow := two_pow_blockOrder_le binarySize
  have hpages : prog < 16384 := lt_of_lt_of_le (Nat.lt_add_of_pos_right (Nat.two_pow_pos _)) hin
  obtain ⟨halign, hlt⟩ := pageToPhys_bounds hpages
  have hbuilt := buildUserTable_spec href₁ halign hlt (blockBytes_eq binarySize) hpow hbuild hne
  have hregs : k'.mmu.kernelPgd = k.mmu.kernelPgd ∧ k'.mmu.ttbr0 = k.mmu.ttbr0 ∧
      k'.mmu.currentUserPgd = k.mmu.currentUserPgd := by
    rw [hmmu]
    exact ⟨hbuilt.frame.kernelPgd, hbuilt.frame.ttbr0, hbuilt.frame.currentUserPgd⟩
  have href : Refines L k'.mmu (Function.update σ userPgd
      (some (userSpace (pageToPhys prog) (pageToPhys ustack) (2 ^ blockOrder binarySize)))) := by
    rw [hmmu]
    refine Refines.setMem (k := { k with mmu := mmu }) hbuilt.refines (fun x hx _ => ?_)
    have hctx := context_outside L i hx
    have hf : frameSize = 272 := rfl
    rw [Mem.store64_of_ge (by have := (L.context_bounds i).2; omega)]
    exact initContext_outside _ _ _ _ _ hctx
  have hpt := ht.pageTable
  refine ⟨Function.update g i ⟨kstack, ustack, prog, blockOrder binarySize⟩, _,
    ⟨l ++ [i], c, ?_⟩, ?_, Tables.admitUser
      ⟨kstack, ustack, prog, blockOrder binarySize⟩ h.tables hi ha ht.level
      (by rw [hpt]; exact hbuilt.fresh) (by rw [hpt]; exact href) hregs⟩
  · show SchedInv k'.sched (l ++ [i]) c
    rw [hs]
    exact hslot.enqueue hi hfree ht.state
  · exact hc.owns h.owns hi

/-- A creation that fails gives back what it took. -/
theorem CreationFailed.owns {k' : Kernel} {heap : List Block} {order order' : Slot → ℕ}
    (h : Owns ⟨k, heap, order⟩ g leaked) (hf : CreationFailed k k')
    (hord : ∀ i, k.sched.state i ≠ .terminated → order' i = order i) :
    Owns ⟨k', heap, order'⟩ g leaked := h.same hf.sched.sameOwners (hf.pmm _ h.pmm) hord

/-- A creation that fails keeps the invariant. -/
theorem CreationFailed.kernelInv {k' : Kernel} {heap : List Block} {order order' : Slot → ℕ}
    (h : KernelInv L ⟨k, heap, order⟩ g σ leaked dead) (hf : CreationFailed k k')
    (hord : ∀ i, k.sched.state i ≠ .terminated → order' i = order i) :
    KernelInv L ⟨k', heap, order'⟩ g σ leaked dead := by
  obtain ⟨l, c, hi⟩ := h.sched
  have ho := hf.sched.sameOwners
  refine ⟨⟨l, c, hf.sched.schedInv hi⟩, hf.owns h.owns hord, ?_⟩
  refine h.tables.sameCurrent hi ho hf.sched.currentTask ?_ ?_ ?_ ?_
  · show Refines L k'.mmu σ
    rw [hf.mmu]
    exact h.tables.refines
  · exact congrArg Mmu.kernelPgd hf.mmu
  · exact congrArg Mmu.ttbr0 hf.mmu
  · exact congrArg Mmu.currentUserPgd hf.mmu

theorem noteOrder_live {order : Slot → ℕ} {s : Sched} {binarySize : Word} {i : Slot}
    (hi : s.state i ≠ .terminated) : noteOrder order s binarySize i = order i := by
  unfold noteOrder
  cases hj : findSlot s with
  | none => rfl
  | some j =>
      have hne : i ≠ j := by
        rintro rfl
        exact hi (findSlot_free hj)
      exact Function.update_of_ne hne _ _

end

/-- `task_exit` forgets the program block and the page table of a user task. -/
theorem KernelInv.exit {L : Linker} {k : Kernel} {heap : List Block} {order : Slot → ℕ}
    {g : Slot → Holding} {σ : Spaces} {leaked : List Block} {dead : Set ℕ} {cur : Slot}
    (h : KernelInv L ⟨k, heap, order⟩ g σ leaked dead) (hcur : k.sched.currentTask = some cur)
    (hc : cur ≠ 0) :
    KernelInv L ⟨(taskExit k).1, heap, order⟩ g σ (forgotten (k.task cur) (g cur) ++ leaked)
      (forgottenRoot (k.task cur) ∪ dead) := by
  obtain ⟨l, c, hi⟩ := h.sched
  obtain rfl : c = cur := Option.some.inj (hi.current.symm.trans hcur)
  obtain ⟨s, n, l', he, -, hi', ht⟩ := taskExit_cases hi hc
  have hd := endTask_drops hi.current_live ht
  rw [he]
  exact ⟨⟨l', n, hi'⟩, h.owns.drop hd, h.tables.drop hd hi'⟩

section
variable {L : Linker} {k : Kernel} {heap : List Block} {order : Slot → ℕ} {g : Slot → Holding}
  {leaked : List Block}

/-- Other kernel code takes a block. -/
theorem Owns.heapAlloc {o p : ℕ} {pmm : Pmm} (h : Owns ⟨k, heap, order⟩ g leaked) (ho : o ≤ maxOrder)
    (he : allocPages k.pmm o = some (some p, pmm)) :
    Owns ⟨{ k with pmm := pmm }, ⟨p, o⟩ :: heap, order⟩ g leaked :=
  h.same (SameTasks.refl _).sameOwners ((h.pmm.of_alloc ho he).perm List.perm_middle.symm)
    (fun _ _ => rfl)

theorem Owns.heapNull {o : ℕ} {pmm : Pmm} (h : Owns ⟨k, heap, order⟩ g leaked) (ho : o ≤ maxOrder)
    (he : allocPages k.pmm o = some (none, pmm)) : Owns ⟨{ k with pmm := pmm }, heap, order⟩ g leaked :=
  h.same (SameTasks.refl _).sameOwners (h.pmm.of_null ho he) (fun _ _ => rfl)

/-- Other kernel code gives a block back. -/
theorem Owns.heapFree {b : Block} (h : Owns ⟨k, heap, order⟩ g leaked) (hb : b ∈ heap) :
    Owns ⟨k.free (some b.page) b.order, heap.erase b, order⟩ g leaked := by
  refine h.same (SameTasks.refl _).sameOwners ?_ (fun _ _ => rfl)
  have hperm : (liveBlocks k.sched g ++ (heap ++ leaked)).Perm
      (b :: (liveBlocks k.sched g ++ (heap.erase b ++ leaked))) := by
    refine List.Perm.trans (List.Perm.append_left _ ((List.perm_cons_erase hb).append_right _)) ?_
    exact List.perm_middle
  exact (h.pmm.perm hperm).free

theorem Owns.yield {l : List Slot} {c : Slot} (h : Owns ⟨k, heap, order⟩ g leaked)
    (hi : SchedInv k.sched l c) : Owns ⟨taskYield k, heap, order⟩ g leaked := by
  obtain ⟨-, ht, -, hp, -⟩ := taskYield_spec hi
  refine h.same ht.sameOwners ?_ (fun _ _ => rfl)
  show PmmInv (taskYield k).pmm _
  rw [hp]
  exact h.pmm

theorem Owns.tick {l : List Slot} {c : Slot} (h : Owns ⟨k, heap, order⟩ g leaked)
    (hi : SchedInv k.sched l c) : Owns ⟨(schedule k).1, heap, order⟩ g leaked := by
  rcases schedule_cases hi with ⟨s, he, -, ht, -⟩ | ⟨s, n, l', he, -, -, ht⟩
  · rw [he]
    exact h.same ht.sameOwners h.pmm (fun _ _ => rfl)
  · rw [he]
    exact h.same ht.sameOwners h.pmm (fun _ _ => rfl)

/-- **The pages stay with their owners**, whatever the size of the programs. -/
theorem KernelStep.owns {c : KernelCall} {r r' : KernelRun} {l : List Slot} {cur : Slot}
    (h : Owns r g leaked) (hi : SchedInv r.kernel.sched l cur) (hs : KernelStep L c r r') :
    ∃ g' leaked', Owns r' g' leaked' := by
  cases hs with
  | create he =>
      rcases taskCreate_cases hi.enabled he with hf | ⟨i, stack, hc⟩
      · exact ⟨g, leaked, hf.owns h (fun _ _ => rfl)⟩
      · exact ⟨_, leaked, hc.owns h hi⟩
  | createUser he =>
      rcases taskCreateUser_cases hi.enabled he with hf | ⟨i, _, _, _, hc⟩
      · exact ⟨g, leaked, hf.owns h (fun _ hj => noteOrder_live hj)⟩
      · exact ⟨_, leaked, hc.owns h hi⟩
  | yield k heap order => exact ⟨g, leaked, h.yield hi⟩
  | tick k heap order => exact ⟨g, leaked, h.tick hi⟩
  | exit hidle =>
      have hc : cur ≠ 0 := fun e => hidle (e ▸ hi.current)
      obtain ⟨s, n, l', he, -, -, ht⟩ := taskExit_cases hi hc
      rw [he]
      exact ⟨g, _, h.drop (endTask_drops hi.current_live ht)⟩
  | heapAlloc ho he => exact ⟨g, leaked, h.heapAlloc ho he⟩
  | heapNull ho he => exact ⟨g, leaked, h.heapNull ho he⟩
  | heapFree hb => exact ⟨g, leaked, h.heapFree hb⟩
  | store hm => exact ⟨g, leaked, h.same (SameTasks.refl _).sameOwners h.pmm (fun _ _ => rfl)⟩

end

/-- The call ends a user task. -/
def EndsUser (c : KernelCall) (r : KernelRun) : Prop :=
  c = .exit ∧ ∃ i, r.kernel.sched.currentTask = some i ∧ (r.kernel.task i).level = .user

/-- **Every call keeps the invariant**; only the exit of a user task forgets anything. -/
theorem KernelStep.kernelInv {L : Linker} {c : KernelCall} {r r' : KernelRun} {g : Slot → Holding}
    {σ : Spaces} {leaked : List Block} {dead : Set ℕ} (h : KernelInv L r g σ leaked dead)
    (hfits : c.Fits) (hs : KernelStep L c r r') :
    ∃ g' σ' leaked' dead', KernelInv L r' g' σ' leaked' dead' ∧
      (¬ EndsUser c r → leaked' = leaked ∧ dead' = dead) := by
  obtain ⟨l, cur, hi⟩ := h.sched
  cases hs with
  | create he =>
      rcases taskCreate_cases hi.enabled he with hf | ⟨i, stack, hc⟩
      · exact ⟨g, σ, leaked, dead, hf.kernelInv h (fun _ _ => rfl), fun _ => ⟨rfl, rfl⟩⟩
      · obtain ⟨g', hg⟩ := hc.kernelInv h
        exact ⟨g', σ, leaked, dead, hg, fun _ => ⟨rfl, rfl⟩⟩
  | createUser he =>
      rcases taskCreateUser_cases hi.enabled he with hf | ⟨i, _, _, _, hc⟩
      · exact ⟨g, σ, leaked, dead, hf.kernelInv h (fun _ hj => noteOrder_live hj),
          fun _ => ⟨rfl, rfl⟩⟩
      · obtain ⟨g', σ', hg⟩ := hc.kernelInv h hfits
        exact ⟨g', σ', leaked, dead, hg, fun _ => ⟨rfl, rfl⟩⟩
  | yield k heap order =>
      have hcur : k.sched.currentTask = some cur := hi.current
      obtain ⟨hi', ht, hm, -, -⟩ := taskYield_spec hi
      have ho : SameOwners k.sched (taskYield k).sched := ht.sameOwners
      refine ⟨g, σ, leaked, dead, ⟨⟨l, cur, hi'⟩, h.owns.yield hi, ?_⟩, fun _ => ⟨rfl, rfl⟩⟩
      refine h.tables.sameCurrent hi ho (hi'.current.trans hcur.symm) ?_ ?_ ?_ ?_
      · show Refines L (taskYield k).mmu σ
        rw [hm]
        exact h.tables.refines
      · exact congrArg Mmu.kernelPgd hm
      · exact congrArg Mmu.ttbr0 hm
      · exact congrArg Mmu.currentUserPgd hm
  | tick k heap order =>
      refine ⟨g, σ, leaked, dead, ?_, fun _ => ⟨rfl, rfl⟩⟩
      rcases schedule_cases hi with ⟨s, he, hi', ht, -⟩ | ⟨s, n, l', he, -, hi', ht⟩
      · rw [he]
        have ho := ht.sameOwners
        refine ⟨⟨l, cur, hi'⟩, h.owns.same ho h.owns.pmm (fun _ _ => rfl),
          h.tables.sameCurrent hi ho (hi'.current.trans hi.current.symm) h.tables.refines rfl rfl rfl⟩
      · rw [he]
        exact ⟨⟨l', n, hi'⟩, h.owns.same ht.sameOwners h.owns.pmm (fun _ _ => rfl),
          h.tables.switched ht.sameOwners hi'⟩
  | exit hidle =>
      rename_i k heap order
      have hc : cur ≠ 0 := fun e => hidle (e ▸ hi.current)
      refine ⟨g, σ, _, _, h.exit hi.current hc, ?_⟩
      intro hne
      have hl : (k.task cur).level = .kernel := by
        cases hlev : (k.task cur).level with
        | kernel => rfl
        | user => exact absurd ⟨rfl, cur, hi.current, hlev⟩ hne
      have hroot : forgottenRoot (k.task cur) = ∅ := by
        ext u
        simp [forgottenRoot, hl]
      refine ⟨?_, by rw [hroot, Set.empty_union]⟩
      rw [forgotten, hl]
      rfl
  | heapAlloc ho he =>
      exact ⟨g, σ, leaked, dead, ⟨⟨l, cur, hi⟩, h.owns.heapAlloc ho he, ⟨h.tables.refines,
        h.tables.kernelPgd, h.tables.roots, h.tables.space, h.tables.ttbr0, h.tables.current⟩⟩,
        fun _ => ⟨rfl, rfl⟩⟩
  | heapNull ho he =>
      exact ⟨g, σ, leaked, dead, ⟨⟨l, cur, hi⟩, h.owns.heapNull ho he, ⟨h.tables.refines,
        h.tables.kernelPgd, h.tables.roots, h.tables.space, h.tables.ttbr0, h.tables.current⟩⟩,
        fun _ => ⟨rfl, rfl⟩⟩
  | heapFree hb =>
      exact ⟨g, σ, leaked, dead, ⟨⟨l, cur, hi⟩, h.owns.heapFree hb, ⟨h.tables.refines,
        h.tables.kernelPgd, h.tables.roots, h.tables.space, h.tables.ttbr0, h.tables.current⟩⟩,
        fun _ => ⟨rfl, rfl⟩⟩
  | store hm =>
      exact ⟨g, σ, leaked, dead, ⟨⟨l, cur, hi⟩, h.owns.same (SameTasks.refl _).sameOwners h.owns.pmm
        (fun _ _ => rfl), ⟨h.tables.refines.setMem hm, h.tables.kernelPgd, h.tables.roots,
          h.tables.space, h.tables.ttbr0, h.tables.current⟩⟩, fun _ => ⟨rfl, rfl⟩⟩

/-- `boot` establishes the invariant: idle owns its stack, and the kernel's root is the only
one. -/
theorem Booted.kernelInv {L : Linker} {s : Mmu} {k : Kernel} {stack : ℕ} (h : Booted L s k stack) :
    KernelInv L ⟨k, [], fun _ => 0⟩ (fun _ => ⟨stack, 0, 0, 0⟩) (initSpaces L) [] ∅ := by
  obtain ⟨hlevel, hkstack, hustack⟩ := h.idle
  obtain ⟨mmu, -, hready, m, hmmu, hm⟩ := h.mmu
  have hlive : ∀ i, k.sched.state i ≠ .terminated → i = 0 := fun i hi =>
    by_contra (fun hne => hi (h.terminated i hne))
  have hnot : ∀ i, ¬ LiveUser k.sched i := by
    rintro i ⟨h1, h2⟩
    obtain rfl := hlive i h1
    have hl : (k.sched.taskPool 0).level = .kernel := hlevel
    rw [hl] at h2
    cases h2
  have hroots : userRoots k.sched = ∅ := by
    ext u
    constructor
    · rintro ⟨i, hi, -⟩
      exact absurd hi (hnot i)
    · exact fun hu => hu.elim
  have hpgd : k.mmu.kernelPgd = mmu.kernelPgd := by rw [hmmu]
  have hspaces : (initSpaces L).roots = {mmu.kernelPgd} := hready.roots
  refine ⟨⟨[], 0, h.sched⟩, ⟨?_, ?_⟩, ⟨?_, ?_, ?_, ?_, ?_, ?_⟩⟩
  · refine h.pmm.perm ?_
    have hperm := liveBlocks_perm k.sched (fun _ => ⟨stack, 0, 0, 0⟩) 0
    have hother : otherBlocks k.sched (fun _ => ⟨stack, 0, 0, 0⟩) 0 = [] := by
      unfold otherBlocks
      rw [List.flatMap_eq_nil_iff]
      intro j hj
      refine if_pos (h.terminated j ?_)
      rintro rfl
      exact (List.nodup_finRange maxTasks).not_mem_erase hj
    have hidle : slotBlocks (k.sched.taskPool 0) ⟨stack, 0, 0, 0⟩ = [⟨stack, 0⟩] := by
      rw [slotBlocks_live h.sched.idle, show (k.sched.taskPool 0).level = .kernel from hlevel]
      rfl
    rw [hother, hidle] at hperm
    show [(⟨stack, 0⟩ : Block)].Perm (liveBlocks k.sched _ ++ [])
    rw [List.append_nil]
    exact hperm.symm
  · intro i hi
    obtain rfl := hlive i hi
    refine ⟨hkstack, fun _ => hustack, fun hu => ?_, fun hu => ?_⟩
    · exact absurd (hlevel.symm.trans hu) (by decide)
    · exact absurd (hlevel.symm.trans hu) (by decide)
  · show Refines L k.mmu (initSpaces L)
    rw [hmmu]
    refine hready.refines.congr rfl rfl (fun x hx _ => hm x (context_outside L 0 hx))
  · show k.mmu.kernelPgd ≠ 0
    rw [hpgd]
    exact hready.refines.inv.root_ne_zero (by rw [hspaces]; rfl)
  · show (initSpaces L).roots = insert k.mmu.kernelPgd (userRoots k.sched ∪ ∅)
    rw [hspaces, hroots, hpgd, Set.union_empty, insert_empty_eq]
  · intro i hi
    exact absurd hi (hnot i)
  · show k.mmu.ttbr0 = BitVec.ofNat 64 k.mmu.currentUserPgd
    rw [hmmu]
    show mmu.ttbr0 = BitVec.ofNat 64 mmu.currentUserPgd
    rw [hready.ttbr0, hready.currentUserPgd]
    rfl
  · intro c hc
    obtain rfl : (0 : Slot) = c := Option.some.inj (h.sched.current.symm.trans hc)
    show k.mmu.currentUserPgd = userTable (k.task 0)
    rw [hmmu, userTable, hlevel]
    exact hready.currentUserPgd

/-! ### Room for a user task -/

/-- A program of at most a page gets a single page. -/
theorem blockOrder_zero {binarySize : Word} (h : binarySize.toNat ≤ pageSize) :
    blockOrder binarySize = 0 := by
  have hone : progOrder 1 = (0, 1) := by decide
  have hsize : pageSize = 4096 := rfl
  have hpages : progPages binarySize = 1 := by
    apply BitVec.eq_of_toNat_eq
    have h1 : (1 : Word).toNat = 1 := by decide
    rw [progPages_toNat (by omega), h1]
    omega
  unfold blockOrder
  rw [hpages, hone]

theorem PmmInv.blockPages_eq {s : Pmm} {live live' : List Block} (h : PmmInv s live)
    (h' : PmmInv s live') : blockPages live' = blockPages live := by
  have hc := h.count
  have hc' := h'.count
  omega

theorem blockPages_cons_page (p : ℕ) (live : List Block) :
    blockPages (⟨p, 0⟩ :: live) = blockPages live + 1 := by
  simp [blockPages, Block.size, Nat.add_comm]

/-- There are pages for a program of one page while three pages are left. -/
theorem PmmInv.userPages_total {s : Pmm} {live : List Block} (h : PmmInv s live)
    (hroom : blockPages live + 3 ≤ 12288) {binarySize : Word} (hsize : binarySize.toNat ≤ pageSize) :
    ∃ p s', userPages s binarySize = some (p, s') := by
  obtain ⟨kstack, s₁, h₁, hp₁⟩ := h.alloc_one (by omega)
  obtain ⟨ustack, s₂, h₂, hp₂⟩ := hp₁.alloc_one (by rw [blockPages_cons_page]; omega)
  obtain ⟨prog, s₃, h₃, -⟩ := hp₂.alloc_one (by
    rw [blockPages_cons_page, blockPages_cons_page]
    omega)
  refine ⟨⟨kstack, ustack, prog⟩, s₃, ?_⟩
  have h₃' : AArch64Os.allocPages s₂ (blockOrder binarySize) = some (some prog, s₃) := by
    rw [blockOrder_zero hsize]
    exact h₃
  simp only [userPages, show AArch64Os.allocPages s 0 = _ from h₁,
    show AArch64Os.allocPages s₁ 0 = _ from h₂, h₃']

/-- **`task_create_user` succeeds** for a program of one page while there is a free slot, three
free pages and room for seven tables. -/
theorem taskCreateUser_total {L : Linker} {k : Kernel} {heap : List Block} {order : Slot → ℕ}
    {g : Slot → Holding} {σ : Spaces} {leaked : List Block} {dead : Set ℕ} {i : Slot}
    {binarySize : Word} (h : KernelInv L ⟨k, heap, order⟩ g σ leaked dead)
    (hslot : findSlot k.sched = some i) (hsize : binarySize.toNat ≤ pageSize)
    (hpages : blockPages (liveBlocks k.sched g ++ (heap ++ leaked)) + 3 ≤ 12288)
    (htables : k.mmu.next L + 7 * pageSize ≤ L.pageTablesEnd) (name : List (BitVec 8))
    (binary : ℕ) (priority : BitVec 32) :
    ∃ id k' kstack ustack prog,
      taskCreateUser L k name binary binarySize priority = some (id, k') ∧
      UserTaskCreated L k k' i kstack ustack prog binary binarySize := by
  obtain ⟨l, c, hi⟩ := h.sched
  have hpmm : PmmInv k.pmm (liveBlocks k.sched g ++ (heap ++ leaked)) := h.owns.pmm
  obtain ⟨⟨kstack, ustack, prog⟩, pmm₃, hu⟩ := hpmm.userPages_total hpages hsize
  obtain ⟨s₁, s₂, h₁, h₂, h₃⟩ := userPages_some hu
  have hp₃ := userPages_inv hu hpmm
  have heq := taskCreateUser_eq (L := L) hslot h₁ h₂ h₃ name binary priority
  obtain ⟨hin, -⟩ := hp₃.block_region (b := ⟨prog, blockOrder binarySize⟩) List.mem_cons_self
  obtain ⟨halign, hlt⟩ := pageToPhys_bounds (p := prog)
    (lt_of_lt_of_le (Nat.lt_add_of_pos_right (Nat.two_pow_pos _)) hin)
  have hfits : binarySize.toNat ≤ 8 * pageSize := hsize.trans (Nat.le_mul_of_pos_left _ (by decide))
  have href := h.tables.refines.copyProgram hp₃ List.mem_cons_self hfits binary
  have hbytes : (blockBytes binarySize).toNat = pageSize * 1 := by
    rw [blockBytes_eq, blockOrder_zero hsize]
    rfl
  obtain ⟨userPgd, mmu, hb, -, -⟩ := buildUserTable_total href (pageToPhys ustack)
    halign hlt hbytes (by decide) htables
  obtain ⟨-, hmmu, -⟩ := withStacks_task k pmm₃ i kstack ustack
  rw [← hmmu] at hb
  have hsome := finishUser_total (k := k.withStacks pmm₃ i kstack ustack) hb kstack ustack name
    priority
  obtain ⟨⟨id, k'⟩, he⟩ := Option.isSome_iff_exists.mp hsome
  exact ⟨id, k', kstack, ustack, prog, heq.trans he, finishUser_cases pmm₃ hi.enabled hslot
    (fun _ => userPages_inv hu) he⟩

/-- **After `boot` there is room for a user task**, which then waits in the queue. -/
theorem Booted.first_user {L : Linker} {s : Mmu} {k : Kernel} {stack : ℕ} (h : Booted L s k stack)
    {binarySize : Word} (hsize : binarySize.toNat ≤ pageSize) (name : List (BitVec 8))
    (binary : ℕ) (priority : BitVec 32) :
    ∃ id k' i g σ, taskCreateUser L k name binary binarySize priority = some (id, k') ∧
      KernelInv L ⟨k', [], noteOrder (fun _ => 0) k.sched binarySize⟩ g σ [] ∅ ∧
      SchedInv k'.sched [i] 0 ∧ i ≠ 0 ∧ LiveUser k'.sched i := by
  have hinv := h.kernelInv
  obtain ⟨i, hi⟩ : ∃ i, findSlot k.sched = some i := by
    rw [← Option.isSome_iff_exists]
    unfold findSlot
    rw [List.find?_isSome]
    exact ⟨1, List.mem_finRange 1, by simpa using h.terminated 1 (by decide)⟩
  have hpages : blockPages (liveBlocks k.sched (fun _ => ⟨stack, 0, 0, 0⟩) ++ ([] ++ [])) = 1 :=
    (h.pmm.blockPages_eq hinv.owns.pmm).trans (by simp [blockPages, Block.size])
  have hroom : k.mmu.next L + 7 * pageSize ≤ L.pageTablesEnd := by
    obtain ⟨mmu, -, hready, m, hm, -⟩ := h.mmu
    have hn : k.mmu.next L = mmu.next L := by rw [hm]; rfl
    have h1 := hready.room
    have h2 := L.end_eq
    have h3 : pageSize = 4096 := rfl
    omega
  obtain ⟨id, k', kstack, ustack, prog, he, hc⟩ := taskCreateUser_total hinv hi hsize
    (by rw [hpages]; decide) hroom name binary priority
  have hfits : binarySize.toNat ≤ 8 * pageSize := hsize.trans (Nat.le_mul_of_pos_left _ (by decide))
  obtain ⟨g', σ', hinv'⟩ := hc.kernelInv hinv hfits
  have hfree := findSlot_free hi
  obtain ⟨_, s', _, hslot, ht, hs, _⟩ := hc.task
  have hsched : SchedInv k'.sched ([] ++ [i]) 0 := hs ▸ hslot.enqueue h.sched hfree ht.state
  have ha : Admits k.sched k'.sched i (s'.taskPool i) := hs ▸ hslot.admits h.sched hfree ht.state
  refine ⟨id, k', i, g', σ', he, hinv', hsched, ?_, ha.state, ?_⟩
  · rintro rfl
    exact h.sched.idle hfree
  · rw [level_of_resources ha.task, ht.level]

end AArch64Os
