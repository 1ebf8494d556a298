import AArch64Os.RoundRobin
import AArch64Os.Ownership

/-! # Task identifiers

The `n`-th task after the idle task gets the number `n + 1`, in 32 bits.  Up to the wrap-around
the identifiers of the tasks that live are distinct and none is 0; the creation that reaches it
returns 0, the value of a failed creation (`task_ids_unique_iff`). -/

namespace AArch64Os

open Runs

/-- What a creation returns. -/
def KernelCall.result (L : Linker) (k : Kernel) : KernelCall → Option (BitVec 32)
  | .create name func arg priority => (taskCreate L k name func arg priority).map Prod.fst
  | .createUser name binary binarySize priority =>
      (taskCreateUser L k name binary binarySize priority).map Prod.fst
  | _ => none

/-- A task has come into being. -/
def TaskCreated (s s' : Sched) : Prop := ∃ i, s.state i = .terminated ∧ s'.state i ≠ .terminated

instance (s s' : Sched) : Decidable (TaskCreated s s') :=
  inferInstanceAs (Decidable (∃ i, s.state i = .terminated ∧ s'.state i ≠ .terminated))

/-- No two tasks share an identifier. -/
def DistinctIds (s : Sched) : Prop :=
  ∀ i j, s.state i ≠ .terminated → s.state j ≠ .terminated →
    (s.taskPool i).id = (s.taskPool j).id → i = j

/-- A successful creation returns an identifier other than 0, and afterwards the identifiers are
distinct. -/
def IdsOk (L : Linker) (r : KernelRun) (c : KernelCall) (r' : KernelRun) : Prop :=
  (TaskCreated r.kernel.sched r'.kernel.sched → ∀ id, c.result L r.kernel = some id → id ≠ 0) ∧
    DistinctIds r'.kernel.sched

/-- The number of successful creations in a trace. -/
def creations (t : List (KernelRun × KernelCall × KernelRun)) : ℕ :=
  t.countP (fun x => TaskCreated x.1.kernel.sched x.2.2.kernel.sched)

/-! ### What a call does to the identifiers -/

/-- No task has come, and nobody's identifier has changed. -/
structure IdsKept (s s' : Sched) : Prop where
  nextTaskId : s'.nextTaskId = s.nextTaskId
  id : ∀ j, s'.state j ≠ .terminated →
    s.state j ≠ .terminated ∧ (s'.taskPool j).id = (s.taskPool j).id

/-- A task has come into slot `i` and has taken the next identifier. -/
structure IdTaken (s s' : Sched) (i : Slot) : Prop where
  free : s.state i = .terminated
  live : s'.state i ≠ .terminated
  taken : (s'.taskPool i).id = s.nextTaskId
  nextTaskId : s'.nextTaskId = s.nextTaskId + 1
  id : ∀ j, j ≠ i → s'.state j ≠ .terminated →
    s.state j ≠ .terminated ∧ (s'.taskPool j).id = (s.taskPool j).id

theorem IdsKept.not_created {s s' : Sched} (h : IdsKept s s') : ¬ TaskCreated s s' := by
  rintro ⟨i, hi, hi'⟩
  exact (h.id i hi').1 hi

theorem IdTaken.created {s s' : Sched} {i : Slot} (h : IdTaken s s' i) : TaskCreated s s' :=
  ⟨i, h.free, h.live⟩

theorem IdsKept.refl (s : Sched) : IdsKept s s := ⟨rfl, fun _ h => ⟨h, rfl⟩⟩

theorem SameTasks.idsKept {s s' : Sched} (h : SameTasks s s') : IdsKept s s' := by
  refine ⟨h.nextTaskId, fun j hj => ⟨fun hc => hj ((h.terminated j).mpr hc), ?_⟩⟩
  exact (congrArg Task.id (h.resources j) :
    (s'.taskPool j).resources.id = (s.taskPool j).resources.id)

theorem FreeSlotsOnly.idsKept {s s' : Sched} (h : FreeSlotsOnly s s')
    (hn : s'.nextTaskId = s.nextTaskId) : IdsKept s s' := by
  refine ⟨hn, fun j hj => ?_⟩
  have hlive : s.state j ≠ .terminated := fun hc => hj (h.free j hc)
  exact ⟨hlive, by rw [h.live j hlive]⟩

/-- A slot that is filled and enters the queue. -/
theorem SlotOnly.idTaken {s s' : Sched} {l : List Slot} {c i : Slot} (h : SlotOnly i s s')
    (hi : SchedInv s l c) (hfree : s.state i = .terminated) (hready : s'.state i = .ready)
    (hid : (s'.taskPool i).id = s.nextTaskId) (hn : s'.nextTaskId = s.nextTaskId + 1) :
    IdTaken s (addToReadyQueue s' i) i := by
  have hil := (hi.free_slot hfree).1
  obtain ⟨-, hl⟩ := addToReadyQueue_spec (h.queue hi.queue) hil
  have hbody : ∀ j, ((addToReadyQueue s' i).taskPool j).id = (s'.taskPool j).id := fun j =>
    (congrArg Task.id (hl.body j) :
      ((addToReadyQueue s' i).taskPool j).body.id = (s'.taskPool j).body.id)
  refine ⟨hfree, ?_, (hbody i).trans hid, hl.nextTaskId.trans hn, fun j hj hlive => ?_⟩
  · rw [hl.state, hready]
    decide
  · rw [hl.state, h.state hj] at hlive
    exact ⟨hlive, by rw [hbody, h.other j hj]⟩

theorem startKernel_idTaken {L : Linker} {k : Kernel} {l : List Slot} {c i : Slot} {pmm : Pmm}
    {stack : ℕ} (hi : SchedInv k.sched l c) (hfree : k.sched.state i = .terminated)
    (name : List (BitVec 8)) (func arg : Word) (priority : BitVec 32) :
    IdTaken k.sched (startKernel L { k with pmm := pmm } i stack name func arg priority).sched i := by
  have hslot : SlotOnly i k.sched { k.sched with nextTaskId := k.sched.nextTaskId + 1 } :=
    SlotOnly.takeId (.refl i _) _
  have hupd := hslot.upd (f := fun t => asKernelTask (initTask t k.sched.nextTaskId name priority
    stack)) (fun _ => rfl) (fun _ => rfl)
  unfold startKernel
  simp only
  split
  · refine hupd.idTaken hi hfree ?_ ?_ rfl
    · rw [Sched.state, Sched.upd_taskPool_same]
      rfl
    · rw [Sched.upd_taskPool_same]
      rfl
  · rename_i hc
    exact absurd hi.enabled hc

theorem finishUser_idTaken {L : Linker} {k k' : Kernel} {l : List Slot} {c i : Slot} {pmm : Pmm}
    {kstack ustack prog binary : ℕ} {name : List (BitVec 8)} {binarySize : Word}
    {priority id : BitVec 32} (hi : SchedInv k.sched l c) (hfree : k.sched.state i = .terminated)
    (he : finishUser L (k.withStacks pmm i kstack ustack) i kstack ustack prog name binary
      binarySize priority = some (id, k')) :
    id = k.sched.nextTaskId ∧ IdTaken k.sched k'.sched i := by
  have hw := withStacks_slotOnly k pmm i kstack ustack
  have hn : (k.withStacks pmm i kstack ustack).sched.nextTaskId = k.sched.nextTaskId := rfl
  generalize k.withStacks pmm i kstack ustack = k₁ at he hw hn
  unfold finishUser at he
  simp only at he
  split at he
  · cases he
  rename_i userPgd mmu hb
  rw [if_neg (buildUserTable_ne_zero hb)] at he
  simp only [Option.some.injEq, Prod.mk.injEq] at he
  obtain ⟨rfl, rfl⟩ := he
  refine ⟨hn, ?_⟩
  have hupd := (hw.takeId (k₁.sched.nextTaskId + 1)).upd (f := fun t => asUserTask
    (initTask t k₁.sched.nextTaskId name priority t.kernelStackBase) userPgd) (fun _ => rfl)
    (fun _ => rfl)
  unfold startUser
  simp only
  split
  · refine hupd.idTaken hi hfree ?_ ?_ ?_
    · rw [Sched.state, Sched.upd_taskPool_same]
      rfl
    · rw [Sched.upd_taskPool_same]
      exact hn
    · exact congrArg (· + 1) hn
  · rename_i hc
    exact absurd (hw.schedEnabled.trans hi.enabled) hc

theorem endTask_nextTaskId (k : Kernel) (c : Slot) :
    (endTask k c).sched.nextTaskId = k.sched.nextTaskId := by
  unfold endTask freeUserStack freeKernelStack
  simp only
  split_ifs <;> rfl

/-- **One call takes no identifier, or a new task takes the next one and the call returns it.** -/
theorem KernelStep.ids {L : Linker} {call : KernelCall} {r r' : KernelRun} {l : List Slot} {c : Slot}
    (hi : SchedInv r.kernel.sched l c) (hs : KernelStep L call r r') :
    IdsKept r.kernel.sched r'.kernel.sched ∨
      call.result L r.kernel = some r.kernel.sched.nextTaskId ∧
        ∃ i, IdTaken r.kernel.sched r'.kernel.sched i := by
  cases hs with
  | create he =>
      rcases taskCreate_split he with ⟨hf, -, hn⟩ | ⟨i, stack, pmm, hfind, ha, rfl, rfl⟩
      · exact .inl (hf.sched.idsKept hn)
      · refine .inr ⟨?_, i, startKernel_idTaken hi (findSlot_free hfind) _ _ _ _⟩
        exact congrArg (Option.map Prod.fst) he
  | createUser he =>
      rcases taskCreateUser_split he with ⟨hf, -, hn⟩ | ⟨i, _, _, _, pmm, hfind, -, hfin⟩
      · exact .inl (hf.sched.idsKept hn)
      · obtain ⟨rfl, ht⟩ := finishUser_idTaken hi (findSlot_free hfind) hfin
        refine .inr ⟨?_, i, ht⟩
        exact congrArg (Option.map Prod.fst) he
  | yield k heap order => exact .inl (taskYield_spec hi).2.1.idsKept
  | tick k heap order =>
      rcases schedule_cases hi with ⟨s, he, -, ht, -⟩ | ⟨s, n, l', he, -, -, ht⟩
      · rw [he]
        exact .inl ht.idsKept
      · rw [he]
        exact .inl ht.idsKept
  | @exit k heap order hidle =>
      have hc : c ≠ 0 := fun e => hidle (e ▸ hi.current)
      obtain ⟨s, n, l', he, -, -, ht⟩ := taskExit_cases hi hc
      obtain ⟨hslot, hst, -, -⟩ := endTask_spec k c
      rw [he]
      refine .inl ⟨ht.idsKept.nextTaskId.trans (endTask_nextTaskId k c), fun j hj => ?_⟩
      obtain ⟨h1, h2⟩ := ht.idsKept.id j hj
      have hne : j ≠ c := fun e => h1 (e ▸ hst)
      exact ⟨hslot.state hne ▸ h1, h2.trans (by rw [hslot.other j hne])⟩
  | heapAlloc ho he => exact .inl (.refl _)
  | heapNull ho he => exact .inl (.refl _)
  | heapFree hb => exact .inl (.refl _)
  | store hm => exact .inl (.refl _)

/-! ### Runs -/

/-- After `n` creations: the counter, and, up to the wrap-around, the identifiers that are out. -/
structure IdInv (s : Sched) (n : ℕ) : Prop where
  nextTaskId : s.nextTaskId = BitVec.ofNat 32 (n + 2)
  distinct : n + 2 ≤ 2 ^ 32 → DistinctIds s
  bounds : n + 2 ≤ 2 ^ 32 → ∀ i, s.state i ≠ .terminated → (s.taskPool i).id.toNat < n + 2

theorem IdInv.kept {s s' : Sched} {n : ℕ} (h : IdInv s n) (hk : IdsKept s s') : IdInv s' n := by
  refine ⟨hk.nextTaskId.trans h.nextTaskId, fun hn i j hi hj he => ?_, fun hn i hi => ?_⟩
  · obtain ⟨h1, e1⟩ := hk.id i hi
    obtain ⟨h2, e2⟩ := hk.id j hj
    exact h.distinct hn i j h1 h2 (by rw [← e1, he, e2])
  · obtain ⟨h1, e1⟩ := hk.id i hi
    rw [e1]
    exact h.bounds hn i h1

theorem IdInv.taken {s s' : Sched} {n : ℕ} {i : Slot} (h : IdInv s n) (ht : IdTaken s s' i) :
    IdInv s' (n + 1) := by
  have hnew : n + 1 + 2 ≤ 2 ^ 32 → (s'.taskPool i).id.toNat = n + 2 := by
    intro hn
    rw [ht.taken, h.nextTaskId, BitVec.toNat_ofNat, Nat.mod_eq_of_lt (by omega)]
  have hold : n + 1 + 2 ≤ 2 ^ 32 → ∀ j, j ≠ i → s'.state j ≠ .terminated →
      (s'.taskPool j).id.toNat < n + 2 := by
    intro hn j hj hlive
    obtain ⟨h1, e1⟩ := ht.id j hj hlive
    rw [e1]
    exact h.bounds (by omega) j h1
  refine ⟨?_, fun hn j j' hj hj' he => ?_, fun hn j hj => ?_⟩
  · rw [ht.nextTaskId, h.nextTaskId]
    show BitVec.ofNat 32 (n + 2) + BitVec.ofNat 32 1 = _
    rw [← BitVec.ofNat_add]
  · have hnat := congrArg BitVec.toNat he
    by_cases hji : j = i
    · by_cases hji' : j' = i
      · rw [hji, hji']
      · have := hold hn j' hji' hj'
        rw [hji, hnew hn] at hnat
        omega
    · by_cases hji' : j' = i
      · have := hold hn j hji hj
        rw [hji', hnew hn] at hnat
        omega
      · obtain ⟨h1, e1⟩ := ht.id j hji hj
        obtain ⟨h2, e2⟩ := ht.id j' hji' hj'
        exact h.distinct (by omega) j j' h1 h2 (by rw [← e1, he, e2])
  · by_cases hji : j = i
    · rw [hji, hnew hn]
      omega
    · exact (hold hn j hji hj).trans (by omega)

theorem creations_cons (x : KernelRun × KernelCall × KernelRun)
    (t : List (KernelRun × KernelCall × KernelRun)) :
    creations (x :: t) = creations t + if TaskCreated x.1.kernel.sched x.2.2.kernel.sched then 1 else 0 := by
  unfold creations
  rw [List.countP_cons]
  simp only [decide_eq_true_eq]

/-- The identifiers along a trace: they are as they should be up to the wrap-around. -/
theorem KernelTrace.ids {L : Linker} {r r' : KernelRun} {l : List Slot} {c : Slot}
    {t : List (KernelRun × KernelCall × KernelRun)} (hi : SchedInv r.kernel.sched l c)
    (h0 : IdInv r.kernel.sched 0) (h : KernelTrace L r t r') :
    (∃ l' c', SchedInv r'.kernel.sched l' c') ∧ IdInv r'.kernel.sched (creations t) ∧
      ((∀ x ∈ t, IdsOk L x.1 x.2.1 x.2.2) ↔ creations t < 2 ^ 32 - 1) := by
  induction h with
  | start => exact ⟨⟨l, c, hi⟩, h0, by simp [creations]⟩
  | @next t b d call _ hs ih =>
      obtain ⟨⟨l', c', hi'⟩, hinv, hiff⟩ := ih
      have hnext := hs.schedInv hi'
      rw [List.forall_mem_cons, creations_cons]
      rcases hs.ids hi' with hk | ⟨hres, i, ht⟩
      · have hinv' := hinv.kept hk
        rw [if_neg hk.not_created, Nat.add_zero]
        refine ⟨hnext, hinv', fun hall => hiff.mp hall.2, fun hn => ⟨⟨fun hc => ?_, ?_⟩, hiff.mpr hn⟩⟩
        · exact absurd hc hk.not_created
        · exact hinv'.distinct (by omega)
      · have hinv' := hinv.taken ht
        rw [if_pos ht.created]
        refine ⟨hnext, hinv', fun hall => ?_, fun hn => ⟨⟨fun _ id he => ?_, ?_⟩, hiff.mpr (by omega)⟩⟩
        · -- the creation that reaches the wrap-around returns 0
          have hlt := hiff.mp hall.2
          have hne := hall.1.1 ht.created _ hres
          by_contra hge
          have hlast : creations t + 2 = 2 ^ 32 := by omega
          rw [hinv.nextTaskId, hlast] at hne
          exact hne (by decide)
        · obtain rfl := Option.some.inj (hres.symm.trans he)
          intro hz
          have hnat := congrArg BitVec.toNat (hinv.nextTaskId.symm.trans hz)
          rw [BitVec.toNat_ofNat, Nat.mod_eq_of_lt (by omega)] at hnat
          have hzero : (0 : BitVec 32).toNat = 0 := by decide
          omega
        · exact hinv'.distinct (by omega)

/-! ### From boot on -/

/-- The first creation takes the first identifier. -/
theorem startKernel_first {L : Linker} {k : Kernel} {stack : ℕ} (hen : k.sched.schedEnabled = false)
    (name : List (BitVec 8)) (func arg : Word) (priority : BitVec 32) (i : Slot) :
    (startKernel L k i stack name func arg priority).sched.nextTaskId = k.sched.nextTaskId + 1 ∧
      ((startKernel L k i stack name func arg priority).task i).id = k.sched.nextTaskId := by
  unfold startKernel
  simp only
  split
  · rename_i hc
    exact absurd (hen.symm.trans hc) (by decide)
  · refine ⟨rfl, ?_⟩
    simp only [Kernel.task, Kernel.upd, Kernel.setCurrent, Kernel.setMem, Kernel.takeId,
      Sched.upd_taskPool_same]
    rfl

theorem schedInit_ids {L : Linker} {k k' : Kernel} {idleFunc : Word}
    (hs : k.sched.nextTaskId = 1 ∧ k.sched.schedEnabled = false ∧ k.sched.currentTask = none)
    (he : schedInit L idleFunc k = some k') (hcur : k'.sched.currentTask ≠ none) :
    k'.sched.nextTaskId = 2 ∧ (k'.task 0).id = 1 := by
  unfold schedInit at he
  split at he
  · cases he
  rename_i id k₁ hcreate
  cases he
  rcases taskCreate_split hcreate with ⟨hf, -⟩ | ⟨i, stack, pmm, hfind, -, -, rfl⟩
  · exact absurd (hf.sched.currentTask.trans hs.2.2) hcur
  · have h0 : findSlot (clearPool k.sched) = some 0 := findSlot_cleared _ rfl
    obtain rfl : i = 0 := Option.some.inj (hfind.symm.trans h0)
    obtain ⟨h1, h2⟩ := @startKernel_first L { pmm := pmm, mmu := k.mmu, sched := clearPool k.sched }
      (pageToPhys stack) hs.2.1 [0x69, 0x64, 0x6C, 0x65] idleFunc 0 255 0
    have hn : (clearPool k.sched).nextTaskId = 1 := hs.1
    exact ⟨h1.trans (by rw [hn]; decide), h2.trans hn⟩

/-- After `boot` the idle task has the identifier 1. -/
theorem boot_idInv {L : Linker} {idleFunc : Word} {s : Mmu} {k : Kernel}
    (h : boot L idleFunc s = some k) : SchedInv k.sched [] 0 ∧ IdInv k.sched 0 := by
  obtain ⟨k', stack, hk', hb⟩ := boot_total L idleFunc s
  obtain rfl : k = k' := Option.some.inj (h.symm.trans hk')
  have hcur : k.sched.currentTask ≠ none := by rw [hb.sched.current]; simp
  unfold boot at h
  split at h
  · cases h
  obtain ⟨h1, h2⟩ := schedInit_ids ⟨rfl, rfl, rfl⟩ h hcur
  have hzero : ∀ i, k.sched.state i ≠ .terminated → i = 0 := fun i hi => by
    by_contra hne
    exact hi (hb.terminated i hne)
  refine ⟨hb.sched, h1, fun _ i j hi hj _ => (hzero i hi).trans (hzero j hj).symm, fun _ i hi => ?_⟩
  rw [hzero i hi]
  show ((k.task 0).id).toNat < 2
  rw [h2]
  decide

/-- **Task identity**: in a run from boot every successful creation returns an identifier other
than 0, and the tasks that live have distinct identifiers, exactly if fewer than `2^32 - 1` tasks
are created besides the idle task. -/
theorem task_ids_unique_iff (L : Linker) (idleFunc : Word) (s : Mmu) {k : Kernel} {r : KernelRun}
    {t : List (KernelRun × KernelCall × KernelRun)} (hk : boot L idleFunc s = some k)
    (h : KernelTrace L ⟨k, [], fun _ => 0⟩ t r) :
    (∀ x ∈ t, IdsOk L x.1 x.2.1 x.2.2) ↔ creations t < 2 ^ 32 - 1 := by
  obtain ⟨hi, h0⟩ := boot_idInv hk
  exact (h.ids hi h0).2.2

/-- One creation after `boot`. -/
theorem task_ids_unique_first_task : ∃ k k' id, boot default 0 bssMmu = some k ∧
    taskCreate default k [] 0 0 0 = some (id, k') ∧
    IdsOk default ⟨k, [], fun _ => 0⟩ (.create [] 0 0 0) ⟨k', [], fun _ => 0⟩ := by
  obtain ⟨k, stack, hk, hb⟩ := boot_total default 0 bssMmu
  obtain ⟨i, k', he, -⟩ := hb.create_total [] 0 0 0
  have hiff := task_ids_unique_iff default 0 bssMmu hk (.next .start (.create he))
  have hone : creations [((⟨k, [], fun _ => 0⟩ : KernelRun), KernelCall.create [] 0 0 0,
      (⟨k', [], fun _ => 0⟩ : KernelRun))] ≤ 1 := List.countP_le_length
  exact ⟨k, k', _, hk, he, hiff.mpr (lt_of_le_of_lt hone (by decide)) _ List.mem_cons_self⟩

/-! ### A run up to the wrap-around -/

theorem KernelTaskCreated.taskCreated {L : Linker} {k k' : Kernel} {l : List Slot} {c i : Slot}
    {stack : ℕ} {func arg : Word} (h : KernelTaskCreated L k k' i stack func arg)
    (hi : SchedInv k.sched l c) : TaskCreated k.sched k'.sched := by
  obtain ⟨x, hadmits, -⟩ := h.admits hi
  exact ⟨i, h.free, hadmits.state⟩

/-- Only the idle task lives, and there is room for the stack of another one. -/
structure IdleOnly (k : Kernel) (live : List Block) : Prop where
  sched : SchedInv k.sched [] 0
  terminated : ∀ i, i ≠ 0 → k.sched.state i = .terminated
  pmm : PmmInv k.pmm live
  room : blockPages live < 12288

/-- A task is created, runs and exits. -/
theorem IdleOnly.cycle (L : Linker) {k : Kernel} {live : List Block} (h : IdleOnly k live)
    (order : Slot → ℕ) : ∃ k₁ k₂ k₃ k₄,
      KernelStep L (.create [] 0 0 0) ⟨k, [], order⟩ ⟨k₁, [], order⟩ ∧
      KernelStep L .yield ⟨k₁, [], order⟩ ⟨k₂, [], order⟩ ∧
      KernelStep L .tick ⟨k₂, [], order⟩ ⟨k₃, [], order⟩ ∧
      KernelStep L .exit ⟨k₃, [], order⟩ ⟨k₄, [], order⟩ ∧
      TaskCreated k.sched k₁.sched ∧ IdleOnly k₄ live := by
  obtain ⟨i, hfind⟩ := findSlot_isSome (h.terminated 1 (by decide))
  obtain ⟨stack, k₁, he, hc⟩ := taskCreate_total (L := L) h.sched.enabled hfind h.pmm h.room [] 0 0 0
  obtain ⟨s, hslot, ht, hs⟩ := hc.task
  have hi0 : i ≠ 0 := fun e => h.sched.idle (e ▸ hc.free)
  have hi₁ : SchedInv k₁.sched [i] 0 := hs ▸ hslot.enqueue h.sched hc.free ht.state
  have hqi : i ∉ ([] : List Slot) := List.not_mem_nil
  obtain ⟨-, hlinks⟩ := addToReadyQueue_spec (hslot.queue h.sched.queue) hqi
  rw [← hs] at hlinks
  have hterm₁ : ∀ j, j ≠ 0 → j ≠ i → k₁.sched.state j = .terminated := fun j hj hji => by
    rw [hlinks.state, hslot.state hji]
    exact h.terminated j hj
  -- the tick after the yield dispatches the new task
  obtain ⟨s₃, he₃, hi₃, ht₃⟩ := schedule_after_yield hi₁
  have hp₃ : (schedule (taskYield k₁)).1.pmm = k₁.pmm := by
    rw [he₃]
    exact (taskYield_spec hi₁).2.2.2.1
  have hs₃ : (schedule (taskYield k₁)).1.sched = s₃ := by rw [he₃]
  generalize hk₃ : (schedule (taskYield k₁)).1 = k₃ at hp₃ hs₃
  have hres : (k₃.task i).resources = (s.taskPool i).resources := by
    rw [Kernel.task, hs₃]
    exact (ht₃.resources i).trans (hlinks.resources i)
  obtain ⟨s₄, n, l', he₄, hl₄, hi₄, ht₄⟩ := taskExit_cases (k := k₃) (hs₃ ▸ hi₃) hi0
  obtain ⟨rfl, rfl⟩ : 0 = n ∧ [] = l' := List.cons.inj hl₄
  obtain ⟨hslot₄, hst₄, -, -⟩ := endTask_spec k₃ i
  refine ⟨k₁, taskYield k₁, k₃, (taskExit k₃).1, .create he, .yield k₁ [] order,
    hk₃ ▸ .tick (taskYield k₁) [] order, .exit ?_, hc.taskCreated h.sched, ?_, ?_, ?_, h.room⟩
  · rw [hs₃]
    exact hi₃.current_ne_idle hi0
  · rw [he₄]
    exact hi₄
  · intro j hj
    rw [he₄]
    refine (ht₄.terminated j).mpr ?_
    by_cases hji : j = i
    · rw [hji, hst₄]
    · rw [hslot₄.state hji, hs₃]
      exact (ht₃.terminated j).mpr (hterm₁ j hj hji)
  · rw [he₄]
    refine (endTask_pmm live ((kernelStackBase_of_resources hres).trans ht.kernelStackBase)).1
      ((userStackBase_of_resources hres).trans ht.userStackBase) ?_
    rw [hp₃]
    exact hc.pmm live h.pmm

/-- A call that returns no identifier creates no task. -/
theorem KernelStep.not_created {L : Linker} {call : KernelCall} {r r' : KernelRun} {l : List Slot}
    {c : Slot} (hi : SchedInv r.kernel.sched l c) (hs : KernelStep L call r r')
    (hres : call.result L r.kernel = none) : ¬ TaskCreated r.kernel.sched r'.kernel.sched := by
  rcases hs.ids hi with hk | ⟨he, -⟩
  · exact hk.not_created
  · rw [hres] at he
    cases he

/-- Tasks come and go, one after the other. -/
theorem IdleOnly.cycles (L : Linker) {k : Kernel} {live : List Block} (h : IdleOnly k live)
    (order : Slot → ℕ) (n : ℕ) : ∃ k' t, KernelTrace L ⟨k, [], order⟩ t ⟨k', [], order⟩ ∧
      IdleOnly k' live ∧ creations t = n := by
  induction n with
  | zero => exact ⟨k, [], .start, h, rfl⟩
  | succ n ih =>
      obtain ⟨k', t, ht, h', hn⟩ := ih
      obtain ⟨k₁, k₂, k₃, k₄, s₁, s₂, s₃, s₄, hc, h₄⟩ := h'.cycle L order
      obtain ⟨l₁, c₁, hi₁⟩ := s₁.schedInv h'.sched
      obtain ⟨l₂, c₂, hi₂⟩ := s₂.schedInv hi₁
      obtain ⟨l₃, c₃, hi₃⟩ := s₃.schedInv hi₂
      refine ⟨k₄, _, .next (.next (.next (.next ht s₁) s₂) s₃) s₄, h₄, ?_⟩
      rw [creations_cons, creations_cons, creations_cons, creations_cons, hn, if_pos hc,
        if_neg (s₂.not_created hi₁ rfl), if_neg (s₃.not_created hi₂ rfl),
        if_neg (s₄.not_created hi₃ rfl)]

/-- After `2^32 - 2` creations the next one succeeds and returns 0. -/
theorem task_id_wraps : ∃ k r k' t, boot default 0 bssMmu = some k ∧
    KernelTrace default ⟨k, [], fun _ => 0⟩ t r ∧
    taskCreate default r.kernel [] 0 0 0 = some (0, k') ∧
    TaskCreated r.kernel.sched k'.sched := by
  obtain ⟨k, stack, hk, hb⟩ := boot_total default 0 bssMmu
  obtain ⟨hi, h0⟩ := boot_idInv hk
  have hroom : blockPages [⟨stack, 0⟩] < 12288 := by
    show 1 + 0 < 12288
    omega
  have hidle : IdleOnly k [⟨stack, 0⟩] := ⟨hb.sched, hb.terminated, hb.pmm, hroom⟩
  obtain ⟨k', t, ht, h', hn⟩ := hidle.cycles default (fun _ => 0) (2 ^ 32 - 2)
  obtain ⟨-, hinv, -⟩ := ht.ids hi h0
  obtain ⟨i, hfind⟩ := findSlot_isSome (h'.terminated 1 (by decide))
  obtain ⟨p, k₁, he, hc⟩ := taskCreate_total (L := default) h'.sched.enabled hfind h'.pmm h'.room []
    0 0 0
  have hzero : k'.sched.nextTaskId = 0 := by
    rw [hinv.nextTaskId, hn]
    decide
  rw [hzero] at he
  exact ⟨k, _, k₁, t, hk, ht, he, hc.taskCreated h'.sched⟩

end AArch64Os
