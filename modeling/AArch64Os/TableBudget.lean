import AArch64Os.FailedCreation
import AArch64Os.TaskIds

/-! # The budget of page tables

`alloc_page_table` counts up through its region and takes nothing back.  The map of the kernel
takes 38 of the 64 tables and every user task six more, also one that has long ended: over its
lifetime the system creates four user tasks, and a fifth call of `task_create_user` that finds a
slot and pages does not return (`user_tasks_at_most_four`). -/

namespace AArch64Os

open Runs

/-- A call of `task_create_user`. -/
def KernelCall.IsCreateUser : KernelCall → Prop
  | .createUser _ _ _ _ => True
  | _ => False

instance : DecidablePred KernelCall.IsCreateUser
  | .createUser _ _ _ _ => .isTrue trivial
  | .create _ _ _ _ => .isFalse id
  | .yield => .isFalse id
  | .tick => .isFalse id
  | .exit => .isFalse id
  | .heapAlloc _ => .isFalse id
  | .heapFree _ => .isFalse id
  | .store => .isFalse id

/-- A call of `task_create_user` that makes a task. -/
def CreatesUser (x : KernelRun × KernelCall × KernelRun) : Prop :=
  x.2.1.IsCreateUser ∧ TaskCreated x.1.kernel.sched x.2.2.kernel.sched

instance : DecidablePred CreatesUser := fun _ => inferInstanceAs (Decidable (_ ∧ _))

/-- The number of user tasks that were created in a trace. -/
def userCreations (t : List (KernelRun × KernelCall × KernelRun)) : ℕ := t.countP CreatesUser

section
variable {L : Linker} {k k' : Kernel} {r r' : KernelRun} {c : KernelCall} {g : Slot → Holding}
  {σ : Spaces} {leaked : List Block} {dead : Set ℕ} {t : List (KernelRun × KernelCall × KernelRun)}

/-- A creation that fails makes no task. -/
theorem FreeSlotsOnly.not_created {s s' : Sched} (h : FreeSlotsOnly s s') : ¬ TaskCreated s s' := by
  rintro ⟨i, hi, hi'⟩
  exact hi' (h.free i hi)

theorem UserTaskCreated.taskCreated {l : List Slot} {cur i : Slot} {kstack ustack prog binary : ℕ}
    {binarySize : Word} (h : UserTaskCreated L k k' i kstack ustack prog binary binarySize)
    (hi : SchedInv k.sched l cur) : TaskCreated k.sched k'.sched := by
  obtain ⟨_, s, _, hslot, ht, hs, -⟩ := h.task
  have hfree := findSlot_free h.slot
  exact ⟨i, hfree, (hs ▸ hslot.admits hi hfree ht.state : Admits k.sched k'.sched i _).state⟩

/-- Only the creation of a user task takes tables, and it takes six. -/
theorem KernelStep.next (h : KernelInv L r g σ leaked dead) (hfits : c.Fits)
    (hs : KernelStep L c r r') :
    r'.kernel.mmu.next L =
      r.kernel.mmu.next L + if CreatesUser (r, c, r') then 6 * pageSize else 0 := by
  obtain ⟨l, cur, hi⟩ := h.sched
  have hother : ∀ {c : KernelCall}, ¬ c.IsCreateUser → ¬ CreatesUser (r, c, r') :=
    fun hc h => hc h.1
  cases hs with
  | create he =>
      rw [if_neg (hother id)]
      rcases taskCreate_cases hi.enabled he with hf | ⟨i, stack, hc⟩
      · rw [hf.mmu]
        rfl
      · rw [hc.mmu]
        rfl
  | createUser he =>
      rcases taskCreateUser_cases hi.enabled he with hf | ⟨i, kstack, ustack, prog, hc⟩
      · rw [if_neg (fun hc => hf.sched.not_created hc.2), hf.mmu]
        rfl
      · rw [if_pos ⟨trivial, hc.taskCreated hi⟩]
        exact hc.next h hfits
  | yield k heap order =>
      rw [if_neg (hother id), (taskYield_spec hi).2.2.1]
      rfl
  | tick k heap order =>
      rw [if_neg (hother id)]
      rcases schedule_cases hi with ⟨s, he, -⟩ | ⟨s, n, l', he, -⟩
      · rw [he]
        rfl
      · rw [he]
        exact Mmu.next_congr (switchTables_nextPageTable _ _)
  | exit hidle =>
      have hc : cur ≠ 0 := fun e => hidle (e ▸ hi.current)
      obtain ⟨s, n, l', he, -⟩ := taskExit_cases hi hc
      rw [if_neg (hother id), he]
      exact Mmu.next_congr (switchTables_nextPageTable _ _)
  | heapAlloc ho he => rw [if_neg (hother id)]; rfl
  | heapNull ho he => rw [if_neg (hother id)]; rfl
  | heapFree hb => rw [if_neg (hother id)]; rfl
  | store hm => rw [if_neg (hother id)]; rfl

theorem userCreations_cons (x : KernelRun × KernelCall × KernelRun)
    (t : List (KernelRun × KernelCall × KernelRun)) :
    userCreations (x :: t) = userCreations t + if CreatesUser x then 1 else 0 := by
  unfold userCreations
  rw [List.countP_cons]
  simp only [decide_eq_true_eq]

theorem userCreations_cons_of_not {x : KernelRun × KernelCall × KernelRun}
    (h : ¬ x.2.1.IsCreateUser) : userCreations (x :: t) = userCreations t := by
  rw [userCreations_cons, if_neg (fun hc => h hc.1), Nat.add_zero]

/-- The tables that were taken along a trace. -/
theorem KernelTrace.tables (h : ∃ g σ leaked dead, KernelInv L r g σ leaked dead)
    (ht : KernelTrace L r t r') (hfits : ∀ x ∈ t, x.2.1.Fits) :
    (∃ g σ leaked dead, KernelInv L r' g σ leaked dead) ∧
      r'.kernel.mmu.next L = r.kernel.mmu.next L + userCreations t * (6 * pageSize) := by
  induction ht with
  | start => exact ⟨h, by simp [userCreations]⟩
  | @next t b d call _ hs ih =>
      rw [List.forall_mem_cons] at hfits
      obtain ⟨⟨g, σ, leaked, dead, hinv⟩, hnext⟩ := ih hfits.2
      obtain ⟨g', σ', leaked', dead', hinv', -⟩ := hs.kernelInv hinv hfits.1
      refine ⟨⟨g', σ', leaked', dead', hinv'⟩, ?_⟩
      rw [hs.next hinv hfits.1, hnext, userCreations_cons]
      split_ifs <;> ring

end

/-- The tables that were taken since `boot`. -/
theorem KernelTrace.tables_of_boot {L : Linker} {idleFunc : Word} {s : Mmu} {k : Kernel}
    {r : KernelRun}
    {t : List (KernelRun × KernelCall × KernelRun)} (hk : boot L idleFunc s = some k)
    (ht : KernelTrace L ⟨k, [], fun _ => 0⟩ t r) (hfits : ∀ x ∈ t, x.2.1.Fits) :
    (∃ g σ leaked dead, KernelInv L r g σ leaked dead) ∧
      r.kernel.mmu.next L = L.pageTablesStart + (38 + 6 * userCreations t) * pageSize := by
  obtain ⟨k', stack, hk', hb⟩ := boot_total L idleFunc s
  obtain rfl : k' = k := Option.some.inj (hk'.symm.trans hk)
  obtain ⟨mmu, hinit, -, m, hm, -⟩ := hb.mmu
  have h0 : k'.mmu.next L = L.pageTablesStart + 38 * pageSize := by
    have hsame : k'.mmu.next L = mmu.next L := by
      rw [hm]
      rfl
    exact hsame.trans (mmuInit_next hinit)
  obtain ⟨hinv, hnext⟩ := KernelTrace.tables ⟨_, _, _, _, hb.kernelInv⟩ ht hfits
  refine ⟨hinv, ?_⟩
  rw [hnext, h0]
  ring

/-- There is room for another user task exactly if fewer than four were created. -/
theorem room_iff {L : Linker} {next n : ℕ}
    (h : next = L.pageTablesStart + (38 + 6 * n) * pageSize) :
    next + 6 * pageSize ≤ L.pageTablesEnd ↔ n < 4 := by
  have hend := L.end_eq
  have hpage : pageSize = 4096 := rfl
  rw [hpage] at h
  omega

theorem NextOk.creations_le {L : Linker} {m : Mmu} {n : ℕ} (h : NextOk L m)
    (hn : m.next L = L.pageTablesStart + (38 + 6 * n) * pageSize) : n ≤ 4 := by
  have hle := h.next_le
  have hend := L.end_eq
  have hpage : pageSize = 4096 := rfl
  rw [hpage] at hn
  omega

/-- **Four user tasks in a lifetime**: over every run from `boot` on, with whatever tasks ending in
between, the tables that are taken are those of the kernel and six for each user task ever created,
which are at most four; and a call of `task_create_user` that finds a slot and pages returns exactly
as long as fewer than four were created. -/
theorem user_tasks_at_most_four {L : Linker} {idleFunc : Word} {s : Mmu} {k : Kernel}
    {r : KernelRun}
    {t : List (KernelRun × KernelCall × KernelRun)} (hk : boot L idleFunc s = some k)
    (ht : KernelTrace L ⟨k, [], fun _ => 0⟩ t r) (hfits : ∀ x ∈ t, x.2.1.Fits) :
    r.kernel.mmu.next L = L.pageTablesStart + (38 + 6 * userCreations t) * pageSize ∧
      userCreations t ≤ 4 ∧
      ∀ i p pmm name binary binarySize priority, findSlot r.kernel.sched = some i →
        userPages r.kernel.pmm binarySize = some (p, pmm) →
        ((taskCreateUser L r.kernel name binary binarySize priority).isSome ↔
          userCreations t < 4) := by
  obtain ⟨⟨g, σ, leaked, dead, hinv⟩, htotal⟩ := KernelTrace.tables_of_boot hk ht hfits
  have hok : NextOk L r.kernel.mmu := hinv.tables.refines.inv.nextOk
  refine ⟨htotal, hok.creations_le htotal, fun i p pmm name binary binarySize priority hi hp => ?_⟩
  have hlt := (userPages_fresh (L := L) hinv.owns.pmm hp).prog_lt
  rw [taskCreateUser_isSome_iff hok hi hp hlt name binary priority, room_iff htotal]

/-- The first user task. -/
theorem user_tasks_at_most_four_first : ∃ k id k', boot default 0 bssMmu = some k ∧
    taskCreateUser default k [] 0x40480000 64 1 = some (id, k') ∧
    k'.mmu.next default ≤ (default : Linker).pageTablesStart + 62 * pageSize := by
  obtain ⟨k, stack, hk, hb⟩ := boot_total default 0 bssMmu
  obtain ⟨id, k', _, _, _, he, -⟩ :=
    hb.first_user (by decide : (64 : Word).toNat ≤ pageSize) [] 0x40480000 1
  have hfits : (64 : Word).toNat ≤ 8 * pageSize := by decide
  obtain ⟨hnext, hle, -⟩ := user_tasks_at_most_four hk (.next .start (.createUser he)) (by
    rw [List.forall_mem_singleton]
    exact hfits)
  refine ⟨k, id, k', hk, he, hnext.trans_le (Nat.add_le_add_left (Nat.mul_le_mul_right _ ?_) _)⟩
  omega

end AArch64Os
