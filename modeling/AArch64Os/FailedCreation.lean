import AArch64Os.KernelMap
import AArch64Os.Residue

/-! # Creations that fail

`task_create_user` gives back what it took when a slot or a page lacks, and returns 0.  For page
tables there is no such way out: `alloc_page_table` spins when the region is used up.  A user
task needs six tables (`buildUserTable_isSome_iff`), so that a creation that lacks nothing but
tables hangs (`failed_creation_atomic_iff`). -/

namespace AArch64Os

open ByteMem Radix

/-! ### The tables of a user task -/

theorem pagesInRange_prog {size : Word} {n : ℕ} (hs : size.toNat = pageSize * n) :
    pagesInRange userProgBase size = n := by
  have hprog : userProgBase.toNat = 0x400000 := by decide
  unfold pagesInRange
  rw [hs, hprog]
  simp only [pageSize]
  omega

/-- The pages of a program share their tables. -/
theorem pathsOf_prog {size : Word} {n : ℕ} (hs : size.toNat = pageSize * n) (h1 : 1 ≤ n) (h8 : n ≤ 8) :
    pathsOf (rangePages userProgBase size) = tablePaths userProgBase := by
  have hprog : userProgBase.toNat = 0x400000 := by decide
  have hsize : pageSize = 4096 := rfl
  rw [hsize] at hs
  apply pathsOf_block <;> rw [hs] <;> try rw [hprog]
  · omega
  · rw [hsize]
    omega
  · omega

/-- Below its root a user task has five tables. -/
theorem card_userPaths : (tablePaths userProgBase ∪ tablePaths userStackBase).card = 5 := by decide

section
variable {L : Linker} {s s' : Mmu} {σ : Spaces} {progPhys stackPhys n : ℕ} {size : Word}

/-- The program and the stack below a root. -/
theorem mapUser_builds {roots : Set ℕ} {r : ℕ} (h : MmuInv L roots s) (hr : r ∈ roots)
    (hs : size.toNat = pageSize * n) (h1 : 1 ≤ n) (h8 : n ≤ 8) (progPhys stackPhys : ℕ) :
    Builds L roots s r (tablePaths userProgBase ∪ tablePaths userStackBase) id
      ((mmuMapUserRange L s r userProgBase (BitVec.ofNat 64 progPhys) size pageUserRx).bind
        fun s => mmuMapUserPage L s r userStackBase (BitVec.ofNat 64 stackPhys) pageUserRw) := by
  have hne := h.root_ne_zero hr
  have hprog : userProgBase.toNat = 0x400000 := by decide
  have hlt : userProgBase.toNat + size.toNat + pageSize ≤ 2 ^ 64 := by
    rw [hprog, hs]
    simp only [pageSize]
    omega
  have halign : pageAlignDown userProgBase = userProgBase := by decide
  have hrange := installRange_builds h hr userProgBase (BitVec.ofNat 64 progPhys) size pageUserRx
    (f := fun s i => mmuMapUserPage L s r (pageAt (pageAlignDown userProgBase) i)
      (pageAt (pageAlignDown (BitVec.ofNat 64 progPhys)) i) pageUserRx)
    (fun i hi s _ => by
      rw [pagesInRange_prog hs] at hi
      rw [halign]
      exact mmuMapUserPage_eq hne (progPage_lt (by omega)) _ _)
  rw [pathsOf_prog hs h1 h8] at hrange
  unfold mmuMapUserRange
  rw [mapPages_range _ s hlt]
  refine hrange.bind (fun s₁ _ ha => ?_) hr (fun _ => length_of_mem_tablePaths)
    (fun _ => length_of_mem_tablePaths)
  rw [mmuMapUserPage_eq hne userStackBase_lt]
  exact installPage_builds ha.inv hr _ _ _

/-- **A user task needs six tables**, its root and five below. -/
theorem buildUserTable_room (h : Refines L s σ) (hs : size.toNat = pageSize * n) (h1 : 1 ≤ n)
    (h8 : n ≤ 8) (progPhys stackPhys : ℕ) :
    ((buildUserTable L s progPhys size stackPhys).isSome ↔
      s.next L + 6 * pageSize ≤ L.pageTablesEnd) ∧
    ∀ x, buildUserTable L s progPhys size stackPhys = some x →
      x.2.next L = s.next L + 6 * pageSize := by
  have hsize : pageSize = 4096 := rfl
  rw [buildUserTable_eq]
  unfold mmuCreateUserTable
  cases ha : allocPageTable L s with
  | none =>
      have hno : ¬ (s.next L + pageSize ≤ L.pageTablesEnd) := by
        rw [← allocPageTable_isSome, ha]
        exact Bool.false_ne_true
      refine ⟨⟨fun hc => absurd hc Bool.false_ne_true, fun hc => absurd ?_ hno⟩,
        fun _ hc => by cases hc⟩
      omega
  | some x =>
      obtain ⟨u, s₁⟩ := x
      have href := h.newRoot ha
      have hroot : u ∈ (σ.newRoot u).roots := by
        rw [Spaces.roots_newRoot]
        exact Set.mem_insert u _
      obtain ⟨hu, hnext, -, -, -, hempty, -⟩ := allocPageTable_spec h.inv ha
      have hb := mapUser_builds href.inv hroot hs h1 h8 progPhys stackPhys
      have hlack : (lacking s₁.mem u (tablePaths userProgBase ∪ tablePaths userStackBase)).card = 5 := by
        rw [lacking_fresh hempty, card_userPaths]
        intro p hp
        rcases Finset.mem_union.mp hp with hp | hp <;> exact ne_nil_of_mem_tablePaths hp
      have hroom := hb.room
      rw [hlack, hnext] at hroom
      rw [Option.bind_some, if_neg (href.inv.root_ne_zero hroot), ← Option.bind_assoc]
      constructor
      · rw [Option.isSome_bind]
        have hany : ∀ o : Option Mmu, o.any (fun s => (some (u, s)).isSome) = o.isSome := by
          intro o
          cases o <;> rfl
        rw [hany]
        refine hroom.trans ?_
        omega
      · intro x hx
        obtain ⟨s₂, hs₂, hx⟩ := Option.bind_eq_some_iff.mp hx
        cases hx
        have hadd := (hb.adds s₂ hs₂).next
        rw [hlack, hnext, hu] at hadd
        show s₂.next L = _
        rw [show s₂.next L = _ from hadd]
        omega

/-- The same whatever the older tables have become. -/
theorem buildUserTable_isSome_iff (hn : NextOk L s) (hp : progPhys % pageSize = 0)
    (hp' : progPhys < 2 ^ 48) (hs : size.toNat = pageSize * n) (h1 : 1 ≤ n) (h8 : n ≤ 8)
    (stackPhys : ℕ) :
    (buildUserTable L s progPhys size stackPhys).isSome ↔
      s.next L + 6 * pageSize ≤ L.pageTablesEnd := by
  have hrel := buildUserTable_shadow hn stackPhys hp hp' hs h8
  have hroom := (buildUserTable_room (blank_refines hn) hs h1 h8 progPhys stackPhys).1
  rw [show s.blank.next L = s.next L from Mmu.next_congr rfl] at hroom
  rw [Runs.rel_isSome hrel]
  exact hroom

end

/-! ### What a failed creation leaves -/

/-- Nothing of what is in use has changed: the free pages, the queue, the live tasks, and all of the
memory with the saved registers, the stacks and the page tables in it.  The slot that was picked is
free. -/
structure Untouched (k k' : Kernel) : Prop where
  mmu : k'.mmu = k.mmu
  free : ∀ q < k.pmm.numPages,
    (k'.pmm.pages q).flags = pageFree ↔ (k.pmm.pages q).flags = pageFree
  freePages : k'.pmm.mainZone.freePages = k.pmm.mainZone.freePages
  readyQueueHead : k'.sched.readyQueueHead = k.sched.readyQueueHead
  readyQueueTail : k'.sched.readyQueueTail = k.sched.readyQueueTail
  next : k'.sched.next = k.sched.next
  prev : k'.sched.prev = k.sched.prev
  currentTask : k'.sched.currentTask = k.sched.currentTask
  nextTaskId : k'.sched.nextTaskId = k.sched.nextTaskId
  live : ∀ j, k.sched.state j ≠ .terminated → k'.sched.taskPool j = k.sched.taskPool j
  slot : ∀ i, findSlot k.sched = some i → k'.sched.state i = .terminated

/-- The live blocks determine which pages are free. -/
theorem PmmInv.free_iff {s : Pmm} {live : List Block} (h : PmmInv s live) {q : ℕ}
    (hq : q < managedPages) :
    (s.pages q).flags = pageFree ↔ ¬ kernelPage q ∧ ∀ b ∈ live, ¬ b.Has q := by
  have hlt : q < s.numPages := by rwa [h.numPages]
  constructor
  · intro hf
    have hf' : (s.tags q).flags = pageFree := hf
    constructor
    · intro hk
      have hr := (h.reserved q hlt).mpr hk
      rw [hf'] at hr
      exact absurd hr (by decide)
    · intro b hb hh
      have hu := (h.used b hb q hh).2
      rw [hf'] at hu
      exact absurd hu (by decide)
  · rintro ⟨hk, hb⟩
    rcases h.flags q hlt with hf | hu | hr
    · exact hf
    · obtain ⟨b, hm, hh⟩ := h.cover q hlt hu
      exact absurd hh (hb b hm)
    · exact absurd ((h.reserved q hlt).mp hr) hk

theorem PmmInv.freePages_eq {s s' : Pmm} {live : List Block} (h : PmmInv s live)
    (h' : PmmInv s' live) : s'.mainZone.freePages = s.mainZone.freePages := by
  have hc := h.count
  have hc' := h'.count
  rw [h.reservedPages_eq, h.numPages] at hc
  rw [h'.reservedPages_eq, h'.numPages] at hc'
  omega

section
variable {L : Linker} {k k' : Kernel} {live : List Block}

theorem CreationFailed.untouched (h : CreationFailed k k') (hp : PmmInv k.pmm live)
    (hid : k'.sched.nextTaskId = k.sched.nextTaskId) : Untouched k k' where
  mmu := h.mmu
  free q hq := by
    rw [hp.numPages] at hq
    rw [hp.free_iff hq, (h.pmm live hp).free_iff hq]
  freePages := hp.freePages_eq (h.pmm live hp)
  readyQueueHead := h.sched.readyQueueHead
  readyQueueTail := h.sched.readyQueueTail
  next := h.sched.next
  prev := h.sched.prev
  currentTask := h.sched.currentTask
  nextTaskId := hid
  live := h.sched.live
  slot _ hi := h.sched.free _ (findSlot_free hi)

/-- With the invariant of the page allocator a creation that finds no slot or not all of its pages
returns. -/
theorem taskCreateUser_returns (hp : PmmInv k.pmm live) {binarySize : Word}
    (hno : findSlot k.sched = none ∨ userPages k.pmm binarySize = none) (name : List (BitVec 8))
    (binary : ℕ) (priority : BitVec 32) :
    (taskCreateUser L k name binary binarySize priority).isSome := by
  have hmax : blockOrder binarySize ≤ maxOrder := (blockOrder_le binarySize).trans (by decide)
  cases hi : findSlot k.sched with
  | none =>
      unfold taskCreateUser
      simp only [hi]
      rfl
  | some i =>
  have hpages := hno.resolve_left (by rw [hi]; simp)
  rcases hp.allocPages (show 0 ≤ maxOrder from Nat.zero_le _) with h₁ | ⟨kstack, pmm₁, h₁, hp₁⟩
  · unfold taskCreateUser
    simp only [hi, show allocPages k.pmm 0 = _ from h₁]
    rfl
  rcases hp₁.allocPages (show 0 ≤ maxOrder from Nat.zero_le _) with h₂ | ⟨ustack, pmm₂, h₂, hp₂⟩
  · unfold taskCreateUser
    simp only [hi, show allocPages k.pmm 0 = _ from h₁, Kernel.upd,
      show allocPages pmm₁ 0 = _ from h₂]
    rfl
  rcases hp₂.allocPages hmax with h₃ | ⟨prog, pmm₃, h₃, -⟩
  · unfold blockOrder at h₃
    unfold taskCreateUser
    simp only [hi, show allocPages k.pmm 0 = _ from h₁, Kernel.upd,
      show allocPages pmm₁ 0 = _ from h₂, h₃]
    rfl
  · unfold userPages at hpages
    simp only [show allocPages k.pmm 0 = _ from h₁, show allocPages pmm₁ 0 = _ from h₂, h₃] at hpages
    cases hpages

/-- What a creation needs and does not get: a slot, its pages, or six page tables. -/
def LacksResource (L : Linker) (k : Kernel) (binarySize : Word) : Prop :=
  findSlot k.sched = none ∨ userPages k.pmm binarySize = none ∨
    L.pageTablesEnd < k.mmu.next L + 6 * pageSize

/-- With slot and pages a creation returns exactly if there is room for its tables. -/
theorem taskCreateUser_isSome_iff {i : Slot} {p : UserPages} {pmm : Pmm} {binarySize : Word}
    (hn : NextOk L k.mmu) (hi : findSlot k.sched = some i)
    (hp : userPages k.pmm binarySize = some (p, pmm)) (hlt : p.prog < 16384)
    (name : List (BitVec 8)) (binary : ℕ) (priority : BitVec 32) :
    (taskCreateUser L k name binary binarySize priority).isSome ↔
      k.mmu.next L + 6 * pageSize ≤ L.pageTablesEnd := by
  obtain ⟨s₁, s₂, h₁, h₂, h₃⟩ := userPages_some hp
  obtain ⟨halign, hlt48⟩ := pageToPhys_bounds hlt
  have hn₁ : NextOk L (k.setMem (k.mmu.mem.copy (pageToPhys p.prog) binary binarySize.toNat)).mmu :=
    hn.congr rfl
  have hb := buildUserTable_isSome_iff hn₁ halign hlt48 (blockBytes_eq binarySize)
    (Nat.two_pow_pos _) (two_pow_blockOrder_le binarySize) (pageToPhys p.ustack)
  have hnext : (k.setMem (k.mmu.mem.copy (pageToPhys p.prog) binary binarySize.toNat)).mmu.next L =
      k.mmu.next L := Mmu.next_congr rfl
  rw [hnext] at hb
  rw [taskCreateUser_eq hi h₁ h₂ h₃, ← hb]
  obtain ⟨-, hu, -⟩ := withStacks_task k pmm i p.kstack p.ustack
  rw [← hu]
  constructor
  · intro hs
    obtain ⟨x, hx⟩ := Option.isSome_iff_exists.mp hs
    unfold finishUser at hx
    simp only at hx
    split at hx
    · cases hx
    · rename_i userPgd mmu he
      exact Option.isSome_iff_exists.mpr ⟨_, he⟩
  · intro hs
    obtain ⟨⟨userPgd, mmu⟩, he⟩ := Option.isSome_iff_exists.mp hs
    exact finishUser_total (k := k.withStacks pmm i p.kstack p.ustack) he p.kstack p.ustack name
      priority

end

/-! ### All slots taken -/

/-- A slot is free while the queue is short. -/
theorem SchedInv.findSlot_isSome {s : Sched} {l : List Slot} {c : Slot} (h : SchedInv s l c)
    (hl : l.length + 1 < maxTasks) : ∃ i, findSlot s = some i := by
  rw [← Option.isSome_iff_exists]
  obtain ⟨i, hi⟩ : ∃ i, i ∉ c :: l := by
    by_contra hc
    push Not at hc
    have hle := ((List.nodup_finRange maxTasks).subperm (fun i _ => hc i)).length_le
    rw [List.length_finRange, List.length_cons] at hle
    omega
  rw [List.mem_cons, not_or] at hi
  unfold findSlot
  rw [List.find?_isSome]
  refine ⟨i, List.mem_finRange i, ?_⟩
  rw [decide_eq_true_iff]
  cases hs : s.state i with
  | ready => exact absurd ((h.ready i).mpr hs) hi.2
  | running => exact absurd ((h.running i).mp hs) hi.1
  | blocked => exact absurd hs (h.notBlocked i)
  | terminated => rfl

/-- A queue of 31 tasks and the one that runs take all slots. -/
theorem SchedInv.full {s : Sched} {l : List Slot} {c : Slot} (h : SchedInv s l c)
    (hl : l.length + 1 = maxTasks) : findSlot s = none := by
  unfold findSlot
  rw [List.find?_eq_none]
  intro i _ hi
  obtain ⟨hmem, hne⟩ := h.free_slot (of_decide_eq_true hi)
  have hcons : i ∉ c :: l := by
    simp only [List.mem_cons, not_or]
    exact ⟨hne.symm, hmem⟩
  have hnodup : (i :: c :: l).Nodup :=
    List.nodup_cons.mpr ⟨hcons, List.nodup_cons.mpr ⟨h.current_not_mem, h.queue.nodup⟩⟩
  have hle := (hnodup.subperm (fun i _ => List.mem_finRange i)).length_le
  rw [List.length_cons, List.length_cons, hl, List.length_finRange] at hle
  exact absurd hle (Nat.not_succ_le_self _)

/-- After `boot` and `n` creations of kernel tasks. -/
structure Occupied (n : ℕ) (k : Kernel) : Prop where
  reachable : ∃ order, Reachable default 0 bssMmu (fun _ _ => True) ⟨k, [], order⟩
  queue : ∃ l c, SchedInv k.sched l c ∧ l.length = n
  pages : ∃ live, PmmInv k.pmm live ∧ blockPages live = 1 + n

theorem Occupied.create {n : ℕ} {k : Kernel} (h : Occupied n k) (hn : n < 31) :
    ∃ k', Occupied (n + 1) k' := by
  obtain ⟨order, hr⟩ := h.reachable
  obtain ⟨l, c, hi, hl⟩ := h.queue
  obtain ⟨live, hp, hb⟩ := h.pages
  obtain ⟨i, hslot⟩ := hi.findSlot_isSome (by simp only [maxTasks]; omega)
  obtain ⟨p, k', he, hc⟩ := taskCreate_total (L := default) hi.enabled hslot hp (by omega) [] 0 0 0
  obtain ⟨s, honly, ht, hs⟩ := hc.task
  have hsched : SchedInv k'.sched (l ++ [i]) c := hs ▸ honly.enqueue hi hc.free ht.state
  obtain ⟨k₀, hk₀, hrun⟩ := hr
  refine ⟨k', ⟨_, k₀, hk₀, hrun.tail ⟨_, trivial, .create he⟩⟩,
    ⟨_, _, hsched, by rw [List.length_append, hl]; rfl⟩, ⟨_, hc.pmm live hp, ?_⟩⟩
  rw [blockPages_cons_page, hb]
  rfl

theorem occupied : ∀ n ≤ 31, ∃ k, Occupied n k := by
  intro n
  induction n with
  | zero =>
      intro _
      obtain ⟨k, stack, hk, hb⟩ := boot_total default 0 bssMmu
      exact ⟨k, ⟨fun _ => 0, k, hk, .refl⟩, ⟨_, _, hb.sched, rfl⟩,
        ⟨_, hb.pmm, by simp [blockPages, Block.size]⟩⟩
  | succ n ih =>
      intro hn
      obtain ⟨k, hk⟩ := ih (by omega)
      exact hk.create (by omega)

theorem Occupied.full {k : Kernel} (h : Occupied 31 k) : findSlot k.sched = none := by
  obtain ⟨l, c, hi, hl⟩ := h.queue
  exact hi.full (by rw [hl])

/-- Without a slot or without pages a creation returns 0 and fails. -/
theorem Reachable.lacks {L : Linker} {idleFunc : Word} {s : Mmu} {r : KernelRun}
    {binarySize : Word}
    (hr : Reachable L idleFunc s (fun _ _ => True) r)
    (hno : findSlot r.kernel.sched = none ∨ userPages r.kernel.pmm binarySize = none)
    (name : List (BitVec 8)) (binary : ℕ) (priority : BitVec 32) :
    ∃ k', taskCreateUser L r.kernel name binary binarySize priority = some (0, k') ∧
      CreationFailed r.kernel k' ∧ k'.sched.nextTaskId = r.kernel.sched.nextTaskId := by
  obtain ⟨-, ⟨live, hpmm⟩, -⟩ := hr.creationInv
  obtain ⟨⟨id, k'⟩, he⟩ := Option.isSome_iff_exists.mp
    (taskCreateUser_returns (L := L) hpmm hno name binary priority)
  rcases taskCreateUser_split he with ⟨hf, rfl, hid⟩ | ⟨i, _, _, _, _, hs, hu, -⟩
  · exact ⟨k', he, hf, hid⟩
  · rcases hno with hno | hno
    · rw [hno] at hs
      cases hs
    · rw [hno] at hu
      cases hu

/-- **When a failed creation is atomic**: a creation that lacks something returns 0 and leaves
everything as it was, except where it lacks nothing but page tables; there it hangs. -/
theorem failed_creation_atomic_iff {L : Linker} {idleFunc : Word} {s : Mmu} {r : KernelRun}
    (hr : Reachable L idleFunc s (fun _ _ => True) r) (name : List (BitVec 8)) (binary : ℕ)
    (binarySize : Word) (priority : BitVec 32) :
    (LacksResource L r.kernel binarySize →
      ∃ k', taskCreateUser L r.kernel name binary binarySize priority = some (0, k') ∧
        Untouched r.kernel k') ↔
      findSlot r.kernel.sched = none ∨ userPages r.kernel.pmm binarySize = none ∨
        r.kernel.mmu.next L + 6 * pageSize ≤ L.pageTablesEnd := by
  obtain ⟨⟨l, cur, hi⟩, ⟨live, hp⟩, hn⟩ := hr.creationInv
  constructor
  · intro hprop
    by_contra hc
    push Not at hc
    obtain ⟨hslot, hpages, hroom⟩ := hc
    obtain ⟨i, hi'⟩ := Option.ne_none_iff_exists'.mp hslot
    obtain ⟨⟨p, pmm⟩, hp'⟩ := Option.ne_none_iff_exists'.mp hpages
    obtain ⟨k', he, -⟩ := hprop (.inr (.inr hroom))
    have hfresh : FreshPages L r.kernel.pmm p binarySize := userPages_fresh hp hp'
    have hsome := (taskCreateUser_isSome_iff hn hi' hp' hfresh.prog_lt name binary priority).mp
      (by rw [he]; rfl)
    omega
  · intro hc hlack
    have hno : findSlot r.kernel.sched = none ∨ userPages r.kernel.pmm binarySize = none := by
      rcases hc with hc | hc | hc
      · exact .inl hc
      · exact .inr hc
      · rcases hlack with hl | hl | hl
        · exact .inl hl
        · exact .inr hl
        · omega
    obtain ⟨k', he, hf, hid⟩ := hr.lacks hno name binary priority
    exact ⟨k', he, hf.untouched hp hid⟩

/-- The first user task would be the thirty-third task. -/
theorem failed_creation_atomic_iff_full : ∃ k order k',
    Reachable default 0 bssMmu (fun _ _ => True) ⟨k, [], order⟩ ∧ LacksResource default k 64 ∧
    taskCreateUser default k [] 0x40480000 64 1 = some (0, k') ∧ Untouched k k' := by
  obtain ⟨k, h⟩ := occupied 31 le_rfl
  obtain ⟨order, hr⟩ := h.reachable
  have hno : findSlot k.sched = none := h.full
  obtain ⟨k', he, hk'⟩ := (failed_creation_atomic_iff hr [] 0x40480000 64 1).mpr (.inl hno) (.inl hno)
  exact ⟨k, order, k', hr, .inl hno, he, hk'⟩

/-! ### The fifth user task -/

/-- A creation of a user task takes six tables. -/
theorem UserTaskCreated.next {L : Linker} {k k' : Kernel} {heap : List Block} {order : Slot → ℕ}
    {g : Slot → Holding} {σ : Spaces} {leaked : List Block} {dead : Set ℕ} {i : Slot}
    {kstack ustack prog binary : ℕ} {binarySize : Word}
    (hc : UserTaskCreated L k k' i kstack ustack prog binary binarySize)
    (h : KernelInv L ⟨k, heap, order⟩ g σ leaked dead) (hfits : binarySize.toNat ≤ 8 * pageSize) :
    k'.mmu.next L = k.mmu.next L + 6 * pageSize := by
  obtain ⟨userPgd, s, mmu, -, -, -, -, hbuild, hmmu⟩ := hc.task
  have href := h.tables.refines.copyProgram (hc.pmm _ h.owns.pmm) List.mem_cons_self hfits binary
  have hroom := (buildUserTable_room href (blockBytes_eq binarySize) (Nat.two_pow_pos _)
    (two_pow_blockOrder_le binarySize) (pageToPhys prog) (pageToPhys ustack)).2 _ hbuild
  rw [hmmu]
  exact hroom

/-- After `boot` and `n` creations of user tasks. -/
structure Crowded (n : ℕ) (k : Kernel) : Prop where
  reachable : ∃ order, Reachable default 0 bssMmu (fun _ _ => True) ⟨k, [], order⟩
  inv : ∃ order g σ, KernelInv default ⟨k, [], order⟩ g σ [] ∅
  queue : ∃ l c, SchedInv k.sched l c ∧ l.length = n
  pages : ∃ live, PmmInv k.pmm live ∧ blockPages live = 1 + 3 * n
  next : k.mmu.next default = (default : Linker).pageTablesStart + (38 + 6 * n) * pageSize

/-- Creating `n` user tasks with programs of 64 bytes. -/
def createUsers (L : Linker) : ℕ → Kernel → Option Kernel
  | 0, k => some k
  | n + 1, k => (createUsers L n k).bind fun k =>
      (taskCreateUser L k [] 0x40480000 64 1).map Prod.snd

theorem crowded_boot : ∃ k, boot default 0 bssMmu = some k ∧ Crowded 0 k := by
  obtain ⟨k, stack, hk, hb⟩ := boot_total default 0 bssMmu
  obtain ⟨mmu, hinit, -, m, hm, -⟩ := hb.mmu
  refine ⟨k, hk, ⟨fun _ => 0, k, hk, .refl⟩, ⟨_, _, _, hb.kernelInv⟩, ⟨_, _, hb.sched, rfl⟩,
    ⟨_, hb.pmm, by simp [blockPages, Block.size]⟩, ?_⟩
  have hn : k.mmu.next default = mmu.next default := by
    rw [hm]
    rfl
  rw [hn, mmuInit_next hinit]

theorem Crowded.create {n : ℕ} {k : Kernel} (h : Crowded n k) (hn : n < 4) :
    ∃ id k', taskCreateUser default k [] 0x40480000 64 1 = some (id, k') ∧ Crowded (n + 1) k' := by
  obtain ⟨order₀, hr⟩ := h.reachable
  obtain ⟨order, g, σ, hinv⟩ := h.inv
  obtain ⟨l, c, hi, hl⟩ := h.queue
  obtain ⟨live, hp, hb⟩ := h.pages
  have hsize : (64 : Word).toNat ≤ pageSize := by decide
  have hfits : (64 : Word).toNat ≤ 8 * pageSize := by decide
  obtain ⟨i, hslot⟩ := hi.findSlot_isSome (by simp only [maxTasks]; omega)
  have hpages := hp.blockPages_eq hinv.owns.pmm
  have hend := (default : Linker).end_eq
  have hnext := h.next
  obtain ⟨id, k', kstack, ustack, prog, he, hc⟩ := taskCreateUser_total hinv hslot hsize
    (by rw [hpages]; omega) (by rw [hnext]; simp only [pageSize]; omega) [] 0x40480000 1
  obtain ⟨g', σ', hinv'⟩ := hc.kernelInv hinv hfits
  have hfree := findSlot_free hslot
  obtain ⟨_, s', _, hslot', ht, hs, _⟩ := hc.task
  have hsched : SchedInv k'.sched (l ++ [i]) c := hs ▸ hslot'.enqueue hi hfree ht.state
  obtain ⟨k₀, hk₀, hrun⟩ := hr
  refine ⟨id, k', he, ⟨_, k₀, hk₀, hrun.tail ⟨_, trivial, .createUser he⟩⟩, ⟨_, _, _, hinv'⟩,
    ⟨_, _, hsched, by rw [List.length_append, hl]; rfl⟩, ⟨_, hc.pmm live hp, ?_⟩, ?_⟩
  · rw [show blockOrder 64 = 0 from blockOrder_zero hsize, blockPages_cons_page,
      blockPages_cons_page, blockPages_cons_page, hb]
    ring
  · rw [hc.next hinv hfits, hnext]
    ring

theorem crowded_four {k₀ : Kernel} (h : Crowded 0 k₀) :
    ∀ n ≤ 4, ∃ k, createUsers default n k₀ = some k ∧ Crowded n k := by
  intro n
  induction n with
  | zero => exact fun _ => ⟨k₀, rfl, h⟩
  | succ n ih =>
      intro hn
      obtain ⟨k, hk, hc⟩ := ih (by omega)
      obtain ⟨id, k', he, hc'⟩ := hc.create (by omega)
      refine ⟨k', ?_, hc'⟩
      simp only [createUsers, hk, Option.bind_some, he, Option.map_some]

/-- With four user tasks the fifth hangs, though there is a slot and there are pages. -/
theorem fifth_creation_hangs : ∃ k₀ k order, boot default 0 bssMmu = some k₀ ∧
    createUsers default 4 k₀ = some k ∧
    Reachable default 0 bssMmu (fun _ _ => True) ⟨k, [], order⟩ ∧ LacksResource default k 64 ∧
    (findSlot k.sched).isSome ∧ (userPages k.pmm 64).isSome ∧
    taskCreateUser default k [] 0x40480000 64 1 = none := by
  obtain ⟨k₀, hk₀, h₀⟩ := crowded_boot
  obtain ⟨k, hk, h⟩ := crowded_four h₀ 4 le_rfl
  obtain ⟨order, hr⟩ := h.reachable
  obtain ⟨l, c, hi, hl⟩ := h.queue
  obtain ⟨live, hp, hb⟩ := h.pages
  obtain ⟨i, hslot⟩ := hi.findSlot_isSome (by simp only [maxTasks]; omega)
  obtain ⟨p, pmm, hpages⟩ := hp.userPages_total (by omega)
    (show (64 : Word).toNat ≤ pageSize by decide)
  have hnext := h.next
  have hend := (default : Linker).end_eq
  have hfull : ¬ (k.mmu.next default + 6 * pageSize ≤ (default : Linker).pageTablesEnd) := by
    rw [hnext]
    simp only [pageSize]
    omega
  have hfresh : FreshPages default k.pmm p 64 := userPages_fresh hp hpages
  have hsome := taskCreateUser_isSome_iff (L := default) hr.creationInv.2.2 hslot hpages
    hfresh.prog_lt [] 0x40480000 1
  refine ⟨k₀, k, order, hk₀, hk, hr, .inr (.inr (by omega)), ?_, ?_, ?_⟩
  · rw [hslot]
    rfl
  · rw [hpages]
    rfl
  · rw [← Option.not_isSome_iff_eq_none, hsome]
    exact hfull

end AArch64Os
