import AArch64Os.System

/-! # Runs of tasks and heap

Any interleaving of calls on tasks, calls of the heap's clients and stores.  Live memory of the heap
is no memory of a task and no data of the kernel, and both halves are safe (`system_safe`); its
contents change by writes of its owner only (`system_object_persists`), those of a user task by its
own stores (`system_user_memory`); and what is printed of the used pages tells how many pages the
exits of user tasks have lost (`lost_pages_printed`). -/

namespace AArch64Os

open ByteMem Objects Relation Runs

/-- A run of the system. -/
abbrev SystemTrace (L : Linker) := Trace (SystemStep L)

namespace System

/-- What the clients of the heap see. -/
def objects (s : System) : Store ℕ (List (BitVec 8)) := HeapRun.objects ⟨s.heap, s.live, []⟩

/-- The pages of the live tasks: a stack, and the stack and the program of a user task. -/
def taskPages (s : System) : ℕ :=
  ((List.finRange maxTasks).map (fun i =>
    if s.kernel.sched.state i = .terminated then 0
    else match (s.kernel.task i).level with
      | .kernel => 1
      | .user => 2 + 2 ^ s.order i)).sum

/-- What is printed of the page allocator and of the heap. -/
def dumpStats (s : System) : List (BitVec 8) := pmmDumpStats s.kernel.pmm ++ kmallocDumpStats s.heap

end System

/-- The pages that the calls of a run have lost. -/
def lostPages (t : List (System × SystemCall × System)) : ℕ :=
  (t.map (fun x => x.2.1.leaks x.1)).sum

/-- The operation on the objects. -/
def SystemCall.op : SystemCall → Op ℕ (List (BitVec 8))
  | .heap e => e.op
  | _ => .skip

/-- The call leaves the memory of a user task to it. -/
structure LeavesUser (i : Slot) (s : System) (c : SystemCall) (s' : System) : Prop where
  exit : c = .task .exit → s.kernel.sched.currentTask ≠ some i
  store : c = .store → ∀ x, OwnByte s.kernel i x → s'.kernel.mmu.mem x = s.kernel.mmu.mem x

/-- What holds in every state of a run. -/
structure SystemSafe (L : Linker) (s : System) : Prop where
  /-- Live memory of the heap is no memory of a task and not in the kernel. -/
  apart : ∀ p ∈ s.live, ∀ x, p.1 ≤ x → x < p.1 + p.2.toNat →
    ¬ TaskByte L s.kernel x ∧ (x < kernelBase ∨ kernelBase + kernelSize ≤ x)
  heap : ∃ G other, HeapSafe ⟨s.heap, s.live, other⟩ G
  accounts : ∃ other, AccountsExact ⟨s.heap, s.live, other⟩
  tasks : ∃ g, Isolated ⟨s.kernel, [], s.order⟩ g
  sched : ∃ l, SchedSafe s.kernel l

section
variable {L : Linker} {s s' : System} {G : Layout} {g : Slot → Holding} {σ : Spaces}
  {leaked : List Block} {dead : Set ℕ} {c : SystemCall} {i : Slot}

/-! ### Every state -/

theorem SystemInv.safe (h : SystemInv L s G g σ leaked dead) : SystemSafe L s where
  apart p hp x h1 h2 := by
    have hx := h.heap.liveByte hp h1 h2
    exact ⟨h.not_taskByte hx, (h.heap.heapByte_region hx).2⟩
  heap := ⟨G, _, h.heap.safe⟩
  accounts := ⟨_, h.heap.accounts⟩
  tasks := by
    obtain ⟨h1, h2, h3, h4, h5, h6, h7⟩ := h.tasks.isolated
    exact ⟨g, h1, h2, h3, h4, h5, h6, h7⟩
  sched := by
    obtain ⟨l, c, hi⟩ := h.tasks.sched
    exact ⟨l, hi.safe⟩

/-! ### One call -/

/-- **A call is an operation on the objects.** -/
theorem SystemStep.objects (h : SystemInv L s G g σ leaked dead) (hs : SystemStep L s c s') :
    Objects.Step s.objects c.op s'.objects := by
  cases hs with
  | @task c k' order' hc hfits hst =>
      have hsame : System.objects { s with kernel := k', order := order' } = s.objects :=
        RunLayout.objects_congr rfl (fun p hp x h1 h2 =>
          h.task_frame hc hfits hst (h.heap.liveByte hp h1 h2))
      rw [hsame]
      exact .skip _
  | heap he hst =>
      have hop := (hst.withOther he (liveBlocks s.kernel.sched g ++ leaked)).objects h.heap
      exact hop
  | @store m hm =>
      have hsame : System.objects { s with kernel := s.kernel.setMem m } = s.objects := by
        refine RunLayout.objects_congr rfl (fun p hp x h1 h2 => ?_)
        by_contra hne
        exact h.not_taskByte (h.heap.liveByte hp h1 h2) (hm x hne)
      rw [hsame]
      exact .skip _

/-- **No call on the heap changes the memory of a user task.** -/
theorem SystemInv.heap_keeps (h : SystemInv L s G g σ leaked dead) (hi : LiveUser s.kernel.sched i)
    {e : HeapEvent} {h' : Heap} {live' : List (ℕ × Word)} (he : e.IsClient)
    (hs : ClientStep ⟨s.heap, s.live, []⟩ e ⟨h', live', []⟩) :
    KeepsTask s.kernel (s.setHeap h' live').kernel i := by
  obtain ⟨G', hinv⟩ := h.heapCall he hs
  refine ⟨hi, rfl, h.tasks.tables.leaf_eq hi hinv.tasks.tables.refines rfl, fun x hx => ?_⟩
  show h'.mem x = s.kernel.mmu.mem x
  by_contra hne
  rcases h.heap.client_frame he hs hne with hheap | ⟨q, h1, h2, hfree, -⟩
  · exact h.not_taskByte hheap (.inr (.inl ⟨i, hi, hx⟩))
  · obtain ⟨b, hb, p, hp, hpx⟩ := h.tasks.isolated.ownByte hi hx
    obtain rfl := page_of_byte hpx ⟨h1, h2⟩
    have hused : (s.kernel.pmm.pages p).flags = pageUsed := (h.tasks.isolated.used i b hb p hp).1
    have hfree' : (s.kernel.pmm.pages p).flags = pageFree := hfree
    rw [hused] at hfree'
    exact absurd hfree' (by decide)

/-- **Every call leaves a user task its memory**, unless it ends the task or stores to it. -/
theorem SystemStep.keeps (h : SystemInv L s G g σ leaked dead) (hi : LiveUser s.kernel.sched i)
    (hs : SystemStep L s c s') (hl : LeavesUser i s c s') : KeepsTask s.kernel s'.kernel i := by
  cases hs with
  | @task c k' order' hc hfits hst =>
      refine (hst.withHeap hc G.blocks).keeps h.tasks hi ⟨hfits, ?_, ?_⟩
      · rintro rfl
        exact hl.exit rfl
      · rintro rfl
        exact hc.elim
  | heap he hst => exact h.heap_keeps hi he hst
  | @store m hm =>
      refine ⟨hi, rfl, ?_, hl.store rfl⟩
      exact h.tasks.tables.leaf_eq hi (h.store hm).tasks.tables.refines rfl

/-! ### The pages of the tasks -/

/-- The blocks of the live tasks have these pages. -/
theorem SystemInv.taskPages_eq (h : SystemInv L s G g σ leaked dead) :
    blockPages (liveBlocks s.kernel.sched g) = s.taskPages := by
  rw [blockPages_liveBlocks, System.taskPages]
  refine congrArg List.sum (List.map_congr_left (fun i _ => ?_))
  show ((slotBlocks (s.kernel.sched.taskPool i) (g i)).map Block.size).sum = _
  by_cases hi : s.kernel.sched.state i = .terminated
  · have hnil : slotBlocks (s.kernel.sched.taskPool i) (g i) = [] := if_pos hi
    rw [if_pos hi, hnil]
    rfl
  · have horder := (h.tasks.owns.task i hi).order
    rw [if_neg hi, slotBlocks_live hi]
    show ((Holding.blocks (g i) (s.kernel.task i).level).map Block.size).sum = _
    cases hlevel : (s.kernel.task i).level with
    | kernel => rfl
    | user =>
        simp only [Holding.blocks, List.map_cons, List.map_nil, List.sum_cons, List.sum_nil,
          Block.size, (horder hlevel).1]
        omega

/-! ### Runs -/

variable {t : List (System × SystemCall × System)} {idleFunc : Word} {m : Mmu} {k : Kernel}

/-- A run keeps both invariants, and forgets the pages that its calls lose. -/
theorem SystemTrace.inv (h : SystemInv L s G g σ leaked dead) (ht : SystemTrace L s t s') :
    ∃ G' g' σ' leaked' dead', SystemInv L s' G' g' σ' leaked' dead' ∧
      blockPages leaked' = blockPages leaked + lostPages t := by
  induction ht with
  | start => exact ⟨G, g, σ, leaked, dead, h, rfl⟩
  | next _ hs ih =>
      obtain ⟨G₁, g₁, σ₁, leaked₁, dead₁, hinv, hlost⟩ := ih
      obtain ⟨G', g', σ', leaked', dead', hinv', hlost'⟩ := hs.inv hinv
      refine ⟨G', g', σ', leaked', dead', hinv', ?_⟩
      rw [hlost', hlost, lostPages, lostPages, List.map_cons, List.sum_cons, Nat.add_assoc,
        Nat.add_comm (List.sum _)]

/-- A run after the start of the system. -/
theorem SystemTrace.inv_of_boot (hk : boot L idleFunc m = some k)
    (ht : SystemTrace L (.start k) t s) : ∃ G g σ leaked dead, SystemInv L s G g σ leaked dead ∧
      blockPages leaked = lostPages t := by
  obtain ⟨k', stack, hk', hbooted⟩ := boot_total L idleFunc m
  obtain rfl : k = k' := Option.some.inj (hk.symm.trans hk')
  obtain ⟨G, g, σ, leaked, dead, hinv, hlost⟩ := SystemTrace.inv hbooted.systemInv ht
  exact ⟨G, g, σ, leaked, dead, hinv, hlost.trans (Nat.zero_add _)⟩

/-- A run of the system as a run of operations on the objects. -/
theorem SystemTrace.objects (h : SystemInv L s G g σ leaked dead) (ht : SystemTrace L s t s') :
    ∃ u, Trace Objects.Step s.objects u s'.objects ∧ u.map (·.2.1) = t.map (fun x => x.2.1.op) := by
  have hstep :
      ∀ s c s' o, (o = System.objects s ∧ ∃ G g σ leaked dead, SystemInv L s G g σ leaked dead) →
      SystemStep L s c s' → ∃ o', Objects.Step o c.op o' ∧
        (o' = s'.objects ∧ ∃ G g σ leaked dead, SystemInv L s' G g σ leaked dead) := by
    rintro s c s' o ⟨rfl, G, g, σ, leaked, dead, hinv⟩ hs
    obtain ⟨G', g', σ', leaked', dead', hinv', -⟩ := hs.inv hinv
    exact ⟨s'.objects, hs.objects hinv, rfl, G', g', σ', leaked', dead', hinv'⟩
  obtain ⟨u, o, hu, ⟨rfl, -⟩, hmap⟩ := trace_simulation (fun _ c => c.op)
    ⟨rfl, G, g, σ, leaked, dead, h⟩ hstep ht
  exact ⟨u, hu, hmap⟩

end

/-- **Tasks and heap are safe together**, in every state that any interleaving of their calls and
stores reaches. -/
theorem system_safe {L : Linker} {idleFunc : Word} {m : Mmu} {k : Kernel} {s : System}
    {t : List (System × SystemCall × System)} (hk : boot L idleFunc m = some k)
    (ht : SystemTrace L (.start k) t s) : SystemSafe L s := by
  obtain ⟨G, g, σ, leaked, dead, hinv, -⟩ := SystemTrace.inv_of_boot hk ht
  exact hinv.safe

/-- With two free pages a client gets a page. -/
theorem SystemInv.kmalloc_page {L : Linker} {s : System} {G : Layout} {g : Slot → Holding}
    {σ : Spaces} {leaked : List Block} {dead : Set ℕ} (h : SystemInv L s G g σ leaked dead)
    (hrun : ∃ p, FreeRun s.kernel.pmm 1 p) : ∃ ptr h', ptr ≠ 0 ∧
      SystemStep L s (.heap (.kmalloc 0x1000 ptr)) (s.setHeap h' ((ptr, 0x1000) :: s.live)) := by
  have hfind : findSlab 0x1000 = none := by decide
  have hserves : Serves s.heap 0x1000 := by
    refine ⟨by decide, ?_⟩
    rw [hfind]
    exact ⟨1, by decide, by decide, hrun⟩
  obtain ⟨ptr, h', he, hptr⟩ := h.heap.inv.kmalloc_serves hserves
  exact ⟨ptr, h', hptr, .heap trivial (.kmalloc_ne_zero (by decide) he hptr)⟩

/-- After the start a client gets a page. -/
theorem Booted.kmalloc_page {L : Linker} {m : Mmu} {k : Kernel} {stack : ℕ}
    (h : Booted L m k stack) : ∃ ptr s, ptr ≠ 0 ∧ s.live = [(ptr, 0x1000)] ∧
      SystemStep L (System.start k) (.heap (.kmalloc 0x1000 ptr)) s := by
  obtain ⟨ptr, h', hptr, hs⟩ := h.systemInv.kmalloc_page (h.pmm.freeRun_of_few (by simp) (by simp))
  exact ⟨ptr, _, hptr, rfl, hs⟩

/-- A task is created, a client gets a page, and the task stores to its stack. -/
theorem system_safe_store : ∃ k id k' i ptr, ∃ s : System, ∃ b, boot default 0 bssMmu = some k ∧
    taskCreate default k [] 0x40480000 0 1 = some (id, k') ∧ k'.sched.state i ≠ .terminated ∧
    i ≠ 0 ∧ s.live = [(ptr, 0x1000)] ∧ b ≠ s.kernel.mmu.mem (k'.task i).kernelStackBase ∧
    SystemSafe default { s with
      kernel := s.kernel.setMem
        (Function.update s.kernel.mmu.mem (k'.task i).kernelStackBase b) } := by
  obtain ⟨k, stack, hk, hb⟩ := boot_total default 0 bssMmu
  obtain ⟨i, hslot⟩ := findSlot_isSome (hb.terminated 1 (by decide))
  obtain ⟨stack', k', he, hc⟩ := taskCreate_total hb.sched.enabled hslot hb.pmm
    (by simp [blockPages, Block.size]) [] 0x40480000 0 1
  have hs₁ : SystemStep default (.start k) (.task (.create [] 0x40480000 0 1))
      { System.start k with kernel := k' } := .task trivial trivial (.create he)
  obtain ⟨G, g, σ, leaked, dead, hinv, -⟩ := SystemTrace.inv_of_boot hk (.next .start hs₁)
  have hrun : ∃ p, FreeRun k'.pmm 1 p := (hc.pmm _ hb.pmm).freeRun_of_few (by simp) (by simp)
  obtain ⟨ptr, h', -, hs₂⟩ := hinv.kmalloc_page hrun
  generalize hs : ({ System.start k with kernel := k' } : System).setHeap h' _ = s at hs₂
  have hsched : s.kernel.sched = k'.sched := hs ▸ rfl
  have hlive : s.live = [(ptr, 0x1000)] := hs ▸ rfl
  obtain ⟨x, hadmits, -⟩ := hc.admits hb.sched
  have hi0 : i ≠ 0 := by
    rintro rfl
    exact hb.sched.idle hc.free
  have hs₃ : SystemStep default s .store { s with
      kernel := s.kernel.setMem (Function.update s.kernel.mmu.mem (k'.task i).kernelStackBase
        (~~~ s.kernel.mmu.mem (k'.task i).kernelStackBase)) } := by
    refine .store (fun x hx => .inl ⟨i, ?_, ?_⟩)
    · rw [hsched]
      exact hadmits.state
    · obtain rfl : x = (k'.task i).kernelStackBase := by
        by_contra hne
        exact hx (Function.update_of_ne hne _ _)
      rw [Kernel.task, Kernel.task, hsched]
      exact ⟨le_rfl, Nat.lt_add_of_pos_right (by decide)⟩
  exact ⟨k, _, k', i, ptr, s, _, hk, he, hadmits.state, hi0, hlive, by simp,
    system_safe hk (.next (.next (.next .start hs₁) hs₂) hs₃)⟩

/-- **Memory of the heap persists** whatever happens to tasks and whatever they store: as long as
it is neither freed nor written to by its client, it stays live and keeps its bytes. -/
theorem system_object_persists {L : Linker} {idleFunc : Word} {m : Mmu} {k : Kernel}
    {s s' : System} {t t' : List (System × SystemCall × System)} (hk : boot L idleFunc m = some k)
    (ht : SystemTrace L (.start k) t s) (ht' : SystemTrace L s t' s') {p : ℕ × Word}
    (hp : p ∈ s.live) (hfree : ∀ x ∈ t', x.2.1 ≠ .heap (.kfree p.1))
    (hwrite : ∀ x ∈ t', ∀ l, x.2.1 ≠ .heap (.write p.1 l)) :
    p ∈ s'.live ∧
      bytesAt s'.kernel.mmu.mem p.1 p.2.toNat = bytesAt s.kernel.mmu.mem p.1 p.2.toNat := by
  obtain ⟨G, g, σ, leaked, dead, hinv, -⟩ := SystemTrace.inv_of_boot hk ht
  obtain ⟨G', g', σ', leaked', dead', hinv', -⟩ := SystemTrace.inv hinv ht'
  obtain ⟨u, hu, hmap⟩ := SystemTrace.objects hinv ht'
  refine hinv.heap.keepsObject hinv'.heap hu hp ?_
  rw [hmap, List.forall_mem_map]
  rintro ⟨a, c, b⟩ hx htouch
  cases c with
  | task c => exact htouch
  | store => exact htouch
  | heap e =>
      rcases HeapEvent.touches htouch with rfl | ⟨l, rfl⟩
      · exact hfree _ hx rfl
      · exact hwrite _ hx l rfl

/-- The page keeps its bytes through a creation, whether it succeeds or not. -/
theorem system_object_persists_page : ∃ k ptr s id k', boot default 0 bssMmu = some k ∧ ptr ≠ 0 ∧
    SystemStep default (System.start k) (.heap (.kmalloc 0x1000 ptr)) s ∧
    taskCreate default s.kernel [] 0 0 1 = some (id, k') ∧
    bytesAt k'.mmu.mem ptr 0x1000 = bytesAt s.kernel.mmu.mem ptr 0x1000 := by
  obtain ⟨k, stack, hk, hb⟩ := boot_total default 0 bssMmu
  obtain ⟨ptr, s, hptr, hlive, hs⟩ := hb.kmalloc_page
  obtain ⟨G, g, σ, leaked, dead, hinv, -⟩ := SystemTrace.inv_of_boot hk (.next .start hs)
  obtain ⟨⟨id, k'⟩, hcreate⟩ : ∃ x, taskCreate default s.kernel [] 0 0 1 = some x := by
    unfold taskCreate
    cases findSlot s.kernel.sched with
    | none => exact ⟨_, rfl⟩
    | some i =>
        rcases hinv.tasks.owns.pmm.allocPages (Nat.zero_le maxOrder) with he | ⟨p, pmm, he, -⟩
        · rw [show allocPages s.kernel.pmm 0 = _ from he]
          exact ⟨_, rfl⟩
        · rw [show allocPages s.kernel.pmm 0 = _ from he]
          exact ⟨_, rfl⟩
  have hnext : SystemStep default s (.task (.create [] 0 0 1)) { s with kernel := k' } :=
    .task trivial trivial (.create hcreate)
  have hp : (ptr, 0x1000) ∈ s.live := hlive ▸ List.mem_cons_self
  have hkeep := system_object_persists hk (.next .start hs) (.next .start hnext) hp
    (by simp) (by simp)
  exact ⟨k, ptr, s, id, k', hk, hptr, hs, hcreate, hkeep.2⟩

/-- **The memory of a user task persists** whatever clients of the heap and other tasks do: as long
as the task does not exit and nobody stores to its bytes, it loads the same byte at every
address. -/
theorem system_user_memory {L : Linker} {idleFunc : Word} {m : Mmu} {k : Kernel}
    {s s' : System} {t t' : List (System × SystemCall × System)} {i : Slot}
    (hk : boot L idleFunc m = some k) (ht : SystemTrace L (.start k) t s)
    (ht' : SystemTrace L s t' s') (hi : LiveUser s.kernel.sched i)
    (hl : ∀ x ∈ t', LeavesUser i x.1 x.2.1 x.2.2) :
    LiveUser s'.kernel.sched i ∧ ∀ va, s'.kernel.el0Byte (s'.kernel.task i).pageTable va =
      s.kernel.el0Byte (s.kernel.task i).pageTable va := by
  obtain ⟨G, g, σ, leaked, dead, hinv, -⟩ := SystemTrace.inv_of_boot hk ht
  obtain ⟨-, hkeeps⟩ := trace_invariant
    (I := fun s' => (∃ G g σ leaked dead, SystemInv L s' G g σ leaked dead) ∧
      KeepsTask s.kernel s'.kernel i)
    ⟨⟨G, g, σ, leaked, dead, hinv⟩, .refl hi⟩
    (fun s₁ c s₂ hI hs hc => by
      obtain ⟨⟨G, g, σ, leaked, dead, hinv⟩, hkeeps⟩ := hI
      obtain ⟨G', g', σ', leaked', dead', hinv', -⟩ := hs.inv hinv
      exact ⟨⟨G', g', σ', leaked', dead', hinv'⟩, hkeeps.trans (hs.keeps hinv hkeeps.live hc)⟩) ht'
        hl
  exact ⟨hkeeps.live, hkeeps.el0Byte⟩

/-- The first user task keeps its memory while a client gets a page, or none. -/
theorem system_user_memory_first : ∃ k id k' i ptr, ∃ s : System, boot default 0 bssMmu = some k ∧
    taskCreateUser default k [] 0x40500000 64 1 = some (id, k') ∧ LiveUser k'.sched i ∧
    s.live = handOut [] ptr 16 ∧ ∀ va, s.kernel.el0Byte (s.kernel.task i).pageTable va =
      k'.el0Byte (k'.task i).pageTable va := by
  obtain ⟨k, stack, hk, hb⟩ := boot_total default 0 bssMmu
  have hsize : (64 : Word).toNat ≤ pageSize := by decide
  obtain ⟨id, k', i, _, _, he, _, _, _, hl⟩ := hb.first_user hsize [] 0x40500000 1
  have hfits : (KernelCall.createUser [] 0x40500000 64 1).Fits := by
    show (64 : Word).toNat ≤ 8 * pageSize
    decide
  have hs : SystemStep default (System.start k) (.task (.createUser [] 0x40500000 64 1))
      { System.start k with kernel := k', order := noteOrder (fun _ => 0) k.sched 64 } :=
    .task trivial hfits (.createUser he)
  generalize hs₁ :
      { System.start k with kernel := k', order := noteOrder (fun _ => 0) k.sched 64 } = s₁
    at hs
  have hkernel : s₁.kernel = k' := hs₁ ▸ rfl
  obtain ⟨G, g, σ, leaked, dead, hinv, -⟩ := SystemTrace.inv_of_boot hk (.next .start hs)
  obtain ⟨ptr, h', hmalloc⟩ : ∃ ptr h', kmalloc s₁.heap 16 = some (ptr, h') := by
    rcases hinv.heap.inv.kmalloc_cases 16 with ⟨he, -⟩ | ⟨-, -, hfind, -⟩ | ⟨a, h', he, -⟩
    · exact ⟨_, _, he⟩
    · exact absurd hfind (by decide)
    · exact ⟨_, _, he⟩
  have hlive : s₁.live = [] := hs₁ ▸ rfl
  have hnext : SystemStep default s₁ (.heap (.kmalloc 16 ptr))
      (s₁.setHeap h' (handOut s₁.live ptr 16)) := .heap trivial (.kmalloc (by decide) hmalloc)
  have hkeep := system_user_memory (i := i) hk (.next .start hs) (.next .start hnext)
    (hkernel ▸ hl) (by
      rw [List.forall_mem_singleton]
      exact ⟨nofun, nofun⟩)
  refine ⟨k, id, k', i, ptr, s₁.setHeap h' (handOut s₁.live ptr 16), hk, he, hl, ?_, ?_⟩
  · rw [← hlive]
    rfl
  · rw [← hkernel]
    exact hkeep.2

/-- **Lost pages show**: in every state of a run the pages that the printed statistics leave to
other kernel code are those of the live tasks, and the programs of the user tasks that have
exited. -/
theorem lost_pages_printed {L : Linker} {idleFunc : Word} {m : Mmu} {k : Kernel} {s : System}
    {t : List (System × SystemCall × System)} (hk : boot L idleFunc m = some k)
    (ht : SystemTrace L (.start k) t s) :
    ∃ st, readStatistics s.dumpStats = some st ∧ st.otherPages = s.taskPages + lostPages t := by
  obtain ⟨G, g, σ, leaked, dead, hinv, hlost⟩ := SystemTrace.inv_of_boot hk ht
  refine ⟨_, readStatistics_eq s.heap, ?_⟩
  rw [hinv.heap.balanced.otherPages, ← hinv.taskPages_eq, ← hlost, blockPages, blockPages,
    blockPages, List.map_append, List.sum_append]

/-- The program of a user task that has exited is lost. -/
theorem lost_pages_printed_exit : ∃ k id k', ∃ s : System, ∃ st, boot default 0 bssMmu = some k ∧
    taskCreateUser default k [] 0x40500000 64 1 = some (id, k') ∧
    s.kernel = (taskExit (schedule (taskYield k')).1).1 ∧
    readStatistics s.dumpStats = some st ∧ st.otherPages = s.taskPages + 1 := by
  obtain ⟨k, stack, hk, hb⟩ := boot_total default 0 bssMmu
  have hsize : (64 : Word).toNat ≤ pageSize := by decide
  obtain ⟨id, k', i, _, _, he, _, hi, hi0, hl⟩ := hb.first_user hsize [] 0x40500000 1
  have hfits : (KernelCall.createUser [] 0x40500000 64 1).Fits := by
    show (64 : Word).toNat ≤ 8 * pageSize
    decide
  obtain ⟨hdispatch, htasks⟩ := hi.dispatch
  -- the four calls
  obtain ⟨s₁, hs₁, hk₁, ho₁⟩ : ∃ s₁, SystemStep default (.start k)
      (.task (.createUser [] 0x40500000 64 1)) s₁ ∧ s₁.kernel = k' ∧
      s₁.order = noteOrder (fun _ => 0) k.sched 64 :=
    ⟨_, .task trivial hfits (.createUser he), rfl, rfl⟩
  obtain ⟨s₂, hs₂, hk₂, ho₂⟩ : ∃ s₂, SystemStep default s₁ (.task .yield) s₂ ∧
      s₂.kernel = taskYield s₁.kernel ∧ s₂.order = s₁.order :=
    ⟨_, .task trivial trivial (.yield _ _ _), rfl, rfl⟩
  obtain ⟨s₃, hs₃, hk₃, ho₃⟩ : ∃ s₃, SystemStep default s₂ (.task .tick) s₃ ∧
      s₃.kernel = (schedule s₂.kernel).1 ∧ s₃.order = s₂.order :=
    ⟨_, .task trivial trivial (.tick _ _ _), rfl, rfl⟩
  rw [hk₂, hk₁] at hk₃
  have hidle : s₃.kernel.sched.currentTask ≠ some 0 := by
    rw [hk₃]
    exact hdispatch.current_ne_idle hi0
  obtain ⟨s₄, hs₄, hk₄⟩ : ∃ s₄, SystemStep default s₃ (.task .exit) s₄ ∧
      s₄.kernel = (taskExit s₃.kernel).1 :=
    ⟨_, .task trivial trivial (.exit hidle), rfl⟩
  obtain ⟨st, hread, hpages⟩ :=
    lost_pages_printed hk (.next (.next (.next (.next .start hs₁) hs₂) hs₃) hs₄)
  -- the program has one page
  have horder : s₃.order i = 0 := by
    have hone : blockOrder 64 = 0 := by decide
    rw [ho₃, ho₂, ho₁]
    unfold noteOrder
    cases findSlot k.sched with
    | none => rfl
    | some j =>
        dsimp only
        rw [hone, Function.update_apply, ite_self]
  have huser : (s₃.kernel.task i).level = .user := by
    rw [hk₃]
    exact ((htasks.sameOwners.liveUser i).mpr hl).2
  have hlost : KernelCall.exit.leaks s₃.kernel s₃.order = 1 := by
    unfold KernelCall.leaks
    rw [show s₃.kernel.sched.currentTask = some i by rw [hk₃, hdispatch.current]]
    dsimp only
    rw [huser]
    dsimp only
    rw [horder, Nat.pow_zero]
  refine ⟨k, id, k', s₄, st, hk, he, ?_, hread, ?_⟩
  · rw [hk₄, hk₃]
  · rw [hpages, lostPages, List.map_cons, List.sum_cons]
    show s₄.taskPages + (KernelCall.exit.leaks s₃.kernel s₃.order + 0) = _
    rw [hlost]

end AArch64Os
