import AArch64Os.HeapObjects
import AArch64Os.Statistics
import AArch64Os.UserMemory

/-! # Tasks and heap together

Tasks and heap share the page allocator and the memory.  A state of the kernel with both is a state
of each with the other as the rest of the kernel, and every call of the one is harmless for the
other: it writes to its own pages, to pages that were free, or to the kernel's data
(`SystemStep.inv`).  So what was shown of either holds of both together, and neither sees the
memory of the other. -/

namespace AArch64Os

open ByteMem Relation Runs

/-- The kernel with its heap; `live` are the pointers that clients have, `order` is as in a
`KernelRun`. -/
structure System where
  kernel : Kernel
  slabs : Fin numSlabs → Slab
  totalAllocated : Word
  totalFreed : Word
  live : List (ℕ × Word)
  order : Slot → ℕ

namespace System

/-- The heap in it. -/
def heap (s : System) : Heap :=
  ⟨s.kernel.pmm, s.kernel.mmu.mem, s.slabs, s.totalAllocated, s.totalFreed⟩

/-- The state after a call on the heap. -/
def setHeap (s : System) (h : Heap) (live : List (ℕ × Word)) : System where
  kernel := { s.kernel with pmm := h.pmm, mmu := { s.kernel.mmu with mem := h.mem } }
  slabs := h.slabs
  totalAllocated := h.totalAllocated
  totalFreed := h.totalFreed
  live := live
  order := s.order

end System

/-- The page allocator is not called from outside, and stores are separate. -/
def KernelCall.IsTask : KernelCall → Prop
  | .create .. | .createUser .. | .yield | .tick | .exit => True
  | _ => False

/-- The calls of clients; `kzalloc` and `kcalloc` are `kmalloc` and a write. -/
def HeapEvent.IsClient : HeapEvent → Prop
  | .kmalloc .. | .kfree .. | .write .. => True
  | _ => False

/-- Byte `x` is one that tasks store to: on the kernel stack of a task, in the memory of a user
task, or data of the kernel other than the page tables. -/
def TaskByte (L : Linker) (k : Kernel) (x : ℕ) : Prop :=
  (∃ i, k.sched.state i ≠ .terminated ∧ (k.task i).kernelStackBase ≤ x ∧
    x < (k.task i).kernelStackBase + pageSize) ∨
  (∃ i, LiveUser k.sched i ∧ OwnByte k i x) ∨
  kernelBase ≤ x ∧ x < kernelBase + kernelSize ∧ (x < L.pageTablesStart ∨ L.pageTablesEnd ≤ x)

/-- What happens. -/
inductive SystemCall
  | task (c : KernelCall)
  | heap (e : HeapEvent)
  | store

/-- One call, or a store of a task.  Calls on tasks do not look at the blocks of the heap, nor calls
on the heap at those of tasks. -/
inductive SystemStep (L : Linker) : System → SystemCall → System → Prop
  | task {s : System} {c : KernelCall} {k' : Kernel} {order' : Slot → ℕ} (hc : c.IsTask)
      (hfits : c.Fits) (h : KernelStep L c ⟨s.kernel, [], s.order⟩ ⟨k', [], order'⟩) :
      SystemStep L s (.task c) { s with kernel := k', order := order' }
  | heap {s : System} {e : HeapEvent} {h' : Heap} {live' : List (ℕ × Word)} (he : e.IsClient)
      (h : ClientStep ⟨s.heap, s.live, []⟩ e ⟨h', live', []⟩) :
      SystemStep L s (.heap e) (s.setHeap h' live')
  | store {s : System} {m : Mem} (hm : ∀ x, m x ≠ s.kernel.mmu.mem x → TaskByte L s.kernel x) :
      SystemStep L s .store { s with kernel := s.kernel.setMem m }

section
variable {L : Linker} {k k' : Kernel} {order order' : Slot → ℕ} {c : KernelCall} {e : HeapEvent}
  {h h' : Heap} {live live' : List (ℕ × Word)}

theorem KernelStep.withHeap (hc : c.IsTask) (hs : KernelStep L c ⟨k, [], order⟩ ⟨k', [], order'⟩)
    (heap : List Block) : KernelStep L c ⟨k, heap, order⟩ ⟨k', heap, order'⟩ := by
  cases hs with
  | create he => exact .create he
  | createUser he => exact .createUser he
  | yield => exact .yield _ _ _
  | tick => exact .tick _ _ _
  | exit hidle => exact .exit hidle
  | heapNull ho he => exact hc.elim
  | heapFree hb => exact hc.elim
  | store hm => exact hc.elim

theorem ClientStep.withOther (he : e.IsClient)
    (hs : ClientStep ⟨h, live, []⟩ e ⟨h', live', []⟩) (other : List Block) :
    ClientStep ⟨h, live, other⟩ e ⟨h', live', other⟩ := by
  cases hs with
  | kmalloc hs he => exact .kmalloc hs he
  | kzalloc hs _ => exact he.elim
  | kcalloc hs _ => exact he.elim
  | kfree hp => exact .kfree hp
  | kfreeNull => exact .kfreeNull
  | write hp hm => exact .write hp hm
  | kernel _ _ _ => exact he.elim

end

/-! ### The invariant -/

/-- Each half has its invariant, with the blocks of the other as those of other code. -/
structure SystemInv (L : Linker) (s : System) (G : Layout) (g : Slot → Holding) (σ : Spaces)
    (leaked : List Block) (dead : Set ℕ) : Prop where
  tasks : KernelInv L ⟨s.kernel, G.blocks, s.order⟩ g σ leaked dead
  heap : RunLayout ⟨s.heap, s.live, liveBlocks s.kernel.sched g ++ leaked⟩ G

section
variable {L : Linker} {s s' : System} {G : Layout} {g : Slot → Holding} {σ : Spaces}
  {leaked : List Block} {dead : Set ℕ} {x : ℕ}

/-- The heap is not on free pages and not in the kernel. -/
theorem RunLayout.heapByte_region {r : HeapRun} (hr : RunLayout r G) (hx : r.HeapByte x) :
    ¬ FreeByte r.heap.pmm x ∧ (x < kernelBase ∨ kernelBase + kernelSize ≤ x) := by
  obtain ⟨q, hlt, h1, h2, hused, -⟩ := hx
  constructor
  · rintro ⟨p, -, hfree, hp⟩
    obtain rfl := page_of_byte hp ⟨h1, h2⟩
    rw [hused] at hfree
    exact absurd hfree (by decide)
  · have hkernel : ¬ kernelPage q := by
      rw [← hr.inv.pmm.reserved q hlt]
      show ¬ (r.heap.pmm.pages q).flags = pageReserved
      rw [hused]
      decide
    simp only [kernelPage, pageToPhys, dramBase, pageSize, kernelBase, kernelSize] at *
    omega

/-- No page of the heap belongs to a task. -/
theorem heapByte_apart
    (hx : HeapRun.HeapByte ⟨s.heap, s.live, liveBlocks s.kernel.sched g ++ leaked⟩ x) {i : Slot}
    {b : Block} (hb : b ∈ slotBlocks (s.kernel.task i) (g i)) {q : ℕ} (hq : b.Has q) :
    ¬ (pageToPhys q ≤ x ∧ x < pageToPhys q + pageSize) := by
  intro hqx
  obtain ⟨p, -, h1, h2, -, hother⟩ := hx
  obtain rfl := page_of_byte ⟨h1, h2⟩ hqx
  refine hother b (List.mem_append_left _ ?_) hq
  exact List.mem_flatMap.mpr ⟨i, List.mem_finRange i, hb⟩

/-- A task holds the page of its kernel stack. -/
theorem kstack_mem {k : Kernel} {i : Slot} (hi : k.sched.state i ≠ .terminated)
    (g : Slot → Holding) : ⟨(g i).kstack, 0⟩ ∈ slotBlocks (k.task i) (g i) := by
  have hlive : slotBlocks (k.task i) (g i) = (g i).blocks (k.task i).level :=
    slotBlocks_live hi (g i)
  rw [hlive]
  cases (k.task i).level <;> simp [Holding.blocks]

/-- **No task stores to the heap.** -/
theorem SystemInv.not_taskByte (h : SystemInv L s G g σ leaked dead)
    (hx : HeapRun.HeapByte ⟨s.heap, s.live, liveBlocks s.kernel.sched g ++ leaked⟩ x) :
    ¬ TaskByte L s.kernel x := by
  rintro (⟨i, hi, h1, h2⟩ | ⟨i, hi, hown⟩ | ⟨h1, h2, -⟩)
  · have hstack : (s.kernel.task i).kernelStackBase = pageToPhys (g i).kstack :=
      (h.tasks.owns.task i hi).kstack
    rw [hstack] at h1 h2
    exact heapByte_apart hx (kstack_mem hi g) (Block.has_page _) ⟨h1, h2⟩
  · obtain ⟨b, hb, q, hq, hqx⟩ := h.tasks.isolated.ownByte hi hown
    exact heapByte_apart hx hb hq hqx
  · have := (h.heap.heapByte_region hx).2
    omega

end

/-! ### Calls on tasks -/

section
variable {L : Linker} {s s' : System} {G : Layout} {g : Slot → Holding} {σ : Spaces}
  {leaked : List Block} {dead : Set ℕ} {x : ℕ} {c : KernelCall} {r r' : KernelRun}

/-- What calls on tasks write is in `task_pool`, in the page tables or on pages that were free. -/
theorem KernelStep.frame (h : KernelInv L r g σ leaked dead) (hc : c.IsTask) (hfits : c.Fits)
    (hs : KernelStep L c r r') (hx : x < L.taskPool ∨ L.pageTablesEnd ≤ x)
    (hnot : ¬ FreeByte r.kernel.pmm x) : r'.kernel.mmu.mem x = r.kernel.mmu.mem x := by
  obtain ⟨l, cur, hsched⟩ := h.sched
  cases hs with
  | create he =>
      rcases taskCreate_cases hsched.enabled he with hf | ⟨j, stack, hcreated⟩
      · exact congrFun (congrArg Mmu.mem hf.mmu) x
      · exact hcreated.frame hx
  | createUser he =>
      rcases taskCreateUser_pages hsched.enabled he with hf | ⟨j, p, pmm, hp, hcreated⟩
      · exact congrFun (congrArg Mmu.mem hf.mmu) x
      · exact hcreated.frame h.tables.refines (userPages_fresh h.owns.pmm hp) hfits hx hnot
  | yield k heap order =>
      obtain ⟨-, -, hm, -⟩ := taskYield_spec hsched
      exact congrFun (congrArg Mmu.mem hm) x
  | tick k heap order =>
      rcases schedule_cases hsched with ⟨s, he, -⟩ | ⟨s, n, l', he, -⟩
      · rw [he]
      · rw [he]
        exact congrFun (switchTables_mem _ _) x
  | @exit k heap order hidle =>
      have hne : cur ≠ 0 := fun e => hidle (e ▸ hsched.current)
      obtain ⟨s, n, l', he, -⟩ := taskExit_cases hsched hne
      show (taskExit k).1.mmu.mem x = k.mmu.mem x
      rw [he]
      exact congrFun (switchTables_mem _ _) x
  | heapAlloc ho he => exact hc.elim
  | heapNull ho he => exact hc.elim
  | heapFree hb => exact hc.elim
  | store hm => exact hc.elim

/-- The heap after other code has used the page allocator and written elsewhere. -/
theorem RunLayout.frame {h : Heap} {live : List (ℕ × Word)} {other other' : List Block} {pmm : Pmm}
    {m : Mem} (hr : RunLayout ⟨h, live, other⟩ G) (hpmm : PmmInv pmm (G.blocks ++ other'))
    (hm : ∀ x, HeapRun.HeapByte ⟨h, live, other⟩ x → m x = h.mem x) :
    RunLayout ⟨{ h with pmm := pmm, mem := m }, live, other'⟩ G := by
  have hmem : HeapInv { h with mem := m } G other := by
    refine hr.inv.setMem (fun i obj ho x h1 h2 => hm x ?_) (fun b hb x h1 h2 => hm x ?_)
    · have hhdr : objHeaderSize ≤ objSize i := Nat.le_add_left _ _
      exact hr.objectByte ho h1 (by omega)
    · have hhdr := b.pageHeader_le
      exact hr.heapByte (List.mem_append_right _ hb) h1 (by omega)
  exact ⟨hmem.setPmm hpmm, hr.live, hr.served, hr.size⟩

/-- The blocks of the two halves, as each of them sees them. -/
theorem blocks_perm (live heap leaked : List Block) :
    (live ++ (heap ++ leaked)).Perm (heap ++ (live ++ leaked)) := by
  rw [← List.append_assoc, ← List.append_assoc]
  exact List.perm_append_comm.append_right _

/-- No call on tasks changes the heap. -/
theorem SystemInv.task_frame (h : SystemInv L s G g σ leaked dead) (hc : c.IsTask) (hfits : c.Fits)
    {k' : Kernel} {order' : Slot → ℕ}
    (hs : KernelStep L c ⟨s.kernel, [], s.order⟩ ⟨k', [], order'⟩)
    (hx : HeapRun.HeapByte ⟨s.heap, s.live, liveBlocks s.kernel.sched g ++ leaked⟩ x) :
    k'.mmu.mem x = s.kernel.mmu.mem x := by
  obtain ⟨hnot, hregion⟩ := h.heap.heapByte_region hx
  have hge := L.taskPool_ge
  have hle := L.le_kernelEnd
  exact (hs.withHeap hc G.blocks).frame h.tasks hc hfits (by omega) hnot

/-- How many pages the call forgets: `task_exit` does not free the program of a user task. -/
def KernelCall.leaks (k : Kernel) (order : Slot → ℕ) : KernelCall → ℕ
  | .exit => match k.sched.currentTask with
    | some i => match (k.task i).level with
      | .user => 2 ^ order i
      | .kernel => 0
    | none => 0
  | _ => 0

/-- The exit of a task, with what it forgets. -/
theorem SystemInv.exit (h : SystemInv L s G g σ leaked dead)
    (hidle : s.kernel.sched.currentTask ≠ some 0) : ∃ leaked' dead',
    KernelInv L ⟨(taskExit s.kernel).1, G.blocks, s.order⟩ g σ leaked' dead' ∧
      blockPages leaked' = blockPages leaked + KernelCall.exit.leaks s.kernel s.order := by
  obtain ⟨l, cur, hi⟩ := h.tasks.sched
  have hcur : s.kernel.sched.currentTask = some cur := hi.current
  refine ⟨_, _, h.tasks.exit hcur (fun e => hidle (e ▸ hcur)), ?_⟩
  have horder := (h.tasks.owns.task cur hi.current_live).order
  simp only [KernelCall.leaks, hcur, forgotten]
  cases hlevel : (s.kernel.task cur).level with
  | kernel => rfl
  | user =>
      simp only [blockPages, List.map_append, List.sum_append, List.map_cons, List.map_nil,
        List.sum_singleton, Block.size, (horder hlevel).1]
      exact Nat.add_comm _ _

theorem SystemInv.task (h : SystemInv L s G g σ leaked dead) (hc : c.IsTask) (hfits : c.Fits)
    {k' : Kernel} {order' : Slot → ℕ}
    (hs : KernelStep L c ⟨s.kernel, [], s.order⟩ ⟨k', [], order'⟩) :
    ∃ g' σ' leaked' dead',
      SystemInv L { s with kernel := k', order := order' } G g' σ' leaked' dead' ∧
      blockPages leaked' = blockPages leaked + c.leaks s.kernel s.order := by
  have htasks : ∃ g' σ' leaked' dead', KernelInv L ⟨k', G.blocks, order'⟩ g' σ' leaked' dead' ∧
      blockPages leaked' = blockPages leaked + c.leaks s.kernel s.order := by
    by_cases hexit : c = .exit
    · subst hexit
      cases hs with
      | exit hidle =>
          obtain ⟨leaked', dead', hinv, hleaks⟩ := h.exit hidle
          exact ⟨g, σ, leaked', dead', hinv, hleaks⟩
    · obtain ⟨g', σ', leaked', dead', hinv, hends⟩ :=
        (hs.withHeap hc G.blocks).kernelInv h.tasks hfits
      have hnone : c.leaks s.kernel s.order = 0 := by
        cases c with
        | exit => exact absurd rfl hexit
        | _ => rfl
      refine ⟨g', σ', leaked', dead', hinv, ?_⟩
      rw [(hends (fun he => hexit he.1)).1, hnone, Nat.add_zero]
  obtain ⟨g', σ', leaked', dead', hinv, hleaks⟩ := htasks
  have hpmm := hinv.owns.pmm.perm (blocks_perm _ _ _)
  exact ⟨g', σ', leaked', dead',
    ⟨hinv, h.heap.frame hpmm (fun x hx => h.task_frame hc hfits hs hx)⟩, hleaks⟩

/-! ### Calls on the heap -/

variable {e : HeapEvent} {h' : Heap} {live' : List (ℕ × Word)}

/-- What calls of clients write is in the heap or on pages that were free. -/
theorem RunLayout.client_frame {h : Heap} {live : List (ℕ × Word)} {other : List Block}
    (hr : RunLayout ⟨h, live, other⟩ G) (he : e.IsClient)
    (hs : ClientStep ⟨h, live, []⟩ e ⟨h', live', []⟩) (hx : h'.mem x ≠ h.mem x) :
    HeapRun.HeapByte ⟨h, live, other⟩ x ∨ Took h.pmm h'.pmm x := by
  cases hs with
  | @kmalloc _ _ _ _ size ptr hs hk =>
      rcases eq_or_ne ptr 0 with rfl | hp
      · rw [hr.inv.kmalloc_null hk] at hx
        exact absurd rfl hx
      · obtain ⟨a, -, hg⟩ := hr.inv.kmalloc_gives hk hp
        exact .inr (hg.frame x hx)
  | kzalloc hs _ => exact he.elim
  | kcalloc hs _ => exact he.elim
  | kfree hp =>
      obtain ⟨a, ha, rfl⟩ := hr.mem_live hp
      obtain ⟨rest, -, hinv⟩ := hr.inv.front ha
      rcases a with ⟨⟨i, obj⟩ | b, size⟩
      · have hobj := hr.inv.taken_objects (Layout.mem_taken.mpr ⟨_, ha, rfl⟩)
        have hsize : objHeaderSize ≤ objSize i := Nat.le_add_left _ _
        have hfree : kfree h (obj + objHeaderSize) = putBack h i obj := hinv.freeObject.1
        have hin : ¬ (x < obj + 16 ∨ obj + 24 ≤ x) := by
          intro hout
          refine hx ?_
          show (AArch64Os.kfree h (obj + objHeaderSize)).mem x = h.mem x
          rw [hfree]
          rcases hout with hout | hout
          · exact Mem.store64_of_lt hout
          · exact Mem.store64_of_ge (by omega)
        simp only [objHeaderSize] at hsize
        exact .inl (hr.objectByte hobj (by omega) (by omega))
      · have hfree := hinv.freeBlock.1
        refine absurd ?_ hx
        show (AArch64Os.kfree h (pageToPhys b.page + pageHeaderSize)).mem x = h.mem x
        rw [hfree]
  | kfreeNull => exact absurd rfl hx
  | @write _ _ _ p m hp hm =>
      have hin : p.1 ≤ x ∧ x < p.1 + p.2.toNat := by
        by_contra hout
        exact hx (hm x (by omega))
      exact .inl (hr.liveByte hp hin.1 hin.2)
  | kernel _ _ _ => exact he.elim

/-- No call on the heap changes a page table. -/
theorem SystemInv.heap_frame (h : SystemInv L s G g σ leaked dead) (he : e.IsClient)
    (hs : ClientStep ⟨s.heap, s.live, []⟩ e ⟨h', live', []⟩) (h1 : kernelBase ≤ x)
    (h2 : x < kernelBase + kernelSize) : h'.mem x = s.kernel.mmu.mem x := by
  by_contra hne
  rcases h.heap.client_frame he hs hne with hx | ⟨q, hle, hlt, hfree, -⟩
  · have := (h.heap.heapByte_region hx).2
    omega
  · have hkernel : kernelPage q := by
      simp only [kernelPage, pageToPhys, dramBase, pageSize, kernelBase, kernelSize] at *
      omega
    have hnum : s.kernel.pmm.numPages = 16384 := h.tasks.owns.pmm.numPages.trans managedPages_eq
    have hreserved :=
      (h.tasks.owns.pmm.reserved q (by rw [hnum]; have := hkernel.2; omega)).mpr hkernel
    have hflags : (s.kernel.pmm.pages q).flags = pageReserved := hreserved
    have hfree' : (s.kernel.pmm.pages q).flags = pageFree := hfree
    rw [hflags] at hfree'
    exact absurd hfree' (by decide)

/-- The memory outside the page tables, the page allocator and the blocks of the heap change. -/
theorem KernelInv.withHeap {k : Kernel} {order : Slot → ℕ} {heap heap' : List Block} {pmm : Pmm}
    {m : Mem} (h : KernelInv L ⟨k, heap, order⟩ g σ leaked dead)
    (hpmm : PmmInv pmm (heap' ++ (liveBlocks k.sched g ++ leaked)))
    (hm : ∀ x, L.pageTablesStart ≤ x → x < L.pageTablesEnd → m x = k.mmu.mem x) :
    KernelInv L ⟨{ k with pmm := pmm, mmu := { k.mmu with mem := m } }, heap', order⟩ g σ leaked
      dead where
  sched := h.sched
  owns := ⟨hpmm.perm (blocks_perm _ _ _), h.owns.task⟩
  tables := { h.tables with refines := h.tables.refines.setMem hm }

theorem SystemInv.heapCall (h : SystemInv L s G g σ leaked dead) (he : e.IsClient)
    (hs : ClientStep ⟨s.heap, s.live, []⟩ e ⟨h', live', []⟩) :
    ∃ G', SystemInv L (s.setHeap h' live') G' g σ leaked dead := by
  obtain ⟨G', hr'⟩ := (hs.withOther he _).layout ⟨G, h.heap⟩
  refine ⟨G', h.tasks.withHeap hr'.inv.pmm (fun x h1 h2 => ?_), hr'⟩
  have hge := L.taskPool_ge
  have hstart := L.taskPool_le
  have hle := L.le_kernelEnd
  exact h.heap_frame he hs (by omega) (by omega)

/-! ### Stores -/

/-- No page table is on a page of a task. -/
theorem KernelInv.not_taskByte (h : KernelInv L r g σ leaked dead) (h1 : L.pageTablesStart ≤ x)
    (h2 : x < L.pageTablesEnd) : ¬ TaskByte L r.kernel x := by
  have hge := L.taskPool_ge
  have hstart := L.taskPool_le
  have hle := L.le_kernelEnd
  rintro (⟨i, hi, hx1, hx2⟩ | ⟨i, hi, hown⟩ | ⟨-, -, hout⟩)
  · have hregion := (h.isolated.used i _ (kstack_mem hi g) _ (Block.has_page _)).2
    have hstack : (r.kernel.task i).kernelStackBase = pageToPhys (g i).kstack :=
      (h.owns.task i hi).kstack
    simp only at hregion
    omega
  · have := (h.isolated.ownByte_region (L := L) hi hown).2
    omega
  · omega

theorem SystemInv.store (h : SystemInv L s G g σ leaked dead) {m : Mem}
    (hm : ∀ x, m x ≠ s.kernel.mmu.mem x → TaskByte L s.kernel x) :
    SystemInv L { s with kernel := s.kernel.setMem m } G g σ leaked dead where
  tasks := by
    refine h.tasks.withHeap (h.tasks.owns.pmm.perm (blocks_perm _ _ _)) (fun x h1 h2 => ?_)
    by_contra hne
    exact h.tasks.not_taskByte h1 h2 (hm x hne)
  heap := by
    refine h.heap.frame h.heap.inv.pmm (fun x hx => ?_)
    by_contra hne
    exact h.not_taskByte hx (hm x hne)

/-! ### Runs -/

/-- How many pages the call forgets. -/
def SystemCall.leaks (s : System) : SystemCall → ℕ
  | .task c => c.leaks s.kernel s.order
  | _ => 0

/-- **Every call keeps both invariants**; `leaked` grows by what the call forgets. -/
theorem SystemStep.inv {c : SystemCall} (h : SystemInv L s G g σ leaked dead)
    (hs : SystemStep L s c s') : ∃ G' g' σ' leaked' dead', SystemInv L s' G' g' σ' leaked' dead' ∧
      blockPages leaked' = blockPages leaked + c.leaks s := by
  cases hs with
  | task hc hfits hst =>
      obtain ⟨g', σ', leaked', dead', hinv, hleaks⟩ := h.task hc hfits hst
      exact ⟨G, g', σ', leaked', dead', hinv, hleaks⟩
  | heap he hst =>
      obtain ⟨G', hinv⟩ := h.heapCall he hst
      exact ⟨G', g, σ, leaked, dead, hinv, rfl⟩
  | store hm => exact ⟨G, g, σ, leaked, dead, h.store hm, rfl⟩

/-- The state in which `kernel_main` starts to run tasks. -/
def System.start (k : Kernel) : System where
  kernel := k
  slabs := (kmallocInit ⟨k.pmm, k.mmu.mem, fun _ => ⟨0, 0, 0, 0⟩, 0, 0⟩).slabs
  totalAllocated := 0
  totalFreed := 0
  live := []
  order := fun _ => 0

theorem Booted.systemInv {m : Mmu} {k : Kernel} {stack : ℕ} (h : Booted L m k stack) :
    SystemInv L (System.start k) .empty (fun _ => ⟨stack, 0, 0, 0⟩) (initSpaces L) [] ∅ where
  tasks := h.kernelInv
  heap := by
    have hpmm := h.kernelInv.owns.pmm
    refine ⟨kmallocInit_inv (h := ⟨k.pmm, k.mmu.mem, fun _ => ⟨0, 0, 0, 0⟩, 0, 0⟩) ?_ rfl, .nil,
      fun _ ha => absurd ha List.not_mem_nil, fun _ ha => absurd ha List.not_mem_nil⟩
    exact hpmm

end

end AArch64Os
