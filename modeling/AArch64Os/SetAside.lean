import AArch64Os.Ownership

/-! # What the scheduler leaves alone

While a slot holds no task, `schedule`, `task_yield` and `task_exit` neither read nor write it:
they do the same with any task put into it (`schedule_put`, `taskExit_put`).  In the same way
`free_pages` does not look at the descriptor of another page (`freePages_half`). -/

namespace AArch64Os

/-! ### A slot set aside -/

/-- The same scheduler with `t` in slot `i`. -/
def Sched.put (s : Sched) (i : Slot) (t : Task) : Sched := s.upd i (fun _ => t)

section
variable {s : Sched} {l : List Slot} {i j x c n : Slot} {t : Task} {f : Task → Task}

namespace Sched

@[simp] theorem put_taskPool_same (s : Sched) (i : Slot) (t : Task) : (s.put i t).taskPool i = t :=
  upd_taskPool_same s i _

theorem put_taskPool_ne (s : Sched) (h : j ≠ i) (t : Task) :
    (s.put i t).taskPool j = s.taskPool j := upd_taskPool_ne s h _

@[simp] theorem put_self (s : Sched) (i : Slot) : s.put i (s.taskPool i) = s := by
  simp [put, upd]

/-- An assignment to the slot itself. -/
theorem put_upd_same (s : Sched) (i : Slot) (t : Task) (f : Task → Task) :
    (s.put i t).upd i f = s.put i (f t) := by
  simp [put, upd]

/-- The links that the task has anyway. -/
theorem put_links (s : Sched) (i : Slot) {t : Task} {o o' : Option Slot} (hn : t.next = o)
    (hp : t.prev = o') : ((s.put i t).setNext i o).setPrev i o' = s.put i t := by
  unfold setNext setPrev
  rw [put_upd_same, put_upd_same, ← hn, ← hp]

/-- Assignments to two slots. -/
theorem upd_comm {f' : Task → Task} (h : i ≠ j) : (s.upd i f).upd j f' = (s.upd j f').upd i f := by
  simp [upd, Function.update_of_ne h, Function.update_of_ne h.symm, Function.update_comm h]

/-- An assignment to another slot. -/
theorem put_upd (h : j ≠ i) (s : Sched) (t : Task) (f : Task → Task) :
    (s.put i t).upd j f = (s.upd j f).put i t := upd_comm h.symm

theorem state_put_ne (s : Sched) (h : j ≠ i) (t : Task) : (s.put i t).state j = s.state j :=
  congrArg Task.state (put_taskPool_ne s h t)

theorem next_put_ne (s : Sched) (h : j ≠ i) (t : Task) : (s.put i t).next j = s.next j :=
  congrArg Task.next (put_taskPool_ne s h t)

theorem prev_put_ne (s : Sched) (h : j ≠ i) (t : Task) : (s.put i t).prev j = s.prev j :=
  congrArg Task.prev (put_taskPool_ne s h t)

theorem put_setNext (h : j ≠ i) (s : Sched) (t : Task) (o : Option Slot) :
    (s.put i t).setNext j o = (s.setNext j o).put i t := put_upd h s t _

theorem put_setPrev (h : j ≠ i) (s : Sched) (t : Task) (o : Option Slot) :
    (s.put i t).setPrev j o = (s.setPrev j o).put i t := put_upd h s t _

end Sched

theorem decrementSlice_put (h : c ≠ i) : decrementSlice (s.put i t) c = (decrementSlice s c).put i t := by
  unfold decrementSlice
  rw [Sched.put_taskPool_ne s h]
  split_ifs
  · exact Sched.put_upd h s t _
  · rfl

/-- The queue is linked through its own tasks. -/
theorem addToReadyQueue_put (hq : Queue s l) (hi : i ∉ l) (hx : x ≠ i) :
    addToReadyQueue (s.put i t) x = (addToReadyQueue s x).put i t := by
  cases ht : s.readyQueueTail with
  | none =>
      obtain ⟨-, hh⟩ := hq.empty_of_tail ht
      rw [addToReadyQueue_empty (s := s.put i t) ht hh, addToReadyQueue_empty ht hh,
        Sched.put_setNext hx, Sched.put_setPrev hx]
      rfl
  | some tl =>
      obtain ⟨htl, hd, hh⟩ := hq.head_of_tail ht
      have hne : tl ≠ i := fun e => hi (e ▸ htl)
      rw [addToReadyQueue_behind (s := s.put i t) ht hh, addToReadyQueue_behind ht hh,
        Sched.put_setNext hx, Sched.put_setPrev hx, Sched.put_setNext hne]
      rfl

/-- The task in front of the queue has no neighbour outside of it. -/
theorem removeFromReadyQueue_put (hq : Queue s (n :: l)) (hi : i ∉ n :: l) :
    removeFromReadyQueue (s.put i t) n = (removeFromReadyQueue s n).put i t := by
  have hn : n ≠ i := fun e => hi (e ▸ List.mem_cons_self)
  have hprev : s.prev n = none := hq.prev_eq (a := [])
  have hprev' : (s.put i t).prev n = none := (Sched.prev_put_ne s hn t).trans hprev
  have hfirst : bypassNext s n = { s with readyQueueHead := s.next n } := by
    rw [bypassNext, hprev]
  have hfirst' : bypassNext (s.put i t) n = { s with readyQueueHead := s.next n }.put i t := by
    rw [bypassNext, hprev', Sched.next_put_ne s hn]
    rfl
  have hsecond : bypassPrev (bypassNext (s.put i t) n) n = (bypassPrev (bypassNext s n) n).put i t := by
    rw [hfirst, hfirst']
    have hnext : ({ s with readyQueueHead := s.next n }.put i t).next n = s.next n :=
      Sched.next_put_ne _ hn t
    have hback : ({ s with readyQueueHead := s.next n }.put i t).prev n = s.prev n :=
      Sched.prev_put_ne _ hn t
    have hsame : ({ s with readyQueueHead := s.next n } : Sched).next n = s.next n := rfl
    unfold bypassPrev
    rw [hnext, hback, hsame]
    cases hm : s.next n with
    | none => rfl
    | some m =>
        have hml : m ∈ l := by
          have he : s.next n = l.head? := hq.next_eq (a := [])
          exact List.mem_of_mem_head? (he.symm.trans hm)
        have hmi : m ≠ i := fun e => hi (e ▸ List.mem_cons_of_mem _ hml)
        exact Sched.put_setPrev hmi _ t _
  unfold removeFromReadyQueue
  rw [hsecond]
  simp only
  rw [Sched.put_setNext hn, Sched.put_setPrev hn]

theorem requeueCurrent_put (hq : Queue s l) (hi : i ∉ l) (hc : c ≠ i) :
    requeueCurrent (s.put i t) c = (requeueCurrent s c).put i t := by
  unfold requeueCurrent
  rw [Sched.state_put_ne s hc]
  split_ifs
  · rw [Sched.put_upd hc]
    exact addToReadyQueue_put (hq.upd c (fun _ => rfl) (fun _ => rfl)) hi hc
  · rfl

theorem dispatch_put (hn : n ≠ i) : dispatch (s.put i t) n = (dispatch s n).put i t := by
  unfold dispatch
  rw [Sched.put_upd hn]
  rfl

/-- The queue that `schedule` takes the next task from. -/
theorem requeueCurrent_queue (hq : Queue s l) (hcl : s.state c = .running → c ∉ l) (hi : i ∉ l)
    (hc : c ≠ i) : ∃ l', Queue (requeueCurrent s c) l' ∧ i ∉ l' := by
  unfold requeueCurrent
  split_ifs with hs
  · have hq' : Queue (s.upd c (fun t =>
        { t with state := .ready, timeSlice := defaultTimeSlice })) l :=
      hq.upd c (fun _ => rfl) (fun _ => rfl)
    refine ⟨l ++ [c], (addToReadyQueue_spec hq' (hcl hs)).1, ?_⟩
    simp [hi, hc.symm]
  · exact ⟨l, hq, hi⟩

/-- `schedule` rotates the queue around the slot. -/
theorem pickNext_put (hq : Queue s l) (hcur : s.currentTask = some c)
    (hcl : s.state c = .running → c ∉ l) (hi : i ∉ l) (hc : c ≠ i) :
    pickNext (s.put i t) = ((pickNext s).1.put i t, (pickNext s).2) ∧
      ∀ o m, (pickNext s).2 = some (o, m) → m ≠ i := by
  have hcur' : (s.put i t).currentTask = some c := hcur
  have hen : (s.put i t).schedEnabled = s.schedEnabled := rfl
  have hdec : Queue (decrementSlice s c) l ∧ (decrementSlice s c).state c = s.state c := by
    unfold decrementSlice
    split_ifs
    · exact ⟨hq.upd c (fun _ => rfl) (fun _ => rfl), by rw [Sched.state_upd, if_pos rfl]; rfl⟩
    · exact ⟨hq, rfl⟩
  unfold pickNext
  rw [hen, hcur, hcur']
  split_ifs with h0
  · exact ⟨rfl, fun _ _ he => by cases he⟩
  · simp only
    rw [decrementSlice_put hc]
    generalize decrementSlice s c = s₁ at hdec
    obtain ⟨hq₁, hstate⟩ := hdec
    rw [Sched.put_taskPool_ne s₁ hc, Sched.state_put_ne s₁ hc, requeueCurrent_put hq₁ hi hc]
    split_ifs with hswitch
    · obtain ⟨l', hq₂, hi'⟩ := requeueCurrent_queue hq₁ (fun hr => hcl (hstate ▸ hr)) hi hc
      generalize requeueCurrent s₁ c = s₂ at hq₂
      cases l' with
      | nil =>
          have hnone : getNextReadyTask s₂ = none := by rw [getNextReadyTask, hq₂.head_eq]; rfl
          have hnone' : getNextReadyTask (s₂.put i t) = none := by
            rw [getNextReadyTask, show (s₂.put i t).readyQueueHead = none from hq₂.head_eq]
          rw [hnone, hnone']
          exact ⟨rfl, fun _ _ he => by cases he⟩
      | cons n l' =>
          have hn : n ≠ i := fun e => hi' (e ▸ List.mem_cons_self)
          have hsome : getNextReadyTask s₂ = some (n, removeFromReadyQueue s₂ n) := by
            rw [getNextReadyTask, show s₂.readyQueueHead = some n from hq₂.head_eq]
          have hsome' : getNextReadyTask (s₂.put i t) =
              some (n, (removeFromReadyQueue s₂ n).put i t) := by
            rw [getNextReadyTask, show (s₂.put i t).readyQueueHead = some n from hq₂.head_eq]
            simp only
            rw [removeFromReadyQueue_put hq₂ hi']
          rw [hsome, hsome']
          simp only
          rw [dispatch_put hn]
          exact ⟨rfl, fun _ _ he => by cases he; exact hn⟩
    · exact ⟨rfl, fun _ _ he => by cases he⟩

end

namespace Kernel

/-- The same kernel with `t` in slot `i`. -/
def put (k : Kernel) (i : Slot) (t : Task) : Kernel := { k with sched := k.sched.put i t }

theorem task_put_ne (k : Kernel) {i j : Slot} (h : j ≠ i) (t : Task) : (k.put i t).task j = k.task j :=
  Sched.put_taskPool_ne k.sched h t

end Kernel

section
variable {k : Kernel} {l : List Slot} {i c : Slot}

theorem schedule_put (hq : Queue k.sched l) (hcur : k.sched.currentTask = some c)
    (hcl : k.sched.state c = .running → c ∉ l) (hi : i ∉ l) (hc : c ≠ i) (t : Task) :
    schedule (k.put i t) = ((schedule k).1.put i t, (schedule k).2) := by
  obtain ⟨he, hne⟩ := pickNext_put (t := t) hq hcur hcl hi hc
  unfold schedule
  rw [show (k.put i t).sched = k.sched.put i t from rfl, he]
  generalize pickNext k.sched = x at hne
  obtain ⟨s, _ | ⟨o, m⟩⟩ := x
  · rfl
  · simp only
    rw [Sched.put_taskPool_ne s (hne o m rfl)]
    rfl

theorem taskYield_put (hc : k.sched.currentTask ≠ some i) (t : Task) :
    taskYield (k.put i t) = (taskYield k).put i t := by
  unfold taskYield
  rw [show (k.put i t).sched.currentTask = k.sched.currentTask from rfl]
  cases hcur : k.sched.currentTask with
  | none => rfl
  | some c =>
      have hci : c ≠ i := fun e => hc (by rw [hcur, e])
      simp only [Kernel.upd, Kernel.put]
      rw [Sched.put_upd hci]

theorem upd_put (hc : c ≠ i) (t : Task) (f : Task → Task) :
    (k.put i t).upd c f = (k.upd c f).put i t := by
  simp only [Kernel.upd, Kernel.put]
  rw [Sched.put_upd hc]

theorem freeKernelStack_put (hc : c ≠ i) (t : Task) :
    freeKernelStack (k.put i t) c = (freeKernelStack k c).put i t := by
  unfold freeKernelStack
  rw [Kernel.task_put_ne k hc]
  split_ifs
  · exact upd_put (k := k.free _ 0) hc t _
  · rfl

theorem freeUserStack_put (hc : c ≠ i) (t : Task) :
    freeUserStack (k.put i t) c = (freeUserStack k c).put i t := by
  unfold freeUserStack
  rw [Kernel.task_put_ne k hc]
  split_ifs
  · exact upd_put (k := k.free _ 0) hc t _
  · rfl

theorem endTask_put (hc : c ≠ i) (t : Task) : endTask (k.put i t) c = (endTask k c).put i t := by
  unfold endTask
  simp only
  rw [upd_put hc, freeKernelStack_put hc, freeUserStack_put hc, upd_put hc]

theorem taskExit_put (h : SchedInv k.sched l c) (hi : i ∉ l) (hc : c ≠ i) (t : Task) :
    (taskExit (k.put i t)).1 = (taskExit k).1.put i t := by
  obtain ⟨hslot, hst, -, -⟩ := endTask_spec k c
  have hsched := schedule_put (k := endTask k c) (hslot.queue h.queue)
    (hslot.currentTask.trans h.current) (fun hr => by rw [hst] at hr; cases hr) hi hc t
  unfold taskExit
  rw [show (k.put i t).sched.currentTask = some c from h.current, h.current]
  simp only
  rw [endTask_put hc, hsched]
  generalize schedule (endTask k c) = x
  obtain ⟨k', _ | ⟨o, m⟩⟩ := x
  · rfl
  · rfl

end

/-! ### A page descriptor set aside -/

/-- The allocator with another descriptor of page `p`, and with `extra` more free pages counted. -/
def Pmm.half (s : Pmm) (p : ℕ) (d : Page) (extra : ℕ) : Pmm :=
  (s.setPage p d).setFreePages (s.mainZone.freePages + extra)

section
variable {s : Pmm} {p q e : ℕ} {d : Page}

theorem Pmm.pages_half_ne (h : q ≠ p) (s : Pmm) (d : Page) (e : ℕ) :
    (s.half p d e).pages q = s.pages q := Function.update_of_ne h _ _

@[simp] theorem Pmm.half_pages (s : Pmm) (d : Page) : (s.half p d e).pages p = d :=
  Function.update_self _ _ _

/-- An assignment to the descriptor. -/
theorem Pmm.half_setPage (s : Pmm) (d d' : Page) : (s.half p d e).setPage p d' = s.half p d' e := by
  simp [half, setPage, setFreePages]

theorem lowerCount_half (h : q ≠ p) : lowerCount (s.half p d e) q = (lowerCount s q).half p d e := by
  unfold lowerCount
  rw [Pmm.pages_half_ne h]
  split_ifs
  · simp [Pmm.half, Pmm.setPage, Pmm.setFreePages, Function.update_comm h]
  · rfl

theorem releasePage_half (h : q ≠ p) : releasePage (s.half p d e) q = (releasePage s q).half p d e := by
  unfold releasePage
  rw [Pmm.pages_half_ne h]
  simp [Pmm.half, Pmm.setPage, Pmm.setFreePages, Pmm.setFreeList, Pmm.freeList,
    Function.update_comm h, Nat.add_right_comm]

theorem freePages_half (h : q ≠ p) :
    freePages (s.half p d e) (some q) 0 = (freePages s (some q) 0).half p d e := by
  rw [freePages_eq (by decide), freePages_eq (by decide), lowerCount_half h, Pmm.pages_half_ne h]
  split_ifs
  · exact releasePage_half h
  · rfl

end

/-- The kernel with a descriptor set aside. -/
def Kernel.half (k : Kernel) (p : ℕ) (d : Page) (e : ℕ) : Kernel := { k with pmm := k.pmm.half p d e }

section
variable {k : Kernel} {c : Slot} {p e : ℕ} {d : Page}

theorem schedule_half : schedule (k.half p d e) = ((schedule k).1.half p d e, (schedule k).2) := by
  unfold schedule
  rw [show (k.half p d e).sched = k.sched from rfl]
  split <;> rfl

theorem taskYield_half : taskYield (k.half p d e) = (taskYield k).half p d e := by
  unfold taskYield
  rw [show (k.half p d e).sched = k.sched from rfl]
  split <;> rfl

theorem free_half {page : Option ℕ} (h : ∀ q, page = some q → q ≠ p) :
    (k.half p d e).free page 0 = (k.free page 0).half p d e := by
  cases page with
  | none => rfl
  | some q => exact congrArg (fun s => ({ k with pmm := s } : Kernel)) (freePages_half (h q rfl))

theorem freeKernelStack_half (h : ∀ q, physToPage k.pmm (k.task c).kernelStackBase = some q → q ≠ p) :
    freeKernelStack (k.half p d e) c = (freeKernelStack k c).half p d e := by
  unfold freeKernelStack
  rw [show (k.half p d e).task c = k.task c from rfl,
    show physToPage (k.half p d e).pmm = physToPage k.pmm from rfl, free_half h]
  split_ifs <;> rfl

theorem freeUserStack_half (h : ∀ q, physToPage k.pmm (k.task c).userStackBase = some q → q ≠ p) :
    freeUserStack (k.half p d e) c = (freeUserStack k c).half p d e := by
  unfold freeUserStack
  rw [show (k.half p d e).task c = k.task c from rfl,
    show physToPage (k.half p d e).pmm = physToPage k.pmm from rfl, free_half h]
  split_ifs <;> rfl

theorem freePages_numPages (s : Pmm) (page : Option ℕ) : (freePages s page 0).numPages = s.numPages := by
  cases page with
  | none => rfl
  | some q =>
      rw [freePages_eq (by decide)]
      split_ifs
      · exact lowerCount_numPages s q
      · exact lowerCount_numPages s q

theorem freeKernelStack_numPages (k : Kernel) (c : Slot) :
    (freeKernelStack k c).pmm.numPages = k.pmm.numPages := by
  unfold freeKernelStack
  split_ifs
  · exact freePages_numPages _ _
  · rfl

/-- Neither stack is on the page. -/
theorem endTask_half (hk : ∀ q, physToPage k.pmm (k.task c).kernelStackBase = some q → q ≠ p)
    (hu : ∀ q, physToPage k.pmm (k.task c).userStackBase = some q → q ≠ p) :
    endTask (k.half p d e) c = (endTask k c).half p d e := by
  have hkernel : ((k.upd c (fun t => { t with state := .terminated })).task c).kernelStackBase =
      (k.task c).kernelStackBase := by rw [Kernel.task_upd_same]
  have huser : ((k.upd c (fun t => { t with state := .terminated })).task c).userStackBase =
      (k.task c).userStackBase := by rw [Kernel.task_upd_same]
  have hpmm : (k.upd c (fun t => { t with state := .terminated })).pmm = k.pmm := rfl
  unfold endTask
  simp only
  rw [show (k.half p d e).upd c (fun t => { t with state := .terminated }) =
    (k.upd c (fun t => { t with state := .terminated })).half p d e from rfl]
  generalize k.upd c (fun t => { t with state := .terminated }) = k₁ at hkernel huser hpmm
  rw [← hpmm, ← hkernel] at hk
  rw [← hpmm, ← huser] at hu
  have hbase := (freeKernelStack_spec k₁ c).2
  have hphys : physToPage (freeKernelStack k₁ c).pmm = physToPage k₁.pmm := by
    funext a
    unfold physToPage
    rw [freeKernelStack_numPages]
  rw [freeKernelStack_half hk, freeUserStack_half (by rw [hphys, hbase]; exact hu)]
  rfl

theorem taskExit_half {l : List Slot} (h : SchedInv k.sched l c)
    (hk : ∀ q, physToPage k.pmm (k.task c).kernelStackBase = some q → q ≠ p)
    (hu : ∀ q, physToPage k.pmm (k.task c).userStackBase = some q → q ≠ p) :
    (taskExit (k.half p d e)).1 = (taskExit k).1.half p d e := by
  unfold taskExit
  rw [show (k.half p d e).sched.currentTask = some c from h.current, h.current]
  simp only
  rw [endTask_half hk hu, schedule_half]
  generalize schedule (endTask k c) = x
  obtain ⟨k', _ | ⟨o, m⟩⟩ := x <;> rfl

end

/-- A page that other kernel code holds is not a stack of a task. -/
theorem Owns.stack_ne {r : KernelRun} {g : Slot → Holding} {leaked : List Block} {p : ℕ} {c : Slot}
    (h : Owns r g leaked) (hp : (⟨p, 0⟩ : Block) ∈ r.heap)
    (hc : r.kernel.sched.state c ≠ .terminated) :
    (∀ q, physToPage r.kernel.pmm (r.kernel.task c).kernelStackBase = some q → q ≠ p) ∧
      ∀ q, physToPage r.kernel.pmm (r.kernel.task c).userStackBase = some q → q ≠ p := by
  have hholds := h.task c hc
  -- a block of the task is apart from the page
  have hne : ∀ q, (⟨q, 0⟩ : Block) ∈ (g c).blocks (r.kernel.task c).level → q ≠ p := by
    rintro q hq rfl
    have hlive : (⟨q, 0⟩ : Block) ∈ liveBlocks r.kernel.sched g := by
      refine List.mem_flatMap.mpr ⟨c, List.mem_finRange c, ?_⟩
      rw [slotBlocks_live hc]
      exact hq
    exact (List.pairwise_append.mp h.pmm.disjoint).2.2 _ hlive _ (List.mem_append_left _ hp) q
      (Block.has_page ⟨q, 0⟩) (Block.has_page ⟨q, 0⟩)
  have hpage : ∀ q, (⟨q, 0⟩ : Block) ∈ (g c).blocks (r.kernel.task c).level →
      physToPage r.kernel.pmm (pageToPhys q) = some q := by
    intro q hq
    refine h.pmm.physToPage_pageToPhys (b := ⟨q, 0⟩) (List.mem_append_left _ ?_)
    refine List.mem_flatMap.mpr ⟨c, List.mem_finRange c, ?_⟩
    rw [slotBlocks_live hc]
    exact hq
  cases hl : (r.kernel.task c).level with
  | kernel =>
      rw [hl] at hne hpage
      have hmem : (⟨(g c).kstack, 0⟩ : Block) ∈ (g c).blocks .kernel := by simp [Holding.blocks]
      rw [hholds.kstack, hholds.noUstack hl, hpage _ hmem]
      refine ⟨fun q hq => by cases hq; exact hne _ hmem, fun q hq => ?_⟩
      simp [physToPage, dramBase] at hq
  | user =>
      rw [hl] at hne hpage
      have hkmem : (⟨(g c).kstack, 0⟩ : Block) ∈ (g c).blocks .user := by simp [Holding.blocks]
      have humem : (⟨(g c).ustack, 0⟩ : Block) ∈ (g c).blocks .user := by simp [Holding.blocks]
      rw [hholds.kstack, hholds.ustack hl, hpage _ hkmem, hpage _ humem]
      exact ⟨fun q hq => by cases hq; exact hne _ hkmem, fun q hq => by cases hq; exact hne _ humem⟩

end AArch64Os
