import AArch64Os.CreateSteps
import AArch64Os.Headless

/-! # Where `task_create` may be interrupted

`Phase` says, for each point of a creation, how the kernel differs from one that the creation has
not touched, or has completed: the slot and the page in its hands are set aside.  The others take
the same steps in both kernels (`KernelStep.put`, `KernelStep.half`), so every undisturbed step
leads from phase to phase, and an undisturbed creation leaves a proper queue and free list
(`creation_intact`). -/

namespace AArch64Os

open Relation

/-! ### Steps of the others -/

/-- The invariants of the scheduler and of the page allocator. -/
structure Good (r : KernelRun) (l : List Slot) (c : Slot) : Prop where
  sched : SchedInv r.kernel.sched l c
  owns : ∃ g leaked, Owns r g leaked

section
variable {L : Linker} {m : KernelCall} {r r' : KernelRun} {k : Kernel} {l : List Slot} {c i : Slot}
  {heap heap' : List Block} {order : Slot → ℕ} {p : ℕ}

theorem Good.step (h : Good r l c) (hs : KernelStep L m r r') : ∃ l' c', Good r' l' c' := by
  obtain ⟨l', c', hi⟩ := hs.schedInv h.sched
  obtain ⟨g, leaked, ho⟩ := h.owns
  exact ⟨l', c', hi, hs.owns ho h.sched⟩

/-- A change that neither of them looks at. -/
theorem Good.same {k' : Kernel} (h : Good ⟨k, heap, order⟩ l c) (hi : SchedInv k'.sched l c)
    (ho : SameOwners k.sched k'.sched) (hp : k'.pmm = k.pmm) : Good ⟨k', heap, order⟩ l c := by
  obtain ⟨g, leaked, howns⟩ := h.owns
  refine ⟨hi, g, leaked, howns.same ho ?_ (fun _ _ => rfl)⟩
  show PmmInv k'.pmm _
  rw [hp]
  exact howns.pmm

theorem Good.setMem (h : Good ⟨k, heap, order⟩ l c) (x : ByteMem.Mem) :
    Good ⟨k.setMem x, heap, order⟩ l c := h.same h.sched (SameTasks.refl _).sameOwners rfl

theorem Good.takeId (h : Good ⟨k, heap, order⟩ l c) : Good ⟨k.takeId, heap, order⟩ l c :=
  h.same ⟨h.sched.queue, h.sched.ready, h.sched.current, h.sched.running, h.sched.notBlocked,
    h.sched.idle, h.sched.enabled⟩ ⟨fun _ => Iff.rfl, fun _ _ => rfl⟩ rfl

theorem Good.intact (h : Good r l c) : QueuesIntact r.kernel := by
  obtain ⟨g, leaked, ho⟩ := h.owns
  obtain ⟨fl, hfl⟩ := ho.pmm.list
  exact ⟨⟨l, h.sched.queue, h.sched.ready⟩, fl, hfl.chain, hfl.nodup, hfl.mem_iff⟩

/-- Nobody else fills a slot. -/
theorem KernelStep.stays_free (hm : Elsewhere m) (h : SchedInv r.kernel.sched l c)
    (hs : KernelStep L m r r') (hi : r.kernel.sched.state i = .terminated) :
    r'.kernel.sched.state i = .terminated := by
  cases hs with
  | create he => exact hm.elim
  | createUser he => exact hm.elim
  | yield k heap order => exact ((taskYield_spec h).2.1.terminated i).mpr hi
  | tick k heap order =>
      rcases schedule_cases h with ⟨s, he, -, ht, -⟩ | ⟨s, n, l', he, -, -, ht⟩
      · rw [he]
        exact (ht.terminated i).mpr hi
      · rw [he]
        exact (ht.terminated i).mpr hi
  | exit hidle =>
      obtain ⟨s, n, l', he, -, -, ht⟩ := taskExit_cases h (fun e => hidle (e ▸ h.current))
      rw [he]
      refine (ht.terminated i).mpr ?_
      rw [(endTask_spec _ c).1.state (h.free_slot hi).2.symm]
      exact hi
  | heapAlloc ho he => exact hm.elim
  | heapNull ho he => exact hm.elim
  | heapFree hb => exact hm.elim
  | store hx => exact hi

/-- While task 0 is the only one, it stays so: it neither yields nor exits. -/
theorem KernelStep.alone (hm : Elsewhere m) (hy : m ≠ .yield) (h : SchedInv r.kernel.sched [] 0)
    (hs : KernelStep L m r r') : SchedInv r'.kernel.sched [] 0 := by
  cases hs with
  | create he => exact hm.elim
  | createUser he => exact hm.elim
  | yield k heap order => exact absurd rfl hy
  | tick k heap order =>
      rcases schedule_cases h with ⟨s, he, hi, -⟩ | ⟨s, n, l', he, hl, hi, -⟩
      · rw [he]
        exact hi
      · obtain ⟨rfl, rfl⟩ : 0 = n ∧ [] = l' := List.cons.inj hl
        rw [he]
        exact hi
  | exit hidle => exact absurd h.current hidle
  | heapAlloc ho he => exact hm.elim
  | heapNull ho he => exact hm.elim
  | heapFree hb => exact hm.elim
  | store hx => exact h

/-- The others do with a task in a slot what they do without it. -/
theorem KernelStep.put {t : Task} (hm : Elsewhere m) (h : SchedInv k.sched l c)
    (hi : k.sched.state i = .terminated) (hs : KernelStep L m ⟨k.put i t, heap, order⟩ r') :
    ∃ k', r' = ⟨k'.put i t, heap, order⟩ ∧
      KernelStep L m ⟨k, heap', order⟩ ⟨k', heap', order⟩ := by
  obtain ⟨hil, hci⟩ := h.free_slot hi
  cases hs with
  | create he => exact hm.elim
  | createUser he => exact hm.elim
  | yield =>
      refine ⟨taskYield k, ?_, .yield k heap' order⟩
      rw [taskYield_put (by rw [h.current]; simpa using hci)]
  | tick =>
      refine ⟨(schedule k).1, ?_, .tick k heap' order⟩
      rw [schedule_put h.queue h.current (fun _ => h.current_not_mem) hil hci]
  | exit hidle =>
      refine ⟨(taskExit k).1, ?_, .exit hidle⟩
      rw [taskExit_put h hil hci]
  | heapAlloc ho he => exact hm.elim
  | heapNull ho he => exact hm.elim
  | heapFree hb => exact hm.elim
  | store hx => exact ⟨k.setMem _, rfl, .store hx⟩

/-- The others do not look at the descriptor of a page that they do not own. -/
theorem KernelStep.half {d : Page} {e : ℕ} (hm : Elsewhere m) (h : Good ⟨k, heap', order⟩ l c)
    (hp : (⟨p, 0⟩ : Block) ∈ heap') (hs : KernelStep L m ⟨k.half p d e, heap, order⟩ r') :
    ∃ k', r' = ⟨k'.half p d e, heap, order⟩ ∧
      KernelStep L m ⟨k, heap', order⟩ ⟨k', heap', order⟩ := by
  cases hs with
  | create he => exact hm.elim
  | createUser he => exact hm.elim
  | yield => exact ⟨taskYield k, by rw [taskYield_half], .yield k heap' order⟩
  | tick => exact ⟨(schedule k).1, by rw [schedule_half], .tick k heap' order⟩
  | exit hidle =>
      obtain ⟨g, leaked, ho⟩ := h.owns
      obtain ⟨hkstack, hustack⟩ := ho.stack_ne hp h.sched.current_live
      refine ⟨(taskExit k).1, ?_, .exit hidle⟩
      rw [taskExit_half h.sched hkstack hustack]
  | heapAlloc ho he => exact hm.elim
  | heapNull ho he => exact hm.elim
  | heapFree hb => exact hm.elim
  | store hx => exact ⟨k.setMem _, rfl, .store hx⟩

end

/-! ### The slot and the page in the hands of the creation -/

/-- The kernel `k` that the creation has not touched: slot `i` holds no task, and page `p` is out. -/
structure Aside (heap : List Block) (order : Slot → ℕ) (k : Kernel) (i : Slot) (p : ℕ)
    (l : List Slot) (c : Slot) : Prop where
  good : Good ⟨k, ⟨p, 0⟩ :: heap, order⟩ l c
  free : k.sched.state i = .terminated

/-- The page is unlinked; its descriptor holds `d`, and `e` has not been taken from the counter. -/
def Taking (r : KernelRun) (i : Slot) (p : ℕ) (d : Page) (e : ℕ) (l : List Slot) (c : Slot) : Prop :=
  ∃ k, r.kernel = k.half p d e ∧ k.pmm.pages p = ⟨pageUsed, 0, 1, none⟩ ∧ Aside r.heap r.order k i p l c

/-- The page is taken; the slot holds `t`. -/
def Filling (r : KernelRun) (i : Slot) (p : ℕ) (t : Task) (l : List Slot) (c : Slot) : Prop :=
  ∃ k, r.kernel = k.put i t ∧ Aside r.heap r.order k i p l c

/-- The last task of the queue points to the slot, but is still the tail. -/
def Appended (r : KernelRun) (i : Slot) (p : ℕ) (t : Task) (l : List Slot) (c : Slot) : Prop :=
  ∃ k tl, r.kernel = { k with sched := (k.sched.put i t).setNext tl (some i) } ∧
    k.sched.readyQueueTail = some tl ∧ t.prev = some tl ∧ Aside r.heap r.order k i p l c

/-- The slot is the tail of a queue that was empty, while task 0 runs. -/
structure Headless (r : KernelRun) (i : Slot) (p : ℕ) (t : Task) (hd : Option Slot) : Prop where
  split : ∃ k, r.kernel = k.headless i t hd ∧ Aside r.heap r.order k i p [] 0

section
variable {L : Linker} {m : KernelCall} {r r' : KernelRun} {k k' : Kernel} {l : List Slot} {c i : Slot}
  {p e : ℕ} {d : Page} {t : Task} {hd : Option Slot} {heap : List Block} {order : Slot → ℕ}

theorem Kernel.put_self (k : Kernel) (i : Slot) : k.put i (k.task i) = k := by
  simp [Kernel.put, Kernel.task]

theorem Kernel.half_self (k : Kernel) (p : ℕ) : k.half p (k.pmm.pages p) 0 = k := by
  simp [Kernel.half, Pmm.half, Pmm.setPage, Pmm.setFreePages]

/-- A step of the others in the kernel set aside. -/
theorem Aside.step (h : Aside heap order k i p l c) (hm : Elsewhere m)
    (hs : KernelStep L m ⟨k, ⟨p, 0⟩ :: heap, order⟩ ⟨k', ⟨p, 0⟩ :: heap, order⟩) :
    ∃ l' c', Aside heap order k' i p l' c' := by
  obtain ⟨l', c', hg⟩ := h.good.step hs
  exact ⟨l', c', hg, hs.stays_free hm h.good.sched h.free⟩

theorem Aside.current (h : Aside heap order k i p l c) : k.sched.currentTask = some c :=
  h.good.sched.current

theorem Aside.alone (h : Aside heap order k i p [] 0) (hm : Elsewhere m) (hy : m ≠ .yield)
    (hs : KernelStep L m ⟨k, ⟨p, 0⟩ :: heap, order⟩ ⟨k', ⟨p, 0⟩ :: heap, order⟩) :
    Aside heap order k' i p [] 0 := by
  obtain ⟨l', c', hg⟩ := h.good.step hs
  exact ⟨⟨hs.alone hm hy h.good.sched, hg.owns⟩, hs.stays_free hm h.good.sched h.free⟩

/-- The slot matters to none of them. -/
theorem Filling.step (h : Filling r i p t l c) (hm : Elsewhere m) (hs : KernelStep L m r r') :
    ∃ l' c', Filling r' i p t l' c' := by
  obtain ⟨kr, heap, order⟩ := r
  obtain ⟨k, he, ha⟩ := h
  obtain rfl : kr = k.put i t := he
  obtain ⟨k', rfl, hs'⟩ := hs.put hm ha.good.sched ha.free
  obtain ⟨l', c', ha'⟩ := ha.step hm hs'
  exact ⟨l', c', k', rfl, ha'⟩

theorem Filling.alone (h : Filling r i p t [] 0) (hm : Elsewhere m) (hy : m ≠ .yield)
    (hs : KernelStep L m r r') : Filling r' i p t [] 0 := by
  obtain ⟨kr, heap, order⟩ := r
  obtain ⟨k, he, ha⟩ := h
  obtain rfl : kr = k.put i t := he
  obtain ⟨k', rfl, hs'⟩ := hs.put hm ha.good.sched ha.free
  exact ⟨k', rfl, ha.alone hm hy hs'⟩

/-- Nor does the page. -/
theorem Taking.step (h : Taking r i p d e l c) (hm : Elsewhere m) (hs : KernelStep L m r r') :
    ∃ l' c', Taking r' i p d e l' c' := by
  obtain ⟨kr, heap, order⟩ := r
  obtain ⟨k, he, hpage, ha⟩ := h
  obtain rfl : kr = k.half p d e := he
  obtain ⟨k', rfl, hs'⟩ := hs.half hm ha.good List.mem_cons_self
  obtain ⟨l', c', ha'⟩ := ha.step hm hs'
  refine ⟨l', c', k', rfl, ?_, ha'⟩
  -- the descriptor in the kernel set aside is not touched either
  have hself : KernelStep L m ⟨k.half p (k.pmm.pages p) 0, ⟨p, 0⟩ :: heap, order⟩
      ⟨k', ⟨p, 0⟩ :: heap, order⟩ := by
    rw [k.half_self p]
    exact hs'
  obtain ⟨k'', hk, -⟩ := hself.half hm ha.good List.mem_cons_self
  obtain rfl : k' = k''.half p (k.pmm.pages p) 0 := congrArg KernelRun.kernel hk
  rw [← hpage]
  simp [Kernel.half, Pmm.half, Pmm.setPage, Pmm.setFreePages]

/-- The last task of the queue keeps its link as long as task 0 is not switched away from. -/
theorem Appended.step (h : Appended r i p t l 0) (hm : Elsewhere m) (hy : m ≠ .yield)
    (hts : m = .tick → 1 < (r.kernel.task 0).timeSlice) (hs : KernelStep L m r r') :
    Appended r' i p t l 0 := by
  obtain ⟨kr, heap, order⟩ := r
  obtain ⟨k, tl, he, htl, hprev, ha⟩ := h
  obtain rfl : kr = { k with sched := (k.sched.put i t).setNext tl (some i) } := he
  have hi : SchedInv k.sched l 0 := ha.good.sched
  have h0i : (0 : Slot) ≠ i := (hi.free_slot ha.free).2
  have h0tl : (0 : Slot) ≠ tl := by
    rintro rfl
    exact hi.current_not_mem (hi.queue.head_of_tail htl).1
  cases hs with
  | create he => exact hm.elim
  | createUser he => exact hm.elim
  | yield => exact absurd rfl hy
  | tick =>
      have htask : ((k.sched.put i t).setNext tl (some i)).taskPool 0 = k.task 0 :=
        (Sched.upd_taskPool_ne _ h0tl _).trans (Sched.put_taskPool_ne _ h0i t)
      have hrun : ((k.sched.put i t).setNext tl (some i)).state 0 = .running :=
        (congrArg Task.state htask).trans ((hi.running 0).mpr rfl)
      have hcomm : ((k.sched.put i t).setNext tl (some i)).upd 0
          (fun t => { t with timeSlice := t.timeSlice - 1 }) =
          ((k.sched.upd 0 (fun t => { t with timeSlice := t.timeSlice - 1 })).put i t).setNext tl
            (some i) := by
        unfold Sched.setNext
        rw [Sched.upd_comm h0tl.symm, Sched.put_upd h0i]
      refine ⟨k.upd 0 (fun t => { t with timeSlice := t.timeSlice - 1 }), tl, ?_, htl, hprev, ?_, ?_⟩
      · show (schedule { k with sched := (k.sched.put i t).setNext tl (some i) }).1 = _
        rw [schedule_stays (k := { k with sched := (k.sched.put i t).setNext tl (some i) }) hi.enabled
          hi.current hrun (hts rfl)]
        exact congrArg (fun s => ({ k with sched := s } : Kernel)) hcomm
      · exact ha.good.same
          (hi.upd 0 (f := fun t => { t with timeSlice := t.timeSlice - 1 }) (fun _ => rfl)
            (fun _ => rfl) (fun _ => rfl))
          (SameTasks.upd k.sched 0 (f := fun t => { t with timeSlice := t.timeSlice - 1 }) rfl
            Iff.rfl).sameOwners rfl
      · exact (congrFun (Sched.state_upd_of_state k.sched 0
          (f := fun t => { t with timeSlice := t.timeSlice - 1 }) (fun _ => rfl)) i).trans ha.free
  | exit hidle => exact absurd hi.current hidle
  | heapAlloc ho he => exact hm.elim
  | heapNull ho he => exact hm.elim
  | heapFree hb => exact hm.elim
  | store hx => exact ⟨k.setMem _, tl, rfl, htl, hprev, ha.good.setMem _, ha.free⟩

/-- While the head is missing, task 0 is the only one; a switch leaves the head on it. -/
theorem Headless.step (h : Headless r i p t hd) (hn : t.next = none) (hhd : hd = none ∨ hd = some 0)
    (hm : Elsewhere m) (hy : m ≠ .yield) (hs : KernelStep L m r r') :
    ∃ hd', Headless r' i p t hd' ∧ (hd' = hd ∨ hd' = some 0 ∧ m = .tick ∧
      ¬ 1 < (r.kernel.task 0).timeSlice) := by
  obtain ⟨kr, heap, order⟩ := r
  obtain ⟨k, he, ha⟩ := h
  obtain rfl : kr = k.headless i t hd := he
  have hi : (0 : Slot) ≠ i := (ha.good.sched.free_slot ha.free).2
  cases hs with
  | create he => exact hm.elim
  | createUser he => exact hm.elim
  | yield => exact absurd rfl hy
  | tick =>
      have hs' : KernelStep L .tick ⟨k, ⟨p, 0⟩ :: heap, order⟩ ⟨(schedule k).1, ⟨p, 0⟩ :: heap, order⟩ :=
        .tick k _ order
      have htask : (k.headless i t hd).task 0 = k.task 0 := Sched.headless_taskPool hi
      refine ⟨_, ⟨_, schedule_headless ha.good.sched hi hn hhd, ha.alone hm hy hs'⟩, ?_⟩
      rw [htask]
      split_ifs with hts
      · exact .inl rfl
      · exact .inr ⟨rfl, rfl, hts⟩
  | exit hidle => exact absurd ha.good.sched.current hidle
  | heapAlloc ho he => exact hm.elim
  | heapNull ho he => exact hm.elim
  | heapFree hb => exact hm.elim
  | store hx =>
      exact ⟨hd, ⟨k.setMem _, rfl, ha.good.setMem _, ha.free⟩, .inl rfl⟩

end

section
variable {r : KernelRun} {l : List Slot} {c i : Slot} {p : ℕ} {t : Task} {hd : Option Slot}

theorem Filling.current (h : Filling r i p t l c) : r.kernel.sched.currentTask = some c := by
  obtain ⟨k, he, ha⟩ := h
  rw [he]
  exact ha.current

theorem Filling.enabled (h : Filling r i p t l c) : r.kernel.sched.schedEnabled = true := by
  obtain ⟨k, he, ha⟩ := h
  rw [he]
  exact ha.good.sched.enabled

theorem Filling.prev_eq (h : Filling r i p t l c) : r.kernel.sched.prev i = t.prev := by
  obtain ⟨k, he, -⟩ := h
  rw [he]
  exact congrArg Task.prev (Sched.put_taskPool_same _ _ _)

theorem Filling.empty_of_tail (h : Filling r i p t l c) (ht : r.kernel.sched.readyQueueTail = none) :
    l = [] := by
  obtain ⟨k, he, ha⟩ := h
  rw [he] at ht
  exact (ha.good.sched.queue.empty_of_tail ht).1

theorem Appended.current (h : Appended r i p t l c) : r.kernel.sched.currentTask = some c := by
  obtain ⟨k, tl, he, -, -, ha⟩ := h
  rw [he]
  exact ha.current

/-- The slot knows which task it is linked behind. -/
theorem Appended.prev_ne_none (h : Appended r i p t l c) : r.kernel.sched.prev i ≠ none := by
  obtain ⟨k, tl, he, -, hp, -⟩ := h
  rw [he]
  show ((k.sched.put i t).setNext tl (some i)).prev i ≠ none
  rw [Sched.prev_setNext, Sched.prev, Sched.put_taskPool_same, hp]
  exact Option.some_ne_none tl

theorem Headless.current (h : Headless r i p t hd) : r.kernel.sched.currentTask = some 0 := by
  obtain ⟨k, he, ha⟩ := h
  rw [he]
  exact ha.current

theorem slice_of_left (h : r.kernel.sched.currentTask = some c) (hs : SliceLeft r.kernel) :
    1 < (r.kernel.task c).timeSlice := by
  obtain ⟨c', hc', hslice⟩ := hs
  obtain rfl : c = c' := Option.some.inj (h.symm.trans hc')
  exact hslice

theorem Headless.head_eq (h : Headless r i p t hd) : r.kernel.sched.readyQueueHead = hd := by
  obtain ⟨k, he, -⟩ := h
  rw [he]
  rfl

theorem Headless.tail_eq (h : Headless r i p t hd) : r.kernel.sched.readyQueueTail = some i := by
  obtain ⟨k, he, -⟩ := h
  rw [he]
  rfl

end

/-! ### Statements of the creation -/

/-- The statements that are left make `d` the descriptor of a taken page, and take the page from the
counter. -/
def TakeCompletes : List TakeStmt → Page → ℕ → Prop
  | [], d, e => d = ⟨pageUsed, 0, 1, none⟩ ∧ e = 0
  | .freePages :: rest, d, e => ∃ e', e = e' + 1 ∧ TakeCompletes rest d e'
  | st :: rest, d, e => TakeCompletes rest (st.assign d) e

/-- What a statement assigns in the slot; `id` is the number that `next_task_id` holds. -/
def FillStmt.assign (id : BitVec 32) : FillStmt → Task → Task
  | task f, t => f t
  | takeId, t => { t with id := id }
  | context _, t => t

/-- The statements that are left make a kernel task of the slot. -/
def Completes (p : ℕ) : List FillStmt → Task → Prop
  | [], t => KernelTask t p
  | st :: rest, t => ∀ id, Completes p rest (st.assign id t)

theorem takeCompletes_all (d : Page) : TakeCompletes TakeStmt.all d 1 :=
  ⟨0, rfl, rfl, rfl⟩

/-- The loop over the name keeps the stack. -/
theorem completes_names {p : ℕ} {rest : List FillStmt} {name : ℕ → BitVec 8}
    (h : ∀ t : Task, t.kernelStackBase = pageToPhys p → Completes p rest t) (js : List ℕ) :
    ∀ t : Task, t.kernelStackBase = pageToPhys p →
      Completes p (js.map (fun j => .nameChar j (name j)) ++ rest) t := by
  induction js with
  | nil => exact h
  | cons j js ih => exact fun t ht _ => ih _ ht

/-- **The statements fill the slot.** -/
theorem completes_fill (a : CreateArgs) (L : Linker) (i : Slot) (p : ℕ) (t : Task) :
    Completes p (a.fillStatements L i (pageToPhys p)) t := by
  intro _ _
  refine completes_names (fun t ht => ?_) _ _ rfl
  iterate 16 intro _
  exact ⟨rfl, rfl, ht, rfl, rfl, rfl⟩

section
variable {L : Linker} {k : Kernel} {l : List Slot} {c i : Slot} {p e : ℕ} {d : Page} {t : Task}
  {heap : List Block} {order : Slot → ℕ}

theorem TakeStmt.exec_half {st : TakeStmt} {s : Pmm} (h : st ≠ .freePages) :
    st.exec p (s.half p d e) = s.half p (st.assign d) e := by
  have hset : (s.half p d e).setPage p (st.assign ((s.half p d e).pages p)) =
      s.half p (st.assign d) e := by
    rw [Pmm.half_setPage, Pmm.half_pages]
  cases st with
  | freePages => exact absurd rfl h
  | next | flags | order | refcount => exact hset

/-- A statement that takes the page. -/
theorem Taking.exec {st : TakeStmt} {rest : List TakeStmt} (h : Taking ⟨k, heap, order⟩ i p d e l c)
    (hc : TakeCompletes (st :: rest) d e) :
    ∃ d' e', Taking ⟨{ k with pmm := st.exec p k.pmm }, heap, order⟩ i p d' e' l c ∧
      TakeCompletes rest d' e' := by
  obtain ⟨k₀, he, hpage, ha⟩ := h
  obtain rfl : k = k₀.half p d e := he
  cases st with
  | freePages =>
      obtain ⟨e', rfl, hc⟩ := hc
      exact ⟨d, e', ⟨k₀, rfl, hpage, ha⟩, hc⟩
  | next | flags | order | refcount =>
      refine ⟨_, e, ⟨k₀, ?_, hpage, ha⟩, hc⟩
      exact congrArg (fun s => ({ k₀ with pmm := s } : Kernel)) (TakeStmt.exec_half (by simp))

/-- An assignment to the slot. -/
theorem Filling.upd (h : Filling ⟨k, heap, order⟩ i p t l c) (f : Task → Task) :
    Filling ⟨k.upd i f, heap, order⟩ i p (f t) l c := by
  obtain ⟨k₀, he, ha⟩ := h
  obtain rfl : k = k₀.put i t := he
  exact ⟨k₀, congrArg (fun s => ({ k₀ with sched := s } : Kernel)) (Sched.put_upd_same _ i t f), ha⟩

theorem KernelTask.links (h : KernelTask t p) (next prev : Option Slot) :
    KernelTask { t with next := next, prev := prev } p :=
  ⟨h.state, h.level, h.kernelStackBase, h.kernelStackTop, h.userStackBase, h.pageTable⟩

/-- A statement that fills the slot. -/
theorem Filling.exec {st : FillStmt} {rest : List FillStmt} (h : Filling ⟨k, heap, order⟩ i p t l c)
    (hc : Completes p (st :: rest) t) :
    ∃ t', Filling ⟨st.exec i k, heap, order⟩ i p t' l c ∧ Completes p rest t' := by
  refine ⟨st.assign k.sched.nextTaskId t, ?_, hc _⟩
  cases st with
  | task f => exact h.upd f
  | takeId =>
      obtain ⟨k₀, he, ha⟩ := h
      obtain rfl : k = k₀.put i t := he
      refine ⟨k₀.takeId, ?_, ha.good.takeId, ha.free⟩
      show ((k₀.put i t).upd i _).takeId = _
      unfold Kernel.upd Kernel.put
      rw [Sched.put_upd_same]
      rfl
  | context f =>
      obtain ⟨k₀, he, ha⟩ := h
      obtain rfl : k = k₀.put i t := he
      exact ⟨k₀.setMem (f k₀.mmu.mem), rfl, ha.good.setMem _, ha.free⟩

/-- `free_lists[0] = page->next` begins to take the page in front of the list. -/
theorem Good.unlink (h : Good ⟨k, heap, order⟩ l c) (hi : k.sched.state i = .terminated)
    (hp : k.pmm.freeList = some p) :
    Taking ⟨{ k with pmm := k.pmm.setFreeList (k.pmm.pages p).next }, heap, order⟩ i p
      (k.pmm.pages p) 1 l c := by
  obtain ⟨g, leaked, ho⟩ := h.owns
  obtain ⟨fl, hfl⟩ := ho.pmm.list
  have halloc : allocPages k.pmm 0 =
      some (some p, takePage (k.pmm.setFreeList (k.pmm.pages p).next) p 0) := by
    simp only [allocPages, hp]
    rfl
  -- the counter is not 0
  have hcount : 1 ≤ k.pmm.mainZone.freePages := by
    rw [← hfl.length]
    cases fl with
    | nil => exact absurd (hp.symm.trans hfl.chain) (by simp)
    | cons q fl => simp
  refine ⟨{ k with pmm := takePage (k.pmm.setFreeList (k.pmm.pages p).next) p 0 }, ?_, ?_,
    ⟨h.sched, g, leaked, ho.heapAlloc (Nat.zero_le _) halloc⟩, hi⟩
  · have hback : (takePage (k.pmm.setFreeList (k.pmm.pages p).next) p 0).half p (k.pmm.pages p) 1 =
        k.pmm.setFreeList (k.pmm.pages p).next := by
      have hn : k.pmm.mainZone.freePages - 1 + 1 = k.pmm.mainZone.freePages := by omega
      simp [takePage, Pmm.half, Pmm.setPage, Pmm.setFreePages, Pmm.setFreeList, hn]
    exact congrArg (fun s => ({ k with pmm := s } : Kernel)) hback.symm
  · simp [takePage, Pmm.setPage]

/-- With its last statement the page is taken. -/
theorem Taking.filling (h : Taking ⟨k, heap, order⟩ i p d e l c) (hc : TakeCompletes [] d e) :
    Filling ⟨k, heap, order⟩ i p (k.task i) l c := by
  obtain ⟨k₀, he, hpage, ha⟩ := h
  obtain ⟨rfl, rfl⟩ := hc
  obtain rfl : k = k₀ := by
    rw [← hpage, k₀.half_self p] at he
    exact he
  exact ⟨k, (k.put_self i).symm, ha⟩

/-- `add_to_ready_queue` overwrites the links. -/
theorem addToReadyQueue_put_links (s : Sched) (i : Slot) (t : Task) (o o' : Option Slot) :
    addToReadyQueue (s.put i { t with next := o, prev := o' }) i = addToReadyQueue (s.put i t) i := by
  have hlinks : ((s.put i { t with next := o, prev := o' }).setNext i none).setPrev i
      s.readyQueueTail = ((s.put i t).setNext i none).setPrev i s.readyQueueTail := by
    unfold Sched.setNext Sched.setPrev
    simp [Sched.put_upd_same]
  unfold addToReadyQueue
  have htail : ((s.put i { t with next := o, prev := o' }).setNext i none).readyQueueTail =
    s.readyQueueTail := rfl
  have htail' : ((s.put i t).setNext i none).readyQueueTail = s.readyQueueTail := rfl
  simp only [htail, htail', hlinks]

/-- **The completed creation**: the slot holds a kernel task behind the queue, with the page as its
stack. -/
theorem Aside.admit (h : Aside heap order k i p l c) (ht : KernelTask t p) :
    Good ⟨{ k with sched := addToReadyQueue (k.sched.put i t) i }, heap, order⟩ (l ++ [i]) c := by
  -- the same task with the links that the slot has
  generalize ht' : ({ t with next := k.sched.next i, prev := k.sched.prev i } : Task) = t'
  have hadd : addToReadyQueue (k.sched.put i t) i = addToReadyQueue (k.sched.put i t') i := by
    rw [← ht']
    exact (addToReadyQueue_put_links _ i t _ _).symm
  have hk : KernelTask t' p := ht' ▸ ht.links _ _
  have hslot : SlotOnly i k.sched (k.sched.put i t') := by
    refine ⟨fun j hj => Sched.put_taskPool_ne _ hj _, ?_, ?_, rfl, rfl, rfl, rfl⟩
    · funext j
      rcases eq_or_ne j i with rfl | hj
      · rw [Sched.next, Sched.put_taskPool_same, ← ht']
      · exact Sched.next_put_ne _ hj _
    · funext j
      rcases eq_or_ne j i with rfl | hj
      · rw [Sched.prev, Sched.put_taskPool_same, ← ht']
      · exact Sched.prev_put_ne _ hj _
  have htask : (k.sched.put i t').taskPool i = t' := Sched.put_taskPool_same _ _ _
  have hready : ((k.sched.put i t').taskPool i).state = .ready := by rw [htask, hk.state]
  obtain ⟨g, leaked, ho⟩ := h.good.owns
  have hadm := hslot.admits h.good.sched h.free hready
  rw [htask] at hadm
  rw [hadd]
  refine ⟨hslot.enqueue h.good.sched h.free hready, Function.update g i ⟨p, 0, 0, 0⟩, leaked, ?_⟩
  refine ho.admit hadm ?_ (fun _ _ => rfl)
    ⟨hk.kernelStackBase, fun _ => hk.userStackBase, fun hu => ?_, fun hu => ?_⟩
  · rw [hk.level]
    exact ho.pmm.perm List.perm_middle
  · exact absurd (hk.level.symm.trans hu) (by decide)
  · exact absurd (hk.level.symm.trans hu) (by decide)

/-- `ready_queue_tail->next = task` -/
theorem Filling.linkTail {tl : Slot} (h : Filling ⟨k, heap, order⟩ i p t l c)
    (htl : k.sched.readyQueueTail = some tl) (hp : t.prev = some tl) :
    Appended ⟨{ k with sched := k.sched.setNext tl (some i) }, heap, order⟩ i p t l c := by
  obtain ⟨k₀, he, ha⟩ := h
  obtain rfl : k = k₀.put i t := he
  exact ⟨k₀, tl, rfl, htl, hp, ha⟩

/-- `ready_queue_tail = task` behind other tasks completes the creation. -/
theorem Appended.setTail (h : Appended ⟨k, heap, order⟩ i p t l c) (ht : KernelTask t p)
    (hn : t.next = none) :
    Good ⟨{ k with sched := { k.sched with readyQueueTail := some i } }, heap, order⟩ (l ++ [i]) c := by
  obtain ⟨k₀, tl, he, htl, hp, ha⟩ := h
  obtain rfl : k = { k₀ with sched := (k₀.sched.put i t).setNext tl (some i) } := he
  obtain ⟨-, hd, hh⟩ := ha.good.sched.queue.head_of_tail htl
  have hlinks := Sched.put_links k₀.sched i hn hp
  have hadd := addToReadyQueue_behind (s := k₀.sched.put i t) htl hh i
  rw [hlinks] at hadd
  have hg := ha.admit ht
  rw [hadd] at hg
  exact hg

/-- The same assignment to an empty queue. -/
theorem Filling.setTail (h : Filling ⟨k, heap, order⟩ i p t [] 0) :
    Headless ⟨{ k with sched := { k.sched with readyQueueTail := some i } }, heap, order⟩ i p t
      none := by
  obtain ⟨k₀, he, ha⟩ := h
  obtain rfl : k = k₀.put i t := he
  refine ⟨k₀, ?_, ha⟩
  have hh : k₀.sched.readyQueueHead = none := ha.good.sched.queue.head_eq
  show ({ k₀ with sched := { k₀.sched.put i t with readyQueueTail := some i } } : Kernel) = _
  unfold Kernel.headless Sched.headless
  rw [← hh]
  rfl

/-- `ready_queue_head = task` completes the creation. -/
theorem Headless.setHead {hd : Option Slot} (h : Headless ⟨k, heap, order⟩ i p t hd)
    (ht : KernelTask t p) (hn : t.next = none) (hp : t.prev = none) :
    Good ⟨{ k with sched := { k.sched with readyQueueHead := some i } }, heap, order⟩ [i] 0 := by
  obtain ⟨k₀, he, ha⟩ := h
  obtain rfl : k = k₀.headless i t hd := he
  have hlinks := Sched.put_links k₀.sched i hn hp
  have hq : Queue k₀.sched [] := ha.good.sched.queue
  have hadd := addToReadyQueue_empty (s := k₀.sched.put i t) hq.tail_eq hq.head_eq i
  rw [hlinks] at hadd
  have hg := ha.admit ht
  rw [hadd] at hg
  exact hg

end

/-! ### Phases -/

/-- At `ready_queue_tail = task`: the queue is empty, or its last task points to the slot. -/
structure BeforeTail (r : KernelRun) (i : Slot) (l : List Slot) (c : Slot) : Prop where
  current : c = 0
  task : ∃ p t, KernelTask t p ∧ t.next = none ∧
    (l = [] ∧ t.prev = none ∧ Filling r i p t [] 0 ∨ Appended r i p t l 0)

/-- Behind it, when the queue was empty. -/
structure BeforeHead (r : KernelRun) (i : Slot) (l : List Slot) (c : Slot) (hd : Option Slot) :
    Prop where
  current : c = 0
  empty : l = []
  task : ∃ p t, KernelTask t p ∧ t.next = none ∧ t.prev = none ∧ Headless r i p t hd

section
variable {L : Linker} {m : KernelCall} {r r' : KernelRun} {k : Kernel} {heap : List Block}
  {order : Slot → ℕ} {l : List Slot} {c i : Slot} {p : ℕ} {t : Task} {hd : Option Slot}

/-- A tick there must not switch, unless the queue is empty. -/
theorem BeforeTail.step (h : BeforeTail r i l c)
    (hu : m = .tick → r.kernel.sched.prev i ≠ none → SliceLeft r.kernel) (hm : Elsewhere m)
    (hy : m = .yield → r.kernel.sched.currentTask ≠ some 0) (hs : KernelStep L m r r') :
    BeforeTail r' i l c := by
  obtain ⟨rfl, p, t, hk, hn, ⟨rfl, hp, hf⟩ | happ⟩ := h
  · have hf' := hf.alone hm (fun e => hy e hf.current) hs
    exact ⟨rfl, p, t, hk, hn, .inl ⟨rfl, hp, hf'⟩⟩
  · have hslice := fun e => slice_of_left happ.current (hu e happ.prev_ne_none)
    exact ⟨rfl, p, t, hk, hn, .inr (happ.step hm (fun e => hy e happ.current) hslice hs)⟩

/-- A tick that switches leaves the head on task 0. -/
theorem BeforeHead.step (h : BeforeHead r i l c hd) (hhd : hd = none ∨ hd = some c)
    (hm : Elsewhere m) (hy : m = .yield → r.kernel.sched.currentTask ≠ some 0)
    (hs : KernelStep L m r r') :
    ∃ hd', BeforeHead r' i l c hd' ∧ (hd' = hd ∨ hd' = some c ∧ m = .tick ∧
      ¬ 1 < (r.kernel.task c).timeSlice) := by
  obtain ⟨rfl, rfl, p, t, hk, hn, hp, hless⟩ := h
  obtain ⟨hd', hless', hcase⟩ := hless.step hn hhd hm (fun e => hy e hless.current) hs
  exact ⟨hd', ⟨rfl, rfl, p, t, hk, hn, hp, hless'⟩, hcase⟩

/-- Behind an empty queue there is nothing to link. -/
theorem Filling.beforeTail (h : Filling ⟨k, heap, order⟩ i p t l c) (hk : KernelTask t p)
    (hn : t.next = none) (hcur : k.sched.currentTask = some 0)
    (htail : k.sched.readyQueueTail = none) (hprev : k.sched.prev i = none) :
    BeforeTail ⟨k, heap, order⟩ i l c := by
  obtain rfl : c = 0 := Option.some.inj (h.current.symm.trans hcur)
  obtain rfl : l = [] := h.empty_of_tail htail
  exact ⟨rfl, p, t, hk, hn, .inl ⟨rfl, h.prev_eq.symm.trans hprev, h⟩⟩

/-- The last task of the queue is linked to the slot. -/
theorem Filling.linked (h : Filling ⟨k, heap, order⟩ i p t l c) (hk : KernelTask t p)
    (hn : t.next = none) (hcur : k.sched.currentTask = some 0) {tl : Slot}
    (htail : k.sched.readyQueueTail = some tl) (hprev : k.sched.prev i = some tl) :
    BeforeTail ⟨{ k with sched := k.sched.setNext tl (some i) }, heap, order⟩ i l c := by
  obtain rfl : c = 0 := Option.some.inj (h.current.symm.trans hcur)
  exact ⟨rfl, p, t, hk, hn, .inr (h.linkTail htail (h.prev_eq.symm.trans hprev))⟩

/-- `ready_queue_tail = task` completes the creation, or leaves the head to be set. -/
theorem BeforeTail.setTail (h : BeforeTail ⟨k, heap, order⟩ i l c) : ∃ l',
    Good ⟨{ k with sched := { k.sched with readyQueueTail := some i } }, heap, order⟩ l' c ∨
    BeforeHead ⟨{ k with sched := { k.sched with readyQueueTail := some i } }, heap, order⟩ i l' c
      none := by
  obtain ⟨rfl, p, t, hk, hn, ⟨rfl, hp, hf⟩ | happ⟩ := h
  · exact ⟨[], .inr ⟨rfl, rfl, p, t, hk, hn, hp, hf.setTail⟩⟩
  · exact ⟨l ++ [i], .inl (happ.setTail hk hn)⟩

/-- A proper queue with a tail has a head. -/
theorem Good.head_isSome (h : Good r l c)
    (hu : r.kernel.sched.readyQueueHead = none → r.kernel.sched.readyQueueTail = some i) :
    ∃ hd, r.kernel.sched.readyQueueHead = some hd := by
  cases hhead : r.kernel.sched.readyQueueHead with
  | some hd => exact ⟨hd, rfl⟩
  | none =>
      obtain ⟨-, hd, hh⟩ := h.sched.queue.head_of_tail (hu hhead)
      cases hhead.symm.trans hh

theorem BeforeHead.head_eq (h : BeforeHead r i l c hd) : r.kernel.sched.readyQueueHead = hd := by
  obtain ⟨-, -, _, _, -, -, -, hless⟩ := h
  exact hless.head_eq

theorem BeforeHead.sliceLeft (h : BeforeHead r i l c none)
    (hu : r.kernel.sched.readyQueueHead = none → r.kernel.sched.readyQueueTail = some i →
      SliceLeft r.kernel) : 1 < (r.kernel.task c).timeSlice := by
  obtain ⟨rfl, -, _, _, -, -, -, hless⟩ := h
  exact slice_of_left hless.current (hu hless.head_eq hless.tail_eq)

theorem BeforeHead.setHead (h : BeforeHead ⟨k, heap, order⟩ i l c hd) :
    Good ⟨{ k with sched := { k.sched with readyQueueHead := some i } }, heap, order⟩ [i] c := by
  obtain ⟨rfl, rfl, p, t, hk, hn, hp, hless⟩ := h
  exact hless.setHead hk hn hp

end

/-- What holds at each point of a creation that was not disturbed. -/
def Phase : Point → KernelRun → List Slot → Slot → Prop
  | .find _, r, l, c => Good r l c
  | .allocHead i, r, l, c | .allocTest i _, r, l, c | .unlink i _, r, l, c =>
      Good r l c ∧ r.kernel.sched.state i = .terminated
  | .take i p rest, r, l, c => ∃ d e, Taking r i p d e l c ∧ TakeCompletes rest d e
  | .fill i rest, r, l, c => ∃ p t, Filling r i p t l c ∧ Completes p rest t
  | .testEnabled i, r, l, c | .setNext i, r, l, c => ∃ p t, Filling r i p t l c ∧ KernelTask t p
  | .setPrev i, r, l, c | .testTail i, r, l, c | .linkTail i, r, l, c =>
      ∃ p t, Filling r i p t l c ∧ KernelTask t p ∧ t.next = none
  | .setTail i, r, l, c => BeforeTail r i l c
  | .testHead i, r, l, c => Good r l c ∨ BeforeHead r i l c none
  | .setHead i, r, l, c => ∃ hd, (hd = none ∨ hd = some c) ∧ BeforeHead r i l c hd
  | .setCurrent _, _, _, _ | .setRunning _, _, _, _ => False
  | .done, r, l, c => Good r l c

section
variable {L : Linker} {a : CreateArgs} {m : KernelCall} {pt : Point} {r r' : KernelRun} {l : List Slot}
  {c : Slot}

/-- What the others do between two statements. -/
theorem Phase.other (h : Phase pt r l c) (hu : Undisturbed ⟨r, pt⟩ (.other m)) (hm : Elsewhere m)
    (hy : m = .yield → r.kernel.sched.currentTask ≠ some 0) (hs : KernelStep L m r r') :
    ∃ l' c', Phase pt r' l' c' := by
  cases pt with
  | find j => exact Good.step h hs
  | allocHead i | allocTest i page | unlink i p =>
      obtain ⟨hg, hi⟩ := h
      obtain ⟨l', c', hg'⟩ := hg.step hs
      exact ⟨l', c', hg', hs.stays_free hm hg.sched hi⟩
  | take i p rest =>
      obtain ⟨d, e, ht, hc⟩ := h
      obtain ⟨l', c', ht'⟩ := ht.step hm hs
      exact ⟨l', c', d, e, ht', hc⟩
  | fill i rest | testEnabled i | setNext i | setPrev i | testTail i | linkTail i =>
      obtain ⟨p, t, hf, ht⟩ := h
      obtain ⟨l', c', hf'⟩ := hf.step hm hs
      exact ⟨l', c', p, t, hf', ht⟩
  | setTail i => exact ⟨l, c, BeforeTail.step h (fun e => by subst e; exact hu) hm hy hs⟩
  | testHead i =>
      rcases h with hg | hb
      · obtain ⟨l', c', hg'⟩ := hg.step hs
        exact ⟨l', c', .inl hg'⟩
      · obtain ⟨hd', hb', rfl | ⟨-, rfl, hts⟩⟩ := hb.step (.inl rfl) hm hy hs
        · exact ⟨l, c, .inr hb'⟩
        · exact absurd (hb.sliceLeft hu) hts
  | setHead i =>
      obtain ⟨hd, hhd, hb⟩ := h
      obtain ⟨hd', hb', hcase⟩ := hb.step hhd hm hy hs
      refine ⟨l, c, hd', ?_, hb'⟩
      rcases hcase with rfl | ⟨rfl, -⟩
      · exact hhd
      · exact .inr rfl
  | setCurrent i => exact h.elim
  | setRunning i => exact h.elim
  | done => exact Good.step h hs

/-- **A statement of the creation**, where nothing that it relies on has changed. -/
theorem Phase.stmt {k k' : Kernel} {heap : List Block} {order : Slot → ℕ} {pt' : Point}
    (h : Phase pt ⟨k, heap, order⟩ l c) (hu : Undisturbed ⟨⟨k, heap, order⟩, pt⟩ .stmt)
    (hcur : k.sched.currentTask = some 0) (he : a.stmt L k pt = some (k', pt')) :
    ∃ l' c', Phase pt' ⟨k', heap, order⟩ l' c' := by
  cases pt with
  | find j =>
      simp only [CreateArgs.stmt] at he
      split_ifs at he with hj hfree
      · cases he
        exact ⟨l, c, h, hfree⟩
      · cases he
        exact ⟨l, c, h⟩
      · cases he
        exact ⟨l, c, h⟩
  | allocHead i =>
      cases he
      exact ⟨l, c, h⟩
  | allocTest i page =>
      cases page with
      | none =>
          cases he
          exact ⟨l, c, h.1⟩
      | some p =>
          cases he
          exact ⟨l, c, h⟩
  | unlink i p =>
      cases he
      exact ⟨l, c, _, 1, h.1.unlink h.2 hu, takeCompletes_all _⟩
  | take i p rest =>
      obtain ⟨d, e, ht, hc⟩ := h
      cases rest with
      | nil =>
          cases he
          exact ⟨l, c, p, _, ht.filling hc, completes_fill a L i p _⟩
      | cons st rest =>
          cases he
          obtain ⟨d', e', ht', hc'⟩ := ht.exec hc
          exact ⟨l, c, d', e', ht', hc'⟩
  | fill i rest =>
      obtain ⟨p, t, hf, hc⟩ := h
      cases rest with
      | nil =>
          cases he
          exact ⟨l, c, p, t, hf, hc⟩
      | cons st rest =>
          cases he
          obtain ⟨t', hf', hc'⟩ := hf.exec hc
          exact ⟨l, c, p, t', hf', hc'⟩
  | testEnabled i =>
      obtain ⟨p, t, hf, hk⟩ := h
      rw [CreateArgs.stmt, hf.enabled] at he
      cases he
      exact ⟨l, c, p, t, hf, hk⟩
  | setNext i =>
      obtain ⟨p, t, hf, hk⟩ := h
      cases he
      exact ⟨l, c, p, _, hf.upd (fun t => { t with next := none }), hk.links none t.prev, rfl⟩
  | setPrev i =>
      obtain ⟨p, t, hf, hk, hn⟩ := h
      cases he
      exact ⟨l, c, p, _, hf.upd (fun t => { t with prev := k.sched.readyQueueTail }),
        hk.links t.next _, hn⟩
  | testTail i =>
      obtain ⟨p, t, hf, hk, hn⟩ := h
      cases htail : k.sched.readyQueueTail with
      | some tl =>
          rw [CreateArgs.stmt, htail] at he
          cases he
          exact ⟨l, c, p, t, hf, hk, hn⟩
      | none =>
          rw [CreateArgs.stmt, htail] at he
          cases he
          exact ⟨l, c, hf.beforeTail hk hn hcur htail (hu htail)⟩
  | linkTail i =>
      obtain ⟨p, t, hf, hk, hn⟩ := h
      cases htail : k.sched.readyQueueTail with
      | none =>
          rw [CreateArgs.stmt, htail] at he
          cases he
      | some tl =>
          rw [CreateArgs.stmt, htail] at he
          cases he
          exact ⟨l, c, hf.linked hk hn hcur htail (hu.symm.trans htail)⟩
  | setTail i =>
      cases he
      obtain ⟨l', h'⟩ := BeforeTail.setTail h
      exact ⟨l', c, h'⟩
  | testHead i =>
      rcases h with hg | hb
      · obtain ⟨hd, hhead⟩ := hg.head_isSome hu
        rw [CreateArgs.stmt, show k.sched.readyQueueHead = some hd from hhead] at he
        cases he
        exact ⟨l, c, hg⟩
      · rw [CreateArgs.stmt, show k.sched.readyQueueHead = none from hb.head_eq] at he
        cases he
        exact ⟨l, c, none, .inl rfl, hb⟩
  | setHead i =>
      obtain ⟨hd, -, hb⟩ := h
      cases he
      exact ⟨[i], c, hb.setHead⟩
  | setCurrent i => exact h.elim
  | setRunning i => exact h.elim
  | done => cases he

end

end AArch64Os
