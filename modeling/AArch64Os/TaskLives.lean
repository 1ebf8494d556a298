import AArch64Os.Ownership
import AArch64Os.RoundRobin

/-! # The life of a task

From its creation to its exit a task keeps its identifier, its name, its stacks, its page table and
whatever else is not the scheduler's own; `run_count` counts its dispatches, in 64 bits, and
`total_runtime` stays as it was (`task_life`). -/

namespace AArch64Os

open Runs

/-- The call does not end the task. -/
def Survives (i : Slot) (r : KernelRun) (c : KernelCall) (_ : KernelRun) : Prop :=
  c = .exit → r.kernel.sched.currentTask ≠ some i

/-- The number of dispatches of a task that a call makes. -/
def KernelCall.dispatched (k : Kernel) (c : KernelCall) (i : Slot) : ℕ :=
  ((c.event k).served.toList).count i

/-- The task in slot `i` lives on and has been dispatched `n` times. -/
structure LivesOn (s s' : Sched) (i : Slot) (n : ℕ) : Prop where
  live : s'.state i ≠ .terminated
  resources : (s'.taskPool i).resources = (s.taskPool i).resources
  runCount : (s'.taskPool i).runCount = (s.taskPool i).runCount + BitVec.ofNat 64 n

theorem LivesOn.refl {s : Sched} {i : Slot} (h : s.state i ≠ .terminated) : LivesOn s s i 0 :=
  ⟨h, rfl, (BitVec.add_zero _).symm⟩

theorem LivesOn.trans {s s' s'' : Sched} {i : Slot} {n m : ℕ} (h : LivesOn s s' i n)
    (h' : LivesOn s' s'' i m) : LivesOn s s'' i (n + m) := by
  refine ⟨h'.live, h'.resources.trans h.resources, ?_⟩
  rw [h'.runCount, h.runCount, BitVec.ofNat_add, BitVec.add_assoc]

/-! ### The counter -/

section
variable {s s' : Sched}

/-- What is left of a task when its links are. -/
theorem LinksOnly.runCount (h : LinksOnly s s') (i : Slot) :
    (s'.taskPool i).runCount = (s.taskPool i).runCount :=
  (congrArg Task.runCount (h.body i) : (s'.taskPool i).body.runCount = (s.taskPool i).body.runCount)

/-- An assignment to other fields. -/
theorem Sched.runCount_upd (s : Sched) (i j : Slot) {f : Task → Task}
    (hf : ∀ t, (f t).runCount = t.runCount) :
    ((s.upd i f).taskPool j).runCount = (s.taskPool j).runCount := by
  rcases eq_or_ne j i with rfl | hne
  · rw [Sched.upd_taskPool_same, hf]
  · rw [Sched.upd_taskPool_ne s hne]

theorem addToReadyQueue_links (s : Sched) (x : Slot) : LinksOnly s (addToReadyQueue s x) := by
  have h : LinksOnly s ((s.setNext x none).setPrev x s.readyQueueTail) :=
    (LinksOnly.setNext s x none).trans (.setPrev _ x _)
  unfold addToReadyQueue
  simp only
  split <;> split
  · exact h.ends _ _
  · exact (h.trans (.setNext _ _ _)).ends _ _
  · exact h.ends _ _
  · exact (h.trans (.setNext _ _ _)).ends _ _

theorem removeFromReadyQueue_links (s : Sched) (x : Slot) :
    LinksOnly s (removeFromReadyQueue s x) := by
  have h₁ : LinksOnly s (bypassNext s x) := by
    unfold bypassNext
    split
    · exact .setNext s _ _
    · exact (LinksOnly.refl s).ends _ _
  have h₂ : ∀ t, LinksOnly t (bypassPrev t x) := by
    intro t
    unfold bypassPrev
    split
    · exact .setPrev t _ _
    · exact (LinksOnly.refl t).ends _ _
  unfold removeFromReadyQueue
  exact ((h₁.trans (h₂ _)).trans (.setNext _ x _)).trans (.setPrev _ x _)

theorem decrementSlice_runCount (s : Sched) (c i : Slot) :
    ((decrementSlice s c).taskPool i).runCount = (s.taskPool i).runCount := by
  unfold decrementSlice
  split_ifs
  · exact s.runCount_upd c i (fun _ => rfl)
  · rfl

theorem requeueCurrent_runCount (s : Sched) (c i : Slot) :
    ((requeueCurrent s c).taskPool i).runCount = (s.taskPool i).runCount := by
  unfold requeueCurrent
  split_ifs
  · rw [(addToReadyQueue_links _ c).runCount]
    exact s.runCount_upd c i (fun _ => rfl)
  · rfl

theorem dispatch_runCount (s : Sched) (n i : Slot) :
    ((dispatch s n).taskPool i).runCount = (s.taskPool i).runCount + if n = i then 1 else 0 := by
  unfold dispatch
  simp only
  split_ifs with h
  · subst h
    rw [Sched.upd_taskPool_same]
  · rw [Sched.upd_taskPool_ne s (Ne.symm h)]
    exact (BitVec.add_zero _).symm

/-- `schedule` counts the task that it selects. -/
theorem pickNext_runCount (s : Sched) (i : Slot) :
    ((pickNext s).1.taskPool i).runCount =
      (s.taskPool i).runCount + BitVec.ofNat 64 (((pickNext s).2.map Prod.snd).toList.count i) := by
  unfold pickNext
  split_ifs
  · exact (BitVec.add_zero _).symm
  split
  · exact (BitVec.add_zero _).symm
  simp only
  split_ifs
  · unfold getNextReadyTask
    split
    · rename_i he
      split at he
      · simp only [Option.map_none, Option.toList_none, List.count_nil]
        rw [requeueCurrent_runCount, decrementSlice_runCount]
        exact (BitVec.add_zero _).symm
      · cases he
    · rename_i n t he
      split at he
      · cases he
      · cases he
        simp only [Option.map_some, Option.toList_some]
        rw [dispatch_runCount, (removeFromReadyQueue_links _ _).runCount, requeueCurrent_runCount,
          decrementSlice_runCount, List.count_singleton]
        congr 1
        split_ifs with h1 h2 h2
        · rfl
        · exact absurd (beq_iff_eq.mpr h1) h2
        · exact absurd (beq_iff_eq.mp h2) h1
        · rfl
  · simp only [Option.map_none, Option.toList_none, List.count_nil]
    rw [decrementSlice_runCount]
    exact (BitVec.add_zero _).symm

end

/-! ### One call -/

section
variable {L : Linker} {r r' : KernelRun} {l : List Slot} {cur i : Slot}

theorem FreeSlotsOnly.livesOn {s s' : Sched} (h : FreeSlotsOnly s s')
    (hi : s.state i ≠ .terminated) :
    LivesOn s s' i 0 := by
  refine ⟨?_, by rw [h.live i hi], by rw [h.live i hi]; exact (BitVec.add_zero _).symm⟩
  rw [h.state]
  exact hi

/-- A new task in another slot. -/
theorem SlotOnly.livesOn {s s' : Sched} {j : Slot} (h : SlotOnly j s s')
    (hfree : s.state j = .terminated)
    (hi : s.state i ≠ .terminated) : LivesOn s (addToReadyQueue s' j) i 0 := by
  have hne : i ≠ j := by
    rintro rfl
    exact hi hfree
  have hl := addToReadyQueue_links s' j
  refine ⟨?_, ?_, ?_⟩
  · rw [hl.state, h.state hne]
    exact hi
  · rw [hl.resources, h.other i hne]
  · rw [hl.runCount, h.other i hne]
    exact (BitVec.add_zero _).symm

/-- `schedule`. -/
theorem pickNext_livesOn {s s' : Sched} (ht : SameTasks s (pickNext s').1)
    (hr : (s'.taskPool i).runCount = (s.taskPool i).runCount) (hi : s.state i ≠ .terminated) :
    LivesOn s (pickNext s').1 i (((pickNext s').2.map Prod.snd).toList.count i) := by
  refine ⟨fun hc => hi ((ht.terminated i).mp hc), ht.resources i, ?_⟩
  rw [pickNext_runCount, hr]

theorem endTask_runCount (k : Kernel) (c i : Slot) :
    ((endTask k c).task i).runCount = (k.task i).runCount := by
  have h₁ : ∀ k : Kernel, ((freeKernelStack k c).task i).runCount = (k.task i).runCount := by
    intro k
    unfold freeKernelStack
    split_ifs
    · exact Sched.runCount_upd k.sched c i (f := fun t => { t with kernelStackBase := 0 })
        (fun _ => rfl)
    · rfl
  have h₂ : ∀ k : Kernel, ((freeUserStack k c).task i).runCount = (k.task i).runCount := by
    intro k
    unfold freeUserStack
    split_ifs
    · exact Sched.runCount_upd k.sched c i (f := fun t => { t with userStackBase := 0 })
        (fun _ => rfl)
    · rfl
  have h₃ : ((k.upd c (fun t => { t with state := .terminated })).task i).runCount =
      (k.task i).runCount :=
    Sched.runCount_upd k.sched c i (f := fun t => { t with state := .terminated }) (fun _ => rfl)
  unfold endTask
  exact (Sched.runCount_upd _ c i (f := fun t => { t with timeSlice := 0 }) (fun _ => rfl)).trans
    ((h₂ _).trans ((h₁ _).trans h₃))

/-- **Every call leaves a task its identity**, and counts its dispatch if it makes one. -/
theorem KernelStep.livesOn {c : KernelCall} (h : SchedInv r.kernel.sched l cur)
    (hi : r.kernel.sched.state i ≠ .terminated) (hs : KernelStep L c r r')
    (hsurv : Survives i r c r') :
    LivesOn r.kernel.sched r'.kernel.sched i (c.dispatched r.kernel i) := by
  cases hs with
  | create he =>
      rcases taskCreate_cases h.enabled he with hf | ⟨j, stack, hc⟩
      · exact hf.sched.livesOn hi
      · obtain ⟨s, hslot, -, hs'⟩ := hc.task
        rw [hs']
        exact hslot.livesOn hc.free hi
  | createUser he =>
      rcases taskCreateUser_cases h.enabled he with hf | ⟨j, _, _, _, hc⟩
      · exact hf.sched.livesOn hi
      · obtain ⟨_, s, _, hslot, -, hs', -⟩ := hc.task
        rw [hs']
        exact hslot.livesOn (findSlot_free hc.slot) hi
  | yield k heap order =>
      obtain ⟨-, ht, -⟩ := taskYield_spec h
      refine ⟨fun hc => hi ((ht.terminated i).mp hc), ht.resources i, ?_⟩
      refine Eq.trans ?_ (BitVec.add_zero _).symm
      have hcur : k.sched.currentTask = some cur := h.current
      unfold taskYield
      simp only [hcur]
      exact k.sched.runCount_upd cur i (f := fun t => { t with timeSlice := 0 }) (fun _ => rfl)
  | tick k heap order =>
      show LivesOn k.sched (schedule k).1.sched i (((schedule k).2.map Prod.snd).toList.count i)
      rw [schedule_fst, schedule_snd]
      refine pickNext_livesOn ?_ rfl hi
      rcases pickNext_spec h with ⟨s, he, -, ht, -⟩ | ⟨s, n, l', he, -, -, ht⟩
      · rw [he]
        exact ht
      · rw [he]
        exact ht
  | @exit k heap order hidle =>
      have hc : cur ≠ 0 := fun e => hidle (e ▸ h.current)
      have hne : i ≠ cur := by
        rintro rfl
        exact hsurv rfl h.current
      obtain ⟨s, n, l', he, -, -, ht⟩ := taskExit_cases h hc
      have hd := endTask_drops h.current_live ht
      have hpick := taskExit_pick h.current he
      have hcount : KernelCall.dispatched k .exit i =
          ((pickNext (endTask k cur).sched).2.map Prod.snd).toList.count i := by
        show (((taskExit k).2.selected).toList).count i = _
        rw [he, hpick]
        rfl
      rw [hcount, he]
      refine ⟨fun hcon => hi ((hd.terminated i hne).mp hcon), hd.resources i hne, ?_⟩
      have hrun := pickNext_runCount (endTask k cur).sched i
      have hend : ((endTask k cur).sched.taskPool i).runCount = (k.sched.taskPool i).runCount :=
        endTask_runCount k cur i
      rw [hend] at hrun
      exact (congrArg (fun p => (p.1.taskPool i).runCount) hpick.symm).trans hrun
  | heapAlloc ho he => exact .refl hi
  | heapNull ho he => exact .refl hi
  | heapFree hb => exact .refl hi
  | store hm => exact .refl hi

end

/-! ### Whole runs -/

theorem dispatches_cons (x : KernelRun × KernelCall × KernelRun)
    (t : List (KernelRun × KernelCall × KernelRun)) :
    dispatches (x :: t) = dispatches t ++ (x.2.1.event x.1.kernel).served.toList := by
  unfold dispatches
  rw [List.map_cons, Fifo.served_cons]

/-- The task lives on over a trace, dispatched as often as the trace shows. -/
theorem KernelTrace.livesOn {L : Linker} {r r' : KernelRun} {i : Slot}
    {t : List (KernelRun × KernelCall × KernelRun)}
    (hsched : ∃ l c, SchedInv r.kernel.sched l c) (hi : r.kernel.sched.state i ≠ .terminated)
    (ht : KernelTrace L r t r') (hsurv : ∀ x ∈ t, Survives i x.1 x.2.1 x.2.2) :
    (∃ l c, SchedInv r'.kernel.sched l c) ∧
      LivesOn r.kernel.sched r'.kernel.sched i ((dispatches t).count i) := by
  induction ht with
  | start => exact ⟨hsched, .refl hi⟩
  | next _ hs ih =>
      rw [List.forall_mem_cons] at hsurv
      obtain ⟨⟨l, c, hinv⟩, hl⟩ := ih hsurv.2
      refine ⟨hs.schedInv hinv, ?_⟩
      rw [dispatches_cons, List.count_append]
      exact hl.trans (hs.livesOn hinv hl.live hsurv.1)

theorem Reachable.schedInv {L : Linker} {idleFunc : Word} {s : Mmu} {r : KernelRun}
    (h : Reachable L idleFunc s (fun _ _ => True) r) : ∃ l c, SchedInv r.kernel.sched l c :=
  h.invariant (I := fun r => ∃ l c, SchedInv r.kernel.sched l c)
    (fun _ _ hb => ⟨[], 0, hb.sched⟩) (fun _ _ _ ⟨_, _, hi⟩ _ hstep => hstep.schedInv hi)

/-- **The life of a task**: over every run in which it does not exit, a task keeps all that it was
given when it was created, and `run_count` grows by the number of its dispatches, modulo `2^64`. -/
theorem task_life {L : Linker} {idleFunc : Word} {s : Mmu} {r r' : KernelRun} {i : Slot}
    {t : List (KernelRun × KernelCall × KernelRun)}
    (hr : Reachable L idleFunc s (fun _ _ => True) r) (hi : r.kernel.sched.state i ≠ .terminated)
    (ht : KernelTrace L r t r') (hsurv : ∀ x ∈ t, Survives i x.1 x.2.1 x.2.2) :
    r'.kernel.sched.state i ≠ .terminated ∧
      (r'.kernel.task i).resources = (r.kernel.task i).resources ∧
      (r'.kernel.task i).runCount =
        (r.kernel.task i).runCount + BitVec.ofNat 64 ((dispatches t).count i) := by
  obtain ⟨-, hl⟩ := KernelTrace.livesOn hr.schedInv hi ht hsurv
  exact ⟨hl.live, hl.resources, hl.runCount⟩

/-- The idle task, which is dispatched by its own next tick, as nobody else is ready. -/
theorem task_life_idle : ∃ (r r' : KernelRun) (t : List (KernelRun × KernelCall × KernelRun)),
    Reachable default 0 bssMmu (fun _ _ => True) r ∧ KernelTrace default r t r' ∧
    dispatches t = [0] ∧ (r'.kernel.task 0).runCount = (r.kernel.task 0).runCount + 1 := by
  obtain ⟨k, stack, hk, hb⟩ := boot_total default 0 bssMmu
  obtain ⟨hy, -, -, -, hz⟩ := taskYield_spec hb.sched
  have hr : Reachable default 0 bssMmu (fun _ _ => True) ⟨taskYield k, [], fun _ => 0⟩ :=
    ⟨k, hk, .single ⟨.yield, trivial, .yield _ _ _⟩⟩
  have ht : KernelTrace default ⟨taskYield k, [], fun _ => 0⟩
      [(⟨taskYield k, [], fun _ => 0⟩, .tick, ⟨(schedule (taskYield k)).1, [], fun _ => 0⟩)]
      ⟨(schedule (taskYield k)).1, [], fun _ => 0⟩ := .next .start (.tick _ _ _)
  have hdisp : dispatches [((⟨taskYield k, [], fun _ => 0⟩ : KernelRun), KernelCall.tick,
      (⟨(schedule (taskYield k)).1, [], fun _ => 0⟩ : KernelRun))] = [0] := by
    rcases schedule_cases hy with ⟨_, _, _, _, hne⟩ | ⟨s, n, l', he, hl, -, -⟩
    · exact absurd hz hne
    · obtain ⟨rfl, -⟩ := List.cons.inj hl
      rw [dispatches_cons]
      show dispatches [] ++ ((schedule (taskYield k)).2.map Prod.snd).toList = [0]
      rw [he]
      rfl
  obtain ⟨-, -, hcount⟩ := task_life hr (i := 0) hy.idle ht (by
    rw [List.forall_mem_singleton]
    exact nofun)
  rw [hdisp] at hcount
  exact ⟨_, _, _, hr, ht, hdisp, hcount⟩

end AArch64Os
