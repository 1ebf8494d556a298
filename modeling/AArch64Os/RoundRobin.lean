import AArch64Os.KernelRuns
import AArch64Os.Lib.Fifo

/-! # Round robin

The ready queue with the time slice of the current task is a first-come-first-served line whose
quantum is `DEFAULT_TIME_SLICE`: every call is a step of the line (`KernelStep.fifo`).  Order
and waiting times of the tasks are therefore those of the line. -/

namespace AArch64Os

open Linked Runs

/-- The task that a call of `task_exit` switches to. -/
def ExitOutcome.selected : ExitOutcome → Option Slot
  | .switches _ new => some new
  | _ => none

/-- What a call means for the line: whether a tick passes, and the task that `schedule` selects. -/
def KernelCall.event (k : Kernel) : KernelCall → Fifo.Event Slot
  | .tick => ⟨true, (schedule k).2.map Prod.snd⟩
  | .exit => ⟨false, (taskExit k).2.selected⟩
  | _ => ⟨false, none⟩

/-- A run that notes its calls. -/
abbrev KernelTrace (L : Linker) := Trace (fun r c r' => KernelStep L c r r')

/-- The tasks that `schedule` selected in a trace, in the order of the dispatches. -/
def dispatches (t : List (KernelRun × KernelCall × KernelRun)) : List Slot :=
  Fifo.served (t.map (fun x => x.2.1.event x.1.kernel))

/-- The number of ticks in a trace. -/
def ticks (t : List (KernelRun × KernelCall × KernelRun)) : ℕ :=
  Fifo.ticks (t.map (fun x => x.2.1.event x.1.kernel))

/-! ### The time slice -/

/-- The time slice of a task. -/
def Sched.slice (s : Sched) (i : Slot) : ℕ := (s.taskPool i).timeSlice.toNat

theorem Sched.slice_eq_zero {s : Sched} {i : Slot} :
    s.slice i = 0 ↔ (s.taskPool i).timeSlice = 0 :=
  ⟨fun h => BitVec.eq_of_toNat_eq h, fun h => congrArg BitVec.toNat h⟩

theorem decrementSlice_slice (s : Sched) (c : Slot) : (decrementSlice s c).slice c = s.slice c - 1 := by
  unfold decrementSlice Sched.slice
  split_ifs with h
  · have hone : (1 : Word).toNat = 1 := by decide
    have hpos : 0 < (s.taskPool c).timeSlice.toNat := h
    rw [Sched.upd_taskPool_same, BitVec.toNat_sub, hone]
    omega
  · have hz : ¬ 0 < (s.taskPool c).timeSlice.toNat := h
    omega

/-- The task that `schedule` selects gets a new slice. -/
theorem pickNext_slice_new {s s' : Sched} {c n : Slot} (he : pickNext s = (s', some (c, n))) :
    s'.slice n = 10 := by
  unfold pickNext at he
  split_ifs at he
  · cases he
  split at he
  · cases he
  simp only at he
  split_ifs at he
  · split at he
    · cases he
    cases he
    unfold Sched.slice dispatch
    simp only [Sched.upd_taskPool_same]
    decide
  · cases he

/-- The slice of a task that stays on the CPU lasts for at least one more tick. -/
theorem pickNext_slice_old {s s' : Sched} {l : List Slot} {c : Slot} (h : SchedInv s l c)
    (he : pickNext s = (s', none)) : s'.slice c + 1 = s.slice c ∧ 1 ≤ s'.slice c := by
  have hdec := decrementSlice_slice s c
  obtain ⟨h₁, -⟩ := decrementSlice_spec h
  have hen : ¬ s.schedEnabled = false := by rw [h.enabled]; simp
  unfold pickNext at he
  rw [if_neg hen, h.current] at he
  simp only at he
  split_ifs at he with hc
  · obtain ⟨n, l', s₃, -, hnext, -, -⟩ := dispatch_spec (requeueCurrent_spec h₁).1
    rw [hnext] at he
    cases he
  · cases he
    have hne : (decrementSlice s c).slice c ≠ 0 := by
      intro hz
      exact hc (.inl (Sched.slice_eq_zero.mp hz))
    omega

/-! ### The line -/

theorem schedule_fst (k : Kernel) : (schedule k).1.sched = (pickNext k.sched).1 := by
  unfold schedule
  split <;> rename_i hp <;> rw [hp]

theorem schedule_snd (k : Kernel) : (schedule k).2 = (pickNext k.sched).2 := by
  unfold schedule
  split <;> rename_i hp <;> rw [hp]

/-- The `schedule` call inside `task_exit`. -/
theorem taskExit_pick {k k' : Kernel} {c old new : Slot} (hc : k.sched.currentTask = some c)
    (he : taskExit k = (k', .switches old new)) :
    pickNext (endTask k c).sched = (k'.sched, some (old, new)) := by
  unfold taskExit at he
  simp only [hc] at he
  split at he
  · cases he
  · rename_i hs
    cases he
    exact Prod.ext ((schedule_fst _).symm.trans (by rw [hs])) ((schedule_snd _).symm.trans (by rw [hs]))

/-- The line that a state of the scheduler stands for. -/
def Lines (r : KernelRun) (a : Fifo.Line Slot) : Prop :=
  ∃ c, SchedInv r.kernel.sched a.waiting c ∧ a.left = r.kernel.sched.slice c

section
variable {L : Linker} {r r' : KernelRun} {l : List Slot} {c : Slot}

/-- A call that leaves the task pool alone but for free slots. -/
theorem FreeSlotsOnly.slice {s s' : Sched} (h : FreeSlotsOnly s s') (hi : SchedInv s l c) :
    s'.slice c = s.slice c := by
  unfold Sched.slice
  rw [h.live c ?_]
  rw [(hi.running c).mpr rfl]
  decide

/-- A new task does not change the slice of the current one. -/
theorem SlotOnly.slice {s s' : Sched} {i : Slot} (h : SlotOnly i s s') (hi : SchedInv s l c)
    (hfree : s.state i = .terminated) : (addToReadyQueue s' i).slice c = s.slice c := by
  obtain ⟨hil, hic⟩ := hi.free_slot hfree
  obtain ⟨-, hl⟩ := addToReadyQueue_spec (h.queue hi.queue) hil
  have hbody : ((addToReadyQueue s' i).taskPool c).timeSlice = (s'.taskPool c).timeSlice := by
    show ((addToReadyQueue s' i).taskPool c).body.timeSlice = (s'.taskPool c).body.timeSlice
    rw [hl.body]
  unfold Sched.slice
  rw [hbody, h.other c hic]

/-- `task_create` leaves the current task with its slice, and at most one task joins the queue. -/
theorem taskCreate_joins {k k' : Kernel} {name : List (BitVec 8)} {func arg : Word}
    {priority id : BitVec 32} (hi : SchedInv k.sched l c)
    (he : taskCreate L k name func arg priority = some (id, k')) :
    (SchedInv k'.sched l c ∨ ∃ i, SchedInv k'.sched (l ++ [i]) c) ∧
      k'.sched.slice c = k.sched.slice c := by
  rcases taskCreate_cases hi.enabled he with hf | ⟨i, stack, hc⟩
  · exact ⟨.inl (hf.sched.schedInv hi), hf.sched.slice hi⟩
  · obtain ⟨s, hslot, ht, hs⟩ := hc.task
    refine ⟨.inr ⟨i, hs ▸ hslot.enqueue hi hc.free ht.state⟩, ?_⟩
    rw [hs, hslot.slice hi hc.free]

/-- The same of `task_create_user`. -/
theorem taskCreateUser_joins {k k' : Kernel} {name : List (BitVec 8)} {binary : ℕ}
    {binarySize : Word} {priority id : BitVec 32} (hi : SchedInv k.sched l c)
    (he : taskCreateUser L k name binary binarySize priority = some (id, k')) :
    (SchedInv k'.sched l c ∨ ∃ i, SchedInv k'.sched (l ++ [i]) c) ∧
      k'.sched.slice c = k.sched.slice c := by
  rcases taskCreateUser_cases hi.enabled he with hf | ⟨i, _, _, _, hc⟩
  · exact ⟨.inl (hf.sched.schedInv hi), hf.sched.slice hi⟩
  · obtain ⟨_, s, _, hslot, ht, hs, _⟩ := hc.task
    have hfree := findSlot_free hc.slot
    refine ⟨.inr ⟨i, hs ▸ hslot.enqueue hi hfree ht.state⟩, ?_⟩
    rw [hs, hslot.slice hi hfree]

/-- **Every call is a step of the line.** -/
theorem KernelStep.fifo {call : KernelCall} {a : Fifo.Line Slot} (h : Lines r a)
    (hs : KernelStep L call r r') :
    ∃ b, Fifo.Step 10 a (call.event r.kernel) b ∧ Lines r' b := by
  obtain ⟨l, n⟩ := a
  obtain ⟨c, hi, rfl⟩ := h
  have hstay : ∀ m, max 1 m + false.toNat ≤ max 1 m := fun m => Nat.le_refl _
  cases hs with
  | create he =>
      obtain ⟨hi' | ⟨i, hi'⟩, hslice⟩ := taskCreate_joins hi he
      · exact ⟨_, .stay (hstay _), c, hi', hslice.symm⟩
      · exact ⟨⟨l ++ [i], _⟩, .wait (hstay _), c, hi', hslice.symm⟩
  | createUser he =>
      obtain ⟨hi' | ⟨i, hi'⟩, hslice⟩ := taskCreateUser_joins hi he
      · exact ⟨_, .stay (hstay _), c, hi', hslice.symm⟩
      · exact ⟨⟨l ++ [i], _⟩, .wait (hstay _), c, hi', hslice.symm⟩
  | yield k heap order =>
      obtain ⟨hi', -, -, -, hz⟩ := taskYield_spec hi
      have hslice : (taskYield k).sched.slice c = 0 := Sched.slice_eq_zero.mpr hz
      refine ⟨⟨l, 0⟩, .stay ?_, c, hi', hslice.symm⟩
      exact le_max_left 1 _
  | tick k heap order =>
      unfold KernelCall.event Lines
      simp only [schedule_fst, schedule_snd]
      rcases pickNext_spec hi with ⟨s, he, hi', -⟩ | ⟨s, n, l', he, hl, hi', -⟩
      · have hslice : s.slice c + 1 = k.sched.slice c ∧ 1 ≤ s.slice c := pickNext_slice_old hi he
        rw [he]
        refine ⟨⟨l, s.slice c⟩, .stay ?_, c, hi', rfl⟩
        show max 1 (s.slice c) + 1 ≤ max 1 (k.sched.slice c)
        omega
      · rw [he]
        exact ⟨⟨l', 10⟩, .serve hl, n, hi', (pickNext_slice_new he).symm⟩
  | @exit k heap order hidle =>
      have hc : c ≠ 0 := fun e => hidle (e ▸ hi.current)
      obtain ⟨s, n, l', he, hl, hi', -⟩ := taskExit_cases hi hc
      have hpick := taskExit_pick hi.current he
      unfold KernelCall.event Lines
      simp only [he]
      have hserve : l ++ [] = n :: l' := by
        rw [List.append_nil]
        exact hl
      exact ⟨⟨l', 10⟩, .serve hserve, n, hi', (pickNext_slice_new hpick).symm⟩
  | heapAlloc ho he => exact ⟨_, .stay (hstay _), c, hi, rfl⟩
  | heapNull ho he => exact ⟨_, .stay (hstay _), c, hi, rfl⟩
  | heapFree hb => exact ⟨_, .stay (hstay _), c, hi, rfl⟩
  | store hm => exact ⟨_, .stay (hstay _), c, hi, rfl⟩

/-! ### Order and waiting time -/

/-- A trace of the kernel is a trace of the line. -/
theorem KernelTrace.fifo {t : List (KernelRun × KernelCall × KernelRun)} {a : Fifo.Line Slot}
    (h : Lines r a) (ht : KernelTrace L r t r') :
    ∃ u b, Trace (Fifo.Step 10) a u b ∧ Lines r' b ∧
      u.map (·.2.1) = t.map (fun x => x.2.1.event x.1.kernel) :=
  trace_simulation (fun r call => call.event r.kernel) h (fun _ _ _ _ hl hs => hs.fifo hl) ht

/-- A call that neither ticks nor exits leaves the current task on the CPU with its slice used up,
if it was used up before. -/
theorem KernelStep.spent {call : KernelCall} (hi : SchedInv r.kernel.sched l c)
    (hz : r.kernel.sched.slice c = 0) (hs : KernelStep L call r r') (htick : call ≠ .tick)
    (hexit : call ≠ .exit) :
    ∃ l', SchedInv r'.kernel.sched l' c ∧ r'.kernel.sched.slice c = 0 := by
  cases hs with
  | create he =>
      obtain ⟨hi' | ⟨i, hi'⟩, hslice⟩ := taskCreate_joins hi he
      · exact ⟨l, hi', hslice.trans hz⟩
      · exact ⟨l ++ [i], hi', hslice.trans hz⟩
  | createUser he =>
      obtain ⟨hi' | ⟨i, hi'⟩, hslice⟩ := taskCreateUser_joins hi he
      · exact ⟨l, hi', hslice.trans hz⟩
      · exact ⟨l ++ [i], hi', hslice.trans hz⟩
  | yield k heap order =>
      obtain ⟨hi', -, -, -, hz'⟩ := taskYield_spec hi
      exact ⟨l, hi', Sched.slice_eq_zero.mpr hz'⟩
  | tick => exact absurd rfl htick
  | exit => exact absurd rfl hexit
  | heapAlloc ho he => exact ⟨l, hi, hz⟩
  | heapNull ho he => exact ⟨l, hi, hz⟩
  | heapFree hb => exact ⟨l, hi, hz⟩
  | store hm => exact ⟨l, hi, hz⟩

/-- A task with nothing left of its slice is switched out when another one is ready. -/
theorem SchedInv.switches_out {k : Kernel} (hi : SchedInv k.sched l c) (hz : k.sched.slice c = 0)
    {i : Slot} (hr : k.sched.state i = .ready) : ∃ n, n ≠ c ∧ (schedule k).2 = some (c, n) := by
  have hil := (hi.ready i).mpr hr
  rcases schedule_cases hi with ⟨_, _, _, _, hne⟩ | ⟨s, n, l', he, hl, -, -⟩
  · exact absurd (Sched.slice_eq_zero.mp hz) hne
  · refine ⟨n, ?_, by rw [he]⟩
    cases l with
    | nil => cases hil
    | cons y l =>
        obtain ⟨rfl, -⟩ := List.cons.inj hl
        rintro rfl
        have hrun := (hi.ready y).mp List.mem_cons_self
        rw [(hi.running y).mpr rfl] at hrun
        cases hrun

end

/-- **Round-robin order and bounded waiting.**  From every reachable state the ready tasks are
dispatched in the order of the queue, the one at position `k` by the time the slice of the
current task and `k` more have passed; a task that yields is switched out at the next tick. -/
theorem round_robin (L : Linker) (idleFunc : Word) (s : Mmu) {r : KernelRun} {l : List Slot}
    {c : Slot} (h : Reachable L idleFunc s (fun _ _ => True) r)
    (hl : Chain r.kernel.sched.next r.kernel.sched.readyQueueHead l)
    (hc : r.kernel.sched.currentTask = some c) :
    (∀ t r', KernelTrace L r t r' → ∀ (k : ℕ) (T : Slot), l[k]? = some T →
      (∀ j ≤ k, ∀ n, (dispatches t)[j]? = some n → l[j]? = some n) ∧
      (max 1 (r.kernel.task c).timeSlice.toNat + defaultTimeSlice.toNat * k ≤ ticks t →
        (dispatches t)[k]? = some T)) ∧
    ∀ t r', KernelTrace L ⟨taskYield r.kernel, r.heap, r.order⟩ t r' →
      (∀ x ∈ t, x.2.1 ≠ .tick ∧ x.2.1 ≠ .exit) → (∃ i, r'.kernel.sched.state i = .ready) →
      ∃ n, n ≠ c ∧ (schedule r'.kernel).2 = some (c, n) := by
  obtain ⟨l₀, c₀, hi⟩ := h.invariant (I := fun r => ∃ l c, SchedInv r.kernel.sched l c)
    (fun _ _ hb => ⟨[], 0, hb.sched⟩) (fun _ _ _ ⟨_, _, hi⟩ _ hstep => hstep.schedInv hi)
  obtain rfl : l = l₀ := hl.unique hi.queue.chain
  obtain rfl : c₀ = c := Option.some.inj (hi.current.symm.trans hc)
  refine ⟨fun t r' ht k T hk => ?_, fun t r' ht hno ⟨i, hr⟩ => ?_⟩
  · have hline : Lines r ⟨l, r.kernel.sched.slice c₀⟩ := ⟨c₀, hi, rfl⟩
    obtain ⟨u, b, hu, -, hm⟩ := KernelTrace.fifo hline ht
    have hlt : k < l.length := (List.getElem?_eq_some_iff.mp hk).1
    unfold dispatches ticks
    rw [← hm]
    constructor
    · intro j hj n hn
      exact Fifo.served_eq hu (lt_of_le_of_lt hj hlt) hn
    · intro hn
      exact Fifo.served_of_ticks (by decide) hu hk hn
  · obtain ⟨hy, -, -, -, hz⟩ := taskYield_spec hi
    obtain ⟨l', hi', hz'⟩ := trace_invariant
      (I := fun r : KernelRun => ∃ l', SchedInv r.kernel.sched l' c₀ ∧ r.kernel.sched.slice c₀ = 0)
      (C := fun _ call _ => call ≠ .tick ∧ call ≠ .exit) ⟨l, hy, Sched.slice_eq_zero.mpr hz⟩
      (fun _ _ _ ⟨_, hi, hz⟩ hs hc => hs.spent hi hz hc.1 hc.2) ht hno
    exact hi'.switches_out hz' hr

/-- The first task after `boot`: it is the next one to be dispatched, ten ticks later at most. -/
theorem round_robin_first_task : ∃ (r : KernelRun) (i : Slot),
    Reachable default 0 bssMmu (fun _ _ => True) r ∧ i ≠ 0 ∧
    ∀ t r', KernelTrace default r t r' →
      max 1 (r.kernel.task 0).timeSlice.toNat ≤ ticks t → (dispatches t)[0]? = some i := by
  obtain ⟨k, stack, hk, hb⟩ := boot_total default 0 bssMmu
  obtain ⟨i, k', he, hne, hi⟩ := hb.create_total [] 0 0 0
  have hr : Reachable default 0 bssMmu (fun _ _ => True) ⟨k', [], fun _ => 0⟩ :=
    ⟨k, hk, .single ⟨_, trivial, .create he⟩⟩
  refine ⟨_, i, hr, hne, fun t r' ht hn => ?_⟩
  have hrr := round_robin default 0 bssMmu hr hi.queue.chain hi.current
  exact (hrr.1 t r' ht 0 i rfl).2 hn

end AArch64Os
