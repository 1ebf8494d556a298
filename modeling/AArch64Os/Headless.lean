import AArch64Os.SetAside

/-! # A tick between the assignments that link a task

Between the last two assignments of `add_to_ready_queue` to an empty queue, the tail names the new
task and the head is still `NULL`.  A tick that switches then goes from task 0 to itself and leaves
the head on it, although it runs (`schedule_headless`). -/

namespace AArch64Os

/-- The queue between the last two assignments of `add_to_ready_queue`: task `i` is its tail, but not
its head. -/
def Sched.headless (s : Sched) (i : Slot) (t : Task) (hd : Option Slot) : Sched :=
  { s.put i t with readyQueueHead := hd, readyQueueTail := some i }

section
variable {s : Sched} {i c : Slot} {t : Task} {hd : Option Slot}

theorem Sched.headless_upd (h : c ≠ i) (f : Task → Task) :
    (s.headless i t hd).upd c f = (s.upd c f).headless i t hd :=
  congrArg (fun s => ({ s with readyQueueHead := hd, readyQueueTail := some i } : Sched))
    (Sched.put_upd h s t f)

theorem Sched.headless_taskPool (h : c ≠ i) : (s.headless i t hd).taskPool c = s.taskPool c :=
  Sched.put_taskPool_ne s h t

/-- A task that goes through an empty queue. -/
theorem rotate_alone (ht : s.readyQueueTail = none) (hh : s.readyQueueHead = none) (c : Slot) :
    removeFromReadyQueue (addToReadyQueue s c) c = (s.setNext c none).setPrev c none := by
  rw [addToReadyQueue_empty ht hh]
  have hprev : ((s.setNext c none).setPrev c none).prev c = none := by simp
  have hnext : ((s.setNext c none).setPrev c none).next c = none := by simp
  unfold removeFromReadyQueue bypassPrev bypassNext
  simp only [Sched.prev, Sched.next] at hprev hnext ⊢
  simp only [hprev, hnext]
  simp [Sched.setNext, Sched.setPrev, Sched.upd, ht, hh]

/-- `add_to_ready_queue` in that state. -/
theorem addToReadyQueue_headless (hc : c ≠ i) (hhd : hd = none ∨ hd = some c) :
    addToReadyQueue (s.headless i t hd) c =
      { ((s.setNext c none).setPrev c (some i)).put i { t with next := some c } with
        readyQueueHead := some c, readyQueueTail := some c } := by
  have hlinks : (((s.headless i t hd).setNext c none).setPrev c (some i)).setNext i (some c) =
      { ((s.setNext c none).setPrev c (some i)).put i { t with next := some c } with
        readyQueueHead := hd, readyQueueTail := some i } := by
    unfold Sched.setNext Sched.setPrev
    rw [Sched.headless_upd hc, Sched.headless_upd hc]
    simp [Sched.headless, Sched.put, Sched.upd]
  have htail : ((s.headless i t hd).setNext c none).readyQueueTail = some i := rfl
  have htail' : (((s.headless i t hd).setNext c none).setPrev c (some i)).readyQueueTail = some i :=
    rfl
  unfold addToReadyQueue
  simp only [htail, htail', hlinks]
  rcases hhd with rfl | rfl <;> rfl

/-- The same while the head is missing: the task in front of it keeps the tail, and the head comes to
name the task that goes through. -/
theorem rotate_headless (hc : c ≠ i) (hn : t.next = none) (hhd : hd = none ∨ hd = some c) :
    removeFromReadyQueue (addToReadyQueue (s.headless i t hd) c) c =
      ((s.setNext c none).setPrev c none).headless i t (some c) := by
  rw [addToReadyQueue_headless hc hhd]
  -- `remove_from_ready_queue` goes by the link to task `i`
  generalize hX : (s.setNext c none).setPrev c (some i) = X
  have hX' : (X.setNext c none).setPrev c none = (s.setNext c none).setPrev c none := by
    rw [← hX]
    simp [Sched.setNext, Sched.setPrev, Sched.upd]
  have hprev : X.prev c = some i := by
    rw [← hX]
    simp
  have hnext : X.next c = none := by
    rw [← hX]
    simp
  have ht : ({ t with next := none } : Task) = t := by rw [← hn]
  have hfirst : bypassNext { X.put i { t with next := some c } with
      readyQueueHead := some c, readyQueueTail := some c } c =
      { X.put i t with readyQueueHead := some c, readyQueueTail := some c } := by
    have hb : ({ X.put i { t with next := some c } with
        readyQueueHead := some c, readyQueueTail := some c } : Sched).prev c = some i :=
      (Sched.prev_put_ne X hc _).trans hprev
    have hf : ({ X.put i { t with next := some c } with
        readyQueueHead := some c, readyQueueTail := some c } : Sched).next c = none :=
      (Sched.next_put_ne X hc _).trans hnext
    unfold bypassNext
    simp only [hb, hf]
    rw [← ht]
    simp [Sched.setNext, Sched.put, Sched.upd]
  have hsecond : bypassPrev { X.put i t with readyQueueHead := some c, readyQueueTail := some c } c =
      X.headless i t (some c) := by
    have hb : ({ X.put i t with readyQueueHead := some c, readyQueueTail := some c } : Sched).prev c =
        some i := (Sched.prev_put_ne X hc t).trans hprev
    have hf : ({ X.put i t with readyQueueHead := some c, readyQueueTail := some c } : Sched).next c =
        none := (Sched.next_put_ne X hc t).trans hnext
    unfold bypassPrev
    simp only [hb, hf]
    rfl
  unfold removeFromReadyQueue
  simp only [hfirst, hsecond]
  rw [← hX']
  unfold Sched.setNext Sched.setPrev
  rw [Sched.headless_upd hc, Sched.headless_upd hc]

theorem decrementSlice_zero_iff (s : Sched) (c : Slot) :
    ((decrementSlice s c).taskPool c).timeSlice = 0 ↔ ¬ 1 < (s.taskPool c).timeSlice := by
  unfold decrementSlice
  split_ifs with h
  · rw [Sched.upd_taskPool_same]
    simp only
    generalize (s.taskPool c).timeSlice = n at h
    bv_omega
  · generalize (s.taskPool c).timeSlice = n at h
    bv_omega

/-- `schedule` in the headless state switches from the task that runs to itself. -/
theorem pickNext_headless (h : SchedInv s [] c) (hc : c ≠ i) (hn : t.next = none)
    (hhd : hd = none ∨ hd = some c) :
    pickNext (s.headless i t hd) =
      ((pickNext s).1.headless i t (if 1 < (s.taskPool c).timeSlice then hd else some c),
        (pickNext s).2) := by
  have hcur : (s.headless i t hd).currentTask = some c := h.current
  have hen : (s.headless i t hd).schedEnabled = true := h.enabled
  have hdec : decrementSlice (s.headless i t hd) c = (decrementSlice s c).headless i t hd := by
    unfold decrementSlice
    rw [Sched.headless_taskPool hc]
    split_ifs
    · exact Sched.headless_upd hc _
    · rfl
  have hi := (decrementSlice_spec h).1
  have hz := decrementSlice_zero_iff s c
  unfold pickNext
  rw [hen, h.enabled, hcur, h.current, if_neg (by decide), if_neg (by decide)]
  simp only
  rw [hdec]
  generalize decrementSlice s c = s₁ at hi hz
  have hrun : s₁.state c = .running := (hi.running c).mpr rfl
  have hrun' : (s₁.headless i t hd).state c = .running :=
    (Sched.state_put_ne s₁ hc t).trans hrun
  rw [Sched.headless_taskPool hc, hrun, hrun']
  by_cases hts : 1 < (s.taskPool c).timeSlice
  · have hstay : ¬ ((s₁.taskPool c).timeSlice = 0 ∨ TaskState.running ≠ .running) := by
      rw [hz]
      simpa using hts
    rw [if_neg hstay, if_neg hstay, if_pos hts]
  · have hswitch : (s₁.taskPool c).timeSlice = 0 ∨ TaskState.running ≠ .running := .inl (hz.mpr hts)
    rw [if_pos hswitch, if_pos hswitch, if_neg hts]
    unfold requeueCurrent
    rw [if_pos hrun, if_pos hrun', Sched.headless_upd hc]
    have hq : Queue (s₁.upd c (fun t => { t with state := .ready, timeSlice := defaultTimeSlice })) [] :=
      hi.queue.upd c (fun _ => rfl) (fun _ => rfl)
    generalize s₁.upd c (fun t => { t with state := .ready, timeSlice := defaultTimeSlice }) = s₂ at hq
    have hh : (addToReadyQueue s₂ c).readyQueueHead = some c := by
      rw [addToReadyQueue_empty hq.tail_eq hq.head_eq]
    have hh' : (addToReadyQueue (s₂.headless i t hd) c).readyQueueHead = some c := by
      rw [addToReadyQueue_headless hc hhd]
    unfold getNextReadyTask
    simp only [hh, hh']
    rw [rotate_alone hq.tail_eq hq.head_eq, rotate_headless hc hn hhd]
    unfold dispatch
    rw [Sched.headless_upd hc]
    rfl

end

/-- The kernel in that state. -/
def Kernel.headless (k : Kernel) (i : Slot) (t : Task) (hd : Option Slot) : Kernel :=
  { k with sched := k.sched.headless i t hd }

theorem schedule_headless {k : Kernel} {i c : Slot} {t : Task} {hd : Option Slot}
    (h : SchedInv k.sched [] c) (hc : c ≠ i) (hn : t.next = none) (hhd : hd = none ∨ hd = some c) :
    (schedule (k.headless i t hd)).1 = (schedule k).1.headless i t
      (if 1 < (k.task c).timeSlice then hd else some c) := by
  have he := pickNext_headless h hc hn hhd
  unfold schedule
  rw [show (k.headless i t hd).sched = k.sched.headless i t hd from rfl, he]
  rcases pickNext_spec h with ⟨s, hs, -⟩ | ⟨s, n, l', hs, hl, -⟩
  · rw [hs]
    rfl
  · obtain ⟨rfl, -⟩ : c = n ∧ [] = l' := List.cons.inj hl
    rw [hs]
    simp only
    rw [Sched.headless_taskPool hc]
    rfl

/-! ### A tick that does not switch -/

/-- While its slice lasts, the current task goes on. -/
theorem schedule_stays {k : Kernel} {c : Slot} (hen : k.sched.schedEnabled = true)
    (hcur : k.sched.currentTask = some c) (hrun : k.sched.state c = .running)
    (hts : 1 < (k.task c).timeSlice) :
    (schedule k).1 = k.upd c (fun t => { t with timeSlice := t.timeSlice - 1 }) := by
  have hpos : 0 < (k.sched.taskPool c).timeSlice := by
    have h : 1 < (k.sched.taskPool c).timeSlice := hts
    bv_omega
  have hdec : decrementSlice k.sched c =
      k.sched.upd c (fun t => { t with timeSlice := t.timeSlice - 1 }) := if_pos hpos
  have hne : ((decrementSlice k.sched c).taskPool c).timeSlice ≠ 0 := by
    rw [Ne, decrementSlice_zero_iff, not_not]
    exact hts
  have hrun' : (decrementSlice k.sched c).state c = .running := by
    rw [hdec, Sched.state_upd, if_pos rfl]
    exact hrun
  have hstay : ¬ (((decrementSlice k.sched c).taskPool c).timeSlice = 0 ∨
      (decrementSlice k.sched c).state c ≠ .running) := not_or.mpr ⟨hne, not_not.mpr hrun'⟩
  unfold schedule pickNext
  simp only [hen, hcur]
  rw [if_neg (by decide), if_neg hstay, hdec]
  rfl

end AArch64Os
