import AArch64Os.Sched
import AArch64Os.Lib.DList

/-! # The ready queue and the task states

`SchedInv s l c` is the scheduler's invariant: the ready queue is the doubly linked list `l`,
its tasks are the ready ones, and `c` is the one that runs.  The queue functions change links
only, and `schedule` rotates: it puts the current task behind the queue and takes the task in
front (`pickNext_spec`). -/

namespace AArch64Os

open Linked

/-! ### Fields -/

namespace Sched

@[simp] theorem upd_taskPool_same (s : Sched) (i : Slot) (f : Task → Task) :
    (s.upd i f).taskPool i = f (s.taskPool i) := Function.update_self _ _ _

theorem upd_taskPool_ne (s : Sched) {i j : Slot} (h : j ≠ i) (f : Task → Task) :
    (s.upd i f).taskPool j = s.taskPool j := Function.update_of_ne h _ _

end Sched

/-- A task without its links. -/
def Task.body (t : Task) : Task := { t with next := none, prev := none }

/-- A task without what the scheduler changes when it switches. -/
def Task.resources (t : Task) : Task :=
  { t.body with state := .ready, timeSlice := 0, runCount := 0 }

/-- From `s` to `s'` only the links of the ready queue have changed. -/
structure LinksOnly (s s' : Sched) : Prop where
  body : ∀ i, (s'.taskPool i).body = (s.taskPool i).body
  currentTask : s'.currentTask = s.currentTask
  nextTaskId : s'.nextTaskId = s.nextTaskId
  schedEnabled : s'.schedEnabled = s.schedEnabled

theorem LinksOnly.refl (s : Sched) : LinksOnly s s := ⟨fun _ => rfl, rfl, rfl, rfl⟩

theorem LinksOnly.trans {s s' s'' : Sched} (h : LinksOnly s s') (h' : LinksOnly s' s'') :
    LinksOnly s s'' :=
  ⟨fun i => (h'.body i).trans (h.body i), h'.currentTask.trans h.currentTask,
    h'.nextTaskId.trans h.nextTaskId, h'.schedEnabled.trans h.schedEnabled⟩

/-- An assignment to links. -/
theorem LinksOnly.upd (s : Sched) (i : Slot) {f : Task → Task} (hf : ∀ t, (f t).body = t.body) :
    LinksOnly s (s.upd i f) := by
  refine ⟨?_, rfl, rfl, rfl⟩
  intro j
  by_cases h : j = i
  · rw [h, Sched.upd_taskPool_same, hf]
  · rw [Sched.upd_taskPool_ne s h]

theorem LinksOnly.state {s s' : Sched} (h : LinksOnly s s') (i : Slot) : s'.state i = s.state i :=
  (congrArg Task.state (h.body i) : (s'.taskPool i).body.state = (s.taskPool i).body.state)

theorem LinksOnly.resources {s s' : Sched} (h : LinksOnly s s') (i : Slot) :
    (s'.taskPool i).resources = (s.taskPool i).resources := by
  unfold Task.resources
  rw [h.body i]

/-- The ready queue is the list `l`. -/
def Queue (s : Sched) (l : List Slot) : Prop :=
  DList s.next s.prev s.readyQueueHead s.readyQueueTail l

/-- A change that keeps links and ends keeps the queue. -/
theorem Queue.congr {s s' : Sched} {l : List Slot} (h : Queue s l) (hn : s'.next = s.next)
    (hp : s'.prev = s.prev) (hh : s'.readyQueueHead = s.readyQueueHead)
    (ht : s'.readyQueueTail = s.readyQueueTail) : Queue s' l := by
  unfold Queue
  rw [hn, hp, hh, ht]
  exact h

namespace Sched

theorem next_upd (s : Sched) (i : Slot) {f : Task → Task} (hf : ∀ t, (f t).next = t.next) :
    (s.upd i f).next = s.next := by
  funext j
  by_cases h : j = i
  · rw [h, next, upd_taskPool_same, hf]
    rfl
  · rw [next, upd_taskPool_ne s h]
    rfl

theorem prev_upd (s : Sched) (i : Slot) {f : Task → Task} (hf : ∀ t, (f t).prev = t.prev) :
    (s.upd i f).prev = s.prev := by
  funext j
  by_cases h : j = i
  · rw [h, prev, upd_taskPool_same, hf]
    rfl
  · rw [prev, upd_taskPool_ne s h]
    rfl

@[simp] theorem next_setNext (s : Sched) (i : Slot) (o : Option Slot) :
    (s.setNext i o).next = Function.update s.next i o := by
  funext j
  by_cases h : j = i
  · rw [h, next, setNext, upd_taskPool_same, Function.update_self]
  · rw [next, setNext, upd_taskPool_ne s h, Function.update_of_ne h]
    rfl

@[simp] theorem prev_setPrev (s : Sched) (i : Slot) (o : Option Slot) :
    (s.setPrev i o).prev = Function.update s.prev i o := by
  funext j
  by_cases h : j = i
  · rw [h, prev, setPrev, upd_taskPool_same, Function.update_self]
  · rw [prev, setPrev, upd_taskPool_ne s h, Function.update_of_ne h]
    rfl

@[simp] theorem next_setPrev (s : Sched) (i : Slot) (o : Option Slot) :
    (s.setPrev i o).next = s.next := next_upd s i (fun _ => rfl)

@[simp] theorem prev_setNext (s : Sched) (i : Slot) (o : Option Slot) :
    (s.setNext i o).prev = s.prev := prev_upd s i (fun _ => rfl)

end Sched

/-- The ends of the queue do not matter. -/
theorem LinksOnly.ends {s s' : Sched} (h : LinksOnly s s') (hd tl : Option Slot) :
    LinksOnly s { s' with readyQueueHead := hd, readyQueueTail := tl } :=
  ⟨h.body, h.currentTask, h.nextTaskId, h.schedEnabled⟩

theorem LinksOnly.setNext (s : Sched) (i : Slot) (o : Option Slot) : LinksOnly s (s.setNext i o) :=
  .upd s i (fun _ => rfl)

theorem LinksOnly.setPrev (s : Sched) (i : Slot) (o : Option Slot) : LinksOnly s (s.setPrev i o) :=
  .upd s i (fun _ => rfl)

theorem Queue.upd {s : Sched} {l : List Slot} (h : Queue s l) (i : Slot) {f : Task → Task}
    (hn : ∀ t, (f t).next = t.next) (hp : ∀ t, (f t).prev = t.prev) : Queue (s.upd i f) l :=
  h.congr (s.next_upd i hn) (s.prev_upd i hp) rfl rfl

/-! ### The queue functions -/

/-- `add_to_ready_queue` on an empty queue. -/
theorem addToReadyQueue_empty {s : Sched} (ht : s.readyQueueTail = none)
    (hh : s.readyQueueHead = none) (x : Slot) :
    addToReadyQueue s x = { (s.setNext x none).setPrev x none with
      readyQueueTail := some x, readyQueueHead := some x } := by
  unfold addToReadyQueue
  have h1 : (s.setNext x none).readyQueueTail = none := ht
  have h2 : ((s.setNext x none).setPrev x none).readyQueueTail = none := ht
  have h3 : ((s.setNext x none).setPrev x none).readyQueueHead = none := hh
  simp only [h1, h2, h3]

/-- `add_to_ready_queue` behind the task `t`. -/
theorem addToReadyQueue_behind {s : Sched} {t hd : Slot} (ht : s.readyQueueTail = some t)
    (hh : s.readyQueueHead = some hd) (x : Slot) :
    addToReadyQueue s x = { ((s.setNext x none).setPrev x (some t)).setNext t (some x) with
      readyQueueTail := some x } := by
  unfold addToReadyQueue
  have h1 : (s.setNext x none).readyQueueTail = some t := ht
  have h2 : ((s.setNext x none).setPrev x (some t)).readyQueueTail = some t := ht
  have h3 : (((s.setNext x none).setPrev x (some t)).setNext t (some x)).readyQueueHead =
      some hd := hh
  simp only [h1, h2, h3]

/-- A queue with a last task has a first one. -/
theorem Queue.head_of_tail {s : Sched} {l : List Slot} {t : Slot} (h : Queue s l)
    (ht : s.readyQueueTail = some t) : t ∈ l ∧ ∃ hd, s.readyQueueHead = some hd := by
  have htl : t ∈ l := List.mem_of_getLast? (h.tail_eq.symm.trans ht)
  refine ⟨htl, ?_⟩
  rw [h.head_eq]
  cases l with
  | nil => cases htl
  | cons y l => exact ⟨y, rfl⟩

/-- A queue without a last task is empty. -/
theorem Queue.empty_of_tail {s : Sched} {l : List Slot} (h : Queue s l)
    (ht : s.readyQueueTail = none) : l = [] ∧ s.readyQueueHead = none := by
  have hl : l = [] := List.getLast?_eq_none_iff.mp (h.tail_eq.symm.trans ht)
  exact ⟨hl, by rw [h.head_eq, hl]; rfl⟩

/-- `add_to_ready_queue` appends. -/
theorem addToReadyQueue_spec {s : Sched} {l : List Slot} {x : Slot} (h : Queue s l) (hx : x ∉ l) :
    Queue (addToReadyQueue s x) (l ++ [x]) ∧ LinksOnly s (addToReadyQueue s x) := by
  have hlinks := (LinksOnly.setNext s x none).trans (.setPrev _ x s.readyQueueTail)
  have hne : ∀ y ∈ l, y ≠ x := fun y hy e => hx (e ▸ hy)
  cases ht : s.readyQueueTail with
  | none =>
      obtain ⟨hl, hh⟩ := h.empty_of_tail ht
      have he := addToReadyQueue_empty ht hh x
      rw [ht] at hlinks
      rw [he, hl]
      refine ⟨⟨⟨?_, ?_, trivial⟩, rfl, rfl, List.nodup_singleton x⟩, hlinks.ends _ _⟩
      · show ((s.setNext x none).setPrev x none).prev x = none
        rw [Sched.prev_setPrev, Function.update_self]
      · show ((s.setNext x none).setPrev x none).next x = none
        rw [Sched.next_setPrev, Sched.next_setNext, Function.update_self]
  | some t =>
      obtain ⟨htl, hd, hh⟩ := h.head_of_tail ht
      have he := addToReadyQueue_behind ht hh x
      rw [ht] at hlinks
      rw [he]
      refine ⟨?_, (hlinks.trans (.setNext _ t (some x))).ends _ _⟩
      have hpush : DList (((s.setNext x none).setPrev x (some t)).setNext t (some x)).next
          (((s.setNext x none).setPrev x (some t)).setNext t (some x)).prev
          (s.readyQueueHead.or (some x)) (some x) (l ++ [x]) := h.push hx
        (by
          rw [Sched.next_setNext, Function.update_of_ne (hne t htl).symm, Sched.next_setPrev,
            Sched.next_setNext, Function.update_self])
        (by rw [Sched.prev_setNext, Sched.prev_setPrev, Function.update_self, ht])
        (by
          rintro t' ht'
          rw [ht] at ht'
          cases ht'
          rw [Sched.next_setNext, Function.update_self])
        (by
          rintro y hy hyt
          have hyt' : y ≠ t := fun e => hyt (by rw [ht, e])
          rw [Sched.next_setNext, Function.update_of_ne hyt', Sched.next_setPrev,
            Sched.next_setNext, Function.update_of_ne (hne y hy)])
        (by
          rintro y hy
          rw [Sched.prev_setNext, Sched.prev_setPrev, Function.update_of_ne (hne y hy),
            Sched.prev_setNext])
      have hor : s.readyQueueHead.or (some x) = s.readyQueueHead := by rw [hh]; rfl
      rw [hor] at hpush
      exact hpush

theorem bypassNext_spec (s : Sched) {x : Slot} (hx : s.prev x ≠ some x) :
    LinksOnly s (bypassNext s x) ∧ (bypassNext s x).prev = s.prev ∧
      (bypassNext s x).next x = s.next x ∧
      (bypassNext s x).readyQueueHead =
        (if s.prev x = none then s.next x else s.readyQueueHead) ∧
      (bypassNext s x).readyQueueTail = s.readyQueueTail ∧
      (∀ p, s.prev x = some p → (bypassNext s x).next p = s.next x) ∧
      ∀ y, s.prev x ≠ some y → (bypassNext s x).next y = s.next y := by
  unfold bypassNext
  cases hp : s.prev x with
  | none =>
      refine ⟨(LinksOnly.refl s).ends _ _, rfl, rfl, rfl, rfl, ?_, fun _ _ => rfl⟩
      intro p hc
      cases hc
  | some p =>
      have hpx : x ≠ p := fun e => hx (by rw [hp, ← e])
      refine ⟨.setNext s p _, Sched.prev_setNext s p _, ?_, rfl, rfl, ?_, ?_⟩
      · rw [Sched.next_setNext, Function.update_of_ne hpx]
      · rintro q ⟨rfl⟩
        rw [Sched.next_setNext, Function.update_self]
      · intro y hy
        rw [Sched.next_setNext, Function.update_of_ne (fun e => hy (by rw [e]))]

theorem bypassPrev_spec (s : Sched) (x : Slot) :
    LinksOnly s (bypassPrev s x) ∧ (bypassPrev s x).next = s.next ∧
      (bypassPrev s x).readyQueueTail =
        (if s.next x = none then s.prev x else s.readyQueueTail) ∧
      (bypassPrev s x).readyQueueHead = s.readyQueueHead ∧
      (∀ n, s.next x = some n → (bypassPrev s x).prev n = s.prev x) ∧
      ∀ y, s.next x ≠ some y → (bypassPrev s x).prev y = s.prev y := by
  unfold bypassPrev
  cases hn : s.next x with
  | none =>
      refine ⟨(LinksOnly.refl s).ends _ _, rfl, rfl, rfl, ?_, fun _ _ => rfl⟩
      intro p hc
      cases hc
  | some n =>
      refine ⟨.setPrev s n _, Sched.next_setPrev s n _, rfl, rfl, ?_, ?_⟩
      · rintro q ⟨rfl⟩
        rw [Sched.prev_setPrev, Function.update_self]
      · intro y hy
        rw [Sched.prev_setPrev, Function.update_of_ne (fun e => hy (by rw [e]))]

/-- `remove_from_ready_queue` takes a task out of the queue. -/
theorem removeFromReadyQueue_spec {s : Sched} {a b : List Slot} {x : Slot}
    (h : Queue s (a ++ x :: b)) :
    Queue (removeFromReadyQueue s x) (a ++ b) ∧ LinksOnly s (removeFromReadyQueue s x) := by
  have hnodup := h.nodup
  rw [List.nodup_append] at hnodup
  have hpx : s.prev x ≠ some x := by
    rw [h.prev_eq]
    intro hc
    exact hnodup.2.2 x (List.mem_of_getLast? hc) x List.mem_cons_self rfl
  have hnx : s.next x ≠ some x := by
    rw [h.next_eq]
    intro hc
    exact (List.nodup_cons.mp hnodup.2.1).1 (List.mem_of_mem_head? hc)
  obtain ⟨l₁, p₁, n₁, hd₁, tl₁, hnp, hn⟩ := bypassNext_spec s hpx
  obtain ⟨l₂, n₂, tl₂, hd₂, hpn, hp⟩ := bypassPrev_spec (bypassNext s x) x
  unfold removeFromReadyQueue
  generalize bypassNext s x = s₁ at *
  generalize bypassPrev s₁ x = s₂ at *
  rw [p₁, n₁] at tl₂ hpn
  rw [p₁, n₁] at hp
  refine ⟨?_, l₁.trans (l₂.trans ((LinksOnly.setNext s₂ x none).trans (.setPrev _ x none)))⟩
  -- the links of the task itself are cleared last, and no other node looks at them
  have hnext : ∀ y, y ≠ x → ((s₂.setNext x none).setPrev x none).next y = s₁.next y := by
    intro y hy
    rw [Sched.next_setPrev, Sched.next_setNext, Function.update_of_ne hy, n₂]
  have hprev : ∀ y, y ≠ x → ((s₂.setNext x none).setPrev x none).prev y = s₂.prev y := by
    intro y hy
    rw [Sched.prev_setPrev, Function.update_of_ne hy, Sched.prev_setNext]
  refine h.remove ?_ ?_ ?_ ?_ (hd₂.trans hd₁) (tl₂.trans (by rw [tl₁]))
  · intro p hpp
    rw [hnext p (fun e => hpx (by rw [hpp, e])), hnp p hpp]
  · intro n hnn
    rw [hprev n (fun e => hnx (by rw [hnn, e])), hpn n hnn]
  · intro y hy hyp
    rw [hnext y hy, hn y hyp]
  · intro y hy hyn
    rw [hprev y hy, hp y hyn]

/-- `get_next_ready_task` takes the task in front. -/
theorem getNextReadyTask_spec {s : Sched} {n : Slot} {l : List Slot} (h : Queue s (n :: l)) :
    ∃ s', getNextReadyTask s = some (n, s') ∧ Queue s' l ∧ LinksOnly s s' := by
  have hh : s.readyQueueHead = some n := h.head_eq
  obtain ⟨hq, hl⟩ := removeFromReadyQueue_spec (a := []) h
  refine ⟨removeFromReadyQueue s n, ?_, hq, hl⟩
  rw [getNextReadyTask, hh]

/-! ### The invariant -/

/-- The scheduler's invariant: the queue `l` holds the ready tasks, and `c` runs. -/
structure SchedInv (s : Sched) (l : List Slot) (c : Slot) : Prop where
  queue : Queue s l
  ready : ∀ i, i ∈ l ↔ s.state i = .ready
  current : s.currentTask = some c
  running : ∀ i, s.state i = .running ↔ i = c
  notBlocked : ∀ i, s.state i ≠ .blocked
  idle : s.state 0 ≠ .terminated
  enabled : s.schedEnabled = true

theorem SchedInv.current_not_mem {s : Sched} {l : List Slot} {c : Slot} (h : SchedInv s l c) :
    c ∉ l := by
  rw [h.ready, (h.running c).mpr rfl]
  decide

/-- A slot without a task is neither in the queue nor the current one. -/
theorem SchedInv.free_slot {s : Sched} {l : List Slot} {c i : Slot} (h : SchedInv s l c)
    (hi : s.state i = .terminated) : i ∉ l ∧ c ≠ i := by
  constructor
  · rw [h.ready, hi]
    decide
  · rintro rfl
    rw [(h.running c).mpr rfl] at hi
    cases hi

/-- The state in which `schedule` looks for the next task: nobody runs. -/
structure Waiting (s : Sched) (l : List Slot) : Prop where
  queue : Queue s l
  ready : ∀ i, i ∈ l ↔ s.state i = .ready
  notRunning : ∀ i, s.state i ≠ .running
  notBlocked : ∀ i, s.state i ≠ .blocked
  idle : s.state 0 ≠ .terminated
  enabled : s.schedEnabled = true

/-- From `s` to `s'` the tasks have kept their resources, and none came or went. -/
structure SameTasks (s s' : Sched) : Prop where
  resources : ∀ i, (s'.taskPool i).resources = (s.taskPool i).resources
  nextTaskId : s'.nextTaskId = s.nextTaskId
  terminated : ∀ i, s'.state i = .terminated ↔ s.state i = .terminated

theorem SameTasks.refl (s : Sched) : SameTasks s s := ⟨fun _ => rfl, rfl, fun _ => Iff.rfl⟩

theorem SameTasks.trans {s s' s'' : Sched} (h : SameTasks s s') (h' : SameTasks s' s'') :
    SameTasks s s'' :=
  ⟨fun i => (h'.resources i).trans (h.resources i), h'.nextTaskId.trans h.nextTaskId,
    fun i => (h'.terminated i).trans (h.terminated i)⟩

theorem LinksOnly.sameTasks {s s' : Sched} (h : LinksOnly s s') : SameTasks s s' :=
  ⟨h.resources, h.nextTaskId, fun i => by rw [h.state]⟩

/-- An assignment that keeps the resources of a task, and does not end or revive it. -/
theorem SameTasks.upd (s : Sched) (i : Slot) {f : Task → Task}
    (hf : (f (s.taskPool i)).resources = (s.taskPool i).resources)
    (hs : (f (s.taskPool i)).state = .terminated ↔ s.state i = .terminated) :
    SameTasks s (s.upd i f) := by
  refine ⟨?_, rfl, ?_⟩
  · intro j
    by_cases h : j = i
    · rw [h, Sched.upd_taskPool_same, hf]
    · rw [Sched.upd_taskPool_ne s h]
  · intro j
    unfold Sched.state
    by_cases h : j = i
    · rw [h, Sched.upd_taskPool_same]
      exact hs
    · rw [Sched.upd_taskPool_ne s h]

namespace Sched

theorem state_upd (s : Sched) (i j : Slot) (f : Task → Task) :
    (s.upd i f).state j = if j = i then (f (s.taskPool i)).state else s.state j := by
  unfold state
  split_ifs with h
  · rw [h, upd_taskPool_same]
  · rw [upd_taskPool_ne s h]

theorem state_upd_of_state (s : Sched) (i : Slot) {f : Task → Task}
    (hf : ∀ t, (f t).state = t.state) : (s.upd i f).state = s.state := by
  funext j
  rw [state_upd, hf]
  split_ifs with h
  · rw [h]
    rfl
  · rfl

end Sched

/-- An assignment that the invariant does not look at. -/
theorem SchedInv.upd {s : Sched} {l : List Slot} {c : Slot} (h : SchedInv s l c) (i : Slot)
    {f : Task → Task} (hn : ∀ t, (f t).next = t.next) (hp : ∀ t, (f t).prev = t.prev)
    (hs : ∀ t, (f t).state = t.state) : SchedInv (s.upd i f) l c := by
  have hstate := s.state_upd_of_state i hs
  refine ⟨h.queue.upd i hn hp, ?_, h.current, ?_, ?_, ?_, h.enabled⟩
  · rw [hstate]; exact h.ready
  · rw [hstate]; exact h.running
  · rw [hstate]; exact h.notBlocked
  · rw [hstate]; exact h.idle

/-- The time slice of the current task does not matter. -/
theorem decrementSlice_spec {s : Sched} {l : List Slot} {c : Slot} (h : SchedInv s l c) :
    SchedInv (decrementSlice s c) l c ∧ SameTasks s (decrementSlice s c) := by
  unfold decrementSlice
  split_ifs
  · exact ⟨h.upd c (fun _ => rfl) (fun _ => rfl) (fun _ => rfl), .upd s c rfl Iff.rfl⟩
  · exact ⟨h, .refl s⟩

/-- The current task goes behind the queue. -/
theorem requeueCurrent_spec {s : Sched} {l : List Slot} {c : Slot} (h : SchedInv s l c) :
    Waiting (requeueCurrent s c) (l ++ [c]) ∧ SameTasks s (requeueCurrent s c) := by
  have hc : s.state c = .running := (h.running c).mpr rfl
  have hcl := h.current_not_mem
  unfold requeueCurrent
  rw [if_pos hc]
  have hs₁ : SameTasks s (s.upd c (fun t =>
      { t with state := .ready, timeSlice := defaultTimeSlice })) := by
    refine .upd s c rfl ?_
    rw [hc]
    simp
  have hq₁ : Queue (s.upd c (fun t =>
      { t with state := .ready, timeSlice := defaultTimeSlice })) l :=
    h.queue.upd c (fun _ => rfl) (fun _ => rfl)
  have hstate : ∀ i, (s.upd c (fun t =>
      { t with state := .ready, timeSlice := defaultTimeSlice })).state i =
      if i = c then .ready else s.state i := fun i => Sched.state_upd s c i _
  have hen : (s.upd c (fun t =>
      { t with state := .ready, timeSlice := defaultTimeSlice })).schedEnabled = true := h.enabled
  generalize s.upd c (fun t =>
    { t with state := .ready, timeSlice := defaultTimeSlice }) = s₁ at hs₁ hq₁ hstate hen
  obtain ⟨hq, hl⟩ := addToReadyQueue_spec hq₁ hcl
  refine ⟨⟨hq, ?_, ?_, ?_, ?_, ?_⟩, hs₁.trans hl.sameTasks⟩
  · intro i
    rw [hl.state, hstate, List.mem_append, List.mem_singleton, h.ready]
    by_cases hi : i = c
    · simp [hi]
    · simp [hi]
  · intro i
    rw [hl.state, hstate]
    split_ifs with hi
    · simp
    · exact fun hr => hi ((h.running i).mp hr)
  · intro i
    rw [hl.state, hstate]
    split_ifs
    · simp
    · exact h.notBlocked i
  · rw [hl.state, hstate]
    split_ifs
    · simp
    · exact h.idle
  · rw [hl.schedEnabled]
    exact hen

/-- The task in front of the queue becomes the running one. -/
theorem dispatch_spec {s : Sched} {l : List Slot} (h : Waiting s l) :
    ∃ n l' s₁, l = n :: l' ∧ getNextReadyTask s = some (n, s₁) ∧ SchedInv (dispatch s₁ n) l' n ∧
      SameTasks s (dispatch s₁ n) := by
  have hzero : (0 : Slot) ∈ l := by
    rw [h.ready]
    cases hs : s.state 0 with
    | ready => rfl
    | running => exact absurd hs (h.notRunning 0)
    | blocked => exact absurd hs (h.notBlocked 0)
    | terminated => exact absurd hs h.idle
  cases l with
  | nil => cases hzero
  | cons n l =>
      obtain ⟨s₁, he, hq, hl⟩ := getNextReadyTask_spec h.queue
      have hn : s₁.state n = .ready := by
        rw [hl.state]
        exact (h.ready n).mp List.mem_cons_self
      have hnl := (List.nodup_cons.mp h.queue.nodup).1
      have hstate : ∀ i, (dispatch s₁ n).state i = if i = n then .running else s.state i := by
        intro i
        have := Sched.state_upd s₁ n i (fun t => { t with
          state := .running, timeSlice := defaultTimeSlice, runCount := t.runCount + 1 })
        rw [hl.state] at this
        exact this
      refine ⟨n, l, s₁, rfl, he, ⟨?_, ?_, rfl, ?_, ?_, ?_, ?_⟩, ?_⟩
      · exact (hq.upd n (fun _ => rfl) (fun _ => rfl) : Queue (s₁.upd n (fun t => { t with
          state := .running, timeSlice := defaultTimeSlice, runCount := t.runCount + 1 })) l)
      · intro i
        rw [hstate]
        by_cases hi : i = n
        · rw [if_pos hi, hi]
          exact ⟨fun hc => absurd hc hnl, fun hc => by cases hc⟩
        · rw [if_neg hi, ← h.ready, List.mem_cons]
          exact ⟨.inr, fun hc => hc.resolve_left hi⟩
      · intro i
        rw [hstate]
        split_ifs with hi
        · exact ⟨fun _ => hi, fun _ => rfl⟩
        · exact ⟨fun hr => absurd hr (h.notRunning i), fun hc => absurd hc hi⟩
      · intro i
        rw [hstate]
        split_ifs
        · simp
        · exact h.notBlocked i
      · rw [hstate]
        split_ifs
        · simp
        · exact h.idle
      · exact hl.schedEnabled.trans h.enabled
      · refine hl.sameTasks.trans ⟨?_, rfl, ?_⟩
        · exact (SameTasks.upd s₁ n (f := fun t => { t with
            state := .running, timeSlice := defaultTimeSlice, runCount := t.runCount + 1 }) rfl
            (by rw [hn]; simp)).resources
        · intro i
          rw [hstate, hl.state]
          split_ifs with hi
          · rw [hi, ← hl.state, hn]
            simp
          · exact Iff.rfl

/-- A slice that is used up stays so. -/
theorem decrementSlice_zero {s : Sched} {c : Slot} (h : (s.taskPool c).timeSlice = 0) :
    ((decrementSlice s c).taskPool c).timeSlice = 0 := by
  unfold decrementSlice
  rw [h, if_neg (by decide), h]

/-- **`schedule` rotates the queue**, or leaves the current task on the CPU while its slice
lasts. -/
theorem pickNext_spec {s : Sched} {l : List Slot} {c : Slot} (h : SchedInv s l c) :
    (∃ s', pickNext s = (s', none) ∧ SchedInv s' l c ∧ SameTasks s s' ∧
      (s.taskPool c).timeSlice ≠ 0) ∨
    ∃ s' n l', pickNext s = (s', some (c, n)) ∧ l ++ [c] = n :: l' ∧ SchedInv s' l' n ∧
      SameTasks s s' := by
  obtain ⟨h₁, t₁⟩ := decrementSlice_spec h
  have hen : ¬ s.schedEnabled = false := by rw [h.enabled]; simp
  unfold pickNext
  rw [if_neg hen, h.current]
  simp only
  split_ifs with hc
  · right
    obtain ⟨h₂, t₂⟩ := requeueCurrent_spec h₁
    obtain ⟨n, l', s₃, hl, he, h₃, t₃⟩ := dispatch_spec h₂
    refine ⟨_, n, l', ?_, hl, h₃, t₁.trans (t₂.trans t₃)⟩
    rw [he]
  · exact .inl ⟨_, rfl, h₁, t₁, fun hz => hc (.inl (decrementSlice_zero hz))⟩

/-- `schedule` in `task_exit`: the current task has ended, and another one is found. -/
theorem pickNext_exit {s : Sched} {l : List Slot} {c : Slot} (h : Waiting s l)
    (hc : s.currentTask = some c) (hs : s.state c = .terminated)
    (hz : (s.taskPool c).timeSlice = 0) :
    ∃ s' n l', pickNext s = (s', some (c, n)) ∧ l = n :: l' ∧ SchedInv s' l' n ∧
      SameTasks s s' := by
  have hen : ¬ s.schedEnabled = false := by rw [h.enabled]; simp
  have hdec : decrementSlice s c = s := by
    unfold decrementSlice
    rw [hz, if_neg (by decide)]
  have hreq : requeueCurrent s c = s := by
    unfold requeueCurrent
    rw [hs, if_neg (by decide)]
  obtain ⟨n, l', s₁, hl, he, h₁, t₁⟩ := dispatch_spec h
  refine ⟨_, n, l', ?_, hl, h₁, t₁⟩
  unfold pickNext
  rw [if_neg hen, hc]
  simp only [hdec, hreq]
  rw [if_pos (.inl hz), he]

end AArch64Os
