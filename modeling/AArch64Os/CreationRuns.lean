import AArch64Os.Atomicity
import AArch64Os.PmmExact

/-! # Runs of `task_create`

An undisturbed creation leaves a proper queue and free list (`creation_intact`).  Ticks alone are
enough to disturb one: with an empty queue a tick at `if (!ready_queue_head)`, after the tail was
set, puts task 0 behind the new task and takes it out again, which leaves the head on task 0
(`creation_interrupted`). -/

namespace AArch64Os

open Relation

/-- What an undisturbed creation does. -/
def QuietStep (L : Linker) (a : CreateArgs) (x y : CreateState) : Prop :=
  ∃ m, Undisturbed x m ∧ AtomStep L a m x y

section
variable {L : Linker} {a : CreateArgs} {idleFunc : Word} {s : Mmu} {r : KernelRun}
  {st st' : CreateState} {l : List Slot} {c : Slot}

/-- An undisturbed step leads from phase to phase. -/
theorem QuietStep.phase (hs : QuietStep L a st st') (h : ∃ l c, Phase st.point st.run l c) :
    ∃ l c, Phase st'.point st'.run l c := by
  obtain ⟨l, c, h⟩ := h
  obtain ⟨m, hu, hs⟩ := hs
  cases hs with
  | stmt hcur he => exact h.stmt hu hcur he
  | other hc hy hs => exact h.other hu hc hy hs

/-- An undisturbed run leads from phase to phase. -/
theorem creation_phase (hg : Good r l c) (hrun : ReflTransGen (QuietStep L a) ⟨r, .find 0⟩ st) :
    ∃ l c, Phase st.point st.run l c := by
  have hinit : ∃ l c, Phase (.find 0) r l c := ⟨l, c, hg⟩
  exact Runs.run_invariant (I := fun st : CreateState => ∃ l c, Phase st.point st.run l c) hinit
    (fun _ _ hi hs => hs.phase hi) hrun

theorem Reachable.good (h : Reachable L idleFunc s (fun _ _ => True) r) : ∃ l c, Good r l c := by
  refine h.invariant (I := fun r => ∃ l c, Good r l c) (fun k stack hb => ?_) (fun m r r' hi _ hs => ?_)
  · exact ⟨[], 0, hb.sched, _, _, hb.kernelInv.owns⟩
  · obtain ⟨l, c, hg⟩ := hi
    exact hg.step hs

/-- **An undisturbed creation**: from every state that calls of the kernel can lead to, when the
creation completes, the ready queue and the free list are proper lists. -/
theorem creation_intact (hr : Reachable L idleFunc s (fun _ _ => True) r)
    (hrun : ReflTransGen (fun x y => ∃ m, Undisturbed x m ∧ AtomStep L a m x y) ⟨r, .find 0⟩ st)
    (hdone : st.point = .done) : QueuesIntact st.run.kernel := by
  obtain ⟨l, c, hg⟩ := hr.good
  obtain ⟨l', c', h⟩ := creation_phase hg hrun
  rw [hdone] at h
  exact Good.intact h

end

/-! ### A creation without interrupts -/

/-- Statements follow each other. -/
def StmtStep (L : Linker) (a : CreateArgs) (x y : CreateState) : Prop :=
  Undisturbed x .stmt ∧ AtomStep L a .stmt x y

section
variable (L : Linker) (a : CreateArgs) (heap : List Block) (order : Slot → ℕ) (i : Slot) (p : ℕ)
  {k k' : Kernel} {pt' : Point} {stack : ℕ}

variable {L a} in
/-- The statement `pt` of task 0. -/
theorem quiet_stmt (pt : Point) (hcur : k.sched.currentTask = some 0)
    (hu : Undisturbed ⟨⟨k, heap, order⟩, pt⟩ .stmt) (he : a.stmt L k pt = some (k', pt')) :
    ReflTransGen (StmtStep L a) ⟨⟨k, heap, order⟩, pt⟩ ⟨⟨k', heap, order⟩, pt'⟩ :=
  .single ⟨hu, .stmt hcur he⟩

/-- The statements that take the page do not touch the scheduler. -/
theorem quiet_take (rest : List TakeStmt) : ∀ k : Kernel, k.sched.currentTask = some 0 →
    ∃ k', k'.sched = k.sched ∧ ReflTransGen (StmtStep L a) ⟨⟨k, heap, order⟩, .take i p rest⟩
      ⟨⟨k', heap, order⟩, .fill i (a.fillStatements L i (pageToPhys p))⟩ := by
  induction rest with
  | nil => exact fun k hcur => ⟨k, rfl, quiet_stmt heap order (.take i p []) hcur trivial rfl⟩
  | cons st rest ih =>
      intro k hcur
      obtain ⟨k', hsched, hrun⟩ := ih { k with pmm := st.exec p k.pmm } hcur
      exact ⟨k', hsched, (quiet_stmt heap order (.take i p (st :: rest)) hcur trivial rfl).trans hrun⟩

/-- The scheduler apart from the tasks. -/
structure SameEnds (s s' : Sched) : Prop where
  head : s'.readyQueueHead = s.readyQueueHead
  tail : s'.readyQueueTail = s.readyQueueTail
  current : s'.currentTask = s.currentTask
  enabled : s'.schedEnabled = s.schedEnabled

theorem SameEnds.refl (s : Sched) : SameEnds s s := ⟨rfl, rfl, rfl, rfl⟩

theorem SameEnds.trans {s s' s'' : Sched} (h : SameEnds s s') (h' : SameEnds s' s'') :
    SameEnds s s'' :=
  ⟨h'.head.trans h.head, h'.tail.trans h.tail, h'.current.trans h.current,
    h'.enabled.trans h.enabled⟩

theorem FillStmt.sameEnds (st : FillStmt) (i : Slot) (k : Kernel) :
    SameEnds k.sched (st.exec i k).sched := by
  cases st <;> exact ⟨rfl, rfl, rfl, rfl⟩

/-- The statements that fill the slot do not touch the queue. -/
theorem quiet_fill (rest : List FillStmt) : ∀ k : Kernel, k.sched.currentTask = some 0 →
    ∃ k', SameEnds k.sched k'.sched ∧ ReflTransGen (StmtStep L a)
      ⟨⟨k, heap, order⟩, .fill i rest⟩ ⟨⟨k', heap, order⟩, .testEnabled i⟩ := by
  induction rest with
  | nil => exact fun k hcur => ⟨k, .refl _, quiet_stmt heap order (.fill i []) hcur trivial rfl⟩
  | cons st rest ih =>
      intro k hcur
      have hends := st.sameEnds i k
      obtain ⟨k', hends', hrun⟩ := ih (st.exec i k) (hends.current.trans hcur)
      exact ⟨k', hends.trans hends', (quiet_stmt heap order (.fill i (st :: rest)) hcur trivial rfl).trans hrun⟩

/-- The task is linked behind an empty queue. -/
theorem quiet_link (hcur : k.sched.currentTask = some 0) (hen : k.sched.schedEnabled = true)
    (htail : k.sched.readyQueueTail = none) (hhead : k.sched.readyQueueHead = none) :
    ∃ k', k'.sched.currentTask = some 0 ∧ k'.sched.readyQueueHead = none ∧
      k'.sched.readyQueueTail = some i ∧ ReflTransGen (StmtStep L a)
        ⟨⟨k, heap, order⟩, .testEnabled i⟩ ⟨⟨k', heap, order⟩, .testHead i⟩ := by
  have h₁ : a.stmt L k (.testEnabled i) = some (k, .setNext i) := by
    rw [CreateArgs.stmt, hen]
    rfl
  -- the tail is still null when it is tested
  let k₁ : Kernel := { k with sched := k.sched.setNext i none }
  let k₂ : Kernel := { k with sched := (k.sched.setNext i none).setPrev i k.sched.readyQueueTail }
  have hcur₁ : k₁.sched.currentTask = some 0 := hcur
  have hcur₂ : k₂.sched.currentTask = some 0 := hcur
  have htail₂ : k₂.sched.readyQueueTail = none := htail
  have hprev : k₂.sched.prev i = none := by
    show ((k.sched.setNext i none).setPrev i k.sched.readyQueueTail).prev i = none
    rw [Sched.prev_setPrev, Function.update_self, htail]
  have h₂ : a.stmt L k₂ (.testTail i) = some (k₂, .setTail i) := by
    rw [CreateArgs.stmt, htail₂]
    rfl
  refine ⟨{ k₂ with sched := { k₂.sched with readyQueueTail := some i } }, hcur, hhead, rfl, ?_⟩
  exact (quiet_stmt heap order (.testEnabled i) hcur trivial h₁).trans
    ((quiet_stmt heap order (.setNext i) hcur trivial rfl).trans
      ((quiet_stmt heap order (.setPrev i) hcur₁ trivial rfl).trans
        ((quiet_stmt heap order (.testTail i) hcur₂ (fun _ => hprev) h₂).trans
          (quiet_stmt heap order (.setTail i) hcur₂ trivial rfl))))

/-- After `boot` the creation reaches the test of the head without an interrupt. -/
theorem Booted.quiet {s : Mmu} (h : Booted L s k stack) :
    ∃ k', k'.sched.currentTask = some 0 ∧ k'.sched.readyQueueHead = none ∧
      k'.sched.readyQueueTail = some 1 ∧ ReflTransGen (StmtStep L a)
        ⟨⟨k, heap, order⟩, .find 0⟩ ⟨⟨k', heap, order⟩, .testHead 1⟩ := by
  have hcur := h.sched.current
  have hq : Queue k.sched [] := h.sched.queue
  have hrun : k.sched.state 0 = .running := (h.sched.running 0).mpr rfl
  have h0 : a.stmt L k (.find 0) = some (k, .find 1) := by
    rw [CreateArgs.stmt, dif_pos (by decide), if_neg]
    rw [show (⟨0, by decide⟩ : Slot) = 0 from rfl, hrun]
    decide
  have h1 : a.stmt L k (.find 1) = some (k, .allocHead 1) := by
    rw [CreateArgs.stmt, dif_pos (by decide)]
    exact if_pos (h.terminated 1 (by decide))
  obtain ⟨p, hp⟩ : ∃ p, k.pmm.freeList = some p := by
    cases hp : k.pmm.freeList with
    | some p => exact ⟨p, rfl⟩
    | none =>
        have hnull : allocPages k.pmm 0 = some (none, k.pmm) := by
          simp [allocPages, hp]
        have hroom : ∃ q, FreeRun k.pmm 0 q := h.pmm.freeRun_of_few (by simp) (by simp)
        rcases h.pmm.allocPages_takes (Nat.zero_le _) with ⟨-, hno⟩ | ⟨q, s, he, -, -⟩
        · exact absurd hroom hno
        · cases hnull.symm.trans he
  have h2 : a.stmt L k (.allocHead 1) = some (k, .allocTest 1 (some p)) := by
    rw [CreateArgs.stmt, hp]
  obtain ⟨k₁, hsched, htake⟩ := quiet_take L a heap order 1 p TakeStmt.all
    { k with pmm := k.pmm.setFreeList (k.pmm.pages p).next } hcur
  obtain ⟨k₂, hends, hfill⟩ := quiet_fill L a heap order 1
    (a.fillStatements L 1 (pageToPhys p)) k₁ (by rw [hsched]; exact hcur)
  rw [hsched] at hends
  obtain ⟨k', hcur', hhead', htail', hlink⟩ := quiet_link L a heap order 1
    (hends.current.trans hcur) (hends.enabled.trans h.sched.enabled)
    (hends.tail.trans hq.tail_eq) (hends.head.trans hq.head_eq)
  refine ⟨k', hcur', hhead', htail', ?_⟩
  have hfind := (quiet_stmt heap order (.find 0) hcur trivial h0).trans
    (quiet_stmt heap order (.find 1) hcur trivial h1)
  have halloc := (quiet_stmt heap order (.allocHead 1) hcur trivial h2).trans
    ((quiet_stmt heap order (.allocTest 1 (some p)) hcur trivial rfl).trans
      (quiet_stmt heap order (.unlink 1 p) hcur hp rfl))
  exact hfind.trans (halloc.trans (htake.trans (hfill.trans hlink)))

end

/-! ### Ticks that disturb a creation -/

/-- Statements and ticks. -/
def TickStep (L : Linker) (a : CreateArgs) (x y : CreateState) : Prop :=
  AtomStep L a .stmt x y ∨ AtomStep L a (.other .tick) x y

section
variable {L : Linker} {a : CreateArgs} {r : KernelRun} {i : Slot} {p : ℕ} {t : Task} {k : Kernel}

theorem StmtStep.quiet {x y : CreateState} (h : StmtStep L a x y) : QuietStep L a x y :=
  ⟨.stmt, h⟩

/-- A tick while the head is missing. -/
theorem Headless.tick (h : Headless r i p t none) (hn : t.next = none) :
    ∃ r', KernelStep L .tick r r' ∧
      (1 < (r.kernel.task 0).timeSlice ∧ Headless r' i p t none ∧
        (r'.kernel.task 0).timeSlice = (r.kernel.task 0).timeSlice - 1 ∨
      Headless r' i p t (some 0)) := by
  obtain ⟨kr, heap, order⟩ := r
  obtain ⟨k, he, ha⟩ := h
  obtain rfl : kr = k.headless i t none := he
  have hi : (0 : Slot) ≠ i := (ha.good.sched.free_slot ha.free).2
  have hsched : SchedInv k.sched [] 0 := ha.good.sched
  have hs : KernelStep L .tick ⟨k, ⟨p, 0⟩ :: heap, order⟩ ⟨(schedule k).1, ⟨p, 0⟩ :: heap, order⟩ :=
    .tick k _ order
  have htimer : Elsewhere .tick := trivial
  have ha' := ha.alone htimer (by simp) hs
  have htask : ∀ k : Kernel, (k.headless i t none).task 0 = k.task 0 :=
    fun k => Sched.headless_taskPool hi
  have htick := schedule_headless hsched hi hn (.inl rfl)
  refine ⟨_, .tick _ heap order, ?_⟩
  rw [htask k, htick]
  split_ifs with hts
  · refine .inl ⟨hts, ⟨_, rfl, ha'⟩, ?_⟩
    rw [htask, schedule_stays hsched.enabled hsched.current ((hsched.running 0).mpr rfl) hts]
    exact congrArg Task.timeSlice (Sched.upd_taskPool_same k.sched 0
      (fun t => { t with timeSlice := t.timeSlice - 1 }))
  · exact .inr ⟨_, rfl, ha'⟩

/-- The tick that uses up the time slice of task 0 leaves the head on it. -/
theorem Headless.ticks (hn : t.next = none) (n : ℕ) : ∀ r : KernelRun,
    (r.kernel.task 0).timeSlice.toNat ≤ n → Headless r i p t none →
    ∃ r', ReflTransGen (TickStep L a) ⟨r, .testHead i⟩ ⟨r', .testHead i⟩ ∧
      Headless r' i p t (some 0) := by
  induction n with
  | zero =>
      intro r hle h
      obtain ⟨r', hs, ⟨hts, -⟩ | h'⟩ := h.tick (L := L) hn
      · bv_omega
      · exact ⟨r', .single (.inr (.other trivial (fun e => nomatch e) hs)), h'⟩
  | succ n ih =>
      intro r hle h
      obtain ⟨r', hs, ⟨hts, h', hslice⟩ | h'⟩ := h.tick (L := L) hn
      · obtain ⟨r'', hrun, hlast⟩ := ih r' (by rw [hslice]; bv_omega) h'
        exact ⟨r'', .head (.inr (.other trivial (fun e => nomatch e) hs)) hrun, hlast⟩
      · exact ⟨r', .single (.inr (.other trivial (fun e => nomatch e) hs)), h'⟩

/-- Task 0 runs, and is the head of the queue. -/
theorem Headless.not_intact (h : Headless r i p t (some 0)) : ¬ QueuesIntact r.kernel := by
  rintro ⟨⟨l, hq, hready⟩, -⟩
  obtain ⟨k, he, ha⟩ := h
  have hi : (0 : Slot) ≠ i := (ha.good.sched.free_slot ha.free).2
  have hhead : r.kernel.sched.readyQueueHead = some 0 := by
    rw [he]
    rfl
  have hstate : r.kernel.sched.state 0 = .running := by
    rw [he]
    exact (congrArg Task.state (Sched.headless_taskPool hi)).trans ((ha.good.sched.running 0).mpr rfl)
  have hmem : 0 ∈ l := List.mem_of_head? (hq.head_eq.symm.trans hhead)
  rw [hready, hstate] at hmem
  cases hmem

end

/-- The arguments of the first `task_create` in `kernel_main`. -/
def taskA : CreateArgs := ⟨[0x54, 0x61, 0x73, 0x6B, 0x2D, 0x41], 0, 0, 10⟩

/-- The creation of Task-A after `boot`, up to the test of the head. -/
theorem headless_boot : ∃ k k' p t, boot default 0 bssMmu = some k ∧
    ReflTransGen (StmtStep default taskA) ⟨⟨k, [], fun _ => 0⟩, .find 0⟩
      ⟨⟨k', [], fun _ => 0⟩, .testHead 1⟩ ∧ k'.sched.readyQueueTail = some 1 ∧
    k'.sched.readyQueueHead = none ∧ t.next = none ∧ Headless ⟨k', [], fun _ => 0⟩ 1 p t none := by
  obtain ⟨k, stack, hk, hb⟩ := boot_total default 0 bssMmu
  obtain ⟨k', hcur, hhead, htail, hrun⟩ := hb.quiet default taskA [] (fun _ => 0)
  have hr : Reachable default 0 bssMmu (fun _ _ => True) ⟨k, [], fun _ => 0⟩ := ⟨k, hk, .refl⟩
  obtain ⟨l, c, hg⟩ := hr.good
  obtain ⟨l', c', hphase⟩ := creation_phase hg (ReflTransGen.mono (fun _ _ hs => hs.quiet) _ _ hrun)
  have htestHead : Phase (.testHead 1) ⟨k', [], fun _ => 0⟩ l' c' := hphase
  rcases htestHead with hg' | ⟨-, -, p, t, -, hn, -, hless⟩
  · -- a proper queue with a tail has a head
    obtain ⟨-, hd, hh⟩ := hg'.sched.queue.head_of_tail htail
    cases hhead.symm.trans hh
  · exact ⟨k, k', p, t, hk, hrun, htail, hhead, hn, hless⟩

/-- The creation of Task-A after `boot`, with a tick before its last statement. -/
theorem creation_intact_tick : ∃ k x y st, boot default 0 bssMmu = some k ∧
    ReflTransGen (StmtStep default taskA) ⟨⟨k, [], fun _ => 0⟩, .find 0⟩ x ∧
    AtomStep default taskA (.other .tick) x y ∧ ReflTransGen (StmtStep default taskA) y st ∧
    st.point = .done ∧ QueuesIntact st.run.kernel := by
  obtain ⟨k, k', p, t, hk, hrun, htail, hhead, hn, hless⟩ := headless_boot
  have htest : taskA.stmt default k' (.testHead 1) = some (k', .setHead 1) := by
    rw [CreateArgs.stmt, hhead]
    rfl
  have hbefore := hrun.trans (quiet_stmt [] _ (.testHead 1) hless.current (fun _ => htail) htest)
  obtain ⟨⟨k₁, heap, order⟩, hs, hcase⟩ := hless.tick (L := default) hn
  have hcur : k₁.sched.currentTask = some 0 := by
    rcases hcase with ⟨-, h, -⟩ | h
    · exact h.current
    · exact h.current
  have htick : AtomStep default taskA (.other .tick) ⟨⟨k', [], fun _ => 0⟩, .setHead 1⟩
      ⟨⟨k₁, heap, order⟩, .setHead 1⟩ := .other trivial (by simp) hs
  have hafter := quiet_stmt (L := default) (a := taskA) heap order (.setHead 1) hcur trivial rfl
  have hall := ((ReflTransGen.mono (fun _ _ hs => hs.quiet) _ _ hbefore).tail
    ⟨.other .tick, trivial, htick⟩).trans (ReflTransGen.mono (fun _ _ hs => hs.quiet) _ _ hafter)
  exact ⟨k, _, _, _, hk, hbefore, htick, hafter, rfl, creation_intact ⟨k, hk, .refl⟩ hall rfl⟩

/-- **A creation that ticks disturb**: the creation of Task-A after `boot`. -/
theorem creation_interrupted : ∃ k st, boot default 0 bssMmu = some k ∧
    ReflTransGen (TickStep default taskA) ⟨⟨k, [], fun _ => 0⟩, .find 0⟩ st ∧ st.point = .done ∧
    ¬ QueuesIntact st.run.kernel := by
  obtain ⟨k, k', p, t, hk, hrun, -, -, hn, hless⟩ := headless_boot
  obtain ⟨r, hticks, hless'⟩ := hless.ticks hn _ _ le_rfl
  have htest : taskA.stmt default r.kernel (.testHead 1) = some (r.kernel, .done) := by
    rw [CreateArgs.stmt, hless'.head_eq]
    rfl
  refine ⟨k, ⟨r, .done⟩, hk, ?_, rfl, hless'.not_intact⟩
  exact ((ReflTransGen.mono (fun _ _ hs => .inl hs.2) _ _ hrun).trans hticks).tail
    (.inl (.stmt hless'.current htest))

end AArch64Os
