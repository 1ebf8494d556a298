import AArch64Os.Lib.Turns
import AArch64Os.TaskLives

/-! # Fairness

The ready queue with the current task behind it is an order in which tasks take turns
(`KernelStep.turns`): `schedule` serves the first one, which goes to the end when its time is up.
So of two tasks that live over a run, one is dispatched as often as the other, up to one dispatch
(`fair_dispatches`), whoever else comes, goes, yields or exits. -/

namespace AArch64Os

open Runs Turns

/-- The order of a state: the next task to be dispatched first, the current one last. -/
def TurnOrder (r : KernelRun) (o : List Slot) : Prop :=
  ∃ l c, SchedInv r.kernel.sched l c ∧ o = l ++ [c]

section
variable {L : Linker} {r r' : KernelRun} {o : List Slot} {i j : Slot}

/-- The live tasks stand in the order. -/
theorem TurnOrder.both (h : TurnOrder r o) (hi : r.kernel.sched.state i ≠ .terminated)
    (hj : r.kernel.sched.state j ≠ .terminated) : Both i j o := by
  obtain ⟨l, c, hinv, rfl⟩ := h
  have hmem : ∀ i, r.kernel.sched.state i ≠ .terminated → i ∈ l ++ [c] := by
    intro i hi
    rw [List.mem_append, List.mem_singleton, hinv.ready, ← hinv.running]
    cases hs : r.kernel.sched.state i with
    | ready => exact .inl rfl
    | running => exact .inr rfl
    | blocked => exact absurd hs (hinv.notBlocked i)
    | terminated => exact absurd hs hi
  refine ⟨?_, hmem i hi, hmem j hj⟩
  rw [List.nodup_append_comm, List.singleton_append, List.nodup_cons]
  exact ⟨hinv.current_not_mem, hinv.queue.nodup⟩

/-- A task that joins the queue comes in front of the current one. -/
theorem turns_join {l : List Slot} {c : Slot} (h : SchedInv r'.kernel.sched l c ∨
    ∃ i, SchedInv r'.kernel.sched (l ++ [i]) c) :
    ∃ o', TurnOrder r' o' ∧ Turns.Step (l ++ [c]) none o' := by
  rcases h with hi | ⟨i, hi⟩
  · exact ⟨_, ⟨l, c, hi, rfl⟩, .pass (.inl (.refl _))⟩
  · refine ⟨_, ⟨l ++ [i], c, hi, rfl⟩, .pass (.inl ?_)⟩
    exact (List.sublist_append_left l [i]).append (.refl [c])

/-- **Every call is a step of the order.** -/
theorem KernelStep.turns {call : KernelCall} (h : TurnOrder r o) (hs : KernelStep L call r r') :
    ∃ o', TurnOrder r' o' ∧ Turns.Step o (call.event r.kernel).served o' := by
  obtain ⟨l, c, hi, rfl⟩ := h
  have hstay : ∀ {r' : KernelRun}, SchedInv r'.kernel.sched l c →
      ∃ o', TurnOrder r' o' ∧ Turns.Step (l ++ [c]) none o' := fun hi' => turns_join (.inl hi')
  cases hs with
  | create he => exact turns_join (taskCreate_joins hi he).1
  | createUser he => exact turns_join (taskCreateUser_joins hi he).1
  | yield k heap order => exact hstay (taskYield_spec hi).1
  | tick k heap order =>
      show ∃ o', TurnOrder _ o' ∧ Turns.Step (l ++ [c]) ((schedule k).2.map Prod.snd) o'
      rcases schedule_cases hi with ⟨s, he, hi', -⟩ | ⟨s, n, l', he, hl, hi', -⟩
      · rw [he]
        exact hstay hi'
      · rw [he, hl]
        exact ⟨_, ⟨l', n, hi', rfl⟩, .serve (.inl (.refl _))⟩
  | @exit k heap order hidle =>
      have hc : c ≠ 0 := fun e => hidle (e ▸ hi.current)
      obtain ⟨s, n, l', he, hl, hi', -⟩ := taskExit_cases hi hc
      show ∃ o', TurnOrder _ o' ∧ Turns.Step (l ++ [c]) (taskExit k).2.selected o'
      rw [he, hl]
      refine ⟨_, ⟨l', n, hi', rfl⟩, .serve (.inr ?_)⟩
      exact List.sublist_append_left (n :: l') [c]
  | heapAlloc ho he => exact hstay hi
  | heapNull ho he => exact hstay hi
  | heapFree hb => exact hstay hi
  | store hm => exact hstay hi

/-- The balance of two tasks over a trace. -/
theorem KernelTrace.balance {t : List (KernelRun × KernelCall × KernelRun)} (h : TurnOrder r o)
    (hne : i ≠ j) (hi : r.kernel.sched.state i ≠ .terminated)
    (hj : r.kernel.sched.state j ≠ .terminated)
    (ht : KernelTrace L r t r') (hsi : ∀ x ∈ t, Survives i x.1 x.2.1 x.2.2)
    (hsj : ∀ x ∈ t, Survives j x.1 x.2.1 x.2.2) :
    ∃ o', TurnOrder r' o' ∧
      (dispatches t).count i + front i j o' = (dispatches t).count j + front i j o := by
  have hsched : ∃ l c, SchedInv r.kernel.sched l c := by
    obtain ⟨l, c, hinv, -⟩ := h
    exact ⟨l, c, hinv⟩
  induction ht with
  | start => exact ⟨o, h, rfl⟩
  | @next t b b' call htr hs ih =>
      rw [List.forall_mem_cons] at hsi hsj
      obtain ⟨o₁, h₁, he⟩ := ih hsi.2 hsj.2
      obtain ⟨-, hli⟩ := KernelTrace.livesOn hsched hi htr hsi.2
      obtain ⟨-, hlj⟩ := KernelTrace.livesOn hsched hj htr hsj.2
      obtain ⟨o₂, h₂, hstep⟩ := hs.turns h₁
      have hboth := h₁.both hli.live hlj.live
      obtain ⟨l, c, hinv, -⟩ := h₁
      have hli' := (hs.livesOn hinv hli.live hsi.1).live
      have hlj' := (hs.livesOn hinv hlj.live hsj.1).live
      have hb := hstep.balance hboth (h₂.both hli' hlj') hne
      refine ⟨o₂, h₂, ?_⟩
      rw [dispatches_cons, List.count_append, List.count_append]
      dsimp only
      omega

end

/-- **Round robin is fair**: over any run from a reachable state on, two tasks that do not exit in
it are dispatched equally often, up to one dispatch. -/
theorem fair_dispatches {L : Linker} {idleFunc : Word} {s : Mmu} {r r' : KernelRun} {i j : Slot}
    {t : List (KernelRun × KernelCall × KernelRun)}
    (hr : Reachable L idleFunc s (fun _ _ => True) r) (hi : r.kernel.sched.state i ≠ .terminated)
    (hj : r.kernel.sched.state j ≠ .terminated) (ht : KernelTrace L r t r')
    (hsi : ∀ x ∈ t, Survives i x.1 x.2.1 x.2.2) (hsj : ∀ x ∈ t, Survives j x.1 x.2.1 x.2.2) :
    (dispatches t).count i ≤ (dispatches t).count j + 1 := by
  rcases eq_or_ne i j with rfl | hne
  · exact Nat.le_succ _
  · obtain ⟨l, c, hinv⟩ := hr.schedInv
    obtain ⟨o', -, he⟩ := KernelTrace.balance ⟨l, c, hinv, rfl⟩ hne hi hj ht hsi hsj
    have hle := front_le i j (l ++ [c])
    omega

/-- The idle task and the first kernel task. -/
theorem fair_dispatches_first_task : ∃ (r : KernelRun) (i : Slot), i ≠ 0 ∧
    ∀ t r', KernelTrace default r t r' → (∀ x ∈ t, x.2.1 ≠ .exit) →
      (dispatches t).count i ≤ (dispatches t).count 0 + 1 := by
  obtain ⟨k, stack, hk, hb⟩ := boot_total default 0 bssMmu
  obtain ⟨i, k', he, hne, hi⟩ := hb.create_total [] 0 0 0
  have hr : Reachable default 0 bssMmu (fun _ _ => True) ⟨k', [], fun _ => 0⟩ :=
    ⟨k, hk, .single ⟨_, trivial, .create he⟩⟩
  have hready : k'.sched.state i = .ready := (hi.ready i).mp (by simp)
  refine ⟨⟨k', [], fun _ => 0⟩, i, hne, fun t r' ht hno => ?_⟩
  refine fair_dispatches hr ?_ hi.idle ht (fun x hx he => absurd he (hno x hx))
    (fun x hx he => absurd he (hno x hx))
  show k'.sched.state i ≠ .terminated
  rw [hready]
  decide

end AArch64Os
