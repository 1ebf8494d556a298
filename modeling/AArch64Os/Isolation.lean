import AArch64Os.Ownership
import Mathlib.Data.List.Pairwise

/-! # User memory isolation

In every state of a run the current table is that of the current task, the table of a user
task maps its own program and stack and nothing else, and no page of one live task belongs to
another one or to the kernel (`user_memory_isolation`). -/

namespace AArch64Os

open ByteMem Relation

/-- What is promised about the memory of the tasks; `g` tells the pages that each task holds. -/
structure Isolated (r : KernelRun) (g : Slot → Holding) : Prop where
  /-- `TTBR0_EL1` was last written with `current_user_pgd`. -/
  ttbr0 : r.kernel.mmu.ttbr0 = BitVec.ofNat 64 r.kernel.mmu.currentUserPgd
  /-- That is the table of the current task, or `NULL` for a kernel task. -/
  current : ∃ c, r.kernel.sched.currentTask = some c ∧
    ((r.kernel.task c).level = .user →
      r.kernel.mmu.currentUserPgd = (r.kernel.task c).pageTable ∧
      (r.kernel.task c).pageTable ≠ 0) ∧
    ((r.kernel.task c).level = .kernel → r.kernel.mmu.currentUserPgd = 0)
  /-- A task finds its stacks on its own pages. -/
  stackPages : ∀ i, r.kernel.sched.state i ≠ .terminated →
    (r.kernel.task i).kernelStackBase = pageToPhys (g i).kstack ∧
    ((r.kernel.task i).level = .user →
      (r.kernel.task i).userStackBase = pageToPhys (g i).ustack ∧ (g i).order = r.order i)
  /-- The table of a user task maps its `2^order` program pages and its stack page, only. -/
  maps : ∀ i, LiveUser r.kernel.sched i → MapsExactly r.kernel.mmu.mem (r.kernel.task i).pageTable
    (g i).prog (2 ^ r.order i) (g i).ustack
  /-- The pages of a task are in use, and not those reserved for the kernel. -/
  used : ∀ i, ∀ b ∈ slotBlocks (r.kernel.task i) (g i), ∀ q, b.Has q →
    (r.kernel.pmm.pages q).flags = pageUsed ∧
    (pageToPhys q + pageSize ≤ kernelBase ∨ kernelBase + kernelSize ≤ pageToPhys q)
  /-- The pages of one task are apart from each other, -/
  own : ∀ i, (slotBlocks (r.kernel.task i) (g i)).Pairwise Block.Disjoint
  /-- and from those of every other task. -/
  disjoint : ∀ i j, i ≠ j → ∀ b ∈ slotBlocks (r.kernel.task i) (g i),
    ∀ b' ∈ slotBlocks (r.kernel.task j) (g j), b.Disjoint b'

theorem slotBlocks_sub (s : Sched) (g : Slot → Holding) (i : Slot) {b : Block}
    (hb : b ∈ slotBlocks (s.taskPool i) (g i)) : b ∈ liveBlocks s g :=
  List.mem_flatMap.mpr ⟨i, List.mem_finRange i, hb⟩

/-- The pages of the tasks are disjoint. -/
theorem Owns.disjoint {r : KernelRun} {g : Slot → Holding} {leaked : List Block}
    (h : Owns r g leaked) : (∀ i, (slotBlocks (r.kernel.task i) (g i)).Pairwise Block.Disjoint) ∧
    ∀ i j, i ≠ j → ∀ b ∈ slotBlocks (r.kernel.task i) (g i),
      ∀ b' ∈ slotBlocks (r.kernel.task j) (g j), b.Disjoint b' := by
  obtain ⟨hlive, -, -⟩ := List.pairwise_append.mp h.pmm.disjoint
  obtain ⟨hown, hother⟩ := List.pairwise_flatMap.mp hlive
  refine ⟨fun i => hown i (List.mem_finRange i), ?_⟩
  intro i j hij
  have : Std.Symm (fun i j : Slot => ∀ b ∈ slotBlocks (r.kernel.sched.taskPool i) (g i),
      ∀ b' ∈ slotBlocks (r.kernel.sched.taskPool j) (g j), b.Disjoint b') :=
    ⟨fun i j h b hb b' hb' => (h b' hb' b hb).symm⟩
  exact hother.forall (List.mem_finRange i) (List.mem_finRange j) hij

/-- A page in use is none of the reserved ones. -/
theorem PmmInv.used_region {s : Pmm} {live : List Block} (h : PmmInv s live) {b : Block}
    (hb : b ∈ live) {q : ℕ} (hq : b.Has q) : (s.pages q).flags = pageUsed ∧
      (pageToPhys q + pageSize ≤ kernelBase ∨ kernelBase + kernelSize ≤ pageToPhys q) := by
  obtain ⟨hlt, hu⟩ := h.used b hb q hq
  have hk : ¬ kernelPage q := by
    rw [← h.reserved q hlt, hu]
    decide
  refine ⟨hu, ?_⟩
  unfold kernelPage at hk
  simp only [pageToPhys, dramBase, pageSize, kernelBase, kernelSize]
  omega

theorem KernelInv.isolated {L : Linker} {r : KernelRun} {g : Slot → Holding} {σ : Spaces}
    {leaked : List Block} {dead : Set ℕ} (h : KernelInv L r g σ leaked dead) : Isolated r g where
  ttbr0 := h.tables.ttbr0
  current := by
    obtain ⟨l, c, hi⟩ := h.sched
    have hcur := h.tables.current c hi.current
    refine ⟨c, hi.current, ?_, ?_⟩
    · intro hu
      refine ⟨?_, h.tables.pageTable_ne_zero ⟨hi.current_live, hu⟩⟩
      rw [hcur, userTable, hu]
    · intro hk
      rw [hcur, userTable, hk]
  stackPages i hi := by
    have ht := h.owns.task i hi
    exact ⟨ht.kstack, fun hu => ⟨ht.ustack hu, (ht.order hu).1⟩⟩
  maps i hi := by
    have hb : ∀ b ∈ (g i).blocks .user, b ∈ liveBlocks r.kernel.sched g ++ (r.heap ++ leaked) := by
      intro b hb
      refine List.mem_append_left _ (slotBlocks_sub _ g i ?_)
      rw [slotBlocks_live hi.1, hi.2]
      exact hb
    have hstack := (h.owns.pmm.block_region (hb ⟨(g i).ustack, 0⟩ (by simp [Holding.blocks]))).1
    have hprog := (h.owns.pmm.block_region
      (hb ⟨(g i).prog, (g i).order⟩ (by simp [Holding.blocks]))).1
    obtain ⟨hord, hle⟩ := (h.owns.task i hi.1).order hi.2
    have hpow : 2 ^ (g i).order ≤ 8 := Nat.pow_le_pow_right (by decide) hle
    have hstack' : (g i).ustack < 16384 :=
      lt_of_lt_of_le (Nat.lt_add_of_pos_right (Nat.two_pow_pos _)) hstack
    rw [← hord]
    exact h.tables.refines.mapsExactly hpow hprog hstack' (h.tables.space i hi)
  used i b hb q hq :=
    h.owns.pmm.used_region (List.mem_append_left _ (slotBlocks_sub r.kernel.sched g i hb)) hq
  own := h.owns.disjoint.1
  disjoint := h.owns.disjoint.2

/-- **User memory isolation**, in every state that any order of creations, switches and exits
reaches, when the programs fit into their blocks. -/
theorem user_memory_isolation (L : Linker) (idleFunc : Word) (s : Mmu) {r : KernelRun}
    (h : Reachable L idleFunc s (fun c _ => c.Fits) r) : ∃ g, Isolated r g := by
  obtain ⟨g, σ, leaked, dead, hi⟩ := h.invariant
    (I := fun r => ∃ g σ leaked dead, KernelInv L r g σ leaked dead)
    (fun _ _ hb => ⟨_, _, _, _, hb.kernelInv⟩)
    (by
      rintro c r r' ⟨g, σ, leaked, dead, hi⟩ hfits hstep
      obtain ⟨g', σ', leaked', dead', hi', -⟩ := hstep.kernelInv hi hfits
      exact ⟨g', σ', leaked', dead', hi'⟩)
  exact ⟨g, hi.isolated⟩

/-- The state after `boot`, the creation of a user task and the switch to it. -/
theorem user_memory_isolation_first_user : ∃ r, (∃ g, Isolated r g) ∧
    ∃ i, r.kernel.sched.currentTask = some i ∧ LiveUser r.kernel.sched i := by
  obtain ⟨k, stack, hk, hb⟩ := boot_total default 0 bssMmu
  have hsize : (64 : Word).toNat ≤ pageSize := by decide
  obtain ⟨id, k', i, _, _, he, _, hi, _, hl⟩ := hb.first_user hsize [] 0x40500000 1
  obtain ⟨hi', ht⟩ := hi.dispatch
  refine ⟨⟨(schedule (taskYield k')).1, [], noteOrder (fun _ => 0) k.sched 64⟩,
    user_memory_isolation default 0 bssMmu ⟨k, hk, ?_⟩, i, ?_⟩
  · have hfits : (KernelCall.createUser [] 0x40500000 64 1).Fits := by
      show (64 : Word).toNat ≤ 8 * pageSize
      decide
    exact ((ReflTransGen.single ⟨_, hfits, .createUser he⟩).tail
      ⟨.yield, trivial, .yield _ _ _⟩).tail ⟨.tick, trivial, .tick _ _ _⟩
  · exact ⟨hi'.current, (ht.sameOwners.liveUser i).mpr hl⟩

end AArch64Os
