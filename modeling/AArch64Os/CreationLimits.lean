import AArch64Os.TableBudget
import AArch64Os.PmmExact
import Mathlib.Algebra.BigOperators.Fin
import Mathlib.Algebra.Order.BigOperators.Group.Finset

/-! # What limits the creation of tasks

Pages never do, as long as other kernel code leaves some: the tasks of a run hold a few, and what
`task_exit` forgets is bounded by the number of user tasks, of which there are at most four.  So
`task_create` fails exactly if all slots are taken, and `task_create_user` makes a task exactly
if there is a slot and fewer than four user tasks were created before (`creation_limits`). -/

namespace AArch64Os

open Runs

/-! ### Free runs -/

/-- The pages of a block. -/
def Block.pages (b : Block) : List ℕ := (List.range b.size).map (b.page + ·)

theorem Block.Has.mem_pages {b : Block} {q : ℕ} (h : b.Has q) : q ∈ b.pages := by
  obtain ⟨h1, h2⟩ := h
  exact List.mem_map.mpr ⟨q - b.page, List.mem_range.mpr (by omega), by omega⟩

theorem length_flatMap_pages (live : List Block) :
    (live.flatMap Block.pages).length = blockPages live := by
  rw [List.length_flatMap, blockPages]
  congr 1
  refine List.map_congr_left (fun b _ => ?_)
  simp [Block.pages]

/-- Outside the kernel there are 12288 pages, aligned runs one after the other; a page that is out
spoils one of them. -/
theorem PmmInv.freeRun_of_pages {s : Pmm} {live : List Block} {order : ℕ} (h : PmmInv s live)
    (ho : order ≤ maxOrder) (hroom : blockPages live * 2 ^ order < 12288) :
    ∃ p, FreeRun s order p := by
  have hn : s.numPages = 16384 := h.numPages.trans managedPages_eq
  have hpos : 0 < 2 ^ order := Nat.two_pow_pos order
  obtain ⟨a, ha⟩ : 2 ^ order ∣ 2 ^ maxOrder := Nat.pow_dvd_pow 2 ho
  have ha : 2 ^ order * a = 1024 := ha.symm
  by_contra hno
  have hhit : ∀ i ∈ Finset.range a ∪ Finset.Ico (5 * a) (16 * a),
      i ∈ ((live.flatMap Block.pages).map (· / 2 ^ order)).toFinset := by
    intro i hi
    rw [Finset.mem_union, Finset.mem_range, Finset.mem_Ico] at hi
    have hbounds : i * 2 ^ order + 2 ^ order ≤ 1024 ∨
        5120 ≤ i * 2 ^ order ∧ i * 2 ^ order + 2 ^ order ≤ 16384 := by
      rcases hi with hi | ⟨h1, h2⟩
      · have := Nat.mul_le_mul_right (2 ^ order) (Nat.succ_le_of_lt hi)
        rw [Nat.succ_mul, Nat.mul_comm a] at this
        omega
      · have h1 := Nat.mul_le_mul_right (2 ^ order) h1
        have h2 := Nat.mul_le_mul_right (2 ^ order) (Nat.succ_le_of_lt h2)
        rw [Nat.mul_assoc, Nat.mul_comm a] at h1 h2
        rw [Nat.succ_mul] at h2
        omega
    obtain ⟨j, hj, hused⟩ := (not_freeRun_iff (by omega)).mp (fun hr => hno ⟨i * 2 ^ order, hr⟩)
    have hlt : i * 2 ^ order + j < s.numPages := by omega
    have hk : ¬ kernelPage (i * 2 ^ order + j) := by
      unfold kernelPage
      omega
    rcases h.flags _ hlt with hf | hu | hr
    · exact absurd hf hused
    · obtain ⟨b, hb, hhas⟩ := h.cover _ hlt hu
      rw [List.mem_toFinset, List.mem_map]
      refine ⟨i * 2 ^ order + j, List.mem_flatMap.mpr ⟨b, hb, hhas.mem_pages⟩, ?_⟩
      rw [Nat.add_comm, Nat.add_mul_div_right _ _ hpos, Nat.div_eq_of_lt hj, Nat.zero_add]
    · exact absurd ((h.reserved _ hlt).mp hr) hk
  have hcard : (Finset.range a ∪ Finset.Ico (5 * a) (16 * a)).card = 12 * a := by
    rw [Finset.card_union_of_disjoint, Finset.card_range, Nat.card_Ico]
    · omega
    · rw [Finset.disjoint_left]
      intro i hi hi'
      rw [Finset.mem_range] at hi
      rw [Finset.mem_Ico] at hi'
      omega
  have hle : 12 * a ≤ blockPages live := by
    calc 12 * a = (Finset.range a ∪ Finset.Ico (5 * a) (16 * a)).card := hcard.symm
      _ ≤ ((live.flatMap Block.pages).map (· / 2 ^ order)).toFinset.card := Finset.card_le_card hhit
      _ ≤ ((live.flatMap Block.pages).map (· / 2 ^ order)).length := List.toFinset_card_le _
      _ = blockPages live := by rw [List.length_map, length_flatMap_pages]
  have hmul := Nat.mul_le_mul_right (2 ^ order) hle
  rw [Nat.mul_assoc, Nat.mul_comm a, ha] at hmul
  omega

/-- A user task gets its pages. -/
theorem PmmInv.userPages_isSome {s : Pmm} {live : List Block} (h : PmmInv s live)
    (hroom : blockPages live ≤ 1500) (binarySize : Word) :
    ∃ p s', userPages s binarySize = some (p, s') := by
  obtain ⟨kstack, s₁, h₁, hi₁⟩ := h.alloc_one (by omega)
  obtain ⟨ustack, s₂, h₂, hi₂⟩ := hi₁.alloc_one (by rw [blockPages_cons_page]; omega)
  have hpow := two_pow_blockOrder_le binarySize
  have hmax : blockOrder binarySize ≤ maxOrder := (blockOrder_le binarySize).trans (by decide)
  have hrun : ∃ p, FreeRun s₂ (blockOrder binarySize) p := by
    apply hi₂.freeRun_of_pages hmax
    refine (Nat.mul_le_mul_left _ hpow).trans_lt ?_
    rw [blockPages_cons_page, blockPages_cons_page]
    omega
  rcases hi₂.allocPages_takes hmax with ⟨-, hno⟩ | ⟨prog, s₃, h₃, -⟩
  · exact absurd hrun hno
  · refine ⟨⟨kstack, ustack, prog⟩, s₃, ?_⟩
    unfold userPages
    rw [h₁]
    dsimp only
    rw [h₂]
    dsimp only
    rw [h₃]

/-! ### What user tasks hold -/

/-- What a slot holds beside the kernel stack of its task: stack and program of a user task. -/
def slotHeld (t : Task) (order : ℕ) : ℕ :=
  if t.state = .terminated then 0
  else match t.level with
    | .kernel => 0
    | .user => 1 + 2 ^ order

/-- What all slots hold beside the kernel stacks. -/
def userHeld (s : Sched) (order : Slot → ℕ) : ℕ := ∑ i, slotHeld (s.taskPool i) (order i)

/-- Two sums that differ in one slot. -/
theorem sum_slot (f f' : Slot → ℕ) {i : Slot} (h : ∀ j, j ≠ i → f' j = f j) :
    ∑ j, f' j + f i = ∑ j, f j + f' i := by
  have hrest : ∑ j ∈ Finset.univ.erase i, f' j = ∑ j ∈ Finset.univ.erase i, f j :=
    Finset.sum_congr rfl (fun j hj => h j (Finset.ne_of_mem_erase hj))
  rw [← Finset.add_sum_erase _ f (Finset.mem_univ i),
    ← Finset.add_sum_erase _ f' (Finset.mem_univ i), hrest]
  omega

theorem slotHeld_congr {t t' : Task} {o o' : ℕ}
    (hs : t'.state = .terminated ↔ t.state = .terminated)
    (hr : t.state ≠ .terminated → t'.resources = t.resources)
    (ho : t.state ≠ .terminated → o' = o) :
    slotHeld t' o' = slotHeld t o := by
  unfold slotHeld
  by_cases ht : t.state = .terminated
  · rw [if_pos ht, if_pos (hs.mpr ht)]
  · rw [if_neg ht, if_neg (fun h => ht (hs.mp h)), level_of_resources (hr ht), ho ht]

section
variable {L : Linker} {k k' : Kernel} {r r' : KernelRun} {c : KernelCall} {g : Slot → Holding}
  {σ : Spaces} {leaked : List Block} {dead : Set ℕ} {t : List (KernelRun × KernelCall × KernelRun)}
  {s s' : Sched} {order order' : Slot → ℕ} {i : Slot} {n : ℕ}

theorem SameOwners.userHeld_eq (h : SameOwners s s')
    (ho : ∀ i, s.state i ≠ .terminated → order' i = order i) :
    userHeld s' order' = userHeld s order :=
  Finset.sum_congr rfl (fun i _ => slotHeld_congr (h.terminated i) (h.resources i) (ho i))

/-- A new task adds what it holds. -/
theorem Admits.userHeld_eq {x : Task} (h : Admits s s' i x) (ho : ∀ j, j ≠ i → order' j = order j) :
    userHeld s' order' = userHeld s order + slotHeld (s'.taskPool i) (order' i) := by
  have hfree : slotHeld (s.taskPool i) (order i) = 0 := if_pos h.free
  have hother : ∀ j, j ≠ i →
      slotHeld (s'.taskPool j) (order' j) = slotHeld (s.taskPool j) (order j) := by
    intro j hj
    obtain ⟨hstate, hres⟩ := h.other j hj
    have hterm : (s'.taskPool j).state = .terminated ↔ (s.taskPool j).state = .terminated := by
      rw [show (s'.taskPool j).state = (s.taskPool j).state from hstate]
    exact slotHeld_congr hterm (fun _ => hres) (fun _ => ho j hj)
  have hsum := sum_slot (fun j => slotHeld (s.taskPool j) (order j))
    (fun j => slotHeld (s'.taskPool j) (order' j)) hother
  rw [hfree, Nat.add_zero] at hsum
  exact hsum

/-- A task that ends takes away what it held. -/
theorem Drops.userHeld_eq (h : Drops s s' i) :
    userHeld s' order + slotHeld (s.taskPool i) (order i) = userHeld s order := by
  have hend : slotHeld (s'.taskPool i) (order i) = 0 := if_pos h.ended
  have hother : ∀ j, j ≠ i →
      slotHeld (s'.taskPool j) (order j) = slotHeld (s.taskPool j) (order j) := fun j hj =>
    slotHeld_congr (h.terminated j hj) (fun _ => h.resources j hj) (fun _ => rfl)
  have hsum := sum_slot (fun j => slotHeld (s.taskPool j) (order j))
    (fun j => slotHeld (s'.taskPool j) (order j)) hother
  rw [hend, Nat.add_zero] at hsum
  exact hsum

theorem slotHeld_kernel {x : Task} {o : ℕ} (h : x.level = .kernel) : slotHeld x o = 0 := by
  unfold slotHeld
  rw [h]
  split_ifs <;> rfl

theorem slotHeld_le {x : Task} {o : ℕ} (h : 2 ^ o ≤ 8) : slotHeld x o ≤ 9 := by
  unfold slotHeld
  split_ifs
  · omega
  · cases x.level with
    | kernel => exact Nat.zero_le 9
    | user =>
        show 1 + 2 ^ o ≤ 9
        omega

/-- What a task held covers the block that its exit forgets. -/
theorem forgotten_le {x : Task} {h : Holding} {o : ℕ} (hx : x.state ≠ .terminated)
    (ho : x.level = .user → h.order = o) : blockPages (forgotten x h) ≤ slotHeld x o := by
  unfold slotHeld forgotten
  rw [if_neg hx]
  cases hlevel : x.level with
  | kernel => exact Nat.le_refl 0
  | user =>
      rw [← ho hlevel]
      show 2 ^ h.order + 0 ≤ 1 + 2 ^ h.order
      omega

/-- The new user task of a slot holds nine pages at most. -/
theorem UserTaskCreated.userHeld_le {kstack ustack prog binary : ℕ} {binarySize : Word}
    {l : List Slot}
    {cur : Slot} (h : UserTaskCreated L k k' i kstack ustack prog binary binarySize)
    (hi : SchedInv k.sched l cur) (order : Slot → ℕ) :
    userHeld k'.sched (noteOrder order k.sched binarySize) ≤ userHeld k.sched order + 9 := by
  obtain ⟨_, s, _, hslot, ht, hs, -⟩ := h.task
  have hadmits : Admits k.sched k'.sched i _ := hs ▸ hslot.admits hi (findSlot_free h.slot) ht.state
  have hnote :
      noteOrder order k.sched binarySize = Function.update order i (blockOrder binarySize) := by
    unfold noteOrder
    rw [h.slot]
  have hother : ∀ j, j ≠ i → noteOrder order k.sched binarySize j = order j := fun j hj => by
    rw [hnote, Function.update_of_ne hj]
  rw [hadmits.userHeld_eq hother]
  apply Nat.add_le_add_left
  apply slotHeld_le
  rw [hnote, Function.update_self]
  exact two_pow_blockOrder_le binarySize

/-- A new kernel task holds its kernel stack only. -/
theorem KernelTaskCreated.userHeld_eq {stack : ℕ} {func arg : Word} {l : List Slot} {cur : Slot}
    (h : KernelTaskCreated L k k' i stack func arg) (hi : SchedInv k.sched l cur)
    (order : Slot → ℕ) : userHeld k'.sched order = userHeld k.sched order := by
  obtain ⟨x, hadmits, hx⟩ := h.admits hi
  have hlevel : (k'.sched.taskPool i).level = .kernel :=
    (level_of_resources hadmits.task).trans hx.level
  have hother : ∀ j, j ≠ i → order j = order j := fun _ _ => rfl
  rw [hadmits.userHeld_eq hother, slotHeld_kernel hlevel, Nat.add_zero]

/-- **A call adds nine pages at most**, what a new user task holds; the program that an exit forgets
was counted before. -/
theorem KernelStep.charge (h : KernelInv L r g σ leaked dead) (hfits : c.Fits)
    (hs : KernelStep L c r r') : ∃ g' σ' leaked' dead', KernelInv L r' g' σ' leaked' dead' ∧
      userHeld r'.kernel.sched r'.order + blockPages leaked' ≤
        userHeld r.kernel.sched r.order + blockPages leaked +
          if CreatesUser (r, c, r') then 9 else 0 := by
  by_cases hexit : c = .exit
  · subst hexit
    cases hs with
    | @exit k heap order hidle =>
        obtain ⟨l, cur, hi⟩ := h.sched
        have hcur : k.sched.currentTask = some cur := hi.current
        have hc : cur ≠ 0 := fun e => hidle (e ▸ hcur)
        obtain ⟨s, n, l', he, -, -, ht⟩ := taskExit_cases hi hc
        have hdrops := endTask_drops hi.current_live ht
        refine ⟨g, σ, _, _, h.exit hcur hc, ?_⟩
        have hsum : userHeld s order + slotHeld (k.sched.taskPool cur) (order cur) =
            userHeld k.sched order := hdrops.userHeld_eq
        have hforgotten : blockPages (forgotten (k.task cur) (g cur)) ≤
            slotHeld (k.sched.taskPool cur) (order cur) := forgotten_le hi.current_live
          (fun hl => ((h.owns.task cur hi.current_live).order hl).1)
        have hsched : (taskExit k).1.sched = s := by rw [he]
        have happend : blockPages (forgotten (k.task cur) (g cur) ++ leaked) =
            blockPages (forgotten (k.task cur) (g cur)) + blockPages leaked := by
          simp [blockPages]
        show userHeld (taskExit k).1.sched order + _ ≤ userHeld k.sched order + _ + _
        rw [hsched, happend]
        omega
  · obtain ⟨g', σ', leaked', dead', hinv', hkeep⟩ := hs.kernelInv h hfits
    refine ⟨g', σ', leaked', dead', hinv', ?_⟩
    rw [(hkeep (fun he => hexit he.1)).1]
    suffices hheld : userHeld r'.kernel.sched r'.order ≤
        userHeld r.kernel.sched r.order + if CreatesUser (r, c, r') then 9 else 0 by omega
    obtain ⟨l, cur, hi⟩ := h.sched
    have hsame : SameOwners r.kernel.sched r'.kernel.sched →
        (∀ j, r.kernel.sched.state j ≠ .terminated → r'.order j = r.order j) →
        userHeld r'.kernel.sched r'.order ≤
          userHeld r.kernel.sched r.order + if CreatesUser (r, c, r') then 9 else 0 :=
      fun ho hord => (ho.userHeld_eq hord).le.trans (Nat.le_add_right _ _)
    cases hs with
    | @create k k' heap order name func arg priority id he =>
        rcases taskCreate_cases hi.enabled he with hf | ⟨i, stack, hc⟩
        · exact hsame hf.sched.sameOwners (fun _ _ => rfl)
        · exact (hc.userHeld_eq hi order).le.trans (Nat.le_add_right _ _)
    | @createUser k k' heap order name binary binarySize priority id he =>
        rcases taskCreateUser_cases hi.enabled he with hf | ⟨i, kstack, ustack, prog, hc⟩
        · exact hsame hf.sched.sameOwners (fun _ hj => noteOrder_live hj)
        · rw [if_pos ⟨trivial, hc.taskCreated hi⟩]
          exact hc.userHeld_le hi order
    | yield k heap order =>
        obtain ⟨-, ht, -⟩ := taskYield_spec hi
        exact hsame ht.sameOwners (fun _ _ => rfl)
    | tick k heap order =>
        refine hsame ?_ (fun _ _ => rfl)
        rcases schedule_cases hi with ⟨s, he, -, ht, -⟩ | ⟨s, n, l', he, -, -, ht⟩
        · rw [he]
          exact ht.sameOwners
        · rw [he]
          exact ht.sameOwners
    | exit hidle => exact absurd rfl hexit
    | heapAlloc ho he => exact hsame (SameTasks.refl _).sameOwners (fun _ _ => rfl)
    | heapNull ho he => exact hsame (SameTasks.refl _).sameOwners (fun _ _ => rfl)
    | heapFree hb => exact hsame (SameTasks.refl _).sameOwners (fun _ _ => rfl)
    | store hm => exact hsame (SameTasks.refl _).sameOwners (fun _ _ => rfl)

/-- What user tasks hold and what their exits forgot, along a trace. -/
theorem KernelTrace.charge (h : KernelInv L r g σ leaked dead) (ht : KernelTrace L r t r')
    (hfits : ∀ x ∈ t, x.2.1.Fits) : ∃ g' σ' leaked' dead', KernelInv L r' g' σ' leaked' dead' ∧
      userHeld r'.kernel.sched r'.order + blockPages leaked' ≤
        userHeld r.kernel.sched r.order + blockPages leaked + 9 * userCreations t := by
  induction ht with
  | start => exact ⟨g, σ, leaked, dead, h, Nat.le_add_right _ _⟩
  | @next t b d call _ hs ih =>
      rw [List.forall_mem_cons] at hfits
      obtain ⟨g₁, σ₁, leaked₁, dead₁, hinv, hle⟩ := ih hfits.2
      obtain ⟨g', σ', leaked', dead', hinv', hle'⟩ := hs.charge hinv hfits.1
      refine ⟨g', σ', leaked', dead', hinv', hle'.trans ?_⟩
      rw [userCreations_cons]
      split_ifs <;> omega

/-- Beside that each slot holds one page at most. -/
theorem KernelInv.blockPages_le (h : KernelInv L r g σ leaked dead) :
    blockPages (liveBlocks r.kernel.sched g) ≤ 32 + userHeld r.kernel.sched r.order := by
  have hslot : ∀ i, blockPages (slotBlocks (r.kernel.sched.taskPool i) (g i)) ≤
      1 + slotHeld (r.kernel.sched.taskPool i) (r.order i) := by
    intro i
    by_cases hi : (r.kernel.sched.taskPool i).state = .terminated
    · rw [slotBlocks, if_pos hi]
      exact Nat.zero_le _
    · have horder := (h.owns.task i hi).order
      rw [slotBlocks_live hi, slotHeld, if_neg hi]
      cases hlevel : (r.kernel.sched.taskPool i).level with
      | kernel => exact Nat.le_refl 1
      | user =>
          rw [← (horder hlevel).1]
          simp only [Holding.blocks, blockPages, List.map_cons, List.map_nil, List.sum_cons,
            List.sum_nil, Block.size]
          omega
  calc blockPages (liveBlocks r.kernel.sched g)
      = ∑ i, blockPages (slotBlocks (r.kernel.sched.taskPool i) (g i)) := by
        rw [blockPages_liveBlocks, Fin.sum_univ_def]
    _ ≤ ∑ i : Slot, (1 + slotHeld (r.kernel.sched.taskPool i) (r.order i)) :=
        Finset.sum_le_sum (fun i _ => hslot i)
    _ = 32 + userHeld r.kernel.sched r.order := by
        rw [Finset.sum_add_distrib]
        rfl

end

/-- After `boot` there is only the idle task. -/
theorem Booted.userHeld_eq {L : Linker} {m : Mmu} {k : Kernel} {stack : ℕ}
    (h : Booted L m k stack) :
    userHeld k.sched (fun _ => 0) = 0 := by
  refine Finset.sum_eq_zero (fun i _ => ?_)
  by_cases hi : i = 0
  · subst hi
    exact slotHeld_kernel h.idle.1
  · exact if_pos (h.terminated i hi)

/-- Tasks hold 68 pages at most: a kernel stack a slot, and nine pages for each of four user tasks,
whether they still run or not. -/
theorem KernelTrace.pages_le {L : Linker} {idleFunc : Word} {s : Mmu} {k : Kernel} {r : KernelRun}
    {t : List (KernelRun × KernelCall × KernelRun)} (hk : boot L idleFunc s = some k)
    (ht : KernelTrace L ⟨k, [], fun _ => 0⟩ t r) (hfits : ∀ x ∈ t, x.2.1.Fits) :
    ∃ g σ leaked dead, KernelInv L r g σ leaked dead ∧
      blockPages (liveBlocks r.kernel.sched g) + blockPages leaked ≤ 68 := by
  obtain ⟨-, htables⟩ := KernelTrace.tables_of_boot hk ht hfits
  obtain ⟨k', stack, hk', hb⟩ := boot_total L idleFunc s
  obtain rfl : k' = k := Option.some.inj (hk'.symm.trans hk)
  obtain ⟨g, σ, leaked, dead, hinv, hcharge⟩ := KernelTrace.charge hb.kernelInv ht hfits
  refine ⟨g, σ, leaked, dead, hinv, ?_⟩
  have hfour := hinv.tables.refines.inv.nextOk.creations_le htables
  have hslots := hinv.blockPages_le
  have hnone : blockPages [] = 0 := rfl
  rw [hb.userHeld_eq, hnone] at hcharge
  omega

/-- With a slot and pages a creation that returns makes a task. -/
theorem taskCreateUser_creates {L : Linker} {k k' : Kernel} {i : Slot} {p : UserPages} {pmm : Pmm}
    {name : List (BitVec 8)} {binary : ℕ} {binarySize : Word} {priority id : BitVec 32}
    (hen : k.sched.schedEnabled = true) (hi : findSlot k.sched = some i)
    (hp : userPages k.pmm binarySize = some (p, pmm))
    (he : taskCreateUser L k name binary binarySize priority = some (id, k')) :
    UserTaskCreated L k k' i p.kstack p.ustack p.prog binary binarySize := by
  obtain ⟨s₁, s₂, h₁, h₂, h₃⟩ := userPages_some hp
  rw [taskCreateUser_eq hi h₁ h₂ h₃] at he
  exact finishUser_cases pmm hen hi (fun _ => userPages_inv hp) he

/-- A slot is free. -/
def FreeSlot (s : Sched) : Prop := ∃ i, s.state i = .terminated

theorem TaskCreated.freeSlot {s s' : Sched} (h : TaskCreated s s') : FreeSlot s := by
  obtain ⟨i, hi, -⟩ := h
  exact ⟨i, hi⟩

theorem findSlot_eq_none {s : Sched} (h : ¬ FreeSlot s) : findSlot s = none := by
  cases hi : findSlot s with
  | none => rfl
  | some i => exact absurd ⟨i, findSlot_free hi⟩ h

/-- **What limits creations**: in every state of every run from `boot` on in which other kernel code
holds at most 1024 pages, `task_create` returns and makes a task exactly if a slot is free;
`task_create_user` makes a task exactly if a slot is free and fewer than four user tasks were ever
created, and does not return exactly if a slot is free and four were. -/
theorem creation_limits {L : Linker} {idleFunc : Word} {s : Mmu} {k : Kernel} {r : KernelRun}
    {t : List (KernelRun × KernelCall × KernelRun)} (hk : boot L idleFunc s = some k)
    (ht : KernelTrace L ⟨k, [], fun _ => 0⟩ t r) (hfits : ∀ x ∈ t, x.2.1.Fits)
    (hheap : blockPages r.heap ≤ 1024) :
    (∀ name func arg priority, ∃ id k',
      taskCreate L r.kernel name func arg priority = some (id, k') ∧
      (TaskCreated r.kernel.sched k'.sched ↔ FreeSlot r.kernel.sched)) ∧
    ∀ name binary binarySize priority,
      ((∃ id k', taskCreateUser L r.kernel name binary binarySize priority = some (id, k') ∧
          TaskCreated r.kernel.sched k'.sched) ↔
        FreeSlot r.kernel.sched ∧ userCreations t < 4) ∧
      (taskCreateUser L r.kernel name binary binarySize priority = none ↔
        FreeSlot r.kernel.sched ∧ userCreations t = 4) := by
  obtain ⟨-, htables⟩ := KernelTrace.tables_of_boot hk ht hfits
  obtain ⟨g, σ, leaked, dead, hinv, htasks⟩ := KernelTrace.pages_le hk ht hfits
  obtain ⟨l, cur, hi⟩ := hinv.sched
  have hok : NextOk L r.kernel.mmu := hinv.tables.refines.inv.nextOk
  have hfour : userCreations t ≤ 4 := hok.creations_le htables
  have hpages : blockPages (liveBlocks r.kernel.sched g ++ (r.heap ++ leaked)) ≤ 1500 := by
    simp only [blockPages, List.map_append, List.sum_append] at htasks hheap ⊢
    omega
  refine ⟨fun name func arg priority => ?_, fun name binary binarySize priority => ?_⟩
  · by_cases hfree : FreeSlot r.kernel.sched
    · obtain ⟨i, hslot⟩ := findSlot_isSome hfree.choose_spec
      obtain ⟨stack, k', he, hc⟩ :=
        taskCreate_total hi.enabled hslot hinv.owns.pmm (by omega) name func arg priority
      obtain ⟨x, hadmits, -⟩ := hc.admits hi
      exact ⟨_, k', he, iff_of_true ⟨i, hadmits.free, hadmits.state⟩ hfree⟩
    · refine ⟨0, r.kernel, ?_, iff_of_false (fun h => hfree h.freeSlot) hfree⟩
      unfold taskCreate
      rw [findSlot_eq_none hfree]
  by_cases hfree : FreeSlot r.kernel.sched
  · obtain ⟨i, hslot⟩ := findSlot_isSome hfree.choose_spec
    obtain ⟨p, pmm, hp⟩ := hinv.owns.pmm.userPages_isSome hpages binarySize
    have hlt := (userPages_fresh (L := L) hinv.owns.pmm hp).prog_lt
    have hreturns := taskCreateUser_isSome_iff hok hslot hp hlt name binary priority
    rw [room_iff htables] at hreturns
    cases he : taskCreateUser L r.kernel name binary binarySize priority with
    | none =>
        rw [he] at hreturns
        have hall : ¬ userCreations t < 4 := fun h => Bool.false_ne_true (hreturns.mpr h)
        refine ⟨iff_of_false ?_ (fun h => hall h.2), iff_of_true rfl ⟨hfree, by omega⟩⟩
        rintro ⟨id, k', hk', -⟩
        cases hk'
    | some x =>
        obtain ⟨id, k'⟩ := x
        rw [he] at hreturns
        have hfew : userCreations t < 4 := hreturns.mp rfl
        have hcreated := (taskCreateUser_creates hi.enabled hslot hp he).taskCreated hi
        refine ⟨iff_of_true ⟨id, k', rfl, hcreated⟩ ⟨hfree, hfew⟩, iff_of_false ?_ ?_⟩
        · exact Option.some_ne_none _
        · intro h
          exact absurd h.2 (by omega)
  · have he : taskCreateUser L r.kernel name binary binarySize priority = some (0, r.kernel) := by
      unfold taskCreateUser
      rw [findSlot_eq_none hfree]
    rw [he]
    refine ⟨iff_of_false ?_ (fun h => hfree h.1),
      iff_of_false (Option.some_ne_none _) (fun h => hfree h.1)⟩
    rintro ⟨id, k', hk', hcreated⟩
    cases hk'
    exact hfree hcreated.freeSlot

/-- A user task was created and has exited: both kinds of tasks can be created. -/
theorem creation_limits_exit : ∃ k id₁ k₁ id₂ k₂ id₃ k₃, boot default 0 bssMmu = some k ∧
    taskCreateUser default k [] 0x40480000 64 10 = some (id₁, k₁) ∧
    TaskCreated k.sched k₁.sched ∧
    (∃ i, i ≠ 0 ∧ (schedule (taskYield k₁)).1.sched.currentTask = some i ∧
      (taskExit (schedule (taskYield k₁)).1).1.sched.state i = .terminated) ∧
    taskCreate default (taskExit (schedule (taskYield k₁)).1).1 [] 0x40480000 0 10 =
      some (id₂, k₂) ∧
    TaskCreated (taskExit (schedule (taskYield k₁)).1).1.sched k₂.sched ∧
    taskCreateUser default (taskExit (schedule (taskYield k₁)).1).1 [] 0x40480000 64 10 =
      some (id₃, k₃) ∧
    TaskCreated (taskExit (schedule (taskYield k₁)).1).1.sched k₃.sched := by
  obtain ⟨k, stack, hk, hb⟩ := boot_total default 0 bssMmu
  have hsize : (64 : Word).toNat ≤ pageSize := by decide
  have hfits : (KernelCall.createUser [] 0x40480000 64 10).Fits := by
    show (64 : Word).toNat ≤ 8 * pageSize
    decide
  obtain ⟨id₁, k₁, i, -, -, he, -, hi, hi0, hl⟩ := hb.first_user hsize [] 0x40480000 10
  obtain ⟨hdispatch, -⟩ := hi.dispatch
  obtain ⟨-, hend⟩ := hdispatch.exit hi0
  have hrun : KernelTrace default ⟨k, [], fun _ => 0⟩ _ _ :=
    .next (.next (.next (.next .start (.createUser he)) (.yield _ _ _)) (.tick _ _ _))
      (.exit (hdispatch.current_ne_idle hi0))
  have hcreated : TaskCreated k.sched k₁.sched := ⟨i, hb.terminated i hi0, hl.1⟩
  have hfree : FreeSlot (taskExit (schedule (taskYield k₁)).1).1.sched := ⟨i, hend⟩
  obtain ⟨hkernel, huser⟩ := creation_limits hk hrun
    (by simp only [List.forall_mem_cons]; exact ⟨trivial, trivial, trivial, hfits, by simp⟩)
    (Nat.zero_le _)
  obtain ⟨id₂, k₂, he₂, hc₂⟩ := hkernel [] 0x40480000 0 10
  -- one user task was created
  rw [userCreations_cons_of_not, userCreations_cons_of_not, userCreations_cons_of_not,
    userCreations_cons, if_pos ⟨trivial, hcreated⟩] at huser
  · obtain ⟨id₃, k₃, he₃, hc₃⟩ := (huser [] 0x40480000 64 10).1.mpr ⟨hfree, by decide⟩
    exact ⟨k, id₁, k₁, id₂, k₂, id₃, k₃, hk, he, hcreated, ⟨i, hi0, hdispatch.current, hend⟩, he₂,
      hc₂.mpr hfree, he₃, hc₃⟩
  all_goals exact id

end AArch64Os
