import AArch64Os.FailedCreation
import AArch64Os.PmmExact
import AArch64Os.TaskIds

/-! # The user loader

`task_create_user` copies `binary_size` bytes whatever the size of the block it allocated, which is
eight pages at most.  A program that fits is what the new task finds at `USER_PROG_BASE`, unless
the block lies inside the binary itself, where the copy overwrites what it is about to read
(`user_loader_iff`). -/

namespace AArch64Os

open ByteMem

/-- Byte `x` of the memory is in the program block. -/
def ProgramByte (p : UserPages) (binarySize : Word) (x : ℕ) : Prop :=
  pageToPhys p.prog ≤ x ∧ x < pageToPhys p.prog + pageSize * 2 ^ blockOrder binarySize

/-- What a creation may write: the program block, the page tables and the saved registers of the
slot, where a slot and pages are found. -/
def CreationByte (L : Linker) (k : Kernel) (binarySize : Word) (x : ℕ) : Prop :=
  ∃ i p pmm, findSlot k.sched = some i ∧ userPages k.pmm binarySize = some (p, pmm) ∧
    (ProgramByte p binarySize x ∨ (L.pageTablesStart ≤ x ∧ x < L.pageTablesEnd) ∨
      (L.context i ≤ x ∧ x < L.context i + frameSize))

/-- The loader is correct in the state `k`: the call returns, with 0 or with a new task that finds
its program, and all of the memory is as before but for what a creation may write; the copy, where
one is made, stores to the block alone. -/
structure LoaderCorrect (L : Linker) (k : Kernel) (name : List (BitVec 8)) (binary : ℕ)
    (binarySize : Word) (priority : BitVec 32) : Prop where
  returns : ∃ id k', taskCreateUser L k name binary binarySize priority = some (id, k') ∧
    (id = 0 ∨ ∃ i, NewTask k k' i ∧ ∀ j < binarySize.toNat,
      k'.el0Byte (k'.task i).pageTable (userProgBase + BitVec.ofNat 64 j) =
        some (k.mmu.mem (binary + j))) ∧
    ∀ x, ¬ CreationByte L k binarySize x → k'.mmu.mem x = k.mmu.mem x
  inside : ∀ i p pmm, findSlot k.sched = some i → userPages k.pmm binarySize = some (p, pmm) →
    ∀ w ∈ k.mmu.mem.copyStores (pageToPhys p.prog) binary binarySize.toNat,
      ProgramByte p binarySize w.1

/-- Where the block starts inside the binary, the copy leaves the program as it was. -/
def Intact (m : Mem) (dst src n : ℕ) : Prop :=
  ∀ j < n, m (src + Mem.copiedFrom dst src j) = m (src + j)

section
variable {L : Linker} {k k' : Kernel} {i : Slot} {p : UserPages} {pmm : Pmm} {binary : ℕ}
  {binarySize : Word} {live : List Block}

/-- The copy stays inside the block exactly if the program fits into eight pages. -/
theorem copy_inside_iff (m : Mem) (p : UserPages) (binary : ℕ) :
    (∀ w ∈ m.copyStores (pageToPhys p.prog) binary binarySize.toNat, ProgramByte p binarySize w.1) ↔
    binarySize.toNat ≤ 8 * pageSize := by
  constructor
  · intro h
    by_contra hbig
    have hle := Nat.mul_le_mul_left pageSize (two_pow_blockOrder_le binarySize)
    have hi : pageSize * 2 ^ blockOrder binarySize < binarySize.toNat := by omega
    obtain ⟨b, hb⟩ := m.exists_copyStore (pageToPhys p.prog) binary hi
    exact absurd (h _ hb).2 (lt_irrefl _)
  · intro hfits w hw
    obtain ⟨h1, h2⟩ := Mem.mem_copyStores hw
    have hblock := blockOrder_fits hfits
    rw [Nat.mul_comm] at hblock
    exact ⟨h1, by omega⟩

/-- With a program that fits, a creation changes nothing but what it may write. -/
theorem CreatedAt.frame (h : CreatedAt L k k' i p binary binarySize)
    (hfits : binarySize.toNat ≤ 8 * pageSize) {x : ℕ} (hx : ¬ CreationByte L k binarySize x) :
    k'.mmu.mem x = k.mmu.mem x := by
  obtain ⟨pmm, hp⟩ := h.pages
  have hnot : ¬ (ProgramByte p binarySize x ∨ (L.pageTablesStart ≤ x ∧ x < L.pageTablesEnd) ∨
      (L.context i ≤ x ∧ x < L.context i + frameSize)) :=
    fun hb => hx ⟨i, p, pmm, h.created.slot, hp, hb⟩
  obtain ⟨hblock, hnot⟩ := not_or.mp hnot
  obtain ⟨htab, hctx⟩ := not_or.mp hnot
  rw [h.created.copied h.nextOk h.fresh (by omega) (by omega)]
  apply Mem.copy_outside
  rintro ⟨h1, h2⟩
  have hsize := blockOrder_fits hfits
  rw [Nat.mul_comm] at hsize
  exact hblock ⟨h1, by omega⟩

theorem userProgBase_add (j : ℕ) :
    userProgBase + BitVec.ofNat 64 j = BitVec.ofNat 64 (0x400000 + j) := by
  rw [BitVec.ofNat_add]
  rfl

/-- A task whose program fits finds it exactly if the copy left it as it was. -/
theorem CreatedAt.program_iff (h : CreatedAt L k k' i p binary binarySize)
    (hfits : binarySize.toNat ≤ 8 * pageSize) :
    (∀ j < binarySize.toNat, k'.el0Byte (k'.task i).pageTable (userProgBase + BitVec.ofNat 64 j) =
      some (k.mmu.mem (binary + j))) ↔
    Intact k.mmu.mem (pageToPhys p.prog) binary binarySize.toNat := by
  obtain ⟨l, cur, hi⟩ := h.sched
  have hblock := blockOrder_fits hfits
  rw [Nat.mul_comm] at hblock
  refine forall₂_congr (fun j hj => ?_)
  rw [h.created.el0Byte hi h.nextOk h.fresh, userProgBase_add,
    h.fresh.view_program (by omega), Mem.copy_apply hj, Option.some_inj]

/-- With a slot and pages a creation that returns has made a task. -/
theorem Reachable.createdUser {idleFunc : Word} {s : Mmu} {r : KernelRun}
    (hr : Reachable L idleFunc s (fun _ _ => True) r) (hi : findSlot r.kernel.sched = some i)
    (hp : userPages r.kernel.pmm binarySize = some (p, pmm)) {name : List (BitVec 8)}
    {priority id : BitVec 32}
    (he : taskCreateUser L r.kernel name binary binarySize priority = some (id, k')) :
    id = r.kernel.sched.nextTaskId ∧ NewTask r.kernel k' i ∧
      CreatedAt L r.kernel k' i p binary binarySize := by
  obtain ⟨⟨l, cur, hs⟩, ⟨live, hpmm⟩, hn⟩ := hr.creationInv
  obtain ⟨s₁, s₂, h₁, h₂, h₃⟩ := userPages_some hp
  rw [taskCreateUser_eq hi h₁ h₂ h₃] at he
  obtain ⟨hid, ht⟩ := finishUser_idTaken hs (findSlot_free hi) he
  exact ⟨hid, ⟨ht.free, ht.live⟩, ⟨l, cur, hs⟩, hn, ⟨pmm, hp⟩,
    finishUser_cases pmm hs.enabled hi (fun _ => userPages_inv hp) he, userPages_fresh hpmm hp⟩

/-- A creation with a slot, with pages and with room for its tables. -/
theorem Reachable.loads {idleFunc : Word} {s : Mmu} {r : KernelRun}
    (hr : Reachable L idleFunc s (fun _ _ => True) r) (hi : findSlot r.kernel.sched = some i)
    (hp : userPages r.kernel.pmm binarySize = some (p, pmm))
    (hroom : r.kernel.mmu.next L + 6 * pageSize ≤ L.pageTablesEnd) (name : List (BitVec 8))
    (binary : ℕ) (priority : BitVec 32) :
    ∃ k', taskCreateUser L r.kernel name binary binarySize priority =
        some (r.kernel.sched.nextTaskId, k') ∧ NewTask r.kernel k' i ∧
      CreatedAt L r.kernel k' i p binary binarySize := by
  obtain ⟨-, ⟨live, hpmm⟩, hn⟩ := hr.creationInv
  have hlt : p.prog < 16384 := (userPages_fresh (L := L) hpmm hp).prog_lt
  obtain ⟨⟨id, k'⟩, he⟩ := Option.isSome_iff_exists.mp
    ((taskCreateUser_isSome_iff hn hi hp hlt name binary priority).mpr hroom)
  obtain ⟨rfl, hnew, hc⟩ := hr.createdUser hi hp he
  exact ⟨k', he, hnew, hc⟩

/-- No block lies in the kernel, so that the copy of a binary in the kernel does not meet it. -/
theorem PmmInv.intact_kernel {s s' : Pmm} (h : PmmInv s live)
    (hp : userPages s binarySize = some (p, s')) (m : Mem)
    (hin : kernelBase ≤ binary ∧ binary + binarySize.toNat ≤ kernelBase + kernelSize) :
    Intact m (pageToPhys p.prog) binary binarySize.toNat := by
  have hregion : pageToPhys p.prog + 2 ^ blockOrder binarySize * pageSize ≤ kernelBase ∨
      kernelBase + kernelSize ≤ pageToPhys p.prog :=
    ((userPages_inv hp h).block_region (b := ⟨p.prog, blockOrder binarySize⟩) (by simp)).2
  intro j hj
  have hsame : Mem.copiedFrom (pageToPhys p.prog) binary j = j := by
    unfold Mem.copiedFrom
    split_ifs with hlt
    · exact Nat.mod_eq_of_lt (by omega)
    · rfl
  rw [hsame]

end

/-- **When the user loader is correct**: where it finds a slot and pages, there must be room for six
page tables and the program must fit into eight pages; where it also has an identifier to return,
the copy must leave the program as it was. -/
theorem user_loader_iff {L : Linker} {idleFunc : Word} {s : Mmu} {r : KernelRun}
    (hr : Reachable L idleFunc s (fun _ _ => True) r) (name : List (BitVec 8)) (binary : ℕ)
    (binarySize : Word) (priority : BitVec 32) :
    LoaderCorrect L r.kernel name binary binarySize priority ↔
      ∀ i p pmm, findSlot r.kernel.sched = some i →
        userPages r.kernel.pmm binarySize = some (p, pmm) →
        r.kernel.mmu.next L + 6 * pageSize ≤ L.pageTablesEnd ∧
        binarySize.toNat ≤ 8 * pageSize ∧
        (r.kernel.sched.nextTaskId ≠ 0 →
          Intact r.kernel.mmu.mem (pageToPhys p.prog) binary binarySize.toNat) := by
  obtain ⟨⟨l, cur, hs⟩, ⟨live, hpmm⟩, hn⟩ := hr.creationInv
  constructor
  · intro h i p pmm hi hp
    have hfits := (copy_inside_iff _ p binary).mp (h.inside i p pmm hi hp)
    obtain ⟨id, k', he, hresult, -⟩ := h.returns
    have hlt : p.prog < 16384 := (userPages_fresh (L := L) hpmm hp).prog_lt
    refine ⟨(taskCreateUser_isSome_iff hn hi hp hlt name binary priority).mp ?_, hfits,
      fun hid => ?_⟩
    · rw [he]
      rfl
    · obtain ⟨rfl, hnew, hc⟩ := hr.createdUser hi hp he
      obtain ⟨j, hj, hbytes⟩ := hresult.resolve_left hid
      obtain rfl := (hc.created.newTask_iff hs j).mp hj
      exact (hc.program_iff hfits).mp hbytes
  · intro h
    refine ⟨?_, fun i p pmm hi hp => (copy_inside_iff _ p binary).mpr (h i p pmm hi hp).2.1⟩
    by_cases hno : findSlot r.kernel.sched = none ∨ userPages r.kernel.pmm binarySize = none
    · obtain ⟨k', he, hf, -⟩ := hr.lacks hno name binary priority
      exact ⟨0, k', he, .inl rfl, fun x _ => congrArg (fun m : Mmu => m.mem x) hf.mmu⟩
    · obtain ⟨hslot, hpages⟩ := not_or.mp hno
      obtain ⟨i, hi⟩ := Option.ne_none_iff_exists'.mp hslot
      obtain ⟨⟨p, pmm⟩, hp⟩ := Option.ne_none_iff_exists'.mp hpages
      obtain ⟨hroom, hfits, hintact⟩ := h i p pmm hi hp
      obtain ⟨k', he, hnew, hc⟩ := hr.loads hi hp hroom name binary priority
      refine ⟨_, k', he, ?_, fun x hx => hc.frame hfits hx⟩
      by_cases hzero : r.kernel.sched.nextTaskId = 0
      · exact .inl hzero
      · exact .inr ⟨i, hnew, (hc.program_iff hfits).mpr (hintact hzero)⟩

theorem blockPages_of_pages {live : List Block} (h : ∀ b ∈ live, b.order = 0) :
    blockPages live = live.length := by
  induction live with
  | nil => rfl
  | cons b live ih =>
      obtain ⟨p, o⟩ := b
      obtain ⟨rfl, hrest⟩ := List.forall_mem_cons.mp h
      rw [blockPages_cons_page, ih hrest, List.length_cons]

/-- While only single pages are out, and few, there are pages for a program of any size. -/
theorem PmmInv.userPages_few {s : Pmm} {live : List Block} (h : PmmInv s live)
    (hpages : ∀ b ∈ live, b.order = 0) (hfew : live.length ≤ 100) (binarySize : Word) :
    ∃ p s', userPages s binarySize = some (p, s') := by
  have hcount := blockPages_of_pages hpages
  obtain ⟨kstack, s₁, h₁, hp₁⟩ := h.alloc_one (by omega)
  obtain ⟨ustack, s₂, h₂, hp₂⟩ := hp₁.alloc_one (by rw [blockPages_cons_page]; omega)
  have hmax : blockOrder binarySize ≤ maxOrder := (blockOrder_le _).trans (by decide)
  have hrun : ∃ p, FreeRun s₂ (blockOrder binarySize) p := by
    refine hp₂.freeRun_of_few ?_ ?_
    · simpa using hpages
    · have := Nat.mul_le_mul_left (live.length + 3) (two_pow_blockOrder_le binarySize)
      show (live.length + 3) * 2 ^ blockOrder binarySize ≤ 1024
      omega
  obtain ⟨l, hl⟩ := hp₂.list
  rcases hp₂.allocPages_cases hl.chain hmax with ⟨-, hno⟩ | ⟨prog, s₃, h₃, -⟩
  · exact absurd hrun hno
  · refine ⟨⟨kstack, ustack, prog⟩, s₃, ?_⟩
    simp only [userPages, show AArch64Os.allocPages s 0 = _ from h₁,
      show AArch64Os.allocPages s₁ 0 = _ from h₂, h₃]

/-- After `boot` there are a slot, pages and page tables for a user task with a program of any
size. -/
theorem boot_resources {k : Kernel} {stack : ℕ} (hb : Booted default bssMmu k stack)
    (binarySize : Word) :
    ∃ i p pmm, findSlot k.sched = some i ∧ userPages k.pmm binarySize = some (p, pmm) ∧
      k.mmu.next default + 6 * pageSize ≤ (default : Linker).pageTablesEnd := by
  obtain ⟨i, hi⟩ := hb.sched.findSlot_isSome (by decide)
  obtain ⟨p, pmm, hp⟩ := hb.pmm.userPages_few (by simp) (by simp) binarySize
  refine ⟨i, p, pmm, hi, hp, ?_⟩
  obtain ⟨mmu, -, hready, m, hm, -⟩ := hb.mmu
  have hn : k.mmu.next default = mmu.next default := by
    rw [hm]
    rfl
  have hready := hready.room
  have hend := (default : Linker).end_eq
  have hpage : pageSize = 4096 := rfl
  omega

/-- The first user task finds its program of a page. -/
theorem user_loader_iff_first : ∃ k k' i, boot default 0 bssMmu = some k ∧
    taskCreateUser default k [] 0x40480000 0x1000 1 = some (2, k') ∧ NewTask k k' i ∧
    ∀ j < 0x1000, k'.el0Byte (k'.task i).pageTable (userProgBase + BitVec.ofNat 64 j) =
      some (k.mmu.mem (0x40480000 + j)) := by
  obtain ⟨k, stack, hk, hb⟩ := boot_total default 0 bssMmu
  obtain ⟨i, p, pmm, hi, hp, hroom⟩ := boot_resources hb 0x1000
  have hid : k.sched.nextTaskId = 2 := (boot_idInv hk).2.nextTaskId
  have hr : Reachable default 0 bssMmu (fun _ _ => True) ⟨k, [], fun _ => 0⟩ := ⟨k, hk, .refl⟩
  have hcorrect : LoaderCorrect default k [] 0x40480000 0x1000 1 := by
    refine (user_loader_iff hr [] 0x40480000 0x1000 1).mpr (fun _ p pmm _ hp => ?_)
    exact ⟨hroom, by decide, fun _ => hb.pmm.intact_kernel hp _ (by decide)⟩
  obtain ⟨id, k', he, hresult, -⟩ := hcorrect.returns
  obtain ⟨rfl, -⟩ := hr.createdUser hi hp he
  obtain ⟨j, hnew, hbytes⟩ := hresult.resolve_left (by rw [hid]; decide)
  exact ⟨k, k', j, hk, hid ▸ he, hnew, hbytes⟩

/-- A program of nine pages is copied over the end of its block. -/
theorem user_loader_nine_pages : ∃ k, boot default 0 bssMmu = some k ∧
    ¬ LoaderCorrect default k [] 0x40480000 0x9000 1 := by
  obtain ⟨k, stack, hk, hb⟩ := boot_total default 0 bssMmu
  refine ⟨k, hk, fun h => ?_⟩
  obtain ⟨i, p, pmm, hi, hp, -⟩ := boot_resources hb 0x9000
  have hfits := (copy_inside_iff _ p _).mp (h.inside i p pmm hi hp)
  exact absurd hfits (by decide)

end AArch64Os
