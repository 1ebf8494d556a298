import AArch64Os.Lib.A64Decode
import AArch64Os.TaskLives
import AArch64Os.UserLoader
import AArch64Os.UserMemory

/-! # What a user task executes

A task executes the words that it fetches through its own page table, one byte at a time as
`mmu_get_physical` walks the tables.  The image of a program is `.text` from its first byte on and
`.rodata` on the second page.  A task that `task_create_user` has made of an image fetches the
instructions of its program (`Loaded.hasCode`), and goes on to do so until it ends
(`HasCode.keeps`). -/

namespace AArch64Os

open A64 ByteMem Flow Relation

/-- The call of the kernel. -/
inductive UserTrap
  | svc
deriving DecidableEq

abbrev UserInstr := Instr AluOp Cond UserTrap

instance (d : Word) : Decidable (El0Executes d) := inferInstanceAs (Decidable (_ = _))

/-- The word that code at EL0 fetches at `va` through the table `root`. -/
def Kernel.el0Fetch (k : Kernel) (root : ℕ) (va : Word) : Option (BitVec 32) :=
  if El0Executes (leafEntry k.mmu.mem root va) then
    (k.el0Byte root va).bind fun b₀ => (k.el0Byte root (va + 1)).bind fun b₁ =>
      (k.el0Byte root (va + 2)).bind fun b₂ => (k.el0Byte root (va + 3)).map fun b₃ =>
        b₃ ++ b₂ ++ b₁ ++ b₀
  else none

/-- The instruction at position `pc` of the program of the task. -/
def Kernel.instrAt (k : Kernel) (i : Slot) (pc : ℕ) : Option UserInstr :=
  (k.el0Fetch (k.task i).pageTable (addrOf userProgBase pc)).bind
    (decode (fun _ => .svc) userProgBase pc)

/-- The task fetches the instructions of `code`. -/
def HasCode (k : Kernel) (i : Slot) (code : List UserInstr) : Prop :=
  ∀ pc ins, code[pc]? = some ins → k.instrAt i pc = some ins

section
variable {L : Linker} {k k' : Kernel} {i : Slot} {code : List UserInstr}

/-- The task fetches the same words after the call. -/
theorem KeepsTask.el0Fetch (h : KeepsTask k k' i) (va : Word) :
    k'.el0Fetch (k'.task i).pageTable va = k.el0Fetch (k.task i).pageTable va := by
  have hbyte : ∀ va, k'.el0Byte (k.task i).pageTable va = k.el0Byte (k.task i).pageTable va := by
    intro va
    rw [← h.el0Byte, h.pageTable]
  unfold Kernel.el0Fetch
  rw [h.pageTable]
  simp only [h.leaf, hbyte]

theorem HasCode.keeps (h : HasCode k i code) (hk : KeepsTask k k' i) : HasCode k' i code := by
  intro pc ins hpc
  rw [← h pc ins hpc]
  unfold Kernel.instrAt
  rw [hk.el0Fetch]

/-- A word of four bytes that can be loaded from a page that can be executed. -/
theorem el0Fetch_of_bytes {root : ℕ} {va : Word} {w : BitVec 32}
    (hx : El0Executes (leafEntry k.mmu.mem root va))
    (hb : ∀ t < 4, k.el0Byte root (va + BitVec.ofNat 64 t) = some (wordByte w t)) :
    k.el0Fetch root va = some w := by
  have h0 := hb 0 (by decide)
  rw [show va + BitVec.ofNat 64 0 = va from BitVec.add_zero va] at h0
  unfold Kernel.el0Fetch
  rw [if_pos hx, h0, show k.el0Byte root (va + 1) = _ from hb 1 (by decide),
    show k.el0Byte root (va + 2) = _ from hb 2 (by decide),
    show k.el0Byte root (va + 3) = _ from hb 3 (by decide)]
  exact congrArg some (joinBytes_wordByte w)

end

/-! ### Images -/

/-- A program: the words of `.text` and the bytes of `.rodata`. -/
structure UserProgram where
  text : List (BitVec 32)
  rodata : List (BitVec 8)

/-- The image of a program, which is linked into the kernel: `.text`, and `.rodata` on the page
behind it. -/
structure UserImage (m : Mem) (binary : ℕ) (binarySize : Word) (prog : UserProgram) : Prop where
  inKernel : kernelBase ≤ binary ∧ binary + binarySize.toNat ≤ kernelBase + kernelSize
  fits : binarySize.toNat ≤ 8 * pageSize
  size : 0x1000 + prog.rodata.length ≤ binarySize.toNat
  textSize : 4 * prog.text.length ≤ 0x1000
  text : ∀ j w, prog.text[j]? = some w → ∀ t < 4, m (binary + (4 * j + t)) = wordByte w t
  rodata : ∀ j c, prog.rodata[j]? = some c → m (binary + (0x1000 + j)) = c

/-- A task that `task_create_user` has made of an image in a reachable state. -/
structure Loaded (L : Linker) (idleFunc : Word) (s : Mmu) (r : KernelRun) (binary : ℕ)
    (binarySize : Word) (prog : UserProgram) (k' : Kernel) (i : Slot) : Prop where
  reachable : Reachable L idleFunc s (fun c _ => c.Fits) r
  created :
    ∃ name priority id, taskCreateUser L r.kernel name binary binarySize priority = some (id, k')
  new : NewTask r.kernel k' i
  image : UserImage r.kernel.mmu.mem binary binarySize prog

section
variable {L : Linker} {idleFunc : Word} {s : Mmu} {r : KernelRun} {k' : Kernel} {i : Slot}
  {binary : ℕ} {binarySize : Word} {prog : UserProgram}

theorem Reachable.mono {ok ok' : KernelCall → KernelRun → Prop} (h : Reachable L idleFunc s ok r)
    (hok : ∀ c r, ok c r → ok' c r) : Reachable L idleFunc s ok' r := by
  obtain ⟨k, hk, hrun⟩ := h
  refine ⟨k, hk, ReflTransGen.mono ?_ _ _ hrun⟩
  rintro a b ⟨c, hc, hs⟩
  exact ⟨c, hok c a hc, hs⟩

/-- The state after the creation. -/
def afterCreation (r : KernelRun) (binarySize : Word) (k' : Kernel) : KernelRun :=
  ⟨k', r.heap, noteOrder r.order r.kernel.sched binarySize⟩

theorem Loaded.createdAt (h : Loaded L idleFunc s r binary binarySize prog k' i) :
    ∃ p, CreatedAt L r.kernel k' i p binary binarySize := by
  obtain ⟨name, priority, id, he⟩ := h.created
  exact (h.reachable.mono (fun _ _ _ => trivial)).createdAt he h.new

theorem Loaded.keeping (h : Loaded L idleFunc s r binary binarySize prog k' i) :
    Keeping L k' i (afterCreation r binarySize k') := by
  obtain ⟨name, priority, id, he⟩ := h.created
  obtain ⟨p, hc⟩ := h.createdAt
  obtain ⟨l, cur, hi⟩ := hc.sched
  obtain ⟨_, t, _, hslot, ht, hs, -⟩ := hc.created.task
  have ha : Admits r.kernel.sched k'.sched i (t.taskPool i) :=
    hs ▸ hslot.admits hi (findSlot_free hc.created.slot) ht.state
  have hl : LiveUser k'.sched i := ⟨h.new.2, (level_of_resources ha.task).trans ht.level⟩
  obtain ⟨k, hk, hrun⟩ := h.reachable
  have hreach : Reachable L idleFunc s (fun c _ => c.Fits) (afterCreation r binarySize k') :=
    ⟨k, hk, hrun.tail ⟨.createUser name binary binarySize priority, h.image.fits, .createUser he⟩⟩
  exact ⟨hreach.kernelInv, .refl hl⟩

/-- A task can execute its program block. -/
theorem CreatedAt.executes {p : UserPages} (h : CreatedAt L r.kernel k' i p binary binarySize)
    {y : ℕ} (hy : y < pageSize) :
    El0Executes (leafEntry k'.mmu.mem (k'.task i).pageTable
      (userProgBase + BitVec.ofNat 64 y)) := by
  obtain ⟨l, cur, hi⟩ := h.sched
  have hblock := Nat.mul_le_mul_left pageSize (Nat.one_le_two_pow (n := blockOrder binarySize))
  obtain ⟨-, -, d, hleaf, -, -, -, hx⟩ := h.fresh.program_page (y := y) (by omega)
  rw [h.created.leaf hi h.nextOk h.fresh, userProgBase_add, hleaf]
  exact hx

/-- The task loads the bytes of the image. -/
theorem Loaded.byte (h : Loaded L idleFunc s r binary binarySize prog k' i) {j : ℕ}
    (hj : j < binarySize.toNat) :
    k'.el0Byte (k'.task i).pageTable (userProgBase + BitVec.ofNat 64 j) =
      some (r.kernel.mmu.mem (binary + j)) := by
  obtain ⟨p, hc⟩ := h.createdAt
  obtain ⟨pmm, hp⟩ := hc.pages
  obtain ⟨-, ⟨live, hpmm⟩, -⟩ := (h.reachable.mono (fun _ _ _ => trivial)).creationInv
  exact (hc.program_iff h.image.fits).mpr (hpmm.intact_kernel hp _ h.image.inKernel) j hj

/-- **The task fetches its program** from the image it was made of. -/
theorem Loaded.hasCode (h : Loaded L idleFunc s r binary binarySize prog k' i)
    {code : List UserInstr}
    (hcode : decodeAll (fun _ => .svc) userProgBase prog.text = code.map some) :
    HasCode k' i code := by
  intro pc ins hpc
  obtain ⟨w, hw, hd⟩ := decode_of_decodeAll hcode hpc
  obtain ⟨hlt, -⟩ := List.getElem?_eq_some_iff.mp hw
  have hsize := h.image.size
  have htext := h.image.textSize
  have hfetch : k'.el0Fetch (k'.task i).pageTable (addrOf userProgBase pc) = some w := by
    refine el0Fetch_of_bytes ?_ (fun t ht => ?_)
    · obtain ⟨p, hc⟩ := h.createdAt
      exact hc.executes (show 4 * pc < 0x1000 by omega)
    · have haddr : addrOf userProgBase pc + BitVec.ofNat 64 t =
          userProgBase + BitVec.ofNat 64 (4 * pc + t) := by
        rw [addrOf, BitVec.add_assoc, ← BitVec.ofNat_add]
      rw [haddr, h.byte (by omega), h.image.text pc w hw t ht]
  unfold Kernel.instrAt
  rw [hfetch]
  exact hd

end

/-- After `boot` the image of a program can be in the kernel, and the first task is made of
it.  It waits in the queue. -/
theorem exists_loaded (prog : UserProgram) (htext : 4 * prog.text.length ≤ 0x1000)
    (hrodata : prog.rodata.length ≤ 0x1000) :
    ∃ r k' i, Loaded default 0 bssMmu r 0x40480000 0x2000 prog k' i ∧ SchedInv k'.sched [i] 0 := by
  obtain ⟨k, stack, hk, hb⟩ := boot_total default 0 bssMmu
  let m : Mem := fun x =>
    if 0x40480000 ≤ x ∧ x < 0x40481000 then
      wordByte (prog.text.getD ((x - 0x40480000) / 4) 0) ((x - 0x40480000) % 4)
    else if 0x40481000 ≤ x ∧ x < 0x40482000 then prog.rodata.getD (x - 0x40481000) 0
    else k.mmu.mem x
  have hm : ∀ x, (default : Linker).pageTablesStart ≤ x → x < (default : Linker).pageTablesEnd →
      m x = k.mmu.mem x := by
    intro x hx _
    have hx' : 0x40600000 ≤ x := hx
    exact (if_neg (by omega)).trans (if_neg (by omega))
  have hr : Reachable default 0 bssMmu (fun c _ => c.Fits) ⟨k.setMem m, [], fun _ => 0⟩ :=
    ⟨k, hk, .single ⟨.store, trivial, .store hm⟩⟩
  obtain ⟨i, p, pmm, hi, hp, hroom⟩ := boot_resources hb 0x2000
  have hr' : Reachable default 0 bssMmu (fun _ _ => True) ⟨k.setMem m, [], fun _ => 0⟩ :=
    hr.mono (fun _ _ _ => trivial)
  obtain ⟨k', he, hnew, hc⟩ := hr'.loads hi hp hroom [] 0x40480000 1
  have himage : UserImage m 0x40480000 0x2000 prog := by
    refine ⟨by decide, by decide, ?_, htext, fun j w hj t ht => ?_, fun j c hj => ?_⟩
    · show 0x1000 + prog.rodata.length ≤ 0x2000
      omega
    · obtain ⟨hlt, -⟩ := List.getElem?_eq_some_iff.mp hj
      refine (if_pos (by omega)).trans ?_
      rw [show (0x40480000 + (4 * j + t) - 0x40480000) / 4 = j by omega,
        show (0x40480000 + (4 * j + t) - 0x40480000) % 4 = t by omega,
        List.getD_eq_getElem?_getD, hj]
      rfl
    · obtain ⟨hlt, -⟩ := List.getElem?_eq_some_iff.mp hj
      refine (if_neg (by omega)).trans ((if_pos (by omega)).trans ?_)
      rw [show 0x40480000 + (0x1000 + j) - 0x40481000 = j by omega, List.getD_eq_getElem?_getD, hj]
      rfl
  obtain ⟨_, s', _, hslot, ht, hs, -⟩ := hc.created.task
  exact ⟨_, k', i, ⟨hr, ⟨_, _, _, he⟩, hnew, himage⟩,
    hs ▸ hslot.enqueue hb.sched (findSlot_free hi) ht.state⟩

end AArch64Os
