import AArch64Os.HeapAccounts
import AArch64Os.Lib.Objects

/-! # The heap as a store of objects

Clients call `kmalloc`, `kzalloc`, `kcalloc` and `kfree` and write in their memory, and other
kernel code uses the page allocator.  What the clients see is a store of objects: every call is an
operation on that store, and changes none of the other objects (`heap_refines_objects`). -/

namespace AArch64Os

open ByteMem Objects Relation Runs

/-! ### Clients -/

/-- What happens, with the results that a client gets. -/
inductive HeapEvent
  | kmalloc (size : Word) (ptr : ℕ)
  | kzalloc (size : Word) (ptr : ℕ)
  | kcalloc (nmemb size : Word) (ptr : ℕ)
  | kfree (ptr : ℕ)
  | write (ptr : ℕ) (l : List (BitVec 8))
  | kernel

/-- The bytes at `p` to `p + n - 1`. -/
def bytesAt (m : Mem) (p n : ℕ) : List (BitVec 8) := (List.range n).map (fun j => m (p + j))

/-- A pointer that is not `NULL` is live. -/
def handOut (live : List (ℕ × Word)) (ptr : ℕ) (size : Word) : List (ℕ × Word) :=
  if ptr = 0 then live else (ptr, size) :: live

/-- One call of a client, or one step of other kernel code. -/
inductive ClientStep : HeapRun → HeapEvent → HeapRun → Prop
  | kmalloc {h h' : Heap} {live : List (ℕ × Word)} {other : List Block} {size : Word} {ptr : ℕ}
      (hs : size.toNat < 2 ^ 62) (he : kmalloc h size = some (ptr, h')) :
      ClientStep ⟨h, live, other⟩ (.kmalloc size ptr) ⟨h', handOut live ptr size, other⟩
  | kzalloc {h h' : Heap} {live : List (ℕ × Word)} {other : List Block} {size : Word} {ptr : ℕ}
      (hs : size.toNat < 2 ^ 62) (he : kzalloc h size = some (ptr, h')) :
      ClientStep ⟨h, live, other⟩ (.kzalloc size ptr) ⟨h', handOut live ptr size, other⟩
  | kcalloc {h h' : Heap} {live : List (ℕ × Word)} {other : List Block} {nmemb size : Word}
    {ptr : ℕ}
      (hs : (nmemb * size).toNat < 2 ^ 62) (he : kcalloc h nmemb size = some (ptr, h')) :
      ClientStep ⟨h, live, other⟩ (.kcalloc nmemb size ptr)
        ⟨h', handOut live ptr (nmemb * size), other⟩
  | kfree {h : Heap} {live : List (ℕ × Word)} {other : List Block} {p : ℕ × Word} (hp : p ∈ live) :
      ClientStep ⟨h, live, other⟩ (.kfree p.1) ⟨kfree h p.1, live.erase p, other⟩
  | kfreeNull {h : Heap} {live : List (ℕ × Word)} {other : List Block} :
      ClientStep ⟨h, live, other⟩ (.kfree 0) ⟨kfree h 0, live, other⟩
  | write {h : Heap} {live : List (ℕ × Word)} {other : List Block} {p : ℕ × Word} {m : Mem}
      (hp : p ∈ live) (hm : ∀ x, x < p.1 ∨ p.1 + p.2.toNat ≤ x → m x = h.mem x) :
      ClientStep ⟨h, live, other⟩ (.write p.1 (bytesAt m p.1 p.2.toNat))
        ⟨{ h with mem := m }, live, other⟩
  | kernel {r r' : HeapRun} (hs : HeapStep r r') (hlive : r'.live = r.live)
      (hm : ∀ x, r.HeapByte x → r'.heap.mem x = r.heap.mem x) : ClientStep r .kernel r'

/-- A request that is served hands out the object. -/
theorem ClientStep.kmalloc_ne_zero {h h' : Heap} {live : List (ℕ × Word)} {other : List Block}
    {size : Word} {ptr : ℕ} (hs : size.toNat < 2 ^ 62)
    (he : AArch64Os.kmalloc h size = some (ptr, h')) (hp : ptr ≠ 0) :
    ClientStep ⟨h, live, other⟩ (.kmalloc size ptr) ⟨h', (ptr, size) :: live, other⟩ := by
  have hstep : ClientStep ⟨h, live, other⟩ (.kmalloc size ptr) ⟨h', handOut live ptr size, other⟩ :=
    .kmalloc hs he
  rwa [handOut, if_neg hp] at hstep

/-- What was handed out last is given back. -/
theorem ClientStep.kfree_head {h : Heap} {live : List (ℕ × Word)} {other : List Block}
    {p : ℕ × Word} :
    ClientStep ⟨h, p :: live, other⟩ (.kfree p.1) ⟨AArch64Os.kfree h p.1, live, other⟩ := by
  have hstep : ClientStep ⟨h, p :: live, other⟩ (.kfree p.1)
      ⟨AArch64Os.kfree h p.1, (p :: live).erase p, other⟩ := .kfree List.mem_cons_self
  rwa [List.erase_cons_head] at hstep

/-- What the clients see: the bytes of what is live. -/
def HeapRun.objects (r : HeapRun) : Store ℕ (List (BitVec 8)) := fun ptr =>
  (r.live.find? (fun p => p.1 = ptr)).map (fun p => bytesAt r.heap.mem p.1 p.2.toNat)

/-- A request makes an object, or returns `NULL`. -/
def requestOp (ptr : ℕ) (ok : List (BitVec 8) → Prop) : Op ℕ (List (BitVec 8)) :=
  if ptr = 0 then .skip else .new ptr ok

/-- The operation on the objects. -/
def HeapEvent.op : HeapEvent → Op ℕ (List (BitVec 8))
  | .kmalloc size ptr => requestOp ptr (fun l => l.length = size.toNat)
  | .kzalloc size ptr => requestOp ptr (fun l => l = List.replicate size.toNat 0)
  | .kcalloc nmemb size ptr => requestOp ptr (fun l => l = List.replicate (nmemb * size).toNat 0)
  | .kfree ptr => if ptr = 0 then .skip else .drop ptr
  | .write ptr l => .set ptr (fun l' => l' = l)
  | .kernel => .skip

/-! ### The bytes of the objects -/

theorem bytesAt_congr {m m' : Mem} {p n : ℕ} (h : ∀ x, p ≤ x → x < p + n → m' x = m x) :
    bytesAt m' p n = bytesAt m p n := by
  unfold bytesAt
  apply List.map_congr_left
  intro j hj
  rw [List.mem_range] at hj
  exact h _ (Nat.le_add_right _ _) (Nat.add_lt_add_left hj _)

theorem bytesAt_fill (m : Mem) (p n : ℕ) (c : BitVec 8) :
    bytesAt (m.fill p c n) p n = List.replicate n c := by
  rw [List.eq_replicate_iff]
  refine ⟨by simp [bytesAt], fun b hb => ?_⟩
  obtain ⟨j, hj, rfl⟩ := List.mem_map.mp hb
  rw [List.mem_range] at hj
  rw [Mem.fill_apply, if_pos ⟨Nat.le_add_right _ _, Nat.add_lt_add_left hj _⟩]

namespace RunLayout
variable {r r' : HeapRun} {G G' : Layout} {p q : ℕ × Word}

theorem ptrs_nodup (hr : RunLayout r G) : (r.live.map Prod.fst).Nodup := by
  rw [(hr.live.map Prod.fst).nodup_iff, List.map_map]
  exact hr.inv.ptrs_nodup

theorem eq_of_ptr (hr : RunLayout r G) (hp : p ∈ r.live) (hq : q ∈ r.live) (h : p.1 = q.1) :
    p = q :=
  List.inj_on_of_nodup_map hr.ptrs_nodup hp hq h

/-- The object at a live pointer. -/
theorem objects_of_mem (hr : RunLayout r G) (hp : p ∈ r.live) :
    r.objects p.1 = some (bytesAt r.heap.mem p.1 p.2.toNat) := by
  unfold HeapRun.objects
  have hfind : (r.live.find? (fun q => q.1 = p.1)).isSome :=
    List.find?_isSome.mpr ⟨p, hp, decide_eq_true rfl⟩
  obtain ⟨q, hq⟩ := Option.isSome_iff_exists.mp hfind
  have hptr : q.1 = p.1 := by simpa using List.find?_some hq
  rw [hq, hr.eq_of_ptr (List.mem_of_find?_eq_some hq) hp hptr]
  rfl

theorem objects_eq_none (r : HeapRun) {ptr : ℕ} :
    r.objects ptr = none ↔ ∀ p ∈ r.live, p.1 ≠ ptr := by
  unfold HeapRun.objects
  rw [Option.map_eq_none_iff, List.find?_eq_none]
  simp

theorem objects_congr (hlive : r'.live = r.live) (hm : ∀ p ∈ r.live, ∀ x, p.1 ≤ x →
    x < p.1 + p.2.toNat → r'.heap.mem x = r.heap.mem x) : r'.objects = r.objects := by
  funext ptr
  unfold HeapRun.objects
  rw [hlive]
  cases hf : r.live.find? (fun p => p.1 = ptr) with
  | none => rfl
  | some p => exact congrArg some (bytesAt_congr (hm p (List.mem_of_find?_eq_some hf)))

/-- Only the object at `ptr` changes. -/
theorem objects_update (hr : RunLayout r G) (hr' : RunLayout r' G') (ptr : ℕ)
    (hlive : ∀ p, p.1 ≠ ptr → (p ∈ r'.live ↔ p ∈ r.live))
    (hm : ∀ p ∈ r.live, p.1 ≠ ptr → ∀ x, p.1 ≤ x →
      x < p.1 + p.2.toNat → r'.heap.mem x = r.heap.mem x) :
    r'.objects = Function.update r.objects ptr (r'.objects ptr) := by
  funext x
  by_cases hx : x = ptr
  · rw [hx, Function.update_self]
  rw [Function.update_of_ne hx]
  by_cases hp : ∃ p ∈ r.live, p.1 = x
  · obtain ⟨p, hp, rfl⟩ := hp
    rw [hr'.objects_of_mem ((hlive p hx).mpr hp), hr.objects_of_mem hp, bytesAt_congr (hm p hp hx)]
  · have hno : ∀ p ∈ r.live, p.1 ≠ x := fun p hp' he => hp ⟨p, hp', he⟩
    rw [(objects_eq_none r).mpr hno, objects_eq_none]
    exact fun p hp' he => hno p ((hlive p (he ▸ hx)).mp hp') he

/-- Two live objects have no byte in common. -/
theorem apart (hr : RunLayout r G) (hp : p ∈ r.live) (hq : q ∈ r.live) (h : p.1 ≠ q.1) :
    p.1 + p.2.toNat ≤ q.1 ∨ q.1 + q.2.toNat ≤ p.1 := by
  have hsymm : Std.Symm (fun p q : ℕ × Word => p.1 + p.2.toNat ≤ q.1 ∨ q.1 + q.2.toNat ≤ p.1) :=
    ⟨fun _ _ hpq => hpq.symm⟩
  exact hr.disjoint.forall hp hq (fun he => h (congrArg Prod.fst he))

end RunLayout

/-! ### What the calls leave alone -/

section
variable {h h' : Heap} {live : List (ℕ × Word)} {other : List Block} {G : Layout} {size : Word}
    {ptr : ℕ}

theorem HeapInv.kmalloc_null (hi : HeapInv h G other) (he : kmalloc h size = some (0, h')) :
    h' = h := by
  rcases hi.kmalloc_cases size with ⟨he', -⟩ | ⟨he', -⟩ | ⟨a, h', he', -, -, -, hg⟩
  · rw [he] at he'
    cases he'
    rfl
  · rw [he] at he'
    cases he'
  · rw [he] at he'
    have hzero : 0 = a.ptr := congrArg Prod.fst (Option.some.inj he')
    have hpos := hg.bounds
    omega

theorem HeapInv.kmalloc_gives (hi : HeapInv h G other) (he : kmalloc h size = some (ptr, h'))
    (hp : ptr ≠ 0) : ∃ a, a.ptr = ptr ∧ Gives h h' G other a := by
  rcases hi.kmalloc_cases size with ⟨he', -⟩ | ⟨he', -⟩ | ⟨a, h', he', -, -, -, hg⟩
  · rw [he] at he'
    cases he'
    exact absurd rfl hp
  · rw [he] at he'
    cases he'
  · rw [he] at he'
    cases he'
    exact ⟨a, rfl, hg⟩

/-- A page that is taken for a request is not one of the heap. -/
theorem RunLayout.kmalloc_kept (hr : RunLayout ⟨h, live, other⟩ G)
    (he : kmalloc h size = some (ptr, h'))
    (hp : ptr ≠ 0) {x : ℕ} (hx : HeapRun.HeapByte ⟨h, live, other⟩ x) : h'.mem x = h.mem x := by
  obtain ⟨a, -, hg⟩ := hr.inv.kmalloc_gives he hp
  by_contra hne
  obtain ⟨q, h1, h2, hfree, -⟩ := hg.frame x hne
  obtain ⟨q', -, h1', h2', hused, -⟩ := hx
  have hq : q = q' := by
    simp only [pageToPhys, pageSize] at h1 h2 h1' h2'
    omega
  rw [hq] at hfree
  exact absurd (hfree.symm.trans hused) (by decide)

/-- The bytes of a live object are in pages of the heap. -/
theorem RunLayout.liveByte {r : HeapRun} (hr : RunLayout r G) {p : ℕ × Word} (hp : p ∈ r.live)
    {x : ℕ}
    (h1 : p.1 ≤ x) (h2 : x < p.1 + p.2.toNat) : r.HeapByte x := hr.safe.pages p hp x h1 h2

/-- What goes back to the heap is written to in its header only. -/
theorem RunLayout.kfree_kept (hr : RunLayout ⟨h, live, other⟩ G) {p q : ℕ × Word} (hp : p ∈ live)
    (hq : q ∈ live) {x : ℕ} (h1 : q.1 ≤ x) (h2 : x < q.1 + q.2.toNat) :
    (kfree h p.1).mem x = h.mem x := by
  obtain ⟨a, ha, rfl⟩ := hr.mem_live hp
  obtain ⟨rest, -, hinv⟩ := hr.inv.front ha
  rcases a with ⟨⟨i, obj⟩ | b, size⟩
  · have hobj := hr.inv.taken_objects (Layout.mem_taken.mpr ⟨_, ha, rfl⟩)
    have hapart := hr.safe.objHeaders q hq i obj hobj
    show (kfree h (obj + objHeaderSize)).mem x = h.mem x
    rw [hinv.freeObject.1]
    simp only [objHeaderSize] at hapart
    rcases hapart with hx | hx
    · exact Mem.store64_of_ge (by omega)
    · exact Mem.store64_of_lt (by omega)
  · show (kfree h (pageToPhys b.page + pageHeaderSize)).mem x = h.mem x
    rw [hinv.freeBlock.1]

end

/-! ### Steps -/

section
variable {h h' : Heap} {live : List (ℕ × Word)} {other : List Block} {G : Layout} {size : Word}
    {ptr : ℕ}
  {r r' : HeapRun} {e : HeapEvent}

/-- A served request as steps of the heap. -/
theorem kmalloc_steps (hs : size.toNat < 2 ^ 62) (he : kmalloc h size = some (ptr, h')) :
    ReflTransGen HeapStep ⟨h, live, other⟩ ⟨h', handOut live ptr size, other⟩ := by
  unfold handOut
  split_ifs with hp
  · subst hp
    exact .single (.kmallocNull hs he)
  · exact .single (.kmalloc hs he hp)

/-- `kzalloc` is `kmalloc` and a write of the client. -/
theorem kzalloc_eq (he : kzalloc h size = some (ptr, h')) : ∃ h₁, kmalloc h size = some (ptr, h₁) ∧
    h' = { h₁ with mem := if ptr = 0 then h₁.mem else h₁.mem.fill ptr 0 size.toNat } := by
  obtain ⟨⟨ptr', h₁⟩, hk, hx⟩ := Option.map_eq_some_iff.mp he
  by_cases hp : ptr' ≠ 0
  · rw [if_pos hp] at hx
    cases hx
    exact ⟨h₁, hk, by rw [if_neg hp]⟩
  · rw [if_neg hp] at hx
    cases hx
    exact ⟨h', hk, by rw [if_pos (not_not.mp hp)]⟩

theorem kzalloc_steps (hs : size.toNat < 2 ^ 62) (he : kzalloc h size = some (ptr, h')) :
    ReflTransGen HeapStep ⟨h, live, other⟩ ⟨h', handOut live ptr size, other⟩ := by
  obtain ⟨h₁, hk, rfl⟩ := kzalloc_eq he
  refine (kmalloc_steps hs hk).trans ?_
  split_ifs with hp
  · exact .refl
  · have hmem : (ptr, size) ∈ handOut live ptr size := by
      rw [handOut, if_neg hp]
      exact List.mem_cons_self
    refine .single (.write hmem (fun x hx => ?_))
    have hout : x < ptr ∨ ptr + size.toNat ≤ x := hx
    rw [Mem.fill_apply, if_neg (by omega)]

/-- A call of a client is made of steps of the heap. -/
theorem ClientStep.steps (hs : ClientStep r e r') : ReflTransGen HeapStep r r' := by
  cases hs with
  | kmalloc hs he => exact kmalloc_steps hs he
  | kzalloc hs he => exact kzalloc_steps hs he
  | kcalloc hs he => exact kzalloc_steps hs he
  | kfree hp => exact .single (.kfree hp)
  | kfreeNull => exact .single .kfreeNull
  | write hp hm => exact .single (.write hp hm)
  | kernel hs _ _ => exact .single hs

theorem ClientStep.layout (hs : ClientStep r e r') (h : ∃ G, RunLayout r G) : ∃ G, RunLayout r' G :=
  run_invariant (I := fun r => ∃ G, RunLayout r G) h (fun _ _ hi hs => hs.layout hi) hs.steps

/-- A request that is served makes an object. -/
theorem RunLayout.request {m : Mem} {ok : List (BitVec 8) → Prop}
    (hr : RunLayout ⟨h, live, other⟩ G)
    (hs : size.toNat < 2 ^ 62) (he : kmalloc h size = some (ptr, h')) (h0 : ptr = 0 → m = h'.mem)
    (hm : ∀ x, x < ptr ∨ ptr + size.toNat ≤ x → m x = h'.mem x)
    (hok : ptr ≠ 0 → ok (bytesAt m ptr size.toNat)) :
    Objects.Step (HeapRun.objects ⟨h, live, other⟩) (requestOp ptr ok)
      (HeapRun.objects ⟨{ h' with mem := m }, handOut live ptr size, other⟩) := by
  unfold requestOp handOut
  split_ifs with hp
  · subst hp
    obtain rfl := hr.inv.kmalloc_null he
    rw [h0 rfl]
    exact .skip _
  obtain ⟨G₁, hr₁⟩ := (HeapStep.kmalloc hs he hp).layout ⟨G, hr⟩
  obtain ⟨G', hr'⟩ := (HeapStep.write (p := (ptr, size)) List.mem_cons_self hm).layout ⟨G₁, hr₁⟩
  have hnew : ∀ p ∈ live, p.1 ≠ ptr := by
    intro p hp' heq
    have hnodup := hr₁.ptrs_nodup
    rw [List.map_cons, List.nodup_cons] at hnodup
    exact hnodup.1 (List.mem_map.mpr ⟨p, hp', heq⟩)
  have hobj := hr'.objects_of_mem (p := (ptr, size)) List.mem_cons_self
  rw [hr.objects_update hr' ptr, hobj]
  · exact .new ((RunLayout.objects_eq_none _).mpr hnew) (hok hp)
  · intro p hne
    rw [List.mem_cons]
    exact or_iff_right (fun heq => hne (congrArg Prod.fst heq))
  · intro p hp' hne x h1 h2
    have hapart : p.1 + p.2.toNat ≤ ptr ∨ ptr + size.toNat ≤ p.1 :=
      hr₁.apart (q := (ptr, size)) (List.mem_cons_of_mem _ hp') List.mem_cons_self hne
    have hkept : h'.mem x = h.mem x := hr.kmalloc_kept he hp (hr.liveByte hp' h1 h2)
    exact (hm x (by omega)).trans hkept

theorem RunLayout.requestZero (hr : RunLayout ⟨h, live, other⟩ G) (hs : size.toNat < 2 ^ 62)
    (he : kzalloc h size = some (ptr, h')) :
    Objects.Step (HeapRun.objects ⟨h, live, other⟩)
      (requestOp ptr (fun l => l = List.replicate size.toNat 0))
      (HeapRun.objects ⟨h', handOut live ptr size, other⟩) := by
  obtain ⟨h₁, hk, rfl⟩ := kzalloc_eq he
  refine hr.request hs hk (fun hp => if_pos hp) (fun x hx => ?_) (fun hp => ?_)
  · split_ifs
    · rfl
    · rw [Mem.fill_apply, if_neg (by omega)]
  · rw [if_neg hp]
    exact bytesAt_fill _ _ _ _

/-- **A step is an operation on the objects.** -/
theorem ClientStep.objects (hr : RunLayout r G) (hs : ClientStep r e r') :
    Objects.Step r.objects e.op r'.objects := by
  cases hs with
  | @kmalloc h h' live other size ptr hs he =>
      have hlength : (bytesAt h'.mem ptr size.toNat).length = size.toNat := by simp [bytesAt]
      exact hr.request hs he (fun _ => rfl) (fun _ _ => rfl) (fun _ => hlength)
  | kzalloc hs he => exact hr.requestZero hs he
  | kcalloc hs he => exact hr.requestZero hs he
  | @kfree h live other p hp =>
      obtain ⟨G', hr'⟩ := (HeapStep.kfree hp).layout ⟨G, hr⟩
      have hp0 : p.1 ≠ 0 := by
        obtain ⟨a, ha, rfl⟩ := hr.mem_live hp
        have hb := (hr.inv.live_bounds ha).1
        simp only [Alloc.client]
        omega
      have hgone : ∀ q ∈ live.erase p, q.1 ≠ p.1 := by
        intro q hq heq
        obtain rfl := hr.eq_of_ptr (List.mem_of_mem_erase hq) hp heq
        exact (List.Nodup.of_map _ hr.ptrs_nodup).not_mem_erase hq
      have hop : (HeapEvent.kfree p.1).op = .drop p.1 := if_neg hp0
      rw [hop, hr.objects_update hr' p.1, (RunLayout.objects_eq_none _).mpr hgone]
      · refine .drop ?_
        rw [hr.objects_of_mem hp]
        exact Option.some_ne_none _
      · intro q hne
        exact List.mem_erase_of_ne (fun heq => hne (congrArg Prod.fst heq))
      · exact fun q hq _ x h1 h2 => hr.kfree_kept hp hq h1 h2
  | kfreeNull => exact .skip _
  | @write h live other p m hp hm =>
      obtain ⟨G', hr'⟩ := (HeapStep.write hp hm).layout ⟨G, hr⟩
      rw [hr.objects_update hr' p.1, hr'.objects_of_mem hp]
      · refine .set ?_ rfl
        rw [hr.objects_of_mem hp]
        exact Option.some_ne_none _
      · exact fun _ _ => Iff.rfl
      · intro q hq hne x h1 h2
        have hapart := hr.apart hq hp hne
        exact hm x (by omega)
  | kernel hs hlive hm =>
      rw [RunLayout.objects_congr hlive (fun p hp x h1 h2 => hm x (hr.liveByte hp h1 h2))]
      exact .skip _

end

/-- A run of calls as a run of operations on the objects. -/
theorem ClientTrace.objects {r r' : HeapRun} {t : List (HeapRun × HeapEvent × HeapRun)}
    (h : ∃ G, RunLayout r G) (ht : Trace ClientStep r t r') :
    ∃ u, Trace Objects.Step r.objects u r'.objects ∧ (∃ G, RunLayout r' G) ∧
      u.map (·.2.1) = t.map (fun x => x.2.1.op) := by
  obtain ⟨u, o, hu, ⟨rfl, hr'⟩, hmap⟩ := trace_simulation
    (R := fun r o => o = r.objects ∧ ∃ G, RunLayout r G) (fun _ e => e.op) ⟨rfl, h⟩
    (fun r e r' o ⟨ho, G, hr⟩ hst => ⟨r'.objects, ho ▸ hst.objects hr, rfl, hst.layout ⟨G, hr⟩⟩) ht
  exact ⟨u, hu, hr', hmap⟩

/-- **The heap is a store of objects**: whatever clients and other kernel code do from
`kmalloc_init` on, the clients see what a store of objects does for the same operations. -/
theorem heap_refines_objects {s : Pmm} {m : Mem} {slabs : Fin numSlabs → Slab} {other : List Block}
    (hs : PmmInv s other) {t : List (HeapRun × HeapEvent × HeapRun)} {r : HeapRun}
    (ht : Trace ClientStep ⟨kmallocInit ⟨s, m, slabs, 0, 0⟩, [], other⟩ t r) :
    ∃ u, Trace Objects.Step (fun _ => none) u r.objects ∧
      u.map (·.2.1) = t.map (fun x => x.2.1.op) := by
  obtain ⟨u, hu, -, hmap⟩ := ClientTrace.objects (heapRun_layout hs .refl) ht
  exact ⟨u, hu, hmap⟩

/-- A page is asked for after the start. -/
theorem heap_refines_objects_page : ∃ ptr h' u, kmalloc bootHeap 0x1000 = some (ptr, h') ∧ ptr ≠ 0 ∧
    Trace Objects.Step (fun _ => none) u (HeapRun.objects ⟨h', [(ptr, 0x1000)], []⟩) ∧
    u.map (·.2.1) = [.new ptr (fun l => l.length = 0x1000)] := by
  obtain ⟨ptr, h', he, hptr⟩ := bootHeap_kmalloc_page
  have hstep :
      ClientStep ⟨bootHeap, [], []⟩ (.kmalloc 0x1000 ptr) ⟨h', handOut [] ptr 0x1000, []⟩ :=
    .kmalloc (by decide) he
  rw [handOut, if_neg hptr] at hstep
  obtain ⟨u, hu, hmap⟩ := heap_refines_objects (pmmInit_inv bssPmm) (.next .start hstep)
  exact ⟨ptr, h', u, he, hptr, hu, hmap.trans (congrArg (· :: []) (if_neg hptr))⟩

/-- An object is touched by its own `kfree` and writes. -/
theorem HeapEvent.touches {e : HeapEvent} {ptr : ℕ} (h : e.op.Touches ptr) :
    e = .kfree ptr ∨ ∃ l, e = .write ptr l := by
  have hrequest : ∀ p ok, ¬ (requestOp p ok).Touches ptr := by
    intro p ok
    unfold requestOp
    split_ifs <;> exact id
  cases e with
  | kmalloc size p => exact absurd h (hrequest _ _)
  | kzalloc size p => exact absurd h (hrequest _ _)
  | kcalloc nmemb size p => exact absurd h (hrequest _ _)
  | kfree p =>
      by_cases hp : p = 0
      · rw [show (HeapEvent.kfree p).op = .skip from if_pos hp] at h
        exact h.elim
      · rw [show (HeapEvent.kfree p).op = .drop p from if_neg hp] at h
        exact .inl (congrArg _ h)
  | write p l =>
      obtain rfl : p = ptr := h
      exact .inr ⟨l, rfl⟩
  | kernel => exact h.elim

/-- An object that no operation touches is live in the end, with the same bytes. -/
theorem RunLayout.keepsObject {r r' : HeapRun} {G G' : Layout} (hr : RunLayout r G)
    (hr' : RunLayout r' G')
    {u : List (Store ℕ (List (BitVec 8)) × Op ℕ (List (BitVec 8)) × Store ℕ (List (BitVec 8)))}
    (hu : Trace Objects.Step r.objects u r'.objects) {p : ℕ × Word} (hp : p ∈ r.live)
    (hno : ∀ o ∈ u.map (·.2.1), ¬ o.Touches p.1) :
    p ∈ r'.live ∧ bytesAt r'.heap.mem p.1 p.2.toNat = bytesAt r.heap.mem p.1 p.2.toNat := by
  have hkeep := persists hu (hr.objects_of_mem hp) hno
  -- the object that is there in the end has the same number of bytes
  obtain ⟨q, hq, hptr⟩ : ∃ q ∈ r'.live, q.1 = p.1 := by
    by_contra hno
    rw [(RunLayout.objects_eq_none r').mpr (fun q hq he => hno ⟨q, hq, he⟩)] at hkeep
    cases hkeep
  have hbytes := hkeep
  rw [← hptr, hr'.objects_of_mem hq, Option.some_inj] at hbytes
  have hsize : q.2 = p.2 := by
    have hlength := congrArg List.length hbytes
    simp only [bytesAt, List.length_map, List.length_range] at hlength
    exact BitVec.eq_of_toNat_eq hlength
  obtain rfl : q = p := Prod.ext hptr hsize
  exact ⟨hq, hbytes⟩

/-- **Memory of the heap persists**: from any state of a run on, an object stays live and keeps
its bytes as long as it is neither freed nor written to. -/
theorem heap_object_persists {s : Pmm} {m : Mem} {slabs : Fin numSlabs → Slab} {other : List Block}
    (hs : PmmInv s other) {t t' : List (HeapRun × HeapEvent × HeapRun)} {r r' : HeapRun}
    (ht : Trace ClientStep ⟨kmallocInit ⟨s, m, slabs, 0, 0⟩, [], other⟩ t r)
    (ht' : Trace ClientStep r t' r') {p : ℕ × Word} (hp : p ∈ r.live)
    (hfree : ∀ x ∈ t', x.2.1 ≠ .kfree p.1) (hwrite : ∀ x ∈ t', ∀ l, x.2.1 ≠ .write p.1 l) :
    p ∈ r'.live ∧ bytesAt r'.heap.mem p.1 p.2.toNat = bytesAt r.heap.mem p.1 p.2.toNat := by
  obtain ⟨-, -, ⟨G, hr⟩, -⟩ := ClientTrace.objects (heapRun_layout hs .refl) ht
  obtain ⟨u, hu, ⟨G', hr'⟩, hmap⟩ := ClientTrace.objects ⟨G, hr⟩ ht'
  refine hr.keepsObject hr' hu hp ?_
  rw [hmap, List.forall_mem_map]
  intro x hx htouch
  rcases HeapEvent.touches htouch with he | ⟨l, he⟩
  · exact hfree x hx he
  · exact hwrite x hx l he

/-- An object keeps its bytes while another one comes, goes and comes again. -/
theorem heap_object_persists_reuse : ∃ p₁ h₁ p₂ h₂ p₃ h₃, kmalloc bootHeap 64 = some (p₁, h₁) ∧
    p₁ ≠ 0 ∧ kmalloc h₁ 64 = some (p₂, h₂) ∧ p₂ ≠ 0 ∧ kmalloc (kfree h₂ p₂) 64 = some (p₃, h₃) ∧
    p₃ ≠ 0 ∧ bytesAt h₃.mem p₁ 64 = bytesAt h₁.mem p₁ 64 := by
  obtain ⟨p₁, h₁, p₂, h₂, p₃, h₃, ⟨he₁, hp₁⟩, ⟨he₂, hp₂, hne⟩, he₃, hp₃⟩ := bootHeap_reuse
  have hs₁ : ClientStep ⟨bootHeap, [], []⟩ (.kmalloc 64 p₁) ⟨h₁, [(p₁, 64)], []⟩ :=
    .kmalloc_ne_zero (by decide) he₁ hp₁
  have hs₂ : ClientStep ⟨h₁, [(p₁, 64)], []⟩ (.kmalloc 64 p₂) ⟨h₂, [(p₂, 64), (p₁, 64)], []⟩ :=
    .kmalloc_ne_zero (by decide) he₂ hp₂
  have hs₃ : ClientStep ⟨h₂, [(p₂, 64), (p₁, 64)], []⟩ (.kfree p₂)
      ⟨kfree h₂ p₂, [(p₁, 64)], []⟩ := .kfree_head
  have hs₄ : ClientStep ⟨kfree h₂ p₂, [(p₁, 64)], []⟩ (.kmalloc 64 p₃)
      ⟨h₃, [(p₃, 64), (p₁, 64)], []⟩ := .kmalloc_ne_zero (by decide) he₃ hp₃
  refine ⟨p₁, h₁, p₂, h₂, p₃, h₃, he₁, hp₁, he₂, hp₂, he₃, hp₃,
    (heap_object_persists (pmmInit_inv bssPmm) (.next .start hs₁)
      (.next (.next (.next .start hs₂) hs₃) hs₄) (p := (p₁, 64)) List.mem_cons_self ?_ ?_).2⟩
  · simp only [List.forall_mem_cons, List.not_mem_nil, false_implies, implies_true, and_true]
    exact ⟨nofun, fun h => hne (HeapEvent.kfree.inj h), nofun⟩
  · simp only [List.forall_mem_cons, List.not_mem_nil, false_implies, implies_true, and_true]
    exact ⟨nofun, nofun, nofun⟩

end AArch64Os
