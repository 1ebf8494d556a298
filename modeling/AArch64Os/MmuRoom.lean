import AArch64Os.MmuForest
import Mathlib.Data.Finset.Card

/-! # Room for page tables

Which tables a call adds, and exactly when the page-table region has room for them.  A path of
indexes stands for the table at its end; `lacking` collects the paths at which there is no
table yet.  A call that builds the tables at some paths returns exactly if there is room for
the lacking ones, and adds these and no others (`Builds`); calls one after the other build the
union (`Builds.bind`). -/

namespace AArch64Os

open ByteMem Radix

/-- The paths at which there is no table below `r`. -/
def lacking (m : Mem) (r : ℕ) (ps : Finset (List (Fin 512))) : Finset (List (Fin 512)) :=
  ps.filter (fun p => walk nextTable (entries m) r p = none)

theorem mem_lacking {m : Mem} {r : ℕ} {ps : Finset (List (Fin 512))} {p : List (Fin 512)} :
    p ∈ lacking m r ps ↔ p ∈ ps ∧ walk nextTable (entries m) r p = none := Finset.mem_filter

theorem lacking_mono {m : Mem} {r : ℕ} {ps qs : Finset (List (Fin 512))} (h : ps ⊆ qs) :
    lacking m r ps ⊆ lacking m r qs := Finset.filter_subset_filter _ h

theorem card_lacking_singleton (m : Mem) (r : ℕ) (p : List (Fin 512)) :
    (lacking m r {p}).card = missing m r p := by
  unfold lacking missing
  rw [Finset.filter_singleton]
  cases walk nextTable (entries m) r p <;> rfl

/-- Below a fresh root everything lacks. -/
theorem lacking_fresh {m : Mem} {r : ℕ} (h : ∀ j, entries m r j = 0) {ps : Finset (List (Fin 512))}
    (hp : ∀ p ∈ ps, p ≠ []) : lacking m r ps = ps := by
  refine Finset.filter_true_of_mem (fun p hm => ?_)
  cases p with
  | nil => exact absurd rfl (hp [] hm)
  | cons i p => simp only [walk, h, nextTable_zero]

/-- From `s` to `s'` the tables at the paths `ps` below `r` were added, where they lacked. -/
structure Adds (L : Linker) (roots : Set ℕ) (s s' : Mmu) (r : ℕ) (ps : Finset (List (Fin 512))) :
    Prop where
  inv : MmuInv L roots s'
  walk : ∀ r' ∈ roots, ∀ p : List (Fin 512), p.length ≤ 3 → ∀ t,
    Radix.walk nextTable (entries s.mem) r' p = some t →
    Radix.walk nextTable (entries s'.mem) r' p = some t
  new : ∀ r' ∈ roots, ∀ p : List (Fin 512), p.length ≤ 3 → ∀ t,
    Radix.walk nextTable (entries s'.mem) r' p = some t →
    Radix.walk nextTable (entries s.mem) r' p = some t ∨ (r' = r ∧ p ∈ ps)
  present : ∀ p ∈ ps, ∃ t, Radix.walk nextTable (entries s'.mem) r p = some t
  next : s'.next L = s.next L + (lacking s.mem r ps).card * pageSize
  frame : Mmu.Frame L s s'

section
variable {L : Linker} {roots : Set ℕ} {s s' s'' : Mmu} {r : ℕ} {ps qs : Finset (List (Fin 512))}

theorem Adds.refl (h : MmuInv L roots s) (r : ℕ) : Adds L roots s s r ∅ where
  inv := h
  walk _ _ _ _ _ ht := ht
  new _ _ _ _ _ ht := .inl ht
  present p hp := absurd hp (Finset.notMem_empty p)
  next := by
    rw [lacking, Finset.filter_empty, Finset.card_empty, Nat.zero_mul, Nat.add_zero]
  frame := .refl L s

/-- What lacks after the first of two additions. -/
theorem Adds.lacking_union (h : Adds L roots s s' r ps) (hr : r ∈ roots)
    (hq : ∀ p ∈ qs, p.length ≤ 3) :
    (lacking s.mem r (ps ∪ qs)).card = (lacking s.mem r ps).card + (lacking s'.mem r qs).card := by
  have hdisj : Disjoint (lacking s.mem r ps) (lacking s'.mem r qs) := by
    rw [Finset.disjoint_left]
    intro p hp hp'
    obtain ⟨t, ht⟩ := h.present p (mem_lacking.mp hp).1
    rw [(mem_lacking.mp hp').2] at ht
    cases ht
  rw [← Finset.card_union_of_disjoint hdisj]
  congr 1
  ext p
  rw [Finset.mem_union, mem_lacking, mem_lacking, mem_lacking, Finset.mem_union]
  constructor
  · rintro ⟨hp | hp, hnone⟩
    · exact .inl ⟨hp, hnone⟩
    · cases hw : Radix.walk nextTable (entries s'.mem) r p with
      | none => exact .inr ⟨hp, rfl⟩
      | some t =>
          rcases h.new r hr p (hq p hp) t hw with ht | ⟨-, hps⟩
          · rw [hnone] at ht
            cases ht
          · exact .inl ⟨hps, hnone⟩
  · rintro (⟨hp, hnone⟩ | ⟨hp, hnone⟩)
    · exact ⟨.inl hp, hnone⟩
    · refine ⟨.inr hp, ?_⟩
      cases hw : Radix.walk nextTable (entries s.mem) r p with
      | none => rfl
      | some t =>
          rw [h.walk r hr p (hq p hp) t hw] at hnone
          cases hnone

theorem Adds.trans (h : Adds L roots s s' r ps) (h' : Adds L roots s' s'' r qs) (hr : r ∈ roots)
    (hp : ∀ p ∈ ps, p.length ≤ 3) (hq : ∀ p ∈ qs, p.length ≤ 3) :
    Adds L roots s s'' r (ps ∪ qs) where
  inv := h'.inv
  walk r' hr' p hl t ht := h'.walk r' hr' p hl t (h.walk r' hr' p hl t ht)
  new r' hr' p hl t ht := by
    rcases h'.new r' hr' p hl t ht with ht | ⟨e, hm⟩
    · rcases h.new r' hr' p hl t ht with ht | ⟨e, hm⟩
      · exact .inl ht
      · exact .inr ⟨e, Finset.mem_union_left _ hm⟩
    · exact .inr ⟨e, Finset.mem_union_right _ hm⟩
  present p hm := by
    rcases Finset.mem_union.mp hm with hm | hm
    · obtain ⟨t, ht⟩ := h.present p hm
      exact ⟨t, h'.walk r hr p (hp p hm) t ht⟩
    · exact h'.present p hm
  next := by
    rw [h'.next, h.next, h.lacking_union hr hq]
    ring
  frame := h.frame.trans h'.frame

/-! ### Calls that may not return -/

/-- The outcome `o` of a call in `s`, whose final state `st` tells: it returns exactly if there is
room for the lacking tables, and adds these. -/
structure Builds (L : Linker) (roots : Set ℕ) (s : Mmu) (r : ℕ) (ps : Finset (List (Fin 512)))
    {α : Type} (st : α → Mmu) (o : Option α) : Prop where
  room : o.isSome ↔ s.next L + (lacking s.mem r ps).card * pageSize ≤ L.pageTablesEnd
  adds : ∀ a, o = some a → Adds L roots s (st a) r ps

theorem Builds.some {α : Type} {st : α → Mmu} {a : α} (h : Adds L roots s (st a) r ps) :
    Builds L roots s r ps st (some a) where
  room := by
    have := h.inv.next_le
    rw [h.next] at this
    exact ⟨fun _ => this, fun _ => rfl⟩
  adds b hb := by
    cases hb
    exact h

/-- Two calls, one after the other. -/
theorem Builds.bind {α β : Type} {st : α → Mmu} {st' : β → Mmu} {o : Option α} {f : α → Option β}
    (h : Builds L roots s r ps st o)
    (hf : ∀ a, o = Option.some a → Adds L roots s (st a) r ps →
      Builds L roots (st a) r qs st' (f a))
    (hr : r ∈ roots) (hp : ∀ p ∈ ps, p.length ≤ 3) (hq : ∀ p ∈ qs, p.length ≤ 3) :
    Builds L roots s r (ps ∪ qs) st' (o.bind f) := by
  cases ho : o with
  | none =>
      have hno : ¬ (s.next L + (lacking s.mem r ps).card * pageSize ≤ L.pageTablesEnd) := by
        rw [← h.room, ho]
        exact Bool.false_ne_true
      have hle := Nat.mul_le_mul_right pageSize
        (Finset.card_le_card (lacking_mono (m := s.mem) (r := r)
          (@Finset.subset_union_left _ _ ps qs)))
      refine ⟨⟨fun hc => absurd hc Bool.false_ne_true, fun hc => absurd ?_ hno⟩,
        fun _ hc => by cases hc⟩
      omega
  | some a =>
      have ha := h.adds a ho
      have hb := hf a ho ha
      rw [Option.bind_some]
      refine ⟨?_, fun b hb' => ha.trans (hb.adds b hb') hr hp hq⟩
      rw [hb.room, ha.next, ha.lacking_union hr hq, Nat.add_mul]
      omega

/-! ### The calls of `mmu.c` -/

/-- A call that creates the table at one path adds that one. -/
theorem Created.adds {u : ℕ} {q : List (Fin 512)} (h : MmuInv L roots s)
    (c : Created L roots s s' r q u) (hr : r ∈ roots) (hq : q.length ≤ 3)
    (hnext : s'.next L = s.next L + missing s.mem r q * pageSize) :
    Adds L roots s s' r {q} where
  inv := c.inv
  walk := c.grows.walk
  new r' hr' p hl t ht := by
    have hmem := c.grows.forest.closed r' hr' p hl t ht
    by_cases hold : t ∈ s.tables L
    · -- an old table was reached before, in the one way that leads to it
      obtain ⟨r₀, hr₀, p₀, hp₀, hw⟩ := h.forest.covered t hold
      obtain ⟨rfl, rfl⟩ := c.grows.forest.inj r₀ hr₀ r' hr' p₀ p hp₀ hl t
        (c.grows.walk r₀ hr₀ p₀ hp₀ t hw) ht
      exact .inl hw
    · refine .inr ?_
      have hu := c.grows.forest.closed r hr q hq u c.walk
      have hut : u = t := by
        have hmiss : missing s.mem r q ≤ 1 := missing_le _ _ _
        have hle := Nat.mul_le_mul_right pageSize hmiss
        by_cases huo : u ∈ s.tables L
        · -- then no table was added at all
          obtain ⟨r₀, hr₀, p₀, hp₀, hw⟩ := h.forest.covered u huo
          obtain ⟨rfl, rfl⟩ := c.grows.forest.inj r₀ hr₀ r hr p₀ q hp₀ hq u
            (c.grows.walk r₀ hr₀ p₀ hp₀ u hw) c.walk
          rw [missing_of_walk hw, Nat.zero_mul, Nat.add_zero] at hnext
          obtain ⟨h1, h2, h3⟩ := hmem
          exact absurd ⟨h1, hnext ▸ h2, h3⟩ hold
        · have hal := h.aligned
          simp only [Mmu.tables, Set.mem_ofPred_eq] at hmem hold hu huo
          simp only [pageSize] at *
          omega
      subst hut
      obtain ⟨rfl, rfl⟩ := c.grows.forest.inj r' hr' r hr p q hl hq u ht c.walk
      exact ⟨rfl, Finset.mem_singleton_self p⟩
  present p hp := by
    rw [Finset.mem_singleton] at hp
    subst hp
    exact ⟨u, c.walk⟩
  next := by
    rw [card_lacking_singleton]
    exact hnext
  frame := c.frame

theorem getOrCreateTable_builds (h : MmuInv L roots s) (hr : r ∈ roots) {t : ℕ}
    {p : List (Fin 512)} (i : Fin 512) (hp : p.length < 3)
    (ht : walk nextTable (entries s.mem) r p = some t) :
    Builds L roots s r {p ++ [i]} Prod.snd (getOrCreateTable L s t i) := by
  have hq : (p ++ [i]).length ≤ 3 := by
    rw [List.length_append]
    exact hp
  have hadds : ∀ x, getOrCreateTable L s t i = some x →
      x.2.next L = s.next L + missing s.mem r (p ++ [i]) * pageSize →
      Adds L roots s x.2 r {p ++ [i]} :=
    fun x hx hnext => (getOrCreateTable_spec h hr hp ht hx).adds h hr hq hnext
  cases hu : nextTable (entries s.mem t i) with
  | some u =>
      have hit := getOrCreateTable_hit h hr hp ht hu
      have hz : missing s.mem r (p ++ [i]) = 0 :=
        missing_of_walk (walk_concat_some.mpr ⟨t, ht, hu⟩)
      have := hadds (u, s) hit (by rw [hz, Nat.zero_mul, Nat.add_zero])
      rw [hit]
      exact .some this
  | none =>
      have hw : walk nextTable (entries s.mem) r (p ++ [i]) = none := by
        rw [walk_concat, ht]
        exact hu
      have hone : missing s.mem r (p ++ [i]) = 1 := by rw [missing, hw]
      refine ⟨?_, ?_⟩
      · rw [getOrCreateTable_miss L hu, Option.isSome_map, allocPageTable_isSome,
          card_lacking_singleton, hone, Nat.one_mul]
      · rintro ⟨u, s'⟩ he
        refine hadds _ he ?_
        rw [getOrCreateTable_miss L hu] at he
        obtain ⟨⟨w, s₁⟩, ha, hp'⟩ := Option.map_eq_some_iff.mp he
        obtain ⟨rfl, rfl⟩ := Prod.mk.inj hp'
        obtain ⟨hv, hnext, _⟩ := allocPageTable_spec h ha
        show (s₁.store64 _ _).next L = _
        rw [Mmu.next_store64, hnext, hv, hone, Nat.one_mul]

/-- The paths of the tables that lead to a page. -/
def tablePaths (virt : Word) : Finset (List (Fin 512)) :=
  {[vaL0Index virt]} ∪ ({[vaL0Index virt, vaL1Index virt]} ∪ {tablePath virt})

theorem length_of_mem_tablePaths {virt : Word} {p : List (Fin 512)} (h : p ∈ tablePaths virt) :
    p.length ≤ 3 := by
  simp only [tablePaths, Finset.mem_union, Finset.mem_singleton] at h
  rcases h with rfl | rfl | rfl <;> simp [tablePath]

theorem ne_nil_of_mem_tablePaths {virt : Word} {p : List (Fin 512)} (h : p ∈ tablePaths virt) :
    p ≠ [] := by
  simp only [tablePaths, Finset.mem_union, Finset.mem_singleton] at h
  rcases h with rfl | rfl | rfl <;> simp [tablePath]

/-- Writing a page entry adds no table. -/
theorem Adds.storeLeaf (h : MmuInv L roots s) (hr : r ∈ roots) {t : ℕ} (virt d : Word)
    (ht : Radix.walk nextTable (entries s.mem) r (tablePath virt) = some t) :
    Adds L roots s (s.store64 (entryAddr t (vaL3Index virt)) d) r ∅ := by
  have hset := h.storeLeaf virt hr ht d
  have htA : t ∈ s.tables L := h.forest.closed r hr (tablePath virt) le_rfl t ht
  refine ⟨hset.inv, hset.walk, ?_, fun p hp => absurd hp (Finset.notMem_empty p), ?_, hset.frame⟩
  · intro r' hr' p hl u hu
    rw [Mmu.mem_store64, h.forest.walk_setLeaf hr rfl ht
      (fun v hv j hne => entries_store64_ne htA.2.2 hv.2.2 hne) hr' hl] at hu
    exact .inl hu
  · rw [Mmu.next_store64, lacking, Finset.filter_empty, Finset.card_empty, Nat.zero_mul,
      Nat.add_zero]

/-- `map_page` builds the tables that lead to its page. -/
theorem installPage_builds (h : MmuInv L roots s) (hr : r ∈ roots) (virt phys flags : Word) :
    Builds L roots s r (tablePaths virt) id (installPage L s r virt phys flags) := by
  have hlen : ∀ {q p : List (Fin 512)}, p ∈ ({q} : Finset (List (Fin 512))) → q.length ≤ 3 →
      p.length ≤ 3 := by
    intro q p hp hq
    rw [Finset.mem_singleton] at hp
    rw [hp]
    exact hq
  rw [installPage_eq]
  refine (getOrCreateTable_builds h hr (p := []) (vaL0Index virt) (by decide) rfl).bind ?_ hr
    (fun p hp => hlen hp (by simp)) ?_
  · rintro ⟨pud, s₁⟩ h₁ -
    have c₁ := getOrCreateTable_spec h hr (p := []) (by decide) rfl h₁
    refine (getOrCreateTable_builds c₁.inv hr (vaL1Index virt) (by simp) c₁.walk).bind ?_ hr
      (fun p hp => hlen hp (by simp)) (fun p hp => hlen hp (by simp [tablePath]))
    rintro ⟨pmd, s₂⟩ h₂ -
    have c₂ := getOrCreateTable_spec c₁.inv hr (by simp) c₁.walk h₂
    have b₃ := getOrCreateTable_builds c₂.inv hr (vaL2Index virt) (by simp) c₂.walk
    have hu : ({tablePath virt} : Finset (List (Fin 512))) = {tablePath virt} ∪ ∅ :=
      (Finset.union_empty _).symm
    rw [hu]
    refine b₃.bind ?_ hr (fun p hp => hlen hp (by simp))
      (fun p hp => absurd hp (Finset.notMem_empty p))
    rintro ⟨pte, s₃⟩ h₃ -
    have c₃ := getOrCreateTable_spec c₂.inv hr (by simp) c₂.walk h₃
    exact .some (.storeLeaf c₃.inv hr virt _ c₃.walk)
  · intro p hp
    exact length_of_mem_tablePaths (Finset.mem_union_right _ hp)

/-- The paths of the tables that lead to some pages. -/
def pathsOf : List Word → Finset (List (Fin 512))
  | [] => ∅
  | v :: vs => tablePaths v ∪ pathsOf vs

theorem mem_pathsOf {vs : List Word} {p : List (Fin 512)} :
    p ∈ pathsOf vs ↔ ∃ v ∈ vs, p ∈ tablePaths v := by
  induction vs with
  | nil => simp [pathsOf]
  | cons v vs ih => simp [pathsOf, ih]

theorem length_of_mem_pathsOf {vs : List Word} {p : List (Fin 512)} (h : p ∈ pathsOf vs) :
    p.length ≤ 3 := by
  obtain ⟨v, _, hp⟩ := mem_pathsOf.mp h
  exact length_of_mem_tablePaths hp

/-- How many tables lack that lead to some pages below `r`. -/
def tablesNeeded (m : Mem) (r : ℕ) (vs : List Word) : ℕ := (lacking m r (pathsOf vs)).card

/-- A loop that maps one page a round builds the tables of all its pages. -/
theorem installPages_builds (h : MmuInv L roots s) (hr : r ∈ roots) (flags : Word)
    (l : List (Word × Word)) : Builds L roots s r (pathsOf (l.map Prod.fst)) id
      (l.foldlM (fun s x => installPage L s r x.1 x.2 flags) s) := by
  induction l generalizing s with
  | nil => exact .some (.refl h r)
  | cons x l ih =>
      rw [List.foldlM_cons]
      exact (installPage_builds h hr x.1 x.2 flags).bind (fun s₁ _ ha => ih ha.inv) hr
        (fun _ hp => length_of_mem_tablePaths hp) (fun _ hp => length_of_mem_pathsOf hp)

/-- There are no more tables than the region has room for. -/
theorem Adds.card_le (h : Adds L roots s s' r ps) (hr : r ∈ roots)
    (hp : ∀ p ∈ ps, p.length ≤ 3) : ps.card ≤ 64 := by
  have hend := L.end_eq
  have hstart := L.aligned
  let tableAt (p : List (Fin 512)) : ℕ := (Radix.walk nextTable (entries s'.mem) r p).getD 0
  have hat : ∀ p ∈ ps, Radix.walk nextTable (entries s'.mem) r p = some (tableAt p) := by
    intro p hm
    obtain ⟨t, ht⟩ := h.present p hm
    rw [ht]
    simp only [tableAt, ht, Option.getD_some]
  have hinto : ∀ p ∈ ps, tableAt p ∈ (Finset.range 64).image (fun k => L.pageTablesStart + 4096 * k) := by
    intro p hm
    obtain ⟨h1, h2, h3⟩ := h.inv.forest.closed r hr p (hp p hm) _ (hat p hm)
    have hle := h.inv.next_le
    simp only [pageSize] at h3 hstart
    rw [Finset.mem_image]
    exact ⟨(tableAt p - L.pageTablesStart) / 4096, Finset.mem_range.mpr (by omega), by omega⟩
  have hinj : ∀ p ∈ ps, ∀ q ∈ ps, tableAt p = tableAt q → p = q := by
    intro p hm q hm' he
    have hq := hat q hm'
    rw [← he] at hq
    exact (h.inv.forest.inj r hr r hr p q (hp p hm) (hp q hm') _ (hat p hm) hq).2
  calc ps.card ≤ ((Finset.range 64).image (fun k => L.pageTablesStart + 4096 * k)).card :=
        Finset.card_le_card_of_injOn tableAt hinto hinj
    _ ≤ (Finset.range 64).card := Finset.card_image_le
    _ = 64 := Finset.card_range 64

end
end AArch64Os
