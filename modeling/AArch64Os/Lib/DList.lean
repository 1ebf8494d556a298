import AArch64Os.Lib.Chain

/-! # Doubly linked lists

A doubly linked list over nodes `α` is given by two link functions and two ends.  `Seg` says
that the nodes of a list are linked in both directions between what stands before and behind
them; `DList` is a whole list with its ends.  Both operations are stated for any link
functions that differ from the old ones where the code writes: `DList.push` appends a node,
`DList.remove` takes one out wherever it is. -/

namespace Linked

variable {α : Type*} {next prev next' prev' : α → Option α} {head tail : Option α}

/-- The nodes of a list are linked in both directions, between `before` and `after`. -/
def Seg (next prev : α → Option α) : Option α → List α → Option α → Prop
  | _, [], _ => True
  | before, x :: l, after =>
      prev x = before ∧ next x = l.head?.or after ∧ Seg next prev (some x) l after

theorem seg_append {before after : Option α} (l₁ l₂ : List α) :
    Seg next prev before (l₁ ++ l₂) after ↔
      Seg next prev before l₁ (l₂.head?.or after) ∧
      Seg next prev (l₁.getLast?.or before) l₂ after := by
  induction l₁ generalizing before with
  | nil =>
      simp only [List.nil_append, Seg, true_and]
      rfl
  | cons x l ih =>
      have hlast : (x :: l).getLast?.or before = l.getLast?.or (some x) := by
        rw [List.getLast?_cons]
        cases l.getLast? <;> rfl
      have hhead : (l ++ l₂).head?.or after = l.head?.or (l₂.head?.or after) := by
        cases l <;> rfl
      simp only [List.cons_append, Seg, ih, hlast, hhead, and_assoc]

/-- The links of other nodes do not matter. -/
theorem Seg.congr {before after : Option α} {l : List α} (h : Seg next prev before l after)
    (hn : ∀ x ∈ l, next' x = next x) (hp : ∀ x ∈ l, prev' x = prev x) :
    Seg next' prev' before l after := by
  induction l generalizing before with
  | nil => trivial
  | cons x l ih =>
      obtain ⟨h1, h2, h3⟩ := h
      refine ⟨?_, ?_, ?_⟩
      · rw [hp x List.mem_cons_self, h1]
      · rw [hn x List.mem_cons_self, h2]
      · exact ih h3 (fun y hy => hn y (List.mem_cons_of_mem x hy))
          (fun y hy => hp y (List.mem_cons_of_mem x hy))

/-- A doubly linked list with its ends. -/
structure DList (next prev : α → Option α) (head tail : Option α) (l : List α) : Prop where
  seg : Seg next prev none l none
  head_eq : head = l.head?
  tail_eq : tail = l.getLast?
  nodup : l.Nodup

/-! ### What a list looks like from its nodes -/

theorem DList.prev_eq {a b : List α} {x : α} (h : DList next prev head tail (a ++ x :: b)) :
    prev x = a.getLast? := by
  have := ((seg_append a (x :: b)).mp h.seg).2.1
  rwa [Option.or_none] at this

theorem DList.next_eq {a b : List α} {x : α} (h : DList next prev head tail (a ++ x :: b)) :
    next x = b.head? := by
  have := ((seg_append a (x :: b)).mp h.seg).2.2.1
  rwa [Option.or_none] at this

/-- Followed forwards, the links are a chain. -/
theorem Seg.chain {before : Option α} {l : List α} (h : Seg next prev before l none) :
    Chain next l.head? l := by
  induction l generalizing before with
  | nil => rfl
  | cons x l ih =>
      obtain ⟨_, hn, hl⟩ := h
      refine ⟨rfl, ?_⟩
      rw [hn, Option.or_none]
      exact ih hl

theorem DList.chain {l : List α} (h : DList next prev head tail l) : Chain next head l := by
  rw [h.head_eq]
  exact h.seg.chain

theorem DList.prev_head {l : List α} (h : DList next prev head tail l) {x : α}
    (hx : head = some x) : prev x = none := by
  rw [h.head_eq] at hx
  cases l with
  | nil => cases hx
  | cons y l =>
      obtain rfl : y = x := Option.some.inj hx
      exact h.seg.1

theorem DList.next_tail {l : List α} (h : DList next prev head tail l) {x : α}
    (hx : tail = some x) : next x = none := by
  rw [h.tail_eq] at hx
  obtain ⟨l', rfl⟩ := List.getLast?_eq_some_iff.mp hx
  have := ((seg_append l' [x]).mp h.seg).2.2.1
  exact this

/-- Next and previous are inverse to each other on the list. -/
theorem DList.next_eq_iff {l : List α} (h : DList next prev head tail l) {x y : α} (hx : x ∈ l)
    (hy : y ∈ l) : next x = some y ↔ prev y = some x := by
  constructor
  · intro he
    obtain ⟨a, b, rfl⟩ := List.append_of_mem hx
    have hnext := h.next_eq
    obtain ⟨_, _, hseg⟩ := ((seg_append a (x :: b)).mp h.seg).2
    rw [he] at hnext
    cases b with
    | nil => cases hnext
    | cons z b =>
        obtain rfl : y = z := Option.some.inj hnext
        exact hseg.1
  · intro he
    obtain ⟨a, b, rfl⟩ := List.append_of_mem hy
    have hprev := h.prev_eq
    obtain ⟨hsegA, _⟩ := (seg_append a (y :: b)).mp h.seg
    rw [he] at hprev
    obtain ⟨a', rfl⟩ := List.getLast?_eq_some_iff.mp hprev.symm
    exact ((seg_append a' [x]).mp hsegA).2.2.1

/-! ### Append a node -/

/-- A new node behind the last one. -/
theorem DList.push {l : List α} (h : DList next prev head tail l) {x : α} (hx : x ∉ l)
    (hnx : next' x = none) (hpx : prev' x = tail) (hlast : ∀ t, tail = some t → next' t = some x)
    (hn : ∀ y ∈ l, tail ≠ some y → next' y = next y) (hp : ∀ y ∈ l, prev' y = prev y) :
    DList next' prev' (head.or (some x)) (some x) (l ++ [x]) := by
  have hnodup : (l ++ [x]).Nodup := by
    rw [List.nodup_append]
    refine ⟨h.nodup, List.nodup_singleton x, ?_⟩
    rintro a ha b hb rfl
    rw [List.mem_singleton] at hb
    exact hx (hb ▸ ha)
  refine ⟨?_, ?_, ?_, hnodup⟩
  · rw [seg_append]
    refine ⟨?_, by rw [hpx, h.tail_eq, Option.or_none], by rw [hnx]; rfl, trivial⟩
    rcases List.eq_nil_or_concat' l with rfl | ⟨l', t, rfl⟩
    · trivial
    · have htail : tail = some t := by rw [h.tail_eq, List.getLast?_concat]
      obtain ⟨hseg, hprev, _⟩ := (seg_append l' [t]).mp h.seg
      have htl : t ∉ l' := by
        have := h.nodup
        rw [List.nodup_append] at this
        exact fun hm => this.2.2 t hm t (List.mem_singleton_self t) rfl
      rw [seg_append]
      refine ⟨hseg.congr ?_ ?_, ?_, ?_, trivial⟩
      · intro y hy
        refine hn y (List.mem_append_left _ hy) ?_
        rw [htail]
        rintro ⟨rfl⟩
        exact htl hy
      · exact fun y hy => hp y (List.mem_append_left _ hy)
      · rw [hp t (List.mem_append_right _ (List.mem_singleton_self t)), hprev]
      · rw [hlast t htail]
        rfl
  · rw [h.head_eq]
    cases l <;> rfl
  · rw [List.getLast?_concat]

/-! ### Take a node out -/

/-- The node `x` between `a` and `b` is bypassed. -/
theorem DList.remove {a b : List α} {x : α} (h : DList next prev head tail (a ++ x :: b))
    {head' tail' : Option α}
    (hnp : ∀ p, prev x = some p → next' p = next x) (hpn : ∀ n, next x = some n → prev' n = prev x)
    (hn : ∀ y, y ≠ x → prev x ≠ some y → next' y = next y)
    (hp : ∀ y, y ≠ x → next x ≠ some y → prev' y = prev y)
    (hhead : head' = if prev x = none then next x else head)
    (htail : tail' = if next x = none then prev x else tail) :
    DList next' prev' head' tail' (a ++ b) := by
  have hprev := h.prev_eq
  have hnext := h.next_eq
  obtain ⟨hsegA, _, _, hsegB⟩ := (seg_append a (x :: b)).mp h.seg
  have hnodup := h.nodup
  rw [List.nodup_append] at hnodup
  obtain ⟨hna, hnxb, hdisj⟩ := hnodup
  obtain ⟨hxb, hnb⟩ := List.nodup_cons.mp hnxb
  have hxa : x ∉ a := fun hm => hdisj x hm x List.mem_cons_self rfl
  have hab : ∀ y ∈ a, y ∉ b := fun y hy hyb => hdisj y hy y (List.mem_cons_of_mem x hyb) rfl
  have hA : Seg next' prev' none a b.head? := by
    rcases List.eq_nil_or_concat' a with rfl | ⟨a', p, rfl⟩
    · trivial
    · have hpx : prev x = some p := by rw [hprev, List.getLast?_concat]
      obtain ⟨hseg, hpp, _⟩ := (seg_append a' [p]).mp hsegA
      have hpa : p ∉ a' := by
        rw [List.nodup_append] at hna
        exact fun hm => hna.2.2 p hm p (List.mem_singleton_self p) rfl
      have hnotnext : ∀ y ∈ a' ++ [p], next x ≠ some y := by
        intro y hy he
        rw [hnext] at he
        exact hab y hy (List.mem_of_mem_head? he)
      have hne : ∀ y ∈ a' ++ [p], y ≠ x := fun y hy e => hxa (e ▸ hy)
      rw [seg_append]
      refine ⟨hseg.congr ?_ ?_, ?_, ?_, trivial⟩
      · intro y hy
        refine hn y (hne y (List.mem_append_left _ hy)) ?_
        rw [hpx]
        rintro ⟨rfl⟩
        exact hpa hy
      · intro y hy
        exact hp y (hne y (List.mem_append_left _ hy)) (hnotnext y (List.mem_append_left _ hy))
      · have hm := List.mem_append_right a' (List.mem_singleton_self p)
        rw [hp p (hne p hm) (hnotnext p hm), hpp]
      · rw [hnp p hpx, hnext]
        rfl
  have hB : Seg next' prev' a.getLast? b none := by
    cases b with
    | nil => trivial
    | cons n b =>
        obtain ⟨_, hnn, hseg⟩ := hsegB
        obtain ⟨hnb', _⟩ := List.nodup_cons.mp hnb
        have hnotprev : ∀ y ∈ n :: b, prev x ≠ some y := by
          intro y hy he
          rw [hprev] at he
          exact hab y (List.mem_of_getLast? he) hy
        have hne : ∀ y ∈ n :: b, y ≠ x := fun y hy e => hxb (e ▸ hy)
        refine ⟨?_, ?_, hseg.congr ?_ ?_⟩
        · rw [hpn n hnext, hprev]
        · rw [hn n (hne n List.mem_cons_self) (hnotprev n List.mem_cons_self), hnn]
        · intro y hy
          have hm := List.mem_cons_of_mem n hy
          exact hn y (hne y hm) (hnotprev y hm)
        · intro y hy
          refine hp y (hne y (List.mem_cons_of_mem n hy)) ?_
          rw [hnext]
          rintro ⟨rfl⟩
          exact hnb' hy
  refine ⟨?_, ?_, ?_, ?_⟩
  · rw [seg_append, Option.or_none, Option.or_none]
    exact ⟨hA, hB⟩
  · rw [hhead, hprev, hnext, h.head_eq]
    cases a with
    | nil => rfl
    | cons y a =>
        rw [if_neg (by simp)]
        rfl
  · rw [htail, hprev, hnext, h.tail_eq]
    cases b with
    | nil => simp
    | cons y b => simp
  · rw [List.nodup_append]
    exact ⟨hna, hnb, fun y hy z hz e => hab y hy (e ▸ hz)⟩

end Linked
