import Mathlib.Data.List.Nodup
import Mathlib.Logic.Function.Basic

/-! # Singly linked lists

A linked list is a head pointer and a link function `next`; `Chain next h l` says that the
cells met from `h` on are those of `l`, in this order, and that the last link is null.
A chain is determined by its head (`Chain.unique`) and depends only on the links of its
own cells (`Chain.congr`).

A `Link` is a place that holds a pointer: the head or the link of a cell.  `findLink` is
the pointer-to-pointer walk that stops at the link holding `p` or at the null link, and
`Chain.unlink` is what redirecting that link to the successor of `p` does to the list. -/

namespace Linked

variable {α : Type*} {next next' : α → Option α}

/-- `l` lists the cells reached from the pointer `h`, up to the null link. -/
def Chain (next : α → Option α) : Option α → List α → Prop
  | h, [] => h = none
  | h, a :: l => h = some a ∧ Chain next (next a) l

@[simp] theorem chain_nil {h : Option α} : Chain next h [] ↔ h = none := Iff.rfl

@[simp] theorem chain_cons {h : Option α} {a : α} {l : List α} :
    Chain next h (a :: l) ↔ h = some a ∧ Chain next (next a) l := Iff.rfl

theorem Chain.congr {h : Option α} {l : List α} (hc : Chain next h l)
    (he : ∀ a ∈ l, next' a = next a) : Chain next' h l := by
  induction l generalizing h with
  | nil => exact hc
  | cons a l ih =>
      refine ⟨hc.1, ?_⟩
      rw [he a List.mem_cons_self]
      exact ih hc.2 (fun b hb => he b (List.mem_cons_of_mem _ hb))

theorem Chain.unique {h : Option α} {l l' : List α} (hc : Chain next h l)
    (hc' : Chain next h l') : l = l' := by
  induction l generalizing h l' with
  | nil =>
      cases l' with
      | nil => rfl
      | cons b l' => rw [chain_nil.mp hc] at hc'; cases hc'.1
  | cons a l ih =>
      cases l' with
      | nil => rw [chain_nil.mp hc'] at hc; cases hc.1
      | cons b l' =>
          have hab : a = b := Option.some.inj (hc.1.symm.trans hc'.1)
          subst hab
          rw [ih hc.2 hc'.2]

/-- The part of a list behind one of its cells. -/
theorem Chain.of_append {h : Option α} {a : α} {post : List α} :
    ∀ pre : List α, Chain next h (pre ++ a :: post) → Chain next (next a) post := by
  intro pre
  induction pre generalizing h with
  | nil => exact fun hc => hc.2
  | cons b pre ih => exact fun hc => ih hc.2

section DecEq
variable [DecidableEq α]

/-- Pushing a new cell in front. -/
theorem Chain.push {h : Option α} {l : List α} {a : α} (hc : Chain next h l) (ha : a ∉ l) :
    Chain (Function.update next a h) (some a) (a :: l) := by
  refine ⟨rfl, ?_⟩
  rw [Function.update_self]
  exact hc.congr (fun b hb => Function.update_of_ne (fun (e : b = a) => ha (e ▸ hb)) _ _)

/-- Whatever cell is put in front, the list that results ends only if the old one does and does
not have that cell; pushing a cell twice closes a cycle. -/
theorem Chain.push_iff {h : Option α} {l : List α} {a : α} :
    Chain (Function.update next a h) (some a) l ↔
      ∃ l₀, l = a :: l₀ ∧ Chain next h l₀ ∧ a ∉ l₀ := by
  constructor
  · intro hc
    cases l with
    | nil => cases hc
    | cons b l₀ =>
        obtain ⟨hb, hc₀⟩ := hc
        have hab : a = b := Option.some.inj hb
        subst hab
        rw [Function.update_self] at hc₀
        -- the walk from the old head cannot come back to `a`, for it would start again there
        have ha : a ∉ l₀ := by
          intro hm
          obtain ⟨pre, post, rfl⟩ := List.append_of_mem hm
          have hp : Chain (Function.update next a h) h post := by
            have := Chain.of_append pre hc₀
            rw [Function.update_self] at this
            exact this
          have he := congrArg List.length (hc₀.unique hp)
          simp only [List.length_append, List.length_cons] at he
          omega
        exact ⟨l₀, rfl, hc₀.congr (fun b hb =>
          (Function.update_of_ne (fun (e : b = a) => ha (e ▸ hb)) _ _).symm), ha⟩
  · rintro ⟨l₀, rfl, hc, ha⟩
    exact hc.push ha

/-! ### The pointer-to-pointer walk -/

/-- A place that holds a pointer: the head of the list or the link of a cell. -/
inductive Link (α : Type*) where
  | head
  | next (a : α)
deriving DecidableEq, Repr

namespace Link

/-- The pointer stored at a link. -/
def deref (next : α → Option α) (head : Option α) : Link α → Option α
  | .head => head
  | .next a => next a

/-- Store `v` at a link: the new head and the new link function. -/
def assign (v : Option α) (head : Option α) (next : α → Option α) :
    Link α → Option α × (α → Option α)
  | .head => (v, next)
  | .next a => (head, Function.update next a v)

/-- The link one arrives at after following `link` through the cells of a list. -/
def after : Link α → List α → Link α
  | link, [] => link
  | _, a :: l => after (.next a) l

/-- The link is not the link of a cell of `l`. -/
def Outside (link : Link α) (l : List α) : Prop := ∀ a, link = .next a → a ∉ l

omit [DecidableEq α] in
theorem after_next (a : α) (l : List α) : ∃ q ∈ a :: l, (Link.next a).after l = .next q := by
  induction l generalizing a with
  | nil => exact ⟨a, List.mem_cons_self, rfl⟩
  | cons b l ih =>
      obtain ⟨q, hq, e⟩ := ih b
      exact ⟨q, List.mem_cons_of_mem _ hq, e⟩

end Link

/-- Advance from `link` until the stored pointer is null or `p`; `none` when `fuel` links
were not enough. -/
def findLink (next : α → Option α) (head : Option α) (p : α) : ℕ → Link α → Option (Link α)
  | 0, _ => none
  | fuel + 1, link =>
      match link.deref next head with
      | none => some link
      | some q => if q = p then some link else findLink next head p fuel (.next q)

/-- The walk of a list that contains `p` ends at the link that holds `p`. -/
theorem findLink_mem {h : Option α} {p : α} {post : List α} :
    ∀ (pre : List α) (fuel : ℕ) (link : Link α),
      Chain next (link.deref next h) (pre ++ p :: post) → p ∉ pre → pre.length < fuel →
      findLink next h p fuel link = some (link.after pre)
  | _, 0, _, _, _, hf => absurd hf (Nat.not_lt_zero _)
  | [], fuel + 1, link, hc, _, _ => by
      have h1 : link.deref next h = some p := hc.1
      simp [findLink, h1, Link.after]
  | a :: pre, fuel + 1, link, hc, hp, hf => by
      have h1 : link.deref next h = some a := hc.1
      have hap : a ≠ p := fun e => hp (e ▸ List.mem_cons_self)
      have ih := findLink_mem (h := h) pre fuel (.next a) hc.2
        (fun hm => hp (List.mem_cons_of_mem _ hm)) (by simpa using hf)
      simp only [findLink, h1, if_neg hap, ih, Link.after]

omit [DecidableEq α] in
theorem Chain.deref_after {h : Option α} {p : α} {post : List α} : ∀ (pre : List α) (link : Link α),
    Chain next (link.deref next h) (pre ++ p :: post) →
    (link.after pre).deref next h = some p
  | [], _, hc => hc.1
  | a :: pre, _, hc => Chain.deref_after pre (.next a) hc.2

/-- Redirecting the link that holds `p` to the successor of `p` takes `p` out of the list. -/
theorem Chain.unlink {h : Option α} {p : α} {post : List α} :
    ∀ (pre : List α) (link : Link α),
      Chain next (link.deref next h) (pre ++ p :: post) → (pre ++ p :: post).Nodup →
      link.Outside (pre ++ p :: post) →
      Chain ((link.after pre).assign (next p) h next).2
        (link.deref ((link.after pre).assign (next p) h next).2
          ((link.after pre).assign (next p) h next).1) (pre ++ post)
  | [], .head, hc, _, _ => hc.2
  | [], .next a, hc, _, ho => by
      have ha : a ∉ post := fun hm => ho a rfl (by simp [hm])
      simp only [Link.after, Link.assign, Link.deref, Function.update_self, List.nil_append]
      exact hc.2.congr (fun b hb => Function.update_of_ne (fun (e : b = a) => ha (e ▸ hb)) _ _)
  | a :: pre, link, hc, hn, ho => by
      rw [List.cons_append, List.nodup_cons] at hn
      have ho' : (Link.next a).Outside (pre ++ p :: post) := by
        intro b hb
        cases hb
        exact hn.1
      have ih := Chain.unlink (h := h) pre (.next a) hc.2 hn.2 ho'
      obtain ⟨q, hq, e⟩ := Link.after_next a pre
      have hkeep : link.deref ((link.after (a :: pre)).assign (next p) h next).2
          ((link.after (a :: pre)).assign (next p) h next).1 = link.deref next h := by
        simp only [Link.after, e, Link.assign]
        cases link with
        | head => rfl
        | next b =>
            have hb : b ≠ q := fun hm => ho b rfl (by
              rw [hm]; exact List.mem_append_left _ hq)
            exact Function.update_of_ne hb _ _
      exact ⟨hkeep.trans hc.1, ih⟩

end DecEq
end Linked
