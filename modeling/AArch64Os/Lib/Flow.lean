import Mathlib.Data.List.Infix
import Mathlib.Logic.Relation

/-! # Programs with jumps

A program is a list of instructions: primitives, jumps, jumps on a test, and calls of code that is
not part of the program.  The machine stops in front of a call, and the one who called it decides
how it goes on.

`reaches_block` runs a straight piece of code, `reaches_loop` a loop whose invariant counts the
rounds that are left.  A program follows a script if it makes the calls of the script in their
order, whatever it is answered (`Follows`).  It then does so under any interleaving with other
code, since a step does not lead away from the script (`Follows.step`), a call that is answered is
the next one of the script (`Follows.call`), and one that is not answered is the last
(`Follows.unanswered`). -/

namespace Flow

open Relation

variable {π θ κ σ ε : Type*}

/-! ### Machines -/

/-- An instruction of a program. -/
inductive Instr (π θ κ : Type*)
  | prim (p : π)
  | jump (dst : ℕ)
  | branch (t : θ) (dst : ℕ)
  | call (k : κ)
deriving DecidableEq

/-- What primitives do, and how tests come out. -/
structure Sem (π θ σ : Type*) where
  exec : π → σ → σ
  test : θ → σ → Bool

/-- A position in the program, and the state. -/
structure Cfg (σ : Type*) where
  pc : ℕ
  st : σ

/-- One step; there is none at a call or outside the program. -/
def step (M : Sem π θ σ) (code : List (Instr π θ κ)) (c : Cfg σ) : Option (Cfg σ) :=
  match code[c.pc]? with
  | some (.prim p) => some ⟨c.pc + 1, M.exec p c.st⟩
  | some (.jump dst) => some ⟨dst, c.st⟩
  | some (.branch t dst) => some ⟨if M.test t c.st then dst else c.pc + 1, c.st⟩
  | some (.call _) => none
  | none => none

/-- What an instruction does. -/
def Instr.next (M : Sem π θ σ) (c : Cfg σ) : Instr π θ κ → Option (Cfg σ)
  | .prim p => some ⟨c.pc + 1, M.exec p c.st⟩
  | .jump dst => some ⟨dst, c.st⟩
  | .branch t dst => some ⟨if M.test t c.st then dst else c.pc + 1, c.st⟩
  | .call _ => none

/-- The machine gets from one configuration to another without a call. -/
def Reaches (M : Sem π θ σ) (code : List (Instr π θ κ)) : Cfg σ → Cfg σ → Prop :=
  ReflTransGen (fun c c' => step M code c = some c')

/-- The instructions from position `pc` on. -/
def CodeAt (code : List (Instr π θ κ)) (pc : ℕ) (block : List (Instr π θ κ)) : Prop :=
  block <+: code.drop pc

section
variable {M : Sem π θ σ} {code block : List (Instr π θ κ)} {c c₁ c₂ : Cfg σ} {pc dst : ℕ} {s : σ}

theorem codeAt_cons {i : Instr π θ κ} (h : CodeAt code pc (i :: block)) :
    code[pc]? = some i ∧ CodeAt code (pc + 1) block := by
  unfold CodeAt at h ⊢
  obtain ⟨rest, hr⟩ := h
  have h0 : (code.drop pc)[0]? = some i := by rw [← hr]; rfl
  rw [List.getElem?_drop, Nat.add_zero] at h0
  refine ⟨h0, rest, ?_⟩
  rw [← List.drop_drop, ← hr]
  rfl

/-- A step does what the instruction at its position does. -/
theorem step_of_instr {i : Instr π θ κ} (h : code[c.pc]? = some i) : step M code c = i.next M c := by
  unfold step
  rw [h]
  cases i <;> rfl

/-- Where there is a step, there is an instruction. -/
theorem instr_of_step (h : step M code c = some c₁) : ∃ i, code[c.pc]? = some i := by
  unfold step at h
  split at h
  · exact ⟨_, ‹_›⟩
  · exact ⟨_, ‹_›⟩
  · exact ⟨_, ‹_›⟩
  · cases h
  · cases h

theorem step_prim {p : π} (h : code[pc]? = some (.prim p)) :
    step M code ⟨pc, s⟩ = some ⟨pc + 1, M.exec p s⟩ := by
  simp only [step, h]

theorem step_jump (h : code[pc]? = some (.jump dst)) : step M code ⟨pc, s⟩ = some ⟨dst, s⟩ := by
  simp only [step, h]

theorem step_taken {t : θ} (h : code[pc]? = some (.branch t dst)) (ht : M.test t s = true) :
    step M code ⟨pc, s⟩ = some ⟨dst, s⟩ := by
  simp only [step, h, ht, if_true]

theorem step_fall {t : θ} (h : code[pc]? = some (.branch t dst)) (ht : M.test t s = false) :
    step M code ⟨pc, s⟩ = some ⟨pc + 1, s⟩ := by
  simp [step, h, ht]

theorem step_call {k : κ} (h : code[c.pc]? = some (.call k)) : step M code c = none := by
  simp only [step, h]

/-! ### Pieces of code -/

theorem Reaches.refl (c : Cfg σ) : Reaches M code c c := ReflTransGen.refl

theorem Reaches.trans (h₁ : Reaches M code c c₁) (h₂ : Reaches M code c₁ c₂) :
    Reaches M code c c₂ := ReflTransGen.trans h₁ h₂

theorem Reaches.head (h₁ : step M code c = some c₁) (h₂ : Reaches M code c₁ c₂) :
    Reaches M code c c₂ := ReflTransGen.head h₁ h₂

/-- A block of primitives. -/
theorem reaches_block {ps : List π} (h : CodeAt code pc (ps.map .prim)) :
    Reaches M code ⟨pc, s⟩ ⟨pc + ps.length, ps.foldl (fun s p => M.exec p s) s⟩ := by
  induction ps generalizing pc s with
  | nil => exact .refl _
  | cons p ps ih =>
      obtain ⟨hp, hrest⟩ := codeAt_cons h
      apply Reaches.head (step_prim hp)
      rw [List.length_cons, List.foldl_cons, Nat.add_comm ps.length, ← Nat.add_assoc]
      exact ih hrest

theorem reaches_jump (h : code[pc]? = some (.jump dst)) :
    Reaches M code ⟨pc, s⟩ ⟨dst, s⟩ := .head (step_jump h) (.refl _)

theorem reaches_taken {t : θ} (h : code[pc]? = some (.branch t dst)) (ht : M.test t s = true) :
    Reaches M code ⟨pc, s⟩ ⟨dst, s⟩ := .head (step_taken h ht) (.refl _)

theorem reaches_fall {t : θ} (h : code[pc]? = some (.branch t dst)) (ht : M.test t s = false) :
    Reaches M code ⟨pc, s⟩ ⟨pc + 1, s⟩ := .head (step_fall h ht) (.refl _)

/-- A loop: with `n + 1` rounds left one more round comes back to the head of the loop. -/
theorem reaches_loop (I : ℕ → σ → Prop) {head : ℕ}
    (hround : ∀ n s, I (n + 1) s → ∃ s', Reaches M code ⟨head, s⟩ ⟨head, s'⟩ ∧ I n s') :
    ∀ {n : ℕ} {s : σ}, I n s → ∃ s', Reaches M code ⟨head, s⟩ ⟨head, s'⟩ ∧ I 0 s' := by
  intro n
  induction n with
  | zero => exact fun h => ⟨_, .refl _, h⟩
  | succ n ih =>
      intro s h
      obtain ⟨s₁, h₁, hi⟩ := hround n s h
      obtain ⟨s₂, h₂, hi'⟩ := ih hi
      exact ⟨s₂, h₁.trans h₂, hi'⟩

/-- The machine is deterministic: on the way to a call it passes every configuration that it
reaches. -/
theorem Reaches.before_call {k : κ} (h₁ : Reaches M code c c₁) (h₂ : Reaches M code c c₂)
    (hcall : code[c₂.pc]? = some (.call k)) : Reaches M code c₁ c₂ := by
  induction h₁ with
  | refl => exact h₂
  | tail _ hs ih =>
      rcases ReflTransGen.cases_head ih with rfl | ⟨d, hd, hrest⟩
      · rw [step_call hcall] at hs
        cases hs
      · obtain rfl := Option.some.inj (hs.symm.trans hd)
        exact hrest

end

/-! ### Answered calls -/

/-- `answer k s s'` tells that the call `k` in state `s` may return with the state `s'`, and `obs`
what is seen of a call.  From the configuration on the program makes the calls of the script,
whatever is answered; the last one does not return. -/
inductive Follows (M : Sem π θ σ) (code : List (Instr π θ κ)) (answer : κ → σ → σ → Prop)
    (obs : κ → σ → ε) : Cfg σ → List ε → Prop
  | last {c d : Cfg σ} {k : κ} (hr : Reaches M code c d) (hk : code[d.pc]? = some (.call k))
      (hno : ∀ s', ¬ answer k d.st s') : Follows M code answer obs c [obs k d.st]
  | next {c d : Cfg σ} {k : κ} {es : List ε} (hr : Reaches M code c d)
      (hk : code[d.pc]? = some (.call k)) (ha : ∃ s', answer k d.st s')
      (h : ∀ s', answer k d.st s' → Follows M code answer obs ⟨d.pc + 1, s'⟩ es) :
      Follows M code answer obs c (obs k d.st :: es)

section
variable {M : Sem π θ σ} {code : List (Instr π θ κ)} {answer : κ → σ → σ → Prop} {obs : κ → σ → ε}
  {c c₁ d : Cfg σ} {es : List ε}

theorem Follows.of_reaches (hr : Reaches M code c c₁) (h : Follows M code answer obs c₁ es) :
    Follows M code answer obs c es := by
  cases h with
  | last hr' hk hno => exact .last (hr.trans hr') hk hno
  | next hr' hk ha h => exact .next (hr.trans hr') hk ha h

theorem Follows.of_next {k : κ} {e : ε} (hr : Reaches M code c d)
    (hk : code[d.pc]? = some (.call k)) (ho : obs k d.st = e) (ha : ∃ s', answer k d.st s')
    (h : ∀ s', answer k d.st s' → Follows M code answer obs ⟨d.pc + 1, s'⟩ es) :
    Follows M code answer obs c (e :: es) := ho ▸ .next hr hk ha h

theorem Follows.of_last {k : κ} {e : ε} (hr : Reaches M code c d)
    (hk : code[d.pc]? = some (.call k)) (ho : obs k d.st = e) (hno : ∀ s', ¬ answer k d.st s') :
    Follows M code answer obs c [e] := ho ▸ .last hr hk hno

/-- A program that makes the calls of a script is at one of its instructions. -/
theorem Follows.instr (h : Follows M code answer obs c es) : ∃ i, code[c.pc]? = some i := by
  have hreach : ∀ {d : Cfg σ} {k : κ}, Reaches M code c d → code[d.pc]? = some (.call k) →
      ∃ i, code[c.pc]? = some i := by
    intro d k hr hk
    rcases ReflTransGen.cases_head hr with rfl | ⟨e, he, -⟩
    · exact ⟨_, hk⟩
    · exact instr_of_step he
  cases h with
  | last hr hk _ => exact hreach hr hk
  | next hr hk _ _ => exact hreach hr hk

/-- A step does not lead away from the script. -/
theorem Follows.step (h : Follows M code answer obs c es) (hs : step M code c = some c₁) :
    Follows M code answer obs c₁ es := by
  have hone : Reaches M code c c₁ := ReflTransGen.single hs
  cases h with
  | last hr hk hno => exact .last (hone.before_call hr hk) hk hno
  | next hr hk ha h => exact .next (hone.before_call hr hk) hk ha h

/-- Where there is no step, nothing else is reached. -/
theorem Reaches.eq_of_call {k : κ} (hk : code[c.pc]? = some (.call k)) (hr : Reaches M code c d) :
    d = c := by
  rcases ReflTransGen.cases_head hr with rfl | ⟨e, he, -⟩
  · rfl
  · rw [step_call hk] at he
    cases he

/-- A call that is answered is the next one of the script. -/
theorem Follows.call {k : κ} {s' : σ} (h : Follows M code answer obs c es)
    (hk : code[c.pc]? = some (.call k)) (ha : answer k c.st s') :
    ∃ fs, es = obs k c.st :: fs ∧ Follows M code answer obs ⟨c.pc + 1, s'⟩ fs := by
  cases h with
  | last hr hk' hno =>
      obtain rfl := hr.eq_of_call hk
      obtain rfl : _ = k := Instr.call.inj (Option.some.inj (hk'.symm.trans hk))
      exact absurd ha (hno s')
  | next hr hk' _ h =>
      obtain rfl := hr.eq_of_call hk
      obtain rfl : _ = k := Instr.call.inj (Option.some.inj (hk'.symm.trans hk))
      exact ⟨_, rfl, h s' ha⟩

/-- A call that is not answered is the last one of the script. -/
theorem Follows.unanswered {k : κ} (h : Follows M code answer obs c es)
    (hk : code[c.pc]? = some (.call k)) (hno : ∀ s', ¬ answer k c.st s') : es = [obs k c.st] := by
  cases h with
  | last hr hk' _ =>
      obtain rfl := hr.eq_of_call hk
      obtain rfl : _ = k := Instr.call.inj (Option.some.inj (hk'.symm.trans hk))
      rfl
  | next hr hk' ha _ =>
      obtain rfl := hr.eq_of_call hk
      obtain rfl : _ = k := Instr.call.inj (Option.some.inj (hk'.symm.trans hk))
      obtain ⟨s', ha⟩ := ha
      exact absurd ha (hno s')

end
end Flow
