import Mathlib.Data.List.Induction

/-! # A cell that is claimed

A cell belongs to the first that claims it, until it is cleared; in between its uses are counted.
After any events the cell tells its history: who has it claimed it when nobody had it, it was not
cleared since, and the counter is the number of uses since (`run_eq_some_iff`). -/

namespace Claims

variable {α C : Type*}

/-- What an event is to the cell. -/
inductive Kind (α : Type*)
  | claim (a : α)
  | clear
  | use
  | other

/-- A use of the cell. -/
def Kind.isUse : Kind α → Bool
  | .use => true
  | _ => false

/-- One event: a claim of a cell that is taken, and a use of one that is not, do nothing. -/
def step (s : Option (α × ℕ)) : Kind α → Option (α × ℕ)
  | .claim a => match s with
    | none => some (a, 0)
    | some x => some x
  | .clear => none
  | .use => s.map (fun x => (x.1, x.2 + 1))
  | .other => s

/-- The cell after events, `kind` saying what they are to it. -/
def run (kind : C → Kind α) (events : List C) : Option (α × ℕ) :=
  events.foldl (fun s c => step s (kind c)) none

section
variable (kind : C → Kind α)

theorem run_concat (l : List C) (c : C) : run kind (l ++ [c]) = step (run kind l) (kind c) := by
  simp [run]

/-- A claim of a free cell, and what follows it as long as the cell is not cleared. -/
theorem run_claimed {p : List C} {c : C} {a : α} (hp : run kind p = none)
    (hc : kind c = .claim a) (q : List C) (hq : ∀ d ∈ q, kind d ≠ .clear) :
    run kind (p ++ c :: q) = some (a, q.countP (fun d => (kind d).isUse)) := by
  induction q using List.reverseRecOn with
  | nil =>
      rw [run_concat, hp, hc]
      rfl
  | append_singleton q d ih =>
      have hd : kind d ≠ .clear := hq d (by simp)
      have hrest := ih (fun e he => hq e (List.mem_append_left _ he))
      rw [← List.cons_append, ← List.append_assoc, run_concat, hrest, List.countP_append,
        List.countP_singleton]
      cases hkind : kind d with
      | claim b => rfl
      | clear => exact absurd hkind hd
      | use => rfl
      | other => rfl

/-- **Who has the cell**, and how often it was used. -/
theorem run_eq_some_iff {l : List C} {a : α} {n : ℕ} : run kind l = some (a, n) ↔
    ∃ p c q, l = p ++ c :: q ∧ kind c = .claim a ∧ run kind p = none ∧
      (∀ d ∈ q, kind d ≠ .clear) ∧ n = q.countP (fun d => (kind d).isUse) := by
  constructor
  · intro h
    -- the claim is the last event, or the one of the run before it
    induction l using List.reverseRecOn generalizing n with
    | nil => cases h
    | append_singleton l d ih =>
        rw [run_concat] at h
        have hlater : ∀ m, run kind l = some (a, m) → kind d ≠ .clear →
            n = m + (if (kind d).isUse then 1 else 0) →
            ∃ p c q, l ++ [d] = p ++ c :: q ∧ kind c = .claim a ∧ run kind p = none ∧
              (∀ e ∈ q, kind e ≠ .clear) ∧ n = q.countP (fun e => (kind e).isUse) := by
          intro m hm hd hn
          obtain ⟨p, c, q, rfl, hc, hp, hq, rfl⟩ := ih hm
          refine ⟨p, c, q ++ [d], by simp, hc, hp, ?_, ?_⟩
          · intro e he
            rcases List.mem_append.mp he with he | he
            · exact hq e he
            · rw [List.mem_singleton.mp he]
              exact hd
          · rw [hn, List.countP_append, List.countP_singleton]
        cases hkind : kind d with
        | claim b =>
            rw [hkind] at h
            cases hl : run kind l with
            | none =>
                rw [hl] at h
                cases h
                exact ⟨l, d, [], rfl, hkind, hl, by simp, rfl⟩
            | some x =>
                rw [hl] at h
                cases h
                exact hlater n hl (by simp [hkind]) (by simp [hkind, Kind.isUse])
        | clear =>
            rw [hkind] at h
            cases h
        | use =>
            rw [hkind] at h
            obtain ⟨x, hl, hx⟩ := Option.map_eq_some_iff.mp h
            cases hx
            exact hlater x.2 hl (by simp [hkind]) (by simp [hkind, Kind.isUse])
        | other =>
            rw [hkind] at h
            exact hlater n h (by simp [hkind]) (by simp [hkind, Kind.isUse])
  · rintro ⟨p, c, q, rfl, hc, hp, hq, rfl⟩
    exact run_claimed kind hp hc q hq

/-- The cell is free if every claim was cleared. -/
theorem run_eq_none_iff {l : List C} : run kind l = none ↔
    ∀ p c q a, l = p ++ c :: q → kind c = .claim a → ∃ d ∈ q, kind d = .clear := by
  constructor
  · rintro h p c q a rfl hc
    by_contra hno
    push Not at hno
    -- from the claim on somebody has the cell
    have hkept : ∀ q : List C, (∀ d ∈ q, kind d ≠ .clear) → run kind (p ++ c :: q) ≠ none := by
      intro q hq
      cases hp : run kind p with
      | none => rw [run_claimed kind hp hc q hq]; simp
      | some x =>
          obtain ⟨p', c', q', rfl, hc', hp', hq', -⟩ := (run_eq_some_iff kind).mp hp
          rw [List.append_assoc, List.cons_append, run_claimed kind hp' hc']
          · simp
          · intro d hd
            rcases List.mem_append.mp hd with hd | hd
            · exact hq' d hd
            · rcases List.mem_cons.mp hd with rfl | hd
              · simp [hc]
              · exact hq d hd
    exact hkept q hno h
  · intro h
    cases hl : run kind l with
    | none => rfl
    | some x =>
        obtain ⟨p, c, q, hsplit, hc, -, hq, -⟩ := (run_eq_some_iff kind (n := x.2)).mp hl
        obtain ⟨d, hd, hclear⟩ := h p c q x.1 hsplit hc
        exact absurd hclear (hq d hd)

end

end Claims
