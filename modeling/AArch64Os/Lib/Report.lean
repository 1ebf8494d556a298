import Mathlib.Data.List.Basic

/-! # Reports that can be read back

A report is a sequence of texts with a field of fixed width behind each of them, and a text may
depend on the fields in front of it.  A reader that knows the texts gets all fields back
(`read_print`). -/

namespace Report

variable {α β : Type*}

/-- How a value is printed, always as many characters, and read. -/
structure Field (α β : Type*) where
  width : ℕ
  print : α → List β
  read : List β → α
  length_print : ∀ a, (print a).length = width
  read_print : ∀ a, read (print a) = a

/-- The text in front of each field, from the values of the fields in front of it. -/
abbrev Template (α β : Type*) := List (List α → List β)

/-- Print values, behind those that are `seen`. -/
def print (F : Field α β) : Template α β → List α → List α → List β
  | text :: rest, seen, a :: as => text seen ++ (F.print a ++ print F rest (seen ++ [a]) as)
  | _, _, _ => []

/-- Read values: all that are seen in the end, and what is left. -/
def read [DecidableEq β] (F : Field α β) : Template α β → List α → List β → Option (List α × List β)
  | [], seen, l => some (seen, l)
  | text :: rest, seen, l =>
      if text seen <+: l then
        let l := l.drop (text seen).length
        read F rest (seen ++ [F.read (l.take F.width)]) (l.drop F.width)
      else none

/-- **What is printed is read.** -/
theorem read_print [DecidableEq β] (F : Field α β) (T : Template α β) (seen as : List α)
    (l : List β)
    (h : as.length = T.length) : read F T seen (print F T seen as ++ l) = some (seen ++ as, l) := by
  induction T generalizing seen as with
  | nil =>
      obtain rfl := List.length_eq_zero_iff.mp h
      simp [read, print]
  | cons text rest ih =>
      obtain ⟨a, as, rfl⟩ := List.exists_cons_of_length_eq_add_one h
      have hwidth := F.length_print a
      simp only [read, print, List.append_assoc]
      rw [if_pos (List.prefix_append _ _), List.drop_left, ← hwidth, List.take_left, List.drop_left,
        F.read_print, ih _ as (Nat.succ.inj h)]
      simp

theorem print_append (F : Field α β) {T : Template α β} {as : List α} (h : as.length = T.length)
    (U : Template α β) (seen bs : List α) :
    print F (T ++ U) seen (as ++ bs) = print F T seen as ++ print F U (seen ++ as) bs := by
  induction T generalizing seen as with
  | nil =>
      obtain rfl := List.length_eq_zero_iff.mp h
      simp [print]
  | cons text rest ih =>
      obtain ⟨a, as, rfl⟩ := List.exists_cons_of_length_eq_add_one h
      simp only [List.cons_append, print, ih (Nat.succ.inj h), List.append_assoc, List.nil_append]

/-- Another report begins with another text. -/
theorem read_eq_none [DecidableEq β] (F : Field α β) {text : List α → List β} {seen : List α}
    {l m : List β} (hl : m <+: l) (hm : ¬ (text seen <+: m ∨ m <+: text seen))
    (rest : Template α β) : read F (text :: rest) seen l = none := by
  apply if_neg
  intro h
  exact hm (List.prefix_or_prefix_of_prefix h hl)

end Report
