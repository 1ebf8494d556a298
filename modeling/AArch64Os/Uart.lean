import AArch64Os.Lib.BoundedFifo
import AArch64Os.Lib.Runs
import AArch64Os.Syscall

/-! # The transmitter of the UART

`uart_putc` polls the flag register of the PL011 and writes to its data register, while the device
shifts bytes out at its own pace.  However the two are interleaved, what leaves the device is the
text that the rest of this development takes `uart_puts` to print, byte for byte
(`uart_transmits`). -/

namespace AArch64Os

open BoundedFifo Relation Runs

/-! ### The driver and the device -/

/-- Where `uart_puts` is: at the test of its loop, or inside `uart_putc`. -/
inductive PutPoint
  | test
  | poll
  | write
  | pollCr
  | writeCr
deriving DecidableEq

/-- The FIFO of the device with what has left it, the string from the current character on, and
the strings of the calls to come. -/
structure UartSys where
  tx : State (BitVec 8)
  rest : List (BitVec 8)
  point : PutPoint
  todo : List (List (BitVec 8))

/-- A step of the driver on a device whose FIFO holds `depth` bytes; none if all calls have
returned. -/
def UartSys.put (depth : ℕ) (u : UartSys) : Option UartSys :=
  match u.point, u.rest with
  -- while (*s)
  | .test, [] =>
      match u.todo with
      | [] => none
      | s :: todo => some { u with rest := s, todo := todo }
  | .test, _ :: _ => some { u with point := .poll }
  -- while (uart_read(UART_FR) & UART_FR_TXFF);
  | .poll, _ => some (if Full depth u.tx then u else { u with point := .write })
  -- uart_write(UART_DR, (uint32_t)c);
  | .write, c :: l =>
      some (if c = 0x0A then { u with tx := push depth u.tx c, point := .pollCr }
        else { u with tx := push depth u.tx c, rest := l, point := .test })
  | .pollCr, _ => some (if Full depth u.tx then u else { u with point := .writeCr })
  | .writeCr, _ :: l => some { u with tx := push depth u.tx 0x0D, rest := l, point := .test }
  | .write, [] => none
  | .writeCr, [] => none

/-- The driver makes a step, or the device sends a byte. -/
inductive UartStep (depth : ℕ) : UartSys → UartSys → Prop
  | put {u u' : UartSys} (h : u.put depth = some u') : UartStep depth u u'
  | shift {u : UartSys} {tx : State (BitVec 8)} (h : Shift u.tx tx) :
    UartStep depth u { u with tx := tx }

/-- Before the first call. -/
def UartSys.start (tx : State (BitVec 8)) (strings : List (List (BitVec 8))) : UartSys :=
  ⟨tx, [], .test, strings⟩

/-- All calls have returned, and everything is sent. -/
def UartSys.Done (u : UartSys) : Prop :=
  u.point = .test ∧ u.rest = [] ∧ u.todo = [] ∧ u.tx.items = []

/-! ### What is still to be written -/

/-- How far it is to the next write. -/
def PutPoint.distance : PutPoint → ℕ
  | .test => 2
  | .poll => 1
  | .write => 0
  | .pollCr => 1
  | .writeCr => 0

namespace UartSys

/-- The bytes that the current call and those to come will write. -/
def pending (u : UartSys) : List (BitVec 8) :=
  (match u.point with
    | .pollCr => 0x0D :: uartPuts u.rest.tail
    | .writeCr => 0x0D :: uartPuts u.rest.tail
    | _ => uartPuts u.rest) ++ u.todo.flatMap uartPuts

/-- A bound for the steps to come that are not polls of a full FIFO. -/
def work (u : UartSys) : ℕ :=
  5 * u.pending.length + u.tx.items.length + u.todo.length + u.point.distance

end UartSys

/-- The invariant: `text` is what was written and what is still to be written. -/
structure UartInv (depth : ℕ) (text : List (BitVec 8)) (u : UartSys) : Prop where
  text : u.tx.all ++ u.pending = text
  bound : u.tx.items.length ≤ depth
  /-- the driver writes when it has seen that there is room -/
  room : u.point = .write ∨ u.point = .writeCr → ¬ Full depth u.tx
  char : u.point ≠ .test → u.rest ≠ []
  newline : u.point = .pollCr ∨ u.point = .writeCr → u.rest.head? = some 0x0A

section
variable {depth : ℕ} {text : List (BitVec 8)} {u u' : UartSys}

theorem uartPuts_cons (c : BitVec 8) (l : List (BitVec 8)) :
    uartPuts (c :: l) = uartPutc c ++ uartPuts l := List.flatMap_cons

/-- A write that finds room. -/
theorem UartInv.written {q : State (BitVec 8)} {c : BitVec 8} {l : List (BitVec 8)}
    (h : q.all ++ (c :: l) = text) (hroom : ¬ Full depth q) : (push depth q c).all ++ l = text := by
  rw [all_push hroom, List.append_assoc]
  exact h

/-- **A step of the driver.** -/
theorem UartInv.put (h : UartInv depth text u) (hs : u.put depth = some u') :
    UartInv depth text u' := by
  obtain ⟨tx, rest, point, todo⟩ := u
  cases point with
  | test =>
      cases rest with
      | nil =>
          cases todo with
          | nil => cases hs
          | cons s todo =>
              cases hs
              exact ⟨h.text, h.bound, by simp, by simp, by simp⟩
      | cons c l =>
          cases hs
          exact ⟨h.text, h.bound, by simp, by simp, by simp⟩
  | poll =>
      have hchar := h.char (by simp)
      cases hs
      split_ifs with hfull
      · exact h
      · exact ⟨h.text, h.bound, fun _ => hfull, fun _ => hchar, by simp⟩
  | write =>
      have hroom := h.room (.inl rfl)
      cases rest with
      | nil => cases hs
      | cons c l =>
          have htext : tx.all ++ (uartPuts (c :: l) ++ todo.flatMap uartPuts) = text := h.text
          cases hs
          split_ifs with hc
          · subst hc
            exact ⟨UartInv.written htext hroom, bound_push h.bound, by simp, by simp, by simp⟩
          · rw [uartPuts_cons, uartPutc, if_neg hc] at htext
            exact ⟨UartInv.written htext hroom, bound_push h.bound, by simp, by simp, by simp⟩
  | pollCr =>
      have hchar := h.char (by simp)
      have hnewline := h.newline (.inl rfl)
      cases hs
      split_ifs with hfull
      · exact h
      · exact ⟨h.text, h.bound, fun _ => hfull, fun _ => hchar, fun _ => hnewline⟩
  | writeCr =>
      have hroom := h.room (.inr rfl)
      cases rest with
      | nil => cases hs
      | cons c l =>
          have htext : tx.all ++ (0x0D :: (uartPuts l ++ todo.flatMap uartPuts)) = text := h.text
          cases hs
          exact ⟨UartInv.written htext hroom, bound_push h.bound, by simp, by simp, by simp⟩

/-- **A step of either side.** -/
theorem UartInv.step (h : UartInv depth text u) (hs : UartStep depth u u') :
    UartInv depth text u' := by
  cases hs with
  | put hs => exact h.put hs
  | @shift tx hs =>
      have hlength := hs.length_eq
      have hbound := h.bound
      refine ⟨?_, ?_, fun hp hfull => ?_, h.char, h.newline⟩
      · show tx.all ++ u.pending = text
        rw [hs.all_eq]
        exact h.text
      · show tx.items.length ≤ depth
        omega
      · have hfull' : depth ≤ tx.items.length := hfull
        omega

/-- A step of the driver that is not a poll of a full FIFO leaves less to do. -/
theorem UartSys.put_work (hs : u.put depth = some u') : u' = u ∨ u'.work < u.work := by
  obtain ⟨tx, rest, point, todo⟩ := u
  cases point with
  | test =>
      cases rest with
      | nil =>
          cases todo with
          | nil => cases hs
          | cons s todo =>
              cases hs
              right
              simp [UartSys.work, UartSys.pending, PutPoint.distance, uartPuts]
      | cons c l =>
          cases hs
          exact .inr (Nat.lt_succ_self _)
  | poll =>
      cases hs
      split_ifs
      · exact .inl rfl
      · exact .inr (Nat.lt_succ_self _)
  | write =>
      cases rest with
      | nil => cases hs
      | cons c l =>
          have hpush := length_push_le (n := depth) tx c
          cases hs
          right
          split_ifs with hc
          · subst hc
            have hputs : uartPuts (0x0A :: l) = 0x0A :: 0x0D :: uartPuts l := uartPuts_cons _ _
            simp only [UartSys.work, UartSys.pending, PutPoint.distance, List.tail_cons, hputs,
              List.length_append, List.length_cons]
            omega
          · have hputs : uartPuts (c :: l) = c :: uartPuts l := by
              rw [uartPuts_cons, uartPutc, if_neg hc]
              rfl
            simp only [UartSys.work, UartSys.pending, PutPoint.distance, hputs, List.length_append,
              List.length_cons]
            omega
  | pollCr =>
      cases hs
      split_ifs
      · exact .inl rfl
      · exact .inr (Nat.lt_succ_self _)
  | writeCr =>
      cases rest with
      | nil => cases hs
      | cons c l =>
          have hpush := length_push_le (n := depth) tx 0x0D
          cases hs
          right
          simp only [UartSys.work, UartSys.pending, PutPoint.distance, List.tail_cons,
            List.length_append, List.length_cons]
          omega

/-- A step does nothing, or there is less to do. -/
theorem UartStep.work_lt (hs : UartStep depth u u') : u' = u ∨ u'.work < u.work := by
  cases hs with
  | put hs => exact UartSys.put_work hs
  | @shift tx hs =>
      have hlength := hs.length_eq
      right
      show 5 * u.pending.length + tx.items.length + u.todo.length + u.point.distance <
        5 * u.pending.length + u.tx.items.length + u.todo.length + u.point.distance
      omega

/-- The driver is not stuck when the FIFO is empty. -/
theorem UartInv.put_empty (h : UartInv depth text u) (hdepth : 0 < depth) (hempty : u.tx.items = [])
    (hd : ¬ u.Done) : ∃ u', u.put depth = some u' ∧ u' ≠ u := by
  have hroom : ¬ Full depth u.tx := by
    unfold Full
    rw [hempty]
    exact Nat.not_le.mpr hdepth
  have hchar := h.char
  obtain ⟨tx, rest, point, todo⟩ := u
  have hpoint : ∀ {v : UartSys}, v.point ≠ point → v ≠ ⟨tx, rest, point, todo⟩ :=
    fun hv he => hv (he ▸ rfl)
  cases point with
  | test =>
      cases rest with
      | nil =>
          cases todo with
          | nil => exact absurd ⟨rfl, rfl, rfl, hempty⟩ hd
          | cons s todo =>
              refine ⟨_, rfl, fun he => ?_⟩
              have htodo := congrArg (fun u : UartSys => u.todo.length) he
              simp at htodo
      | cons c l => exact ⟨_, rfl, hpoint (by simp)⟩
  | poll => exact ⟨_, congrArg some (if_neg hroom), hpoint (by simp)⟩
  | write =>
      cases rest with
      | nil => exact absurd rfl (hchar (by simp))
      | cons c l =>
          refine ⟨_, rfl, hpoint ?_⟩
          split_ifs <;> simp
  | pollCr => exact ⟨_, congrArg some (if_neg hroom), hpoint (by simp)⟩
  | writeCr =>
      cases rest with
      | nil => exact absurd rfl (hchar (by simp))
      | cons c l => exact ⟨_, rfl, hpoint (by simp)⟩

/-- As long as there is something to do, there is a step that does some of it. -/
theorem UartInv.progress (h : UartInv depth text u) (hdepth : 0 < depth) (hd : ¬ u.Done) :
    ∃ u', UartStep depth u u' ∧ u'.work < u.work := by
  by_cases hempty : u.tx.items = []
  · obtain ⟨u', hs, hne⟩ := h.put_empty hdepth hempty hd
    exact ⟨u', .put hs, (UartSys.put_work hs).resolve_left hne⟩
  · obtain ⟨tx, hs⟩ := exists_shift hempty
    have hstep : UartStep depth u { u with tx := tx } := .shift hs
    refine ⟨_, hstep, hstep.work_lt.resolve_left (fun he => ?_)⟩
    have hsame : tx = u.tx := congrArg UartSys.tx he
    have hlength := hs.length_eq
    rw [hsame] at hlength
    omega

/-- Everything is sent in the end. -/
theorem UartInv.completes (h : UartInv depth text u) (hdepth : 0 < depth) :
    ∃ v, ReflTransGen (UartStep depth) u v ∧ v.Done := by
  induction hn : u.work using Nat.strong_induction_on generalizing u with
  | _ n ih =>
      by_cases hd : u.Done
      · exact ⟨u, .refl, hd⟩
      · obtain ⟨u', hs, hlt⟩ := h.progress hdepth hd
        obtain ⟨v, hrun, hv⟩ := ih _ (hn ▸ hlt) (h.step hs) rfl
        exact ⟨v, .head hs hrun, hv⟩

end

theorem UartInv.start {depth : ℕ} {tx : State (BitVec 8)} (hb : tx.items.length ≤ depth)
    (strings : List (List (BitVec 8))) :
    UartInv depth (tx.all ++ strings.flatMap uartPuts) (UartSys.start tx strings) :=
  ⟨rfl, hb, by simp [UartSys.start], by simp [UartSys.start], by simp [UartSys.start]⟩

/-- **What the UART transmits**, however driver and device are interleaved: at any moment a
beginning of what was in the FIFO and the texts of the calls, none of it lost, doubled or out of
order, and all of it when the calls have returned and the FIFO is empty.  That comes about: a step
that is not a poll of a full FIFO leaves less to do, and until everything is sent there is one. -/
theorem uart_transmits (depth : ℕ) (hdepth : 0 < depth) (tx : State (BitVec 8))
    (hb : tx.items.length ≤ depth) (strings : List (List (BitVec 8))) {u : UartSys}
    (h : ReflTransGen (UartStep depth) (UartSys.start tx strings) u) :
    u.tx.taken <+: tx.all ++ strings.flatMap uartPuts ∧
      (u.Done → u.tx.taken = tx.all ++ strings.flatMap uartPuts) ∧
      (∀ u', UartStep depth u u' → u' = u ∨ u'.work < u.work) ∧
      ∃ v, ReflTransGen (UartStep depth) u v ∧ v.Done := by
  have hinv : UartInv depth (tx.all ++ strings.flatMap uartPuts) u :=
    run_invariant (.start hb strings) (fun _ _ hi hs => hi.step hs) h
  refine ⟨?_, ?_, fun _ => UartStep.work_lt, hinv.completes hdepth⟩
  · rw [← hinv.text, State.all, List.append_assoc]
    exact List.prefix_append _ _
  · rintro ⟨hpoint, hrest, htodo, hitems⟩
    rw [← hinv.text, State.all, hitems]
    simp [UartSys.pending, hpoint, hrest, htodo, uartPuts]

/-- A line on a device with room for one byte. -/
theorem uart_transmits_line : ∃ u : UartSys, u.Done ∧ u.tx.taken = ascii "Hi" ++ [0x0A, 0x0D] := by
  have hempty : (⟨[], []⟩ : State (BitVec 8)).items.length ≤ 1 := Nat.zero_le 1
  obtain ⟨v, hrun, hv⟩ := (uart_transmits 1 Nat.one_pos ⟨[], []⟩ hempty [ascii "Hi\n"] .refl).2.2.2
  exact ⟨v, hv, (uart_transmits 1 Nat.one_pos ⟨[], []⟩ hempty [ascii "Hi\n"] hrun).2.1 hv⟩

end AArch64Os
