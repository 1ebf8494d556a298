import AArch64Os.Lib.Report
import AArch64Os.Syscall

/-! # Numbers on the UART

`uart_puthex` prints every number with as many characters, so a reader gets it back
(`readHex_uartPuthex`), and a text with such numbers in it is a report (`hexField`). -/

namespace AArch64Os

open Report

/-- The value of a hexadecimal digit. -/
def hexValue (c : BitVec 8) : ℕ := if c.toNat < 0x3A then c.toNat - 0x30 else c.toNat - 0x37

/-- Read what `uart_puthex` printed. -/
def readHex (l : List (BitVec 8)) : Word :=
  BitVec.ofNat 64 ((l.drop 2).foldl (fun n c => 16 * n + hexValue c) 0)

theorem hexValue_hexChar : ∀ d < 16, hexValue (hexChar d) = d ∧ hexChar d ≠ 0x0A := by decide

theorem uartPuts_of_no_newline {l : List (BitVec 8)} (h : ∀ c ∈ l, c ≠ 0x0A) : uartPuts l = l := by
  induction l with
  | nil => rfl
  | cons c l ih =>
      rw [List.forall_mem_cons] at h
      show uartPutc c ++ uartPuts l = c :: l
      rw [ih h.2, uartPutc, if_neg h.1]
      rfl

/-- `uart_puthex` prints `0x` and sixteen digits. -/
theorem uartPuthex_eq (w : Word) : uartPuthex w = ascii "0x" ++
    (List.range 16).map (fun i => hexChar (w.toNat / 2 ^ (60 - i * 4) % 16)) := by
  apply uartPuts_of_no_newline
  intro c hc
  rcases List.mem_append.mp hc with hc | hc
  · exact (by decide : ∀ c ∈ ascii "0x", c ≠ 0x0A) c hc
  · obtain ⟨i, -, rfl⟩ := List.mem_map.mp hc
    exact (hexValue_hexChar _ (Nat.mod_lt _ (by decide))).2

/-- The digits of a number, the first one first. -/
theorem foldl_digits (n v : ℕ) : ((List.range n).map (fun i => v / 16 ^ (n - 1 - i) % 16)).foldl
    (fun m d => 16 * m + d) 0 = v % 16 ^ n := by
  induction n generalizing v with
  | zero => simp [Nat.mod_one]
  | succ n ih =>
      have hfront : (List.range n).map (fun i => v / 16 ^ (n + 1 - 1 - i) % 16) =
          (List.range n).map (fun i => v / 16 / 16 ^ (n - 1 - i) % 16) := by
        apply List.map_congr_left
        intro i hi
        rw [List.mem_range] at hi
        rw [Nat.div_div_eq_div_mul, ← pow_succ', show n - 1 - i + 1 = n + 1 - 1 - i by omega]
      rw [List.range_succ, List.map_append, List.foldl_append, hfront, ih]
      simp only [List.map_cons, List.map_nil, List.foldl_cons, List.foldl_nil]
      rw [show n + 1 - 1 - n = 0 by omega, pow_zero, Nat.div_one, pow_succ', Nat.mod_mul]
      omega

theorem readHex_uartPuthex (w : Word) : readHex (uartPuthex w) = w := by
  have hdigits :
      ((List.range 16).map (fun i => hexChar (w.toNat / 2 ^ (60 - i * 4) % 16))).map hexValue =
      (List.range 16).map (fun i => w.toNat / 16 ^ (16 - 1 - i) % 16) := by
    rw [List.map_map]
    apply List.map_congr_left
    intro i hi
    rw [List.mem_range] at hi
    rw [Function.comp_apply, (hexValue_hexChar _ (Nat.mod_lt _ (by decide))).1,
      show (16 : ℕ) = 2 ^ 4 by rfl, ← pow_mul, show 60 - i * 4 = 4 * (2 ^ 4 - 1 - i) by omega]
  unfold readHex
  rw [uartPuthex_eq, List.drop_left' (by rfl), ← List.foldl_map, hdigits, foldl_digits]
  apply BitVec.eq_of_toNat_eq
  rw [BitVec.toNat_ofNat]
  have hlt := w.isLt
  omega

/-- A number as a field. -/
def hexField : Field Word (BitVec 8) where
  width := 18
  print := uartPuthex
  read := readHex
  length_print w := by simp [uartPuthex_eq, ascii]
  read_print := readHex_uartPuthex

@[simp] theorem hexField_print (w : Word) : hexField.print w = uartPuthex w := rfl

end AArch64Os
