/-
Module: FreqUtility.Library.Text
Layer: Library
Purpose: Texts as lists: pieces closed by a separator, a piece cut at its first separator, and numbers
  written in decimal. Each way of writing comes with a reader, and the reader gives back what was
  written as long as the separator does not occur inside.
Imports: Mathlib.Data.Nat.Digits.Defs, Mathlib.Data.Nat.Digits.Lemmas, Mathlib.Tactic
Trusted boundary: none (fully proved)
Main exports: mapM_map_eq_some, terminate, pieces, pieces_terminate, cut, cut_append, decimal,
  readDecimal, readDecimal_decimal, mem_decimal
Open obligations: none
-/
import Mathlib.Data.Nat.Digits.Defs
import Mathlib.Data.Nat.Digits.Lemmas
import Mathlib.Tactic

namespace Text

variable {α β : Type*}

/-- Reading back, one by one, what was written one by one. -/
theorem mapM_map_eq_some {write : α → β} {read : β → Option α} {xs : List α}
    (h : ∀ x ∈ xs, read (write x) = some x) : (xs.map write).mapM read = some xs := by
  induction xs with
  | nil => rfl
  | cons x xs ih =>
      obtain ⟨hhead, htail⟩ := List.forall_mem_cons.mp h
      rw [List.map_cons, List.mapM_cons, hhead, ih htail]
      rfl

/-! ### Pieces -/

variable [DecidableEq α] {sep : α}

/-- The pieces one after another, each closed by the separator. -/
def terminate (sep : α) (ps : List (List α)) : List α := ps.flatMap fun piece => piece ++ [sep]

/-- The pieces of a text whose pieces are closed by the separator. -/
def pieces (sep : α) (xs : List α) : List (List α) := (xs.splitOn sep).dropLast

theorem splitOn_terminate {ps : List (List α)} (h : ∀ piece ∈ ps, sep ∉ piece) :
    (terminate sep ps).splitOn sep = ps ++ [[]] := by
  induction ps with
  | nil => rfl
  | cons piece ps ih =>
      obtain ⟨hhead, htail⟩ := List.forall_mem_cons.mp h
      have hbefore : ∀ x ∈ piece, (x == sep) = false := by
        intro x hx
        exact beq_eq_false_iff_ne.mpr fun heq => hhead (heq ▸ hx)
      have happend : terminate sep (piece :: ps) = piece ++ sep :: terminate sep ps := by
        rw [terminate, List.flatMap_cons, List.append_assoc, List.singleton_append]
        rfl
      rw [happend, List.splitOn_append_cons_of_forall_mem_beq_eq_false hbefore sep (beq_self_eq_true sep),
        ih htail]
      rfl

theorem pieces_terminate {ps : List (List α)} (h : ∀ piece ∈ ps, sep ∉ piece) :
    pieces sep (terminate sep ps) = ps := by
  rw [pieces, splitOn_terminate h, List.dropLast_concat]

/-- The text before the first separator, and the text after it. -/
def cut (sep : α) (xs : List α) : Option (List α × List α) :=
  match xs.dropWhile (· ≠ sep) with
  | [] => none
  | _ :: rest => some (xs.takeWhile (· ≠ sep), rest)

theorem cut_append {xs ys : List α} (h : sep ∉ xs) : cut sep (xs ++ sep :: ys) = some (xs, ys) := by
  have hbefore : ∀ x ∈ xs, decide (x ≠ sep) = true := by
    intro x hx
    exact decide_eq_true fun heq => h (heq ▸ hx)
  have hdrop : (xs ++ sep :: ys).dropWhile (fun x => decide (x ≠ sep)) = sep :: ys := by
    rw [List.dropWhile_append_of_pos hbefore, List.dropWhile_cons_of_neg (by simp)]
  have htake : (xs ++ sep :: ys).takeWhile (fun x => decide (x ≠ sep)) = xs := by
    rw [List.takeWhile_append_of_pos hbefore, List.takeWhile_cons_of_neg (by simp), List.append_nil]
  rw [cut, hdrop]
  simp only [htake]

/-! ### Decimal numbers -/

/-- The character of a digit. -/
def digitByte (d : ℕ) : UInt8 := UInt8.ofNat (0x30 + d)

/-- The value of a digit character. -/
def digitValue (x : UInt8) : Option ℕ :=
  if 0x30 ≤ x ∧ x ≤ 0x39 then some (x.toNat - 0x30) else none

/-- The decimal digits, the most significant one first; zero has one digit. -/
def decimalDigits (n : ℕ) : List ℕ := if n = 0 then [0] else (Nat.digits 10 n).reverse

/-- A number in decimal. -/
def decimal (n : ℕ) : List UInt8 := (decimalDigits n).map digitByte

/-- The number written in decimal, if there is one. -/
def readDecimal (bytes : List UInt8) : Option ℕ := do
  let digits ← bytes.mapM digitValue
  if digits = [] then none else some (Nat.ofDigits 10 digits.reverse)

theorem lt_of_mem_decimalDigits {n d : ℕ} (h : d ∈ decimalDigits n) : d < 10 := by
  unfold decimalDigits at h
  split at h
  · rw [List.mem_singleton.mp h]
    decide
  · exact Nat.digits_lt_base (by decide) (List.mem_reverse.mp h)

theorem decimalDigits_ne_nil (n : ℕ) : decimalDigits n ≠ [] := by
  unfold decimalDigits
  split
  · exact List.cons_ne_nil _ _
  · rename_i hn
    rw [ne_eq, List.reverse_eq_nil_iff]
    exact Nat.digits_ne_nil_iff_ne_zero.mpr hn

theorem ofDigits_decimalDigits (n : ℕ) : Nat.ofDigits 10 (decimalDigits n).reverse = n := by
  unfold decimalDigits
  split
  · rename_i hn
    rw [hn]
    rfl
  · rw [List.reverse_reverse]
    exact Nat.ofDigits_digits 10 n

theorem digitValue_digitByte {d : ℕ} (h : d < 10) : digitValue (digitByte d) = some d := by
  revert d
  decide

/-- Reading a number back. -/
theorem readDecimal_decimal (n : ℕ) : readDecimal (decimal n) = some n := by
  have hdigits : (decimal n).mapM digitValue = some (decimalDigits n) :=
    mapM_map_eq_some fun d hd => digitValue_digitByte (lt_of_mem_decimalDigits hd)
  rw [readDecimal, hdigits]
  simp only [Option.bind_eq_bind, Option.bind_some, if_neg (decimalDigits_ne_nil n),
    ofDigits_decimalDigits]

/-- A number is written in digits. -/
theorem mem_decimal {n : ℕ} {x : UInt8} (h : x ∈ decimal n) : 0x30 ≤ x ∧ x ≤ 0x39 := by
  obtain ⟨d, hd, rfl⟩ := List.mem_map.mp h
  have hdigit : ∀ d, d < 10 → 0x30 ≤ digitByte d ∧ digitByte d ≤ 0x39 := by decide
  exact hdigit d (lt_of_mem_decimalDigits hd)

end Text
