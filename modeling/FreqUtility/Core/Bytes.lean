/-
Module: FreqUtility.Core.Bytes
Layer: Core
Purpose: Bytes, the C-locale character tests, and the file buffer. A byte is a `UInt8`; `tolower` and
  `isalpha` are those of the C locale, where bytes from 0x80 on are non-letters and unchanged. A
  pointer or iterator into the buffer is an offset. The program never dereferences the offset one past
  the end; `byteAt` reads a non-letter there, so the end of the buffer and a delimiter close a word in
  the same way.
Imports: Mathlib.Tactic
Trusted boundary: none
Main exports: Buffer, Word, toLower, isAlpha, isDelim, lower, byteAt, delimAt, slice
Open obligations: none
-/
import Mathlib.Tactic

namespace FreqUtility

/-- The bytes of the file. -/
abbrev Buffer := List UInt8

/-- The bytes of one word: the key of a frequency map. -/
abbrev Word := List UInt8

/-- `std::tolower` of the C locale. -/
def toLower (c : UInt8) : UInt8 :=
  if 0x41 ≤ c ∧ c ≤ 0x5A then c + 0x20 else c

/-- `std::isalpha` of the C locale. -/
def isAlpha (c : UInt8) : Bool :=
  (0x41 ≤ c && c ≤ 0x5A) || (0x61 ≤ c && c ≤ 0x7A)

/-- A delimiter is any byte that is not a letter. [SRC utils.h:58-60] -/
def isDelim (c : UInt8) : Bool := !isAlpha c

/-- The upper-case letters: the bytes that `toLower` changes. -/
def isUpper (c : UInt8) : Bool := 0x41 ≤ c && c ≤ 0x5A

theorem toLower_of_isUpper {c : UInt8} (h : isUpper c = true) : toLower c = c + 0x20 := by
  simp only [isUpper, Bool.and_eq_true, decide_eq_true_eq] at h
  rw [toLower, if_pos h]

theorem toLower_of_not_isUpper {c : UInt8} (h : isUpper c = false) : toLower c = c := by
  simp only [isUpper, Bool.and_eq_false_iff, decide_eq_false_iff_not] at h
  rw [toLower, if_neg (not_and_or.mpr h)]

private theorem toNat_add_of_isUpper {c : UInt8} (h : isUpper c = true) :
    (c + 0x20).toNat = c.toNat + 32 ∧ 65 ≤ c.toNat ∧ c.toNat ≤ 90 := by
  simp only [isUpper, Bool.and_eq_true, decide_eq_true_eq, UInt8.le_iff_toNat_le] at h
  have hlow : 65 ≤ c.toNat := h.1
  have hhigh : c.toNat ≤ 90 := h.2
  refine ⟨?_, hlow, hhigh⟩
  rw [UInt8.toNat_add]
  change (c.toNat + 32) % 256 = c.toNat + 32
  omega

/-- `toLower` changes exactly the upper-case letters. -/
theorem toLower_eq_self_iff {c : UInt8} : toLower c = c ↔ isUpper c = false := by
  constructor
  · intro h
    by_contra hupper
    rw [Bool.not_eq_false] at hupper
    rw [toLower_of_isUpper hupper] at h
    have hvalue := congrArg UInt8.toNat h
    rw [(toNat_add_of_isUpper hupper).1] at hvalue
    omega
  · exact toLower_of_not_isUpper

/-- No upper-case letter is left after `toLower`. -/
@[simp] theorem isUpper_toLower (c : UInt8) : isUpper (toLower c) = false := by
  cases hupper : isUpper c with
  | false => rw [toLower_of_not_isUpper hupper, hupper]
  | true =>
      obtain ⟨hadd, hlow, hhigh⟩ := toNat_add_of_isUpper hupper
      rw [toLower_of_isUpper hupper]
      simp only [isUpper, Bool.and_eq_false_iff, decide_eq_false_iff_not, UInt8.le_iff_toNat_le,
        hadd]
      right
      change ¬ c.toNat + 32 ≤ 90
      omega

@[simp] theorem toLower_toLower (c : UInt8) : toLower (toLower c) = toLower c :=
  toLower_eq_self_iff.mpr (isUpper_toLower c)

/-- Only the zero byte is lowered to zero. -/
theorem toLower_ne_zero {c : UInt8} (h : c ≠ 0) : toLower c ≠ 0 := by
  cases hupper : isUpper c with
  | false => rwa [toLower_of_not_isUpper hupper]
  | true =>
      obtain ⟨hadd, -, -⟩ := toNat_add_of_isUpper hupper
      rw [toLower_of_isUpper hupper]
      intro hzero
      rw [hzero] at hadd
      exact absurd hadd.symm (Nat.succ_ne_zero _)

/-- Lowering keeps letters letters and delimiters delimiters. -/
@[simp] theorem isAlpha_toLower (c : UInt8) : isAlpha (toLower c) = isAlpha c := by
  cases hupper : isUpper c with
  | false => rw [toLower_of_not_isUpper hupper]
  | true =>
      obtain ⟨hadd, hlow, hhigh⟩ := toNat_add_of_isUpper hupper
      have halpha : isAlpha c = true := by
        unfold isUpper at hupper
        rw [isAlpha, hupper, Bool.true_or]
      rw [halpha, toLower_of_isUpper hupper]
      simp only [isAlpha, Bool.or_eq_true, Bool.and_eq_true, decide_eq_true_eq,
        UInt8.le_iff_toNat_le, hadd]
      right
      change 97 ≤ c.toNat + 32 ∧ c.toNat + 32 ≤ 122
      omega

/-- A lowered letter is one of `a` to `z`. -/
theorem isAlpha_lower_range {c : UInt8} (halpha : isAlpha (toLower c) = true) :
    0x61 ≤ toLower c ∧ toLower c ≤ 0x7A := by
  have hupper := isUpper_toLower c
  unfold isUpper at hupper
  rw [isAlpha, hupper, Bool.false_or, Bool.and_eq_true] at halpha
  exact ⟨of_decide_eq_true halpha.1, of_decide_eq_true halpha.2⟩

/-! ### The buffer -/

/-- `std::transform` of the whole buffer by `tolower`, in place. -/
def lower (data : Buffer) : Buffer := data.map toLower

/-- The byte under an iterator. -/
def byteAt (data : Buffer) (i : ℕ) : UInt8 := data[i]?.getD 0

/-- `is_delim` of the byte under an iterator. -/
def delimAt (data : Buffer) (i : ℕ) : Bool := isDelim (byteAt data i)

/-- The text of `[first, last)`: `std::string_view(begin, end - begin)`. -/
def slice (data : Buffer) (first last : ℕ) : Word := (data.drop first).take (last - first)

@[simp] theorem length_lower (data : Buffer) : (lower data).length = data.length :=
  List.length_map _

@[simp] theorem lower_lower (data : Buffer) : lower (lower data) = lower data := by
  simp [lower]

@[simp] theorem byteAt_lower (data : Buffer) (i : ℕ) :
    byteAt (lower data) i = toLower (byteAt data i) := by
  rw [byteAt, byteAt, lower, List.getElem?_map]
  cases data[i]? with
  | none => rfl
  | some c => rfl

@[simp] theorem delimAt_lower (data : Buffer) (i : ℕ) : delimAt (lower data) i = delimAt data i := by
  rw [delimAt, delimAt, byteAt_lower, isDelim, isDelim, isAlpha_toLower]

theorem byteAt_of_length_le {data : Buffer} {i : ℕ} (h : data.length ≤ i) : byteAt data i = 0 := by
  rw [byteAt, List.getElem?_eq_none h]
  rfl

/-- A buffer is the list of its bytes. -/
theorem map_byteAt_range (data : Buffer) : (List.range data.length).map (byteAt data) = data := by
  apply List.ext_getElem?
  intro i
  rw [List.getElem?_map]
  rcases Nat.lt_or_ge i data.length with hlt | hge
  · rw [List.getElem?_range hlt, Option.map_some, byteAt, List.getElem?_eq_getElem hlt]
    rfl
  · rw [List.getElem?_eq_none hge, List.getElem?_eq_none (by rwa [List.length_range])]
    rfl

/-- Beyond the end of the buffer every offset reads as a delimiter. -/
theorem delimAt_of_length_le {data : Buffer} {i : ℕ} (h : data.length ≤ i) :
    delimAt data i = true := by
  rw [delimAt, byteAt_of_length_le h]
  rfl

theorem length_slice {data : Buffer} {first last : ℕ} (h : last ≤ data.length) :
    (slice data first last).length = last - first := by
  simp only [slice, List.length_take, List.length_drop]
  omega

theorem getElem?_slice (data : Buffer) (first last i : ℕ) :
    (slice data first last)[i]? = if i < last - first then data[first + i]? else none := by
  rw [slice, List.getElem?_take]
  split
  · rw [List.getElem?_drop]
  · rfl

/-- A slice reads the bytes of its range only. -/
theorem slice_congr {data data' : Buffer} {first last : ℕ}
    (hsame : ∀ i, first ≤ i → i < last → data[i]? = data'[i]?) :
    slice data first last = slice data' first last := by
  apply List.ext_getElem?
  intro i
  rw [getElem?_slice, getElem?_slice]
  split
  · exact hsame _ (by omega) (by omega)
  · rfl

/-- The bytes of a slice are those of the buffer. -/
theorem exists_of_mem_slice {data : Buffer} {first last : ℕ} {c : UInt8}
    (h : c ∈ slice data first last) :
    ∃ i, first ≤ i ∧ i < last ∧ byteAt data i = c := by
  obtain ⟨i, hi⟩ := List.mem_iff_getElem?.mp h
  rw [getElem?_slice] at hi
  split at hi
  · refine ⟨first + i, by omega, by omega, ?_⟩
    rw [byteAt, hi, Option.getD_some]
  · exact absurd hi (by simp)

end FreqUtility
