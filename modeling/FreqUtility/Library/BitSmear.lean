/-
Module: FreqUtility.Library.BitSmear
Layer: Library
Purpose: Smearing the highest bit of a word to the right. Or-ing a number with itself shifted by 1, 2, 4, 8
  and 16 sets every bit at or below its highest one, as long as it has at most 32 bits. `Covers w x y`
  says how far the bits of `x` have been spread in `y`; one shift by `w` doubles the distance.
Imports: Mathlib.Tactic
Trusted boundary: none (fully proved)
Main exports: Covers, Covers.double, smear_eq
Open obligations: none
-/
import Mathlib.Tactic

namespace BitSmear

/-- `y` has a bit wherever `x` has one at most `w - 1` places further up. -/
def Covers (w x y : ℕ) : Prop := ∀ i, y.testBit i = true ↔ ∃ j, j < w ∧ x.testBit (i + j) = true

theorem Covers.one (x : ℕ) : Covers 1 x x := by
  intro i
  constructor
  · intro h
    exact ⟨0, Nat.one_pos, h⟩
  · rintro ⟨j, hj, h⟩
    have hj : j = 0 := Nat.lt_one_iff.mp hj
    rwa [hj] at h

/-- One more shift doubles the distance. -/
theorem Covers.double {w x y : ℕ} (h : Covers w x y) : Covers (w + w) x (y ||| y >>> w) := by
  intro i
  rw [Nat.testBit_or, Nat.testBit_shiftRight, Bool.or_eq_true, h i, h (w + i)]
  constructor
  · rintro (⟨j, hj, hbit⟩ | ⟨j, hj, hbit⟩)
    · exact ⟨j, Nat.lt_add_left w hj, hbit⟩
    · refine ⟨w + j, Nat.add_lt_add_left hj w, ?_⟩
      rwa [← Nat.add_assoc, Nat.add_comm i w]
  · rintro ⟨j, hj, hbit⟩
    rcases Nat.lt_or_ge j w with hlow | hhigh
    · exact Or.inl ⟨j, hlow, hbit⟩
    · refine Or.inr ⟨j - w, by omega, ?_⟩
      rwa [show w + i + (j - w) = i + j by omega]

/-- Once the distance covers the whole number, every bit below its length is set. -/
theorem Covers.eq_two_pow_sub_one {w x y : ℕ} (h : Covers w x y) (hx : x ≠ 0) (hw : x < 2 ^ w) :
    y = 2 ^ (x.log2 + 1) - 1 := by
  apply Nat.eq_of_testBit_eq
  intro i
  rw [Nat.testBit_two_pow_sub_one, Bool.eq_iff_iff, h i, decide_eq_true_iff]
  have hlog : x.log2 < w := (Nat.log2_lt hx).mpr hw
  constructor
  · rintro ⟨j, -, hbit⟩
    have hle := Nat.lt_of_le_of_lt (Nat.ge_two_pow_of_testBit hbit) Nat.lt_log2_self
    have := (Nat.pow_lt_pow_iff_right (by decide : 1 < 2)).mp hle
    omega
  · intro hi
    refine ⟨x.log2 - i, by omega, ?_⟩
    rw [Nat.add_sub_cancel' (Nat.le_of_lt_succ hi)]
    exact Nat.testBit_log2 hx

/-- Five shifts smear a number of at most 32 bits. -/
theorem smear_eq {x : ℕ} (hx : x ≠ 0) (hlt : x < 2 ^ 32) :
    let x₁ := x ||| x >>> 1
    let x₂ := x₁ ||| x₁ >>> 2
    let x₃ := x₂ ||| x₂ >>> 4
    let x₄ := x₃ ||| x₃ >>> 8
    x₄ ||| x₄ >>> 16 = 2 ^ (x.log2 + 1) - 1 :=
  (Covers.one x).double.double.double.double.double.eq_two_pow_sub_one hx hlt

end BitSmear
