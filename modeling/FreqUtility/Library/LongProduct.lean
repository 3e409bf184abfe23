/-
Module: FreqUtility.Library.LongProduct
Layer: Library
Purpose: Sums and products of words that wrap. A sum modulo `W` is smaller than its first summand exactly when it
  has wrapped, so the comparison is its carry; from that, the long multiplication of two words of two limbs
  each gives both words of the exact product.
Imports: Mathlib.Tactic
Trusted boundary: none (fully proved)
Main exports: carry, add_mod_carry, mul_base_mod, two_limb_product
Open obligations: none
-/
import Mathlib.Tactic

namespace LongProduct

/-- The carry of a sum that wraps at `W`, read off by comparing the sum with a summand. -/
def carry (W x y : ℕ) : ℕ := if (x + y) % W < x then 1 else 0

theorem add_mod_carry {W x y : ℕ} (hx : x < W) (hy : y < W) :
    (x + y) % W + W * carry W x y = x + y := by
  rcases Nat.lt_or_ge (x + y) W with hlt | hge
  · have hno : ¬ (x + y) % W < x := by
      rw [Nat.mod_eq_of_lt hlt]
      exact Nat.not_lt.mpr (Nat.le_add_right x y)
    rw [carry, if_neg hno, Nat.mod_eq_of_lt hlt]
    rfl
  · have hmod : (x + y) % W = x + y - W := by
      rw [Nat.mod_eq_sub_mod hge, Nat.mod_eq_of_lt (by omega)]
    have hyes : (x + y) % W < x := by
      rw [hmod]
      omega
    rw [carry, if_pos hyes, hmod]
    omega

/-- Shifting a word up by one limb: what stays, and what goes into the next word. -/
theorem mul_base_mod (B m : ℕ) : m * B % (B * B) + B * B * (m / B) = m * B := by
  rw [Nat.mul_mod_mul_right]
  calc m % B * B + B * B * (m / B) = (m % B + B * (m / B)) * B := by ring
    _ = m * B := by rw [Nat.mod_add_div]

/-- Long multiplication. The partial products are those of the high limbs, the two mixed ones, and that of the
    low limbs; the word of the low limbs takes the lower halves of the mixed ones with a carry each, and the
    word of the high limbs their upper halves and the two carries. -/
theorem two_limb_product {B ha la hb lb : ℕ} (hha : ha < B) (hla : la < B) (hhb : hb < B) (hlb : lb < B) :
    ∀ t lo hi, t = (la * lb + ha * lb * B % (B * B)) % (B * B) →
      lo = (t + hb * la * B % (B * B)) % (B * B) →
      hi = (ha * hb + ha * lb / B + hb * la / B +
        (carry (B * B) (la * lb) (ha * lb * B % (B * B)) + carry (B * B) t (hb * la * B % (B * B)))) % (B * B) →
      lo + B * B * hi = (ha * B + la) * (hb * B + lb) := by
  rintro t lo hi ht hlo hhi
  have hW : 0 < B * B := Nat.mul_pos (Nat.zero_lt_of_lt hha) (Nat.zero_lt_of_lt hha)
  have hlow : la * lb < B * B := Nat.mul_lt_mul'' hla hlb
  have htlt : t < B * B := ht ▸ Nat.mod_lt _ hW
  have hfirst := add_mod_carry hlow (Nat.mod_lt (ha * lb * B) hW)
  have hsecond := add_mod_carry htlt (Nat.mod_lt (hb * la * B) hW)
  rw [← ht] at hfirst
  rw [← hlo] at hsecond
  have hmixed := mul_base_mod B (ha * lb)
  have hmixed' := mul_base_mod B (hb * la)
  -- Without the last remainder the sum is exact.
  have hexact : lo + B * B * (ha * hb + ha * lb / B + hb * la / B +
      (carry (B * B) (la * lb) (ha * lb * B % (B * B)) + carry (B * B) t (hb * la * B % (B * B)))) =
      (ha * B + la) * (hb * B + lb) := by
    linarith
  -- The product has two words, so the remainder changes nothing.
  have hleft : ha * B + la < B * B := by nlinarith
  have hright : hb * B + lb < B * B := by nlinarith
  have hproduct : (ha * B + la) * (hb * B + lb) < B * B * (B * B) := Nat.mul_lt_mul'' hleft hright
  have hword : ha * hb + ha * lb / B + hb * la / B +
      (carry (B * B) (la * lb) (ha * lb * B % (B * B)) + carry (B * B) t (hb * la * B % (B * B))) < B * B := by
    apply Nat.lt_of_mul_lt_mul_left (a := B * B)
    omega
  rw [hhi, Nat.mod_eq_of_lt hword, hexact]

end LongProduct
