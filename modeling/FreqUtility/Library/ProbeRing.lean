/-
Module: FreqUtility.Library.ProbeRing
Layer: Library
Purpose: Linear probing on a ring of slots, and the order that Robin Hood hashing keeps on it. Every slot
  has a weight; zero is the empty slot, and an occupant that stands `d` slots after its home weighs `d`
  units more than at home, where it weighs less than two units. The slots are `Ordered` when no occupant
  that has left its home outweighs the slot before it by more than one unit. A probe for an occupant
  then meets only slots that weigh at least what it is looking for, and a heavier newcomer may take a
  slot and push the old occupant on to the next one.
Imports: Mathlib.Data.Finset.Card, Mathlib.Tactic
Trusted boundary: none (fully proved)
Main exports: succ, walk, walk_eq_mod, walk_injOn, exists_walk_eq, Fits, Ordered, Ordered.update,
  Ordered.fits_pushed, Ordered.le_pushed, Ordered.le_walk, occupied, le_card_occupied, exists_walk_empty
Open obligations: none
-/
import Mathlib.Data.Finset.Card
import Mathlib.Tactic

namespace ProbeRing

/-! ### The ring -/

/-- The slot after `p` on a ring of `n` slots. -/
def succ (n p : ℕ) : ℕ := if p + 1 = n then 0 else p + 1

/-- The slot `d` steps after `b`. -/
def walk (n b : ℕ) : ℕ → ℕ
  | 0 => b
  | d + 1 => succ n (walk n b d)

variable {n b p q : ℕ}

@[simp] theorem walk_zero (n b : ℕ) : walk n b 0 = b := rfl

@[simp] theorem walk_succ (n b d : ℕ) : walk n b (d + 1) = succ n (walk n b d) := rfl

theorem succ_lt (hp : p < n) : succ n p < n := by
  unfold succ
  split <;> omega

theorem succ_ne_self (hn : 2 ≤ n) (p : ℕ) : succ n p ≠ p := by
  unfold succ
  split <;> omega

theorem succ_inj (h : succ n p = succ n q) : p = q := by
  unfold succ at h
  split at h <;> split at h <;> omega

theorem walk_lt (hb : b < n) (d : ℕ) : walk n b d < n := by
  induction d with
  | zero => exact hb
  | succ d ih => exact succ_lt ih

/-- A walk that starts one slot later is one step longer. -/
theorem walk_succ_start (n b d : ℕ) : walk n (succ n b) d = walk n b (d + 1) := by
  induction d with
  | zero => rfl
  | succ d ih => rw [walk_succ, ih, ← walk_succ]

theorem succ_eq_mod (hp : p < n) : succ n p = (p + 1) % n := by
  unfold succ
  split
  · rename_i h
    rw [h, Nat.mod_self]
  · exact (Nat.mod_eq_of_lt (by omega)).symm

theorem walk_eq_mod (hb : b < n) (d : ℕ) : walk n b d = (b + d) % n := by
  induction d with
  | zero => exact (Nat.mod_eq_of_lt hb).symm
  | succ d ih =>
      rw [walk_succ, succ_eq_mod (walk_lt hb d), ih, Nat.mod_add_mod, Nat.add_assoc]

/-- The first `n` slots of a walk are different. -/
theorem walk_injOn (hb : b < n) : Set.InjOn (walk n b) (Set.Iio n) := by
  intro i hi j hj h
  have hi' : i < n := hi
  have hj' : j < n := hj
  rw [walk_eq_mod hb, walk_eq_mod hb] at h
  have hmod : i ≡ j [MOD n] := Nat.ModEq.add_left_cancel' b h
  rwa [Nat.ModEq, Nat.mod_eq_of_lt hi', Nat.mod_eq_of_lt hj'] at hmod

/-- A walk of `n` slots visits every slot. -/
theorem exists_walk_eq (hb : b < n) (hp : p < n) : ∃ d < n, walk n b d = p := by
  refine ⟨(p + (n - b)) % n, Nat.mod_lt _ (by omega), ?_⟩
  rw [walk_eq_mod hb, Nat.add_mod_mod]
  have hsum : b + (p + (n - b)) = p + n := by omega
  rw [hsum, Nat.add_mod_right, Nat.mod_eq_of_lt hp]

/-! ### The order of the occupants -/

variable {u x : ℕ} {w : ℕ → ℕ}

/-- An occupant of weight `x` may stand in slot `p`: it is at home there, or the slot before is at most
    one unit lighter. -/
def Fits (u n : ℕ) (w : ℕ → ℕ) (p x : ℕ) : Prop :=
  ∀ q < n, succ n q = p → 2 * u ≤ x → x ≤ w q + u

/-- Every occupant fits its slot. -/
def Ordered (u n : ℕ) (w : ℕ → ℕ) : Prop :=
  ∀ p, Fits u n w p (w p)

theorem ordered_zero (u n : ℕ) : Ordered u n fun _ => 0 :=
  fun _ _ _ _ _ => Nat.zero_le _

/-- An occupant at home fits. -/
theorem fits_of_lt (h : x < 2 * u) : Fits u n w p x :=
  fun _ _ _ hfar => absurd hfar (Nat.not_le.mpr h)

/-- An occupant fits after a slot that is at most one unit lighter. -/
theorem fits_succ (h : x ≤ w p) : Fits u n w (succ n p) (x + u) := by
  intro q _ hsucc _
  rw [succ_inj hsucc]
  exact Nat.add_le_add_right h u

namespace Ordered

/-- A newcomer that fits and is at least as heavy may take the slot. -/
theorem update (h : Ordered u n w) (hfits : Fits u n w p x) (hle : w p ≤ x) :
    Ordered u n (Function.update w p x) := by
  intro p' q hq hsucc hfar
  have hgrown : w q ≤ Function.update w p x q := by
    by_cases hqp : q = p
    · rw [hqp, Function.update_self]
      exact hle
    · rw [Function.update_of_ne hqp]
  by_cases hp : p' = p
  · subst hp
    rw [Function.update_self] at hfar ⊢
    exact (hfits q hq hsucc hfar).trans (Nat.add_le_add_right hgrown u)
  · rw [Function.update_of_ne hp] at hfar ⊢
    exact (h p' q hq hsucc hfar).trans (Nat.add_le_add_right hgrown u)

/-- The old occupant, pushed on, fits the next slot. -/
theorem fits_pushed (hle : w p ≤ x) :
    Fits u n (Function.update w p x) (succ n p) (w p + u) :=
  fits_succ (by rwa [Function.update_self])

/-- The old occupant, pushed on, is at least as heavy as the next one. -/
theorem le_pushed (h : Ordered u n w) (hn : 2 ≤ n) (hp : p < n) (hocc : u ≤ w p) (x : ℕ) :
    Function.update w p x (succ n p) ≤ w p + u := by
  rw [Function.update_of_ne (succ_ne_self hn p)]
  by_cases hfar : 2 * u ≤ w (succ n p)
  · exact h _ p hp rfl hfar
  · omega

/-- Up to the slot of an occupant, every slot weighs at least what the occupant would weigh there. -/
theorem le_walk (h : Ordered u n w) (hb : b < n) (hx : u ≤ x) {d : ℕ}
    (hreach : x + d * u ≤ w (walk n b d)) {j : ℕ} (hj : j ≤ d) : x + j * u ≤ w (walk n b j) := by
  induction d with
  | zero =>
      rw [Nat.le_zero.mp hj]
      exact hreach
  | succ d ih =>
      rcases Nat.lt_or_eq_of_le hj with hlt | rfl
      · apply ih _ (Nat.le_of_lt_succ hlt)
        -- The occupant of the last slot is not at home, so the slot before is heavy enough.
        have hstep := h (walk n b (d + 1)) (walk n b d) (walk_lt hb d) rfl
        rw [Nat.add_mul, Nat.one_mul] at hreach
        have hback := hstep (by omega)
        omega
      · exact hreach

end Ordered

/-! ### Occupied and empty slots -/

/-- The slots in use. -/
def occupied (n : ℕ) (w : ℕ → ℕ) : Finset ℕ :=
  (Finset.range n).filter fun p => w p ≠ 0

theorem mem_occupied : p ∈ occupied n w ↔ p < n ∧ w p ≠ 0 := by
  rw [occupied, Finset.mem_filter, Finset.mem_range]

theorem exists_empty (h : (occupied n w).card < n) : ∃ p < n, w p = 0 := by
  by_contra hfull
  have hall : occupied n w = Finset.range n := by
    apply Finset.filter_true_of_mem
    intro p hp hzero
    exact hfull ⟨p, Finset.mem_range.mp hp, hzero⟩
  rw [hall, Finset.card_range] at h
  exact Nat.lt_irrefl n h

/-- A run of `k` occupied slots takes `k` of the occupants. -/
theorem le_card_occupied (hb : b < n) (hempty : ∃ p < n, w p = 0) {k : ℕ}
    (hrun : ∀ j < k, w (walk n b j) ≠ 0) : k ≤ (occupied n w).card := by
  have hkn : k ≤ n := by
    by_contra hlt
    obtain ⟨p, hp, hzero⟩ := hempty
    obtain ⟨d, hd, hwalk⟩ := exists_walk_eq hb hp
    exact hrun d (by omega) (by rw [hwalk]; exact hzero)
  have himage : (Finset.range k).image (walk n b) ⊆ occupied n w := by
    intro p hp
    obtain ⟨j, hj, rfl⟩ := Finset.mem_image.mp hp
    exact mem_occupied.mpr ⟨walk_lt hb j, hrun j (Finset.mem_range.mp hj)⟩
  have hinj : Set.InjOn (walk n b) (Finset.range k) := by
    apply (walk_injOn hb).mono
    intro j hj
    exact Nat.lt_of_lt_of_le (Finset.mem_range.mp hj) hkn
  calc k = (Finset.range k).card := (Finset.card_range k).symm
    _ = ((Finset.range k).image (walk n b)).card := (Finset.card_image_of_injOn hinj).symm
    _ ≤ (occupied n w).card := Finset.card_le_card himage

/-- Where there is an empty slot, a walk finds a first one. -/
theorem exists_walk_empty (hb : b < n) (hempty : ∃ p < n, w p = 0) :
    ∃ d < n, w (walk n b d) = 0 := by
  obtain ⟨p, hp, hzero⟩ := hempty
  obtain ⟨d, hd, hwalk⟩ := exists_walk_eq hb hp
  exact ⟨d, hd, by rw [hwalk]; exact hzero⟩

/-- Occupants with different labels below `m` are at most `m`. -/
theorem card_occupied_le {m : ℕ} (label : ℕ → ℕ)
    (hlabel : ∀ p ∈ occupied n w, label p < m)
    (hinj : ∀ p ∈ occupied n w, ∀ q ∈ occupied n w, label p = label q → p = q) :
    (occupied n w).card ≤ m := by
  have hmaps : ∀ p ∈ occupied n w, label p ∈ Finset.range m :=
    fun p hp => Finset.mem_range.mpr (hlabel p hp)
  have hcard := Finset.card_le_card_of_injOn label hmaps fun p hp q hq => hinj p hp q hq
  rwa [Finset.card_range] at hcard

end ProbeRing
