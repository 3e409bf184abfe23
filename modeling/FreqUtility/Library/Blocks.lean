/-
Module: FreqUtility.Library.Blocks
Layer: Library
Purpose: Cutting `[0, n)` into consecutive blocks of `c` offsets, the last one possibly shorter. Block `k`
  is `[k * c, blockStop n c k)`, and there are `blockCount n c` of them, the quotient rounded up. The
  facts used elsewhere: an offset below `n` lies in exactly the block of its quotient, every block is
  non-empty and at most `c` long, and each block but the last ends where the next one starts. As a list,
  the blocks are contiguous, and in any order they partition `[0, n)`.
Imports: Mathlib.Tactic
Trusted boundary: none (fully proved)
Main exports: blockCount, blockStop, lt_blockCount_iff, mem_block_iff, blockStop_of_lt, blockStop_last,
  blockCount_le, lt_two_mul_div_mul, blockRanges, Contiguous, Partitions, contiguous_blockRanges,
  partitions_of_perm
Open obligations: none
-/
import Mathlib.Tactic

namespace Blocks

/-- Number of blocks of `c` offsets that cover `[0, n)`. -/
def blockCount (n c : ℕ) : ℕ := (n + c - 1) / c

/-- End of block `k`, which starts at `k * c`. -/
def blockStop (n c k : ℕ) : ℕ := min (k * c + c) n

variable {n c k p : ℕ}

/-- The blocks are those that start below `n`. -/
theorem lt_blockCount_iff (hc : 0 < c) : k < blockCount n c ↔ k * c < n := by
  rw [blockCount, ← Nat.succ_le_iff, Nat.le_div_iff_mul_le hc, Nat.succ_mul]
  omega

theorem blockCount_pos (hc : 0 < c) (hn : 0 < n) : 0 < blockCount n c := by
  rw [lt_blockCount_iff hc]
  omega

/-- Every block is non-empty. -/
theorem start_lt_blockStop (hc : 0 < c) (hk : k < blockCount n c) : k * c < blockStop n c k := by
  have := (lt_blockCount_iff hc).mp hk
  unfold blockStop
  omega

theorem blockStop_le : blockStop n c k ≤ n := Nat.min_le_right _ _

theorem blockStop_le_add : blockStop n c k ≤ k * c + c := Nat.min_le_left _ _

/-- An offset below `n` lies in the block of its quotient and in no other. -/
theorem mem_block_iff (hc : 0 < c) : k * c ≤ p ∧ p < blockStop n c k ↔ p < n ∧ p / c = k := by
  rw [Nat.div_eq_iff hc, blockStop]
  have hsub : k * c + c - 1 + 1 = k * c + c := by omega
  constructor
  · rintro ⟨hlow, hhigh⟩
    exact ⟨by omega, by omega, by omega⟩
  · rintro ⟨hn, hlow, hhigh⟩
    exact ⟨by omega, by omega⟩

theorem div_lt_blockCount (hc : 0 < c) (hp : p < n) : p / c < blockCount n c := by
  rw [lt_blockCount_iff hc]
  have := Nat.div_mul_le_self p c
  omega

/-- A block that is not the last one is full, and ends where the next one starts. -/
theorem blockStop_of_lt (hc : 0 < c) (hk : k + 1 < blockCount n c) :
    blockStop n c k = k * c + c := by
  have := (lt_blockCount_iff hc).mp hk
  rw [Nat.succ_mul] at this
  unfold blockStop
  omega

/-- The last block ends at `n`. -/
theorem blockStop_last (hc : 0 < c) (hk : blockCount n c ≤ k + 1) : blockStop n c k = n := by
  have hnot : ¬ k + 1 < blockCount n c := by omega
  rw [lt_blockCount_iff hc, Nat.succ_mul] at hnot
  unfold blockStop
  omega

/-- The bounds a driver computes for block `k`: the last block is cut at `n`. -/
theorem blockStop_eq_ite (hc : 0 < c) (hk : k < blockCount n c) :
    blockStop n c k = if k = blockCount n c - 1 then n else k * c + c := by
  split
  · exact blockStop_last hc (by omega)
  · exact blockStop_of_lt hc (by omega)

/-- A single block covers everything exactly when its size reaches `n`. -/
theorem one_lt_blockCount_iff (hc : 0 < c) : 1 < blockCount n c ↔ c < n := by
  rw [lt_blockCount_iff hc, Nat.one_mul]

/-- Any number of blocks that reaches `n` is enough. -/
theorem blockCount_le (hc : 0 < c) (h : n ≤ k * c) : blockCount n c ≤ k := by
  by_contra hgt
  have hstart := (lt_blockCount_iff hc).mp (Nat.lt_of_not_le hgt)
  exact absurd h (Nat.not_le_of_lt hstart)

/-- Rounding down to a multiple of `m` loses less than half of a number that is at least `m`. -/
theorem lt_two_mul_div_mul {m q : ℕ} (hm : 0 < m) (h : m ≤ q) : q < 2 * (q / m * m) := by
  have hrest : q % m < m := Nat.mod_lt q hm
  have hsplit : q / m * m + q % m = q := Nat.div_add_mod' q m
  have hle : m ≤ q / m * m := Nat.le_mul_of_pos_left m ((Nat.one_le_div_iff hm).mpr h)
  omega

/-! ### Lists of ranges -/

/-- The first `k` blocks, as ranges. -/
def blockRanges (n c k : ℕ) : List (ℕ × ℕ) :=
  (List.range k).map fun i => (i * c, blockStop n c i)

/-- Non-empty ranges below `n`, each of which starts where the one before it ends. -/
structure Contiguous (n : ℕ) (ranges : List (ℕ × ℕ)) : Prop where
  inside : ∀ r ∈ ranges, r.1 < r.2 ∧ r.2 ≤ n
  first : ∀ r, ranges[0]? = some r → r.1 = 0
  next : ∀ (i : ℕ) r r', ranges[i]? = some r → ranges[i + 1]? = some r' → r.2 = r'.1
  disjoint : ranges.Pairwise fun r r' => r.2 ≤ r'.1

/-- Non-empty ranges that cover every offset below `n` exactly once. -/
structure Partitions (n : ℕ) (ranges : List (ℕ × ℕ)) : Prop where
  nodup : ranges.Nodup
  inside : ∀ r ∈ ranges, r.1 < r.2 ∧ r.2 ≤ n
  covers : ∀ p, p < n → ∃ r, r ∈ ranges ∧ r.1 ≤ p ∧ p < r.2 ∧
    ∀ r' ∈ ranges, r'.1 ≤ p → p < r'.2 → r' = r

theorem getElem?_blockRanges {i : ℕ} {r : ℕ × ℕ} (h : (blockRanges n c k)[i]? = some r) :
    i < k ∧ r = (i * c, blockStop n c i) := by
  obtain ⟨hi, rfl⟩ := List.getElem?_eq_some_iff.mp h
  simpa [blockRanges] using hi

theorem contiguous_blockRanges (hc : 0 < c) : Contiguous n (blockRanges n c (blockCount n c)) where
  inside := by
    intro r hr
    obtain ⟨i, hi, rfl⟩ := List.mem_map.mp hr
    exact ⟨start_lt_blockStop hc (List.mem_range.mp hi), blockStop_le⟩
  first := by
    intro r hr
    rw [(getElem?_blockRanges hr).2]
    exact Nat.zero_mul c
  next := by
    intro i r r' hr hr'
    obtain ⟨hlt, hr'⟩ := getElem?_blockRanges hr'
    rw [(getElem?_blockRanges hr).2, hr']
    exact (blockStop_of_lt hc hlt).trans (Nat.succ_mul i c).symm
  disjoint := by
    refine List.pairwise_map.mpr (List.pairwise_lt_range.imp ?_)
    intro i j hij
    calc blockStop n c i ≤ i * c + c := blockStop_le_add
      _ = (i + 1) * c := (Nat.succ_mul i c).symm
      _ ≤ j * c := Nat.mul_le_mul_right c hij

/-- Every block once, in any order, is a partition. -/
theorem partitions_of_perm (hc : 0 < c) {indices : List ℕ}
    (h : indices.Perm (List.range (blockCount n c))) :
    Partitions n (indices.map fun i => (i * c, blockStop n c i)) where
  nodup := by
    refine (h.nodup_iff.mpr List.nodup_range).map ?_
    intro i j hij
    exact Nat.eq_of_mul_eq_mul_right hc (Prod.mk.inj hij).1
  inside := by
    intro r hr
    obtain ⟨i, hi, rfl⟩ := List.mem_map.mp hr
    exact ⟨start_lt_blockStop hc (List.mem_range.mp (h.subset hi)), blockStop_le⟩
  covers := by
    intro p hp
    have hmem : p / c ∈ indices := h.symm.subset (List.mem_range.mpr (div_lt_blockCount hc hp))
    obtain ⟨hlow, hhigh⟩ := (mem_block_iff (k := p / c) hc).mpr ⟨hp, rfl⟩
    refine ⟨_, List.mem_map_of_mem hmem, hlow, hhigh, ?_⟩
    intro r hr hlow' hhigh'
    obtain ⟨i, -, rfl⟩ := List.mem_map.mp hr
    rw [((mem_block_iff hc).mp ⟨hlow', hhigh'⟩).2]

end Blocks
