/-
Module: FreqUtility.Proofs.AioBlockSize
Layer: Proofs
Purpose: What `process_file_aio` expects of `AIO_BLKSIZE`, and for which files it gets it. The block size
  should be the largest power of two below half the file (`BlockSizeLaw`), which makes the file fit into
  one round of three to five requests. The argument of `to_lower_power_of_2` is an `unsigned int`, and
  its last step wraps above 2^31, so the law holds exactly as long as half the file is at most 2^31.
Imports: FreqUtility.Proofs.AioBlocks
Trusted boundary: none (fully proved)
Main exports: BlockSizeLaw, blockSizeLaw_iff
Open obligations: none
-/
import FreqUtility.Proofs.AioBlocks

namespace FreqUtility

open Blocks

variable {n : ℕ}

/-- The block size fits a file of `n` bytes. -/
structure BlockSizeLaw (n : ℕ) : Prop where
  /-- The largest power of two below half the file size. -/
  power : ∃ k, aioBlockSize n = 2 ^ k
  below : aioBlockSize n < n / 2
  reaches : n / 2 ≤ 2 * aioBlockSize n
  /-- No division by zero in front of the loop, and three to five blocks. -/
  nonzero : aioBlockSize n ≠ 0
  init : aioInit n = .ok (aioStart n (aioBlockSize n))
  three_le : 3 ≤ howMany n (aioBlockSize n)
  le_five : howMany n (aioBlockSize n) ≤ 5
  /-- The first round asks for every block, within its limit, and submits the whole file. -/
  round : roundRequests n (aioBlockSize n) (aioStart n (aioBlockSize n)) = howMany n (aioBlockSize n)
  round_le : howMany n (aioBlockSize n) ≤ aioMaxIo / 2
  offset : (headStep n (aioBlockSize n) (aioStart n (aioBlockSize n))).offset = n
  contiguous : Contiguous n (headStep n (aioBlockSize n) (aioStart n (aioBlockSize n))).submitted
  partitions : Partitions n (headStep n (aioBlockSize n) (aioStart n (aioBlockSize n))).submitted

/-- A file of more than two blocks has at least three. -/
theorem three_le_blockCount {c : ℕ} (hc : 0 < c) (h : 2 * c < n) : 3 ≤ blockCount n c :=
  (lt_blockCount_iff hc).mpr h

theorem blockSizeLaw (h4 : 4 ≤ n) (hn : n ≤ 2 ^ 32 + 1) : BlockSizeLaw n := by
  have hg := aioGeometry h4 hn
  have hhalf : n / 2 % 2 ^ 32 = n / 2 := Nat.mod_eq_of_lt (by omega)
  obtain ⟨hbelow, hreaches⟩ := aioBlockSize_bounds h4 hn
  have hsize := aioBlockSize_eq (n := n) (by omega) (by omega)
  have hcount := howMany_fileSize hg
  have hfive : howMany n (aioBlockSize n) ≤ 5 := hcount.trans_le hg.chunks_le
  obtain ⟨_, -, hhead⟩ := headStep_start hg
  constructor
  case power => exact ⟨_, hsize⟩
  case below => exact hbelow
  case reaches => exact hreaches
  case nonzero => exact Nat.ne_of_gt hg.blkSize_pos
  case init => exact aioInit_of_pos hg.blkSize_pos
  case three_le =>
      rw [hcount]
      exact three_le_blockCount hg.blkSize_pos (by omega)
  case le_five => exact hfive
  case round => exact (roundRequests_start hg).trans hcount.symm
  case round_le => exact hfive.trans (by decide)
  case offset => rw [hhead]
  case contiguous =>
      rw [hhead]
      exact contiguous_blockRanges hg.blkSize_pos
  case partitions =>
      rw [hhead]
      exact partitions_of_perm hg.blkSize_pos (List.Perm.refl _)

/-- Beyond 2^32 + 1 bytes twice the block size does not reach half the file any more. -/
theorem not_blockSizeLaw (hn : 2 ^ 32 + 1 < n) : ¬ BlockSizeLaw n := by
  intro hlaw
  have hle := aioBlockSize_le n
  have hreaches := hlaw.reaches
  omega

/-- For every file of at least four bytes: the block size is the largest power of two below half the file,
    is not zero, and makes one round of three to five requests cover the file, exactly when the file has
    at most 2^32 + 1 bytes. -/
theorem blockSizeLaw_iff (n : ℕ) (h4 : 4 ≤ n) : BlockSizeLaw n ↔ n ≤ 2 ^ 32 + 1 := by
  constructor
  · intro hlaw
    by_contra hgt
    exact not_blockSizeLaw (Nat.lt_of_not_le hgt) hlaw
  · exact blockSizeLaw h4

theorem blockSizeLaw_four : BlockSizeLaw 4 ↔ 4 ≤ 2 ^ 32 + 1 := blockSizeLaw_iff 4 (by decide)

/-- With 2^32 + 2 bytes the block size is zero, and `howmany` divides by it. -/
theorem blockSizeLaw_fails_above_4GiB :
    aioInit (2 ^ 32 + 2) = .error .divisionByZero ∧ ¬ BlockSizeLaw (2 ^ 32 + 2) := by
  refine ⟨?_, not_blockSizeLaw (by decide)⟩
  have hzero : ¬ 0 < aioBlockSize (2 ^ 32 + 2) := by
    rw [aioBlockSize_pos_iff]
    decide
  exact if_pos (Nat.eq_zero_of_not_pos hzero)

end FreqUtility
