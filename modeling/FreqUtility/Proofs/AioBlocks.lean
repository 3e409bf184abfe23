/-
Module: FreqUtility.Proofs.AioBlocks
Layer: Proofs
Purpose: The geometry of `process_file_aio`. For files of 4 to 2^32 + 1 bytes the block size is the largest
  power of two below half the file, so the file has three to five blocks and fits into one round of
  requests (`aioGeometry`). `headStep_start` says what that round's preparation loop leaves behind.
Imports: FreqUtility.Library.BitSmear, FreqUtility.Core.Aio
Trusted boundary: none (fully proved)
Main exports: toLowerPowerOf2_eq, aioBlockSize_pos_iff, aioBlockSize_le, aioBlockSize_bounds,
  AioGeometry, aioGeometry, iocbOf, Prepared, headStep_start, roundRequests_prepared
Open obligations: none
-/
import FreqUtility.Library.BitSmear
import FreqUtility.Core.Aio

namespace FreqUtility

open Blocks

/-! ### The block size -/

theorem toNat_sub_one {v : UInt32} (h : 1 ≤ v.toNat) : (v - 1).toNat = v.toNat - 1 := by
  rw [UInt32.toNat_sub_of_le]
  · rfl
  · rw [UInt32.le_iff_toNat_le]
    exact h

/-- The smeared number plus one is the next power of two, which wraps to zero at the top. -/
theorem toNat_toLowerPowerOf2 {v : UInt32} (h : (v - 1).toNat ≠ 0) :
    (toLowerPowerOf2 v).toNat = 2 ^ ((v - 1).toNat.log2 + 1) % 2 ^ 32 / 2 := by
  have hsmear := BitSmear.smear_eq h (v - 1).toNat_lt
  have hpos := Nat.two_pow_pos ((v - 1).toNat.log2 + 1)
  unfold toLowerPowerOf2
  simp only [UInt32.toNat_div, UInt32.toNat_add, UInt32.toNat_or, UInt32.toNat_shiftRight]
  change ((_ ||| _ >>> 16) + 1) % 2 ^ 32 / 2 = _
  refine (congrArg (fun y => (y + 1) % 2 ^ 32 / 2) hsmear).trans ?_
  rw [Nat.sub_add_cancel hpos]

/-- From 2 to 2^31 the function returns the largest power of two below its argument. -/
theorem toLowerPowerOf2_eq {v : UInt32} (h : 2 ≤ v.toNat) (hle : v.toNat ≤ 2 ^ 31) :
    (toLowerPowerOf2 v).toNat = 2 ^ (v.toNat - 1).log2 := by
  have hpred : (v - 1).toNat = v.toNat - 1 := toNat_sub_one (by omega)
  have hlog : (v.toNat - 1).log2 + 1 ≤ 31 := (Nat.log2_lt (by omega)).mpr (by omega)
  have hpow : 2 ^ ((v.toNat - 1).log2 + 1) ≤ 2 ^ 31 := Nat.pow_le_pow_right (by decide) hlog
  rw [toNat_toLowerPowerOf2 (by omega), hpred, Nat.mod_eq_of_lt (by omega), Nat.pow_succ,
    Nat.mul_div_cancel _ (by decide)]

/-- Everywhere else it returns zero. -/
theorem toLowerPowerOf2_eq_zero {v : UInt32} (h : v.toNat < 2 ∨ 2 ^ 31 < v.toNat) :
    (toLowerPowerOf2 v).toNat = 0 := by
  have htop : ∀ x : ℕ, 2 ^ 31 ≤ x → x < 2 ^ 32 → x.log2 + 1 = 32 := by
    intro x hlow hhigh
    have hlow' : 31 ≤ x.log2 := (Nat.le_log2 (by omega)).mpr hlow
    have hhigh' : x.log2 < 32 := (Nat.log2_lt (by omega)).mpr hhigh
    omega
  have hlt : v.toNat < 2 ^ 32 := v.toNat_lt
  rcases h with hlow | hhigh
  · -- 0 wraps to the top, and 1 leaves no bit to smear.
    have hv : v = 0 ∨ v = 1 := by
      rw [← UInt32.toNat_inj, ← UInt32.toNat_inj]
      change v.toNat = 0 ∨ v.toNat = 1
      omega
    rcases hv with rfl | rfl
    · decide
    · decide
  · have hpred : (v - 1).toNat = v.toNat - 1 := toNat_sub_one (by omega)
    rw [toNat_toLowerPowerOf2 (by omega), hpred, htop _ (by omega) (by omega), Nat.mod_self,
      Nat.zero_div]

theorem toNat_ofNat_half (n : ℕ) : (UInt32.ofNat (n / 2)).toNat = n / 2 % 2 ^ 32 :=
  UInt32.toNat_ofNat'

theorem aioBlockSize_eq {n : ℕ} (h : 2 ≤ n / 2 % 2 ^ 32) (hle : n / 2 % 2 ^ 32 ≤ 2 ^ 31) :
    aioBlockSize n = 2 ^ (n / 2 % 2 ^ 32 - 1).log2 := by
  rw [← toNat_ofNat_half] at h hle
  rw [aioBlockSize, toLowerPowerOf2_eq h hle, toNat_ofNat_half]

theorem aioBlockSize_pos_iff {n : ℕ} :
    0 < aioBlockSize n ↔ 2 ≤ n / 2 % 2 ^ 32 ∧ n / 2 % 2 ^ 32 ≤ 2 ^ 31 := by
  constructor
  · intro hpos
    by_contra hout
    have hzero : aioBlockSize n = 0 := toLowerPowerOf2_eq_zero (by rw [toNat_ofNat_half]; omega)
    omega
  · rintro ⟨hlow, hhigh⟩
    rw [aioBlockSize_eq hlow hhigh]
    exact Nat.two_pow_pos _

/-- The block size never exceeds 2^30. -/
theorem aioBlockSize_le (n : ℕ) : aioBlockSize n ≤ 2 ^ 30 := by
  rcases Nat.eq_zero_or_pos (aioBlockSize n) with hzero | hpos
  · rw [hzero]
    exact Nat.zero_le _
  · obtain ⟨hlow, hhigh⟩ := aioBlockSize_pos_iff.mp hpos
    have hlog : (n / 2 % 2 ^ 32 - 1).log2 < 31 := (Nat.log2_lt (by omega)).mpr (by omega)
    rw [aioBlockSize_eq hlow hhigh]
    exact Nat.pow_le_pow_right (by decide) (Nat.le_of_lt_succ hlog)

/-- As long as half of the file size fits, the block size is the largest power of two below it. -/
theorem aioBlockSize_bounds {n : ℕ} (h4 : 4 ≤ n) (hn : n ≤ 2 ^ 32 + 1) :
    aioBlockSize n < n / 2 ∧ n / 2 ≤ 2 * aioBlockSize n := by
  have hhalf : n / 2 % 2 ^ 32 = n / 2 := Nat.mod_eq_of_lt (by omega)
  have hsize := aioBlockSize_eq (n := n) (by omega) (by omega)
  rw [hhalf] at hsize
  have hlow : aioBlockSize n ≤ n / 2 - 1 := hsize ▸ Nat.log2_self_le (by omega)
  have hhigh : n / 2 - 1 < aioBlockSize n * 2 := by
    rw [hsize, ← Nat.pow_succ]
    exact Nat.lt_log2_self
  exact ⟨by omega, by omega⟩

/-- `howmany` rounds the quotient up as long as the sum does not wrap. -/
theorem howMany_eq {x y : ℕ} (hy : 0 < y) (h : x + y < 2 ^ 64) : howMany x y = blockCount x y := by
  rw [howMany, sub64_of_le hy (by omega), wrap64_of_lt (by omega), blockCount,
    ← Nat.add_sub_assoc hy]

/-- What the loop relies on: a positive block size, and few enough blocks for one round. -/
structure AioGeometry (fileSize blkSize : ℕ) : Prop where
  length_pos : 0 < fileSize
  length_lt : fileSize < 2 ^ 63
  blkSize_pos : 0 < blkSize
  blkSize_lt : blkSize < 2 ^ 63
  chunks_le : blockCount fileSize blkSize ≤ 5

theorem aioGeometry {n : ℕ} (h4 : 4 ≤ n) (hn : n ≤ 2 ^ 32 + 1) : AioGeometry n (aioBlockSize n) := by
  obtain ⟨hlow, hhigh⟩ := aioBlockSize_bounds h4 hn
  refine ⟨by omega, by omega, by omega, by omega, ?_⟩
  apply blockCount_le (by omega)
  omega

/-! ### The round that submits the file -/

variable {file : Buffer} {blkSize i : ℕ}

/-- The request of block `i`. -/
def iocbOf (fileSize blkSize i : ℕ) : Iocb where
  offset := i * blkSize
  nbytes := blockStop fileSize blkSize i - i * blkSize

/-- The whole file has been submitted, block `i` in slot `i`. -/
structure Prepared (fileSize blkSize : ℕ) (s : AioState) : Prop where
  offset : s.offset = fileSize
  iocbs : ∀ i, i < blockCount fileSize blkSize → s.iocbs i = iocbOf fileSize blkSize i
  submitted : s.submitted = blockRanges fileSize blkSize (blockCount fileSize blkSize)

/-- One request of the first round: slot `k` gets block `k`, and the offset moves to its end. -/
theorem prepRequest_eq {fileSize k : ℕ} (h : AioGeometry fileSize blkSize)
    (hk : k < blockCount fileSize blkSize) {u : AioState} (hoffset : u.offset = k * blkSize) :
    prepRequest fileSize blkSize u k =
      { u with
        iocbs := Function.update u.iocbs k (iocbOf fileSize blkSize k)
        offset := blockStop fileSize blkSize k
        submitted := u.submitted ++ [(k * blkSize, blockStop fileSize blkSize k)] } := by
  have hstart := (lt_blockCount_iff h.blkSize_pos).mp hk
  have hlength := h.length_lt
  have hsize : min (sub64 fileSize (k * blkSize)) blkSize =
      blockStop fileSize blkSize k - k * blkSize := by
    rw [sub64_of_le (by omega) (by omega), blockStop]
    omega
  rw [prepRequest, hoffset, hsize, wrap64_blockStop h.blkSize_pos hk hlength]
  rfl

/-- The preparation loop after `k` requests of the first round. -/
theorem prepRequest_spec {fileSize k : ℕ} (h : AioGeometry fileSize blkSize)
    (hk : k ≤ blockCount fileSize blkSize) :
    let s := (List.range k).foldl (prepRequest fileSize blkSize) (aioStart fileSize blkSize)
    s.offset = min (k * blkSize) fileSize ∧ (∀ i, i < k → s.iocbs i = iocbOf fileSize blkSize i) ∧
      s = { aioStart fileSize blkSize with
        offset := s.offset, iocbs := s.iocbs, submitted := blockRanges fileSize blkSize k } := by
  induction k with
  | zero =>
      refine ⟨?_, ?_, rfl⟩
      · rw [Nat.zero_mul, Nat.zero_min]
        rfl
      · intro i hi
        exact absurd hi (Nat.not_lt_zero i)
  | succ k ih =>
      obtain ⟨hoffset, hiocbs, hrest⟩ := ih (Nat.le_of_lt hk)
      have hstart := (lt_blockCount_iff (n := fileSize) h.blkSize_pos).mp hk
      rw [Nat.min_eq_left (Nat.le_of_lt hstart)] at hoffset
      intro s
      have hs : s = prepRequest fileSize blkSize
          ((List.range k).foldl (prepRequest fileSize blkSize) (aioStart fileSize blkSize)) k := by
        change (List.range (k + 1)).foldl _ _ = _
        rw [List.range_succ, List.foldl_append]
        rfl
      rw [prepRequest_eq h hk hoffset] at hs
      generalize (List.range k).foldl (prepRequest fileSize blkSize)
        (aioStart fileSize blkSize) = u at hiocbs hrest hs
      rw [hs]
      refine ⟨?_, ?_, ?_⟩
      · rw [Nat.succ_mul]
        rfl
      · intro i hi
        change Function.update _ _ _ _ = _
        rcases Nat.lt_succ_iff_lt_or_eq.mp hi with hlt | rfl
        · rw [Function.update_of_ne (Nat.ne_of_lt hlt)]
          exact hiocbs i hlt
        · exact Function.update_self _ _ _
      · have hsubmitted : u.submitted ++ [(k * blkSize, blockStop fileSize blkSize k)] =
            blockRanges fileSize blkSize (k + 1) := by
          rw [hrest, blockRanges, blockRanges, List.range_succ, List.map_append]
          rfl
        rw [hsubmitted, hrest]

theorem howMany_fileSize {fileSize : ℕ} (h : AioGeometry fileSize blkSize) :
    howMany fileSize blkSize = blockCount fileSize blkSize := by
  have hlength := h.length_lt
  have hblk := h.blkSize_lt
  exact howMany_eq h.blkSize_pos (by omega)

/-- The first round has a request for every block. -/
theorem roundRequests_start {fileSize : ℕ} (h : AioGeometry fileSize blkSize) :
    roundRequests fileSize blkSize (aioStart fileSize blkSize) = blockCount fileSize blkSize := by
  have hlength := h.length_lt
  change min (min (sub64 aioMaxIo 0) (aioMaxIo / 2)) (howMany (sub64 fileSize 0) blkSize) = _
  rw [sub64_of_le (Nat.zero_le _) (by decide), sub64_of_le (Nat.zero_le _) (by omega),
    Nat.sub_zero, Nat.sub_zero, howMany_fileSize h]
  exact Nat.min_eq_right (Nat.le_trans h.chunks_le (by decide))

/-- The first round submits every block of the file. -/
theorem headStep_start {fileSize : ℕ} (h : AioGeometry fileSize blkSize) :
    ∃ iocbs : ℕ → Iocb,
      (∀ i, i < blockCount fileSize blkSize → iocbs i = iocbOf fileSize blkSize i) ∧
      headStep fileSize blkSize (aioStart fileSize blkSize) =
        { aioStart fileSize blkSize with
          pc := .submit, offset := fileSize, n := blockCount fileSize blkSize, iocbs := iocbs
          submitted := blockRanges fileSize blkSize (blockCount fileSize blkSize) } := by
  have hpos := blockCount_pos h.blkSize_pos h.length_pos
  have hround := roundRequests_start h
  have hchunks : 0 < (aioStart fileSize blkSize).chunks := by
    change 0 < howMany fileSize blkSize
    rwa [howMany_fileSize h]
  obtain ⟨hoffset, hiocbs, hrest⟩ := prepRequest_spec h (Nat.le_refl _)
  have hlast : min (blockCount fileSize blkSize * blkSize) fileSize = fileSize := by
    have hnot := mt (lt_blockCount_iff (n := fileSize) h.blkSize_pos).mpr (Nat.lt_irrefl _)
    omega
  refine ⟨_, hiocbs, ?_⟩
  rw [headStep, if_pos hchunks]
  simp only [hround, if_pos hpos]
  rw [hlast] at hoffset
  rw [hrest, hoffset]

/-- Once everything is submitted, a round has no requests. -/
theorem roundRequests_prepared {fileSize : ℕ} {s : AioState} (h : AioGeometry fileSize blkSize)
    (hs : Prepared fileSize blkSize s) : roundRequests fileSize blkSize s = 0 := by
  have hlength := h.length_lt
  have hblk := h.blkSize_lt
  have hpos := h.blkSize_pos
  have hzero : howMany (sub64 fileSize s.offset) blkSize = 0 := by
    rw [hs.offset, sub64_of_le (Nat.le_refl _) (by omega), Nat.sub_self,
      howMany_eq hpos (by omega), blockCount]
    exact Nat.div_eq_of_lt (by omega)
  rw [roundRequests, hzero]
  exact Nat.min_zero _

end FreqUtility
