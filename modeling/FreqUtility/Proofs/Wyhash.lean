/-
Module: FreqUtility.Proofs.Wyhash
Layer: Proofs
Purpose: The two ways of multiplying words agree and give the exact product. For a key of any length the hash
  function reads every byte of the key and nothing else, although the reads of a short key overlap and the
  last two reads of a long key go back into bytes that the rounds have read, and it returns the same hash
  whichever way the compiler multiplies.
Imports: FreqUtility.Core.Wyhash, FreqUtility.Library.LongProduct
Trusted boundary: none (fully proved)
Main exports: mum128_exact, mumLimbs_exact, mum_branches_agree, reads_rounds48, reads_rounds16,
  reads_mixedHash, word_hash_reads_its_key
Open obligations: none
-/
import FreqUtility.Core.Wyhash
import FreqUtility.Library.LongProduct

namespace FreqUtility

namespace Wyhash

open ReadLog LongProduct

/-! ### The product of two words -/

/-- The number that two words stand for. -/
def wideNat (r : UInt64 × UInt64) : ℕ := r.1.toNat + 2 ^ 64 * r.2.toNat

theorem wideNat_injective {r r' : UInt64 × UInt64} (h : wideNat r = wideNat r') : r = r' := by
  unfold wideNat at h
  have hlow := r.1.toNat_lt
  have hlow' := r'.1.toNat_lt
  apply Prod.ext
  · apply UInt64.toNat_inj.mp
    omega
  · apply UInt64.toNat_inj.mp
    omega

theorem mum128_exact (a b : UInt64) : wideNat (mum128 a b) = a.toNat * b.toNat := by
  have hproduct : a.toNat * b.toNat < 2 ^ 64 * 2 ^ 64 := Nat.mul_lt_mul'' a.toNat_lt b.toNat_lt
  have hwide : (a.toBitVec.setWidth 128 * b.toBitVec.setWidth 128).toNat = a.toNat * b.toNat := by
    rw [BitVec.toNat_mul, BitVec.toNat_setWidth_of_le (by decide), BitVec.toNat_setWidth_of_le (by decide)]
    exact Nat.mod_eq_of_lt hproduct
  have hlow : (mum128 a b).1.toNat = a.toNat * b.toNat % 2 ^ 64 := by
    change BitVec.toNat (BitVec.setWidth 64 _) = _
    rw [BitVec.toNat_setWidth, hwide]
  have hhigh : (mum128 a b).2.toNat = a.toNat * b.toNat / 2 ^ 64 := by
    change BitVec.toNat (BitVec.setWidth 64 _) = _
    rw [BitVec.toNat_setWidth, BitVec.toNat_ushiftRight, hwide, Nat.shiftRight_eq_div_pow]
    exact Nat.mod_eq_of_lt (Nat.div_lt_of_lt_mul hproduct)
  rw [wideNat, hlow, hhigh]
  exact Nat.mod_add_div _ _

/-- The halves of a word. -/
theorem toNat_high (a : UInt64) : (a >>> 32).toNat = a.toNat / 2 ^ 32 := by
  rw [UInt64.toNat_shiftRight, Nat.shiftRight_eq_div_pow]
  rfl

theorem toNat_low (a : UInt64) : a.toUInt32.toUInt64.toNat = a.toNat % 2 ^ 32 := by
  rw [UInt32.toNat_toUInt64, UInt64.toNat_toUInt32]

/-- The lower half of a word, shifted up. -/
theorem toNat_shiftUp (a : UInt64) : (a <<< 32).toNat = a.toNat * 2 ^ 32 % 2 ^ 64 := by
  rw [UInt64.toNat_shiftLeft, Nat.shiftLeft_eq]
  rfl

/-- The comparison after a sum is its carry. -/
theorem toNat_carry (a b : UInt64) :
    (if a + b < a then (1 : UInt64) else 0).toNat = carry (2 ^ 64) a.toNat b.toNat := by
  have hiff : a + b < a ↔ (a.toNat + b.toNat) % 2 ^ 64 < a.toNat := by
    rw [UInt64.lt_iff_toNat_lt, UInt64.toNat_add]
  rw [carry]
  by_cases hlt : a + b < a
  · rw [if_pos hlt, if_pos (hiff.mp hlt)]
    rfl
  · rw [if_neg hlt, if_neg (mt hiff.mpr hlt)]
    rfl

/-- The product of two halves is a word. -/
theorem toNat_mul_of_lt {a b : UInt64} (ha : a.toNat < 2 ^ 32) (hb : b.toNat < 2 ^ 32) :
    (a * b).toNat = a.toNat * b.toNat := by
  have hlt : a.toNat * b.toNat < 2 ^ 32 * 2 ^ 32 := Nat.mul_lt_mul'' ha hb
  rw [UInt64.toNat_mul, Nat.mod_eq_of_lt (hlt.trans_eq (by norm_num))]

theorem mumLimbs_exact (a b : UInt64) : wideNat (mumLimbs a b) = a.toNat * b.toNat := by
  have hword := a.toNat_lt
  have hword' := b.toNat_lt
  have hha : (a >>> 32).toNat < 2 ^ 32 := by
    rw [toNat_high]
    omega
  have hhb : (b >>> 32).toNat < 2 ^ 32 := by
    rw [toNat_high]
    omega
  have hla : a.toUInt32.toUInt64.toNat < 2 ^ 32 := by
    rw [toNat_low]
    exact Nat.mod_lt _ (by decide)
  have hlb : b.toUInt32.toUInt64.toNat < 2 ^ 32 := by
    rw [toNat_low]
    exact Nat.mod_lt _ (by decide)
  have ha : (a >>> 32).toNat * 2 ^ 32 + a.toUInt32.toUInt64.toNat = a.toNat := by
    rw [toNat_high, toNat_low]
    exact Nat.div_add_mod' _ _
  have hb : (b >>> 32).toNat * 2 ^ 32 + b.toUInt32.toUInt64.toNat = b.toNat := by
    rw [toNat_high, toNat_low]
    exact Nat.div_add_mod' _ _
  have hbase : 2 ^ 32 * 2 ^ 32 = 2 ^ 64 := by norm_num
  have hlong := two_limb_product hha hla hhb hlb
  rw [ha, hb, hbase, ← toNat_mul_of_lt hla hlb, ← toNat_mul_of_lt hha hlb, ← toNat_mul_of_lt hhb hla,
    ← toNat_mul_of_lt hha hhb, ← toNat_shiftUp, ← toNat_shiftUp, ← toNat_carry, ← toNat_high,
    ← toNat_high] at hlong
  have ht := hlong _ (mumLimbs a b).1.toNat (mumLimbs a b).2.toNat (UInt64.toNat_add _ _)
  apply ht (UInt64.toNat_add _ _)
  rw [← toNat_carry]
  simp only [mumLimbs, UInt64.toNat_add, Nat.mod_add_mod, Nat.add_mod_mod]

theorem mum128_eq_mumLimbs (a b : UInt64) : mum128 a b = mumLimbs a b :=
  wideNat_injective ((mum128_exact a b).trans (mumLimbs_exact a b).symm)

/-- Both branches of `mum` give the low and the high word of the exact product, for all words. -/
theorem mum_branches_agree (a b : UInt64) :
    wideNat (mumLimbs a b) = a.toNat * b.toNat ∧ mum128 a b = mumLimbs a b :=
  ⟨mumLimbs_exact a b, mum128_eq_mumLimbs a b⟩

/-! ### What is read -/

section

variable {key : Word}

theorem reads_readByte {p : ℤ} (hp : 0 ≤ p) (hend : p < key.length) :
    Reads (readByte key p) {p} fun _ => True := by
  intro log
  have hin : p.toNat < key.length := by omega
  have hrun : (readByte key p).run log = .ok (key[p.toNat], p :: log) := by
    simp only [readByte, if_neg (Int.not_lt.mpr hp), List.getElem?_eq_getElem hin]
    rfl
  refine ⟨key[p.toNat], p :: log, hrun, trivial, ?_⟩
  intro i
  rw [List.mem_cons, Set.mem_singleton_iff, or_comm]

theorem reads_memcpy {p : ℤ} {count : ℕ} (hp : 0 ≤ p) (hend : p + count ≤ key.length) :
    Reads (memcpy key p count) (Set.Ico p (p + count)) fun _ => True := by
  have hbytes : ∀ c ∈ List.range count, Reads (readByte key (p + c)) {p + (c : ℤ)} fun _ => True := by
    intro c hc
    have hlt := List.mem_range.mp hc
    exact reads_readByte (by omega) (by omega)
  apply (Reads.mapM hbytes).congr
  intro i
  simp only [Set.mem_Ico, Set.mem_ofPred_eq, List.mem_range, Set.mem_singleton_iff]
  constructor
  · rintro ⟨hlow, hhigh⟩
    exact ⟨(i - p).toNat, by omega, by omega⟩
  · rintro ⟨c, hc, rfl⟩
    omega

theorem reads_r8 {p : ℤ} (hp : 0 ≤ p) (hend : p + 8 ≤ key.length) :
    Reads (r8 key p) (Set.Ico p (p + 8)) fun _ => True := by
  have hread : Reads (r8 key p) _ fun _ => True :=
    (reads_memcpy hp hend).bind fun _ _ => Reads.pure trivial
  rw [Set.union_empty] at hread
  exact hread

theorem reads_r4 {p : ℤ} (hp : 0 ≤ p) (hend : p + 4 ≤ key.length) :
    Reads (r4 key p) (Set.Ico p (p + 4)) fun _ => True := by
  have hread : Reads (r4 key p) _ fun _ => True :=
    (reads_memcpy hp hend).bind fun _ _ => Reads.pure trivial
  rw [Set.union_empty] at hread
  exact hread

/-- The reads of `r3` are all bytes of a key of one, two or three bytes, and some of them twice. -/
theorem reads_r3 (hpos : 0 < key.length) (hthree : key.length ≤ 3) :
    Reads (r3 key 0 key.length) (Set.Ico 0 (key.length : ℤ)) fun _ => True := by
  have hhalf : key.length >>> 1 = key.length / 2 := Nat.shiftRight_eq_div_pow _ 1
  have hread : Reads (r3 key 0 key.length) _ fun _ => True :=
    (reads_readByte (by omega) (by omega)).bind fun _ _ =>
      (reads_readByte (by omega) (by omega)).bind fun _ _ =>
        (reads_readByte (by omega) (by omega)).bind fun _ _ => Reads.pure trivial
  apply hread.congr
  intro i
  simp only [Set.mem_Ico, Set.mem_union, Set.mem_singleton_iff, Set.mem_empty_iff_false, or_false]
  omega

/-- A key of at most 16 bytes is read whole: by `r3`, or by four reads of four bytes that overlap. -/
theorem reads_hashShort (hshort : key.length ≤ 16) :
    Reads (hashShort key key.length) (Set.Ico 0 (key.length : ℤ)) fun _ => True := by
  have hhalf : (key.length >>> 3) <<< 2 = key.length / 8 * 4 := by
    rw [Nat.shiftRight_eq_div_pow, Nat.shiftLeft_eq]
  unfold hashShort
  rw [hhalf]
  by_cases hfour : key.length ≥ 4
  · rw [if_pos hfour]
    refine Reads.congr ((reads_r4 (by omega) (by omega)).bind fun _ _ =>
      (reads_r4 (by omega) (by omega)).bind fun _ _ =>
        (reads_r4 (by omega) (by omega)).bind fun _ _ =>
          (reads_r4 (by omega) (by omega)).bind fun _ _ => Reads.pure trivial) ?_
    intro i
    simp only [Set.mem_Ico, Set.mem_union, Set.mem_empty_iff_false, or_false]
    omega
  · rw [if_neg hfour]
    by_cases hpos : key.length > 0
    · rw [if_pos hpos]
      refine Reads.congr ((reads_r3 hpos (by omega)).bind fun _ _ => Reads.pure trivial) ?_
      intro i
      rw [Set.union_empty]
    · rw [if_neg hpos]
      have hzero : key.length = 0 := by omega
      apply (Reads.pure trivial).congr
      intro i
      rw [hzero, Nat.cast_zero, Set.Ico_self]

/-- Two neighbouring words, and what comes after them. -/
theorem reads_pair {α : Type} {p q : ℤ} {places : Set ℤ} {post : α → Prop} {f : UInt64 → UInt64 → KeyRead α}
    (hp : 0 ≤ p) (hq : q = p + 8) (hend : q + 8 ≤ key.length) (hrest : ∀ x y, Reads (f x y) places post) :
    Reads (r8 key p >>= fun x => r8 key q >>= fun y => f x y) (Set.Ico p (q + 8) ∪ places) post := by
  have hboth : Reads (r8 key p >>= fun x => r8 key q >>= fun y => f x y) _ post :=
    (reads_r8 hp (by omega)).bind fun x _ => (reads_r8 (by omega) hend).bind fun y _ => hrest x y
  rw [← hq, ← Set.union_assoc, Set.Ico_union_Ico_eq_Ico (by omega) (by omega)] at hboth
  exact hboth

/-- The rounds over 48 bytes read what they pass over, and leave some bytes. -/
theorem reads_rounds48 (mum : UInt64 → UInt64 → UInt64 × UInt64) {i : ℕ} {p : ℤ} (hp : 0 ≤ p)
    (hend : p + i = key.length) (hi : 48 < i) :
    ∃ q : ℤ, ∃ j : ℕ, q + j = key.length ∧ p ≤ q ∧ 0 < j ∧ ∀ seed see1 see2,
      Reads (rounds48 mum key p i seed see1 see2) (Set.Ico p q) fun r => r.1 = q ∧ r.2.1 = j := by
  induction i using Nat.strong_induction_on generalizing p with
  | h i ih =>
      -- What the three pairs of reads of a round are followed by.
      have hround {q : ℤ} {j : ℕ} (hle : p + 48 ≤ q)
          (hrest : ∀ seed see1 see2, Reads (if i - 48 > 48 then rounds48 mum key (p + 48) (i - 48) seed see1 see2
            else pure (p + 48, i - 48, seed, see1, see2)) (Set.Ico (p + 48) q) fun r => r.1 = q ∧ r.2.1 = j)
          (seed see1 see2 : UInt64) :
          Reads (rounds48 mum key p i seed see1 see2) (Set.Ico p q) fun r => r.1 = q ∧ r.2.1 = j := by
        rw [rounds48]
        refine Reads.congr (reads_pair hp rfl (by omega) fun _ _ =>
          reads_pair (by omega) (by omega) (by omega) fun _ _ =>
            reads_pair (by omega) (by omega) (by omega) fun _ _ => hrest _ _ _) ?_
        intro k
        simp only [Set.mem_union, Set.mem_Ico]
        omega
      by_cases hmore : i - 48 > 48
      · obtain ⟨q, j, hqj, hle, hj, hreads⟩ := ih (i - 48) (by omega) (p := p + 48) (by omega) (by omega) hmore
        refine ⟨q, j, hqj, by omega, hj, hround hle ?_⟩
        intro seed see1 see2
        rw [if_pos hmore]
        exact hreads _ _ _
      · refine ⟨p + 48, i - 48, by omega, by omega, by omega, hround le_rfl ?_⟩
        intro seed see1 see2
        rw [if_neg hmore, Set.Ico_self]
        exact Reads.pure ⟨rfl, rfl⟩

/-- The rounds over 16 bytes read what they pass over, and leave at most 16 bytes. -/
theorem reads_rounds16 (mum : UInt64 → UInt64 → UInt64 × UInt64) {i : ℕ} {p : ℤ} (hp : 0 ≤ p)
    (hend : p + i = key.length) (hi : 0 < i) :
    ∃ q : ℤ, ∃ j : ℕ, q + j = key.length ∧ p ≤ q ∧ j ≤ 16 ∧ ∀ seed,
      Reads (rounds16 mum key p i seed) (Set.Ico p q) fun r => r.1 = q ∧ r.2.1 = j := by
  induction i using Nat.strong_induction_on generalizing p with
  | h i ih =>
      by_cases hmore : i > 16
      · obtain ⟨q, j, hqj, hle, hj, hreads⟩ :=
          ih (i - 16) (by omega) (p := p + 16) (by omega) (by omega) (by omega)
        refine ⟨q, j, hqj, by omega, hj, ?_⟩
        intro seed
        rw [rounds16, dif_pos hmore]
        refine Reads.congr (reads_pair hp rfl (by omega) fun _ _ => hreads _) ?_
        intro k
        simp only [Set.mem_union, Set.mem_Ico]
        omega
      · refine ⟨p, i, hend, le_rfl, Nat.not_lt.mp hmore, ?_⟩
        intro seed
        rw [rounds16, dif_neg hmore, Set.Ico_self]
        exact Reads.pure ⟨rfl, rfl⟩

/-- The same whether or not there are enough bytes for such a round. -/
theorem reads_firstRounds (mum : UInt64 → UInt64 → UInt64 × UInt64) (hpos : 0 < key.length) :
    ∃ q : ℤ, ∃ j : ℕ, q + j = key.length ∧ 0 ≤ q ∧ 0 < j ∧
      Reads (firstRounds mum key key.length) (Set.Ico 0 q) fun r => r.1 = q ∧ r.2.1 = j := by
  by_cases hmore : key.length > 48
  · obtain ⟨q, j, hqj, hle, hj, hreads⟩ := reads_rounds48 mum le_rfl (zero_add _) hmore
    refine ⟨q, j, hqj, hle, hj, ?_⟩
    rw [firstRounds, if_pos hmore, ← Set.union_empty (Set.Ico 0 q)]
    exact (hreads _ _ _).bind fun _ hr => Reads.pure hr
  · refine ⟨0, key.length, zero_add _, le_rfl, hpos, ?_⟩
    rw [firstRounds, if_neg hmore, Set.Ico_self]
    exact Reads.pure ⟨rfl, rfl⟩

/-- A key of more than 16 bytes is read whole: by the rounds, and by two last reads that may go back into what
    the rounds have read. -/
theorem reads_hashLong (mum : UInt64 → UInt64 → UInt64 × UInt64) (hlong : 16 < key.length) :
    Reads (hashLong mum key key.length) (Set.Ico 0 (key.length : ℤ)) fun _ => True := by
  obtain ⟨q, j, hqj, hle, hj, hfirst⟩ := reads_firstRounds mum (Nat.zero_lt_of_lt hlong)
  obtain ⟨q', j', hqj', hle', hj', hreads⟩ := reads_rounds16 mum hle hqj hj
  have hlast (seed : UInt64) : Reads (do
      let a ← r8 key (q' + j' - 16)
      let b ← r8 key (q' + j' - 8)
      return (a, b, seed)) (Set.Ico (q' + j' - 16) (q' + j' - 8 + 8) ∪ ∅) fun _ => True :=
    reads_pair (by omega) (by omega) (by omega) fun _ _ => Reads.pure trivial
  have hall : Reads (hashLong mum key key.length)
      (Set.Ico 0 q ∪ (Set.Ico q q' ∪ (Set.Ico (q' + j' - 16) (q' + j' - 8 + 8) ∪ ∅))) fun _ => True := by
    apply hfirst.bind
    rintro ⟨_, _, seed⟩ ⟨rfl, rfl⟩
    apply (hreads seed).bind
    rintro ⟨_, _, seed'⟩ ⟨rfl, rfl⟩
    exact hlast seed'
  apply hall.congr
  intro k
  simp only [Set.mem_union, Set.mem_Ico, Set.mem_empty_iff_false, or_false]
  omega

theorem reads_hashParts (mum : UInt64 → UInt64 → UInt64 × UInt64) (key : Word) :
    Reads (hashParts mum key key.length) (Set.Ico 0 (key.length : ℤ)) fun _ => True := by
  by_cases hshort : key.length ≤ 16
  · rw [hashParts, if_pos hshort, ← Set.union_empty (Set.Ico 0 (key.length : ℤ))]
    exact (reads_hashShort hshort).bind fun _ _ => Reads.pure trivial
  · rw [hashParts, if_neg hshort]
    exact reads_hashLong mum (Nat.not_le.mp hshort)

theorem reads_mixedHash (mum : UInt64 → UInt64 → UInt64 × UInt64) (key : Word) :
    Reads (mixedHash mum key) (Set.Ico 0 (key.length : ℤ)) fun _ => True := by
  have hhash : Reads (hash mum key) (Set.Ico 0 (key.length : ℤ) ∪ ∅) fun _ => True :=
    (reads_hashParts mum key).bind fun _ _ => Reads.pure trivial
  rw [Set.union_empty] at hhash
  rw [← Set.union_empty (Set.Ico 0 (key.length : ℤ))]
  exact hhash.bind fun _ _ => Reads.pure trivial

end

/-- For every key, whatever its length, and whichever way the compiler multiplies: the hash function never
    reads outside of the key, reads every byte of it, and returns the hash that the map is used with. -/
theorem word_hash_reads_its_key (key : Word) :
    ∃ log, (mixedHash mum128 key).run [] = .ok (wordHash mum128 key, log) ∧
      (mixedHash mumLimbs key).run [] = .ok (wordHash mum128 key, log) ∧
      ∀ p : ℤ, p ∈ log ↔ 0 ≤ p ∧ p < key.length := by
  obtain ⟨x, log, hrun, -, hlog⟩ := (reads_mixedHash mum128 key).exists_run
  have hsame : mumLimbs = mum128 := funext fun a => funext fun b => (mum128_eq_mumLimbs a b).symm
  have hword : wordHash mum128 key = x := by
    rw [wordHash, hrun]
  rw [hsame, hword]
  exact ⟨log, hrun, hrun, hlog⟩

end Wyhash

end FreqUtility
