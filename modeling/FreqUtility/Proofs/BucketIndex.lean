/-
Module: FreqUtility.Proofs.BucketIndex
Layer: Proofs
Purpose: The buckets of the hash map as an index into its values. `Indexes` says that the first `m` keys
  each have exactly one bucket, that this bucket stands at the distance from home it records, and that
  the buckets are ordered. `Pending` is the same with one bucket still carried by `place_and_shift_up`.
  Every exchange keeps it, the ring always has an empty bucket to end in, and the distance never
  outgrows its three bytes as long as there are fewer than 2^24 keys.
Imports: FreqUtility.Library.ProbeRing, FreqUtility.Core.UnorderedDense
Trusted boundary: none (fully proved)
Main exports: Geometry, weight, Held, AtHome, Refers, Indexes, Pending, Vacant, placeAndShiftUp_spec,
  nextWhileLess_spec, probe_spec
Open obligations: none
-/
import FreqUtility.Library.ProbeRing
import FreqUtility.Core.UnorderedDense

namespace FreqUtility

namespace UnorderedDense

open ProbeRing

/-! ### Words -/

theorem distInc_eq {x : ℕ} (h : x + distUnit < 2 ^ 32) : distInc x = x + distUnit :=
  Nat.mod_eq_of_lt h

/-- The distance of a key at home is one, whatever its fingerprint is. -/
theorem distAndFingerprintFromHash_bounds (hash : UInt64) :
    distUnit ≤ distAndFingerprintFromHash hash ∧ distAndFingerprintFromHash hash < 2 * distUnit := by
  have hlt : hash.toNat % 2 ^ 32 &&& (distUnit - 1) < 2 ^ 8 :=
    Nat.lt_of_le_of_lt Nat.and_le_right (by decide)
  have hor := Nat.two_pow_add_eq_or_of_lt hlt 1
  rw [Nat.mul_one] at hor
  unfold distAndFingerprintFromHash
  change 2 ^ 8 ≤ 2 ^ 8 ||| _ ∧ 2 ^ 8 ||| _ < 2 * 2 ^ 8
  rw [← hor]
  omega

/-- The source's `next` is the step of the ring. -/
theorem next_eq_succ {n idx : ℕ} (hn : n ≤ 2 ^ 32) (hidx : idx < n) : next n idx = succ n idx := by
  unfold next succ
  rcases Nat.lt_or_ge (idx + 1) (2 ^ 32) with hlt | hge
  · rw [Nat.mod_eq_of_lt hlt]
  · have hwrap : idx + 1 = 2 ^ 32 := by omega
    rw [hwrap, Nat.mod_self, if_neg (by omega), if_pos (by omega)]

theorem two_pow_eq_shiftLeft (k : ℕ) : 1 <<< k = 2 ^ k := by
  rw [Nat.shiftLeft_eq, Nat.one_mul]

theorem bucketIdxFromHash_lt {shifts : ℕ} (h : shifts ≤ 64) (hash : UInt64) :
    bucketIdxFromHash shifts hash < calcNumBuckets shifts := by
  unfold bucketIdxFromHash calcNumBuckets maxBucketCount
  rw [two_pow_eq_shiftLeft, Nat.shiftRight_eq_div_pow, lt_min_iff]
  refine ⟨Nat.mod_lt _ (by decide), Nat.lt_of_le_of_lt (Nat.mod_le _ _) ?_⟩
  apply Nat.div_lt_of_lt_mul
  rw [← Nat.pow_add, Nat.add_sub_cancel' h]
  exact hash.toNat_lt

/-- The number of buckets that `m_shifts` stands for. -/
structure Geometry (shifts n : ℕ) : Prop where
  pos : 0 < shifts
  le : shifts ≤ initialShifts
  eq : n = calcNumBuckets shifts

namespace Geometry

variable {shifts n : ℕ}

theorem le_two_pow (h : Geometry shifts n) : n ≤ 2 ^ 32 := by
  rw [h.eq]
  exact min_le_left _ _

theorem two_le (h : Geometry shifts n) : 2 ≤ n := by
  rw [h.eq, calcNumBuckets, maxBucketCount, two_pow_eq_shiftLeft, le_min_iff]
  have hle : shifts ≤ 64 - 3 := h.le
  refine ⟨by decide, ?_⟩
  calc 2 = 2 ^ 1 := rfl
    _ ≤ 2 ^ (64 - shifts) := Nat.pow_le_pow_right (by decide) (by omega)

theorem home_lt (h : Geometry shifts n) (hash : UInt64) : bucketIdxFromHash shifts hash < n := by
  have hle : shifts ≤ 64 - 3 := h.le
  rw [h.eq]
  exact bucketIdxFromHash_lt (by omega) hash

end Geometry

/-! ### The search for a key

The word and the bucket that a search compares in its `j`-th step. -/

/-- The distance and fingerprint of the hash, `j` buckets away from home. -/
def searchWord (hash : UInt64) (j : ℕ) : ℕ :=
  distAndFingerprintFromHash hash + j * distUnit

/-- The bucket `j` steps after the home of the hash. -/
def searchPlace (shifts n : ℕ) (hash : UInt64) (j : ℕ) : ℕ :=
  walk n (bucketIdxFromHash shifts hash) j

theorem searchWord_zero (hash : UInt64) : searchWord hash 0 = distAndFingerprintFromHash hash := by
  rw [searchWord, Nat.zero_mul, Nat.add_zero]

theorem searchWord_succ (hash : UInt64) (j : ℕ) :
    searchWord hash (j + 1) = searchWord hash j + distUnit := by
  rw [searchWord, searchWord, Nat.add_mul, Nat.one_mul, Nat.add_assoc]

theorem unit_le_searchWord (hash : UInt64) (j : ℕ) : (j + 1) * distUnit ≤ searchWord hash j := by
  rw [Nat.add_mul, Nat.one_mul, Nat.add_comm]
  exact Nat.add_le_add_right (distAndFingerprintFromHash_bounds hash).1 _

theorem searchWord_lt_unit (hash : UInt64) (j : ℕ) : searchWord hash j < (j + 2) * distUnit := by
  rw [Nat.add_mul, Nat.add_comm]
  exact Nat.add_lt_add_right (distAndFingerprintFromHash_bounds hash).2 _

theorem searchWord_ne_zero (hash : UInt64) (j : ℕ) : searchWord hash j ≠ 0 := by
  have hpos : 0 < (j + 1) * distUnit := Nat.mul_pos (Nat.succ_pos j) (by decide)
  exact Nat.ne_of_gt (Nat.lt_of_lt_of_le hpos (unit_le_searchWord hash j))

/-- The word stays below 2^32 as long as the distance fits its three bytes. -/
theorem distInc_searchWord (hash : UInt64) {j : ℕ} (hj : j + 3 ≤ 2 ^ 24) :
    distInc (searchWord hash j) = searchWord hash (j + 1) := by
  rw [searchWord_succ]
  apply distInc_eq
  calc searchWord hash j + distUnit = searchWord hash (j + 1) := (searchWord_succ hash j).symm
    _ < (j + 3) * distUnit := searchWord_lt_unit hash (j + 1)
    _ ≤ 2 ^ 24 * distUnit := Nat.mul_le_mul_right _ hj

theorem searchPlace_lt {shifts n : ℕ} (h : Geometry shifts n) (hash : UInt64) (j : ℕ) :
    searchPlace shifts n hash j < n :=
  walk_lt (h.home_lt hash) j

theorem next_searchPlace {shifts n : ℕ} (h : Geometry shifts n) (hash : UInt64) (j : ℕ) :
    next n (searchPlace shifts n hash j) = searchPlace shifts n hash (j + 1) :=
  next_eq_succ h.le_two_pow (searchPlace_lt h hash j)

/-- A bucket that is as heavy as the search has only buckets as heavy as the search before it. -/
theorem searchWord_le_of_le {shifts n : ℕ} {w : ℕ → ℕ} (h : Geometry shifts n)
    (hordered : Ordered distUnit n w) {hash : UInt64} {i j : ℕ} (hij : i ≤ j)
    (hreach : searchWord hash j ≤ w (searchPlace shifts n hash j)) :
    searchWord hash i ≤ w (searchPlace shifts n hash i) :=
  hordered.le_walk (h.home_lt hash) (distAndFingerprintFromHash_bounds hash).1 hreach hij

/-- A search passes at most as many buckets as there are in use. -/
theorem le_card_of_passed {shifts n : ℕ} {w : ℕ → ℕ} (h : Geometry shifts n)
    (hempty : ∃ p < n, w p = 0) {hash : UInt64} {j : ℕ}
    (hpassed : ∀ i < j, searchWord hash i ≤ w (searchPlace shifts n hash i)) :
    j ≤ (occupied n w).card := by
  apply le_card_occupied (h.home_lt hash) hempty
  intro i hi hzero
  have hle := hpassed i hi
  rw [searchPlace, hzero] at hle
  exact searchWord_ne_zero hash i (Nat.le_zero.mp hle)

/-! ### The index -/

/-- The distance and fingerprint of a bucket as its weight. -/
def weight (buckets : List Bucket) (p : ℕ) : ℕ :=
  match buckets[p]? with
  | some bucket => bucket.distAndFingerprint
  | none => 0

/-- Bucket `p` is in use. -/
def Held (buckets : List Bucket) (p : ℕ) (bucket : Bucket) : Prop :=
  buckets[p]? = some bucket ∧ bucket.distAndFingerprint ≠ 0

variable {κ : Type} {mixedHash : κ → UInt64} {shifts n m : ℕ} {keys : List κ} {buckets : List Bucket}

/-- A bucket for this key has the word `x` when it stands at `p`. -/
def AtHome (mixedHash : κ → UInt64) (shifts n : ℕ) (key : κ) (p x : ℕ) : Prop :=
  ∃ d, searchPlace shifts n (mixedHash key) d = p ∧ x = searchWord (mixedHash key) d

/-- The bucket at `p` points to one of the first `m` keys, from the right distance. -/
def Refers (mixedHash : κ → UInt64) (shifts n : ℕ) (keys : List κ) (m p : ℕ) (bucket : Bucket) :
    Prop :=
  bucket.valueIdx < m ∧ ∃ key, keys[bucket.valueIdx]? = some key ∧
    AtHome mixedHash shifts n key p bucket.distAndFingerprint

/-- Every bucket in use points to its own one of the first `m` keys, and the buckets are ordered. -/
structure Filed (mixedHash : κ → UInt64) (shifts : ℕ) (keys : List κ) (m : ℕ)
    (buckets : List Bucket) : Prop where
  ordered : Ordered distUnit buckets.length (weight buckets)
  refers : ∀ p b, Held buckets p b → Refers mixedHash shifts buckets.length keys m p b
  unique : ∀ p q b c, Held buckets p b → Held buckets q c → b.valueIdx = c.valueIdx → p = q

/-- The buckets index exactly the first `m` keys. -/
structure Indexes (mixedHash : κ → UInt64) (shifts : ℕ) (keys : List κ) (m : ℕ)
    (buckets : List Bucket) : Prop extends Filed mixedHash shifts keys m buckets where
  present : ∀ i < m, ∃ p b, Held buckets p b ∧ b.valueIdx = i

/-- The buckets and one more, about to be put at `place`, index exactly the first `m + 1` keys. -/
structure Pending (mixedHash : κ → UInt64) (shifts : ℕ) (keys : List κ) (m : ℕ)
    (buckets : List Bucket) (bucket : Bucket) (place : ℕ) : Prop
    extends Filed mixedHash shifts keys (m + 1) buckets where
  present : ∀ i < m + 1, i = bucket.valueIdx ∨ ∃ p b, Held buckets p b ∧ b.valueIdx = i
  place_lt : place < buckets.length
  fits : Fits distUnit buckets.length (weight buckets) place bucket.distAndFingerprint
  le : weight buckets place ≤ bucket.distAndFingerprint
  carried : Refers mixedHash shifts buckets.length keys (m + 1) place bucket
  fresh : ∀ p b, Held buckets p b → b.valueIdx ≠ bucket.valueIdx

theorem AtHome.unit_le {key : κ} {p x : ℕ} (h : AtHome mixedHash shifts n key p x) : distUnit ≤ x := by
  obtain ⟨d, -, rfl⟩ := h
  exact (Nat.le_mul_of_pos_left _ (Nat.succ_pos d)).trans (unit_le_searchWord _ d)

/-- One step further from home is one unit more. -/
theorem AtHome.next {key : κ} {p x : ℕ} (h : AtHome mixedHash shifts n key p x) :
    AtHome mixedHash shifts n key (succ n p) (x + distUnit) := by
  obtain ⟨d, rfl, rfl⟩ := h
  exact ⟨d + 1, rfl, (searchWord_succ _ d).symm⟩

theorem exists_bucket {p : ℕ} (hp : p < buckets.length) : ∃ b, buckets[p]? = some b :=
  ⟨_, List.getElem?_eq_getElem hp⟩

theorem weight_eq {p : ℕ} {b : Bucket} (h : buckets[p]? = some b) :
    weight buckets p = b.distAndFingerprint := by
  rw [weight, h]

theorem held_of_weight {p : ℕ} (h : weight buckets p ≠ 0) :
    ∃ b, Held buckets p b ∧ b.distAndFingerprint = weight buckets p := by
  unfold weight at h ⊢
  cases hb : buckets[p]? with
  | none => simp [hb] at h
  | some b =>
      rw [hb] at h
      exact ⟨b, ⟨hb, h⟩, rfl⟩

theorem Held.lt {p : ℕ} {b : Bucket} (h : Held buckets p b) : p < buckets.length :=
  (List.getElem?_eq_some_iff.mp h.1).1

theorem Held.weight_ne {p : ℕ} {b : Bucket} (h : Held buckets p b) : weight buckets p ≠ 0 := by
  rw [weight_eq h.1]
  exact h.2

theorem Held.eq {p : ℕ} {b c : Bucket} (h : Held buckets p b) (h' : Held buckets p c) : b = c :=
  Option.some_inj.mp (h.1.symm.trans h'.1)

theorem weight_set {place : ℕ} (hplace : place < buckets.length) (bucket : Bucket) :
    weight (buckets.set place bucket) =
      Function.update (weight buckets) place bucket.distAndFingerprint := by
  funext p
  unfold weight
  by_cases hp : p = place
  · subst hp
    rw [List.getElem?_set_self hplace, Function.update_self]
  · rw [List.getElem?_set_ne (Ne.symm hp), Function.update_of_ne hp]

theorem held_set {place p : ℕ} {bucket b : Bucket} (hplace : place < buckets.length)
    (hbucket : bucket.distAndFingerprint ≠ 0) :
    Held (buckets.set place bucket) p b ↔
      (p = place ∧ b = bucket) ∨ (p ≠ place ∧ Held buckets p b) := by
  unfold Held
  by_cases hp : p = place
  · subst hp
    rw [List.getElem?_set_self hplace, Option.some_inj]
    constructor
    · rintro ⟨rfl, -⟩
      exact Or.inl ⟨rfl, rfl⟩
    · rintro (⟨-, rfl⟩ | ⟨hne, -⟩)
      · exact ⟨rfl, hbucket⟩
      · exact absurd rfl hne
  · rw [List.getElem?_set_ne (Ne.symm hp)]
    constructor
    · exact fun h => Or.inr ⟨hp, h⟩
    · rintro (⟨heq, -⟩ | ⟨-, h⟩)
      · exact absurd heq hp
      · exact h

/-! ### There is always an empty bucket -/

/-- Buckets that point to different indices below `m` are at most `m`. -/
theorem card_occupied_buckets_le
    (hbelow : ∀ p b, Held buckets p b → b.valueIdx < m)
    (hunique : ∀ p q b c, Held buckets p b → Held buckets q c → b.valueIdx = c.valueIdx → p = q) :
    (occupied buckets.length (weight buckets)).card ≤ m := by
  have hlabel : ∀ p ∈ occupied buckets.length (weight buckets),
      ∃ b, Held buckets p b ∧ (buckets[p]?.getD Bucket.empty).valueIdx = b.valueIdx := by
    intro p hp
    obtain ⟨b, hb, -⟩ := held_of_weight (mem_occupied.mp hp).2
    exact ⟨b, hb, by rw [hb.1]; rfl⟩
  apply card_occupied_le fun p => (buckets[p]?.getD Bucket.empty).valueIdx
  · intro p hp
    obtain ⟨b, hb, heq⟩ := hlabel p hp
    rw [heq]
    exact hbelow p b hb
  · intro p hp q hq hsame
    obtain ⟨b, hb, hbIdx⟩ := hlabel p hp
    obtain ⟨c, hc, hcIdx⟩ := hlabel q hq
    exact hunique p q b c hb hc (hbIdx.symm.trans (hsame.trans hcIdx))

/-- The buckets of an index, or of a pending index, are at most the keys they were made for. -/
theorem Indexes.card_le (h : Indexes mixedHash shifts keys m buckets) :
    (occupied buckets.length (weight buckets)).card ≤ m :=
  card_occupied_buckets_le (fun p b hb => (h.refers p b hb).1) h.unique

namespace Pending

variable {bucket : Bucket} {place : ℕ}

/-- The index of the carried bucket is free, so one index fewer is in use. -/
theorem card_le (h : Pending mixedHash shifts keys m buckets bucket place) :
    (occupied buckets.length (weight buckets)).card ≤ m := by
  -- Close the gap that the carried index leaves.
  have hlabel : ∀ p ∈ occupied buckets.length (weight buckets),
      ∃ b, Held buckets p b ∧ (buckets[p]?.getD Bucket.empty).valueIdx = b.valueIdx := by
    intro p hp
    obtain ⟨b, hb, -⟩ := held_of_weight (mem_occupied.mp hp).2
    exact ⟨b, hb, by rw [hb.1]; rfl⟩
  have hcarried := h.carried.1
  apply card_occupied_le fun p =>
    if (buckets[p]?.getD Bucket.empty).valueIdx < bucket.valueIdx
    then (buckets[p]?.getD Bucket.empty).valueIdx
    else (buckets[p]?.getD Bucket.empty).valueIdx - 1
  · intro p hp
    obtain ⟨b, hb, heq⟩ := hlabel p hp
    have hbelow := (h.refers p b hb).1
    have hne := h.fresh p b hb
    simp only [heq]
    split <;> omega
  · intro p hp q hq hsame
    obtain ⟨b, hb, hbIdx⟩ := hlabel p hp
    obtain ⟨c, hc, hcIdx⟩ := hlabel q hq
    have hbne := h.fresh p b hb
    have hcne := h.fresh q c hc
    simp only [hbIdx, hcIdx] at hsame
    apply h.unique p q b c hb hc
    split at hsame <;> split at hsame <;> omega

end Pending

/-- An occupant is less than its number of occupants away from home. -/
theorem distance_lt (hordered : Ordered distUnit buckets.length (weight buckets))
    (hgeometry : Geometry shifts buckets.length)
    (hempty : ∃ p < buckets.length, weight buckets p = 0) {hash : UInt64} {d : ℕ} {b : Bucket}
    (hheld : Held buckets (searchPlace shifts buckets.length hash d) b)
    (hword : b.distAndFingerprint = searchWord hash d) :
    d < (occupied buckets.length (weight buckets)).card := by
  have hpassed : ∀ i < d + 1,
      searchWord hash i ≤ weight buckets (searchPlace shifts buckets.length hash i) := by
    intro i hi
    apply searchWord_le_of_le hgeometry hordered (Nat.le_of_lt_succ hi)
    rw [weight_eq hheld.1, hword]
  exact le_card_of_passed hgeometry hempty hpassed

/-! ### `place_and_shift_up` -/

namespace Pending

variable {bucket : Bucket} {place : ℕ}

theorem exists_empty (h : Pending mixedHash shifts keys m buckets bucket place)
    (hm : m < buckets.length) : ∃ p < buckets.length, weight buckets p = 0 :=
  ProbeRing.exists_empty (Nat.lt_of_le_of_lt h.card_le hm)

theorem bucket_ne (h : Pending mixedHash shifts keys m buckets bucket place) :
    bucket.distAndFingerprint ≠ 0 := by
  obtain ⟨-, key, -, hhome⟩ := h.carried
  have hunit : 0 < distUnit := by decide
  have hle := hhome.unit_le
  omega

/-- The occupant of the place can move on without leaving its word. -/
theorem distInc_occupant (h : Pending mixedHash shifts keys m buckets bucket place)
    (hgeometry : Geometry shifts buckets.length) (hm : m < buckets.length) (hmax : m + 2 ≤ 2 ^ 24)
    {occupant : Bucket} (hheld : Held buckets place occupant) :
    distInc occupant.distAndFingerprint = occupant.distAndFingerprint + distUnit := by
  obtain ⟨-, key, -, d, rfl, hword⟩ := h.refers place occupant hheld
  have hdistance := distance_lt h.ordered hgeometry (h.exists_empty hm) hheld hword
  have hcard := h.card_le
  rw [hword, ← searchWord_succ]
  exact distInc_searchWord _ (by omega)

/-- Whatever stood there, the carried bucket may be written to its place. -/
theorem filed_set (h : Pending mixedHash shifts keys m buckets bucket place) :
    Filed mixedHash shifts keys (m + 1) (buckets.set place bucket) := by
  have hset := fun p b => held_set (p := p) (b := b) h.place_lt h.bucket_ne
  constructor
  case ordered =>
      rw [weight_set h.place_lt, List.length_set]
      exact h.ordered.update h.fits h.le
  case refers =>
      rw [List.length_set]
      intro p b hb
      rcases (hset p b).mp hb with ⟨rfl, rfl⟩ | ⟨-, hold⟩
      · exact h.carried
      · exact h.refers p b hold
  case unique =>
      intro p q b c hb hc hsame
      rcases (hset p b).mp hb with ⟨rfl, rfl⟩ | ⟨-, hb'⟩
      · rcases (hset q c).mp hc with ⟨rfl, -⟩ | ⟨-, hc'⟩
        · rfl
        · exact absurd hsame.symm (h.fresh q c hc')
      · rcases (hset q c).mp hc with ⟨-, rfl⟩ | ⟨-, hc'⟩
        · exact absurd hsame (h.fresh p b hb')
        · exact h.unique p q b c hb' hc' hsame

/-- One exchange: the carried bucket takes the place, its occupant is carried one slot on. -/
theorem exchange (h : Pending mixedHash shifts keys m buckets bucket place)
    (hgeometry : Geometry shifts buckets.length) {occupant : Bucket}
    (hheld : Held buckets place occupant) :
    Pending mixedHash shifts keys m (buckets.set place bucket)
      { occupant with distAndFingerprint := occupant.distAndFingerprint + distUnit }
      (succ buckets.length place) := by
  have hset := fun p b => held_set (p := p) (b := b) h.place_lt h.bucket_ne
  have hweight := weight_eq hheld.1
  obtain ⟨hidx, key, hkey, hhome⟩ := h.refers place occupant hheld
  constructor
  case toFiled => exact h.filed_set
  case present =>
      intro i hi
      rcases h.present i hi with rfl | ⟨p, b, hb, rfl⟩
      · exact Or.inr ⟨place, bucket, (hset _ _).mpr (Or.inl ⟨rfl, rfl⟩), rfl⟩
      · by_cases hp : p = place
        · subst hp
          exact Or.inl (by rw [hb.eq hheld])
        · exact Or.inr ⟨p, b, (hset p b).mpr (Or.inr ⟨hp, hb⟩), rfl⟩
  case place_lt =>
      rw [List.length_set]
      exact succ_lt h.place_lt
  case fits =>
      rw [weight_set h.place_lt, List.length_set, ← hweight]
      exact Ordered.fits_pushed h.le
  case le =>
      rw [weight_set h.place_lt, ← hweight]
      apply h.ordered.le_pushed hgeometry.two_le h.place_lt
      rw [hweight]
      exact hhome.unit_le
  case carried =>
      rw [List.length_set]
      exact ⟨hidx, key, hkey, hhome.next⟩
  case fresh =>
      intro p b hb
      rcases (hset p b).mp hb with ⟨-, rfl⟩ | ⟨hp, hb⟩
      · exact fun hsame => h.fresh place occupant hheld hsame.symm
      · exact fun hsame => hp (h.unique p place b occupant hb hheld hsame)

/-- An empty place takes the carried bucket, and the index is complete. -/
theorem finish (h : Pending mixedHash shifts keys m buckets bucket place)
    (hzero : weight buckets place = 0) :
    Indexes mixedHash shifts keys (m + 1) (buckets.set place bucket) := by
  have hset := fun p b => held_set (p := p) (b := b) h.place_lt h.bucket_ne
  refine ⟨h.filed_set, ?_⟩
  intro i hi
  rcases h.present i hi with rfl | ⟨p, b, hb, rfl⟩
  · exact ⟨place, bucket, (hset _ _).mpr (Or.inl ⟨rfl, rfl⟩), rfl⟩
  · have hne : p ≠ place := by
      rintro rfl
      exact hb.weight_ne hzero
    exact ⟨p, b, (hset p b).mpr (Or.inr ⟨hne, hb⟩), rfl⟩

end Pending

/-- The loop ends within one round, and the carried bucket is in the index. -/
theorem placeAndShiftUp_spec {fuel : ℕ} {bucket : Bucket} {place : ℕ}
    (hgeometry : Geometry shifts buckets.length) (hm : m < buckets.length) (hmax : m + 2 ≤ 2 ^ 24)
    (h : Pending mixedHash shifts keys m buckets bucket place)
    (hfuel : ∃ d < fuel, weight buckets (walk buckets.length place d) = 0) :
    ∃ buckets', placeAndShiftUp fuel buckets bucket place = .ok buckets' ∧
      buckets'.length = buckets.length ∧ Indexes mixedHash shifts keys (m + 1) buckets' := by
  induction fuel generalizing buckets bucket place with
  | zero =>
      obtain ⟨d, hd, -⟩ := hfuel
      exact absurd hd (Nat.not_lt_zero d)
  | succ fuel ih =>
      obtain ⟨occupant, hget⟩ := exists_bucket h.place_lt
      unfold placeAndShiftUp
      simp only [bucketAt, hget, bind, Except.bind]
      by_cases hoccupied : occupant.distAndFingerprint ≠ 0
      · have hheld : Held buckets place occupant := ⟨hget, hoccupied⟩
        rw [if_pos hoccupied, h.distInc_occupant hgeometry hm hmax hheld,
          next_eq_succ hgeometry.le_two_pow h.place_lt]
        have hlength : (buckets.set place bucket).length = buckets.length := List.length_set
        have hrest : ∃ d < fuel, weight (buckets.set place bucket)
            (walk buckets.length (succ buckets.length place) d) = 0 := by
          obtain ⟨d, hd, hzero⟩ := hfuel
          cases d with
          | zero => exact absurd hzero hheld.weight_ne
          | succ d =>
              refine ⟨d, Nat.lt_of_succ_lt_succ hd, ?_⟩
              rw [walk_succ_start, weight_set h.place_lt, Function.update_of_ne]
              · exact hzero
              · intro hback
                rw [hback] at hzero
                exact hheld.weight_ne hzero
        have hnext := h.exchange hgeometry hheld
        rw [← hlength] at hgeometry hm hrest hnext ⊢
        exact ih hgeometry hm hnext hrest
      · rw [if_neg hoccupied]
        have hzero : weight buckets place = 0 := by
          rw [weight_eq hget]
          exact not_not.mp hoccupied
        exact ⟨_, rfl, List.length_set, h.finish hzero⟩

/-! ### Searching -/

section Searching

variable (mixedHash shifts buckets) in
/-- The search for a key has come `j` buckets far: each of them was at least as heavy as the search. -/
def Passed (key : κ) (j : ℕ) : Prop :=
  ∀ i < j, searchWord (mixedHash key) i ≤
    weight buckets (searchPlace shifts buckets.length (mixedHash key) i)

/-- A bucket for the key may be put at `p` with the word `x`. -/
structure Vacant (mixedHash : κ → UInt64) (shifts : ℕ) (buckets : List Bucket) (key : κ) (p x : ℕ) :
    Prop where
  lt : p < buckets.length
  atHome : AtHome mixedHash shifts buckets.length key p x
  fits : Fits distUnit buckets.length (weight buckets) p x
  le : weight buckets p ≤ x

variable {key : κ} {j : ℕ}

theorem Passed.zero : Passed mixedHash shifts buckets key 0 :=
  fun i hi => absurd hi (Nat.not_lt_zero i)

theorem Passed.succ (h : Passed mixedHash shifts buckets key j)
    (hle : searchWord (mixedHash key) j ≤
      weight buckets (searchPlace shifts buckets.length (mixedHash key) j)) :
    Passed mixedHash shifts buckets key (j + 1) := by
  intro i hi
  rcases Nat.lt_succ_iff_lt_or_eq.mp hi with hlt | rfl
  · exact h i hlt
  · exact hle

/-- Where the search is not outweighed, the key may be put. -/
theorem Passed.vacant (h : Passed mixedHash shifts buckets key j)
    (hgeometry : Geometry shifts buckets.length)
    (hle : weight buckets (searchPlace shifts buckets.length (mixedHash key) j) ≤
      searchWord (mixedHash key) j) :
    Vacant mixedHash shifts buckets key (searchPlace shifts buckets.length (mixedHash key) j)
      (searchWord (mixedHash key) j) where
  lt := searchPlace_lt hgeometry _ j
  atHome := ⟨j, rfl, rfl⟩
  fits := by
    cases j with
    | zero =>
        rw [searchWord_zero]
        exact fits_of_lt (distAndFingerprintFromHash_bounds _).2
    | succ j =>
        rw [searchWord_succ]
        exact fits_succ (h j (Nat.lt_succ_self j))
  le := hle

/-- A vacant place for a new key makes its bucket pending. -/
theorem Vacant.pending {p x : ℕ} (h : Vacant mixedHash shifts buckets key p x)
    (hindex : Indexes mixedHash shifts keys m buckets) (hkey : keys[m]? = some key) :
    Pending mixedHash shifts keys m buckets { distAndFingerprint := x, valueIdx := m } p where
  ordered := hindex.ordered
  refers := by
    intro q b hb
    obtain ⟨hidx, hrest⟩ := hindex.refers q b hb
    exact ⟨Nat.lt_succ_of_lt hidx, hrest⟩
  unique := hindex.unique
  present := by
    intro i hi
    rcases Nat.lt_succ_iff_lt_or_eq.mp hi with hlt | rfl
    · exact Or.inr (hindex.present i hlt)
    · exact Or.inl rfl
  place_lt := h.lt
  fits := h.fits
  le := h.le
  carried := ⟨Nat.lt_succ_self m, key, hkey, h.atHome⟩
  fresh := fun q b hb => Nat.ne_of_lt (hindex.refers q b hb).1

variable (mixedHash shifts keys buckets) in
/-- None of the first `j` buckets of the search belongs to the key. -/
def Missed (key : κ) (j : ℕ) : Prop :=
  ∀ i < j, ∀ b, Held buckets (searchPlace shifts buckets.length (mixedHash key) i) b →
    keys[b.valueIdx]? ≠ some key

theorem Missed.zero : Missed mixedHash shifts keys buckets key 0 :=
  fun i hi => absurd hi (Nat.not_lt_zero i)

theorem Missed.succ (h : Missed mixedHash shifts keys buckets key j)
    (hnot : ∀ b, Held buckets (searchPlace shifts buckets.length (mixedHash key) j) b →
      keys[b.valueIdx]? ≠ some key) : Missed mixedHash shifts keys buckets key (j + 1) := by
  intro i hi
  rcases Nat.lt_succ_iff_lt_or_eq.mp hi with hlt | rfl
  · exact h i hlt
  · exact hnot

/-- A table as the searches find it: an index of few enough keys that the ring has room. -/
structure Roomy (mixedHash : κ → UInt64) (shifts : ℕ) (keys : List κ) (m : ℕ) (buckets : List Bucket) :
    Prop extends Indexes mixedHash shifts keys m buckets where
  geometry : Geometry shifts buckets.length
  lt_length : m < buckets.length
  lt_max : m + 2 ≤ 2 ^ 24

namespace Roomy

theorem exists_empty (h : Roomy mixedHash shifts keys m buckets) :
    ∃ p < buckets.length, weight buckets p = 0 :=
  ProbeRing.exists_empty (Nat.lt_of_le_of_lt h.card_le h.lt_length)

theorem passed_le (h : Roomy mixedHash shifts keys m buckets)
    (hpassed : Passed mixedHash shifts buckets key j) : j ≤ m :=
  (le_card_of_passed h.geometry h.exists_empty hpassed).trans h.card_le

/-- A bucket of another weight than the search does not belong to the key. -/
theorem not_of_weight_ne (h : Roomy mixedHash shifts keys m buckets) (hj : j < buckets.length)
    (hne : searchWord (mixedHash key) j ≠
      weight buckets (searchPlace shifts buckets.length (mixedHash key) j)) {b : Bucket}
    (hheld : Held buckets (searchPlace shifts buckets.length (mixedHash key) j) b) :
    keys[b.valueIdx]? ≠ some key := by
  intro hkey
  obtain ⟨-, key', hkey', d, hd, hword⟩ := h.refers _ b hheld
  rw [hkey, Option.some_inj] at hkey'
  subst hkey'
  have hdlt : d < buckets.length := by
    rw [← hd] at hheld
    have hdistance := distance_lt h.ordered h.geometry h.exists_empty hheld hword
    exact (hdistance.trans_le h.card_le).trans h.lt_length
  -- The bucket records the distance of its place, so it would have the weight of the search.
  have hsame := walk_injOn (h.geometry.home_lt (mixedHash key)) hdlt hj hd
  rw [weight_eq hheld.1, hword, hsame] at hne
  exact hne rfl

/-- When the search outweighs a bucket, its key has no bucket at all. -/
theorem absent (h : Roomy mixedHash shifts keys m buckets)
    (hmissed : Missed mixedHash shifts keys buckets key j)
    (hlighter : weight buckets (searchPlace shifts buckets.length (mixedHash key) j) <
      searchWord (mixedHash key) j) : ∀ i < m, keys[i]? ≠ some key := by
  intro i hi hkey
  obtain ⟨p, b, hheld, rfl⟩ := h.present i hi
  obtain ⟨-, key', hkey', d, rfl, hword⟩ := h.refers p b hheld
  rw [hkey, Option.some_inj] at hkey'
  subst hkey'
  rcases Nat.lt_or_ge d j with hlt | hge
  · exact hmissed d hlt b hheld hkey
  · have hreach := (weight_eq hheld.1).trans hword
    have hle := searchWord_le_of_le h.geometry h.ordered hge hreach.ge
    exact absurd hle (Nat.not_le.mpr hlighter)

/-- `next_while_less` ends within one round, at a vacant place for the key. -/
theorem nextWhileLessFrom_spec (h : Roomy mixedHash shifts keys m buckets)
    (hpassed : Passed mixedHash shifts buckets key j) {fuel : ℕ} (hfuel : m < j + fuel) :
    ∃ p x, nextWhileLessFrom buckets fuel (searchWord (mixedHash key) j)
        (searchPlace shifts buckets.length (mixedHash key) j) =
          .ok { distAndFingerprint := x, valueIdx := p } ∧
      Vacant mixedHash shifts buckets key p x := by
  induction fuel generalizing j with
  | zero => exact absurd (h.passed_le hpassed) (Nat.not_le.mpr hfuel)
  | succ fuel ih =>
      obtain ⟨bucket, hget⟩ := exists_bucket (searchPlace_lt h.geometry (mixedHash key) j)
      have hweight := weight_eq hget
      unfold nextWhileLessFrom
      simp only [bucketAt, hget, bind, Except.bind]
      split
      · rename_i hless
        have hnext := hpassed.succ (by rw [hweight]; exact Nat.le_of_lt hless)
        have hle := h.passed_le hnext
        have hmax := h.lt_max
        rw [distInc_searchWord _ (by omega), next_searchPlace h.geometry]
        exact ih hnext (by omega)
      · rename_i hless
        exact ⟨_, _, rfl, hpassed.vacant h.geometry (by rw [hweight]; exact Nat.le_of_not_lt hless)⟩

theorem nextWhileLess_spec (h : Roomy mixedHash shifts keys m buckets) (key : κ) :
    ∃ p x, nextWhileLess mixedHash shifts buckets key =
        .ok { distAndFingerprint := x, valueIdx := p } ∧
      Vacant mixedHash shifts buckets key p x := by
  have hstart : Passed mixedHash shifts buckets key 0 := Passed.zero
  have hspec := h.nextWhileLessFrom_spec hstart (Nat.lt_add_left 0 h.lt_length)
  rwa [searchWord_zero] at hspec

variable [DecidableEq κ]

/-- What the search of `do_try_emplace` ends with. -/
def ProbeOutcome (mixedHash : κ → UInt64) (shifts : ℕ) (keys : List κ) (m : ℕ)
    (buckets : List Bucket) (key : κ) : Probe → Prop
  | .found i => i < m ∧ keys[i]? = some key
  | .vacant x p => Vacant mixedHash shifts buckets key p x ∧ ∀ i < m, keys[i]? ≠ some key

/-- The search of `do_try_emplace` ends within one round, at the key or at its vacant place. -/
theorem probeFrom_spec {values : List (κ × ℕ)}
    (h : Roomy mixedHash shifts (values.map Prod.fst) m buckets)
    (hpassed : Passed mixedHash shifts buckets key j)
    (hmissed : Missed mixedHash shifts (values.map Prod.fst) buckets key j) {fuel : ℕ}
    (hfuel : m < j + fuel) :
    ∃ r, probe values buckets key fuel (searchWord (mixedHash key) j)
        (searchPlace shifts buckets.length (mixedHash key) j) = .ok r ∧
      ProbeOutcome mixedHash shifts (values.map Prod.fst) m buckets key r := by
  induction fuel generalizing j with
  | zero => exact absurd (h.passed_le hpassed) (Nat.not_le.mpr hfuel)
  | succ fuel ih =>
      obtain ⟨bucket, hget⟩ := exists_bucket (searchPlace_lt h.geometry (mixedHash key) j)
      have hweight := weight_eq hget
      -- The two branches that go on to the next bucket.
      have hstep (hle : searchWord (mixedHash key) j ≤ bucket.distAndFingerprint)
          (hnot : ∀ b, Held buckets (searchPlace shifts buckets.length (mixedHash key) j) b →
            (values.map Prod.fst)[b.valueIdx]? ≠ some key) :
          ∃ r, probe values buckets key fuel (distInc (searchWord (mixedHash key) j))
              (next buckets.length (searchPlace shifts buckets.length (mixedHash key) j)) = .ok r ∧
            ProbeOutcome mixedHash shifts (values.map Prod.fst) m buckets key r := by
        have hnext := hpassed.succ (by rw [hweight]; exact hle)
        have hnextle := h.passed_le hnext
        have hmax := h.lt_max
        rw [distInc_searchWord _ (by omega), next_searchPlace h.geometry]
        exact ih hnext (hmissed.succ hnot) (by omega)
      unfold probe
      simp only [bucketAt, hget, bind, Except.bind]
      split
      · rename_i hequal
        have hheld : Held buckets (searchPlace shifts buckets.length (mixedHash key) j) bucket :=
          ⟨hget, hequal ▸ searchWord_ne_zero _ j⟩
        obtain ⟨hidx, key', hkey', -⟩ := h.refers _ bucket hheld
        obtain ⟨entry, hentry, rfl⟩ := Option.map_eq_some_iff.mp (List.getElem?_map.symm.trans hkey')
        simp only [valueAt, hentry]
        split
        · rename_i hsame
          subst hsame
          exact ⟨_, rfl, hidx, hkey'⟩
        · rename_i hother
          apply hstep hequal.le
          intro b hb
          rw [hb.eq hheld, hkey']
          exact fun heq => hother (Option.some_inj.mp heq).symm
      · rename_i hdiffer
        have hjle := h.passed_le hpassed
        split
        · rename_i hgreater
          rw [← hweight] at hgreater
          exact ⟨_, rfl, hpassed.vacant h.geometry (Nat.le_of_lt hgreater), h.absent hmissed hgreater⟩
        · rename_i hless
          apply hstep (Nat.le_of_not_lt hless)
          intro b hb
          exact h.not_of_weight_ne (hjle.trans_lt h.lt_length) (by rwa [hweight]) hb

theorem probe_spec {values : List (κ × ℕ)}
    (h : Roomy mixedHash shifts (values.map Prod.fst) m buckets) (key : κ) :
    ∃ r, probe values buckets key buckets.length (distAndFingerprintFromHash (mixedHash key))
        (bucketIdxFromHash shifts (mixedHash key)) = .ok r ∧
      ProbeOutcome mixedHash shifts (values.map Prod.fst) m buckets key r := by
  have hstart : Passed mixedHash shifts buckets key 0 := Passed.zero
  have hspec := h.probeFrom_spec hstart Missed.zero (Nat.lt_add_left 0 h.lt_length)
  rwa [searchWord_zero] at hspec

end Roomy

end Searching

end UnorderedDense

end FreqUtility
