/-
Module: FreqUtility.Proofs.HashTable
Layer: Proofs
Purpose: The hash map does what its entries do. A `Sound` table has distinct keys, the buckets its shift
  count asks for, an index of all its entries, and no more entries than its capacity. Every operation of
  the program keeps that, never faults, and acts on the entries like `put`, whatever the hash function
  is, as long as a distance fits its three bytes. So a whole run of operations is a run on the list of
  entries in order of insertion, and `find` reads that list.
Imports: FreqUtility.Library.EntryLists, FreqUtility.Proofs.BucketIndex
Trusted boundary: none (fully proved)
Main exports: Sound, increaseSize_spec, doTryEmplace_spec, emplaceOrIncrement_spec, subscriptAdd_spec,
  reserve_spec, doFind_spec
Open obligations: none
-/
import FreqUtility.Library.EntryLists
import FreqUtility.Proofs.BucketIndex

namespace FreqUtility

namespace UnorderedDense

open CountMaps ProbeRing

/-! ### The number of buckets -/

theorem calcNumBuckets_eq {shifts : ℕ} (h : 32 ≤ shifts) :
    calcNumBuckets shifts = 2 ^ (64 - shifts) := by
  rw [calcNumBuckets, two_pow_eq_shiftLeft]
  apply min_eq_right
  rw [maxBucketCount]
  exact Nat.pow_le_pow_right (by decide) (by omega)

theorem calcNumBuckets_of_le {shifts : ℕ} (h : shifts ≤ 32) :
    calcNumBuckets shifts = maxBucketCount := by
  rw [calcNumBuckets, two_pow_eq_shiftLeft]
  apply min_eq_left
  rw [maxBucketCount]
  exact Nat.pow_le_pow_right (by decide) (by omega)

/-- Until the ring is as large as it gets, one shift less doubles it. -/
theorem calcNumBuckets_pred {shifts : ℕ} (h : calcNumBuckets shifts < maxBucketCount)
    (hle : shifts ≤ 64) : 32 < shifts ∧ calcNumBuckets (shifts - 1) = 2 * calcNumBuckets shifts := by
  have hlt : 32 < shifts := by
    by_contra hge
    rw [calcNumBuckets_of_le (Nat.le_of_not_lt hge)] at h
    exact Nat.lt_irrefl _ h
  refine ⟨hlt, ?_⟩
  have hexp : 64 - (shifts - 1) = 64 - shifts + 1 := by omega
  rw [calcNumBuckets_eq (by omega), calcNumBuckets_eq (by omega), hexp, Nat.pow_succ, Nat.mul_comm]

theorem Geometry.eight_le {shifts n : ℕ} (h : Geometry shifts n) : 8 ≤ n := by
  have hle : shifts ≤ 64 - 3 := h.le
  rw [h.eq, calcNumBuckets, maxBucketCount, two_pow_eq_shiftLeft, le_min_iff]
  refine ⟨by decide, ?_⟩
  calc 8 = 2 ^ 3 := rfl
    _ ≤ 2 ^ (64 - shifts) := Nat.pow_le_pow_right (by decide) (by omega)

theorem loadLimit_lt {n : ℕ} (h : 0 < n) : loadLimit n < n := by
  unfold loadLimit
  omega

theorem loadLimit_le_two_mul (n : ℕ) : 2 * loadLimit n ≤ loadLimit (2 * n) := by
  unfold loadLimit
  omega

theorem loadLimit_pos {n : ℕ} (h : 8 ≤ n) : 0 < loadLimit n := by
  unfold loadLimit
  omega

/-- Below the largest ring the capacity is the load limit. -/
theorem capacityFor_of_lt {n : ℕ} (h : n < maxBucketCount) : capacityFor n = loadLimit n := by
  rw [capacityFor, if_neg h.ne]
  apply Nat.mod_eq_of_lt
  unfold maxBucketCount at h
  unfold loadLimit
  omega

theorem loadLimit_le_capacityFor {n : ℕ} (h : n ≤ maxBucketCount) : loadLimit n ≤ capacityFor n := by
  rcases Nat.lt_or_eq_of_le h with hlt | rfl
  · exact (capacityFor_of_lt hlt).ge
  · rw [capacityFor, if_pos rfl]
    exact (loadLimit_lt (by decide)).le

/-- The loop finds a ring whose load limit suffices, if the largest ring does. -/
theorem calcShiftsForSizeFrom_spec {s : ℕ} (hs : s ≤ loadLimit maxBucketCount) (k : ℕ) (hk : 32 ≤ k) :
    32 ≤ calcShiftsForSizeFrom s k ∧ calcShiftsForSizeFrom s k ≤ k ∧
      s ≤ loadLimit (calcNumBuckets (calcShiftsForSizeFrom s k)) := by
  induction k, hk using Nat.le_induction with
  | base =>
      have hlimit : ¬ loadLimit (calcNumBuckets 32) < s := by
        rw [calcNumBuckets_of_le (Nat.le_refl 32)]
        exact Nat.not_lt.mpr hs
      rw [calcShiftsForSizeFrom, if_neg hlimit]
      exact ⟨Nat.le_refl _, Nat.le_refl _, Nat.le_of_not_lt hlimit⟩
  | succ k hk ih =>
      unfold calcShiftsForSizeFrom
      split
      · exact ⟨ih.1, ih.2.1.trans (Nat.le_succ k), ih.2.2⟩
      · rename_i hlimit
        exact ⟨Nat.le_succ_of_le hk, Nat.le_refl _, Nat.le_of_not_lt hlimit⟩

/-! ### The invariant -/

section

variable {κ : Type} {mixedHash : κ → UInt64} {t : Table κ}

/-- The keys of a table in order of insertion. -/
abbrev Table.keys (t : Table κ) : List κ := t.values.map Prod.fst

/-- The buckets of a table belong to its entries. -/
structure Indexed (mixedHash : κ → UInt64) (t : Table κ) : Prop where
  geometry : Geometry t.shifts t.buckets.length
  indexes : Indexes mixedHash t.shifts t.keys t.values.length t.buckets
  capacity : t.maxBucketCapacity = capacityFor t.buckets.length
  size_le : t.values.length ≤ t.maxBucketCapacity

/-- A table that has buckets or never had any. -/
structure Sound (mixedHash : κ → UInt64) (t : Table κ) : Prop where
  nodup : t.keys.Nodup
  buckets : t = Table.empty ∨ Indexed mixedHash t

theorem Sound.empty : Sound mixedHash (Table.empty : Table κ) where
  nodup := List.nodup_nil
  buckets := Or.inl rfl

theorem indexes_cleared (shifts n : ℕ) (keys : List κ) :
    Indexes mixedHash shifts keys 0 (List.replicate n Bucket.empty) := by
  have hweight : weight (List.replicate n Bucket.empty) = fun _ => 0 := by
    funext p
    unfold weight
    split
    · rename_i hget
      rw [List.getElem?_replicate] at hget
      split at hget
      · cases hget
        rfl
      · cases hget
    · rfl
  have hheld : ∀ p b, ¬ Held (List.replicate n Bucket.empty) p b := by
    intro p b hb
    exact hb.weight_ne (congrFun hweight p)
  constructor
  case toFiled =>
      constructor
      case ordered =>
          rw [hweight]
          exact ordered_zero _ _
      case refers => exact fun p b hb => absurd hb (hheld p b)
      case unique => exact fun p _ b _ hb => absurd hb (hheld p b)
  case present => exact fun i hi => absurd hi (Nat.not_lt_zero i)

/-! ### Filling the buckets -/

theorem roomy_of_indexes {shifts m : ℕ} {keys : List κ} {buckets : List Bucket}
    (hindex : Indexes mixedHash shifts keys m buckets) (hgeometry : Geometry shifts buckets.length)
    (hm : m < buckets.length) (hmax : m + 2 ≤ 2 ^ 24) : Roomy mixedHash shifts keys m buckets where
  toIndexes := hindex
  geometry := hgeometry
  lt_length := hm
  lt_max := hmax

/-- An index of the first keys does not depend on the keys after them. -/
theorem Indexes.append {shifts m : ℕ} {keys : List κ} {buckets : List Bucket}
    (h : Indexes mixedHash shifts keys m buckets) (more : List κ) :
    Indexes mixedHash shifts (keys ++ more) m buckets where
  ordered := h.ordered
  refers := by
    intro p b hb
    obtain ⟨hidx, key, hkey, hhome⟩ := h.refers p b hb
    refine ⟨hidx, key, ?_, hhome⟩
    rw [List.getElem?_append_left (List.getElem?_eq_some_iff.mp hkey).1]
    exact hkey
  unique := h.unique
  present := h.present

/-- Placing a bucket for the next key extends the index. -/
theorem place_spec {shifts m : ℕ} {keys : List κ} {buckets : List Bucket} {key : κ} {p x : ℕ}
    (h : Roomy mixedHash shifts keys m buckets) (hkey : keys[m]? = some key)
    (hvacant : Vacant mixedHash shifts buckets key p x) :
    ∃ buckets', placeAndShiftUp buckets.length buckets { distAndFingerprint := x, valueIdx := m } p =
        .ok buckets' ∧
      buckets'.length = buckets.length ∧ Indexes mixedHash shifts keys (m + 1) buckets' := by
  apply placeAndShiftUp_spec h.geometry h.lt_length h.lt_max (hvacant.pending h.toIndexes hkey)
  exact exists_walk_empty hvacant.lt h.exists_empty

theorem fillBucket_spec {shifts m : ℕ} {values : List (κ × ℕ)} {buckets : List Bucket}
    (h : Roomy mixedHash shifts (values.map Prod.fst) m buckets) (hm : m < values.length) :
    ∃ buckets', fillBucket mixedHash shifts values buckets m = .ok buckets' ∧
      buckets'.length = buckets.length ∧
      Indexes mixedHash shifts (values.map Prod.fst) (m + 1) buckets' := by
  have hget := List.getElem?_eq_getElem hm
  obtain ⟨p, x, hsearch, hvacant⟩ := h.nextWhileLess_spec values[m].1
  unfold fillBucket
  simp only [valueAt, hget, hsearch, bind, Except.bind]
  apply place_spec h _ hvacant
  rw [List.getElem?_map, hget]
  rfl

variable (mixedHash) in
/-- The buckets are filled from the values, whatever was in them. -/
theorem clearAndFill_spec (hgeometry : Geometry t.shifts t.buckets.length)
    (hroom : t.values.length < t.buckets.length) (hmax : t.values.length + 1 ≤ 2 ^ 24) :
    ∃ buckets, clearAndFillBucketsFromValues mixedHash t = .ok { t with buckets := buckets } ∧
      buckets.length = t.buckets.length ∧
      Indexes mixedHash t.shifts t.keys t.values.length buckets := by
  -- By induction on the number of values that have their bucket.
  have hfill : ∀ k ≤ t.values.length, ∃ buckets,
      (List.range k).foldlM (fillBucket mixedHash t.shifts t.values)
          (List.replicate t.buckets.length Bucket.empty) = .ok buckets ∧
        buckets.length = t.buckets.length ∧ Indexes mixedHash t.shifts t.keys k buckets := by
    intro k hk
    induction k with
    | zero => exact ⟨_, rfl, List.length_replicate, indexes_cleared _ _ _⟩
    | succ k ih =>
        obtain ⟨buckets, hrun, hlength, hindex⟩ := ih (Nat.le_of_succ_le hk)
        have hroomy : Roomy mixedHash t.shifts t.keys k buckets := by
          rw [← hlength] at hgeometry hroom
          exact roomy_of_indexes hindex hgeometry (by omega) (by omega)
        obtain ⟨buckets', hstep, hlength', hindex'⟩ := fillBucket_spec hroomy hk
        refine ⟨buckets', ?_, hlength'.trans hlength, hindex'⟩
        rw [List.range_succ, List.foldlM_append, hrun]
        simp only [bind, Except.bind, List.foldlM_cons, List.foldlM_nil, hstep, pure, Except.pure]
  obtain ⟨buckets, hrun, hlength, hindex⟩ := hfill t.values.length (Nat.le_refl _)
  refine ⟨buckets, ?_, hlength, hindex⟩
  unfold clearAndFillBucketsFromValues
  simp only [Nat.mod_eq_of_lt (show t.values.length < 2 ^ 32 by omega), hrun]
  rfl

variable (mixedHash t) in
/-- New buckets for the same values. -/
theorem allocateAndFill_spec {shifts : ℕ} (hpos : 0 < shifts) (hle : shifts ≤ initialShifts)
    (hroom : t.values.length ≤ loadLimit (calcNumBuckets shifts))
    (hmax : t.values.length + 1 ≤ 2 ^ 24) :
    ∃ t', (do
        let t ← allocateBucketsFromShift { t with shifts := shifts }
        clearAndFillBucketsFromValues mixedHash t) = .ok t' ∧
      t'.values = t.values ∧ Indexed mixedHash t' ∧
      t'.maxBucketCapacity = capacityFor (calcNumBuckets shifts) := by
  have hgeometry : Geometry shifts (List.replicate (calcNumBuckets shifts) Bucket.empty).length := by
    rw [List.length_replicate]
    exact ⟨hpos, hle, rfl⟩
  have height := hgeometry.eight_le
  rw [List.length_replicate] at height
  have hlt := loadLimit_lt (n := calcNumBuckets shifts) (by omega)
  obtain ⟨buckets, hfill, hlength, hindex⟩ := clearAndFill_spec mixedHash
    (t := { t with
      shifts := shifts
      buckets := List.replicate (calcNumBuckets shifts) Bucket.empty
      maxBucketCapacity := capacityFor (calcNumBuckets shifts) })
    hgeometry (by rw [List.length_replicate]; exact hroom.trans_lt hlt) hmax
  rw [List.length_replicate] at hlength
  refine ⟨{ t with
    shifts := shifts
    buckets := buckets
    maxBucketCapacity := capacityFor (calcNumBuckets shifts) }, ?_, rfl, ?_, rfl⟩
  · unfold allocateBucketsFromShift
    rw [if_neg hpos.ne']
    exact hfill
  · constructor
    case geometry =>
        rw [hlength]
        exact ⟨hpos, hle, rfl⟩
    case indexes => exact hindex
    case capacity =>
        rw [hlength]
    case size_le =>
        exact hroom.trans (loadLimit_le_capacityFor (min_le_left _ _))

/-! ### Growing -/

/-- An indexed table always has an empty bucket. -/
theorem Indexed.size_lt (h : Indexed mixedHash t) (hmax : t.values.length + 2 ≤ 2 ^ 24) :
    t.values.length < t.buckets.length := by
  have hsize := h.size_le
  have height := h.geometry.eight_le
  rw [h.capacity] at hsize
  rcases Nat.lt_or_eq_of_le h.geometry.le_two_pow with hlt | heq
  · rw [capacityFor_of_lt hlt] at hsize
    exact hsize.trans_lt (loadLimit_lt (by omega))
  · omega

theorem Indexed.roomy (h : Indexed mixedHash t) (hmax : t.values.length + 2 ≤ 2 ^ 24) :
    Roomy mixedHash t.shifts t.keys t.values.length t.buckets :=
  roomy_of_indexes h.indexes h.geometry (h.size_lt hmax) hmax

/-- A full table grows to one with room for another entry. -/
theorem increaseSize_spec (h : Sound mixedHash t) (hfull : t.maxBucketCapacity ≤ t.values.length)
    (hmax : t.values.length + 2 ≤ 2 ^ 24) :
    ∃ t', increaseSize mixedHash t = .ok t' ∧ t'.values = t.values ∧ Indexed mixedHash t' ∧
      t'.values.length < t'.maxBucketCapacity := by
  have hnotMax : t.maxBucketCapacity ≠ maxBucketCount := by
    unfold maxBucketCount
    omega
  -- The load limit of the next ring exceeds the number of values.
  have hnext : 0 < t.shifts - 1 ∧ t.shifts - 1 ≤ initialShifts ∧
      t.values.length < loadLimit (calcNumBuckets (t.shifts - 1)) := by
    rcases h.buckets with rfl | hindexed
    · have hshifts : (Table.empty : Table κ).shifts - 1 = 60 := rfl
      rw [hshifts]
      exact ⟨by decide, by decide, loadLimit_pos (n := calcNumBuckets 60) (by decide)⟩
    · have hgeometry := hindexed.geometry
      have hsmall : calcNumBuckets t.shifts < maxBucketCount := by
        apply lt_of_le_of_ne (min_le_left _ _)
        intro heq
        apply hnotMax
        rw [hindexed.capacity, hgeometry.eq]
        exact if_pos heq
      have hshifts : t.shifts ≤ 64 - 3 := hgeometry.le
      obtain ⟨hlt, hdouble⟩ := calcNumBuckets_pred hsmall (by omega)
      refine ⟨by omega, (Nat.sub_le _ _).trans hgeometry.le, ?_⟩
      have hsize := hindexed.size_le
      rw [hindexed.capacity, hgeometry.eq, capacityFor_of_lt hsmall] at hsize
      have hpos := loadLimit_pos hgeometry.eight_le
      have hgrow := loadLimit_le_two_mul (calcNumBuckets t.shifts)
      rw [hgeometry.eq] at hpos
      rw [hdouble]
      omega
  obtain ⟨hpos, hle, hroom⟩ := hnext
  obtain ⟨t', hrun, hvalues, hindexed, hcapacity⟩ := allocateAndFill_spec mixedHash t
    hpos hle hroom.le (by omega)
  refine ⟨t', ?_, hvalues, hindexed, ?_⟩
  · unfold increaseSize
    rw [if_neg hnotMax]
    exact hrun
  · rw [hvalues, hcapacity]
    exact hroom.trans_le (loadLimit_le_capacityFor (min_le_left _ _))

/-! ### Inserting -/

theorem Sound.of_indexed (hnodup : t.keys.Nodup) (h : Indexed mixedHash t) : Sound mixedHash t where
  nodup := hnodup
  buckets := Or.inr h

/-- After the check there is room for another entry. -/
theorem growIfFull_spec (h : Sound mixedHash t) (hmax : t.values.length + 2 ≤ 2 ^ 24) :
    ∃ t', growIfFull mixedHash t = .ok t' ∧ t'.values = t.values ∧ Indexed mixedHash t' ∧
      t'.values.length < t'.maxBucketCapacity := by
  unfold growIfFull isFull
  by_cases hfull : t.maxBucketCapacity ≤ t.values.length
  · rw [if_pos (decide_eq_true hfull)]
    exact increaseSize_spec h hfull hmax
  · rw [if_neg (by simpa using hfull)]
    rcases h.buckets with rfl | hindexed
    · exact absurd (Nat.le_refl 0) hfull
    · exact ⟨t, rfl, rfl, hindexed, Nat.lt_of_not_le hfull⟩

theorem notMem_keys {key : κ} (h : ∀ i < t.values.length, t.keys[i]? ≠ some key) : key ∉ t.keys := by
  intro hmem
  obtain ⟨i, hi, hget⟩ := List.mem_iff_getElem.mp hmem
  rw [List.length_map] at hi
  exact h i hi (hget ▸ List.getElem?_eq_getElem _)

/-- The index does not depend on the counts. -/
theorem Sound.addTo (h : Sound mixedHash t) (i n : ℕ) : Sound mixedHash (addTo t i n) := by
  have hkeys : (UnorderedDense.addTo t i n).keys = t.keys := by
    change (t.values.modify i _).map Prod.fst = t.values.map Prod.fst
    apply List.ext_getElem?
    intro j
    rw [List.getElem?_map, List.getElem?_map, List.getElem?_modify]
    cases t.values[j]? with
    | none => rfl
    | some e =>
        by_cases hij : i = j
        · simp [hij]
        · simp [hij]
  have hlength : (UnorderedDense.addTo t i n).values.length = t.values.length :=
    List.length_modify _ _ _
  rcases h.buckets with rfl | hindexed
  · have hsame : UnorderedDense.addTo (Table.empty : Table κ) i n = Table.empty := by
      rw [UnorderedDense.addTo]
      congr 1
      exact List.modify_nil _ _
    rw [hsame]
    exact Sound.empty
  · refine ⟨by rw [hkeys]; exact h.nodup, Or.inr ?_⟩
    constructor
    case geometry => exact hindexed.geometry
    case indexes =>
        rw [hkeys, hlength]
        exact hindexed.indexes
    case capacity => exact hindexed.capacity
    case size_le =>
        rw [hlength]
        exact hindexed.size_le

/-- The largest number of entries that a ring can be reserved for. -/
def maxReserve : ℕ := loadLimit maxBucketCount

/-- Reserving keeps the entries. -/
theorem reserve_spec (h : Sound mixedHash t) (hmax : t.values.length + 2 ≤ 2 ^ 24) {capa : ℕ}
    (hcapa : capa ≤ maxReserve) :
    ∃ t', reserve mixedHash t capa = .ok t' ∧ Sound mixedHash t' ∧ t'.values = t.values := by
  have hlimit : max (min capa maxBucketCount) t.values.length ≤ loadLimit maxBucketCount := by
    have hsize : 2 ^ 24 ≤ loadLimit maxBucketCount := by decide
    exact max_le ((min_le_left _ _).trans hcapa) (by omega)
  obtain ⟨hpos, hle, hroom⟩ := calcShiftsForSizeFrom_spec hlimit initialShifts (by decide)
  obtain ⟨t', hrun, hvalues, hindexed, -⟩ := allocateAndFill_spec mixedHash t
    (show 0 < calcShiftsForSizeFrom _ initialShifts by omega) hle
    ((le_max_right _ _).trans hroom) (by omega)
  unfold reserve
  simp only
  split
  · refine ⟨t', hrun, Sound.of_indexed ?_ hindexed, hvalues⟩
    rw [Table.keys, hvalues]
    exact h.nodup
  · exact ⟨t, rfl, h, rfl⟩

variable [DecidableEq κ]

/-- `try_emplace` finds the key or appends it. -/
theorem doTryEmplace_spec (h : Sound mixedHash t) (hmax : t.values.length + 2 ≤ 2 ^ 24) (key : κ)
    (value : ℕ) :
    ∃ t' i emplaced, doTryEmplace mixedHash t key value = .ok (t', i, emplaced) ∧
      Sound mixedHash t' ∧
      if emplaced then key ∉ t.keys ∧ i = t.values.length ∧ t'.values = t.values ++ [(key, value)]
      else t'.values = t.values ∧ t.keys[i]? = some key := by
  obtain ⟨t₁, hgrow, hvalues, hindexed, hroom⟩ := growIfFull_spec h hmax
  have hroomy := hindexed.roomy (by rw [hvalues]; exact hmax)
  have hkeys : t₁.keys = t.keys := congrArg (List.map Prod.fst) hvalues
  obtain ⟨outcome, hprobe, houtcome⟩ := hroomy.probe_spec key
  unfold doTryEmplace
  simp only [hgrow, hprobe, bind, Except.bind]
  cases outcome with
  | found i =>
      refine ⟨t₁, i, false, rfl, Sound.of_indexed (hkeys ▸ h.nodup) hindexed, hvalues, ?_⟩
      rw [← hkeys]
      exact houtcome.2
  | vacant x p =>
      obtain ⟨hvacant, habsent⟩ := houtcome
      have hfresh : key ∉ t.keys := by
        rw [← hkeys]
        exact notMem_keys habsent
      have hkeys' : (t₁.values ++ [(key, value)]).map Prod.fst = t₁.keys ++ [key] := List.map_append
      have hroomy' : Roomy mixedHash t₁.shifts (t₁.keys ++ [key]) t₁.values.length t₁.buckets :=
        roomy_of_indexes (hroomy.toIndexes.append [key]) hroomy.geometry hroomy.lt_length hroomy.lt_max
      have hlast : (t₁.keys ++ [key])[t₁.values.length]? = some key := by
        have hlength : t₁.keys.length = t₁.values.length := List.length_map _
        rw [← hlength, List.getElem?_concat_length]
      obtain ⟨buckets, hplace, hlength, hindex⟩ := place_spec hroomy' hlast hvacant
      have hvalueIdx : ((t₁.values ++ [(key, value)]).length - 1) % 2 ^ 32 = t₁.values.length := by
        have hlt := hroomy.lt_max
        rw [List.length_append, List.length_singleton, Nat.add_sub_cancel]
        exact Nat.mod_eq_of_lt (by omega)
      refine ⟨{ t₁ with values := t₁.values ++ [(key, value)], buckets := buckets },
        t₁.values.length, true, ?_, ?_, hfresh, congrArg List.length hvalues, by rw [hvalues]⟩
      · unfold doPlaceElement
        simp only [hvalueIdx, hplace, bind, Except.bind]
        rfl
      · constructor
        case nodup =>
            change ((t₁.values ++ [(key, value)]).map Prod.fst).Nodup
            rw [hkeys', hkeys, List.nodup_append]
            refine ⟨h.nodup, List.nodup_singleton key, ?_⟩
            intro a ha b hb heq
            rw [List.mem_singleton.mp hb] at heq
            exact hfresh (heq ▸ ha)
        case buckets =>
            apply Or.inr
            constructor
            case geometry =>
                rw [hlength]
                exact hindexed.geometry
            case indexes =>
                change Indexes mixedHash t₁.shifts ((t₁.values ++ [(key, value)]).map Prod.fst) _ _
                rw [hkeys', List.length_append]
                exact hindex
            case capacity =>
                rw [hlength]
                exact hindexed.capacity
            case size_le =>
                rw [List.length_append]
                exact hroom

/-- An entry that was found is the entry that `put` updates. -/
theorem values_addTo_of_found {i : ℕ} {key : κ} (hnodup : t.keys.Nodup) (hkey : t.keys[i]? = some key)
    (n : ℕ) : (addTo t i n).values = put t.values key n := by
  obtain ⟨e, hentry, rfl⟩ := Option.map_eq_some_iff.mp (List.getElem?_map.symm.trans hkey)
  exact (put_of_getElem? hnodup hentry n).symm

/-- The insertion of `count_word` is `put` with one. -/
theorem emplaceOrIncrement_spec (h : Sound mixedHash t) (hmax : t.values.length + 2 ≤ 2 ^ 24)
    (key : κ) :
    ∃ t', emplaceOrIncrement mixedHash t key = .ok t' ∧ Sound mixedHash t' ∧
      t'.values = put t.values key 1 := by
  obtain ⟨t₁, i, emplaced, hrun, hsound, houtcome⟩ := doTryEmplace_spec h hmax key 1
  unfold emplaceOrIncrement
  simp only [hrun, bind, Except.bind]
  cases emplaced with
  | true =>
      obtain ⟨hfresh, -, hvalues⟩ := houtcome
      refine ⟨t₁, rfl, hsound, ?_⟩
      rw [hvalues, put_of_notMem hfresh]
  | false =>
      obtain ⟨hvalues, hkey⟩ := houtcome
      have hkeys : t₁.keys = t.keys := congrArg (List.map Prod.fst) hvalues
      refine ⟨addTo t₁ i 1, rfl, hsound.addTo i 1, ?_⟩
      rw [values_addTo_of_found hsound.nodup (hkeys ▸ hkey), hvalues]

/-- `result[key] += value` is `put`. -/
theorem subscriptAdd_spec (h : Sound mixedHash t) (hmax : t.values.length + 2 ≤ 2 ^ 24) (key : κ)
    (value : ℕ) :
    ∃ t', subscriptAdd mixedHash t key value = .ok t' ∧ Sound mixedHash t' ∧
      t'.values = put t.values key value := by
  obtain ⟨t₁, i, emplaced, hrun, hsound, houtcome⟩ := doTryEmplace_spec h hmax key 0
  unfold subscriptAdd
  simp only [hrun, bind, Except.bind]
  refine ⟨addTo t₁ i value, rfl, hsound.addTo i value, ?_⟩
  cases emplaced with
  | true =>
      -- The new entry starts at zero and stands at the end.
      obtain ⟨hfresh, rfl, hvalues⟩ := houtcome
      have hkey : t₁.keys[t.values.length]? = some key := by
        rw [Table.keys, hvalues, List.getElem?_map, List.getElem?_concat_length]
        rfl
      rw [values_addTo_of_found hsound.nodup hkey, hvalues, ← put_of_notMem hfresh, put_put,
        Nat.zero_add]
  | false =>
      obtain ⟨hvalues, hkey⟩ := houtcome
      have hkeys : t₁.keys = t.keys := congrArg (List.map Prod.fst) hvalues
      rw [values_addTo_of_found hsound.nodup (hkeys ▸ hkey), hvalues]

/-! ### Finding -/

/-- The loop of `do_find` is the search of `do_try_emplace`. -/
theorem findFrom_eq (values : List (κ × ℕ)) (buckets : List Bucket) (key : κ) (fuel x p : ℕ) :
    findFrom values buckets key fuel x p = (probe values buckets key fuel x p).map fun
      | .found i => some i
      | .vacant _ _ => none := by
  induction fuel generalizing x p with
  | zero => rfl
  | succ fuel ih =>
      unfold findFrom probe
      cases hbucket : bucketAt buckets p with
      | error fault => rfl
      | ok bucket =>
          simp only [bind, Except.bind, ih]
          split
          · cases hentry : valueAt values bucket.valueIdx with
            | error fault => rfl
            | ok entry =>
                simp only
                split <;> rfl
          · split <;> rfl

variable {values : List (κ × ℕ)} {key : κ} {j m shifts : ℕ} {buckets : List Bucket}

/-- A single check finds the key, or the bucket does not belong to it. -/
theorem findHere_spec (h : Roomy mixedHash shifts (values.map Prod.fst) m buckets) (key : κ)
    (hj : j < buckets.length) :
    ∃ r, findHere values buckets key (searchWord (mixedHash key) j)
        (searchPlace shifts buckets.length (mixedHash key) j) = .ok r ∧
      match r with
      | some i => (values.map Prod.fst)[i]? = some key
      | none => ∀ b, Held buckets (searchPlace shifts buckets.length (mixedHash key) j) b →
          (values.map Prod.fst)[b.valueIdx]? ≠ some key := by
  obtain ⟨bucket, hget⟩ := exists_bucket (searchPlace_lt h.geometry (mixedHash key) j)
  have hweight := weight_eq hget
  unfold findHere
  simp only [bucketAt, hget, bind, Except.bind]
  split
  · rename_i hequal
    have hheld : Held buckets (searchPlace shifts buckets.length (mixedHash key) j) bucket :=
      ⟨hget, hequal ▸ searchWord_ne_zero _ j⟩
    obtain ⟨-, key', hkey', -⟩ := h.refers _ bucket hheld
    obtain ⟨entry, hentry, rfl⟩ := Option.map_eq_some_iff.mp (List.getElem?_map.symm.trans hkey')
    simp only [valueAt, hentry]
    split
    · rename_i hsame
      subst hsame
      exact ⟨_, rfl, hkey'⟩
    · rename_i hother
      refine ⟨_, rfl, ?_⟩
      intro b hb
      rw [hb.eq hheld, hkey']
      exact fun heq => hother (Option.some_inj.mp heq).symm
  · rename_i hdiffer
    refine ⟨_, rfl, ?_⟩
    intro b hb
    exact h.not_of_weight_ne hj (by rwa [hweight]) hb

/-- The loop may start at any bucket of the search before which the key is not. -/
theorem findFrom_spec (h : Roomy mixedHash shifts (values.map Prod.fst) m buckets)
    (hmissed : Missed mixedHash shifts (values.map Prod.fst) buckets key j) :
    ∃ r, findFrom values buckets key buckets.length (searchWord (mixedHash key) j)
        (searchPlace shifts buckets.length (mixedHash key) j) = .ok r ∧
      match r with
      | some i => (values.map Prod.fst)[i]? = some key
      | none => ∀ i < m, (values.map Prod.fst)[i]? ≠ some key := by
  by_cases hpassed : Passed mixedHash shifts buckets key j
  · obtain ⟨outcome, hprobe, houtcome⟩ := h.probeFrom_spec hpassed hmissed
      (Nat.lt_add_left j h.lt_length)
    rw [findFrom_eq, hprobe]
    cases outcome with
    | found i => exact ⟨some i, rfl, houtcome.2⟩
    | vacant x p => exact ⟨none, rfl, houtcome.2⟩
  · -- An earlier bucket was lighter than the search, so this one is too, and the loop ends at once.
    unfold Passed at hpassed
    push Not at hpassed
    obtain ⟨i, hij, hlighter⟩ := hpassed
    have hlighter' : weight buckets (searchPlace shifts buckets.length (mixedHash key) j) <
        searchWord (mixedHash key) j := by
      by_contra hreach
      have hle := searchWord_le_of_le h.geometry h.ordered hij.le (Nat.le_of_not_lt hreach)
      exact absurd hle (Nat.not_le.mpr hlighter)
    obtain ⟨bucket, hget⟩ := exists_bucket (searchPlace_lt h.geometry (mixedHash key) j)
    refine ⟨none, ?_, h.absent hmissed hlighter'⟩
    rw [weight_eq hget] at hlighter'
    obtain ⟨fuel, hfuel⟩ := Nat.exists_eq_add_of_lt h.lt_length
    rw [hfuel]
    unfold findFrom
    rw [← hfuel]
    simp only [bucketAt, hget, bind, Except.bind]
    rw [if_neg hlighter'.ne', if_pos hlighter']
    rfl

/-- An index of the key, or its absence, is what `idxOf?` returns. -/
theorem eq_idxOf? {keys : List κ} (hnodup : keys.Nodup) {r : Option ℕ}
    (h : match r with
      | some i => keys[i]? = some key
      | none => key ∉ keys) : r = keys.idxOf? key := by
  cases r with
  | none => exact (List.idxOf?_eq_none_iff.mpr h).symm
  | some i =>
      obtain ⟨hi, hget⟩ := List.getElem?_eq_some_iff.mp h
      symm
      rw [List.idxOf?_eq_some_iff]
      refine ⟨hi, hget, ?_⟩
      intro j hj hsame
      have hinj := (List.Nodup.getElem_inj_iff hnodup).mp (hsame.trans hget.symm)
      exact absurd hinj hj.ne

/-- `find` returns the index of the key, from one of the two checks or from the loop. -/
theorem doFind_spec (h : Sound mixedHash t) (hmax : t.values.length + 2 ≤ 2 ^ 24) (key : κ) :
    doFind mixedHash t key = .ok (t.keys.idxOf? key) := by
  unfold doFind
  by_cases hempty : t.values = []
  · rw [if_pos hempty, Table.keys, hempty]
    rfl
  rw [if_neg hempty]
  have hindexed : Indexed mixedHash t := by
    rcases h.buckets with rfl | hindexed
    · exact absurd rfl hempty
    · exact hindexed
  have hroomy := hindexed.roomy hmax
  have height := hroomy.geometry.eight_le
  have hword₁ := distInc_searchWord (mixedHash key) (j := 0) (by decide)
  have hword₂ := distInc_searchWord (mixedHash key) (j := 1) (by decide)
  have hplace₁ := next_searchPlace hroomy.geometry (mixedHash key) 0
  have hplace₂ := next_searchPlace hroomy.geometry (mixedHash key) 1
  obtain ⟨r₀, hhere₀, hr₀⟩ := findHere_spec hroomy key (j := 0) (by omega)
  obtain ⟨r₁, hhere₁, hr₁⟩ := findHere_spec hroomy key (j := 1) (by omega)
  rw [searchWord_zero] at hhere₀ hword₁
  change findHere _ _ _ _ (bucketIdxFromHash t.shifts (mixedHash key)) = _ at hhere₀
  change next _ (bucketIdxFromHash t.shifts (mixedHash key)) = _ at hplace₁
  simp only [hhere₀, bind, Except.bind, hword₁, hplace₁, hword₂, hplace₂]
  cases r₀ with
  | some i => exact congrArg Except.ok (eq_idxOf? h.nodup hr₀)
  | none =>
      simp only [hhere₁]
      cases r₁ with
      | some i => exact congrArg Except.ok (eq_idxOf? h.nodup hr₁)
      | none =>
          have hmissed := (Missed.zero.succ hr₀).succ hr₁
          obtain ⟨r, hfind, hr⟩ := findFrom_spec hroomy hmissed
          rw [hfind]
          apply congrArg Except.ok
          apply eq_idxOf? h.nodup
          cases r with
          | some i => exact hr
          | none => exact notMem_keys hr

end

end UnorderedDense

end FreqUtility
