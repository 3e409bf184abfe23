/-
Module: FreqUtility.Core.UnorderedDense
Layer: Core
Purpose: The hash map behind `FreqMap`: a dense vector of entries in order of insertion, and a ring of
  buckets that point into it, kept by Robin Hood hashing with backward shifts. A bucket packs the
  distance to its home and a fingerprint of the hash into one 32-bit word; zero is the empty bucket.
  Words are natural numbers with an explicit remainder where the source may wrap. An index that is not
  in its vector is the fault `badIndex`; a loop that has looked at every bucket and goes on is the fault
  `endless`, so that a loop that ends within one round of the ring is the source's loop.
Imports: Mathlib.Tactic
Trusted boundary: multiplying a power of two up to 2^32 by the float 0.8F is exact; fresh bucket memory is
  modelled as cleared, which the source does before it reads it
Main exports: Bucket, Table, nextWhileLess, placeAndShiftUp, clearAndFillBucketsFromValues,
  increaseSize, doTryEmplace, addTo, emplaceOrIncrement, reserve, doFind
Open obligations: none
-/
import Mathlib.Tactic

namespace FreqUtility

namespace UnorderedDense

/-- What the table throws, and what it must never run into. -/
inductive TableFault where
  /-- `on_error_bucket_overflow`. -/
  | bucketOverflow
  /-- An index outside of its vector. -/
  | badIndex
  /-- A loop that has looked at every bucket and goes on. -/
  | endless
  /-- `1 << 64`, which is not defined. -/
  | badShift
deriving DecidableEq, Repr

/-- [SRC unordered_dense.h:372-378] -/
structure Bucket where
  distAndFingerprint : ℕ
  valueIdx : ℕ
deriving DecidableEq, Repr

/-- The empty bucket. -/
def Bucket.empty : Bucket where
  distAndFingerprint := 0
  valueIdx := 0

/-- The members of a table. `m_num_buckets` is the length of `buckets`. [SRC unordered_dense.h:494-501] -/
structure Table (κ : Type) where
  values : List (κ × ℕ)
  buckets : List Bucket
  maxBucketCapacity : ℕ
  shifts : ℕ

/-- `initial_shifts`. [SRC unordered_dense.h:468] -/
def initialShifts : ℕ := 64 - 3

/-- A table without buckets. [SRC unordered_dense.h:820-830] -/
def Table.empty {κ : Type} : Table κ where
  values := []
  buckets := []
  maxBucketCapacity := 0
  shifts := initialShifts

/-! ### Buckets -/

/-- `Bucket::dist_inc`: the unit of the distance, above one byte of fingerprint. -/
def distUnit : ℕ := 2 ^ 8

/-- `dist_inc`, on a 32-bit word. [SRC unordered_dense.h:516-518] -/
def distInc (x : ℕ) : ℕ := (x + distUnit) % 2 ^ 32

/-- [SRC unordered_dense.h:503-507] -/
def next (numBuckets bucketIdx : ℕ) : ℕ :=
  if (bucketIdx + 1) % 2 ^ 32 = numBuckets then 0 else (bucketIdx + 1) % 2 ^ 32

/-- [SRC unordered_dense.h:542-544] -/
def distAndFingerprintFromHash (hash : UInt64) : ℕ :=
  distUnit ||| (hash.toNat % 2 ^ 32 &&& (distUnit - 1))

/-- [SRC unordered_dense.h:546-548] -/
def bucketIdxFromHash (shifts : ℕ) (hash : UInt64) : ℕ :=
  (hash.toNat >>> shifts) % 2 ^ 32

/-- `max_bucket_count()`. -/
def maxBucketCount : ℕ := 2 ^ 32

/-- [SRC unordered_dense.h:580-582] -/
def calcNumBuckets (shifts : ℕ) : ℕ :=
  min maxBucketCount (1 <<< (64 - shifts))

/-- `static_cast<float>(num_buckets) * max_load_factor()`, rounded down. The default load factor `0.8F`
    is `13421773 / 2^24`. -/
def loadLimit (numBuckets : ℕ) : ℕ := numBuckets * 13421773 / 2 ^ 24

/-- The loop counts `shifts` down until the load limit suffices. [SRC unordered_dense.h:584-590] -/
def calcShiftsForSizeFrom (s : ℕ) : ℕ → ℕ
  | 0 => 0
  | shifts + 1 =>
      if loadLimit (calcNumBuckets (shifts + 1)) < s then calcShiftsForSizeFrom s shifts
      else shifts + 1

def calcShiftsForSize (s : ℕ) : ℕ := calcShiftsForSizeFrom s initialShifts

/-- `m_max_bucket_capacity` of freshly allocated buckets. [SRC unordered_dense.h:618-628] -/
def capacityFor (numBuckets : ℕ) : ℕ :=
  if numBuckets = maxBucketCount then maxBucketCount else loadLimit numBuckets % 2 ^ 32

/-- `at(m_buckets, i)`. -/
def bucketAt (buckets : List Bucket) (i : ℕ) : Except TableFault Bucket :=
  match buckets[i]? with
  | some bucket => .ok bucket
  | none => .error .badIndex

/-- `m_values[i]`. -/
def valueAt {α : Type} (values : List α) (i : ℕ) : Except TableFault α :=
  match values[i]? with
  | some value => .ok value
  | none => .error .badIndex

/-- Exchange the carried bucket with the occupied ones until an empty one takes it.
    [SRC unordered_dense.h:571-578] -/
def placeAndShiftUp : ℕ → List Bucket → Bucket → ℕ → Except TableFault (List Bucket)
  | 0, _, _, _ => .error .endless
  | fuel + 1, buckets, bucket, place => do
      let occupant ← bucketAt buckets place
      if occupant.distAndFingerprint ≠ 0 then
        placeAndShiftUp fuel (buckets.set place bucket)
          { occupant with distAndFingerprint := distInc occupant.distAndFingerprint }
          (next buckets.length place)
      else
        return buckets.set place bucket

/-- The loop of `next_while_less`. -/
def nextWhileLessFrom (buckets : List Bucket) : ℕ → ℕ → ℕ → Except TableFault Bucket
  | 0, _, _ => .error .endless
  | fuel + 1, distAndFingerprint, bucketIdx => do
      let bucket ← bucketAt buckets bucketIdx
      if distAndFingerprint < bucket.distAndFingerprint then
        nextWhileLessFrom buckets fuel (distInc distAndFingerprint) (next buckets.length bucketIdx)
      else
        return { distAndFingerprint := distAndFingerprint, valueIdx := bucketIdx }

section Hashing

variable {κ : Type} [DecidableEq κ] (mixedHash : κ → UInt64)

/-- The bucket index comes back as the value index of a bucket. [SRC unordered_dense.h:559-569] -/
def nextWhileLess (shifts : ℕ) (buckets : List Bucket) (key : κ) : Except TableFault Bucket :=
  let hash := mixedHash key
  nextWhileLessFrom buckets buckets.length (distAndFingerprintFromHash hash)
    (bucketIdxFromHash shifts hash)

/-- One iteration of `clear_and_fill_buckets_from_values`. [SRC unordered_dense.h:640-645] -/
def fillBucket (shifts : ℕ) (values : List (κ × ℕ)) (buckets : List Bucket) (valueIdx : ℕ) :
    Except TableFault (List Bucket) := do
  let entry ← valueAt values valueIdx
  let found ← nextWhileLess mixedHash shifts buckets entry.1
  placeAndShiftUp buckets.length buckets
    { distAndFingerprint := found.distAndFingerprint, valueIdx := valueIdx } found.valueIdx

/-- [SRC unordered_dense.h:636-646] -/
def clearAndFillBucketsFromValues (t : Table κ) : Except TableFault (Table κ) := do
  let cleared := List.replicate t.buckets.length Bucket.empty
  let buckets ← (List.range (t.values.length % 2 ^ 32)).foldlM
    (fillBucket mixedHash t.shifts t.values) cleared
  return { t with buckets := buckets }

/-- [SRC unordered_dense.h:618-628] -/
def allocateBucketsFromShift (t : Table κ) : Except TableFault (Table κ) :=
  if t.shifts = 0 then
    throw .badShift
  else
    return { t with
      buckets := List.replicate (calcNumBuckets t.shifts) Bucket.empty
      maxBucketCapacity := capacityFor (calcNumBuckets t.shifts) }

/-- [SRC unordered_dense.h:648-656] -/
def increaseSize (t : Table κ) : Except TableFault (Table κ) := do
  if t.maxBucketCapacity = maxBucketCount then
    throw .bucketOverflow
  else
    let t ← allocateBucketsFromShift { t with shifts := t.shifts - 1 }
    clearAndFillBucketsFromValues mixedHash t

/-- Where the search of `do_try_emplace` ends: at the entry of the key, or at the bucket that a new entry
    takes. -/
inductive Probe where
  | found (valueIdx : ℕ)
  | vacant (distAndFingerprint bucketIdx : ℕ)
deriving DecidableEq, Repr

/-- The loop of `do_try_emplace`. [SRC unordered_dense.h:744-756] -/
def probe (values : List (κ × ℕ)) (buckets : List Bucket) (key : κ) :
    ℕ → ℕ → ℕ → Except TableFault Probe
  | 0, _, _ => .error .endless
  | fuel + 1, distAndFingerprint, bucketIdx => do
      let bucket ← bucketAt buckets bucketIdx
      if distAndFingerprint = bucket.distAndFingerprint then
        let entry ← valueAt values bucket.valueIdx
        if key = entry.1 then
          return .found bucket.valueIdx
        else
          probe values buckets key fuel (distInc distAndFingerprint) (next buckets.length bucketIdx)
      else if distAndFingerprint > bucket.distAndFingerprint then
        return .vacant distAndFingerprint bucketIdx
      else
        probe values buckets key fuel (distInc distAndFingerprint) (next buckets.length bucketIdx)

/-- `is_full()`. [SRC unordered_dense.h:604-606] -/
def isFull (t : Table κ) : Bool := t.values.length ≥ t.maxBucketCapacity

/-- The check that `do_try_emplace` starts with. [SRC unordered_dense.h:737-739] -/
def growIfFull (t : Table κ) : Except TableFault (Table κ) :=
  if isFull t then increaseSize mixedHash t else return t

/-- [SRC unordered_dense.h:719-733] -/
def doPlaceElement (t : Table κ) (distAndFingerprint bucketIdx : ℕ) (key : κ) (value : ℕ) :
    Except TableFault (Table κ × ℕ × Bool) := do
  let values := t.values ++ [(key, value)]
  let valueIdx := (values.length - 1) % 2 ^ 32
  let buckets ← placeAndShiftUp t.buckets.length t.buckets
    { distAndFingerprint := distAndFingerprint, valueIdx := valueIdx } bucketIdx
  return ({ t with values := values, buckets := buckets }, valueIdx, true)

/-- The table afterwards, the index of the entry, and whether it is new.
    [SRC unordered_dense.h:734-757] -/
def doTryEmplace (t : Table κ) (key : κ) (value : ℕ) : Except TableFault (Table κ × ℕ × Bool) := do
  let t ← growIfFull mixedHash t
  let hash := mixedHash key
  let distAndFingerprint := distAndFingerprintFromHash hash
  let bucketIdx := bucketIdxFromHash t.shifts hash
  match ← probe t.values t.buckets key t.buckets.length distAndFingerprint bucketIdx with
  | .found valueIdx => return (t, valueIdx, false)
  | .vacant distAndFingerprint bucketIdx =>
      doPlaceElement t distAndFingerprint bucketIdx key value

/-- `it->second += n`. -/
def addTo (t : Table κ) (valueIdx n : ℕ) : Table κ :=
  { t with values := t.values.modify valueIdx fun e => (e.1, e.2 + n) }

/-- The insertion of `count_word` on the table. [SRC freq.cpp:37-40, freq_dummy.cpp:29-32] -/
def emplaceOrIncrement (t : Table κ) (key : κ) : Except TableFault (Table κ) := do
  let (t, it, emplaced) ← doTryEmplace mixedHash t key 1
  if !emplaced then
    return addTo t it 1
  else
    return t

/-- `result[key] += value`. [SRC unordered_dense.h:1338-1354, freq.cpp:211] -/
def subscriptAdd (t : Table κ) (key : κ) (value : ℕ) : Except TableFault (Table κ) := do
  let (t, it, _) ← doTryEmplace mixedHash t key 0
  return addTo t it value

/-- [SRC unordered_dense.h:1453-1467] -/
def reserve (t : Table κ) (capa : ℕ) : Except TableFault (Table κ) := do
  let capa := min capa maxBucketCount
  let shifts := calcShiftsForSize (max capa t.values.length)
  if t.buckets.length = 0 ∨ shifts < t.shifts then
    let t ← allocateBucketsFromShift { t with shifts := shifts }
    clearAndFillBucketsFromValues mixedHash t
  else
    return t

/-- The loop of `do_find`; none is `end()`. [SRC unordered_dense.h:784-795] -/
def findFrom (values : List (κ × ℕ)) (buckets : List Bucket) (key : κ) :
    ℕ → ℕ → ℕ → Except TableFault (Option ℕ)
  | 0, _, _ => .error .endless
  | fuel + 1, distAndFingerprint, bucketIdx => do
      let bucket ← bucketAt buckets bucketIdx
      if distAndFingerprint = bucket.distAndFingerprint then
        let entry ← valueAt values bucket.valueIdx
        if key = entry.1 then
          return some bucket.valueIdx
        else
          findFrom values buckets key fuel (distInc distAndFingerprint) (next buckets.length bucketIdx)
      else if distAndFingerprint > bucket.distAndFingerprint then
        return none
      else
        findFrom values buckets key fuel (distInc distAndFingerprint) (next buckets.length bucketIdx)

/-- One of the two checks in front of the loop of `do_find`. [SRC unordered_dense.h:771-773] -/
def findHere (values : List (κ × ℕ)) (buckets : List Bucket) (key : κ)
    (distAndFingerprint bucketIdx : ℕ) : Except TableFault (Option ℕ) := do
  let bucket ← bucketAt buckets bucketIdx
  if distAndFingerprint = bucket.distAndFingerprint then
    let entry ← valueAt values bucket.valueIdx
    return if key = entry.1 then some bucket.valueIdx else none
  else
    return none

/-- The unrolled loop of the source: two checks for equality alone, then the loop.
    [SRC unordered_dense.h:758-796] -/
def doFind (t : Table κ) (key : κ) : Except TableFault (Option ℕ) := do
  if t.values = [] then
    return none
  else
    let hash := mixedHash key
    let distAndFingerprint := distAndFingerprintFromHash hash
    let bucketIdx := bucketIdxFromHash t.shifts hash
    match ← findHere t.values t.buckets key distAndFingerprint bucketIdx with
    | some valueIdx => return some valueIdx
    | none =>
        let distAndFingerprint := distInc distAndFingerprint
        let bucketIdx := next t.buckets.length bucketIdx
        match ← findHere t.values t.buckets key distAndFingerprint bucketIdx with
        | some valueIdx => return some valueIdx
        | none =>
            findFrom t.values t.buckets key t.buckets.length (distInc distAndFingerprint)
              (next t.buckets.length bucketIdx)

end Hashing

end UnorderedDense

end FreqUtility
