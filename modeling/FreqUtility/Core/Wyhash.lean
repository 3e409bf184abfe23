/-
Module: FreqUtility.Core.Wyhash
Layer: Core
Purpose: The hash function of `FreqMap`. The header multiplies two words into two with a 128-bit integer where
  the compiler has one and limb by limb elsewhere; `mum` is a parameter of what is above it. A pointer into
  the key is an integer offset, and a read at an offset outside of the key is the fault `outsideKey`; every
  read is logged.
Imports: FreqUtility.Core.Bytes, FreqUtility.Library.ReadLog
Trusted boundary: `memcpy` fills an integer from its low byte on (little-endian)
Main exports: mum128, mumLimbs, mix, r8, r4, r3, rounds48, rounds16, hash, mixedHash, wordHash
Open obligations: none
-/
import FreqUtility.Core.Bytes
import FreqUtility.Library.ReadLog

namespace FreqUtility

namespace Wyhash

open ReadLog

/-! ### The product of two words -/

/-- `mum` with `__uint128_t`: the low and the high word of the product. [SRC unordered_dense.h:165-169] -/
def mum128 (a b : UInt64) : UInt64 × UInt64 :=
  let r : BitVec 128 := a.toBitVec.setWidth 128 * b.toBitVec.setWidth 128
  (.ofBitVec (r.setWidth 64), .ofBitVec ((r >>> 64).setWidth 64))

/-- `mum` without it. [SRC unordered_dense.h:173-189] -/
def mumLimbs (a b : UInt64) : UInt64 × UInt64 :=
  let ha := a >>> 32
  let hb := b >>> 32
  let la := a.toUInt32.toUInt64
  let lb := b.toUInt32.toUInt64
  let rh := ha * hb
  let rm0 := ha * lb
  let rm1 := hb * la
  let rl := la * lb
  let t := rl + (rm0 <<< 32)
  let c : UInt64 := if t < rl then 1 else 0
  let lo := t + (rm1 <<< 32)
  let c := c + if lo < t then 1 else 0
  let hi := rh + (rm0 >>> 32) + (rm1 >>> 32) + c
  (lo, hi)

/-! ### Reading the key -/

inductive HashFault where
  /-- A read in front of the key or behind it. -/
  | outsideKey
deriving DecidableEq, Repr

/-- What reads a key. -/
abbrev KeyRead := Logged ℤ HashFault

/-- The byte at an offset. -/
def readByte (key : Word) (p : ℤ) : KeyRead UInt8 := do
  modify (p :: ·)
  if p < 0 then
    throw .outsideKey
  else
    match key[p.toNat]? with
    | some byte => return byte
    | none => throw .outsideKey

/-- `std::memcpy` from the key. -/
def memcpy (key : Word) (p : ℤ) (count : ℕ) : KeyRead (List UInt8) :=
  (List.range count).mapM fun i : ℕ => readByte key (p + i)

/-- The integer that the bytes fill. -/
def littleEndian (bytes : List UInt8) : UInt64 :=
  bytes.foldr (fun byte v => v <<< 8 ||| byte.toUInt64) 0

/-- [SRC unordered_dense.h:200-204] -/
def r8 (key : Word) (p : ℤ) : KeyRead UInt64 := do
  return littleEndian (← memcpy key p 8)

/-- [SRC unordered_dense.h:206-210] -/
def r4 (key : Word) (p : ℤ) : KeyRead UInt64 := do
  return littleEndian (← memcpy key p 4)

/-- Reads one, two or three bytes. [SRC unordered_dense.h:213-215] -/
def r3 (key : Word) (p : ℤ) (k : ℕ) : KeyRead UInt64 := do
  let first ← readByte key p
  let middle ← readByte key (p + (k >>> 1 : ℕ))
  let last ← readByte key (p + k - 1)
  return first.toUInt64 <<< 16 ||| middle.toUInt64 <<< 8 ||| last.toUInt64

/-! ### The hash of a key -/

def secret0 : UInt64 := 0xa0761d6478bd642f
def secret1 : UInt64 := 0xe7037ed1a0b428db
def secret2 : UInt64 := 0x8ebc6af09c88c6e3
def secret3 : UInt64 := 0x589965cc75374cc3

section

variable (mum : UInt64 → UInt64 → UInt64 × UInt64) (key : Word)

/-- [SRC unordered_dense.h:193-196] -/
def mix (a b : UInt64) : UInt64 :=
  let (a, b) := mum a b
  a ^^^ b

/-- The rounds over 48 bytes: the pointer, the number of bytes left, and the three seeds.
    [SRC unordered_dense.h:243-249] -/
def rounds48 (p : ℤ) (i : ℕ) (seed see1 see2 : UInt64) :
    KeyRead (ℤ × ℕ × UInt64 × UInt64 × UInt64) := do
  let seed := mix mum ((← r8 key p) ^^^ secret1) ((← r8 key (p + 8)) ^^^ seed)
  let see1 := mix mum ((← r8 key (p + 16)) ^^^ secret2) ((← r8 key (p + 24)) ^^^ see1)
  let see2 := mix mum ((← r8 key (p + 32)) ^^^ secret3) ((← r8 key (p + 40)) ^^^ see2)
  if _h : i - 48 > 48 then
    rounds48 (p + 48) (i - 48) seed see1 see2
  else
    return (p + 48, i - 48, seed, see1, see2)
termination_by i

/-- The rounds over 16 bytes. [SRC unordered_dense.h:252-256] -/
def rounds16 (p : ℤ) (i : ℕ) (seed : UInt64) : KeyRead (ℤ × ℕ × UInt64) :=
  if _h : i > 16 then do
    let seed := mix mum ((← r8 key p) ^^^ secret1) ((← r8 key (p + 8)) ^^^ seed)
    rounds16 (p + 16) (i - 16) seed
  else
    return (p, i, seed)
termination_by i

/-- `a` and `b` of a key of at most 16 bytes. [SRC unordered_dense.h:227-237] -/
def hashShort (len : ℕ) : KeyRead (UInt64 × UInt64) := do
  let p : ℤ := 0
  let half : ℕ := (len >>> 3) <<< 2
  if len ≥ 4 then
    let a := (← r4 key p) <<< 32 ||| (← r4 key (p + half))
    let b := (← r4 key (p + len - 4)) <<< 32 ||| (← r4 key (p + len - 4 - half))
    return (a, b)
  else if len > 0 then
    let a ← r3 key p len
    return (a, 0)
  else
    return (0, 0)

/-- The rounds over 48 bytes are made for more than 48 bytes only. [SRC unordered_dense.h:239-251] -/
def firstRounds (len : ℕ) : KeyRead (ℤ × ℕ × UInt64) :=
  if len > 48 then do
    let (p, i, seed, see1, see2) ← rounds48 mum key 0 len secret0 secret0 secret0
    return (p, i, seed ^^^ (see1 ^^^ see2))
  else
    return (0, len, secret0)

/-- `a`, `b` and the seed of a key of more than 16 bytes. [SRC unordered_dense.h:238-258] -/
def hashLong (len : ℕ) : KeyRead (UInt64 × UInt64 × UInt64) := do
  let (p, i, seed) ← firstRounds mum key len
  let (p, i, seed) ← rounds16 mum key p i seed
  let a ← r8 key (p + i - 16)
  let b ← r8 key (p + i - 8)
  return (a, b, seed)

/-- `a`, `b` and the seed of any key. -/
def hashParts (len : ℕ) : KeyRead (UInt64 × UInt64 × UInt64) :=
  if len ≤ 16 then do
    let (a, b) ← hashShort key len
    return (a, b, secret0)
  else
    hashLong mum key len

/-- [SRC unordered_dense.h:217-262] -/
def hash : KeyRead UInt64 := do
  let len := key.length
  let (a, b, seed) ← hashParts mum key len
  return mix mum (secret1 ^^^ len.toUInt64) (mix mum (a ^^^ secret1) (b ^^^ seed))

/-- `mixed_hash` of a key of `FreqMap`. `HeteroStringHash` hashes the bytes of the string or of the view and
    does not declare `is_avalanching`, so the hash is mixed once more.
    [SRC utils.h:44-54, unordered_dense.h:264-266, 525-540] -/
def mixedHash : KeyRead UInt64 := do
  let x ← hash mum key
  return mix mum x 0x9E3779B97F4A7C15

/-- The function that the hash map is used with: what `mixedHash` returns. -/
def wordHash : UInt64 :=
  match (mixedHash mum key).run [] with
  | .ok (h, _) => h
  | .error _ => 0

end

end Wyhash

end FreqUtility
