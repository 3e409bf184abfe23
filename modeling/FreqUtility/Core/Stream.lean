/-
Module: FreqUtility.Core.Stream
Layer: Core
Purpose: The machine integers of the drivers and the `std::ifstream` they read a file with. `size_t` is a
  natural number below 2^64 with wrapping operations, and `static_cast<int>` takes the balanced residue
  modulo 2^32. A stream has a read position and the two state bits that `seekg` and `read` test; the
  bytes that `read` delivers are stored into the buffer at a given offset.
Imports: FreqUtility.Core.Bytes
Trusted boundary: the file does not change while it is read, and a read is cut short only by its end
Main exports: wrap64, sub64, toInt32, toInt32_eq_self_iff, IfStream, IfStream.seekg, IfStream.read,
  IfStream.read_seekg, IfStream.read_whole, IfStream.length_read_le, IfStream.read_seekg_of_fail, store,
  byteAt_store
Open obligations: none
-/
import FreqUtility.Core.Bytes

namespace FreqUtility

/-! ### Machine integers -/

/-- A result of unsigned 64-bit arithmetic. -/
def wrap64 (x : ℕ) : ℕ := x % 2 ^ 64

/-- Unsigned 64-bit subtraction. -/
def sub64 (x y : ℕ) : ℕ := (x + (2 ^ 64 - y % 2 ^ 64)) % 2 ^ 64

/-- `static_cast<int>` of an unsigned value. -/
def toInt32 (x : ℕ) : ℤ := Int.bmod x (2 ^ 32)

theorem wrap64_of_lt {x : ℕ} (h : x < 2 ^ 64) : wrap64 x = x := Nat.mod_eq_of_lt h

theorem sub64_of_le {x y : ℕ} (h : y ≤ x) (hx : x < 2 ^ 64) : sub64 x y = x - y := by
  unfold sub64
  omega

theorem toInt32_of_lt {x : ℕ} (h : x < 2 ^ 31) : toInt32 x = x := by
  apply Int.bmod_eq_of_le
  · omega
  · omega

/-- The cast is exact exactly below 2^31. -/
theorem toInt32_eq_self_iff {x : ℕ} : toInt32 x = x ↔ x < 2 ^ 31 := by
  constructor
  · intro h
    have hlt : toInt32 x < (2 ^ 32 + 1) / 2 := Int.bmod_lt (by decide)
    rw [h] at hlt
    omega
  · exact toInt32_of_lt

/-- From 2^31 up to 2^32 the cast gives a negative number. -/
theorem toInt32_neg {x : ℕ} (h : 2 ^ 31 ≤ x) (hx : x < 2 ^ 32) : toInt32 x < 0 := by
  have hmod : (x : ℤ) % ((2 ^ 32 : ℕ) : ℤ) = x := Int.emod_eq_of_lt (by omega) (by omega)
  unfold toInt32
  rw [Int.bmod_def, hmod, if_neg (by omega)]
  omega

/-- The cast never gives more than the value. -/
theorem toInt32_le (x : ℕ) : toInt32 x ≤ x := by
  have hmod : (x : ℤ) % ((2 ^ 32 : ℕ) : ℤ) ≤ x := by omega
  unfold toInt32
  rw [Int.bmod_def]
  split
  · exact hmod
  · omega

/-! ### Streams -/

/-- An open `std::ifstream`: its position, `eofbit` and `failbit`. -/
structure IfStream where
  pos : ℕ
  eof : Bool
  fail : Bool
deriving DecidableEq, Repr

/-- A stream that was just opened. -/
def IfStream.opened : IfStream where
  pos := 0
  eof := false
  fail := false

/-- `seekg`: clears `eofbit`, does nothing more on a failed stream, and fails for a negative position. -/
def IfStream.seekg (s : IfStream) (pos : ℤ) : IfStream :=
  if s.fail then { s with eof := false }
  else if pos < 0 then { s with eof := false, fail := true }
  else { pos := pos.toNat, eof := false, fail := false }

/-- `read`: the bytes delivered, and the stream afterwards. A stream that is not good delivers nothing;
    a read that is cut short sets both bits. -/
def IfStream.read (s : IfStream) (file : Buffer) (count : ℤ) : Buffer × IfStream :=
  if s.eof || s.fail then ([], { s with fail := true })
  else
    let bytes := (file.drop s.pos).take count.toNat
    if (bytes.length : ℤ) = count then (bytes, { s with pos := s.pos + bytes.length })
    else (bytes, { pos := s.pos + bytes.length, eof := true, fail := true })

/-- Store bytes into the buffer from an offset on. -/
def store (data : Buffer) (start : ℕ) (bytes : Buffer) : Buffer :=
  data.take start ++ bytes ++ data.drop (start + bytes.length)

/-- No error bit is set. -/
def IfStream.Good (s : IfStream) : Prop := s.eof = false ∧ s.fail = false

theorem IfStream.good_opened : IfStream.opened.Good := ⟨rfl, rfl⟩

/-- Seeking and reading inside the file delivers its bytes and keeps the stream good. -/
theorem IfStream.read_seekg {s : IfStream} (h : s.Good) (file : Buffer) {start count : ℕ}
    (hbound : start + count ≤ file.length) :
    ((s.seekg start).read file count).1 = (file.drop start).take count ∧
      ((s.seekg start).read file count).2.Good := by
  have hseek : s.seekg start = { pos := start, eof := false, fail := false } := by
    simp [IfStream.seekg, h.2]
  have hlength : ((file.drop start).take count).length = count := by
    rw [List.length_take, List.length_drop]
    omega
  rw [hseek]
  simp [IfStream.read, IfStream.Good, hlength]

/-- The size is cast to `int`, so a file is read as a whole up to 2^31 - 1 bytes. -/
theorem IfStream.read_whole {file : Buffer} (h : file.length < 2 ^ 31) :
    ((IfStream.opened.seekg 0).read file (toInt32 file.length)).1 = file := by
  have hread : ((IfStream.opened.seekg (0 : ℕ)).read file (file.length : ℕ)).1 = file := by
    rw [(IfStream.read_seekg IfStream.good_opened file (by omega)).1, List.drop_zero,
      List.take_length]
  rw [toInt32_of_lt h]
  exact hread

/-- A read delivers at most what was asked for. -/
theorem IfStream.length_read_le (s : IfStream) (file : Buffer) (count : ℤ) :
    (s.read file count).1.length ≤ count.toNat := by
  unfold IfStream.read
  split
  · exact Nat.zero_le _
  · simp only
    split
    · exact List.length_take_le _ _
    · exact List.length_take_le _ _

/-- A read delivers at most the whole file. -/
theorem IfStream.length_read_le_length (s : IfStream) (file : Buffer) (count : ℤ) :
    (s.read file count).1.length ≤ file.length := by
  have hpart : ∀ m, ((file.drop s.pos).take m).length ≤ file.length := by
    intro m
    rw [List.length_take, List.length_drop]
    omega
  unfold IfStream.read
  split
  · exact Nat.zero_le _
  · simp only
    split
    · exact hpart _
    · exact hpart _

/-- After a seek to a negative position, or on a stream that has failed before, nothing is read. -/
theorem IfStream.read_seekg_of_fail {s : IfStream} {pos : ℤ} (h : s.fail = true ∨ pos < 0)
    (file : Buffer) (count : ℤ) :
    ((s.seekg pos).read file count).1 = [] ∧ ((s.seekg pos).read file count).2.fail = true := by
  have hfail : (s.seekg pos).fail = true := by
    unfold IfStream.seekg
    cases hs : s.fail with
    | true => rfl
    | false =>
        rcases h with h | h
        · exact absurd (hs.symm.trans h) nofun
        · simp only [if_pos h, Bool.false_eq_true, if_false]
  unfold IfStream.read
  simp only [hfail, Bool.or_true, if_true, and_self]

theorem length_store {data : Buffer} {start : ℕ} {bytes : Buffer}
    (h : start + bytes.length ≤ data.length) : (store data start bytes).length = data.length := by
  simp only [store, List.length_append, List.length_take, List.length_drop]
  omega

/-- The bytes stored are read back in their range, and nothing changes outside. -/
theorem byteAt_store {data : Buffer} {start : ℕ} {bytes : Buffer}
    (h : start + bytes.length ≤ data.length) (p : ℕ) :
    byteAt (store data start bytes) p =
      if start ≤ p ∧ p < start + bytes.length then byteAt bytes (p - start) else byteAt data p := by
  have hprefix : (data.take start).length = start := by
    rw [List.length_take]
    omega
  unfold byteAt store
  rcases Nat.lt_or_ge p start with hlow | hlow
  · rw [if_neg (by omega), List.append_assoc, List.getElem?_append_left (by omega),
      List.getElem?_take_of_lt hlow]
  · rcases Nat.lt_or_ge p (start + bytes.length) with hhigh | hhigh
    · rw [if_pos ⟨hlow, hhigh⟩, List.append_assoc, List.getElem?_append_right (by omega),
        List.getElem?_append_left (by omega), hprefix]
    · rw [if_neg (by omega), List.getElem?_append_right (by
        rw [List.length_append, hprefix]
        exact hhigh), List.getElem?_drop, List.length_append, hprefix]
      congr 2
      omega

/-- Filling the buffer with the whole file. -/
theorem store_zero_of_length_eq {data bytes : Buffer} (h : bytes.length = data.length) :
    store data 0 bytes = bytes := by
  rw [store, List.take_zero, List.nil_append, Nat.zero_add, h, List.drop_length, List.append_nil]

end FreqUtility
