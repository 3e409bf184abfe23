/-
Module: FreqUtility.Spec.Words
Layer: Spec
Purpose: What the program is about, in terms of offsets: the words of a buffer are its maximal runs of
  letters, and the word frequency is the multiset of their lower-case texts. The buffer is cut into
  chunks of `c` bytes, and every word falls into exactly one class: it lies between two delimiters of
  one chunk (`InnerWord`), or the delimiter after it is the first one of its chunk (`BorderWord`; in the
  first chunk this is the word at the start of the file), or it ends at the end of the file
  (`TailWord`).
Imports: FreqUtility.Library.MaximalRuns, FreqUtility.Library.Blocks, FreqUtility.Core.Bytes
Trusted boundary: human-reviewed spec
Main exports: IsWord, words, wordTexts, LowerCaseWord, OccursAt, IsFirstDelim, IsLastDelim, InnerWord,
  BorderWord, TailWord, isWord_iff_class, wordStart
Open obligations: none
-/
import FreqUtility.Library.MaximalRuns
import FreqUtility.Library.Blocks
import FreqUtility.Core.Bytes

namespace FreqUtility

open RangeScan MaximalRuns Blocks

/-- `[b, e)` is a maximal run of letters of the buffer. -/
abbrev IsWord (data : Buffer) (b e : ℕ) : Prop := IsRun (delimAt data) 0 data.length b e

/-- The words of a buffer, as ranges. -/
def words (data : Buffer) : Finset (ℕ × ℕ) := runs (delimAt data) 0 data.length

/-- The word frequency of a buffer: the lower-case texts of its words, with multiplicity. -/
def wordTexts (data : Buffer) : Multiset Word :=
  (words data).val.map fun r => slice (lower data) r.1 r.2

/-- A key is a non-empty string over `a` to `z`. -/
def LowerCaseWord (w : Word) : Prop := w ≠ [] ∧ ∀ x ∈ w, 0x61 ≤ x ∧ x ≤ 0x7A

variable {data : Buffer} {c k b e : ℕ}

@[simp] theorem mem_words {r : ℕ × ℕ} : r ∈ words data ↔ IsWord data r.1 r.2 := mem_runs

/-- A word is closed by a delimiter or by the end of the buffer, which reads as one. -/
theorem delimAt_word_stop (h : IsWord data b e) : delimAt data e = true := by
  rcases h.right with heq | hdelim
  · exact delimAt_of_length_le (Nat.le_of_eq heq.symm)
  · exact hdelim

/-- The lower-case buffer reads `w` at the offset `p`, with no letter before it and none after it. -/
structure OccursAt (data : Buffer) (w : Word) (p : ℕ) : Prop where
  reads : slice (lower data) p (p + w.length) = w
  left : p = 0 ∨ delimAt data (p - 1) = true
  right : p + w.length = data.length ∨ delimAt data (p + w.length) = true

instance (data : Buffer) (w : Word) : DecidablePred (OccursAt data w) := fun p =>
  decidable_of_iff (slice (lower data) p (p + w.length) = w ∧
      (p = 0 ∨ delimAt data (p - 1) = true) ∧
        (p + w.length = data.length ∨ delimAt data (p + w.length) = true))
    ⟨fun ⟨h₁, h₂, h₃⟩ => ⟨h₁, h₂, h₃⟩, fun h => ⟨h.reads, h.left, h.right⟩⟩

/-! ### Chunks

Chunk `k` is the block `[k * c, blockStop data.length c k)`. -/

/-- `d` is the first delimiter of chunk `k`. -/
structure IsFirstDelim (data : Buffer) (c k d : ℕ) : Prop where
  start_le : k * c ≤ d
  lt_stop : d < blockStop data.length c k
  delim : delimAt data d = true
  before : ∀ i, k * c ≤ i → i < d → delimAt data i = false

/-- `d` is the last delimiter of chunk `k`. -/
structure IsLastDelim (data : Buffer) (c k d : ℕ) : Prop where
  start_le : k * c ≤ d
  lt_stop : d < blockStop data.length c k
  delim : delimAt data d = true
  after : ∀ i, d < i → i < blockStop data.length c k → delimAt data i = false

/-- Chunk `k` lies inside one word. -/
def NoDelim (data : Buffer) (c k : ℕ) : Prop :=
  ∀ i, k * c ≤ i → i < blockStop data.length c k → delimAt data i = false

instance : Decidable (NoDelim data c k) :=
  decidable_of_iff (∀ i < blockStop data.length c k, k * c ≤ i → delimAt data i = false)
    ⟨fun h i hlow hhigh => h i hhigh hlow, fun h i hhigh hlow => h i hlow hhigh⟩

theorem IsFirstDelim.unique {d d' : ℕ} (h : IsFirstDelim data c k d)
    (h' : IsFirstDelim data c k d') : d = d' := by
  rcases Nat.lt_trichotomy d d' with hlt | heq | hgt
  · have := h'.before d h.start_le hlt
    exact absurd h.delim (ne_true_of_eq_false this)
  · exact heq
  · have := h.before d' h'.start_le hgt
    exact absurd h'.delim (ne_true_of_eq_false this)

theorem IsFirstDelim.not_noDelim {d : ℕ} (h : IsFirstDelim data c k d) : ¬ NoDelim data c k := by
  intro hnone
  have := hnone d h.start_le h.lt_stop
  exact absurd h.delim (ne_true_of_eq_false this)

/-! ### The classes of words -/

/-- A word with a delimiter before it and a delimiter after it, both inside chunk `k`. -/
structure InnerWord (data : Buffer) (c k b e : ℕ) : Prop where
  isWord : IsWord data b e
  start_lt : k * c < b
  lt_stop : e < blockStop data.length c k

/-- A word closed by the first delimiter of chunk `k`. -/
structure BorderWord (data : Buffer) (c k b e : ℕ) : Prop where
  isWord : IsWord data b e
  closes : IsFirstDelim data c k e

/-- The word that ends at the end of the buffer. -/
structure TailWord (data : Buffer) (b e : ℕ) : Prop where
  isWord : IsWord data b e
  stop : e = data.length

instance : Decidable (InnerWord data c k b e) :=
  decidable_of_iff (IsWord data b e ∧ k * c < b ∧ e < blockStop data.length c k)
    ⟨fun ⟨h₁, h₂, h₃⟩ => ⟨h₁, h₂, h₃⟩, fun h => ⟨h.isWord, h.start_lt, h.lt_stop⟩⟩

/-- A word that is closed before the end of the buffer and does not lie inside the chunk of its
    closing delimiter is closed by the first delimiter of that chunk. -/
theorem isFirstDelim_of_not_inner (hc : 0 < c) (h : IsWord data b e) (he : e < data.length)
    (hout : b ≤ e / c * c) : IsFirstDelim data c (e / c) e := by
  obtain ⟨hstart, hstop⟩ := (mem_block_iff hc).mpr ⟨he, rfl⟩
  refine ⟨hstart, hstop, (delimAt_word_stop h), ?_⟩
  intro i hi hie
  exact h.inside i hie (by omega)

/-- The three classes cover the words of a buffer. -/
theorem isWord_iff_class (hc : 0 < c) :
    IsWord data b e ↔
      (∃ k, k < blockCount data.length c ∧ InnerWord data c k b e) ∨
        (∃ k, k < blockCount data.length c ∧ BorderWord data c k b e) ∨ TailWord data b e := by
  constructor
  · intro h
    rcases Nat.lt_or_eq_of_le h.le_stop with he | he
    · have hk := div_lt_blockCount hc he
      obtain ⟨-, hstop⟩ := (mem_block_iff (k := e / c) hc).mpr ⟨he, rfl⟩
      rcases Nat.lt_or_ge (e / c * c) b with hin | hout
      · exact Or.inl ⟨e / c, hk, h, hin, hstop⟩
      · exact Or.inr (Or.inl ⟨e / c, hk, h, isFirstDelim_of_not_inner hc h he hout⟩)
    · exact Or.inr (Or.inr ⟨h, he⟩)
  · rintro (⟨k, -, h⟩ | ⟨k, -, h⟩ | h) <;> exact h.isWord

/-- The chunk of an inner word is the chunk of its closing delimiter. -/
theorem InnerWord.div_eq (hc : 0 < c) (h : InnerWord data c k b e) : e / c = k := by
  have := h.start_lt
  have := h.isWord.nonempty
  exact ((mem_block_iff hc).mp ⟨by omega, h.lt_stop⟩).2

theorem IsFirstDelim.div_eq {d : ℕ} (hc : 0 < c) (h : IsFirstDelim data c k d) : d / c = k :=
  ((mem_block_iff hc).mp ⟨h.start_le, h.lt_stop⟩).2

theorem IsFirstDelim.lt_length {d : ℕ} (h : IsFirstDelim data c k d) : d < data.length :=
  Nat.lt_of_lt_of_le h.lt_stop blockStop_le

/-- An inner word is not closed by the first delimiter of any chunk. -/
theorem InnerWord.not_isFirstDelim {k' : ℕ} (hc : 0 < c) (h : InnerWord data c k b e) :
    ¬ IsFirstDelim data c k' e := by
  intro hfirst
  have hk : k' = k := (hfirst.div_eq hc).symm.trans (h.div_eq hc)
  subst hk
  have hb := h.start_lt
  have hne := h.isWord.nonempty
  have hdelim := h.isWord.left.resolve_left (by omega)
  exact absurd hdelim (ne_true_of_eq_false (hfirst.before (b - 1) (by omega) (by omega)))

theorem InnerWord.lt_length (h : InnerWord data c k b e) : e < data.length :=
  Nat.lt_of_lt_of_le h.lt_stop blockStop_le

/-! ### The start of the run that ends at an offset -/

/-- One past the last delimiter before `stop`, or the start of the buffer. -/
def wordStart (data : Buffer) (stop : ℕ) : ℕ := findIfRev (delimAt data) 0 stop

theorem wordStart_le (data : Buffer) (stop : ℕ) : wordStart data stop ≤ stop :=
  findIfRev_le _ _ _

/-- A non-empty run of letters up to a delimiter or the end of the buffer is a word. -/
theorem isWord_wordStart {stop : ℕ} (hne : wordStart data stop < stop) (hle : stop ≤ data.length)
    (hclosed : delimAt data stop = true) : IsWord data (wordStart data stop) stop := by
  refine ⟨Nat.zero_le _, hne, hle, ?_, ?_, Or.inr hclosed⟩
  · intro i hi hb
    exact findIfRev_skipped hb hi
  · rcases Nat.eq_zero_or_pos (wordStart data stop) with hzero | hpos
    · exact Or.inl hzero
    · exact Or.inr (findIfRev_stopped hpos)

/-- The start of a word is determined by its end. -/
theorem wordStart_of_isWord (h : IsWord data b e) : wordStart data e = b := by
  refine findIfRev_eq h.start_le (Nat.le_of_lt h.nonempty) ?_ ?_
  · intro i hb he
    exact h.inside i he hb
  · intro hb
    exact h.left.resolve_left (by omega)

/-- Letters after an offset do not move the start of the run that ends there. -/
theorem wordStart_extend {start stop : ℕ} (h : start ≤ stop)
    (hletters : ∀ i, start ≤ i → i < stop → delimAt data i = false) :
    wordStart data stop = wordStart data start :=
  findIfRev_extend (Nat.zero_le _) h hletters

end FreqUtility
