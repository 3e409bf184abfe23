/-
Module: FreqUtility.Library.CountMaps
Layer: Library
Purpose: Finite maps that count occurrences, and the multisets they stand for. A `CountMap` is a finite
  map to the natural numbers; `bump` is `m[k] += n`, which inserts a missing key, and `merge` adds one
  map into another entry by entry in whatever order the entries come. `Counts m s` says that `m` holds
  exactly the multiplicities of the multiset `s`, with no entry for an absent key. Counting occurrences
  one by one and merging partial counts are then insertion into, and addition of, multisets, and a map
  is determined by the multiset it counts. A list of entries `Enumerates` a map when it holds each entry
  once; such lists are the orders in which a hash map may hand its entries over.
Imports: Mathlib.Data.Finmap, Mathlib.Algebra.Order.Group.Multiset, Mathlib.Tactic
Trusted boundary: none (fully proved)
Main exports: CountMap, bump, merge, grow, countAll, Counts, Counts.countAll, Counts.merge,
  Counts.unique, Counts.sum_keys, Enumerates, ofEntries, Enumerates.perm, Enumerates.ofEntries_eq,
  exists_enumerates
Open obligations: none
-/
import Mathlib.Data.Finmap
import Mathlib.Algebra.Order.Group.Multiset
import Mathlib.Tactic

namespace CountMaps

variable {κ : Type*} [DecidableEq κ]

/-- A finite map from keys to counts. -/
abbrev CountMap (κ : Type*) := Finmap fun _ : κ => ℕ

/-- `m[k] += n`: a missing key starts at zero. -/
def bump (m : CountMap κ) (k : κ) (n : ℕ) : CountMap κ :=
  m.insert k ((m.lookup k).getD 0 + n)

@[simp] theorem lookup_bump_self (m : CountMap κ) (k : κ) (n : ℕ) :
    (bump m k n).lookup k = some ((m.lookup k).getD 0 + n) :=
  Finmap.lookup_insert m

@[simp] theorem lookup_bump_of_ne (m : CountMap κ) {k k' : κ} (n : ℕ) (h : k' ≠ k) :
    (bump m k n).lookup k' = m.lookup k' :=
  Finmap.lookup_insert_of_ne m h

theorem lookup_bump (m : CountMap κ) (k k' : κ) (n : ℕ) :
    (bump m k n).lookup k' = if k' = k then some ((m.lookup k).getD 0 + n) else m.lookup k' := by
  by_cases h : k' = k
  · subst h
    rw [if_pos rfl, lookup_bump_self]
  · rw [if_neg h, lookup_bump_of_ne m n h]

/-- Two increments commute, so entries may be added in any order. -/
theorem bump_comm (m : CountMap κ) (k k' : κ) (n n' : ℕ) :
    bump (bump m k n) k' n' = bump (bump m k' n') k n := by
  apply Finmap.ext_lookup
  intro x
  by_cases hx : x = k <;> by_cases hx' : x = k'
  · subst hx
    subst hx'
    simp [Nat.add_right_comm]
  · subst hx
    simp [hx']
  · subst hx'
    simp [hx]
  · simp [hx, hx']

/-- Add every entry of `other` into `m`. -/
def merge (m other : CountMap κ) : CountMap κ :=
  other.foldl bump (fun m k n k' n' => bump_comm m k k' n n') m

/-! ### Entries after a number of increments -/

/-- The entry of a key after `n` increments by one: zero increments leave it as it was. -/
def grow (entry : Option ℕ) (n : ℕ) : Option ℕ :=
  if n = 0 then entry else some (entry.getD 0 + n)

@[simp] theorem grow_zero (entry : Option ℕ) : grow entry 0 = entry := rfl

@[simp] theorem grow_succ (entry : Option ℕ) (n : ℕ) :
    grow entry (n + 1) = some (entry.getD 0 + (n + 1)) := rfl

theorem getD_grow (entry : Option ℕ) (n : ℕ) : (grow entry n).getD 0 = entry.getD 0 + n := by
  cases n with
  | zero => rfl
  | succ n => rfl

theorem grow_grow (entry : Option ℕ) (m n : ℕ) : grow (grow entry m) n = grow entry (m + n) := by
  cases n with
  | zero => rfl
  | succ n =>
      rw [grow_succ, getD_grow, Nat.add_assoc, ← Nat.add_assoc m n 1, grow_succ]

/-- Growth from nothing determines the number of increments. -/
theorem grow_none_inj {m n : ℕ} (h : grow none m = grow none n) : m = n := by
  have hvalue := congrArg (fun entry => entry.getD 0) h
  simpa only [getD_grow, Option.getD_none, Nat.zero_add] using hvalue

theorem lookup_bump_one (m : CountMap κ) (k k' : κ) :
    (bump m k 1).lookup k' = grow (m.lookup k') (if k' = k then 1 else 0) := by
  rw [lookup_bump]
  split
  · rename_i h
    subst h
    rfl
  · rfl

/-- Count the members of a list one by one. -/
def countAll (m : CountMap κ) (keys : List κ) : CountMap κ :=
  keys.foldl (fun m k => bump m k 1) m

@[simp] theorem countAll_nil (m : CountMap κ) : countAll m [] = m := rfl

@[simp] theorem countAll_cons (m : CountMap κ) (k : κ) (keys : List κ) :
    countAll m (k :: keys) = countAll (bump m k 1) keys := rfl

/-- Each entry grows by the number of times its key is listed. -/
theorem lookup_countAll (m : CountMap κ) (keys : List κ) (k : κ) :
    (countAll m keys).lookup k = grow (m.lookup k) (Multiset.count k keys) := by
  induction keys generalizing m with
  | nil => rfl
  | cons head keys ih =>
      rw [countAll_cons, ih, lookup_bump_one, grow_grow, ← Multiset.cons_coe, Multiset.count_cons,
        Nat.add_comm]

private theorem lookup_foldl_bump (entries : List (Sigma fun _ : κ => ℕ))
    (nodup : entries.NodupKeys) (m : CountMap κ) (k : κ) :
    (entries.foldl (fun m e => bump m e.1 e.2) m).lookup k =
      match entries.dlookup k with
      | none => m.lookup k
      | some n => some ((m.lookup k).getD 0 + n) := by
  induction entries generalizing m with
  | nil => rfl
  | cons head entries ih =>
      obtain ⟨key, value⟩ := head
      obtain ⟨fresh, nodupTail⟩ := List.nodupKeys_cons.mp nodup
      rw [List.foldl_cons, ih nodupTail]
      by_cases h : k = key
      · -- The head is the only entry of its key.
        subst h
        rw [List.dlookup_cons_eq, List.dlookup_eq_none.mpr fresh]
        exact lookup_bump_self m k value
      · rw [List.dlookup_cons_ne _ _ h, lookup_bump_of_ne m _ h]

/-- Merging adds, at every key of `other`, the count found there. -/
theorem lookup_merge (m other : CountMap κ) (k : κ) :
    (merge m other).lookup k =
      match other.lookup k with
      | none => m.lookup k
      | some n => some ((m.lookup k).getD 0 + n) := by
  induction other using Finmap.induction_on with
  | H entries =>
      rw [Finmap.lookup_toFinmap]
      exact lookup_foldl_bump entries.entries entries.nodupKeys m k

/-- A map all of whose entries grew from nothing is added like an increment. -/
theorem lookup_merge_of_grow {m other : CountMap κ} {k : κ} {n : ℕ}
    (h : other.lookup k = grow none n) : (merge m other).lookup k = grow (m.lookup k) n := by
  rw [lookup_merge, h]
  cases n with
  | zero => rfl
  | succ n => simp

/-! ### The multiset a map counts -/

/-- The map holds the multiplicities of the multiset, and no entry for an absent key. -/
def Counts (m : CountMap κ) (s : Multiset κ) : Prop :=
  ∀ k, m.lookup k = grow none (s.count k)

namespace Counts

theorem empty : Counts (∅ : CountMap κ) 0 := fun _ => rfl

theorem countAll {m : CountMap κ} {s : Multiset κ} (h : Counts m s) (keys : List κ) :
    Counts (countAll m keys) (s + keys) := by
  intro k
  rw [lookup_countAll, h k, grow_grow, Multiset.count_add]

theorem merge {m other : CountMap κ} {s t : Multiset κ} (h : Counts m s) (h' : Counts other t) :
    Counts (merge m other) (s + t) := by
  intro k
  rw [lookup_merge_of_grow (h' k), h k, grow_grow, Multiset.count_add]

/-- A multiset is counted by one map only. -/
theorem unique {m m' : CountMap κ} {s : Multiset κ} (h : Counts m s) (h' : Counts m' s) : m = m' :=
  Finmap.ext_lookup fun k => (h k).trans (h' k).symm

/-- A map counts one multiset only. -/
theorem injective {m : CountMap κ} {s t : Multiset κ} (h : Counts m s) (h' : Counts m t) : s = t :=
  Multiset.ext.mpr fun k => grow_none_inj ((h k).symm.trans (h' k))

theorem mem_iff {m : CountMap κ} {s : Multiset κ} (h : Counts m s) {k : κ} : k ∈ m ↔ k ∈ s := by
  rw [← Finmap.lookup_isSome, h k, ← Multiset.count_pos]
  cases s.count k with
  | zero => simp
  | succ n => simp

theorem keys_eq {m : CountMap κ} {s : Multiset κ} (h : Counts m s) : m.keys = s.toFinset := by
  ext k
  rw [Finmap.mem_keys, h.mem_iff, Multiset.mem_toFinset]

/-- The entry of a key is its multiplicity. -/
theorem lookup_eq_some {m : CountMap κ} {s : Multiset κ} (h : Counts m s) {k : κ} {n : ℕ}
    (hentry : m.lookup k = some n) : n = s.count k := by
  have hgrow := congrArg (fun entry => entry.getD 0) (hentry.symm.trans (h k))
  simpa only [Option.getD_some, getD_grow, Option.getD_none, Nat.zero_add] using hgrow

/-- A sum over the entries, weighted by their counts, is the sum over the multiset. -/
theorem sum_keys {m : CountMap κ} {s : Multiset κ} (h : Counts m s) (f : κ → ℕ) :
    ∑ k ∈ m.keys, (m.lookup k).getD 0 * f k = (s.map f).sum := by
  rw [Finset.sum_multiset_map_count, h.keys_eq]
  apply Finset.sum_congr rfl
  intro k _
  rw [h k, getD_grow, Option.getD_none, Nat.zero_add, smul_eq_mul]

end Counts

/-! ### The entries of a map as a list -/

/-- The list holds every entry of the map exactly once, in some order. -/
structure Enumerates (m : CountMap κ) (entries : List (κ × ℕ)) : Prop where
  nodup : (entries.map Prod.fst).Nodup
  mem_iff : ∀ k n, (k, n) ∈ entries ↔ m.lookup k = some n

/-- The map with the given entries. -/
def ofEntries (entries : List (κ × ℕ)) : CountMap κ :=
  entries.foldr (fun e m => m.insert e.1 e.2) ∅

theorem enumerates_ofEntries {entries : List (κ × ℕ)} (h : (entries.map Prod.fst).Nodup) :
    Enumerates (ofEntries entries) entries where
  nodup := h
  mem_iff := by
    induction entries with
    | nil =>
        intro k n
        exact iff_of_false (List.not_mem_nil) (by rw [ofEntries, List.foldr_nil]; nofun)
    | cons e entries ih =>
        obtain ⟨fresh, htail⟩ := List.nodup_cons.mp h
        intro k n
        rw [List.mem_cons, ih htail]
        change _ ↔ ((ofEntries entries).insert e.1 e.2).lookup k = some n
        by_cases hk : k = e.1
        · -- The key of the head has no other entry.
          subst hk
          have hnone : (ofEntries entries).lookup e.1 ≠ some n := by
            intro hentry
            exact fresh (List.mem_map.mpr ⟨(e.1, n), (ih htail _ _).mpr hentry, rfl⟩)
          rw [Finmap.lookup_insert, Option.some_inj]
          constructor
          · rintro (heq | hentry)
            · exact (congrArg Prod.snd heq).symm
            · exact absurd hentry hnone
          · rintro rfl
            exact Or.inl rfl
        · rw [Finmap.lookup_insert_of_ne _ hk]
          exact or_iff_right fun heq => hk (congrArg Prod.fst heq)

namespace Enumerates

variable {m m' : CountMap κ} {entries entries' : List (κ × ℕ)}

theorem nodup_entries (h : Enumerates m entries) : entries.Nodup := h.nodup.of_map

/-- Two enumerations of one map differ in their order only. -/
theorem perm (h : Enumerates m entries) (h' : Enumerates m entries') : entries.Perm entries' := by
  apply (List.perm_ext_iff_of_nodup h.nodup_entries h'.nodup_entries).mpr
  rintro ⟨k, n⟩
  rw [h.mem_iff, h'.mem_iff]

theorem of_perm (h : Enumerates m entries) (hperm : entries'.Perm entries) :
    Enumerates m entries' where
  nodup := (hperm.map Prod.fst).nodup_iff.mpr h.nodup
  mem_iff k n := hperm.mem_iff.trans (h.mem_iff k n)

/-- A list enumerates one map only. -/
theorem unique (h : Enumerates m entries) (h' : Enumerates m' entries) : m = m' := by
  apply Finmap.ext_lookup
  intro k
  apply Option.ext
  intro n
  exact (h.mem_iff k n).symm.trans (h'.mem_iff k n)

theorem ofEntries_eq (h : Enumerates m entries) : ofEntries entries = m :=
  (enumerates_ofEntries h.nodup).unique h

end Enumerates

/-- Every map has an enumeration. -/
theorem exists_enumerates (m : CountMap κ) : ∃ entries, Enumerates m entries := by
  induction m using Finmap.induction_on with
  | H a =>
      have hkeys : (a.entries.map fun e => (e.1, e.2)).map Prod.fst = a.keys := by
        rw [List.map_map]
        rfl
      refine ⟨a.entries.map fun e => (e.1, e.2), ?_, ?_⟩
      · rw [hkeys]
        exact a.nodupKeys
      · intro k n
        rw [Finmap.lookup_toFinmap, ← Option.mem_def, AList.mem_lookup_iff]
        constructor
        · intro hmem
          obtain ⟨e, he, heq⟩ := List.mem_map.mp hmem
          cases heq
          exact he
        · intro hmem
          exact List.mem_map.mpr ⟨⟨k, n⟩, hmem, rfl⟩

end CountMaps
