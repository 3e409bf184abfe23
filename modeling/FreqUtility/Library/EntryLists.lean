/-
Module: FreqUtility.Library.EntryLists
Layer: Library
Purpose: Counting on a list of entries in order of insertion. `put` is `m[k] += n` on the entries
  themselves: a known key is updated where it stands, a new one goes to the end. It does to the entries
  what `bump` does to the map they enumerate, so counting and merging may be followed on either side.
  The entries that a count from nothing leaves are the distinct keys in the order of their first
  occurrence, each with its number of occurrences.
Imports: FreqUtility.Library.CountMaps
Trusted boundary: none (fully proved)
Main exports: put, putAll, putEach, keys_put, put_of_getElem?, Enumerates.put, Enumerates.putAll,
  Enumerates.putEach, putEach_nil_eq
Open obligations: none
-/
import FreqUtility.Library.CountMaps

namespace CountMaps

variable {κ : Type*} [DecidableEq κ]

/-- `entries[k] += n`, a new key going to the end. -/
def put : List (κ × ℕ) → κ → ℕ → List (κ × ℕ)
  | [], k, n => [(k, n)]
  | e :: entries, k, n => if e.1 = k then (e.1, e.2 + n) :: entries else e :: put entries k n

/-- Add every entry of a list, in the order of the list. -/
def putAll (entries added : List (κ × ℕ)) : List (κ × ℕ) :=
  added.foldl (fun entries e => put entries e.1 e.2) entries

/-- Count every key of a list, in the order of the list. -/
def putEach (entries : List (κ × ℕ)) (keys : List κ) : List (κ × ℕ) :=
  keys.foldl (fun entries k => put entries k 1) entries

@[simp] theorem putEach_nil (entries : List (κ × ℕ)) : putEach entries [] = entries := rfl

@[simp] theorem putEach_cons (entries : List (κ × ℕ)) (k : κ) (keys : List κ) :
    putEach entries (k :: keys) = putEach (put entries k 1) keys := rfl

@[simp] theorem putAll_nil (entries : List (κ × ℕ)) : putAll entries [] = entries := rfl

@[simp] theorem putAll_cons (entries : List (κ × ℕ)) (e : κ × ℕ) (added : List (κ × ℕ)) :
    putAll entries (e :: added) = putAll (put entries e.1 e.2) added := rfl

/-- The keys after one addition. -/
theorem keys_put (entries : List (κ × ℕ)) (k : κ) (n : ℕ) :
    (put entries k n).map Prod.fst =
      if k ∈ entries.map Prod.fst then entries.map Prod.fst else entries.map Prod.fst ++ [k] := by
  induction entries with
  | nil => rfl
  | cons e entries ih =>
      unfold put
      split
      · rename_i h
        rw [if_pos (by rw [List.map_cons, h]; exact List.mem_cons_self)]
        rfl
      · rename_i h
        rw [List.map_cons, List.map_cons, ih]
        have hmem : k ∈ e.1 :: entries.map Prod.fst ↔ k ∈ entries.map Prod.fst := by
          rw [List.mem_cons]
          exact or_iff_right fun heq => h heq.symm
        simp only [hmem]
        split <;> rfl

theorem put_of_notMem {entries : List (κ × ℕ)} {k : κ} (h : k ∉ entries.map Prod.fst) (n : ℕ) :
    put entries k n = entries ++ [(k, n)] := by
  induction entries with
  | nil => rfl
  | cons e entries ih =>
      rw [List.map_cons, List.mem_cons, not_or] at h
      rw [put, if_neg (fun heq => h.1 heq.symm), ih h.2, List.cons_append]

/-- A known key is updated where it stands. -/
theorem put_of_getElem? {entries : List (κ × ℕ)} (nodup : (entries.map Prod.fst).Nodup) {i : ℕ}
    {e : κ × ℕ} (h : entries[i]? = some e) (n : ℕ) :
    put entries e.1 n = entries.modify i fun e => (e.1, e.2 + n) := by
  induction entries generalizing i with
  | nil => exact absurd h (by simp)
  | cons head entries ih =>
      obtain ⟨fresh, nodupTail⟩ := List.nodup_cons.mp nodup
      cases i with
      | zero =>
          rw [List.getElem?_cons_zero, Option.some_inj] at h
          rw [put, if_pos (by rw [h]), List.modify_zero_cons]
      | succ i =>
          rw [List.getElem?_cons_succ] at h
          have hne : head.1 ≠ e.1 := by
            intro heq
            exact fresh (heq ▸ List.mem_map_of_mem (List.mem_of_getElem? h))
          rw [put, if_neg hne, ih nodupTail h, List.modify_succ_cons]

/-- Two additions to one key are one. -/
theorem put_put (entries : List (κ × ℕ)) (k : κ) (n n' : ℕ) :
    put (put entries k n) k n' = put entries k (n + n') := by
  induction entries with
  | nil => exact if_pos rfl
  | cons e entries ih =>
      by_cases h : e.1 = k
      · simp [put, h, Nat.add_assoc]
      · simp [put, h, ih]

theorem nodup_put {entries : List (κ × ℕ)} (h : (entries.map Prod.fst).Nodup) (k : κ) (n : ℕ) :
    ((put entries k n).map Prod.fst).Nodup := by
  rw [keys_put]
  split
  · exact h
  · rename_i hfresh
    rw [List.nodup_append]
    refine ⟨h, List.nodup_singleton k, ?_⟩
    intro a ha b hb
    rw [List.mem_singleton.mp hb]
    exact fun heq => hfresh (heq ▸ ha)

/-- No addition loses an entry. -/
theorem length_le_length_put (entries : List (κ × ℕ)) (k : κ) (n : ℕ) :
    entries.length ≤ (put entries k n).length := by
  have hkeys := congrArg List.length (keys_put entries k n)
  rw [List.length_map] at hkeys
  rw [hkeys]
  split <;> simp

theorem mem_keys_put {entries : List (κ × ℕ)} {k k' : κ} {n : ℕ} :
    k' ∈ (put entries k n).map Prod.fst ↔ k' ∈ entries.map Prod.fst ∨ k' = k := by
  rw [keys_put]
  split
  · rename_i hmem
    constructor
    · exact Or.inl
    · rintro (h | rfl)
      · exact h
      · exact hmem
  · rw [List.mem_append, List.mem_singleton]

theorem mem_keys_putAll {entries added : List (κ × ℕ)} {k : κ} :
    k ∈ (putAll entries added).map Prod.fst ↔
      k ∈ entries.map Prod.fst ∨ k ∈ added.map Prod.fst := by
  induction added generalizing entries with
  | nil => simp
  | cons e added ih =>
      rw [putAll_cons, ih, mem_keys_put, List.map_cons, List.mem_cons, or_assoc]

theorem length_le_length_putAll (entries added : List (κ × ℕ)) :
    entries.length ≤ (putAll entries added).length := by
  induction added generalizing entries with
  | nil => exact Nat.le_refl _
  | cons e added ih => exact (length_le_length_put entries e.1 e.2).trans (ih _)

/-- Nor does a merge lose an entry of the list it adds. -/
theorem length_le_length_putAll_right (entries : List (κ × ℕ)) {added : List (κ × ℕ)}
    (h : (added.map Prod.fst).Nodup) : added.length ≤ (putAll entries added).length := by
  have hsubset : added.map Prod.fst ⊆ (putAll entries added).map Prod.fst :=
    fun k hk => mem_keys_putAll.mpr (Or.inr hk)
  have hlength := (List.subperm_of_subset h hsubset).length_le
  rwa [List.length_map, List.length_map] at hlength

/-! ### Entries and the map they enumerate -/

/-- The first of the entries to merge may be added on its own. -/
theorem merge_insert {m other : CountMap κ} {k : κ} {n : ℕ} (h : k ∉ other) :
    merge m (other.insert k n) = merge (bump m k n) other := by
  apply Finmap.ext_lookup
  intro x
  rw [lookup_merge, lookup_merge]
  by_cases hx : x = k
  · subst hx
    rw [Finmap.lookup_insert, Finmap.lookup_eq_none.mpr h]
    exact (lookup_bump_self m x n).symm
  · rw [Finmap.lookup_insert_of_ne _ hx, lookup_bump_of_ne m n hx]

namespace Enumerates

variable {m : CountMap κ} {entries : List (κ × ℕ)}

theorem nil : Enumerates (∅ : CountMap κ) [] where
  nodup := List.nodup_nil
  mem_iff := fun _ _ => iff_of_false List.not_mem_nil (by nofun)

/-- The key of an entry of the list is a key of the map. -/
theorem mem_keys_iff (h : Enumerates m entries) {k : κ} : k ∈ entries.map Prod.fst ↔ k ∈ m := by
  rw [← Finmap.lookup_isSome, Option.isSome_iff_exists, List.mem_map]
  constructor
  · rintro ⟨e, he, rfl⟩
    exact ⟨e.2, (h.mem_iff e.1 e.2).mp he⟩
  · rintro ⟨n, hn⟩
    exact ⟨(k, n), (h.mem_iff k n).mpr hn, rfl⟩

/-- The entries are the keys in the order of the list, each with its value in the map. -/
theorem eq_map_keys (h : Enumerates m entries) :
    entries = (entries.map Prod.fst).map fun k => (k, (m.lookup k).getD 0) := by
  rw [List.map_map]
  conv_lhs => rw [← List.map_id entries]
  apply List.map_congr_left
  intro e he
  have hlookup := (h.mem_iff e.1 e.2).mp he
  change e = (e.1, (m.lookup e.1).getD 0)
  rw [hlookup]
  rfl

private theorem mem_put_of_ne {k k' : κ} (hne : k' ≠ k) {entries : List (κ × ℕ)} {n n' : ℕ} :
    (k', n') ∈ CountMaps.put entries k n ↔ (k', n') ∈ entries := by
  induction entries with
  | nil =>
      rw [CountMaps.put, List.mem_singleton]
      exact iff_of_false (fun heq => hne (congrArg Prod.fst heq)) List.not_mem_nil
  | cons e entries ih =>
      unfold CountMaps.put
      split
      · rename_i hk
        rw [List.mem_cons, List.mem_cons]
        apply or_congr_left
        have hneKey : k' ≠ e.1 := fun heq => hne (heq.trans hk)
        exact iff_of_false (fun heq => hneKey (congrArg Prod.fst heq))
          (fun heq => hneKey (congrArg Prod.fst heq))
      · rw [List.mem_cons, List.mem_cons, ih]

private theorem mem_put_self (h : Enumerates m entries) {k : κ} (n : ℕ) :
    (k, (m.lookup k).getD 0 + n) ∈ CountMaps.put entries k n := by
  by_cases hmem : k ∈ entries.map Prod.fst
  · obtain ⟨e, he, rfl⟩ := List.mem_map.mp hmem
    obtain ⟨i, hi⟩ := List.mem_iff_getElem?.mp he
    rw [(h.mem_iff e.1 e.2).mp he, put_of_getElem? h.nodup hi]
    apply List.mem_of_getElem? (i := i)
    rw [List.getElem?_modify_eq, hi]
    rfl
  · have hnone : m.lookup k = none := by
      rw [Finmap.lookup_eq_none, ← h.mem_keys_iff]
      exact hmem
    rw [hnone, put_of_notMem hmem]
    exact List.mem_append_right _ (by simp)

/-- Adding to an entry is adding to the map. -/
theorem put (h : Enumerates m entries) (k : κ) (n : ℕ) :
    Enumerates (bump m k n) (put entries k n) where
  nodup := nodup_put h.nodup k n
  mem_iff := by
    intro k' n'
    by_cases hk : k' = k
    · subst hk
      rw [lookup_bump_self, Option.some_inj]
      have hself := mem_put_self h n (k := k')
      constructor
      · intro hmem
        have heq := List.inj_on_of_nodup_map (nodup_put h.nodup k' n) hself hmem rfl
        exact congrArg Prod.snd heq
      · rintro rfl
        exact hself
    · rw [mem_put_of_ne hk, lookup_bump_of_ne m n hk]
      exact h.mem_iff k' n'

/-- Adding the entries of a map one by one is merging the map. -/
theorem putAll {other : CountMap κ} {added : List (κ × ℕ)} (h : Enumerates m entries)
    (hadded : Enumerates other added) : Enumerates (merge m other) (putAll entries added) := by
  induction added generalizing m other entries with
  | nil =>
      have hother : other = ∅ := hadded.unique nil
      rw [hother]
      exact h
  | cons e added ih =>
      obtain ⟨fresh, nodup⟩ := List.nodup_cons.mp hadded.nodup
      have hrest := enumerates_ofEntries nodup
      have hother : other = (ofEntries added).insert e.1 e.2 := hadded.ofEntries_eq.symm
      rw [hother, merge_insert fun hmem => fresh (hrest.mem_keys_iff.mpr hmem)]
      exact ih (h.put e.1 e.2) hrest

/-- There are as many entries as keys. -/
theorem length_eq (h : Enumerates m entries) : entries.length = m.keys.card := by
  have hkeys : (entries.map Prod.fst).toFinset = m.keys := by
    ext k
    rw [List.mem_toFinset, Finmap.mem_keys, h.mem_keys_iff]
  rw [← hkeys, List.toFinset_card_of_nodup h.nodup, List.length_map]

theorem putEach (h : Enumerates m entries) (keys : List κ) :
    Enumerates (countAll m keys) (putEach entries keys) := by
  induction keys generalizing m entries with
  | nil => exact h
  | cons k keys ih => exact ih (h.put k 1)

end Enumerates

/-! ### The order of insertion -/

/-- Counting lists every key where it first occurred. -/
theorem keys_putEach (entries : List (κ × ℕ)) (keys : List κ) :
    (putEach entries keys).map Prod.fst =
      entries.map Prod.fst ++ (keys.removeAll (entries.map Prod.fst)).eraseDups := by
  induction keys generalizing entries with
  | nil => simp
  | cons k keys ih =>
      rw [putEach_cons, ih, keys_put, List.cons_removeAll]
      by_cases hmem : k ∈ entries.map Prod.fst
      · rw [if_pos hmem, if_neg]
        simpa using hmem
      · rw [if_neg hmem, if_pos (by simpa using hmem), List.eraseDups_cons, List.append_assoc]
        rw [List.singleton_append]
        congr 3
        rw [List.removeAll, List.removeAll, List.filter_filter]
        apply List.filter_congr
        intro x _
        rw [Bool.eq_iff_iff]
        simp [and_comm]

/-- A count from nothing leaves the distinct keys in the order of their first occurrence, each with
    its number of occurrences. -/
theorem putEach_nil_eq (keys : List κ) :
    putEach [] keys = keys.eraseDups.map fun k => (k, keys.count k) := by
  have henum := Enumerates.nil.putEach keys
  have hkeys : (putEach [] keys).map Prod.fst = keys.eraseDups := by
    rw [keys_putEach, List.map_nil, List.removeAll_nil, List.nil_append]
  rw [henum.eq_map_keys, hkeys]
  apply List.map_congr_left
  intro k _
  rw [lookup_countAll, getD_grow, Multiset.coe_count]
  exact congrArg (Prod.mk k) (Nat.zero_add _)

end CountMaps
