/-
Module: FreqUtility.Proofs.TableRuns
Layer: Proofs
Purpose: Runs of operations on the hash map. A run of insertions, additions and reservations from an empty
  table does to the table what it does to the list of entries in order of insertion, and so to the
  finite map that list enumerates; what it leaves is found again. The order of the entries, which the
  program iterates over, is the order of first insertion and owes nothing to the hash function.
Imports: FreqUtility.Proofs.HashTable
Trusted boundary: none (fully proved)
Main exports: TableOp, runOps, runOps_spec, hash_map_refines_finite_map
Open obligations: none
-/
import FreqUtility.Proofs.HashTable

namespace FreqUtility

namespace UnorderedDense

open CountMaps

/-- What the program does to a table. -/
inductive TableOp (κ : Type) where
  | emplaceOrIncrement (key : κ)
  | subscriptAdd (key : κ) (value : ℕ)
  | reserve (capa : ℕ)

variable {κ : Type} [DecidableEq κ]

/-- The operation on a table. -/
def TableOp.run (mixedHash : κ → UInt64) (t : Table κ) : TableOp κ → Except TableFault (Table κ)
  | .emplaceOrIncrement key => UnorderedDense.emplaceOrIncrement mixedHash t key
  | .subscriptAdd key value => UnorderedDense.subscriptAdd mixedHash t key value
  | .reserve capa => UnorderedDense.reserve mixedHash t capa

/-- The operation on the entries. -/
def TableOp.onEntries (entries : List (κ × ℕ)) : TableOp κ → List (κ × ℕ)
  | .emplaceOrIncrement key => put entries key 1
  | .subscriptAdd key value => put entries key value
  | .reserve _ => entries

/-- The operation on a finite map. -/
def TableOp.onMap (m : CountMap κ) : TableOp κ → CountMap κ
  | .emplaceOrIncrement key => bump m key 1
  | .subscriptAdd key value => bump m key value
  | .reserve _ => m

/-- Every reservation is for a ring that exists. -/
def Reservable (ops : List (TableOp κ)) : Prop :=
  ∀ capa, TableOp.reserve capa ∈ ops → capa ≤ maxReserve

/-- The operations one after the other. -/
def runOps (mixedHash : κ → UInt64) (t : Table κ) (ops : List (TableOp κ)) :
    Except TableFault (Table κ) :=
  ops.foldlM (TableOp.run mixedHash) t

variable {mixedHash : κ → UInt64} {t : Table κ}

theorem runOps_append (mixedHash : κ → UInt64) (t : Table κ) (ops ops' : List (TableOp κ)) :
    runOps mixedHash t (ops ++ ops') = runOps mixedHash t ops >>= fun t => runOps mixedHash t ops' :=
  List.foldlM_append

theorem length_le_length_onEntries (entries : List (κ × ℕ)) (op : TableOp κ) :
    entries.length ≤ (op.onEntries entries).length := by
  cases op with
  | emplaceOrIncrement key => exact length_le_length_put entries key 1
  | subscriptAdd key value => exact length_le_length_put entries key value
  | reserve capa => exact Nat.le_refl _

theorem length_le_length_foldl_onEntries (entries : List (κ × ℕ)) (ops : List (TableOp κ)) :
    entries.length ≤ (ops.foldl TableOp.onEntries entries).length := by
  induction ops generalizing entries with
  | nil => exact Nat.le_refl _
  | cons op ops ih => exact (length_le_length_onEntries entries op).trans (ih _)

/-- One operation on a sound table. -/
theorem TableOp.run_spec (h : Sound mixedHash t) (hmax : t.values.length + 2 ≤ 2 ^ 24)
    (op : TableOp κ) (hreserve : ∀ capa, op = .reserve capa → capa ≤ maxReserve) :
    ∃ t', op.run mixedHash t = .ok t' ∧ Sound mixedHash t' ∧ t'.values = op.onEntries t.values := by
  cases op with
  | emplaceOrIncrement key => exact emplaceOrIncrement_spec h hmax key
  | subscriptAdd key value => exact subscriptAdd_spec h hmax key value
  | reserve capa => exact reserve_spec h hmax (hreserve capa rfl)

/-- A run of operations on a sound table. -/
theorem runOps_spec {ops : List (TableOp κ)} (h : Sound mixedHash t) (hreserve : Reservable ops)
    (hmax : (ops.foldl TableOp.onEntries t.values).length + 2 ≤ 2 ^ 24) :
    ∃ t', runOps mixedHash t ops = .ok t' ∧ Sound mixedHash t' ∧
      t'.values = ops.foldl TableOp.onEntries t.values := by
  induction ops generalizing t with
  | nil => exact ⟨t, rfl, h, rfl⟩
  | cons op ops ih =>
      have hgrow := length_le_length_foldl_onEntries t.values (op :: ops)
      obtain ⟨t₁, hstep, hsound, hvalues⟩ := op.run_spec h (by omega)
        (fun capa heq => hreserve capa (heq ▸ List.mem_cons_self))
      rw [List.foldl_cons, ← hvalues] at hmax
      obtain ⟨t', hrun, hsound', hvalues'⟩ := ih hsound
        (fun capa hmem => hreserve capa (List.mem_cons_of_mem op hmem)) hmax
      refine ⟨t', ?_, hsound', ?_⟩
      · unfold runOps
        rw [List.foldlM_cons, hstep]
        exact hrun
      · rw [hvalues', hvalues, List.foldl_cons]

/-- The operations on the entries are those on the map they enumerate. -/
theorem enumerates_foldl_onEntries {m : CountMap κ} {entries : List (κ × ℕ)}
    (h : Enumerates m entries) (ops : List (TableOp κ)) :
    Enumerates (ops.foldl TableOp.onMap m) (ops.foldl TableOp.onEntries entries) := by
  induction ops generalizing m entries with
  | nil => exact h
  | cons op ops ih =>
      apply ih
      cases op with
      | emplaceOrIncrement key => exact h.put key 1
      | subscriptAdd key value => exact h.put key value
      | reserve capa => exact h

/-- What `find` points to in the entries of a map is the value of the key. -/
theorem lookup_eq_of_enumerates {m : CountMap κ} {entries : List (κ × ℕ)} (h : Enumerates m entries)
    (key : κ) :
    (((entries.map Prod.fst).idxOf? key).bind fun i => entries[i]?.map Prod.snd) = m.lookup key := by
  cases hidx : (entries.map Prod.fst).idxOf? key with
  | none =>
      rw [List.idxOf?_eq_none_iff, h.mem_keys_iff] at hidx
      exact (Finmap.lookup_eq_none.mpr hidx).symm
  | some i =>
      obtain ⟨hi, hget, -⟩ := List.idxOf?_eq_some_iff.mp hidx
      rw [List.length_map] at hi
      rw [List.getElem_map] at hget
      rw [Option.bind_some, List.getElem?_eq_getElem hi, Option.map_some]
      symm
      rw [← h.mem_iff, ← hget]
      exact List.getElem_mem hi

/-- For every hash function and every sequence of insertions, additions and reservations that leaves at
    most 2^24 - 2 keys: the table never faults and never throws, its entries are those of the finite map
    that the operations build, in the order of first insertion, and `find` of any key gives the value of
    that map, or the end for a key that was never inserted. -/
theorem hash_map_refines_finite_map (mixedHash : κ → UInt64) (ops : List (TableOp κ))
    (hreserve : Reservable ops) (hmax : (ops.foldl TableOp.onMap ∅).keys.card + 2 ≤ 2 ^ 24) :
    ∃ t, runOps mixedHash Table.empty ops = .ok t ∧
      t.values = ops.foldl TableOp.onEntries [] ∧
      Enumerates (ops.foldl TableOp.onMap ∅) t.values ∧
      ∀ key, ∃ found, doFind mixedHash t key = .ok found ∧
        (found.bind fun i => t.values[i]?.map Prod.snd) =
          (ops.foldl TableOp.onMap ∅).lookup key := by
  have henum := enumerates_foldl_onEntries Enumerates.nil ops
  have hlength := henum.length_eq
  obtain ⟨t, hrun, hsound, hvalues⟩ := runOps_spec (Sound.empty : Sound mixedHash Table.empty)
    hreserve (hlength ▸ hmax)
  change t.values = ops.foldl TableOp.onEntries [] at hvalues
  rw [← hvalues] at henum hlength
  refine ⟨t, hrun, hvalues, henum, ?_⟩
  intro key
  exact ⟨_, doFind_spec hsound (hlength ▸ hmax) key, lookup_eq_of_enumerates henum key⟩

/-- Three keys with one hash: reserved, counted, added to, and found again. -/
theorem hash_map_refines_three_keys :
    ∃ t, runOps (fun _ => 0) Table.empty [.reserve 10, .emplaceOrIncrement 3, .subscriptAdd 5 2,
        .emplaceOrIncrement 3, .emplaceOrIncrement 7] = .ok t ∧
      t.values = [(3, 2), (5, 2), (7, 1)] ∧
      ∃ found, doFind (fun _ => 0) t 5 = .ok found ∧
        (found.bind fun i => t.values[i]?.map Prod.snd) = some 2 := by
  obtain ⟨t, hrun, hvalues, -, hfind⟩ := hash_map_refines_finite_map (fun _ => 0)
    [.reserve 10, .emplaceOrIncrement 3, .subscriptAdd 5 2, .emplaceOrIncrement 3, .emplaceOrIncrement 7]
    (by simp [Reservable]; decide) (by decide +kernel)
  obtain ⟨found, hfound, hlookup⟩ := hfind 5
  exact ⟨t, hrun, hvalues.trans (by decide), found, hfound, hlookup.trans (by decide +kernel)⟩

end UnorderedDense

end FreqUtility
