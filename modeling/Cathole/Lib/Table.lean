import Mathlib.Data.List.AList
import Mathlib.Tactic

/-!
# Finite tables

A hash map whose iteration order nobody observes is an `AList` with one value
type. Lookup, insertion and removal are Mathlib's; this file adds what a
bounded, expiring map needs on top of them: the number of entries and the
entries a predicate keeps.

A map that is iterated in the order of its keys is an `OrderedMap`, the list of
its entries in that order.
-/

abbrev Table (κ : Type) (ν : Type) := AList fun _ : κ => ν

namespace AList

variable {κ ν : Type} {t : Table κ ν} {keep : κ → ν → Bool}

def size (t : Table κ ν) : Nat := t.entries.length

/-- Drop every entry `keep` refuses, leaving the others as they are. -/
def retain (keep : κ → ν → Bool) (t : Table κ ν) : Table κ ν where
  entries := t.entries.filter fun e => keep e.1 e.2
  nodupKeys := t.nodupKeys.sublist List.filter_sublist

theorem size_eq_length_keys : t.size = t.keys.length := by
  simp [size, AList.keys, List.keys]

theorem size_retain_le : (t.retain keep).size ≤ t.size :=
  List.length_filter_le _ _

variable [DecidableEq κ]

theorem mem_entries_iff {k : κ} {v : ν} : (⟨k, v⟩ : (_ : κ) × ν) ∈ t.entries ↔
    t.lookup k = some v := by
  rw [← Option.mem_def, AList.mem_lookup_iff]

theorem mem_of_lookup {k : κ} {v : ν} (h : t.lookup k = some v) : k ∈ t :=
  AList.lookup_isSome.mp (by simp [h])

theorem lookup_retain_eq_some {k : κ} {v : ν} :
    (t.retain keep).lookup k = some v ↔ t.lookup k = some v ∧ keep k v = true := by
  rw [← mem_entries_iff, ← mem_entries_iff]
  exact List.mem_filter

theorem lookup_insert_eq (k k' : κ) (v : ν) :
    (t.insert k v).lookup k' = if k' = k then some v else t.lookup k' := by
  split
  · rename_i h
    subst h
    exact AList.lookup_insert t
  · rename_i h
    exact AList.lookup_insert_ne h

theorem entries_perm_erase {k : κ} {v : ν} (h : t.lookup k = some v) :
    t.entries.Perm (⟨k, v⟩ :: (t.erase k).entries) := by
  obtain ⟨v', front, back, -, hentries, herase⟩ := List.exists_of_kerase (mem_of_lookup h)
  have hv : v' = v := by
    have hmem : (⟨k, v'⟩ : (_ : κ) × ν) ∈ t.entries := by
      rw [hentries]
      exact List.mem_append_right _ List.mem_cons_self
    exact Option.some.inj ((mem_entries_iff.mp hmem).symm.trans h)
  subst hv
  have hrest : (t.erase k).entries = front ++ back := herase
  rw [hentries, hrest]
  exact List.perm_middle

theorem lookup_erase_eq (k k' : κ) :
    (t.erase k).lookup k' = if k' = k then none else t.lookup k' := by
  split
  · rename_i h
    subst h
    exact AList.lookup_erase _ t
  · rename_i h
    exact AList.lookup_erase_ne h

theorem erase_insert (k : κ) (v : ν) : (t.insert k v).erase k = t.erase k := by
  apply AList.ext
  exact List.kerase_cons_eq rfl

theorem size_insert_of_notMem {k : κ} {v : ν} (h : k ∉ t) : (t.insert k v).size = t.size + 1 := by
  rw [size, AList.entries_insert_of_notMem h]
  rfl

theorem size_insert_of_mem {k : κ} {v : ν} (h : k ∈ t) : (t.insert k v).size = t.size := by
  have hk : k ∈ t.keys := AList.mem_keys.mp h
  have hpos : 0 < t.keys.length := List.length_pos_of_mem hk
  rw [size_eq_length_keys, size_eq_length_keys, AList.keys_insert, List.length_cons,
    List.length_erase_of_mem hk]
  omega

theorem size_erase_le (k : κ) : (t.erase k).size ≤ t.size :=
  (List.kerase_sublist k t.entries).length_le

/-- A table whose values are distinct keys of another is no larger. -/
theorem size_le_of_values {μ : Type} {t : Table κ ν} {u : Table ν μ} [DecidableEq ν]
    (hmem : ∀ k v, t.lookup k = some v → v ∈ u)
    (hinj : ∀ k k' v, t.lookup k = some v → t.lookup k' = some v → k = k') : t.size ≤ u.size := by
  have hnodup : (t.entries.map (·.2)).Nodup := by
    refine List.Nodup.map_on ?_ (List.NodupKeys.nodup t.nodupKeys)
    rintro ⟨k, v⟩ he ⟨k', v'⟩ he' hv
    obtain rfl : v = v' := hv
    rw [hinj k k' v (mem_entries_iff.mp he) (mem_entries_iff.mp he')]
  have hsub : t.entries.map (·.2) ⊆ u.keys := by
    intro v hv
    obtain ⟨⟨k, v'⟩, he, rfl⟩ := List.mem_map.mp hv
    exact AList.mem_keys.mp (hmem k v' (mem_entries_iff.mp he))
  have hle := (List.subperm_of_subset hnodup hsub).length_le
  rwa [List.length_map, ← size_eq_length_keys] at hle

end AList

structure OrderedMap (κ ν : Type) [LinearOrder κ] where
  entries : List (κ × ν)
  sorted : (entries.map Prod.fst).Pairwise (· < ·)
  deriving DecidableEq

namespace OrderedMap

variable {κ ν : Type} [LinearOrder κ] {m : OrderedMap κ ν}

def get (m : OrderedMap κ ν) (k : κ) : Option ν := (m.entries.find? (·.1 = k)).map (·.2)

def values (m : OrderedMap κ ν) : List ν := m.entries.map (·.2)

def size (m : OrderedMap κ ν) : Nat := m.entries.length

@[simp] theorem length_values : m.values.length = m.size := List.length_map ..

theorem getElem?_values {i : Nat} {v : ν} :
    m.values[i]? = some v ↔ ∃ k, m.entries[i]? = some (k, v) := by
  rw [values, List.getElem?_map, Option.map_eq_some_iff]
  constructor
  · rintro ⟨⟨k, v⟩, h, rfl⟩
    exact ⟨k, h⟩
  · rintro ⟨k, h⟩
    exact ⟨(k, v), h, rfl⟩

theorem nodup_keys : (m.entries.map Prod.fst).Nodup := m.sorted.imp fun h => h.ne

theorem get_eq_some_iff {k : κ} {v : ν} : m.get k = some v ↔ (k, v) ∈ m.entries := by
  unfold get
  constructor
  · intro h
    obtain ⟨⟨k', v'⟩, hfind, rfl⟩ := Option.map_eq_some_iff.mp h
    obtain rfl : k' = k := by simpa using List.find?_some hfind
    exact List.mem_of_find?_eq_some hfind
  · intro hmem
    cases hfind : m.entries.find? (·.1 = k) with
    | none =>
      have hno := List.find?_eq_none.mp hfind (k, v) hmem
      simp at hno
    | some e =>
      have hkey : e.1 = k := by simpa using List.find?_some hfind
      have he := List.inj_on_of_nodup_map nodup_keys (List.mem_of_find?_eq_some hfind) hmem hkey
      rw [he]
      rfl

end OrderedMap
