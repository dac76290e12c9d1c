import Mathlib.Data.Finset.Card

/-!
# Finite maps over keys without an order

A hash map as a list of entries with distinct keys. Only lookups, the number of entries and sums
over the entries are observable, never their order.

* `AssocMap.insert`, `AssocMap.erase` — replace or remove the entry of one key.
-/

namespace LayerFs

open List

/-- A finite map: entries with distinct keys. -/
structure AssocMap (K V : Type) where
  /-- the entries, in no particular order -/
  entries : List (K × V)
  nodup : (entries.map Prod.fst).Nodup

namespace AssocMap

variable {K V : Type} [DecidableEq K]

def empty : AssocMap K V := ⟨[], nodup_nil⟩

def get? (m : AssocMap K V) (k : K) : Option V := m.entries.lookup k

def size (m : AssocMap K V) : ℕ := m.entries.length

def keySet (m : AssocMap K V) : Finset K := (m.entries.map Prod.fst).toFinset

def others (m : AssocMap K V) (k : K) : List (K × V) := m.entries.filter fun entry => entry.1 != k

def erase (m : AssocMap K V) (k : K) : AssocMap K V :=
  ⟨m.others k, m.nodup.sublist (filter_sublist.map Prod.fst)⟩

def insert (m : AssocMap K V) (k : K) (v : V) : AssocMap K V where
  entries := (k, v) :: m.others k
  nodup := by
    rw [map_cons, nodup_cons]
    refine ⟨fun hmem => ?_, (m.erase k).nodup⟩
    obtain ⟨entry, hentry, heq⟩ := mem_map.mp hmem
    rw [others, mem_filter, heq, bne_self_eq_false] at hentry
    cases hentry.2

def insertAll (m : AssocMap K V) (batch : List (K × V)) : AssocMap K V :=
  batch.foldl (fun m entry => m.insert entry.1 entry.2) m

variable {m : AssocMap K V} {k k' : K} {v : V}

theorem lookup_eq_none_of_not_mem {l : List (K × V)} (h : k ∉ l.map Prod.fst) :
    l.lookup k = none := by
  rw [List.lookup_eq_none_iff]
  intro entry hentry
  rw [bne_iff_ne]
  rintro rfl
  exact h (mem_map_of_mem hentry)

theorem lookup_filter_ne {l : List (K × V)} :
    (l.filter fun entry => entry.1 != k).lookup k' = if k' = k then none else l.lookup k' := by
  induction l with
  | nil => simp
  | cons entry rest ih =>
    obtain ⟨key, value⟩ := entry
    by_cases hkey : key = k
    · subst hkey
      rw [filter_cons_of_neg (by simp), ih, lookup_cons]
      by_cases hk : k' = key
      · simp [hk]
      · simp [beq_false_of_ne hk]
    · rw [filter_cons_of_pos (by simpa using hkey), lookup_cons, lookup_cons, ih]
      by_cases hk : k' = key
      · simp [hk, hkey]
      · simp [beq_false_of_ne hk]

@[simp] theorem get?_empty : (empty : AssocMap K V).get? k = none := rfl

@[simp] theorem get?_erase : (m.erase k).get? k' = if k' = k then none else m.get? k' :=
  lookup_filter_ne

@[simp] theorem get?_insert : (m.insert k v).get? k' = if k' = k then some v else m.get? k' := by
  rw [get?, insert, lookup_cons]
  by_cases hk : k' = k
  · simp [hk]
  · rw [beq_false_of_ne hk, others, lookup_filter_ne, if_neg hk]
    exact (if_neg hk).symm

theorem mem_entries_iff : (k, v) ∈ m.entries ↔ m.get? k = some v := by
  have key : ∀ l : List (K × V), (l.map Prod.fst).Nodup → ((k, v) ∈ l ↔ l.lookup k = some v) := by
    intro l
    induction l with
    | nil => simp
    | cons entry rest ih =>
      intro hnodup
      obtain ⟨key, value⟩ := entry
      rw [map_cons, nodup_cons] at hnodup
      rw [lookup_cons, mem_cons, ih hnodup.2]
      by_cases hk : k = key
      · subst hk
        simp [lookup_eq_none_of_not_mem hnodup.1, eq_comm]
      · simp [beq_false_of_ne hk, hk]
  exact key m.entries m.nodup

theorem mem_keySet : k ∈ m.keySet ↔ (m.get? k).isSome := by
  rw [keySet, mem_toFinset, mem_map, Option.isSome_iff_exists]
  constructor
  · rintro ⟨⟨key, value⟩, hmem, rfl⟩
    exact ⟨value, mem_entries_iff.mp hmem⟩
  · rintro ⟨value, hvalue⟩
    exact ⟨(k, value), mem_entries_iff.mpr hvalue, rfl⟩

theorem get?_eq_none_iff : m.get? k = none ↔ k ∉ m.keySet := by
  rw [mem_keySet, Option.not_isSome_iff_eq_none]

theorem erase_eq_self (h : m.get? k = none) : m.erase k = m := by
  have hentries : m.others k = m.entries := by
    refine filter_eq_self.mpr fun entry hentry => ?_
    rw [bne_iff_ne]
    rintro rfl
    rw [mem_entries_iff.mp hentry] at h
    cases h
  rcases m with ⟨entries, hnodup⟩
  simp only [erase, hentries]

theorem card_keySet : m.keySet.card = m.size := by
  rw [keySet, toFinset_card_of_nodup m.nodup, length_map, size]

@[simp] theorem keySet_insert : (m.insert k v).keySet = Insert.insert k m.keySet := by
  ext key
  rw [mem_keySet, get?_insert, Finset.mem_insert, mem_keySet]
  by_cases hk : key = k <;> simp [hk]

theorem keySet_insertAll {batch : List (K × V)} :
    (m.insertAll batch).keySet = m.keySet ∪ (batch.map Prod.fst).toFinset := by
  induction batch generalizing m with
  | nil => simp [insertAll]
  | cons entry rest ih =>
    rw [insertAll, foldl_cons, ← insertAll, ih, keySet_insert]
    ext key
    simp only [Finset.mem_union, Finset.mem_insert, map_cons, toFinset_cons]
    tauto

theorem get?_insertAll {keys : List K} {f : K → V} :
    (m.insertAll (keys.map fun key => (key, f key))).get? k =
      if k ∈ keys then some (f k) else m.get? k := by
  induction keys generalizing m with
  | nil => simp [insertAll]
  | cons key rest ih =>
    rw [map_cons, insertAll, foldl_cons, ← insertAll, ih, get?_insert]
    by_cases hk : k = key
    · simp [hk]
    · simp [hk]

theorem lookup_map_filter {β : Type} {key : β → K} {f : β → V} {p : β → Bool} {l : List β}
    (h : (l.map key).Nodup) :
    ((l.filter p).map fun b => (key b, f b)).lookup k =
      (l.find? fun b => decide (key b = k)).bind fun b => if p b then some (f b) else none := by
  induction l with
  | nil => rfl
  | cons b rest ih =>
    rw [map_cons, nodup_cons] at h
    by_cases hk : key b = k
    · -- no later element has this key
      have hrest : (rest.find? fun b => decide (key b = k)) = none := by
        rw [find?_eq_none]
        intro other hother hsame
        refine h.1 ?_
        rw [hk, ← of_decide_eq_true hsame]
        exact mem_map_of_mem hother
      rw [find?_cons_of_pos (by simpa using hk), Option.bind_some]
      by_cases hp : p b = true
      · rw [filter_cons_of_pos hp, map_cons, lookup_cons, if_pos hp, hk,
          beq_self_eq_true]
      · rw [filter_cons_of_neg hp, ih h.2, hrest, if_neg hp]
        rfl
    · rw [find?_cons_of_neg (by simpa using hk), ← ih h.2]
      by_cases hp : p b = true
      · rw [filter_cons_of_pos hp, map_cons, lookup_cons,
          beq_false_of_ne fun heq => hk heq.symm]
      · rw [filter_cons_of_neg hp]

theorem get?_insertAll_of_nodup {batch : List (K × V)} (h : (batch.map Prod.fst).Nodup) :
    (m.insertAll batch).get? k = (batch.lookup k).or (m.get? k) := by
  induction batch generalizing m with
  | nil => rfl
  | cons entry rest ih =>
    obtain ⟨key, value⟩ := entry
    rw [map_cons, nodup_cons] at h
    rw [insertAll, foldl_cons, ← insertAll, ih h.2, get?_insert, lookup_cons]
    by_cases hk : k = key
    · subst hk
      rw [lookup_eq_none_of_not_mem h.1, if_pos rfl, beq_self_eq_true]
      rfl
    · rw [if_neg hk, beq_false_of_ne hk]

end AssocMap

end LayerFs
