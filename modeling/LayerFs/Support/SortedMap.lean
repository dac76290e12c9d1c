import Mathlib.Algebra.Order.BigOperators.Group.List
import Mathlib.Algebra.Order.Group.Nat
import Mathlib.Algebra.Order.Ring.Int
import Mathlib.Data.Finset.Card
import Mathlib.Data.List.Chain
import Mathlib.Data.List.Flatten

/-!
# Ordered maps

A finite map that keeps its entries in strictly increasing key order. The order is a field,
so a map with two entries for one key, or with entries out of order, cannot be built, and a
pass over `entries` is a pass in key order.

* `Ascending` — rows in strictly increasing key order; lookups and membership agree on them.
-/

namespace LayerFs

open List

variable {K V : Type} [LinearOrder K]
variable {row : K × V} {l rows : List (K × V)} {v' : V}

/-! ## Rows in key order -/

def Ascending (rows : List (K × V)) : Prop := rows.Pairwise fun a b => a.1 < b.1

instance (rows : List (K × V)) : Decidable (Ascending rows) := by
  unfold Ascending
  infer_instance

theorem ascending_nil : Ascending ([] : List (K × V)) := List.Pairwise.nil

theorem ascending_cons : Ascending (row :: rows) ↔ (∀ r ∈ rows, row.1 < r.1) ∧ Ascending rows :=
  pairwise_cons

theorem Ascending.keys_nodup (h : Ascending rows) : (rows.map Prod.fst).Nodup :=
  (pairwise_map.mpr h : (rows.map Prod.fst).Pairwise (· < ·)).imp ne_of_lt

theorem lookup_cons_eq {k : K} :
    (row :: rows).lookup k = if k = row.1 then some row.2 else rows.lookup k := by
  obtain ⟨k', v'⟩ := row
  rw [lookup_cons]
  by_cases hk : k = k'
  · simp [hk]
  · simp [hk, beq_false_of_ne hk]

theorem Ascending.mem_iff_lookup (h : Ascending rows) {k : K} {v : V} :
    (k, v) ∈ rows ↔ rows.lookup k = some v := by
  induction rows with
  | nil => simp
  | cons row rest ih =>
    obtain ⟨k', v'⟩ := row
    rw [ascending_cons] at h
    rw [lookup_cons_eq, mem_cons, ih h.2]
    by_cases hk : k = k'
    · subst hk
      have hnone : rest.lookup k ≠ some v := fun hv => lt_irrefl k (h.1 (k, v) ((ih h.2).mpr hv))
      simp [hnone, eq_comm]
    · simp [hk]

theorem mem_of_lookup {k : K} {v : V} (h : rows.lookup k = some v) : (k, v) ∈ rows := by
  induction rows with
  | nil => simp at h
  | cons row rest ih =>
    rw [lookup_cons_eq] at h
    split_ifs at h with hk
    · rw [hk, ← Option.some.inj h]
      exact mem_cons_self
    · exact mem_cons_of_mem _ (ih h)

theorem lookup_isSome_iff {k : K} : (rows.lookup k).isSome ↔ k ∈ rows.map Prod.fst := by
  induction rows with
  | nil => simp
  | cons row rest ih =>
    rw [lookup_cons_eq, map_cons, mem_cons, ← ih]
    by_cases hk : k = row.1 <;> simp [hk]

theorem lookup_eq_none_iff {k : K} : rows.lookup k = none ↔ k ∉ rows.map Prod.fst := by
  rw [← lookup_isSome_iff, Option.not_isSome_iff_eq_none]

/-! ## Maps -/

/-- A finite map whose entries stand in strictly increasing key order. -/
structure SortedMap (K V : Type) [LinearOrder K] where
  entries : List (K × V)
  sorted : Ascending entries

namespace SortedMap

def empty : SortedMap K V := ⟨[], ascending_nil⟩

def get? (m : SortedMap K V) (k : K) : Option V := m.entries.lookup k

def size (m : SortedMap K V) : ℕ := m.entries.length

def insertEntries (k : K) (v : V) : List (K × V) → List (K × V)
  | [] => [(k, v)]
  | e :: rest =>
    if k < e.1 then (k, v) :: e :: rest
    else if k = e.1 then (k, v) :: rest
    else e :: insertEntries k v rest

theorem mem_insertEntries {k : K} {v : V} {e : K × V} (h : e ∈ insertEntries k v l) :
    e = (k, v) ∨ e ∈ l := by
  induction l with
  | nil => simpa [insertEntries] using h
  | cons a rest ih =>
    rw [insertEntries] at h
    split_ifs at h <;> grind

theorem insertEntries_sorted {k : K} {v : V} (h : Ascending l) :
    Ascending (insertEntries k v l) := by
  induction l with
  | nil => simp [insertEntries, Ascending]
  | cons a rest ih =>
    rw [ascending_cons] at h
    rw [insertEntries]
    split_ifs with hlt heq
    · refine ascending_cons.mpr ⟨?_, ascending_cons.mpr h⟩
      rintro b (_ | ⟨_, hb⟩)
      · exact hlt
      · exact lt_trans hlt (h.1 b hb)
    · subst heq
      exact ascending_cons.mpr h
    · refine ascending_cons.mpr ⟨fun b hb => ?_, ih h.2⟩
      rcases mem_insertEntries hb with rfl | hb
      · exact lt_of_le_of_ne (not_lt.mp hlt) (Ne.symm heq)
      · exact h.1 b hb

def insert (m : SortedMap K V) (k : K) (v : V) : SortedMap K V :=
  ⟨insertEntries k v m.entries, insertEntries_sorted m.sorted⟩

def erase (m : SortedMap K V) (k : K) : SortedMap K V :=
  ⟨m.entries.filter fun entry => entry.1 ≠ k, m.sorted.sublist filter_sublist⟩

variable {m : SortedMap K V} {k k' : K} {v : V}

@[simp] theorem get?_empty : (empty : SortedMap K V).get? k = none := rfl

/-- **One key changes.** -/
@[simp] theorem get?_insert : (m.insert k v).get? k' = if k' = k then some v else m.get? k' := by
  obtain ⟨l, hl⟩ := m
  simp only [insert, get?]
  induction l with
  | nil => rw [insertEntries, lookup_cons_eq]
  | cons a rest ih =>
    rw [ascending_cons] at hl
    have hrest := ih hl.2
    rw [insertEntries]
    split_ifs with hlt heq hlook <;> simp only [lookup_cons_eq] <;> grind

theorem mem_entries_iff : (k, v) ∈ m.entries ↔ m.get? k = some v :=
  m.sorted.mem_iff_lookup

theorem get?_erase : (m.erase k).get? k' = if k' = k then none else m.get? k' := by
  refine Option.ext fun v => ?_
  rw [← mem_entries_iff, erase, mem_filter, mem_entries_iff]
  by_cases hk : k' = k <;> simp [hk]

theorem insert_perm_of_none (h : m.get? k = none) :
    (m.insert k v).entries.Perm ((k, v) :: m.entries) := by
  obtain ⟨l, hl⟩ := m
  simp only [get?, insert] at h ⊢
  clear hl
  induction l with
  | nil => exact .refl _
  | cons a rest ih =>
    rw [lookup_cons_eq] at h
    split_ifs at h with ha
    rw [insertEntries]
    split_ifs with hlt
    · exact .refl _
    · exact ((ih h).cons a).trans (.swap _ _ _)

theorem insert_perm_of_some (h : m.get? k = some v') :
    ((k, v') :: (m.insert k v).entries).Perm ((k, v) :: m.entries) := by
  obtain ⟨l, hl⟩ := m
  simp only [get?, insert] at h ⊢
  induction l with
  | nil => simp at h
  | cons a rest ih =>
    rw [ascending_cons] at hl
    rw [lookup_cons_eq] at h
    rw [insertEntries]
    split_ifs at h with ha
    · subst ha
      obtain rfl : a.2 = v' := Option.some.inj h
      rw [if_neg (lt_irrefl _), if_pos rfl]
      exact .swap _ _ _
    · have hlt : a.1 < k := hl.1 (k, v') (hl.2.mem_iff_lookup.mpr h)
      rw [if_neg (not_lt_of_gt hlt), if_neg ha]
      exact (List.Perm.swap _ _ _).trans (((ih hl.2 h).cons a).trans (.swap _ _ _))

theorem map_insert_of_get? {β : Type} {f : K × V → β} (h : m.get? k = some v')
    (hf : f (k, v) = f (k, v')) : (m.insert k v).entries.map f = m.entries.map f := by
  obtain ⟨l, hl⟩ := m
  simp only [get?, insert] at h ⊢
  induction l with
  | nil => simp at h
  | cons a rest ih =>
    rw [ascending_cons] at hl
    rw [lookup_cons_eq] at h
    rw [insertEntries]
    split_ifs at h with ha
    · subst ha
      obtain rfl : a.2 = v' := Option.some.inj h
      rw [if_neg (lt_irrefl _), if_pos rfl, map_cons, map_cons, hf]
    · have hlt : a.1 < k := hl.1 (k, v') (hl.2.mem_iff_lookup.mpr h)
      rw [if_neg (not_lt_of_gt hlt), if_neg ha, map_cons, map_cons, ih hl.2 h]

theorem foldl_insert_perm :
    ∀ {m : SortedMap K V}, (∀ e ∈ l, m.get? e.1 = none) → (l.map Prod.fst).Nodup →
      (l.foldl (fun m e => m.insert e.1 e.2) m).entries.Perm (l ++ m.entries) := by
  induction l with
  | nil => exact fun _ _ => .refl _
  | cons e rest ih =>
    intro m hnew hnodup
    rw [map_cons, nodup_cons] at hnodup
    have hrest : ∀ x ∈ rest, (m.insert e.1 e.2).get? x.1 = none := by
      intro x hx
      have hne : x.1 ≠ e.1 := fun h => hnodup.1 (h ▸ mem_map_of_mem hx)
      rw [get?_insert, if_neg hne]
      exact hnew x (mem_cons_of_mem _ hx)
    refine (ih hrest hnodup.2).trans ?_
    refine ((insert_perm_of_none (hnew e (by simp))).append_left rest).trans ?_
    exact perm_middle

theorem mem_keys_iff : k ∈ m.entries.map Prod.fst ↔ (m.get? k).isSome :=
  lookup_isSome_iff.symm

end SortedMap

/-! ## Keys -/

/-- Keys in order, each once (`sort_unstable` and `dedup`, or a `BTreeSet` and back). -/
def sortDedup (keys : List K) : List K :=
  (keys.foldl (fun set key => set.insert key ()) (SortedMap.empty : SortedMap K Unit)).entries.map
    Prod.fst

theorem get?_foldl_insert {keys : List K} {key : K} : ∀ {set : SortedMap K Unit},
    ((keys.foldl (fun set key => set.insert key ()) set).get? key).isSome ↔
      (set.get? key).isSome ∨ key ∈ keys := by
  induction keys with
  | nil =>
    intro set
    simp
  | cons other rest ih =>
    intro set
    rw [foldl_cons, ih, SortedMap.get?_insert, mem_cons]
    by_cases hkey : key = other <;> simp [hkey]

theorem mem_sortDedup {keys : List K} {key : K} : key ∈ sortDedup keys ↔ key ∈ keys := by
  rw [sortDedup, SortedMap.mem_keys_iff, get?_foldl_insert]
  simp

theorem sortDedup_ascending (keys : List K) : (sortDedup keys).Pairwise (· < ·) :=
  pairwise_map.mpr (SortedMap.sorted _)

end LayerFs
