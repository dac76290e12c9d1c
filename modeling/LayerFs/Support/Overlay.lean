import LayerFs.Support.SortedMap

/-!
# Rows over rows

Lists of rows in key order laid over one another: the upper row of a key hides the lower one.

* `Ascending.ext` — rows in key order are known by their lookups.
-/

namespace LayerFs

open List

variable {K V : Type} [LinearOrder K]
variable {key : K} {row : K × V} {rows : List (K × V)} {layers : List (List (K × V))}

/-! ## Rows by their lookups -/

/-- **Rows in key order are known by their lookups.** -/
theorem Ascending.ext {others : List (K × V)} (h : Ascending rows) (h' : Ascending others)
    (hlookup : ∀ key, rows.lookup key = others.lookup key) : rows = others := by
  have hperm : rows.Perm others := by
    refine (perm_ext_iff_of_nodup (List.Nodup.of_map Prod.fst h.keys_nodup)
      (List.Nodup.of_map Prod.fst h'.keys_nodup)).mpr fun row => ?_
    rw [h.mem_iff_lookup, h'.mem_iff_lookup, hlookup]
  exact hperm.eq_of_pairwise (fun a c _ _ hac hca => absurd hac (lt_asymm hca)) h h'

theorem Ascending.tail {row : K × V} {rows : List (K × V)} (h : Ascending (row :: rows)) :
    Ascending rows := (ascending_cons.mp h).2

theorem lookup_eq_none_of_lt (h : ∀ row ∈ rows, key < row.1) : rows.lookup key = none := by
  rw [lookup_eq_none_iff]
  intro hkey
  obtain ⟨row, hrow, rfl⟩ := mem_map.mp hkey
  exact lt_irrefl _ (h row hrow)

theorem Ascending.head_le {first : K × V} (h : Ascending (first :: rows))
    (hrow : row ∈ first :: rows) : first.1 ≤ row.1 := by
  rcases mem_cons.mp hrow with rfl | hrow
  · exact le_refl _
  · exact ((ascending_cons.mp h).1 row hrow).le

/-! ## One list over another -/

/-- The rows of both lists; the upper one of a key hides the lower. -/
def overlayRows (upper lower : List (K × V)) : List (K × V) :=
  upper.foldl (fun rows row => SortedMap.insertEntries row.1 row.2 rows) lower

variable {upper lower : List (K × V)} {a c : K × V}

theorem overlayRows_entries (upper lower : SortedMap K V) :
    (upper.entries.foldl (fun m row => m.insert row.1 row.2) lower).entries =
      overlayRows upper.entries lower.entries := by
  rw [overlayRows]
  generalize upper.entries = rows
  induction rows generalizing lower with
  | nil => rfl
  | cons row rest ih => exact ih (lower.insert row.1 row.2)

theorem ascending_overlayRows (hlower : Ascending lower) : Ascending (overlayRows upper lower) := by
  induction upper generalizing lower with
  | nil => exact hlower
  | cons row rest ih => exact ih (SortedMap.insertEntries_sorted hlower)

/-- **What lies on top answers.** -/
theorem lookup_overlayRows (hupper : Ascending upper) (hlower : Ascending lower) (key : K) :
    (overlayRows upper lower).lookup key = (upper.lookup key).or (lower.lookup key) := by
  induction upper generalizing lower with
  | nil => rfl
  | cons row rest ih =>
    have hinsert : (SortedMap.insertEntries row.1 row.2 lower).lookup key =
        if key = row.1 then some row.2 else lower.lookup key :=
      SortedMap.get?_insert (m := ⟨lower, hlower⟩)
    have hrest := ih hupper.tail (SortedMap.insertEntries_sorted (k := row.1) (v := row.2) hlower)
    rw [overlayRows, foldl_cons]
    refine hrest.trans ?_
    rw [hinsert, lookup_cons_eq]
    split_ifs with hkey
    · -- the first key does not return in the rest
      rw [hkey, lookup_eq_none_of_lt (ascending_cons.mp hupper).1, Option.none_or, Option.some_or]
    · rfl

theorem overlayRows_nil_right (hupper : Ascending upper) : overlayRows upper [] = upper :=
  (ascending_overlayRows ascending_nil).ext hupper fun key => by
    rw [lookup_overlayRows hupper ascending_nil, lookup_nil, Option.or_none]

theorem mem_overlayRows (hupper : Ascending upper) (hlower : Ascending lower)
    (h : row ∈ overlayRows upper lower) : row ∈ upper ∨ row ∈ lower := by
  obtain ⟨key, value⟩ := row
  rw [(ascending_overlayRows hlower).mem_iff_lookup, lookup_overlayRows hupper hlower,
    Option.or_eq_some_iff] at h
  rcases h with h | ⟨-, h⟩
  · exact .inl (mem_of_lookup h)
  · exact .inr (mem_of_lookup h)

theorem ascending_cons_overlayRows (hupper : Ascending upper) (hlower : Ascending lower)
    (ha : ∀ row ∈ upper, a.1 < row.1) (ha' : ∀ row ∈ lower, a.1 < row.1) :
    Ascending (a :: overlayRows upper lower) :=
  ascending_cons.mpr ⟨fun row hrow => (mem_overlayRows hupper hlower hrow).elim (ha row) (ha' row),
    ascending_overlayRows hlower⟩

theorem overlayRows_cons_lt (hupper : Ascending (a :: upper)) (hlower : Ascending lower)
    (h : ∀ row ∈ lower, a.1 < row.1) :
    overlayRows (a :: upper) lower = a :: overlayRows upper lower := by
  refine (ascending_overlayRows hlower).ext (ascending_cons_overlayRows hupper.tail hlower
    (ascending_cons.mp hupper).1 h) fun key => ?_
  rw [lookup_overlayRows hupper hlower, lookup_cons_eq, lookup_cons_eq,
    lookup_overlayRows hupper.tail hlower]
  split_ifs <;> rfl

theorem overlayRows_cons_same (hupper : Ascending (a :: upper)) (hlower : Ascending (c :: lower))
    (h : a.1 = c.1) : overlayRows (a :: upper) (c :: lower) = a :: overlayRows upper lower := by
  refine (ascending_overlayRows hlower).ext (ascending_cons_overlayRows hupper.tail hlower.tail
    (ascending_cons.mp hupper).1 (h ▸ (ascending_cons.mp hlower).1)) fun key => ?_
  rw [lookup_overlayRows hupper hlower, lookup_cons_eq, lookup_cons_eq, lookup_cons_eq,
    lookup_overlayRows hupper.tail hlower.tail, h]
  split_ifs <;> rfl

theorem overlayRows_cons_gt (hupper : Ascending upper) (hlower : Ascending (c :: lower))
    (h : ∀ row ∈ upper, c.1 < row.1) :
    overlayRows upper (c :: lower) = c :: overlayRows upper lower := by
  refine (ascending_overlayRows hlower).ext (ascending_cons_overlayRows hupper hlower.tail
    h (ascending_cons.mp hlower).1) fun key => ?_
  rw [lookup_overlayRows hupper hlower, lookup_cons_eq, lookup_cons_eq,
    lookup_overlayRows hupper hlower.tail]
  split_ifs with hkey
  · rw [hkey, lookup_eq_none_of_lt h, Option.none_or]
  · rfl

theorem length_overlayRows_le : (overlayRows upper lower).length ≤ upper.length + lower.length := by
  induction upper generalizing lower with
  | nil => exact (Nat.zero_add _).ge
  | cons row rest ih =>
    have hinsert : (SortedMap.insertEntries row.1 row.2 lower).length ≤ lower.length + 1 := by
      induction lower with
      | nil => exact Nat.le_refl _
      | cons other lower ih =>
        rw [SortedMap.insertEntries]
        split_ifs
        · exact Nat.le_refl _
        · exact Nat.le_succ _
        · exact Nat.succ_le_succ ih
    have hrest := @ih (SortedMap.insertEntries row.1 row.2 lower)
    rw [length_cons]
    calc (overlayRows (row :: rest) lower).length
        ≤ rest.length + (SortedMap.insertEntries row.1 row.2 lower).length := hrest
      _ ≤ rest.length + 1 + lower.length := by omega

theorem overlayRows_assoc {bottom : List (K × V)} (hupper : Ascending upper)
    (hlower : Ascending lower) (hbottom : Ascending bottom) :
    overlayRows (overlayRows upper lower) bottom = overlayRows upper (overlayRows lower bottom) := by
  refine (ascending_overlayRows hbottom).ext
    (ascending_overlayRows (ascending_overlayRows hbottom)) fun key => ?_
  rw [lookup_overlayRows (ascending_overlayRows hlower) hbottom, lookup_overlayRows hupper hlower,
    lookup_overlayRows hupper (ascending_overlayRows hbottom), lookup_overlayRows hlower hbottom,
    Option.or_assoc]

/-! ## Any number of lists -/

def overlayAll (layers : List (List (K × V))) : List (K × V) := layers.foldr overlayRows []

theorem ascending_overlayAll : Ascending (overlayAll layers) := by
  induction layers with
  | nil => exact ascending_nil
  | cons rows layers ih => exact ascending_overlayRows ih

theorem lookup_overlayAll (h : ∀ rows ∈ layers, Ascending rows) (key : K) :
    (overlayAll layers).lookup key = layers.findSome? fun rows => rows.lookup key := by
  induction layers with
  | nil => rfl
  | cons rows layers ih =>
    rw [forall_mem_cons] at h
    rw [overlayAll, foldr_cons, findSome?_cons]
    refine (lookup_overlayRows h.1 ascending_overlayAll key).trans ?_
    rw [ih h.2]
    cases rows.lookup key <;> rfl

theorem mem_overlayAll (h : ∀ rows ∈ layers, Ascending rows) (hrow : row ∈ overlayAll layers) :
    ∃ rows ∈ layers, row ∈ rows := by
  obtain ⟨key, value⟩ := row
  rw [ascending_overlayAll.mem_iff_lookup, lookup_overlayAll h, findSome?_eq_some_iff] at hrow
  obtain ⟨before, rows, after, rfl, hlookup, -⟩ := hrow
  exact ⟨rows, mem_append_right _ mem_cons_self, mem_of_lookup hlookup⟩

theorem overlayAll_append {above below : List (List (K × V))}
    (h : ∀ rows ∈ above, Ascending rows) :
    overlayAll (above ++ below) = overlayRows (overlayAll above) (overlayAll below) := by
  induction above with
  | nil => rfl
  | cons rows above ih =>
    rw [forall_mem_cons] at h
    rw [cons_append, overlayAll, foldr_cons]
    refine (congrArg (overlayRows rows) (ih h.2)).trans ?_
    exact (overlayRows_assoc h.1 ascending_overlayAll ascending_overlayAll).symm

theorem lookup_filter_ne {other : K} (h : Ascending rows) (hne : key ≠ other) :
    (rows.filter fun row => row.1 ≠ other).lookup key = rows.lookup key := by
  refine Option.ext fun value => ?_
  have hfilter : Ascending (rows.filter fun row => row.1 ≠ other) := h.sublist filter_sublist
  rw [← hfilter.mem_iff_lookup, ← h.mem_iff_lookup, mem_filter, decide_eq_true_eq]
  exact and_iff_left hne

/-- **The first of the rows with the least key** is the first of the overlay; without it the other
rows stay as they are. -/
theorem overlayAll_least {before after : List (List (K × V))} {rest : List (K × V)}
    (h : ∀ rows ∈ before ++ (row :: rest) :: after, Ascending rows)
    (hbefore : ∀ rows ∈ before, ∀ other ∈ rows, row.1 < other.1)
    (hafter : ∀ rows ∈ after, ∀ other ∈ rows, row.1 ≤ other.1) :
    overlayAll (before ++ (row :: rest) :: after) =
      row :: (overlayAll (before ++ rest :: after)).filter fun other => other.1 ≠ row.1 := by
  have hrow : Ascending (row :: rest) := h _ (mem_append_right _ mem_cons_self)
  have hrest : ∀ rows ∈ before ++ rest :: after, Ascending rows := by
    intro rows hrows
    rcases mem_append.mp hrows with hrows | hrows
    · exact h rows (mem_append_left _ hrows)
    · rcases mem_cons.mp hrows with rfl | hrows
      · exact hrow.tail
      · exact h rows (mem_append_right _ (mem_cons_of_mem _ hrows))
  have hfilter : Ascending ((overlayAll (before ++ rest :: after)).filter fun other =>
      other.1 ≠ row.1) := ascending_overlayAll.sublist filter_sublist
  have habove : ∀ other ∈ (overlayAll (before ++ rest :: after)).filter fun other =>
      other.1 ≠ row.1, row.1 < other.1 := by
    intro other hother
    rw [mem_filter, decide_eq_true_eq] at hother
    obtain ⟨rows, hrows, hmem⟩ := mem_overlayAll hrest hother.1
    rcases mem_append.mp hrows with hrows | hrows
    · exact hbefore rows hrows other hmem
    · rcases mem_cons.mp hrows with rfl | hrows
      · exact (ascending_cons.mp hrow).1 other hmem
      · exact lt_of_le_of_ne (hafter rows hrows other hmem) (Ne.symm hother.2)
  refine ascending_overlayAll.ext (ascending_cons.mpr ⟨habove, hfilter⟩) fun key => ?_
  rw [lookup_overlayAll h, lookup_cons_eq, findSome?_append, findSome?_cons,
    lookup_cons_eq]
  split_ifs with hkey
  · have hnone : before.findSome? (fun rows => rows.lookup key) = none := by
      rw [findSome?_eq_none_iff]
      exact fun rows hrows => lookup_eq_none_of_lt (hkey ▸ hbefore rows hrows)
    rw [hnone, Option.none_or]
  · rw [lookup_filter_ne ascending_overlayAll hkey, lookup_overlayAll hrest, findSome?_append,
      findSome?_cons]

end LayerFs
