import LayerFs.Support.SortedMap

/-!
# Patching ordered rows

Rows in key order, changed by a list of final values in key order: `some v` sets a key and
`none` removes it.

* `patch` — the one-pass merge: rows before a change's key pass through, the row with the
  change's key gives way to it.
-/

namespace LayerFs

open List

variable {K V : Type} [LinearOrder K]
variable {k : K} {changes : List (K × Option V)} {base : List (K × V)}

def dropKey (k : K) : List (K × V) → List (K × V)
  | [] => []
  | row :: rest => if row.1 = k then rest else row :: rest

def patch : List (K × V) → List (K × Option V) → List (K × V)
  | base, [] => base
  | base, (k, value) :: changes =>
    base.takeWhile (fun row => row.1 < k) ++ (value.map (k, ·)).toList
      ++ patch (dropKey k (base.dropWhile fun row => row.1 < k)) changes

theorem takeWhile_lt_eq_filter (h : Ascending base) :
    (base.takeWhile fun row => row.1 < k) = base.filter fun row => row.1 < k := by
  induction base with
  | nil => rfl
  | cons row rest ih =>
    rw [ascending_cons] at h
    rw [takeWhile_cons, filter_cons, ih h.2]
    split_ifs with hlt
    · rfl
    · refine (filter_eq_nil_iff.mpr fun r hr => ?_).symm
      have := h.1 r hr
      simp only [decide_eq_true_eq, not_lt] at hlt ⊢
      exact le_of_lt (lt_of_le_of_lt hlt this)

theorem dropKey_eq_filter (h : Ascending base) :
    dropKey k (base.dropWhile fun row => row.1 < k) = base.filter fun row => k < row.1 := by
  induction base with
  | nil => rfl
  | cons row rest ih =>
    rw [ascending_cons] at h
    have hrest : k ≤ row.1 → (rest.filter fun r => k < r.1) = rest := fun hk =>
      filter_eq_self.mpr fun r hr => by simpa using lt_of_le_of_lt hk (h.1 r hr)
    rw [dropWhile_cons, filter_cons]
    rcases lt_trichotomy row.1 k with hlt | heq | hgt
    · simp [hlt, not_lt_of_gt hlt, ih h.2]
    · simp [heq, dropKey, hrest heq.ge]
    · simp [not_lt_of_gt hgt, hgt, dropKey, hgt.ne', hrest hgt.le]

theorem patch_cons {value : Option V} (h : Ascending base) :
    patch base ((k, value) :: changes)
      = (base.filter fun row => row.1 < k) ++ (value.map (k, ·)).toList
        ++ patch (base.filter fun row => k < row.1) changes := by
  rw [patch, takeWhile_lt_eq_filter h, dropKey_eq_filter h]

theorem mem_keys_patch :
    ∀ {base : List (K × V)}, Ascending base → k ∈ (patch base changes).map Prod.fst →
      k ∈ base.map Prod.fst ∨ k ∈ changes.map Prod.fst := by
  induction changes with
  | nil =>
    intro base _ hk
    exact .inl hk
  | cons change rest ih =>
    obtain ⟨key, value⟩ := change
    intro base hbase hk
    rw [patch_cons hbase, map_append, map_append, mem_append, mem_append] at hk
    rcases hk with (hk | hk) | hk
    · exact .inl ((filter_sublist.map Prod.fst).subset hk)
    · cases value with
      | none => simp at hk
      | some v => exact .inr (mem_cons.mpr (.inl (by simpa using hk)))
    · rcases ih (hbase.filter _) hk with hk | hk
      · exact .inl ((filter_sublist.map Prod.fst).subset hk)
      · exact .inr (mem_cons_of_mem _ hk)

/-- **Patched rows are in key order.** -/
theorem patch_ascending (hchanges : Ascending changes) :
    ∀ {base : List (K × V)}, Ascending base → Ascending (patch base changes) := by
  induction changes with
  | nil => exact fun h => h
  | cons change rest ih =>
    obtain ⟨key, value⟩ := change
    intro base hbase
    rw [ascending_cons] at hchanges
    -- everything behind the change has a larger key
    have hpast : ∀ r ∈ patch (base.filter fun row => key < row.1) rest, key < r.1 := by
      intro r hr
      rcases mem_keys_patch (hbase.filter _) (mem_map_of_mem hr) with hk | hk
      · obtain ⟨b, hb, hbk⟩ := mem_map.mp hk
        rw [← hbk]
        simpa using (mem_filter.mp hb).2
      · obtain ⟨c, hc, hck⟩ := mem_map.mp hk
        rw [← hck]
        exact hchanges.1 c hc
    have hleft : ∀ r ∈ base.filter (fun row => row.1 < key), r.1 < key := fun r hr => by
      simpa using (mem_filter.mp hr).2
    have hrest := ih hchanges.2 (hbase.filter fun row => key < row.1)
    rw [patch_cons hbase]
    cases value with
    | none =>
      rw [Option.map_none, Option.toList_none, append_nil]
      exact pairwise_append.mpr ⟨hbase.filter _, hrest,
        fun a ha b hb => lt_trans (hleft a ha) (hpast b hb)⟩
    | some v =>
      rw [Option.map_some, Option.toList_some, append_assoc, singleton_append]
      refine pairwise_append.mpr ⟨hbase.filter _, ascending_cons.mpr ⟨hpast, hrest⟩, ?_⟩
      rintro a ha b (_ | ⟨_, hb⟩)
      · exact hleft a ha
      · exact lt_trans (hleft a ha) (hpast b hb)

theorem lookup_filter {rows : List (K × V)} {p : K → Bool} :
    (rows.filter fun row => p row.1).lookup k = if p k then rows.lookup k else none := by
  induction rows with
  | nil => simp
  | cons row rest ih =>
    rw [filter_cons, lookup_cons_eq]
    by_cases hk : k = row.1
    · subst hk
      by_cases hp : p row.1
      · rw [if_pos hp, if_pos hp, lookup_cons_eq, if_pos rfl, if_pos rfl]
      · rw [if_neg hp, if_neg hp, ih, if_neg hp]
    · rw [if_neg hk, ← ih]
      by_cases hp : p row.1
      · rw [if_pos hp, lookup_cons_eq, if_neg hk]
      · rw [if_neg hp]

/-- **What a patched key is**: its stated value, or its base value. -/
theorem lookup_patch (hchanges : Ascending changes) :
    ∀ {base : List (K × V)}, Ascending base →
      (patch base changes).lookup k = (changes.lookup k).getD (base.lookup k) := by
  induction changes with
  | nil => exact fun _ => rfl
  | cons change rest ih =>
    obtain ⟨key, value⟩ := change
    intro base hbase
    rw [ascending_cons] at hchanges
    rw [patch_cons hbase, lookup_append, lookup_append,
      ih hchanges.2 (hbase.filter _), lookup_filter (p := fun x => x < key),
      lookup_filter (p := fun x => key < x), lookup_cons_eq]
    rcases lt_trichotomy k key with hlt | rfl | hgt
    · -- before the change no later change states the key
      have hnone : rest.lookup k = none := lookup_eq_none_iff.mpr fun hk => by
        obtain ⟨c, hc, rfl⟩ := mem_map.mp hk
        exact lt_asymm hlt (hchanges.1 c hc)
      cases value <;> cases hb : base.lookup k <;>
        simp [hlt, hlt.ne, not_lt_of_gt hlt, hnone, lookup_cons_eq]
    · have hnone : rest.lookup k = none := lookup_eq_none_iff.mpr fun hk => by
        obtain ⟨c, hc, hck⟩ := mem_map.mp hk
        exact absurd (hchanges.1 c hc) (by simp [hck])
      cases value <;> simp [hnone, lookup_cons_eq]
    · cases value <;> simp [hgt, hgt.ne', not_lt_of_gt hgt, lookup_cons_eq]

theorem mem_patch_iff {v : V} (hchanges : Ascending changes) (hbase : Ascending base) :
    (k, v) ∈ patch base changes
      ↔ (k, some v) ∈ changes ∨ changes.lookup k = none ∧ (k, v) ∈ base := by
  rw [(patch_ascending hchanges hbase).mem_iff_lookup, lookup_patch hchanges hbase,
    hchanges.mem_iff_lookup, hbase.mem_iff_lookup]
  cases changes.lookup k <;> simp

/-! ## Counting values -/

def occurs [DecidableEq V] (row : Option V) (v : V) : ℤ := if row = some v then 1 else 0

theorem count_split [DecidableEq V] (h : Ascending base) (v : V) :
    ((base.map Prod.snd).count v : ℤ) = ((base.filter fun row => row.1 < k).map Prod.snd).count v
      + occurs (base.lookup k) v + ((base.filter fun row => k < row.1).map Prod.snd).count v := by
  induction base with
  | nil => simp [occurs]
  | cons row rest ih =>
    rw [ascending_cons] at h
    have ih := ih h.2
    rw [map_cons, count_cons, lookup_cons_eq, filter_cons, filter_cons]
    rcases lt_trichotomy row.1 k with hlt | heq | hgt
    · simp only [hlt, not_lt_of_gt hlt, hlt.ne', decide_true, decide_false, if_true, if_false,
        map_cons, count_cons, Bool.false_eq_true]
      push_cast
      omega
    · -- the key's row is the head, and the key does not return
      have hnone : rest.lookup k = none := lookup_eq_none_iff.mpr fun hmem => by
        obtain ⟨r, hr, hrk⟩ := mem_map.mp hmem
        exact absurd (h.1 r hr) (by simp [hrk, heq])
      rw [hnone] at ih
      simp only [heq, lt_self_iff_false, decide_false, Bool.false_eq_true, if_false, if_true]
      simp only [occurs, reduceCtorEq, if_false, Option.some.injEq, beq_iff_eq] at ih ⊢
      push_cast
      split_ifs <;> omega
    · simp only [hgt, not_lt_of_gt hgt, hgt.ne, decide_true, decide_false, if_true, if_false,
        map_cons, count_cons, Bool.false_eq_true]
      push_cast
      omega

/-- **How often a value occurs in patched rows.** -/
theorem count_patch [DecidableEq V] (hchanges : Ascending changes) (v : V) :
    ∀ {base : List (K × V)}, Ascending base →
      (((patch base changes).map Prod.snd).count v : ℤ) = (base.map Prod.snd).count v
        + (changes.map fun change => occurs change.2 v - occurs (base.lookup change.1) v).sum := by
  induction changes with
  | nil =>
    intro base _
    simp [patch]
  | cons change rest ih =>
    obtain ⟨k, value⟩ := change
    intro base hbase
    rw [ascending_cons] at hchanges
    -- later changes look their names up behind this one
    have hbehind : (rest.map fun change => occurs change.2 v
          - occurs ((base.filter fun row => k < row.1).lookup change.1) v)
        = rest.map fun change => occurs change.2 v - occurs (base.lookup change.1) v := by
      refine map_congr_left fun change hmem => ?_
      rw [lookup_filter (p := fun x => k < x), if_pos (by simpa using hchanges.1 change hmem)]
    have hvalue : ((((value.map (k, ·)).toList).map Prod.snd).count v : ℤ) = occurs value v := by
      cases value <;> simp [occurs, count_cons]
    rw [patch_cons hbase, map_append, map_append, count_append, count_append,
      map_cons, sum_cons, count_split hbase v (k := k)]
    push_cast
    rw [ih hchanges.2 (hbase.filter _), hbehind, hvalue]
    omega

end LayerFs
