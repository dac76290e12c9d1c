import LayerFs.Support.SortedMap

/-!
# Merging layers of sorted rows

A view made of layers: the row of a key is that of the first layer that has one. `mergeLayers` walks
all layers at once, always at the least key any of them stands at, for a bounded number of keys.

* `mergeLayers_visits` — **what a bounded merge visits**: the least keys of the layers, in order, each
  with the value of its first layer.
* `visited_lt_of_dropped` — **a page as long as the bound is never passed**: no key the merge visits
  reaches a row the page leaves out.
-/

namespace LayerFs

open List

variable {K α : Type} [LinearOrder K]
variable {key other : K} {entry : K × Option α} {row : K × α} {rows : List (K × α)}
  {layers : List (List (K × α))} {n : ℕ}

/-! ## The merge -/

def leastKey (layers : List (List (K × α))) : Option K :=
  (layers.filterMap fun rows => rows.head?.map Prod.fst).min?

def headValue (key : K) : List (K × α) → Option α
  | [] => none
  | row :: _ => if row.1 = key then some row.2 else none

def past (key : K) : List (K × α) → List (K × α)
  | [] => []
  | row :: rows => if row.1 = key then rows else row :: rows

/-- What a bounded merge leaves: the keys it visited with their values, and the rows left. -/
structure Merged (K α : Type) where
  visited : List (K × Option α)
  rest : List (List (K × α))

def mergeLayers : ℕ → List (List (K × α)) → Merged K α
  | 0, layers => ⟨[], layers⟩
  | n + 1, layers =>
    match leastKey layers with
    | none => ⟨[], layers⟩
    | some key =>
      let merged := mergeLayers n (layers.map (past key))
      ⟨(key, layers.findSome? (headValue key)) :: merged.visited, merged.rest⟩

def resolve (layers : List (List (K × α))) (key : K) : Option α :=
  layers.findSome? fun rows => rows.lookup key

/-! ## One key -/

theorem leastKey_eq_none (h : leastKey layers = none) : ∀ rows ∈ layers, rows = [] := by
  intro rows hrows
  rw [leastKey, min?_eq_none_iff, filterMap_eq_nil_iff] at h
  have hhead := h rows hrows
  cases rows with
  | nil => rfl
  | cons row rows => cases hhead

theorem leastKey_eq_some (hsorted : ∀ rows ∈ layers, Ascending rows)
    (h : leastKey layers = some key) :
    (∃ rows ∈ layers, key ∈ rows.map Prod.fst) ∧ ∀ rows ∈ layers, ∀ row ∈ rows, key ≤ row.1 := by
  rw [leastKey, min?_eq_some_iff] at h
  obtain ⟨hmem, hle⟩ := h
  obtain ⟨rows, hrows, hhead⟩ := mem_filterMap.mp hmem
  refine ⟨⟨rows, hrows, ?_⟩, fun rows hrows row hrow => ?_⟩
  · obtain ⟨row, hrow, rfl⟩ := Option.map_eq_some_iff.mp hhead
    exact mem_map_of_mem (mem_of_head? hrow)
  · rcases rows with _ | ⟨first, rows⟩
    · cases hrow
    · have hfirst : key ≤ first.1 := hle first.1 (mem_filterMap.mpr ⟨_, hrows, rfl⟩)
      rcases mem_cons.mp hrow with rfl | hrow
      · exact hfirst
      · exact hfirst.trans ((ascending_cons.mp (hsorted _ hrows)).1 row hrow).le

theorem ascending_past (h : Ascending rows) : Ascending (past key rows) := by
  rcases rows with _ | ⟨row, rows⟩
  · exact h
  · rw [past]
    split_ifs
    · exact (ascending_cons.mp h).2
    · exact h

theorem mem_past (h : Ascending rows) (hle : ∀ row ∈ rows, key ≤ row.1) :
    row ∈ past key rows ↔ row ∈ rows ∧ key < row.1 := by
  rcases rows with _ | ⟨first, rows⟩
  · simp [past]
  · obtain ⟨hfirst, -⟩ := ascending_cons.mp h
    have hkey := hle first mem_cons_self
    rw [past]
    split_ifs with heq
    · refine ⟨fun hrow => ⟨mem_cons_of_mem _ hrow, heq ▸ hfirst row hrow⟩, fun hrow => ?_⟩
      rcases mem_cons.mp hrow.1 with rfl | hmem
      · exact absurd heq hrow.2.ne'
      · exact hmem
    · refine ⟨fun hrow => ⟨hrow, ?_⟩, fun hrow => hrow.1⟩
      have hlt : key < first.1 := lt_of_le_of_ne hkey fun h => heq h.symm
      rcases mem_cons.mp hrow with rfl | hmem
      · exact hlt
      · exact hlt.trans (hfirst row hmem)

theorem lookup_past (hne : other ≠ key) : (past key rows).lookup other = rows.lookup other := by
  rcases rows with _ | ⟨row, rows⟩
  · rfl
  · rw [past]
    split_ifs with heq
    · rw [lookup_cons_eq, if_neg fun h => hne (h.trans heq)]
    · rfl

theorem headValue_eq_lookup (h : Ascending rows) (hle : ∀ row ∈ rows, key ≤ row.1) :
    headValue key rows = rows.lookup key := by
  rcases rows with _ | ⟨row, rows⟩
  · rfl
  · rw [headValue, lookup_cons_eq]
    by_cases heq : row.1 = key
    · rw [if_pos heq, if_pos heq.symm]
    · rw [if_neg heq, if_neg fun h => heq h.symm, eq_comm, lookup_eq_none_iff]
      intro hmem
      obtain ⟨other, hother, rfl⟩ := mem_map.mp hmem
      have hlt := (ascending_cons.mp h).1 other hother
      exact absurd (hle row mem_cons_self) (not_le.mpr hlt)

theorem resolve_past (hne : other ≠ key) :
    resolve (layers.map (past key)) other = resolve layers other := by
  induction layers with
  | nil => rfl
  | cons rows layers ih =>
    simp only [resolve, map_cons, findSome?_cons, lookup_past hne]
    rcases rows.lookup other with _ | v
    · exact ih
    · rfl

theorem findSome?_headValue (hsorted : ∀ rows ∈ layers, Ascending rows)
    (hle : ∀ rows ∈ layers, ∀ row ∈ rows, key ≤ row.1) :
    layers.findSome? (headValue key) = resolve layers key := by
  induction layers with
  | nil => rfl
  | cons rows layers ih =>
    simp only [resolve, findSome?_cons, headValue_eq_lookup (hsorted rows mem_cons_self)
      (hle rows mem_cons_self)]
    rcases rows.lookup key with _ | v
    · exact ih (fun r hr => hsorted r (mem_cons_of_mem rows hr))
        fun r hr => hle r (mem_cons_of_mem rows hr)
    · rfl

/-! ## The whole merge -/

/-- **What a bounded merge visits.** -/
structure Visits (n : ℕ) (layers : List (List (K × α))) (merged : Merged K α) : Prop where
  ascending : Ascending merged.visited
  value : ∀ entry ∈ merged.visited, entry.2 = resolve layers entry.1
  present : ∀ entry ∈ merged.visited, ∃ rows ∈ layers, entry.1 ∈ rows.map Prod.fst
  /-- a row the merge does not visit is above every key it visits -/
  least : ∀ rows ∈ layers, ∀ row ∈ rows, row.1 ∈ merged.visited.map Prod.fst ∨
    ∀ entry ∈ merged.visited, entry.1 < row.1
  length : merged.visited.length ≤ n
  /-- the rows left are the rows not visited -/
  rest : (∀ rows ∈ merged.rest, rows = []) ↔
    ∀ rows ∈ layers, ∀ row ∈ rows, row.1 ∈ merged.visited.map Prod.fst
  done : merged.visited.length < n → ∀ rows ∈ merged.rest, rows = []

theorem Visits.nil (hdone : 0 < n → ∀ rows ∈ layers, rows = []) : Visits n layers ⟨[], layers⟩ := by
  refine ⟨ascending_nil, by simp, by simp, by simp, by simp, ?_, hdone⟩
  refine ⟨fun h rows hrows row hrow => ?_, fun h rows hrows => ?_⟩
  · rw [h rows hrows] at hrow
    cases hrow
  · refine eq_nil_iff_forall_not_mem.mpr fun row hrow => ?_
    simpa using h rows hrows row hrow

theorem Visits.cons {n : ℕ} {layers : List (List (K × α))} {key : K} {merged : Merged K α}
    (hsorted : ∀ rows ∈ layers, Ascending rows) (hleast : leastKey layers = some key)
    (h : Visits n (layers.map (past key)) merged) :
    Visits (n + 1) layers
      ⟨(key, layers.findSome? (headValue key)) :: merged.visited, merged.rest⟩ := by
  obtain ⟨hpresent, hle⟩ := leastKey_eq_some hsorted hleast
  have hrow : ∀ rows ∈ layers, ∀ row ∈ rows, row.1 = key ∨ row ∈ past key rows := by
    intro rows hrows row hrow
    rcases eq_or_lt_of_le (hle rows hrows row hrow) with heq | hlt
    · exact .inl heq.symm
    · exact .inr ((mem_past (hsorted rows hrows) (hle rows hrows)).mpr ⟨hrow, hlt⟩)
  have hbelow : ∀ entry ∈ merged.visited, key < entry.1 := by
    intro entry hentry
    obtain ⟨passed, hpassed, hkey⟩ := h.present entry hentry
    obtain ⟨rows, hrows, rfl⟩ := mem_map.mp hpassed
    obtain ⟨row, hmem, hfst⟩ := mem_map.mp hkey
    rw [← hfst]
    exact ((mem_past (hsorted rows hrows) (hle rows hrows)).mp hmem).2
  have hmem : ∀ rows ∈ layers, ∀ row ∈ past key rows, row ∈ rows := fun rows hrows row hrow =>
    ((mem_past (hsorted rows hrows) (hle rows hrows)).mp hrow).1
  refine ⟨ascending_cons.mpr ⟨hbelow, h.ascending⟩, ?_, ?_, ?_, by simp [h.length], ?_, ?_⟩
  · intro entry hentry
    rcases mem_cons.mp hentry with rfl | hentry
    · exact findSome?_headValue hsorted hle
    · rw [h.value entry hentry, resolve_past (hbelow entry hentry).ne']
  · intro entry hentry
    rcases mem_cons.mp hentry with rfl | hentry
    · exact hpresent
    · obtain ⟨passed, hpassed, hkey⟩ := h.present entry hentry
      obtain ⟨rows, hrows, rfl⟩ := mem_map.mp hpassed
      obtain ⟨row, hrow, hfst⟩ := mem_map.mp hkey
      exact ⟨rows, hrows, mem_map.mpr ⟨row, hmem rows hrows row hrow, hfst⟩⟩
  · intro rows hrows row hin
    rcases hrow rows hrows row hin with heq | hpast
    · exact .inl (heq ▸ mem_cons_self)
    · rcases h.least _ (mem_map_of_mem hrows) row hpast with hvisited | habove
      · exact .inl (mem_cons_of_mem _ hvisited)
      · refine .inr (forall_mem_cons.mpr ⟨?_, habove⟩)
        exact ((mem_past (hsorted rows hrows) (hle rows hrows)).mp hpast).2
  · rw [h.rest]
    refine ⟨fun hall rows hrows row hin => ?_, fun hall passed hpassed row hpast => ?_⟩
    · rcases hrow rows hrows row hin with heq | hpast
      · exact heq ▸ mem_cons_self
      · exact mem_cons_of_mem _ (hall _ (mem_map_of_mem hrows) row hpast)
    · obtain ⟨rows, hrows, rfl⟩ := mem_map.mp hpassed
      have hlt := ((mem_past (hsorted rows hrows) (hle rows hrows)).mp hpast).2
      rcases mem_cons.mp (hall rows hrows row (hmem rows hrows row hpast)) with heq | hvisited
      · exact absurd heq hlt.ne'
      · exact hvisited
  · intro hlength
    exact h.done (by simpa using hlength)

theorem mergeLayers_visits (hsorted : ∀ rows ∈ layers, Ascending rows) :
    Visits n layers (mergeLayers n layers) := by
  induction n generalizing layers with
  | zero => exact .nil (by omega)
  | succ n ih =>
    rw [mergeLayers]
    rcases hleast : leastKey layers with _ | key
    · exact .nil fun _ => leastKey_eq_none hleast
    · refine .cons hsorted hleast (ih fun passed hpassed => ?_)
      obtain ⟨rows, hrows, rfl⟩ := mem_map.mp hpassed
      exact ascending_past (hsorted rows hrows)

/-! ## Pages -/

variable {merged : Merged K α}

theorem Visits.mem_of_lt (h : Visits n layers merged) (hrows : rows ∈ layers) (hrow : row ∈ rows)
    (hentry : entry ∈ merged.visited) (hle : row.1 ≤ entry.1) :
    row.1 ∈ merged.visited.map Prod.fst := by
  rcases h.least rows hrows row hrow with hvisited | habove
  · exact hvisited
  · exact absurd (habove entry hentry) (not_lt.mpr hle)

theorem Visits.length_le (h : Visits n layers merged) {keys : List K} (hnodup : keys.Nodup)
    (hkeys : ∀ key ∈ keys, key ∈ merged.visited.map Prod.fst) : keys.length ≤ n := by
  have hlength := (hnodup.subperm hkeys).length_le
  rw [length_map] at hlength
  exact hlength.trans h.length

theorem Visits.length_lt (h : Visits n layers merged) {page : List (K × α)} (hrows : page ∈ layers)
    (hpage : Ascending page) (hentry : entry ∈ merged.visited)
    (hbelow : ∀ row ∈ page, row.1 < entry.1) : page.length < n := by
  have hnodup : (entry.1 :: page.map Prod.fst).Nodup := by
    refine nodup_cons.mpr ⟨fun hmem => ?_, hpage.keys_nodup⟩
    obtain ⟨row, hrow, heq⟩ := mem_map.mp hmem
    exact absurd (hbelow row hrow) (by rw [heq]; exact lt_irrefl _)
  have hlength := h.length_le hnodup (forall_mem_cons.mpr
    ⟨mem_map_of_mem hentry, fun key hkey => by
      obtain ⟨row, hrow, rfl⟩ := mem_map.mp hkey
      exact h.mem_of_lt hrows hrow hentry (hbelow row hrow).le⟩)
  rw [length_cons, length_map] at hlength
  omega

/-- **A page as long as the bound is never passed.** -/
theorem visited_lt_of_dropped (h : Visits n layers merged) (hsorted : Ascending rows)
    (hpage : rows.take n ∈ layers) (hrow : row ∈ rows.drop n) :
    ∀ entry ∈ merged.visited, entry.1 < row.1 := by
  intro entry hentry
  by_contra hge
  have hsplit := hsorted
  rw [Ascending, ← take_append_drop n rows, pairwise_append] at hsplit
  obtain ⟨htake, -, hcross⟩ := hsplit
  have hlong : n < rows.length := by
    by_contra hshort
    rw [drop_eq_nil_of_le (by omega)] at hrow
    cases hrow
  have hlt := h.length_lt hpage htake hentry fun r hr =>
    (hcross r hr row hrow).trans_le (not_lt.mp hge)
  rw [length_take] at hlt
  omega

end LayerFs
