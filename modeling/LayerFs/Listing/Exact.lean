import LayerFs.Listing.Window

/-!
# What one window shows

A window that is not cut early shows exactly the bound names from its cursor up to its continuation.
The one way it can miss a name is `Passes`: the base page ends one row early at its byte bound, and
the last name the merge visits is a local one beyond the row left out.

* `list_exact` — **a window that does not pass a name shows exactly the bound names it covers**.
-/

namespace LayerFs

open List hiding after

namespace Listing

open DirectoryState

variable {inherited : Bool} {name : PathName} {entry : PathName × Option (Option ℕ)}
  {row : PathName × ℕ} {listing : ViewListing} {n serial : ℕ}

/-! ## Rows and pages -/

section Rows

variable {α : Type} {cursor : Option PathName} {rows : List (PathName × α)}

theorem mem_after {row : PathName × α} :
    row ∈ after cursor rows ↔ row ∈ rows ∧ above cursor row.1 := by
  simp [after, mem_filter]

theorem ascending_after (h : Ascending rows) : Ascending (after cursor rows) :=
  List.Pairwise.filter _ h

theorem lookup_after {name : PathName} (hname : above cursor name) :
    (after cursor rows).lookup name = rows.lookup name := by
  induction rows with
  | nil => rfl
  | cons row rows ih =>
    rw [lookup_cons_eq]
    by_cases habove : above cursor row.1
    · rw [after, filter_cons_of_pos (by simpa), lookup_cons_eq]
      split_ifs
      · rfl
      · exact ih
    · rw [after, filter_cons_of_neg (by simpa), if_neg (fun h : name = row.1 => habove (h ▸ hname))]
      exact ih

theorem lookup_take {n : ℕ} {name : PathName} (h : ∀ row ∈ rows.drop n, name < row.1) :
    (rows.take n).lookup name = rows.lookup name := by
  induction rows generalizing n with
  | nil => rw [take_nil]
  | cons row rows ih =>
    rcases n with _ | n
    · rw [take_zero, lookup_nil, eq_comm, lookup_eq_none_iff]
      intro hmem
      obtain ⟨other, hother, rfl⟩ := mem_map.mp hmem
      exact lt_irrefl _ (h other hother)
    · rw [take_succ_cons, lookup_cons_eq, lookup_cons_eq]
      split_ifs
      · rfl
      · exact ih h

end Rows

/-! ## The layers of a window -/

namespace DirectoryState

variable (state : DirectoryState) (cursor : Option PathName)

def inheritedRows : List (PathName × ℕ) :=
  match state.inherits with
  | .ok true => after cursor state.baseRows
  | _ => []

def localRows : List (PathName × Option ℕ) :=
  after cursor state.active.entries ++ after cursor state.captured.entries

/-- **The window passes a base name**: the first 64 inherited names past the cursor exceed the byte
bound of the base page, the local rows up to the 64th are all rows of the first 63, and there is a
local row beyond the 64th. -/
def Passes : Prop :=
  ∃ shown omitted rest, state.inheritedRows cursor = shown ++ omitted :: rest ∧
    shown.length + 1 = pageRows ∧ basePageBytes < listedBytes (shown ++ [omitted]) ∧
    (∀ row ∈ state.localRows cursor, row.1 ≤ omitted.1 → row.1 ∈ shown.map Prod.fst) ∧
    ∃ row ∈ state.localRows cursor, omitted.1 < row.1

end DirectoryState

def asLayer (rows : List (PathName × ℕ)) : List (PathName × Option ℕ) :=
  rows.map fun row => (row.1, some row.2)

theorem ascending_asLayer {rows : List (PathName × ℕ)} (h : Ascending rows) :
    Ascending (asLayer rows) :=
  pairwise_map.mpr h

theorem keys_asLayer {rows : List (PathName × ℕ)} :
    (asLayer rows).map Prod.fst = rows.map Prod.fst := by
  simp [asLayer]

def windowMerge (state : DirectoryState) (cursor : Option PathName) : Merged PathName (Option ℕ) :=
  mergeLayers pageRows
    [(after cursor state.active.entries).take pageRows,
      (after cursor state.captured.entries).take pageRows,
      asLayer ((state.inheritedRows cursor).take
        (listedLength pageRows basePageBytes (state.inheritedRows cursor)))]

variable {state : DirectoryState} {cursor : Option PathName}

theorem ascending_baseRows : Ascending state.baseRows := by
  rw [baseRows]
  split
  · rename_i base _
    exact base.ordered
  · exact ascending_nil

theorem ascending_inheritedRows : Ascending (state.inheritedRows cursor) := by
  rw [inheritedRows]
  split
  · exact ascending_after ascending_baseRows
  · exact ascending_nil

theorem ascending_take {α : Type} {rows : List (PathName × α)} (h : Ascending rows) :
    Ascending (rows.take n) :=
  List.Pairwise.sublist (take_sublist n rows) h

theorem windowMerge_visits :
    Visits pageRows
      [(after cursor state.active.entries).take pageRows,
        (after cursor state.captured.entries).take pageRows,
        asLayer ((state.inheritedRows cursor).take
          (listedLength pageRows basePageBytes (state.inheritedRows cursor)))]
      (windowMerge state cursor) := by
  refine mergeLayers_visits ?_
  intro rows hrows
  rcases mem_cons.mp hrows with rfl | hrows
  · exact ascending_take (ascending_after state.active.sorted)
  rcases mem_cons.mp hrows with rfl | hrows
  · exact ascending_take (ascending_after state.captured.sorted)
  rw [mem_singleton.mp hrows]
  exact ascending_asLayer (ascending_take ascending_inheritedRows)

/-! ## The listing of a window -/

/-- The window shows everything past its cursor: no page is cut and every row is visited. -/
structure Complete (state : DirectoryState) (cursor : Option PathName) : Prop where
  active : (after cursor state.active.entries).length < pageRows
  captured : (after cursor state.captured.entries).length < pageRows
  base : (state.inheritedRows cursor).length ≤
    listedLength pageRows basePageBytes (state.inheritedRows cursor)
  rest : ∀ rows ∈ (windowMerge state cursor).rest, rows = []

theorem complete_of_visited_nil (h : (windowMerge state cursor).visited = []) :
    Complete state cursor := by
  have hvisits := @windowMerge_visits state cursor
  have hrest := hvisits.done (by rw [h]; exact Nat.succ_pos 63)
  have hall := hvisits.rest.mp hrest
  have hnil : ∀ {rows : List (PathName × Option ℕ)} {n : ℕ}, 0 < n →
      (∀ row ∈ rows.take n, row.1 ∈ (windowMerge state cursor).visited.map Prod.fst) →
      rows = [] := by
    intro rows n hn hrows
    rw [h] at hrows
    rcases rows with _ | ⟨row, rows⟩
    · rfl
    · obtain ⟨n, rfl⟩ := Nat.exists_eq_succ_of_ne_zero hn.ne'
      exact absurd (hrows row (by rw [take_succ_cons]; exact mem_cons_self)) (by simp)
  have hactive := hnil (by decide : 0 < pageRows) (hall _ mem_cons_self)
  have hcaptured := hnil (by decide : 0 < pageRows)
    (hall _ (mem_cons_of_mem _ mem_cons_self))
  have hpos : 0 < listedLength pageRows basePageBytes (state.inheritedRows cursor) := by
    rw [listedLength]
    split_ifs <;> decide
  have hbase : asLayer (state.inheritedRows cursor) = [] := by
    refine hnil hpos ?_
    have hpage := hall _ (mem_cons_of_mem _ (mem_cons_of_mem _ mem_cons_self))
    rwa [asLayer, map_take] at hpage
  have hrows := map_eq_nil_iff.mp hbase
  refine ⟨?_, ?_, ?_, hrest⟩
  · rw [hactive]
    exact Nat.succ_pos 63
  · rw [hcaptured]
    exact Nat.succ_pos 63
  · rw [hrows]
    exact Nat.zero_le _

theorem basePage_eq_ok {base : ListingPage} (hinherits : state.inherits = .ok inherited)
    (h : state.basePage cursor inherited = .ok base) :
    base.entries = (state.inheritedRows cursor).take
        (listedLength pageRows basePageBytes (state.inheritedRows cursor)) ∧
      (base.continuation.isSome ↔ listedLength pageRows basePageBytes (state.inheritedRows cursor) <
        (state.inheritedRows cursor).length) := by
  rcases inherited with _ | _
  · rw [basePage, if_neg (by decide)] at h
    cases h
    have hrows : state.inheritedRows cursor = [] := by rw [inheritedRows, hinherits]
    rw [hrows]
    simp
  · have hrows : state.inheritedRows cursor = after cursor state.baseRows := by
      rw [inheritedRows, hinherits]
    rw [basePage, if_pos rfl] at h
    rcases hbase : state.base with _ | kind | directory
    · rw [hbase] at h
      cases h
    · rw [hbase] at h
      cases h
    · rw [hbase] at h
      have hpage : directory.page.rows.filter (fun row => above cursor row.1) =
          state.inheritedRows cursor := by
        rw [hrows, after, baseRows, hbase]
      have hlist := listAfter_eq (by decide : 1 < pageRows)
        (by decide : listingWidthBound * (pageRows - 1) ≤ basePageBytes) directory.checked hpage
      change ofContent (listAfter cursor pageRows basePageBytes directory.page) = _ at h
      rw [hlist] at h
      cases h
      refine ⟨rfl, ?_⟩
      dsimp only
      split_ifs with hcut
      · refine iff_of_true ?_ hcut
        rw [Option.isSome_map, getLast?_isSome, Ne, take_eq_nil_iff]
        rintro (hzero | hnil)
        · rw [listedLength] at hzero
          split_ifs at hzero <;> cases hzero
        · rw [hnil] at hcut
          simp at hcut
      · exact iff_of_false (by simp) hcut

theorem listFromWindow_eq_ok {rows : EntryWindow} {merged : Merged PathName (Option ℕ)}
    (hmerged : mergeLayers pageRows [rows.active, rows.captured,
      asLayer ((state.inheritedRows cursor).take
        (listedLength pageRows basePageBytes (state.inheritedRows cursor)))] = merged)
    (h : listFromWindow state cursor rows = .ok listing) :
    (∃ inherited, state.inherits = .ok inherited) ∧
      listing.entries = boundEntries merged.visited ∧
      (∀ last ∈ listing.continuation, last ∈ merged.visited.getLast?.map Prod.fst) ∧
      (listing.continuation = none → merged.visited = [] ∨ rows.active.length ≠ pageRows ∧
        rows.captured.length ≠ pageRows ∧ (state.inheritedRows cursor).length ≤
          listedLength pageRows basePageBytes (state.inheritedRows cursor) ∧
        ∀ left ∈ merged.rest, left = []) := by
  rw [listFromWindow] at h
  rcases hinherits : state.inherits with e | inherited
  · rw [hinherits] at h
    cases h
  rw [hinherits] at h
  simp only [bind, Except.bind] at h
  rcases hpage : state.basePage cursor inherited with e | base
  · rw [hpage] at h
    cases h
  rw [hpage] at h
  simp only at h
  obtain ⟨hentries, hcut⟩ := basePage_eq_ok hinherits hpage
  split at h
  · cases h
  rw [hentries, ← asLayer, hmerged] at h
  cases h
  refine ⟨⟨inherited, rfl⟩, rfl, ?_, ?_⟩
  · intro last hlast
    dsimp only at hlast
    split_ifs at hlast
    · exact hlast
    · cases hlast
  · intro hnone
    dsimp only at hnone
    split_ifs at hnone with hmore
    · rw [Option.map_eq_none_iff, getLast?_eq_none_iff] at hnone
      exact .inl hnone
    · simp only [Bool.or_eq_true, any_eq_true, decide_eq_true_eq, not_or] at hmore
      obtain ⟨⟨⟨hrest, hbase⟩, hactive⟩, hcaptured⟩ := hmore
      refine .inr ⟨hactive, hcaptured, by rw [hcut] at hbase; omega, fun left hleft => ?_⟩
      by_contra hne
      exact hrest ⟨left, hleft, by simpa using hne⟩

/-- **What a window returns.** -/
theorem list_eq_ok (h : state.list cursor = .ok listing) :
    (∃ inherited, state.inherits = .ok inherited) ∧
      listing.entries = boundEntries (windowMerge state cursor).visited ∧
      (∀ last ∈ listing.continuation,
        last ∈ (windowMerge state cursor).visited.getLast?.map Prod.fst) ∧
      (listing.continuation = none → Complete state cursor) := by
  obtain ⟨hinherits, hentries, hlast, hend⟩ := listFromWindow_eq_ok rfl h
  refine ⟨hinherits, hentries, hlast, fun hnone => ?_⟩
  rcases hend hnone with hnil | ⟨hactive, hcaptured, hbase, hrest⟩
  · exact complete_of_visited_nil hnil
  · simp only [entryWindow, length_take] at hactive hcaptured
    exact ⟨by omega, by omega, hbase, hrest⟩

/-! ## Names shown are bound -/

theorem above_of_mem_inheritedRows (h : row ∈ state.inheritedRows cursor) : above cursor row.1 := by
  rw [inheritedRows] at h
  split at h
  · exact (mem_after.mp h).2
  · cases h

theorem visited_cases (h : entry ∈ (windowMerge state cursor).visited) : above cursor entry.1 ∧
    ((∃ row ∈ state.localRows cursor, row.1 = entry.1) ∨
      entry.1 ∈ ((state.inheritedRows cursor).take
        (listedLength pageRows basePageBytes (state.inheritedRows cursor))).map Prod.fst) := by
  obtain ⟨rows, hrows, hkey⟩ := windowMerge_visits.present entry h
  have hlocal : ∀ {rows : List (PathName × Option ℕ)},
      entry.1 ∈ ((after cursor rows).take pageRows).map Prod.fst →
      ∃ row ∈ after cursor rows, row.1 = entry.1 := by
    intro rows hmem
    obtain ⟨row, hrow, heq⟩ := mem_map.mp hmem
    exact ⟨row, mem_of_mem_take hrow, heq⟩
  rcases mem_cons.mp hrows with rfl | hrows
  · obtain ⟨row, hrow, heq⟩ := hlocal hkey
    exact ⟨heq ▸ (mem_after.mp hrow).2, .inl ⟨row, mem_append_left _ hrow, heq⟩⟩
  rcases mem_cons.mp hrows with rfl | hrows
  · obtain ⟨row, hrow, heq⟩ := hlocal hkey
    exact ⟨heq ▸ (mem_after.mp hrow).2, .inl ⟨row, mem_append_right _ hrow, heq⟩⟩
  rw [mem_singleton.mp hrows, keys_asLayer] at hkey
  obtain ⟨row, hrow, heq⟩ := mem_map.mp hkey
  exact ⟨heq ▸ above_of_mem_inheritedRows (mem_of_mem_take hrow), .inr hkey⟩

theorem lookup_take_of_mem {α : Type} {rows : List (PathName × α)} (hsorted : Ascending rows)
    (h : name ∈ (rows.take n).map Prod.fst) : (rows.take n).lookup name = rows.lookup name := by
  refine lookup_take fun row hrow => ?_
  obtain ⟨shown, hshown, rfl⟩ := mem_map.mp h
  rw [Ascending, ← take_append_drop n rows, pairwise_append] at hsorted
  exact hsorted.2.2 shown hshown row hrow

theorem lookup_localPage {rows : List (PathName × Option ℕ)} (hsorted : Ascending rows)
    (hpage : (after cursor rows).take pageRows ∈
      [(after cursor state.active.entries).take pageRows,
        (after cursor state.captured.entries).take pageRows,
        asLayer ((state.inheritedRows cursor).take
          (listedLength pageRows basePageBytes (state.inheritedRows cursor)))])
    (hentry : entry ∈ (windowMerge state cursor).visited) :
    ((after cursor rows).take pageRows).lookup entry.1 = rows.lookup entry.1 := by
  rw [lookup_take fun row hrow => visited_lt_of_dropped windowMerge_visits
    (ascending_after hsorted) hpage hrow entry hentry]
  exact lookup_after (visited_cases hentry).1

/-- **The value a window finds is that of the whole layers.** -/
theorem resolve_visited (hinherits : state.inherits = .ok inherited)
    (hentry : entry ∈ (windowMerge state cursor).visited) :
    entry.2 = resolve [state.active.entries, state.captured.entries, state.baseLayer inherited]
      entry.1 := by
  rw [windowMerge_visits.value entry hentry]
  have hactive := lookup_localPage state.active.sorted mem_cons_self hentry
  have hcaptured := lookup_localPage state.captured.sorted
    (mem_cons_of_mem _ mem_cons_self) hentry
  simp only [resolve, findSome?_cons, findSome?_nil, hactive, hcaptured]
  rcases hfirst : state.active.entries.lookup entry.1 with _ | serial
  swap
  · rfl
  rcases hsecond : state.captured.entries.lookup entry.1 with _ | serial
  swap
  · rfl
  obtain ⟨habove, hlocal | hbase⟩ := visited_cases hentry
  · obtain ⟨row, hrow, heq⟩ := hlocal
    rcases mem_append.mp hrow with hrow | hrow
    · exact absurd (mem_map.mpr ⟨row, (mem_after.mp hrow).1, heq⟩)
        (lookup_eq_none_iff.mp hfirst)
    · exact absurd (mem_map.mpr ⟨row, (mem_after.mp hrow).1, heq⟩)
        (lookup_eq_none_iff.mp hsecond)
  · have hpage : (asLayer ((state.inheritedRows cursor).take
        (listedLength pageRows basePageBytes (state.inheritedRows cursor)))).lookup entry.1 =
        (asLayer (state.inheritedRows cursor)).lookup entry.1 := by
      rw [asLayer, map_take]
      refine lookup_take_of_mem (ascending_asLayer ascending_inheritedRows) ?_
      rw [← map_take]
      exact keys_asLayer ▸ hbase
    have hwhole : (asLayer (state.inheritedRows cursor)).lookup entry.1 =
        (state.baseLayer inherited).lookup entry.1 := by
      rcases inherited with _ | _
      · rw [inheritedRows, hinherits, baseLayer, if_neg (by decide)]
        rfl
      · rw [inheritedRows, hinherits, baseLayer, if_pos rfl, ← asLayer]
        have hfilter : asLayer (after cursor state.baseRows) =
            after cursor (asLayer state.baseRows) := by
          rw [asLayer, after, after, asLayer, filter_map]
          rfl
        rw [hfilter, lookup_after habove]
    rw [hpage, hwhole]

/-! ## No name is passed -/

/-- **Only a window that passes a name visits one beyond a base row it leaves out.** -/
theorem visited_le_omitted (hpass : ¬ state.Passes cursor)
    (hrow : row ∈ (state.inheritedRows cursor).drop
      (listedLength pageRows basePageBytes (state.inheritedRows cursor)))
    (hentry : entry ∈ (windowMerge state cursor).visited) : entry.1 ≤ row.1 := by
  by_contra hlt
  have hvisits := @windowMerge_visits state cursor
  generalize hrows : state.inheritedRows cursor = rows at hrow hvisits
  have hsorted : Ascending rows := hrows ▸ ascending_inheritedRows
  generalize hcut : listedLength pageRows basePageBytes rows = k at hrow hvisits
  obtain ⟨omitted, rest, hdrop⟩ := exists_cons_of_ne_nil (ne_nil_of_mem hrow)
  have hsplit : rows = rows.take k ++ omitted :: rest := by rw [← hdrop, take_append_drop]
  have hordered := hsorted
  rw [Ascending, hsplit, pairwise_append] at hordered
  obtain ⟨hshown, hrest, hcross⟩ := hordered
  have hbeyond : omitted.1 < entry.1 := by
    rw [hdrop] at hrow
    rcases mem_cons.mp hrow with rfl | hrow
    · exact not_le.mp hlt
    · exact ((pairwise_cons.mp hrest).1 row hrow).trans (not_le.mp hlt)
  have hbelow : ∀ shown ∈ rows.take k, shown.1 < entry.1 := fun shown hmem =>
    (hcross shown hmem omitted mem_cons_self).trans hbeyond
  have hlength : (rows.take k).length = k := by
    rw [length_take]
    have := congrArg List.length hdrop
    rw [length_drop, length_cons] at this
    omega
  have hpage : asLayer (rows.take k) ∈
      [(after cursor state.active.entries).take pageRows,
        (after cursor state.captured.entries).take pageRows, asLayer (rows.take k)] := by simp
  -- the page was cut by its bytes: with 64 rows it would not have been passed
  have hshort : k < pageRows := by
    have hlt := hvisits.length_lt hpage (ascending_asLayer hshown) hentry (by
      intro shown hmem
      obtain ⟨source, hsource, rfl⟩ := mem_map.mp hmem
      exact hbelow source hsource)
    rwa [asLayer, length_map, hlength] at hlt
  rw [listedLength] at hcut
  split_ifs at hcut with hfits
  · omega
  have htake : rows.take pageRows = rows.take k ++ [omitted] := by
    conv_lhs => rw [hsplit]
    have hone : pageRows = (rows.take k).length + 1 := by
      rw [hlength]
      omega
    rw [hone, take_length_add_append]
    rfl
  refine hpass ⟨rows.take k, omitted, rest, hrows.trans hsplit, by omega, ?_, ?_, ?_⟩
  · rw [← htake]
    exact not_le.mp hfits
  · intro other hother hle
    by_contra hnew
    have hvisited : other.1 ∈ (windowMerge state cursor).visited.map Prod.fst := by
      have hcases : ∀ {layer : List (PathName × Option ℕ)}, Ascending layer →
          (after cursor layer).take pageRows ∈
            [(after cursor state.active.entries).take pageRows,
              (after cursor state.captured.entries).take pageRows, asLayer (rows.take k)] →
          other ∈ after cursor layer →
          other.1 ∈ (windowMerge state cursor).visited.map Prod.fst := by
        intro layer hlayer hin hmem
        rw [← take_append_drop pageRows (after cursor layer), mem_append] at hmem
        rcases hmem with hmem | hmem
        · exact hvisits.mem_of_lt hin hmem hentry (hle.trans hbeyond.le)
        · have := visited_lt_of_dropped hvisits (ascending_after hlayer) hin hmem entry hentry
          exact absurd (this.trans_le hle) hbeyond.asymm
      rcases mem_append.mp hother with hmem | hmem
      · exact hcases state.active.sorted (by simp) hmem
      · exact hcases state.captured.sorted (by simp) hmem
    have hnodup : (entry.1 :: other.1 :: (rows.take k).map Prod.fst).Nodup := by
      refine nodup_cons.mpr ⟨?_, nodup_cons.mpr ⟨hnew, Ascending.keys_nodup hshown⟩⟩
      intro hmem
      rcases mem_cons.mp hmem with heq | hmem
      · exact absurd (heq ▸ hle) (not_le.mpr hbeyond)
      · obtain ⟨source, hsource, heq⟩ := mem_map.mp hmem
        exact absurd (hbelow source hsource) (by rw [heq]; exact lt_irrefl _)
    have hbound := hvisits.length_le hnodup (by
      intro key hkey
      rcases mem_cons.mp hkey with rfl | hkey
      · exact mem_map_of_mem hentry
      rcases mem_cons.mp hkey with rfl | hkey
      · exact hvisited
      obtain ⟨source, hsource, rfl⟩ := mem_map.mp hkey
      exact hvisits.mem_of_lt hpage (mem_map_of_mem hsource) hentry
        (hbelow source hsource).le)
    rw [length_cons, length_cons, length_map, hlength] at hbound
    omega
  · obtain ⟨-, hlocal | hbase⟩ := visited_cases hentry
    · obtain ⟨other, hother, heq⟩ := hlocal
      exact ⟨other, hother, heq ▸ hbeyond⟩
    · rw [hrows, listedLength, if_neg hfits, hcut] at hbase
      obtain ⟨source, hsource, heq⟩ := mem_map.mp hbase
      exact absurd (hbelow source hsource) (by rw [heq]; exact lt_irrefl _)

/-! ## The window -/

def Covers (state : DirectoryState) (cursor : Option PathName) (name : PathName) : Prop :=
  Complete state cursor ∨ ∃ entry ∈ (windowMerge state cursor).visited, name ≤ entry.1

theorem visited_of_local {rows : List (PathName × Option ℕ)} (hsorted : Ascending rows)
    (hpage : (after cursor rows).take pageRows ∈
      [(after cursor state.active.entries).take pageRows,
        (after cursor state.captured.entries).take pageRows,
        asLayer ((state.inheritedRows cursor).take
          (listedLength pageRows basePageBytes (state.inheritedRows cursor)))])
    (hshort : Complete state cursor → (after cursor rows).length < pageRows)
    {row : PathName × Option ℕ} (hrow : row ∈ after cursor rows)
    (hcovers : Covers state cursor row.1) :
    row.1 ∈ (windowMerge state cursor).visited.map Prod.fst := by
  rcases hcovers with hcomplete | ⟨entry, hentry, hle⟩
  · refine windowMerge_visits.rest.mp hcomplete.rest _ hpage row ?_
    rwa [take_of_length_le (hshort hcomplete).le]
  · rw [← take_append_drop pageRows (after cursor rows), mem_append] at hrow
    rcases hrow with hrow | hrow
    · exact windowMerge_visits.mem_of_lt hpage hrow hentry hle
    · have hlt := visited_lt_of_dropped windowMerge_visits (ascending_after hsorted) hpage hrow
        entry hentry
      exact absurd hle (not_le.mpr hlt)

theorem visited_of_base (hpass : ¬ state.Passes cursor) (hrow : row ∈ state.inheritedRows cursor)
    (hcovers : Covers state cursor row.1) :
    row.1 ∈ (windowMerge state cursor).visited.map Prod.fst := by
  have hpage : ∀ row ∈ (state.inheritedRows cursor).take
      (listedLength pageRows basePageBytes (state.inheritedRows cursor)),
      (row.1, some row.2) ∈ asLayer ((state.inheritedRows cursor).take
        (listedLength pageRows basePageBytes (state.inheritedRows cursor))) :=
    fun row hrow => mem_map_of_mem hrow
  rcases hcovers with hcomplete | ⟨entry, hentry, hle⟩
  · refine windowMerge_visits.rest.mp hcomplete.rest _ (by simp) (row.1, some row.2)
      (hpage row ?_)
    rwa [take_of_length_le hcomplete.base]
  · rw [← take_append_drop (listedLength pageRows basePageBytes (state.inheritedRows cursor))
      (state.inheritedRows cursor), mem_append] at hrow
    rcases hrow with hrow | hrow
    · exact windowMerge_visits.mem_of_lt (mem_cons_of_mem _ (mem_cons_of_mem _
        mem_cons_self)) (hpage row hrow) hentry hle
    · rw [le_antisymm hle (visited_le_omitted hpass hrow hentry)]
      exact mem_map_of_mem hentry

theorem row_of_bound (hinherits : state.inherits = .ok inherited) (habove : above cursor name)
    (hbound : state.bound name = some serial) :
    (∃ row ∈ after cursor state.active.entries, row.1 = name) ∨
      (∃ row ∈ after cursor state.captured.entries, row.1 = name) ∨
      ∃ row ∈ state.inheritedRows cursor, row.1 = name := by
  rw [bound, hinherits] at hbound
  simp only [resolve, findSome?_cons, findSome?_nil] at hbound
  rcases hactive : state.active.entries.lookup name with _ | value
  swap
  · exact .inl ⟨(name, value), mem_after.mpr ⟨mem_of_lookup hactive, habove⟩, rfl⟩
  rcases hcaptured : state.captured.entries.lookup name with _ | value
  swap
  · exact .inr (.inl ⟨(name, value), mem_after.mpr ⟨mem_of_lookup hcaptured, habove⟩, rfl⟩)
  rcases hbase : (state.baseLayer inherited).lookup name with _ | value
  · rw [hactive, hcaptured, hbase] at hbound
    cases hbound
  · have hrow := mem_of_lookup hbase
    rw [baseLayer] at hrow
    split_ifs at hrow with hinherited
    · obtain ⟨source, hsource, heq⟩ := mem_map.mp hrow
      obtain ⟨hname, -⟩ := Prod.mk.inj heq
      refine .inr (.inr ⟨source, ?_, hname⟩)
      rw [inheritedRows, hinherits, hinherited]
      exact mem_after.mpr ⟨hsource, hname ▸ habove⟩
    · cases hrow

theorem mem_boundEntries {visited : List (PathName × Option (Option ℕ))} :
    (name, serial) ∈ boundEntries visited ↔ (name, some (some serial)) ∈ visited := by
  simp only [boundEntries, mem_filterMap, Option.map_eq_some_iff, Option.join_eq_some_iff,
    Prod.mk.injEq]
  constructor
  · rintro ⟨entry, hentry, value, hvalue, hname, rfl⟩
    rwa [← hname, ← hvalue]
  · intro hentry
    exact ⟨_, hentry, serial, rfl, rfl, rfl⟩

theorem list_sound (h : state.list cursor = .ok listing) (hentry : (name, serial) ∈ listing.entries)
    :
    above cursor name ∧ (∀ last ∈ listing.continuation, name ≤ last) ∧
      state.bound name = some serial := by
  obtain ⟨⟨inherited, hinherits⟩, hentries, hlast, -⟩ := list_eq_ok h
  rw [hentries, mem_boundEntries] at hentry
  refine ⟨(visited_cases hentry).1, fun last hcontinuation => ?_, ?_⟩
  · obtain ⟨final, hfinal, rfl⟩ := Option.map_eq_some_iff.mp (hlast last hcontinuation)
    have hordered : ((windowMerge state cursor).visited.map Prod.fst).Pairwise (· < ·) :=
      pairwise_map.mpr windowMerge_visits.ascending
    refine Page.le_getLast hordered ?_ (mem_map_of_mem hentry)
    rw [getLast?_map, hfinal]
    rfl
  · rw [bound, hinherits]
    dsimp only
    rw [← resolve_visited hinherits hentry]
    rfl

/-- **A window that does not pass a name shows exactly the bound names it covers**, in order. -/
theorem list_exact (hpass : ¬ state.Passes cursor) (h : state.list cursor = .ok listing) :
    (name, serial) ∈ listing.entries ↔ above cursor name ∧
      (∀ last ∈ listing.continuation, name ≤ last) ∧ state.bound name = some serial := by
  refine ⟨list_sound h, ?_⟩
  rintro ⟨habove, hcontinuation, hbound⟩
  obtain ⟨⟨inherited, hinherits⟩, hentries, hlast, hend⟩ := list_eq_ok h
  have hcovers : Covers state cursor name := by
    rcases hnext : listing.continuation with _ | last
    · exact .inl (hend hnext)
    · obtain ⟨final, hfinal, heq⟩ := Option.map_eq_some_iff.mp (hlast last hnext)
      exact .inr ⟨final, mem_of_getLast? hfinal, heq ▸ hcontinuation last hnext⟩
  have hvisited : name ∈ (windowMerge state cursor).visited.map Prod.fst := by
    rcases row_of_bound hinherits habove hbound with ⟨row, hrow, rfl⟩ | ⟨row, hrow, rfl⟩ |
      ⟨row, hrow, rfl⟩
    · exact visited_of_local state.active.sorted (by simp) Complete.active hrow hcovers
    · exact visited_of_local state.captured.sorted (by simp) Complete.captured hrow hcovers
    · exact visited_of_base hpass hrow hcovers
  obtain ⟨entry, hentry, rfl⟩ := mem_map.mp hvisited
  have hvalue : entry.2 = some (some serial) := by
    rw [bound, hinherits] at hbound
    dsimp only at hbound
    rw [← resolve_visited hinherits hentry] at hbound
    exact Option.join_eq_some_iff.mp hbound
  rw [hentries, mem_boundEntries, ← hvalue]
  exact hentry

theorem list_ascending (h : state.list cursor = .ok listing) : Ascending listing.entries := by
  obtain ⟨-, hentries, -, -⟩ := list_eq_ok h
  rw [hentries, boundEntries, Ascending, pairwise_filterMap]
  refine windowMerge_visits.ascending.imp ?_
  intro a b hlt x hx y hy
  obtain ⟨-, -, rfl⟩ := Option.map_eq_some_iff.mp hx
  obtain ⟨-, -, rfl⟩ := Option.map_eq_some_iff.mp hy
  exact hlt

theorem list_progress (h : state.list cursor = .ok listing) :
    ∀ last ∈ listing.continuation, above cursor last := by
  obtain ⟨-, -, hlast, -⟩ := list_eq_ok h
  intro last hcontinuation
  obtain ⟨final, hfinal, rfl⟩ := Option.map_eq_some_iff.mp (hlast last hcontinuation)
  exact (visited_cases (mem_of_getLast? hfinal)).1

end Listing

end LayerFs
