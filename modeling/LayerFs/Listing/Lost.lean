import LayerFs.Listing.Enumerate

/-!
# The name a window passes

* `passed_of_passes` — a window that passes a name does not show it and resumes after it.
-/

namespace LayerFs

open List hiding after

namespace Listing

open DirectoryState

variable {state : DirectoryState} {cursor : Option PathName}

/-! ## Windows always come -/

/-- A directory that can be listed: it is one, and what it inherits is a base directory. -/
def Readable (state : DirectoryState) : Prop :=
  ∃ inherited, state.inherits = .ok inherited ∧
    (inherited = true → ∃ directory, state.base = .directory directory)

theorem wellFormedRows_page {rows : List (PathName × Option ℕ)} (h : Ascending rows) :
    wellFormedRows cursor ((after cursor rows).take pageRows) = true := by
  refine decide_eq_true ⟨?_, ?_, ?_⟩
  · rw [length_take]
    exact min_le_left _ _
  · refine (strictlyOrdered_iff _).mpr (pairwise_map.mpr ?_)
    exact ascending_take (ascending_after h)
  · refine all_eq_true.mpr fun row hrow => decide_eq_true ?_
    exact (mem_after.mp (mem_of_mem_take hrow)).2

/-- **A readable directory gives a window after every cursor.** -/
theorem list_total (h : Readable state) : ∃ listing, state.list cursor = .ok listing := by
  obtain ⟨inherited, hinherits, hbase⟩ := h
  have hpage : ∃ base, state.basePage cursor inherited = .ok base := by
    rcases inherited with _ | _
    · exact ⟨⟨[], none⟩, rfl⟩
    · obtain ⟨directory, hdirectory⟩ := hbase rfl
      have hlist := @listAfter_eq cursor pageRows basePageBytes (by decide) (by decide)
        directory.page directory.checked _ rfl
      rw [basePage, if_pos rfl, hdirectory]
      change ∃ base, ofContent (listAfter cursor pageRows basePageBytes directory.page) = .ok base
      rw [hlist]
      exact ⟨_, rfl⟩
  obtain ⟨base, hpage⟩ := hpage
  rw [list, listFromWindow, hinherits]
  simp only [bind, Except.bind, hpage, entryWindow]
  rw [wellFormedRows_page state.active.sorted, wellFormedRows_page state.captured.sorted]
  exact ⟨_, rfl⟩

theorem length_after_le {α : Type} {rows : List (PathName × α)} {last : PathName}
    (hlast : above cursor last) :
    (after (some last) rows).length ≤ (after cursor rows).length := by
  refine (monotone_filter_right rows fun row hrow => ?_).length_le
  refine decide_eq_true fun floor hfloor => ?_
  exact (hlast floor hfloor).trans (of_decide_eq_true hrow last rfl)

theorem length_after_lt {α : Type} {rows : List (PathName × α)} {row : PathName × α}
    (hrow : row ∈ after cursor rows) :
    (after (some row.1) rows).length < (after cursor rows).length := by
  have hrefine : after (some row.1) rows =
      (after cursor rows).filter fun other => above (some row.1) other.1 := by
    rw [after, after, filter_filter]
    refine filter_congr fun other _ => ?_
    rw [Bool.eq_iff_iff, Bool.and_eq_true, iff_self_and]
    intro hother
    refine decide_eq_true fun floor hfloor => ?_
    exact ((mem_after.mp hrow).2 floor hfloor).trans (of_decide_eq_true hother row.1 rfl)
  rw [hrefine]
  refine length_filter_lt_length_iff_exists.mpr ⟨row, hrow, ?_⟩
  simp

theorem inheritedRows_eq {inherited : Bool} (h : state.inherits = .ok inherited) :
    state.inheritedRows cursor = if inherited then after cursor state.baseRows else [] := by
  rw [inheritedRows, h]
  cases inherited <;> rfl

def rowsLeft (state : DirectoryState) (cursor : Option PathName) : ℕ :=
  (after cursor state.active.entries).length + (after cursor state.captured.entries).length +
    (state.inheritedRows cursor).length

theorem rowsLeft_lt {listing : ViewListing} {last : PathName}
    (h : state.list cursor = .ok listing) (hlast : listing.continuation = some last) :
    rowsLeft state (some last) < rowsLeft state cursor := by
  obtain ⟨⟨inherited, hinherits⟩, -, hvisited, -⟩ := list_eq_ok h
  obtain ⟨entry, hentry, rfl⟩ := Option.map_eq_some_iff.mp (hvisited last hlast)
  obtain ⟨habove, hcases⟩ := visited_cases (mem_of_getLast? hentry)
  have hactive := @length_after_le cursor _ state.active.entries entry.1 habove
  have hcaptured := @length_after_le cursor _ state.captured.entries entry.1 habove
  have hbase := @length_after_le cursor _ state.baseRows entry.1 habove
  simp only [rowsLeft, inheritedRows_eq hinherits]
  rcases hcases with ⟨row, hrow, heq⟩ | hrow
  · rw [← heq] at hactive hcaptured hbase ⊢
    rcases mem_append.mp hrow with hrow | hrow
    · have hlt := length_after_lt hrow
      split_ifs <;> omega
    · have hlt := length_after_lt hrow
      split_ifs <;> omega
  · obtain ⟨row, hrow, heq⟩ := mem_map.mp hrow
    have hrow := mem_of_mem_take hrow
    rw [inheritedRows_eq hinherits] at hrow
    rw [← heq] at hactive hcaptured ⊢
    split_ifs at hrow ⊢ with hinherited
    · have hlt := length_after_lt hrow
      omega
    · cases hrow

/-- **A readable directory is enumerated to its end**, whatever the cursor. -/
theorem enumeration_exists (h : Readable state) : ∃ visits, Enumeration cursor visits ∧
    ∀ visit ∈ visits, visit.state = state := by
  generalize hleft : rowsLeft state cursor = left
  induction left using Nat.strong_induction_on generalizing cursor with
  | _ left ih =>
    obtain ⟨listing, hlisting⟩ := @list_total state cursor h
    have hwindow := Window.listed hlisting
    rcases hnext : listing.continuation with _ | last
    · rw [hnext] at hwindow
      exact ⟨_, .last hwindow, by simp⟩
    · rw [hnext] at hwindow
      obtain ⟨visits, hvisits, hsame⟩ := ih _ (hleft ▸ rowsLeft_lt hlisting hnext) rfl
      exact ⟨_, .next hwindow hvisits, forall_mem_cons.mpr ⟨rfl, hsame⟩⟩

/-! ## A passed name -/

theorem bound_of_inherited {row : PathName × ℕ} (hrow : row ∈ state.inheritedRows cursor)
    (hlocal : ∀ other ∈ state.localRows cursor, other.1 ≠ row.1) :
    state.bound row.1 = some row.2 := by
  rcases hinherits : state.inherits with e | inherited
  · rw [inheritedRows, hinherits] at hrow
    cases hrow
  rw [inheritedRows_eq hinherits] at hrow
  split_ifs at hrow with hinherited
  · obtain ⟨hbase, habove⟩ := mem_after.mp hrow
    have hnone : ∀ {rows : List (PathName × Option ℕ)},
        (∀ other ∈ after cursor rows, other ∈ state.localRows cursor) →
        rows.lookup row.1 = none := by
      intro rows hsub
      rw [lookup_eq_none_iff]
      intro hmem
      obtain ⟨other, hother, heq⟩ := mem_map.mp hmem
      exact hlocal other (hsub other (mem_after.mpr ⟨hother, heq ▸ habove⟩)) heq
    have hactive := hnone (fun other hother => mem_append_left _ hother)
    have hcaptured := hnone (fun other hother => mem_append_right _ hother)
    have hfound : (state.baseLayer inherited).lookup row.1 = some (some row.2) := by
      rw [baseLayer, if_pos hinherited, ← asLayer,
        ← (ascending_asLayer ascending_baseRows).mem_iff_lookup]
      exact mem_map_of_mem hbase
    rw [bound, hinherits]
    simp only [resolve, findSome?_cons, hactive, hcaptured, hfound]
    rfl
  · cases hrow

/-- **A window that passes a name does not show it and resumes after it.** -/
theorem passed_of_passes (hpass : state.Passes cursor) {listing : ViewListing}
    (h : state.list cursor = .ok listing) :
    ∃ name last, (state.bound name).isSome ∧ listing.continuation = some last ∧ name < last ∧
      name ∉ listing.entries.map Prod.fst := by
  obtain ⟨shown, omitted, rest, hrows, hlength, hbytes, hlocal, beyond, hbeyond, hlt⟩ := hpass
  obtain ⟨⟨inherited, hinherits⟩, hentries, hlast, hend⟩ := list_eq_ok h
  have hsorted : Ascending (shown ++ omitted :: rest) := hrows ▸ ascending_inheritedRows
  rw [Ascending, pairwise_append] at hsorted
  obtain ⟨hshown, hrest, hcross⟩ := hsorted
  have hcut : listedLength pageRows basePageBytes (state.inheritedRows cursor) = shown.length := by
    have htake : (state.inheritedRows cursor).take pageRows = shown ++ [omitted] := by
      rw [hrows, ← hlength, take_length_add_append]
      rfl
    rw [listedLength, htake, if_neg (not_le.mpr hbytes)]
    omega
  have hpage : (state.inheritedRows cursor).take
      (listedLength pageRows basePageBytes (state.inheritedRows cursor)) = shown := by
    rw [hcut, hrows, take_left]
  have hnew : omitted.1 ∉ shown.map Prod.fst := by
    intro hmem
    obtain ⟨row, hrow, heq⟩ := mem_map.mp hmem
    exact absurd (hcross row hrow omitted mem_cons_self) (by rw [heq]; exact lt_irrefl _)
  have hbelow : ∀ entry ∈ (windowMerge state cursor).visited, entry.1 ≤ omitted.1 →
      entry.1 ∈ shown.map Prod.fst := by
    intro entry hentry hle
    obtain ⟨-, ⟨row, hrow, heq⟩ | hbase⟩ := visited_cases hentry
    · exact heq ▸ hlocal row hrow (heq ▸ hle)
    · rwa [hpage] at hbase
  -- a window of keys up to the omitted one has room for the local row beyond it
  have hvisits := @windowMerge_visits state cursor
  have hpast : ∃ entry ∈ (windowMerge state cursor).visited, omitted.1 < entry.1 := by
    by_contra hnone
    have hall : ∀ entry ∈ (windowMerge state cursor).visited, entry.1 ≤ omitted.1 := by
      intro entry hentry
      by_contra hgt
      exact hnone ⟨entry, hentry, not_le.mp hgt⟩
    have hcount : (windowMerge state cursor).visited.length < pageRows := by
      have hsub : (windowMerge state cursor).visited.map Prod.fst ⊆ shown.map Prod.fst := by
        intro key hkey
        obtain ⟨entry, hentry, rfl⟩ := mem_map.mp hkey
        exact hbelow entry hentry (hall entry hentry)
      have hle := (hvisits.ascending.keys_nodup.subperm hsub).length_le
      rw [length_map, length_map] at hle
      omega
    have hvisited := hvisits.rest.mp (hvisits.done hcount)
    have hreach : ∀ {rows : List (PathName × Option ℕ)}, Ascending rows →
        (∀ row ∈ rows.take pageRows, row.1 ∈ (windowMerge state cursor).visited.map Prod.fst) →
        beyond ∈ rows → False := by
      intro rows hrows hshows hmem
      rw [← take_append_drop pageRows rows, mem_append] at hmem
      rcases hmem with hmem | hmem
      · obtain ⟨entry, hentry, heq⟩ := mem_map.mp (hshows beyond hmem)
        exact absurd (hall entry hentry) (by rw [heq]; exact not_le.mpr hlt)
      · have hlong := (Ascending.keys_nodup (ascending_take hrows)).subperm (fun key hkey => by
          obtain ⟨row, hrow, rfl⟩ := mem_map.mp hkey
          exact hshows row hrow) |>.length_le
        rw [length_map, length_map, length_take] at hlong
        have hdrop := length_pos_of_mem hmem
        rw [length_drop] at hdrop
        omega
    rcases mem_append.mp hbeyond with hmem | hmem
    · exact hreach (ascending_after state.active.sorted) (hvisited _ (by simp)) hmem
    · exact hreach (ascending_after state.captured.sorted) (hvisited _ (by simp)) hmem
  obtain ⟨entry, hentry, hentrylt⟩ := hpast
  have hcontinues : ∃ last, listing.continuation = some last := by
    rcases hnext : listing.continuation with _ | last
    · have hbase := (hend hnext).base
      rw [hcut, hrows, length_append, length_cons] at hbase
      omega
    · exact ⟨last, rfl⟩
  obtain ⟨last, hnext⟩ := hcontinues
  refine ⟨omitted.1, last, ?_, hnext, ?_, ?_⟩
  · rw [@bound_of_inherited state cursor omitted (by rw [hrows]; simp) fun other hother heq =>
      hnew (heq ▸ hlocal other hother heq.le)]
    rfl
  · obtain ⟨final, hfinal, rfl⟩ := Option.map_eq_some_iff.mp (hlast last hnext)
    refine hentrylt.trans_le (Page.le_getLast (pairwise_map.mpr hvisits.ascending) ?_
      (mem_map_of_mem hentry))
    rw [getLast?_map, hfinal]
    rfl
  · intro hmem
    obtain ⟨row, hrow, heq⟩ := mem_map.mp hmem
    rw [hentries] at hrow
    have hvisit := mem_boundEntries.mp hrow
    have hin := hbelow _ hvisit heq.le
    exact hnew (heq ▸ hin)

/-! ## A directory that loses a name -/

/-- First bytes of the long names: printable, in order, without a backslash. -/
def longByte (k : Fin 64) : ℕ := if k.1 < 44 then 48 + k.1 else 49 + k.1

theorem utf8Valid_ascii {bytes : List ℕ} (h : ∀ b ∈ bytes, b < 0x80) : utf8Valid bytes = true := by
  induction bytes with
  | nil => rw [utf8Valid]
  | cons b bytes ih =>
    obtain ⟨hb, hrest⟩ := forall_mem_cons.mp h
    rw [utf8Valid.eq_def]
    simp only
    rw [if_pos hb]
    exact ih hrest

theorem longByte_range (k : Fin 64) :
    48 ≤ longByte k ∧ longByte k < 0x80 ∧ longByte k ≠ 0x5C := by
  rw [longByte]
  split_ifs <;> omega

theorem validateName_long (k : Fin 64) :
    validateName (longByte k :: List.replicate 254 97) = .ok () := by
  obtain ⟨hlow, hhigh, hslash⟩ := longByte_range k
  simp only [validateName, check_bind_eq_ok, ensure_eq_ok]
  refine ⟨rfl, ?_, utf8Valid_ascii (forall_mem_cons.mpr ⟨hhigh, ?_⟩), ?_⟩
  · rw [length_cons, length_replicate]
    rfl
  · intro b hb
    rw [eq_of_mem_replicate hb]
    decide
  · have hnot : ∀ b, b < 48 ∨ b = 0x5C → (longByte k :: List.replicate 254 97).contains b = false := by
      intro b hb
      rw [contains_eq_mem, decide_eq_false_iff_not, mem_cons, mem_replicate]
      omega
    have hdot : ∀ rest : List ℕ, (longByte k :: List.replicate 254 97 != 0x2E :: rest) = true := by
      intro rest
      rw [bne_iff_ne]
      intro h
      have hhead := (List.cons.inj h).1
      omega
    rw [hdot [], hdot [0x2E], hnot 0 (by omega), hnot 0x2F (by omega), hnot 0x5C (by omega)]
    rfl

def longName (k : Fin 64) : PathName := ⟨longByte k :: List.replicate 254 97, validateName_long k⟩

theorem length_longName {k : Fin 64} : (longName k).bytes.length = 255 := by
  rw [longName, length_cons, length_replicate]

theorem longName_lt {a b : Fin 64} (h : a < b) : longName a < longName b := by
  refine PathName.lt_iff.mpr (cons_lt_cons_iff.mpr (.inl ?_))
  have hval : a.1 < b.1 := h
  rw [longByte, longByte]
  split_ifs <;> omega

def longRows (ks : List (Fin 64)) : List (PathName × ℕ) := ks.map fun k => (longName k, k.1 + 2)

theorem ascending_longRows {ks : List (Fin 64)} (h : ks.Pairwise (· < ·)) :
    Ascending (longRows ks) :=
  pairwise_map.mpr (h.imp longName_lt)

theorem listedBytes_longRows {ks : List (Fin 64)} :
    listedBytes (longRows ks) = 265 * ks.length := by
  have hwidth : ∀ k : Fin 64, listingWidth (longName k) = 265 := by
    intro k
    rw [listingWidth, length_longName]
  induction ks with
  | nil => rfl
  | cons k ks ih =>
    rw [longRows, map_cons, listedBytes, map_cons, sum_cons, hwidth, ← longRows,
      ← listedBytes, ih, length_cons]
    omega

theorem size_longRows {ks : List (Fin 64)} :
    compactDirectory.size ((longRows ks).map Prod.fst) 0 = 44 + 265 * ks.length := by
  have hsame : ((longRows ks).map Prod.fst).map (compactDirectory.width · 0) =
      (longRows ks).map fun row => listingWidth row.1 := by
    rw [map_map]
    refine map_congr_left fun row _ => ?_
    simp only [Function.comp, compactDirectory, listingWidth, if_pos]
    omega
  rw [Format.size, hsame, ← listedBytes, listedBytes_longRows]
  rfl

theorem directoryCheck_longLeaf {ks : List (Fin 64)} {k : Fin 64} (hordered : ks.Pairwise (· < ·))
    (hfew : ks.length ≤ 30) (hmany : 13 ≤ ks.length) (hlast : ks.getLast? = some k) :
    directoryCheck (some (0, longName k)) (.leaf (longRows ks)) := by
  have hsize := @size_longRows ks
  have hkeys : (Page.leaf (longRows ks)).keys = (longRows ks).map Prod.fst := rfl
  simp only [directoryCheck, checkedDirectory, Format.decode, check_bind_eq_ok, ensure_eq_ok, hkeys,
    Page.level, hsize]
  refine ⟨⟨decide_eq_true ?_, ?_⟩, ?_, rfl, ?_⟩
  · rw [maximumPageBytes]
    omega
  · simp only [compactDirectory, check_bind_eq_ok, ensure_eq_ok]
    refine ⟨all_eq_true.mpr fun row hrow => ?_, (strictlyOrdered_iff _).mpr
      (pairwise_map.mpr (ascending_longRows hordered))⟩
    obtain ⟨k, -, rfl⟩ := mem_map.mp hrow
    rfl
  · have hfilled : compactDirectory.filled (44 + 265 * ks.length)
        ((longRows ks).map Prod.fst).length 0 = true :=
      decide_eq_true (by rw [minimumFilledPageBytes]; omega)
    rw [hfilled]
    rfl
  · rw [Option.map_some, Option.all_some, getLast?_map, longRows, getLast?_map, hlast]
    simp

def longKeys (start length : ℕ) : List (Fin 64) := ((List.finRange 64).drop start).take length

theorem longKeys_ordered {start length : ℕ} : (longKeys start length).Pairwise (· < ·) :=
  List.Pairwise.sublist ((take_sublist _ _).trans (drop_sublist _ _))
    (pairwise_lt_finRange 64)

def longPage : DirectoryPage :=
  .branch 1 64 16960 [(longName 21, .leaf (longRows (longKeys 0 22))),
    (longName 42, .leaf (longRows (longKeys 22 21))), (longName 63, .leaf (longRows (longKeys 43 21)))]

theorem rows_longPage : longPage.rows = longRows (List.finRange 64) := by
  have hkeys : longKeys 0 22 ++ (longKeys 22 21 ++ longKeys 43 21) = List.finRange 64 := by decide
  rw [longPage, Page.rows_branch, Page.childRows_cons, Page.childRows_cons, Page.childRows_cons,
    Page.childRows_nil, Page.rows_leaf, Page.rows_leaf, Page.rows_leaf, append_nil, ← hkeys,
    longRows, longRows, longRows, longRows, map_append, map_append]

theorem checked_longPage : Page.AllChecked directoryCheck none longPage := by
  have hleaf : ∀ {start length : ℕ} {k : Fin 64}, (longKeys start length).length ≤ 30 →
      13 ≤ (longKeys start length).length → (longKeys start length).getLast? = some k →
      Page.AllChecked directoryCheck (some (0, longName k))
        (.leaf (longRows (longKeys start length))) := by
    intro start length k hfew hmany hlast
    rw [Page.AllChecked]
    exact directoryCheck_longLeaf longKeys_ordered hfew hmany hlast
  rw [longPage, Page.allChecked_branch]
  have hwidth : ∀ k : Fin 64, compactDirectory.width (longName k) 1 = 289 := by
    intro k
    simp only [compactDirectory, length_longName]
    rfl
  refine ⟨?_, ?_⟩
  · simp only [directoryCheck, checkedDirectory, Format.decode, check_bind_eq_ok, ensure_eq_ok]
    refine ⟨⟨decide_eq_true ?_, ?_⟩, rfl, rfl, rfl⟩
    · simp only [Format.size, Page.keys, Page.level, map_cons, map_nil, hwidth]
      decide
    · simp only [compactDirectory, check_bind_eq_ok, ensure_eq_ok]
      refine ⟨rfl, (strictlyOrdered_iff _).mpr ?_⟩
      simp only [map_cons, map_nil, pairwise_cons, mem_cons, not_mem_nil]
      simp [longName_lt]
  · rw [Page.childrenChecked_cons, Page.childrenChecked_cons, Page.childrenChecked_cons]
    exact ⟨hleaf (by decide) (by decide) (by decide), hleaf (by decide) (by decide) (by decide),
      hleaf (by decide) (by decide) (by decide), by rw [Page.ChildrenChecked]; trivial⟩

theorem longName_lt_shortName (k : Fin 64) : longName k < shortName := by
  refine PathName.lt_iff.mpr (cons_lt_cons_iff.mpr (.inl ?_))
  have hk := k.2
  rw [longByte]
  split_ifs <;> omega

/-- **A directory of 64 inherited names of 255 bytes and one local name after them.** -/
def longNames : DirectoryState where
  serial := 1
  rootSerial := 1
  installed := 0
  inode := none
  active := ⟨[(shortName, some 70)], pairwise_singleton _ _⟩
  captured := .empty
  base := .directory ⟨longPage, checked_longPage, by
    rw [rows_longPage]
    exact ascending_longRows (pairwise_lt_finRange 64)⟩
  kindOf := fun _ => .ok .regularFile

theorem longNames_inheritedRows :
    longNames.inheritedRows none = longRows ((List.finRange 64).take 63) ++ [(longName 63, 65)] := by
  have hkeys : List.finRange 64 = (List.finRange 64).take 63 ++ [63] := by decide
  have hall : longNames.inheritedRows none = longPage.rows :=
    filter_eq_self.mpr fun row _ => decide_eq_true (by simp)
  rw [hall, rows_longPage]
  conv_lhs => rw [hkeys]
  rw [longRows, map_append, ← longRows]
  rfl

theorem longNames_passes : longNames.Passes none := by
  have hlocal : longNames.localRows none = [(shortName, some 70)] := by
    rw [localRows, after, after, filter_eq_self.mpr fun row _ => decide_eq_true (by simp),
      filter_eq_self.mpr fun row _ => decide_eq_true (by simp)]
    rfl
  refine ⟨longRows ((List.finRange 64).take 63), (longName 63, 65), [], longNames_inheritedRows, ?_,
    ?_, ?_, ?_⟩
  · rw [longRows, length_map]
    decide
  · rw [listedBytes_append, listedBytes_longRows]
    have hone : listedBytes [(longName 63, 65)] = 265 * [63].length := @listedBytes_longRows [63]
    rw [hone]
    decide
  · rw [hlocal]
    intro row hrow hle
    rw [mem_singleton.mp hrow] at hle
    exact absurd hle (not_le.mpr (longName_lt_shortName 63))
  · rw [hlocal]
    exact ⟨_, mem_singleton_self _, longName_lt_shortName 63⟩

theorem Window.above {delivered : List (PathName × ℕ)} {next : Option PathName}
    (h : Window state cursor delivered next) :
    (∀ row ∈ delivered, above cursor row.1) ∧ ∀ last ∈ next, above cursor last := by
  cases h with
  | listed h => exact ⟨fun row hrow => (list_sound h hrow).1, list_progress h⟩
  | replied h haccepted =>
    rename_i entries accepted continuation published last
    have hsub := (haccepted.trans finish_prefix).subset
    rcases kernelListing_eq_ok h with ⟨listing, hlist, hbindings, -⟩ | ⟨hnil, -, -⟩
    · have hentry : ∀ entry ∈ accepted ++ [last], LayerFs.above cursor entry.name := by
        intro entry hentry
        refine (list_sound hlist (?_ : (entry.name, entry.serial) ∈ listing.entries)).1
        rw [← hbindings]
        exact mem_map_of_mem (hsub hentry)
      refine ⟨fun row hrow => ?_, fun final hfinal => ?_⟩
      · obtain ⟨entry, hmem, rfl⟩ := mem_map.mp hrow
        exact hentry entry hmem
      · cases hfinal
        exact hentry last (by simp)
    · rw [hnil] at hsub
      exact absurd (hsub (by simp : last ∈ accepted ++ [last])) (by simp)
  | skipped h =>
    refine ⟨by simp, fun last hlast => ?_⟩
    rcases kernelListing_eq_ok h with ⟨listing, hlist, -, rfl⟩ | ⟨-, rfl, -⟩
    · exact list_progress hlist last hlast
    · cases hlast

theorem Enumeration.above {visits : List Visit} (h : Enumeration cursor visits) :
    ∀ row ∈ returned visits, above cursor row.1 := by
  induction h with
  | last h =>
    intro row hrow
    rw [returned_cons, mem_append] at hrow
    exact h.above.1 row (hrow.resolve_right (by simp [returned]))
  | next h _ ih =>
    intro row hrow
    obtain ⟨hdelivered, hnext⟩ := h.above
    rw [returned_cons, mem_append] at hrow
    rcases hrow with hrow | hrow
    · exact hdelivered row hrow
    · intro floor hfloor
      exact (hnext _ rfl floor hfloor).trans (ih row hrow _ rfl)

/-- **An enumeration of the unchanged directory that never returns one of its names.** -/
theorem enumeration_loses_name : ∃ visits name, Enumeration none visits ∧
    (∀ visit ∈ visits, visit.state = longNames) ∧
    (∀ visit ∈ visits, (visit.state.bound name).isSome) ∧
    name ∉ (returned visits).map Prod.fst := by
  have hreadable : Readable longNames := ⟨true, rfl, fun _ => ⟨_, rfl⟩⟩
  obtain ⟨listing, hlisting⟩ := @list_total longNames none hreadable
  obtain ⟨name, last, hbound, hnext, hlt, hmissing⟩ := passed_of_passes longNames_passes hlisting
  obtain ⟨visits, hvisits, hsame⟩ := @enumeration_exists longNames (some last) hreadable
  have hwindow := Window.listed hlisting
  rw [hnext] at hwindow
  refine ⟨⟨longNames, none, listing.entries⟩ :: visits, name, .next hwindow hvisits,
    forall_mem_cons.mpr ⟨rfl, hsame⟩, forall_mem_cons.mpr ⟨hbound, fun visit hvisit => ?_⟩,
    ?_⟩
  · rw [hsame visit hvisit]
    exact hbound
  · intro hmem
    rw [returned_cons, map_append, mem_append] at hmem
    rcases hmem with hmem | hmem
    · exact hmissing hmem
    · obtain ⟨row, hrow, rfl⟩ := mem_map.mp hmem
      exact hlt.asymm (hvisits.above row hrow last rfl)

end Listing

end LayerFs
