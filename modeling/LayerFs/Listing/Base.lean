import LayerFs.Directory.Deliver

/-!
# One base window under any byte bound

`list_after_bytes` stops at the entry bound or at the byte bound, whichever comes first. The engine
asks for 64 rows in `64 * 264` bytes, and a row of a 255-byte name takes 265: a window may end one
row early.

* `listAfter_eq` — **a window of a checked directory**: that many of the rows past the cursor, with a
  continuation exactly when a row is left.
-/

namespace LayerFs

open List

variable {a b rows : List (PathName × ℕ)} {s : Scan}

def listedBytes (rows : List (PathName × ℕ)) : ℕ := (rows.map fun row => listingWidth row.1).sum

/-- Rows a window takes: its entry bound, or one less when these do not fit its bytes. -/
def listedLength (maxEntries maxBytes : ℕ) (rows : List (PathName × ℕ)) : ℕ :=
  if listedBytes (rows.take maxEntries) ≤ maxBytes then maxEntries else maxEntries - 1

theorem listedBytes_append : listedBytes (a ++ b) = listedBytes a + listedBytes b := by
  rw [listedBytes, map_append, sum_append, listedBytes, listedBytes]

theorem listedBytes_le {rows : List (PathName × ℕ)} :
    listedBytes rows ≤ listingWidthBound * rows.length := by
  induction rows with
  | nil => exact Nat.le_refl 0
  | cons row rows ih =>
    have hwidth := listingWidth_le row.1
    rw [listedBytes, map_cons, sum_cons, length_cons, Nat.mul_add, Nat.mul_one]
    rw [listedBytes] at ih
    omega

section Window

variable {after : Option PathName} {E B : ℕ}

/-! ## Flat rows -/

theorem listRows_cons_above {row : PathName × ℕ} (habove : above after row.1) :
    listRows after E B (row :: rows) s =
      if B < s.bytes + listingWidth row.1 then
        if s.entries.isEmpty then .error (.objectLimitExceeded B (listingWidth row.1))
        else .ok { s with full := true }
      else if s.entries.length = E then .ok { s with full := true }
      else listRows after E B rows
        { s with entries := s.entries ++ [row], bytes := s.bytes + listingWidth row.1 } := by
  obtain ⟨name, serial⟩ := row
  rw [listRows, if_neg (by rw [any_le_eq]; exact not_not.mpr habove)]

theorem listRows_filter :
    listRows after E B (rows.filter fun row => above after row.1) s =
      listRows after E B rows s := by
  induction rows generalizing s with
  | nil => rfl
  | cons row rows ih =>
    by_cases habove : above after row.1
    · rw [filter_cons_of_pos (by simpa), listRows_cons_above habove,
        listRows_cons_above habove, ih]
    · obtain ⟨name, serial⟩ := row
      rw [filter_cons_of_neg (by simpa), listRows, if_pos (by rw [any_le_eq]; exact habove), ih]

theorem listRows_append (hopen : s.full = false) :
    listRows after E B (a ++ b) s =
      listRows after E B a s >>= fun s' =>
        if s'.full then .ok s' else listRows after E B b s' := by
  induction a generalizing s with
  | nil => simp [listRows, bind, Except.bind, hopen]
  | cons row a ih =>
    by_cases habove : above after row.1
    · rw [cons_append, listRows_cons_above habove, listRows_cons_above habove]
      split_ifs
      · rfl
      · rfl
      · rfl
      · exact ih hopen
    · obtain ⟨name, serial⟩ := row
      have hskip : after.any (name ≤ ·) = true := any_le_eq.mpr habove
      rw [cons_append, listRows, if_pos hskip, listRows, if_pos hskip]
      exact ih hopen

/-! ## The page graph -/

theorem listChildren_full {rows : List (PathName × DirectoryPage)} (hfull : s.full = true) :
    listChildren after E B rows s = .ok s := by
  induction rows with
  | nil => rw [listChildren]
  | cons child rows ih =>
    obtain ⟨key, page⟩ := child
    rw [listChildren, listPage.eq_def, hfull, Bool.true_or, if_pos rfl]
    exact ih

/-- **The walk of a checked graph is a scan of its rows past the cursor.** -/
theorem listPage_eq_listRows :
    (∀ (p : DirectoryPage) {expected : Option (ℕ × PathName)} {s : Scan}, s.full = false →
      Page.AllChecked directoryCheck expected p →
      listPage after E B expected.isNone (expected.map Prod.snd) p s =
        listRows after E B (rowsPast after (expected.map Prod.snd) p) s) ∧
    ∀ (rows : List (PathName × DirectoryPage)) {l : ℕ} {s : Scan}, s.full = false →
      Page.ChildrenChecked directoryCheck l rows →
      listChildren after E B rows s = listRows after E B (childRowsPast after rows) s := by
  refine Page.ind₂ ?_ ?_ ?_ ?_ ?_
  · intro e expected s _ h
    exact absurd h.self directoryCheck_sound.present
  · intro rows expected s hopen h
    have hc : checkedDirectory _ none _ _ = .ok () := h.self
    rw [listPage, hopen, Bool.false_or]
    rcases hskip : skips after (expected.map Prod.snd) with _ | _
    · rw [if_neg (by simp), hc, rowsPast_leaf hskip, listRows_filter]
      rfl
    · rw [if_pos rfl, rowsPast_of_skips hskip, listRows]
  · intro l c b rows ih expected s hopen h
    have hc : checkedDirectory _ none _ _ = .ok () := h.self
    rw [listPage, hopen, Bool.false_or]
    rcases hskip : skips after (expected.map Prod.snd) with _ | _
    · rw [if_neg (by simp), hc, rowsPast_branch hskip]
      exact ih hopen (Page.allChecked_branch.mp h).2
    · rw [if_pos rfl, rowsPast_of_skips hskip, listRows]
  · intro l s _ _
    rw [listChildren, childRowsPast_nil, listRows]
  · intro k p rest ihp ihrest l s hopen h
    obtain ⟨hp, hrest⟩ := Page.childrenChecked_cons.mp h
    rw [listChildren, childRowsPast_cons, listRows_append hopen]
    rw [show listPage after E B false (some k) p s = _ from ihp hopen hp]
    congr 1
    funext s'
    rcases hfull : s'.full with _ | _
    · rw [if_neg (by simp), ihrest hfull hrest]
    · rw [if_pos rfl, listChildren_full hfull]

/-! ## How far a window gets -/

theorem listRows_cut (hE : 1 < E) (hB : listingWidthBound * (E - 1) ≤ B)
    {taken rows : List (PathName × ℕ)} (habove : ∀ row ∈ rows, above after row.1)
    (htaken : taken.length ≤ listedLength E B (taken ++ rows)) :
    listRows after E B rows ⟨taken, listedBytes taken, false⟩ =
      .ok ⟨(taken ++ rows).take (listedLength E B (taken ++ rows)),
        listedBytes ((taken ++ rows).take (listedLength E B (taken ++ rows))),
        decide (listedLength E B (taken ++ rows) < (taken ++ rows).length)⟩ := by
  have hbound : listingWidthBound * 1 ≤ listingWidthBound * (E - 1) :=
    Nat.mul_le_mul_left _ (by omega)
  induction rows generalizing taken with
  | nil =>
    rw [append_nil] at htaken ⊢
    rw [listRows, take_of_length_le htaken, decide_eq_false (by omega)]
  | cons row rows ih =>
    have hwidth := listingWidth_le row.1
    have hone : listedBytes [row] = listingWidth row.1 := by simp [listedBytes]
    have hsum : listedBytes taken + listingWidth row.1 = listedBytes (taken ++ [row]) := by
      rw [listedBytes_append, hone]
    have hsplit : taken ++ row :: rows = (taken ++ [row]) ++ rows := by simp
    have hle := @listedBytes_le (taken ++ [row])
    have hlength : (taken ++ [row]).length = taken.length + 1 := by simp
    -- the window can only stop here when it holds its entry bound, or one less
    have hstop : taken.length = listedLength E B (taken ++ row :: rows) →
        (.ok ⟨taken, listedBytes taken, true⟩ : ContentResult Scan) =
          .ok ⟨(taken ++ row :: rows).take (listedLength E B (taken ++ row :: rows)),
            listedBytes ((taken ++ row :: rows).take (listedLength E B (taken ++ row :: rows))),
            decide (listedLength E B (taken ++ row :: rows) < (taken ++ row :: rows).length)⟩ := by
      intro hfull
      rw [← hfull, take_left, decide_eq_true (by simp)]
    have hcount : taken.length ≤ E := by
      rw [listedLength] at htaken
      split_ifs at htaken <;> omega
    rw [listRows_cons_above (habove row mem_cons_self)]
    dsimp only
    rw [hsum]
    split_ifs with hbytes hempty hentries
    · rw [List.isEmpty_iff.mp hempty] at hlength hle hbytes
      simp only [nil_append, length_singleton] at hle hbytes
      omega
    · have hmul : ∀ m, m ≤ E - 1 → listingWidthBound * m ≤ B := fun m hm =>
        (Nat.mul_le_mul_left _ hm).trans hB
      have hlast : E ≤ taken.length + 1 := by
        by_contra hshort
        have := hmul (taken.length + 1) (by omega)
        rw [hlength] at hle
        omega
      refine hstop ?_
      rcases Nat.eq_or_lt_of_le hlast with heq | hlt
      · have htake : (taken ++ row :: rows).take E = taken ++ [row] := by
          rw [hsplit]
          exact take_left' (by omega)
        rw [listedLength, htake, if_neg (by omega)]
        omega
      · rw [listedLength] at htaken ⊢
        split_ifs at htaken ⊢ <;> omega
    · refine hstop ?_
      rw [listedLength] at htaken ⊢
      split_ifs at htaken ⊢ <;> omega
    · rw [hsplit] at htaken ⊢
      refine ih (fun r hr => habove r (mem_cons_of_mem row hr)) ?_
      rw [hlength]
      by_cases hlast : taken.length + 1 = E
      · have htake : ((taken ++ [row]) ++ rows).take E = taken ++ [row] :=
          take_left' (by omega)
        rw [listedLength, htake, if_pos (by omega)]
        omega
      · rw [listedLength]
        split_ifs <;> omega

/-- **A window of a checked directory.** -/
theorem listAfter_eq (hE : 1 < E) (hB : listingWidthBound * (E - 1) ≤ B) {p : DirectoryPage}
    (hc : Page.AllChecked directoryCheck none p) {rows : List (PathName × ℕ)}
    (hrows : p.rows.filter (fun row => above after row.1) = rows) :
    listAfter after E B p = .ok ⟨rows.take (listedLength E B rows),
      if listedLength E B rows < rows.length then
        (rows.take (listedLength E B rows)).getLast?.map Prod.fst else none⟩ := by
  have hpast : rowsPast after none p = rows := by
    rw [← hrows]
    exact rowsPast_eq_filter.1 p hc
  have habove : ∀ row ∈ rows, above after row.1 := by
    intro row hrow
    rw [← hrows] at hrow
    exact of_decide_eq_true (mem_filter.mp hrow).2
  have hpos : 0 < B := by
    have : listingWidthBound * 1 ≤ listingWidthBound * (E - 1) := Nat.mul_le_mul_left _ (by omega)
    have hw : 0 < listingWidthBound := by decide
    omega
  have hscan := @listRows_cut after E B hE hB [] rows habove (Nat.zero_le _)
  have hpage : listPage after E B true none p {} = listRows after E B rows {} := by
    rw [← hpast]
    exact (listPage_eq_listRows.1 p rfl hc : listPage after E B true none p {} = _)
  rw [listAfter, show ensure (E != 0 && B != 0) (.invalidRecord "listing limit") = .ok () from
    ensure_eq_ok.mpr (by simp; omega)]
  simp only [bind, Except.bind, hpage]
  rw [show listRows after E B rows {} = _ from hscan]
  simp only [nil_append, decide_eq_true_eq]

/-! ## Windows with room for one row -/

theorem listRows_window (hE : 0 < E) (hB : listingWidthBound ≤ B)
    {rows : List (PathName × ℕ)} (habove : ∀ row ∈ rows, above after row.1) :
    ∀ {s : Scan}, s.full = false → (s.entries = [] → s.bytes = 0) →
      ∃ n s', listRows after E B rows s = .ok s' ∧ s'.entries = s.entries ++ rows.take n ∧
        s'.full = decide (n < rows.length) ∧ (s.entries = [] → rows ≠ [] → 0 < n) := by
  induction rows with
  | nil =>
    intro s hopen _
    exact ⟨0, s, rfl, by simp, by simpa using hopen, fun _ h => absurd rfl h⟩
  | cons row rows ih =>
    intro s hopen hbytes
    obtain ⟨hrow, hrows⟩ := forall_mem_cons.mp habove
    have hwidth := listingWidth_le row.1
    -- a scan stops in front of a row only when it holds one
    have hstop : s.entries ≠ [] →
        ∃ n s', (.ok { s with full := true } : ContentResult Scan) = .ok s' ∧
          s'.entries = s.entries ++ (row :: rows).take n ∧
          s'.full = decide (n < (row :: rows).length) ∧
          (s.entries = [] → row :: rows ≠ [] → 0 < n) := by
      intro hheld
      exact ⟨0, _, rfl, by simp, by simp, fun h => absurd h hheld⟩
    rw [listRows_cons_above hrow]
    split_ifs with hfit hempty hcount
    · have := hbytes (List.isEmpty_iff.mp hempty)
      omega
    · exact hstop fun h => hempty (List.isEmpty_iff.mpr h)
    · refine hstop fun h => ?_
      rw [h, length_nil] at hcount
      omega
    · obtain ⟨n, s', hrun, hentries, hfull, -⟩ := ih hrows
        (s := { s with entries := s.entries ++ [row], bytes := s.bytes + listingWidth row.1 })
        hopen (fun h => absurd h (by simp))
      refine ⟨n + 1, s', hrun, ?_, ?_, fun _ _ => Nat.succ_pos n⟩
      · rw [hentries]
        simp
      · rw [hfull, length_cons]
        exact decide_eq_decide.mpr Nat.succ_lt_succ_iff.symm

/-- **A window with room for one row** of a checked directory. -/
theorem listAfter_window (hE : 0 < E) (hB : listingWidthBound ≤ B) {p : DirectoryPage}
    (hc : Page.AllChecked directoryCheck none p)
    (hrows : p.rows.filter (fun row => above after row.1) = rows) :
    ∃ n page, listAfter after E B p = .ok page ∧ page.entries = rows.take n ∧
      (rows ≠ [] → 0 < n) ∧ page.continuation =
        if n < rows.length then (rows.take n).getLast?.map Prod.fst else none := by
  have hpast : rowsPast after none p = rows := by
    rw [← hrows]
    exact rowsPast_eq_filter.1 p hc
  have habove : ∀ row ∈ rows, above after row.1 := by
    intro row hrow
    rw [← hrows] at hrow
    exact of_decide_eq_true (mem_filter.mp hrow).2
  have hpos : 0 < B := Nat.lt_of_lt_of_le (by decide) hB
  have hpage : listPage after E B true none p {} = listRows after E B rows {} := by
    rw [← hpast]
    exact (listPage_eq_listRows.1 p rfl hc : listPage after E B true none p {} = _)
  obtain ⟨n, s', hrun, hentries, hfull, hsome⟩ :=
    @listRows_window after E B hE hB rows habove {} rfl (fun _ => rfl)
  rw [nil_append] at hentries
  have hlimit : ensure (E != 0 && B != 0) (.invalidRecord "listing limit") = .ok () :=
    ensure_eq_ok.mpr (by simp; omega)
  refine ⟨n, ⟨s'.entries, if s'.full then s'.entries.getLast?.map Prod.fst else none⟩, ?_,
    hentries, hsome rfl, ?_⟩
  · rw [listAfter]
    exact check_bind_eq_ok.mpr ⟨hlimit, bind_eq_ok.mpr ⟨s', hpage.trans hrun, rfl⟩⟩
  · dsimp only
    rw [hfull, hentries]
    simp only [decide_eq_true_eq]

end Window

end LayerFs
