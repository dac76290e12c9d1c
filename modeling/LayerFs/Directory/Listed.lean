import LayerFs.Directory.Deliver
import LayerFs.Sorted.Lookup

/-!
# Reads of a directory tree (`filesystem/directory/read.rs`)

Over a valid directory tree every read answers from its rows: the lookup of one name, the lookup
of a batch in any order and with repetitions, and a listing in windows of any size that holds a
row.

* `listChain_eq` — **a listing in any windows** is the rows past its cursor.
-/

namespace LayerFs

open List

/-! ## Lookups -/

/-- The checks of `load`: `checked`, and a first name past the sibling to the left. -/
def loadDirectory (expected : Option (ℕ × PathName)) (minimum : Option PathName)
    (p : DirectoryPage) : ContentResult Unit := do
  checkedDirectory expected.isNone (expected.map Prod.fst) (expected.map Prod.snd) p
  ensure (minimum.all fun m => p.keys.head?.all (m < ·)) .nonCanonicalOrdering

def directoryLookup (root : DirectoryPage) (name : PathName) : ContentResult (Option ℕ) :=
  root.lookupPage loadDirectory (fun rows name => rows.lookup name) name none none

/-- Resolves many names: no wave for an empty batch, and no level check. -/
def directoryLookupMany (root : DirectoryPage) (names : List PathName) :
    ContentResult (List (Option ℕ)) :=
  if names.isEmpty then .ok []
  else Page.lookupBatch compactDirectory.decode
    (fun expected p => checkedDirectory expected.isNone none (expected.map Prod.snd) p) root names

def levelledDirectory (expected : Option (ℕ × PathName)) (p : DirectoryPage) : Prop :=
  checkedDirectory expected.isNone (expected.map Prod.fst) (expected.map Prod.snd) p = .ok ()

/-- **A valid directory tree**: every page passes its checks where it lies, and the rows ascend. -/
structure ValidDirectory (root : DirectoryPage) : Prop where
  checked : root.AllChecked levelledDirectory none
  ascending : (root.rows.map Prod.fst).Pairwise (· < ·)

theorem directoryCheck_of_levelled {expected : Option (ℕ × PathName)} {p : DirectoryPage}
    (h : levelledDirectory expected p) : directoryCheck expected p := by
  rw [levelledDirectory, checkedDirectory] at h
  obtain ⟨hdecode, h⟩ := check_bind_eq_ok.mp h
  obtain ⟨hfilled, h⟩ := check_bind_eq_ok.mp h
  exact check_bind_eq_ok.mpr ⟨hdecode, check_bind_eq_ok.mpr ⟨hfilled,
    check_bind_eq_ok.mpr ⟨rfl, (check_bind_eq_ok.mp h).2⟩⟩⟩

theorem levelledDirectory_sound : Page.Sound levelledDirectory where
  present h := directoryCheck_sound.present (directoryCheck_of_levelled h)
  ordered h := directoryCheck_sound.ordered (directoryCheck_of_levelled h)
  last h := directoryCheck_sound.last (directoryCheck_of_levelled h)

theorem levelledDirectory_level {expected : Option (ℕ × PathName)} {p : DirectoryPage}
    (h : levelledDirectory expected p) :
    p.level ≤ maximumTreeLevel ∧ (∀ e ∈ expected, p.level = e.1) ∧
      ∀ level count bytes rows, p = .branch level count bytes rows → level ≠ 0 := by
  rw [levelledDirectory, checkedDirectory] at h
  obtain ⟨hdecode, h⟩ := check_bind_eq_ok.mp h
  obtain ⟨-, h⟩ := check_bind_eq_ok.mp h
  have hrecorded := ensure_eq_ok.mp (check_bind_eq_ok.mp h).1
  have hbranch : ∀ level count bytes rows, p = .branch level count bytes rows →
      0 < level ∧ level ≤ maximumTreeLevel := by
    rintro level count bytes rows rfl
    have hd := (check_bind_eq_ok.mp hdecode).2
    have hlevel := ensure_eq_ok.mp (check_bind_eq_ok.mp hd).1
    simp only [Bool.and_eq_true, decide_eq_true_eq] at hlevel
    exact hlevel.1
  refine ⟨?_, ?_, fun level count bytes rows hp => (hbranch level count bytes rows hp).1.ne'⟩
  · cases p with
    | absent e => exact Nat.zero_le _
    | leaf rows => exact Nat.zero_le _
    | branch level count bytes rows => exact (hbranch level count bytes rows rfl).2
  · intro e he
    rw [Option.mem_def.mp he] at hrecorded
    exact (beq_iff_eq.mp hrecorded).symm

theorem levelledDirectory_branching : Page.Branching levelledDirectory :=
  fun h => (levelledDirectory_level h).2.2 _ _ _ _ rfl

theorem head_above {K V : Type} [LinearOrder K] {floor : Option K} {p : Page K V}
    (h : p.InOrder floor) : (floor.all fun m => p.keys.head?.all (m < ·)) = true := by
  have hhead : ∀ k ∈ p.keys.head?, above floor k := by
    intro k hk
    cases p with
    | absent e => cases hk
    | leaf rows =>
      obtain ⟨row, hrow, rfl⟩ := mem_map.mp (mem_of_head? hk)
      exact Page.inOrder_leaf.mp h row hrow
    | branch level count bytes children =>
      rw [Page.inOrder_branch] at h
      cases children with
      | nil => cases hk
      | cons kp rest =>
        cases hk
        exact (Page.childrenInOrder_cons.mp h).1
  rw [Option.all_eq_true]
  intro m hm
  rw [Option.all_eq_true]
  exact fun k hk => decide_eq_true (hhead k hk m hm)

namespace ValidDirectory

variable {root : DirectoryPage}

theorem inOrder (h : ValidDirectory root) : root.InOrder none :=
  Page.inOrder_of_pairwise levelledDirectory_sound h.checked h.ascending
    fun _ _ => above_none

/-- **One lookup** answers from the rows. -/
theorem lookup_eq (h : ValidDirectory root) (name : PathName) :
    directoryLookup root name = .ok (root.rows.lookup name) := by
  refine (Page.lookupPage_eq levelledDirectory_sound levelledDirectory_branching ?_
    fun _ => rfl).1 root h.checked h.inOrder
  intro expected floor p hchecked horder
  exact check_bind_eq_ok.mpr ⟨hchecked.self, ensure_eq_ok.mpr (head_above horder)⟩

/-- **A batch of lookups** answers from the rows, in the order of the batch. -/
theorem lookupMany_eq (h : ValidDirectory root) (names : List PathName) :
    directoryLookupMany root names = .ok (names.map fun name => root.rows.lookup name) := by
  rw [directoryLookupMany]
  split_ifs with hempty
  · rw [List.isEmpty_iff.mp hempty]
    rfl
  · refine Page.lookupBatch_eq levelledDirectory_sound levelledDirectory_branching
      (fun hp => (levelledDirectory_level hp).2.1 _ rfl)
      (fun hp => directoryCheck_of_levelled hp.self) ?_ h.checked h.inOrder
      (levelledDirectory_level h.checked.self).1
    exact fun hp => (check_bind_eq_ok.mp hp.self).1

end ValidDirectory

/-! ## One window of any size -/

/-- A scan that is full holds a row, and an empty one charged nothing. -/
structure Scan.Steady (scan : Scan) : Prop where
  stopped : scan.full = true → scan.entries ≠ []
  fresh : scan.entries = [] → scan.bytes = 0

/-- **What a window takes** of the rows it meets: the first ones, none once it is full, and it is
full when some are left. -/
def Scan.Fills (s : Scan) (rows : List (PathName × ℕ)) (s' : Scan) : Prop :=
  ∃ taken left, rows = taken ++ left ∧ s'.entries = s.entries ++ taken ∧
    (s.full = true → taken = []) ∧ (s'.full = true ↔ s.full = true ∨ left ≠ [])

namespace Scan

variable {s s₁ s₂ : Scan} {a b : List (PathName × ℕ)}

theorem Fills.none : s.Fills [] s :=
  ⟨[], [], rfl, (append_nil _).symm, fun _ => rfl, (or_iff_left fun h => h rfl).symm⟩

theorem Fills.of_full (h : s.full = true) : s.Fills a s :=
  ⟨[], a, rfl, (append_nil _).symm, fun _ => rfl, fun h => .inl h, fun _ => h⟩

theorem Fills.append (ha : s.Fills a s₁) (hb : s₁.Fills b s₂) : s.Fills (a ++ b) s₂ := by
  obtain ⟨taken, left, rfl, hentries, hnone, hfull⟩ := ha
  obtain ⟨taken', left', rfl, hentries', hnone', hfull'⟩ := hb
  by_cases hleft : left = []
  · subst hleft
    rw [append_nil]
    refine ⟨taken ++ taken', left', (append_assoc _ _ _).symm, ?_, fun h => ?_, ?_⟩
    · rw [hentries', hentries, append_assoc]
    · rw [hnone h, hnone' (hfull.mpr (.inl h))]
      rfl
    · rw [hfull', hfull]
      exact or_congr_left (or_iff_left fun h => h rfl)
  · -- the first run filled the window
    have hstop : s₁.full = true := hfull.mpr (.inr hleft)
    refine ⟨taken, left ++ (taken' ++ left'), append_assoc _ _ _, ?_, hnone, ?_⟩
    · rw [hentries', hentries, hnone' hstop, append_nil]
    · rw [hfull']
      refine ⟨fun _ => .inr ?_, fun _ => .inl hstop⟩
      exact fun h => hleft (append_eq_nil_iff.mp h).1

theorem Fills.one {row : PathName × ℕ} (h : s.full = false) :
    s.Fills [row] { s with entries := s.entries ++ [row],
                           bytes := s.bytes + listingWidth row.1 } :=
  ⟨[row], [], rfl, rfl, fun hf => absurd (h.symm.trans hf) Bool.false_ne_true,
    (or_iff_left fun h => h rfl).symm⟩

end Scan

section Listed

variable {after : Option PathName} {E B : ℕ}

/-- **The rows of one leaf**, with room in an empty window for each of them. -/
theorem listRows_fills (hE : E ≠ 0) {rows : List (PathName × ℕ)} :
    ∀ {s : Scan}, (∀ row ∈ rows, listingWidth row.1 ≤ B) → s.Steady → s.full = false →
      ∃ s', listRows after E B rows s = .ok s' ∧
        s.Fills (rows.filter fun row => above after row.1) s' ∧ s'.Steady := by
  induction rows with
  | nil => exact fun _ hs _ => ⟨_, rfl, .none, hs⟩
  | cons row rest ih =>
    obtain ⟨name, serial⟩ := row
    intro s hwidth hs hopen
    have hrest : ∀ row ∈ rest, listingWidth row.1 ≤ B :=
      fun row h => hwidth row (mem_cons_of_mem _ h)
    rw [listRows]
    by_cases habove : above after name
    · rw [if_neg (by rw [any_le_eq, not_not]; exact habove),
        filter_cons_of_pos (by simpa using habove)]
      -- the window stops here with rows in it, or takes the row
      have hstop : s.entries ≠ [] →
          s.Fills ((name, serial) :: rest.filter fun row => above after row.1)
            { s with full := true } ∧ Scan.Steady { s with full := true } := by
        intro hne
        refine ⟨⟨[], _, rfl, (append_nil _).symm, fun _ => rfl, ?_⟩, fun _ => hne, hs.fresh⟩
        exact ⟨fun _ => .inr (cons_ne_nil _ _), fun _ => rfl⟩
      by_cases hroom : B < s.bytes + listingWidth name
      · have hne : s.entries ≠ [] := by
          intro hnone
          have hfit := hwidth (name, serial) mem_cons_self
          rw [hs.fresh hnone, Nat.zero_add] at hroom
          exact absurd hroom (not_lt.mpr hfit)
        rw [if_pos hroom, if_neg (by rwa [List.isEmpty_iff])]
        exact ⟨_, rfl, hstop hne⟩
      · rw [if_neg hroom]
        by_cases hcount : s.entries.length = E
        · rw [if_pos hcount]
          refine ⟨_, rfl, hstop fun hnone => hE ?_⟩
          rw [← hcount, hnone, length_nil]
        · rw [if_neg hcount]
          have hnext : Scan.Steady { s with entries := s.entries ++ [(name, serial)],
                                            bytes := s.bytes + listingWidth name } :=
            ⟨fun _ => append_ne_nil_of_right_ne_nil _ (cons_ne_nil _ _),
              fun h => absurd (append_eq_nil_iff.mp h).2 (cons_ne_nil _ _)⟩
          obtain ⟨s', hrun, hfills, hsteady⟩ := ih hrest hnext hopen
          exact ⟨s', hrun, (Scan.Fills.one hopen).append hfills, hsteady⟩
    · rw [if_pos (any_le_eq.mpr habove), filter_cons_of_neg (by simpa using habove)]
      exact ih hrest hs hopen

/-- **The pages of one window** take the first rows past the cursor. -/
theorem list_fills (hE : E ≠ 0) :
    (∀ (p : DirectoryPage) {expected : Option (ℕ × PathName)} {s : Scan},
      p.AllChecked directoryCheck expected → (∀ row ∈ p.rows, listingWidth row.1 ≤ B) →
      s.Steady → ∃ s', listPage after E B expected.isNone (expected.map Prod.snd) p s = .ok s' ∧
        s.Fills (rowsPast after (expected.map Prod.snd) p) s' ∧ s'.Steady) ∧
    ∀ (children : List (PathName × DirectoryPage)) {level : ℕ} {s : Scan},
      Page.ChildrenChecked directoryCheck level children →
      (∀ row ∈ Page.childRows children, listingWidth row.1 ≤ B) → s.Steady →
      ∃ s', listChildren after E B children s = .ok s' ∧
        s.Fills (childRowsPast after children) s' ∧ s'.Steady := by
  -- a page behind the cursor or after the end of the window is not read
  have hunread : ∀ {p : DirectoryPage} {maximum : Option PathName} {s : Scan},
      (s.full || skips after maximum) = true → s.Fills (rowsPast after maximum p) s := by
    intro p maximum s h
    rcases Bool.or_eq_true_iff.mp h with hfull | hskip
    · exact .of_full hfull
    · rw [rowsPast_of_skips hskip]
      exact .none
  refine Page.ind₂ ?_ ?_ ?_ ?_ ?_
  · exact fun e expected s h => absurd h.self directoryCheck_sound.present
  · intro rows expected s h hwidth hs
    have hcheck : checkedDirectory expected.isNone none (expected.map Prod.snd) (.leaf rows) =
      .ok () := h.self
    rw [listPage]
    by_cases hunread' : (s.full || skips after (expected.map Prod.snd)) = true
    · rw [if_pos hunread']
      exact ⟨s, rfl, hunread hunread', hs⟩
    · rw [if_neg hunread', hcheck, ok_bind]
      rw [Bool.not_eq_true, Bool.or_eq_false_iff] at hunread'
      rw [rowsPast_leaf hunread'.2]
      exact listRows_fills hE (by rwa [Page.rows_leaf] at hwidth) hs hunread'.1
  · intro level count bytes children ih expected s h hwidth hs
    have hcheck : checkedDirectory expected.isNone none (expected.map Prod.snd)
      (.branch level count bytes children) = .ok () := h.self
    rw [listPage]
    by_cases hunread' : (s.full || skips after (expected.map Prod.snd)) = true
    · rw [if_pos hunread']
      exact ⟨s, rfl, hunread hunread', hs⟩
    · rw [if_neg hunread', hcheck, ok_bind]
      rw [Bool.not_eq_true, Bool.or_eq_false_iff] at hunread'
      rw [rowsPast_branch hunread'.2]
      exact ih (Page.allChecked_branch.mp h).2 (by rwa [Page.rows_branch] at hwidth) hs
  · intro level s _ _ hs
    rw [listChildren, childRowsPast_nil]
    exact ⟨s, rfl, .none, hs⟩
  · intro key child rest ihchild ihrest level s h hwidth hs
    obtain ⟨hchild, hrest⟩ := Page.childrenChecked_cons.mp h
    rw [Page.childRows_cons] at hwidth
    obtain ⟨s₁, hrun, hfills, hs₁⟩ :=
      ihchild hchild (fun row hrow => hwidth row (mem_append_left _ hrow)) hs
    obtain ⟨s₂, hrun', hfills', hs₂⟩ :=
      ihrest hrest (fun row hrow => hwidth row (mem_append_right _ hrow)) hs₁
    refine ⟨s₂, ?_, ?_, hs₂⟩
    · rw [listChildren]
      exact bind_eq_ok.mpr ⟨s₁, hrun, hrun'⟩
    · rw [childRowsPast_cons]
      exact hfills.append hfills'

/-- **One window of any size**: the first rows past its cursor, and a continuation exactly when
some are left. -/
theorem listAfter_fills (hE : E ≠ 0) (hB : B ≠ 0) {p : DirectoryPage}
    (h : p.AllChecked directoryCheck none) (hwidth : ∀ row ∈ p.rows, listingWidth row.1 ≤ B) :
    ∃ page left, listAfter after E B p = .ok page ∧
      (p.rows.filter fun row => above after row.1) = page.entries ++ left ∧
      ((left = [] ∧ page.continuation = none) ∨
        ∃ last, page.entries.getLast? = some last ∧ page.continuation = some last.1) := by
  have hsteady : Scan.Steady {} := ⟨fun hf => absurd hf Bool.false_ne_true, fun _ => rfl⟩
  obtain ⟨s, hrun, ⟨taken, left, hrows, hentries, -, hfull⟩, hs⟩ :=
    (@list_fills after E B hE).1 p h hwidth hsteady
  have hall := (@rowsPast_eq_filter after).1 p h
  rw [hall] at hrows
  refine ⟨⟨s.entries, if s.full then s.entries.getLast?.map Prod.fst else none⟩, left, ?_, ?_, ?_⟩
  · rw [listAfter]
    refine check_bind_eq_ok.mpr ⟨ensure_eq_ok.mpr ?_, bind_eq_ok.mpr ⟨s, hrun, rfl⟩⟩
    rw [Bool.and_eq_true, bne_iff_ne, bne_iff_ne]
    exact ⟨hE, hB⟩
  · rw [hrows, hentries]
    rfl
  · cases hstop : s.full with
    | false =>
      refine .inl ⟨?_, rfl⟩
      by_contra hleft
      rw [hfull.mpr (.inr hleft)] at hstop
      cases hstop
    | true =>
      obtain ⟨last, hlast⟩ : ∃ last, s.entries.getLast? = some last := by
        rw [← Option.isSome_iff_exists, getLast?_isSome]
        exact hs.stopped hstop
      exact .inr ⟨last, hlast, by rw [if_pos rfl, hlast]; rfl⟩

end Listed

/-! ## A listing in windows -/

/-- A listing behind a cursor, in windows of the given limits: each starts after the continuation
of the one before. -/
def listChain (maxEntries maxBytes : ℕ) (p : DirectoryPage) :
    ℕ → Option PathName → ContentResult (List (PathName × ℕ))
  | 0, _ => .error (.invalidRecord "listing window")
  | fuel + 1, after => do
    let page ← listAfter after maxEntries maxBytes p
    match page.continuation with
    | none => .ok page.entries
    | some name => do
      let rest ← listChain maxEntries maxBytes p fuel (some name)
      .ok (page.entries ++ rest)

/-- **A listing in any windows** that hold a row is the rows past its cursor. -/
theorem listChain_eq {E B : ℕ} (hE : E ≠ 0) (hB : B ≠ 0) {p : DirectoryPage}
    (h : p.AllChecked directoryCheck none) (hascending : (p.rows.map Prod.fst).Pairwise (· < ·))
    (hwidth : ∀ row ∈ p.rows, listingWidth row.1 ≤ B) {fuel : ℕ} :
    ∀ {after : Option PathName}, (p.rows.filter fun row => above after row.1).length < fuel →
      listChain E B p fuel after = .ok (p.rows.filter fun row => above after row.1) := by
  induction fuel with
  | zero => exact fun hfuel => absurd hfuel (Nat.not_lt_zero _)
  | succ fuel ih =>
    intro after hfuel
    obtain ⟨page, left, hpage, hrows, hnext⟩ := @listAfter_fills after E B hE hB p h hwidth
    rw [listChain]
    refine bind_eq_ok.mpr ⟨page, hpage, ?_⟩
    rcases hnext with ⟨rfl, hcont⟩ | ⟨last, hlast, hcont⟩
    · rw [hcont, hrows, append_nil]
    · rw [hcont]
      -- behind the last name of the window lie exactly the rows left
      have hpast : ((p.rows.filter fun row => above after row.1).map Prod.fst).Pairwise (· < ·) :=
        hascending.sublist (filter_sublist.map _)
      have hin : last ∈ p.rows.filter fun row => above after row.1 := by
        rw [hrows]
        exact mem_append_left _ (mem_of_getLast? hlast)
      have htake : ((p.rows.filter fun row => above after row.1).take
          page.entries.length).getLast?.map Prod.fst = some last.1 := by
        rw [hrows, take_left, hlast]
        rfl
      have hleft : (p.rows.filter fun row => above (some last.1) row.1) = left := by
        rw [filter_above_above (of_decide_eq_true (mem_filter.mp hin).2),
          filter_past_last hpast htake, hrows, drop_left]
      have hlong : 0 < page.entries.length :=
        length_pos_of_mem (mem_of_getLast? hlast)
      rw [hrows, length_append] at hfuel
      refine bind_eq_ok.mpr ⟨left, ?_, by rw [hrows]⟩
      rw [ih (by rw [hleft]; omega), hleft]

end LayerFs
