import LayerFs.Directory.Read

/-!
# A whole listing in windows

A pass over a listing chains bounded windows, each behind the last name of the one before,
and refuses a window whose names do not strictly increase. `deliver` is that chain; this
module compares what it delivers with the rows the graph holds.

The cursor is the only memory between windows. A page whose keys are not past the key of the
sibling to its left can fall behind the cursor of the next window, unread; `ReadPast` says
which pages a window behind a cursor reads, and the main result is

* `deliver_of_canonical` — a checked listing in row order is delivered whole.
-/

namespace LayerFs

open List

variable {after : Option PathName} {E B : ℕ}
variable {p : DirectoryPage} {rows : List (PathName × ℕ)} {page : ListingPage} {d : PathName}
  {fuel : ℕ}

/-! ## What a window reads -/

mutual

/-- Every page a walk behind `after` does not skip passes its check. -/
def ReadPast (after : Option PathName) (expected : Option (ℕ × PathName)) (p : DirectoryPage) :
    Prop :=
  skips after (expected.map Prod.snd) = true ∨
    (directoryCheck expected p ∧ match p with
      | .absent _ => True
      | .leaf _ => True
      | .branch level _ _ rows => ChildrenReadPast after (level - 1) rows)

/-- Every child page a walk behind `after` does not skip passes its check. -/
def ChildrenReadPast (after : Option PathName) (level : ℕ) :
    List (PathName × DirectoryPage) → Prop
  | [] => True
  | (key, child) :: rest =>
    ReadPast after (some (level, key)) child ∧ ChildrenReadPast after level rest

end

theorem readPast_iff {expected : Option (ℕ × PathName)}
    (h : skips after (expected.map Prod.snd) = false) :
    ReadPast after expected p ↔ directoryCheck expected p ∧ match p with
      | .absent _ => True
      | .leaf _ => True
      | .branch level _ _ rows => ChildrenReadPast after (level - 1) rows := by
  unfold ReadPast
  simp [h]

theorem childrenReadPast_cons {l : ℕ} {k : PathName} {rest : List (PathName × DirectoryPage)} :
    ChildrenReadPast after l ((k, p) :: rest) ↔
      ReadPast after (some (l, k)) p ∧ ChildrenReadPast after l rest := by
  simp [ChildrenReadPast]

theorem readPast_of_allChecked :
    (∀ (p : DirectoryPage) {expected : Option (ℕ × PathName)},
      Page.AllChecked directoryCheck expected p → ReadPast after expected p) ∧
    ∀ (rows : List (PathName × DirectoryPage)) {l : ℕ},
      Page.ChildrenChecked directoryCheck l rows → ChildrenReadPast after l rows := by
  refine Page.ind₂ ?_ ?_ ?_ ?_ ?_
  · intro e expected h
    exact absurd h.self directoryCheck_sound.present
  · intro rows expected h
    unfold ReadPast
    exact .inr ⟨h.self, trivial⟩
  · intro l c b rows ih expected h
    obtain ⟨hself, hrows⟩ := Page.allChecked_branch.mp h
    unfold ReadPast
    exact .inr ⟨hself, ih hrows⟩
  · intro l _
    simp [ChildrenReadPast]
  · intro k p rest ihp ihrest l h
    obtain ⟨hp, hrest⟩ := Page.childrenChecked_cons.mp h
    exact childrenReadPast_cons.mpr ⟨ihp hp, ihrest hrest⟩

/-- A cursor before every page of a graph in order skips none of them, so reading behind it
reads everything. -/
theorem allChecked_of_readPast :
    (∀ (p : DirectoryPage) {expected : Option (ℕ × PathName)} {floor : Option PathName},
      ReadPast after expected p → Page.InOrder floor p → (∀ c ∈ after, ∃ f ∈ floor, c ≤ f) →
      skips after (expected.map Prod.snd) = false →
      Page.AllChecked directoryCheck expected p) ∧
    ∀ (rows : List (PathName × DirectoryPage)) {l : ℕ} {floor : Option PathName},
      ChildrenReadPast after l rows → Page.ChildrenInOrder floor rows →
      (∀ c ∈ after, ∃ f ∈ floor, c ≤ f) → Page.ChildrenChecked directoryCheck l rows := by
  refine Page.ind₂ ?_ ?_ ?_ ?_ ?_
  · intro e expected floor h _ _ hskip
    exact absurd ((readPast_iff hskip).mp h).1 directoryCheck_sound.present
  · intro rows expected floor h _ _ hskip
    exact Page.allChecked_leaf.mpr ((readPast_iff hskip).mp h).1
  · intro l c b rows ih expected floor h ho hf hskip
    obtain ⟨hself, hrows⟩ := (readPast_iff hskip).mp h
    exact Page.allChecked_branch.mpr ⟨hself, ih hrows (Page.inOrder_branch.mp ho) hf⟩
  · intro l floor _ _ _
    exact Page.childrenChecked_nil
  · intro k p rest ihp ihrest l floor h ho hf
    obtain ⟨hp, hrest⟩ := childrenReadPast_cons.mp h
    obtain ⟨hk, hop, horest⟩ := Page.childrenInOrder_cons.mp ho
    have hkeep : above after k := fun c hc =>
      let ⟨f, hfmem, hcf⟩ := hf c hc
      lt_of_le_of_lt hcf (hk f hfmem)
    refine Page.childrenChecked_cons.mpr ⟨ihp hp hop hf (skips_some.mpr hkeep), ?_⟩
    exact ihrest hrest horest fun c hc => ⟨k, rfl, le_of_lt (hkeep c hc)⟩

theorem rowsPast_le_maximum (p : DirectoryPage) :
    ∀ {l : ℕ} {k : PathName}, ReadPast after (some (l, k)) p →
      ∀ row ∈ rowsPast after (some k) p, row.1 ≤ k := by
  refine (Page.ind₂
    (P := fun p => ∀ {l : ℕ} {k : PathName}, ReadPast after (some (l, k)) p →
      ∀ row ∈ rowsPast after (some k) p, row.1 ≤ k)
    (Q := fun rows => ∀ {l : ℕ}, ChildrenReadPast after l rows →
      ∀ row ∈ childRowsPast after rows, ∃ kp ∈ rows, row.1 ≤ kp.1) ?_ ?_ ?_ ?_ ?_).1 p
  · intro e l k _ row hrow
    unfold rowsPast at hrow
    split at hrow <;> simp at hrow
  · intro rows l k h row hrow
    rcases hskip : skips after (some k) with _ | _
    · rw [rowsPast_leaf hskip] at hrow
      have hc := ((readPast_iff hskip).mp h).1
      exact Page.le_getLast (directoryCheck_sound.ordered hc) (directoryCheck_sound.last hc)
        (mem_map_of_mem (mem_filter.mp hrow).1)
    · rw [rowsPast_of_skips hskip] at hrow
      simp at hrow
  · intro level c b rows ih l k h row hrow
    rcases hskip : skips after (some k) with _ | _
    · rw [rowsPast_branch hskip] at hrow
      obtain ⟨hc, hrows⟩ := (readPast_iff hskip).mp h
      obtain ⟨kp, hkp, hle⟩ := ih hrows row hrow
      exact hle.trans (Page.le_getLast (directoryCheck_sound.ordered hc)
        (directoryCheck_sound.last hc) (mem_map_of_mem hkp))
    · rw [rowsPast_of_skips hskip] at hrow
      simp at hrow
  · intro l _ row hrow
    rw [childRowsPast_nil] at hrow
    simp at hrow
  · intro k p rest ihp ihrest l h row hrow
    obtain ⟨hp, hrest⟩ := childrenReadPast_cons.mp h
    rw [childRowsPast_cons, mem_append] at hrow
    rcases hrow with hrow | hrow
    · exact ⟨(k, p), by simp, ihp hp row hrow⟩
    · obtain ⟨kp, hkp, hle⟩ := ihrest hrest row hrow
      exact ⟨kp, mem_cons_of_mem _ hkp, hle⟩

section Window

variable (hB : listingWidthBound * E ≤ B) (hE : 0 < E)
include hB hE

theorem readPast_of_not_full (p : DirectoryPage) :
    ∀ {expected : Option (ℕ × PathName)} {s s' : Scan}, s.Within E →
      listPage after E B expected.isNone (expected.map Prod.snd) p s = .ok s' →
      s'.full = false → ReadPast after expected p := by
  refine (Page.ind₂
    (P := fun p => ∀ {expected : Option (ℕ × PathName)} {s s' : Scan}, s.Within E →
      listPage after E B expected.isNone (expected.map Prod.snd) p s = .ok s' →
      s'.full = false → ReadPast after expected p)
    (Q := fun rows => ∀ {l : ℕ} {s s' : Scan}, s.Within E →
      listChildren after E B rows s = .ok s' → s'.full = false →
      ChildrenReadPast after l rows) ?_ ?_ ?_ ?_ ?_).1 p
  · intro e expected s s' _ h hf
    rcases listPage_cases h with ⟨hu, rfl⟩ | ⟨-, -, -, h⟩
    · unfold ReadPast
      simp_all
    · cases h
  · intro rows expected s s' _ h hf
    unfold ReadPast
    rcases listPage_cases h with ⟨hu, rfl⟩ | ⟨-, -, hc, -⟩
    · simp_all
    · exact .inr ⟨hc, trivial⟩
  · intro l c b rows ih expected s s' hs h hf
    unfold ReadPast
    rcases listPage_cases h with ⟨hu, rfl⟩ | ⟨-, -, hc, h⟩
    · simp_all
    · exact .inr ⟨hc, ih hs h hf⟩
  · intro l s s' _ _ _
    simp [ChildrenReadPast]
  · intro k p rest ihp ihrest l s s' hs h hf
    unfold listChildren at h
    obtain ⟨s₁, hp, hrest⟩ := bind_eq_ok.mp h
    have hd := listPage_spec hB hE hs hp
    have hd' := listChildren_spec hB hE hd.within hrest
    have hf₁ : s₁.full = false := by
      rcases hs₁ : s₁.full with _ | _
      · rfl
      · rw [hd'.full_iff.mpr (.inl hs₁)] at hf
        exact absurd hf (by simp)
    refine childrenReadPast_cons.mpr ⟨?_, ihrest hd.within hrest hf⟩
    exact @ihp (some (l, k)) s s₁ hs hp hf₁

/-- A window that filled up below a page stopped before the page's recorded maximum: the row
it left is at most that maximum, and every delivered name lies before that row. -/
theorem lt_maximum_of_full (p : DirectoryPage) :
    ∀ {l : ℕ} {k : PathName} {floor : Option PathName} {s s' : Scan}, s.Within E →
      listPage after E B false (some k) p s = .ok s' → s.full = false → s'.full = true →
      Page.InOrder floor p → (∀ x ∈ s.entries, ∃ f ∈ floor, x.1 ≤ f) →
      directoryCheck (some (l, k)) p ∧ ∀ x ∈ s'.entries, x.1 < k := by
  refine (Page.ind₂
    (P := fun p => ∀ {l : ℕ} {k : PathName} {floor : Option PathName} {s s' : Scan},
      s.Within E → listPage after E B false (some k) p s = .ok s' → s.full = false →
      s'.full = true → Page.InOrder floor p → (∀ x ∈ s.entries, ∃ f ∈ floor, x.1 ≤ f) →
      directoryCheck (some (l, k)) p ∧ ∀ x ∈ s'.entries, x.1 < k)
    (Q := fun rows => ∀ {floor : Option PathName} {s s' : Scan}, s.Within E →
      listChildren after E B rows s = .ok s' → s.full = false → s'.full = true →
      Page.ChildrenInOrder floor rows → (∀ x ∈ s.entries, ∃ f ∈ floor, x.1 ≤ f) →
      ∃ kp ∈ rows, ∀ x ∈ s'.entries, x.1 < kp.1) ?_ ?_ ?_ ?_ ?_).1 p
  · intro e l k floor s s' _ h hf hf' _ _
    rcases listPage_cases h with ⟨-, rfl⟩ | ⟨-, -, -, h⟩
    · rw [hf] at hf'
      cases hf'
    · cases h
  · intro rows l k floor s s' hs h hf hf' ho hent
    have hd := listPage_spec hB hE hs h
    rcases listPage_cases h with ⟨-, rfl⟩ | ⟨-, hskip, hc, -⟩
    · rw [hf] at hf'
      cases hf'
    · have hc : directoryCheck (some (l, k)) (.leaf rows) := hc
      refine ⟨hc, ?_⟩
      rw [rowsPast_leaf hskip] at hd
      -- the first row left over
      obtain ⟨left, hleft⟩ : ∃ left ∈ (rows.filter fun row => above after row.1).drop
          (E - s.entries.length), True := by
        have hlen := (hd.full_iff.mp hf').resolve_left (by simp [hf])
        have hroom := hs.length_le
        cases hdrop : (rows.filter fun row => above after row.1).drop (E - s.entries.length) with
        | nil =>
          have := congrArg List.length hdrop
          rw [length_drop, length_nil] at this
          omega
        | cons x xs => exact ⟨x, by simp, trivial⟩
      have hmem : left ∈ rows := (mem_filter.mp (mem_of_mem_drop hleft.1)).1
      have hle : left.1 ≤ k := Page.le_getLast (directoryCheck_sound.ordered hc)
        (directoryCheck_sound.last hc) (mem_map_of_mem hmem)
      intro x hx
      rw [hd.entries_eq, mem_append] at hx
      rcases hx with hx | hx
      · obtain ⟨f, hfm, hxf⟩ := hent x hx
        exact lt_of_le_of_lt hxf
          (lt_of_lt_of_le (Page.inOrder_leaf.mp ho left hmem f hfm) hle)
      · have hsorted : (rows.filter fun row => above after row.1).Pairwise (·.1 < ·.1) :=
          (pairwise_map.mp (directoryCheck_sound.ordered hc)).filter _
        rw [← take_append_drop (E - s.entries.length)
          (rows.filter fun row => above after row.1), pairwise_append] at hsorted
        exact lt_of_lt_of_le (hsorted.2.2 x hx left hleft.1) hle
  · intro level c b rows ih l k floor s s' hs h hf hf' ho hent
    rcases listPage_cases h with ⟨-, rfl⟩ | ⟨-, -, hc, h⟩
    · rw [hf] at hf'
      cases hf'
    · have hc : directoryCheck (some (l, k)) (.branch level c b rows) := hc
      obtain ⟨kp, hkp, hlt⟩ := ih hs h hf hf' (Page.inOrder_branch.mp ho) hent
      have hle : kp.1 ≤ k := Page.le_getLast (directoryCheck_sound.ordered hc)
        (directoryCheck_sound.last hc) (mem_map_of_mem hkp)
      exact ⟨hc, fun x hx => lt_of_lt_of_le (hlt x hx) hle⟩
  · intro floor s s' _ h hf hf' _ _
    unfold listChildren at h
    cases h
    rw [hf] at hf'
    cases hf'
  · intro k p rest ihp ihrest floor s s' hs h hf hf' ho hent
    unfold listChildren at h
    obtain ⟨s₁, hp, hrest⟩ := bind_eq_ok.mp h
    obtain ⟨hk, hop, horest⟩ := Page.childrenInOrder_cons.mp ho
    have hd := listPage_spec hB hE hs hp
    rcases hs₁ : s₁.full with _ | _
    · -- the first child was read to its end: its rows are at most `k`
      have hread := @readPast_of_not_full after E B hB hE p (some (0, k)) s s₁ hs hp hs₁
      obtain ⟨kp, hkp, hlt⟩ := ihrest hd.within hrest hs₁ hf' horest (by
        intro x hx
        refine ⟨k, rfl, ?_⟩
        rw [hd.entries_eq, mem_append] at hx
        rcases hx with hx | hx
        · obtain ⟨f, hfm, hxf⟩ := hent x hx
          exact hxf.trans (le_of_lt (hk f hfm))
        · exact rowsPast_le_maximum p hread x (mem_of_mem_take hx))
      exact ⟨kp, mem_cons_of_mem _ hkp, hlt⟩
    · -- it filled the window: the remaining children were left alone
      have hd' := listChildren_spec hB hE hd.within hrest
      have hsame : s'.entries = s₁.entries := by
        rw [hd'.entries_eq, hd.within.full_eq hs₁]
        simp
      refine ⟨(k, p), by simp, ?_⟩
      rw [hsame]
      exact (@ihp 0 k floor s s₁ hs hp hf hs₁ hop hent).2

theorem readPast_of_full (p : DirectoryPage) :
    ∀ {expected : Option (ℕ × PathName)} {floor : Option PathName} {s s' : Scan} {d : PathName},
      s.Within E → listPage after E B expected.isNone (expected.map Prod.snd) p s = .ok s' →
      s.full = false → s'.full = true → Page.InOrder floor p →
      (∀ x ∈ s.entries, ∃ f ∈ floor, x.1 ≤ f) → d ∈ s'.entries.map Prod.fst →
      ReadPast (some d) expected p → ReadPast after expected p := by
  refine (Page.ind₂
    (P := fun p => ∀ {expected : Option (ℕ × PathName)} {floor : Option PathName} {s s' : Scan}
      {d : PathName}, s.Within E →
      listPage after E B expected.isNone (expected.map Prod.snd) p s = .ok s' →
      s.full = false → s'.full = true → Page.InOrder floor p →
      (∀ x ∈ s.entries, ∃ f ∈ floor, x.1 ≤ f) → d ∈ s'.entries.map Prod.fst →
      ReadPast (some d) expected p → ReadPast after expected p)
    (Q := fun rows => ∀ {l : ℕ} {floor : Option PathName} {s s' : Scan} {d : PathName},
      s.Within E → listChildren after E B rows s = .ok s' → s.full = false → s'.full = true →
      Page.ChildrenInOrder floor rows → (∀ x ∈ s.entries, ∃ f ∈ floor, x.1 ≤ f) →
      d ∈ s'.entries.map Prod.fst → ChildrenReadPast (some d) l rows →
      ChildrenReadPast after l rows) ?_ ?_ ?_ ?_ ?_).1 p
  · intro e expected floor s s' d _ h hf hf' _ _ _ _
    rcases listPage_cases h with ⟨-, rfl⟩ | ⟨-, -, -, h⟩
    · rw [hf] at hf'
      cases hf'
    · cases h
  · intro rows expected floor s s' d _ h hf hf' _ _ _ _
    rcases listPage_cases h with ⟨-, rfl⟩ | ⟨-, -, hc, -⟩
    · rw [hf] at hf'
      cases hf'
    · unfold ReadPast
      exact .inr ⟨hc, trivial⟩
  · intro level c b rows ih expected floor s s' d hs h hf hf' ho hent hmem hread
    -- the window stopped before this page's maximum, so the next one reads it too
    have hskip : skips (some d) (expected.map Prod.snd) = false := by
      cases expected with
      | none => exact skips_root _
      | some lk =>
        obtain ⟨l, k⟩ := lk
        obtain ⟨x, hx, rfl⟩ := mem_map.mp hmem
        have hlt := (@lt_maximum_of_full after E B hB hE _ l k floor s s' hs h hf hf' ho hent).2 x hx
        exact skips_some.mpr (above_some.mpr hlt)
    rcases listPage_cases h with ⟨-, rfl⟩ | ⟨-, -, hc, h⟩
    · rw [hf] at hf'
      cases hf'
    · unfold ReadPast
      exact .inr ⟨hc, ih hs h hf hf' (Page.inOrder_branch.mp ho) hent hmem
        ((readPast_iff hskip).mp hread).2⟩
  · intro l floor s s' d _ _ _ _ _ _ _ _
    simp [ChildrenReadPast]
  · intro k p rest ihp ihrest l floor s s' d hs h hf hf' ho hent hmem hread
    unfold listChildren at h
    obtain ⟨s₁, hp, hrest⟩ := bind_eq_ok.mp h
    obtain ⟨hk, hop, horest⟩ := Page.childrenInOrder_cons.mp ho
    obtain ⟨hreadp, hreadrest⟩ := childrenReadPast_cons.mp hread
    have hd := listPage_spec hB hE hs hp
    rcases hs₁ : s₁.full with _ | _
    · have hread₁ := @readPast_of_not_full after E B hB hE p (some (l, k)) s s₁ hs hp hs₁
      refine childrenReadPast_cons.mpr ⟨hread₁, ?_⟩
      refine ihrest hd.within hrest hs₁ hf' horest ?_ hmem hreadrest
      intro x hx
      refine ⟨k, rfl, ?_⟩
      rw [hd.entries_eq, mem_append] at hx
      rcases hx with hx | hx
      · obtain ⟨f, hfm, hxf⟩ := hent x hx
        exact hxf.trans (le_of_lt (hk f hfm))
      · exact rowsPast_le_maximum p hread₁ x (mem_of_mem_take hx)
    · have hd' := listChildren_spec hB hE hd.within hrest
      have hsame : s'.entries = s₁.entries := by
        rw [hd'.entries_eq, hd.within.full_eq hs₁]
        simp
      rw [hsame] at hmem
      obtain ⟨x, hx, rfl⟩ := mem_map.mp hmem
      have hlt := (@lt_maximum_of_full after E B hB hE p l k floor s s₁ hs hp hf hs₁ hop hent).2 x hx
      refine childrenReadPast_cons.mpr
        ⟨@ihp (some (l, k)) floor s s₁ x.1 hs hp hf hs₁ hop hent hmem hreadp, ?_⟩
      -- the children left alone all lie past `k`, hence past both cursors
      refine readPast_of_allChecked.2 rest (allChecked_of_readPast.2 rest hreadrest horest ?_)
      intro c hc
      cases hc
      exact ⟨k, rfl, le_of_lt hlt⟩

end Window

/-! ## The chain of windows -/

/-- Names strictly increase, the first one past `previous`. -/
def ascending : Option PathName → List (PathName × ℕ) → Bool
  | _, [] => true
  | previous, (name, _) :: rest => decide (above previous name) && ascending (some name) rest

theorem ascending_iff {previous : Option PathName} :
    ascending previous rows = true ↔
      (∀ row ∈ rows, above previous row.1) ∧ (rows.map Prod.fst).Pairwise (· < ·) := by
  induction rows generalizing previous with
  | nil => simp [ascending]
  | cons row rest ih =>
    obtain ⟨name, serial⟩ := row
    rw [ascending, Bool.and_eq_true, decide_eq_true_eq, ih, map_cons, pairwise_cons]
    constructor
    · rintro ⟨hname, hrest, hpair⟩
      refine ⟨?_, ?_, hpair⟩
      · intro row hrow
        rcases mem_cons.mp hrow with rfl | hrow
        · exact hname
        · exact hname.trans_le (le_of_lt (above_some.mp (hrest row hrow)))
      · intro k hk
        obtain ⟨row, hrow, rfl⟩ := mem_map.mp hk
        exact above_some.mp (hrest row hrow)
    · rintro ⟨hall, hlt, hpair⟩
      refine ⟨hall (name, serial) (by simp), fun row hrow => ?_, hpair⟩
      exact above_some.mpr (hlt row.1 (mem_map_of_mem hrow))

/-- The rows a chain of windows behind `after` delivers. -/
def deliver (E B : ℕ) (p : DirectoryPage) : ℕ → Option PathName → ContentResult (List (PathName × ℕ))
  | 0, _ => .error (.invalidRecord "listing window")
  | fuel + 1, after => do
    let page ← listAfter after E B p
    ensure (ascending after page.entries) .nonCanonicalOrdering
    match page.continuation with
    | none => .ok page.entries
    | some name => do
      let rest ← deliver E B p fuel (some name)
      .ok (page.entries ++ rest)

section Chain

variable (hB : listingWidthBound * E ≤ B) (hE : 0 < E)
include hB hE

theorem listAfter_spec (h : listAfter after E B p = .ok page) :
    page.entries = (rowsPast after none p).take E ∧
    (page.continuation = none ∧ (rowsPast after none p).length ≤ E ∧ ReadPast after none p ∨
      ∃ d, page.continuation = some d ∧ d ∈ page.entries.map Prod.fst ∧
        page.entries.getLast?.map Prod.fst = some d ∧ page.entries.length = E ∧
        (Page.InOrder none p → ReadPast (some d) none p → ReadPast after none p)) := by
  simp only [listAfter, bind_eq_ok] at h
  obtain ⟨_, -, s, hrun, hpage⟩ := h
  cases hpage
  have hd := listPage_spec hB hE (Scan.Within.empty E) hrun
  have hentries : s.entries = (rowsPast after none p).take E := by
    simpa using hd.entries_eq
  refine ⟨hentries, ?_⟩
  rcases hf : s.full with _ | _
  · left
    refine ⟨by simp, ?_, @readPast_of_not_full after E B hB hE p none _ s (.empty E) hrun hf⟩
    by_contra hlt
    have := hd.full_iff.mpr (.inr (by simpa using hlt))
    rw [hf] at this
    cases this
  · right
    have hlen := hd.within.full_eq hf
    obtain ⟨⟨d, serial⟩, hlast⟩ : ∃ row, s.entries.getLast? = some row := by
      cases hent : s.entries.getLast? with
      | none =>
        rw [getLast?_eq_none_iff] at hent
        rw [hent] at hlen
        simp at hlen
        omega
      | some row => exact ⟨row, rfl⟩
    have hmem : d ∈ s.entries.map Prod.fst :=
      mem_map.mpr ⟨(d, serial), mem_of_getLast? hlast, rfl⟩
    refine ⟨d, by simp [hlast], hmem, by simp [hlast], hlen, ?_⟩
    intro ho hread
    exact @readPast_of_full after E B hB hE p none none _ s d (.empty E) hrun rfl hf ho
      (by simp) hmem hread

theorem readPast_of_deliver (ho : Page.InOrder none p) :
    ∀ {after : Option PathName} {rows : List (PathName × ℕ)},
      deliver E B p fuel after = .ok rows → ReadPast after none p := by
  induction fuel with
  | zero => intro after rows h; cases h
  | succ fuel ih =>
    intro after rows h
    simp only [deliver, bind_eq_ok] at h
    obtain ⟨page, hpage, _, -, h⟩ := h
    rcases (listAfter_spec hB hE hpage).2 with ⟨-, -, hread⟩ | ⟨d, hd, -, -, -, hread⟩
    · exact hread
    · rw [hd] at h
      obtain ⟨rest, hrest, -⟩ := bind_eq_ok.mp h
      exact hread ho (ih hrest)

/-- **A delivered listing in order was checked whole.** -/
theorem allChecked_of_deliver (ho : Page.InOrder none p) (h : deliver E B p fuel none = .ok rows) :
    Page.AllChecked directoryCheck none p :=
  allChecked_of_readPast.1 p (readPast_of_deliver hB hE ho h) ho (by simp) (skips_root _)

theorem listPage_of_allChecked :
    (∀ (p : DirectoryPage) {expected : Option (ℕ × PathName)} {s : Scan}, s.Within E →
      Page.AllChecked directoryCheck expected p →
      ∃ s', listPage after E B expected.isNone (expected.map Prod.snd) p s = .ok s') ∧
    ∀ (rows : List (PathName × DirectoryPage)) {l : ℕ} {s : Scan}, s.Within E →
      Page.ChildrenChecked directoryCheck l rows →
      ∃ s', listChildren after E B rows s = .ok s' := by
  refine Page.ind₂ ?_ ?_ ?_ ?_ ?_
  · intro e expected s _ h
    exact absurd h.self directoryCheck_sound.present
  · intro rows expected s hs h
    have hc : checkedDirectory _ none _ _ = .ok () := h.self
    rw [listPage]
    split
    · exact ⟨s, rfl⟩
    · rename_i hskip
      simp only [Bool.or_eq_true, not_or, Bool.not_eq_true] at hskip
      obtain ⟨s', hrun, -⟩ := @listRows_spec after E B hB hE rows s hs hskip.1
      exact ⟨s', by rw [hc]; exact hrun⟩
  · intro l c b rows ih expected s hs h
    have hc : checkedDirectory _ none _ _ = .ok () := h.self
    rw [listPage]
    split
    · exact ⟨s, rfl⟩
    · obtain ⟨s', hrun⟩ := ih hs (Page.allChecked_branch.mp h).2
      exact ⟨s', by rw [hc]; exact hrun⟩
  · intro l s _ _
    exact ⟨s, by simp [listChildren]⟩
  · intro k p rest ihp ihrest l s hs h
    obtain ⟨hp, hrest⟩ := Page.childrenChecked_cons.mp h
    obtain ⟨s₁, hrun⟩ := ihp hs hp
    obtain ⟨s', hrun'⟩ := ihrest (listPage_spec hB hE hs hrun).within hrest
    refine ⟨s', ?_⟩
    rw [listChildren]
    exact bind_eq_ok.mpr ⟨s₁, hrun, hrun'⟩

omit hB hE in
theorem rowsPast_eq_filter :
    (∀ (p : DirectoryPage) {expected : Option (ℕ × PathName)},
      Page.AllChecked directoryCheck expected p →
      rowsPast after (expected.map Prod.snd) p = p.rows.filter fun row => above after row.1) ∧
    ∀ (rows : List (PathName × DirectoryPage)) {l : ℕ},
      Page.ChildrenChecked directoryCheck l rows →
      childRowsPast after rows = (Page.childRows rows).filter fun row => above after row.1 := by
  -- a skipped child holds no row past the cursor
  have hnone : ∀ {p : DirectoryPage} {expected : Option (ℕ × PathName)},
      Page.AllChecked directoryCheck expected p → skips after (expected.map Prod.snd) = true →
      p.rows.filter (fun row => above after row.1) = [] := by
    intro p expected h hskip
    cases expected with
    | none => simp at hskip
    | some lk =>
      obtain ⟨l, k⟩ := lk
      refine filter_eq_nil_iff.mpr fun row hrow habove => ?_
      have hle := Page.rows_le_maximum directoryCheck_sound h row hrow
      have hk := skips_some.mpr ((of_decide_eq_true habove).trans_le hle)
      rw [Option.map_some, hk] at hskip
      cases hskip
  refine Page.ind₂ ?_ ?_ ?_ ?_ ?_
  · intro e expected h
    exact absurd h.self directoryCheck_sound.present
  · intro rows expected h
    rcases hskip : skips after (expected.map Prod.snd) with _ | _
    · rw [rowsPast_leaf hskip, Page.rows_leaf]
    · rw [rowsPast_of_skips hskip, hnone h hskip]
  · intro l c b rows ih expected h
    rcases hskip : skips after (expected.map Prod.snd) with _ | _
    · rw [rowsPast_branch hskip, Page.rows_branch, ih (Page.allChecked_branch.mp h).2]
    · rw [rowsPast_of_skips hskip, hnone h hskip]
  · intro l _
    simp [childRowsPast_nil]
  · intro k p rest ihp ihrest l h
    obtain ⟨hp, hrest⟩ := Page.childrenChecked_cons.mp h
    rw [childRowsPast_cons, Page.childRows_cons, filter_append, ihrest hrest]
    rw [← ihp hp]
    rfl

omit hB hE in
theorem filter_past_last (hsorted : (rows.map Prod.fst).Pairwise (· < ·)) {n : ℕ}
    (hlast : (rows.take n).getLast?.map Prod.fst = some d) :
    rows.filter (fun row => above (some d) row.1) = rows.drop n := by
  obtain ⟨last, hrow, rfl⟩ := Option.map_eq_some_iff.mp hlast
  have hsplit := hsorted
  rw [← take_append_drop n rows, map_append, pairwise_append] at hsplit
  obtain ⟨htake, -, hcross⟩ := hsplit
  conv_lhs => rw [← take_append_drop n rows]
  rw [filter_append, filter_eq_nil_iff.mpr, nil_append, filter_eq_self.mpr]
  · intro row hmem
    have hlt := hcross last.1 (mem_map_of_mem (mem_of_getLast? hrow)) row.1
      (mem_map_of_mem hmem)
    simpa using hlt
  · intro row hmem
    have hle := Page.le_getLast htake (by rw [getLast?_map, hlast]) (mem_map_of_mem hmem)
    simpa using hle

/-- **A canonical listing is delivered whole**: every row past the cursor, once, in order. -/
theorem deliver_filter {p : DirectoryPage} (hc : Page.AllChecked directoryCheck none p)
    (hsorted : (p.rows.map Prod.fst).Pairwise (· < ·)) {fuel : ℕ} :
    ∀ {after : Option PathName}, (p.rows.filter fun row => above after row.1).length < fuel →
      deliver E B p fuel after = .ok (p.rows.filter fun row => above after row.1) := by
  induction fuel with
  | zero => intro after h; omega
  | succ fuel ih =>
    intro after hfuel
    obtain ⟨s, hrun⟩ := @(@listPage_of_allChecked after E B hB hE).1 p none _ (.empty E) hc
    obtain ⟨page, hpage⟩ : ∃ page, listAfter after E B p = .ok page := by
      have hlimit : ensure (E != 0 && B != 0) (.invalidRecord "listing limit") = .ok () := by
        rw [ensure_eq_ok]
        have : 0 < listingWidthBound * E := Nat.mul_pos (by decide) hE
        simp
        omega
      rw [listAfter]
      exact ⟨_, check_bind_eq_ok.mpr ⟨hlimit, bind_eq_ok.mpr ⟨s, hrun, rfl⟩⟩⟩
    obtain ⟨hentries, hnext⟩ := listAfter_spec hB hE hpage
    have hall : rowsPast after none p = p.rows.filter fun row => above after row.1 :=
      @(@rowsPast_eq_filter after).1 p none hc
    rw [hall] at hentries hnext
    have hpast : ((p.rows.filter fun row => above after row.1).map Prod.fst).Pairwise (· < ·) :=
      hsorted.sublist (filter_sublist.map _)
    have hasc : ascending after page.entries = true := by
      rw [hentries]
      refine ascending_iff.mpr ⟨fun row hrow => ?_, ?_⟩
      · simpa using (mem_filter.mp (mem_of_mem_take hrow)).2
      · exact hpast.sublist ((take_sublist _ _).map _)
    have hrest : ∀ {rows}, (match page.continuation with
          | none => Except.ok page.entries
          | some name => do
            let rest ← deliver E B p fuel (some name)
            Except.ok (page.entries ++ rest)) = (.ok rows : ContentResult _) →
        deliver E B p (fuel + 1) after = .ok rows := by
      intro rows h
      rw [deliver]
      exact bind_eq_ok.mpr ⟨page, hpage, check_bind_eq_ok.mpr ⟨ensure_eq_ok.mpr hasc, h⟩⟩
    apply hrest
    rcases hnext with ⟨hcont, hlen, -⟩ | ⟨d, hcont, -, hlast, hlen, -⟩
    · rw [hcont, hentries, take_of_length_le hlen]
    · -- the rows past the last delivered name are the rows not delivered yet
      rw [hentries] at hlast hlen
      have hdrop := filter_past_last hpast hlast
      have habove : above after d := by
        obtain ⟨row, hrow, rfl⟩ := Option.map_eq_some_iff.mp hlast
        simpa using (mem_filter.mp (mem_of_mem_take (mem_of_getLast? hrow))).2
      have hsame : p.rows.filter (fun row => above (some d) row.1)
          = (p.rows.filter fun row => above after row.1).drop E := by
        rw [filter_above_above habove, hdrop]
      have hshort : (p.rows.filter fun row => above (some d) row.1).length < fuel := by
        rw [hsame, length_drop]
        rw [length_take] at hlen
        omega
      rw [hcont]
      refine bind_eq_ok.mpr ⟨_, ih hshort, ?_⟩
      rw [hsame, hentries, take_append_drop]

/-- **A canonical listing is delivered whole.** -/
theorem deliver_of_canonical (hc : Page.AllChecked directoryCheck none p)
    (hsorted : (p.rows.map Prod.fst).Pairwise (· < ·)) (hfuel : p.rows.length < fuel) :
    deliver E B p fuel none = .ok p.rows := by
  have hall : (p.rows.filter fun row => above none row.1) = p.rows := by simp
  have h := @deliver_filter E B hB hE p hc hsorted fuel none (by rwa [hall])
  rwa [hall] at h

end Chain

end LayerFs
