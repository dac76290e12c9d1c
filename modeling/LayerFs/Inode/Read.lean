import LayerFs.Sorted.Order

/-!
# Sequential reads of the inode table (`filesystem/inode/read.rs`)

`rowsAfter` returns the rows of the one leaf that holds the first serial past a cursor. It
descends by recorded keys and, unlike a directory listing, also compares every page with the
key recorded for the sibling to its left (`floor`), so no row can hide behind an earlier one.

`tableRows` chains those windows until an empty one. The chain is an exact test:
`tableRows_iff` says it succeeds precisely on a table whose every page is checked and whose
rows are in order, and then it returns every row once.
-/

namespace LayerFs

open List

variable {expected : Option (ℕ × ℕ)} {after floor : Option ℕ} {fuel : ℕ}

abbrev InodePage (Id : Type) := Page ℕ (InodeValue Id)

variable {Id : Type}

/-- The checks a read applies to one decoded page where it found it: the fill rule off the
root, and the level and largest key its parent recorded. -/
def checkedInodes (expected : Option (ℕ × ℕ)) (p : InodePage Id) : ContentResult Unit := do
  (compactInodes (InodeValue Id)).decode p
  ensure (expected.isNone || (compactInodes (InodeValue Id)).filled
    ((compactInodes (InodeValue Id)).size p.keys p.level) p.keys.length p.level)
    .nonCanonicalPagePartition
  ensure (expected.all fun e => p.level == e.1 && p.keys.getLast? == some e.2)
    (.invalidRecord "inode child summary")

mutual

/-- The descent through one page: `floor` is the key recorded for the nearest sibling to the
left of the path. -/
def rowsAfterPage (after : Option ℕ) (expected : Option (ℕ × ℕ)) (floor : Option ℕ)
    (p : InodePage Id) : ContentResult (List (ℕ × InodeValue Id)) := do
  checkedInodes expected p
  ensure (floor.all fun f => p.keys.head?.all (f < ·)) .nonCanonicalOrdering
  match p with
  | .absent error => .error error
  | .leaf rows => .ok (rows.filter fun row => above after row.1)
  | .branch level _ _ rows => rowsAfterChildren after level floor rows

def rowsAfterChildren (after : Option ℕ) (level : ℕ) (floor : Option ℕ) :
    List (ℕ × InodePage Id) → ContentResult (List (ℕ × InodeValue Id))
  | [] => .ok []
  | (key, child) :: rest =>
    if above after key then do
      ensure (level != 0) .mappingDepthExceeded
      rowsAfterPage after (some (level - 1, key)) floor child
    else rowsAfterChildren after level (some key) rest

end

/-- Rows of the one leaf holding the first serial after `after`, in serial order. -/
def rowsAfter (table : InodePage Id) (after : Option ℕ) :
    ContentResult (List (ℕ × InodeValue Id)) :=
  rowsAfterPage after none none table

/-- The rows a chain of windows behind `after` returns. -/
def tableRows (table : InodePage Id) :
    ℕ → Option ℕ → ContentResult (List (ℕ × InodeValue Id))
  | 0, _ => .error (.invalidRecord "inode table window")
  | fuel + 1, after => do
    let rows ← rowsAfter table after
    match rows.getLast? with
    | none => .ok []
    | some last => do
      let rest ← tableRows table fuel (some last.1)
      .ok (rows ++ rest)

/-! ## Checked tables -/

def inodeCheck (expected : Option (ℕ × ℕ)) (p : InodePage Id) : Prop :=
  checkedInodes expected p = .ok ()

variable {p : InodePage Id}

theorem inodeCheck_decode (h : inodeCheck expected p) :
    match p with
    | .absent _ => False
    | .leaf rows => rows ≠ [] ∧ (rows.map Prod.fst).Pairwise (· < ·)
    | .branch level _ _ rows => level ≠ 0 ∧ rows ≠ [] ∧ (rows.map Prod.fst).Pairwise (· < ·) := by
  simp only [inodeCheck, checkedInodes, Format.decode, check_bind_eq_ok] at h
  have h := h.1.2
  cases p with
  | absent e => cases h
  | leaf rows =>
    simp only [compactInodes, check_bind_eq_ok, ensure_eq_ok] at h
    obtain ⟨hlen, -, hord⟩ := h
    refine ⟨?_, (strictlyOrdered_iff _).mp hord⟩
    rintro rfl
    simp at hlen
  | branch l c b rows =>
    simp only [compactInodes, check_bind_eq_ok, ensure_eq_ok] at h
    obtain ⟨hlen, -, -, -, -, hord⟩ := h
    simp only [Bool.and_eq_true, decide_eq_true_eq, length_map] at hlen
    refine ⟨by omega, ?_, (strictlyOrdered_iff _).mp hord⟩
    rintro rfl
    simp at hlen

theorem inodeCheck_sound : Page.Sound (@inodeCheck Id) where
  present := by
    intro expected e h
    exact inodeCheck_decode h
  ordered := by
    intro expected p h
    have hd := inodeCheck_decode h
    cases p with
    | absent e => cases hd
    | leaf rows => exact hd.2
    | branch l c b rows => exact hd.2.2
  last := by
    intro l k p h
    simp only [inodeCheck, checkedInodes, check_bind_eq_ok, ensure_eq_ok] at h
    have h := h.2.2
    simp only [Option.all_some, Bool.and_eq_true, beq_iff_eq] at h
    exact h.2

theorem inodeCheck_nonempty (h : inodeCheck expected p) : p.keys ≠ [] := by
  have hd := inodeCheck_decode h
  cases p with
  | absent e => cases hd
  | leaf rows => simpa [Page.keys] using hd.1
  | branch l c b rows => simpa [Page.keys] using hd.2.1

def headPast (floor : Option ℕ) (p : InodePage Id) : Prop :=
  (floor.all fun f => p.keys.head?.all (f < ·)) = true

theorem headPast_iff (h : inodeCheck expected p) :
    headPast floor p ↔ ∀ k ∈ p.keys, above floor k := by
  have hord := inodeCheck_sound.ordered h
  have hne := inodeCheck_nonempty h
  cases hk : p.keys with
  | nil => exact absurd hk hne
  | cons k ks =>
    rw [hk, pairwise_cons] at hord
    cases floor with
    | none => simp [headPast]
    | some f =>
      simp only [headPast, hk, Option.all_some, head?_cons, decide_eq_true_eq, above_some,
        forall_mem_cons]
      exact ⟨fun h => ⟨h, fun x hx => h.trans (hord.1 x hx)⟩, fun h => h.1⟩

/-! ## What a window reads -/

mutual

/-- Every page past the cursor is checked and lies past its left sibling. -/
def TablePast (after : Option ℕ) (expected : Option (ℕ × ℕ)) (floor : Option ℕ)
    (p : InodePage Id) : Prop :=
  inodeCheck expected p ∧ headPast floor p ∧ match p with
    | .absent _ => True
    | .leaf _ => True
    | .branch level _ _ rows => ChildrenTablePast after (level - 1) floor rows

/-- Every child past the cursor is checked and lies past its left sibling. -/
def ChildrenTablePast (after : Option ℕ) (level : ℕ) (floor : Option ℕ) :
    List (ℕ × InodePage Id) → Prop
  | [] => True
  | (key, child) :: rest =>
    (above after key → TablePast after (some (level, key)) floor child) ∧
      ChildrenTablePast after level (some key) rest

end

/-- The part of `TablePast` below the page itself. -/
def TablePastBelow (after : Option ℕ) (floor : Option ℕ) : InodePage Id → Prop
  | .absent _ => True
  | .leaf _ => True
  | .branch level _ _ rows => ChildrenTablePast after (level - 1) floor rows

theorem tablePast_iff :
    TablePast after expected floor p ↔
      inodeCheck expected p ∧ headPast floor p ∧ TablePastBelow after floor p := by
  unfold TablePast
  cases p <;> rfl

theorem childrenTablePast_cons {l : ℕ} {k : ℕ} {rest : List (ℕ × InodePage Id)} :
    ChildrenTablePast after l floor ((k, p) :: rest) ↔
      (above after k → TablePast after (some (l, k)) floor p) ∧
        ChildrenTablePast after l (some k) rest := by
  simp [ChildrenTablePast]

theorem childrenTablePast_of_le {c : ℕ} (rows : List (ℕ × InodePage Id)) :
    ∀ {l : ℕ} {floor : Option ℕ}, (∀ kp ∈ rows, kp.1 ≤ c) →
      ChildrenTablePast (some c) l floor rows := by
  induction rows with
  | nil => intro l floor _; simp [ChildrenTablePast]
  | cons kp rest ih =>
    intro l floor h
    obtain ⟨k, p⟩ := kp
    refine childrenTablePast_cons.mpr ⟨fun habove => ?_, ih fun x hx => h x (by simp [hx])⟩
    exact absurd (above_some.mp habove) (not_lt.mpr (h (k, p) (by simp)))

theorem tablePast_none_of_floor :
    (∀ (p : InodePage Id) {expected : Option (ℕ × ℕ)} {floor : Option ℕ},
      TablePast after expected floor p → (∀ c ∈ after, ∃ f ∈ floor, c ≤ f) →
      TablePast none expected floor p) ∧
    ∀ (rows : List (ℕ × InodePage Id)) {l : ℕ} {floor : Option ℕ},
      ChildrenTablePast after l floor rows → (rows.map Prod.fst).Pairwise (· < ·) →
      (∀ kp ∈ rows, above floor kp.1) → (∀ c ∈ after, ∃ f ∈ floor, c ≤ f) →
      ChildrenTablePast none l floor rows := by
  refine Page.ind₂ ?_ ?_ ?_ ?_ ?_
  · intro e expected floor h _
    exact absurd (tablePast_iff.mp h).1 inodeCheck_sound.present
  · intro rows expected floor h _
    obtain ⟨hc, hh, -⟩ := tablePast_iff.mp h
    exact tablePast_iff.mpr ⟨hc, hh, trivial⟩
  · intro l c b rows ih expected floor h hf
    obtain ⟨hc, hh, hbelow⟩ := tablePast_iff.mp h
    refine tablePast_iff.mpr ⟨hc, hh, ih hbelow (inodeCheck_sound.ordered hc) ?_ hf⟩
    intro kp hkp
    exact (headPast_iff hc).mp hh kp.1 (mem_map_of_mem hkp)
  · intro l floor _ _ _ _
    simp [ChildrenTablePast]
  · intro k p rest ihp ihrest l floor h hord habove hf
    obtain ⟨hp, hrest⟩ := childrenTablePast_cons.mp h
    rw [map_cons, pairwise_cons] at hord
    have hk : above after k := fun c hc =>
      let ⟨f, hfm, hcf⟩ := hf c hc
      lt_of_le_of_lt hcf (habove (k, p) (by simp) f hfm)
    refine childrenTablePast_cons.mpr ⟨fun _ => ihp (hp hk) hf, ihrest hrest hord.2 ?_ ?_⟩
    · intro kp hkp
      exact above_some.mpr (hord.1 kp.1 (mem_map_of_mem hkp))
    · exact fun c hc => ⟨k, rfl, le_of_lt (hk c hc)⟩

theorem tablePast_of_none :
    (∀ (p : InodePage Id) {expected : Option (ℕ × ℕ)} {floor : Option ℕ},
      TablePast none expected floor p → TablePast after expected floor p) ∧
    ∀ (rows : List (ℕ × InodePage Id)) {l : ℕ} {floor : Option ℕ},
      ChildrenTablePast none l floor rows → ChildrenTablePast after l floor rows := by
  refine Page.ind₂ ?_ ?_ ?_ ?_ ?_
  · intro e expected floor h
    exact absurd (tablePast_iff.mp h).1 inodeCheck_sound.present
  · intro rows expected floor h
    obtain ⟨hc, hh, -⟩ := tablePast_iff.mp h
    exact tablePast_iff.mpr ⟨hc, hh, trivial⟩
  · intro l c b rows ih expected floor h
    obtain ⟨hc, hh, hbelow⟩ := tablePast_iff.mp h
    exact tablePast_iff.mpr ⟨hc, hh, ih hbelow⟩
  · intro l floor _
    simp [ChildrenTablePast]
  · intro k p rest ihp ihrest l floor h
    obtain ⟨hp, hrest⟩ := childrenTablePast_cons.mp h
    exact childrenTablePast_cons.mpr ⟨fun _ => ihp (hp above_none), ihrest hrest⟩

theorem tablePast_none_iff :
    (∀ (p : InodePage Id) {expected : Option (ℕ × ℕ)} {floor : Option ℕ},
      TablePast none expected floor p ↔
        Page.AllChecked inodeCheck expected p ∧ Page.InOrder floor p) ∧
    ∀ (rows : List (ℕ × InodePage Id)) {l : ℕ} {floor : Option ℕ},
      (rows.map Prod.fst).Pairwise (· < ·) →
      (ChildrenTablePast none l floor rows ∧ (∀ kp ∈ rows, above floor kp.1) ↔
        Page.ChildrenChecked inodeCheck l rows ∧ Page.ChildrenInOrder floor rows) := by
  refine Page.ind₂ ?_ ?_ ?_ ?_ ?_
  · intro e expected floor
    constructor
    · intro h
      exact absurd (tablePast_iff.mp h).1 inodeCheck_sound.present
    · intro h
      exact absurd h.1.self inodeCheck_sound.present
  · intro rows expected floor
    constructor
    · intro h
      obtain ⟨hc, hh, -⟩ := tablePast_iff.mp h
      refine ⟨Page.allChecked_leaf.mpr hc, Page.inOrder_leaf.mpr fun row hrow => ?_⟩
      exact (headPast_iff hc).mp hh row.1 (mem_map_of_mem hrow)
    · rintro ⟨hc, ho⟩
      refine tablePast_iff.mpr ⟨hc.self, (headPast_iff hc.self).mpr ?_, trivial⟩
      intro k hk
      obtain ⟨row, hrow, rfl⟩ := mem_map.mp hk
      exact Page.inOrder_leaf.mp ho row hrow
  · intro l c b rows ih expected floor
    constructor
    · intro h
      obtain ⟨hc, hh, hbelow⟩ := tablePast_iff.mp h
      have hkeys := (headPast_iff hc).mp hh
      obtain ⟨hchk, hord⟩ := (ih (inodeCheck_sound.ordered hc)).mp
        ⟨hbelow, fun kp hkp => hkeys kp.1 (mem_map_of_mem hkp)⟩
      exact ⟨Page.allChecked_branch.mpr ⟨hc, hchk⟩, Page.inOrder_branch.mpr hord⟩
    · rintro ⟨hchk, ho⟩
      obtain ⟨hc, hrows⟩ := Page.allChecked_branch.mp hchk
      obtain ⟨hbelow, hkeys⟩ := (ih (inodeCheck_sound.ordered hc)).mpr
        ⟨hrows, Page.inOrder_branch.mp ho⟩
      refine tablePast_iff.mpr ⟨hc, (headPast_iff hc).mpr ?_, hbelow⟩
      intro k hk
      obtain ⟨kp, hkp, rfl⟩ := mem_map.mp hk
      exact hkeys kp hkp
  · intro l floor _
    simp [ChildrenTablePast]
  · intro k p rest ihp ihrest l floor hord
    rw [map_cons, pairwise_cons] at hord
    rw [childrenTablePast_cons, Page.childrenChecked_cons, Page.childrenInOrder_cons]
    have hrest : ∀ kp ∈ rest, above (some k) kp.1 := fun kp hkp =>
      above_some.mpr (hord.1 kp.1 (mem_map_of_mem hkp))
    constructor
    · rintro ⟨⟨hp, hr⟩, habove⟩
      obtain ⟨hpc, hpo⟩ := ihp.mp (hp above_none)
      obtain ⟨hrc, hro⟩ := (ihrest hord.2).mp ⟨hr, hrest⟩
      exact ⟨⟨hpc, hrc⟩, habove (k, p) (by simp), hpo, hro⟩
    · rintro ⟨⟨hpc, hrc⟩, hk, hpo, hro⟩
      refine ⟨⟨fun _ => ihp.mpr ⟨hpc, hpo⟩, ((ihrest hord.2).mpr ⟨hrc, hro⟩).1⟩, ?_⟩
      intro kp hkp
      rcases mem_cons.mp hkp with rfl | hkp
      · exact hk
      · exact hk.trans_le (le_of_lt (above_some.mp (hrest kp hkp)))

/-! ## One window -/

variable {out : List (ℕ × InodeValue Id)}

theorem rowsAfterPage_cases :
    rowsAfterPage after expected floor p = .ok out → inodeCheck expected p ∧ headPast floor p ∧
      ((match p with
        | .absent error => .error error
        | .leaf rows => .ok (rows.filter fun row => above after row.1)
        | .branch level _ _ rows => rowsAfterChildren after level floor rows) :
        ContentResult (List (ℕ × InodeValue Id))) = .ok out := by
  intro h
  rw [rowsAfterPage.eq_def] at h
  simp only [check_bind_eq_ok, ensure_eq_ok] at h
  exact h

theorem rowsAfter_range :
    (∀ (p : InodePage Id) {l k : ℕ} {floor : Option ℕ} {out : List (ℕ × InodeValue Id)},
      rowsAfterPage after (some (l, k)) floor p = .ok out → above after k →
      out ≠ [] ∧ ∀ row ∈ out, row.1 ≤ k ∧ above after row.1) ∧
    ∀ (rows : List (ℕ × InodePage Id)) {level : ℕ} {floor : Option ℕ}
      {out : List (ℕ × InodeValue Id)}, rowsAfterChildren after level floor rows = .ok out →
      (∃ kp ∈ rows, above after kp.1) →
      out ≠ [] ∧ ∃ kp ∈ rows, ∀ row ∈ out, row.1 ≤ kp.1 ∧ above after row.1 := by
  refine Page.ind₂ ?_ ?_ ?_ ?_ ?_
  · intro e l k floor out h _
    exact absurd (rowsAfterPage_cases h).1 inodeCheck_sound.present
  · intro rows l k floor out h habove
    obtain ⟨hc, -, h⟩ := rowsAfterPage_cases h
    cases h
    have hlast := inodeCheck_sound.last hc
    obtain ⟨row, hrow, rfl⟩ := mem_map.mp (mem_of_getLast? hlast)
    refine ⟨ne_nil_of_mem (mem_filter.mpr ⟨hrow, by simpa using habove⟩), ?_⟩
    intro row hrow
    obtain ⟨hmem, hpast⟩ := mem_filter.mp hrow
    exact ⟨Page.le_getLast (inodeCheck_sound.ordered hc) hlast (mem_map_of_mem hmem),
      by simpa using hpast⟩
  · intro level c b rows ih l k floor out h habove
    obtain ⟨hc, -, h⟩ := rowsAfterPage_cases h
    have hlast := inodeCheck_sound.last hc
    obtain ⟨kp, hkp, hk⟩ := mem_map.mp (mem_of_getLast? hlast)
    obtain ⟨hne, kp', hkp', hrange⟩ := ih h ⟨kp, hkp, by rwa [hk]⟩
    refine ⟨hne, fun row hrow => ⟨(hrange row hrow).1.trans ?_, (hrange row hrow).2⟩⟩
    exact Page.le_getLast (inodeCheck_sound.ordered hc) hlast (mem_map_of_mem hkp')
  · rintro level floor out _ ⟨kp, hkp, -⟩
    cases hkp
  · rintro k p rest ihp ihrest level floor out h ⟨kp, hkp, hkpa⟩
    rw [rowsAfterChildren] at h
    split at h
    · rename_i hk
      obtain ⟨-, h⟩ := check_bind_eq_ok.mp h
      obtain ⟨hne, hrange⟩ := ihp h hk
      exact ⟨hne, (k, p), by simp, hrange⟩
    · rename_i hk
      rcases mem_cons.mp hkp with rfl | hkp
      · exact absurd hkpa hk
      · obtain ⟨hne, kp', hkp', hrange⟩ := ihrest h ⟨kp, hkp, hkpa⟩
        exact ⟨hne, kp', mem_cons_of_mem _ hkp', hrange⟩

/-- One window checks the path to its leaf; with everything past the leaf checked too,
everything past the window's own cursor is. -/
theorem tablePast_of_window :
    (∀ (p : InodePage Id) {expected : Option (ℕ × ℕ)} {floor : Option ℕ}
      {out : List (ℕ × InodeValue Id)}, rowsAfterPage after expected floor p = .ok out →
      (∀ row ∈ out.getLast?, TablePastBelow (some row.1) floor p) →
      TablePast after expected floor p) ∧
    ∀ (rows : List (ℕ × InodePage Id)) {level : ℕ} {floor : Option ℕ}
      {out : List (ℕ × InodeValue Id)}, rowsAfterChildren after level floor rows = .ok out →
      (rows.map Prod.fst).Pairwise (· < ·) →
      (∀ row ∈ out.getLast?, ChildrenTablePast (some row.1) (level - 1) floor rows) →
      ChildrenTablePast after (level - 1) floor rows := by
  refine Page.ind₂ ?_ ?_ ?_ ?_ ?_
  · intro e expected floor out h _
    exact absurd (rowsAfterPage_cases h).1 inodeCheck_sound.present
  · intro rows expected floor out h _
    obtain ⟨hc, hh, -⟩ := rowsAfterPage_cases h
    exact tablePast_iff.mpr ⟨hc, hh, trivial⟩
  · intro level c b rows ih expected floor out h hnext
    obtain ⟨hc, hh, h⟩ := rowsAfterPage_cases h
    exact tablePast_iff.mpr ⟨hc, hh, ih h (inodeCheck_sound.ordered hc) hnext⟩
  · intro level floor out _ _ _
    simp [ChildrenTablePast]
  · intro k p rest ihp ihrest level floor out h hord hnext
    rw [map_cons, pairwise_cons] at hord
    rw [rowsAfterChildren] at h
    split at h
    · rename_i hk
      obtain ⟨-, h⟩ := check_bind_eq_ok.mp h
      obtain ⟨hne, hrange⟩ := rowsAfter_range.1 p h hk
      obtain ⟨last, hlast⟩ : ∃ last, out.getLast? = some last := by
        rw [← Option.isSome_iff_exists, getLast?_isSome]
        exact hne
      obtain ⟨hle, -⟩ := hrange last (mem_of_getLast? hlast)
      obtain ⟨hp, hrest⟩ := childrenTablePast_cons.mp (hnext last hlast)
      refine childrenTablePast_cons.mpr ⟨fun _ => ihp h ?_, ?_⟩
      · -- below this child: read behind the leaf, unless the leaf is its last one
        intro row hrow
        rw [hlast] at hrow
        cases hrow
        rcases lt_or_eq_of_le hle with hlt | heq
        · exact (tablePast_iff.mp (hp (above_some.mpr hlt))).2.2
        · have hc := (rowsAfterPage_cases h).1
          cases p with
          | absent e => trivial
          | leaf rows => trivial
          | branch l c b rows =>
            refine childrenTablePast_of_le rows fun kp hkp => ?_
            rw [heq]
            exact Page.le_getLast (inodeCheck_sound.ordered hc) (inodeCheck_sound.last hc)
              (mem_map_of_mem hkp)
      · -- to its right everything lies past the leaf, hence past both cursors
        refine tablePast_of_none.2 rest (tablePast_none_of_floor.2 rest hrest hord.2 ?_ ?_)
        · exact fun kp hkp => above_some.mpr (hord.1 kp.1 (mem_map_of_mem hkp))
        · intro c hc
          cases hc
          exact ⟨k, rfl, hle⟩
    · rename_i hk
      refine childrenTablePast_cons.mpr ⟨fun habove => absurd habove hk, ?_⟩
      exact ihrest h hord.2 fun row hrow => (childrenTablePast_cons.mp (hnext row hrow)).2

variable {table : InodePage Id}

theorem tablePast_of_tableRows :
    ∀ {after : Option ℕ} {out : List (ℕ × InodeValue Id)},
      tableRows table fuel after = .ok out → TablePast after none none table := by
  induction fuel with
  | zero => intro after out h; cases h
  | succ fuel ih =>
    intro after out h
    simp only [tableRows, bind_eq_ok] at h
    obtain ⟨rows, hrows, h⟩ := h
    refine tablePast_of_window.1 table hrows fun row hrow => ?_
    rw [Option.mem_def.mp hrow] at h
    obtain ⟨rest, hrest, -⟩ := bind_eq_ok.mp h
    exact (tablePast_iff.mp (ih hrest)).2.2

theorem filter_past_last_row {rows : List (ℕ × InodeValue Id)}
    (hord : (rows.map Prod.fst).Pairwise (· < ·)) {last : ℕ × InodeValue Id}
    (hlast : last ∈ (rows.filter fun row => above after row.1).getLast?) :
    (rows.filter fun row => above (some last.1) row.1) = [] := by
  refine filter_eq_nil_iff.mpr fun row hrow hpast => ?_
  have hlt : last.1 < row.1 := by simpa using hpast
  have hmem := (mem_filter.mp (mem_of_getLast? hlast)).2
  have habove : above after row.1 := (of_decide_eq_true hmem).trans_le (le_of_lt hlt)
  have hin : row ∈ rows.filter fun row => above after row.1 :=
    mem_filter.mpr ⟨hrow, by simpa using habove⟩
  have hle : row.1 ≤ last.1 := by
    refine Page.le_getLast (hord.sublist (filter_sublist.map Prod.fst)) ?_
      (mem_map_of_mem hin)
    rw [getLast?_map, Option.mem_def.mp hlast, Option.map_some]
  exact absurd hlt (not_lt.mpr hle)

/-- One window over a checked table in order: the first rows past the cursor, empty only when
there are none. -/
theorem rowsAfter_of_tablePast {after : Option ℕ} :
    (∀ (p : InodePage Id) {expected : Option (ℕ × ℕ)} {floor : Option ℕ},
      TablePast none expected floor p →
      ∃ out, rowsAfterPage after expected floor p = .ok out ∧
        (out = [] → (p.rows.filter fun row => above after row.1) = []) ∧
        ∀ last ∈ out.getLast?, (p.rows.filter fun row => above after row.1)
          = out ++ p.rows.filter fun row => above (some last.1) row.1) ∧
    ∀ (rows : List (ℕ × InodePage Id)) {level : ℕ} {floor : Option ℕ}, level ≠ 0 →
      ChildrenTablePast none (level - 1) floor rows → (rows.map Prod.fst).Pairwise (· < ·) →
      (∀ kp ∈ rows, above floor kp.1) →
      ∃ out, rowsAfterChildren after level floor rows = .ok out ∧
        (out = [] → ((Page.childRows rows).filter fun row => above after row.1) = []) ∧
        ∀ last ∈ out.getLast?, ((Page.childRows rows).filter fun row => above after row.1)
          = out ++ (Page.childRows rows).filter fun row => above (some last.1) row.1 := by
  refine Page.ind₂ ?_ ?_ ?_ ?_ ?_
  · intro e expected floor h
    exact absurd (tablePast_iff.mp h).1 inodeCheck_sound.present
  · intro rows expected floor h
    obtain ⟨hc, hh, -⟩ := tablePast_iff.mp h
    refine ⟨rows.filter fun row => above after row.1, ?_, by simp, ?_⟩
    · rw [rowsAfterPage]
      exact check_bind_eq_ok.mpr ⟨hc, check_bind_eq_ok.mpr ⟨ensure_eq_ok.mpr hh, rfl⟩⟩
    · intro last hlast
      have hnone : (rows.filter fun row => above (some last.1) row.1) = [] :=
        filter_past_last_row (inodeCheck_sound.ordered hc) hlast
      rw [Page.rows_leaf, hnone, append_nil]
  · intro level c b rows ih expected floor h
    obtain ⟨hc, hh, hbelow⟩ := tablePast_iff.mp h
    have hkeys := (headPast_iff hc).mp hh
    obtain ⟨out, hout, hprop⟩ := ih (inodeCheck_decode hc).1 hbelow (inodeCheck_sound.ordered hc)
      fun kp hkp => hkeys kp.1 (mem_map_of_mem hkp)
    refine ⟨out, ?_, by simpa using hprop⟩
    rw [rowsAfterPage]
    exact check_bind_eq_ok.mpr ⟨hc, check_bind_eq_ok.mpr ⟨ensure_eq_ok.mpr hh, hout⟩⟩
  · intro level floor _ _ _ _
    exact ⟨[], by simp [rowsAfterChildren], by simp, by simp⟩
  · intro k p rest ihp ihrest level floor hlevel h hord habove
    obtain ⟨hp, hrest⟩ := childrenTablePast_cons.mp h
    obtain ⟨hpc, -⟩ := (tablePast_none_iff.1 p).mp (hp above_none)
    rw [map_cons, pairwise_cons] at hord
    have hkeys : ∀ kp ∈ rest, above (some k) kp.1 := fun kp hkp =>
      above_some.mpr (hord.1 kp.1 (mem_map_of_mem hkp))
    obtain ⟨-, hro⟩ := ((tablePast_none_iff.2 rest) hord.2).mp ⟨hrest, hkeys⟩
    simp only [Page.childRows_cons, filter_append]
    rw [rowsAfterChildren]
    by_cases hk : above after k
    · -- the window lies in this child; every row to its right is past both cursors
      obtain ⟨out, hout, -, hsplit⟩ := ihp (hp above_none)
      obtain ⟨hne, hrange⟩ := rowsAfter_range.1 p hout hk
      refine ⟨out, ?_, fun h => absurd h hne, fun last hlast => ?_⟩
      · rw [if_pos hk]
        exact check_bind_eq_ok.mpr ⟨ensure_eq_ok.mpr (by simpa using hlevel), hout⟩
      · have hright : ∀ {c : Option ℕ}, (∀ x ∈ c, x ≤ k) →
            ((Page.childRows rest).filter fun row => above c row.1) = Page.childRows rest := by
          intro c hc
          refine filter_eq_self.mpr fun row hrow => ?_
          have hlt := Page.InOrder.above_rows (p := .branch 0 0 0 rest)
            (Page.inOrder_branch.mpr hro) row (by simpa using hrow)
          have hpast : above c row.1 := fun x hx => lt_of_le_of_lt (hc x hx) (above_some.mp hlt)
          simpa using hpast
        have hle : last.1 ≤ k := (hrange last (mem_of_getLast? hlast)).1
        rw [hsplit last hlast, hright fun x hx => le_of_lt (hk x hx),
          hright fun x hx => by cases hx; exact hle, append_assoc]
    · -- this child lies behind the cursor
      obtain ⟨out, hout, hempty, hsplit⟩ := ihrest hlevel hrest hord.2 hkeys
      obtain ⟨c, hc, hkc⟩ : ∃ c ∈ after, k ≤ c := by
        simpa [above] using hk
      have hleft : ∀ {d : Option ℕ}, (∃ x ∈ d, k ≤ x) →
          (p.rows.filter fun row => above d row.1) = [] := by
        rintro d ⟨x, hx, hkx⟩
        refine filter_eq_nil_iff.mpr fun row hrow hd => ?_
        have hle := Page.rows_le_maximum inodeCheck_sound hpc row hrow
        exact absurd ((of_decide_eq_true hd) x hx) (not_lt.mpr (hle.trans hkx))
      refine ⟨out, by rw [if_neg hk, hout], ?_, fun last hlast => ?_⟩
      · intro hnil
        rw [hleft ⟨c, hc, hkc⟩, hempty hnil, append_nil]
      · have hin : last ∈ (Page.childRows rest).filter fun row => above after row.1 := by
          rw [hsplit last hlast]
          exact mem_append_left _ (mem_of_getLast? hlast)
        have hpast : above after last.1 := of_decide_eq_true (mem_filter.mp hin).2
        rw [hleft ⟨c, hc, hkc⟩, hleft ⟨last.1, rfl, hkc.trans (le_of_lt (hpast c hc))⟩,
          nil_append, nil_append, hsplit last hlast]

/-! ## The chain of windows -/

theorem tableRows_of_tablePast {table : InodePage Id} (h : TablePast none none none table)
    {fuel : ℕ} :
    ∀ {after : Option ℕ}, (table.rows.filter fun row => above after row.1).length < fuel →
      tableRows table fuel after = .ok (table.rows.filter fun row => above after row.1) := by
  induction fuel with
  | zero => intro after hfuel; omega
  | succ fuel ih =>
    intro after hfuel
    obtain ⟨out, hout, hempty, hsplit⟩ := (@rowsAfter_of_tablePast Id after).1 table h
    rw [tableRows]
    refine bind_eq_ok.mpr ⟨out, hout, ?_⟩
    rcases hlast : out.getLast? with _ | last
    · rw [hempty (getLast?_eq_none_iff.mp hlast)]
    · have hpos : 0 < out.length := length_pos_of_mem (mem_of_getLast? hlast)
      rw [hsplit last hlast, length_append] at hfuel
      rw [hsplit last hlast]
      exact bind_eq_ok.mpr ⟨_, ih (by omega), rfl⟩

/-- **The chain is an exact test of the table**, and returns every row once. -/
theorem tableRows_iff (hfuel : table.rows.length < fuel) :
    tableRows table fuel none = .ok out ↔
      Page.AllChecked inodeCheck none table ∧ (table.rows.map Prod.fst).Pairwise (· < ·) ∧
        out = table.rows := by
  have hall : (table.rows.filter fun row => above none row.1) = table.rows := by simp
  have hrun : TablePast none none none table →
      tableRows table fuel none = .ok table.rows := fun h => by
    have hrows := @tableRows_of_tablePast Id table h fuel none (by rwa [hall])
    rwa [hall] at hrows
  constructor
  · intro h
    have hpast := tablePast_of_tableRows h
    obtain ⟨hc, ho⟩ := (tablePast_none_iff.1 table).mp hpast
    rw [hrun hpast] at h
    cases h
    exact ⟨hc, Page.rows_pairwise inodeCheck_sound hc ho, rfl⟩
  · rintro ⟨hc, hord, rfl⟩
    have ho := @Page.inOrder_of_pairwise _ _ _ _ inodeCheck_sound table none none hc hord (by simp)
    exact hrun ((tablePast_none_iff.1 table).mpr ⟨hc, ho⟩)

end LayerFs
