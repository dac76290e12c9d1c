import LayerFs.History.Runs

/-!
# Ancestry

Reachability over the history graph, answered from the lineage records
(`layerfs-persistence/src/history/ancestry.rs`). A stack's Layers form one chain, so a node's
ancestry is its local Commits plus the ancestry of the newest Layer it reaches.

* `Consistent.contains_spec` — **a node contains another when it reaches it**.
* `isAncestor_exact` — **the answer in every reachable catalog**, with the facts it rests on.
-/

namespace LayerFs.History

variable {height : ℕ}

/-- A node's lineage row. -/
inductive Line (κ : Type) where
  | layer (stack : κ) (height : ℕ)
  | commit (line : CommitLine κ)

namespace Line

variable {κ : Type}

def stack : Line κ → κ
  | layer stack _ => stack
  | commit line => line.stack

def newest : Line κ → ℕ
  | layer _ height => height
  | commit line => line.newest

def depth : Line κ → ℕ
  | layer _ _ => 0
  | commit line => line.depth

end Line

namespace Catalog

variable {κ ρ : Type} [DecidableEq κ] (s : Catalog κ ρ)

/-- `Line::read`. -/
def readLine : NodeId κ → HistoryResult κ (Line κ)
  | .layer id => do
    let line ← s.layerLine id
    return .layer line.stack line.height
  | .commit id => do
    let line ← s.commitLine id
    return .commit line

/-- `contains`: a node is in the ancestry of another of its stack. The walk of the source stops at
the segment that answers; here its segments are listed first. -/
def contains (a d : Line κ) : HistoryResult κ Bool :=
  match a with
  | .layer _ height => .ok (decide (height ≤ d.newest))
  | .commit commit =>
    let absorbed := s.absorbedHeight commit.run commit.depth
    if absorbed.any fun height => height ≤ d.newest then .ok true
    else
      match d with
      | .layer _ _ => .ok false
      | .commit descendant =>
        if descendant.newest < commit.newest then .ok false
        else do
          -- Regions absorbed below `absorbed` lie in Layers that do not hold `a`.
          let segments ← s.explore descendant absorbed
          return segments.any fun segment =>
            segment.run = commit.run ∧ segment.lo < commit.depth ∧ commit.depth ≤ segment.hi

/-- `is_ancestor`. -/
def isAncestor (ancestor descendant : NodeId κ) : HistoryResult κ Bool :=
  if ancestor = descendant then .ok true
  else do
    let a ← s.readLine ancestor
    let d ← s.readLine descendant
    if a.stack = d.stack then s.contains a d else return false

/-! ## What the records mean -/

def IsNewest (n : NodeId κ) (height : ℕ) : Prop :=
  (∃ l row, s.layerRow l = some row ∧ row.height = height ∧ s.Reaches n (.layer l)) ∧
    ∀ l row, s.layerRow l = some row → s.Reaches n (.layer l) → row.height ≤ height

/-- The height of the first Layer whose ancestry holds a Commit, `NEVER` when none does. -/
def IsFirstHolder (c : κ) : Height → Prop
  | some height =>
    (∃ l row, s.layerRow l = some row ∧ row.height = height ∧ s.Reaches (.layer l) (.commit c)) ∧
      ∀ l row, s.layerRow l = some row → s.Reaches (.layer l) (.commit c) → height ≤ row.height
  | none => ∀ l, ¬s.Reaches (.layer l) (.commit c)

/-- What a consistent catalog reads for a node. -/
structure Describes (n : NodeId κ) (line : Line κ) : Prop where
  read : s.readLine n = .ok line
  stack : s.stackOf n = some line.stack
  newest : s.newestOf n = some line.newest

variable {s}

variable {n : NodeId κ} {stack : κ}
theorem Consistent.readLine_spec (h : s.Consistent) (hn : s.stackOf n = some stack) :
    ∃ line, s.Describes n line ∧ line.stack = stack := by
  cases n with
  | commit c =>
    obtain ⟨row, hrow⟩ := h.exists_commitRow hn
    obtain ⟨record, hrecord, rfl⟩ := Option.map_eq_some_iff.mp hn
    refine ⟨.commit ⟨record.stack, row.run, row.depth, row.newest, record.parent⟩,
      ⟨?_, ?_, ?_⟩, rfl⟩
    · simp [readLine, commitLine, hrow, hrecord, bind, Except.bind, pure, Except.pure]
    · simp [stackOf, hrecord, Line.stack]
    · simp [newestOf, hrow, Line.newest]
  | layer l =>
    obtain ⟨row, hrow, rfl⟩ := h.layerRow_stack hn
    refine ⟨.layer row.stack row.height, ⟨?_, hn, ?_⟩, rfl⟩
    · simp [readLine, layerLine, found, hrow, bind, Except.bind, pure, Except.pure]
    · simp [newestOf, hrow, Line.newest]

variable {line : Line κ}

theorem Describes.layer_eq {l : κ} (h : s.Describes (.layer l) line) :
    ∃ row, s.layerRow l = some row ∧ line = .layer row.stack row.height := by
  have hread := h.read
  simp only [readLine, layerLine, history_bind_eq_ok, found_eq_ok] at hread
  obtain ⟨row, hrow, hline⟩ := hread
  exact ⟨row, hrow, (Except.ok.inj hline).symm⟩

variable {c : κ}

theorem Describes.commit_eq (h : s.Describes (.commit c) line) :
    ∃ row record, s.commitRow c = some row ∧ s.commit c = some record ∧
      line = .commit ⟨record.stack, row.run, row.depth, row.newest, record.parent⟩ := by
  have hread := h.read
  simp only [readLine, history_bind_eq_ok] at hread
  obtain ⟨commitLine, hcommit, hline⟩ := hread
  obtain ⟨row, record, hrow, hrecord, rfl⟩ := commitLine_eq_ok.mp hcommit
  exact ⟨row, record, hrow, hrecord, (Except.ok.inj hline).symm⟩

theorem Consistent.heldAt_iff (h : s.Consistent) (hn : s.stackOf n = some stack)
    (hc : s.stackOf (.commit c) = some stack) (hnewest : s.newestOf n = some height) :
    s.HeldAt c height ↔ ∃ l, s.Reaches n (.layer l) ∧ s.Reaches (.layer l) (.commit c) := by
  constructor
  · rintro ⟨l, row, hl, hle, hreach⟩
    have hstack := h.reaches_stack (h.stackOf_layer hl) hreach
    have hsame : row.stack = stack := Option.some.inj (hstack.symm.trans hc)
    exact ⟨l, (h.reaches_layer_iff (hsame ▸ hn) hnewest hl).mpr hle, hreach⟩
  · rintro ⟨l, hnl, hlc⟩
    obtain ⟨row, hl, hstack⟩ := h.layerRow_stack (h.reaches_stack hn hnl)
    exact ⟨l, row, hl, (h.reaches_layer_iff (hstack ▸ hn) hnewest hl).mp hnl, hlc⟩

variable {row : CommitLineage κ}

theorem Consistent.absorbed_any_iff (h : s.Consistent) (hn : s.stackOf n = some stack)
    (hc : s.stackOf (.commit c) = some stack) (hrow : s.commitRow c = some row)
    (hnewest : s.newestOf n = some height) :
    ((s.absorbedHeight row.run row.depth).any fun x => x ≤ height) = true ↔
      ∃ l, s.Reaches n (.layer l) ∧ s.Reaches (.layer l) (.commit c) := by
  rw [← h.heldAt_iff hn hc hnewest, ← h.prefix_iff hrow, ← h.absorbedHeight_le_iff]
  rcases s.absorbedHeight row.run row.depth with _ | x
  · simp
  · simp

theorem Consistent.explored_any_iff (h : s.Consistent) {d : κ} {segments : List (Segment κ)}
    (hc : s.commitRow c = some row)
    (hexplored : s.Explored (s.absorbedHeight row.run row.depth) d (fun _ => none) segments) :
    (segments.any fun segment => segment.run = row.run ∧ segment.lo < row.depth ∧
      row.depth ≤ segment.hi) = true ↔ s.LocalReach d c := by
  rw [List.any_eq_true]
  constructor
  · rintro ⟨segment, hmem, hin⟩
    obtain ⟨hrun, -, hhigh⟩ := of_decide_eq_true hin
    obtain ⟨top, topRow, htop, htopRun, htopDepth, hreach⟩ := hexplored.top segment hmem
    exact hreach.trans (h.run_reach hc htop (hrun.symm.trans htopRun.symm) (by omega))
  · intro hreach
    have hlow := @Consistent.absorbedBelow_absorbedHeight _ _ _ s h row.run _ (h.depth_pos hc)
    rcases hexplored.covers hc hreach (not_le.mpr hlow) with ⟨lo, done, heq, -⟩ |
      ⟨segment, hmem, hrun, hhigh⟩
    · cases heq
    · refine ⟨segment, hmem, decide_eq_true ⟨hrun, ?_, hhigh⟩⟩
      rw [hexplored.lo_eq segment hmem, hrun]
      exact hlow

variable {a d : NodeId κ}

/-- **A node contains another of its stack when it reaches it.** -/
theorem Consistent.contains_spec (h : s.Consistent) {la ld : Line κ} (ha : s.Describes a la)
    (hd : s.Describes d ld) (hstack : la.stack = ld.stack) :
    ∃ answer, s.contains la ld = .ok answer ∧ (answer = true ↔ s.Reaches d a) := by
  have hda : s.stackOf d = some la.stack := hstack ▸ hd.stack
  cases a with
  | layer l =>
    obtain ⟨row, hrow, rfl⟩ := ha.layer_eq
    refine ⟨_, rfl, ?_⟩
    rw [decide_eq_true_eq]
    exact (h.reaches_layer_iff hda hd.newest hrow).symm
  | commit c =>
    have hac := ha.stack
    obtain ⟨row, record, hrow, hrecord, rfl⟩ := ha.commit_eq
    have hlayers := h.absorbed_any_iff hda hac hrow hd.newest
    simp only [contains]
    by_cases habs : ((s.absorbedHeight row.run row.depth).any fun x => x ≤ ld.newest) = true
    · obtain ⟨l, hdl, hlc⟩ := hlayers.mp habs
      exact ⟨true, by rw [if_pos habs], iff_of_true rfl (hdl.trans hlc)⟩
    · rw [if_neg habs]
      have hnone : ¬∃ l, s.Reaches d (.layer l) ∧ s.Reaches (.layer l) (.commit c) :=
        fun hsome => habs (hlayers.mpr hsome)
      cases d with
      | layer l =>
        obtain ⟨lrow, hl, rfl⟩ := hd.layer_eq
        exact ⟨false, rfl, by simpa using fun hreach => hnone ⟨l, .refl, hreach⟩⟩
      | commit d =>
        obtain ⟨drow, drecord, hdrow, -, rfl⟩ := hd.commit_eq
        have hlocal : s.Reaches (.commit d) (.commit c) ↔ s.LocalReach d c := by
          rw [reaches_commit_iff]
          exact or_iff_left hnone
        rw [hlocal]
        dsimp only
        by_cases hnewer : drow.newest < row.newest
        · refine ⟨false, by rw [if_pos hnewer], ?_⟩
          have hnot : ¬s.LocalReach d c := fun hreach => by
            have := h.newest_le hreach.reaches hd.newest ha.newest
            simp only [Line.newest] at this
            omega
          simpa using hnot
        · rw [if_neg hnewer]
          obtain ⟨segments, hsegments, hexplored⟩ :=
            @Consistent.explore_spec _ _ _ s d h drow
              ⟨drecord.stack, drow.run, drow.depth, drow.newest, drecord.parent⟩ hdrow rfl rfl
              (s.absorbedHeight row.run row.depth)
          refine ⟨_, by rw [hsegments]; rfl, h.explored_any_iff hrow hexplored⟩

/-- **`is_ancestor` in a consistent catalog.** -/
theorem Consistent.isAncestor_spec (h : s.Consistent) {sa sd : κ} (ha : s.stackOf a = some sa)
    (hd : s.stackOf d = some sd) :
    ∃ answer, s.isAncestor a d = .ok answer ∧ (answer = true ↔ s.Reaches d a) := by
  by_cases heq : a = d
  · subst heq
    exact ⟨true, by simp [isAncestor], iff_of_true rfl .refl⟩
  · obtain ⟨la, hla, rfl⟩ := h.readLine_spec ha
    obtain ⟨ld, hld, rfl⟩ := h.readLine_spec hd
    simp only [isAncestor, if_neg heq, hla.read, hld.read, bind, Except.bind]
    by_cases hstack : la.stack = ld.stack
    · rw [if_pos hstack]
      exact h.contains_spec hla hld hstack
    · rw [if_neg hstack]
      refine ⟨false, rfl, ?_⟩
      have hnot : ¬s.Reaches d a := fun hreach =>
        hstack (Option.some.inj (ha.symm.trans (h.reaches_stack hd hreach)))
      simpa using hnot

theorem Consistent.isNewest (h : s.Consistent) (hn : s.newestOf n = some height) :
    s.IsNewest n height := by
  refine ⟨h.reaches_newest hn, fun l row hl hreach => ?_⟩
  exact h.newest_le hreach hn (by simp [newestOf, hl])

theorem Consistent.isFirstHolder (h : s.Consistent) (hc : s.commitRow c = some row) :
    s.IsFirstHolder c (s.absorbedHeight row.run row.depth) := by
  have hheld : ∀ height, (∃ x, s.absorbedHeight row.run row.depth = some x ∧ x ≤ height) ↔
      s.HeldAt c height := fun height => h.absorbedHeight_le_iff.trans (h.prefix_iff hc)
  rcases habs : s.absorbedHeight row.run row.depth with _ | height
  · intro l hreach
    have hedge : ∃ row, s.layerRow l = some row := by
      rcases hreach.cases_head with heq | ⟨n, hedge, -⟩
      · cases heq
      · obtain ⟨stack, hstack, -⟩ := h.edge_stack hedge
        obtain ⟨row, hrow, -⟩ := h.layerRow_stack hstack
        exact ⟨row, hrow⟩
    obtain ⟨lrow, hl⟩ := hedge
    obtain ⟨x, hx, -⟩ := (hheld lrow.height).mpr ⟨l, lrow, hl, le_rfl, hreach⟩
    rw [habs] at hx
    cases hx
  · have hleast : ∀ l lrow, s.layerRow l = some lrow → s.Reaches (.layer l) (.commit c) →
        height ≤ lrow.height := by
      intro l lrow hl hreach
      obtain ⟨x, hx, hle⟩ := (hheld lrow.height).mpr ⟨l, lrow, hl, le_rfl, hreach⟩
      rw [habs] at hx
      cases hx
      exact hle
    obtain ⟨l, lrow, hl, hle, hreach⟩ := (hheld height).mp ⟨height, habs, le_rfl⟩
    exact ⟨⟨l, lrow, hl, le_antisymm hle (hleast l lrow hl hreach), hreach⟩, hleast⟩

end Catalog

section Exact

variable {κ ρ : Type} [DecidableEq κ] [DecidableEq ρ] {codec : Codec κ ρ} {s : Catalog κ ρ}

/-- **`is_ancestor` is exact in every reachable catalog**: for two of its nodes it answers whether
one reaches the other. It rests on: a Commit's recorded newest height is that of the newest Layer it
reaches, its absorbed height that of the first Layer that holds it, and a run is one first-parent
path. -/
theorem isAncestor_exact (h : Reachable codec s) :
    (∀ a d stackA stackD, s.stackOf a = some stackA → s.stackOf d = some stackD →
      ∃ answer, s.isAncestor a d = .ok answer ∧ (answer = true ↔ s.Reaches d a)) ∧
    (∀ c record, s.commit c = some record → ∃ row, s.commitRow c = some row ∧
      s.IsNewest (.commit c) row.newest ∧
      s.IsFirstHolder c (s.absorbedHeight row.run row.depth)) ∧
    ∀ c c' row row', s.commitRow c = some row → s.commitRow c' = some row' → row.run = row'.run →
      (row.depth = row'.depth → c = c') ∧
      (row.depth ≤ row'.depth → Relation.ReflTransGen s.FirstParent c' c) := by
  have hs := h.consistent
  refine ⟨fun a d stackA stackD ha hd => hs.isAncestor_spec ha hd, fun c record hc => ?_, ?_⟩
  · obtain ⟨row, hrow⟩ := hs.commit_row hc
    exact ⟨row, hrow, hs.isNewest (by simp [Catalog.newestOf, hrow]), hs.isFirstHolder hrow⟩
  · intro c c' row row' hc hc' hrun
    exact ⟨hs.place_unique hc hc' hrun, hs.run_path hc hc' hrun⟩

end Exact

/-! ## A published Commit -/

def numbering : Codec ℕ Unit where
  commitId root _ _ _ _ := root + 100
  layerId _ _ root := root + 200
  storable _ := .ok ()

def plainInfo : CommitMeta ℕ Unit := ⟨none, .workspace, none, none, none, 0, 0, ()⟩

def forkedCatalog : Catalog ℕ Unit where
  layerStacks := [⟨1, "main", 0, 0, 210⟩]
  layers := [⟨0, 210, 1, none, 10, none, none, 0⟩]
  commits := []
  branches := [⟨2, 1, "work", 210, none, some (.layer 210)⟩]
  commitLineage := []
  layerLineage := [⟨210, 1, 0, 0⟩]
  absorbed := []
  reach := []

def committedCatalog : Catalog ℕ Unit :=
  { forkedCatalog with
    commits := [⟨111, 1, 11, none, 210, none, plainInfo.stamped 2 5⟩]
    branches := [⟨2, 1, "work", 210, some 111, some (.layer 210)⟩]
    commitLineage := [⟨111, 111, 1, 0, none⟩] }

def publishedCatalog : Catalog ℕ Unit :=
  { committedCatalog with
    layerStacks := [⟨1, "main", 0, 0, 211⟩]
    layers := [⟨0, 211, 1, some 210, 11, some 2, some 111, 0⟩,
      ⟨0, 210, 1, none, 10, none, none, 0⟩]
    layerLineage := [⟨211, 1, 1, 0⟩, ⟨210, 1, 0, 0⟩]
    absorbed := [⟨111, 1, 1⟩]
    reach := [⟨.run 111, 1, 1⟩] }

theorem reachable_publishedCatalog : Reachable numbering publishedCatalog := by
  let start : Operation ℕ Unit := .initializeLayerstack ⟨1, "main", 0, 0, 10, 0⟩
  let fork : Operation ℕ Unit := .fork ⟨1, 2, "work", .layer 210⟩
  let commit : Operation ℕ Unit :=
    .commitBranch 5 ⟨2, none, 210, 10, 11, 0, 0, none, plainInfo, false⟩
  let publish : Operation ℕ Unit := .addLayer ⟨1, 2, 111, 210, 210⟩
  have hstart : Reachable numbering { forkedCatalog with branches := [] } :=
    @Reachable.step _ _ _ _ _ _ _ start .empty trivial rfl
  have hfork : Reachable numbering forkedCatalog :=
    @Reachable.step _ _ _ _ _ _ _ fork hstart trivial rfl
  have hsame : commit.SameStack forkedCatalog :=
    fun _ _ _ hsecond => absurd hsecond (by simp)
  have hcommit : Reachable numbering committedCatalog :=
    @Reachable.step _ _ _ _ _ _ _ commit hfork hsame rfl
  exact @Reachable.step _ _ _ _ _ _ _ publish hcommit trivial rfl

/-- A published Commit is an ancestor of its Layer. -/
theorem isAncestor_exact_published : Reachable numbering publishedCatalog ∧
    ∃ answer, publishedCatalog.isAncestor (.commit 111) (.layer 211) = .ok answer ∧
      (answer = true ↔ publishedCatalog.Reaches (.layer 211) (.commit 111)) :=
  ⟨reachable_publishedCatalog,
    (isAncestor_exact reachable_publishedCatalog).1 (.commit 111) (.layer 211) 1 1 rfl rfl⟩

/-- A second Commit on the first, behind the Layer that published it. -/
def secondCatalog : Catalog ℕ Unit :=
  { publishedCatalog with
    commits := ⟨112, 1, 12, some 111, 210, none, plainInfo.stamped 2 6⟩ :: publishedCatalog.commits
    branches := [⟨2, 1, "work", 210, some 112, some (.layer 210)⟩]
    commitLineage := ⟨112, 111, 2, 0, none⟩ :: publishedCatalog.commitLineage }

theorem reachable_secondCatalog : Reachable numbering secondCatalog := by
  let commit : Operation ℕ Unit :=
    .commitBranch 6 ⟨2, some 111, 210, 11, 12, 0, 0, none, plainInfo, false⟩
  have hsame : commit.SameStack publishedCatalog :=
    fun _ _ _ hsecond => absurd hsecond (by simp)
  exact @Reachable.step _ _ _ _ _ _ _ commit reachable_publishedCatalog hsame rfl

end LayerFs.History
