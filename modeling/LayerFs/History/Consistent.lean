import LayerFs.History.Operations

/-!
# Consistent catalogs

What the lineage rows of a catalog say about its history graph.

* `Catalog.Consistent` — **the invariant**: rows match records, the graph is acyclic and stays in one
  stack, a Commit's newest height is that of the newest Layer it reaches, runs are first-parent
  paths, and the absorbed prefixes are what the Layers reach.
-/

namespace LayerFs.History

variable {below : Height} {α : Type} {before : α → α → Bool} {depth m n : ℕ}

/-! ## Ordered statements -/

theorem firstBy_spec (hirrefl : ∀ a, before a a = false)
    (hasymm : ∀ a b, before a b = true → before b a = false)
    (htrans : ∀ a b c, before a b = false → before b c = false → before a c = false) {l : List α} :
    ∀ {x}, firstBy before l = some x → x ∈ l ∧ ∀ y ∈ l, before y x = false := by
  induction l with
  | nil => exact fun h => by cases h
  | cons row rest ih =>
    intro x h
    rw [firstBy] at h
    rcases hrest : firstBy before rest with _ | best
    · rw [hrest] at h
      cases h
      refine ⟨List.mem_cons_self, fun y hy => ?_⟩
      rcases List.mem_cons.mp hy with rfl | hy
      · exact hirrefl _
      · rcases rest with _ | ⟨z, zs⟩
        · cases hy
        · rw [firstBy] at hrest
          rcases hzs : firstBy before zs with _ | w
          · rw [hzs] at hrest
            cases hrest
          · rw [hzs] at hrest
            dsimp only at hrest
            split_ifs at hrest
    · rw [hrest] at h
      obtain ⟨hmem, hfirst⟩ := ih hrest
      dsimp only at h
      split_ifs at h with hbest
      · cases h
        refine ⟨List.mem_cons_of_mem _ hmem, fun y hy => ?_⟩
        rcases List.mem_cons.mp hy with rfl | hy
        · exact hasymm _ _ hbest
        · exact hfirst y hy
      · cases h
        refine ⟨List.mem_cons_self, fun y hy => ?_⟩
        rcases List.mem_cons.mp hy with rfl | hy
        · exact hirrefl _
        · exact htrans _ _ _ (hfirst y hy) (by simpa using hbest)

theorem firstBy_eq_none {l : List α} : firstBy before l = none ↔ l = [] := by
  cases l with
  | nil => simp [firstBy]
  | cons row rest =>
    rw [firstBy]
    rcases firstBy before rest with _ | best
    · simp
    · dsimp only
      split_ifs <;> simp

namespace Catalog

variable {κ ρ : Type} [DecidableEq κ]

def LocalEdge (s : Catalog κ ρ) (c p : κ) : Prop := s.Edge (.commit c) (.commit p)

def LocalReach (s : Catalog κ ρ) : κ → κ → Prop := Relation.ReflTransGen s.LocalEdge

def HeldAt (s : Catalog κ ρ) (c : κ) (height : ℕ) : Prop :=
  ∃ l row, s.layerRow l = some row ∧ row.height ≤ height ∧ s.Reaches (.layer l) (.commit c)

/-- Some absorbed prefix of height up to a bound holds a place of a run. -/
def PrefixAt (s : Catalog κ ρ) (run : κ) (depth height : ℕ) : Prop :=
  ∃ prefixed ∈ s.absorbed, prefixed.run = run ∧ depth ≤ prefixed.depth ∧ prefixed.height ≤ height

/-- **A consistent catalog.** -/
structure Consistent (s : Catalog κ ρ) : Prop where
  commit_row : ∀ {c r}, s.commit c = some r → ∃ row, s.commitRow c = some row
  row_commit : ∀ {c row}, s.commitRow c = some row → ∃ r, s.commit c = some r
  /-- every row is the one its Commit finds -/
  row_mem : ∀ row ∈ s.commitLineage, s.commitRow row.commitId = some row
  /-- a Layer has a lineage row, of its stack -/
  layer_row : ∀ {l r}, s.layer l = some r → ∃ row, s.layerRow l = some row ∧ row.stack = r.stack
  row_layer : ∀ {l row}, s.layerRow l = some row → ∃ r, s.layer l = some r
  /-- every row is the one its Layer finds -/
  layerRow_mem : ∀ row ∈ s.layerLineage, s.layerRow row.layerId = some row
  /-- an edge leads to a node of the same stack -/
  edge_stack : ∀ {a b}, s.Edge a b → ∃ stack, s.stackOf a = some stack ∧ s.stackOf b = some stack
  /-- no node is its own proper ancestor -/
  acyclic : Acyclic s.Edge
  /-- a Layer sits one above its parent, the genesis at the bottom -/
  height_eq : ∀ {l r row}, s.layer l = some r → s.layerRow l = some row →
    (r.parent = none → row.height = 0) ∧
      ∀ p, r.parent = some p → ∃ below, s.layerRow p = some below ∧ row.height = below.height + 1
  /-- a Layer's source reaches only older Layers -/
  source_newest : ∀ {l r row c}, s.layer l = some r → s.layerRow l = some row →
    r.sourceCommit = some c → ∃ source, s.commitRow c = some source ∧ source.newest < row.height
  /-- one height of a stack has one Layer -/
  height_unique : ∀ {l l' row row'}, s.layerRow l = some row → s.layerRow l' = some row' →
    row.stack = row'.stack → row.height = row'.height → l = l'
  /-- a stack's head is its highest Layer -/
  head_top : ∀ {id stack}, s.layerStack id = some stack → ∃ row,
    s.layerRow stack.headLayer = some row ∧ row.stack = id ∧
      ∀ l other, s.layerRow l = some other → other.stack = id → other.height ≤ row.height
  layer_stack : ∀ {l r}, s.layer l = some r → (s.layerStack r.stack).isSome
  /-- a Commit reaches a Layer of its newest height -/
  newest_reached : ∀ {c row}, s.commitRow c = some row → ∃ l newest,
    s.layerRow l = some newest ∧ newest.height = row.newest ∧ s.Reaches (.commit c) (.layer l)
  newest_top : ∀ {c row l other}, s.commitRow c = some row → s.layerRow l = some other →
    s.Reaches (.commit c) (.layer l) → other.height ≤ row.newest
  /-- a Commit without a parent starts a run -/
  run_first : ∀ {c r row}, s.commit c = some r → s.commitRow c = some row → r.parent = none →
    row.run = c ∧ row.depth = 1
  /-- a Commit continues its parent's run, or starts one -/
  run_next : ∀ {c r row p}, s.commit c = some r → s.commitRow c = some row → r.parent = some p →
    ∃ before, s.commitRow p = some before ∧ row.depth = before.depth + 1 ∧
      (row.run = c ∨ row.run = before.run)
  run_start : ∀ {c row}, s.commitRow c = some row → ∃ start, s.commitRow row.run = some start ∧
    start.run = row.run
  place_unique : ∀ {c c' row row'}, s.commitRow c = some row → s.commitRow c' = some row' →
    row.run = row'.run → row.depth = row'.depth → c = c'
  /-- a merge records its Commit second parent -/
  merged_iff : ∀ {c r row m}, s.commit c = some r → s.commitRow c = some row →
    (row.merged = some m ↔ r.secondParent = some (.commit m))
  /-- an absorbed prefix ends at a Commit a Layer of its height has in its ancestry -/
  prefix_commit : ∀ prefixed ∈ s.absorbed, ∃ c row l layer, s.commitRow c = some row ∧
    row.run = prefixed.run ∧ row.depth = prefixed.depth ∧ s.layerRow l = some layer ∧
      layer.height = prefixed.height ∧ s.Reaches (.layer l) (.commit c)
  /-- deeper prefixes are absorbed later -/
  prefix_mono : ∀ a ∈ s.absorbed, ∀ b ∈ s.absorbed, a.run = b.run → a.depth ≤ b.depth →
    a.height ≤ b.height
  /-- the absorbed prefixes up to a height are what the Layers up to it reach -/
  prefix_iff : ∀ {c row height}, s.commitRow c = some row →
    (s.PrefixAt row.run row.depth height ↔ s.HeldAt c height)

def FirstParent (s : Catalog κ ρ) (c p : κ) : Prop :=
  ∃ record, s.commit c = some record ∧ record.parent = some p

def newestOf (s : Catalog κ ρ) : NodeId κ → Option ℕ
  | .commit c => (s.commitRow c).map CommitLineage.newest
  | .layer l => (s.layerRow l).map LayerLineage.height

variable {s : Catalog κ ρ}

variable {row : CommitLineage κ} {c : κ}
theorem commitRow_mem (h : s.commitRow c = some row) : row ∈ s.commitLineage :=
  List.mem_of_find?_eq_some h

theorem commitRow_id (h : s.commitRow c = some row) : row.commitId = c := by
  simpa using List.find?_some h

variable {p : κ}

theorem firstParent_localEdge (h : s.FirstParent c p) : s.LocalEdge c p := by
  obtain ⟨record, hrecord, hparent⟩ := h
  exact .parent hrecord hparent

variable {d : κ}

theorem LocalReach.reaches {a : κ} (h : s.LocalReach d a) : s.Reaches (.commit d) (.commit a) := by
  induction h with
  | refl => exact .refl
  | tail _ hedge ih => exact ih.tail hedge

/-- **A Commit is reached over Commits alone, or through a Layer.** -/
theorem reaches_commit_iff {a : κ} :
    s.Reaches (.commit d) (.commit a) ↔
      s.LocalReach d a ∨ ∃ l, s.Reaches (.commit d) (.layer l) ∧ s.Reaches (.layer l) (.commit a) := by
  constructor
  · intro h
    generalize hn : NodeId.commit d = n at h
    induction h using Relation.ReflTransGen.head_induction_on generalizing d with
    | refl =>
      cases hn
      exact .inl .refl
    | head hedge hrest ih =>
      subst hn
      rename_i m
      cases m with
      | commit p =>
        rcases ih rfl with hlocal | ⟨l, hl, hla⟩
        · exact .inl (hlocal.head hedge)
        · exact .inr ⟨l, hl.head hedge, hla⟩
      | layer l => exact .inr ⟨l, .single hedge, hrest⟩
  · rintro (h | ⟨l, hl, hla⟩)
    · exact h.reaches
    · exact hl.trans hla

namespace Consistent

/-! ## Stacks and newest Layers -/

variable {a b : NodeId κ} {stack : κ}

theorem reaches_stack (h : s.Consistent) (ha : s.stackOf a = some stack) (hab : s.Reaches a b) :
    s.stackOf b = some stack := by
  induction hab with
  | refl => exact ha
  | tail _ hedge ih =>
    obtain ⟨stack', hb, hc⟩ := h.edge_stack hedge
    rw [ih] at hb
    cases hb
    exact hc

theorem exists_commitRow (h : s.Consistent) (hc : s.stackOf (.commit c) = some stack) :
    ∃ row, s.commitRow c = some row := by
  obtain ⟨record, hrecord, -⟩ := Option.map_eq_some_iff.mp hc
  exact h.commit_row hrecord

variable {l : κ}

theorem layerRow_stack (h : s.Consistent) (hl : s.stackOf (.layer l) = some stack) :
    ∃ row, s.layerRow l = some row ∧ row.stack = stack := by
  obtain ⟨record, hrecord, rfl⟩ := Option.map_eq_some_iff.mp hl
  exact h.layer_row hrecord

theorem stackOf_layer (h : s.Consistent) {row : LayerLineage κ} (hrow : s.layerRow l = some row) :
    s.stackOf (.layer l) = some row.stack := by
  obtain ⟨record, hrecord⟩ := h.row_layer hrow
  obtain ⟨row', hrow', hstack⟩ := h.layer_row hrecord
  rw [hrow] at hrow'
  cases hrow'
  simp [stackOf, hrecord, hstack]

theorem exists_newest (h : s.Consistent) (ha : s.stackOf a = some stack) :
    ∃ n, s.newestOf a = some n := by
  cases a with
  | commit c =>
    obtain ⟨row, hrow⟩ := h.exists_commitRow ha
    exact ⟨row.newest, by simp [newestOf, hrow]⟩
  | layer l =>
    obtain ⟨row, hrow, -⟩ := h.layerRow_stack ha
    exact ⟨row.height, by simp [newestOf, hrow]⟩

theorem reaches_newest (h : s.Consistent) (ha : s.newestOf a = some n) :
    ∃ l row, s.layerRow l = some row ∧ row.height = n ∧ s.Reaches a (.layer l) := by
  cases a with
  | commit c =>
    obtain ⟨row, hrow, rfl⟩ := Option.map_eq_some_iff.mp ha
    exact h.newest_reached hrow
  | layer l =>
    obtain ⟨row, hrow, rfl⟩ := Option.map_eq_some_iff.mp ha
    exact ⟨l, row, hrow, rfl, .refl⟩

theorem newest_le_of_edge (h : s.Consistent) (hab : s.Edge a b) (ha : s.newestOf a = some n)
    (hb : s.newestOf b = some m) : m ≤ n := by
  have hcommit : ∀ c, a = .commit c → m ≤ n := by
    rintro c rfl
    obtain ⟨l, row, hrow, rfl, hreach⟩ := h.reaches_newest hb
    obtain ⟨own, hown, rfl⟩ := Option.map_eq_some_iff.mp ha
    exact h.newest_top hown hrow (hreach.head hab)
  cases hab with
  | parent hc hp => exact hcommit _ rfl
  | base hc hp => exact hcommit _ rfl
  | second hc hn => exact hcommit _ rfl
  | previous hl hp =>
    obtain ⟨row, hrow, rfl⟩ := Option.map_eq_some_iff.mp ha
    obtain ⟨below, hbelow, rfl⟩ := Option.map_eq_some_iff.mp hb
    obtain ⟨below', hbelow', heq⟩ := (h.height_eq hl hrow).2 _ hp
    rw [hbelow] at hbelow'
    cases hbelow'
    omega
  | source hl hc =>
    obtain ⟨row, hrow, rfl⟩ := Option.map_eq_some_iff.mp ha
    obtain ⟨source, hsource, rfl⟩ := Option.map_eq_some_iff.mp hb
    obtain ⟨source', hsource', hlt⟩ := h.source_newest hl hrow hc
    rw [hsource] at hsource'
    cases hsource'
    exact hlt.le

theorem newest_le (h : s.Consistent) (hab : s.Reaches a b) (ha : s.newestOf a = some n)
    (hb : s.newestOf b = some m) : m ≤ n := by
  induction hab generalizing m with
  | refl =>
    rw [ha] at hb
    cases hb
    exact le_rfl
  | tail _ hedge ih =>
    obtain ⟨stack, hstack, -⟩ := h.edge_stack hedge
    obtain ⟨k, hk⟩ := h.exists_newest hstack
    exact (h.newest_le_of_edge hedge hk hb).trans (ih hk)

/-- **The Layers of a stack form one chain.** -/
theorem layer_reaches (h : s.Consistent) {l' : κ} {row row' : LayerLineage κ}
    (hl : s.layerRow l = some row) (hl' : s.layerRow l' = some row')
    (hstack : row.stack = row'.stack) (hle : row'.height ≤ row.height) :
    s.Reaches (.layer l) (.layer l') := by
  generalize hn : row.height = n at hle
  induction n generalizing l row with
  | zero =>
    have : l = l' := h.height_unique hl hl' hstack (by omega)
    exact this ▸ .refl
  | succ n ih =>
    rcases Nat.lt_or_ge row'.height row.height with hlt | hge
    · obtain ⟨record, hrecord⟩ := h.row_layer hl
      obtain ⟨hgenesis, hparent⟩ := h.height_eq hrecord hl
      rcases hp : record.parent with _ | p
      · have := hgenesis hp
        omega
      · obtain ⟨below, hbelow, heq⟩ := hparent p hp
        have hedge : s.Edge (.layer l) (.layer p) := .previous hrecord hp
        have hstack' := h.reaches_stack (h.stackOf_layer hl) (.single hedge)
        have hsame : below.stack = row.stack :=
          Option.some.inj ((h.stackOf_layer hbelow).symm.trans hstack')
        exact (ih hbelow (hsame.trans hstack) (by omega) (by omega)).head hedge
    · have : l = l' := h.height_unique hl hl' hstack (by omega)
      exact this ▸ .refl

/-- **A node reaches the Layers of its stack up to its newest.** -/
theorem reaches_layer_iff (h : s.Consistent) {row : LayerLineage κ}
    (hstack : s.stackOf a = some row.stack) (ha : s.newestOf a = some n)
    (hl : s.layerRow l = some row) : s.Reaches a (.layer l) ↔ row.height ≤ n := by
  constructor
  · intro hreach
    exact h.newest_le hreach ha (by simp [newestOf, hl])
  · intro hle
    obtain ⟨top, topRow, htop, rfl, hreach⟩ := h.reaches_newest ha
    have htopStack := h.reaches_stack hstack hreach
    have hsame : topRow.stack = row.stack :=
      Option.some.inj ((h.stackOf_layer htop).symm.trans htopStack)
    exact hreach.trans (h.layer_reaches htop hl hsame hle)

/-! ## Runs -/

theorem run_parent (h : s.Consistent) (hc : s.commitRow c = some row) (hne : row.run ≠ c) :
    ∃ p before, s.FirstParent c p ∧ s.commitRow p = some before ∧
      before.run = row.run ∧ row.depth = before.depth + 1 := by
  obtain ⟨record, hrecord⟩ := h.row_commit hc
  rcases hp : record.parent with _ | p
  · exact absurd (h.run_first hrecord hc hp).1 hne
  · obtain ⟨before, hbefore, hdepth, hrun | hrun⟩ := h.run_next hrecord hc hp
    · exact absurd hrun hne
    · exact ⟨p, before, ⟨record, hrecord, hp⟩, hbefore, hrun.symm, hdepth⟩

theorem depth_pos (h : s.Consistent) (hc : s.commitRow c = some row) : 0 < row.depth := by
  obtain ⟨record, hrecord⟩ := h.row_commit hc
  rcases hp : record.parent with _ | p
  · have := (h.run_first hrecord hc hp).2
    omega
  · obtain ⟨before, -, hdepth, -⟩ := h.run_next hrecord hc hp
    omega

theorem start_le (h : s.Consistent) {start : CommitLineage κ} (hc : s.commitRow c = some row)
    (hstart : s.commitRow row.run = some start) : start.depth ≤ row.depth := by
  generalize hn : row.depth = n
  induction n generalizing c row with
  | zero =>
    have := h.depth_pos hc
    omega
  | succ n ih =>
    by_cases hrun : row.run = c
    · rw [hrun, hc] at hstart
      cases hstart
      exact hn.le
    · obtain ⟨p, before, -, hbefore, hsame, hdepth⟩ := h.run_parent hc hrun
      have := ih hbefore (hsame ▸ hstart) (by omega)
      omega

variable {row' : CommitLineage κ} {c' : κ}

/-- **A run is one first-parent path**: of two of its Commits the deeper reaches the other over first
parents. -/
theorem run_path (h : s.Consistent) (hc : s.commitRow c = some row)
    (hc' : s.commitRow c' = some row') (hrun : row.run = row'.run) (hle : row.depth ≤ row'.depth) :
    Relation.ReflTransGen s.FirstParent c' c := by
  generalize hn : row'.depth = n at hle
  induction n generalizing c' row' with
  | zero =>
    have := h.depth_pos hc'
    omega
  | succ n ih =>
    rcases Nat.lt_or_ge row.depth row'.depth with hlt | hge
    · by_cases hstart : row'.run = c'
      · -- the start of the run lies above no Commit of it
        have hle := h.start_le hc (hrun ▸ hstart ▸ hc')
        omega
      · obtain ⟨p, before, hparent, hbefore, hsame, hdepth⟩ := h.run_parent hc' hstart
        exact (ih hbefore (hrun.trans hsame.symm) (by omega) (by omega)).head hparent
    · have : c = c' := h.place_unique hc hc' hrun (by omega)
      exact this ▸ .refl

theorem run_reach (h : s.Consistent) (hc : s.commitRow c = some row)
    (hc' : s.commitRow c' = some row') (hrun : row.run = row'.run) (hle : row.depth ≤ row'.depth) :
    s.LocalReach c' c :=
  Relation.ReflTransGen.mono (fun _ _ => firstParent_localEdge) _ _ (h.run_path hc hc' hrun hle)

/-! ## Absorption -/

variable {run : κ}

theorem le_absorbedBelow_iff (h : s.Consistent) (hpos : 0 < depth) :
    depth ≤ s.absorbedBelow run below ↔ ∃ prefixed ∈ s.absorbed,
      prefixed.run = run ∧ Under prefixed.height below ∧ depth ≤ prefixed.depth := by
  rw [absorbedBelow]
  generalize hrows : s.absorbed.filter (fun row => row.run = run ∧ Under row.height below) = rows
  have hmem : ∀ {row}, row ∈ rows ↔
      row ∈ s.absorbed ∧ row.run = run ∧ Under row.height below := by
    intro row
    rw [← hrows, List.mem_filter, decide_eq_true_eq]
  generalize hfirst : firstBy _ rows = first
  rcases first with _ | best
  · have hempty := firstBy_eq_none.mp hfirst
    constructor
    · intro hle
      simp only [Option.map_none, Option.getD_none] at hle
      omega
    · rintro ⟨row, hrow, hrun, hunder, -⟩
      have := hmem.mpr ⟨hrow, hrun, hunder⟩
      simp [hempty] at this
  · obtain ⟨hbest, htop⟩ := firstBy_spec (by simp) (by simp; omega) (by simp; omega) hfirst
    obtain ⟨hstored, hbestRun, hunder⟩ := hmem.mp hbest
    simp only [Option.map_some, Option.getD_some]
    constructor
    · exact fun hle => ⟨best, hstored, hbestRun, hunder, hle⟩
    · rintro ⟨row, hrow, hrun, hrowUnder, hle⟩
      have hnot := htop row (hmem.mpr ⟨hrow, hrun, hrowUnder⟩)
      have hmono := h.prefix_mono best hstored row hrow (hbestRun.trans hrun.symm)
      simp only [Bool.or_eq_false_iff, decide_eq_false_iff_not, Bool.and_eq_false_iff] at hnot
      by_contra hlt
      have := hmono (by omega)
      omega

theorem absorbedHeight_le_iff (h : s.Consistent) {height : ℕ} :
    (∃ x, s.absorbedHeight run depth = some x ∧ x ≤ height) ↔ s.PrefixAt run depth height := by
  rw [absorbedHeight]
  generalize hrows : s.absorbed.filter (fun row => row.run = run ∧ depth ≤ row.depth) = rows
  have hmem : ∀ {row}, row ∈ rows ↔ row ∈ s.absorbed ∧ row.run = run ∧ depth ≤ row.depth := by
    intro row
    rw [← hrows, List.mem_filter, decide_eq_true_eq]
  generalize hfirst : firstBy _ rows = first
  rcases first with _ | best
  · have hempty := firstBy_eq_none.mp hfirst
    constructor
    · rintro ⟨x, hx, -⟩
      cases hx
    · rintro ⟨row, hrow, hrun, hle, -⟩
      have := hmem.mpr ⟨hrow, hrun, hle⟩
      simp [hempty] at this
  · obtain ⟨hbest, htop⟩ := firstBy_spec (by simp) (by simp; omega) (by simp; omega) hfirst
    obtain ⟨hstored, hbestRun, hbestLe⟩ := hmem.mp hbest
    constructor
    · rintro ⟨x, hx, hle⟩
      cases hx
      exact ⟨best, hstored, hbestRun, hbestLe, hle⟩
    · rintro ⟨row, hrow, hrun, hrowLe, hle⟩
      have hnot := htop row (hmem.mpr ⟨hrow, hrun, hrowLe⟩)
      have hmono := h.prefix_mono best hstored row hrow (hbestRun.trans hrun.symm)
        (by simpa using hnot)
      exact ⟨best.height, rfl, hmono.trans hle⟩

theorem absorbedBelow_absorbedHeight (h : s.Consistent) {run : κ} {depth : ℕ} (hpos : 0 < depth) :
    s.absorbedBelow run (s.absorbedHeight run depth) < depth := by
  by_contra hge
  obtain ⟨row, hrow, hrun, hunder, hle⟩ := (h.le_absorbedBelow_iff hpos).mp (not_lt.mp hge)
  obtain ⟨x, hx, hxle⟩ := h.absorbedHeight_le_iff.mpr ⟨row, hrow, hrun, hle, le_rfl⟩
  rw [hx, under_some] at hunder
  omega

theorem absorbed_of_reach (h : s.Consistent) {before : CommitLineage κ}
    (hc : s.commitRow c = some row) (hp : s.commitRow p = some before)
    (hreach : s.Reaches (.commit c) (.commit p)) (habs : row.depth ≤ s.absorbedBelow row.run below)
    :
    before.depth ≤ s.absorbedBelow before.run below := by
  obtain ⟨held, hheld, hrun, hunder, hle⟩ := (h.le_absorbedBelow_iff (h.depth_pos hc)).mp habs
  have hprefix : s.PrefixAt row.run row.depth held.height := ⟨held, hheld, hrun, hle, le_rfl⟩
  obtain ⟨l, layer, hl, hheight, hlc⟩ := (h.prefix_iff hc).mp hprefix
  have hlow : s.HeldAt p held.height := ⟨l, layer, hl, hheight, hlc.trans hreach⟩
  obtain ⟨low, hlow, hlowRun, hlowLe, hlowHeight⟩ := (h.prefix_iff hp).mpr hlow
  refine (h.le_absorbedBelow_iff (h.depth_pos hp)).mpr ⟨low, hlow, hlowRun, ?_, hlowLe⟩
  exact fun limit hlimit => lt_of_le_of_lt hlowHeight (hunder limit hlimit)

end Consistent

end Catalog

end LayerFs.History
