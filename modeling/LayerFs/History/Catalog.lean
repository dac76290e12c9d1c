import LayerFs.Support.Growth

/-!
# The history catalog

The rows of a history catalog (`layerfs-history/src/contract/records.rs`,
`layerfs-persistence/sql/sqlite/{history,lineage}.sql`) and the queries the lineage walks make, over
an abstract type `κ` of identity bytes.

* `Catalog.Edge` — **the history graph**: a Commit reaches its parent (or, without one, its base
  Layer) and its second parent; a Layer reaches its parent Layer and its source Commit.

Heights and depths are natural numbers; the height of a Layer that does not exist, `NEVER`, is
`none`.
-/

namespace LayerFs.History

/-! ## Errors -/

/-- A related record kind, used for a typed absence. -/
inductive Missing where
  | layerStack
  | branch
  | commit
  | layer
  deriving DecidableEq

/-- The failures the modelled history operations report. -/
inductive HistoryError (κ : Type) where
  | invalidInput (what : String)
  | missing (what : Missing)
  | capacity (what : String)
  | integrity (what : String)
  | headMoved (expectedHead actualHead : Option κ) (expectedBase actualBase : κ)
  | baseMismatch (commitBase branchBase : κ)
  | notInHistory (what : String)
  | stackMoved (expected actual : κ)
  /-- none of the source's: a loop whose turns ran out -/
  | unfinished
  deriving DecidableEq

abbrev HistoryResult (κ α : Type) := Except (HistoryError κ) α

section Result

variable {κ α β : Type}

theorem history_bind_eq_ok {x : HistoryResult κ α} {f : α → HistoryResult κ β} {b : β} :
    x >>= f = .ok b ↔ ∃ a, x = .ok a ∧ f a = .ok b := by
  cases x with
  | error e => simp [bind, Except.bind]
  | ok a => simp [bind, Except.bind]

/-- Refuse with `e` unless the check holds. -/
def require (check : Bool) (e : HistoryError κ) : HistoryResult κ Unit :=
  if check then .ok () else .error e

@[simp] theorem require_eq_ok {check : Bool} {e : HistoryError κ} {u : Unit} :
    require check e = .ok u ↔ check = true := by
  cases check <;> simp [require]

/-- The value of an option, or the refusal `e`. -/
def found (o : Option α) (e : HistoryError κ) : HistoryResult κ α :=
  match o with
  | some a => .ok a
  | none => .error e

@[simp] theorem found_eq_ok {o : Option α} {e : HistoryError κ} {a : α} :
    found o e = .ok a ↔ o = some a := by
  cases o <;> simp [found]

end Result

/-! ## Records -/

/-- One node of the history graph: a Commit or a published Layer. -/
inductive NodeId (κ : Type) where
  | commit (id : κ)
  | layer (id : κ)
  deriving DecidableEq

/-- One LayerStack. -/
structure LayerStackRecord (κ : Type) where
  id : κ
  name : String
  scope : κ
  profile : κ
  headLayer : κ

/-- One immutable Layer publication. -/
structure LayerRecord (κ : Type) where
  overwroteCount : ℕ
  id : κ
  stack : κ
  /-- previous publication in this stack; absent only for genesis -/
  parent : Option κ
  root : κ
  sourceBranch : Option κ
  sourceCommit : Option κ
  logical : ℕ
  deriving DecidableEq

/-- How a Commit was made. -/
inductive CommitVia where
  | workspace
  | files
  | merge
  deriving DecidableEq

/-- Who made a Commit and how. What is persisted outside its identity beside the logical size is one
value of `ρ`. -/
structure CommitMeta (κ ρ : Type) where
  branch : Option κ
  via : CommitVia
  message : Option String
  mergedFrom : Option (NodeId κ)
  displaced : Option κ
  timeMs : ℕ
  logical : ℕ
  facts : ρ
  deriving DecidableEq

/-- One immutable Commit. -/
structure CommitRecord (κ ρ : Type) where
  id : κ
  stack : κ
  root : κ
  parent : Option κ
  baseLayer : κ
  secondParent : Option (NodeId κ)
  info : CommitMeta κ ρ
  deriving DecidableEq

/-- One Branch: a base Layer plus an optional head Commit. -/
structure BranchRecord (κ : Type) where
  id : κ
  stack : κ
  name : String
  baseLayer : κ
  headCommit : Option κ
  forkedFrom : Option (NodeId κ)

/-! ## Lineage rows -/

/-- A row of `commit_lineage`. -/
structure CommitLineage (κ : Type) where
  commitId : κ
  run : κ
  depth : ℕ
  newest : ℕ
  merged : Option κ

/-- A row of `layer_lineage`. -/
structure LayerLineage (κ : Type) where
  layerId : κ
  stack : κ
  height : ℕ
  overwroteCount : ℕ

/-- A row of `absorbed`: the prefix of a run the Layer at a height was the first to hold. -/
structure Absorbed (κ : Type) where
  run : κ
  depth : ℕ
  height : ℕ

/-- The key of a frontier: a run, or a stack. -/
inductive ReachKey (κ : Type) where
  | run (id : κ)
  | stack (id : κ)
  deriving DecidableEq

/-- A row of `reach`. -/
structure Reach (κ : Type) where
  key : ReachKey κ
  x : ℕ
  height : ℕ

/-- The tables of one history catalog. -/
structure Catalog (κ ρ : Type) where
  layerStacks : List (LayerStackRecord κ)
  layers : List (LayerRecord κ)
  commits : List (CommitRecord κ ρ)
  branches : List (BranchRecord κ)
  commitLineage : List (CommitLineage κ)
  layerLineage : List (LayerLineage κ)
  absorbed : List (Absorbed κ)
  reach : List (Reach κ)

def Catalog.empty {κ ρ : Type} : Catalog κ ρ := ⟨[], [], [], [], [], [], [], []⟩

/-- One Commit's lineage row with the Commit fields walks follow. -/
structure CommitLine (κ : Type) where
  stack : κ
  run : κ
  depth : ℕ
  newest : ℕ
  parent : Option κ

abbrev Height := Option ℕ

def Under (height : ℕ) (below : Height) : Prop := ∀ limit ∈ below, height < limit

instance {height : ℕ} : ∀ {below : Height}, Decidable (Under height below)
  | none => .isTrue fun _ h => absurd h (by simp)
  | some limit => decidable_of_iff (height < limit) (by simp [Under])

@[simp] theorem under_none {height : ℕ} : Under height none := fun _ h => absurd h (by simp)

@[simp] theorem under_some {height limit : ℕ} : Under height (some limit) ↔ height < limit := by
  simp [Under]

/-! ## Queries -/

/-- The first row of an ordered statement: the one no other comes before. -/
def firstBy {α : Type} (before : α → α → Bool) : List α → Option α
  | [] => none
  | row :: rest =>
    match firstBy before rest with
    | none => some row
    | some best => if before best row then some best else some row

namespace Catalog

variable {κ ρ : Type} [DecidableEq κ] (s : Catalog κ ρ)

/-- `layer_stack`. -/
def layerStack (id : κ) : Option (LayerStackRecord κ) := s.layerStacks.find? fun row => row.id = id

/-- `layer`. -/
def layer (id : κ) : Option (LayerRecord κ) := s.layers.find? fun row => row.id = id

/-- `commit`. -/
def commit (id : κ) : Option (CommitRecord κ ρ) := s.commits.find? fun row => row.id = id

/-- `branch`. -/
def branch (id : κ) : Option (BranchRecord κ) := s.branches.find? fun row => row.id = id

def commitRow (id : κ) : Option (CommitLineage κ) :=
  s.commitLineage.find? fun row => row.commitId = id

def layerRow (id : κ) : Option (LayerLineage κ) :=
  s.layerLineage.find? fun row => row.layerId = id

/-- `commit_line`: the lineage row joined with its Commit. -/
def commitLine (id : κ) : HistoryResult κ (CommitLine κ) :=
  match s.commitRow id, s.commit id with
  | some row, some record => .ok ⟨record.stack, row.run, row.depth, row.newest, record.parent⟩
  | _, _ => .error (.missing .commit)

/-- `layer_line`. -/
def layerLine (id : κ) : HistoryResult κ (LayerLineage κ) := found (s.layerRow id) (.missing .layer)

/-- `layer_at`: the Layer of a stack at a height. -/
def layerAt (stack : κ) (height : ℕ) : HistoryResult κ κ :=
  found ((s.layerLineage.find? fun row => row.stack = stack ∧ row.height = height).map
    LayerLineage.layerId) (.integrity "Layer chain")

/-- `commit_at`: the Commit of a run at a depth, when the run reaches it. -/
def commitAt (run : κ) (depth : ℕ) : Option κ :=
  (s.commitLineage.find? fun row => row.run = run ∧ row.depth = depth).map CommitLineage.commitId

/-- The Commit second parents of the Commits of a run above one depth, up to another. -/
def merges (run : κ) (lo hi : ℕ) : List κ :=
  s.commitLineage.filterMap fun row =>
    if row.run = run ∧ lo < row.depth ∧ row.depth ≤ hi then row.merged else none

/-- `absorbed_below`: the deepest prefix of a run absorbed by a Layer below a height. -/
def absorbedBelow (run : κ) (below : Height) : ℕ :=
  ((firstBy (fun a b => b.height < a.height || (a.height = b.height && b.depth < a.depth))
    (s.absorbed.filter fun row => row.run = run ∧ Under row.height below)).map
      Absorbed.depth).getD 0

/-- `absorbed_height`: the height of the Layer that absorbed a Commit, `NEVER` when none did. -/
def absorbedHeight (run : κ) (depth : ℕ) : Height :=
  (firstBy (fun a b => a.depth < b.depth)
    (s.absorbed.filter fun row => row.run = run ∧ depth ≤ row.depth)).map Absorbed.height

def reachAt (key : ReachKey κ) (x : ℕ) : Option ℕ :=
  (firstBy (fun a b => b.x < a.x)
    (s.reach.filter fun row => row.key = key ∧ row.x ≤ x)).map Reach.height

/-! ## The history graph -/

/-- The history edges. -/
inductive Edge : NodeId κ → NodeId κ → Prop
  | parent {c p : κ} {record : CommitRecord κ ρ} (hc : s.commit c = some record)
      (hp : record.parent = some p) : Edge (.commit c) (.commit p)
  | base {c : κ} {record : CommitRecord κ ρ} (hc : s.commit c = some record)
      (hp : record.parent = none) : Edge (.commit c) (.layer record.baseLayer)
  | second {c : κ} {n : NodeId κ} {record : CommitRecord κ ρ} (hc : s.commit c = some record)
      (hn : record.secondParent = some n) : Edge (.commit c) n
  | previous {l p : κ} {record : LayerRecord κ} (hl : s.layer l = some record)
      (hp : record.parent = some p) : Edge (.layer l) (.layer p)
  | source {l c : κ} {record : LayerRecord κ} (hl : s.layer l = some record)
      (hc : record.sourceCommit = some c) : Edge (.layer l) (.commit c)

/-- A node is another, or reachable from it over the history edges. -/
def Reaches (d a : NodeId κ) : Prop := Relation.ReflTransGen s.Edge d a

def stackOf : NodeId κ → Option κ
  | .commit c => (s.commit c).map CommitRecord.stack
  | .layer l => (s.layer l).map LayerRecord.stack

end Catalog

end LayerFs.History
