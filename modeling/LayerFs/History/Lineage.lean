import LayerFs.History.Catalog

/-!
# Lineage records

What a catalog records with each Commit and Layer so that ancestry is answered without walking
history (`layerfs-persistence/src/history/lineage.rs`). A Commit records its *run* (a first-parent
path, named by its first Commit), its depth, the height of the newest Layer it reaches and, for a
merge, its Commit second parent; a publication records the run prefixes it is the first to absorb.

* `Catalog.recordParents` — a new Commit's row, from its parents' rows.
-/

namespace LayerFs.History

/-- Depths above `lo` up to `hi` of a run. -/
structure Segment (κ : Type) where
  run : κ
  lo : ℕ
  hi : ℕ

namespace Catalog

variable {κ ρ : Type} [DecidableEq κ] (s : Catalog κ ρ)

/-! ## Rows -/

/-- Inserts a lineage row; one Commit has one row, and one place of a run one Commit. -/
def insertCommitRow (row : CommitLineage κ) : HistoryResult κ (Catalog κ ρ) := do
  require ((s.commitRow row.commitId).isNone && (s.commitAt row.run row.depth).isNone)
    (.integrity "commit_lineage")
  return { s with commitLineage := row :: s.commitLineage }

/-- `record_layer`; one Layer has one row, and one height of a stack one Layer. -/
def recordLayer (id stack : κ) (height overwrote : ℕ) : HistoryResult κ (Catalog κ ρ) := do
  require ((s.layerRow id).isNone
      && !s.layerLineage.any fun row => row.stack = stack ∧ row.height = height)
    (.integrity "layer_lineage")
  return { s with layerLineage := ⟨id, stack, height, overwrote⟩ :: s.layerLineage }

/-- The run, depth and newest height a Commit takes from its first parent, or its base. -/
def firstLine (id : κ) (parent : Option κ) (baseLayer : κ) : HistoryResult κ (κ × ℕ × ℕ) :=
  match parent with
  | some parent => do
    let line ← s.commitLine parent
    -- A run is a path: a second child of `parent` starts its own.
    let run := if (s.commitAt line.run (line.depth + 1)).isSome then id else line.run
    return (run, line.depth + 1, line.newest)
  | none => do
    let line ← s.layerLine baseLayer
    return (id, 1, line.height)

/-- The newest height a Commit takes from its second parent, and that parent when it is a Commit. -/
def secondLine (newest : ℕ) (second : Option (NodeId κ)) : HistoryResult κ (ℕ × Option κ) :=
  match second with
  | some (.commit second) => do
    let line ← s.commitLine second
    return (max newest line.newest, some second)
  | some (.layer second) => do
    let line ← s.layerLine second
    return (max newest line.height, none)
  | none => return (newest, none)

/-- `record_parents`: one Commit's lineage; its parents' rows exist. -/
def recordParents (id : κ) (parent : Option κ) (baseLayer : κ) (second : Option (NodeId κ)) :
    HistoryResult κ (Catalog κ ρ) := do
  let (run, depth, newest) ← s.firstLine id parent baseLayer
  let (newest, merged) ← s.secondLine newest second
  s.insertCommitRow ⟨id, run, depth, newest, merged⟩

/-! ## Exploring -/

/-- What is left to visit of a run up to a depth: the absorbed prefix, the depth visited before, and
whether this is the first visit. -/
def unvisited (below : Height) (explored : κ → Option (ℕ × ℕ)) (run : κ) (hi : ℕ) :
    Option (ℕ × ℕ × Bool) :=
  match explored run with
  | some (lo, done) => if hi ≤ done then none else some (lo, max done lo, false)
  | none => some (s.absorbedBelow run below, s.absorbedBelow run below, true)

def place (id : κ) : HistoryResult κ (κ × ℕ) := do
  let line ← s.commitLine id
  return (line.run, line.depth)

/-- Where a run's start is followed: to its first parent, on the first visit of a run no Layer below
absorbed anything of. -/
def startPlaces (run : κ) (lo : ℕ) (first : Bool) : HistoryResult κ (List (κ × ℕ)) :=
  if first && lo == 0 then do
    let line ← s.commitLine run
    line.parent.toList.mapM s.place
  else return []

/-- The loop of `explore`: the places still to follow, newest first, and what was explored. -/
def exploreLoop (below : Height) : ℕ → List (κ × ℕ) → (κ → Option (ℕ × ℕ)) →
    HistoryResult κ (List (Segment κ))
  | 0, _, _ => .error .unfinished
  | _ + 1, [], _ => .ok []
  | turns + 1, (run, hi) :: pending, explored =>
    match s.unvisited below explored run hi with
    | none => exploreLoop below turns pending explored
    | some (lo, done, first) =>
      if hi ≤ lo then
        exploreLoop below turns pending (Function.update explored run (some (lo, lo)))
      else do
        let merged ← (s.merges run done hi).mapM s.place
        let start ← s.startPlaces run lo first
        let later ← exploreLoop below turns (start ++ merged.reverse ++ pending)
          (Function.update explored run (some (lo, hi)))
        return ⟨run, lo, hi⟩ :: later

/-- `explore`: the segments it visits, in order. Each Commit's second parent is followed once and
each run's start once, which bounds the turns. -/
def explore (start : CommitLine κ) (below : Height) : HistoryResult κ (List (Segment κ)) :=
  s.exploreLoop below (2 * s.commitLineage.length + 2) [(start.run, start.depth)] fun _ => none

/-! ## Publication -/

/-- `reach_insert`: drops the rows the new one dominates. -/
def reachInsert (key : ReachKey κ) (x height : ℕ) : Catalog κ ρ :=
  { s with
    reach := ⟨key, x, height⟩ :: s.reach.filter fun row => !(row.key = key ∧ x ≤ row.x) }

/-- Inserts an absorbed prefix; one place of a run is absorbed once. -/
def insertAbsorbed (height : ℕ) (segment : Segment κ) : HistoryResult κ (Catalog κ ρ) := do
  require (!s.absorbed.any fun row => row.run = segment.run ∧ row.depth = segment.hi)
    (.integrity "absorbed")
  return { s with absorbed := ⟨segment.run, segment.hi, height⟩ :: s.absorbed }

/-- `covered`: the newest Layer up to `head` that publishing the source does not skip. -/
def covered (stack : κ) (head : ℕ) (source : CommitLine κ) : HistoryResult κ ℕ :=
  if head ≤ source.newest then return head
  else do
    let late := max source.newest ((s.reachAt (.stack stack) source.newest).getD 0)
    let segments ← s.explore source (some (source.newest + 1))
    let reached := segments.foldl
      (fun best segment => max best ((s.reachAt (.run segment.run) segment.hi).getD 0)) late
    return min reached head

/-- `absorb`: what the Layer at a height, published from a source, absorbs. A segment's row is
inserted as the segment is visited; a run's absorbed prefix is read before its first row. -/
def absorb (stack : κ) (source : CommitLine κ) (height : ℕ) : HistoryResult κ (Catalog κ ρ) := do
  let before := s.absorbedHeight source.run source.depth
  let segments ← s.explore source none
  let s ← segments.foldlM (fun (s : Catalog κ ρ) segment => s.insertAbsorbed height segment) s
  let s := s.reachInsert (.run source.run) source.depth height
  match before with
  | some x => return s.reachInsert (.stack stack) x height
  | none => return s

end Catalog

end LayerFs.History
