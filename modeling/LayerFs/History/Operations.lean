import LayerFs.History.Lineage

/-!
# Catalog operations

The mutations of a history catalog, each one transaction
(`layerfs-persistence/src/history/{layerstack,branch,commit,merge}.rs`): a refused operation leaves
the catalog as it is.

* `Reachable` — **the catalogs any sequence of operations leads to**.
-/

namespace LayerFs.History

/-- What the catalog computes outside its rows: identities, and whether a Commit's columns fit. -/
structure Codec (κ ρ : Type) where
  /-- `CommitId::derive` -/
  commitId : κ → Option κ → κ → Option (NodeId κ) → CommitMeta κ ρ → κ
  /-- `LayerId::derive` -/
  layerId : κ → Option κ → κ → κ
  /-- the columns of a Commit's statistics and facts -/
  storable : CommitMeta κ ρ → HistoryResult κ Unit

/-! ## Requests -/

/-- `StackInitialization`. -/
structure StackInitialization (κ : Type) where
  stack : κ
  name : String
  scope : κ
  profile : κ
  genesisRoot : κ
  logical : ℕ

/-- Where a new Branch starts. -/
inductive ForkSource (κ : Type) where
  | layer (id : κ)
  | commit (branch commit : κ)

/-- `ForkRequest`. -/
structure ForkRequest (κ : Type) where
  stack : κ
  branch : κ
  name : String
  source : ForkSource κ

/-- `CommitRequest`. -/
structure CommitRequest (κ ρ : Type) where
  branch : κ
  expectedHead : Option κ
  expectedBase : κ
  expectedRoot : κ
  candidateRoot : κ
  profile : κ
  scope : κ
  secondParent : Option (NodeId κ)
  info : CommitMeta κ ρ
  force : Bool

/-- One side of a Branch merge. -/
inductive MergeSide (κ : Type) where
  | main
  | branch (id : κ)

/-- The Commit a non-fast-forward Branch merge creates. -/
structure MergeCommit (κ ρ : Type) where
  base : κ
  parent : Option κ
  secondParent : NodeId κ
  root : κ
  info : CommitMeta κ ρ

/-- The first state of a Branch created by a merge. -/
inductive MergeHead (κ ρ : Type) where
  | node (id : NodeId κ)
  | commit (merge : MergeCommit κ ρ)

/-- `BranchMergeRequest`. -/
structure BranchMergeRequest (κ ρ : Type) where
  stack : κ
  branch : κ
  name : String
  left : MergeSide κ × NodeId κ
  right : MergeSide κ × NodeId κ
  head : MergeHead κ ρ

/-- `AddLayerRequest`. -/
structure AddLayerRequest (κ : Type) where
  stack : κ
  branch : κ
  commit : κ
  expectedStackHead : κ
  expectedBranchBase : κ

/-! ## Commit metadata -/

def maximumMessageBytes : ℕ := 4096

def forbiddenChar (c : Char) : Bool :=
  (decide (c.toNat < 32) || (decide (127 ≤ c.toNat) && decide (c.toNat < 160)))
    && c != '\n' && c != '\t'

def CommitVia.name : CommitVia → String
  | .workspace => "Workspace"
  | .files => "Files"
  | .merge => "Merge"

namespace CommitMeta

variable {κ ρ : Type}

/-- `CommitMeta::check`. -/
def check (info : CommitMeta κ ρ) : HistoryResult κ Unit :=
  match info.message with
  | some message =>
    require (decide (message.utf8ByteSize ≤ maximumMessageBytes)
      && !message.toList.any forbiddenChar) (.invalidInput "Commit message")
  | none => .ok ()

def stamped (info : CommitMeta κ ρ) (branch : κ) (now : ℕ) : CommitMeta κ ρ :=
  { info with
    message := some (info.message.getD (info.via.name ++ " filesystem change"))
    branch := some branch
    timeMs := now }

end CommitMeta

namespace Catalog

variable {κ ρ : Type} [DecidableEq κ] [DecidableEq ρ] (codec : Codec κ ρ) (s : Catalog κ ρ)

/-! ## Stacks and Branches -/

/-- Inserts a Layer; its identity is new, and it is the only one on its parent or the genesis. -/
def insertLayer (record : LayerRecord κ) : HistoryResult κ (Catalog κ ρ) := do
  require ((s.layer record.id).isNone
      && !s.layers.any fun row => row.stack = record.stack ∧ row.parent = record.parent)
    (.integrity "layer")
  return { s with layers := record :: s.layers }

/-- `initialize_layerstack`: the genesis Layer and the stack. -/
def initializeLayerstack (request : StackInitialization κ) : HistoryResult κ (Catalog κ ρ) := do
  require (s.layerStack request.stack).isNone (.integrity "LayerStack identity")
  require (!s.layerStacks.any fun row => row.name = request.name) (.integrity "LayerStack name")
  let genesis := codec.layerId request.stack none request.genesisRoot
  let stack : LayerStackRecord κ :=
    ⟨request.stack, request.name, request.scope, request.profile, genesis⟩
  let s : Catalog κ ρ := { s with layerStacks := stack :: s.layerStacks }
  let s ← s.insertLayer
    ⟨0, genesis, request.stack, none, request.genesisRoot, none, none, request.logical⟩
  s.recordLayer genesis request.stack 0 0

def insertBranch (record : BranchRecord κ) : Catalog κ ρ :=
  { s with branches := record :: s.branches }

def requireBranchFree (stack branch : κ) (name : String) : HistoryResult κ Unit := do
  require (s.branch branch).isNone (.integrity "Branch identity")
  require (!s.branches.any fun row => row.stack = stack ∧ row.name = name) (.integrity "Branch name")

/-- The loop of `ancestry_contains`: a run of the head's first-parent chain a turn. -/
def chainContains (target : CommitLine κ) : ℕ → CommitLine κ → HistoryResult κ Bool
  | 0, _ => .error .unfinished
  | turns + 1, current =>
    if current.depth < target.depth then .ok false
    else if current.run = target.run then .ok true
    else do
      let start ← s.commitLine current.run
      match start.parent with
      | some parent =>
        let line ← s.commitLine parent
        chainContains target turns line
      | none => return false

/-- `ancestry_contains`: a Commit is on a head's first-parent chain. -/
def ancestryContains (head : Option κ) (target : κ) : HistoryResult κ Bool :=
  match head with
  | none => .ok false
  | some head => do
    let target ← s.commitLine target
    let current ← s.commitLine head
    s.chainContains target (s.commitLineage.length + 1) current

/-- `fork`: one Branch that shares the selected ancestry. -/
def fork (request : ForkRequest κ) : HistoryResult κ (Catalog κ ρ) := do
  require (s.layerStack request.stack).isSome (.missing .layerStack)
  s.requireBranchFree request.stack request.branch request.name
  match request.source with
  | .layer id =>
    let record ← found (s.layer id) (.missing .layer)
    require (record.stack = request.stack) (.integrity "Layer ownership")
    return s.insertBranch
      ⟨request.branch, request.stack, request.name, id, none, some (.layer id)⟩
  | .commit branch commit =>
    let source ← found (s.branch branch) (.missing .branch)
    require (source.stack = request.stack) (.integrity "Branch ownership")
    let selected ← found (s.commit commit) (.missing .commit)
    require (selected.stack = request.stack) (.integrity "Commit ownership")
    let contained ← s.ancestryContains source.headCommit commit
    require contained (.notInHistory "Commit")
    return s.insertBranch
      ⟨request.branch, request.stack, request.name, selected.baseLayer, some commit,
        some (.commit commit)⟩

/-! ## Commits -/

/-- `verify_commit`: an existing row of this identity carries the same immutable fields. -/
def verifyCommit (record : CommitRecord κ ρ) : HistoryResult κ Bool :=
  match s.commit record.id with
  | none => .ok false
  | some stored => do
    require (stored.root = record.root ∧ stored.parent = record.parent
        ∧ stored.baseLayer = record.baseLayer ∧ stored.secondParent = record.secondParent
        ∧ stored.stack = record.stack
        ∧ { stored.info with timeMs := record.info.timeMs } = record.info)
      (.integrity "Commit identity")
    return true

/-- Inserts a Commit whose parents a transaction may name: rows of its own stack. -/
def insertCommit (record : CommitRecord κ ρ) : HistoryResult κ (Catalog κ ρ) := do
  require (record.parent.all fun parent => s.stackOf (.commit parent) = some record.stack)
    (.integrity "commit parent")
  require (s.stackOf (.layer record.baseLayer) = some record.stack) (.integrity "commit base")
  return { s with commits := record :: s.commits }

/-- `new_commit`: derives, checks and inserts one Commit made on a Branch now, or verifies the
identical record that already exists. -/
def newCommit (now : ℕ) (stack branch root : κ) (parent : Option κ) (baseLayer : κ)
    (second : Option (NodeId κ)) (info : CommitMeta κ ρ) : HistoryResult κ (κ × Catalog κ ρ) := do
  info.check
  let info := info.stamped branch now
  let id := codec.commitId root parent baseLayer second info
  let record : CommitRecord κ ρ := ⟨id, stack, root, parent, baseLayer, second, info⟩
  let known ← s.verifyCommit record
  if known then return (id, s)
  else
    codec.storable info
    let s ← s.insertCommit record
    let s ← s.recordParents id parent baseLayer second
    return (id, s)

def rootOf (branch : BranchRecord κ) (baseRoot : κ) (head : Option κ) : HistoryResult κ κ :=
  match head with
  | some head => do
    let record ← found (s.commit head) (.integrity "Branch Commit")
    require (record.stack = branch.stack ∧ record.baseLayer = branch.baseLayer)
      (.integrity "Branch Commit ownership")
    return record.root
  | none => return baseRoot

/-- `layer_root`. -/
def layerRoot (id : κ) : HistoryResult κ κ :=
  found ((s.layer id).map LayerRecord.root) (.missing .layer)

def advanceBranch (branch head : κ) : Catalog κ ρ :=
  { s with
    branches := s.branches.map fun row =>
      if row.id = branch then { row with headCommit := some head } else row }

/-- `commit_branch`: publishes one candidate against the expected Branch head. -/
def commitBranch (now : ℕ) (request : CommitRequest κ ρ) : HistoryResult κ (Catalog κ ρ) := do
  let branch ← found (s.branch request.branch) (.missing .branch)
  let stack ← found (s.layerStack branch.stack) (.integrity "LayerStack")
  require (stack.profile = request.profile ∧ stack.scope = request.scope)
    (.integrity "Commit context")
  let moved := decide (branch.baseLayer ≠ request.expectedBase)
    || decide (branch.headCommit ≠ request.expectedHead)
  require (!(moved && (!request.force || decide (branch.baseLayer ≠ request.expectedBase))))
    (.headMoved request.expectedHead branch.headCommit request.expectedBase branch.baseLayer)
  let baseRoot ← s.layerRoot request.expectedBase
  let expected ← s.rootOf branch baseRoot request.expectedHead
  require (expected = request.expectedRoot) (.integrity "Commit context")
  let current ← s.rootOf branch baseRoot branch.headCommit
  if request.candidateRoot = current then return s
  else
    let displaced := if moved then branch.headCommit else none
    let (id, s) ← s.newCommit codec now branch.stack request.branch request.candidateRoot
      request.expectedHead request.expectedBase request.secondParent
      { request.info with displaced := displaced }
    return s.advanceBranch request.branch id

/-! ## Merges -/

/-- `side_node`: the node one side of a merge is at now. -/
def sideNode (stack : κ) (side : MergeSide κ) : HistoryResult κ (NodeId κ) :=
  match side with
  | .main => do
    let record ← found (s.layerStack stack) (.missing .layerStack)
    return .layer record.headLayer
  | .branch id => do
    let branch ← found (s.branch id) (.missing .branch)
    require (branch.stack = stack) (.integrity "Branch ownership")
    return match branch.headCommit with
      | some head => .commit head
      | none => .layer branch.baseLayer

def sideMoved (side : MergeSide κ) (expected actual : NodeId κ) : HistoryError κ :=
  match side, expected, actual with
  | .main, .layer expected, .layer actual => .stackMoved expected actual
  | .branch id, expected, _ =>
    match s.branch id with
    | none => .missing .branch
    | some branch =>
      match expected with
      | .commit commit => .headMoved (some commit) branch.headCommit branch.baseLayer branch.baseLayer
      | .layer layer => .headMoved none branch.headCommit layer branch.baseLayer
  | _, _, _ => .integrity "merge side"

def requireSide (stack : κ) (side : MergeSide κ × NodeId κ) : HistoryResult κ Unit := do
  let actual ← s.sideNode stack side.1
  require (actual = side.2) (s.sideMoved side.1 side.2 actual)

def mergeBaseHead (head : MergeHead κ ρ) : HistoryResult κ (κ × Option κ) :=
  match head with
  | .node (.layer id) => return (id, none)
  | .node (.commit id) => do
    let record ← found (s.commit id) (.missing .commit)
    return (record.baseLayer, some id)
  | .commit merge => return (merge.base, none)

def requireOwned (stack : κ) (node : NodeId κ) : HistoryResult κ Unit := do
  let owner ← found (s.stackOf node)
    (match node with
      | .layer _ => .missing .layer
      | .commit _ => .missing .commit)
  require (owner = stack) (.integrity "merge node ownership")

/-- The head Commit of a merged Branch: the existing one, or the merge's. -/
def mergedHead (now : ℕ) (request : BranchMergeRequest κ ρ) (head : Option κ) :
    HistoryResult κ (Option κ × Catalog κ ρ) :=
  match request.head with
  | .commit merge => do
    let (id, s) ← s.newCommit codec now request.stack request.branch merge.root merge.parent
      merge.base (some merge.secondParent) merge.info
    return (some id, s)
  | .node _ => return (head, s)

/-- `merge_branch`: one Branch from two sides. -/
def mergeBranch (now : ℕ) (request : BranchMergeRequest κ ρ) : HistoryResult κ (Catalog κ ρ) := do
  s.requireSide request.stack request.left
  s.requireSide request.stack request.right
  s.requireBranchFree request.stack request.branch request.name
  let (base, head) ← s.mergeBaseHead request.head
  s.requireOwned request.stack (.layer base)
  (head.toList.map NodeId.commit).forM (s.requireOwned request.stack)
  let (head, s) ← s.mergedHead codec now request head
  return s.insertBranch
    ⟨request.branch, request.stack, request.name, base, head, some request.left.2⟩

/-! ## Publication -/

def advanceStack (stack head : κ) : Catalog κ ρ :=
  { s with
    layerStacks := s.layerStacks.map fun row =>
      if row.id = stack then { row with headLayer := head } else row }

/-- `verify_layer`: an existing row of this identity carries the same immutable fields. -/
def verifyLayer (record : LayerRecord κ) : HistoryResult κ Bool :=
  match s.layer record.id with
  | none => .ok false
  | some stored => do
    require (stored = record) (.integrity "Layer provenance")
    return true

def publishedSource (branch commit : κ) : Option (LayerRecord κ) :=
  s.layers.find? fun row => row.sourceBranch = some branch ∧ row.sourceCommit = some commit

/-- The rows of a new Layer: its own, its place in the chain and what it absorbs. -/
def publishLayer (record : LayerRecord κ) (source : CommitLine κ) (height : ℕ) :
    HistoryResult κ (Catalog κ ρ) := do
  let known ← s.verifyLayer record
  if known then return s
  else
    let s ← s.insertLayer record
    let s ← s.recordLayer record.id record.stack height record.overwroteCount
    s.absorb record.stack source height

/-- `add_layer`: publishes one Commit root as a new Layer against the expected stack head. -/
def addLayer (request : AddLayerRequest κ) : HistoryResult κ (Catalog κ ρ) := do
  let stack ← found (s.layerStack request.stack) (.missing .layerStack)
  let branch ← found (s.branch request.branch) (.missing .branch)
  require (branch.stack = request.stack) (.integrity "Branch ownership")
  let commit ← found (s.commit request.commit) (.missing .commit)
  require (commit.stack = request.stack) (.integrity "Commit ownership")
  match s.publishedSource request.branch request.commit with
  | some stored =>
    require (stored.stack = request.stack ∧ stored.root = commit.root)
      (.integrity "Layer provenance")
    return s
  | none =>
    require (branch.headCommit = some request.commit
        ∧ branch.baseLayer = request.expectedBranchBase)
      (.headMoved (some request.commit) branch.headCommit request.expectedBranchBase
        branch.baseLayer)
    require (commit.baseLayer = branch.baseLayer)
      (.baseMismatch commit.baseLayer branch.baseLayer)
    require (stack.headLayer = request.expectedStackHead)
      (.stackMoved request.expectedStackHead stack.headLayer)
    let headRoot ← s.layerRoot stack.headLayer
    if commit.root = headRoot then return s
    else
      let head ← s.layerLine stack.headLayer
      let source ← s.commitLine request.commit
      let covered ← s.covered request.stack head.height source
      let record : LayerRecord κ :=
        ⟨head.height - covered, codec.layerId request.stack (some stack.headLayer) commit.root,
          request.stack, some stack.headLayer, commit.root, some request.branch,
          some request.commit, commit.info.logical⟩
      let s ← s.publishLayer record source (head.height + 1)
      return s.advanceStack request.stack record.id

end Catalog

/-! ## Runs -/

/-- One catalog operation with its request. -/
inductive Operation (κ ρ : Type) where
  | initializeLayerstack (request : StackInitialization κ)
  | fork (request : ForkRequest κ)
  | commitBranch (now : ℕ) (request : CommitRequest κ ρ)
  | mergeBranch (now : ℕ) (request : BranchMergeRequest κ ρ)
  | addLayer (request : AddLayerRequest κ)

namespace Operation

variable {κ ρ : Type} [DecidableEq κ] [DecidableEq ρ]

def apply (codec : Codec κ ρ) (s : Catalog κ ρ) : Operation κ ρ → HistoryResult κ (Catalog κ ρ)
  | .initializeLayerstack request => s.initializeLayerstack codec request
  | .fork request => s.fork request
  | .commitBranch now request => s.commitBranch codec now request
  | .mergeBranch now request => s.mergeBranch codec now request
  | .addLayer request => s.addLayer codec request

/-- A second parent its caller names belongs to the stack of the Commit. -/
def SameStack (s : Catalog κ ρ) : Operation κ ρ → Prop
  | .commitBranch _ request =>
    ∀ branch, s.branch request.branch = some branch →
      ∀ second ∈ request.secondParent, s.stackOf second = some branch.stack
  | .mergeBranch _ request =>
    match request.head with
    | .commit merge => s.stackOf merge.secondParent = some request.stack
    | .node _ => True
  | _ => True

end Operation

/-- **The catalogs any sequence of operations leads to.** -/
inductive Reachable {κ ρ : Type} [DecidableEq κ] [DecidableEq ρ] (codec : Codec κ ρ) :
    Catalog κ ρ → Prop
  | empty : Reachable codec .empty
  | step {s s' : Catalog κ ρ} {operation : Operation κ ρ} (h : Reachable codec s)
      (hsame : operation.SameStack s) (happly : operation.apply codec s = .ok s') :
      Reachable codec s'

end LayerFs.History
