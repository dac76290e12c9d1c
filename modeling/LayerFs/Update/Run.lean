import LayerFs.Directory.Read
import LayerFs.References.Reduce
import LayerFs.Validate.Topology

/-!
# One complete filesystem operation (`filesystem/update.rs`)

An update validates its input, rebuilds the directories its headers name, accounts every binding
it gains or loses, releases what no binding holds any more, and rebuilds the inode table from the
final typed values.

* `Trees` — what the operation needs of the sorted engine: rows under identities, and the change
  of the rows under one identity into those under another.

Reads of the base answer from the rows its trees hold, so batches and waves of reads leave no
trace here; work counters, phases and emitted pages are left out.
-/

namespace LayerFs

/-! ## Trees -/

/-- Directory trees under `Id` and inode tables under `Table`, with the sorted engine that
changes them. -/
structure Trees (Id Table : Type) where
  bindings : Id → List (PathName × ℕ)
  inodes : Table → List (ℕ × InodeValue Id)
  emptyDirectory : Id
  /-- applies final bindings to an optional base directory -/
  applyBindings : Option Id → List (PathName × Option ℕ) → ContentResult Id
  /-- applies final values to a base table -/
  applyInodeValues : Table → List (ℕ × Option (InodeValue Id)) → ContentResult Table
  bindings_empty : bindings emptyDirectory = []
  /-- a rebuilt directory holds the patched rows -/
  bindings_apply : ∀ {base changes root}, applyBindings base changes = .ok root →
    Ascending ((base.map bindings).getD []) → Ascending changes →
      bindings root = patch ((base.map bindings).getD []) changes
  /-- a rebuilt table holds the patched rows -/
  inodes_apply : ∀ {base changes table}, applyInodeValues base changes = .ok table →
    Ascending (inodes base) → Ascending changes → inodes table = patch (inodes base) changes

/-- One filesystem root record (`filesystem/root.rs`). -/
structure RootRecord (Id Table : Type) where
  scope : Id
  rootInode : ℕ
  inodeTable : Table

variable {Id Table σ : Type}

/-- The base a root record names: its rows, and the listing of every directory of its table. -/
def Trees.openRoot (trees : Trees Id Table) (root : RootRecord Id Table) : BaseRoot Id where
  scope := root.scope
  tree :=
    { root := root.rootInode
      inodes := trees.inodes root.inodeTable
      listing := fun d => (((trees.inodes root.inodeTable).lookup d).map fun value =>
        trees.bindings value.contentRoot).getD [] }

/-! ## Routes -/

/-- The reference reducer one operation drives. -/
structure ReducerRoute (Id σ : Type) where
  /-- serial state lives in the caller's records -/
  backed : Bool
  start : ContentResult σ
  declareNew : σ → ℕ → ContentResult σ
  noteRetainedBinding : σ → ℕ → ContentResult σ
  noteRemovedBinding : σ → ℕ → ContentResult σ
  noteValue : σ → ℕ → InodeValue Id → ContentResult σ
  /-- releases the descendants of every inode that reached zero references -/
  release : σ → ContentResult σ
  /-- the final typed rows in serial order -/
  finish : σ → ContentResult (List (ℕ × Option (InodeValue Id)))

/-! ## Dropped parents (`state/store.rs`) -/

namespace FilesystemInput

variable (inp : FilesystemInput Id)

/-- New directories with a header: the parents this operation may leave with no binding. -/
def trackedParents : List ℕ :=
  ((inp.directories.map DirectoryUpdate.parent).filter fun parent =>
    parent != inp.rootSerial && inp.isNew parent).dedup

def boundByHeader (serial : ℕ) : Bool :=
  inp.directories.any fun update => update.changes.any fun change => change.2 == some serial

/-- A new directory with a header that nothing binds is dead on arrival. -/
def dropped (serial : ℕ) : Bool :=
  inp.trackedParents.contains serial && !inp.boundByHeader serial

def checkParents (backed : Bool) : ContentResult Unit :=
  ensure (backed || inp.trackedParents.length ≤ inp.residentLimit)
    (.objectLimitExceeded inp.residentLimit (inp.residentLimit + 1))

end FilesystemInput

/-! ## The operation -/

section Run

variable (trees : Trees Id Table) (route : ReducerRoute Id σ) (inp : FilesystemInput Id)

/-- Declares the new serials and notes the supplied values of everything that is not dropped. -/
def registerValues (st : σ) : ContentResult σ := do
  let st ← (inp.newInodes.filter fun serial => !inp.dropped serial).foldlM route.declareNew st
  (inp.inodes.filter fun update => !inp.dropped update.serial).foldlM
    (fun st update => route.noteValue st update.serial update.value) st

def noteBinding (note : σ → ℕ → ContentResult σ) (st : σ) : Option ℕ → ContentResult σ
  | none => .ok st
  | some serial => note st serial

/-- Accounts one observed original/final binding. Additions precede removals, so a move never
drops an inode to a spurious zero between its two bindings. -/
def observe (st : σ) (before after : Option ℕ) : ContentResult σ :=
  if before = after then .ok st
  else do
    let st ← noteBinding route.noteRetainedBinding st after
    noteBinding route.noteRemovedBinding st before

def baseDirectory (parent : ℕ) : ContentResult (Option Id) :=
  if inp.isNew parent then .ok none
  else do
    let record ← orError (inp.stored parent) (.invalidRecord "directory parent record")
    ensure (record.kind == .directory) (.invalidRecord "directory parent kind")
    .ok (some record.contentRoot)

/-- The content root of a header without changes: a stored directory keeps its own, a new one
needs an actual empty page. -/
def retainedRoot (parent : ℕ) : ContentResult Id :=
  if inp.isNew parent then .ok trees.emptyDirectory
  else do
    let record ← orError (inp.stored parent) (.invalidRecord "directory parent record")
    .ok record.contentRoot

/-- Rebuilds one directory and accounts every binding its merge observed. -/
def rebuild (st : σ) (update : DirectoryUpdate) : ContentResult (σ × Id) :=
  if update.changes.isEmpty then do
    let root ← retainedRoot trees inp update.parent
    .ok (st, root)
  else do
    let base ← baseDirectory inp update.parent
    let rows := (base.map trees.bindings).getD []
    let st ← update.changes.foldlM
      (fun st change => observe route st (rows.lookup change.1) change.2) st
    let root ← trees.applyBindings base update.changes
    .ok (st, root)

/-- One header. The bindings of a dropped directory stay accounted, but no page is built. -/
def directoryStep (state : σ × List (ℕ × Id)) (update : DirectoryUpdate) :
    ContentResult (σ × List (ℕ × Id)) :=
  if inp.dropped update.parent then do
    let st ← update.changes.foldlM
      (fun st change => noteBinding route.noteRetainedBinding st change.2) state.1
    .ok (st, state.2)
  else do
    let (st, root) ← rebuild trees route inp state.1 update
    .ok (st, state.2 ++ [(update.parent, root)])

/-- Notes the value of one rebuilt directory with its new content root. -/
def noteContents (st : σ) (row : ℕ × Id) : ContentResult σ := do
  let value ← orError ((inp.valueFor row.1).or (inp.stored row.1))
    (.invalidRecord "directory value missing")
  route.noteValue st row.1 { value with contentRoot := row.2 }

/-- Notes one supplied value with the content root the caller named, unless this operation
rebuilt that directory or drops it. -/
def noteSupplied (contents : List (ℕ × Id)) (st : σ) (update : InodeUpdate Id) :
    ContentResult σ :=
  if (contents.lookup update.serial).isSome || inp.dropped update.serial then .ok st
  else do
    ensure (!route.backed || (inp.directoryFor update.serial).isNone)
      (.invalidRecord "filesystem rebuilt root missing")
    route.noteValue st update.serial update.value

def runBody [DecidableEq Id] (base : RootRecord Id Table) :
    ContentResult (RootRecord Id Table) := do
  inp.checkParents route.backed
  inp.checkOperation route.backed
  let st ← route.start
  let st ← registerValues route inp st
  let (st, contents) ← inp.directories.foldlM (directoryStep trees route inp) (st, [])
  let st ← contents.foldlM (noteContents route inp) st
  let st ← inp.inodes.foldlM (noteSupplied route inp contents) st
  let st ← route.release st
  let changes ← route.finish st
  let table ← trees.applyInodeValues base.inodeTable changes
  .ok { base with inodeTable := table }

end Run

/-! ## Paged release (`references/release.rs`) -/

def releasePageEntries : ℕ := 64

/-- The rows one listing page delivers, and the rows behind it (`listAfter`). -/
def takePage : ℕ → ℕ → List (PathName × ℕ) → List (PathName × ℕ) × List (PathName × ℕ)
  | _, _, [] => ([], [])
  | entries, bytes, row :: rest =>
    if maximumPageBytes < bytes + listingWidth row.1 || entries = releasePageEntries then
      ([], row :: rest)
    else
      let page := takePage (entries + 1) (bytes + listingWidth row.1) rest
      (row :: page.1, page.2)

/-- One released directory whose entries still need one decrement each. -/
structure ReleaseCursor where
  rows : List (PathName × ℕ)
  finished : Bool

/-- A release under way: the frontier first in first out, the cursors last in first out. -/
structure ReleaseState (Id : Type) where
  reducer : ReferenceReducer Id
  pending : List ℕ
  cursors : List ReleaseCursor

section Release

variable (trees : Trees Id Table) (inp : FilesystemInput Id)

def frontierValue (row : Option (Row Id)) (serial : ℕ) : ContentResult (InodeValue Id) :=
  match row with
  | some (.count value _) => orError value (.invalidRecord "released new inode")
  | some (.effect value _) => do
    let base ← orError (inp.stored serial) (.invalidRecord "released inode record")
    .ok (value.getD base)
  | none => orError (inp.stored serial) (.invalidRecord "released inode record")

def childCount (base : InodeValue Id) : Option (Row Id) → ContentResult (InodeKind × ℕ)
  | some (.count value n) => .ok ((value.getD base).kind, n)
  | some (.effect value delta) => do
    let n ← derivedCount base.namespaceRefCount delta
    .ok ((value.getD base).kind, n)
  | none => .ok (base.kind, base.namespaceRefCount)

/-- Drops one binding of a released directory; a directory that loses its last one is queued. -/
def releaseChild (state : ReferenceReducer Id × List ℕ) (serial : ℕ) :
    ContentResult (ReferenceReducer Id × List ℕ) := do
  let base ← orError (inp.stored serial) (.invalidRecord "released child")
  let reducer ← state.1.noteRemovedBinding serial
  let (kind, count) ← childCount base (reducer.state serial)
  .ok (reducer, if count = 0 ∧ kind = .directory then state.2 ++ [serial] else state.2)

/-- Releases the descendants of every inode at zero. Every turn pops a frontier inode, pops a
finished cursor or drops one page of bindings. -/
def releaseZeroCount : ℕ → ReleaseState Id → ContentResult (ReferenceReducer Id)
  | 0, _ => .error (.providerFailure "release turns")
  | fuel + 1, ⟨reducer, serial :: pending, cursors⟩ => do
    let value ← frontierValue inp (reducer.state serial) serial
    releaseZeroCount fuel ⟨reducer, pending,
      if value.kind = .directory then ⟨trees.bindings value.contentRoot, false⟩ :: cursors
      else cursors⟩
  | _ + 1, ⟨reducer, [], []⟩ => .ok reducer
  | fuel + 1, ⟨reducer, [], cursor :: cursors⟩ =>
    if cursor.finished then releaseZeroCount fuel ⟨reducer, [], cursors⟩
    else do
      let page := takePage 0 0 cursor.rows
      let (reducer, queue) ← (page.1.map Prod.snd).foldlM (releaseChild inp) (reducer, [])
      releaseZeroCount fuel ⟨reducer, queue, ⟨page.2, page.2.isEmpty⟩ :: cursors⟩

/-- The count a touched row leaves; a serial without a base record counts from zero. -/
def touchedCount (serial : ℕ) : Row Id → ContentResult ℕ
  | .count _ n => .ok n
  | .effect _ delta => derivedCount (((inp.stored serial).map (·.namespaceRefCount)).getD 0) delta

/-- Adds one touched serial at zero to the release frontier. A dropped directory was never part
of the result, so there is nothing to traverse. -/
def addZero (zero : List ℕ) (touched : ℕ × Row Id) : ContentResult (List ℕ) := do
  let count ← touchedCount inp touched.1 touched.2
  .ok (if count = 0 ∧ touched.1 ≠ inp.rootSerial ∧ inp.dropped touched.1 = false then
    zero ++ [touched.1] else zero)

def zeroCountSerials (reducer : ReferenceReducer Id) :
    ContentResult (ReferenceReducer Id × List ℕ) := do
  let (reducer, touched) ← reducer.touchedSerials
  ensure (touched.length ≤ inp.resources.maximumTouchedSerials)
    (.objectLimitExceeded inp.resources.maximumTouchedSerials touched.length)
  let zero ← touched.foldlM (addZero inp) []
  .ok (reducer, zero)

abbrev OrderingBacking := Option (Option ℕ)

def memoryReducer (backing : OrderingBacking) : ReferenceReducer Id where
  maximumPending := max inp.resources.maximumPendingRecords 1
  runs := { backing := backing.isSome, capacity := backing.join,
            limit := inp.resources.orderingBytes }

def memoryRoute (fuel : ℕ) (backing : OrderingBacking) :
    ReducerRoute Id (ReferenceReducer Id) where
  backed := false
  start := do
    (memoryReducer inp backing).runs.checkCapacity
    .ok (memoryReducer inp backing)
  declareNew := ReferenceReducer.declareNew
  noteRetainedBinding := ReferenceReducer.noteRetainedBinding
  noteRemovedBinding := ReferenceReducer.noteRemovedBinding
  noteValue := ReferenceReducer.noteValue
  release reducer := do
    let (reducer, zero) ← zeroCountSerials inp reducer
    releaseZeroCount trees inp fuel ⟨reducer, zero, []⟩
  finish reducer := reducer.finish inp.stored (max inp.resources.baseReadBatch 1) inp.rootSerial

def updateFilesystem [DecidableEq Id] (fuel : ℕ) (backing : OrderingBacking)
    (base : RootRecord Id Table) : ContentResult (RootRecord Id Table) := do
  ensure inp.base.isSome (.invalidRecord "update base root")
  runBody trees (memoryRoute trees inp fuel backing) inp base

end Release

end LayerFs
