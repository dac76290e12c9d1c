import LayerFs.Filesystem.Input
import LayerFs.Support.Walk

/-!
# Checked inputs and the effective tree (`filesystem/validate`)

`checkOperation` classifies every stated directory binding as the base's own or as a placement,
and proves from the placements alone that no directory of the result sits on a cycle.

* `classifyOperation` — the checks up to the topology evidence (`validate.rs`,
  `validate/incremental.rs`).

The records live in indexed records with guarded changes, or in resident maps under a size
limit (`validate/backed.rs`); `TopologyRecords.backed` says which. No pass below adds or removes
a placement, so a pass over the placements in windows of 64 is a pass over the entries of the
map. Work counters are left out.
-/

namespace LayerFs

variable {Id : Type}

/-! ## Topology records (`validate/backed.rs`) -/

/-- Rows one classification window holds, and records one batch changes. -/
def recordWindow : ℕ := 64

/-- One directory binding this operation states that the base does not have. -/
structure Placement where
  /-- the directory the binding is stated in -/
  parent : ℕ
  /-- the placed directory has a base record -/
  stored : Bool
  parentStored : Bool
  /-- the parent is the directory's own base parent -/
  inPlace : Bool
  deriving DecidableEq, Repr

/-- Placements, territory marks, rooted marks, the territory queue and the scanned parents. -/
structure TopologyRecords where
  /-- the records are guarded records of the caller's store -/
  backed : Bool
  limit : ℕ
  placed : SortedMap ℕ Placement := .empty
  territory : SortedMap ℕ ℕ := .empty
  rooted : SortedMap ℕ Unit := .empty
  scanned : SortedMap ℕ Unit := .empty
  queue : List ℕ := []
  placements : ℕ := 0
  stored : ℕ := 0
  inPlace : ℕ := 0
  anchored : Bool := false

namespace TopologyRecords

variable (records : TopologyRecords)

/-- A resident container of this many entries fits; a backed one is never held. -/
def held (entries : ℕ) : ContentResult Unit :=
  ensure (records.backed || entries ≤ records.limit) (.objectLimitExceeded records.limit entries)

def guarded (expected : Bool) : ContentResult Unit :=
  ensure (!records.backed || expected) (.providerFailure "filesystem backing precondition")

def moved : Bool := records.inPlace < records.stored

/-- Records one window's placements, each guarded on its own absence. -/
def place (window : SortedMap ℕ Placement) (root : ℕ) : ContentResult TopologyRecords := do
  let placements ← checkedAdd records.placements window.size
  records.guarded (window.entries.all fun entry => (records.placed.get? entry.1).isNone)
  let placed := window.entries.foldl (fun placed entry => placed.insert entry.1 entry.2)
    records.placed
  records.held placed.size
  .ok { records with
    placed := placed
    placements := placements
    stored := records.stored + window.entries.countP fun entry => entry.2.stored
    anchored := records.anchored
      || window.entries.any fun entry => entry.2.parentStored && entry.2.parent != root }

def markInPlace (kept : SortedMap ℕ Placement) : ContentResult TopologyRecords := do
  records.guarded (kept.entries.all fun entry => records.placed.get? entry.1 == some entry.2)
  ensure (records.backed || kept.entries.all fun entry => (records.placed.get? entry.1).isSome)
    (.invalidRecord "filesystem placement missing")
  .ok { records with
    placed := kept.entries.foldl
      (fun placed entry => placed.insert entry.1 { entry.2 with inPlace := true }) records.placed
    inPlace := records.inPlace + kept.size }

def markScanned (parent : ℕ) : ContentResult TopologyRecords := do
  records.guarded (records.scanned.get? parent).isNone
  let scanned := records.scanned.insert parent ()
  records.held scanned.size
  .ok { records with scanned := scanned }

def markTerritory (directory owner : ℕ) : ContentResult TopologyRecords := do
  records.guarded (records.territory.get? directory).isNone
  let territory := records.territory.insert directory owner
  records.held territory.size
  .ok { records with territory := territory }

def markRooted (directories : List ℕ) : ContentResult TopologyRecords :=
  if directories.isEmpty then .ok records
  else do
    records.guarded (decide directories.Nodup
      && directories.all fun directory => (records.rooted.get? directory).isNone)
    let rooted := directories.foldl (fun rooted directory => rooted.insert directory ())
      records.rooted
    records.held rooted.size
    .ok { records with rooted := rooted }

def push (directories : List ℕ) : ContentResult TopologyRecords :=
  if directories.isEmpty then .ok records
  else do
    let queue := records.queue ++ directories
    records.held queue.length
    .ok { records with queue := queue }

/-- This operation placed the directory away from its base parent or allocated it. -/
def displaced (directory : ℕ) : Bool :=
  (records.placed.get? directory).any fun placement => !placement.inPlace

end TopologyRecords

/-! ## Classification (`validate/incremental.rs`) -/

/-- One header, or one bound name of the header before it. -/
structure WindowRow where
  parent : ℕ
  bound : Option (PathName × ℕ)

def DirectoryUpdate.windowRows (update : DirectoryUpdate) : List WindowRow :=
  ⟨update.parent, none⟩ :: update.changes.filterMap fun change =>
    change.2.map fun child => ⟨update.parent, some (change.1, child)⟩

/-- What one window has found so far. Headers come in parent order, so the restated names stand
in parent order too. -/
structure ClassifyState where
  /-- stored directory children of stored parents, awaiting the base's answer -/
  restated : List (ℕ × PathName × ℕ) := []
  placed : SortedMap ℕ Placement := .empty

/-- Adds one placement to its window; a directory placed twice has two parents. -/
def place (placed : SortedMap ℕ Placement) (child : ℕ) (placement : Placement) :
    ContentResult (SortedMap ℕ Placement) :=
  if (placed.get? child).isSome then .error (.invalidRecord "multiple parents")
  else .ok (placed.insert child placement)

namespace FilesystemInput

variable (inp : FilesystemInput Id)

def lookupOne (serial : ℕ) : ContentResult (InodeValue Id) :=
  orError (inp.stored serial) (.invalidRecord "missing base inode")

def header (parent : ℕ) : ContentResult Unit :=
  if parent = inp.rootSerial then .ok ()
  else if inp.isNew parent || inp.base.isNone then do
    let value ← orError (inp.valueFor parent) (.invalidRecord "directory parent value")
    ensure (value.kind == .directory) (.invalidRecord "directory parent kind")
  else do
    let record ← inp.lookupOne parent
    ensure (record.kind == .directory) (.invalidRecord "directory parent kind")

def listed (parent : ℕ) : Bool :=
  inp.base.isSome && (parent == inp.rootSerial || !inp.isNew parent)

/-- The kind a binding's child has: the stored record's, or the supplied value's. -/
def bindingKind (child : ℕ) : ContentResult InodeKind :=
  match inp.stored child with
  | some record => .ok record.kind
  | none => do
    let value ← orError (inp.valueFor child) (.invalidRecord "binding kind")
    .ok value.kind

/-- Classifies one bound name. Only a directory can close a cycle, so only a directory's
bindings are topology evidence. -/
def binding (parent : ℕ) (name : PathName) (child : ℕ) (st : ClassifyState) :
    ContentResult ClassifyState := do
  ensure (child != inp.rootSerial) (.invalidRecord "root directory binding")
  let kind ← inp.bindingKind child
  if kind ≠ .directory then .ok st
  else if (inp.stored child).isSome && inp.listed parent then
    .ok { st with restated := st.restated ++ [(parent, name, child)] }
  else do
    let placed ← place st.placed child
      { parent := parent, stored := (inp.stored child).isSome,
        parentStored := inp.listed parent, inPlace := false }
    .ok { st with placed := placed }

def classifyRow (st : ClassifyState) (row : WindowRow) : ContentResult ClassifyState :=
  match row.bound with
  | none => do
    inp.header row.parent
    .ok st
  | some (name, child) => inp.binding row.parent name child st

/-- A restated name is no placement when the base already binds it to this directory. -/
def placeRestated (placed : SortedMap ℕ Placement) (row : ℕ × PathName × ℕ) :
    ContentResult (SortedMap ℕ Placement) :=
  if (inp.storedListing row.1).lookup row.2.1 = some row.2.2 then .ok placed
  else place placed row.2.2
    { parent := row.1, stored := true, parentStored := true, inPlace := false }

def classify (records : TopologyRecords) (window : List WindowRow) :
    ContentResult TopologyRecords := do
  let st ← window.foldlM inp.classifyRow {}
  let placed ← st.restated.foldlM inp.placeRestated st.placed
  ensure (placed.entries.all fun entry => (records.placed.get? entry.1).isNone)
    (.invalidRecord "multiple parents")
  if placed.entries.isEmpty then .ok records
  else records.place placed inp.rootSerial

/-! ## Operation checks (`validate.rs`) -/

/-- Base state: the scope and the root serial the caller names are the base's own. -/
def loadTopology [DecidableEq Id] : ContentResult Unit :=
  match inp.base with
  | none => .ok ()
  | some base => do
    ensure (base.scope == inp.scope) (.scopeMismatch "filesystem root scope")
    ensure (base.tree.root == inp.rootSerial) (.invalidRecord "filesystem root serial")

def checkNewIdentities : ContentResult Unit :=
  ensure (inp.newInodes.all fun serial => (inp.stored serial).isNone)
    (.invalidRecord "reused inode serial")

def declaredLimit : ℕ := inp.resources.maximumTouchedSerials

def residentLimit : ℕ := inp.resources.orderingBytes / 1024

/-- Running total of changed names, held under the declared allowance. -/
def addNames (names : ℕ) (update : DirectoryUpdate) : ContentResult ℕ := do
  let names := names + update.changes.length
  ensure (names ≤ inp.declaredLimit) (.objectLimitExceeded inp.declaredLimit names)
  .ok names

def demanded (update : DirectoryUpdate) : List ℕ :=
  (if update.parent ≠ inp.rootSerial ∧ inp.isNew update.parent = false then [update.parent]
    else [])
    ++ update.changes.filterMap fun change => change.2.filter (· != inp.rootSerial)

/-- The declared totals of a resident input; a backed operation declares no ceiling on them. -/
def checkDeclared (backed : Bool) : ContentResult Unit :=
  if backed then .ok ()
  else do
    let _ ← inp.directories.foldlM inp.addNames 0
    let demanded := (inp.directories.flatMap inp.demanded).length
    ensure (inp.base.isNone || demanded ≤ 2 * inp.declaredLimit)
      (.objectLimitExceeded (2 * inp.declaredLimit) demanded)

def checkBuiltRoot : ContentResult Unit :=
  if inp.base.isSome then .ok ()
  else do
    let value ← orError (inp.valueFor inp.rootSerial) (.invalidRecord "root inode value")
    ensure (value.kind == .directory) (.invalidRecord "root inode kind")

/-- The root has a directory value when it is built, and nothing binds or reallocates it. -/
def checkRootInvariants : ContentResult Unit := do
  inp.checkBuiltRoot
  ensure (inp.directories.all fun update =>
    update.changes.all fun change => change.2 != some inp.rootSerial)
    (.invalidRecord "root directory binding")
  ensure (!(inp.base.isSome && inp.isNew inp.rootSerial)) (.invalidRecord "root inode allocation")

def checkBuild : ContentResult Unit :=
  ensure (inp.base.isSome || inp.inodes.all fun update =>
    update.value.kind != .directory || (inp.directoryFor update.serial).isSome)
    (.invalidRecord "directory bindings missing")

def classifyOperation [DecidableEq Id] (backed : Bool) : ContentResult TopologyRecords := do
  checkOperationInput inp
  let rows := max (max inp.directories.length inp.inodes.length) inp.newInodes.length
  ensure (backed || rows ≤ inp.declaredLimit) (.objectLimitExceeded inp.declaredLimit rows)
  inp.loadTopology
  inp.checkNewIdentities
  inp.checkDeclared backed
  let rows := inp.directories.flatMap DirectoryUpdate.windowRows
  let records ← (windows recordWindow [] rows).foldlM inp.classify
    { backed := backed, limit := inp.residentLimit }
  inp.checkRootInvariants
  inp.checkBuild
  .ok records

/-! ## Renames in place (`validate/in_place.rs`) -/

/-- Adds a changed name's base binding when the row displaces it and its directory is placed
under the same parent. -/
def keepRow (records : TopologyRecords) (parent : ℕ) (kept : SortedMap ℕ Placement)
    (row : PathName × Option ℕ) : SortedMap ℕ Placement :=
  match (inp.storedListing parent).lookup row.1 with
  | none => kept
  | some serial =>
    if row.2 = some serial then kept
    else match records.placed.get? serial with
      | none => kept
      | some placement =>
        if placement.parent = parent ∧ placement.inPlace = false then kept.insert serial placement
        else kept

/-- Resolves one window of changed names in the parent's base listing. -/
def resolve (parent : ℕ) (records : TopologyRecords) (window : List (PathName × Option ℕ)) :
    ContentResult TopologyRecords := do
  let _ ← inp.lookupOne parent
  let kept := window.foldl (inp.keepRow records parent) .empty
  if kept.entries.isEmpty then .ok records else records.markInPlace kept

def scan (records : TopologyRecords) (parent : ℕ) : ContentResult TopologyRecords := do
  let row ← orError (inp.directoryFor parent) (.invalidRecord "directory parent")
  (windows recordWindow [] row.changes).foldlM (inp.resolve parent) records

def scanPlacement (records : TopologyRecords) (entry : ℕ × Placement) :
    ContentResult TopologyRecords :=
  if !entry.2.stored || !entry.2.parentStored || (records.scanned.get? entry.2.parent).isSome then
    .ok records
  else do
    let records ← inp.scan records entry.2.parent
    records.markScanned entry.2.parent

/-- Marks every stored directory placed back under its own base parent. -/
def markInPlace (records : TopologyRecords) : ContentResult TopologyRecords :=
  records.placed.entries.foldlM inp.scanPlacement records

/-! ## Territories and rooted walks (`validate/cycles.rs`) -/

/-- A placement that is not in place names a stored parent other than the root that kept its own
base parent. -/
def landing (records : TopologyRecords) : Bool :=
  records.placed.entries.any fun entry => !entry.2.inPlace && entry.2.parentStored
    && entry.2.parent != inp.rootSerial && !records.displaced entry.2.parent

/-- An entry a territory walk enters: a stored directory that was not displaced. -/
def inside (records : TopologyRecords) (serial : ℕ) : Bool :=
  ((inp.stored serial).any fun value => value.kind == .directory) && !records.displaced serial

def markListed (owner directory : ℕ) (records : TopologyRecords) : ContentResult TopologyRecords :=
  if directory ≠ owner ∧ (inp.directoryFor directory).isSome then
    records.markTerritory directory owner
  else .ok records

/-- Lists one queued directory: marks it, and queues what its effective listing still holds. -/
def listTerritory (owner directory : ℕ) (records : TopologyRecords) :
    ContentResult TopologyRecords := do
  let records ← inp.markListed owner directory records
  let entries := (inp.effective.listing directory).map Prod.snd
  (windows recordWindow [] entries).foldlM
    (fun records page => records.push (page.filter (inp.inside records))) records

/-- One queue walk over the stored, unplaced directories under `owner`. -/
def territory (owner : ℕ) : ℕ → TopologyRecords → ContentResult TopologyRecords
  | 0, _ => .error (.invalidRecord "filesystem territory queue missing")
  | fuel + 1, records =>
    match records.queue with
    | [] => .ok records
    | directory :: rest => do
      let records ← inp.listTerritory owner directory { records with queue := rest }
      territory owner fuel records

/-- Lists one moved stored directory's surviving subtree. Every turn lists another directory of
the base, so their number bounds the turns. -/
def markTerritory (records : TopologyRecords) (entry : ℕ × Placement) :
    ContentResult TopologyRecords :=
  if entry.2.stored && !entry.2.inPlace then do
    let _ ← inp.lookupOne entry.1
    let records ← records.push [entry.1]
    inp.territory entry.1 (inp.storedDirectories.length + 1) records
  else .ok records

def markTerritories (records : TopologyRecords) : ContentResult TopologyRecords :=
  records.placed.entries.foldlM inp.markTerritory records

def step (territories : Bool) (records : TopologyRecords) (directory : ℕ) : Step ℕ :=
  if directory = inp.rootSerial || (records.rooted.get? directory).isSome then .rooted
  else match records.placed.get? directory with
    | some ⟨parent, _, _, false⟩ => .up parent
    | _ =>
      if inp.base.isNone || inp.isNew directory then .dropped
      else if territories then
        match records.territory.get? directory with
        | some owner => .up owner
        | none => .rooted
      else .rooted

def markPath (territories : Bool) : ℕ → List ℕ → TopologyRecords → ℕ →
    ContentResult TopologyRecords
  | 0, path, records, _ => records.markRooted path
  | fuel + 1, path, records, directory =>
    match inp.step territories records directory with
    | .up parent =>
      if path.length + 1 = recordWindow then do
        let records ← records.markRooted (path ++ [directory])
        markPath territories fuel [] records parent
      else markPath territories fuel (path ++ [directory]) records parent
    | _ => records.markRooted path

/-- Walks upward from one placed directory, then marks the proven path. -/
def prove (territories : Bool) (limit : ℕ) (records : TopologyRecords) (start : ℕ) :
    ContentResult TopologyRecords := do
  ensure (climb (inp.step territories records) limit start) (.invalidRecord "effective tree cycle")
  inp.markPath territories (limit + 1) [] records start

/-- The marks a proof walks with: whether territories were listed, and the records. -/
def marks (records : TopologyRecords) : ContentResult (Bool × TopologyRecords) :=
  if 0 < records.stored && records.anchored then do
    ensure inp.base.isSome (.invalidRecord "missing base inode")
    let records ← inp.markInPlace records
    if records.moved && inp.landing records then do
      let records ← inp.markTerritories records
      .ok (true, records)
    else .ok (false, records)
  else .ok (false, records)

def checkEffectiveTree (records : TopologyRecords) : ContentResult Unit :=
  if records.placements = 0 then .ok ()
  else do
    let (territories, records) ← inp.marks records
    let _ ← (records.placed.entries.map Prod.fst).foldlM
      (inp.prove territories (2 * records.placements + 2)) records
    .ok ()

/-- Checks membership, identity use and effective topology before any mutation. -/
def checkOperation [DecidableEq Id] (backed : Bool) : ContentResult Unit := do
  let records ← inp.classifyOperation backed
  inp.checkEffectiveTree records

end FilesystemInput

end LayerFs
