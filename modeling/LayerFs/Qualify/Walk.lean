import LayerFs.Directory.Deliver
import LayerFs.Inode.Read
import LayerFs.Namespace.Basic

/-!
# Whole-root qualification (`filesystem/qualify`)

`qualifyRoot` reads every inode row once and every binding reachable from the root once, and
accepts when the binding total equals the total the table declares. It keeps no visited set:
one record per inode holds the declared and the so-far observed count, and a FIFO queue holds
the directories still to list.

The store of records is modelled as a map from serial to record; the source's guarded batches
write each serial of a window once, so a batch is the sequence of its changes.
-/

namespace LayerFs

variable {Id : Type}

/-- One checked filesystem root. The serial rule travels with the value. -/
structure FilesystemRoot (Id : Type) where
  profile : Id
  /-- allocation scope of every inode in the tree -/
  scope : Id
  rootSerial : ℕ
  inodeTable : Id
  /-- `InodeIdentity::new` accepted the serial -/
  serial_valid : rootSerial ≠ 0 ∧ rootSerial ≤ maximumInodeSerial

/-- A faithful provider: what every identity decodes to under each grammar. -/
structure Objects (Id : Type) where
  filesystemRoot : Id → ContentResult (FilesystemRoot Id)
  directory : Id → DirectoryPage
  inodes : Id → InodePage Id

/-- The exact root and context a caller requires. -/
structure RootContext (Id : Type) where
  root : Id
  scope : Id
  profile : Id
  rootSerial : Option ℕ

def RootContext.check [DecidableEq Id] (context : RootContext Id) (root : FilesystemRoot Id) :
    ContentResult Unit := do
  ensure (root.scope == context.scope && root.profile == context.profile)
    (.scopeMismatch "qualified root scope/profile")
  ensure (context.rootSerial.all (· == root.rootSerial)) (.scopeMismatch "qualified root serial")

/-! ## Records (`qualify/records.rs`) -/

/-- One inode's declared and so-far observed binding counts. -/
structure QualifyRow (Id : Type) where
  kind : InodeKind
  declared : ℕ
  bound : ℕ
  /-- listing root, retained for directories only -/
  directory : Option Id

def QualifyRow.new (value : InodeValue Id) : QualifyRow Id where
  kind := value.kind
  declared := value.namespaceRefCount
  bound := 0
  directory := if value.kind = .directory then some value.contentRoot else none

abbrev QualifyRows (Id : Type) := ℕ → Option (QualifyRow Id)

def QualifyRows.put (rows : QualifyRows Id) (serial : ℕ) (row : QualifyRow Id) :
    QualifyRows Id :=
  fun s => if s = serial then some row else rows s

/-- State of the sequential inode pass. -/
structure Recorded (Id : Type) where
  rows : QualifyRows Id := fun _ => none
  declared : ℕ := 0
  directories : ℕ := 0
  inodes : ℕ := 0
  /-- listing root of the root directory, once its row was seen -/
  listing : Option Id := none

/-- State of the reachability pass. -/
structure Pass (Id : Type) where
  rows : QualifyRows Id
  /-- directories bound and not listed yet, in bind order -/
  queue : List ℕ := []
  bindings : ℕ := 0
  directories : ℕ := 0

/-! ## The pass (`qualify/walk.rs`) -/

def window : ℕ := 64
def windowBytes : ℕ := window * (2 + 8 + maximumNameBytes)

def recordRow (rootSerial : ℕ) (st : Recorded Id) (row : ℕ × InodeValue Id) :
    ContentResult (Recorded Id) := do
  ensure (row.1 != 0 && row.1 ≤ maximumInodeSerial) (.invalidRecord "inode serial")
  row.2.validate (row.1 == rootSerial)
  let declared ← checkedAdd st.declared row.2.namespaceRefCount
  ensure (st.rows row.1).isNone (.invalidRecord "qualification inode record")
  .ok { rows := st.rows.put row.1 (.new row.2),
        declared := declared,
        directories := if row.2.kind = .directory then st.directories + 1 else st.directories,
        inodes := st.inodes + 1,
        listing := if row.1 = rootSerial then some row.2.contentRoot else st.listing }

/-- Records every inode row in serial order, one leaf window at a time. -/
def recordInodes (rootSerial : ℕ) (table : InodePage Id) :
    ℕ → Option ℕ → Recorded Id → ContentResult (Recorded Id)
  | 0, _, _ => .error (.invalidRecord "inode table window")
  | fuel + 1, after, st => do
    let rows ← rowsAfter table after
    match rows.getLast? with
    | none => .ok st
    | some last => do
      let st ← rows.foldlM (recordRow rootSerial) st
      recordInodes rootSerial table fuel (some last.1) st

def tallyInsert (serial : ℕ) : List (ℕ × ℕ) → List (ℕ × ℕ)
  | [] => [(serial, 1)]
  | (s, n) :: rest =>
    if serial < s then (serial, 1) :: (s, n) :: rest
    else if serial = s then (s, n + 1) :: rest
    else (s, n) :: tallyInsert serial rest

def tally (entries : List (PathName × ℕ)) : List (ℕ × ℕ) :=
  entries.foldl (fun targets entry => tallyInsert entry.2 targets) []

def bindTarget (rootSerial : ℕ) (rows : QualifyRows Id) (target : ℕ × ℕ) :
    ContentResult (ℕ × QualifyRow Id) := do
  ensure (target.1 != rootSerial) (.invalidRecord "qualified binding names the root directory")
  let row ← orError (rows target.1) (.invalidRecord "qualified binding names a missing inode")
  let bound ← checkedAdd row.bound target.2
  ensure (row.kind != .directory || bound ≤ 1)
    (.invalidRecord "qualified directory has more than one binding")
  ensure (bound ≤ row.declared) (.invalidRecord "qualified binding count exceeds the inode")
  .ok (target.1, { row with bound := bound })

/-- Applies one window's bindings to their targets and queues each directory at its first and
only binding. -/
def bindTargets (rootSerial : ℕ) (targets : List (ℕ × ℕ)) (st : Pass Id) :
    ContentResult (Pass Id) := do
  let changes ← targets.mapM (bindTarget rootSerial st.rows)
  .ok { st with
    rows := changes.foldl (fun rows change => rows.put change.1 change.2) st.rows,
    queue := st.queue ++
      (changes.filter fun change => change.2.kind == .directory).map Prod.fst }

/-- Counts every binding of one directory in bounded name-ordered windows. -/
def bindDirectory (rootSerial : ℕ) (p : DirectoryPage) :
    ℕ → Option PathName → Pass Id → ContentResult (Pass Id)
  | 0, _, _ => .error (.invalidRecord "listing window")
  | fuel + 1, after, st => do
    let page ← listAfter after window windowBytes p
    ensure (ascending after page.entries) .nonCanonicalOrdering
    let bindings ← checkedAdd st.bindings page.entries.length
    let st ← bindTargets rootSerial (tally page.entries) { st with bindings := bindings }
    match page.continuation with
    | none => .ok { st with directories := st.directories + 1 }
    | some name => bindDirectory rootSerial p fuel (some name) st

/-- Lists the directory at `listing`, then every queued one. -/
def bindQueue (objects : Objects Id) (rootSerial : ℕ) :
    ℕ → Id → Pass Id → ContentResult (Pass Id)
  | 0, _, _ => .error (.invalidRecord "qualification queue record")
  | fuel + 1, listing, st => do
    let p := objects.directory listing
    let st ← bindDirectory rootSerial p (p.rows.length + 1) none st
    match st.queue with
    | [] => .ok st
    | serial :: rest => do
      let next ← orError ((st.rows serial).bind QualifyRow.directory)
        (.invalidRecord "qualification queue record")
      bindQueue objects rootSerial fuel next { st with queue := rest }

/-- Proof that one exact immutable root passed whole-root qualification. -/
structure QualifiedRoot (Id : Type) where
  id : Id
  root : FilesystemRoot Id
  inodes : ℕ
  directories : ℕ
  bindings : ℕ

def qualifyRoot [DecidableEq Id] (objects : Objects Id) (context : RootContext Id) :
    ContentResult (QualifiedRoot Id) := do
  let root ← objects.filesystemRoot context.root
  context.check root
  let table := objects.inodes root.inodeTable
  let recorded ← recordInodes root.rootSerial table (table.rows.length + 1) none {}
  let listing ← orError recorded.listing (.invalidRecord "missing filesystem root inode")
  let pass ← bindQueue objects root.rootSerial (table.rows.length + 1) listing
    { rows := recorded.rows }
  ensure (pass.bindings == recorded.declared) (.invalidRecord "qualified inode binding count")
  ensure (pass.directories == recorded.directories) (.invalidRecord "qualified directory count")
  .ok { id := context.root, root := root, inodes := recorded.inodes,
        directories := recorded.directories, bindings := pass.bindings }

end LayerFs
