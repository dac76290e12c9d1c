import LayerFs.Content.Basic
import LayerFs.Support.AssocMap
import LayerFs.Support.Generations

/-!
# Overlay rows and the digests pinned to them

One Workspace's overlay as `namespace/compound.rs` and `payload/digest.rs` see it: the inode rows
of every generation, who holds them, and the whole-content digests that follow their bytes.

* `Row` — an inode row with its content sequence; `bytes` is what its view reads.

A row carries the bytes its view reads instead of the cells, runs and reference pieces these are
composed from. Where rows of payload are moved or dropped, the bytes read afterwards are a
parameter of the step.
-/

namespace LayerFs

namespace Digests

/-! ## Rows -/

/-- One row of `fs_inode`: its kind, its links, the content sequence it was written with and the
bytes its view reads. -/
structure Row where
  kind : InodeKind
  nlink : ℕ
  sequence : ℕ
  bytes : List UInt8
  deriving DecidableEq, Repr

namespace Row

/-- The row's `size` column. -/
def size (row : Row) : ℕ := row.bytes.length

end Row

def resize (bytes : List UInt8) (size : ℕ) : List UInt8 :=
  bytes.take size ++ List.replicate (size - bytes.length) 0

@[simp] theorem length_resize {bytes : List UInt8} {size : ℕ} :
    (resize bytes size).length = size := by
  simp only [resize, List.length_append, List.length_take, List.length_replicate]
  omega

@[simp] theorem resize_length {bytes : List UInt8} : resize bytes bytes.length = bytes := by
  simp [resize]

def overwrite (bytes : List UInt8) (offset : ℕ) (data : List UInt8) : List UInt8 :=
  bytes.take offset ++ data ++ bytes.drop (offset + data.length)

theorem overwrite_resize_append {bytes data : List UInt8} :
    overwrite (resize bytes (bytes.length + data.length)) bytes.length data = bytes ++ data := by
  have htake : (resize bytes (bytes.length + data.length)).take bytes.length = bytes := by
    rw [resize, List.take_of_length_le (Nat.le_add_right _ _), List.take_left]
  have hdrop : (resize bytes (bytes.length + data.length)).drop (bytes.length + data.length) = [] :=
    List.drop_of_length_le (length_resize).le
  rw [overwrite, htake, hdrop, List.append_nil]

/-! ## The state of one Workspace -/

/-- A captured reader: the generation it reads and the frontier that was installed then. -/
structure Reader where
  generation : ℕ
  installed : ℕ
  deriving DecidableEq, Repr

/-- A removed file still held: the layers it reads are those in `(floor, top]`. -/
structure Orphan where
  top : ℕ
  floor : ℕ
  deriving DecidableEq, Repr

namespace Orphan

/-- Whether the orphan still reads generation `gen` of its serial. -/
def holds (orphan : Orphan) (gen : ℕ) : Bool := orphan.floor < gen && gen ≤ orphan.top

end Orphan

/-- Descriptors, read windows and kernel lookups of one serial. -/
structure Refs where
  opens : ℕ := 0
  readers : ℕ := 0
  lookups : ℕ := 0
  deriving DecidableEq, Repr

namespace Refs

def total (refs : Refs) : ℕ := refs.opens + refs.readers + refs.lookups

end Refs

/-- One row of `fs_digest`: a digest, the length it describes and the sequence it is pinned to. -/
structure Pin (Digest : Type) where
  sequence : ℕ
  length : ℕ
  digest : Digest
  deriving DecidableEq, Repr

/-- The last file finished without a descriptor: its hash state stands for the bytes fed to it. -/
structure Resumable where
  serial : ℕ
  sequence : ℕ
  followed : List UInt8
  deriving DecidableEq, Repr

/-- One Workspace's overlay. -/
structure Overlay (Digest : Type) where
  closed : Bool
  revision : ℕ
  active : ℕ
  installed : ℕ
  captured : Option ℕ
  consolidating : Option ℕ
  /-- where the fold of the consolidating generation stands -/
  cursor : ℕ
  /-- the content of each serial in the installed root -/
  base : ℕ → List UInt8
  /-- the inode rows by serial and generation -/
  rows : AssocMap (ℕ × ℕ) Row
  orphans : ℕ → Option Orphan
  /-- the queued retirements of one layer of one serial -/
  retiring : ℕ → ℕ → Bool
  readers : List Reader
  custody : ℕ → Refs
  /-- the followed files and the bytes their hash state has taken -/
  digests : ℕ → Option (List UInt8)
  resumable : Option Resumable
  pins : ℕ → Option (Pin Digest)

namespace Overlay

variable {Digest : Type}

def start (base : ℕ → List UInt8) : Overlay Digest where
  closed := false
  revision := 0
  active := 1
  installed := 0
  captured := none
  consolidating := none
  cursor := 0
  base := base
  rows := AssocMap.empty
  orphans := fun _ => none
  retiring := fun _ _ => false
  readers := []
  custody := fun _ => {}
  digests := fun _ => none
  resumable := none
  pins := fun _ => none

def row (s : Overlay Digest) (serial g : ℕ) : Option Row := s.rows.get? (serial, g)

/-- The newest row of a serial, installed or not (`LATEST`). -/
def latest (s : Overlay Digest) (serial : ℕ) : Option (ℕ × Row) :=
  newest (s.row serial) 0 s.active

/-- The newest row of a serial in the view (`local_row`). -/
def current (s : Overlay Digest) (serial : ℕ) : Option (ℕ × Row) :=
  newest (s.row serial) s.installed s.active

/-- What a serial reads now: its newest row in the view, or the installed root. -/
def content (s : Overlay Digest) (serial : ℕ) : List UInt8 :=
  match s.current serial with
  | some (_, row) => row.bytes
  | none => s.base serial

/-- Whether a captured reader holds a generation (`generation_held`). -/
def generationHeld (s : Overlay Digest) (g : ℕ) : Bool :=
  s.readers.any fun reader => reader.generation == g

/-- Whether an orphan still reads a generation of a serial (`orphan_holds`). -/
def orphanHolds (s : Overlay Digest) (serial g : ℕ) : Bool :=
  (s.orphans serial).any fun orphan => orphan.holds g

end Overlay

/-! ## Compound jobs (`namespace/compound.rs`) -/

/-- The values of an inode that a job publishes and this model reads. -/
structure Inode where
  serial : ℕ
  kind : InodeKind
  nlink : ℕ
  size : ℕ
  /-- the length its base content shows through -/
  inherited : ℕ
  born : ℕ
  deriving DecidableEq, Repr

/-- One write window of a job. -/
structure Write where
  serial : ℕ
  offset : ℕ
  data : List UInt8
  deriving DecidableEq, Repr

/-- One atomic job. `entries` counts its name changes; `opened` is the serial of the descriptor
it goes through; a cell change comes with the bytes its owner reads afterwards, since what lies
below the replaced cell shows through it. -/
structure Changes where
  inodes : List Inode
  entries : ℕ := 0
  created : Option ℕ := none
  detached : Option ℕ := none
  opened : Option ℕ := none
  cell : Option (ℕ × List UInt8) := none
  write : Option Write := none
  deriving DecidableEq, Repr

/-- `COMPOUND_INODES`. -/
def compoundInodes : ℕ := 4

/-- `COMPOUND_DIRECTORY_ENTRIES`. -/
def compoundDirectoryEntries : ℕ := 2

/-- `WRITE_WINDOW`. -/
def writeWindow : ℕ := 128 * 1024

def integer (value : ℕ) : Bool := value < 2 ^ 63

/-- Representable values (`inode::check`). -/
def Inode.check (inode : Inode) : Bool :=
  inode.serial != 0 && integer inode.serial && integer inode.size && integer inode.nlink &&
    integer inode.inherited && integer inode.born

namespace Changes

def inode? (changes : Changes) (serial : ℕ) : Option Inode :=
  changes.inodes.find? fun inode => inode.serial == serial

def checkWrite (changes : Changes) (write : Write) : Bool :=
  !write.data.isEmpty && write.data.length ≤ writeWindow &&
    (changes.inodes.find? fun inode =>
      inode.serial == write.serial && inode.kind == .regularFile).any
        fun inode => write.offset + write.data.length ≤ inode.size

/-- Window and grammar checks of one job, before any transaction (`check_changes`). -/
def check (changes : Changes) : Bool :=
  changes.inodes.length ≤ compoundInodes && changes.entries ≤ compoundDirectoryEntries &&
    !(changes.inodes.isEmpty && changes.entries == 0) &&
    (changes.detached.all fun serial =>
      changes.inodes.any fun inode => inode.serial == serial && inode.nlink == 0) &&
    (changes.created.all fun serial =>
      changes.inodes.any fun inode => inode.serial == serial && inode.nlink != 0) &&
    changes.inodes.all Inode.check && decide (changes.inodes.map Inode.serial).Nodup &&
    (changes.cell.all fun cell => changes.inodes.any fun inode => inode.serial == cell.1) &&
    changes.write.all changes.checkWrite

/-- What one serial reads once the job's cell and write are stored. -/
def written (changes : Changes) (serial : ℕ) (bytes : List UInt8) : List UInt8 :=
  let celled := match changes.cell with
    | some (owner, after) => if owner = serial then resize after bytes.length else bytes
    | none => bytes
  match changes.write with
  | some write =>
    if write.serial = serial then overwrite celled write.offset write.data else celled
  | none => celled

end Changes

namespace Overlay

variable {Digest : Type}

/-- Whether a job writes an inode into the orphan domain instead of the active generation. -/
def orphanDomain (s : Overlay Digest) (changes : Changes) (inode : Inode) : Bool :=
  changes.opened.isSome && inode.nlink == 0 && (s.orphans inode.serial).isSome

/-- What the active row of a serial starts from: its own bytes, or what shows through a fresh
layer. A serial reserved by the job has no lower row to read the cutoff from. -/
def inherited (s : Overlay Digest) (changes : Changes) (inode : Inode) : List UInt8 :=
  match s.row inode.serial s.active with
  | some row => row.bytes
  | none =>
    if changes.created = some inode.serial then (s.content inode.serial).take inode.inherited
    else match s.current inode.serial with
      | some (_, row) => row.bytes
      | none => (s.base inode.serial).take inode.inherited

/-- The row a job leaves for one of its inodes (`put_inode_domain`, then the job's bytes). -/
def putInodeDomain (s : Overlay Digest) (changes : Changes) (inode : Inode) : Row where
  kind := inode.kind
  nlink := inode.nlink
  sequence := s.revision + 1
  bytes := changes.written inode.serial (resize (s.inherited changes inode) inode.size)

/-- Whether every row of a job can be written: no inode of a later generation, and a reserved
serial has no active row to insert over. -/
def admits (s : Overlay Digest) (changes : Changes) : Bool :=
  changes.inodes.all fun inode =>
    inode.born ≤ s.active &&
      !(changes.created == some inode.serial && (s.row inode.serial s.active).isSome)

/-- The rows of one job, each at the active generation of its serial. -/
def written (s : Overlay Digest) (changes : Changes) : List ((ℕ × ℕ) × Row) :=
  (changes.inodes.filter fun inode => !s.orphanDomain changes inode).map fun inode =>
    ((inode.serial, s.active), s.putInodeDomain changes inode)

def putInodes (s : Overlay Digest) (changes : Changes) : Overlay Digest :=
  { s with rows := s.rows.insertAll (s.written changes) }

/-- The last link of a file went: its layer retires directly, or an orphan keeps its layers for
those that hold it (`detach_orphan`). -/
def detachOrphan (s : Overlay Digest) (inode : Inode) : Overlay Digest :=
  if inode.nlink ≠ 0 ∨ (s.orphans inode.serial).isSome then s
  else if (s.custody inode.serial).total = 0 then
    { s with retiring := fun serial g =>
        (serial == inode.serial && g == s.active) || s.retiring serial g }
  else
    { s with orphans := Function.update s.orphans inode.serial (some ⟨s.active, s.installed⟩) }

def detachOrphans (s : Overlay Digest) (changes : Changes) : Overlay Digest :=
  changes.inodes.foldl (fun s inode =>
    if inode.kind = .regularFile ∨ changes.detached = some inode.serial then s.detachOrphan inode
    else s) s

end Overlay

end Digests

end LayerFs
