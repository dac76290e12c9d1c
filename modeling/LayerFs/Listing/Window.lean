import LayerFs.Listing.Base
import LayerFs.Support.Layers

/-!
# One listing window

The names of one directory are read in windows: one owner job takes a page of the active rows and a
page of the captured (or consolidating) rows, and a page of the base directory is merged below them
(`operations/namespace/list.rs`, `lifetime/kernel_directory_read.rs`).

* `DirectoryState` — what a visit finds of a directory.
-/

namespace LayerFs

namespace Listing

/-! ## States -/

/-- The refusals of a listing. -/
inductive WorkspaceError where
  | content (error : ContentError)
  | pathNotFound
  deriving DecidableEq

abbrev WorkspaceResult (α : Type) := Except WorkspaceError α

def ofContent {α : Type} : ContentResult α → WorkspaceResult α
  | .ok a => .ok a
  | .error e => .error (.content e)

def pageRows : ℕ := 64

def basePageBytes : ℕ := pageRows * 264

/-- A canonical base directory: its pages pass their checks and its names are in order. -/
structure BaseDirectory where
  page : DirectoryPage
  checked : Page.AllChecked directoryCheck none page
  ordered : Ascending page.rows

/-- What the base holds under a serial. -/
inductive BaseInode where
  | absent
  | other (kind : InodeKind)
  | directory (base : BaseDirectory)

/-- What the listing reads of a directory's local inode row. -/
structure LocalInode where
  kind : InodeKind
  nlink : ℕ
  born : ℕ
  entries : ℕ

/-- A directory as one owner job finds it. A name row without a serial is a whiteout. -/
structure DirectoryState where
  serial : ℕ
  rootSerial : ℕ
  installed : ℕ
  inode : Option LocalInode
  active : SortedMap PathName (Option ℕ)
  captured : SortedMap PathName (Option ℕ)
  base : BaseInode
  /-- kind of a serial: of its local row, else of the base inode -/
  kindOf : ℕ → WorkspaceResult InodeKind

namespace DirectoryState

variable (state : DirectoryState)

/-- `inherits`: whether the base can bind names under this directory. -/
def inherits : WorkspaceResult Bool :=
  match state.inode with
  | some row =>
    if row.kind ≠ .directory then .error (.content .wrongLogicalRole)
    else if row.nlink = 0 ∧ state.serial ≠ state.rootSerial then .error .pathNotFound
    else .ok (decide (row.born ≤ state.installed))
  | none =>
    match state.base with
    | .absent => .error .pathNotFound
    | .other _ => .error (.content .wrongLogicalRole)
    | .directory _ => .ok true

def baseRows : List (PathName × ℕ) :=
  match state.base with
  | .directory base => base.page.rows
  | _ => []

def baseLayer (inherited : Bool) : List (PathName × Option ℕ) :=
  if inherited then state.baseRows.map fun row => (row.1, some row.2) else []

/-- **The serial a name is bound to**: its active row, else its captured row, else the base. -/
def bound (name : PathName) : Option ℕ :=
  match state.inherits with
  | .error _ => none
  | .ok inherited =>
    (resolve [state.active.entries, state.captured.entries, state.baseLayer inherited] name).join

/-! ## Pages -/

def after {α : Type} (cursor : Option PathName) (rows : List (PathName × α)) :
    List (PathName × α) :=
  rows.filter fun row => above cursor row.1

/-- One window of local rows. -/
structure EntryWindow where
  active : List (PathName × Option ℕ)
  captured : List (PathName × Option ℕ)

/-- `source_directory_entry_window`: a page of each local layer, in one job. -/
def entryWindow (cursor : Option PathName) : EntryWindow where
  active := (after cursor state.active.entries).take pageRows
  captured := (after cursor state.captured.entries).take pageRows

def basePage (cursor : Option PathName) (inherited : Bool) : WorkspaceResult ListingPage :=
  if inherited then
    match state.base with
    | .absent => .error .pathNotFound
    | .other _ => .error (.content .wrongLogicalRole)
    | .directory base => ofContent (listAfter cursor pageRows basePageBytes base.page)
  else .ok ⟨[], none⟩

end DirectoryState

open DirectoryState

/-! ## The window -/

/-- One window of names. -/
structure ViewListing where
  entries : List (PathName × ℕ)
  continuation : Option PathName
  /-- distinct names visited, whiteouts included -/
  visited : ℕ

def wellFormedRows (cursor : Option PathName) (rows : List (PathName × Option ℕ)) : Bool :=
  rows.length ≤ pageRows ∧ strictlyOrdered (rows.map Prod.fst) ∧ rows.all fun row => above cursor row.1

def boundEntries (visited : List (PathName × Option (Option ℕ))) : List (PathName × ℕ) :=
  visited.filterMap fun entry => entry.2.join.map fun serial => (entry.1, serial)

/-- `list_from_window`: the merge of the two local pages and a base page, of at most 64 names. -/
def listFromWindow (state : DirectoryState) (cursor : Option PathName) (rows : EntryWindow) :
    WorkspaceResult ViewListing := do
  let inherited ← state.inherits
  let base ← state.basePage cursor inherited
  ofContent (ensure (wellFormedRows cursor rows.active && wellFormedRows cursor rows.captured)
    (.invalidRecord "source name window"))
  let merged := mergeLayers pageRows
    [rows.active, rows.captured, base.entries.map fun row => (row.1, some row.2)]
  let more := merged.rest.any (fun left => !left.isEmpty) || base.continuation.isSome ||
    rows.active.length = pageRows || rows.captured.length = pageRows
  return ⟨boundEntries merged.visited,
    if more then merged.visited.getLast?.map Prod.fst else none, merged.visited.length⟩

/-- `list`: the local window of a visit, and the names it shows. -/
def DirectoryState.list (state : DirectoryState) (cursor : Option PathName) :
    WorkspaceResult ViewListing :=
  listFromWindow state cursor (state.entryWindow cursor)

/-! ## READDIR -/

/-- One entry of a READDIR reply. -/
structure KernelEntry where
  name : PathName
  serial : ℕ
  kind : InodeKind

def withKinds (kindOf : ℕ → WorkspaceResult InodeKind) :
    List (PathName × ℕ) → WorkspaceResult (List KernelEntry)
  | [] => .ok []
  | row :: rows => do
    let kind ← kindOf row.2
    let rest ← withKinds kindOf rows
    return ⟨row.1, row.2, kind⟩ :: rest

/-- `listing`: a removed directory that is still open lists nothing. -/
def kernelListing (state : DirectoryState) (cursor : Option PathName) :
    WorkspaceResult (List KernelEntry × Option PathName) :=
  match state.inode.filter fun row => row.nlink = 0 ∧ state.serial ≠ state.rootSerial with
  | some row =>
    if row.kind ≠ .directory ∨ row.entries ≠ 0 then
      .error (.content (.invalidRecord "removed kernel directory"))
    else .ok ([], none)
  | none => do
    let listing ← state.list cursor
    let entries ← withKinds state.kindOf listing.entries
    return (entries, listing.continuation)

/-- `finish`: a published reply after the same name whose names these entries begin with is given
again; otherwise all entries are offered. -/
def finish (published : Option (List PathName)) (entries : List KernelEntry) : List KernelEntry :=
  match published with
  | some names => if names <+: entries.map KernelEntry.name then entries.take names.length
    else entries
  | none => entries

end Listing

end LayerFs
