import LayerFs.Namespace.Basic
import LayerFs.Support.Patch

/-!
# Filesystem operation inputs (`filesystem/input.rs`, `filesystem/rows`)

One operation is a base root and three ordered row sequences: final bindings by parent serial,
typed inode values by serial, and the serials the allocator just created. The base enters as the
namespace its pages hold; reading a page, a window or a group of points of a valid base all
answer from these rows.

* `checkOperationInput` — the shape checks every route makes first.
-/

namespace LayerFs

variable {Id : Type}

/-! ## Valid bases -/

def Namespace.lookup (ns : Namespace Id) (serial : ℕ) : Option (InodeValue Id) :=
  ns.inodes.lookup serial

/-- A well-formed namespace as the trees of a root store it: rows in key order. -/
structure Namespace.ValidBase (ns : Namespace Id) : Prop extends ns.WellFormed where
  rows_ascending : Ascending ns.inodes
  names_ascending : ∀ d ∈ ns.directories, Ascending (ns.listing d)

theorem Namespace.validBase_of_reached {ns : Namespace Id} (hnodup : ns.serials.Nodup)
    (hroot : ns.root ∈ ns.directories) (hdirs : ∀ s ∈ ns.serials, s ∈ ns.directories)
    (hmem : ∀ d ∈ ns.directories, ∀ s ∈ ns.children d, s ∈ ns.serials)
    (hunbound : ns.bindingCount ns.root = 0)
    (honce : ∀ s ∈ ns.directories, s ≠ ns.root → ns.bindingCount s = 1)
    (hcount : ∀ row ∈ ns.inodes, row.2.namespaceRefCount = ns.bindingCount row.1)
    (hreach : ∀ s ∈ ns.serials, ns.Reached s) (hrows : Ascending ns.inodes)
    (hnames : ∀ d ∈ ns.directories, Ascending (ns.listing d)) : ns.ValidBase where
  nodup := hnodup
  root_row := mem_directories.mp hroot
  bound_mem h := hmem _ h.1 _ h.2
  root_unbound := hunbound
  reached := hreach
  bound_once hrow hne _ := honce _ (hdirs _ (List.mem_map_of_mem hrow)) hne
  count_eq hrow := hcount _ hrow
  acyclic := ns.acyclic_of_reached hunbound (fun hs hne => honce _ hs hne)
    fun s hs => hreach s (directories_subset hs)
  rows_ascending := hrows
  names_ascending := hnames

theorem Namespace.ValidBase.mem_iff_lookup {ns : Namespace Id} (h : ns.ValidBase) {s : ℕ}
    {value : InodeValue Id} : (s, value) ∈ ns.inodes ↔ ns.lookup s = some value :=
  h.rows_ascending.mem_iff_lookup

/-- The base root a caller names. -/
structure BaseRoot (Id : Type) where
  scope : Id
  tree : Namespace Id

/-! ## Inputs -/

/-- One directory's final binding changes. -/
structure DirectoryUpdate where
  /-- serial of the directory whose bindings change -/
  parent : ℕ
  /-- final bindings; `none` means the name is absent from the new directory -/
  changes : List (PathName × Option ℕ)

/-- One typed final inode value. -/
structure InodeUpdate (Id : Type) where
  serial : ℕ
  value : InodeValue Id

/-- Bytes of one ordering row (`references/record.rs`). -/
def rowBytes : ℕ := 96

/-- Resource ceilings of one operation. -/
structure FilesystemResources where
  scratchBytes : ℕ
  maximumPendingRecords : ℕ
  mergeBufferBytes : ℕ
  baseReadBatch : ℕ
  orderingBytes : ℕ

namespace FilesystemResources

/-- Serials the operation may collect while it derives final counts. -/
def maximumTouchedSerials (resources : FilesystemResources) : ℕ := resources.orderingBytes / 16

def check (resources : FilesystemResources) : ContentResult Unit := do
  ensure (1024 ≤ resources.scratchBytes) (.resourceUnavailable "operation scratch")
  ensure (resources.maximumPendingRecords != 0) (.resourceUnavailable "ordering pending records")
  ensure (rowBytes ≤ resources.mergeBufferBytes) (.resourceUnavailable "ordering merge buffer")
  ensure (resources.baseReadBatch != 0) (.resourceUnavailable "base read batch")
  ensure (rowBytes ≤ resources.orderingBytes) (.resourceUnavailable "ordering bytes")

end FilesystemResources

/-- One complete filesystem operation request. -/
structure FilesystemInput (Id : Type) where
  /-- immutable base root; `none` builds a new filesystem -/
  base : Option (BaseRoot Id)
  /-- allocation scope of every identity in the result -/
  scope : Id
  rootSerial : ℕ
  /-- final directory bindings, by parent serial -/
  directories : List DirectoryUpdate
  /-- typed final inode values, by serial -/
  inodes : List (InodeUpdate Id)
  /-- serials the allocator just created -/
  newInodes : List ℕ
  resources : FilesystemResources

namespace FilesystemInput

variable (inp : FilesystemInput Id)

def directoryFor (parent : ℕ) : Option DirectoryUpdate :=
  inp.directories.find? fun update => update.parent == parent

def changesFor (parent : ℕ) : List (PathName × Option ℕ) :=
  ((inp.directoryFor parent).map DirectoryUpdate.changes).getD []

def valueFor (serial : ℕ) : Option (InodeValue Id) :=
  (inp.inodes.find? fun update => update.serial == serial).map InodeUpdate.value

def isNew (serial : ℕ) : Bool := inp.newInodes.contains serial

def stored (serial : ℕ) : Option (InodeValue Id) :=
  inp.base.bind fun base => base.tree.lookup serial

/-- The base listing of one directory, empty for a directory the base does not hold. -/
def storedListing (directory : ℕ) : List (PathName × ℕ) :=
  match inp.base with
  | some base => if (base.tree.lookup directory).isSome then base.tree.listing directory else []
  | none => []

def storedDirectories : List ℕ := (inp.base.map fun base => base.tree.directories).getD []

def effective : Namespace Id where
  root := inp.rootSerial
  inodes := ((inp.base.map fun base => base.tree.inodes).getD [])
    ++ (inp.inodes.filter fun update => (inp.stored update.serial).isNone).map
      fun update => (update.serial, update.value)
  listing := fun d => patch (inp.storedListing d) (inp.changesFor d)

end FilesystemInput

/-! ## Shape checks (`rows/check.rs`) -/

def serialInRange (serial : ℕ) : Bool := 0 < serial && serial ≤ maximumInodeSerial

def checkHeader (update : DirectoryUpdate) : ContentResult Unit := do
  ensure (update.parent != 0) (.invalidRecord "directory parent")
  ensure (decide (Ascending update.changes)) .nonCanonicalOrdering
  ensure (update.changes.all fun change => change.2.all serialInRange)
    (.invalidRecord "inode serial")

/-- One ordered row sequence: each row's own check, then its place behind the previous row. -/
def checkRows {α : Type} (key : α → ℕ) (check : α → ContentResult Unit) :
    Option ℕ → List α → ContentResult Unit
  | _, [] => .ok ()
  | previous, row :: rest => do
    check row
    ensure (previous.all fun last => last < key row) .nonCanonicalOrdering
    checkRows key check (some (key row)) rest

/-- Checks the shape of every supplied row before any object is touched. -/
def checkOperationInput (inp : FilesystemInput Id) : ContentResult Unit := do
  inp.resources.check
  ensure (inp.rootSerial != 0) (.invalidRecord "root inode serial")
  checkRows DirectoryUpdate.parent checkHeader none inp.directories
  checkRows InodeUpdate.serial
    (fun update => ensure (serialInRange update.serial) (.invalidRecord "inode serial"))
    none inp.inodes
  checkRows id
    (fun serial => ensure (serial != 0 && !(inp.base.isSome && serial == inp.rootSerial))
      (.invalidRecord "new inode serial"))
    none inp.newInodes
  -- a build allocates its root like any other inode
  ensure (inp.base.isSome || inp.isNew inp.rootSerial) (.invalidRecord "root inode allocation")

/-- What the shape checks promise to the passes behind them. -/
structure FilesystemInput.Shaped (inp : FilesystemInput Id) : Prop where
  root_ne : inp.rootSerial ≠ 0
  changes_ascending : ∀ update ∈ inp.directories, Ascending update.changes
  parents_ascending : inp.directories.Pairwise fun a b => a.parent < b.parent
  values_ascending : inp.inodes.Pairwise fun a b => a.serial < b.serial
  news_ascending : inp.newInodes.Pairwise (· < ·)
  root_stored : inp.base.isSome → inp.isNew inp.rootSerial = false
  root_new : inp.base = none → inp.isNew inp.rootSerial = true

theorem checkRows_ok {α : Type} {key : α → ℕ} {check : α → ContentResult Unit} {l : List α} :
    ∀ {previous : Option ℕ}, checkRows key check previous l = .ok () →
      (∀ a ∈ l, check a = .ok ()) ∧ l.Pairwise (key · < key ·) ∧
        ∀ last ∈ previous, ∀ a ∈ l, last < key a := by
  induction l with
  | nil => simp
  | cons a rest ih =>
    intro previous h
    rw [checkRows, check_bind_eq_ok, check_bind_eq_ok, ensure_eq_ok] at h
    obtain ⟨hcheck, horder, hrest⟩ := h
    obtain ⟨hall, hpair, hpast⟩ := ih hrest
    have hfirst : ∀ b ∈ rest, key a < key b := hpast (key a) rfl
    refine ⟨?_, List.pairwise_cons.mpr ⟨hfirst, hpair⟩, ?_⟩
    · rintro b (_ | ⟨_, hb⟩)
      · exact hcheck
      · exact hall b hb
    · intro last hlast b hb
      obtain rfl : previous = some last := hlast
      have hlt : last < key a := by simpa using horder
      rcases List.mem_cons.mp hb with rfl | hb
      · exact hlt
      · exact lt_trans hlt (hfirst b hb)

theorem checkOperationInput_shaped {inp : FilesystemInput Id}
    (h : checkOperationInput inp = .ok ()) : inp.Shaped := by
  simp only [checkOperationInput, check_bind_eq_ok, ensure_eq_ok, bne_iff_ne] at h
  obtain ⟨-, hroot, hheaders, hvalues, hnews, halloc⟩ := h
  obtain ⟨hheader, hparents, -⟩ := checkRows_ok hheaders
  obtain ⟨hnew, hnews, -⟩ := checkRows_ok hnews
  refine ⟨hroot, fun update hupdate => ?_, hparents, (checkRows_ok hvalues).2.1, hnews,
    fun hbase => ?_, fun hbase => ?_⟩
  · have := hheader update hupdate
    simp only [checkHeader, check_bind_eq_ok, ensure_eq_ok, decide_eq_true_eq] at this
    exact this.2.1
  · by_contra hin
    have hmem : inp.rootSerial ∈ inp.newInodes := by simpa [FilesystemInput.isNew] using hin
    have := hnew _ hmem
    simp [hbase] at this
  · simpa [hbase] using halloc

/-! ## Headers and effective bindings -/

section Effective

variable {inp : FilesystemInput Id}

theorem find?_key_eq_some {α : Type} {f : α → ℕ} {l : List α} (h : l.Pairwise (f · < f ·))
    {a : α} : l.find? (fun x => f x == f a) = some a ↔ a ∈ l := by
  refine ⟨List.mem_of_find?_eq_some, fun ha => ?_⟩
  induction l with
  | nil => simp at ha
  | cons b rest ih =>
    rw [List.pairwise_cons] at h
    rw [List.find?_cons]
    rcases List.mem_cons.mp ha with rfl | ha
    · simp
    · have : (f b == f a) = false := by simpa using (h.1 a ha).ne
      rw [this]
      exact ih h.2 ha

theorem directoryFor_eq_some (h : inp.Shaped) {update : DirectoryUpdate} :
    inp.directoryFor update.parent = some update ↔ update ∈ inp.directories :=
  find?_key_eq_some h.parents_ascending

theorem directoryFor_parent {d : ℕ} {update : DirectoryUpdate}
    (h : inp.directoryFor d = some update) : update ∈ inp.directories ∧ update.parent = d :=
  ⟨List.mem_of_find?_eq_some h, by simpa using List.find?_some h⟩

theorem mem_changesFor (h : inp.Shaped) {d : ℕ} {change : PathName × Option ℕ} :
    change ∈ inp.changesFor d ↔ ∃ update ∈ inp.directories, update.parent = d ∧
      change ∈ update.changes := by
  refine ⟨fun hc => ?_, ?_⟩
  · rw [FilesystemInput.changesFor] at hc
    rcases hd : inp.directoryFor d with _ | update
    · simp [hd] at hc
    · obtain ⟨hmem, hparent⟩ := directoryFor_parent hd
      exact ⟨update, hmem, hparent, by simpa [hd] using hc⟩
  · rintro ⟨update, hmem, rfl, hc⟩
    rw [FilesystemInput.changesFor, (directoryFor_eq_some h).mpr hmem]
    exact hc

theorem changesFor_ascending (h : inp.Shaped) (d : ℕ) : Ascending (inp.changesFor d) := by
  rw [FilesystemInput.changesFor]
  rcases hd : inp.directoryFor d with _ | update
  · exact ascending_nil
  · exact h.changes_ascending update (directoryFor_parent hd).1

end Effective

end LayerFs
