import LayerFs.Digests.Follow

/-!
# Everything a Workspace's overlay does

The jobs, opens, closes, captures, installs, failed captures and maintenance turns that write rows,
drop rows or move the pins.

* `Overlay.apply` — one compound job (`apply_checked`).
-/

namespace LayerFs

namespace Digests

namespace Overlay

variable {Digest : Type} (blake3 : List UInt8 → Digest)

/-! ## Jobs -/

def checkOpened (s : Overlay Digest) (changes : Changes) : Bool :=
  changes.opened.all fun serial =>
    (changes.inodes.map Inode.serial == [serial]) && changes.entries == 0 &&
      (s.custody serial).opens != 0

def settle (s : Overlay Digest) : Overlay Digest := { s with revision := s.revision + 1 }

/-- The transaction of one checked job (`apply_checked`). -/
def applyChecked (s : Overlay Digest) (changes : Changes) : Overlay Digest :=
  let s := s.resumeDigest changes
  let carried := s.carriedDigests changes
  let s := (s.putInodes changes).detachOrphans changes
  (s.followDigests blake3 changes carried).settle

/-- Publishes every final value of one namespace operation or none of them (`apply`). -/
def apply (s : Overlay Digest) (changes : Changes) : Option (Overlay Digest) :=
  if changes.check && !s.closed && s.checkOpened changes && s.admits changes then
    some (s.applyChecked blake3 changes)
  else none

/-- The inode values of a row, as a row written again over it carries them. -/
def putRow (s : Overlay Digest) (serial : ℕ) (row : Row) : Overlay Digest :=
  { s with rows := s.rows.insert (serial, s.active) { row with sequence := s.revision + 1 } }

/-- Carries the latest captured row of a serial into the active generation (`keep_live_row`). -/
def keepLiveRow (s : Overlay Digest) (reader : Reader) (serial : ℕ) : Option (Overlay Digest) :=
  if s.closed ∨ reader ∉ s.readers then none
  else
    (s.current serial).map fun current =>
      if current.1 = s.active then s else (s.putRow serial current.2).settle

/-! ## References -/

/-- The three kinds of references to a serial. -/
inductive Reference where
  | file
  | reader
  | lookup
  deriving DecidableEq, Repr

def Reference.add : Reference → Refs → Refs
  | .file, refs => { refs with opens := refs.opens + 1 }
  | .reader, refs => { refs with readers := refs.readers + 1 }
  | .lookup, refs => { refs with lookups := refs.lookups + 1 }

def Reference.drop : Reference → Refs → Option Refs
  | .file, refs => if refs.opens = 0 then none else some { refs with opens := refs.opens - 1 }
  | .reader, refs =>
    if refs.readers = 0 then none else some { refs with readers := refs.readers - 1 }
  | .lookup, refs =>
    if refs.lookups = 0 then none else some { refs with lookups := refs.lookups - 1 }

def retain (s : Overlay Digest) (serial : ℕ) (kind : Reference) : Overlay Digest :=
  { s with custody := Function.update s.custody serial (kind.add (s.custody serial)) }

/-- Releases a reference; the last descriptor closes the file's digest (`file_ref`). -/
def release (s : Overlay Digest) (serial : ℕ) (kind : Reference) : Option (Overlay Digest) :=
  (kind.drop (s.custody serial)).map fun refs =>
    let s := { s with custody := Function.update s.custody serial refs }
    if kind = .file ∧ refs.opens = 0 then s.digestClosed blake3 serial else s

/-! ## Captures -/

def capture (s : Overlay Digest) : Option (Overlay Digest) :=
  if s.closed ∨ s.captured.isSome ∨ s.consolidating.isSome then none
  else some { s with captured := some s.active, active := s.active + 1 }

/-- Acquires a reader of the captured generation (`acquire_captured_reader`). -/
def acquireReader (s : Overlay Digest) : Option (Overlay Digest) :=
  if s.closed then none
  else s.captured.map fun g => { s with readers := ⟨g, s.installed⟩ :: s.readers }

/-- Releases one (`release_captured_reader`). -/
def releaseReader (s : Overlay Digest) (reader : Reader) : Option (Overlay Digest) :=
  if reader ∈ s.readers then some { s with readers := s.readers.erase reader } else none

/-- What the captured view holds for a serial: a removed file has no content in its root. -/
def capturedContent (s : Overlay Digest) (g serial : ℕ) : List UInt8 :=
  match newest (s.row serial) s.installed g with
  | some (_, row) => if row.nlink = 0 then [] else row.bytes
  | none => s.base serial

def install (s : Overlay Digest) : Option (Overlay Digest) :=
  s.captured.map fun g =>
    { s with base := s.capturedContent g, installed := g, captured := none }

/-- Gives up a capture: its generation is folded into the active one. -/
def resolveFailedCapture (s : Overlay Digest) : Option (Overlay Digest) :=
  if s.closed then none
  else s.captured.map fun g =>
    { s with captured := none, consolidating := some g, cursor := 0 }

/-! ## Maintenance -/

/-- Payload rows of one row left its layer: what its view reads then, of the same length. -/
def leave (s : Overlay Digest) (serial g : ℕ) (left : List UInt8) : Overlay Digest :=
  match s.row serial g with
  | none => s
  | some row =>
    if left.length = row.size then
      { s with rows := s.rows.insert (serial, g) { row with bytes := left } }
    else s

def dropRow (s : Overlay Digest) (serial g : ℕ) : Overlay Digest :=
  { s with rows := s.rows.erase (serial, g) }

/-- Whether a serial is the next one of the fold: its row is the first of the generation at or
after the cursor. -/
def nextFolded (s : Overlay Digest) (g serial : ℕ) : Bool :=
  s.cursor ≤ serial && s.rows.entries.all fun entry =>
    !(entry.1.2 == g && s.cursor ≤ entry.1.1 && entry.1.1 < serial)

/-- What a fold turn moved: what the folded row and an unlinked active row read afterwards. -/
structure Moved where
  bottom : List UInt8
  top : List UInt8
  deriving DecidableEq, Repr

/-- The turn of a row that an orphan still reads: it stays, under its zero-reference metadata. -/
def foldHeld (s : Overlay Digest) (serial : ℕ) (lower : Row) : Overlay Digest :=
  let s := if lower.nlink = 0 ∧ (s.row serial s.active).isNone then s.putRow serial lower else s
  { s with cursor := serial + 1 }

/-- The turn of any other row: the active generation gains it, then payload moves up, and last the
folded row goes. -/
def foldMoved (s : Overlay Digest) (g serial : ℕ) (lower : Row) (moved : Option Moved) :
    Overlay Digest :=
  let s := if (s.row serial s.active).isNone then s.putRow serial lower else s
  let s := match moved with
    | some moved =>
      let s := s.leave serial g moved.bottom
      if (s.row serial s.active).any (fun top : Row => top.nlink == 0) then
        s.leave serial s.active moved.top
      else s
    | none => s.dropRow serial g
  { s with cursor := serial }

/-- One fold turn over inode rows (`fold_namespace`). -/
def foldNamespace (s : Overlay Digest) (serial : ℕ) (moved : Option Moved) :
    Option (Overlay Digest) :=
  match s.consolidating with
  | none => none
  | some g =>
    if s.closed ∨ s.generationHeld g ∨ s.nextFolded g serial = false then none
    else (s.row serial g).map fun lower =>
      if s.orphanHolds serial g then s.foldHeld serial lower
      else s.foldMoved g serial lower moved

/-- The fold's last turn: no row of the generation is left at or after the cursor. -/
def foldFinish (s : Overlay Digest) : Option (Overlay Digest) :=
  match s.consolidating with
  | none => none
  | some g =>
    if s.closed ∨ s.generationHeld g ∨
        (s.rows.entries.any fun entry => entry.1.2 == g && s.cursor ≤ entry.1.1) then none
    else some { s with consolidating := none }

/-- Whether the retirement of a whole generation may be queued: it is installed, or folded. -/
def retirable (s : Overlay Digest) (g : ℕ) : Bool :=
  g ≤ s.installed || (g < s.active && s.captured != some g && s.consolidating != some g)

/-- Retires the row of one serial with its generation: payload first, then the row
(`retire_generation`). -/
def retireGeneration (s : Overlay Digest) (serial g : ℕ) (left : Option (List UInt8)) :
    Option (Overlay Digest) :=
  if s.retirable g && !s.generationHeld g && !s.orphanHolds serial g then
    some (match left with
      | some left => s.leave serial g left
      | none => s.dropRow serial g)
  else none

/-- Whether a row is installed, or superseded by a later one of the view (`LAYER_SUPERSEDED`). -/
def superseded (s : Overlay Digest) (serial g : ℕ) : Bool :=
  g ≤ s.installed || s.rows.entries.any fun entry =>
    entry.1.1 == serial && entry.1.2 ≤ s.active && max g s.installed < entry.1.2

/-- Retires one layer of one serial: payload first, then the row if it is superseded
(`retire_layer`). -/
def retireLayer (s : Overlay Digest) (serial g : ℕ) (left : Option (List UInt8)) :
    Option (Overlay Digest) :=
  if s.retiring serial g && !s.generationHeld g && !s.orphanHolds serial g then
    some (match left with
      | some left => s.leave serial g left
      | none =>
        let s' := if s.superseded serial g then s.dropRow serial g else s
        { s' with retiring := fun serial' g' =>
            !(serial' == serial && g' == g) && s.retiring serial' g' })
  else none

/-- Whether an orphan must still wait for a layer it reads (`orphan_source_awaited`). -/
def orphanSourceAwaited (s : Overlay Digest) (g : ℕ) : Bool :=
  s.captured == some g || s.generationHeld g

/-- Releases the newest layer an orphan reads; its retirement is queued. -/
def releaseLayer (s : Overlay Digest) (serial g : ℕ) (orphan : Orphan) : Overlay Digest :=
  { s with
    orphans := Function.update s.orphans serial
      (some { orphan with top := max (g - 1) orphan.floor })
    retiring := fun serial' g' => (serial' == serial && g' == g) || s.retiring serial' g' }

/-- One step of an orphan that something holds: payload of its newest lower layer moves into its
own domain, or that layer is released (`migrate_orphan`). -/
def migrateOrphan (s : Overlay Digest) (serial : ℕ) (left : Option (List UInt8)) :
    Option (Overlay Digest) :=
  (s.orphans serial).bind fun orphan =>
    if (s.custody serial).total = 0 ∨ orphan.top ≤ orphan.floor then none
    else match newest (s.row serial) orphan.floor orphan.top with
      | none =>
        some { s with
          orphans := Function.update s.orphans serial (some { orphan with top := orphan.floor }) }
      | some (g, _) =>
        if s.orphanSourceAwaited g then none
        else some (match left with
          | some left => s.leave serial g left
          | none => s.releaseLayer serial g orphan)

/-- One step of an orphan nothing holds: its newest lower layer is released, or it goes
(`reclaim_orphan`). -/
def reclaimOrphan (s : Overlay Digest) (serial : ℕ) : Option (Overlay Digest) :=
  (s.orphans serial).bind fun orphan =>
    if (s.custody serial).total ≠ 0 then none
    else match newest (s.row serial) orphan.floor orphan.top with
      | none => some { s with orphans := Function.update s.orphans serial none }
      | some (g, _) => some (s.releaseLayer serial g orphan)

end Overlay

/-! ## Runs -/

/-- Everything that happens to one Workspace's overlay. -/
inductive Action where
  | job (changes : Changes)
  | keepLive (reader : Reader) (serial : ℕ)
  | retain (serial : ℕ) (kind : Overlay.Reference)
  | release (serial : ℕ) (kind : Overlay.Reference)
  | capture
  | acquireReader
  | releaseReader (reader : Reader)
  | install
  | resolveFailedCapture
  | close
  | fold (serial : ℕ) (moved : Option Overlay.Moved)
  | foldFinish
  | retireGeneration (serial g : ℕ) (left : Option (List UInt8))
  | retireLayer (serial g : ℕ) (left : Option (List UInt8))
  | migrateOrphan (serial : ℕ) (left : Option (List UInt8))
  | reclaimOrphan (serial : ℕ)
  deriving DecidableEq, Repr

namespace Overlay

variable {Digest : Type} (blake3 : List UInt8 → Digest)

def step (s : Overlay Digest) : Action → Option (Overlay Digest)
  | .job changes => s.apply blake3 changes
  | .keepLive reader serial => s.keepLiveRow reader serial
  | .retain serial kind => if s.closed then none else some (s.retain serial kind)
  | .release serial kind => s.release blake3 serial kind
  | .capture => s.capture
  | .acquireReader => s.acquireReader
  | .releaseReader reader => s.releaseReader reader
  | .install => s.install
  | .resolveFailedCapture => s.resolveFailedCapture
  | .close => some { s with closed := true }
  | .fold serial moved => s.foldNamespace serial moved
  | .foldFinish => s.foldFinish
  | .retireGeneration serial g left => s.retireGeneration serial g left
  | .retireLayer serial g left => s.retireLayer serial g left
  | .migrateOrphan serial left => s.migrateOrphan serial left
  | .reclaimOrphan serial => s.reclaimOrphan serial

def run (rule : Overlay Digest → Action → Bool) :
    List Action → Overlay Digest → Option (Overlay Digest)
  | [], s => some s
  | action :: actions, s =>
    if rule s action then (s.step blake3 action).bind (run rule actions) else none

/-- The states that runs under a rule reach from a fresh Workspace. -/
def Reaches (rule : Overlay Digest → Action → Bool) (base : ℕ → List UInt8)
    (s : Overlay Digest) : Prop :=
  ∃ actions, run blake3 rule actions (start base) = some s

/-- What the Workspace promises of a job's final values: a removed file is never linked again, a
file without a local row shows the whole of its base content, and a reserved serial is new. -/
def promised (s : Overlay Digest) : Action → Bool
  | .job changes => changes.inodes.all fun inode =>
      (inode.nlink == 0 || ((s.orphans inode.serial).isNone &&
        (s.current inode.serial).all fun current => current.2.nlink != 0)) &&
      ((s.current inode.serial).isSome || inode.inherited == (s.base inode.serial).length) &&
      (changes.created != some inode.serial ||
        s.rows.entries.all fun entry => entry.1.1 != inode.serial)
  | _ => true

end Overlay

end Digests

end LayerFs
