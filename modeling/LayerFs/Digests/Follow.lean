import LayerFs.Digests.Overlay

/-!
# Following a file's bytes (`payload/digest.rs`)

A regular file is followed from its creation while every byte it gains is an append; when no
descriptor holds it, its digest is pinned to the content sequence of its latest row.

* `resumeDigest` — a write follows a file again whose latest row holds the bytes last digested.

The hash function is a parameter; a hash state is the bytes it has taken.
-/

namespace LayerFs

namespace Digests

namespace Overlay

variable {Digest : Type}

/-! ## Before a job writes its rows -/

def stillEmpty (s : Overlay Digest) (write : Write) (row : Row) : Option (List UInt8) :=
  if row.size = 0 ∧ write.offset = 0 ∧
      (s.pins write.serial).any fun pin => pin.sequence == row.sequence && pin.length == 0 then
    some []
  else none

/-- The bytes a write follows on from, given the latest row of its file. -/
def resumed (s : Overlay Digest) (write : Write) (row : Row) : Option (List UInt8) :=
  match s.resumable with
  | some slot =>
    if slot.serial = write.serial ∧ slot.sequence = row.sequence ∧
        slot.followed.length = row.size ∧ slot.followed.length = write.offset then
      some slot.followed
    else s.stillEmpty write row
  | none => s.stillEmpty write row

/-- Follows the file of the job's write again (`resume_digest`). -/
def resumeDigest (s : Overlay Digest) (changes : Changes) : Overlay Digest :=
  match changes.write with
  | none => s
  | some write =>
    if (s.digests write.serial).isSome then s
    else match (s.latest write.serial).bind fun latest => s.resumed write latest.2 with
      | none => s
      | some followed =>
        { s with digests := Function.update s.digests write.serial (some followed) }

def carries (s : Overlay Digest) (inode : Inode) : Bool :=
  inode.kind == .regularFile && inode.nlink == 1 && (s.digests inode.serial).isNone &&
    (s.latest inode.serial).any fun latest =>
      latest.2.size == inode.size &&
        (s.pins inode.serial).any fun pin =>
          pin.sequence == latest.2.sequence && pin.length == latest.2.size

/-- The serials whose digest describes their latest row and that the job changes without touching
a byte (`carried_digests`). -/
def carriedDigests (s : Overlay Digest) (changes : Changes) : List ℕ :=
  if changes.write.isSome ∨ changes.cell.isSome then []
  else (changes.inodes.filter fun inode => s.carries inode).map Inode.serial

/-! ## After a job wrote its rows and bytes -/

def fresh (changes : Changes) (serial : ℕ) : Bool :=
  changes.created == some serial && changes.inodes.any fun inode =>
    inode.serial == serial && inode.kind == .regularFile && inode.size == 0

def kept (inode : Inode) (followed : List UInt8) : Bool :=
  inode.kind == .regularFile && inode.nlink == 1 && inode.size == followed.length

def follow (changes : Changes) (serial : ℕ) (followed : Option (List UInt8)) :
    Option (List UInt8) :=
  let followed := if fresh changes serial then some [] else followed
  let followed := if changes.cell.any fun cell => cell.1 == serial then none else followed
  let followed := match changes.write with
    | some write =>
      if write.serial = serial then
        followed.bind fun bytes =>
          if bytes.length = write.offset then some (bytes ++ write.data) else none
      else followed
    | none => followed
  match changes.inode? serial with
  | some inode => followed.filter (kept inode)
  | none => followed

def repin (s : Overlay Digest) (serial sequence : ℕ) : Overlay Digest :=
  { s with
    pins := Function.update s.pins serial
      ((s.pins serial).map fun pin => { pin with sequence := sequence })
    resumable := s.resumable.map fun slot =>
      if slot.serial = serial then { slot with sequence := sequence } else slot }

variable (blake3 : List UInt8 → Digest)

/-- Pins the followed digest of a serial to a content sequence and stops following it
(`finish_digest`). -/
def finishDigest (s : Overlay Digest) (serial sequence : ℕ) : Overlay Digest :=
  match s.digests serial with
  | none => s
  | some followed =>
    { s with
      digests := Function.update s.digests serial none
      resumable := some ⟨serial, sequence, followed⟩
      pins := Function.update s.pins serial (some ⟨sequence, followed.length, blake3 followed⟩) }

def finishUnopened (s : Overlay Digest) (serial sequence : ℕ) : Overlay Digest :=
  if (s.custody serial).opens = 0 then s.finishDigest blake3 serial sequence else s

/-- Follows the files one job changed (`follow_digests`). -/
def followDigests (s : Overlay Digest) (changes : Changes) (carried : List ℕ) : Overlay Digest :=
  let s := { s with digests := fun serial => follow changes serial (s.digests serial) }
  let sequence := s.revision + 1
  let s := carried.foldl (fun s serial => s.repin serial sequence) s
  changes.inodes.foldl (fun s inode => s.finishUnopened blake3 inode.serial sequence) s

/-- The last descriptor of a serial closed (`digest_closed`). -/
def digestClosed (s : Overlay Digest) (serial : ℕ) : Overlay Digest :=
  match s.digests serial with
  | none => s
  | some followed =>
    match s.latest serial with
    | some (_, row) =>
      if 0 < row.sequence ∧ row.size = followed.length then
        s.finishDigest blake3 serial row.sequence
      else { s with digests := Function.update s.digests serial none }
    | none => { s with digests := Function.update s.digests serial none }

/-! ## The captured generation -/

/-- `PAGE_ROWS`. -/
def pageRows : ℕ := 64

/-- A captured file's whole-content digest and the length it describes. -/
structure CapturedDigest (Digest : Type) where
  digest : Digest
  length : ℕ
  deriving DecidableEq, Repr

/-- The digest of one serial's captured row: none while a descriptor is open, else the pin that
agrees with the row's sequence and size. -/
def capturedDigest (s : Overlay Digest) (reader : Reader) (serial : ℕ) :
    Option (CapturedDigest Digest) :=
  if (s.custody serial).opens ≠ 0 then none
  else
    (s.row serial reader.generation).bind fun row =>
      (s.pins serial).bind fun pin =>
        if pin.sequence = row.sequence ∧ pin.length = row.size then
          some ⟨pin.digest, pin.length⟩
        else none

/-- The digests of a page of serials, for a reader that is held (`captured_digests`). -/
def capturedDigests (s : Overlay Digest) (reader : Reader) (serials : List ℕ) :
    Option (List (Option (CapturedDigest Digest))) :=
  if reader ∈ s.readers ∧ serials.length ≤ pageRows then
    some (serials.map (s.capturedDigest reader))
  else none

/-- The captured bytes of a regular file with a local row: the newest one of the reader's sealed
range. A removed file is missing (`read_captured`). -/
def readCaptured (s : Overlay Digest) (reader : Reader) (serial : ℕ) : Option (List UInt8) :=
  (newest (s.row serial) reader.installed reader.generation).bind fun found =>
    if found.2.kind = .regularFile ∧ found.2.nlink ≠ 0 then some found.2.bytes else none

end Overlay

end Digests

end LayerFs
