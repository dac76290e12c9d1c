import LayerFs.Object.Envelope
import LayerFs.Sorted.Page

/-!
# The bytes of inode values and inode leaves (`object/inode_leaf.rs`)

An inode value is 73 bytes: a tag, a reference count, a content root and either a metadata root or
the portable metadata itself, which the high bit of the tag tells apart. A leaf is a header and
rows of a serial and a value. A pooled body keeps the serials of a leaf and an ordinal for each of
its values.

* `decodeInodeValue_eq_ok` — **what is accepted of a value**: the bytes of one whose metadata is
  valid for its kind, and no other bytes.
* `rebuildLeaf_pooledBody` — **a leaf is rebuilt** from its pooled body and the values its ordinals
  stand for.
-/

namespace LayerFs

open List

open Wire Codec

variable {bytes canonical start value : Bytes} {tag : ℕ} (kind : InodeKind)
  (metadata : InodeMetadata ObjectId)

/-! ## Portable metadata (`filesystem/attributes/portable.rs`) -/

/-- `MAXIMUM_NANOSECONDS`. -/
def maximumNanoseconds : ℕ := 999999999

/-- Checks the mode and mtime against the inode kind they belong to. -/
def PortableMetadata.validate (metadata : PortableMetadata) (kind : InodeKind) :
    ContentResult Unit :=
  let mask := match kind with
    | .regularFile | .symlink => 0o777
    | .directory => 0o1777
  ensure (!(metadata.mode &&& (0xFFFFFFFF ^^^ mask) != 0
      || (kind == .symlink && metadata.mode != 0o777)
      || decide (maximumNanoseconds < metadata.mtimeNanoseconds)))
    (.invalidRecord "portable metadata")

def InodeKind.code : InodeKind → ℕ
  | .regularFile => 1
  | .directory => 2
  | .symlink => 3

def InodeKind.fromCode (code : ℕ) : ContentResult InodeKind :=
  if code = 1 then .ok .regularFile
  else if code = 2 then .ok .directory
  else if code = 3 then .ok .symlink
  else .error (.invalidRecord "inode kind")

theorem InodeKind.fromCode_eq_ok {code : ℕ} {kind : InodeKind} :
    InodeKind.fromCode code = .ok kind ↔ code = kind.code := by
  rw [fromCode]
  constructor
  · intro h
    split_ifs at h with h1 h2 h3 <;> cases h
    · exact h1
    · exact h2
    · exact h3
  · rintro rfl
    cases kind <;> rfl

namespace InodeCodec

/-! ## Signed numbers -/

/-- `i64::to_be_bytes`. -/
def signedBytes (seconds : ℤ) : Bytes := be 8 (seconds % 2 ^ 64).toNat

/-- `i64::from_be_bytes`, of the number the bytes spell without a sign. -/
def signedOf (n : ℕ) : ℤ := if n < 2 ^ 63 then n else (n : ℤ) - 2 ^ 64

/-- What an `i64` holds. -/
def FitsSigned (seconds : ℤ) : Prop := -2 ^ 63 ≤ seconds ∧ seconds < 2 ^ 63

def unsignedOf (seconds : ℤ) : ℕ := (seconds % 2 ^ 64).toNat

theorem signedOf_eq_iff {n : ℕ} (hn : n < 256 ^ 8) {seconds : ℤ} :
    signedOf n = seconds ↔ FitsSigned seconds ∧ unsignedOf seconds = n := by
  rw [signedOf, FitsSigned, unsignedOf]
  have hn' : n < 18446744073709551616 := hn
  split_ifs with h <;> omega

/-! ## Inode values -/

/-- `INODE_VALUE_BYTES`. -/
def inodeValueBytes : ℕ := 73

def tagOf (kind : InodeKind) : InodeMetadata ObjectId → ℕ
  | .root _ => kind.code
  | .inline _ => kind.code ||| 0x80

def metadataBytes : InodeMetadata ObjectId → Bytes
  | .root root => root.bytes
  | .inline metadata =>
    be 4 metadata.mode ++ (signedBytes metadata.mtimeSeconds ++
      (be 4 metadata.mtimeNanoseconds ++ List.replicate 16 0))

/-- `encode_inode_value`: the fixed form of a value. -/
def encodeInodeValue (value : InodeValue ObjectId) : Bytes :=
  be 1 (tagOf value.kind value.metadataRoot) ++ (be 8 value.namespaceRefCount ++
    (value.contentRoot.bytes ++ metadataBytes value.metadataRoot))

/-- The inline metadata: the padding is checked before the metadata. -/
def readInline (kind : InodeKind) : Reading ContentError PortableMetadata := do
  let mode ← number .unexpectedEof 4
  let seconds ← number .unexpectedEof 8
  let nanoseconds ← number .unexpectedEof 4
  let padding ← takeExactly .unexpectedEof 16
  result (ensure (padding.all (· == 0)) (.invalidRecord "inode inline padding"))
  result (PortableMetadata.validate ⟨mode, signedOf seconds, nanoseconds⟩ kind)
  return ⟨mode, signedOf seconds, nanoseconds⟩

def readMetadata (kind : InodeKind) (tag : ℕ) : Reading ContentError (InodeMetadata ObjectId) :=
  if tag &&& 0x80 != 0 then do
    let metadata ← readInline kind
    return .inline metadata
  else do
    let root ← readBlock .unexpectedEof 32
    return .root root

def readInodeValue : Reading ContentError (InodeValue ObjectId) := do
  let tag ← number .unexpectedEof 1
  let refCount ← number .unexpectedEof 8
  let contentRoot ← readBlock .unexpectedEof 32
  let kind ← result (InodeKind.fromCode (tag &&& 0x7f))
  let metadata ← readMetadata kind tag
  return ⟨kind, refCount, contentRoot, metadata⟩

/-- `decode_inode_value`: one value, of the right width. -/
def decodeInodeValue (bytes : Bytes) : ContentResult (InodeValue ObjectId) := do
  ensure (bytes.length == inodeValueBytes) (.invalidRecord "inode value width")
  let (value, _) ← readInodeValue.run bytes
  return value

def MetadataTyped : InodeMetadata ObjectId → Prop
  | .root _ => True
  | .inline metadata => metadata.mode < 256 ^ 4 ∧ FitsSigned metadata.mtimeSeconds ∧
      metadata.mtimeNanoseconds < 256 ^ 4

def MetadataValid (kind : InodeKind) : InodeMetadata ObjectId → Prop
  | .root _ => True
  | .inline metadata => metadata.validate kind = .ok ()

def ValueTyped (value : InodeValue ObjectId) : Prop :=
  value.namespaceRefCount < 256 ^ 8 ∧ MetadataTyped value.metadataRoot

theorem tag_eq_iff (htag : tag < 256) (kind : InodeKind) :
    (tag = kind.code ↔ tag &&& 0x7f = kind.code ∧ tag &&& 0x80 = 0) ∧
    (tag = kind.code ||| 0x80 ↔ tag &&& 0x7f = kind.code ∧ tag &&& 0x80 ≠ 0) := by
  have hall : ∀ code ∈ [1, 2, 3], ∀ tag < 256,
      (tag = code ↔ tag &&& 0x7f = code ∧ tag &&& 0x80 = 0) ∧
      (tag = code ||| 0x80 ↔ tag &&& 0x7f = code ∧ tag &&& 0x80 ≠ 0) := by
    decide +kernel
  exact hall kind.code (by cases kind <;> decide) tag htag

theorem readInline_accepts :
    Accepts (readInline kind) (fun metadata => metadataBytes (.inline metadata))
      (fun metadata => MetadataTyped (.inline metadata) ∧
        MetadataValid kind (.inline metadata)) := by
  -- behind the fields: zeros, and metadata valid for the kind
  have hlast : ∀ (mode seconds nanoseconds : ℕ) (padding : Bytes), seconds < 256 ^ 8 →
      padding.length = 16 ∧ IsBytes padding →
      Accepts (result (ensure (padding.all (· == 0)) (.invalidRecord "inode inline padding")) >>=
          fun _ => result (PortableMetadata.validate ⟨mode, signedOf seconds, nanoseconds⟩ kind) >>=
          fun _ => pure (⟨mode, signedOf seconds, nanoseconds⟩ : PortableMetadata))
        (fun _ => []) (fun metadata => ((((True ∧ metadata.mode = mode) ∧
          unsignedOf metadata.mtimeSeconds = seconds) ∧
          metadata.mtimeNanoseconds = nanoseconds) ∧ List.replicate 16 0 = padding) ∧
          FitsSigned metadata.mtimeSeconds ∧ metadata.validate kind = .ok ()) := by
    intro mode seconds nanoseconds padding hseconds hpadding
    have hzeros : (ensure (padding.all (· == 0)) (.invalidRecord "inode inline padding") :
        ContentResult Unit) = .ok () ↔ List.replicate 16 0 = padding := by
      rw [ensure_eq_ok, all_eq_true, eq_comm, eq_replicate_iff]
      simp only [beq_iff_eq, hpadding.1, true_and]
    refine (Accepts.check hzeros (Accepts.check Iff.rfl (Accepts.pure _))).of_iff fun metadata => ?_
    have hsigned : signedOf seconds = metadata.mtimeSeconds ↔ _ := signedOf_eq_iff hseconds
    constructor
    · rintro ⟨⟨⟨⟨⟨-, rfl⟩, hs⟩, rfl⟩, hpad⟩, hfits, hvalid⟩
      have hsame := hsigned.mpr ⟨hfits, hs⟩
      rw [hsame]
      exact ⟨hpad, hvalid, rfl⟩
    · rintro ⟨hpad, hvalid, rfl⟩
      obtain ⟨hfits, hs⟩ := hsigned.mp rfl
      exact ⟨⟨⟨⟨⟨trivial, rfl⟩, hs⟩, rfl⟩, hpad⟩, hfits, hvalid⟩
  refine Accepts.record (.field PortableMetadata.mode number_accepts fun mode =>
    .field_of (fun metadata : PortableMetadata => unsignedOf metadata.mtimeSeconds) number_accepts
      fun seconds hseconds =>
    .field PortableMetadata.mtimeNanoseconds number_accepts fun nanoseconds =>
    .field_of (fun _ => List.replicate 16 0) takeExactly_accepts fun padding hpadding =>
    hlast mode seconds nanoseconds padding hseconds hpadding)
    (fun metadata => ?_) (fun metadata => ?_)
  · have hzeros : (List.replicate 16 0).length = 16 ∧ IsBytes (List.replicate 16 0) := by decide
    have hunsigned : unsignedOf metadata.mtimeSeconds < 256 ^ 8 := by
      have hpow : (256 ^ 8 : ℕ) = 18446744073709551616 := by decide
      rw [unsignedOf, hpow]
      omega
    dsimp only [MetadataTyped, MetadataValid]
    tauto
  · rw [append_nil]
    rfl

theorem readMetadata_accepts {kind : InodeKind} (htag : tag < 256)
    (hkind : tag &&& 0x7f = kind.code) :
    Accepts (readMetadata kind tag) metadataBytes (fun metadata => tagOf kind metadata = tag ∧
      MetadataTyped metadata ∧ MetadataValid kind metadata) := by
  obtain ⟨hroot, hinline⟩ := tag_eq_iff htag kind
  rw [readMetadata]
  by_cases hbit : tag &&& 0x80 = 0
  · rw [if_neg (by simpa using hbit)]
    refine readBlock_accepts.map InodeMetadata.root (fun _ _ => rfl) fun metadata => ?_
    constructor
    · rintro ⟨htagged, -, -⟩
      rcases metadata with root | metadata
      · exact ⟨root, rfl, trivial⟩
      · exact absurd hbit (hinline.mp htagged.symm).2
    · rintro ⟨root, rfl, -⟩
      exact ⟨(hroot.mpr ⟨hkind, hbit⟩).symm, trivial, trivial⟩
  · rw [if_pos (by simpa using hbit)]
    refine (readInline_accepts kind).map InodeMetadata.inline (fun _ _ => rfl) fun metadata => ?_
    constructor
    · rintro ⟨htagged, htyped, hvalid⟩
      rcases metadata with root | metadata
      · exact absurd (hroot.mp htagged.symm).2 hbit
      · exact ⟨metadata, rfl, htyped, hvalid⟩
    · rintro ⟨metadata, rfl, htyped, hvalid⟩
      exact ⟨(hinline.mpr ⟨hkind, hbit⟩).symm, htyped, hvalid⟩

theorem tagOf_lt : tagOf kind metadata < 256 ^ 1 := by
  cases metadata <;> cases kind <;> simp [tagOf, InodeKind.code]

theorem tagOf_kind : tagOf kind metadata &&& 0x7f = kind.code := by
  cases metadata <;> cases kind <;> simp [tagOf, InodeKind.code]

theorem readInodeValue_accepts :
    Accepts readInodeValue encodeInodeValue (fun value => ValueTyped value ∧
      MetadataValid value.kind value.metadataRoot) := by
  -- behind the fields: the kind and the metadata the tag tells
  have hlast : ∀ (tag refCount : ℕ) (contentRoot : ObjectId), tag < 256 ^ 1 →
      Accepts (result (InodeKind.fromCode (tag &&& 0x7f)) >>= fun kind =>
          readMetadata kind tag >>= fun metadata =>
          pure (⟨kind, refCount, contentRoot, metadata⟩ : InodeValue ObjectId))
        (fun value => metadataBytes value.metadataRoot)
        (fun value => (((True ∧ tagOf value.kind value.metadataRoot = tag) ∧
          value.namespaceRefCount = refCount) ∧ value.contentRoot = contentRoot) ∧
          MetadataTyped value.metadataRoot ∧ MetadataValid value.kind value.metadataRoot) := by
    intro tag refCount contentRoot htag
    have hkind : Accepts (result (InodeKind.fromCode (tag &&& 0x7f))) (fun _ => [])
        (fun kind => tag &&& 0x7f = kind.code) :=
      Accepts.result fun kind => InodeKind.fromCode_eq_ok
    have hmetadata : ∀ kind : InodeKind, tag &&& 0x7f = kind.code →
        Accepts (readMetadata kind tag >>= fun metadata =>
            pure (⟨kind, refCount, contentRoot, metadata⟩ : InodeValue ObjectId))
          (fun value => metadataBytes value.metadataRoot)
          (fun value => value.kind = kind ∧ (tagOf value.kind value.metadataRoot = tag ∧
            value.namespaceRefCount = refCount ∧ value.contentRoot = contentRoot ∧
            MetadataTyped value.metadataRoot ∧ MetadataValid value.kind value.metadataRoot)) := by
      intro kind hcode
      refine (readMetadata_accepts htag hcode).map
        (fun metadata => (⟨kind, refCount, contentRoot, metadata⟩ : InodeValue ObjectId))
        (fun _ _ => rfl) fun value => ?_
      constructor
      · rintro ⟨rfl, hvalue, rfl, rfl, htyped, hvalid⟩
        exact ⟨value.metadataRoot, rfl, hvalue, htyped, hvalid⟩
      · rintro ⟨metadata, rfl, hvalue, htyped, hvalid⟩
        exact ⟨rfl, hvalue, rfl, rfl, htyped, hvalid⟩
    refine (Accepts.bind_of (fun value : InodeValue ObjectId => value.kind) hkind hmetadata).of_eq
      (fun value => ?_) fun value _ => rfl
    constructor
    · rintro ⟨⟨⟨⟨-, rfl⟩, rfl⟩, rfl⟩, hfits⟩
      exact ⟨tagOf_kind _ _, rfl, rfl, rfl, hfits⟩
    · rintro ⟨-, rfl, rfl, rfl, hfits⟩
      exact ⟨⟨⟨⟨trivial, rfl⟩, rfl⟩, rfl⟩, hfits⟩
  refine Accepts.record (.field_of
      (fun value : InodeValue ObjectId => tagOf value.kind value.metadataRoot)
      number_accepts fun tag htag =>
    .field InodeValue.namespaceRefCount number_accepts fun refCount =>
    .field InodeValue.contentRoot readBlock_accepts fun contentRoot =>
    hlast tag refCount contentRoot htag) (fun value => ?_) (fun _ => rfl)
  have htag := tagOf_lt value.kind value.metadataRoot
  rw [ValueTyped]
  tauto

theorem length_metadataBytes : (metadataBytes metadata).length = 32 := by
  rcases metadata with root | metadata
  · exact root.length_eq
  · simp only [metadataBytes, signedBytes, length_append, length_be, length_replicate]

theorem length_encodeInodeValue (value : InodeValue ObjectId) :
    (encodeInodeValue value).length = inodeValueBytes := by
  simp only [encodeInodeValue, length_append, length_be, length_metadataBytes,
    value.contentRoot.length_eq, inodeValueBytes]

theorem isBytes_encodeInodeValue (value : InodeValue ObjectId) :
    IsBytes (encodeInodeValue value) := by
  refine (isBytes_be 1 _).append ((isBytes_be 8 _).append (value.contentRoot.isBytes.append ?_))
  rcases value.metadataRoot with root | metadata
  · exact root.isBytes
  · exact (isBytes_be 4 _).append ((isBytes_be 8 _).append ((isBytes_be 4 _).append (by decide)))

/-- **What is accepted of a value**: the bytes of one whose metadata is valid for its kind. -/
theorem decodeInodeValue_eq_ok (hbytes : IsBytes bytes) {value : InodeValue ObjectId} :
    decodeInodeValue bytes = .ok value ↔ (ValueTyped value ∧
      MetadataValid value.kind value.metadataRoot) ∧ bytes = encodeInodeValue value := by
  rw [decodeInodeValue, check_bind_eq_ok, ensure_eq_ok, beq_iff_eq, bind_eq_ok]
  constructor
  · rintro ⟨hlength, ⟨found, rest⟩, hread, h⟩
    cases h
    obtain ⟨hvalue, rfl⟩ := (readInodeValue_accepts _ hbytes _ _).mp hread
    rw [length_append, length_encodeInodeValue] at hlength
    rw [length_eq_zero_iff.mp (by omega : rest.length = 0), append_nil]
    exact ⟨hvalue, rfl⟩
  · rintro ⟨hvalue, rfl⟩
    refine ⟨length_encodeInodeValue value, (value, []), ?_, rfl⟩
    exact (readInodeValue_accepts _ hbytes _ _).mpr ⟨hvalue, (append_nil _).symm⟩

/-! ## Page headers -/

/-- `NODE_HEADER_BYTES`. -/
def nodeHeaderBytes : ℕ := 31

/-- The fields of a page header, before any of them is checked. -/
structure PageHeader where
  magic : Bytes
  version : ℕ
  role : ℕ
  level : ℕ
  flags : ℕ
  count : ℕ
  subtreeCount : ℕ
  subtreeBytes : ℕ
  deriving DecidableEq

def PageHeader.frame (header : PageHeader) : Bytes :=
  header.magic ++ (be 2 header.version ++ (be 1 header.role ++ (be 1 header.level ++
    (be 1 header.flags ++ (be 2 header.count ++ (be 8 header.subtreeCount ++
      be 8 header.subtreeBytes))))))

def PageHeader.Fits (header : PageHeader) : Prop :=
  (header.magic.length = 8 ∧ IsBytes header.magic) ∧ header.version < 256 ^ 2 ∧
    header.role < 256 ^ 1 ∧ header.level < 256 ^ 1 ∧ header.flags < 256 ^ 1 ∧
    header.count < 256 ^ 2 ∧ header.subtreeCount < 256 ^ 8 ∧ header.subtreeBytes < 256 ^ 8

def readPageHeader : Reading ContentError PageHeader := do
  let magic ← takeExactly .unexpectedEof 8
  let version ← number .unexpectedEof 2
  let role ← number .unexpectedEof 1
  let level ← number .unexpectedEof 1
  let flags ← number .unexpectedEof 1
  let count ← number .unexpectedEof 2
  let subtreeCount ← number .unexpectedEof 8
  let subtreeBytes ← number .unexpectedEof 8
  return ⟨magic, version, role, level, flags, count, subtreeCount, subtreeBytes⟩

theorem readPageHeader_accepts : Accepts readPageHeader PageHeader.frame PageHeader.Fits := by
  refine Accepts.record (.field PageHeader.magic takeExactly_accepts fun magic =>
    .field PageHeader.version number_accepts fun version =>
    .field PageHeader.role number_accepts fun role =>
    .field PageHeader.level number_accepts fun level =>
    .field PageHeader.flags number_accepts fun flags =>
    .field PageHeader.count number_accepts fun count =>
    .field PageHeader.subtreeCount number_accepts fun subtreeCount =>
    .field PageHeader.subtreeBytes number_accepts fun subtreeBytes =>
    .done fun header => ?_) (fun header => ?_) (fun header => ?_)
  · rw [PageHeader.mk.injEq]
    tauto
  · rw [and_true]
    rfl
  · rw [append_nil]
    rfl

variable {header : PageHeader}

theorem length_pageHeader (h : header.magic.length = 8) :
    header.frame.length = nodeHeaderBytes := by
  simp only [PageHeader.frame, length_append, length_be, h, nodeHeaderBytes]

theorem isBytes_pageHeader (h : IsBytes header.magic) : IsBytes header.frame :=
  h.append ((isBytes_be 2 _).append ((isBytes_be 1 _).append ((isBytes_be 1 _).append
    ((isBytes_be 1 _).append ((isBytes_be 2 _).append ((isBytes_be 8 _).append
      (isBytes_be 8 _)))))))

/-! ## Inode leaves -/

/-- `INODE_LEAF_MAGIC`: `LFS6INT` and a zero. -/
def inodeLeafMagic : Bytes := [0x4C, 0x46, 0x53, 0x36, 0x49, 0x4E, 0x54, 0x00]
/-- `INODE_LEAF_VERSION`. -/
def inodeLeafVersion : ℕ := 1
/-- `LEAF_ROLE`. -/
def leafRole : ℕ := 7
/-- `MAXIMUM_LEAF_ROWS`. -/
def maximumLeafRows : ℕ := 100
/-- `MAXIMUM_NODE_OBJECT_BYTES`. -/
def maximumNodeObjectBytes : ℕ := 8192

/-- One row of an inode leaf page: its value in bytes, as the page has it. -/
structure InodeLeafRow where
  serial : ℕ
  value : Block 73
  deriving DecidableEq

/-- One decoded inode leaf page. -/
structure InodeLeaf where
  /-- serialized bytes covered by this page -/
  subtreeBytes : ℕ
  rows : List InodeLeafRow

def rowFrame (row : InodeLeafRow) : Bytes := be 8 row.serial ++ row.value.bytes

/-- The header of a leaf of `count` rows. -/
def leafHeader (count : ℕ) : PageHeader :=
  ⟨inodeLeafMagic, inodeLeafVersion, leafRole, 0, 0, count, count, count * leafRowBytes⟩

def leafFrame (rows : List InodeLeafRow) : Bytes :=
  (leafHeader rows.length).frame ++ (rows.map rowFrame).flatten

/-- `encode_leaf_value`: one checked leaf page value. -/
def encodeLeafValue (rows : List InodeLeafRow) : ContentResult Bytes := do
  ensure (rows.length != 0 && decide (rows.length ≤ maximumLeafRows)) .nonCanonicalPagePartition
  ensure (strictlyOrdered (rows.map InodeLeafRow.serial)) (.invalidRecord "inode key order")
  ensure (rows.all fun row => row.serial != 0) (.invalidRecord "inode serial")
  ensure (decide (rows.length * leafRowBytes < u64Bound)) .lengthOverflow
  ensure (decide (rows.length < 65536)) .lengthOverflow
  return leafFrame rows

/-- A row behind the serial of the one before it: its serial, its bytes and its value. -/
def readLeafRow (previous : Option ℕ) :
    Reading ContentError (ℕ × Block 73 × InodeValue ObjectId) := do
  let serial ← number .unexpectedEof 8
  result (ensure (serial != 0) (.invalidRecord "inode serial"))
  result (ensure (previous.all (· < serial)) (.invalidRecord "inode key order"))
  let bytes ← readBlock .unexpectedEof 73
  let decoded ← result (decodeInodeValue bytes.bytes)
  return (serial, bytes, decoded)

/-- `decode_leaf_value_with`: every checked row, mapped. -/
def decodeLeafValueWith {T : Type} (map : ℕ → Block 73 → InodeValue ObjectId → T)
    (value : Bytes) : ContentResult (List T) := do
  ensure (decide (nodeHeaderBytes ≤ value.length)) .unexpectedEof
  let (header, body) ← readPageHeader.run value
  ensure (header.magic == inodeLeafMagic) .unsupportedFraming
  ensure (header.version == inodeLeafVersion) (.unsupportedMappingVersion header.version)
  ensure (header.role == leafRole && header.level == 0) (.invalidRecord "inode leaf role/level")
  ensure (header.flags == 0) (.invalidRecord "node flags")
  let count := header.count
  ensure (count != 0 && decide (count ≤ maximumLeafRows) && header.subtreeCount == count)
    .nonCanonicalPagePartition
  let rowsBytes := count * leafRowBytes
  ensure (value.length == nodeHeaderBytes + rowsBytes) (.invalidRecord "inode leaf length")
  ensure (header.subtreeBytes == rowsBytes) (.lengthMismatch rowsBytes header.subtreeBytes)
  let ((rows, _), _) ← (readFold readLeafRow (fun _ row => some row.1) count none).run body
  return rows.map fun row => map row.1 row.2.1 row.2.2

/-- `decode_leaf_value`: the rows of one leaf page value. -/
def decodeLeafValue (value : Bytes) : ContentResult (List InodeLeafRow) :=
  decodeLeafValueWith (fun serial bytes _ => ⟨serial, bytes⟩) value

/-- `InodeLeaf::encode`: the canonical object of a leaf. -/
def InodeLeaf.encode (leaf : InodeLeaf) : ContentResult Bytes := do
  let value ← encodeLeafValue leaf.rows
  ensure (decide (leaf.rows.length * leafRowBytes < u64Bound)) .lengthOverflow
  let subtreeBytes := leaf.rows.length * leafRowBytes
  ensure (leaf.subtreeBytes == subtreeBytes) (.lengthMismatch subtreeBytes leaf.subtreeBytes)
  encodeBytesObject value

/-- `InodeLeaf::decode`: a leaf from its canonical object. -/
def InodeLeaf.decode (canonical : Bytes) : ContentResult InodeLeaf := do
  ensure (decide (canonical.length ≤ maximumNodeObjectBytes))
    (.objectLimitExceeded maximumNodeObjectBytes canonical.length)
  let value ← decodeBytesObject canonical
  let rows ← decodeLeafValue value
  return ⟨rows.length * leafRowBytes, rows⟩

/-- **Rows a leaf can be written with**: not too many, in order, and never the serial zero. -/
structure WritableRows (rows : List InodeLeafRow) : Prop where
  pos : 0 < rows.length
  length_le : rows.length ≤ maximumLeafRows
  ascending : (rows.map InodeLeafRow.serial).Pairwise (· < ·)
  serial_ne : ∀ row ∈ rows, row.serial ≠ 0

def RowsTyped (rows : List InodeLeafRow) : Prop := ∀ row ∈ rows, row.serial < 256 ^ 8

def ValuesValid (rows : List InodeLeafRow) : Prop :=
  ∀ row ∈ rows, ∃ value, decodeInodeValue row.value.bytes = .ok value

def rowsOf (found : List (ℕ × Block 73 × InodeValue ObjectId)) : List InodeLeafRow :=
  found.map fun row => ⟨row.1, row.2.1⟩

theorem length_leafFrame (rows : List InodeLeafRow) :
    (leafFrame rows).length = nodeHeaderBytes + rows.length * leafRowBytes := by
  have hrows : (rows.map rowFrame).flatten.length = rows.length * leafRowBytes := by
    induction rows with
    | nil => rfl
    | cons row rest ih =>
      rw [map_cons, flatten_cons, length_append, ih, rowFrame, length_append,
        length_be, row.value.length_eq, length_cons, Nat.succ_mul, leafRowBytes]
      omega
  rw [leafFrame, length_append, length_pageHeader rfl, hrows]

theorem isBytes_leafFrame (rows : List InodeLeafRow) : IsBytes (leafFrame rows) := by
  refine (isBytes_pageHeader ?_).append (isBytes_flatten fun frame hframe => ?_)
  · have hmagic : IsBytes inodeLeafMagic := by decide
    exact hmagic
  · obtain ⟨row, -, rfl⟩ := mem_map.mp hframe
    exact (isBytes_be 8 _).append row.value.isBytes

variable {rows : List InodeLeafRow}

/-- **What is written of a leaf value.** -/
theorem encodeLeafValue_eq_ok :
    encodeLeafValue rows = .ok value ↔ WritableRows rows ∧ value = leafFrame rows := by
  rw [encodeLeafValue]
  simp only [check_bind_eq_ok, ensure_eq_ok, Bool.and_eq_true, bne_iff_ne, decide_eq_true_eq,
    strictlyOrdered_iff, all_eq_true]
  constructor
  · rintro ⟨⟨hpos, hmost⟩, hordered, hserials, -, -, h⟩
    cases h
    exact ⟨⟨Nat.pos_of_ne_zero hpos, hmost, hordered, hserials⟩, rfl⟩
  · rintro ⟨⟨hpos, hmost, hordered, hserials⟩, rfl⟩
    have hmost' : rows.length ≤ 100 := hmost
    have hbound : 100 * leafRowBytes < u64Bound := by decide
    have hbytes : rows.length * leafRowBytes ≤ 100 * leafRowBytes :=
      Nat.mul_le_mul_right _ hmost'
    exact ⟨⟨hpos.ne', hmost⟩, hordered, hserials, hbytes.trans_lt hbound, by omega, rfl⟩

/-! ### What is accepted of a leaf -/

def RowFits (previous : Option ℕ) (row : ℕ × Block 73 × InodeValue ObjectId) : Prop :=
  row.1 < 256 ^ 8 ∧ row.1 ≠ 0 ∧ (∀ p ∈ previous, p < row.1) ∧
    decodeInodeValue row.2.1.bytes = .ok row.2.2

theorem readLeafRow_accepts (previous : Option ℕ) :
    Accepts (readLeafRow previous) (fun row => be 8 row.1 ++ row.2.1.bytes) (RowFits previous) := by
  have hlast : ∀ (serial : ℕ) (bytes : Block 73),
      Accepts (result (decodeInodeValue bytes.bytes) >>= fun decoded =>
          pure (serial, bytes, decoded)) (fun _ => [])
        (fun row => (row.1 = serial ∧ row.2.1 = bytes) ∧
          decodeInodeValue row.2.1.bytes = .ok row.2.2) := by
    intro serial bytes
    have hdecode : Accepts (result (decodeInodeValue bytes.bytes)) (fun _ => [])
        (fun decoded => decodeInodeValue bytes.bytes = .ok decoded) :=
      Accepts.result fun _ => Iff.rfl
    refine hdecode.map (fun decoded => (serial, bytes, decoded)) (fun _ _ => rfl) fun row => ?_
    constructor
    · rintro ⟨⟨rfl, rfl⟩, h⟩
      exact ⟨row.2.2, rfl, h⟩
    · rintro ⟨decoded, rfl, h⟩
      exact ⟨⟨rfl, rfl⟩, h⟩
  refine Accepts.record (.field Prod.fst number_accepts fun serial =>
    .test (fun row : ℕ × Block 73 × InodeValue ObjectId => row.1 ≠ 0)
      (by rw [ensure_eq_ok, bne_iff_ne]) (fun row h => by rw [h.2]) <|
    .test (fun row => ∀ p ∈ previous, p < row.1)
      ensure_eq_ok
      (fun row h => by simp only [h.2, Option.all_eq_true, decide_eq_true_eq, Option.mem_def]) <|
    .field (fun row => row.2.1) readBlock_accepts fun bytes =>
    .rest (fun row => decodeInodeValue row.2.1.bytes = .ok row.2.2) (hlast serial bytes)
      fun row => by rw [true_and]) (fun row => ?_) (fun row => ?_)
  · rw [RowFits]
    tauto
  · rw [append_nil]

theorem threads_rows {found : List (ℕ × Block 73 × InodeValue ObjectId)} :
    ∀ {previous : Option ℕ}, Threads RowFits (fun _ row => some row.1) previous found ↔
      (∀ row ∈ found, RowFits none row ∧ ∀ p ∈ previous, p < row.1) ∧
        (found.map Prod.fst).Pairwise (· < ·) := by
  induction found with
  | nil =>
    intro previous
    exact ⟨fun _ => ⟨forall_mem_nil _, List.Pairwise.nil⟩, fun _ => trivial⟩
  | cons row rest ih =>
    intro previous
    rw [Threads, ih, map_cons, pairwise_cons, forall_mem_cons]
    have hnone : ∀ r, RowFits previous r ↔ RowFits none r ∧ ∀ p ∈ previous, p < r.1 := by
      intro r
      rw [RowFits, RowFits]
      simp only [Option.mem_def, reduceCtorEq, false_implies, implies_true, true_and]
      tauto
    rw [hnone]
    constructor
    · rintro ⟨⟨hfits, hpast⟩, hrest, hordered⟩
      refine ⟨⟨⟨hfits, hpast⟩, fun r hr => ⟨(hrest r hr).1, fun p hp => ?_⟩⟩, ?_, hordered⟩
      · exact (hpast p hp).trans ((hrest r hr).2 row.1 rfl)
      · intro k hk
        obtain ⟨r, hr, rfl⟩ := mem_map.mp hk
        exact (hrest r hr).2 row.1 rfl
    · rintro ⟨⟨⟨hfits, hpast⟩, hrest⟩, hlt, hordered⟩
      refine ⟨⟨hfits, hpast⟩, fun r hr => ⟨(hrest r hr).1, fun p hp => ?_⟩, hordered⟩
      cases hp
      exact hlt r.1 (mem_map_of_mem hr)

/-- Decoded rows of a leaf. -/
structure FoundRows (found : List (ℕ × Block 73 × InodeValue ObjectId)) : Prop where
  writable : WritableRows (rowsOf found)
  typed : RowsTyped (rowsOf found)
  decoded : ∀ row ∈ found, decodeInodeValue row.2.1.bytes = .ok row.2.2

theorem leafHeader_fits {count : ℕ} (h : count ≤ maximumLeafRows) : (leafHeader count).Fits := by
  have hmagic : inodeLeafMagic.length = 8 ∧ IsBytes inodeLeafMagic := by decide
  have h' : count ≤ 100 := h
  have hpow : (100 * leafRowBytes : ℕ) < 256 ^ 8 ∧ (100 : ℕ) < 256 ^ 2 ∧ (100 : ℕ) < 256 ^ 8 ∧
    inodeLeafVersion < 256 ^ 2 ∧ leafRole < 256 ^ 1 ∧ 0 < 256 ^ 1 := by decide
  have hbytes : count * leafRowBytes ≤ 100 * leafRowBytes := Nat.mul_le_mul_right _ h'
  obtain ⟨h1, h2, h3, h4, h5, h6⟩ := hpow
  exact ⟨hmagic, h4, h5, h6, h6, h'.trans_lt h2, h'.trans_lt h3, hbytes.trans_lt h1⟩

/-- **What is accepted of a leaf value**, with any use of its rows. -/
theorem decodeLeafValueWith_eq_ok {T : Type} {map : ℕ → Block 73 → InodeValue ObjectId → T}
    (hbytes : IsBytes value) {out : List T} :
    decodeLeafValueWith map value = .ok out ↔ ∃ found, FoundRows found ∧
      value = leafFrame (rowsOf found) ∧ out = found.map fun row => map row.1 row.2.1 row.2.2 := by
  have hframes : ∀ found : List (ℕ × Block 73 × InodeValue ObjectId),
      (found.map fun row => be 8 row.1 ++ row.2.1.bytes).flatten =
        ((rowsOf found).map rowFrame).flatten := by
    intro found
    rw [rowsOf, map_map]
    rfl
  have hserials : ∀ found : List (ℕ × Block 73 × InodeValue ObjectId),
      (rowsOf found).map InodeLeafRow.serial = found.map Prod.fst := by
    intro found
    rw [rowsOf, map_map]
    rfl
  have hlength : ∀ found : List (ℕ × Block 73 × InodeValue ObjectId),
      (rowsOf found).length = found.length := fun found => length_map _
  constructor
  · intro h
    rw [decodeLeafValueWith, check_bind_eq_ok] at h
    obtain ⟨-, h⟩ := h
    obtain ⟨⟨header, body⟩, hheader, h⟩ := bind_eq_ok.mp h
    obtain ⟨hfits, rfl⟩ := (readPageHeader_accepts _ hbytes _ _).mp hheader
    simp only [check_bind_eq_ok, ensure_eq_ok, beq_iff_eq, Bool.and_eq_true, bne_iff_ne,
      decide_eq_true_eq] at h
    obtain ⟨hmagic, hversion, ⟨hrole, hlevel⟩, hflags, ⟨⟨hpos, hmost⟩, hcount⟩, hwidth, htotal,
      h⟩ := h
    obtain ⟨⟨⟨found, last⟩, rest⟩, hrows, h⟩ := bind_eq_ok.mp h
    cases h
    obtain ⟨⟨hfound, hthreads, -⟩, hbody⟩ :=
      (Accepts.fold readLeafRow_accepts header.count none _ hbytes.of_append.2 _ _).mp hrows
    dsimp only at hfound hthreads hbody
    obtain ⟨hall, hordered⟩ := threads_rows.mp hthreads
    have hsame : header = leafHeader (rowsOf found).length := by
      rw [hlength, hfound, leafHeader, PageHeader.mk.injEq]
      exact ⟨hmagic, hversion, hrole, hlevel, hflags, rfl, hcount, htotal⟩
    have hframe : header.frame ++ body = leafFrame (rowsOf found) ++ rest := by
      rw [hbody, hsame, hframes, leafFrame, append_assoc]
    have hrest : rest = [] := by
      have hlen := congrArg List.length hframe
      rw [hwidth, length_append, length_leafFrame, hlength, hfound] at hlen
      exact length_eq_zero_iff.mp (by omega)
    rw [hrest, append_nil] at hframe
    refine ⟨found, ⟨⟨?_, ?_, ?_, ?_⟩, ?_, fun row hrow => (hall row hrow).1.2.2.2⟩, hframe, rfl⟩
    · rw [hlength, hfound]
      exact Nat.pos_of_ne_zero hpos
    · rwa [hlength, hfound]
    · rwa [hserials]
    · intro row hrow
      obtain ⟨r, hr, rfl⟩ := mem_map.mp hrow
      exact (hall r hr).1.2.1
    · intro row hrow
      obtain ⟨r, hr, rfl⟩ := mem_map.mp hrow
      exact (hall r hr).1.1
  · rintro ⟨found, ⟨⟨hpos, hmost, hordered, hne⟩, htyped, hdecoded⟩, rfl, rfl⟩
    have hwidth := length_leafFrame (rowsOf found)
    have hread := (readPageHeader_accepts _ hbytes (leafHeader (rowsOf found).length)
      ((rowsOf found).map rowFrame).flatten).mpr ⟨leafHeader_fits hmost, rfl⟩
    have hthreads : Threads RowFits (fun _ row => some row.1) none found := by
      refine threads_rows.mpr ⟨fun row hrow => ⟨⟨?_, ?_, ?_, hdecoded row hrow⟩, ?_⟩, ?_⟩
      · exact htyped _ (mem_map_of_mem hrow)
      · exact hne _ (mem_map_of_mem hrow)
      · exact fun p hp => by cases hp
      · exact fun p hp => by cases hp
      · rwa [hserials] at hordered
    have hrows := (Accepts.fold readLeafRow_accepts (rowsOf found).length none _
      hbytes.of_append.2 (found, found.foldl (fun _ row => some row.1) none) []).mpr
      ⟨⟨(hlength found).symm, hthreads, rfl⟩, by rw [append_nil]; exact (hframes found).symm⟩
    rw [decodeLeafValueWith, ensure_pass _ (decide_eq_true (by omega)), ok_bind, hread, ok_bind]
    simp only [check_bind_eq_ok, ensure_eq_ok, beq_iff_eq, Bool.and_eq_true, bne_iff_ne,
      leafHeader, and_self, true_and, and_true]
    exact ⟨⟨hpos.ne', decide_eq_true hmost⟩, hwidth, bind_eq_ok.mpr ⟨_, hrows, rfl⟩⟩

/-- **What is accepted of a leaf value.** -/
theorem decodeLeafValue_eq_ok (hbytes : IsBytes value) :
    decodeLeafValue value = .ok rows ↔
      (WritableRows rows ∧ RowsTyped rows ∧ ValuesValid rows) ∧ value = leafFrame rows := by
  rw [decodeLeafValue, decodeLeafValueWith_eq_ok hbytes]
  constructor
  · rintro ⟨found, ⟨hwritable, htyped, hdecoded⟩, rfl, rfl⟩
    refine ⟨⟨hwritable, htyped, fun row hrow => ?_⟩, rfl⟩
    obtain ⟨r, hr, rfl⟩ := mem_map.mp hrow
    exact ⟨r.2.2, hdecoded r hr⟩
  · rintro ⟨⟨hwritable, htyped, hvalid⟩, rfl⟩
    have hfound : ∃ found : List (ℕ × Block 73 × InodeValue ObjectId), rowsOf found = rows ∧
        ∀ row ∈ found, decodeInodeValue row.2.1.bytes = .ok row.2.2 := by
      clear hbytes hwritable htyped
      induction rows with
      | nil => exact ⟨[], rfl, forall_mem_nil _⟩
      | cons row rest ih =>
        obtain ⟨value, hvalue⟩ := hvalid row mem_cons_self
        obtain ⟨found, rfl, hall⟩ := ih fun r hr => hvalid r (mem_cons_of_mem _ hr)
        exact ⟨(row.serial, row.value, value) :: found, rfl,
          forall_mem_cons.mpr ⟨hvalue, hall⟩⟩
    obtain ⟨found, rfl, hall⟩ := hfound
    exact ⟨found, ⟨hwritable, htyped, hall⟩, rfl, rfl⟩

def leafObject (rows : List InodeLeafRow) : Bytes := envelope (leafFrame rows)

theorem length_leafFrame_le (h : WritableRows rows) : (leafFrame rows).length ≤ 8131 := by
  have hmost : rows.length ≤ 100 := h.length_le
  have hrows : rows.length * leafRowBytes ≤ 100 * leafRowBytes := Nat.mul_le_mul_right _ hmost
  have hwidth : 100 * leafRowBytes = 8100 := by decide
  rw [length_leafFrame, nodeHeaderBytes]
  omega

variable {leaf : InodeLeaf}

/-- **What is written of a leaf**: nothing is asked of its values. -/
theorem encodeLeaf_eq_ok :
    leaf.encode = .ok canonical ↔ WritableRows leaf.rows ∧
      leaf.subtreeBytes = leaf.rows.length * leafRowBytes ∧ canonical = leafObject leaf.rows := by
  rw [InodeLeaf.encode, bind_eq_ok]
  simp only [check_bind_eq_ok, ensure_eq_ok, decide_eq_true_eq, beq_iff_eq,
    encodeBytesObject_eq_ok, encodeLeafValue_eq_ok, leafObject]
  constructor
  · rintro ⟨value, ⟨hrows, rfl⟩, -, hbytes, -, rfl⟩
    exact ⟨hrows, hbytes, rfl⟩
  · rintro ⟨hrows, hbytes, rfl⟩
    have hlength := length_leafFrame_le hrows
    have hmost : leaf.rows.length ≤ 100 := hrows.length_le
    have hbound : 100 * leafRowBytes < u64Bound := by decide
    have hwidth : leaf.rows.length * leafRowBytes ≤ 100 * leafRowBytes :=
      Nat.mul_le_mul_right _ hmost
    refine ⟨_, ⟨hrows, rfl⟩, hwidth.trans_lt hbound, hbytes, ?_, rfl⟩
    rw [maximumObjectFieldBytes]
    omega

/-- **What is accepted of a leaf**: its values are in the grammar. -/
theorem decodeLeaf_eq_ok (hbytes : IsBytes canonical) :
    InodeLeaf.decode canonical = .ok leaf ↔
      (WritableRows leaf.rows ∧ RowsTyped leaf.rows ∧ ValuesValid leaf.rows) ∧
        leaf.subtreeBytes = leaf.rows.length * leafRowBytes ∧
        canonical = leafObject leaf.rows := by
  rw [InodeLeaf.decode, check_bind_eq_ok, ensure_eq_ok, decide_eq_true_eq, bind_eq_ok]
  constructor
  · rintro ⟨-, value, hvalue, h⟩
    obtain ⟨-, rfl⟩ := (decodeBytesObject_eq_ok hbytes).mp hvalue
    obtain ⟨rows, hrows, h⟩ := bind_eq_ok.mp h
    cases h
    obtain ⟨hall, rfl⟩ := (decodeLeafValue_eq_ok (isBytes_of_envelope hbytes)).mp hrows
    exact ⟨hall, rfl, rfl⟩
  · rintro ⟨hall, htotal, rfl⟩
    have hlength := length_leafFrame_le hall.1
    refine ⟨?_, leafFrame leaf.rows, (decodeBytesObject_eq_ok hbytes).mpr ⟨?_, rfl⟩,
      bind_eq_ok.mpr ⟨leaf.rows,
        (decodeLeafValue_eq_ok (isBytes_leafFrame leaf.rows)).mpr ⟨hall, rfl⟩, ?_⟩⟩
    · rw [leafObject, length_envelope, maximumNodeObjectBytes]
      omega
    · rw [maximumObjectFieldBytes]
      omega
    · rw [← htotal]
      rfl

/-! ## Pooled bodies -/

/-- `POOLED_PREFIX_BYTES`. -/
def pooledPrefixBytes : ℕ := 44
/-- `POOLED_ROW_BYTES`. -/
def pooledRowBytes : ℕ := 12

/-- `pooled_physical_length`: the width of the pooled body of a leaf. -/
def pooledPhysicalLength (canonicalLength : ℕ) : ContentResult ℕ := do
  ensure (decide (pooledPrefixBytes ≤ canonicalLength)) (.invalidRecord "pooled leaf length")
  let payload := canonicalLength - pooledPrefixBytes
  ensure (!(payload == 0 || payload % leafRowBytes != 0
      || decide (maximumLeafRows < payload / leafRowBytes)))
    (.invalidRecord "pooled leaf count")
  return pooledPrefixBytes + payload / leafRowBytes * pooledRowBytes

/-- One row of a pooled body. -/
structure PooledRow where
  serial : ℕ
  ordinal : ℕ
  deriving DecidableEq

def pooledRowFrame (row : PooledRow) : Bytes := be 8 row.serial ++ be 4 row.ordinal

/-- `PoolingLeaf::body`: the prefix of a leaf, and its rows with ordinals for values. -/
def poolingBody (canonical : Bytes) (leaf : InodeLeaf) (ordinals : List ℕ) :
    ContentResult Bytes := do
  ensure (!(ordinals.length != leaf.rows.length || ordinals.any (· == 0)))
    (.invalidRecord "pooled ordinal count")
  let _ ← pooledPhysicalLength canonical.length
  return canonical.take pooledPrefixBytes ++
    ((leaf.rows.zip ordinals).map fun row => pooledRowFrame ⟨row.1.serial, row.2⟩).flatten

/-- `pooled_body`: the pooled physical body of a leaf. -/
def pooledBody (canonical : Bytes) (ordinals : List ℕ) : ContentResult Bytes := do
  let leaf ← InodeLeaf.decode canonical
  poolingBody canonical leaf ordinals

def overwrite (bytes : Bytes) (offset : ℕ) (written : Bytes) : Bytes :=
  bytes.take offset ++ (written ++ bytes.drop (offset + written.length))

/-- The prefix of a pooled body with the count and the totals written into it, from its byte 13
on. -/
def stamped (start : Bytes) (count : ℕ) : Bytes :=
  overwrite (overwrite (overwrite start 13 (be 2 count)) 15 (be 8 count)) 23
    (be 8 (count * leafRowBytes))

def readPooledRow : Reading ContentError PooledRow := do
  let serial ← number .unexpectedEof 8
  let ordinal ← number .unexpectedEof 4
  result (ensure (ordinal != 0) (.invalidRecord "pooled ordinal"))
  return ⟨serial, ordinal⟩

/-- `decode_pooled_body`: the prefix and the rows of a pooled body. -/
def decodePooledBody (body : Bytes) : ContentResult (Bytes × List PooledRow) := do
  ensure (decide (pooledPrefixBytes ≤ body.length)) .unexpectedEof
  let payload := body.length - pooledPrefixBytes
  ensure (!(payload == 0 || payload % pooledRowBytes != 0)) (.invalidRecord "pooled body rows")
  let count := payload / pooledRowBytes
  ensure (decide (count ≤ maximumLeafRows)) .nonCanonicalPagePartition
  let (rows, _) ← (readMany readPooledRow count).run (body.drop pooledPrefixBytes)
  ensure (strictlyOrdered (rows.map PooledRow.serial)) (.invalidRecord "pooled key order")
  return (stamped (body.take pooledPrefixBytes) count, rows)

/-- `rebuild_leaf`: the canonical leaf of the rows and their resolved values. Of the prefix only
the width is looked at. -/
def rebuildLeaf (start : Bytes) (rows : List PooledRow) (values : List (Block 73)) :
    ContentResult Bytes := do
  ensure (rows.length == values.length) (.invalidRecord "pooled value count")
  ensure (start.length == pooledPrefixBytes) (.invalidRecord "pooled prefix width")
  InodeLeaf.encode ⟨rows.length * leafRowBytes,
    (rows.zip values).map fun row => ⟨row.1.serial, row.2⟩⟩

/-! ### Rebuilding a leaf -/

theorem length_overwrite {written : Bytes} {offset : ℕ} (h : offset + written.length ≤ bytes.length)
    :
    (overwrite bytes offset written).length = bytes.length := by
  rw [overwrite, length_append, length_append, length_take, length_drop]
  omega

theorem length_stamped (h : start.length = pooledPrefixBytes) (count : ℕ) :
    (stamped start count).length = pooledPrefixBytes := by
  have h' : start.length = 44 := h
  have hcount : (overwrite start 13 (be 2 count)).length = 44 := by
    rw [length_overwrite, h']
    rw [length_be, h']
    decide
  have htotal : (overwrite (overwrite start 13 (be 2 count)) 15 (be 8 count)).length = 44 := by
    rw [length_overwrite, hcount]
    rw [length_be, hcount]
    decide
  rw [stamped, length_overwrite, htotal, pooledPrefixBytes]
  rw [length_be, htotal]
  decide

theorem readPooledRow_reads {row : PooledRow} (hserial : row.serial < 256 ^ 8)
    (hpos : row.ordinal ≠ 0) (hordinal : row.ordinal < 256 ^ 4) :
    Reads readPooledRow (pooledRowFrame row) row := by
  have hcheck : (ensure (row.ordinal != 0) (.invalidRecord "pooled ordinal") :
      ContentResult Unit) = .ok () := ensure_eq_ok.mpr (bne_iff_ne.mpr hpos)
  have hlast : Reads (result (ensure (row.ordinal != 0) (.invalidRecord "pooled ordinal")) >>=
      fun _ => (pure row : Reading ContentError PooledRow)) [] row :=
    Reads.after hcheck (Reads.pure row)
  have hread := (number_reads (e := ContentError.unexpectedEof) hordinal).bind
    (f := fun ordinal => result (ensure (ordinal != 0) (.invalidRecord "pooled ordinal")) >>=
      fun _ => (pure ⟨row.serial, ordinal⟩ : Reading ContentError PooledRow)) hlast
  rw [append_nil] at hread
  exact (number_reads hserial).bind hread

def pooledRows (rows : List InodeLeafRow) (ordinals : List ℕ) : List PooledRow :=
  (rows.zip ordinals).map fun row => ⟨row.1.serial, row.2⟩

theorem length_pooledFrames (rows : List PooledRow) :
    (rows.map pooledRowFrame).flatten.length = rows.length * pooledRowBytes := by
  induction rows with
  | nil => rfl
  | cons row rest ih =>
    rw [map_cons, flatten_cons, length_append, ih, pooledRowFrame,
      length_append, length_be, length_be, length_cons, Nat.succ_mul, pooledRowBytes]
    omega

theorem length_leafObject (rows : List InodeLeafRow) :
    (leafObject rows).length = pooledPrefixBytes + rows.length * leafRowBytes := by
  rw [leafObject, length_envelope, length_leafFrame, nodeHeaderBytes, pooledPrefixBytes]
  omega

/-- **The pooled body of a leaf** is its prefix and its serials with the ordinals. -/
theorem pooledBody_eq (hbytes : IsBytes canonical) (hleaf : InodeLeaf.decode canonical = .ok leaf)
    {ordinals : List ℕ} (hlength : ordinals.length = leaf.rows.length)
    (hpos : ∀ ordinal ∈ ordinals, ordinal ≠ 0) :
    pooledBody canonical ordinals = .ok (canonical.take pooledPrefixBytes ++
      ((pooledRows leaf.rows ordinals).map pooledRowFrame).flatten) := by
  obtain ⟨⟨⟨hrows, hmost, -, -⟩, -, -⟩, -, hcanonical⟩ := (decodeLeaf_eq_ok hbytes).mp hleaf
  have hwidth : canonical.length = pooledPrefixBytes + leaf.rows.length * leafRowBytes := by
    rw [hcanonical, length_leafObject]
  have hphysical : pooledPhysicalLength canonical.length =
      .ok (pooledPrefixBytes + leaf.rows.length * pooledRowBytes) := by
    have hsub : canonical.length - pooledPrefixBytes = leaf.rows.length * leafRowBytes := by
      omega
    have hdiv : leaf.rows.length * leafRowBytes / leafRowBytes = leaf.rows.length :=
      Nat.mul_div_cancel _ (by decide)
    rw [pooledPhysicalLength, ensure_pass _ (decide_eq_true (by omega)), ok_bind]
    dsimp only
    rw [hsub, hdiv, ensure_pass]
    · rfl
    · rw [Nat.mul_mod_left]
      have hne : leaf.rows.length * leafRowBytes ≠ 0 :=
        Nat.mul_ne_zero hrows.ne' (by decide)
      simp only [bne_self_eq_false, Bool.or_false, Bool.not_or, Bool.and_eq_true,
        Bool.not_eq_true', beq_eq_false_iff_ne, decide_eq_false_iff_not, not_lt]
      exact ⟨hne, hmost⟩
  have hany : ordinals.any (· == 0) = false := by
    rw [any_eq_false]
    exact fun ordinal h => by rw [beq_iff_eq]; exact hpos ordinal h
  rw [pooledBody, hleaf, ok_bind, poolingBody, ensure_pass, ok_bind, hphysical, ok_bind,
    pooledRows, map_map]
  · rfl
  · rw [hany, hlength, bne_self_eq_false]
    rfl

/-- **A pooled body is taken apart again**: its stamped prefix, and its rows. -/
theorem decodePooledBody_eq (hstart : start.length = pooledPrefixBytes) {rows : List PooledRow}
    (hpos : 0 < rows.length) (hmost : rows.length ≤ maximumLeafRows)
    (hordered : (rows.map PooledRow.serial).Pairwise (· < ·))
    (hrows : ∀ row ∈ rows, row.serial < 256 ^ 8 ∧ row.ordinal ≠ 0 ∧ row.ordinal < 256 ^ 4) :
    decodePooledBody (start ++ (rows.map pooledRowFrame).flatten) =
      .ok (stamped start rows.length, rows) := by
  have hwidth := length_pooledFrames rows
  have hdrop : (start ++ (rows.map pooledRowFrame).flatten).drop pooledPrefixBytes =
      (rows.map pooledRowFrame).flatten := drop_left' hstart
  have htake : (start ++ (rows.map pooledRowFrame).flatten).take pooledPrefixBytes = start :=
    take_left' hstart
  have hsub : (start ++ (rows.map pooledRowFrame).flatten).length - pooledPrefixBytes =
      rows.length * pooledRowBytes := by
    rw [length_append, hstart, hwidth]
    omega
  have hdiv : rows.length * pooledRowBytes / pooledRowBytes = rows.length :=
    Nat.mul_div_cancel _ (by decide)
  have hread : (readMany readPooledRow rows.length).run (rows.map pooledRowFrame).flatten =
      .ok (rows, []) := by
    have h : Reads (readMany readPooledRow rows.length) (rows.map pooledRowFrame).flatten
        (rows.map id) := Reads.many fun row hrow =>
      readPooledRow_reads (hrows row hrow).1 (hrows row hrow).2.1 (hrows row hrow).2.2
    have hrun := h []
    rwa [append_nil, map_id] at hrun
  have hnonempty : (!(rows.length * pooledRowBytes == 0 ||
      rows.length * pooledRowBytes % pooledRowBytes != 0)) = true := by
    have hne : rows.length * pooledRowBytes ≠ 0 := Nat.mul_ne_zero hpos.ne' (by decide)
    rw [Nat.mul_mod_left, bne_self_eq_false, Bool.or_false, Bool.not_eq_true',
      beq_eq_false_iff_ne]
    exact hne
  rw [decodePooledBody, ensure_pass _ (decide_eq_true (by rw [length_append]; omega)), ok_bind]
  dsimp only
  rw [hsub, ensure_pass _ hnonempty, ok_bind, hdiv, ensure_pass _ (decide_eq_true hmost), ok_bind,
    hdrop, hread, ok_bind]
  dsimp only
  rw [ensure_pass _ ((strictlyOrdered_iff _).mpr hordered), ok_bind, htake]
  rfl

theorem zip_pooledRows :
    ∀ {ordinals : List ℕ}, ordinals.length = rows.length →
      (((pooledRows rows ordinals).zip (rows.map InodeLeafRow.value)).map fun row =>
        (⟨row.1.serial, row.2⟩ : InodeLeafRow)) = rows := by
  induction rows with
  | nil => exact fun _ => rfl
  | cons row rest ih =>
    intro ordinals hlength
    cases ordinals with
    | nil => cases hlength
    | cons ordinal later =>
      exact congrArg (row :: ·) (ih (Nat.succ.inj hlength))

/-- **A leaf is rebuilt**: from its pooled body, for any assignment of ordinals to its values, and
the values these ordinals stand for. -/
theorem rebuildLeaf_pooledBody {canonical : Bytes} (hbytes : IsBytes canonical) {leaf : InodeLeaf}
    (hleaf : InodeLeaf.decode canonical = .ok leaf) {ordinals : List ℕ}
    (hordinals : ∀ ordinal ∈ ordinals, ordinal ≠ 0 ∧ ordinal < 256 ^ 4) {resolve : ℕ → Block 73}
    (hresolve : ordinals.map resolve = leaf.rows.map InodeLeafRow.value) :
    ∃ body start rows, pooledBody canonical ordinals = .ok body ∧
      decodePooledBody body = .ok (start, rows) ∧
      rebuildLeaf start rows (rows.map fun row => resolve row.ordinal) = .ok canonical := by
  obtain ⟨⟨hwritable, htyped, -⟩, hbytes', hcanonical⟩ := (decodeLeaf_eq_ok hbytes).mp hleaf
  have hlength : ordinals.length = leaf.rows.length := by
    have h := congrArg List.length hresolve
    rwa [length_map, length_map] at h
  have hpooled : (pooledRows leaf.rows ordinals).length = leaf.rows.length := by
    rw [pooledRows, length_map, length_zip, hlength, min_self]
  have hserials : (pooledRows leaf.rows ordinals).map PooledRow.serial =
      leaf.rows.map InodeLeafRow.serial := by
    rw [pooledRows, map_map]
    refine Eq.trans (map_map (f := Prod.fst) (g := InodeLeafRow.serial)).symm ?_
    rw [map_fst_zip hlength.ge]
  have hvalues : ((pooledRows leaf.rows ordinals).map fun row => resolve row.ordinal) =
      leaf.rows.map InodeLeafRow.value := by
    rw [← hresolve, pooledRows, map_map]
    refine Eq.trans (map_map (f := Prod.snd) (g := resolve)).symm ?_
    rw [map_snd_zip hlength.le]
  have hstart : (canonical.take pooledPrefixBytes).length = pooledPrefixBytes := by
    rw [length_take, hcanonical, length_leafObject]
    omega
  have hfits : ∀ row ∈ pooledRows leaf.rows ordinals,
      row.serial < 256 ^ 8 ∧ row.ordinal ≠ 0 ∧ row.ordinal < 256 ^ 4 := by
    intro row hrow
    obtain ⟨⟨r, ordinal⟩, hin, rfl⟩ := mem_map.mp hrow
    obtain ⟨hr, ho⟩ := of_mem_zip hin
    exact ⟨htyped r hr, hordinals ordinal ho⟩
  refine ⟨_, _, _, pooledBody_eq hbytes hleaf hlength fun ordinal h => (hordinals ordinal h).1,
    decodePooledBody_eq hstart (hpooled ▸ hwritable.pos) (hpooled ▸ hwritable.length_le)
      (by rw [hserials]; exact hwritable.ascending) hfits, ?_⟩
  rw [rebuildLeaf, ensure_pass, ok_bind, ensure_pass, ok_bind, hvalues, zip_pooledRows hlength,
    encodeLeaf_eq_ok]
  · exact ⟨hwritable, by rw [hpooled], hcanonical⟩
  · rw [length_stamped hstart, beq_self_eq_true]
  · rw [length_map, beq_self_eq_true]

theorem isBytes_zeros : IsBytes (List.replicate 32 0) := by decide

theorem length_zeros : (List.replicate 32 (0 : ℕ)).length = 32 := rfl

def zeroId : ObjectId := ⟨List.replicate 32 0, length_zeros, isBytes_zeros⟩

def zeroFile : InodeValue ObjectId := ⟨.regularFile, 1, zeroId, .root zeroId⟩

/-- A leaf of two files is rebuilt from its pooled body, where both have the value of ordinal 7. -/
theorem rebuildLeaf_pooledBody_two :
    let value : Block 73 := ⟨encodeInodeValue zeroFile, length_encodeInodeValue zeroFile,
      isBytes_encodeInodeValue zeroFile⟩
    let leaf := leafObject [⟨3, value⟩, ⟨5, value⟩]
    ∃ body start rows, pooledBody leaf [7, 7] = .ok body ∧
      decodePooledBody body = .ok (start, rows) ∧
      rebuildLeaf start rows (rows.map fun _ => value) = .ok leaf := by
  intro value leaf
  have hbytes : IsBytes leaf := isBytes_envelope (isBytes_leafFrame _)
  have hleaf : InodeLeaf.decode leaf = .ok ⟨2 * leafRowBytes, [⟨3, value⟩, ⟨5, value⟩]⟩ := by
    refine (decodeLeaf_eq_ok hbytes).mpr ⟨⟨⟨by decide, by decide, ?_, by decide⟩, ?_, ?_⟩,
      rfl, rfl⟩
    · exact pairwise_pair.mpr (by decide)
    · simp [RowsTyped]
    · have hvalue : ∃ decoded, decodeInodeValue value.bytes = .ok decoded :=
        ⟨zeroFile, (decodeInodeValue_eq_ok value.isBytes).mpr ⟨⟨⟨by decide, trivial⟩, trivial⟩, rfl⟩⟩
      simpa [ValuesValid] using hvalue
  have hseven : ∀ ordinal ∈ [7, 7], ordinal ≠ 0 ∧ ordinal < 256 ^ 4 := by decide
  have hvalue : [7, 7].map (fun _ => value) =
      [InodeLeafRow.mk 3 value, ⟨5, value⟩].map InodeLeafRow.value := rfl
  exact rebuildLeaf_pooledBody hbytes hleaf hseven hvalue

end InodeCodec

end LayerFs
