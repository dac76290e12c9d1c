import LayerFs.Content.Basic

/-!
# Extent pages

The typed fields of a chunked file (`file/mapping/types.rs`): slices of chunk payloads, the pages
that hold them and the state that opens the tree, over an abstract type `Id` of object identities.

* `Mapped` — **a valid mapping tree**: every page passes the check of its context, all children
  lie one level lower, and every recorded total is the total of the subtree.
-/

namespace LayerFs

/-! ## Limits -/

def minimumEntries : ℕ := 64
def maximumEntries : ℕ := 128
def maximumLevel : ℕ := 31
def minimumRootEntries : ℕ := 2
/-- Largest chunk payload (`file/cdc/gear.rs`). -/
def maximumChunkBytes : ℕ := 32768

/-! ## Pages -/

/-- One slice of a canonical chunk payload used at a logical offset. -/
structure ExtentSlice (Id : Type) where
  /-- canonical chunk this slice reads from -/
  payloadObjectId : Id
  sourceOffset : ℕ
  /-- number of logical bytes this slice contributes -/
  logicalLength : ℕ
  nonempty : 0 < logicalLength
  /-- the slice lies inside a chunk payload -/
  inside : sourceOffset + logicalLength ≤ maximumChunkBytes
  deriving DecidableEq

/-- One child of a branch page with its cumulative totals. -/
structure ChildDescriptor (Id : Type) where
  /-- logical bytes covered by this child and every earlier sibling -/
  cumulativeLogicalEnd : ℕ
  /-- extents covered by this child and every earlier sibling -/
  cumulativeExtentEnd : ℕ
  childObjectId : Id
  deriving DecidableEq

/-- One canonical extent-tree page. -/
inductive ExtentNode (Id : Type) where
  /-- a page of payload slices, in logical order -/
  | leaf (subtreeLogicalBytes : ℕ) (extents : List (ExtentSlice Id))
  /-- a page of child summaries, in logical order -/
  | branch (level subtreeLogicalBytes subtreeExtentCount : ℕ)
      (children : List (ChildDescriptor Id))
  deriving DecidableEq

/-- Canonical root of a chunked file, without its profile identity. -/
structure FileState (Id : Type) where
  logicalLen : ℕ
  extentCount : ℕ
  treeLevel : ℕ
  mappingRoot : Id

/-- A canonical object as the mapping decoders tell it apart. -/
inductive MappingObject (Id : Type) where
  /-- an extent leaf or branch -/
  | page (node : ExtentNode Id)
  /-- a chunk payload -/
  | chunk (payload : List UInt8)

variable {Id : Type}

namespace ExtentSlice

/-- `ExtentSlice::new`: nonempty, and inside the largest chunk payload. -/
def new (payloadObjectId : Id) (sourceOffset logicalLength : ℕ) :
    ContentResult (ExtentSlice Id) :=
  if h : 0 < logicalLength ∧ sourceOffset + logicalLength ≤ maximumChunkBytes then
    .ok ⟨payloadObjectId, sourceOffset, logicalLength, h.1, h.2⟩
  else .error (.invalidRecord "extent slice")

def Touches (prior next : ExtentSlice Id) : Prop :=
  prior.payloadObjectId = next.payloadObjectId ∧
    prior.sourceOffset + prior.logicalLength = next.sourceOffset

instance [DecidableEq Id] (prior next : ExtentSlice Id) : Decidable (prior.Touches next) :=
  inferInstanceAs (Decidable (_ ∧ _))

end ExtentSlice

def totalBytes (extents : List (ExtentSlice Id)) : ℕ :=
  (extents.map ExtentSlice.logicalLength).sum

@[simp] theorem totalBytes_nil : totalBytes ([] : List (ExtentSlice Id)) = 0 := rfl

@[simp] theorem totalBytes_cons (extent : ExtentSlice Id) (rest : List (ExtentSlice Id)) :
    totalBytes (extent :: rest) = extent.logicalLength + totalBytes rest := by
  simp [totalBytes]

@[simp] theorem totalBytes_append (a b : List (ExtentSlice Id)) :
    totalBytes (a ++ b) = totalBytes a + totalBytes b := by
  simp [totalBytes]

theorem length_le_totalBytes (extents : List (ExtentSlice Id)) :
    extents.length ≤ totalBytes extents := by
  induction extents with
  | nil => exact le_refl 0
  | cons extent rest ih =>
    have := extent.nonempty
    rw [totalBytes_cons, List.length_cons]
    omega

namespace ExtentNode

def level : ExtentNode Id → ℕ
  | leaf _ _ => 0
  | branch level _ _ _ => level

def logicalLen : ExtentNode Id → ℕ
  | leaf bytes _ => bytes
  | branch _ bytes _ _ => bytes

def extentCount : ExtentNode Id → ℕ
  | leaf _ extents => extents.length
  | branch _ _ count _ => count

def entryCount : ExtentNode Id → ℕ
  | leaf _ extents => extents.length
  | branch _ _ _ children => children.length

/-- The leaf loop of `validate`: adjoining slices must not touch, lengths add up in `u64`. -/
def checkExtents [DecidableEq Id] : Option (ExtentSlice Id) → ℕ → List (ExtentSlice Id) →
    ContentResult ℕ
  | _, total, [] => .ok total
  | previous, total, extent :: rest => do
    ensure (!(previous.any fun prior => decide (prior.Touches extent))) .nonCanonicalPagePartition
    let total ← checkedAdd total extent.logicalLength
    checkExtents (some extent) total rest

/-- The branch loop of `validate`: cumulative ends grow strictly. -/
def checkChildren : ℕ → ℕ → List (ChildDescriptor Id) → ContentResult (ℕ × ℕ)
  | bytes, extents, [] => .ok (bytes, extents)
  | bytes, extents, child :: rest => do
    ensure (decide (bytes < child.cumulativeLogicalEnd)
      && decide (extents < child.cumulativeExtentEnd)) .nonCanonicalOrdering
    checkChildren child.cumulativeLogicalEnd child.cumulativeExtentEnd rest

/-- Checks the page partition, entry arithmetic and ordering. Only root pages may be short. -/
def validate [DecidableEq Id] (node : ExtentNode Id) (root : Bool) : ContentResult Unit := do
  ensure (decide (node.entryCount ≤ maximumEntries)
    && (root || decide (minimumEntries ≤ node.entryCount))) .nonCanonicalPagePartition
  match node with
  | leaf bytes extents =>
    let total ← checkExtents none 0 extents
    ensure (total == bytes) (.lengthMismatch bytes total)
  | branch level bytes count children =>
    ensure (decide (1 ≤ level) && decide (level ≤ maximumLevel)
      && !(root && decide (children.length < minimumRootEntries))) .nonCanonicalPagePartition
    let (ends, extents) ← checkChildren 0 0 children
    ensure (ends == bytes && extents == count) (.invalidRecord "extent branch summary")

end ExtentNode

/-- `decode_node_with_context`: the page of an object, checked in its context. -/
def decodeNodeWithContext [DecidableEq Id] (object : MappingObject Id) (root : Bool) :
    ContentResult (ExtentNode Id) :=
  match object with
  | .page node => do
    node.validate root
    return node
  | .chunk _ => .error .unsupportedFraming

/-- `decode_chunk_payload`: the payload of a chunk object. -/
def decodeChunkPayload (object : MappingObject Id) : ContentResult (List UInt8) :=
  match object with
  | .chunk payload => do
    ensure (decide (payload.length ≤ maximumChunkBytes))
      (.objectLimitExceeded maximumChunkBytes payload.length)
    return payload
  | .page _ => .error .wrongLogicalRole

/-! ## Valid mapping trees -/

/-- The cumulative ends of consecutive parts of the given sizes, from `start`. -/
def cumulative (start : ℕ) : List ℕ → List ℕ
  | [] => []
  | size :: rest => (start + size) :: cumulative (start + size) rest

/-- **A valid mapping tree** of the given level below a page of a store, with its slices in logical
order: every page passes the check of its context, all children of a branch lie exactly one level
lower, and every recorded byte and extent count is the subtree's own. -/
def Mapped [DecidableEq Id] (store : Id → Option (MappingObject Id)) :
    ℕ → Bool → Id → List (ExtentSlice Id) → Prop
  | 0, root, id, extents =>
    store id = some (.page (.leaf (totalBytes extents) extents)) ∧
      (ExtentNode.leaf (totalBytes extents) extents).validate root = .ok ()
  | level + 1, root, id, extents =>
    ∃ (children : List (ChildDescriptor Id)) (parts : List (List (ExtentSlice Id))),
      extents = parts.flatten ∧
      store id = some (.page (.branch (level + 1) (totalBytes extents) extents.length children)) ∧
      (ExtentNode.branch (level + 1) (totalBytes extents) extents.length children).validate root =
        .ok () ∧
      children.map ChildDescriptor.cumulativeLogicalEnd = cumulative 0 (parts.map totalBytes) ∧
      children.map ChildDescriptor.cumulativeExtentEnd = cumulative 0 (parts.map List.length) ∧
      List.Forall₂ (fun child part => Mapped store level false child.childObjectId part)
        children parts

def payloadOf (store : Id → Option (MappingObject Id)) (id : Id) : List UInt8 :=
  match store id with
  | some (.chunk payload) => payload
  | _ => []

def sliceBytes (store : Id → Option (MappingObject Id)) (extent : ExtentSlice Id) : List UInt8 :=
  ((payloadOf store extent.payloadObjectId).drop extent.sourceOffset).take extent.logicalLength

def bytesOf (store : Id → Option (MappingObject Id)) (extents : List (ExtentSlice Id)) :
    List UInt8 := extents.flatMap (sliceBytes store)

def InChunk (store : Id → Option (MappingObject Id)) (extent : ExtentSlice Id) : Prop :=
  ∃ payload, store extent.payloadObjectId = some (.chunk payload) ∧
    extent.sourceOffset + extent.logicalLength ≤ payload.length ∧
    payload.length ≤ maximumChunkBytes

/-- **A chunked file**: a file state that opens a valid mapping tree over stored chunks. -/
structure ChunkedFile [DecidableEq Id] (store : Id → Option (MappingObject Id))
    (state : FileState Id) (extents : List (ExtentSlice Id)) : Prop where
  mapped : Mapped store state.treeLevel true state.mappingRoot extents
  logicalLen_eq : state.logicalLen = totalBytes extents
  extentCount_eq : state.extentCount = extents.length
  /-- lengths are `u64` values -/
  logicalLen_lt : state.logicalLen < u64Bound
  inChunk : ∀ extent ∈ extents, InChunk store extent

end LayerFs
