import LayerFs.Cdc.Chunks
import LayerFs.Compare.Bytes
import LayerFs.Mapping.Finish
import LayerFs.Object.Envelope

/-!
# Construction of a complete file (`file/construction/bytes.rs`)

A file is constructed from its bytes or from a stream. A short one is a single object, an empty or a
long one a file state over the chunks the scanner cuts.

* `constructBytes`, `constructStream` — **the constructors**, without a predecessor, whose hints are
  advisory.
-/

namespace LayerFs.Files

open List ExtentBuilder

variable {Id : Type} [DecidableEq Id] (identify : FileObject Id → Id)

/-! ## Policy (`contract/policy.rs`) -/

/-- `ConstructionPolicy`, once `validated`: its cutoff. -/
structure ConstructionPolicy where
  smallFileThresholdBytes : ℕ
  power : smallFileThresholdBytes.isPowerOfTwo
  atLeast : 131072 ≤ smallFileThresholdBytes
  atMost : smallFileThresholdBytes ≤ 1048576

inductive Representation where
  | empty
  | wholeFile
  | chunked

/-- The capacities the constructors check. -/
structure ConstructionCapacities where
  wholeFileRawLimit : ℕ
  wholeFileCanonicalLimit : ℕ
  streamFlushEntries : ℕ

/-- `WHOLE_FILE_CANONICAL_OVERHEAD`. -/
def wholeFileCanonicalOverhead : ℕ := 23

namespace ConstructionPolicy

def representation (policy : ConstructionPolicy) (logicalLen : ℕ) : Representation :=
  if logicalLen = 0 then .empty
  else if logicalLen < policy.smallFileThresholdBytes then .wholeFile
  else .chunked

def capacities (policy : ConstructionPolicy) : ConstructionCapacities where
  wholeFileRawLimit := policy.smallFileThresholdBytes - 1
  wholeFileCanonicalLimit := policy.smallFileThresholdBytes - 1 + wholeFileCanonicalOverhead
  streamFlushEntries := ExtentBuilder.streamFlushEntries

end ConstructionPolicy

/-! ## Objects (`bytes.rs`) -/

/-- `WHOLE_VALUE_HEADER`. -/
def wholeValueHeader : ℕ := 10

/-- `encode_whole_file`: the object of a short file, within both limits. -/
def encodeWholeFile (capacities : ConstructionCapacities) (bytes : List UInt8) :
    ContentResult (FileObject Id) := do
  ensure (!bytes.isEmpty && decide (bytes.length ≤ capacities.wholeFileRawLimit))
    (.boundedCapacityExceeded "construction.whole_file" capacities.wholeFileRawLimit bytes.length)
  let canonical ← Codec.canonicalLen (wholeValueHeader + bytes.length)
  ensure (decide (canonical ≤ capacities.wholeFileCanonicalLimit))
    (.boundedCapacityExceeded "construction.whole_file_canonical"
      capacities.wholeFileCanonicalLimit canonical)
  return .whole bytes

/-- `ConstructedFile`, without the counters of an edit. -/
structure ConstructedFile (Id : Type) where
  root : Id
  logicalLen : ℕ

/-- `emit_empty_leaf`. -/
def emitEmptyLeaf : Construction Id (NodeSummary Id) := emitNode identify (.leaf 0 []) true

def stateOf (root : NodeSummary Id) : FileState Id :=
  ⟨root.bytes, root.extents, root.level, root.id⟩

/-- `emit_file_state`. -/
def emitFileState (root : NodeSummary Id) : Construction Id Id := do
  ensure (decide ((stateOf root).treeLevel ≤ maximumLevel)) (.invalidRecord "file state profile")
  Construction.accept ⟨.state (stateOf root), none⟩
  return identify (.state (stateOf root))

/-! ## Scanning into a builder -/

/-- The chunks of a scan, each pushed as it ends. -/
def pushScanned (builder : ExtentBuilder Id) (chunks : List (List UInt8)) :
    Construction Id (ExtentBuilder Id) :=
  chunks.foldlM (fun builder chunk => pushChunk identify builder chunk none) builder

/-- `FastCdc::scan` over the reads of a source. -/
def scanInto : List (List UInt8) → Scanner → ExtentBuilder Id → ℕ →
    Construction Id (ExtentBuilder Id × ℕ)
  | [], scanner, builder, scanned => do
    let builder ← pushScanned identify builder scanner.finish
    return (builder, scanned)
  | read :: rest, scanner, builder, scanned => do
    let scanned ← checkedAdd scanned read.length
    let builder ← pushScanned identify builder (scanner.consume read).2
    scanInto rest (scanner.consume read).1 builder scanned

/-- `build_streaming`. -/
def buildStreaming (capacities : ConstructionCapacities) (reads : List (List UInt8)) :
    Construction Id (MappingBuild Id) := do
  let (builder, scanned) ← scanInto identify reads .new (.new capacities.streamFlushEntries) 0
  ensure (scanned == builder.logicalLen) (.invalidRecord "chunk accounting")
  builder.finish identify

/-- The mapping root of a build: an empty leaf where nothing arrived. -/
def mappingRoot (build : MappingBuild Id) : Construction Id (NodeSummary Id) :=
  match build.root with
  | some root => pure root
  | none => emitEmptyLeaf identify

/-- `construct_chunked`. -/
def constructChunked (capacities : ConstructionCapacities) (reads : List (List UInt8)) :
    Construction Id (ConstructedFile Id) := do
  let build ← buildStreaming identify capacities reads
  let summary ← mappingRoot identify build
  let root ← emitFileState identify summary
  return ⟨root, summary.bytes⟩

/-! ## Bytes and streams -/

def cutReads : ℕ → List UInt8 → List (List UInt8)
  | 0, _ => []
  | turns + 1, bytes =>
    if bytes.isEmpty then []
    else bytes.take maximumChunkBytes :: cutReads turns (bytes.drop maximumChunkBytes)

/-- What reads into the scanner's input buffer find in the pieces a source hands out. -/
def readsOf (pieces : List (List UInt8)) : List (List UInt8) :=
  pieces.flatMap fun piece => cutReads piece.length piece

/-- `construct_bytes`. -/
def constructBytes (policy : ConstructionPolicy) (capacities : ConstructionCapacities)
    (bytes : List UInt8) : Construction Id (ConstructedFile Id) :=
  match policy.representation bytes.length with
  | .wholeFile => do
    let object ← encodeWholeFile capacities bytes
    Construction.accept ⟨object, none⟩
    return ⟨identify object, bytes.length⟩
  | .empty | .chunked => constructChunked identify capacities (readsOf [bytes])

/-- `read_at_most`: the first bytes of a source and the pieces left of it. -/
def readAtMost : ℕ → List (List UInt8) → List UInt8 × List (List UInt8)
  | _, [] => ([], [])
  | limit, piece :: rest =>
    if piece.length ≤ limit then
      let (read, later) := readAtMost (limit - piece.length) rest
      (piece ++ read, later)
    else (piece.take limit, piece.drop limit :: rest)

/-- `construct_stream`. -/
def constructStream (policy : ConstructionPolicy) (capacities : ConstructionCapacities)
    (source : List (List UInt8)) : Construction Id (ConstructedFile Id) :=
  let (probe, later) := readAtMost policy.smallFileThresholdBytes source
  if probe.length < policy.smallFileThresholdBytes then
    constructBytes identify policy capacities probe
  else constructChunked identify capacities (readsOf (probe :: later))

end LayerFs.Files
