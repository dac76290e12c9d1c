import LayerFs.Mapping.Types
import LayerFs.Support.AssocMap

/-!
# Bounded extent traversal

A range of a chunked file is read level by level (`file/mapping/read.rs`): every mapping page the
range reaches at one level is demanded in waves of `readNavigationWave` pages, through a page
cache the caller owns, and payload demands are grouped into waves of their own.

* `PageCache` — pages by identity and context. The bound is enforced only by `makeRoomFor`, which
  empties the whole cache.

A provider is the partial function from identities to objects; a batch with an absent object is
refused whole.
-/

namespace LayerFs

variable {Id : Type} [DecidableEq Id]

/-! ## Bounds -/

def readWaveObjects : ℕ := 32
def readWaveBytes : ℕ := readWaveObjects * maximumChunkBytes
def readNavigationWave : ℕ := 32
def readNavigationCachePages : ℕ := 2 * readNavigationWave

/-- Work performed by a logical read. -/
structure ReadCounters where
  nodesRead : ℕ
  nodeBatchesRead : ℕ
  maxNodeBatch : ℕ
  payloadIdsRead : ℕ
  payloadBatchesRead : ℕ
  maxPayloadBatch : ℕ
  payloadBytesRead : ℕ
  deriving DecidableEq

/-- `ReadCounters::default`. -/
def ReadCounters.zero : ReadCounters := ⟨0, 0, 0, 0, 0, 0, 0⟩

/-- `merge`: adds one traversal's work to a cursor's running totals. -/
def ReadCounters.merge (total wave : ReadCounters) : ReadCounters where
  nodesRead := saturatingAdd total.nodesRead wave.nodesRead
  nodeBatchesRead := saturatingAdd total.nodeBatchesRead wave.nodeBatchesRead
  maxNodeBatch := max total.maxNodeBatch wave.maxNodeBatch
  payloadIdsRead := saturatingAdd total.payloadIdsRead wave.payloadIdsRead
  payloadBatchesRead := saturatingAdd total.payloadBatchesRead wave.payloadBatchesRead
  maxPayloadBatch := max total.maxPayloadBatch wave.maxPayloadBatch
  payloadBytesRead := saturatingAdd total.payloadBytesRead wave.payloadBytesRead

/-- `read_canonical_batch`: every demanded object in demand order, or a refusal. -/
def readCanonicalBatch (reader : Id → Option (MappingObject Id)) (ids : List Id) :
    ContentResult (List (MappingObject Id)) :=
  ids.mapM fun id => orError (reader id) .missingObject

def pushNew {α : Type} [DecidableEq α] (l : List α) (a : α) : List α :=
  if a ∈ l then l else l ++ [a]

/-! ## The page cache -/

/-- Mapping pages one operation has already acquired, by identity and context. -/
structure PageCache (Id : Type) where
  pages : AssocMap (Id × Bool) (MappingObject Id)
  /-- pages this cache refuses to exceed before it empties wholesale -/
  limit : ℕ

namespace PageCache

variable (cache : PageCache Id)

/-- Cache bounded by `limit` pages. -/
def bounded (limit : ℕ) : PageCache Id := ⟨.empty, max limit 1⟩

def new : PageCache Id := bounded readNavigationCachePages

def get (key : Id × Bool) : Option (MappingObject Id) := cache.pages.get? key

def insertAll (batch : List ((Id × Bool) × MappingObject Id)) : PageCache Id :=
  { cache with pages := cache.pages.insertAll batch }

/-- Empties the cache when `incoming` more pages would exceed the bound. -/
def makeRoomFor (incoming : ℕ) : PageCache Id :=
  if cache.pages.size + incoming > cache.limit then { cache with pages := .empty } else cache

end PageCache

/-! ## Waves -/

/-- One ordered payload demand inside a wave. -/
structure Demand (Id : Type) where
  id : Id
  sourceOffset : ℕ
  length : ℕ
  deriving DecidableEq

/-- One mapping node the traversal has still to reach. -/
structure FrontierNode (Id : Type) where
  id : Id
  root : Bool
  level : ℕ
  /-- file offset of the node's first byte -/
  origin : ℕ
  /-- length and extent count the root page must record -/
  expectedRoot : Option (ℕ × ℕ)
  deriving DecidableEq

def FrontierNode.key (node : FrontierNode Id) : Id × Bool := (node.id, node.root)

/-- One read in progress. -/
structure Wave (Id : Type) where
  sink : List UInt8
  cache : PageCache Id
  demands : List (Demand Id)
  distinct : List Id
  counters : ReadCounters

namespace Wave

variable (reader : Id → Option (MappingObject Id)) (wave : Wave Id)

def acquire (missing : List (Id × Bool)) : ContentResult (Wave Id) := do
  let cache := wave.cache.makeRoomFor missing.length
  let ids := missing.map Prod.fst
  let values ← readCanonicalBatch reader ids
  ensure (values.length == ids.length) (.batchCardinality ids.length values.length)
  return { wave with
    cache := cache.insertAll (missing.zip values)
    counters := { wave.counters with
      nodesRead := saturatingAdd wave.counters.nodesRead ids.length
      nodeBatchesRead := saturatingAdd wave.counters.nodeBatchesRead 1
      maxNodeBatch := max wave.counters.maxNodeBatch ids.length } }

def wanted (nodes : List (FrontierNode Id)) : List (Id × Bool) :=
  (nodes.map FrontierNode.key).foldl pushNew []

/-- `Wave::pages`: one level's pages in demand order, serving what the cache already holds. -/
def pages (nodes : List (FrontierNode Id)) : ContentResult (List (MappingObject Id) × Wave Id) := do
  let missing := (wanted nodes).filter fun key => (wave.cache.get key).isNone
  let wave ← if missing.isEmpty then .ok wave else wave.acquire reader missing
  let pages ← nodes.mapM fun node => orError (wave.cache.get node.key) .missingObject
  return (pages, wave)

def serve (payloads : List (Id × List UInt8)) (wave : Wave Id) (demand : Demand Id) :
    ContentResult (Wave Id) := do
  let payload ← orError (payloads.lookup demand.id) (.invalidRecord "demand index")
  ensure (decide (demand.sourceOffset + demand.length ≤ payload.length))
    (.invalidRecord "extent outside payload")
  let slice := (payload.drop demand.sourceOffset).take demand.length
  return { wave with
    sink := wave.sink ++ slice
    counters := { wave.counters with
      payloadBytesRead := saturatingAdd wave.counters.payloadBytesRead slice.length } }

/-- `Wave::flush`: acquires every distinct payload once and serves the demands in order. -/
def flush : ContentResult (Wave Id) :=
  if wave.demands.isEmpty then .ok wave else do
    let values ← readCanonicalBatch reader wave.distinct
    ensure (values.length == wave.distinct.length)
      (.batchCardinality wave.distinct.length values.length)
    let payloads ← values.mapM decodeChunkPayload
    let waveBytes := (payloads.map List.length).sum
    ensure (decide (waveBytes ≤ readWaveBytes)) (.objectLimitExceeded readWaveBytes waveBytes)
    let counted := { wave with counters := { wave.counters with
      payloadBatchesRead := saturatingAdd wave.counters.payloadBatchesRead 1
      payloadIdsRead := saturatingAdd wave.counters.payloadIdsRead wave.distinct.length
      maxPayloadBatch := max wave.counters.maxPayloadBatch wave.distinct.length } }
    let served ← wave.demands.foldlM (serve (wave.distinct.zip payloads)) counted
    return { served with demands := [], distinct := [] }

def makeRoom (id : Id) : ContentResult (Wave Id) :=
  if id ∉ wave.distinct ∧ readWaveObjects ≤ wave.distinct.length then wave.flush reader
  else .ok wave

/-- `Wave::push`: adds one demand, flushing at either limit. -/
def push (id : Id) (sourceOffset length : ℕ) : ContentResult (Wave Id) := do
  let wave ← wave.makeRoom reader id
  let wave := { wave with
    distinct := pushNew wave.distinct id
    demands := wave.demands ++ [⟨id, sourceOffset, length⟩] }
  if readWaveObjects * 4 ≤ wave.demands.length then wave.flush reader else .ok wave

end Wave

/-! ## The walk -/

/-- A half-open range of file offsets. -/
structure ByteRange where
  start : ℕ
  stop : ℕ
  deriving DecidableEq

section Walk

variable (reader : Id → Option (MappingObject Id)) (range : ByteRange)

/-- `push_extent`: demands the part of a slice inside the range; the position after it. -/
def pushExtent (extent : ExtentSlice Id) (position : ℕ) (wave : Wave Id) :
    ContentResult (ℕ × Wave Id) := do
  let stop ← checkedAdd position extent.logicalLength
  if stop ≤ range.start ∨ range.stop ≤ position then return (stop, wave) else do
    let localStart := max range.start position - position
    let localStop := min range.stop stop - position
    let length := localStop - localStart
    ensure (length != 0) (.invalidRecord "empty extent demand")
    let wave ← wave.push reader extent.payloadObjectId (extent.sourceOffset + localStart) length
    return (stop, wave)

def pushExtents : List (ExtentSlice Id) → ℕ → Wave Id → ContentResult (Wave Id)
  | [], _, wave => .ok wave
  | extent :: rest, position, wave => do
    let (position, wave) ← pushExtent reader range extent position wave
    pushExtents rest position wave

/-- The children of a branch the range reaches, and whether it ended inside the branch. Cumulative
ends are relative to the page, so each is rebased on the page's own offset. -/
def reachChildren (origin level : ℕ) : ℕ → List (ChildDescriptor Id) →
    ContentResult (List (FrontierNode Id) × Bool)
  | _, [] => .ok ([], false)
  | previous, child :: rest => do
    let stop ← checkedAdd origin child.cumulativeLogicalEnd
    if stop ≤ range.start then reachChildren origin level stop rest
    else if range.stop ≤ previous then return ([], true)
    else do
      let (reached, finished) ← reachChildren origin level stop rest
      return (⟨child.childObjectId, false, level, previous, none⟩ :: reached, finished)

/-- One decoded page of the level: its demands, or the nodes of the next level. -/
def visitPage (node : FrontierNode Id) (canonical : MappingObject Id) (wave : Wave Id) :
    ContentResult (List (FrontierNode Id) × Bool × Wave Id) := do
  let page ← decodeNodeWithContext canonical node.root
  ensure (page.level == node.level) (.invalidRecord "mapping level")
  ensure (node.expectedRoot.all fun expected =>
    page.logicalLen == expected.1 && page.extentCount == expected.2)
    (.invalidRecord "mapping coverage")
  match page with
  | .leaf _ extents => do
    let wave ← pushExtents reader range extents node.origin wave
    return ([], false, wave)
  | .branch _ _ _ children => do
    ensure (node.level != 0) .mappingDepthExceeded
    let (reached, finished) ← reachChildren range node.origin (node.level - 1) node.origin children
    return (reached, finished, wave)

/-- The pages of one navigation wave, in order, until the range has ended. -/
def visitPages : List (FrontierNode Id × MappingObject Id) → Wave Id →
    ContentResult (List (FrontierNode Id) × Bool × Wave Id)
  | [], wave => .ok ([], false, wave)
  | (node, canonical) :: rest, wave => do
    let (reached, finished, wave) ← visitPage reader range node canonical wave
    if finished then return (reached, true, wave) else do
      let (later, finished, wave) ← visitPages rest wave
      return (reached ++ later, finished, wave)

/-- Cuts a list into pieces of at most `size` elements; `fuel` bounds their number. -/
def chunksOf {α : Type} (size : ℕ) : ℕ → List α → List (List α)
  | 0, _ => []
  | fuel + 1, l => if l.isEmpty then [] else l.take size :: chunksOf size fuel (l.drop size)

/-- `chunks`: a level cut into navigation waves. -/
def navigationWaves (level : List (FrontierNode Id)) : List (List (FrontierNode Id)) :=
  chunksOf readNavigationWave level.length level

/-- The waves of one level, in order, until the range has ended; the nodes of the next level. -/
def visitWaves : List (List (FrontierNode Id)) → Wave Id →
    ContentResult (List (FrontierNode Id) × Wave Id)
  | [], wave => .ok ([], wave)
  | nodes :: rest, wave => do
    let (pages, wave) ← wave.pages reader nodes
    let (reached, finished, wave) ← visitPages reader range (nodes.zip pages) wave
    if finished then return (reached, wave) else do
      let (later, wave) ← visitWaves rest wave
      return (reached ++ later, wave)

/-- The levels, at most `remaining` of them. -/
def traverseLevels : ℕ → List (FrontierNode Id) → Wave Id → ContentResult (Wave Id)
  | 0, level, wave => if level.isEmpty then .ok wave else .error .mappingDepthExceeded
  | remaining + 1, level, wave =>
    if level.isEmpty then .ok wave else do
      let (next, wave) ← visitWaves reader range (navigationWaves level) wave
      traverseLevels remaining next wave

def rootFrontier (state : FileState Id) : FrontierNode Id :=
  ⟨state.mappingRoot, true, state.treeLevel, 0, some (state.logicalLen, state.extentCount)⟩

/-- `traverse`: walks the mapping tree one level per bounded navigation wave. -/
def traverse (state : FileState Id) (wave : Wave Id) : ContentResult (Wave Id) :=
  traverseLevels reader range (maximumLevel + 1) [rootFrontier state] wave

/-- The traversal, the final flush and the coverage check of one nonempty range. -/
def serveRange (state : FileState Id) (sink : List UInt8) (cache : PageCache Id) :
    ContentResult (Wave Id) := do
  let wave ← traverse reader range state ⟨sink, cache, [], [], .zero⟩
  let wave ← wave.flush reader
  ensure (wave.counters.payloadBytesRead == range.stop - range.start)
    (.invalidRecord "mapping coverage")
  return wave

/-- `read_range`: one range of a chunked file, through a cache of its own. The bytes appended to the
sink and the work done. -/
def readRange (state : FileState Id) (sink : List UInt8) :
    ContentResult (List UInt8 × ReadCounters) := do
  ensure (decide (range.start ≤ range.stop) && decide (range.stop ≤ state.logicalLen))
    (.invalidRange range.start range.stop state.logicalLen)
  if range.start = range.stop then return (sink, .zero) else do
    let wave ← serveRange reader range state sink .new
    return (wave.sink, wave.counters)

end Walk

/-! ## Ascending ranges -/

/-- Ordered reader of ascending ranges of one chunked file. -/
structure RangeCursor (Id : Type) where
  state : FileState Id
  counters : ReadCounters
  /-- position the range before the active one ended at -/
  segmentStart : ℕ

namespace RangeCursor

def new (state : FileState Id) : RangeCursor Id := ⟨state, .zero, 0⟩

variable (reader : Id → Option (MappingObject Id))

/-- `read_segment`: reads the next range, appending it to the sink. The cursor, the sink and the
caller's cache afterwards. -/
def readSegment (cursor : RangeCursor Id) (range : ByteRange) (sink : List UInt8)
    (pages : PageCache Id) : ContentResult (RangeCursor Id × List UInt8 × PageCache Id) := do
  ensure (decide (range.start ≤ range.stop) && decide (range.stop ≤ cursor.state.logicalLen)
    && decide (cursor.segmentStart ≤ range.start))
    (.invalidRange range.start range.stop cursor.state.logicalLen)
  let cursor := { cursor with segmentStart := range.stop }
  if range.start = range.stop then return (cursor, sink, pages) else do
    let wave ← serveRange reader range cursor.state sink pages
    return ({ cursor with counters := cursor.counters.merge wave.counters }, wave.sink, wave.cache)

def readSegments : RangeCursor Id → List ByteRange → List UInt8 → PageCache Id →
    ContentResult (RangeCursor Id × List UInt8 × PageCache Id)
  | cursor, [], sink, pages => .ok (cursor, sink, pages)
  | cursor, range :: rest, sink, pages => do
    let (cursor, sink, pages) ← readSegment reader cursor range sink pages
    readSegments cursor rest sink pages

end RangeCursor

end LayerFs
