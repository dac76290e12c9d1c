import LayerFs.Save.Packer
import LayerFs.Support.Precedence
import LayerFs.Support.Walk

/-!
# Publication of a save

One save as a session over the persistence port (`save/publication.rs`, `save/source.rs`,
`read/fetch.rs`): its state, its reads through the committed store and its own sealed packs, and
the publication of everything that is ready.

* `Encoder` — representation selection and its caches, as the functions a save calls. Selection
  reads the store through a `View` session and has no other effect.
-/

namespace LayerFs

namespace Save

/-! ## Limits (`store/policy.rs`) -/

/-- Objects one read may demand, and the bound of each locator page. -/
def readObjectLimit : ℕ := 4096
def readCanonicalBytesLimit : ℕ := 32 * 1024 * 1024
def groupCountLimit : ℕ := 256
def groupTarget : ℕ := 48 * 1024
def groupCanonicalBytesLimit : ℕ := 512 * 1024
def metadataIndexValues : ℕ := 131072

/-- The bounds a save works under (`StorageCapacities`, `ReservationBlocks`). -/
structure Capacities where
  batchObjects : ℕ
  batchBytes : ℕ
  transactionRows : ℕ
  transactionBytes : ℕ
  transactionPhysicalBytes : ℕ
  readObjects : ℕ
  reservePacks : ℕ
  reserveOrdinals : ℕ

section Encoder

variable (Id Value : Type)

/-- What selection may ask the committed store and the save's own sealed packs. -/
inductive ViewCall where
  | location (id : Id)
  | baseLocation (id : Id)
  | inodeValues (ordinals : List ℕ)

def ViewReply : ViewCall Id → Type
  | .location _ => Option (StoredObject Id Value)
  | .baseLocation _ => Option (StoredObject Id Value)
  | .inodeValues _ => List Value

def viewPort : Port Unit := ⟨ViewCall Id, ViewReply Id Value, fun _ _ _ _ => True⟩

abbrev View (α : Type) := Session (viewPort Id Value) (StorageResult Id α)

/-- One stored leaf named as a likely predecessor, with the cost of reading it. -/
structure Base where
  id : Id
  rows : List (Value × ℕ)
  depth : ℕ
  chainCanonical : ℕ
  chainEncoded : ℕ

/-- Representation selection and leaf grammar (`encoding/`). -/
structure Encoder where
  framing : Framing Id
  /-- candidate ring, depth and body caches -/
  Ring : Type
  clearDepths : Ring → Ring
  /-- signature rows to write, and the ring without them -/
  flushRing : Ring → Ring × List (SignatureRow Id)
  /-- base the ring proposes for a whole file -/
  propose : Ring → FinalizedObject Id → StorageResult Id (Option Id)
  /-- lane, record and base of an object that is no inode leaf -/
  select : Ring → FinalizedObject Id → View Id Value ((PackLane × List UInt8 × Option Id) × Ring)
  framedLength : List UInt8 → StorageResult Id ℕ
  /-- framed size of a group of so many records and bytes -/
  framedGroupLength : ℕ → ℕ → StorageResult Id ℕ
  laneBodyLimit : PackLane → ℕ
  /-- the values of an inode leaf's rows -/
  decodeLeaf : List UInt8 → StorageResult Id (List Value)
  fingerprint : Value → ℕ
  /-- depth and work of reading a stored leaf; absent when it cannot be a base -/
  baseCost : Ring → StoredObject Id Value → View Id Value (Option (ℕ × ℕ × ℕ) × Ring)
  /-- record and base of a leaf with its ordinals -/
  encodeLeaf : FinalizedObject Id → List (Value × ℕ) → List (Base Id Value) →
    StorageResult Id (List UInt8 × Option Id)

end Encoder

/-! ## The state of a save -/

variable {Id Value : Type}

/-- Acknowledged admission counts. -/
structure WriteOutcome where
  inserted : ℕ
  reused : ℕ
  fullRecords : ℕ
  prefixRecords : ℕ
  packs : ℕ
  canonicalBytes : ℕ
  storedBytes : ℕ
  metadataBytes : ℕ
  deriving DecidableEq

/-- `WriteOutcome::default`. -/
def WriteOutcome.zero : WriteOutcome := ⟨0, 0, 0, 0, 0, 0, 0, 0⟩

/-- One producer's state. Retained positive locations are not part of it: a published location
never changes, so asking again gives the same row. -/
structure State (encoder : Encoder Id Value) where
  /-- identities the committed store did not hold when it was last asked -/
  absent : List Id
  batch : List (FinalizedObject Id)
  batchBytes : ℕ
  ring : encoder.Ring
  signatures : SortedMap ℕ (SignatureRow Id)
  packer : Packer Value encoder.framing
  /-- values assigned and not published yet, by ordinal -/
  values : SortedMap ℕ Value
  /-- fingerprint of each value assigned and its ordinal -/
  valueMemo : AssocMap ℕ ℕ
  nextOrdinal : ℕ
  ordinalEnd : ℕ
  finishing : Bool
  outcome : WriteOutcome
  nextPack : ℤ
  packEnd : ℤ

variable [LinearOrder Id]

def SaveM (encoder : Encoder Id Value) (α : Type) : Type :=
  State encoder → Session (storePort : Port (Store Id Value)) (StorageResult Id (α × State encoder))

variable {encoder : Encoder Id Value}

namespace SaveM

variable {α β : Type}

instance : Monad (SaveM encoder) where
  pure a := fun state => .done (.ok (a, state))
  bind m f := fun state => (m state).bind fun result =>
    match result with
    | .ok (a, state) => f a state
    | .error e => .done (.error e)

def fail (e : StorageError Id) : SaveM encoder α := fun _ => .done (.error e)

def lift (x : StorageResult Id α) : SaveM encoder α := fun state =>
  .done (match x with
    | .ok a => .ok (a, state)
    | .error e => .error e)

/-- Refuses with `e` unless the check holds. -/
def check (condition : Bool) (e : StorageError Id) : SaveM encoder Unit := lift (ensure condition e)

def get : SaveM encoder (State encoder) := fun state => .done (.ok (state, state))

def modify (f : State encoder → State encoder) : SaveM encoder Unit := fun state =>
  .done (.ok ((), f state))

def ask (call : Call Id Value) : SaveM encoder (Reply call) := fun state =>
  .ask call fun reply => .done (.ok (reply, state))

def answer (reply : Except PersistenceError α) : SaveM encoder α :=
  lift (match reply with
    | .ok a => .ok a
    | .error e => .error (.persistence e))

def onPacker (step : Packer Value encoder.framing → ℤ → ℤ →
    StorageResult Id (Packer Value encoder.framing × ℤ)) : SaveM encoder Unit := do
  let state ← get
  let (packer, next) ← lift (step state.packer state.nextPack state.packEnd)
  modify fun state => { state with packer := packer, nextPack := next }

end SaveM

open SaveM

/-! ## Reads (`read/fetch.rs`, `save/source.rs`) -/

/-- Marks an identity absent; the marks are dropped whole at their bound. -/
def markAbsent (absent : List Id) (id : Id) : List Id :=
  let kept := if readObjectLimit ≤ absent.length then [] else absent
  if id ∈ kept then kept else kept ++ [id]

/-- `begin_demand`: forgets what was absent. -/
def beginDemand : SaveM encoder Unit := modify fun state => { state with absent := [] }

/-- `invalidate`: forgets what was absent of some identities. -/
def invalidate (ids : List Id) : SaveM encoder Unit :=
  modify fun state => { state with absent := state.absent.filter fun id => id ∉ ids }

/-- Locates one page of identities and marks those that are absent. -/
def locatePage (page : List Id) : SaveM encoder (List (StoredObject Id Value)) := do
  let reply ← ask (.locate page)
  let rows ← answer reply
  modify fun state => { state with
    absent := (page.filter fun id => id ∉ rows.map StoredObject.id).foldl markAbsent state.absent }
  return rows

def locatePages : List (List Id) → SaveM encoder Unit
  | [] => return ()
  | page :: rest => do
    let _ ← locatePage page
    locatePages rest

/-- `Fetch::locate`. -/
def locate (ids : List Id) : SaveM encoder Unit := do
  let state ← get
  locatePages (windows readObjectLimit [] (sortDedup (ids.filter fun id => id ∉ state.absent)))

/-- `Fetch::location`: the published row of an identity, unless it is marked absent. -/
def fetchLocation (id : Id) : SaveM encoder (Option (StoredObject Id Value)) := do
  let state ← get
  if id ∈ state.absent then return none else do
    let rows ← locatePage [id]
    return rows.find? fun row => row.id == id

/-- `WaveSource::location`: the save's own sealed row, else the published one. -/
def viewLocation (id : Id) : SaveM encoder (Option (StoredObject Id Value)) := do
  let state ← get
  match state.packer.location id with
  | some row => return some row
  | none => fetchLocation id

/-- `WaveSource::base_location`: as above, asking again for what is marked absent. -/
def viewBaseLocation (id : Id) : SaveM encoder (Option (StoredObject Id Value)) := do
  let state ← get
  match state.packer.location id with
  | some row => return some row
  | none => do
    invalidate [id]
    fetchLocation id

def valuePages : List (List ℕ) → SaveM encoder (List (ℕ × Value))
  | [] => return []
  | page :: rest => do
    let reply ← ask (.inodeValues page)
    let rows ← answer reply
    let later ← valuePages rest
    return rows ++ later

/-- `Fetch::inode_values`: the published values of some ordinals. -/
def fetchValues (ordinals : List ℕ) : SaveM encoder (List (ℕ × Value)) := do
  check (!decide (0 ∈ ordinals)) (.integrity "metadata ordinal")
  valuePages (windows readObjectLimit [] (sortDedup ordinals))

/-- `WaveSource::inode_values`: values assigned by this save, else published ones. -/
def viewValues (ordinals : List ℕ) : SaveM encoder (List Value) := do
  let state ← get
  let stored := ordinals.filter fun ordinal => (state.values.get? ordinal).isNone
  let found ← fetchValues stored
  lift (ordinals.mapM fun ordinal =>
    match (state.values.get? ordinal).or (found.lookup ordinal) with
    | some value => .ok value
    | none => .error (.integrity "metadata ordinal missing"))

def runView {α : Type} : View Id Value α → SaveM encoder α
  | .done result => lift result
  | .ask (.location id) next => do
    let row ← viewLocation id
    runView (next row)
  | .ask (.baseLocation id) next => do
    let row ← viewBaseLocation id
    runView (next row)
  | .ask (.inodeValues ordinals) next => do
    let values ← viewValues ordinals
    runView (next values)

/-! ## Acknowledgement -/

/-- `resolve`: the canonical bytes of a sealed or published object. -/
def resolve (id : Id) : SaveM encoder (List UInt8) := do
  match ← viewLocation id with
  | some row => return row.member.object.canonical
  | none => fail (.objectMissing id)

def resolveAll : List Id → SaveM encoder (List (List UInt8))
  | [] => return []
  | id :: rest => do
    let value ← resolve id
    let later ← resolveAll rest
    return value :: later

def publishedRows : List Id → SaveM encoder (List (StoredObject Id Value))
  | [] => return []
  | id :: rest => do
    match ← fetchLocation id with
    | some row => do
      let later ← publishedRows rest
      return row :: later
    | none => fail (.objectMissing id)

/-- `Reader::read_objects`: the published canonical bytes of several objects. -/
def readPublished (capacities : Capacities) (ids : List Id) : SaveM encoder (List (List UInt8)) := do
  check (decide (ids.length ≤ capacities.readObjects))
    (.capacityExceeded "storage.read_objects" capacities.readObjects ids.length)
  beginDemand
  locate ids
  let rows ← publishedRows ids
  let bytes := (rows.map fun row => row.location.canonicalLength).sum
  check (decide (bytes ≤ readCanonicalBytesLimit))
    (.capacityExceeded "storage.read_canonical_bytes" readCanonicalBytesLimit bytes)
  return rows.map fun row => row.member.object.canonical

/-- The winner of each lost object holds the same bytes under the same role. -/
def checkWinners (members : SortedMap Id (StoredObject Id Value)) :
    List (Id × List UInt8 × List UInt8) → SaveM encoder Unit
  | [] => return ()
  | (id, expected, actual) :: rest => do
    match ← fetchLocation id with
    | none => fail (.objectMissing id)
    | some winner => do
      let role := (members.get? id).map fun stored => stored.location.role
      check (decide (actual = expected) && decide (some winner.location.role = role))
        (.collision id)
      checkWinners members rest

def checkLost (batch : Publication Id Value) : List Id → List Id → StorageResult Id (List Id)
  | lost, [] => .ok lost
  | lost, id :: rest => do
    ensure (decide (id ∈ batch.ids) && decide (id ∉ lost))
      (.integrity "registration lost identities")
    checkLost batch (lost ++ [id]) rest

/-- Objects another writer published first are compared with their winners. -/
def compareLost (capacities : Capacities) (members : SortedMap Id (StoredObject Id Value))
    (lost : List Id) : SaveM encoder Unit :=
  if lost.isEmpty then return () else do
    modify fun state => { state with ring := encoder.clearDepths state.ring }
    let ids := sortDedup lost
    let expected ← resolveAll ids
    invalidate ids
    let actual ← readPublished capacities ids
    checkWinners members (ids.zip (expected.zip actual))

def WriteOutcome.count (lost : List Id) (outcome : WriteOutcome) (row : StoredObject Id Value) :
    WriteOutcome :=
  if row.id ∈ lost then { outcome with reused := outcome.reused + 1 }
  else { outcome with
    inserted := outcome.inserted + 1
    canonicalBytes := outcome.canonicalBytes + row.location.canonicalLength
    prefixRecords := outcome.prefixRecords + (if row.member.record.base.isSome then 1 else 0)
    fullRecords := outcome.fullRecords + (if row.member.record.base.isSome then 0 else 1) }

/-- `acknowledge`: publishes one batch. -/
def acknowledge (capacities : Capacities) (batch : Publication Id Value)
    (members : SortedMap Id (StoredObject Id Value)) : SaveM encoder Unit := do
  let reply ← ask (.publish batch)
  let reported ← answer reply
  let lost ← lift (checkLost batch [] reported)
  compareLost capacities members lost
  invalidate batch.ids
  modify fun state =>
    let outcome := batch.objects.foldl (WriteOutcome.count lost) state.outcome
    let metadata := batch.packs.filter fun pack => pack.info.domain = .metadata
    { state with
      outcome := { outcome with
        metadataBytes := outcome.metadataBytes + (metadata.map fun pack => pack.info.length).sum
        packs := outcome.packs + batch.packs.length
        storedBytes := outcome.storedBytes + (batch.packs.map fun pack => pack.info.length).sum }
      signatures := batch.signatures.foldl (fun rows row => rows.erase row.slot) state.signatures }

/-! ## Registration -/

def readyMembers (packer : Packer Value encoder.framing) : SortedMap Id (StoredObject Id Value) :=
  packer.readyObjects.foldl (fun members stored => members.insert stored.id stored) .empty

/-- References of members to objects that are no members must be published. -/
def checkExternal (members : SortedMap Id (StoredObject Id Value)) : List Id → SaveM encoder Unit
  | [] => return ()
  | id :: rest => do
    match ← fetchLocation id with
    | some _ => checkExternal members rest
    | none =>
      match members.entries.find? fun entry => decide (id ∈ entry.2.member.references) with
      | some parent => fail (.missingDependency parent.1 id)
      | none => fail (.integrity "closure parent")

/-- The members in an order in which each follows what it needs of the others. -/
def closureOrder (members : SortedMap Id (StoredObject Id Value)) (available : List Id) :
    StorageResult Id (List Id) :=
  match release (members.entries.map fun entry =>
    (entry.1, entry.2.member.references.filter fun id => id ∉ available)) with
  | none => .error (.integrity "closure count")
  | some order =>
    if order.length = members.size then .ok order
    else .error (.integrity "registration reference cycle")

/-- A batch in progress. -/
structure Batching (Id Value : Type) where
  batch : Publication Id Value
  canonicalBytes : ℕ
  physicalBytes : ℕ
  packRows : ℕ
  packs : List ℤ

def packCost (pack : PublishedPack) : SaveM encoder (ℕ × ℕ) := do
  let reply ← ask (.packCost pack)
  let cost ← answer reply
  check (decide (cost.1 ≠ 0) && decide (cost.1 ≤ groupCountLimit + 1)
    && decide (pack.body.length ≤ cost.2)
    && decide (cost.2 ≤ pack.body.length + 56 + 32 * groupCountLimit))
    (.integrity "publication pack cost")
  return cost

/-- Acknowledges the batch in progress when it is full, and starts the next. -/
def closeBatch (capacities : Capacities) (members : SortedMap Id (StoredObject Id Value))
    (full : Bool) (batching : Batching Id Value) : SaveM encoder (Batching Id Value) :=
  if full then do
    acknowledge capacities batching.batch members
    return ⟨.empty, 0, 0, 0, batching.packs⟩
  else return batching

/-- Every value assigned so far goes before any leaf that may name it. -/
def batchValues (capacities : Capacities) (members : SortedMap Id (StoredObject Id Value)) :
    List (ℕ × Value) → Batching Id Value → SaveM encoder (Batching Id Value)
  | [], batching => return batching
  | row :: rest, batching => do
    let batching ← closeBatch capacities members
      (decide (capacities.transactionRows < batching.batch.inodeValues.length + 1)) batching
    batchValues capacities members rest { batching with
      batch := { batching.batch with inodeValues := batching.batch.inodeValues ++ [row] } }

/-- The cost of the pack of a member, unless a batch has it already. -/
def addedCost (sealed : Sealed Id Value) (batching : Batching Id Value) :
    SaveM encoder (ℕ × ℕ) :=
  if sealed.info.packId ∈ batching.packs then return (0, 0)
  else packCost ⟨sealed.info, sealed.body⟩

def sealedOf (packer : Packer Value encoder.framing) (packId : ℤ) :
    StorageResult Id (Sealed Id Value) :=
  match packer.ready.find? fun sealed => sealed.info.packId == packId with
  | some sealed => .ok sealed
  | none => .error (.integrity "registered pack missing")

/-- One member with its pack joins the batch, after the batch before it if that is full. -/
def batchObject (capacities : Capacities) (members : SortedMap Id (StoredObject Id Value))
    (stored : StoredObject Id Value) (batching : Batching Id Value) :
    SaveM encoder (Batching Id Value) := do
  let state ← get
  let sealed ← lift (sealedOf state.packer stored.location.packId)
  let addedPack := decide (sealed.info.packId ∉ batching.packs)
  let (addedRows, bodyBytes) ← addedCost sealed batching
  let batching ← closeBatch capacities members
    ((!batching.batch.objects.isEmpty || !batching.batch.packs.isEmpty)
      && (decide (capacities.transactionBytes <
          batching.canonicalBytes + stored.location.canonicalLength)
        || decide (capacities.transactionPhysicalBytes < batching.physicalBytes + bodyBytes)
        || decide (capacities.transactionRows < batching.batch.objects.length + batching.packRows
          + batching.batch.inodeValues.length + addedRows + 1))) batching
  return { batching with
    batch := { batching.batch with
      packs := batching.batch.packs ++ if addedPack then [⟨sealed.info, sealed.body⟩] else []
      objects := batching.batch.objects ++ [stored] }
    packs := if addedPack then batching.packs ++ [sealed.info.packId] else batching.packs
    packRows := batching.packRows + addedRows
    canonicalBytes := batching.canonicalBytes + stored.location.canonicalLength
    physicalBytes := batching.physicalBytes + bodyBytes }

def batchObjects (capacities : Capacities) (members : SortedMap Id (StoredObject Id Value)) :
    List Id → Batching Id Value → SaveM encoder (Batching Id Value)
  | [], batching => return batching
  | id :: rest, batching => do
    match members.get? id with
    | none => fail (.integrity "registered pack missing")
    | some stored => do
      let batching ← batchObject capacities members stored batching
      batchObjects capacities members rest batching

def signatureKnown (members : SortedMap Id (StoredObject Id Value)) (row : SignatureRow Id) :
    SaveM encoder Bool :=
  if (members.get? row.objectId).isSome then return true else do
    let found ← fetchLocation row.objectId
    return found.isSome

/-- Signatures whose object is registered or published join the batch. -/
def batchSignatures (capacities : Capacities) (members : SortedMap Id (StoredObject Id Value)) :
    List (SignatureRow Id) → Batching Id Value → SaveM encoder (Batching Id Value)
  | [], batching => return batching
  | row :: rest, batching => do
    let state ← get
    if (members.get? row.objectId).isNone && state.packer.pending row.objectId then
      batchSignatures capacities members rest batching
    else do
      let known ← signatureKnown members row
      check known (.integrity "signature names absent object")
      let batching ← closeBatch capacities members
        (decide (capacities.transactionRows ≤ batching.batch.objects.length + batching.packRows
          + batching.batch.inodeValues.length + batching.batch.signatures.length)) batching
      batchSignatures capacities members rest { batching with
        batch := { batching.batch with signatures := batching.batch.signatures ++ [row] } }

def unusedOrdinals (state : State encoder) : Option (ℕ × ℕ) :=
  if state.finishing ∧ state.nextOrdinal < state.ordinalEnd then
    some (state.nextOrdinal, state.ordinalEnd - state.nextOrdinal)
  else none

/-- Assigned values, members and signatures join batches; the last batch is acknowledged when it
holds anything, and the sealed packs are dropped. -/
def publishMembers (capacities : Capacities) (members : SortedMap Id (StoredObject Id Value))
    (order : List Id) : SaveM encoder Unit := do
  let state ← get
  modify fun state => { state with values := .empty }
  let batching ← batchValues capacities members state.values.entries ⟨.empty, 0, 0, 0, []⟩
  let batching ← batchObjects capacities members order batching
  let state ← get
  let batching ← batchSignatures capacities members (state.signatures.entries.map Prod.snd) batching
  let state ← get
  let batch := { batching.batch with releaseOrdinals := unusedOrdinals state }
  let _ ← closeBatch capacities members (!batch.objects.isEmpty || !batch.signatures.isEmpty
    || !batch.packs.isEmpty || !batch.inodeValues.isEmpty || batch.releaseOrdinals.isSome)
    { batching with batch := batch }
  modify fun state => { state with packer := { state.packer with ready := [] } }

def externalIds (members : SortedMap Id (StoredObject Id Value)) : List Id :=
  sortDedup ((members.entries.flatMap fun entry => entry.2.member.references).filter fun id =>
    (members.get? id).isNone)

/-- The ready members in the order of publication, when all they need is there. -/
def orderMembers (members : SortedMap Id (StoredObject Id Value)) : SaveM encoder (List Id) := do
  locate (externalIds members)
  checkExternal members (externalIds members)
  lift (closureOrder members (externalIds members))

/-- `register_ready`: publishes everything that is ready, in reference-closed batches. -/
def registerReady (capacities : Capacities) : SaveM encoder Unit := do
  onPacker sealNeeded
  let state ← get
  let order ← orderMembers (readyMembers state.packer)
  publishMembers capacities (readyMembers state.packer) order

end Save

end LayerFs
