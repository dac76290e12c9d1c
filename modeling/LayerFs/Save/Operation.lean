import LayerFs.Save.Publish

/-!
# One save from its first object to its last

Admission, representation and the life of a save (`save/wave.rs`, `save/select.rs`,
`save/pooled.rs`, `save/operation.rs`, `save/provider.rs`).

* `selectPooled` — ordinals for the values of an inode leaf: those a stored base leaf gives them,
  those this save assigned before, else new ones.
-/

namespace LayerFs

namespace Save

variable {Id Value : Type} [LinearOrder Id] {encoder : Encoder Id Value}

open SaveM

/-! ## Reservations (`save/reservation.rs`, `save/wave.rs`) -/

/-- `ordinal_range`. -/
def ordinalRange (first count : ℕ) : SaveM encoder Unit := do
  check (decide (first ≠ 0)) (.integrity "metadata ordinal reservation")
  check (decide (first + count ≤ 2 ^ 32)) (.integrity "metadata ordinal maximum")
  modify fun state => { state with nextOrdinal := first, ordinalEnd := first + count }

/-- `reserve_initial`. -/
def reserveInitial (capacities : Capacities) : SaveM encoder Unit := do
  let reply ← ask (.reserve capacities.reservePacks capacities.reserveOrdinals)
  let first ← answer reply
  check (decide (0 < first.1) && decide (first.2 ≠ 0)) (.integrity "initial Save reservation")
  modify fun state => { state with
    nextPack := first.1
    packEnd := first.1 + capacities.reservePacks }
  ordinalRange first.2 capacities.reserveOrdinals

/-- `reserve_ordinals`. -/
def reserveOrdinals (block : ℕ) : SaveM encoder Unit := do
  let reply ← ask (.reserve 0 block)
  let first ← answer reply
  ordinalRange first.2 block

/-- `reserve_packs`: a new block of pack identities unless enough are left. -/
def reservePacks (capacities : Capacities) (required : ℕ) : SaveM encoder Unit := do
  let state ← get
  if (required : ℤ) ≤ state.packEnd - state.nextPack then return () else do
    let count := max required capacities.reservePacks
    let reply ← ask (.reserve count 0)
    let first ← answer reply
    check (decide (0 < first.1)) (.integrity "pack reservation")
    modify fun state => { state with nextPack := first.1, packEnd := first.1 + count }

/-! ## Inode leaves (`save/pooled.rs`) -/

def learn [DecidableEq Value] (known : AssocMap Value ℕ) (row : Value × ℕ) : AssocMap Value ℕ :=
  Store.insertNew known row

variable [DecidableEq Value]

/-- `pooled_bases`: the stored leaves among the named predecessors, and the ordinals of their
values. -/
def pooledBases : List Id → AssocMap Value ℕ →
    SaveM encoder (List (Base Id Value) × AssocMap Value ℕ)
  | [], known => return ([], known)
  | id :: rest, known => do
    match ← viewLocation id with
    | none => pooledBases rest known
    | some row =>
      if row.location.role ≠ .inodeLeaf then pooledBases rest known else do
        let state ← get
        let (cost, ring) ← runView (encoder.baseCost state.ring row)
        modify fun state => { state with ring := ring }
        match cost with
        | none => pooledBases rest known
        | some (depth, canonical, encoded) => do
          let (bases, known) ← pooledBases rest (row.member.record.rows.foldl learn known)
          return (⟨id, row.member.record.rows, depth, canonical, encoded⟩ :: bases, known)

def recallValues (values : List Value) (known : AssocMap Value ℕ) :
    SaveM encoder (AssocMap Value ℕ) := do
  let state ← get
  let candidates := sortDedup ((values.filter fun value => (known.get? value).isNone).filterMap
    fun value => state.valueMemo.get? (encoder.fingerprint value))
  if candidates.isEmpty then return known else do
    let found ← viewValues candidates
    return (found.zip candidates).foldl learn known

/-- Records a new value under the next ordinal; the memo is dropped whole at its bound. -/
def assignValue (value : Value) (state : State encoder) : State encoder :=
  let memo := if metadataIndexValues ≤ state.valueMemo.size then .empty else state.valueMemo
  { state with
    nextOrdinal := state.nextOrdinal + 1
    values := state.values.insert state.nextOrdinal value
    valueMemo := Store.insertNew memo (encoder.fingerprint value, state.nextOrdinal) }

/-- The ordinal of each row's value, new ones being assigned in order. -/
def assignOrdinals : List Value → AssocMap Value ℕ → SaveM encoder (List (Value × ℕ))
  | [], _ => return []
  | value :: rest, known => do
    match known.get? value with
    | some ordinal => do
      let later ← assignOrdinals rest known
      return (value, ordinal) :: later
    | none => do
      let state ← get
      check (decide (state.nextOrdinal < state.ordinalEnd))
        (.integrity "metadata ordinal reservation exhausted")
      modify (assignValue value)
      let later ← assignOrdinals rest (known.insert value state.nextOrdinal)
      return (value, state.nextOrdinal) :: later

/-- A new block of ordinals when the rest of the block does not hold the new values. -/
def reserveFresh (capacities : Capacities) (fresh : ℕ) : SaveM encoder Unit := do
  let state ← get
  if 0 < fresh ∧ state.ordinalEnd - state.nextOrdinal < fresh then
    reserveOrdinals (max fresh capacities.reserveOrdinals)
  else return ()

/-- `select_pooled`: the record of an inode leaf. -/
def selectPooled (capacities : Capacities) (object : FinalizedObject Id) :
    SaveM encoder (EncodedRecord Id Value) := do
  let values ← lift (encoder.decodeLeaf object.canonical)
  let (bases, known) ← pooledBases object.predecessors .empty
  let known ← recallValues values known
  reserveFresh capacities (values.filter fun value => (known.get? value).isNone).dedup.length
  let rows ← assignOrdinals values known
  let (record, base) ← lift (encoder.encodeLeaf object rows bases)
  return ⟨.ordinary, record, base, rows⟩

/-! ## Admission (`save/select.rs`) -/

def checkReferences (object : FinalizedObject Id) : List Id → SaveM encoder Unit
  | [] => return ()
  | reference :: rest => do
    let state ← get
    if state.packer.pending reference || (state.packer.location reference).isSome then
      checkReferences object rest
    else do
      match ← fetchLocation reference with
      | some _ => checkReferences object rest
      | none => fail (.missingDependency object.id reference)

/-- Moves the signatures of the candidate ring into the save's rows. -/
def flushSignatures : SaveM encoder Unit := modify fun state =>
  let (ring, rows) := encoder.flushRing state.ring
  { state with
    ring := ring
    signatures := rows.foldl (fun table row => table.insert row.slot row) state.signatures }

/-- Seals the bases a whole file may be stored against: the named predecessors, and the one the
candidate ring proposes. -/
def sealProposed (object : FinalizedObject Id) : SaveM encoder (List Id) :=
  if PackLane.forRole object.role = .wholeFile then do
    let state ← get
    let proposed ← lift (encoder.propose state.ring object)
    onPacker fun packer next stop =>
      packer.sealPending (object.predecessors ++ proposed.toList) next stop
    locate proposed.toList
    return object.predecessors ++ proposed.toList
  else return object.predecessors

def selectRecord (capacities : Capacities) (object : FinalizedObject Id) :
    SaveM encoder (EncodedRecord Id Value) :=
  if object.role = .inodeLeaf then selectPooled capacities object else do
    let state ← get
    let ((lane, record, base), ring) ← runView (encoder.select state.ring object)
    modify fun state => { state with ring := ring }
    return ⟨lane, record, base, []⟩

def groupFull (encoder : Encoder Id Value) (group : Group Id Value) (lane : PackLane)
    (record : List UInt8) (object : FinalizedObject Id) : StorageResult Id Bool :=
  if group.entries.isEmpty then .ok false
  else if lane = .singleton then .ok true
  else do
    let length ← encoder.framedGroupLength (group.entries.length + 1)
      (group.payload + record.length)
    return decide (groupTarget < length)
      || decide (groupCanonicalBytesLimit < group.canonical + object.canonical.length)

def addRecord (member : Member Id Value) (packer : Packer Value encoder.framing) :
    Packer Value encoder.framing :=
  let group := packer.groups member.record.lane
  let group : Group Id Value := ⟨group.entries ++ [(member.record.record, member)],
    group.payload + member.record.record.length, group.canonical + member.object.canonical.length⟩
  { packer with groups := Function.update packer.groups member.record.lane group }

/-- Represents an object and adds its record to the open group of its lane. -/
def placeObject (capacities : Capacities) (object : FinalizedObject Id) : SaveM encoder Unit := do
  let record ← selectRecord capacities object
  let body ← lift (encoder.framedLength record.record)
  check (decide (body ≤ encoder.laneBodyLimit record.lane) || decide (record.lane = .singleton))
    (.capacityExceeded "owner.record_body" (encoder.laneBodyLimit record.lane) body)
  let state ← get
  let full ← lift (groupFull encoder (state.packer.groups record.lane) record.lane record.record
    object)
  onPacker fun packer next stop =>
    Packer.when full (fun packer next => packer.sealLane record.lane next stop) packer next
  modify fun state => { state with packer := addRecord ⟨object, record⟩ state.packer }
  onPacker fun packer next stop =>
    Packer.when (decide (record.lane = .singleton))
      (fun packer next => packer.sealLane record.lane next stop) packer next

/-- A base that is sealed and not published is published before it is selected. -/
def registerCandidates (capacities : Capacities) (candidates : List Id) : SaveM encoder Unit := do
  let state ← get
  if candidates.any fun id => (state.packer.location id).isSome then do
    flushSignatures
    registerReady capacities
  else return ()

/-- `offer`: one new object is represented and joins the open group of its lane. -/
def offer (capacities : Capacities) (object : FinalizedObject Id) : SaveM encoder Unit := do
  checkReferences object object.references
  onPacker fun packer next stop => packer.flushIfContains object.predecessors next stop
  let candidates ← sealProposed object
  registerCandidates capacities candidates
  placeObject capacities object

/-! ## Waves (`save/wave.rs`) -/

def sealAgain (capacities : Capacities) (id : Id) : SaveM encoder Unit := do
  let state ← get
  if state.packer.pending id then do
    reservePacks capacities state.packer.finishPackBound
    onPacker fun packer next stop => packer.sealPending [id] next stop
  else return ()

def countReused : SaveM encoder Unit := modify fun state =>
  { state with outcome := { state.outcome with reused := state.outcome.reused + 1 } }

/-- One object of a wave that the wave has not seen before: reused, or offered. -/
def admitObject (capacities : Capacities) (object : FinalizedObject Id) : SaveM encoder Unit := do
  sealAgain capacities object.id
  match ← viewLocation object.id with
  | some row => do
    check (decide (row.location.role = object.role)
      && decide (row.location.canonicalLength = object.canonical.length)) (.collision object.id)
    countReused
  | none => do
    let state ← get
    reservePacks capacities (state.packer.finishPackBound + 1)
    offer capacities object

/-- The objects of a wave, in order; `prepared` are those before. -/
def admitAll (capacities : Capacities) : List (FinalizedObject Id) → List (FinalizedObject Id) →
    SaveM encoder Unit
  | [], _ => return ()
  | object :: rest, prepared => do
    match prepared.find? fun prior => prior.id == object.id with
    | some prior => do
      check (decide (prior.canonical = object.canonical) && decide (prior.role = object.role))
        (.collision object.id)
      countReused
      admitAll capacities rest prepared
    | none => do
      admitObject capacities object
      admitAll capacities rest (prepared ++ [object])

/-- `wave`: one bounded batch of accepted objects. -/
def wave (capacities : Capacities) (objects : List (FinalizedObject Id)) : SaveM encoder Unit :=
  if objects.isEmpty then return () else do
    beginDemand
    locate (objects.flatMap fun object => object.id :: (object.references ++ object.predecessors))
    admitAll capacities objects []
    flushSignatures
    registerReady capacities

/-! ## The life of a save (`save/operation.rs`, `save/batch.rs`, `save/provider.rs`) -/

/-- `Save::accept`: one object joins the pending batch; a full batch is prepared. -/
def accept (capacities : Capacities) (object : FinalizedObject Id) : SaveM encoder Unit := do
  let state ← get
  let length := object.canonical.length
  if !state.batch.isEmpty && (decide (capacities.batchObjects ≤ state.batch.length)
      || decide (capacities.batchBytes < state.batchBytes + length)) then do
    modify fun state => { state with batch := [object], batchBytes := length }
    wave capacities state.batch
  else modify fun state => { state with
    batch := state.batch ++ [object]
    batchBytes := state.batchBytes + length }

def declaredLength (id : Id) : SaveM encoder ℕ := do
  let state ← get
  match state.batch.find? fun object => object.id == id with
  | some object => return object.canonical.length
  | none => do
    let published ← fetchLocation id
    match (state.packer.location id).or published with
    | some row => return row.location.canonicalLength
    | none => fail (.objectMissing id)

def declaredLengths : List Id → SaveM encoder (List ℕ)
  | [] => return []
  | id :: rest => do
    let length ← declaredLength id
    let later ← declaredLengths rest
    return length :: later

def readOne (id : Id) : SaveM encoder (List UInt8) := do
  let state ← get
  match state.batch.find? fun object => object.id == id with
  | some object => return object.canonical
  | none => resolve id

/-- The canonical bytes of several objects, within the read's byte bound. -/
def readEach : List Id → ℕ → SaveM encoder (List (List UInt8))
  | [], _ => return []
  | id :: rest, bytes => do
    let value ← readOne id
    check (decide (bytes + value.length ≤ readCanonicalBytesLimit))
      (.capacityExceeded "storage.read_canonical_bytes" readCanonicalBytesLimit
        (bytes + value.length))
    let later ← readEach rest (bytes + value.length)
    return value :: later

def sealDemanded (capacities : Capacities) (ids : List Id) : SaveM encoder Unit := do
  let state ← get
  if ids.any fun id => state.packer.pending id then do
    reservePacks capacities state.packer.finishPackBound
    onPacker fun packer next stop => packer.sealPending ids next stop
  else return ()

/-- `Save::read_objects`: a same-save read. -/
def readObjects (capacities : Capacities) (ids : List Id) : SaveM encoder (List (List UInt8)) := do
  check (decide (ids.length ≤ capacities.readObjects))
    (.capacityExceeded "storage.read_objects" capacities.readObjects ids.length)
  beginDemand
  locate ids
  sealDemanded capacities ids
  let lengths ← declaredLengths ids
  check (decide (lengths.sum ≤ readCanonicalBytesLimit))
    (.capacityExceeded "storage.read_canonical_bytes" readCanonicalBytesLimit lengths.sum)
  readEach ids 0

/-- What a client asks of a save before it ends. -/
inductive Request (Id : Type) where
  | accept (object : FinalizedObject Id)
  | read (ids : List Id)

def serveRequest (capacities : Capacities) : Request Id → SaveM encoder Unit
  | .accept object => accept capacities object
  | .read ids => do
    let _ ← readObjects capacities ids

def serveRequests (capacities : Capacities) : List (Request Id) → SaveM encoder Unit
  | [] => return ()
  | request :: rest => do
    serveRequest capacities request
    serveRequests capacities rest

def sealAll : List PackLane → SaveM encoder Unit
  | [] => return ()
  | lane :: rest => do
    onPacker fun packer next stop => packer.sealLane lane next stop
    sealAll rest

def reserveFinish (capacities : Capacities) : SaveM encoder Unit := do
  let state ← get
  if state.packer.unfinished then reservePacks capacities state.packer.finishPackBound
  else return ()

/-- `Save::finish`: seals and registers the remaining output. -/
def finish (capacities : Capacities) : SaveM encoder WriteOutcome := do
  let state ← get
  modify fun state => { state with batch := [], batchBytes := 0 }
  wave capacities state.batch
  modify fun state => { state with finishing := true }
  reserveFinish capacities
  sealAll PackLane.all
  onPacker fun packer next stop => packer.flush next stop
  flushSignatures
  registerReady capacities
  let state ← get
  return state.outcome

/-- **A whole save**: the initial reservation, the client's requests, and the end. -/
def saveSession (capacities : Capacities) (requests : List (Request Id)) :
    SaveM encoder WriteOutcome := do
  reserveInitial capacities
  serveRequests capacities requests
  finish capacities

/-- The state a save starts in. The ring and the absence marks may be those an earlier save of the
handle left. -/
def State.start (ring : encoder.Ring) (absent : List Id) : State encoder where
  absent := absent
  batch := []
  batchBytes := 0
  ring := ring
  signatures := .empty
  packer := .new
  values := .empty
  valueMemo := .empty
  nextOrdinal := 0
  ordinalEnd := 0
  finishing := false
  outcome := .zero
  nextPack := 0
  packEnd := 0

end Save

end LayerFs
