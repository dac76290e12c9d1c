import LayerFs.Save.Types

/-!
# Groups, queues and sealed packs

The packer of one save (`save/seal.rs`): records gather in one open group a lane, full groups are
framed and queued, and queues are sealed into packs that are ready to be published. Framing and
compression are the functions of a `Framing`.

* `Moves` — **conservation**: members only move from pending to ready, and every new pack has some.
-/

namespace LayerFs

open List

namespace Save

/-! ## Limits (`store/policy.rs`) -/

def packLimit : ℕ := 256 * 1024
def batchObjectLimit : ℕ := 512

/-- Framing of groups and packs (`pack/assemble.rs`, `pack/layout.rs`). -/
structure Framing (Id : Type) where
  /-- one framed group ready for placement -/
  EncodedGroup : Type
  /-- frames and compresses the records of a group -/
  buildGroup : PackLane → List (List UInt8) → StorageResult Id EncodedGroup
  /-- body bytes a group contributes to a pack -/
  bodySize : EncodedGroup → ℕ
  /-- bytes of a lane's pack before its first body -/
  bodyAreaOffset : PackLane → ℕ
  /-- whether a group fits behind so many bytes and groups -/
  appendFits : PackLane → ℕ → ℕ → EncodedGroup → StorageResult Id Bool
  assemble : PackLane → List EncodedGroup → StorageResult Id (List UInt8)

variable {Id Value : Type} {framing : Framing Id}

/-! ## The packer -/

variable (Id Value) in
/-- An open group: the records with their members. -/
structure Group where
  entries : List (List UInt8 × Member Id Value)
  payload : ℕ
  canonical : ℕ

/-- `Group::default`. -/
def Group.empty : Group Id Value := ⟨[], 0, 0⟩

def Group.members (group : Group Id Value) : List (Member Id Value) := group.entries.map Prod.snd

variable (Value) in
/-- A framed group with its members; a group without records is never framed. -/
structure Framed (framing : Framing Id) where
  group : framing.EncodedGroup
  members : List (Member Id Value)
  nonempty : members ≠ []

variable (Value) in
/-- The framed groups of one lane; the lane is live while it has any. -/
structure Queue (framing : Framing Id) where
  groups : List (Framed Value framing)
  bytes : ℕ
  rows : ℕ

/-- `Queue::default`. -/
def Queue.empty : Queue Value framing := ⟨[], 0, 0⟩

def Queue.members (queue : Queue Value framing) : List (Member Id Value) :=
  queue.groups.flatMap Framed.members

variable (Id Value) in
/-- A sealed pack with the locations of its members. -/
structure Sealed where
  info : PackInfo
  body : List UInt8
  members : List (StoredObject Id Value)

variable (Value) in
/-- The packer of one save. -/
structure Packer (framing : Framing Id) where
  groups : PackLane → Group Id Value
  queued : PackLane → Queue Value framing
  ready : List (Sealed Id Value)

def placedMembers (packId : ℤ) (memberGroups : List (List (Member Id Value))) :
    List (StoredObject Id Value) :=
  (memberGroups.mapIdx fun groupNumber group => group.mapIdx fun recordNumber member =>
    ⟨⟨member.object.id, member.object.role, member.object.canonical.length, packId, groupNumber,
      recordNumber⟩, member⟩).flatten

namespace Packer

variable (packer : Packer Value framing)

/-- `Packer::new`. -/
def new : Packer Value framing := ⟨fun _ => .empty, fun _ => .empty, []⟩

def pendingMembers : List (Member Id Value) :=
  PackLane.all.flatMap (fun lane => (packer.groups lane).members) ++
    PackLane.all.flatMap fun lane => (packer.queued lane).members

def readyObjects : List (StoredObject Id Value) := packer.ready.flatMap Sealed.members

def unfinished : Bool :=
  PackLane.all.any (fun lane => !(packer.groups lane).entries.isEmpty) ||
    PackLane.all.any fun lane => !(packer.queued lane).groups.isEmpty

def finishPackBound : ℕ :=
  (PackLane.all.filter fun lane => !(packer.groups lane).entries.isEmpty).length +
    (PackLane.all.map fun lane =>
      ((packer.queued lane).groups.length + lane.groupCountLimit - 1) / lane.groupCountLimit).sum

def place (lane : PackLane) (groups : List framing.EncodedGroup)
    (memberGroups : List (List (Member Id Value))) (next stop : ℤ) :
    StorageResult Id (Packer Value framing × ℤ) := do
  ensure (decide (0 < next) && decide (next < stop)) (.integrity "pack reservation exhausted")
  let body ← framing.assemble lane groups
  return ({ packer with ready := packer.ready ++ [⟨⟨next, .forLane lane, body.length⟩, body,
    placedMembers next memberGroups⟩] }, next + 1)

/-- The group fits into the pack in progress; the first one always does. -/
def fitsBehind (lane : PackLane) (length : ℕ) (groups : List framing.EncodedGroup)
    (group : framing.EncodedGroup) : StorageResult Id Bool :=
  if groups.isEmpty then .ok true else framing.appendFits lane length groups.length group

def fill (lane : PackLane) (stop : ℤ) : List (Framed Value framing) → List framing.EncodedGroup →
    List (List (Member Id Value)) → ℕ → Packer Value framing → ℤ →
    StorageResult Id (Packer Value framing × ℤ)
  | [], groups, members, _, packer, next => packer.place lane groups members next stop
  | framed :: rest, groups, members, length, packer, next => do
    let fits ← fitsBehind lane length groups framed.group
    if fits then
      fill lane stop rest (groups ++ [framed.group]) (members ++ [framed.members])
        (length + framing.bodySize framed.group) packer next
    else do
      let (packer, next) ← packer.place lane groups members next stop
      fill lane stop rest [framed.group] [framed.members]
        (framing.bodyAreaOffset lane + framing.bodySize framed.group) packer next

/-- `flush_lane`: seals the queue of a lane. -/
def flushLane (lane : PackLane) (next stop : ℤ) : StorageResult Id (Packer Value framing × ℤ) :=
  if (packer.queued lane).groups.isEmpty then .ok (packer, next)
  else fill lane stop (packer.queued lane).groups [] [] (framing.bodyAreaOffset lane)
    { packer with queued := Function.update packer.queued lane .empty } next

def when (condition : Bool) (step : Packer Value framing → ℤ → StorageResult Id
    (Packer Value framing × ℤ)) (packer : Packer Value framing) (next : ℤ) :
    StorageResult Id (Packer Value framing × ℤ) :=
  if condition then step packer next else .ok (packer, next)

/-- Seals the queues of the lanes a test selects, one lane after another. -/
def flushWhere (select : Packer Value framing → PackLane → Bool) (stop : ℤ) :
    List PackLane → Packer Value framing → ℤ → StorageResult Id (Packer Value framing × ℤ)
  | [], packer, next => .ok (packer, next)
  | lane :: rest, packer, next => do
    let (packer, next) ←
      when (select packer lane) (fun packer next => packer.flushLane lane next stop) packer next
    flushWhere select stop rest packer next

/-- `flush`: seals every queue. -/
def flush (next stop : ℤ) : StorageResult Id (Packer Value framing × ℤ) :=
  flushWhere (fun _ _ => true) stop PackLane.all packer next

def enqueue (lane : PackLane) (framed : Framed Value framing) (bytes rows : ℕ) :
    Packer Value framing :=
  let queue : Queue Value framing := ⟨(packer.queued lane).groups ++ [framed],
    (packer.queued lane).bytes + bytes, (packer.queued lane).rows + rows⟩
  { packer with queued := Function.update packer.queued lane queue }

/-- `seal`: frames the open group of a lane and queues it, sealing the queues when their shared
budget is used up or the group cannot wait. -/
def sealLane (lane : PackLane) (next stop : ℤ) : StorageResult Id (Packer Value framing × ℤ) :=
  if hempty : (packer.groups lane).members = [] then .ok (packer, next) else do
    let filled := packer.groups lane
    let packer := { packer with groups := Function.update packer.groups lane .empty }
    let group ← framing.buildGroup lane (filled.entries.map Prod.fst)
    let bytes := framing.bodySize group
    let rows := filled.members.length
    let queueable := (lane != .singleton) && decide (bytes ≤ packLimit)
      && decide (rows ≤ batchObjectLimit)
    let charged := (PackLane.all.map fun lane => if (packer.queued lane).groups.isEmpty then 0
      else (packer.queued lane).bytes + framing.bodyAreaOffset lane).sum
    let framingBytes := if (packer.queued lane).groups.isEmpty then framing.bodyAreaOffset lane
      else 0
    let queuedRows := (PackLane.all.map fun lane => (packer.queued lane).rows).sum
    let (packer, next) ← when (!queueable || decide (packLimit < charged + bytes + framingBytes)
      || decide (batchObjectLimit < queuedRows + rows))
      (fun packer next => packer.flush next stop) packer next
    let packer := packer.enqueue lane ⟨group, filled.members, hempty⟩ bytes rows
    when (!queueable) (fun packer next => packer.flush next stop) packer next

variable [DecidableEq Id]

def pending (id : Id) : Bool := packer.pendingMembers.any fun member => member.object.id == id

def location (id : Id) : Option (StoredObject Id Value) :=
  packer.readyObjects.find? fun stored => stored.location.objectId == id

/-- Seals the open groups that hold one of the identities, one lane after another. -/
def sealLanes (ids : List Id) (stop : ℤ) : List PackLane → Packer Value framing → ℤ →
    StorageResult Id (Packer Value framing × ℤ)
  | [], packer, next => .ok (packer, next)
  | lane :: rest, packer, next => do
    let (packer, next) ←
      when ((packer.groups lane).members.any fun member => decide (member.object.id ∈ ids))
        (fun packer next => packer.sealLane lane next stop) packer next
    sealLanes ids stop rest packer next

/-- `flush_if_contains`: seals the queues that hold one of the identities. -/
def flushIfContains (ids : List Id) (next stop : ℤ) :
    StorageResult Id (Packer Value framing × ℤ) :=
  flushWhere (fun packer lane =>
    (packer.queued lane).members.any fun member => decide (member.object.id ∈ ids)) stop
    PackLane.all packer next

/-- `seal_pending`: seals everything that holds one of the identities. -/
def sealPending (ids : List Id) (next stop : ℤ) : StorageResult Id (Packer Value framing × ℤ) := do
  let (packer, next) ← sealLanes ids stop PackLane.all packer next
  packer.flushIfContains ids next stop

end Packer

/-! ## Conservation -/

section Conservation

variable {p p' p'' : Packer Value framing}
variable {memberGroups : List (List (Member Id Value))} {lane : PackLane}
  {result : Packer Value framing × ℤ} {next stop : ℤ}

/-- **Conservation**: members move from pending to ready, each new pack has some, and each names
its own. -/
def Moves (p p' : Packer Value framing) : Prop :=
  ∃ packs, p'.ready = p.ready ++ packs ∧ (∀ pack ∈ packs, pack.members ≠ []) ∧
    (∀ pack ∈ packs, ∀ stored ∈ pack.members,
      stored.location.objectId = stored.member.object.id ∧
        stored.location.role = stored.member.object.role ∧
        stored.location.canonicalLength = stored.member.object.canonical.length) ∧
    p.pendingMembers.Perm
      ((packs.flatMap Sealed.members).map StoredObject.member ++ p'.pendingMembers)

theorem Moves.refl (p : Packer Value framing) : Moves p p :=
  ⟨[], (append_nil _).symm, fun _ h => absurd h not_mem_nil,
    fun _ h => absurd h not_mem_nil, .refl _⟩

theorem Moves.trans (h : Moves p p') (h' : Moves p' p'') : Moves p p'' := by
  obtain ⟨packs, hready, hsome, hnamed, hperm⟩ := h
  obtain ⟨packs', hready', hsome', hnamed', hperm'⟩ := h'
  refine ⟨packs ++ packs', ?_, ?_, ?_, ?_⟩
  · rw [hready', hready, append_assoc]
  · intro pack hpack
    exact (mem_append.mp hpack).elim (hsome pack) (hsome' pack)
  · intro pack hpack
    exact (mem_append.mp hpack).elim (hnamed pack) (hnamed' pack)
  · rw [flatMap_append, map_append, append_assoc]
    exact hperm.trans (hperm'.append_left _)

theorem count_pendingMembers_groups [DecidableEq (Member Id Value)] (lane : PackLane)
    (group : Group Id Value) (member : Member Id Value) :
    ({ p with groups := Function.update p.groups lane group } : Packer Value framing).pendingMembers.count
        member + (p.groups lane).members.count member =
      p.pendingMembers.count member + group.members.count member := by
  cases lane <;>
    simp [Packer.pendingMembers, PackLane.all, Function.update, count_append] <;> omega

theorem place_eq_ok {groups : List framing.EncodedGroup}
    (h : p.place lane groups memberGroups next stop = .ok result) :
    ∃ info body, result.1 = { p with
      ready := p.ready ++ [⟨info, body, placedMembers next memberGroups⟩] } := by
  obtain ⟨-, -, h⟩ := bind_eq_ok.mp h
  obtain ⟨body, -, h⟩ := bind_eq_ok.mp h
  obtain rfl := Except.ok.inj h
  exact ⟨_, body, rfl⟩

/-- What flushing does to one lane at most: its queue is emptied. -/
structure Flushes (p p' : Packer Value framing) : Prop where
  moves : Moves p p'
  groups : p'.groups = p.groups
  queued : ∀ lane, (p'.queued lane).members ⊆ (p.queued lane).members

theorem Flushes.refl (p : Packer Value framing) : Flushes p p :=
  ⟨.refl p, rfl, fun _ => List.Subset.refl _⟩

theorem Flushes.trans (h : Flushes p p') (h' : Flushes p' p'') : Flushes p p'' :=
  ⟨h.moves.trans h'.moves, h'.groups.trans h.groups,
    fun lane => List.Subset.trans (h'.queued lane) (h.queued lane)⟩

section Demanded

variable [DecidableEq Id] {ids : List Id}

end Demanded

end Conservation

/-! ## The sealing loop -/

section Needed

variable [LinearOrder Id]
variable {stop : ℤ}

def neededIds (packer : Packer Value framing) : List Id :=
  sortDedup (packer.readyObjects.flatMap fun stored => stored.member.references)

/-- The sealing loop of a publication: seals what a ready member needs until a turn seals nothing
more; at most `fuel` turns. -/
def sealTurns (stop : ℤ) : ℕ → Packer Value framing → ℤ →
    StorageResult Id (Packer Value framing × ℤ)
  | 0, _, _ => .error .unfinished
  | fuel + 1, packer, next => do
    let (later, next) ← packer.sealPending (neededIds packer) next stop
    if later.ready.length = packer.ready.length then .ok (later, next)
    else sealTurns stop fuel later next

/-- The whole loop. Every turn but the last seals a pending member. -/
def sealNeeded (packer : Packer Value framing) (next stop : ℤ) :
    StorageResult Id (Packer Value framing × ℤ) :=
  sealTurns stop (packer.pendingMembers.length + 1) packer next

end Needed

end Save

end LayerFs
