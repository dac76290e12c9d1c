import LayerFs.Support.AssocMap
import LayerFs.Support.Session
import LayerFs.Support.SortedMap

/-!
# Objects, records and the shared store

What a save hands to storage and what storage holds of it, over abstract types `Id` of object
identities and `Value` of inode values.

* `Store.Closed` — **reference closure**: direct references, delta bases and value ordinals of
  everything published are published.
-/

namespace LayerFs

open List

namespace Save

/-! ## Roles and lanes -/

/-- Logical role of a canonical object. -/
inductive ObjectRole where
  | wholeFile
  | chunk
  | extentLeaf
  | extentBranch
  | fileState
  | inodeLeaf
  | directoryLeaf
  | directoryBranch
  | inodeBranch
  | filesystemRoot
  | attributeLeaf
  | attributeBranch
  | symlink
  deriving DecidableEq

/-- One physical framing lane. -/
inductive PackLane where
  | ordinary
  | chunk
  | wholeFile
  | singleton
  deriving DecidableEq

namespace PackLane

def all : List PackLane := [ordinary, chunk, wholeFile, singleton]

def forRole : ObjectRole → PackLane
  | .wholeFile => wholeFile
  | .chunk => chunk
  | _ => ordinary

def groupCountLimit : PackLane → ℕ
  | singleton => 1
  | _ => 16

end PackLane

/-- Physical body destination, determined by its lane. -/
inductive PackDomain where
  | metadata
  | payload
  deriving DecidableEq

/-- `PackDomain::for_lane`. -/
def PackDomain.forLane : PackLane → PackDomain
  | .ordinary => .metadata
  | _ => .payload

/-! ## Failures -/

/-- One attempted persistence operation's failure. -/
inductive PersistenceError where
  | busy
  | backendUnavailable
  | missing
  | refused
  | malformed
  | uncertain
  deriving DecidableEq

/-- Failures of the storage component. -/
inductive StorageError (Id : Type) where
  | persistence (e : PersistenceError)
  | content
  | objectMissing (id : Id)
  | collision (id : Id)
  | missingDependency (object reference : Id)
  | integrity (what : String)
  | capacityExceeded (what : String) (limit actual : ℕ)
  | aborted
  /-- a loop was not given the turns it needs; no call ends so -/
  | unfinished
  deriving DecidableEq

abbrev StorageResult (Id α : Type) := Except (StorageError Id) α

theorem bind_eq_ok {Id α β : Type} {x : StorageResult Id α} {f : α → StorageResult Id β} {b : β} :
    x >>= f = .ok b ↔ ∃ a, x = .ok a ∧ f a = .ok b := by
  cases x with
  | error e => simp [bind, Except.bind]
  | ok a => simp [bind, Except.bind]

/-- Refuses with `e` unless the check holds. -/
def ensure {Id : Type} (check : Bool) (e : StorageError Id) : StorageResult Id Unit :=
  if check then .ok () else .error e

@[simp] theorem ensure_eq_ok {Id : Type} {check : Bool} {e : StorageError Id} {u : Unit} :
    ensure check e = .ok u ↔ check = true := by
  cases check <;> simp [ensure]

/-! ## Objects and records -/

/-- One finalized canonical object. -/
structure FinalizedObject (Id : Type) where
  id : Id
  role : ObjectRole
  canonical : List UInt8
  references : List Id
  predecessors : List Id
  deriving DecidableEq

/-- The record selected for an object. -/
structure EncodedRecord (Id Value : Type) where
  lane : PackLane
  /-- record bytes in their lane's grammar -/
  record : List UInt8
  /-- direct physical base, absent for a full record -/
  base : Option Id
  /-- the inode values the record names, under their ordinals -/
  rows : List (Value × ℕ)
  deriving DecidableEq

/-- An object with the record selected for it, as a group holds them. -/
structure Member (Id Value : Type) where
  object : FinalizedObject Id
  record : EncodedRecord Id Value
  deriving DecidableEq

/-- One stored object's descriptor and physical location. -/
structure ObjectLocation (Id : Type) where
  objectId : Id
  role : ObjectRole
  canonicalLength : ℕ
  packId : ℤ
  groupNumber : ℕ
  recordNumber : ℕ
  deriving DecidableEq

/-- A location together with what the record there holds. -/
structure StoredObject (Id Value : Type) where
  location : ObjectLocation Id
  member : Member Id Value
  deriving DecidableEq

/-- Descriptor of a sealed immutable pack. -/
structure PackInfo where
  packId : ℤ
  domain : PackDomain
  length : ℕ
  deriving DecidableEq

/-- Immutable pack registration with its complete bytes. -/
structure PublishedPack where
  info : PackInfo
  body : List UInt8
  deriving DecidableEq

/-- One advisory content-signature ring entry. -/
structure SignatureRow (Id : Type) where
  slot : ℕ
  stamp : ℕ
  objectId : Id
  deriving DecidableEq

/-- One atomic batch. -/
structure Publication (Id Value : Type) where
  packs : List PublishedPack
  objects : List (StoredObject Id Value)
  inodeValues : List (ℕ × Value)
  signatures : List (SignatureRow Id)
  releaseOrdinals : Option (ℕ × ℕ)

/-- `Publication::default`. -/
def Publication.empty {Id Value : Type} : Publication Id Value := ⟨[], [], [], [], none⟩

section Store

variable {Id Value : Type}

namespace StoredObject

def id (stored : StoredObject Id Value) : Id := stored.member.object.id

end StoredObject

def Publication.ids (batch : Publication Id Value) : List Id := batch.objects.map StoredObject.id

variable [LinearOrder Id]

/-- Everything a member needs: its object's direct references and its record's base. -/
def Member.references (member : Member Id Value) : List Id :=
  sortDedup (member.object.references ++ member.record.base.toList)

theorem Member.mem_references {member : Member Id Value} {a : Id} :
    a ∈ member.references ↔ a ∈ member.object.references ∨ member.record.base = some a := by
  rw [Member.references, mem_sortDedup, mem_append, Option.mem_toList]

/-! ## The store -/

/-- Everything published. -/
structure Store (Id Value : Type) where
  objects : AssocMap Id (StoredObject Id Value)
  values : AssocMap ℕ Value

namespace Store

def insertNew {K V : Type} [DecidableEq K] (m : AssocMap K V) (row : K × V) : AssocMap K V :=
  if (m.get? row.1).isSome then m else m.insert row.1 row.2

theorem get?_insertNew {K V : Type} [DecidableEq K] {m : AssocMap K V} {row : K × V} {k : K} :
    (insertNew m row).get? k =
      if k = row.1 ∧ m.get? k = none then some row.2 else m.get? k := by
  rw [insertNew]
  split_ifs with htaken hrow hrow
  · rw [← hrow.1, hrow.2] at htaken
    cases htaken
  · rfl
  · rw [AssocMap.get?_insert, if_pos hrow.1]
  · rw [AssocMap.get?_insert]
    split_ifs with hk
    · subst hk
      rw [Option.not_isSome_iff_eq_none] at htaken
      exact absurd ⟨rfl, htaken⟩ hrow
    · rfl

def publish (store : Store Id Value) (batch : Publication Id Value) : Store Id Value where
  objects := (batch.objects.map fun row => (row.id, row)).foldl insertNew store.objects
  values := batch.inodeValues.foldl insertNew store.values

def lost (store : Store Id Value) (batch : Publication Id Value) : List Id :=
  batch.ids.filter fun id => (store.objects.get? id).isSome

instance : Preorder (Store Id Value) where
  le s s' := (∀ id row, s.objects.get? id = some row → s'.objects.get? id = some row) ∧
    ∀ ordinal value, s.values.get? ordinal = some value → s'.values.get? ordinal = some value
  le_refl _ := ⟨fun _ _ h => h, fun _ _ h => h⟩
  le_trans _ _ _ h h' :=
    ⟨fun id row hrow => h'.1 id row (h.1 id row hrow), fun o v hv => h'.2 o v (h.2 o v hv)⟩

def Has (store : Store Id Value) (id : Id) : Prop := (store.objects.get? id).isSome

def HasValue (store : Store Id Value) (ordinal : ℕ) : Prop := (store.values.get? ordinal).isSome

variable {s s' : Store Id Value} {batch : Publication Id Value}

theorem Has.mono {id : Id} (h : s.Has id) (hs : s ≤ s') : s'.Has id := by
  obtain ⟨row, hrow⟩ := Option.isSome_iff_exists.mp h
  exact Option.isSome_iff_exists.mpr ⟨row, hs.1 id row hrow⟩

theorem HasValue.mono {ordinal : ℕ} (h : s.HasValue ordinal) (hs : s ≤ s') :
    s'.HasValue ordinal := by
  obtain ⟨value, hvalue⟩ := Option.isSome_iff_exists.mp h
  exact Option.isSome_iff_exists.mpr ⟨value, hs.2 ordinal value hvalue⟩

section InsertNew

variable {K V : Type} [DecidableEq K]

theorem get?_foldl_insertNew_of_some {rows : List (K × V)} : ∀ {m : AssocMap K V} {k : K} {v : V},
    m.get? k = some v → (rows.foldl insertNew m).get? k = some v := by
  induction rows with
  | nil => exact fun h => h
  | cons row rest ih =>
    intro m k v h
    apply ih
    rw [get?_insertNew, h, if_neg (by simp)]

theorem get?_foldl_insertNew_isSome {rows : List (K × V)} : ∀ {m : AssocMap K V} {k : K},
    ((rows.foldl insertNew m).get? k).isSome ↔ (m.get? k).isSome ∨ k ∈ rows.map Prod.fst := by
  induction rows with
  | nil =>
    intro m k
    simp
  | cons row rest ih =>
    intro m k
    rw [foldl_cons, ih, get?_insertNew, map_cons, mem_cons]
    by_cases hk : k = row.1
    · subst hk
      rcases m.get? row.1 with _ | v <;> simp
    · simp [hk]

theorem get?_foldl_insertNew {rows : List (K × V)} : ∀ {m : AssocMap K V} {k : K} {v : V},
    (rows.foldl insertNew m).get? k = some v → m.get? k = some v ∨ (k, v) ∈ rows := by
  induction rows with
  | nil => exact fun h => .inl h
  | cons row rest ih =>
    intro m k v h
    rcases ih h with hold | hrest
    · rw [get?_insertNew] at hold
      split_ifs at hold with hrow
      · obtain rfl := Option.some.inj hold
        rw [hrow.1]
        exact .inr mem_cons_self
      · exact .inl hold
    · exact .inr (mem_cons_of_mem _ hrest)

end InsertNew

/-- **A publication only adds.** -/
theorem le_publish (s : Store Id Value) (batch : Publication Id Value) : s ≤ s.publish batch :=
  ⟨fun _ _ h => get?_foldl_insertNew_of_some h, fun _ _ h => get?_foldl_insertNew_of_some h⟩

theorem has_publish {id : Id} : (s.publish batch).Has id ↔ s.Has id ∨ id ∈ batch.ids := by
  rw [Has, publish, get?_foldl_insertNew_isSome, map_map]
  rfl

theorem hasValue_publish {ordinal : ℕ} :
    (s.publish batch).HasValue ordinal ↔
      s.HasValue ordinal ∨ ordinal ∈ batch.inodeValues.map Prod.fst := by
  rw [HasValue, publish, get?_foldl_insertNew_isSome]
  rfl

/-- Everything a member names is published. -/
structure Supports (store : Store Id Value) (member : Member Id Value) : Prop where
  references : ∀ id ∈ member.object.references, store.Has id
  base : ∀ id, member.record.base = some id → store.Has id
  ordinals : ∀ row ∈ member.record.rows, store.HasValue row.2

/-- **Reference closure** of everything published, each object under its own identity. -/
structure Closed (store : Store Id Value) : Prop where
  keyed : ∀ id row, store.objects.get? id = some row → row.id = id
  supports : ∀ id row, store.objects.get? id = some row → store.Supports row.member

theorem Supports.mono {member : Member Id Value} (h : s.Supports member) (hs : s ≤ s') :
    s'.Supports member :=
  ⟨fun id hid => (h.references id hid).mono hs, fun id hid => (h.base id hid).mono hs,
    fun row hrow => (h.ordinals row hrow).mono hs⟩

theorem Closed.publish (h : s.Closed)
    (hbatch : ∀ row ∈ batch.objects, (s.publish batch).Supports row.member) :
    (s.publish batch).Closed := by
  refine ⟨fun id row hrow => ?_, fun id row hrow => ?_⟩
  · rcases get?_foldl_insertNew hrow with hold | hnew
    · exact h.keyed id row hold
    · obtain ⟨stored, hstored, heq⟩ := mem_map.mp hnew
      cases heq
      rfl
  · rcases get?_foldl_insertNew hrow with hold | hnew
    · exact (h.supports id row hold).mono (le_publish s batch)
    · obtain ⟨stored, hstored, heq⟩ := mem_map.mp hnew
      cases heq
      exact hbatch _ hstored

end Store

/-! ## The persistence port -/

variable (Id Value) in
/-- The calls a save makes. -/
inductive Call where
  /-- locates objects; absence is omitted -/
  | locate (ids : List Id)
  /-- reads stored inode values; absence is omitted -/
  | inodeValues (ordinals : List ℕ)
  /-- allocates pack ids and value ordinals -/
  | reserve (packs ordinals : ℕ)
  /-- rows and bytes one pack will cost -/
  | packCost (pack : PublishedPack)
  /-- registers one batch -/
  | publish (batch : Publication Id Value)

def Reply : Call Id Value → Type
  | .locate _ => Except PersistenceError (List (StoredObject Id Value))
  | .inodeValues _ => Except PersistenceError (List (ℕ × Value))
  | .reserve _ _ => Except PersistenceError (ℤ × ℕ)
  | .packCost _ => Except PersistenceError (ℕ × ℕ)
  | .publish _ => Except PersistenceError (List Id)

def failure (e : PersistenceError) : (call : Call Id Value) → Reply call
  | .locate _ => .error e
  | .inodeValues _ => .error e
  | .reserve _ _ => .error e
  | .packCost _ => .error e
  | .publish _ => .error e

/-- One atomic answer of the port. Allocation and cost are the provider's own. -/
inductive Answers : Store Id Value → (call : Call Id Value) → Store Id Value → Reply call → Prop
  | locate {s : Store Id Value} {ids : List Id} :
      Answers s (.locate ids) s (.ok (ids.filterMap s.objects.get?))
  | inodeValues {s : Store Id Value} {ordinals : List ℕ} :
      Answers s (.inodeValues ordinals) s
        (.ok (ordinals.filterMap fun o => (s.values.get? o).map fun v => (o, v)))
  | reserve {s : Store Id Value} {packs ordinals : ℕ} {first : ℤ × ℕ} :
      Answers s (.reserve packs ordinals) s (.ok first)
  | packCost {s : Store Id Value} {pack : PublishedPack} {cost : ℕ × ℕ} :
      Answers s (.packCost pack) s (.ok cost)
  | publish {s : Store Id Value} {batch : Publication Id Value} :
      Answers s (.publish batch) (s.publish batch) (.ok (s.lost batch))
  | failed {s : Store Id Value} {call : Call Id Value} {e : PersistenceError} :
      Answers s call s (failure e call)
  | unacknowledged {s : Store Id Value} {batch : Publication Id Value} {e : PersistenceError} :
      Answers s (.publish batch) (s.publish batch) (.error e)

@[reducible] def storePort : Port (Store Id Value) := ⟨Call Id Value, Reply, Answers⟩

end Store

end Save

end LayerFs
