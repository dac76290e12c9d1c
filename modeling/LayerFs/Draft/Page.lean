import LayerFs.Draft.Codec
import LayerFs.Save.Types

/-!
# Finished pages among the drafts (`draft_codec::page`, `object/output.rs`, `object/predecessor.rs`)

A page that is finished but not yet stored is kept with what is known of it: its role, its canonical
bytes, its references and the objects it is thought to resemble. The identity function is a
parameter.

* `decodePage_encodePage` — **what is kept comes back**, its references and predecessors with it.
-/

namespace LayerFs.Codec

open List

open Wire Save

/-! ## Roles -/

/-- `ObjectRole::code`. -/
def roleCode : ObjectRole → ℕ
  | .wholeFile => 1
  | .chunk => 2
  | .extentLeaf => 3
  | .extentBranch => 4
  | .fileState => 5
  | .inodeLeaf => 6
  | .directoryLeaf => 7
  | .directoryBranch => 8
  | .inodeBranch => 9
  | .filesystemRoot => 10
  | .attributeLeaf => 11
  | .attributeBranch => 12
  | .symlink => 13

/-- `ObjectRole::from_code`. -/
def roleFromCode (code : ℕ) : ContentResult ObjectRole :=
  match code with
  | 1 => .ok .wholeFile
  | 2 => .ok .chunk
  | 3 => .ok .extentLeaf
  | 4 => .ok .extentBranch
  | 5 => .ok .fileState
  | 6 => .ok .inodeLeaf
  | 7 => .ok .directoryLeaf
  | 8 => .ok .directoryBranch
  | 9 => .ok .inodeBranch
  | 10 => .ok .filesystemRoot
  | 11 => .ok .attributeLeaf
  | 12 => .ok .attributeBranch
  | 13 => .ok .symlink
  | _ => .error (.invalidRecord "object role code")

theorem roleFromCode_roleCode (role : ObjectRole) :
    roleFromCode (roleCode role) = .ok role ∧ roleCode role < 256 := by
  cases role <;> exact ⟨rfl, by decide⟩

/-! ## Predecessors -/

/-- Why an advisory predecessor was proposed. -/
inductive PredecessorProvenance where
  | originalBase
  | unchangedPrefix
  | reusedRange
  deriving DecidableEq

/-- `MAXIMUM_ADVISORY_PREDECESSORS`. -/
def maximumAdvisoryPredecessors : ℕ := 4

/-- An ordered, bounded list of advisory predecessors. -/
structure AdvisoryPredecessors where
  /-- the proposals, in preference order -/
  entries : List (ObjectId × PredecessorProvenance)
  nodup : (entries.map Prod.fst).Nodup
  few : entries.length ≤ maximumAdvisoryPredecessors

namespace AdvisoryPredecessors

theorem ext_entries {a b : AdvisoryPredecessors} (h : a.entries = b.entries) : a = b := by
  cases a
  cases b
  cases h
  rfl

/-- `new`. -/
def empty : AdvisoryPredecessors := ⟨[], nodup_nil, Nat.zero_le _⟩

/-- `push`: refused beyond the bound, and nothing when the identity is there. -/
def push (list : AdvisoryPredecessors) (id : ObjectId) (provenance : PredecessorProvenance) :
    ContentResult AdvisoryPredecessors :=
  if hfull : maximumAdvisoryPredecessors ≤ list.entries.length then
    .error (.boundedCapacityExceeded "object.predecessors" maximumAdvisoryPredecessors
      (list.entries.length + 1))
  else if hthere : id ∈ list.entries.map Prod.fst then .ok list
  else .ok ⟨list.entries ++ [(id, provenance)], by
    rw [map_append]
    exact List.Nodup.append list.nodup (nodup_singleton _)
      (disjoint_singleton.mpr hthere), by
    rw [length_append, length_singleton]
    omega⟩

theorem push_eq_ok {list : AdvisoryPredecessors} {id : ObjectId}
    (provenance : PredecessorProvenance) (hroom : list.entries.length < maximumAdvisoryPredecessors)
    (hnew : id ∉ list.entries.map Prod.fst) :
    ∃ list', list.push id provenance = .ok list' ∧
      list'.entries = list.entries ++ [(id, provenance)] := by
  rw [push, dif_neg (Nat.not_le_of_lt hroom), dif_neg hnew]
  exact ⟨_, rfl, rfl⟩

end AdvisoryPredecessors

/-! ## Finished pages -/

/-- One finalized canonical object. -/
structure FinalizedObject where
  role : ObjectRole
  /-- canonical bytes, including the envelope -/
  canonical : Bytes
  references : List ObjectId
  predecessors : AdvisoryPredecessors
  isBytes : IsBytes canonical
  framed : ∃ value, decodeBytesObject canonical = .ok value

/-- `FinalizedObject::new`: the envelope is checked, nothing is referenced. -/
def FinalizedObject.new {width : ℕ} (role : ObjectRole) (canonical : Block width) :
    ContentResult FinalizedObject :=
  match h : decodeBytesObject canonical.bytes with
  | .ok value =>
    .ok ⟨role, canonical.bytes, [], AdvisoryPredecessors.empty, canonical.isBytes, ⟨value, h⟩⟩
  | .error e => .error e

/-- `ExtentNode::references`. -/
def nodeReferences : ExtentNode ObjectId → List ObjectId
  | .leaf _ extents => extents.map ExtentSlice.payloadObjectId
  | .branch _ _ _ children => children.map ChildDescriptor.childObjectId

def provenanceCode : PredecessorProvenance → ℕ
  | .originalBase => 0
  | .unchangedPrefix => 1
  | .reusedRange => 2

def provenanceOf (code : ℕ) : ContentResult PredecessorProvenance :=
  match code with
  | 0 => .ok .originalBase
  | 1 => .ok .unchangedPrefix
  | 2 => .ok .reusedRange
  | _ => .error (.invalidRecord "temporary predecessor")

def predecessorFrame (entry : ObjectId × PredecessorProvenance) : Bytes :=
  entry.1.bytes ++ be 1 (provenanceCode entry.2)

/-- **The record of a finished page.** -/
def pageFrame (object : FinalizedObject) : Bytes :=
  be 1 1 ++ (be 1 2 ++ (be 1 (roleCode object.role) ++ (be 2 object.canonical.length ++
    (be 2 object.references.length ++ (be 1 object.predecessors.entries.length ++
      (object.canonical ++ ((object.references.map Block.bytes).flatten ++
        (object.predecessors.entries.map predecessorFrame).flatten)))))))

def isPageRole (role : ObjectRole) : Bool := role == .extentLeaf || role == .extentBranch

/-- `draft_codec::page`. -/
def encodePage (object : FinalizedObject) : ContentResult Bytes := do
  ensure (isPageRole object.role && decide (object.canonical.length ≤ maximumNodeObjectBytes))
    .wrongLogicalRole
  let node ← decodeNodeWithContext object.canonical true
  ensure (nodeReferences node == object.references
    && ((node.level == 0) == (object.role == .extentLeaf)))
    (.invalidRecord "temporary page references")
  return pageFrame object

def readPredecessors : ℕ → AdvisoryPredecessors → Reading ContentError AdvisoryPredecessors
  | 0, list => pure list
  | hints + 1, list => do
    let id ← readBlock .unexpectedEof 32
    let code ← number .unexpectedEof 1
    let provenance ← result (provenanceOf code)
    let list ← result (list.push id provenance)
    readPredecessors hints list

section Identified

variable (identify : Bytes → ObjectId)

/-- The fields of `decode_page`. -/
def readPage (id : ObjectId) : Reading ContentError FinalizedObject := do
  let version ← number .unexpectedEof 1
  result (ensure (version == 1) (.invalidRecord "temporary page version"))
  let kind ← number .unexpectedEof 1
  result (ensure (kind == 2) (.invalidRecord "temporary page version"))
  let code ← number .unexpectedEof 1
  let role ← result (roleFromCode code)
  result (ensure (isPageRole role) .wrongLogicalRole)
  let canonical ← number .unexpectedEof 2
  let refs ← number .unexpectedEof 2
  let hints ← number .unexpectedEof 1
  result (ensure (decide (canonical ≤ maximumNodeObjectBytes) && decide (refs ≤ maximumEntries)
    && decide (hints ≤ maximumAdvisoryPredecessors)) (.invalidRecord "temporary page size"))
  let bytes ← readBlock .unexpectedEof canonical
  let object ← result (FinalizedObject.new role bytes)
  result (ensure (identify object.canonical == id) .identityMismatch)
  let node ← result (decodeNodeWithContext object.canonical true)
  result (ensure ((node.level == 0) == (role == .extentLeaf)) .wrongLogicalRole)
  let references ← readMany (readBlock .unexpectedEof 32) refs
  result (ensure (references == nodeReferences node) (.invalidRecord "temporary page references"))
  let predecessors ← readPredecessors hints AdvisoryPredecessors.empty
  result (ensure (predecessors.entries.length == hints)
    (.invalidRecord "temporary predecessor duplicate"))
  return { object with references := references, predecessors := predecessors }

/-- `draft_codec::decode_page`. -/
def decodePage (bytes : Bytes) (id : ObjectId) : ContentResult FinalizedObject := do
  let (object, rest) ← (readPage identify id).run bytes
  ensure rest.isEmpty .trailingBytes
  return object

end Identified

/-! ## What is kept comes back -/

theorem new_canonical (object : FinalizedObject) :
    FinalizedObject.new object.role (⟨object.canonical, rfl, object.isBytes⟩ :
      Block object.canonical.length) =
      .ok { object with references := [], predecessors := AdvisoryPredecessors.empty } := by
  obtain ⟨value, hvalue⟩ := object.framed
  rw [FinalizedObject.new]
  split
  · rfl
  · rename_i e he
    rw [hvalue] at he
    cases he

theorem readPredecessors_reads {later : List (ObjectId × PredecessorProvenance)}
    {list all : AdvisoryPredecessors} (hall : all.entries = list.entries ++ later) :
    Reads (readPredecessors later.length list) (later.map predecessorFrame).flatten all := by
  induction later generalizing list with
  | nil =>
    rw [append_nil] at hall
    rw [AdvisoryPredecessors.ext_entries hall]
    exact Reads.pure list
  | cons entry later ih =>
    obtain ⟨id, provenance⟩ := entry
    have hroom : list.entries.length < maximumAdvisoryPredecessors := by
      have hfew := all.few
      rw [hall, length_append, length_cons] at hfew
      omega
    have hnew : id ∉ list.entries.map Prod.fst := by
      have hnodup := all.nodup
      rw [hall, map_append, map_cons] at hnodup
      exact fun hthere => (nodup_append.mp hnodup).2.2 id hthere id mem_cons_self rfl
    obtain ⟨next, hpush, hnext⟩ := AdvisoryPredecessors.push_eq_ok provenance hroom hnew
    have hcode : provenanceOf (provenanceCode provenance) = .ok provenance ∧
        provenanceCode provenance < 256 ^ 1 := by
      cases provenance <;> exact ⟨rfl, by decide⟩
    have hnextAll : all.entries = next.entries ++ later := by
      rw [hall, hnext, append_assoc]
      rfl
    have hrest := ih hnextAll
    rw [map_cons, flatten_cons, predecessorFrame, append_assoc]
    exact (readBlock_reads id).bind ((number_reads hcode.2).bind
      (Reads.after hcode.1 (Reads.after hpush hrest)))

section Identified

variable (identify : Bytes → ObjectId)

/-- **What is kept comes back**: a page that is kept is read back as it was. -/
theorem decodePage_encodePage {object : FinalizedObject} {bytes : Bytes}
    (h : encodePage object = .ok bytes) :
    decodePage identify bytes (identify object.canonical) = .ok object := by
  rw [encodePage, check_bind_eq_ok] at h
  obtain ⟨hrole, h⟩ := h
  rw [bind_eq_ok] at h
  obtain ⟨node, hnode, h⟩ := h
  rw [check_bind_eq_ok] at h
  obtain ⟨hsame, h⟩ := h
  cases h
  simp only [ensure_eq_ok, Bool.and_eq_true, decide_eq_true_eq, beq_iff_eq] at hrole hsame
  obtain ⟨hpage, hshort⟩ := hrole
  obtain ⟨hreferences, hlevel⟩ := hsame
  obtain ⟨-, hvalid, -⟩ := (decodeNodeWithContext_eq_ok object.isBytes).mp hnode
  have hrefs : object.references.length ≤ maximumEntries := by
    have hcount := (validate_eq_ok hvalid).1
    rw [← hreferences]
    rcases node with ⟨total, extents⟩ | ⟨level, total, count, children⟩
    · rw [nodeReferences, length_map]
      exact hcount
    · rw [nodeReferences, length_map]
      exact hcount
  have hfew := object.predecessors.few
  have hcode := roleFromCode_roleCode object.role
  have hwidths : maximumNodeObjectBytes < 256 ^ 2 ∧ maximumEntries < 256 ^ 2 ∧
      maximumAdvisoryPredecessors < 256 ^ 1 := by decide
  have hlast : Reads (readPredecessors object.predecessors.entries.length
      AdvisoryPredecessors.empty >>= fun predecessors =>
        result (ensure (predecessors.entries.length == object.predecessors.entries.length)
          (.invalidRecord "temporary predecessor duplicate")) >>= fun _ =>
            pure { object with references := object.references, predecessors := predecessors })
      (object.predecessors.entries.map predecessorFrame).flatten object := by
    have hentries : object.predecessors.entries =
        AdvisoryPredecessors.empty.entries ++ object.predecessors.entries := rfl
    have hread := (readPredecessors_reads hentries).bind
      (f := fun predecessors =>
        result (ensure (predecessors.entries.length == object.predecessors.entries.length)
          (.invalidRecord "temporary predecessor duplicate")) >>= fun _ =>
            pure { object with references := object.references, predecessors := predecessors })
      (Reads.after (ensure_pass _ (beq_self_eq_true _)) (Reads.pure object))
    rw [append_nil] at hread
    exact hread
  have hids : Reads (readMany (readBlock ContentError.unexpectedEof 32) object.references.length)
      (object.references.map Block.bytes).flatten object.references := by
    have hread : Reads (readMany (readBlock ContentError.unexpectedEof 32)
        object.references.length) (object.references.map Block.bytes).flatten
        (object.references.map id) :=
      Reads.many fun block _ => readBlock_reads block
    rw [map_id] at hread
    exact hread
  have hread : Reads (readPage identify (identify object.canonical)) (pageFrame object) object := by
    refine (number_reads (by decide)).bind <| .after rfl <| (number_reads (by decide)).bind <|
      .after rfl <| (number_reads hcode.2).bind <| .after hcode.1 <|
      .after (ensure_pass _ hpage) <| (number_reads (by omega)).bind <|
      (number_reads (by omega)).bind <| (number_reads (by omega)).bind <|
      .after (ensure_pass _ ?_) <|
      (readBlock_reads ⟨object.canonical, rfl, object.isBytes⟩).bind <|
      .after (new_canonical object) <| .after (ensure_pass _ (beq_self_eq_true _)) <|
      .after hnode <| .after (ensure_pass _ ?_) <| hids.bind <| .after (ensure_pass _ ?_) hlast
    · simp [hshort, hrefs, hfew]
    · simpa using hlevel
    · simpa using hreferences.symm
  have hrun := hread []
  rw [append_nil] at hrun
  rw [decodePage, hrun]
  rfl

end Identified

end LayerFs.Codec
