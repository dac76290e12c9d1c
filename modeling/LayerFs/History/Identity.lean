import LayerFs.History.Runs
import LayerFs.Support.Wire

/-!
# Identities from a hash (`layerfs-history/src/contract/identity.rs`)

A Commit's identity is a tag and the hash of a frame: a domain, the root, the parents, the base
Layer and the part of the metadata that is kept in it. What a Commit records outside its identity
(its time, its byte counts, newer-write-wins decisions and merge units) is only checked to fit its
columns (`layerfs-persistence/src/history/{commit,facts}.rs`).

* `CommitRecord.frame_inj` — **two frames of one content are of one Commit**, optional and
  variable-length fields included.
-/

namespace LayerFs.History

open List

open Wire

abbrev Bytes := List ℕ

/-! ## Frames -/

def ascii (text : String) : Bytes := text.toList.map Char.toNat

/-- `update_optional`. -/
def optional : Option Bytes → Bytes
  | some value => 1 :: value
  | none => [0]

def messageBytes (message : String) : Bytes := message.toByteArray.data.toList.map UInt8.toNat

/-- `NodeId::as_slice`: the tagged identity of either kind. -/
def NodeId.bytes : NodeId Bytes → Bytes
  | .commit id => id
  | .layer id => id

/-- `CommitVia::code`. -/
def CommitVia.code : CommitVia → ℕ
  | .workspace => 1
  | .files => 2
  | .merge => 3

def secondFrame : Option (NodeId Bytes) → Bytes
  | some second => ascii "\x00second-parent\x00" ++ second.bytes
  | none => []

def messageFrame (message : Option String) : Bytes :=
  be 8 ((message.map messageBytes).elim 0 List.length) ++ optional (message.map messageBytes)

variable {ρ : Type}

/-- The bytes `CommitId::derive` hashes. -/
def commitFrame (root : Bytes) (parent : Option Bytes) (baseLayer : Bytes)
    (second : Option (NodeId Bytes)) (info : CommitMeta Bytes ρ) : Bytes :=
  ascii "layerfs/commit/v3\x00" ++ (root ++ (optional parent ++ (baseLayer ++
    (secondFrame second ++ (ascii "\x00meta\x00" ++ (optional info.branch ++
      ([info.via.code] ++ (messageFrame info.message ++
        (optional (info.mergedFrom.map NodeId.bytes) ++ optional info.displaced)))))))))

/-- The bytes `LayerId::derive` hashes. -/
def layerFrame (stack : Bytes) (parent : Option Bytes) (root : Bytes) : Bytes :=
  ascii "layerfs/layer/v2\x00" ++ (stack ++ (optional parent ++ root))

def commitTag : ℕ := 0x12

def layerTag : ℕ := 0x32

/-! ## Columns -/

/-- One persisted newer-write-wins decision. -/
structure LwwDecision where
  path : String
  keptOurs : Bool
  deleted : Bool
  rule : String
  deriving DecidableEq

/-- One merge unit: its name and its patterns. -/
structure MergeUnit where
  name : String
  patterns : List String
  deriving DecidableEq

/-- What a Commit persists outside its identity, its time and its logical size apart. -/
structure CommitFacts where
  newCanonical : ℕ
  newStored : ℕ
  newMetadata : ℕ
  lww : List LwwDecision
  lwwTruncated : Bool
  units : List MergeUnit
  deriving DecidableEq

variable {κ : Type}

def putCount (count : ℕ) : HistoryResult κ Bytes :=
  if count < 2 ^ 32 - 1 then .ok (be 4 count) else .error (.capacity "history fact text")

def putFact (text : String) : HistoryResult κ Bytes := do
  let count ← putCount (messageBytes text).length
  return count ++ messageBytes text

def LwwDecision.encode (value : LwwDecision) : HistoryResult κ Bytes := do
  let path ← putFact value.path
  let rule ← putFact value.rule
  return path ++ rule ++ [value.keptOurs.toNat + 2 * value.deleted.toNat]

def MergeUnit.encode (unit : MergeUnit) : HistoryResult κ Bytes := do
  let name ← putFact unit.name
  let count ← putCount unit.patterns.length
  let patterns ← unit.patterns.mapM putFact
  return name ++ count ++ patterns.flatten

/-- `facts::encode`: the decisions, then the units behind their mark when there are some. -/
def encodeFacts (values : List LwwDecision) (units : List MergeUnit) :
    HistoryResult κ Bytes := do
  let decisions ← values.mapM LwwDecision.encode
  if units.isEmpty then return decisions.flatten
  else
    let count ← putCount units.length
    let bodies ← units.mapM MergeUnit.encode
    return decisions.flatten ++ List.replicate 4 0xFF ++ count ++ bodies.flatten

def fitsColumn (count : ℕ) (what : String) : HistoryResult κ Unit :=
  require (decide (count < 2 ^ 63)) (.capacity what)

/-- The columns `new_commit` fills from a Commit's facts. -/
def storableFacts (info : CommitMeta κ CommitFacts) : HistoryResult κ Unit := do
  fitsColumn info.logical "logical bytes"
  fitsColumn info.facts.newCanonical "canonical bytes"
  fitsColumn info.facts.newStored "stored bytes"
  fitsColumn info.facts.newMetadata "metadata bytes"
  let _ ← encodeFacts info.facts.lww info.facts.units
  return ()

/-- The codec of a catalog whose identities are tagged digests of `hash`. -/
def blake (hash : Bytes → Bytes) : Codec Bytes CommitFacts where
  commitId root parent baseLayer second info :=
    commitTag :: hash (commitFrame root parent baseLayer second info)
  layerId stack parent root := layerTag :: hash (layerFrame stack parent root)
  storable := storableFacts

/-! ## Widths -/

def IsCommitId (id : Bytes) : Prop := id.length = 33 ∧ id.head? = some commitTag

def IsLayerId (id : Bytes) : Prop := id.length = 33 ∧ id.head? = some layerTag

def NodeId.Typed : NodeId Bytes → Prop
  | .commit id => IsCommitId id
  | .layer id => IsLayerId id

theorem NodeId.Typed.length {n : NodeId Bytes} (h : n.Typed) : n.bytes.length = 33 := by
  cases n with
  | commit id => exact h.1
  | layer id => exact h.1

theorem NodeId.bytes_inj {n m : NodeId Bytes} (hn : n.Typed) (hm : m.Typed)
    (h : n.bytes = m.bytes) : n = m := by
  cases n with
  | commit id =>
    cases m with
    | commit other => exact congrArg NodeId.commit h
    | layer other =>
      have htag := hn.2.symm.trans ((congrArg List.head? h).trans hm.2)
      cases htag
  | layer id =>
    cases m with
    | layer other => exact congrArg NodeId.layer h
    | commit other =>
      have htag := hn.2.symm.trans ((congrArg List.head? h).trans hm.2)
      cases htag

/-- What the types of a Commit's fields say of their bytes, and that its message has a length. -/
structure CommitRecord.Typed (record : CommitRecord Bytes ρ) : Prop where
  root : record.root.length = 32
  parent : ∀ p ∈ record.parent, IsCommitId p
  base : IsLayerId record.baseLayer
  second : ∀ n ∈ record.secondParent, n.Typed
  branch : ∀ b ∈ record.info.branch, b.length = 17
  message : ∀ m ∈ record.info.message, (messageBytes m).length < 256 ^ 8
  mergedFrom : ∀ n ∈ record.info.mergedFrom, n.Typed
  displaced : ∀ d ∈ record.info.displaced, IsCommitId d

def CommitRecord.frame (record : CommitRecord Bytes ρ) : Bytes :=
  commitFrame record.root record.parent record.baseLayer record.secondParent record.info

/-! ## Reading a frame back -/

theorem optional_append_inj {a b : Option Bytes} {s t : Bytes} {width : ℕ}
    (ha : ∀ x ∈ a, x.length = width) (hb : ∀ x ∈ b, x.length = width)
    (h : optional a ++ s = optional b ++ t) : a = b ∧ s = t := by
  cases a with
  | none =>
    cases b with
    | none => exact ⟨rfl, (List.cons.inj h).2⟩
    | some y => cases (List.cons.inj h).1
  | some x =>
    cases b with
    | none => cases (List.cons.inj h).1
    | some y =>
      have hlength := (ha x rfl).trans (hb y rfl).symm
      obtain ⟨hxy, hst⟩ := append_inj (List.cons.inj h).2 hlength
      exact ⟨congrArg some hxy, hst⟩

theorem optional_node_inj {a b : Option (NodeId Bytes)} {s t : Bytes} (ha : ∀ n ∈ a, n.Typed)
    (hb : ∀ n ∈ b, n.Typed)
    (h : optional (a.map NodeId.bytes) ++ s = optional (b.map NodeId.bytes) ++ t) :
    a = b ∧ s = t := by
  have hwidth : ∀ {o : Option (NodeId Bytes)}, (∀ n ∈ o, n.Typed) →
      ∀ x ∈ o.map NodeId.bytes, x.length = 33 := by
    intro o ho x hx
    obtain ⟨n, hn, rfl⟩ := Option.map_eq_some_iff.mp hx
    exact (ho n hn).length
  obtain ⟨hmap, hst⟩ := optional_append_inj (hwidth ha) (hwidth hb) h
  refine ⟨?_, hst⟩
  cases a with
  | none => exact (Option.map_eq_none_iff.mp hmap.symm).symm
  | some n =>
    obtain ⟨m, hm, hbytes⟩ := Option.map_eq_some_iff.mp hmap.symm
    subst hm
    exact congrArg some (NodeId.bytes_inj (ha n rfl) (hb m rfl) hbytes.symm)

/-- **The separator behind the base Layer says whether a second parent follows.** -/
theorem secondFrame_inj {a b : Option (NodeId Bytes)} {s t : Bytes} (ha : ∀ n ∈ a, n.Typed)
    (hb : ∀ n ∈ b, n.Typed)
    (h : secondFrame a ++ (ascii "\x00meta\x00" ++ s) =
      secondFrame b ++ (ascii "\x00meta\x00" ++ t)) :
    a = b ∧ s = t := by
  cases a with
  | none =>
    cases b with
    | none => exact ⟨rfl, append_cancel_left h⟩
    | some m => cases (List.cons.inj (List.cons.inj h).2).1
  | some n =>
    cases b with
    | none => cases (List.cons.inj (List.cons.inj h).2).1
    | some m =>
      simp only [secondFrame, append_assoc, append_cancel_left_eq] at h
      obtain ⟨hnm, hst⟩ := append_inj h ((ha n rfl).length.trans (hb m rfl).length.symm)
      exact ⟨congrArg some (NodeId.bytes_inj (ha n rfl) (hb m rfl) hnm),
        append_cancel_left hst⟩

theorem messageBytes_injective : Function.Injective messageBytes := by
  intro m n h
  have hlist := map_injective_iff.mpr (fun _ _ => UInt8.toNat_inj.mp) h
  exact String.toByteArray_inj.mp (ByteArray.ext (Array.toList_inj.mp hlist))

/-- **A message is read back behind its length**, an absent one told from an empty one. -/
theorem messageFrame_inj {a b : Option String} {s t : Bytes}
    (ha : ∀ m ∈ a, (messageBytes m).length < 256 ^ 8)
    (hb : ∀ m ∈ b, (messageBytes m).length < 256 ^ 8)
    (h : messageFrame a ++ s = messageFrame b ++ t) : a = b ∧ s = t := by
  simp only [messageFrame, append_assoc] at h
  obtain ⟨hcount, h⟩ := append_inj h (by rw [length_be, length_be])
  cases a with
  | none =>
    cases b with
    | none => exact ⟨rfl, (List.cons.inj h).2⟩
    | some n => cases (List.cons.inj h).1
  | some m =>
    cases b with
    | none => cases (List.cons.inj h).1
    | some n =>
      have hlength : (messageBytes m).length = (messageBytes n).length := by
        have hnumber := congrArg ofBe hcount
        rw [ofBe_be, ofBe_be] at hnumber
        exact (Nat.mod_eq_of_lt (ha m rfl)).symm.trans
          (hnumber.trans (Nat.mod_eq_of_lt (hb n rfl)))
      obtain ⟨hmn, hst⟩ := append_inj (List.cons.inj h).2 hlength
      exact ⟨congrArg some (messageBytes_injective hmn), hst⟩

theorem CommitVia.code_inj {v w : CommitVia} (h : v.code = w.code) : v = w := by
  cases v <;> cases w <;> first | rfl | cases h

/-- What a Commit's identity keeps of it. -/
structure CommitRecord.SameIdentity (a b : CommitRecord Bytes ρ) : Prop where
  root : a.root = b.root
  parent : a.parent = b.parent
  base : a.baseLayer = b.baseLayer
  second : a.secondParent = b.secondParent
  branch : a.info.branch = b.info.branch
  via : a.info.via = b.info.via
  message : a.info.message = b.info.message
  mergedFrom : a.info.mergedFrom = b.info.mergedFrom
  displaced : a.info.displaced = b.info.displaced

/-- **Two frames of one content are of one Commit.** -/
theorem CommitRecord.frame_inj {a b : CommitRecord Bytes ρ} (ha : a.Typed) (hb : b.Typed)
    (h : a.frame = b.frame) : a.SameIdentity b := by
  have hids : ∀ {o : Option Bytes}, (∀ x ∈ o, IsCommitId x) → ∀ x ∈ o, x.length = 33 :=
    fun ho x hx => (ho x hx).1
  obtain ⟨hroot, h⟩ := append_inj (append_cancel_left h) (ha.root.trans hb.root.symm)
  obtain ⟨hparent, h⟩ := optional_append_inj (hids ha.parent) (hids hb.parent) h
  obtain ⟨hbase, h⟩ := append_inj h (ha.base.1.trans hb.base.1.symm)
  obtain ⟨hsecond, h⟩ := secondFrame_inj ha.second hb.second h
  obtain ⟨hbranch, h⟩ := optional_append_inj ha.branch hb.branch h
  obtain ⟨hvia, h⟩ := List.cons.inj h
  obtain ⟨hmessage, h⟩ := messageFrame_inj ha.message hb.message h
  obtain ⟨hmerged, h⟩ := optional_node_inj ha.mergedFrom hb.mergedFrom h
  rw [← append_nil (optional a.info.displaced),
    ← append_nil (optional b.info.displaced)] at h
  obtain ⟨hdisplaced, -⟩ := optional_append_inj (hids ha.displaced) (hids hb.displaced) h
  exact ⟨hroot, hparent, hbase, hsecond, hbranch, CommitVia.code_inj hvia, hmessage, hmerged,
    hdisplaced⟩

end LayerFs.History
