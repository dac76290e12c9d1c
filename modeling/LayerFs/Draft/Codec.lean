import LayerFs.Mapping.Codec

/-!
# Temporary mapping records (`file/edit/draft_codec.rs`, `file/edit/references.rs`)

While an edit runs, its unfinished pages are kept as records of their own: a child of a draft may be
a stored page, another draft or a finished page not yet stored. No draft has a canonical identity,
and pages that are short, or empty, are drafts too.

* `Draft` — **a draft**: few entries, and totals that are those of the entries.
* `encodeDraft_eq_ok`, `decodeDraft_eq_ok` — **one frame for a draft**, and no other bytes.
-/

namespace LayerFs.Codec

open List

open Wire

/-! ## Drafts -/

/-- `EditRef`: what a child of a draft names. -/
inductive EditRef where
  /-- a stored page -/
  | stored (id : ObjectId)
  /-- an unfinished page of this edit -/
  | node (number : ℕ)
  /-- a finished page of this edit -/
  | page (id : ObjectId)
  deriving DecidableEq

/-- `references::Node`: a page whose children are drafts or not. -/
inductive DraftNode where
  /-- a page of payload slices -/
  | leaf (subtreeLogicalBytes : ℕ) (extents : List (ExtentSlice ObjectId))
  /-- a page of children -/
  | branch (level subtreeLogicalBytes subtreeExtentCount : ℕ)
      (children : List (ChildDescriptor EditRef))
  deriving DecidableEq

namespace EditRef

/-- `key`. -/
def key : EditRef → Block 32
  | stored id => id
  | page id => id
  | node number =>
    ⟨List.replicate 24 0 ++ be 8 number, by simp, IsBytes.append (by decide) (isBytes_be 8 number)⟩

/-- `from_key`. -/
def fromKey (kind : ℕ) (key : Block 32) : ContentResult EditRef :=
  if kind = 1 ∧ key.bytes.take 24 = List.replicate 24 0 then .ok (.node (ofBe (key.bytes.drop 24)))
  else if kind = 2 then .ok (.page key)
  else .error (.invalidRecord "draft key domain")

def tag : EditRef → ℕ
  | stored _ => 0
  | node _ => 1
  | page _ => 2

def Fits : EditRef → Prop
  | node number => number < u64Bound
  | _ => True

end EditRef

namespace DraftNode

def level : DraftNode → ℕ
  | leaf _ _ => 0
  | branch level _ _ _ => level

def logicalLen : DraftNode → ℕ
  | leaf bytes _ => bytes
  | branch _ bytes _ _ => bytes

def extentCount : DraftNode → ℕ
  | leaf _ extents => extents.length
  | branch _ _ count _ => count

def entryCount : DraftNode → ℕ
  | leaf _ extents => extents.length
  | branch _ _ _ children => children.length

def slices : DraftNode → List (ExtentSlice ObjectId)
  | leaf _ extents => extents
  | branch _ _ _ _ => []

def children : DraftNode → List (ChildDescriptor EditRef)
  | leaf _ _ => []
  | branch _ _ _ children => children

end DraftNode

/-! ## Frames -/

def draftChildFrame (child : ChildDescriptor EditRef) : Bytes :=
  be 8 child.cumulativeLogicalEnd ++ (be 8 child.cumulativeExtentEnd ++
    (be 1 child.childObjectId.tag ++ child.childObjectId.key.bytes))

def draftEntries : DraftNode → Bytes
  | .leaf _ extents => (extents.map sliceFrame).flatten
  | .branch _ _ _ children => (children.map draftChildFrame).flatten

/-- **The record of a draft.** -/
def draftFrame (node : DraftNode) : Bytes :=
  be 1 1 ++ (be 1 (if node.level ≠ 0 then 1 else 0) ++ (be 1 node.level ++
    (be 8 node.logicalLen ++ (be 8 node.extentCount ++ (be 2 node.entryCount ++
      draftEntries node)))))

/-! ## Reading -/

def readTotaled (total : ℕ) : Reading ContentError (ExtentSlice ObjectId) := do
  let extent ← readSlice
  result do
    let _ ← checkedAdd total extent.logicalLength
    return extent

def refOf (tag : ℕ) (key : Block 32) : ContentResult EditRef :=
  if tag = 0 then .ok (.stored key)
  else if tag = 1 ∨ tag = 2 then EditRef.fromKey tag key
  else .error (.invalidRecord "temporary child tag")

def readDraftChild (prior : ℕ × ℕ) : Reading ContentError (ChildDescriptor EditRef) := do
  let logicalEnd ← number .unexpectedEof 8
  let extentEnd ← number .unexpectedEof 8
  let tag ← number .unexpectedEof 1
  let key ← readBlock .unexpectedEof 32
  result (ensure (decide (prior.1 < logicalEnd) && decide (prior.2 < extentEnd))
    .nonCanonicalOrdering)
  result do
    let childObjectId ← refOf tag key
    return ⟨logicalEnd, extentEnd, childObjectId⟩

def addSlice (total : ℕ) (extent : ExtentSlice ObjectId) : ℕ := total + extent.logicalLength

def endsOf (_ : ℕ × ℕ) (child : ChildDescriptor EditRef) : ℕ × ℕ :=
  (child.cumulativeLogicalEnd, child.cumulativeExtentEnd)

def readDraftEntries (tag level logical extents count : ℕ) : Reading ContentError DraftNode :=
  if tag = 0 ∧ level = 0 then do
    let (entries, total) ← readFold readTotaled addSlice count 0
    result (ensure (total == logical && extents == count) (.invalidRecord "temporary leaf summary"))
    return .leaf logical entries
  else if tag = 1 ∧ level ≠ 0 ∧ 2 ≤ count then do
    let (children, ends) ← readFold readDraftChild endsOf count (0, 0)
    result (ensure (ends.1 == logical && ends.2 == extents)
      (.invalidRecord "temporary branch summary"))
    return .branch level logical extents children
  else result (.error (.invalidRecord "temporary mapping tag"))

/-- The loop of `decode`. -/
def readDraft : Reading ContentError DraftNode := do
  let version ← number .unexpectedEof 1
  result (ensure (version == 1) (.invalidRecord "temporary mapping version"))
  let tag ← number .unexpectedEof 1
  let level ← number .unexpectedEof 1
  let logical ← number .unexpectedEof 8
  let extents ← number .unexpectedEof 8
  let count ← number .unexpectedEof 2
  result (ensure (decide (count ≤ maximumEntries) && decide (level ≤ maximumLevel))
    (.invalidRecord "temporary mapping size"))
  readDraftEntries tag level logical extents count

/-- `draft_codec::decode`. -/
def decodeDraft (bytes : Bytes) : ContentResult DraftNode := do
  let (node, rest) ← readDraft.run bytes
  ensure rest.isEmpty .trailingBytes
  return node

/-- `draft_codec::encode`, which reads its own record back. -/
def encodeDraft (node : DraftNode) : ContentResult Bytes := do
  ensure (decide (node.entryCount ≤ maximumEntries) && decide (node.level ≤ maximumLevel))
    (.invalidRecord "temporary mapping size")
  let _ ← decodeDraft (draftFrame node)
  return draftFrame node

/-! ## What a draft is -/

def Grows (prior : ℕ × ℕ) (child : ChildDescriptor EditRef) : Prop :=
  prior.1 < child.cumulativeLogicalEnd ∧ prior.2 < child.cumulativeExtentEnd

/-- **A draft**: few entries, and totals that are those of the entries. A leaf may be empty and
every page may be short; a branch joins two children at least. -/
def Draft : DraftNode → Prop
  | .leaf bytes extents => extents.length ≤ maximumEntries ∧ bytes = totalBytes extents
  | .branch level bytes count children =>
    (1 ≤ level ∧ level ≤ maximumLevel) ∧ (2 ≤ children.length ∧ children.length ≤ maximumEntries) ∧
      Threads Grows endsOf (0, 0) children ∧ children.foldl endsOf (0, 0) = (bytes, count)

def DraftFits : DraftNode → Prop
  | .leaf _ _ => True
  | .branch _ _ _ children => ∀ child ∈ children, ChildFits child ∧ child.childObjectId.Fits

/-! ## What the readers accept -/

theorem EditRef.key_node_drop (number : ℕ) :
    (EditRef.node number).key.bytes.drop 24 = be 8 number :=
  drop_left' (length_replicate)

theorem EditRef.key_node_take (number : ℕ) :
    (EditRef.node number).key.bytes.take 24 = List.replicate 24 0 :=
  take_left' (length_replicate)

/-- **A child is told by its tag and its key.** -/
theorem refOf_eq_ok {tag : ℕ} {key : Block 32} {child : EditRef} :
    refOf tag key = .ok child ↔ (child.tag = tag ∧ child.key = key) ∧ child.Fits := by
  rw [refOf]
  constructor
  · intro h
    split_ifs at h with hstored hdraft
    · cases h
      exact ⟨⟨hstored.symm, rfl⟩, trivial⟩
    · rw [EditRef.fromKey] at h
      split_ifs at h with hnode hpage
      · cases h
        have hlow : IsBytes (key.bytes.drop 24) := fun b hb =>
          key.isBytes b (mem_of_mem_drop hb)
        have height : (key.bytes.drop 24).length = 8 := by rw [length_drop, key.length_eq]
        have hback := be_ofBe hlow
        have hlt := ofBe_lt hlow
        rw [height] at hback hlt
        refine ⟨⟨hnode.1.symm, Block.ext_bytes ?_⟩, hlt⟩
        change List.replicate 24 0 ++ be 8 (ofBe (key.bytes.drop 24)) = key.bytes
        rw [hback, ← hnode.2, take_append_drop]
      · cases h
        exact ⟨⟨hpage.symm, rfl⟩, trivial⟩
  · rintro ⟨⟨rfl, rfl⟩, hfits⟩
    rcases child with id | number | id
    · rfl
    · have hlt : number < 256 ^ 8 := hfits
      rw [show (EditRef.node number).tag = 1 from rfl, if_neg Nat.one_ne_zero, if_pos (.inl rfl),
        EditRef.fromKey,
        if_pos ⟨rfl, EditRef.key_node_take number⟩, EditRef.key_node_drop, ofBe_be,
        Nat.mod_eq_of_lt hlt]
    · rfl

theorem readTotaled_accepts (total : ℕ) :
    Accepts (readTotaled total) sliceFrame
      (fun extent => total + extent.logicalLength < u64Bound) := by
  refine Accepts.record (.field id readSlice_accepts fun extent =>
    .made (fun read : ExtentSlice ObjectId => total + read.logicalLength < u64Bound) fun read => ?_)
    (fun extent => ?_) (fun extent => ?_)
  · rw [bind_eq_ok]
    constructor
    · rintro ⟨sum, hsum, h⟩
      cases h
      exact ⟨⟨trivial, rfl⟩, (checkedAdd_eq_ok.mp hsum).1⟩
    · rintro ⟨⟨-, rfl⟩, hfits⟩
      exact ⟨_, checkedAdd_eq_ok.mpr ⟨hfits, rfl⟩, rfl⟩
  · exact (and_iff_right trivial).symm
  · rw [append_nil, id_eq]

theorem readDraftChild_accepts (prior : ℕ × ℕ) :
    Accepts (readDraftChild prior) draftChildFrame
      (fun child => Grows prior child ∧ ChildFits child ∧ child.childObjectId.Fits) := by
  refine Accepts.record (
    .field ChildDescriptor.cumulativeLogicalEnd number_accepts fun logicalEnd =>
    .field ChildDescriptor.cumulativeExtentEnd number_accepts fun extentEnd =>
    .field (fun child => child.childObjectId.tag) number_accepts fun tag =>
    .field (fun child => child.childObjectId.key) readBlock_accepts fun key =>
    .test (Grows prior) (c := prior.1 < logicalEnd ∧ prior.2 < extentEnd) (by simp) ?_ <|
    .made (fun child : ChildDescriptor EditRef => child.childObjectId.Fits) fun child => ?_)
    (fun child => ?_) (fun child => ?_)
  · rintro child ⟨⟨⟨⟨-, rfl⟩, rfl⟩, -⟩, -⟩
    exact Iff.rfl
  · rw [bind_eq_ok]
    constructor
    · rintro ⟨id, hid, h⟩
      cases h
      obtain ⟨⟨htag, hkey⟩, hfits⟩ := refOf_eq_ok.mp hid
      exact ⟨⟨⟨⟨⟨trivial, rfl⟩, rfl⟩, htag⟩, hkey⟩, hfits⟩
    · rintro ⟨⟨⟨⟨⟨-, rfl⟩, rfl⟩, htag⟩, hkey⟩, hfits⟩
      exact ⟨child.childObjectId, refOf_eq_ok.mpr ⟨⟨htag, hkey⟩, hfits⟩, rfl⟩
  · have htag : child.childObjectId.tag < 256 ^ 1 := by
      rcases child.childObjectId with id | number | id
      · exact Nat.succ_pos 255
      · exact (by decide : 1 < 256 ^ 1)
      · exact (by decide : 2 < 256 ^ 1)
    rw [ChildFits, show u64Bound = 256 ^ 8 from rfl]
    tauto
  · rw [append_nil]
    rfl

theorem foldl_addSlice (extents : List (ExtentSlice ObjectId)) (total : ℕ) :
    extents.foldl addSlice total = total + totalBytes extents := by
  induction extents generalizing total with
  | nil => rfl
  | cons extent rest ih =>
    rw [foldl_cons, ih, addSlice, totalBytes_cons, Nat.add_assoc]

theorem threads_addSlice {extents : List (ExtentSlice ObjectId)} {total : ℕ}
    (htotal : total < u64Bound) :
    Threads (fun total extent => total + extent.logicalLength < u64Bound) addSlice total extents ↔
      total + totalBytes extents < u64Bound := by
  induction extents generalizing total with
  | nil => exact iff_of_true trivial htotal
  | cons extent rest ih =>
    rw [Threads, totalBytes_cons, ← Nat.add_assoc]
    constructor
    · rintro ⟨hnext, hrest⟩
      exact (ih hnext).mp hrest
    · intro hall
      have hnext : total + extent.logicalLength < u64Bound := by omega
      exact ⟨hnext, (ih hnext).mpr hall⟩

theorem threads_and {prior : ℕ × ℕ} {fits : ChildDescriptor EditRef → Prop}
    {children : List (ChildDescriptor EditRef)} :
    Threads (fun prior child => Grows prior child ∧ fits child) endsOf prior children ↔
      Threads Grows endsOf prior children ∧ ∀ child ∈ children, fits child := by
  induction children generalizing prior with
  | nil => exact iff_of_true trivial ⟨trivial, fun _ h => absurd h not_mem_nil⟩
  | cons child rest ih =>
    rw [Threads, Threads, ih, forall_mem_cons]
    tauto

def Summed : DraftNode → Prop
  | .leaf bytes extents => totalBytes extents < u64Bound ∧ bytes = totalBytes extents
  | .branch level bytes count children =>
    (level ≠ 0 ∧ 2 ≤ children.length) ∧ Threads Grows endsOf (0, 0) children ∧
      children.foldl endsOf (0, 0) = (bytes, count)

def Fronts (tag level logical extents count : ℕ) (node : DraftNode) : Prop :=
  (if node.level ≠ 0 then 1 else 0) = tag ∧ node.level = level ∧ node.logicalLen = logical ∧
    node.extentCount = extents ∧ node.entryCount = count

theorem readLeafEntries_accepts (logical extents count : ℕ) :
    Accepts (readDraftEntries 0 0 logical extents count) draftEntries
      (fun node => Fronts 0 0 logical extents count node ∧ Summed node ∧ DraftFits node) := by
  rw [readDraftEntries, if_pos ⟨rfl, rfl⟩]
  have hfold : Accepts (readFold readTotaled addSlice count 0)
      (fun r => (r.1.map sliceFrame).flatten)
      (fun r => r.1.length = count ∧ totalBytes r.1 < u64Bound ∧ r.2 = totalBytes r.1) :=
    (Accepts.fold readTotaled_accepts count 0).of_iff fun r => by
      rw [threads_addSlice (by decide), foldl_addSlice, Nat.zero_add]
  have hlast : ∀ r : List (ExtentSlice ObjectId) × ℕ,
      r.1.length = count ∧ totalBytes r.1 < u64Bound ∧ r.2 = totalBytes r.1 → Accepts
        (result (ensure (r.2 == logical && extents == count)
          (.invalidRecord "temporary leaf summary")) >>= fun _ => pure (DraftNode.leaf logical r.1))
        (fun _ => []) (fun node => ((∃ slices, node = .leaf logical slices) ∧
          (node.slices, totalBytes node.slices) = r) ∧
            (totalBytes node.slices = logical ∧ extents = count) ∧ True) := by
    rintro ⟨entries, total⟩ ⟨-, -, hsum⟩
    obtain rfl : total = totalBytes entries := hsum
    refine .test _ (c := totalBytes entries = logical ∧ extents = count) (by simp) ?_
      (.done fun node => ?_)
    · rintro node ⟨-, h⟩
      cases h
      exact Iff.rfl
    · constructor
      · rintro rfl
        exact ⟨⟨entries, rfl⟩, rfl⟩
      · rintro ⟨⟨slices, rfl⟩, h⟩
        cases h
        rfl
  refine (Accepts.field_of (fun node : DraftNode => (node.slices, totalBytes node.slices)) hfold
    hlast).of_eq (fun node => ?_) ?_
  · constructor
    · rintro ⟨⟨-, hlevel, rfl, rfl, rfl⟩, hsummed, -⟩
      rcases node with ⟨bytes, slices⟩ | ⟨level, bytes, count, children⟩
      · exact ⟨⟨slices, rfl⟩, ⟨rfl, hsummed.1, rfl⟩, ⟨hsummed.2.symm, rfl⟩, trivial⟩
      · exact absurd hlevel hsummed.1.1
    · rintro ⟨⟨slices, rfl⟩, ⟨rfl, hbound, -⟩, ⟨hsum, rfl⟩, -⟩
      exact ⟨⟨rfl, rfl, rfl, rfl, rfl⟩, ⟨hbound, hsum.symm⟩, trivial⟩
  · rintro node ⟨⟨slices, rfl⟩, -⟩
    exact (append_nil _).symm

theorem readBranchEntries_accepts {level count : ℕ} (hlevel : level ≠ 0) (hcount : 2 ≤ count)
    (logical extents : ℕ) :
    Accepts (readDraftEntries 1 level logical extents count) draftEntries
      (fun node => Fronts 1 level logical extents count node ∧ Summed node ∧ DraftFits node) := by
  rw [readDraftEntries, if_neg (fun h => Nat.one_ne_zero h.1), if_pos ⟨rfl, hlevel, hcount⟩]
  have hfold : Accepts (readFold readDraftChild endsOf count (0, 0))
      (fun r => (r.1.map draftChildFrame).flatten)
      (fun r => r.1.length = count ∧ (Threads Grows endsOf (0, 0) r.1 ∧
        ∀ child ∈ r.1, ChildFits child ∧ child.childObjectId.Fits) ∧
          r.2 = r.1.foldl endsOf (0, 0)) :=
    (Accepts.fold readDraftChild_accepts count (0, 0)).of_iff fun r => by rw [threads_and]
  have hlast : ∀ r : List (ChildDescriptor EditRef) × (ℕ × ℕ),
      (r.1.length = count ∧ (Threads Grows endsOf (0, 0) r.1 ∧
        ∀ child ∈ r.1, ChildFits child ∧ child.childObjectId.Fits) ∧
          r.2 = r.1.foldl endsOf (0, 0)) → Accepts
        (result (ensure (r.2.1 == logical && r.2.2 == extents)
          (.invalidRecord "temporary branch summary")) >>= fun _ =>
            pure (DraftNode.branch level logical extents r.1))
        (fun _ => []) (fun node =>
          ((∃ children, node = .branch level logical extents children) ∧
            (node.children, node.children.foldl endsOf (0, 0)) = r) ∧
              node.children.foldl endsOf (0, 0) = (logical, extents) ∧ True) := by
    rintro ⟨children, ends⟩ ⟨-, -, hends⟩
    obtain rfl : ends = children.foldl endsOf (0, 0) := hends
    refine .test _ (c := children.foldl endsOf (0, 0) = (logical, extents))
      (by simp [Prod.ext_iff]) ?_ (.done fun node => ?_)
    · rintro node ⟨-, h⟩
      cases h
      exact Iff.rfl
    · constructor
      · rintro rfl
        exact ⟨⟨children, rfl⟩, rfl⟩
      · rintro ⟨⟨found, rfl⟩, h⟩
        cases h
        rfl
  refine (Accepts.field_of (fun node : DraftNode =>
    (node.children, node.children.foldl endsOf (0, 0))) hfold hlast).of_eq (fun node => ?_) ?_
  · constructor
    · rintro ⟨⟨-, rfl, rfl, rfl, rfl⟩, hsummed, hfits⟩
      rcases node with ⟨bytes, slices⟩ | ⟨level, bytes, count, children⟩
      · exact absurd rfl hlevel
      · exact ⟨⟨children, rfl⟩, ⟨rfl, ⟨hsummed.2.1, hfits⟩, rfl⟩, hsummed.2.2, trivial⟩
    · rintro ⟨⟨children, rfl⟩, ⟨rfl, ⟨hgrows, hfits⟩, -⟩, hsum, -⟩
      exact ⟨⟨if_pos hlevel, rfl, rfl, rfl, rfl⟩, ⟨⟨hlevel, hcount⟩, hgrows, hsum⟩, hfits⟩
  · rintro node ⟨⟨children, rfl⟩, -⟩
    exact (append_nil _).symm

/-- **The page behind the front of a record.** -/
theorem readDraftEntries_accepts (tag level logical extents count : ℕ) :
    Accepts (readDraftEntries tag level logical extents count) draftEntries
      (fun node => Fronts tag level logical extents count node ∧ Summed node ∧ DraftFits node) := by
  by_cases hleaf : tag = 0 ∧ level = 0
  · obtain ⟨rfl, rfl⟩ := hleaf
    exact readLeafEntries_accepts logical extents count
  · by_cases hbranch : tag = 1 ∧ level ≠ 0 ∧ 2 ≤ count
    · obtain ⟨rfl, hlevel, hcount⟩ := hbranch
      exact readBranchEntries_accepts hlevel hcount logical extents
    · rw [readDraftEntries, if_neg hleaf, if_neg hbranch]
      -- neither a leaf nor a branch has this front
      have hnone : ∀ node, ¬(Fronts tag level logical extents count node ∧ Summed node ∧
          DraftFits node) := by
        rintro node ⟨⟨rfl, rfl, rfl, rfl, rfl⟩, hsummed, -⟩
        rcases node with ⟨bytes, slices⟩ | ⟨level, bytes, count, children⟩
        · exact hleaf ⟨rfl, rfl⟩
        · exact hbranch ⟨if_pos hsummed.1.1, hsummed.1⟩
      intro bytes _ node rest
      rw [run_result_eq_ok]
      constructor
      · rintro ⟨h, -⟩
        cases h
      · rintro ⟨h, -⟩
        exact absurd h (hnone node)

theorem totalBytes_lt {extents : List (ExtentSlice ObjectId)}
    (h : extents.length ≤ maximumEntries) : totalBytes extents < u64Bound := by
  have hall : totalBytes extents ≤ extents.length * maximumChunkBytes := by
    clear h
    induction extents with
    | nil => exact Nat.zero_le _
    | cons extent rest ih =>
      have hinside := extent.inside
      rw [totalBytes_cons, length_cons, Nat.succ_mul]
      omega
  have hmost : extents.length * maximumChunkBytes ≤ maximumEntries * maximumChunkBytes :=
    Nat.mul_le_mul_right _ h
  exact (hall.trans hmost).trans_lt (by decide)

theorem Draft.summed {node : DraftNode} (h : Draft node) :
    (node.entryCount ≤ maximumEntries ∧ node.level ≤ maximumLevel) ∧ Summed node := by
  rcases node with ⟨bytes, slices⟩ | ⟨level, bytes, count, children⟩
  · exact ⟨⟨h.1, Nat.zero_le _⟩, totalBytes_lt h.1, h.2⟩
  · exact ⟨⟨h.2.1.2, h.1.2⟩, ⟨Nat.one_le_iff_ne_zero.mp h.1.1, h.2.1.1⟩, h.2.2⟩

theorem Draft.of_summed {node : DraftNode}
    (hsize : node.entryCount ≤ maximumEntries ∧ node.level ≤ maximumLevel) (h : Summed node) :
    Draft node := by
  rcases node with ⟨bytes, slices⟩ | ⟨level, bytes, count, children⟩
  · exact ⟨hsize.1, h.2⟩
  · exact ⟨⟨Nat.one_le_iff_ne_zero.mpr h.1.1, hsize.2⟩, ⟨h.1.2, hsize.1⟩, h.2⟩

/-- **What the reader of a record accepts**: the record of a draft. -/
theorem readDraft_accepts :
    Accepts readDraft draftFrame (fun node => Draft node ∧ DraftFits node ∧
      node.logicalLen < u64Bound ∧ node.extentCount < u64Bound) := by
  refine Accepts.record (.expect number_accepts (a := 1) (by decide)
    (fun version => by rw [ensure_eq_ok, beq_iff_eq]) <|
    .field (fun node : DraftNode => if node.level ≠ 0 then 1 else 0) number_accepts fun tag =>
    .field DraftNode.level number_accepts fun level =>
    .field DraftNode.logicalLen number_accepts fun logical =>
    .field DraftNode.extentCount number_accepts fun extents =>
    .field DraftNode.entryCount number_accepts fun count =>
    .test (fun node => node.entryCount ≤ maximumEntries ∧ node.level ≤ maximumLevel)
      (c := count ≤ maximumEntries ∧ level ≤ maximumLevel) (by simp) ?_ <|
    .rest (fun node => Summed node ∧ DraftFits node)
      (readDraftEntries_accepts tag level logical extents count) fun node => ?_)
    (fun node => ?_) (fun node => rfl)
  · rintro node ⟨⟨⟨⟨-, rfl⟩, -⟩, -⟩, rfl⟩
    exact Iff.rfl
  · rw [Fronts]
    tauto
  · have htag : (if node.level ≠ 0 then 1 else 0) < 256 ^ 1 := by split_ifs <;> decide
    have hmost : maximumEntries < 256 ^ 2 ∧ maximumLevel < 256 ^ 1 := by decide
    constructor
    · rintro ⟨hdraft, hfits, hlogical, hextents⟩
      obtain ⟨hsize, hsummed⟩ := hdraft.summed
      exact ⟨htag, by omega, hlogical, hextents, by omega, hsize, hsummed, hfits⟩
    · rintro ⟨-, -, hlogical, hextents, -, hsize, hsummed, hfits⟩
      exact ⟨Draft.of_summed hsize hsummed, hfits, hlogical, hextents⟩

/-! ## One frame for a draft -/

theorem Draft.totals_lt {node : DraftNode} (h : Draft node) (hfits : DraftFits node) :
    node.logicalLen < u64Bound ∧ node.extentCount < u64Bound := by
  rcases node with ⟨bytes, slices⟩ | ⟨level, bytes, count, children⟩
  · have hfew : slices.length ≤ maximumEntries := h.1
    have hmost : maximumEntries < u64Bound := by decide
    exact ⟨h.2 ▸ totalBytes_lt h.1, lt_of_le_of_lt hfew hmost⟩
  · obtain ⟨-, ⟨htwo, -⟩, -, hends⟩ := h
    -- the totals are the ends of the last child
    have hlast : ∀ (l : List (ChildDescriptor EditRef)) (prior : ℕ × ℕ),
        (prior.1 < u64Bound ∧ prior.2 < u64Bound) →
        (∀ child ∈ l, ChildFits child ∧ child.childObjectId.Fits) →
        (l.foldl endsOf prior).1 < u64Bound ∧ (l.foldl endsOf prior).2 < u64Bound := by
      intro l
      induction l with
      | nil => exact fun _ hprior _ => hprior
      | cons child rest ih =>
        intro prior _ hall
        obtain ⟨hchild, hrest⟩ := forall_mem_cons.mp hall
        exact ih _ hchild.1 hrest
    have hboth := hlast children (0, 0) ⟨by decide, by decide⟩ hfits
    rw [hends] at hboth
    exact hboth

/-- **What is read**: the record of a draft, and no other bytes. -/
theorem decodeDraft_eq_ok {bytes : Bytes} {node : DraftNode} (hbytes : IsBytes bytes) :
    decodeDraft bytes = .ok node ↔ Draft node ∧ DraftFits node ∧ bytes = draftFrame node := by
  rw [decodeDraft, bind_eq_ok]
  constructor
  · rintro ⟨⟨found, rest⟩, hread, h⟩
    rw [check_bind_eq_ok] at h
    obtain ⟨hrest, h⟩ := h
    cases h
    obtain ⟨⟨hdraft, hfits, -⟩, rfl⟩ := (readDraft_accepts _ hbytes _ _).mp hread
    rw [ensure_eq_ok, List.isEmpty_iff] at hrest
    rw [hrest, append_nil]
    exact ⟨hdraft, hfits, rfl⟩
  · rintro ⟨hdraft, hfits, rfl⟩
    refine ⟨(node, []), (readDraft_accepts _ hbytes _ _).mpr
      ⟨⟨hdraft, hfits, hdraft.totals_lt hfits⟩, (append_nil _).symm⟩, rfl⟩

theorem isBytes_draftFrame (node : DraftNode) : IsBytes (draftFrame node) := by
  refine (isBytes_be 1 _).append ((isBytes_be 1 _).append ((isBytes_be 1 _).append
    ((isBytes_be 8 _).append ((isBytes_be 8 _).append ((isBytes_be 2 _).append ?_)))))
  rcases node with ⟨bytes, slices⟩ | ⟨level, bytes, count, children⟩
  · refine isBytes_flatten fun frame hframe => ?_
    obtain ⟨extent, -, rfl⟩ := mem_map.mp hframe
    exact extent.payloadObjectId.isBytes.append ((isBytes_be 4 _).append (isBytes_be 4 _))
  · refine isBytes_flatten fun frame hframe => ?_
    obtain ⟨child, -, rfl⟩ := mem_map.mp hframe
    exact (isBytes_be 8 _).append ((isBytes_be 8 _).append
      ((isBytes_be 1 _).append child.childObjectId.key.isBytes))

/-- **What is written**: the record of a draft, which reads back as the draft. -/
theorem encodeDraft_eq_ok {node : DraftNode} (hdraft : Draft node) (hfits : DraftFits node) :
    encodeDraft node = .ok (draftFrame node) ∧ decodeDraft (draftFrame node) = .ok node := by
  have hread := (decodeDraft_eq_ok (isBytes_draftFrame node)).mpr ⟨hdraft, hfits, rfl⟩
  obtain ⟨hsize, -⟩ := hdraft.summed
  refine ⟨?_, hread⟩
  rw [encodeDraft, ensure_pass _ (by simpa using hsize), ok_bind, hread]
  rfl

end LayerFs.Codec
