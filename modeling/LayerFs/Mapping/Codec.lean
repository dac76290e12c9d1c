import LayerFs.Mapping.Types
import LayerFs.Object.Envelope

/-!
# The bytes of extent pages and file states (`file/mapping/codec.rs`)

A page is a header of 31 bytes and its entries of a fixed width; its context, root or not, is not
among the bytes and is given to both directions. Identities are 32 bytes here, and the profile
identity is a parameter.

* `decodeNodeWithContext_frame` — **the bytes of a page** decode as the page in its context, with
  the same answer and the same refusals.
* `encodeNode_eq_ok`, `decodeNodeWithContext_eq_ok` — **one frame for a page** that passes its
  check, and no other bytes.
-/

namespace LayerFs.Codec

open List

open Wire

variable {root : Bool} (node : ExtentNode ObjectId)

/-! ## Constants -/

/-- `MAGIC`: `LFS4MAP` and a zero. -/
def magic : Bytes := [0x4C, 0x46, 0x53, 0x34, 0x4D, 0x41, 0x50, 0x00]
/-- `VERSION`. -/
def mappingVersion : ℕ := 3
/-- `LEAF`. -/
def leafRole : ℕ := 0x08
/-- `BRANCH`. -/
def branchRole : ℕ := 0x09
/-- `FILE_STATE`. -/
def fileStateRole : ℕ := 0x0a
/-- `NODE_HEADER_LEN`. -/
def nodeHeaderLen : ℕ := 31
/-- `LEAF_ENTRY_LEN`. -/
def leafEntryLen : ℕ := 40
/-- `BRANCH_ENTRY_LEN`. -/
def branchEntryLen : ℕ := 48
/-- `FILE_STATE_VALUE_LEN`. -/
def fileStateValueLen : ℕ := 93
/-- `MAX_NODE_OBJECT_BYTES`. -/
def maximumNodeObjectBytes : ℕ := 8192

/-! ## Frames -/

/-- What a header says. -/
structure Header where
  role : ℕ
  level : ℕ
  count : ℕ
  logical : ℕ
  extents : ℕ
  deriving DecidableEq

def Header.Fits (header : Header) : Prop :=
  header.role < 256 ∧ header.level < 256 ∧ header.count < 65536 ∧ header.logical < u64Bound ∧
    header.extents < u64Bound

def versioned (rest : Bytes) : Bytes := magic ++ (be 2 mappingVersion ++ rest)

def Header.frame (header : Header) : Bytes :=
  versioned (be 1 header.role ++ (be 1 header.level ++ (be 1 0 ++ (be 2 header.count ++
    (be 8 header.logical ++ be 8 header.extents)))))

def sliceFrame (extent : ExtentSlice ObjectId) : Bytes :=
  extent.payloadObjectId.bytes ++ (be 4 extent.sourceOffset ++ be 4 extent.logicalLength)

def childFrame (child : ChildDescriptor ObjectId) : Bytes :=
  be 8 child.cumulativeLogicalEnd ++ (be 8 child.cumulativeExtentEnd ++ child.childObjectId.bytes)

def headerOf : ExtentNode ObjectId → Header
  | .leaf bytes extents => ⟨leafRole, 0, extents.length, bytes, extents.length⟩
  | .branch level bytes count children => ⟨branchRole, level, children.length, bytes, count⟩

def entriesFrame : ExtentNode ObjectId → Bytes
  | .leaf _ extents => (extents.map sliceFrame).flatten
  | .branch _ _ _ children => (children.map childFrame).flatten

def entryLenOf : ExtentNode ObjectId → ℕ
  | .leaf _ _ => leafEntryLen
  | .branch _ _ _ _ => branchEntryLen

/-- **The bytes of a page.** -/
def nodeObject (node : ExtentNode ObjectId) : Bytes :=
  envelope ((headerOf node).frame ++ entriesFrame node)

/-! ## Encoding -/

/-- `encode_node`: a page after its check in the context it will be decoded in. -/
def encodeNode (node : ExtentNode ObjectId) (root : Bool) : ContentResult Bytes := do
  node.validate root
  let valueLen := nodeHeaderLen + node.entryCount * entryLenOf node
  let canonicalLength ← canonicalLen valueLen
  ensure (decide (canonicalLength ≤ maximumNodeObjectBytes))
    (.objectLimitExceeded maximumNodeObjectBytes canonicalLength)
  ensure (decide (node.entryCount < 65536)) .lengthOverflow
  encodeBytesObject ((headerOf node).frame ++ entriesFrame node)

/-! ## Decoding -/

/-- `check_prefix`. -/
def checkPrefix : Reading ContentError Unit := do
  let found ← takeExactly .unexpectedEof 8
  result (ensure (found == magic) .unsupportedFraming)
  let version ← number .unexpectedEof 2
  result (ensure (version == mappingVersion) (.unsupportedMappingVersion version))

def readHeader : Reading ContentError Header := do
  checkPrefix
  let role ← number .unexpectedEof 1
  let level ← number .unexpectedEof 1
  let flags ← number .unexpectedEof 1
  result (ensure (flags == 0) (.invalidRecord "extent flags"))
  let count ← number .unexpectedEof 2
  let logical ← number .unexpectedEof 8
  let extents ← number .unexpectedEof 8
  return ⟨role, level, count, logical, extents⟩

def entryLen (role : ℕ) : ContentResult ℕ :=
  if role = leafRole then .ok leafEntryLen
  else if role = branchRole then .ok branchEntryLen
  else .error (.invalidMappingTag role)

def readSlice : Reading ContentError (ExtentSlice ObjectId) := do
  let id ← readBlock .unexpectedEof 32
  let offset ← number .unexpectedEof 4
  let length ← number .unexpectedEof 4
  result (ExtentSlice.new id offset length)

def readChild : Reading ContentError (ChildDescriptor ObjectId) := do
  let logicalEnd ← number .unexpectedEof 8
  let extentEnd ← number .unexpectedEof 8
  let id ← readBlock .unexpectedEof 32
  return ⟨logicalEnd, extentEnd, id⟩

def readNode (header : Header) : Reading ContentError (ExtentNode ObjectId) :=
  if header.role = leafRole then do
    result (ensure (header.level == 0 && header.extents == header.count)
      (.invalidRecord "extent leaf header"))
    let extents ← readMany readSlice header.count
    return .leaf header.logical extents
  else do
    result (ensure (header.level != 0) (.invalidRecord "extent branch level"))
    let children ← readMany readChild header.count
    return .branch header.level header.logical header.extents children

/-- `decode_node_with_context`: a page under its actual root or non-root context. -/
def decodeNodeWithContext (canonical : Bytes) (root : Bool) :
    ContentResult (ExtentNode ObjectId) := do
  ensure (decide (canonical.length ≤ maximumNodeObjectBytes))
    (.objectLimitExceeded maximumNodeObjectBytes canonical.length)
  let value ← decodeBytesObject canonical
  ensure (decide (nodeHeaderLen ≤ value.length)) .unexpectedEof
  let (header, body) ← readHeader.run value
  let width ← entryLen header.role
  ensure (decide (header.count * width ≤ body.length)) .unexpectedEof
  ensure (decide (body.length ≤ header.count * width)) .trailingBytes
  let (node, _) ← (readNode header).run body
  node.validate root
  return node

/-! ## What the readers accept -/

theorem checkPrefix_accepts :
    Accepts checkPrefix (fun _ => magic ++ be 2 mappingVersion) (fun _ => True) := by
  have hversion : Accepts
      (number .unexpectedEof 2 >>= fun version =>
        result (ensure (version == mappingVersion) (.unsupportedMappingVersion version)))
      (fun _ => be 2 mappingVersion) (fun _ => True) :=
    number_accepts.expect_last (by decide) fun _ => by rw [ensure_eq_ok, beq_iff_eq]
  exact takeExactly_accepts.expect (a := magic) ⟨rfl, by decide⟩
    (fun _ => by rw [ensure_eq_ok, beq_iff_eq]) hversion

theorem Accepts.versioned {α : Type} {k : Reading ContentError α} {frame : α → Bytes}
    {fits : α → Prop} (hk : Accepts k frame fits) :
    Accepts (checkPrefix >>= fun _ => k) (fun a => versioned (frame a)) fits :=
  (Accepts.bind (fun _ => ()) checkPrefix_accepts fun _ =>
    hk.of_iff fun _ => and_iff_right rfl).of_eq (fun _ => (and_iff_right trivial).symm)
    (fun _ _ => by rw [Codec.versioned, append_assoc])

theorem readHeader_accepts : Accepts readHeader Header.frame Header.Fits := by
  refine (Accepts.versioned (Accepts.record (.field Header.role number_accepts fun role =>
    .field Header.level number_accepts fun level => .expect number_accepts (a := 0) (by decide)
    (fun flags => by rw [ensure_eq_ok, beq_iff_eq]) <|
    .field Header.count number_accepts fun count =>
    .field Header.logical number_accepts fun logical =>
    .field Header.extents number_accepts fun extents => .done fun header => ?_)
    (fun header => ?_) (fun header => ?_))).of_eq (fun _ => Iff.rfl) (fun _ _ => rfl)
  · rw [Header.mk.injEq]
    tauto
  · rw [and_true]
    rfl
  · rw [append_nil]

theorem sliceNew_eq_ok {id : ObjectId} {offset length : ℕ} {extent : ExtentSlice ObjectId} :
    ExtentSlice.new id offset length = .ok extent ↔
      extent.payloadObjectId = id ∧ extent.sourceOffset = offset ∧
        extent.logicalLength = length := by
  rw [ExtentSlice.new]
  constructor
  · intro h
    split_ifs at h
    cases h
    exact ⟨rfl, rfl, rfl⟩
  · rintro ⟨rfl, rfl, rfl⟩
    rw [dif_pos ⟨extent.nonempty, extent.inside⟩]

theorem slice_fits (extent : ExtentSlice ObjectId) :
    extent.sourceOffset < 256 ^ 4 ∧ extent.logicalLength < 256 ^ 4 := by
  have hinside := extent.inside
  have hbound : maximumChunkBytes < 256 ^ 4 := by decide
  omega

theorem readSlice_accepts : Accepts readSlice sliceFrame (fun _ => True) := by
  refine Accepts.record (.field ExtentSlice.payloadObjectId readBlock_accepts fun id =>
    .field ExtentSlice.sourceOffset number_accepts fun offset =>
    .field ExtentSlice.logicalLength number_accepts fun length =>
    .made (fun _ => True) fun extent => ?_)
    (fun extent => ?_) (fun extent => ?_)
  · rw [sliceNew_eq_ok]
    tauto
  · have hfits := slice_fits extent
    tauto
  · rw [append_nil]
    rfl

def ChildFits {Id : Type} (child : ChildDescriptor Id) : Prop :=
  child.cumulativeLogicalEnd < u64Bound ∧ child.cumulativeExtentEnd < u64Bound

instance {Id : Type} {child : ChildDescriptor Id} : Decidable (ChildFits child) :=
  inferInstanceAs (Decidable (_ ∧ _))

theorem readChild_accepts : Accepts readChild childFrame ChildFits := by
  refine Accepts.record (
    .field ChildDescriptor.cumulativeLogicalEnd number_accepts fun logicalEnd =>
    .field ChildDescriptor.cumulativeExtentEnd number_accepts fun extentEnd =>
    .field ChildDescriptor.childObjectId readBlock_accepts fun id => .done fun child => ?_)
    (fun child => ?_) (fun child => ?_)
  · rw [ChildDescriptor.mk.injEq]
    tauto
  · rw [and_true, and_true]
    rfl
  · rw [append_nil]
    rfl

/-- A page its header can stand for: a branch lies above the leaves, its children fit. -/
def Shaped : ExtentNode ObjectId → Prop
  | .leaf _ _ => True
  | .branch level _ _ children => level ≠ 0 ∧ ∀ child ∈ children, ChildFits child

def slicesOf {Id : Type} : ExtentNode Id → List (ExtentSlice Id)
  | .leaf _ extents => extents
  | .branch _ _ _ _ => []

def childrenOf {Id : Type} : ExtentNode Id → List (ChildDescriptor Id)
  | .leaf _ _ => []
  | .branch _ _ _ children => children

theorem readNode_accepts {header : Header}
    (hrole : header.role = leafRole ∨ header.role = branchRole) :
    Accepts (readNode header) entriesFrame
      (fun node => headerOf node = header ∧ Shaped node) := by
  rcases header with ⟨role, level, count, logical, extents⟩
  dsimp only at hrole
  rw [readNode]
  by_cases hleaf : role = leafRole
  · rw [if_pos hleaf]
    have hread : Accepts (readMany readSlice count >>= fun slices =>
        pure (ExtentNode.leaf logical slices)) (fun node => ((slicesOf node).map sliceFrame).flatten
          ++ []) (fun node => (∃ slices, node = .leaf logical slices) ∧
            ((slicesOf node).length = count ∧ ∀ extent ∈ slicesOf node, True) ∧ True) := by
      refine .field slicesOf (readSlice_accepts.many count) fun slices => .done fun node => ?_
      constructor
      · rintro rfl
        exact ⟨⟨slices, rfl⟩, rfl⟩
      · rintro ⟨⟨slices', rfl⟩, rfl⟩
        rfl
    refine (Accepts.check (c := level = 0 ∧ extents = count) (by simp) hread).of_eq ?_ ?_
    · intro node
      constructor
      · rintro ⟨hheader, -⟩
        rcases node with ⟨bytes, slices⟩ | ⟨level', bytes, count', children⟩
        · cases hheader
          exact ⟨⟨rfl, rfl⟩, ⟨slices, rfl⟩, ⟨rfl, fun _ _ => trivial⟩, trivial⟩
        · cases hheader
          exact absurd hleaf (by decide)
      · rintro ⟨⟨rfl, rfl⟩, ⟨slices, rfl⟩, ⟨rfl, -⟩, -⟩
        cases hleaf
        exact ⟨rfl, trivial⟩
    · rintro node ⟨-, ⟨slices, rfl⟩, -⟩
      exact (append_nil _).symm
  · rw [if_neg hleaf]
    have hbranch : role = branchRole := hrole.resolve_left hleaf
    have hread : Accepts (readMany readChild count >>= fun children =>
        pure (ExtentNode.branch level logical extents children))
        (fun node => ((childrenOf node).map childFrame).flatten ++ [])
        (fun node => (∃ children, node = .branch level logical extents children) ∧
          ((childrenOf node).length = count ∧ ∀ child ∈ childrenOf node, ChildFits child) ∧
            True) := by
      refine .field childrenOf (readChild_accepts.many count) fun children => .done fun node => ?_
      constructor
      · rintro rfl
        exact ⟨⟨children, rfl⟩, rfl⟩
      · rintro ⟨⟨children', rfl⟩, rfl⟩
        rfl
    refine (Accepts.check (c := level ≠ 0) (by simp) hread).of_eq ?_ ?_
    · intro node
      constructor
      · rintro ⟨hheader, hshaped⟩
        rcases node with ⟨bytes, slices⟩ | ⟨level', bytes, count', children⟩
        · cases hheader
          exact absurd rfl hleaf
        · cases hheader
          exact ⟨hshaped.1, ⟨children, rfl⟩, ⟨rfl, hshaped.2⟩, trivial⟩
      · rintro ⟨hlevel, ⟨children, rfl⟩, ⟨rfl, hchildren⟩, -⟩
        cases hbranch
        exact ⟨rfl, hlevel, hchildren⟩
    · rintro node ⟨-, ⟨children, rfl⟩, -⟩
      exact (append_nil _).symm

/-! ## One frame for a page -/

/-- The numbers of a page are those of its types: levels of eight bits, lengths of sixty-four. -/
def NodeFits : ExtentNode ObjectId → Prop
  | .leaf bytes _ => bytes < u64Bound
  | .branch level bytes count children =>
    level < 256 ∧ bytes < u64Bound ∧ count < u64Bound ∧ ∀ child ∈ children, ChildFits child

theorem checkExtents_lt {previous : Option (ExtentSlice ObjectId)}
    {total sum : ℕ} {extents : List (ExtentSlice ObjectId)} (htotal : total < u64Bound)
    (h : ExtentNode.checkExtents previous total extents = .ok sum) : sum < u64Bound := by
  induction extents generalizing previous total with
  | nil =>
    cases h
    exact htotal
  | cons extent rest ih =>
    rw [ExtentNode.checkExtents, check_bind_eq_ok] at h
    obtain ⟨-, h⟩ := h
    obtain ⟨next, hnext, h⟩ := bind_eq_ok.mp h
    obtain ⟨hlt, rfl⟩ := checkedAdd_eq_ok.mp hnext
    exact ih hlt h

/-- **What a check of a page tells of its bytes**: few entries, and a leaf or a level the grammar
can express. -/
theorem validate_eq_ok {node : ExtentNode ObjectId} (h : node.validate root = .ok ()) :
    node.entryCount ≤ maximumEntries ∧ match node with
      | .leaf bytes _ => bytes < u64Bound
      | .branch level _ _ _ => 1 ≤ level ∧ level ≤ maximumLevel := by
  rw [ExtentNode.validate.eq_def, check_bind_eq_ok] at h
  obtain ⟨hcount, h⟩ := h
  simp only [ensure_eq_ok, Bool.and_eq_true, decide_eq_true_eq] at hcount
  refine ⟨hcount.1, ?_⟩
  rcases node with ⟨bytes, extents⟩ | ⟨level, bytes, count, children⟩
  · obtain ⟨total, htotal, hsame⟩ := bind_eq_ok.mp h
    have hlt := checkExtents_lt (by decide) htotal
    rw [ensure_eq_ok, beq_iff_eq] at hsame
    exact hsame ▸ hlt
  · obtain ⟨hlevel, -⟩ := check_bind_eq_ok.mp h
    simp only [ensure_eq_ok, Bool.and_eq_true, decide_eq_true_eq] at hlevel
    exact hlevel.1

theorem length_headerFrame (header : Header) : header.frame.length = nodeHeaderLen := by
  simp [Header.frame, versioned, magic, nodeHeaderLen]

theorem length_flatten_of_width {α : Type} {frame : α → Bytes} {width : ℕ}
    (h : ∀ a, (frame a).length = width) (l : List α) :
    (l.map frame).flatten.length = l.length * width := by
  induction l with
  | nil => simp
  | cons a l ih =>
    rw [map_cons, flatten_cons, length_append, ih, h, length_cons, Nat.succ_mul,
      Nat.add_comm]

theorem length_entriesFrame : (entriesFrame node).length = node.entryCount * entryLenOf node := by
  rcases node with ⟨bytes, extents⟩ | ⟨level, bytes, count, children⟩
  · refine length_flatten_of_width (fun extent => ?_) extents
    simp [sliceFrame, extent.payloadObjectId.length_eq, entryLenOf, leafEntryLen]
  · refine length_flatten_of_width (fun child => ?_) children
    simp [childFrame, child.childObjectId.length_eq, entryLenOf, branchEntryLen]

theorem entryLen_headerOf : entryLen (headerOf node).role = .ok (entryLenOf node) := by
  rcases node with ⟨bytes, extents⟩ | ⟨level, bytes, count, children⟩ <;> rfl

theorem count_headerOf : (headerOf node).count = node.entryCount := by
  rcases node with ⟨bytes, extents⟩ | ⟨level, bytes, count, children⟩ <;> rfl

theorem length_value_le {node : ExtentNode ObjectId} (h : node.entryCount ≤ maximumEntries) :
    nodeHeaderLen + node.entryCount * entryLenOf node ≤ 6175 := by
  have hwidth : entryLenOf node ≤ 48 := by
    rcases node with ⟨bytes, extents⟩ | ⟨level, bytes, count, children⟩
    · exact (by decide : leafEntryLen ≤ 48)
    · exact le_refl 48
  have hproduct : node.entryCount * entryLenOf node ≤ 128 * 48 := Nat.mul_le_mul h hwidth
  rw [nodeHeaderLen]
  omega

theorem isBytes_nodeObject : IsBytes (nodeObject node) := by
  refine isBytes_envelope (IsBytes.append ?_ ?_)
  · refine IsBytes.append (by decide) ((isBytes_be 2 _).append ((isBytes_be 1 _).append
      ((isBytes_be 1 _).append ((isBytes_be 1 _).append ((isBytes_be 2 _).append
        ((isBytes_be 8 _).append (isBytes_be 8 _)))))))
  · rcases node with ⟨bytes, extents⟩ | ⟨level, bytes, count, children⟩
    · refine isBytes_flatten fun frame hframe => ?_
      obtain ⟨extent, -, rfl⟩ := mem_map.mp hframe
      exact extent.payloadObjectId.isBytes.append ((isBytes_be 4 _).append (isBytes_be 4 _))
    · refine isBytes_flatten fun frame hframe => ?_
      obtain ⟨child, -, rfl⟩ := mem_map.mp hframe
      exact (isBytes_be 8 _).append ((isBytes_be 8 _).append child.childObjectId.isBytes)

/-- **What is written**: the bytes of a page that passes its check. -/
theorem encodeNode_eq_ok {node : ExtentNode ObjectId} {root : Bool} {canonical : Bytes} :
    encodeNode node root = .ok canonical ↔
      node.validate root = .ok () ∧ canonical = nodeObject node := by
  rw [encodeNode, check_bind_eq_ok]
  refine and_congr_right fun hvalid => ?_
  have hcount := (validate_eq_ok hvalid).1
  have hshort := length_value_le hcount
  have hlength : ((headerOf node).frame ++ entriesFrame node).length =
      nodeHeaderLen + node.entryCount * entryLenOf node := by
    rw [length_append, length_headerFrame, length_entriesFrame]
  have hfield : nodeHeaderLen + node.entryCount * entryLenOf node ≤ maximumObjectFieldBytes := by
    rw [maximumObjectFieldBytes]
    omega
  dsimp only
  rw [canonicalLen_eq_ok.mpr ⟨hfield, rfl⟩, ok_bind, check_bind_eq_ok, check_bind_eq_ok,
    encodeBytesObject_eq_ok, hlength, nodeObject]
  simp only [ensure_eq_ok, decide_eq_true_eq]
  constructor
  · rintro ⟨-, -, -, rfl⟩
    rfl
  · rintro rfl
    refine ⟨?_, ?_, hfield, rfl⟩
    · rw [maximumNodeObjectBytes]
      omega
    · have hmost : maximumEntries < 65536 := by decide
      omega

/-- **The bytes of a page decode as the page** in its context: the answer is its check's. -/
theorem decodeNodeWithContext_frame {node : ExtentNode ObjectId} (root : Bool)
    (hfits : NodeFits node) (hshaped : Shaped node) (hcount : node.entryCount ≤ maximumEntries) :
    decodeNodeWithContext (nodeObject node) root =
      LayerFs.decodeNodeWithContext (.page node) root := by
  have hshort := length_value_le hcount
  have hbytes := isBytes_nodeObject node
  have hvalueBytes := isBytes_of_envelope hbytes
  have hlength : ((headerOf node).frame ++ entriesFrame node).length =
      nodeHeaderLen + node.entryCount * entryLenOf node := by
    rw [length_append, length_headerFrame, length_entriesFrame]
  have hobject : (nodeObject node).length ≤ maximumNodeObjectBytes := by
    rw [nodeObject, length_envelope, hlength, maximumNodeObjectBytes]
    omega
  have hfield : ((headerOf node).frame ++ entriesFrame node).length ≤ maximumObjectFieldBytes := by
    rw [hlength, maximumObjectFieldBytes]
    omega
  have hheader : (headerOf node).Fits := by
    have hmost : maximumEntries < 65536 := by decide
    have hsmall : (65536 : ℕ) < u64Bound := by decide
    rcases node with ⟨bytes, extents⟩ | ⟨level, bytes, count, children⟩
    · have hextents : extents.length ≤ maximumEntries := hcount
      have hfew : extents.length < 65536 := by omega
      exact ⟨(by decide : leafRole < 256), (by decide : 0 < 256), hfew, hfits, hfew.trans hsmall⟩
    · have hchildren : children.length ≤ maximumEntries := hcount
      have hfew : children.length < 65536 := by omega
      exact ⟨(by decide : branchRole < 256), hfits.1, hfew, hfits.2.1, hfits.2.2.1⟩
  have hrole : (headerOf node).role = leafRole ∨ (headerOf node).role = branchRole := by
    rcases node with ⟨bytes, extents⟩ | ⟨level, bytes, count, children⟩
    · exact .inl rfl
    · exact .inr rfl
  have hread := (readHeader_accepts _ hvalueBytes (headerOf node) (entriesFrame node)).mpr
    ⟨hheader, rfl⟩
  have hentries := (readNode_accepts hrole _ hvalueBytes.of_append.2 node []).mpr
    ⟨⟨rfl, hshaped⟩, (append_nil _).symm⟩
  have hvalue := (decodeBytesObject_eq_ok hbytes).mpr ⟨hfield, rfl⟩
  rw [decodeNodeWithContext, ensure_pass _ (decide_eq_true hobject), ok_bind, hvalue, ok_bind,
    ensure_pass _ (decide_eq_true (by rw [hlength]; omega)), ok_bind, hread, ok_bind]
  dsimp only
  rw [entryLen_headerOf, ok_bind, count_headerOf, length_entriesFrame,
    ensure_pass _ (decide_eq_true (le_refl _)), ok_bind,
    ensure_pass _ (decide_eq_true (le_refl _)), ok_bind, hentries, ok_bind]
  rfl

/-- **What is accepted**: the bytes of a page that passes its check, and no other bytes. -/
theorem decodeNodeWithContext_eq_ok {canonical : Bytes} {node : ExtentNode ObjectId}
    (hbytes : IsBytes canonical) :
    decodeNodeWithContext canonical root = .ok node ↔
      NodeFits node ∧ node.validate root = .ok () ∧ canonical = nodeObject node := by
  constructor
  · intro h
    rw [decodeNodeWithContext, check_bind_eq_ok] at h
    obtain ⟨-, h⟩ := h
    rw [bind_eq_ok] at h
    obtain ⟨value, hvalue, h⟩ := h
    obtain ⟨-, rfl⟩ := (decodeBytesObject_eq_ok hbytes).mp hvalue
    have hvalueBytes := isBytes_of_envelope hbytes
    rw [check_bind_eq_ok] at h
    obtain ⟨-, h⟩ := h
    rw [bind_eq_ok] at h
    obtain ⟨⟨header, body⟩, hheader, h⟩ := h
    obtain ⟨hheaderFits, rfl⟩ := (readHeader_accepts _ hvalueBytes _ _).mp hheader
    rw [bind_eq_ok] at h
    obtain ⟨width, hwidth, h⟩ := h
    have hrole : header.role = leafRole ∨ header.role = branchRole := by
      rw [entryLen] at hwidth
      split_ifs at hwidth with hleaf hbranch
      · exact .inl hleaf
      · exact .inr hbranch
    rw [check_bind_eq_ok] at h
    obtain ⟨-, h⟩ := h
    rw [check_bind_eq_ok] at h
    obtain ⟨hbody, h⟩ := h
    rw [bind_eq_ok] at h
    obtain ⟨⟨page, rest⟩, hpage, h⟩ := h
    rw [check_bind_eq_ok] at h
    obtain ⟨hvalid, h⟩ := h
    cases h
    obtain ⟨⟨hsame, hshaped⟩, hentries⟩ :=
      (readNode_accepts hrole _ hvalueBytes.of_append.2 _ _).mp hpage
    -- the widths leave nothing behind the entries
    have hrest : rest = [] := by
      rw [ensure_eq_ok, decide_eq_true_eq, hentries, length_append,
        length_entriesFrame] at hbody
      rw [← hsame, entryLen_headerOf] at hwidth
      cases hwidth
      rw [← hsame, count_headerOf] at hbody
      exact length_eq_zero_iff.mp (by omega)
    rw [hrest, append_nil] at hentries
    refine ⟨?_, hvalid, ?_⟩
    · subst hsame
      rcases node with ⟨bytes, extents⟩ | ⟨level, bytes, count, children⟩
      · exact hheaderFits.2.2.2.1
      · exact ⟨hheaderFits.2.1, hheaderFits.2.2.2.1, hheaderFits.2.2.2.2, hshaped.2⟩
    · rw [nodeObject, hsame, hentries]
  · rintro ⟨hfits, hvalid, rfl⟩
    obtain ⟨hcount, hmore⟩ := validate_eq_ok hvalid
    have hshaped : Shaped node := by
      rcases node with ⟨bytes, extents⟩ | ⟨level, bytes, count, children⟩
      · trivial
      · exact ⟨Nat.ne_of_gt hmore.1, hfits.2.2.2⟩
    rw [decodeNodeWithContext_frame root hfits hshaped hcount, LayerFs.decodeNodeWithContext,
      hvalid]
    rfl

/-! ## File states -/

/-- A file state with the identity of its profile. -/
structure ProfiledState extends FileState ObjectId where
  profileId : ObjectId

def ProfiledState.Fits (state : ProfiledState) : Prop :=
  state.logicalLen < u64Bound ∧ state.extentCount < u64Bound ∧ state.treeLevel < 256

def ProfiledState.frame (state : ProfiledState) : Bytes :=
  versioned (be 1 fileStateRole ++ (be 1 0 ++ (be 8 state.logicalLen ++ (be 8 state.extentCount ++
    (be 1 state.treeLevel ++ (state.profileId.bytes ++ state.mappingRoot.bytes))))))

/-- `encode_file_state`, after the check against the profile. -/
def encodeFileState (profile : ObjectId) (state : ProfiledState) : ContentResult Bytes := do
  ensure (state.profileId == profile && decide (state.treeLevel ≤ maximumLevel))
    (.invalidRecord "file state profile")
  encodeBytesObject state.frame

def readFileState : Reading ContentError ProfiledState := do
  checkPrefix
  let role ← number .unexpectedEof 1
  result (ensure (role == fileStateRole) .wrongLogicalRole)
  let flags ← number .unexpectedEof 1
  result (ensure (flags == 0) (.invalidRecord "file state flags"))
  let logical ← number .unexpectedEof 8
  let extents ← number .unexpectedEof 8
  let level ← number .unexpectedEof 1
  let profileId ← readBlock .unexpectedEof 32
  let mappingRoot ← readBlock .unexpectedEof 32
  return ⟨⟨logical, extents, level, mappingRoot⟩, profileId⟩

/-- `decode_file_state`: width, version, profile and depth. -/
def decodeFileState (profile : ObjectId) (canonical : Bytes) : ContentResult ProfiledState := do
  let value ← decodeBytesObject canonical
  ensure (decide (fileStateValueLen ≤ value.length)) .unexpectedEof
  ensure (decide (value.length ≤ fileStateValueLen)) .trailingBytes
  let (state, _) ← readFileState.run value
  ensure (state.profileId == profile) (.invalidRecord "file state profile")
  ensure (decide (state.treeLevel ≤ maximumLevel)) .mappingDepthExceeded
  return state

theorem readFileState_accepts :
    Accepts readFileState ProfiledState.frame ProfiledState.Fits := by
  refine (Accepts.versioned (Accepts.record (.expect number_accepts (a := fileStateRole) (by decide)
    (fun role => by rw [ensure_eq_ok, beq_iff_eq]) <| .expect number_accepts (a := 0) (by decide)
    (fun flags => by rw [ensure_eq_ok, beq_iff_eq]) <|
    .field (fun state : ProfiledState => state.logicalLen) number_accepts fun logical =>
    .field (fun state : ProfiledState => state.extentCount) number_accepts fun extents =>
    .field (fun state : ProfiledState => state.treeLevel) number_accepts fun level =>
    .field ProfiledState.profileId readBlock_accepts fun profileId =>
    .field (fun state : ProfiledState => state.mappingRoot) readBlock_accepts fun mappingRoot =>
    .done fun state => ?_)
    (fun state => ?_) (fun state => ?_))).of_eq (fun _ => Iff.rfl) (fun _ _ => rfl)
  · rcases state with ⟨⟨logical', extents', level', mappingRoot'⟩, profileId'⟩
    simp only [ProfiledState.mk.injEq, FileState.mk.injEq]
    tauto
  · simp only [and_true]
    rfl
  · simp only [append_nil]

theorem length_fileStateFrame (state : ProfiledState) : state.frame.length = fileStateValueLen := by
  simp [ProfiledState.frame, versioned, magic, fileStateValueLen, state.profileId.length_eq,
    state.mappingRoot.length_eq]

theorem isBytes_fileStateFrame (state : ProfiledState) : IsBytes state.frame :=
  IsBytes.append (by decide) ((isBytes_be 2 _).append ((isBytes_be 1 _).append
    ((isBytes_be 1 _).append ((isBytes_be 8 _).append ((isBytes_be 8 _).append
      ((isBytes_be 1 _).append (state.profileId.isBytes.append state.mappingRoot.isBytes)))))))

/-- **What is written**: the bytes of a file state of the profile. -/
theorem encodeFileState_eq_ok {profile : ObjectId} {state : ProfiledState} {canonical : Bytes} :
    encodeFileState profile state = .ok canonical ↔
      (state.profileId = profile ∧ state.treeLevel ≤ maximumLevel) ∧
        canonical = envelope state.frame := by
  rw [encodeFileState, check_bind_eq_ok, encodeBytesObject_eq_ok, length_fileStateFrame]
  simp only [ensure_eq_ok, Bool.and_eq_true, beq_iff_eq, decide_eq_true_eq]
  exact and_congr_right fun _ => and_iff_right (by decide)

/-- **What is accepted**: the bytes of a file state of the profile, and no other bytes. -/
theorem decodeFileState_eq_ok {profile : ObjectId} {canonical : Bytes} {state : ProfiledState}
    (hbytes : IsBytes canonical) :
    decodeFileState profile canonical = .ok state ↔
      state.Fits ∧ (state.profileId = profile ∧ state.treeLevel ≤ maximumLevel) ∧
        canonical = envelope state.frame := by
  rw [decodeFileState]
  constructor
  · intro h
    rw [bind_eq_ok] at h
    obtain ⟨value, hvalue, h⟩ := h
    obtain ⟨-, rfl⟩ := (decodeBytesObject_eq_ok hbytes).mp hvalue
    rw [check_bind_eq_ok] at h
    obtain ⟨-, h⟩ := h
    rw [check_bind_eq_ok] at h
    obtain ⟨hmost, h⟩ := h
    rw [bind_eq_ok] at h
    obtain ⟨⟨found, rest⟩, hread, h⟩ := h
    rw [check_bind_eq_ok] at h
    obtain ⟨hprofile, h⟩ := h
    rw [check_bind_eq_ok] at h
    obtain ⟨hlevel, h⟩ := h
    cases h
    obtain ⟨hfits, rfl⟩ := (readFileState_accepts _ (isBytes_of_envelope hbytes) _ _).mp hread
    rw [ensure_eq_ok, decide_eq_true_eq, length_append, length_fileStateFrame] at hmost
    rw [ensure_eq_ok, beq_iff_eq] at hprofile
    rw [ensure_eq_ok, decide_eq_true_eq] at hlevel
    have hrest : rest = [] := length_eq_zero_iff.mp (by omega)
    rw [hrest, append_nil]
    exact ⟨hfits, ⟨hprofile, hlevel⟩, rfl⟩
  · rintro ⟨hfits, ⟨hprofile, hlevel⟩, rfl⟩
    have hlength := length_fileStateFrame state
    have hfield : state.frame.length ≤ maximumObjectFieldBytes := by
      rw [hlength]
      decide
    have hread := (readFileState_accepts _ (isBytes_fileStateFrame state) state []).mpr
      ⟨hfits, (append_nil _).symm⟩
    rw [(decodeBytesObject_eq_ok hbytes).mpr ⟨hfield, rfl⟩, ok_bind, hlength,
      ensure_pass _ (decide_eq_true (le_refl _)), ok_bind,
      ensure_pass _ (decide_eq_true (le_refl _)), ok_bind, hread, ok_bind]
    dsimp only
    rw [ensure_pass _ (beq_iff_eq.mpr hprofile), ok_bind, ensure_pass _ (decide_eq_true hlevel)]
    rfl

end LayerFs.Codec
