import LayerFs.Object.InodeLeaf

/-!
# The bytes of sorted pages (`filesystem/sorted/format.rs`)

A page is the envelope of a header and its rows: a name and a serial or a child in a directory, a
serial and a value or a child in the inode table. The decoder keeps the children of a branch and
the values of a leaf apart, and recorded totals are what a branch says of its subtree.

* `encodeDirectory_eq_ok`, `decodeDirectory_eq_ok`, `encodeInodes_eq_ok`, `decodeInodes_eq_ok` —
  **what is written and what is accepted**, each under the same frame.
-/

namespace LayerFs.SortedCodec

open List

open Wire Codec InodeCodec

variable {body bytes canonical magic value : Bytes} {header : PageHeader} {α : Type} {l : List α}
  {frame : α → Bytes} {count level size total : ℕ} (name : PathName)

/-! ## Pages -/

/-- One row of a page, decoded or handed to an encoder: a child in a branch, a value in a leaf. -/
structure WireEntry (K V : Type) where
  key : K
  /-- child page identity; a branch row only -/
  child : Option ObjectId
  value : Option V

/-- One decoded page. -/
structure WirePage (K V : Type) where
  level : ℕ
  count : ℕ
  bytes : ℕ
  entries : List (WireEntry K V)
  size : ℕ

/-- A page handed to an encoder. A branch says its totals, a leaf derives them from its rows. -/
structure PageView (K V : Type) where
  level : ℕ
  /-- entries in this subtree; branches only -/
  count : ℕ
  /-- encoded row bytes in this subtree; branches only -/
  bytes : ℕ
  rows : List (WireEntry K V)

variable {K V : Type}

def WirePage.view (page : WirePage K V) : PageView K V :=
  ⟨page.level, page.count, page.bytes, page.entries⟩

/-- The recorded totals of a page whose leaf rows are of the given widths. -/
def PageView.totals (width : K → ℕ) (page : PageView K V) : ℕ × ℕ :=
  if page.level = 0 then (page.rows.length, (page.rows.map fun row => width row.key).sum)
  else (page.count, page.bytes)

def WireEntry.said (level : ℕ) (row : WireEntry K V) : WireEntry K V :=
  if level = 0 then { row with child := none } else { row with value := none }

def PageView.said (width : K → ℕ) (page : PageView K V) (size : ℕ) : WirePage K V :=
  ⟨page.level, (page.totals width).1, (page.totals width).2,
    page.rows.map (WireEntry.said page.level), size⟩

/-! ## What both formats share -/

/-- `NODE_VERSION`. -/
def nodeVersion : ℕ := 1

/-- `validate_count`. -/
def validateCount (level count maximum : ℕ) (emptyAllowed : Bool) : ContentResult Unit := do
  ensure (decide (level ≤ maximumTreeLevel)) .mappingDepthExceeded
  ensure (!((count == 0 && !emptyAllowed) || decide (maximum < count))) .nonCanonicalPagePartition
  ensure (decide (count < 65536)) (.objectLimitExceeded 65535 count)

/-- `decode_node_value`: the value of a page, with its header and the bytes behind it. -/
def decodeNodeValue (canonical magic : Bytes) : ContentResult (Bytes × PageHeader × Bytes) := do
  ensure (decide (canonical.length ≤ maximumPageBytes))
    (.objectLimitExceeded maximumPageBytes canonical.length)
  let value ← decodeBytesObject canonical
  ensure (decide (nodeHeaderBytes ≤ value.length)) .unexpectedEof
  let (header, body) ← readPageHeader.run value
  ensure (header.magic == magic) .unsupportedFraming
  ensure (header.version == nodeVersion) (.unsupportedMappingVersion header.version)
  ensure (header.flags == 0) (.invalidRecord "node flags")
  ensure (decide (header.level ≤ maximumTreeLevel)) .mappingDepthExceeded
  return (value, header, body)

def headerOf (magic : Bytes) (role level count total bytes : ℕ) : PageHeader :=
  ⟨magic, nodeVersion, role, level, 0, count, total, bytes⟩

/-- `node_header`. -/
def nodeHeader (magic : Bytes) (role level count total bytes : ℕ) : ContentResult Bytes := do
  ensure (decide (count < 65536)) .lengthOverflow
  return (headerOf magic role level count total bytes).frame

/-- `finish_node`: the object of a page value that fits the page ceiling. -/
def finishNode (value : Bytes) : ContentResult Bytes := do
  let canonical ← encodeBytesObject value
  ensure (decide (canonical.length ≤ maximumPageBytes))
    (.objectLimitExceeded maximumPageBytes canonical.length)
  return canonical

/-- `take_name`, as a name: at most 255 bytes behind their length. -/
def readName : Reading ContentError PathName := do
  let length ← number .unexpectedEof 2
  result (ensure (decide (length ≤ 255)) .pathLimitExceeded)
  let bytes ← takeExactly .unexpectedEof length
  result (PathName.fromBytes bytes)

/-- `put_name`. -/
def nameFrame (name : PathName) : Bytes := be 2 name.bytes.length ++ name.bytes

/-- A sum of `u64` numbers, checked at each step. -/
def checkedSum (widths : List ℕ) : ContentResult ℕ :=
  widths.foldlM (fun sum width => checkedAdd sum width) 0

/-! ## Directory pages -/

/-- `DIRECTORY_MAGIC`: `LFS6NSP` and a zero. -/
def directoryMagic : Bytes := [0x4C, 0x46, 0x53, 0x36, 0x4E, 0x53, 0x50, 0x00]
/-- `DIRECTORY_LEAF_ROLE`. -/
def directoryLeafRole : ℕ := 1
/-- `DIRECTORY_BRANCH_ROLE`. -/
def directoryBranchRole : ℕ := 2

def directoryLeafWidth (name : PathName) : ℕ := 2 + 8 + name.bytes.length

def readDirectoryLeafRow : Reading ContentError (WireEntry PathName ℕ) := do
  let key ← readName
  let serial ← number .unexpectedEof 8
  result (ensure (serial != 0) (.invalidRecord "directory serial"))
  return ⟨key, none, some serial⟩

def readDirectoryBranchRow : Reading ContentError (WireEntry PathName ℕ) := do
  let key ← readName
  let child ← readBlock .unexpectedEof 32
  return ⟨key, some child, none⟩

def decodeDirectoryRows (header : PageHeader) (body : Bytes) (size : ℕ) :
    ContentResult (WirePage PathName ℕ) :=
  if header.role = directoryLeafRole ∧ header.level = 0 ∧ header.subtreeCount = header.count then do
    let (entries, rest) ← (readMany readDirectoryLeafRow header.count).run body
    ensure rest.isEmpty .trailingBytes
    let expected ← checkedSum (entries.map fun entry => directoryLeafWidth entry.key)
    ensure (expected == header.subtreeBytes) (.lengthMismatch expected header.subtreeBytes)
    ensure (strictlyOrdered (entries.map WireEntry.key)) .nonCanonicalOrdering
    return ⟨header.level, header.count, header.subtreeBytes, entries, size⟩
  else if header.role = directoryBranchRole ∧ 0 < header.level ∧
      header.level ≤ maximumTreeLevel ∧ 2 ≤ header.count then do
    let (entries, rest) ← (readMany readDirectoryBranchRow header.count).run body
    ensure rest.isEmpty .trailingBytes
    ensure (strictlyOrdered (entries.map WireEntry.key)) .nonCanonicalOrdering
    return ⟨header.level, header.subtreeCount, header.subtreeBytes, entries, size⟩
  else .error (.invalidRecord "directory role/level")

/-- `CompactDirectory::decode`. -/
def decodeDirectory (canonical : Bytes) : ContentResult (WirePage PathName ℕ) := do
  let (_, header, body) ← decodeNodeValue canonical directoryMagic
  -- even the shortest leaf row needs a length, one byte of a name and a serial
  ensure (decide (header.count ≤ body.length / (2 + 1 + 8))) .unexpectedEof
  decodeDirectoryRows header body canonical.length

def directoryRow (level : ℕ) (row : WireEntry PathName ℕ) : ContentResult Bytes :=
  if level = 0 then do
    let serial ← orError row.value (.invalidRecord "directory leaf value")
    return nameFrame row.key ++ be 8 serial
  else do
    let child ← orError row.child (.invalidRecord "directory child")
    return nameFrame row.key ++ child.bytes

def directoryRole (level : ℕ) : ℕ := if level = 0 then directoryLeafRole else directoryBranchRole

/-- `max_items` of a directory page. -/
def directoryMaxItems (level : ℕ) : ℕ :=
  if level = 0 then maximumDirectoryLeafRows else defaultPageItems

/-- The totals an encoded page records. Whether a leaf fits is decided from its exact size. -/
def directoryTotals (page : PageView PathName ℕ) : ContentResult (ℕ × ℕ) :=
  if page.level = 0 then do
    let bytes ← checkedSum (page.rows.map fun row => directoryLeafWidth row.key)
    let encoded ← checkedAdd emptyPageBytes bytes
    ensure (decide (encoded ≤ maximumPageBytes)) .nonCanonicalPagePartition
    return (page.rows.length, bytes)
  else return (page.count, page.bytes)

/-- `CompactDirectory::encode`. -/
def encodeDirectory (page : PageView PathName ℕ) : ContentResult Bytes := do
  let count := page.rows.length
  validateCount page.level count (directoryMaxItems page.level) true
  ensure (strictlyOrdered (page.rows.map WireEntry.key)) .nonCanonicalOrdering
  let (total, bytes) ← directoryTotals page
  ensure (!(decide (0 < page.level) && decide (total < count)))
    (.invalidRecord "directory subtree summary")
  let header ← nodeHeader directoryMagic (directoryRole page.level) page.level count total bytes
  let rows ← page.rows.mapM (directoryRow page.level)
  finishNode (header ++ rows.flatten)

/-! ## Inode pages -/

/-- `INODE_LEAF_ROLE`. -/
def inodeLeafRole : ℕ := 7
/-- `INODE_BRANCH_ROLE`. -/
def inodeBranchRole : ℕ := 8

def readInodeBranchRow : Reading ContentError (WireEntry ℕ (InodeValue ObjectId)) := do
  let key ← number .unexpectedEof 8
  result (ensure (key != 0) (.invalidRecord "inode serial"))
  let child ← readBlock .unexpectedEof 32
  return ⟨key, some child, none⟩

/-- The rows behind the header of an inode page of this length; a leaf is decoded from its value. -/
def decodeInodesRows (header : PageHeader) (value body : Bytes) (size : ℕ) :
    ContentResult (WirePage ℕ (InodeValue ObjectId)) :=
  if header.role = inodeLeafRole ∧ header.level = 0 then do
    let entries ← decodeLeafValueWith
      (fun serial _ decoded => WireEntry.mk serial none (some decoded)) value
    return ⟨header.level, header.count, header.subtreeBytes, entries, size⟩
  else if header.role = inodeBranchRole ∧ 0 < header.level ∧ header.level ≤ maximumTreeLevel ∧
      2 ≤ header.count ∧ header.count ≤ maximumInodeBranchChildren then do
    let (entries, rest) ← (readMany readInodeBranchRow header.count).run body
    ensure rest.isEmpty .trailingBytes
    ensure (decide (header.count ≤ header.subtreeCount)) (.invalidRecord "inode subtree summary")
    ensure (decide (header.subtreeCount * leafRowBytes < u64Bound)) .lengthOverflow
    let expected := header.subtreeCount * leafRowBytes
    ensure (expected == header.subtreeBytes) (.lengthMismatch expected header.subtreeBytes)
    ensure (strictlyOrdered (entries.map WireEntry.key)) .nonCanonicalOrdering
    return ⟨header.level, header.subtreeCount, header.subtreeBytes, entries, size⟩
  else .error (.invalidRecord "inode role/level")

/-- `CompactInodes::decode`. -/
def decodeInodes (canonical : Bytes) : ContentResult (WirePage ℕ (InodeValue ObjectId)) := do
  let (value, header, body) ← decodeNodeValue canonical inodeLeafMagic
  decodeInodesRows header value body canonical.length

def checkSerials : Option ℕ → List ℕ → ContentResult Unit
  | _, [] => .ok ()
  | previous, serial :: rest => do
    ensure (previous.all (· < serial)) .nonCanonicalOrdering
    ensure (serial != 0) (.invalidRecord "inode serial")
    checkSerials (some serial) rest

def valueBlock (value : InodeValue ObjectId) : Block 73 :=
  ⟨encodeInodeValue value, length_encodeInodeValue value, isBytes_encodeInodeValue value⟩

def inodeLeafRow (row : WireEntry ℕ (InodeValue ObjectId)) : ContentResult InodeLeafRow := do
  let value ← orError row.value (.invalidRecord "inode leaf value")
  return ⟨row.key, valueBlock value⟩

def inodeBranchRow (row : WireEntry ℕ (InodeValue ObjectId)) : ContentResult Bytes := do
  let child ← orError row.child (.invalidRecord "inode child")
  return be 8 row.key ++ child.bytes

/-- `max_items` of an inode page. -/
def inodeMaxItems (level : ℕ) : ℕ :=
  if level = 0 then maximumInodeLeafRows else maximumInodeBranchChildren

/-- `CompactInodes::encode`: the byte total of a branch is that of its rows, whatever it says. -/
def encodeInodes (page : PageView ℕ (InodeValue ObjectId)) : ContentResult Bytes := do
  let count := page.rows.length
  validateCount page.level count (inodeMaxItems page.level) false
  checkSerials none (page.rows.map WireEntry.key)
  if page.level = 0 then do
    let rows ← page.rows.mapM inodeLeafRow
    let value ← encodeLeafValue rows
    finishNode value
  else do
    let total := page.count
    ensure (decide (count ≤ total)) (.invalidRecord "inode subtree summary")
    ensure (decide (total * leafRowBytes < u64Bound)) .lengthOverflow
    let header ← nodeHeader inodeLeafMagic inodeBranchRole page.level count total
      (total * leafRowBytes)
    let rows ← page.rows.mapM inodeBranchRow
    finishNode (header ++ rows.flatten)

/-! ## What both formats share: what is written and accepted -/

theorem mapM_eq_ok_iff {β : Type} {f : α → ContentResult β} {g : α → β} {P : α → Prop}
    (h : ∀ a b, f a = .ok b ↔ P a ∧ b = g a) :
    ∀ {out : List β}, l.mapM f = .ok out ↔ (∀ a ∈ l, P a) ∧ out = l.map g := by
  induction l with
  | nil =>
    intro out
    rw [mapM_nil]
    constructor
    · intro hout
      cases hout
      exact ⟨forall_mem_nil _, rfl⟩
    · rintro ⟨-, rfl⟩
      rfl
  | cons a rest ih =>
    intro out
    rw [mapM_cons, bind_eq_ok, forall_mem_cons]
    constructor
    · rintro ⟨b, hb, hout⟩
      obtain ⟨later, hlater, hout⟩ := bind_eq_ok.mp hout
      cases hout
      obtain ⟨ha, rfl⟩ := (h a b).mp hb
      obtain ⟨hrest, rfl⟩ := ih.mp hlater
      exact ⟨⟨ha, hrest⟩, rfl⟩
    · rintro ⟨⟨ha, hrest⟩, rfl⟩
      exact ⟨g a, (h a _).mpr ⟨ha, rfl⟩, bind_eq_ok.mpr ⟨rest.map g, ih.mpr ⟨hrest, rfl⟩, rfl⟩⟩

theorem validateCount_eq_ok {maximum : ℕ} {emptyAllowed : Bool} :
    validateCount level count maximum emptyAllowed = .ok () ↔
      level ≤ maximumTreeLevel ∧ (count = 0 → emptyAllowed = true) ∧ count ≤ maximum ∧
        count < 65536 := by
  rw [validateCount]
  simp only [check_bind_eq_ok, ensure_eq_ok, decide_eq_true_eq, Bool.not_or, Bool.and_eq_true,
    Bool.not_eq_true', Bool.and_eq_false_iff, beq_eq_false_iff_ne, Bool.not_eq_false',
    decide_eq_false_iff_not, not_lt]
  tauto

def pageObject (header : PageHeader) (rows : Bytes) : Bytes := envelope (header.frame ++ rows)

theorem finishNode_eq_ok :
    finishNode value = .ok canonical ↔
      (envelope value).length ≤ maximumPageBytes ∧ canonical = envelope value := by
  rw [finishNode, bind_eq_ok]
  simp only [check_bind_eq_ok, ensure_eq_ok, decide_eq_true_eq, encodeBytesObject_eq_ok]
  constructor
  · rintro ⟨found, ⟨-, rfl⟩, hfits, h⟩
    cases h
    exact ⟨hfits, rfl⟩
  · rintro ⟨hfits, rfl⟩
    refine ⟨_, ⟨?_, rfl⟩, hfits, rfl⟩
    have hfits' : (envelope value).length ≤ 8192 := hfits
    rw [length_envelope] at hfits'
    rw [maximumObjectFieldBytes]
    omega

theorem nodeHeader_eq_ok {role bytes : ℕ} {header : Bytes} :
    nodeHeader magic role level count total bytes = .ok header ↔
      count < 65536 ∧ header = (headerOf magic role level count total bytes).frame := by
  rw [nodeHeader, check_bind_eq_ok, ensure_eq_ok, decide_eq_true_eq]
  exact and_congr_right fun _ => ⟨fun h => by cases h; rfl, fun h => by rw [h]; rfl⟩

/-- **What is accepted of a page value**: a header of the format, whatever is behind it. -/
theorem decodeNodeValue_eq_ok (hbytes : IsBytes canonical) :
    decodeNodeValue canonical magic = .ok (value, header, body) ↔
      canonical.length ≤ maximumPageBytes ∧ header.Fits ∧ header.magic = magic ∧
        header.version = nodeVersion ∧ header.flags = 0 ∧ header.level ≤ maximumTreeLevel ∧
        value = header.frame ++ body ∧ canonical = envelope value := by
  rw [decodeNodeValue, check_bind_eq_ok, ensure_eq_ok, decide_eq_true_eq, bind_eq_ok]
  refine and_congr_right fun hlength => ?_
  constructor
  · rintro ⟨found, hfound, h⟩
    obtain ⟨-, rfl⟩ := (decodeBytesObject_eq_ok hbytes).mp hfound
    rw [check_bind_eq_ok] at h
    obtain ⟨-, h⟩ := h
    obtain ⟨⟨header', body'⟩, hheader, h⟩ := bind_eq_ok.mp h
    obtain ⟨hfits, rfl⟩ :=
      (readPageHeader_accepts _ (isBytes_of_envelope hbytes) _ _).mp hheader
    simp only [check_bind_eq_ok, ensure_eq_ok, beq_iff_eq, decide_eq_true_eq] at h
    obtain ⟨hmagic, hversion, hflags, hlevel, h⟩ := h
    cases h
    exact ⟨hfits, hmagic, hversion, hflags, hlevel, rfl, rfl⟩
  · rintro ⟨hfits, hmagic, hversion, hflags, hlevel, rfl, rfl⟩
    have hheader := (readPageHeader_accepts _ (isBytes_of_envelope hbytes) header body).mpr
      ⟨hfits, rfl⟩
    have hfield : (header.frame ++ body).length ≤ maximumObjectFieldBytes := by
      have hlength' : (envelope (header.frame ++ body)).length ≤ 8192 := hlength
      rw [length_envelope] at hlength'
      rw [maximumObjectFieldBytes]
      omega
    refine ⟨_, (decodeBytesObject_eq_ok hbytes).mpr ⟨hfield, rfl⟩, ?_⟩
    rw [ensure_pass, ok_bind, hheader, ok_bind]
    · simp only [check_bind_eq_ok, ensure_eq_ok, beq_iff_eq, decide_eq_true_eq]
      exact ⟨hmagic, hversion, hflags, hlevel, rfl⟩
    · rw [length_append, length_pageHeader hfits.1.1]
      exact decide_eq_true (Nat.le_add_right _ _)

theorem checkedSum_eq_ok {widths : List ℕ} :
    checkedSum widths = .ok total ↔ total = widths.sum ∧ (widths ≠ [] → widths.sum < u64Bound) := by
  have hfold : ∀ (widths : List ℕ) (start : ℕ),
      widths.foldlM (fun sum width => checkedAdd sum width) start = .ok total ↔
        total = start + widths.sum ∧ (widths ≠ [] → start + widths.sum < u64Bound) := by
    intro widths
    induction widths with
    | nil =>
      intro start
      rw [foldlM_nil, sum_nil, Nat.add_zero]
      constructor
      · intro h
        cases h
        exact ⟨rfl, fun h => absurd rfl h⟩
      · rintro ⟨rfl, -⟩
        rfl
    | cons width rest ih =>
      intro start
      rw [List.foldlM_cons, bind_eq_ok, sum_cons, ← Nat.add_assoc]
      simp only [checkedAdd_eq_ok, ih]
      constructor
      · rintro ⟨sum, ⟨hsum, rfl⟩, rfl, hrest⟩
        refine ⟨rfl, fun _ => ?_⟩
        rcases rest with _ | ⟨next, later⟩
        · rwa [sum_nil, Nat.add_zero]
        · exact hrest (cons_ne_nil _ _)
      · rintro ⟨rfl, hfits⟩
        have hfits := hfits (cons_ne_nil _ _)
        exact ⟨_, ⟨by omega, rfl⟩, rfl, fun _ => hfits⟩
  rw [checkedSum, hfold, Nat.zero_add]

theorem isBytes_of_utf8Valid (h : utf8Valid bytes = true) : IsBytes bytes := by
  fun_induction utf8Valid bytes
  case case1 => exact forall_mem_nil _
  case case2 ih => exact forall_mem_cons.mpr ⟨by omega, ih h⟩
  case case3 => cases h
  case case4 ih =>
    simp only [Bool.and_eq_true, decide_eq_true_eq, isContinuation] at *
    exact forall_mem_cons.mpr ⟨by omega, forall_mem_cons.mpr ⟨by omega, ih h.2⟩⟩
  case case5 => cases h
  case case6 ih =>
    simp only [Bool.and_eq_true, decide_eq_true_eq, isContinuation] at *
    exact forall_mem_cons.mpr ⟨by omega, forall_mem_cons.mpr ⟨by omega,
      forall_mem_cons.mpr ⟨by omega, ih h.2⟩⟩⟩
  case case7 => cases h
  case case8 ih =>
    simp only [Bool.and_eq_true, decide_eq_true_eq, isContinuation] at *
    exact forall_mem_cons.mpr ⟨by omega, forall_mem_cons.mpr ⟨by omega,
      forall_mem_cons.mpr ⟨by omega, forall_mem_cons.mpr ⟨by omega, ih h.2⟩⟩⟩⟩

theorem isBytes_name : IsBytes name.bytes := by
  have h := name.valid
  simp only [validateName, check_bind_eq_ok, ensure_eq_ok] at h
  exact isBytes_of_utf8Valid h.2.2.1

theorem pathName_eq_ok {name : PathName} :
    PathName.fromBytes bytes = .ok name ↔ name.bytes = bytes := by
  rw [PathName.fromBytes]
  constructor
  · intro h
    split at h
    · cases h
      rfl
    · cases h
  · rintro rfl
    split
    · rfl
    · rename_i e herror
      rw [name.valid] at herror
      cases herror

theorem length_name_le : name.bytes.length ≤ 255 := name.length_le

theorem length_name_pos : 0 < name.bytes.length := by
  have h := name.valid
  simp only [validateName, check_bind_eq_ok, ensure_eq_ok, Bool.not_eq_true',
    isEmpty_eq_false_iff] at h
  exact length_pos_of_ne_nil h.1

theorem readName_accepts : Accepts readName nameFrame (fun _ => True) := by
  have hlast : ∀ length, Accepts (takeExactly .unexpectedEof length >>= fun bytes =>
      result (PathName.fromBytes bytes)) PathName.bytes
      (fun name => name.bytes.length = length) := by
    intro length
    have hname : ∀ bytes : Bytes, Accepts (result (PathName.fromBytes bytes)) (fun _ => [])
        (fun name => name.bytes = bytes ∧ True) := fun bytes =>
      Accepts.result fun name => by rw [pathName_eq_ok, and_true]
    refine (Accepts.bind PathName.bytes takeExactly_accepts hname).of_eq (fun name => ?_)
      fun name _ => by rw [append_nil, id_eq]
    rw [and_true, and_iff_left (isBytes_name name)]
  refine Accepts.record (.field (fun name : PathName => name.bytes.length) number_accepts
    fun length =>
    .test (fun name : PathName => name.bytes.length ≤ 255) ensure_eq_ok
      (fun name h => by rw [decide_eq_true_eq, ← h.2]) <|
    .rest (fun _ => True) (hlast length) fun name => ?_) (fun name => ?_) (fun _ => rfl)
  · rw [true_and, and_true]
  · have hlength := length_name_le name
    have hpow : (255 : ℕ) < 256 ^ 2 := by decide
    exact ⟨fun _ => ⟨hlength.trans_lt hpow, hlength, trivial⟩, fun _ => trivial⟩

theorem length_flatten_ge {least : ℕ} (h : ∀ a ∈ l, least ≤ (frame a).length) :
    l.length * least ≤ (l.map frame).flatten.length := by
  induction l with
  | nil => rw [length_nil, Nat.zero_mul]; exact Nat.zero_le _
  | cons a rest ih =>
    have ha := h a mem_cons_self
    have hrest := ih fun x hx => h x (mem_cons_of_mem _ hx)
    rw [map_cons, flatten_cons, length_append, length_cons, Nat.succ_mul]
    omega

theorem isBytes_rows (h : ∀ a, IsBytes (frame a)) (l : List α) : IsBytes (l.map frame).flatten := by
  refine isBytes_flatten fun bytes hbytes => ?_
  obtain ⟨a, -, rfl⟩ := mem_map.mp hbytes
  exact h a

/-- **Rows of a body**, read to its end. -/
theorem readMany_end_eq_ok {m : Reading ContentError α} {fits : α → Prop}
    (hm : Accepts m frame fits) {rest : Bytes} (hbytes : IsBytes body) :
    ((readMany m count).run body = .ok (l, rest) ∧ rest.isEmpty = true) ↔
      (l.length = count ∧ ∀ a ∈ l, fits a) ∧ body = (l.map frame).flatten ∧ rest = [] := by
  rw [hm.many count _ hbytes, List.isEmpty_iff]
  constructor
  · rintro ⟨⟨hall, hbody⟩, rfl⟩
    exact ⟨hall, by rw [hbody, append_nil], rfl⟩
  · rintro ⟨hall, hbody, rfl⟩
    exact ⟨⟨hall, by rw [hbody, append_nil]⟩, rfl⟩

/-! ## Directory pages: what is written and accepted -/

def directoryRowFrame (level : ℕ) (row : WireEntry PathName ℕ) : Bytes :=
  nameFrame row.key ++
    if level = 0 then row.value.elim [] (be 8) else row.child.elim [] Block.bytes

def Filled {K V : Type} (level : ℕ) (row : WireEntry K V) : Prop :=
  if level = 0 then row.value ≠ none else row.child ≠ none

theorem directoryRow_eq_ok {row : WireEntry PathName ℕ} :
    directoryRow level row = .ok bytes ↔
      Filled level row ∧ bytes = directoryRowFrame level row := by
  rw [directoryRow, Filled, directoryRowFrame]
  split_ifs
  · rw [bind_eq_ok, Option.ne_none_iff_exists']
    constructor
    · rintro ⟨serial, hserial, h⟩
      cases h
      rw [orError_eq_ok] at hserial
      exact ⟨⟨serial, hserial⟩, by rw [hserial]; rfl⟩
    · rintro ⟨⟨serial, hserial⟩, rfl⟩
      exact ⟨serial, orError_eq_ok.mpr hserial, by rw [hserial]; rfl⟩
  · rw [bind_eq_ok, Option.ne_none_iff_exists']
    constructor
    · rintro ⟨child, hchild, h⟩
      cases h
      rw [orError_eq_ok] at hchild
      exact ⟨⟨child, hchild⟩, by rw [hchild]; rfl⟩
    · rintro ⟨⟨child, hchild⟩, rfl⟩
      exact ⟨child, orError_eq_ok.mpr hchild, by rw [hchild]; rfl⟩

def directoryHeader (page : PageView PathName ℕ) : PageHeader :=
  headerOf directoryMagic (directoryRole page.level) page.level page.rows.length
    (page.totals directoryLeafWidth).1 (page.totals directoryLeafWidth).2

def directoryObject (page : PageView PathName ℕ) : Bytes :=
  pageObject (directoryHeader page) (page.rows.map (directoryRowFrame page.level)).flatten

variable {width : K → ℕ}

theorem PageView.totals_leaf {page : PageView K V} (h : page.level = 0) :
    page.totals width = (page.rows.length, (page.rows.map fun row => width row.key).sum) := by
  rw [PageView.totals, if_pos h]

theorem PageView.totals_branch {page : PageView K V} (h : page.level ≠ 0) :
    page.totals width = (page.count, page.bytes) := by
  rw [PageView.totals, if_neg h]

variable {page : PageView PathName ℕ}

theorem directoryHeader_leaf (h : page.level = 0) :
    directoryHeader page = headerOf directoryMagic directoryLeafRole 0 page.rows.length
      page.rows.length (page.rows.map fun row => directoryLeafWidth row.key).sum := by
  rw [directoryHeader, PageView.totals_leaf h, h]
  rfl

theorem directoryHeader_branch (h : page.level ≠ 0) :
    directoryHeader page = headerOf directoryMagic directoryBranchRole page.level
      page.rows.length page.count page.bytes := by
  rw [directoryHeader, PageView.totals_branch h, directoryRole, if_neg h]

/-- **A directory page that can be written.** -/
structure DirectoryWritable (page : PageView PathName ℕ) : Prop where
  level_le : page.level ≤ maximumTreeLevel
  length_le : page.rows.length ≤ directoryMaxItems page.level
  ascending : (page.rows.map WireEntry.key).Pairwise (· < ·)
  filled : ∀ row ∈ page.rows, Filled page.level row
  summary : page.level ≠ 0 → page.rows.length ≤ page.count
  fits : (directoryObject page).length ≤ maximumPageBytes

theorem length_leafRows {rows : List (WireEntry PathName ℕ)}
    (h : ∀ row ∈ rows, Filled 0 row) : (rows.map (directoryRowFrame 0)).flatten.length =
      (rows.map fun row => directoryLeafWidth row.key).sum := by
  induction rows with
  | nil => rfl
  | cons row rest ih =>
    have hrow := h row mem_cons_self
    rw [Filled, if_pos rfl] at hrow
    obtain ⟨serial, hserial⟩ := Option.ne_none_iff_exists'.mp hrow
    rw [map_cons, flatten_cons, length_append, map_cons, sum_cons,
      ih fun r hr => h r (mem_cons_of_mem _ hr), directoryRowFrame, if_pos rfl, hserial,
      Option.elim_some, nameFrame, length_append, length_append, length_be, length_be,
      directoryLeafWidth]
    omega

theorem length_pageObject (h : header.magic.length = 8) (rows : Bytes) :
    (pageObject header rows).length = emptyPageBytes + rows.length := by
  rw [pageObject, length_envelope, length_append, length_pageHeader h, nodeHeaderBytes,
    emptyPageBytes]
  omega

theorem length_directoryObject (page : PageView PathName ℕ) :
    (directoryObject page).length =
      emptyPageBytes + (page.rows.map (directoryRowFrame page.level)).flatten.length :=
  length_pageObject rfl _

theorem directoryTotals_eq_ok {totals : ℕ × ℕ} :
    directoryTotals page = .ok totals ↔ totals = page.totals directoryLeafWidth ∧
      (page.level = 0 → emptyPageBytes +
        (page.rows.map fun row => directoryLeafWidth row.key).sum ≤ maximumPageBytes) := by
  have hbound : maximumPageBytes < u64Bound := by decide
  rw [directoryTotals, PageView.totals]
  split_ifs with hlevel
  · rw [bind_eq_ok]
    simp only [checkedSum_eq_ok, bind_eq_ok, checkedAdd_eq_ok, ensure_eq_ok, decide_eq_true_eq]
    constructor
    · rintro ⟨bytes, ⟨rfl, -⟩, encoded, ⟨-, rfl⟩, -, hfits, h⟩
      cases h
      exact ⟨rfl, fun _ => hfits⟩
    · rintro ⟨rfl, hfits⟩
      have hfits := hfits hlevel
      exact ⟨_, ⟨rfl, fun _ => by omega⟩, _, ⟨by omega, rfl⟩, (), hfits, rfl⟩
  · constructor
    · intro h
      cases h
      exact ⟨rfl, fun h => absurd h hlevel⟩
    · rintro ⟨rfl, -⟩
      rfl

theorem directoryMaxItems_lt (level : ℕ) : directoryMaxItems level < 65536 := by
  rw [directoryMaxItems]
  split_ifs <;> decide

/-- **What is written of a directory page.** -/
theorem encodeDirectory_eq_ok :
    encodeDirectory page = .ok canonical ↔
      DirectoryWritable page ∧ canonical = directoryObject page := by
  rw [encodeDirectory]
  dsimp only
  rw [check_bind_eq_ok, validateCount_eq_ok, check_bind_eq_ok, ensure_eq_ok, strictlyOrdered_iff,
    bind_eq_ok]
  constructor
  · rintro ⟨⟨hlevel, -, hmost, -⟩, hordered, ⟨total, bytes⟩, htotals, h⟩
    obtain ⟨hsummary, h⟩ := check_bind_eq_ok.mp h
    obtain ⟨header, hheader, h⟩ := bind_eq_ok.mp h
    obtain ⟨rows, hrows, h⟩ := bind_eq_ok.mp h
    obtain ⟨-, rfl⟩ := nodeHeader_eq_ok.mp hheader
    obtain ⟨hfilled, rfl⟩ := (mapM_eq_ok_iff fun _ _ => directoryRow_eq_ok).mp hrows
    obtain ⟨hfits, rfl⟩ := finishNode_eq_ok.mp h
    obtain ⟨hsame, -⟩ := directoryTotals_eq_ok.mp htotals
    rw [Prod.ext_iff] at hsame
    obtain ⟨rfl, rfl⟩ := hsame
    refine ⟨⟨hlevel, hmost, hordered, hfilled, fun hne => ?_, hfits⟩, rfl⟩
    rw [ensure_eq_ok, PageView.totals, if_neg hne, Bool.not_eq_true', Bool.and_eq_false_iff,
      decide_eq_false_iff_not, decide_eq_false_iff_not, not_lt] at hsummary
    omega
  · rintro ⟨⟨hlevel, hmost, hordered, hfilled, hsummary, hfits⟩, rfl⟩
    have hcount := hmost.trans_lt (directoryMaxItems_lt page.level)
    refine ⟨⟨hlevel, fun _ => rfl, hmost, hcount⟩, hordered, page.totals directoryLeafWidth,
      directoryTotals_eq_ok.mpr ⟨rfl, fun hzero => ?_⟩, check_bind_eq_ok.mpr ⟨?_, ?_⟩⟩
    · rw [length_directoryObject, hzero, length_leafRows (by rwa [hzero] at hfilled)] at hfits
      exact hfits
    · rw [ensure_eq_ok, Bool.not_eq_true', Bool.and_eq_false_iff, decide_eq_false_iff_not,
        decide_eq_false_iff_not, not_lt, not_lt, PageView.totals]
      split_ifs with hzero
      · exact .inl (Nat.le_of_eq hzero)
      · exact .inr (hsummary hzero)
    · exact bind_eq_ok.mpr ⟨_, nodeHeader_eq_ok.mpr ⟨hcount, rfl⟩, bind_eq_ok.mpr ⟨_,
        (mapM_eq_ok_iff fun _ _ => directoryRow_eq_ok).mpr ⟨hfilled, rfl⟩,
        finishNode_eq_ok.mpr ⟨hfits, rfl⟩⟩⟩

def DirectoryLeafEntry (entry : WireEntry PathName ℕ) : Prop :=
  entry.child = none ∧ ∃ serial, entry.value = some serial ∧ serial ≠ 0 ∧ serial < 256 ^ 8

def BranchEntry {K V : Type} (entry : WireEntry K V) : Prop :=
  entry.value = none ∧ entry.child ≠ none

/-- **A directory page that is accepted.** -/
structure DirectoryReadable (page : WirePage PathName ℕ) : Prop where
  level_le : page.level ≤ maximumTreeLevel
  ascending : (page.entries.map WireEntry.key).Pairwise (· < ·)
  leaf : page.level = 0 → (∀ entry ∈ page.entries, DirectoryLeafEntry entry) ∧
    page.count = page.entries.length ∧
    page.bytes = (page.entries.map fun entry => directoryLeafWidth entry.key).sum
  branch : page.level ≠ 0 → (∀ entry ∈ page.entries, BranchEntry entry) ∧
    2 ≤ page.entries.length ∧ page.count < 256 ^ 8 ∧ page.bytes < 256 ^ 8
  size_eq : page.size = (directoryObject page.view).length
  fits : (directoryObject page.view).length ≤ maximumPageBytes

theorem readDirectoryLeafRow_accepts :
    Accepts readDirectoryLeafRow (directoryRowFrame 0) DirectoryLeafEntry := by
  have hread : Accepts readDirectoryLeafRow
      (fun entry => nameFrame entry.key ++ (be 8 (entry.value.getD 0) ++ []))
      (fun entry => True ∧ entry.value.getD 0 < 256 ^ 8 ∧ entry.value.getD 0 ≠ 0 ∧
        entry.child = none ∧ entry.value ≠ none) := by
    refine Accepts.record (.field WireEntry.key readName_accepts fun key =>
      .field (fun entry : WireEntry PathName ℕ => entry.value.getD 0) number_accepts fun serial =>
      .test (fun entry : WireEntry PathName ℕ => entry.value.getD 0 ≠ 0)
        (by rw [ensure_eq_ok, bne_iff_ne]) (fun entry h => by rw [h.2]) <|
      .rest (fun entry : WireEntry PathName ℕ => entry.child = none ∧ entry.value ≠ none) (.pure _)
        fun entry => ?_)
      (fun _ => Iff.rfl) (fun _ => rfl)
    obtain ⟨found, child, value⟩ := entry
    rw [WireEntry.mk.injEq]
    constructor
    · rintro ⟨⟨⟨-, rfl⟩, rfl⟩, rfl, hvalue⟩
      obtain ⟨serial, rfl⟩ := Option.ne_none_iff_exists'.mp hvalue
      exact ⟨rfl, rfl, rfl⟩
    · rintro ⟨rfl, rfl, rfl⟩
      exact ⟨⟨⟨trivial, rfl⟩, rfl⟩, rfl, Option.some_ne_none _⟩
  refine hread.of_eq (fun entry => ?_) fun entry hentry => ?_
  · constructor
    · rintro ⟨hchild, serial, hserial, hne, hlt⟩
      rw [hserial, Option.getD_some]
      exact ⟨trivial, hlt, hne, hchild, Option.some_ne_none _⟩
    · rintro ⟨-, hlt, hne, hchild, hvalue⟩
      obtain ⟨serial, hserial⟩ := Option.ne_none_iff_exists'.mp hvalue
      rw [hserial, Option.getD_some] at hlt hne
      exact ⟨hchild, serial, hserial, hne, hlt⟩
  · obtain ⟨serial, hserial⟩ := Option.ne_none_iff_exists'.mp hentry.2.2.2.2
    rw [directoryRowFrame, if_pos rfl, hserial, append_nil]
    rfl

theorem branchRow_accepts {K V : Type} {m : Reading ContentError K} {frame : K → Bytes}
    {fits : K → Prop} (hm : Accepts m frame fits) :
    Accepts (m >>= fun key => readBlock .unexpectedEof 32 >>= fun child =>
        (pure ⟨key, some child, none⟩ : Reading ContentError (WireEntry K V)))
      (fun entry => frame entry.key ++ entry.child.elim [] Block.bytes)
      (fun entry => fits entry.key ∧ BranchEntry entry) := by
  have hlast : ∀ key : K, Accepts (readBlock .unexpectedEof 32 >>= fun child =>
      (pure ⟨key, some child, none⟩ : Reading ContentError (WireEntry K V)))
      (fun entry => entry.child.elim [] Block.bytes)
      (fun entry => entry.key = key ∧ BranchEntry entry) := by
    intro key
    refine readBlock_accepts.map (fun child => (⟨key, some child, none⟩ : WireEntry K V))
      (fun _ _ => rfl) fun entry => ?_
    constructor
    · rintro ⟨rfl, hvalue, hchild⟩
      obtain ⟨child, hchild⟩ := Option.ne_none_iff_exists'.mp hchild
      obtain ⟨key, _, _⟩ := entry
      cases hvalue
      cases hchild
      exact ⟨child, rfl, trivial⟩
    · rintro ⟨child, rfl, -⟩
      exact ⟨rfl, rfl, Option.some_ne_none _⟩
  exact Accepts.bind WireEntry.key hm hlast

theorem readDirectoryBranchRow_accepts (hlevel : level ≠ 0) :
    Accepts readDirectoryBranchRow (directoryRowFrame level) BranchEntry :=
  (branchRow_accepts readName_accepts).of_eq (fun _ => (iff_of_eq (true_and _)).symm)
    fun entry _ => by rw [directoryRowFrame, if_neg hlevel]

theorem length_directoryRow_ge {row : WireEntry PathName ℕ} (h : Filled level row) :
    (if level = 0 then 11 else 35) ≤ (directoryRowFrame level row).length := by
  have hname := length_name_pos row.key
  rw [Filled] at h
  rw [directoryRowFrame, nameFrame, length_append, length_append, length_be]
  split_ifs at h ⊢ with hlevel
  · obtain ⟨serial, hserial⟩ := Option.ne_none_iff_exists'.mp h
    rw [hserial, Option.elim_some, length_be]
    omega
  · obtain ⟨child, hchild⟩ := Option.ne_none_iff_exists'.mp h
    rw [hchild, Option.elim_some, child.length_eq]
    omega

theorem length_rows_le (hfilled : ∀ row ∈ page.rows, Filled page.level row)
    (hfits : (directoryObject page).length ≤ maximumPageBytes) :
    page.rows.length * (if page.level = 0 then 11 else 35) ≤ maximumPageBytes - emptyPageBytes := by
  have hrows : page.rows.length * (if page.level = 0 then 11 else 35) ≤
      (page.rows.map (directoryRowFrame page.level)).flatten.length :=
    length_flatten_ge fun row hrow => length_directoryRow_ge (hfilled row hrow)
  rw [length_directoryObject] at hfits
  omega

theorem DirectoryReadable.filled {page : WirePage PathName ℕ} (h : DirectoryReadable page) :
    ∀ row ∈ page.view.rows, Filled page.view.level row := by
  intro row hrow
  rw [Filled]
  split_ifs with hlevel
  · obtain ⟨-, serial, hserial, -⟩ := (h.leaf hlevel).1 row hrow
    rw [hserial]
    exact Option.some_ne_none _
  · exact ((h.branch hlevel).1 row hrow).2

/-- **What is accepted behind a header**: the rows the header is of. -/
theorem decodeDirectoryRows_eq_ok (hbody : IsBytes body) (hlevel : header.level ≤ maximumTreeLevel)
    (hfits : header.Fits)
    (hframe : header = headerOf directoryMagic header.role header.level header.count
      header.subtreeCount header.subtreeBytes) {page : WirePage PathName ℕ} :
    decodeDirectoryRows header body size = .ok page ↔
      header = directoryHeader page.view ∧ page.size = size ∧
        (page.entries.map WireEntry.key).Pairwise (· < ·) ∧
        (page.level = 0 → (∀ entry ∈ page.entries, DirectoryLeafEntry entry) ∧
          page.count = page.entries.length ∧ page.bytes =
            (page.entries.map fun entry => directoryLeafWidth entry.key).sum) ∧
        (page.level ≠ 0 → (∀ entry ∈ page.entries, BranchEntry entry) ∧
          2 ≤ page.entries.length ∧ page.count < 256 ^ 8 ∧ page.bytes < 256 ^ 8) ∧
        body = (page.entries.map (directoryRowFrame page.level)).flatten := by
  rw [decodeDirectoryRows]
  constructor
  · intro h
    split_ifs at h with hleaf hbranch
    · obtain ⟨⟨entries, rest⟩, hrows, h⟩ := bind_eq_ok.mp h
      obtain ⟨hend, h⟩ := check_bind_eq_ok.mp h
      obtain ⟨⟨hcount, hall⟩, hrest, -⟩ :=
        (readMany_end_eq_ok readDirectoryLeafRow_accepts hbody).mp ⟨hrows, ensure_eq_ok.mp hend⟩
      obtain ⟨expected, hexpected, h⟩ := bind_eq_ok.mp h
      simp only [check_bind_eq_ok, ensure_eq_ok, beq_iff_eq, strictlyOrdered_iff] at h
      obtain ⟨hsum, hordered, h⟩ := h
      cases h
      obtain ⟨hrole, hzero, htotal⟩ := hleaf
      obtain ⟨rfl, -⟩ := checkedSum_eq_ok.mp hexpected
      refine ⟨?_, rfl, hordered, fun _ => ⟨hall, hcount.symm, hsum.symm⟩,
        fun hne => absurd hzero hne, by rw [hzero]; exact hrest⟩
      rw [directoryHeader_leaf hzero]
      conv_lhs => rw [hframe, hrole, hzero, htotal, ← hcount, ← hsum]
      rfl
    · obtain ⟨⟨entries, rest⟩, hrows, h⟩ := bind_eq_ok.mp h
      obtain ⟨hend, h⟩ := check_bind_eq_ok.mp h
      obtain ⟨hrole, hpos, -, htwo⟩ := hbranch
      obtain ⟨⟨hcount, hall⟩, hrest, -⟩ := (readMany_end_eq_ok
        (readDirectoryBranchRow_accepts hpos.ne') hbody).mp ⟨hrows, ensure_eq_ok.mp hend⟩
      simp only [check_bind_eq_ok, ensure_eq_ok, strictlyOrdered_iff] at h
      obtain ⟨hordered, h⟩ := h
      cases h
      refine ⟨?_, rfl, hordered, fun hzero => absurd hzero hpos.ne',
        fun _ => ⟨hall, hcount ▸ htwo, hfits.2.2.2.2.2.2⟩, hrest⟩
      rw [directoryHeader_branch hpos.ne']
      conv_lhs => rw [hframe, hrole, ← hcount]
      rfl
  · rintro ⟨hheader, rfl, hordered, hleaf, hbranch, hrows⟩
    have hsame : page.level = header.level := by
      rw [hheader]
      rfl
    have hcount : page.entries.length = header.count := by
      rw [hheader]
      rfl
    by_cases hzero : page.level = 0
    · obtain ⟨hall, hcount', hsum⟩ := hleaf hzero
      have hview : page.view.level = 0 := hzero
      have hrole : header.role = directoryLeafRole ∧ header.subtreeCount = header.count ∧
          header.subtreeBytes =
            (page.entries.map fun entry => directoryLeafWidth entry.key).sum := by
        rw [hheader, directoryHeader_leaf hview]
        exact ⟨rfl, rfl, rfl⟩
      obtain ⟨hrole, htotal, hbytes⟩ := hrole
      rw [if_pos ⟨hrole, hsame ▸ hzero, htotal⟩]
      rw [hzero] at hrows
      obtain ⟨hread, -⟩ := (readMany_end_eq_ok readDirectoryLeafRow_accepts hbody).mpr
        ⟨⟨hcount, hall⟩, hrows, rfl⟩
      have hexpected := checkedSum_eq_ok.mpr ⟨rfl, fun _ => hbytes ▸ hfits.2.2.2.2.2.2.2⟩
      rw [hread, ok_bind]
      dsimp only
      rw [ensure_pass _ isEmpty_nil, ok_bind, hexpected, ok_bind, hbytes,
        ensure_pass _ (beq_self_eq_true _), ok_bind,
        ensure_pass _ ((strictlyOrdered_iff _).mpr hordered), ok_bind, ← hsame, ← hcount,
        ← hcount', ← hsum]
      rfl
    · obtain ⟨hall, htwo, -, -⟩ := hbranch hzero
      have hview : page.view.level ≠ 0 := hzero
      have hrole : header.role = directoryBranchRole ∧ header.subtreeCount = page.count ∧
          header.subtreeBytes = page.bytes := by
        rw [hheader, directoryHeader_branch hview]
        exact ⟨rfl, rfl, rfl⟩
      obtain ⟨hrole, htotal, hbytes⟩ := hrole
      rw [if_neg fun h => hzero (hsame.trans h.2.1), if_pos ⟨hrole, by omega, hlevel, by omega⟩]
      rw [hsame] at hrows
      obtain ⟨hread, -⟩ := (readMany_end_eq_ok
        (readDirectoryBranchRow_accepts (hsame ▸ hzero)) hbody).mpr ⟨⟨hcount, hall⟩, hrows, rfl⟩
      rw [hread, ok_bind]
      dsimp only
      rw [ensure_pass _ isEmpty_nil, ok_bind,
        ensure_pass _ ((strictlyOrdered_iff _).mpr hordered), ok_bind, ← hsame, htotal, hbytes]
      rfl

theorem DirectoryReadable.header_fits {page : WirePage PathName ℕ} (h : DirectoryReadable page) :
    (directoryHeader page.view).Fits := by
  have hmost := length_rows_le h.filled h.fits
  have hmagic : directoryMagic.length = 8 ∧ IsBytes directoryMagic := by decide
  have hsmall : nodeVersion < 256 ^ 2 ∧ directoryLeafRole < 256 ^ 1 ∧
    directoryBranchRole < 256 ^ 1 ∧ 0 < 256 ^ 1 := by decide
  obtain ⟨hversion, hleafRole, hbranchRole, hzeroByte⟩ := hsmall
  have hwide : maximumPageBytes - emptyPageBytes < 256 ^ 2 ∧
    (256 ^ 2 : ℕ) < 256 ^ 8 ∧ maximumTreeLevel < 256 ^ 1 := by decide
  obtain ⟨hwidth, hgrow, hdeep⟩ := hwide
  have hcount : page.view.rows.length < 256 ^ 2 := by
    refine lt_of_le_of_lt ?_ (hmost.trans_lt hwidth)
    refine Nat.le_mul_of_pos_right _ ?_
    split_ifs <;> decide
  have hrole : directoryRole page.view.level < 256 ^ 1 := by
    rw [directoryRole]
    split_ifs
    · exact hleafRole
    · exact hbranchRole
  refine ⟨hmagic, hversion, hrole, h.level_le.trans_lt hdeep, hzeroByte, hcount, ?_⟩
  by_cases hlevel : page.view.level = 0
  · have hfits := h.fits
    have hrows := length_leafRows fun row hrow => by
      have hfilled := h.filled row hrow
      rwa [hlevel] at hfilled
    rw [length_directoryObject, hlevel, hrows] at hfits
    rw [directoryHeader, PageView.totals_leaf hlevel]
    dsimp only [headerOf]
    omega
  · rw [directoryHeader, PageView.totals_branch hlevel]
    exact (h.branch hlevel).2.2

/-- **What is accepted of a directory page.** -/
theorem decodeDirectory_eq_ok (hbytes : IsBytes canonical) {page : WirePage PathName ℕ} :
    decodeDirectory canonical = .ok page ↔
      DirectoryReadable page ∧ canonical = directoryObject page.view := by
  rw [decodeDirectory, bind_eq_ok]
  constructor
  · rintro ⟨⟨value, header, body⟩, hvalue, h⟩
    obtain ⟨hfits, hheader, hmagic, hversion, hflags, hlevel, rfl, rfl⟩ :=
      (decodeNodeValue_eq_ok hbytes).mp hvalue
    have hbody : IsBytes body := (isBytes_of_envelope hbytes).of_append.2
    have hframe : header =
        headerOf directoryMagic header.role header.level header.count header.subtreeCount
          header.subtreeBytes := by
      rw [headerOf, PageHeader.mk.injEq]
      exact ⟨hmagic, hversion, rfl, rfl, hflags, rfl, rfl, rfl⟩
    obtain ⟨hsame, hsize, hordered, hleaf, hbranch, hrows⟩ :=
      (decodeDirectoryRows_eq_ok hbody hlevel hheader hframe).mp (check_bind_eq_ok.mp h).2
    have hobject : envelope (header.frame ++ body) = directoryObject page.view := by
      rw [hsame, hrows]
      rfl
    have hdepth : page.level ≤ maximumTreeLevel := by
      rw [hsame] at hlevel
      exact hlevel
    exact ⟨⟨hdepth, hordered, hleaf, hbranch, hsize.trans (congrArg List.length hobject),
      hobject ▸ hfits⟩, hobject⟩
  · rintro ⟨hpage, rfl⟩
    have hfilled := length_rows_le hpage.filled hpage.fits
    have hbody : IsBytes (page.entries.map (directoryRowFrame page.level)).flatten :=
      (isBytes_of_envelope hbytes).of_append.2
    have hvalue : decodeNodeValue (directoryObject page.view) directoryMagic =
        .ok ((directoryHeader page.view).frame ++
          (page.entries.map (directoryRowFrame page.level)).flatten, directoryHeader page.view,
          (page.entries.map (directoryRowFrame page.level)).flatten) :=
      (decodeNodeValue_eq_ok hbytes).mpr
        ⟨hpage.fits, hpage.header_fits, rfl, rfl, rfl, hpage.level_le, rfl, rfl⟩
    refine ⟨_, hvalue, check_bind_eq_ok.mpr ⟨?_, ?_⟩⟩
    · have hrows : page.entries.length * (if page.level = 0 then 11 else 35) ≤
          (page.entries.map (directoryRowFrame page.level)).flatten.length :=
        length_flatten_ge fun row hrow => length_directoryRow_ge (hpage.filled row hrow)
      have hleast : page.entries.length * 11 ≤
          page.entries.length * (if page.level = 0 then 11 else 35) := by
        refine Nat.mul_le_mul_left _ ?_
        split_ifs <;> decide
      rw [ensure_eq_ok, decide_eq_true_eq, Nat.le_div_iff_mul_le (by decide)]
      exact hleast.trans hrows
    · exact (decodeDirectoryRows_eq_ok hbody hpage.level_le hpage.header_fits rfl).mpr
        ⟨rfl, hpage.size_eq, hpage.ascending, hpage.leaf, hpage.branch, rfl⟩

/-! ## Inode pages: what is written and accepted -/

abbrev InodeEntry := WireEntry ℕ (InodeValue ObjectId)

def inodeRowFrame (level : ℕ) (row : InodeEntry) : Bytes :=
  be 8 row.key ++
    if level = 0 then row.value.elim [] encodeInodeValue else row.child.elim [] Block.bytes

/-- The header of an inode page: a branch records the bytes of its rows. -/
def inodeHeader (page : PageView ℕ (InodeValue ObjectId)) : PageHeader :=
  if page.level = 0 then leafHeader page.rows.length
  else headerOf inodeLeafMagic inodeBranchRole page.level page.rows.length page.count
    (page.count * leafRowBytes)

def inodeObject (page : PageView ℕ (InodeValue ObjectId)) : Bytes :=
  pageObject (inodeHeader page) (page.rows.map (inodeRowFrame page.level)).flatten

theorem magic_inodeHeader (page : PageView ℕ (InodeValue ObjectId)) :
    (inodeHeader page).magic = inodeLeafMagic := by
  rw [inodeHeader]
  split_ifs <;> rfl

variable {row : InodeEntry}

theorem length_inodeRow (h : Filled level row) :
    (inodeRowFrame level row).length = if level = 0 then 81 else 40 := by
  rw [Filled] at h
  rw [inodeRowFrame, length_append, length_be]
  split_ifs at h ⊢ with hlevel
  · obtain ⟨value, hvalue⟩ := Option.ne_none_iff_exists'.mp h
    rw [hvalue, Option.elim_some, length_encodeInodeValue, inodeValueBytes]
  · obtain ⟨child, hchild⟩ := Option.ne_none_iff_exists'.mp h
    rw [hchild, Option.elim_some, child.length_eq]

theorem length_inodeObject_le {page : PageView ℕ (InodeValue ObjectId)}
    (hmost : page.rows.length ≤ inodeMaxItems page.level)
    (hfilled : ∀ row ∈ page.rows, Filled page.level row) :
    (inodeObject page).length ≤ maximumPageBytes := by
  have hrows : ∀ rows : List InodeEntry, (∀ row ∈ rows, Filled page.level row) →
      (rows.map (inodeRowFrame page.level)).flatten.length =
        rows.length * if page.level = 0 then 81 else 40 := by
    intro rows
    induction rows with
    | nil => exact fun _ => (Nat.zero_mul _).symm
    | cons row rest ih =>
      intro h
      rw [map_cons, flatten_cons, length_append,
        ih fun r hr => h r (mem_cons_of_mem _ hr), length_inodeRow (h row mem_cons_self),
        length_cons, Nat.succ_mul, Nat.add_comm]
  have hmagic : (inodeHeader page).magic.length = 8 := by
    rw [magic_inodeHeader]
    rfl
  rw [inodeObject, length_pageObject hmagic, hrows _ hfilled, maximumPageBytes, emptyPageBytes]
  rw [inodeMaxItems, maximumInodeLeafRows, maximumInodeBranchChildren] at hmost
  split_ifs at hmost ⊢ <;> omega

theorem checkSerials_eq_ok {serials : List ℕ} :
    ∀ {previous : Option ℕ}, checkSerials previous serials = .ok () ↔
      (∀ serial ∈ serials, serial ≠ 0 ∧ ∀ p ∈ previous, p < serial) ∧
        serials.Pairwise (· < ·) := by
  induction serials with
  | nil => exact fun {_} => ⟨fun _ => ⟨forall_mem_nil _, List.Pairwise.nil⟩, fun _ => rfl⟩
  | cons serial rest ih =>
    intro previous
    rw [checkSerials, check_bind_eq_ok, check_bind_eq_ok, ih, ensure_eq_ok, ensure_eq_ok,
      bne_iff_ne, Option.all_eq_true, forall_mem_cons, pairwise_cons]
    simp only [decide_eq_true_eq, Option.mem_def, Option.some.injEq]
    constructor
    · rintro ⟨hpast, hne, hrest, hordered⟩
      refine ⟨⟨⟨hne, hpast⟩, fun s hs => ⟨(hrest s hs).1, fun p hp => ?_⟩⟩,
        fun s hs => (hrest s hs).2 serial rfl, hordered⟩
      exact (hpast p hp).trans ((hrest s hs).2 serial rfl)
    · rintro ⟨⟨⟨hne, hpast⟩, hrest⟩, hlt, hordered⟩
      exact ⟨hpast, hne, fun s hs => ⟨(hrest s hs).1, fun p hp => hp ▸ hlt s hs⟩, hordered⟩

/-- **An inode page that can be written.** -/
structure InodesWritable (page : PageView ℕ (InodeValue ObjectId)) : Prop where
  level_le : page.level ≤ maximumTreeLevel
  pos : page.rows ≠ []
  length_le : page.rows.length ≤ inodeMaxItems page.level
  ascending : (page.rows.map WireEntry.key).Pairwise (· < ·)
  serial_ne : ∀ row ∈ page.rows, row.key ≠ 0
  filled : ∀ row ∈ page.rows, Filled page.level row
  summary : page.level ≠ 0 → page.rows.length ≤ page.count ∧
    page.count * leafRowBytes < u64Bound

def leafRowOf (row : InodeEntry) : InodeLeafRow :=
  ⟨row.key, row.value.elim (valueBlock zeroFile) valueBlock⟩

theorem inodeLeafRow_eq_ok {bytes : InodeLeafRow} :
    inodeLeafRow row = .ok bytes ↔ Filled 0 row ∧ bytes = leafRowOf row := by
  rw [inodeLeafRow, Filled, if_pos rfl, bind_eq_ok, Option.ne_none_iff_exists', leafRowOf]
  constructor
  · rintro ⟨value, hvalue, h⟩
    cases h
    rw [orError_eq_ok] at hvalue
    exact ⟨⟨value, hvalue⟩, by rw [hvalue]; rfl⟩
  · rintro ⟨⟨value, hvalue⟩, rfl⟩
    exact ⟨value, orError_eq_ok.mpr hvalue, by rw [hvalue]; rfl⟩

theorem inodeBranchRow_eq_ok (hlevel : level ≠ 0) :
    inodeBranchRow row = .ok bytes ↔ Filled level row ∧ bytes = inodeRowFrame level row := by
  rw [inodeBranchRow, Filled, if_neg hlevel, bind_eq_ok, Option.ne_none_iff_exists', inodeRowFrame,
    if_neg hlevel]
  constructor
  · rintro ⟨child, hchild, h⟩
    cases h
    rw [orError_eq_ok] at hchild
    exact ⟨⟨child, hchild⟩, by rw [hchild]; rfl⟩
  · rintro ⟨⟨child, hchild⟩, rfl⟩
    exact ⟨child, orError_eq_ok.mpr hchild, by rw [hchild]; rfl⟩

theorem rowFrames_leafRowOf {rows : List InodeEntry} (h : ∀ row ∈ rows, Filled 0 row) :
    ((rows.map leafRowOf).map rowFrame).flatten = (rows.map (inodeRowFrame 0)).flatten := by
  rw [map_map]
  refine congrArg List.flatten (map_congr_left fun row hrow => ?_)
  have hrow := h row hrow
  rw [Filled, if_pos rfl] at hrow
  obtain ⟨value, hvalue⟩ := Option.ne_none_iff_exists'.mp hrow
  rw [Function.comp_apply, leafRowOf, rowFrame, inodeRowFrame, if_pos rfl, hvalue]
  rfl

theorem leafFrame_leafRowOf {page : PageView ℕ (InodeValue ObjectId)} (hlevel : page.level = 0)
    (h : ∀ row ∈ page.rows, Filled 0 row) :
    envelope (leafFrame (page.rows.map leafRowOf)) = inodeObject page := by
  rw [leafFrame, rowFrames_leafRowOf h, length_map, inodeObject, pageObject, inodeHeader,
    if_pos hlevel, hlevel]

/-- **What is written of an inode page.** -/
theorem encodeInodes_eq_ok {page : PageView ℕ (InodeValue ObjectId)} :
    encodeInodes page = .ok canonical ↔ InodesWritable page ∧ canonical = inodeObject page := by
  have hkeys : ∀ rows : List InodeEntry,
      (rows.map leafRowOf).map InodeLeafRow.serial = rows.map WireEntry.key := fun rows =>
    map_map
  have hsmall : ∀ level, inodeMaxItems level < 65536 := by
    intro level
    rw [inodeMaxItems]
    split_ifs <;> decide
  rw [encodeInodes]
  dsimp only
  rw [check_bind_eq_ok, validateCount_eq_ok, check_bind_eq_ok, checkSerials_eq_ok]
  constructor
  · rintro ⟨⟨hlevel, hpos, hmost, -⟩, ⟨hserials, hordered⟩, h⟩
    have hne : page.rows ≠ [] := fun h => Bool.false_ne_true (hpos (by rw [h]; rfl))
    have hnonzero : ∀ row ∈ page.rows, row.key ≠ 0 := fun row hrow =>
      (hserials row.key (mem_map_of_mem hrow)).1
    split_ifs at h with hzero
    · obtain ⟨rows, hrows, h⟩ := bind_eq_ok.mp h
      obtain ⟨hfilled, rfl⟩ := (mapM_eq_ok_iff fun _ _ => inodeLeafRow_eq_ok).mp hrows
      obtain ⟨value, hvalue, h⟩ := bind_eq_ok.mp h
      obtain ⟨-, rfl⟩ := encodeLeafValue_eq_ok.mp hvalue
      obtain ⟨-, rfl⟩ := finishNode_eq_ok.mp h
      exact ⟨⟨hlevel, hne, hmost, hordered, hnonzero, by rwa [hzero], fun h => absurd hzero h⟩,
        leafFrame_leafRowOf hzero hfilled⟩
    · simp only [check_bind_eq_ok, ensure_eq_ok, decide_eq_true_eq] at h
      obtain ⟨hsummary, hbound, h⟩ := h
      obtain ⟨header, hheader, h⟩ := bind_eq_ok.mp h
      obtain ⟨-, rfl⟩ := nodeHeader_eq_ok.mp hheader
      obtain ⟨rows, hrows, h⟩ := bind_eq_ok.mp h
      obtain ⟨hfilled, rfl⟩ := (mapM_eq_ok_iff fun _ _ => inodeBranchRow_eq_ok hzero).mp hrows
      obtain ⟨-, rfl⟩ := finishNode_eq_ok.mp h
      refine ⟨⟨hlevel, hne, hmost, hordered, hnonzero, hfilled, fun _ => ⟨hsummary, hbound⟩⟩, ?_⟩
      rw [inodeObject, pageObject, inodeHeader, if_neg hzero]
  · rintro ⟨⟨hlevel, hne, hmost, hordered, hnonzero, hfilled, hsummary⟩, rfl⟩
    have hfits := length_inodeObject_le hmost hfilled
    have hserials : ∀ serial ∈ page.rows.map WireEntry.key,
        serial ≠ 0 ∧ ∀ p ∈ (none : Option ℕ), p < serial := by
      intro serial hserial
      obtain ⟨row, hrow, rfl⟩ := mem_map.mp hserial
      exact ⟨hnonzero row hrow, fun p hp => by cases hp⟩
    have hpos : page.rows.length = 0 → false = true := fun h =>
      absurd (length_eq_zero_iff.mp h) hne
    refine ⟨⟨hlevel, hpos, hmost, hmost.trans_lt (hsmall _)⟩, ⟨hserials, hordered⟩, ?_⟩
    split_ifs with hzero
    · rw [hzero] at hfilled hmost
      rw [← leafFrame_leafRowOf hzero hfilled] at hfits ⊢
      have hwritable : WritableRows (page.rows.map leafRowOf) := by
        refine ⟨?_, ?_, by rwa [hkeys], fun row hrow => ?_⟩
        · rw [length_map]
          exact length_pos_of_ne_nil hne
        · rw [length_map]
          exact hmost
        · obtain ⟨r, hr, rfl⟩ := mem_map.mp hrow
          exact hnonzero r hr
      exact bind_eq_ok.mpr ⟨_, (mapM_eq_ok_iff fun _ _ => inodeLeafRow_eq_ok).mpr ⟨hfilled, rfl⟩,
        bind_eq_ok.mpr ⟨_, encodeLeafValue_eq_ok.mpr ⟨hwritable, rfl⟩,
          finishNode_eq_ok.mpr ⟨hfits, rfl⟩⟩⟩
    · obtain ⟨hcount, hbound⟩ := hsummary hzero
      rw [inodeObject, pageObject, inodeHeader, if_neg hzero] at hfits ⊢
      exact check_bind_eq_ok.mpr ⟨ensure_eq_ok.mpr (decide_eq_true hcount),
        check_bind_eq_ok.mpr ⟨ensure_eq_ok.mpr (decide_eq_true hbound),
          bind_eq_ok.mpr ⟨_, nodeHeader_eq_ok.mpr ⟨hmost.trans_lt (hsmall _), rfl⟩,
            bind_eq_ok.mpr ⟨_, (mapM_eq_ok_iff fun _ _ => inodeBranchRow_eq_ok hzero).mpr
              ⟨hfilled, rfl⟩, finishNode_eq_ok.mpr ⟨hfits, rfl⟩⟩⟩⟩⟩

def InodeLeafEntry (entry : InodeEntry) : Prop :=
  entry.child = none ∧ ∃ value, entry.value = some value ∧ ValueTyped value ∧
    MetadataValid value.kind value.metadataRoot

/-- **An inode page that is accepted.** -/
structure InodesReadable (page : WirePage ℕ (InodeValue ObjectId)) : Prop where
  level_le : page.level ≤ maximumTreeLevel
  length_le : page.entries.length ≤ inodeMaxItems page.level
  ascending : (page.entries.map WireEntry.key).Pairwise (· < ·)
  serial : ∀ entry ∈ page.entries, entry.key ≠ 0 ∧ entry.key < 256 ^ 8
  leaf : page.level = 0 → (∀ entry ∈ page.entries, InodeLeafEntry entry) ∧
    page.entries ≠ [] ∧ page.count = page.entries.length ∧
    page.bytes = page.entries.length * leafRowBytes
  branch : page.level ≠ 0 → (∀ entry ∈ page.entries, BranchEntry entry) ∧
    2 ≤ page.entries.length ∧ page.entries.length ≤ page.count ∧
    page.count * leafRowBytes < u64Bound ∧ page.bytes = page.count * leafRowBytes
  size_eq : page.size = (inodeObject page.view).length

theorem readInodeBranchRow_accepts (hlevel : level ≠ 0) :
    Accepts readInodeBranchRow (inodeRowFrame level)
      (fun entry => (entry.key ≠ 0 ∧ entry.key < 256 ^ 8) ∧ BranchEntry entry) := by
  have hkey : Accepts (number .unexpectedEof 8 >>= fun key =>
      result (ensure (key != 0) (.invalidRecord "inode serial")) >>= fun _ =>
      (pure key : Reading ContentError ℕ)) (be 8) (fun key => key ≠ 0 ∧ key < 256 ^ 8) := by
    refine Accepts.record (.field (fun key : ℕ => key) number_accepts fun key =>
      .test (fun found : ℕ => found ≠ 0) (by rw [ensure_eq_ok, bne_iff_ne])
        (fun found h => by rw [h.2]) <| .done fun found => ?_)
      (fun found => ?_) (fun found => (append_nil _).symm)
    · rw [true_and]
    · rw [and_true, and_comm]
  have hread := branchRow_accepts (V := InodeValue ObjectId) hkey
  simp only [bind_assoc, pure_bind] at hread
  refine hread.of_eq (fun _ => Iff.rfl) fun entry _ => ?_
  rw [inodeRowFrame, if_neg hlevel]

theorem foundRows_iff {entries : List InodeEntry} :
    (∃ found, FoundRows found ∧ entries = found.map fun row =>
        (⟨row.1, none, some row.2.2⟩ : InodeEntry)) ↔
      (∀ entry ∈ entries, (entry.key ≠ 0 ∧ entry.key < 256 ^ 8) ∧ InodeLeafEntry entry) ∧
        entries ≠ [] ∧ entries.length ≤ maximumLeafRows ∧
        (entries.map WireEntry.key).Pairwise (· < ·) := by
  constructor
  · rintro ⟨found, ⟨⟨hpos, hmost, hordered, hne⟩, htyped, hdecoded⟩, rfl⟩
    have hserials : ((rowsOf found).map InodeLeafRow.serial) =
        (found.map fun row => (⟨row.1, none, some row.2.2⟩ : InodeEntry)).map WireEntry.key := by
      rw [rowsOf, map_map, map_map]
      rfl
    rw [rowsOf, length_map] at hpos hmost
    refine ⟨fun entry hentry => ?_, ?_, by rwa [length_map], by rwa [← hserials]⟩
    · obtain ⟨row, hrow, rfl⟩ := mem_map.mp hentry
      have hvalue := (decodeInodeValue_eq_ok row.2.1.isBytes).mp (hdecoded row hrow)
      exact ⟨⟨hne _ (mem_map_of_mem hrow), htyped _ (mem_map_of_mem hrow)⟩, rfl,
        row.2.2, rfl, hvalue.1⟩
    · rw [ne_eq, map_eq_nil_iff]
      exact ne_nil_of_length_pos hpos
  · rintro ⟨hall, hne, hmost, hordered⟩
    have hfound : ∃ found : List (ℕ × Block 73 × InodeValue ObjectId),
        (entries = found.map fun row => (⟨row.1, none, some row.2.2⟩ : InodeEntry)) ∧
        ∀ row ∈ found, decodeInodeValue row.2.1.bytes = .ok row.2.2 := by
      clear hne hmost hordered
      induction entries with
      | nil => exact ⟨[], rfl, forall_mem_nil _⟩
      | cons entry rest ih =>
        obtain ⟨found, rfl, hdecoded⟩ := ih fun e he => hall e (mem_cons_of_mem _ he)
        obtain ⟨key, child, value⟩ := entry
        obtain ⟨-, hchild, decoded, hvalue, hvalid⟩ := hall _ mem_cons_self
        cases hchild
        cases hvalue
        refine ⟨(key, valueBlock decoded, decoded) :: found, rfl,
          forall_mem_cons.mpr ⟨?_, hdecoded⟩⟩
        exact (decodeInodeValue_eq_ok (valueBlock decoded).isBytes).mpr ⟨hvalid, rfl⟩
    obtain ⟨found, rfl, hdecoded⟩ := hfound
    have hserials : ((rowsOf found).map InodeLeafRow.serial) =
        (found.map fun row => (⟨row.1, none, some row.2.2⟩ : InodeEntry)).map WireEntry.key := by
      rw [rowsOf, map_map, map_map]
      rfl
    have hkey : ∀ row ∈ rowsOf found, row.serial ≠ 0 ∧ row.serial < 256 ^ 8 := by
      intro row hrow
      obtain ⟨r, hr, rfl⟩ := mem_map.mp hrow
      exact (hall _ (mem_map_of_mem hr)).1
    rw [length_map] at hmost
    rw [ne_eq, map_eq_nil_iff] at hne
    refine ⟨found, ⟨⟨?_, ?_, by rwa [hserials], fun row hrow => (hkey row hrow).1⟩,
      fun row hrow => (hkey row hrow).2, hdecoded⟩, rfl⟩
    · rw [rowsOf, length_map]
      exact length_pos_of_ne_nil hne
    · rwa [rowsOf, length_map]

theorem InodesReadable.filled {page : WirePage ℕ (InodeValue ObjectId)} (h : InodesReadable page) :
    ∀ row ∈ page.view.rows, Filled page.view.level row := by
  intro row hrow
  rw [Filled]
  split_ifs with hlevel
  · obtain ⟨-, value, hvalue, -⟩ := (h.leaf hlevel).1 row hrow
    rw [hvalue]
    exact Option.some_ne_none _
  · exact ((h.branch hlevel).1 row hrow).2

theorem leafFrame_rowsOf {found : List (ℕ × Block 73 × InodeValue ObjectId)}
    (h : ∀ row ∈ found, decodeInodeValue row.2.1.bytes = .ok row.2.2) :
    leafFrame (rowsOf found) = (leafHeader found.length).frame ++
      ((found.map fun row => (⟨row.1, none, some row.2.2⟩ : InodeEntry)).map
        (inodeRowFrame 0)).flatten := by
  rw [leafFrame, rowsOf, length_map, map_map, map_map]
  refine congrArg ((leafHeader found.length).frame ++ List.flatten ·)
    (map_congr_left fun row hrow => ?_)
  have hvalue := ((decodeInodeValue_eq_ok row.2.1.isBytes).mp (h row hrow)).2
  rw [Function.comp_apply, Function.comp_apply, rowFrame, inodeRowFrame, if_pos rfl, hvalue]
  rfl

theorem frame_injective {a b : PageHeader} (ha : a.Fits) (hb : b.Fits) (h : a.frame = b.frame) :
    a = b := by
  have hbytes : IsBytes a.frame := isBytes_pageHeader ha.1.2
  have hfirst := (readPageHeader_accepts _ hbytes a []).mpr ⟨ha, (append_nil _).symm⟩
  have hsecond := (readPageHeader_accepts _ hbytes b []).mpr ⟨hb, by rw [h, append_nil]⟩
  rw [hfirst] at hsecond
  cases hsecond
  rfl

/-- **What is accepted behind a header**: the rows the header is of. -/
theorem decodeInodesRows_eq_ok (hbody : IsBytes body) (hlevel : header.level ≤ maximumTreeLevel)
    (hfits : header.Fits)
    (hframe : header = headerOf inodeLeafMagic header.role header.level header.count
      header.subtreeCount header.subtreeBytes) {page : WirePage ℕ (InodeValue ObjectId)} :
    decodeInodesRows header (header.frame ++ body) body size = .ok page ↔
      InodesReadable { page with size := (inodeObject page.view).length } ∧ page.size = size ∧
        header = inodeHeader page.view ∧
        body = (page.entries.map (inodeRowFrame page.level)).flatten := by
  have hvalueBytes : IsBytes (header.frame ++ body) :=
    (isBytes_pageHeader hfits.1.2).append hbody
  rw [decodeInodesRows]
  constructor
  · intro h
    split_ifs at h with hleaf hbranch
    · obtain ⟨entries, hentries, h⟩ := bind_eq_ok.mp h
      cases h
      obtain ⟨found, hfound, hvalue, hmap⟩ := (decodeLeafValueWith_eq_ok hvalueBytes).mp hentries
      obtain ⟨hall, hne, hmost, hordered⟩ := foundRows_iff.mp ⟨found, hfound, hmap⟩
      rw [leafFrame_rowsOf hfound.decoded, ← hmap] at hvalue
      have hlength : entries.length = found.length := by
        rw [hmap, length_map]
      obtain ⟨hsame, hrows⟩ := append_inj hvalue (by
        rw [length_pageHeader hfits.1.1, length_pageHeader rfl])
      have hshort : found.length ≤ maximumLeafRows := hlength ▸ hmost
      have hheader : header = leafHeader found.length :=
        frame_injective hfits (leafHeader_fits hshort) hsame
      have hzero : header.level = 0 := hleaf.2
      refine ⟨⟨hlevel, ?_, hordered, fun entry hentry => (hall entry hentry).1, fun _ =>
        ⟨fun entry hentry => (hall entry hentry).2, hne, ?_, ?_⟩, fun h => absurd hzero h, rfl⟩,
        rfl, ?_, by rw [hzero]; exact hrows⟩
      · dsimp only
        rw [inodeMaxItems, if_pos hzero]
        exact hmost
      · rw [hheader, hlength]
        rfl
      · rw [hheader, hlength]
        rfl
      · rw [inodeHeader]
        refine (hheader.trans ?_).trans (if_pos hzero).symm
        rw [← hlength]
        rfl
    · obtain ⟨⟨entries, rest⟩, hrows, h⟩ := bind_eq_ok.mp h
      obtain ⟨hend, h⟩ := check_bind_eq_ok.mp h
      obtain ⟨hrole, hpos, -, htwo, hmost⟩ := hbranch
      obtain ⟨⟨hcount, hall⟩, hrest, -⟩ := (readMany_end_eq_ok
        (readInodeBranchRow_accepts hpos.ne') hbody).mp ⟨hrows, ensure_eq_ok.mp hend⟩
      simp only [check_bind_eq_ok, ensure_eq_ok, strictlyOrdered_iff, decide_eq_true_eq,
        beq_iff_eq] at h
      obtain ⟨hsummary, hbound, htotal, hordered, h⟩ := h
      cases h
      refine ⟨⟨hlevel, ?_, hordered, fun entry hentry => (hall entry hentry).1,
        fun h => absurd h hpos.ne', fun _ => ⟨fun entry hentry => (hall entry hentry).2,
          hcount ▸ htwo, hcount ▸ hsummary, hbound, htotal.symm⟩, rfl⟩, rfl, ?_, hrest⟩
      · dsimp only
        rw [inodeMaxItems, if_neg hpos.ne', hcount]
        exact hmost
      · rw [inodeHeader]
        refine Eq.trans ?_ (if_neg hpos.ne').symm
        conv_lhs => rw [hframe, hrole, ← hcount, ← htotal]
        rfl
  · rintro ⟨hpage, rfl, hheader, hrows⟩
    have hdepth : header.level = page.level := by
      rw [hheader, inodeHeader]
      split_ifs with h
      · exact Eq.symm h
      · rfl
    by_cases hzero : page.level = 0
    · obtain ⟨hall, hne, hcount, hbytes⟩ := hpage.leaf hzero
      have hview : page.view.level = 0 := hzero
      rw [inodeHeader, if_pos hview] at hheader
      have hmost : page.entries.length ≤ maximumLeafRows := by
        have h := hpage.length_le
        dsimp only at h
        rwa [inodeMaxItems, if_pos hzero] at h
      obtain ⟨found, hfound, hmap⟩ := foundRows_iff.mpr
        ⟨fun entry hentry => ⟨hpage.serial entry hentry, hall entry hentry⟩, hne, hmost,
          hpage.ascending⟩
      have hlength : page.entries.length = found.length := by
        rw [hmap, length_map]
      have hvalue : header.frame ++ body = leafFrame (rowsOf found) := by
        rw [leafFrame_rowsOf hfound.decoded, ← hmap, ← hlength, hrows, hheader, hzero]
        rfl
      rw [if_pos ⟨by rw [hheader]; rfl, hdepth.trans hzero⟩]
      refine bind_eq_ok.mpr ⟨page.entries,
        (decodeLeafValueWith_eq_ok hvalueBytes).mpr ⟨found, hfound, hvalue, hmap⟩, ?_⟩
      have hcount' : header.count = page.count := by
        rw [hheader]
        exact hcount.symm
      have hbytes' : header.subtreeBytes = page.bytes := by
        rw [hheader]
        exact hbytes.symm
      rw [hdepth, hcount', hbytes']
      rfl
    · obtain ⟨hall, htwo, hsummary, hbound, hbytes⟩ := hpage.branch hzero
      have hview : page.view.level ≠ 0 := hzero
      rw [inodeHeader, if_neg hview] at hheader
      have hmost : page.entries.length ≤ maximumInodeBranchChildren := by
        have h := hpage.length_le
        dsimp only at h
        rwa [inodeMaxItems, if_neg hzero] at h
      have hcount : page.entries.length = header.count := by
        rw [hheader]
        rfl
      have htotal : header.subtreeCount = page.count := by
        rw [hheader]
        rfl
      have hbytes' : header.subtreeBytes = page.count * leafRowBytes := by
        rw [hheader]
        rfl
      have hrole : header.role = inodeBranchRole := by
        rw [hheader]
        rfl
      rw [if_neg fun h => hzero (hdepth.symm.trans h.2), if_pos ⟨hrole, by omega, hlevel,
        hcount ▸ htwo, hcount ▸ hmost⟩]
      obtain ⟨hread, -⟩ := (readMany_end_eq_ok (readInodeBranchRow_accepts hzero) hbody).mpr
        ⟨⟨hcount, fun entry hentry => ⟨hpage.serial entry hentry, hall entry hentry⟩⟩, hrows, rfl⟩
      rw [hread, ok_bind]
      dsimp only
      rw [ensure_pass _ isEmpty_nil, ok_bind, htotal, ← hcount,
        ensure_pass _ (decide_eq_true hsummary), ok_bind, ensure_pass _ (decide_eq_true hbound),
        ok_bind, hbytes', ensure_pass _ (beq_self_eq_true _), ok_bind,
        ensure_pass _ ((strictlyOrdered_iff _).mpr hpage.ascending), ok_bind, hdepth, ← hbytes]
      rfl

theorem InodesReadable.header_fits {page : WirePage ℕ (InodeValue ObjectId)}
    (h : InodesReadable page) : (inodeHeader page.view).Fits := by
  by_cases hlevel : page.level = 0
  · have hview : page.view.level = 0 := hlevel
    have hmost := h.length_le
    rw [inodeMaxItems, if_pos hlevel] at hmost
    rw [inodeHeader, if_pos hview]
    exact leafHeader_fits hmost
  · have hview : page.view.level ≠ 0 := hlevel
    have hmost := h.length_le
    obtain ⟨-, -, -, hbound, -⟩ := h.branch hlevel
    rw [inodeMaxItems, if_neg hlevel] at hmost
    have hmagic : inodeLeafMagic.length = 8 ∧ IsBytes inodeLeafMagic := by decide
    have hsmall : nodeVersion < 256 ^ 2 ∧ inodeBranchRole < 256 ^ 1 ∧ 0 < 256 ^ 1 ∧
      maximumTreeLevel < 256 ^ 1 ∧ maximumInodeBranchChildren < 256 ^ 2 := by decide
    obtain ⟨hversion, hrole, hzero, hdeep, hchildren⟩ := hsmall
    have hcount : page.count < 256 ^ 8 := by
      refine lt_of_le_of_lt ?_ hbound
      exact Nat.le_mul_of_pos_right _ (by decide)
    rw [inodeHeader, if_neg hview]
    exact ⟨hmagic, hversion, hrole, h.level_le.trans_lt hdeep, hzero, hmost.trans_lt hchildren,
      hcount, hbound⟩

/-- **What is accepted of an inode page.** -/
theorem decodeInodes_eq_ok (hbytes : IsBytes canonical) {page : WirePage ℕ (InodeValue ObjectId)} :
    decodeInodes canonical = .ok page ↔
      InodesReadable page ∧ canonical = inodeObject page.view := by
  rw [decodeInodes, bind_eq_ok]
  constructor
  · rintro ⟨⟨value, header, body⟩, hvalue, h⟩
    obtain ⟨hfits, hheader, hmagic, hversion, hflags, hlevel, rfl, rfl⟩ :=
      (decodeNodeValue_eq_ok hbytes).mp hvalue
    have hbody : IsBytes body := (isBytes_of_envelope hbytes).of_append.2
    have hframe : header =
        headerOf inodeLeafMagic header.role header.level header.count header.subtreeCount
          header.subtreeBytes := by
      rw [headerOf, PageHeader.mk.injEq]
      exact ⟨hmagic, hversion, rfl, rfl, hflags, rfl, rfl, rfl⟩
    obtain ⟨hpage, hsize, hsame, hrows⟩ :=
      (decodeInodesRows_eq_ok hbody hlevel hheader hframe).mp h
    have hobject : envelope (header.frame ++ body) = inodeObject page.view := by
      rw [hsame, hrows]
      rfl
    obtain ⟨hdepth, hmost, hordered, hserial, hleaf, hbranch, -⟩ := hpage
    exact ⟨⟨hdepth, hmost, hordered, hserial, hleaf, hbranch,
      hsize.trans (congrArg List.length hobject)⟩, hobject⟩
  · rintro ⟨hpage, rfl⟩
    have hbody : IsBytes (page.entries.map (inodeRowFrame page.level)).flatten :=
      (isBytes_of_envelope hbytes).of_append.2
    have hfits := hpage.header_fits
    have hshape : inodeHeader page.view = headerOf inodeLeafMagic (inodeHeader page.view).role
        (inodeHeader page.view).level (inodeHeader page.view).count
        (inodeHeader page.view).subtreeCount (inodeHeader page.view).subtreeBytes := by
      rw [inodeHeader]
      split_ifs <;> rfl
    have hdepth : (inodeHeader page.view).level ≤ maximumTreeLevel := by
      rw [inodeHeader]
      split_ifs
      · exact Nat.zero_le _
      · exact hpage.level_le
    have hvalue : decodeNodeValue (inodeObject page.view) inodeLeafMagic =
        .ok ((inodeHeader page.view).frame ++
          (page.entries.map (inodeRowFrame page.level)).flatten, inodeHeader page.view,
          (page.entries.map (inodeRowFrame page.level)).flatten) :=
      (decodeNodeValue_eq_ok hbytes).mpr ⟨length_inodeObject_le hpage.length_le hpage.filled,
        hfits, magic_inodeHeader _, by rw [hshape]; rfl, by rw [hshape]; rfl, hdepth, rfl, rfl⟩
    refine ⟨_, hvalue, (decodeInodesRows_eq_ok hbody hdepth hfits hshape).mpr
      ⟨⟨hpage.level_le, hpage.length_le, hpage.ascending, hpage.serial, hpage.leaf, hpage.branch,
        rfl⟩, hpage.size_eq, rfl, rfl⟩⟩

end LayerFs.SortedCodec
