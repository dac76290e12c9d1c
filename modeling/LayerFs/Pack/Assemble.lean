import LayerFs.Pack.Layout

/-!
# Group framing and pack assembly

How groups are framed and a pack is assembled from them (`layerfs-storage/src/pack/assemble.rs`).

* `BuiltFrom`, `buildGroup_eq_ok` — **what a built group holds of its records**.
-/

namespace LayerFs

open List

variable {records : List (List UInt8)} {bytes : List UInt8} {what : String} {before limit : ℕ}

namespace Pack

open Save (PackLane)

/-! ## Group bodies -/

def word (n : ℕ) (what : String) : PackResult (List UInt8) :=
  if n < 2 ^ 32 then .ok (le32 n) else .error (.integrity what)

/-- Framed length of one group body holding so many records and payload bytes. -/
def framedGroupLength (records payload : ℕ) : ℕ := 4 + 4 * records + payload

def framedLength (records : List (List UInt8)) : ℕ :=
  framedGroupLength records.length records.flatten.length

def recordEnds (what : String) : ℕ → List (List UInt8) → PackResult (List UInt8)
  | _, [] => .ok []
  | before, record :: records => do
    let stop ← word (before + record.length) what
    let rest ← recordEnds what (before + record.length) records
    return stop ++ rest

def fits (what : String) (limit length : ℕ) : PackResult Unit :=
  if limit < length then .error (.capacityExceeded what limit length) else .ok ()

/-- `frame_group_bounded`. -/
def frameGroupBounded (records : List (List UInt8)) (limit : ℕ) : PackResult (List UInt8) := do
  demand (records ≠ [] ∧ records.length ≤ recordCountLimit) (.integrity "group record count")
  demand (records.all fun record => !record.isEmpty) (.integrity "empty record")
  fits "pack.group_body" limit (framedLength records)
  let count ← word records.length "group record count"
  let ends ← recordEnds "group record end" 0 records
  return count ++ ends ++ records.flatten

/-- `frame_group`. -/
def frameGroup (records : List (List UInt8)) : PackResult (List UInt8) :=
  frameGroupBounded records groupLimit

def compactRecord (record : List UInt8) : List UInt8 :=
  record.take 1 ++ record.drop (1 + wholeFileCompactDrop)

/-- `frame_compact_group`: the grammar of `frame_group` over compact records. -/
def frameCompactGroup (records : List (List UInt8)) (limit : ℕ) : PackResult (List UInt8) := do
  demand (records ≠ [] ∧ records.length ≤ recordCountLimit)
    (.integrity "compact group record count")
  let count ← word records.length "compact group record count"
  demand (records.all fun record =>
      wholeFileCompactDrop ≤ record.length && 2 ≤ record.length - wholeFileCompactDrop)
    (.integrity "compact record width")
  let length := framedGroupLength records.length
    (records.map fun record => record.length - wholeFileCompactDrop).sum
  fits "pack.compact_group_body" limit length
  let ends ← recordEnds "compact record end" 0 (records.map compactRecord)
  let bytes := count ++ ends ++ (records.map compactRecord).flatten
  demand (bytes.length = length) (.integrity "compact group assembly")
  return bytes

/-! ## Compression -/

def groupFrameLimit : ℕ := groupLimit + 1024

/-- The Zstandard contexts: one frame of a body, and the body of a stated length a frame holds. -/
structure Zstandard where
  compress : List UInt8 → PackResult (List UInt8)
  decompress : List UInt8 → ℕ → PackResult (List UInt8)

/-- **What the code relies on of Zstandard**: a frame is not empty and decompresses to its body. -/
structure Zstandard.Lawful (zstandard : Zstandard) : Prop where
  nonempty : ∀ {raw frame}, zstandard.compress raw = .ok frame → frame ≠ []
  roundTrip : ∀ {raw frame}, zstandard.compress raw = .ok frame →
    zstandard.decompress frame raw.length = .ok raw

/-- `compress_group_body`: a frame that saves at least a directory entry. -/
def compressGroupBody (zstandard : Zstandard) (raw : List UInt8) :
    PackResult (Option (List UInt8)) := do
  demand (raw ≠ [] ∧ raw.length ≤ groupLimit) (.integrity "group body bounds")
  let frame ← zstandard.compress raw
  return if frame.length + 16 ≤ raw.length then some frame else none

/-- `decompress_group`. -/
def decompressGroup (zstandard : Zstandard) (frame : List UInt8) (rawLength : ℕ) :
    PackResult (List UInt8) := do
  demand (frame ≠ [] ∧ rawLength ≠ 0 ∧ rawLength ≤ groupLimit ∧ frame.length ≤ groupFrameLimit)
    (.integrity "group body frame bounds")
  zstandard.decompress frame rawLength

/-! ## Groups -/

/-- One framed group ready for placement. -/
structure EncodedGroup where
  bytes : List UInt8
  decodedLength : ℕ
  records : ℕ
  codec : GroupCodec
  deriving DecidableEq

def sizedBodyOffset (lane : PackLane) (groups : ℕ) : ℕ := headerLen + directoryEntryLen lane * groups

/-- Largest compact whole-file group body a pack can hold, under a full directory. -/
def wholeFileGroupBodyLimit : ℕ :=
  packLimit - (headerLen + directoryEntryLen .wholeFile * tightGroups)

/-- The body of an ordinary group: compressed when a workspace is given and it pays. -/
def ordinaryBody (workspace : Option Zstandard) (raw : List UInt8) :
    PackResult (List UInt8 × GroupCodec) :=
  match workspace with
  | none => .ok (raw, .raw)
  | some zstandard => do
    let frame ← compressGroupBody zstandard raw
    return match frame with
      | some frame => (frame, .zstandard)
      | none => (raw, .raw)

/-- `build_group`. -/
def buildGroup (lane : PackLane) (records : List (List UInt8)) (workspace : Option Zstandard) :
    PackResult EncodedGroup :=
  match lane with
  | .wholeFile => do
    let bytes ← frameCompactGroup records wholeFileGroupBodyLimit
    return ⟨bytes, bytes.length, records.length, .raw⟩
  | .chunk => do
    let bytes ← frameGroup records
    return ⟨bytes, framedLength records, records.length, .raw⟩
  | .singleton => do
    let bytes ← frameGroupBounded records singletonPackLimit
    return ⟨bytes, framedLength records, records.length, .raw⟩
  | .ordinary => do
    let raw ← frameGroup records
    let body ← ordinaryBody workspace raw
    return ⟨body.1, raw.length, records.length, body.2⟩

/-! ## Packs -/

def bodyBytes (groups : List EncodedGroup) : List UInt8 := (groups.map EncodedGroup.bytes).flatten

def assembledLength (lane : PackLane) (groups : List EncodedGroup) : ℕ :=
  sizedBodyOffset lane groups.length + (groups.map fun group => group.bytes.length).sum

/-- `checked_pack_length`. -/
def checkedPackLength (lane : PackLane) (groups : List EncodedGroup) : PackResult ℕ := do
  demand (groups ≠ [] ∧ groups.length ≤ lane.groupCountLimit) (.integrity "pack group count")
  fits "pack.assembled_length" (lanePackLimit lane) (assembledLength lane groups)
  return assembledLength lane groups

/-- `control_area`. -/
def controlArea (lane : PackLane) (groupCount used : ℕ) : PackResult (List UInt8) := do
  let count ← word groupCount "pack group count"
  let length ← word used "pack length"
  return packMagic ++ le32 (versionOf lane).number ++ count ++ length ++ [0, 0, 0, 0]

def GroupCodec.flag : GroupCodec → UInt8
  | .raw => 0
  | .zstandard => 1

def directoryEntry (lane : PackLane) (offset : ℕ) (group : EncodedGroup) : PackResult (List UInt8) :=
  match lane with
  | .wholeFile => word offset "compact start"
  | _ => do
    let start ← word offset "group start"
    let encoded ← word group.bytes.length "group encoded length"
    let decoded ← word group.decodedLength "group decoded length"
    return start ++ encoded ++ decoded ++ [group.codec.flag, 0, 0, 0]

/-- `directory_entries`. -/
def directoryEntries (lane : PackLane) : List EncodedGroup → ℕ → PackResult (List UInt8)
  | [], _ => .ok []
  | group :: groups, offset => do
    let entry ← directoryEntry lane offset group
    let rest ← directoryEntries lane groups (offset + group.bytes.length)
    return entry ++ rest

/-- `assemble`. -/
def assemble (lane : PackLane) (groups : List EncodedGroup) : PackResult (List UInt8) := do
  let length ← checkedPackLength lane groups
  let entries ← directoryEntries lane groups (sizedBodyOffset lane groups.length)
  let area ← controlArea lane groups.length length
  demand (entries.length = sizedBodyOffset lane groups.length - headerLen)
    (.integrity "pack directory width")
  let bytes := area ++ entries ++ bodyBytes groups
  demand (bytes.length = length) (.integrity "assembled pack length")
  return bytes

/-! ## Framed bodies -/

def endsOf : ℕ → List (List UInt8) → List UInt8
  | _, [] => []
  | before, record :: records =>
    le32 (before + record.length) ++ endsOf (before + record.length) records

def framed (records : List (List UInt8)) : List UInt8 :=
  le32 records.length ++ endsOf 0 records ++ records.flatten

/-- Records a group body of a limit can hold. -/
structure Frameable (records : List (List UInt8)) (limit : ℕ) : Prop where
  nonempty : records ≠ []
  count : records.length ≤ recordCountLimit
  filled : ∀ record ∈ records, record ≠ []
  fits : framedLength records ≤ limit

theorem word_eq_ok {n : ℕ} : word n what = .ok bytes ↔ n < 2 ^ 32 ∧ le32 n = bytes := by
  rw [word]
  split_ifs with h
  · rw [Except.ok.injEq, and_iff_right h]
  · exact iff_of_false (by simp) fun hn => h hn.1

theorem fits_eq_ok {length : ℕ} {u : Unit} : fits what limit length = .ok u ↔ length ≤ limit := by
  rw [fits]
  split_ifs with h
  · simpa using h
  · simpa using h

theorem recordEnds_eq_ok (h : recordEnds what before records = .ok bytes) :
    bytes = endsOf before records := by
  induction records generalizing before bytes with
  | nil =>
    cases h
    rfl
  | cons record records ih =>
    simp only [recordEnds, pack_bind_eq_ok, word_eq_ok] at h
    obtain ⟨_, ⟨-, rfl⟩, rest, hrest, hbytes⟩ := h
    cases hbytes
    rw [ih hrest, endsOf]

theorem length_endsOf : (endsOf before records).length = 4 * records.length := by
  induction records generalizing before with
  | nil => rfl
  | cons record records ih =>
    rw [endsOf, length_append, length_le32, ih, length_cons]
    omega

theorem length_framed : (framed records).length = framedLength records := by
  rw [framed, length_append, length_append, length_le32, length_endsOf, framedLength,
    framedGroupLength]

/-- **What `frame_group_bounded` returns.** -/
theorem frameGroupBounded_eq_ok (h : frameGroupBounded records limit = .ok bytes) :
    Frameable records limit ∧ bytes = framed records := by
  simp only [frameGroupBounded, pack_bind_eq_ok, demand_eq_ok, fits_eq_ok, word_eq_ok] at h
  obtain ⟨-, hcount, -, hfilled, -, hfits, _, ⟨-, rfl⟩, ends, hends, hbytes⟩ := h
  cases hbytes
  have hcount := of_decide_eq_true hcount
  refine ⟨⟨hcount.1, hcount.2, fun record hrecord => ?_, hfits⟩, ?_⟩
  · simpa using all_eq_true.mp hfilled record hrecord
  · rw [recordEnds_eq_ok hends, framed]

theorem length_compactRecord {record : List UInt8} (h : 9 ≤ record.length) :
    (compactRecord record).length = record.length - wholeFileCompactDrop := by
  simp only [compactRecord, wholeFileCompactDrop, length_append, length_take,
    length_drop]
  omega

/-- **What `frame_compact_group` returns.** -/
theorem frameCompactGroup_eq_ok (h : frameCompactGroup records limit = .ok bytes) :
    Frameable (records.map compactRecord) limit ∧ bytes = framed (records.map compactRecord) := by
  simp only [frameCompactGroup, pack_bind_eq_ok, demand_eq_ok, fits_eq_ok, word_eq_ok] at h
  obtain ⟨-, hcount, _, ⟨-, rfl⟩, -, hwidth, -, hfits, ends, hends, -, hlength, hbytes⟩ := h
  cases hbytes
  have hcount := of_decide_eq_true hcount
  have hwide : ∀ record ∈ records, 10 ≤ record.length := by
    intro record hrecord
    have hrecord := all_eq_true.mp hwidth record hrecord
    simp only [Bool.and_eq_true] at hrecord
    have hlong := of_decide_eq_true hrecord.1
    have hbody := of_decide_eq_true hrecord.2
    rw [wholeFileCompactDrop] at hlong hbody
    omega
  have hbody : le32 records.length ++ ends ++ (records.map compactRecord).flatten =
      framed (records.map compactRecord) := by
    rw [recordEnds_eq_ok hends, framed, length_map]
  have hlength := of_decide_eq_true hlength
  rw [hbody, length_framed] at hlength
  refine ⟨⟨?_, ?_, fun record hrecord => ?_, by rw [hlength]; exact hfits⟩, hbody⟩
  · simpa using hcount.1
  · simpa using hcount.2
  · obtain ⟨source, hsource, rfl⟩ := mem_map.mp hrecord
    have hlen := @length_compactRecord source (by have := hwide source hsource; omega)
    have := hwide source hsource
    intro hnil
    rw [hnil] at hlen
    simp only [wholeFileCompactDrop, length_nil] at hlen
    omega

/-! ## Built groups -/

def storedRecords (lane : PackLane) (records : List (List UInt8)) : List (List UInt8) :=
  match lane with
  | .wholeFile => records.map compactRecord
  | _ => records

def Compressed (workspace : Option Zstandard) (raw frame : List UInt8) : Prop :=
  ∃ zstandard, workspace = some zstandard ∧ zstandard.compress raw = .ok frame ∧
    frame.length + 16 ≤ raw.length

/-- **A group of a lane built from records.** -/
structure BuiltFrom (lane : PackLane) (records : List (List UInt8)) (workspace : Option Zstandard)
    (group : EncodedGroup) : Prop where
  frameable : Frameable (storedRecords lane records) (bodyLimit lane)
  decoded : group.decodedLength = (framed (storedRecords lane records)).length
  body : group.codec = .raw ∧ group.bytes = framed (storedRecords lane records) ∨
    lane = .ordinary ∧ group.codec = .zstandard ∧
      Compressed workspace (framed (storedRecords lane records)) group.bytes

variable {workspace : Option Zstandard}

theorem ordinaryBody_eq_ok {raw : List UInt8} {body : List UInt8 × GroupCodec}
    (h : ordinaryBody workspace raw = .ok body) :
    body = (raw, .raw) ∨ body.2 = .zstandard ∧ Compressed workspace raw body.1 := by
  rcases workspace with _ | zstandard
  · cases h
    exact .inl rfl
  · simp only [ordinaryBody, compressGroupBody, pack_bind_eq_ok] at h
    obtain ⟨found, ⟨-, -, frame, hframe, hfound⟩, hbody⟩ := h
    cases hfound
    by_cases hshort : frame.length + 16 ≤ raw.length
    · rw [if_pos hshort] at hbody
      cases hbody
      exact .inr ⟨rfl, zstandard, rfl, hframe, hshort⟩
    · rw [if_neg hshort] at hbody
      cases hbody
      exact .inl rfl

theorem buildGroup_eq_ok {lane : PackLane} {group : EncodedGroup}
    (h : buildGroup lane records workspace = .ok group) :
    BuiltFrom lane records workspace group := by
  cases lane with
  | wholeFile =>
    simp only [buildGroup, pack_bind_eq_ok] at h
    obtain ⟨bytes, hbytes, hgroup⟩ := h
    cases hgroup
    obtain ⟨hframeable, rfl⟩ := frameCompactGroup_eq_ok hbytes
    refine ⟨⟨hframeable.nonempty, hframeable.count, hframeable.filled, ?_⟩, rfl, .inl ⟨rfl, rfl⟩⟩
    exact hframeable.fits.trans (Nat.sub_le _ _)
  | chunk =>
    simp only [buildGroup, frameGroup, pack_bind_eq_ok] at h
    obtain ⟨bytes, hbytes, hgroup⟩ := h
    cases hgroup
    obtain ⟨hframeable, rfl⟩ := frameGroupBounded_eq_ok hbytes
    exact ⟨hframeable, length_framed.symm, .inl ⟨rfl, rfl⟩⟩
  | singleton =>
    simp only [buildGroup, pack_bind_eq_ok] at h
    obtain ⟨bytes, hbytes, hgroup⟩ := h
    cases hgroup
    obtain ⟨hframeable, rfl⟩ := frameGroupBounded_eq_ok hbytes
    exact ⟨hframeable, length_framed.symm, .inl ⟨rfl, rfl⟩⟩
  | ordinary =>
    simp only [buildGroup, frameGroup, pack_bind_eq_ok] at h
    obtain ⟨raw, hraw, body, hbody, hgroup⟩ := h
    cases hgroup
    obtain ⟨hframeable, rfl⟩ := frameGroupBounded_eq_ok hraw
    refine ⟨hframeable, rfl, ?_⟩
    rcases ordinaryBody_eq_ok hbody with rfl | ⟨hcodec, hcompressed⟩
    · exact .inl ⟨rfl, rfl⟩
    · exact .inr ⟨rfl, hcodec, hcompressed⟩

end Pack

end LayerFs
