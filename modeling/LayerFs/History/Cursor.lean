import LayerFs.History.Identity
import LayerFs.Support.Ranges

/-!
# Continuation cursors (`layerfs-history/src/contract/query.rs`)

A cursor is a fixed 160-byte value: the catalog and its incarnation, the range it belongs to, the
subject and the anchor of that range, the last record delivered, and a keyed digest of all of it.

* `Query.decode_encode` — **a cursor is read back as it was written**.
* `Query.decode_issued` — **a cursor is accepted only where it was issued**, when no caller can make
  the digest of a cursor that was not.
* `Query.page_cuts` — **one page of a range**: some of its records, and how to go on.
-/

namespace LayerFs.History.Query

open List

open Wire Ranges

def maximumResultBytes : ℕ := 16 * 1024

def maximumPageRecords : ℕ := 128

/-- `CURSOR_VERSION`. -/
def cursorVersion : ℕ := 2

/-- `CURSOR_BYTES`, also `MAXIMUM_CURSOR_BYTES`. -/
def cursorBytes : ℕ := 160

/-- `FIELD_BYTES`: what each variable field occupies, zero padded. -/
def fieldBytes : ℕ := 33

def subjectAt : ℕ := 42

def anchorAt : ℕ := subjectAt + fieldBytes + 1

def positionAt : ℕ := anchorAt + fieldBytes + 1

def digestAt : ℕ := positionAt + fieldBytes + 1

/-- The bounded range a cursor resumes. -/
inductive Range where
  | stackNames
  | branchNames
  | commitAncestry
  | layerChain
  deriving DecidableEq

def Range.code : Range → ℕ
  | stackNames => 1
  | branchNames => 2
  | commitAncestry => 3
  | layerChain => 4

theorem Range.code_inj {a b : Range} (h : a.code = b.code) : a = b := by
  cases a <;> cases b <;> first | rfl | cases h

/-- The request context a cursor is only valid inside. -/
structure Context where
  key : Bytes
  catalog : Bytes
  incarnation : ℕ
  range : Range
  subject : Bytes
  catalog_width : catalog.length = 32
  incarnation_lt : incarnation < 256 ^ 8

/-- A decoded continuation: where the range starts, and the last record already delivered. -/
structure Cursor where
  anchor : Bytes
  position : Bytes
  deriving DecidableEq

/-! ## Encoding -/

def padded (value : Bytes) : Bytes :=
  value.length :: (value ++ List.replicate (fieldBytes - value.length) 0)

/-- `place`. -/
def place (value : Bytes) : HistoryResult Bytes Bytes := do
  require (decide (value.length ≤ fieldBytes)) (.invalidInput "page cursor field")
  return padded value

/-- `digest`: half of the keyed hash of a domain and the bytes. -/
def digest (keyed : Bytes → Bytes → Bytes) (key bytes : Bytes) : Bytes :=
  (keyed key (ascii "layerfs/history/cursor/v2" ++ [0] ++ bytes)).take 16

section Encode

variable (keyed : Bytes → Bytes → Bytes)

/-- `encode`. -/
def encode (context : Context) (cursor : Cursor) : HistoryResult Bytes Bytes := do
  let subject ← place context.subject
  let anchor ← place cursor.anchor
  let position ← place cursor.position
  let bytes := [cursorVersion, context.range.code] ++ context.catalog ++ be 8 context.incarnation ++
    subject ++ anchor ++ position
  return bytes ++ digest keyed context.key bytes

/-! ## Decoding -/

def slice (bytes : Bytes) (offset width : ℕ) : Bytes := (bytes.drop offset).take width

/-- `field`. -/
def field (bytes : Bytes) (offset : ℕ) : HistoryResult Bytes Bytes := do
  let length := bytes.getD offset 0
  require (decide (length ≤ fieldBytes)) (.integrity "page cursor field")
  require ((slice bytes (offset + 1 + length) (fieldBytes - length)).all fun byte => byte = 0)
    (.integrity "page cursor padding")
  return slice bytes (offset + 1) length

def Signed (key bytes : Bytes) : Prop :=
  ∀ pair ∈ (bytes.drop digestAt).zip (digest keyed key (bytes.take digestAt)), pair.1 = pair.2

instance (key bytes : Bytes) : Decidable (Signed keyed key bytes) :=
  inferInstanceAs (Decidable (∀ pair ∈ _, _))

/-- `decode`. -/
def decode (context : Context) (bytes : Bytes) : HistoryResult Bytes Cursor := do
  require (decide (bytes.length = cursorBytes)) (.invalidInput "page cursor width")
  require (decide (slice bytes 0 2 = [cursorVersion, context.range.code]))
    (.invalidInput "page cursor range")
  require (decide (slice bytes 2 32 = context.catalog ∧ slice bytes 34 8 = be 8 context.incarnation))
    (.invalidInput "page cursor catalog")
  require (decide (Signed keyed context.key bytes)) (.integrity "page cursor digest")
  let subject ← field bytes subjectAt
  require (decide (subject = context.subject)) (.invalidInput "page cursor subject")
  let anchor ← field bytes anchorAt
  let position ← field bytes positionAt
  return ⟨anchor, position⟩

end Encode

/-! ## Reading back -/

theorem slice_at {before value after : Bytes} {offset width : ℕ} (hoffset : before.length = offset)
    (hwidth : value.length = width) : slice (before ++ (value ++ after)) offset width = value := by
  rw [slice, drop_left' hoffset, take_left' hwidth]

theorem length_padded {value : Bytes} (h : value.length ≤ fieldBytes) :
    (padded value).length = fieldBytes + 1 := by
  rw [padded, length_cons, length_append, length_replicate]
  omega

theorem field_at {before value after : Bytes} {offset : ℕ} (hoffset : before.length = offset)
    (hvalue : value.length ≤ fieldBytes) :
    field (before ++ (padded value ++ after)) offset = .ok value := by
  have hlength : (before ++ (padded value ++ after)).getD offset 0 = value.length := by
    rw [getD_eq_getElem?_getD, ← hoffset, getElem?_append_right le_rfl, Nat.sub_self]
    rfl
  have hpadding : slice (before ++ (padded value ++ after)) (offset + 1 + value.length)
      (fieldBytes - value.length) = List.replicate (fieldBytes - value.length) 0 := by
    have hsplit : before ++ (padded value ++ after) = (before ++ (value.length :: value)) ++
        (List.replicate (fieldBytes - value.length) 0 ++ after) := by
      simp [padded]
    rw [hsplit]
    refine slice_at ?_ length_replicate
    rw [length_append, length_cons]
    omega
  have hvalue' : slice (before ++ (padded value ++ after)) (offset + 1) value.length = value := by
    have hsplit : before ++ (padded value ++ after) = (before ++ [value.length]) ++
        (value ++ (List.replicate (fieldBytes - value.length) 0 ++ after)) := by
      simp [padded]
    rw [hsplit]
    refine slice_at ?_ rfl
    rw [length_append, length_singleton, hoffset]
  rw [field, hlength]
  refine history_bind_eq_ok.mpr ⟨(), require_eq_ok.mpr (decide_eq_true hvalue),
    history_bind_eq_ok.mpr ⟨(), require_eq_ok.mpr ?_, ?_⟩⟩
  · rw [hpadding]
    simp
  · rw [hvalue']
    rfl

def frame (context : Context) (cursor : Cursor) : Bytes :=
  [cursorVersion, context.range.code] ++ context.catalog ++ be 8 context.incarnation ++
    padded context.subject ++ padded cursor.anchor ++ padded cursor.position

/-- The variable fields of a cursor have room. -/
structure Fits (context : Context) (cursor : Cursor) : Prop where
  subject : context.subject.length ≤ fieldBytes
  anchor : cursor.anchor.length ≤ fieldBytes
  position : cursor.position.length ≤ fieldBytes

theorem forall_mem_zip {a b : Bytes} (h : a.length = b.length) :
    (∀ pair ∈ a.zip b, pair.1 = pair.2) ↔ a = b := by
  induction a generalizing b with
  | nil =>
    cases b with
    | nil => simp
    | cons y b => cases h
  | cons x a ih =>
    cases b with
    | nil => cases h
    | cons y b =>
      rw [zip_cons_cons, forall_mem_cons, ih (Nat.succ.inj h), List.cons.injEq]

section Read

variable {keyed : Bytes → Bytes → Bytes} {context : Context} {cursor : Cursor} {bytes : Bytes}

omit keyed context cursor in
theorem place_eq_ok {value : Bytes} :
    place value = .ok bytes ↔ value.length ≤ fieldBytes ∧ padded value = bytes := by
  rw [place, history_bind_eq_ok]
  refine ⟨fun h => ?_, fun h => ?_⟩
  · obtain ⟨_, hroom, hbytes⟩ := h
    exact ⟨of_decide_eq_true (require_eq_ok.mp hroom), Except.ok.inj hbytes⟩
  · exact ⟨(), require_eq_ok.mpr (decide_eq_true h.1), congrArg Except.ok h.2⟩

theorem encode_eq_ok : encode keyed context cursor = .ok bytes ↔ Fits context cursor ∧
    bytes = frame context cursor ++ digest keyed context.key (frame context cursor) := by
  simp only [encode, history_bind_eq_ok, place_eq_ok]
  constructor
  · rintro ⟨_, ⟨hsubject, rfl⟩, _, ⟨hanchor, rfl⟩, _, ⟨hposition, rfl⟩, hbytes⟩
    exact ⟨⟨hsubject, hanchor, hposition⟩, (Except.ok.inj hbytes).symm⟩
  · rintro ⟨⟨hsubject, hanchor, hposition⟩, rfl⟩
    exact ⟨_, ⟨hsubject, rfl⟩, _, ⟨hanchor, rfl⟩, _, ⟨hposition, rfl⟩, rfl⟩

theorem exists_encode (h : Fits context cursor) : ∃ bytes, encode keyed context cursor = .ok bytes :=
  ⟨_, encode_eq_ok.mpr ⟨h, rfl⟩⟩

theorem length_frame (h : Fits context cursor) : (frame context cursor).length = digestAt := by
  simp only [frame, length_append, length_padded h.subject, length_padded h.anchor,
    length_padded h.position, context.catalog_width, length_be]
  rfl

variable (hkeyed : ∀ key bytes, (keyed key bytes).length = 32)
include hkeyed

theorem length_digest (key bytes : Bytes) : (digest keyed key bytes).length = 16 := by
  rw [digest, length_take, hkeyed]
  rfl

theorem signed_frame {key : Bytes} (hfits : Fits context cursor) :
    Signed keyed key (frame context cursor ++ digest keyed context.key (frame context cursor)) ↔
      digest keyed context.key (frame context cursor) = digest keyed key (frame context cursor) := by
  rw [Signed, drop_left' (length_frame hfits), take_left' (length_frame hfits)]
  refine forall_mem_zip ?_
  rw [length_digest hkeyed, length_digest hkeyed]

omit hkeyed in
theorem frame_parts (hfits : Fits context cursor) (rest : Bytes) :
    slice (frame context cursor ++ rest) 0 2 = [cursorVersion, context.range.code] ∧
    slice (frame context cursor ++ rest) 2 32 = context.catalog ∧
    slice (frame context cursor ++ rest) 34 8 = be 8 context.incarnation ∧
    field (frame context cursor ++ rest) subjectAt = .ok context.subject ∧
    field (frame context cursor ++ rest) anchorAt = .ok cursor.anchor ∧
    field (frame context cursor ++ rest) positionAt = .ok cursor.position := by
  have hcatalog := context.catalog_width
  have hbe := length_be 8 context.incarnation
  have hsubject := length_padded hfits.subject
  have hanchor := length_padded hfits.anchor
  rw [frame]
  simp only [append_assoc]
  refine ⟨rfl, slice_at rfl hcatalog, ?_, ?_, ?_, ?_⟩
  · rw [← append_assoc]
    refine slice_at ?_ hbe
    rw [length_append, hcatalog]
    rfl
  · rw [← append_assoc, ← append_assoc]
    refine field_at ?_ hfits.subject
    rw [length_append, length_append, hcatalog, hbe]
    rfl
  · rw [← append_assoc, ← append_assoc, ← append_assoc]
    refine field_at ?_ hfits.anchor
    rw [length_append, length_append, length_append, hcatalog, hbe, hsubject]
    rfl
  · rw [← append_assoc, ← append_assoc, ← append_assoc, ← append_assoc]
    refine field_at ?_ hfits.position
    rw [length_append, length_append, length_append, length_append, hcatalog,
      hbe, hsubject, hanchor]
    rfl

theorem length_encode (h : encode keyed context cursor = .ok bytes) : bytes.length = cursorBytes := by
  obtain ⟨hfits, rfl⟩ := encode_eq_ok.mp h
  rw [length_append, length_frame hfits, length_digest hkeyed]
  rfl

/-- **What the checks of a context say of a cursor that was written in another.** -/
theorem decode_frame {issuer : Context} {read : Cursor} (hfits : Fits issuer cursor) :
    decode keyed context (frame issuer cursor ++ digest keyed issuer.key (frame issuer cursor)) =
      .ok read ↔
    (issuer.range = context.range ∧ issuer.catalog = context.catalog ∧
      issuer.incarnation = context.incarnation ∧ issuer.subject = context.subject) ∧
    digest keyed issuer.key (frame issuer cursor) =
      digest keyed context.key (frame issuer cursor) ∧ cursor = read := by
  obtain ⟨hrange, hcatalog, hbe, hsubject, hanchor, hposition⟩ :=
    frame_parts hfits (digest keyed issuer.key (frame issuer cursor))
  have hlength := length_encode hkeyed (encode_eq_ok.mpr ⟨hfits, rfl⟩)
  simp only [decode, history_bind_eq_ok, require_eq_ok, decide_eq_true_eq, hlength, hrange, hcatalog,
    hbe, hsubject, hanchor, hposition, signed_frame hkeyed hfits, Except.ok.injEq, exists_eq_left',
    exists_const, true_and]
  constructor
  · rintro ⟨hcodes, ⟨hown, hborn⟩, hdigest, hsame, hread⟩
    refine ⟨⟨Range.code_inj (by simpa using hcodes), hown, ?_, hsame⟩, hdigest,
      Except.ok.inj hread⟩
    have hnumbers := congrArg ofBe hborn
    rwa [ofBe_be, ofBe_be, Nat.mod_eq_of_lt issuer.incarnation_lt,
      Nat.mod_eq_of_lt context.incarnation_lt] at hnumbers
  · rintro ⟨⟨hcodes, hown, hborn, hsame⟩, hdigest, rfl⟩
    exact ⟨by rw [hcodes], ⟨hown, by rw [hborn]⟩, hdigest, hsame, rfl⟩

/-- **A cursor is read back as it was written.** -/
theorem decode_encode (h : encode keyed context cursor = .ok bytes) :
    decode keyed context bytes = .ok cursor := by
  obtain ⟨hfits, rfl⟩ := encode_eq_ok.mp h
  exact (decode_frame hkeyed hfits).mpr ⟨⟨rfl, rfl, rfl, rfl⟩, rfl, rfl⟩

/-- **A cursor is accepted only where it was issued**, when whoever presents it cannot make the
digest of a cursor that was not. -/
theorem decode_issued {issued : List (Context × Cursor)}
    (hunforged : Signed keyed context.key bytes →
      ∃ issue ∈ issued, encode keyed issue.1 issue.2 = .ok bytes)
    (h : decode keyed context bytes = .ok cursor) :
    ∃ issuer, (issuer, cursor) ∈ issued ∧ issuer.range = context.range ∧
      issuer.catalog = context.catalog ∧ issuer.incarnation = context.incarnation ∧
      issuer.subject = context.subject := by
  have hsigned : Signed keyed context.key bytes := by
    simp only [decode, history_bind_eq_ok, require_eq_ok, decide_eq_true_eq] at h
    obtain ⟨-, -, -, -, -, -, -, hsigned, -⟩ := h
    exact hsigned
  obtain ⟨⟨issuer, written⟩, hissue, hencode⟩ := hunforged hsigned
  obtain ⟨hfits, rfl⟩ := encode_eq_ok.mp hencode
  obtain ⟨⟨hrange, hcatalog, hborn, hsubject⟩, -, rfl⟩ := (decode_frame hkeyed hfits).mp h
  exact ⟨issuer, hissue, hrange, hcatalog, hborn, hsubject⟩

end Read

/-! ## Pages -/

/-- `capacity`: how many records of one kind fit a byte-bounded page. -/
def capacity (limit perRecord : ℕ) : HistoryResult Bytes ℕ := do
  require (decide (limit ≠ 0 ∧ limit ≤ maximumPageRecords)) (.invalidInput "page limit")
  return min limit (max ((maximumResultBytes - (cursorBytes + 16)) / max perRecord 1) 1)

/-- `page`: a page from rows already in query order, one beyond it where more remain. -/
def page {α : Type} (records : List α) (capacity : ℕ) (more : Bool)
    (position : α → HistoryResult Bytes (Option Bytes)) :
    HistoryResult Bytes (PageResult α Bytes) :=
  if more && decide (capacity < records.length) then
    match (records.take capacity).getLast? with
    | some last => do
      let continuation ← position last
      return ⟨records.take capacity, continuation⟩
    | none => return ⟨records.take capacity, none⟩
  else return ⟨records, none⟩

theorem capacity_eq_ok {limit perRecord : ℕ} (hpos : 0 < limit)
    (hmost : limit ≤ maximumPageRecords) :
    ∃ room, capacity limit perRecord = .ok room ∧ 0 < room := by
  refine ⟨_, history_bind_eq_ok.mpr ⟨(), require_eq_ok.mpr (decide_eq_true ⟨by omega, hmost⟩),
    rfl⟩, ?_⟩
  omega

/-- **One page of a range**: some of its records, and how to go on. -/
theorem page_cuts {α : Type} {ahead : List α} {room : ℕ}
    {position : α → HistoryResult Bytes (Option Bytes)} {resumes : Bytes → List α → List α → Prop}
    (hpos : 0 < room)
    (hposition : ∀ last ∈ (ahead.take room).getLast?, room < ahead.length →
      ∃ next, position last = .ok (some next) ∧ resumes next (ahead.take room) (ahead.drop room)) :
    ∃ result, page (ahead.take (room + 1)) room
        (decide (room < (ahead.take (room + 1)).length)) position = .ok result ∧
      Ranges.Cuts result ahead resumes := by
  have hlength : (ahead.take (room + 1)).length = min (room + 1) ahead.length := length_take
  rcases Nat.lt_or_ge room ahead.length with hmore | hall
  · have hlast : (ahead.take room).getLast?.isSome := by
      refine getLast?_isSome.mpr (ne_nil_of_length_pos ?_)
      rw [length_take]
      omega
    obtain ⟨last, hlast⟩ := Option.isSome_iff_exists.mp hlast
    obtain ⟨next, hnext, hresumes⟩ := hposition last hlast hmore
    have htake : (ahead.take (room + 1)).take room = ahead.take room := by
      rw [take_take, Nat.min_eq_left (Nat.le_succ room)]
    refine ⟨⟨ahead.take room, some next⟩, ?_, room, hpos, rfl,
      .inr ⟨next, rfl, hmore, hresumes⟩⟩
    rw [page, decide_eq_true (by omega), Bool.and_true, if_pos rfl, htake, hlast]
    dsimp only
    rw [hnext]
    rfl
  · refine ⟨⟨ahead.take (room + 1), none⟩, ?_, room, hpos, ?_, .inl ⟨rfl, hall⟩⟩
    · rw [page, decide_eq_false (by omega), Bool.and_false, if_neg Bool.false_ne_true]
      rfl
    · rw [take_of_length_le hall, take_of_length_le (by omega)]

end LayerFs.History.Query
