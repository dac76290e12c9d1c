import LayerFs.Content.Basic
import LayerFs.Support.Wire

/-!
# The envelope of a canonical object (`object/codec.rs`)

A canonical object is `LFSO`, a kind, the length of a payload, the length of a value and the value.
Both lengths are written although either tells the other, and every byte is accounted for.

* `decodeBytesObject_eq_ok` — **what is accepted**: the envelope of a value, and no other bytes.
-/

namespace LayerFs.Codec

open List

open Wire

abbrev Bytes := List ℕ

abbrev ObjectId := Block 32

/-! ## Limits -/

/-- `OBJECT_MAGIC`: `LFSO`. -/
def objectMagic : Bytes := [0x4C, 0x46, 0x53, 0x4F]
/-- `BYTES_KIND`. -/
def bytesKind : ℕ := 1
/-- `HEADER_LEN`. -/
def headerLen : ℕ := 9
/-- `VALUE_LEN_BYTES`. -/
def valueLenBytes : ℕ := 4
/-- `MAX_CANONICAL_OBJECT_BYTES`. -/
def maximumCanonicalObjectBytes : ℕ := 16777216
/-- `MAX_OBJECT_FIELD_BYTES`. -/
def maximumObjectFieldBytes : ℕ := 8388608
/-- `MAX_PAYLOAD_BYTES`. -/
def maximumPayloadBytes : ℕ := maximumCanonicalObjectBytes - headerLen

/-! ## The two directions -/

/-- `canonical_len`: the width of the object of a value. -/
def canonicalLen (valueLen : ℕ) : ContentResult ℕ := do
  ensure (decide (valueLen ≤ maximumObjectFieldBytes))
    (.objectLimitExceeded maximumObjectFieldBytes valueLen)
  let total := headerLen + (valueLen + valueLenBytes)
  ensure (decide (total ≤ maximumCanonicalObjectBytes))
    (.objectLimitExceeded maximumCanonicalObjectBytes valueLen)
  return total

/-- What `encode_bytes_object_to` writes. -/
def envelope (value : Bytes) : Bytes :=
  objectMagic ++ (bytesKind :: (be 4 (value.length + valueLenBytes) ++
    (be 4 value.length ++ value)))

/-- `encode_bytes_object`. -/
def encodeBytesObject (value : Bytes) : ContentResult Bytes := do
  let _ ← canonicalLen value.length
  return envelope value

/-- `read_u32`. -/
def readU32 (bytes : Bytes) (offset : ℕ) : ContentResult ℕ := do
  ensure (decide (offset + 4 ≤ bytes.length)) .unexpectedEof
  return ofBe ((bytes.drop offset).take 4)

/-- `decode_bytes_object`. -/
def decodeBytesObject (canonical : Bytes) : ContentResult Bytes := do
  ensure (decide (canonical.length ≤ maximumCanonicalObjectBytes))
    (.objectLimitExceeded maximumCanonicalObjectBytes canonical.length)
  ensure (decide (headerLen + valueLenBytes ≤ canonical.length)) .unexpectedEof
  ensure (canonical.take 4 == objectMagic) .unsupportedFraming
  ensure (canonical[4]? == some bytesKind) .wrongLogicalRole
  let payloadLen ← readU32 canonical 5
  ensure (decide (payloadLen ≤ maximumPayloadBytes))
    (.objectLimitExceeded maximumPayloadBytes payloadLen)
  let valueLen ← readU32 canonical headerLen
  ensure (decide (valueLen ≤ maximumObjectFieldBytes))
    (.objectLimitExceeded maximumObjectFieldBytes valueLen)
  let encodedValueLen := valueLen + valueLenBytes
  ensure (decide (encodedValueLen ≤ payloadLen)) .unexpectedEof
  let total := headerLen + payloadLen
  ensure (decide (total ≤ canonical.length)) .unexpectedEof
  ensure (encodedValueLen == payloadLen && canonical.length == total) .trailingBytes
  return (canonical.take total).drop (headerLen + valueLenBytes)

/-! ## What is written and what is accepted -/

theorem ensure_pass {holds : Bool} (e : ContentError) (h : holds = true) :
    ensure holds e = .ok () := ensure_eq_ok.mpr h

theorem canonicalLen_eq_ok {valueLen total : ℕ} :
    canonicalLen valueLen = .ok total ↔
      valueLen ≤ maximumObjectFieldBytes ∧ total = valueLen + 13 := by
  rw [canonicalLen]
  simp only [bind_eq_ok, ensure_eq_ok, decide_eq_true_eq]
  simp only [headerLen, valueLenBytes, maximumObjectFieldBytes, maximumCanonicalObjectBytes]
  constructor
  · rintro ⟨-, hfield, -, -, h⟩
    cases h
    exact ⟨hfield, by omega⟩
  · rintro ⟨hfield, rfl⟩
    exact ⟨(), hfield, (), by omega, congrArg Except.ok (by omega)⟩

/-- **What is written**: the envelope of a value that is not too long. -/
theorem encodeBytesObject_eq_ok {value canonical : Bytes} :
    encodeBytesObject value = .ok canonical ↔
      value.length ≤ maximumObjectFieldBytes ∧ canonical = envelope value := by
  rw [encodeBytesObject, bind_eq_ok]
  constructor
  · rintro ⟨total, htotal, h⟩
    cases h
    exact ⟨(canonicalLen_eq_ok.mp htotal).1, rfl⟩
  · rintro ⟨hfield, rfl⟩
    exact ⟨_, canonicalLen_eq_ok.mpr ⟨hfield, rfl⟩, rfl⟩

@[simp]
theorem length_envelope (value : Bytes) : (envelope value).length = value.length + 13 := by
  simp [envelope, objectMagic]
  omega

theorem isBytes_envelope {value : Bytes} (h : IsBytes value) : IsBytes (envelope value) := by
  refine IsBytes.append (by decide) (forall_mem_cons.mpr ⟨by decide, ?_⟩)
  exact (isBytes_be 4 _).append ((isBytes_be 4 _).append h)

theorem isBytes_of_envelope {value : Bytes} (h : IsBytes (envelope value)) : IsBytes value := by
  have hlengths : IsBytes (be 4 (value.length + valueLenBytes) ++ (be 4 value.length ++ value)) :=
    (forall_mem_cons.mp h.of_append.2).2
  exact hlengths.of_append.2.of_append.2

theorem drop_eq_be_append {bytes : Bytes} {offset : ℕ} (hbytes : IsBytes bytes)
    (h : offset + 4 ≤ bytes.length) :
    bytes.drop offset = be 4 (ofBe ((bytes.drop offset).take 4)) ++ bytes.drop (offset + 4) := by
  have hfour : ((bytes.drop offset).take 4).length = 4 := by
    rw [length_take, length_drop]
    omega
  have htaken : IsBytes ((bytes.drop offset).take 4) := fun b hb =>
    hbytes b (mem_of_mem_drop (mem_of_mem_take hb))
  have hback := be_ofBe htaken
  rw [hfour] at hback
  rw [hback, ← drop_drop, take_append_drop]

/-- **What is accepted**: the envelope of a value that is not too long, and no other bytes. -/
theorem decodeBytesObject_eq_ok {canonical value : Bytes} (hbytes : IsBytes canonical) :
    decodeBytesObject canonical = .ok value ↔
      value.length ≤ maximumObjectFieldBytes ∧ canonical = envelope value := by
  rw [decodeBytesObject]
  simp only [bind_eq_ok, ensure_eq_ok, decide_eq_true_eq, readU32, beq_iff_eq, Bool.and_eq_true]
  simp only [headerLen, valueLenBytes]
  constructor
  · rintro ⟨-, hmost, -, hleast, -, hmagic, -, hkind, payloadLen, ⟨-, hfour, hp⟩, -, -,
      valueLen, ⟨-, hthirteen, hv⟩, -, hfield, -, -, -, -, -, ⟨hsame, htotal⟩, h⟩
    cases hp
    cases hv
    have hkindByte : canonical.drop 4 = bytesKind :: canonical.drop 5 := by
      rw [drop_eq_getElem?_toList_append, hkind]
      rfl
    have hpayload := drop_eq_be_append hbytes hfour
    have hvalueLen := drop_eq_be_append hbytes hthirteen
    have hvalue : value = canonical.drop 13 := by
      cases h
      rw [← htotal, take_length]
    have hlength : value.length = ofBe ((canonical.drop 9).take 4) := by
      rw [hvalue, length_drop]
      omega
    refine ⟨by rw [hlength]; exact hfield, ?_⟩
    rw [envelope, valueLenBytes, hlength, hsame, hvalue, ← hvalueLen, ← hpayload, ← hkindByte,
      ← hmagic, take_append_drop]
  · rintro ⟨hfield, rfl⟩
    have hlength := length_envelope value
    have hfield' : value.length ≤ 8388608 := hfield
    have hpayload : ofBe (((envelope value).drop 5).take 4) = value.length + 4 := by
      change ofBe ((be 4 (value.length + 4) ++ (be 4 value.length ++ value)).take 4) = _
      rw [take_left' (length_be 4 _), ofBe_be, Nat.mod_eq_of_lt (by omega)]
    have hrest : (envelope value).drop 9 = be 4 value.length ++ value := by
      change (be 4 (value.length + 4) ++ (be 4 value.length ++ value)).drop 4 = _
      rw [drop_left' (length_be 4 _)]
    have hvalueLen : ofBe (((envelope value).drop 9).take 4) = value.length := by
      rw [hrest, take_left' (length_be 4 _), ofBe_be, Nat.mod_eq_of_lt (by omega)]
    have hmost : (envelope value).length ≤ maximumCanonicalObjectBytes := by
      rw [hlength, maximumCanonicalObjectBytes]
      omega
    have hpay : value.length + 4 ≤ maximumPayloadBytes := by
      rw [maximumPayloadBytes, maximumCanonicalObjectBytes, headerLen]
      omega
    refine ⟨(), hmost, (), by omega, (), rfl, (), rfl, value.length + 4, ⟨(), by omega, ?_⟩,
      (), hpay, value.length, ⟨(), by omega, ?_⟩, (), hfield, (), le_refl _, (), by omega, (),
      ⟨rfl, by omega⟩, ?_⟩
    · rw [hpayload]
      rfl
    · rw [hvalueLen]
      rfl
    · rw [show 9 + (value.length + 4) = (envelope value).length by omega, take_length,
        show 9 + 4 = 9 + 4 from rfl, ← drop_drop, hrest, drop_left' (length_be 4 _)]
      rfl

end LayerFs.Codec
