import LayerFs.Service.Feed
import LayerFs.Support.Wire

/-!
# Fields of a control record (`wire.rs`, `control_history.rs`, `control_merge.rs`)

One control record is bounded. Its fields are bytes, numbers, texts with their length in front,
Commit identities and lists with their count in front. A list is written as far as it fits
before a reserve kept free for the rest of the record.

* `putItems_appends`, `items_reads` — **a list** is written up to what is kept of it and read back
  so.
-/

namespace LayerFs.Bridge

open List

open Wire Window

/-- A refused control record. -/
structure ControlError where
  message : String
  deriving DecidableEq, Repr

@[irreducible]
def recordLimit : ℕ := 65535 - 16

theorem recordLimit_eq : recordLimit = 65519 := by
  unfold recordLimit
  rfl

def textFieldLimit : ℕ := 4096

def reserve : ℕ := 1024

def overLimit : ControlError := ⟨"control record limit"⟩

abbrev Writer := Writing ControlError
abbrev Reader := Reading ControlError

/-- A string. -/
structure Text where
  bytes : List ℕ
  valid : utf8Valid bytes = true
  deriving DecidableEq

def Text.length (t : Text) : ℕ := t.bytes.length

/-- A Commit identity: its tag and body. -/
structure CommitId where
  bytes : List ℕ
  tagged : bytes.length = 33 ∧ bytes.head? = some 0x12
  deriving DecidableEq

/-! ## Writing -/

def put (bytes : List ℕ) : Writer Unit := fun out =>
  if recordLimit < out.length + bytes.length then .error overLimit else .ok ((), out ++ bytes)

def putByte (value : ℕ) : Writer Unit := put [value]

def putBlob (value : List ℕ) : Writer Unit :=
  if 65535 < value.length then throw ⟨"control field limit"⟩
  else do
    put (be 2 value.length)
    put value

def putBoolean (value : Bool) : Writer Unit := putByte value.toNat

def putHead (value : Option CommitId) : Writer Unit := do
  putBoolean value.isSome
  match value with
  | some id => put id.bytes
  | none => pure ()

def putText (value : List ℕ) : Writer Unit :=
  if textFieldLimit < value.length then throw ⟨"control text field"⟩ else putBlob value

/-- Whether `extra` bytes behind the `written` ones leave the reserve free. -/
def fits (written extra : ℕ) : Bool := written + extra + reserve ≤ recordLimit

/-- How many of the items fit one behind the other, by their sizes. -/
def kept {α : Type} (written : ℕ) (size : α → ℕ) : ℕ → List α → ℕ
  | _, [] => 0
  | total, x :: xs =>
    if fits written (total + size x) then kept written size (total + size x) xs + 1 else 0

def clip (value : List ℕ) : List ℕ :=
  value.take (floorBoundary value (min value.length textFieldLimit))

/-- The items that fit, their count in front; true when some were left out. -/
def putItems {α : Type} (size : α → ℕ) (write : α → Writer Unit) (items : List α) :
    Writer Bool := do
  let out ← get
  let n := kept out.length size 0 items
  put (be 2 n)
  writeAll write (items.take n)
  pure (n < items.length)

def lineSize (line : Text) : ℕ := min line.length textFieldLimit + 2

def putLines (lines : List Text) : Writer Bool :=
  putItems lineSize (fun line => putText (clip line.bytes)) lines

/-! ## Reading -/

def take (size : ℕ) : Reader (List ℕ) := fun input =>
  if input.length < size then .error ⟨"truncated control field"⟩
  else .ok (input.take size, input.drop size)

def byte : Reader ℕ := do
  let bytes ← take 1
  pure (ofBe bytes)

def number (width : ℕ) : Reader ℕ := do
  let bytes ← take width
  pure (ofBe bytes)

def blob (maximum : ℕ) : Reader (List ℕ) := do
  let size ← number 2
  if maximum < size then throw ⟨"control field limit"⟩ else take size

def text (maximum : ℕ) : Reader Text := do
  let bytes ← blob maximum
  if h : utf8Valid bytes = true then pure ⟨bytes, h⟩ else throw ⟨"control UTF-8"⟩

def boolean : Reader Bool := do
  let value ← byte
  match value with
  | 0 => pure false
  | 1 => pure true
  | _ => throw ⟨"control boolean"⟩

def commitId : Reader CommitId := do
  let bytes ← take 33
  if h : bytes.length = 33 ∧ bytes.head? = some 0x12 then pure ⟨bytes, h⟩
  else throw ⟨"history control value"⟩

def head : Reader (Option CommitId) := do
  let some? ← boolean
  if some? then do
    let id ← commitId
    pure (some id)
  else pure none

def items {α : Type} (read : Reader α) : Reader (List α) := do
  let count ← number 2
  readMany read count

def lines : Reader (List Text) := items (text textFieldLimit)

/-! ## What the writers append -/

/-- A writer of a control record appends these bytes when they fit the record. -/
def Appends {α : Type} (m : Writer α) (out bytes : List ℕ) (a : α) : Prop :=
  Writes recordLimit overLimit m out bytes a

theorem put_appends (out bytes : List ℕ) : Appends (put bytes) out bytes () := by
  rw [Appends, Writes]
  change (if recordLimit < out.length + bytes.length then _ else _) = _
  by_cases h : out.length + bytes.length ≤ recordLimit
  · rw [if_neg (by omega), if_pos h]
  · rw [if_pos (by omega), if_neg h]

def textBytes (value : List ℕ) : List ℕ := be 2 value.length ++ value

@[simp]
theorem length_textBytes (value : List ℕ) : (textBytes value).length = value.length + 2 := by
  rw [textBytes, length_append, length_be, Nat.add_comm]

theorem putText_appends {value : List ℕ} (h : value.length ≤ textFieldLimit) (out : List ℕ) :
    Appends (putText value) out (textBytes value) () := by
  have hfield : textFieldLimit < 65535 := by decide
  rw [putText, if_neg (by omega), putBlob, if_neg (by omega)]
  exact (put_appends out _).bind fun _ => put_appends _ _

theorem clip_eq {value : List ℕ} (h : value.length ≤ textFieldLimit) : clip value = value := by
  have hlast : isCharBoundary value value.length = true := by simp [isCharBoundary]
  have hle := (floorBoundary_spec value value.length).2 _ le_rfl hlast
  rw [clip, min_eq_left h, take_of_length_le hle]

def headBytes : Option CommitId → List ℕ
  | some id => 1 :: id.bytes
  | none => [0]

theorem putHead_appends {out : List ℕ} (h : (out ++ [0]).length ≤ recordLimit)
    (value : Option CommitId) : Appends (putHead value) out (headBytes value) () := by
  rcases value with _ | id
  · exact (put_appends out [0]).bind fun _ => Writes.pure h ()
  · exact (put_appends out [1]).bind fun _ => put_appends _ id.bytes

/-! ## What is kept of a list -/

theorem fits_iff {n extra : ℕ} : fits n extra = true ↔ n + extra + reserve ≤ recordLimit := by
  rw [fits, decide_eq_true_iff]

section Kept

variable {α : Type} {n : ℕ} {size : α → ℕ}

theorem kept_le (total : ℕ) (l : List α) : kept n size total l ≤ l.length := by
  induction l generalizing total with
  | nil => exact le_rfl
  | cons x l ih =>
    rw [kept]
    split_ifs
    · rw [length_cons]
      exact Nat.succ_le_succ (ih _)
    · exact Nat.zero_le _

/-- **What is kept** leaves the reserve free. -/
theorem kept_room (total : ℕ) (l : List α) (hpos : kept n size total l ≠ 0) :
    n + (total + ((l.take (kept n size total l)).map size).sum) + reserve ≤ recordLimit := by
  induction l generalizing total with
  | nil => exact absurd rfl hpos
  | cons x l ih =>
    rw [kept] at hpos ⊢
    by_cases hfits : fits n (total + size x) = true
    · rw [if_pos hfits, take_succ_cons, map_cons, sum_cons, ← Nat.add_assoc total]
      by_cases hnone : kept n size (total + size x) l = 0
      · simp only [hnone, take_zero, map_nil, sum_nil, Nat.add_zero]
        exact fits_iff.1 hfits
      · exact ih _ hnone
    · rw [if_neg hfits] at hpos
      exact absurd rfl hpos

theorem kept_all (total : ℕ) (l : List α)
    (hfits : n + (total + (l.map size).sum) + reserve ≤ recordLimit) :
    kept n size total l = l.length := by
  induction l generalizing total with
  | nil => rfl
  | cons x l ih =>
    rw [map_cons, sum_cons] at hfits
    have hone : fits n (total + size x) = true := fits_iff.2 (by omega)
    rw [kept, if_pos hone, ih _ (by omega), length_cons]

theorem kept_lt (hsize : ∀ x, 2 ≤ size x) (l : List α) : kept n size 0 l < 65536 := by
  by_cases hpos : kept n size 0 l = 0
  · omega
  have hroom := kept_room 0 l hpos
  have hsum : ∀ l : List α, 2 * l.length ≤ (l.map size).sum := by
    intro l
    induction l with
    | nil => exact le_rfl
    | cons x l ih =>
      have := hsize x
      rw [length_cons, map_cons, sum_cons]
      omega
  have hkept := hsum (l.take (kept n size 0 l))
  rw [length_take, min_eq_left (kept_le 0 l)] at hkept
  have := recordLimit_eq
  omega

end Kept

section Items

variable {α : Type} {size : α → ℕ} {bytes : α → List ℕ} {l : List α}

/-- Where a list of items ends that starts behind `n` bytes. -/
def itemsEnd (n : ℕ) (size : α → ℕ) (l : List α) : ℕ :=
  n + 2 + ((l.take (kept n size 0 l)).map size).sum

/-- The bytes of a list of items behind `n` bytes. -/
def itemsBytes (n : ℕ) (size : α → ℕ) (bytes : α → List ℕ) (l : List α) : List ℕ :=
  be 2 (kept n size 0 l) ++ ((l.take (kept n size 0 l)).map bytes).flatten

theorem length_itemsBytes (hsize : ∀ x ∈ l, (bytes x).length = size x) (n : ℕ) :
    n + (itemsBytes n size bytes l).length = itemsEnd n size l := by
  have hmap : (l.take (kept n size 0 l)).map (List.length ∘ bytes)
      = (l.take (kept n size 0 l)).map size :=
    map_congr_left fun x hx => hsize x (mem_of_mem_take hx)
  rw [itemsBytes, itemsEnd, length_append, length_be, length_flatten, map_map,
    hmap, Nat.add_assoc]

theorem itemsEnd_le (n : ℕ) (size : α → ℕ) (l : List α) :
    itemsEnd n size l = n + 2 ∨ itemsEnd n size l + reserve ≤ recordLimit + 2 := by
  by_cases hpos : kept n size 0 l = 0
  · left
    rw [itemsEnd, hpos, take_zero, map_nil, sum_nil, Nat.add_zero]
  · right
    have := kept_room 0 l hpos
    rw [itemsEnd]
    omega

theorem le_itemsEnd (n : ℕ) (size : α → ℕ) (l : List α) : n + 2 ≤ itemsEnd n size l :=
  Nat.le_add_right _ _

/-- **A list of items** is written up to what is kept of it. -/
theorem putItems_appends {write : α → Writer Unit}
    (h : ∀ x ∈ l, ∀ out, Appends (write x) out (bytes x) ()) (out : List ℕ) :
    Appends (putItems size write l) out (itemsBytes out.length size bytes l)
      (decide (kept out.length size 0 l < l.length)) := by
  apply Writes.get
  apply (put_appends out _).bind
  intro hfits
  rw [← append_nil (List.flatten _)]
  refine (Writes.all ?_ hfits).bind fun hfits => Writes.pure hfits _
  intro x hx
  exact h x (mem_of_mem_take hx)

end Items

theorem length_lineBytes {line : Text} (h : line.length ≤ textFieldLimit) :
    (textBytes line.bytes).length = lineSize line := by
  rw [length_textBytes, lineSize, min_eq_left h]
  rfl

theorem putLines_appends {l : List Text} (h : ∀ line ∈ l, line.length ≤ textFieldLimit)
    (out : List ℕ) :
    Appends (putLines l) out (itemsBytes out.length lineSize (fun line => textBytes line.bytes) l)
      (decide (kept out.length lineSize 0 l < l.length)) := by
  apply putItems_appends
  intro line hline out
  rw [clip_eq (h line hline)]
  exact putText_appends (h line hline) out

/-! ## What the readers take -/

theorem take_reads (bytes : List ℕ) : Reads (take bytes.length) bytes bytes := by
  intro rest
  change (if (bytes ++ rest).length < bytes.length then _ else _) = _
  rw [if_neg (by rw [length_append]; omega), take_left, drop_left]

theorem number_reads (width n : ℕ) : Reads (number width) (be width n) (n % 256 ^ width) := by
  have htake := take_reads (be width n)
  rw [length_be] at htake
  rw [← ofBe_be, ← append_nil (be width n)]
  apply htake.bind
  rw [append_nil]
  exact Reads.pure _

theorem byte_reads (n : ℕ) : Reads byte [n] n := by
  have hvalue : ofBe [n] = n := by
    rw [ofBe, foldl_cons, foldl_nil, Nat.zero_mul, Nat.zero_add]
  rw [← append_nil [n]]
  apply (take_reads [n]).bind
  rw [hvalue]
  exact Reads.pure n

theorem text_reads {t : Text} (h : t.length ≤ textFieldLimit) :
    Reads (text textFieldLimit) (textBytes t.bytes) t := by
  have hle : t.bytes.length ≤ 4096 := h
  have hsize : t.bytes.length % 256 ^ 2 = t.bytes.length := Nat.mod_eq_of_lt (by omega)
  have hblob : Reads (blob textFieldLimit) (textBytes t.bytes) t.bytes := by
    apply (number_reads 2 t.bytes.length).bind
    rw [hsize, if_neg (by rw [textFieldLimit]; omega)]
    exact take_reads t.bytes
  rw [← append_nil (textBytes t.bytes)]
  apply hblob.bind
  rw [dif_pos t.valid]
  exact Reads.pure t

theorem boolean_reads (value : Bool) : Reads boolean [value.toNat] value := by
  rw [← append_nil [value.toNat]]
  apply (byte_reads value.toNat).bind
  cases value
  · exact Reads.pure false
  · exact Reads.pure true

theorem commitId_reads (id : CommitId) : Reads commitId id.bytes id := by
  have htake := take_reads id.bytes
  rw [id.tagged.1] at htake
  rw [← append_nil id.bytes]
  apply htake.bind
  rw [dif_pos id.tagged]
  exact Reads.pure id

theorem head_reads (value : Option CommitId) : Reads head (headBytes value) value := by
  rcases value with _ | id
  · exact (boolean_reads false).bind (c := []) (Reads.pure none)
  · apply (boolean_reads true).bind (c := id.bytes)
    rw [← append_nil id.bytes]
    exact (commitId_reads id).bind (Reads.pure (some id))

/-- **A list of items** is read back as it was kept. -/
theorem items_reads {α : Type} {read : Reader α} {size : α → ℕ} {bytes : α → List ℕ} {l : List α}
    (h : ∀ x ∈ l, Reads read (bytes x) x) (hsize : ∀ x, 2 ≤ size x) (n : ℕ) :
    Reads (items read) (itemsBytes n size bytes l) (l.take (kept n size 0 l)) := by
  have hcount : kept n size 0 l % 256 ^ 2 = kept n size 0 l := Nat.mod_eq_of_lt (kept_lt hsize l)
  have hlength : (l.take (kept n size 0 l)).length = kept n size 0 l := by
    rw [length_take]
    exact min_eq_left (kept_le 0 l)
  apply (number_reads 2 _).bind
  rw [hcount]
  have hkept : ∀ x ∈ l.take (kept n size 0 l), Reads read (bytes x) (id x) :=
    fun x hx => h x (mem_of_mem_take hx)
  have hmany := Reads.many hkept
  rw [hlength, map_id] at hmany
  exact hmany

theorem lines_reads {l : List Text} (h : ∀ line ∈ l, line.length ≤ textFieldLimit) (n : ℕ) :
    Reads lines (itemsBytes n lineSize (fun line => textBytes line.bytes) l)
      (l.take (kept n lineSize 0 l)) :=
  items_reads (fun line hline => text_reads (h line hline)) (fun _ => Nat.le_add_left 2 _) n

end LayerFs.Bridge
