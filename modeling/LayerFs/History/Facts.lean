import LayerFs.History.Identity

/-!
# Facts of a Commit (`layerfs-persistence/src/history/facts.rs`)

Two sequences share one blob without a count in front: newer-write-wins decisions, each of which
begins with the length of its path, and merge units behind a mark no path is as long as. Reading
takes any length four bytes spell; writing refuses the one the mark spells, for every text and every
count.

* `encodeFacts_written` — **what is written**: the blob, when every length is below the mark's.
* `decodeFacts_eq_ok` — **what is read**: the blob of the two lists and no other, when the lengths
  fit four bytes and no path is as long as the mark says.
* `facts_round_trip` — **each is the other's inverse**, up to the lengths only reading takes.
-/

namespace LayerFs.History

open List

open Wire

variable {κ : Type}
variable {bytes rest : Bytes} {values : List LwwDecision} {units : List MergeUnit} {text : String}
  {n : ℕ} (value : LwwDecision)

/-! ## Reading -/

/-- `UNITS`: the mark in front of the merge units. -/
def unitsMark : Bytes := List.replicate 4 0xFF

def takeBytes (length : ℕ) (what : String) : Reading (HistoryError κ) Bytes := do
  let bytes ← get
  if length ≤ bytes.length then
    set (bytes.drop length)
    return bytes.take length
  else throw (.integrity what)

/-- `count`. -/
def readCount : Reading (HistoryError κ) ℕ := do
  let bytes ← takeBytes 4 "history fact length"
  return ofBe bytes

def ofUtf8 (bytes : Bytes) : Reading (HistoryError κ) String :=
  match String.fromUTF8? ⟨(bytes.map UInt8.ofNat).toArray⟩ with
  | some text => return text
  | none => throw (.integrity "history fact UTF-8")

/-- `text`. -/
def readText : Reading (HistoryError κ) String := do
  let length ← readCount
  let bytes ← takeBytes length "history fact text"
  ofUtf8 bytes

def readFlags : Reading (HistoryError κ) (Bool × Bool) := do
  let bytes ← takeBytes 1 "history fact flags"
  let flags := ofBe bytes
  if flags > 3 then throw (.integrity "history fact flags")
  else return (flags % 2 ≠ 0, flags / 2 % 2 ≠ 0)

def readDecision : Reading (HistoryError κ) LwwDecision := do
  let path ← readText
  let rule ← readText
  let flags ← readFlags
  return ⟨path, flags.1, flags.2, rule⟩

def readUnit : Reading (HistoryError κ) MergeUnit := do
  let name ← readText
  let count ← readCount
  let patterns ← readMany readText count
  return ⟨name, patterns⟩

def readUnits : Reading (HistoryError κ) (List MergeUnit) := do
  let count ← readCount
  readMany readUnit count

/-- The loop of `decode`, once for each decision. -/
def decodeLoop : ℕ → Bytes → HistoryResult κ (List LwwDecision × List MergeUnit)
  | 0, _ => .ok ([], [])
  | turns + 1, bytes =>
    if bytes.isEmpty then .ok ([], [])
    else if unitsMark.isPrefixOf bytes then do
      let (units, rest) ← readUnits.run (bytes.drop 4)
      if !rest.isEmpty || units.isEmpty then .error (.integrity "history fact units")
      else return ([], units)
    else do
      let (value, rest) ← readDecision.run bytes
      let (values, units) ← decodeLoop turns rest
      return (value :: values, units)

/-- `facts::decode`. A turn takes some bytes, so as many turns as bytes are enough. -/
def decodeFacts (bytes : Bytes) : HistoryResult κ (List LwwDecision × List MergeUnit) :=
  decodeLoop bytes.length bytes

/-! ## Frames -/

def textFrame (text : String) : Bytes := be 4 (messageBytes text).length ++ messageBytes text

def LwwDecision.flags (value : LwwDecision) : ℕ := value.keptOurs.toNat + 2 * value.deleted.toNat

def LwwDecision.frame (value : LwwDecision) : Bytes :=
  textFrame value.path ++ (textFrame value.rule ++ [value.flags])

def MergeUnit.frame (unit : MergeUnit) : Bytes :=
  textFrame unit.name ++ (be 4 unit.patterns.length ++ (unit.patterns.map textFrame).flatten)

def unitsFrame (units : List MergeUnit) : Bytes :=
  be 4 units.length ++ (units.map MergeUnit.frame).flatten

/-- **The blob of two lists.** -/
def factsFrame (values : List LwwDecision) (units : List MergeUnit) : Bytes :=
  (values.map LwwDecision.frame).flatten ++
    if units.isEmpty then [] else unitsMark ++ unitsFrame units

def Below (limit : ℕ) (text : String) : Prop := (messageBytes text).length < limit

instance {limit : ℕ} {text : String} : Decidable (Below limit text) :=
  inferInstanceAs (Decidable (_ < _))

def MergeUnit.Within (limit : ℕ) (unit : MergeUnit) : Prop :=
  Below limit unit.name ∧ unit.patterns.length < limit ∧ ∀ text ∈ unit.patterns, Below limit text

instance {limit : ℕ} {unit : MergeUnit} : Decidable (unit.Within limit) :=
  inferInstanceAs (Decidable (_ ∧ _))

def LwwDecision.Within (limit : ℕ) (value : LwwDecision) : Prop :=
  Below limit value.path ∧ Below limit value.rule

instance {limit : ℕ} {value : LwwDecision} : Decidable (value.Within limit) :=
  inferInstanceAs (Decidable (_ ∧ _))

/-- **Every length is below a limit.** -/
def Within (limit : ℕ) (values : List LwwDecision) (units : List MergeUnit) : Prop :=
  (∀ value ∈ values, value.Within limit) ∧ units.length < limit ∧
    ∀ unit ∈ units, unit.Within limit

instance {limit : ℕ} {values : List LwwDecision} {units : List MergeUnit} :
    Decidable (Within limit values units) :=
  inferInstanceAs (Decidable (_ ∧ _))

/-! ## What is written -/

section Written

variable {α β : Type} {r : HistoryResult κ α} {fits fits' : Prop} {a : α}

/-- **What is written**: this where the lengths fit, and else the error of a text. -/
def Written (r : HistoryResult κ α) (fits : Prop) (a : α) : Prop :=
  (fits → r = .ok a) ∧ (¬fits → r = .error (.capacity "history fact text"))

theorem Written.pure (a : α) : Written (.ok a : HistoryResult κ α) True a :=
  ⟨fun _ => rfl, fun h => absurd trivial h⟩

theorem Written.of_iff (h : Written r fits a) (hfits : fits' ↔ fits) : Written r fits' a :=
  ⟨fun hyes => h.1 (hfits.mp hyes), fun hno => h.2 (fun hyes => hno (hfits.mpr hyes))⟩

variable {f : α → HistoryResult κ β} {b : β}

theorem Written.bind (h : Written r fits a) (hf : Written (f a) fits' b) :
    Written (r >>= f) (fits ∧ fits') b := by
  by_cases hfits : fits
  · rw [h.1 hfits]
    exact hf.of_iff (and_iff_right hfits)
  · rw [h.2 hfits]
    exact ⟨fun hyes => absurd hyes.1 hfits, fun _ => rfl⟩

theorem Written.map (h : Written r fits a) (hf : f a = .ok b) : Written (r >>= f) fits b := by
  refine Written.of_iff (h.bind (hf ▸ Written.pure b)) ?_
  rw [and_true]

theorem Written.mapM {fits : α → Prop} {frame : α → β} (hf : ∀ a, Written (f a) (fits a) (frame a))
    (l : List α) : Written (l.mapM f) (∀ a ∈ l, fits a) (l.map frame) := by
  induction l with
  | nil => exact (Written.pure []).of_iff ⟨fun _ => trivial, fun _ a ha => nomatch ha⟩
  | cons a l ih =>
    rw [mapM_cons, forall_mem_cons]
    exact (hf a).bind (ih.map rfl)

end Written

theorem putCount_written {count : ℕ} :
    Written (putCount count : HistoryResult κ Bytes) (count < 2 ^ 32 - 1) (be 4 count) :=
  ⟨fun h => if_pos h, fun h => if_neg h⟩

theorem putFact_written :
    Written (putFact text : HistoryResult κ Bytes) (Below (2 ^ 32 - 1) text) (textFrame text) :=
  putCount_written.map rfl

theorem LwwDecision.encode_written :
    Written (value.encode : HistoryResult κ Bytes) (value.Within (2 ^ 32 - 1)) value.frame := by
  refine putFact_written.bind (putFact_written.map ?_)
  rw [frame, ← append_assoc]
  rfl

theorem MergeUnit.encode_written (unit : MergeUnit) :
    Written (unit.encode : HistoryResult κ Bytes) (unit.Within (2 ^ 32 - 1)) unit.frame := by
  refine putFact_written.bind (putCount_written.bind
    ((Written.mapM (fun _ => putFact_written) unit.patterns).map ?_))
  rw [frame, ← append_assoc]
  rfl

/-- **What is written**: the blob, when every length is below the mark's. -/
theorem encodeFacts_written {values : List LwwDecision} {units : List MergeUnit} :
    Written (encodeFacts values units : HistoryResult κ Bytes) (Within (2 ^ 32 - 1) values units)
      (factsFrame values units) := by
  refine (Written.mapM LwwDecision.encode_written values).bind ?_
  rcases units with _ | ⟨unit, units⟩
  · refine ⟨fun _ => ?_, fun h => absurd ⟨by decide, fun u hu => absurd hu not_mem_nil⟩ h⟩
    rw [if_pos isEmpty_nil, factsFrame, if_pos isEmpty_nil, append_nil]
    rfl
  · rw [if_neg (by simp), factsFrame, if_neg (by simp), unitsFrame]
    refine putCount_written.bind
      ((Written.mapM MergeUnit.encode_written (unit :: units)).map ?_)
    simp only [append_assoc]
    rfl

/-! ## What is read -/

theorem run_takeBytes {length : ℕ} {what : String} :
    (takeBytes length what : Reading (HistoryError κ) Bytes).run bytes =
      if length ≤ bytes.length then .ok (bytes.take length, bytes.drop length)
      else .error (.integrity what) := by
  by_cases hlength : length ≤ bytes.length
  · simp [takeBytes, hlength]
    rfl
  · simp [takeBytes, hlength]
    rfl

theorem readCount_accepts :
    Accepts (readCount : Reading (HistoryError κ) ℕ) (be 4) (· < 2 ^ 32) := by
  intro bytes hbytes n rest
  rw [readCount, StateT.run_bind, run_takeBytes]
  constructor
  · intro h
    split_ifs at h with hlength
    · cases h
      have hfour : (bytes.take 4).length = 4 := length_take_of_le hlength
      have htaken : IsBytes (bytes.take 4) := fun b hb => hbytes b (mem_of_mem_take hb)
      have hlt := ofBe_lt htaken
      have hback := be_ofBe htaken
      rw [hfour] at hlt hback
      refine ⟨hlt, ?_⟩
      rw [hback, take_append_drop]
    · cases h
  · rintro ⟨hn, rfl⟩
    rw [if_pos (by simp), take_left' (length_be 4 n), drop_left' (length_be 4 n)]
    change Except.ok (ofBe (be 4 n), rest) = _
    rw [ofBe_be, show 256 ^ 4 = 2 ^ 32 from rfl, Nat.mod_eq_of_lt hn]

/-- **A text is what its bytes spell**, and no other bytes spell it. -/
theorem fromUTF8_eq_some (hbytes : IsBytes bytes) :
    String.fromUTF8? ⟨(bytes.map UInt8.ofNat).toArray⟩ = some text ↔
      bytes = messageBytes text := by
  have hback := map_toNat_ofNat hbytes
  have hsame : bytes = messageBytes text ↔
      text.toByteArray = ⟨(bytes.map UInt8.ofNat).toArray⟩ := by
    constructor
    · intro h
      have hlist : (bytes.map UInt8.ofNat).map UInt8.toNat =
          text.toByteArray.data.toList.map UInt8.toNat := hback.trans h
      have hdata := map_injective_iff.mpr (fun _ _ => UInt8.toNat_inj.mp) hlist
      rw [hdata]
    · intro h
      rw [messageBytes, h]
      exact hback.symm
  rw [hsame, String.fromUTF8?]
  constructor
  · intro h
    split_ifs at h with hvalid
    cases h
    rfl
  · intro h
    have hvalid := text.isValidUTF8
    rw [h] at hvalid
    rw [dif_pos hvalid]
    exact congrArg some (String.toByteArray_inj.mp h.symm)

theorem readText_accepts :
    Accepts (readText : Reading (HistoryError κ) String) textFrame (Below (2 ^ 32)) := by
  have htext : ∀ length, Accepts
      (takeBytes length "history fact text" >>= ofUtf8 : Reading (HistoryError κ) String)
      messageBytes (fun text => (messageBytes text).length = length) := by
    intro length bytes hbytes text rest
    rw [StateT.run_bind, run_takeBytes]
    constructor
    · intro h
      split_ifs at h with hlength
      · replace h : (ofUtf8 (bytes.take length) : Reading (HistoryError κ) String).run
          (bytes.drop length) = .ok (text, rest) := h
        rw [ofUtf8] at h
        have htaken : IsBytes (bytes.take length) := fun b hb => hbytes b (mem_of_mem_take hb)
        rcases hspelt : String.fromUTF8? ⟨((bytes.take length).map UInt8.ofNat).toArray⟩
          with _ | spelt
        · rw [hspelt] at h
          cases h
        · rw [hspelt] at h
          cases h
          have heq := (fromUTF8_eq_some htaken).mp hspelt
          dsimp only
          rw [← heq]
          exact ⟨length_take_of_le hlength, (take_append_drop _ _).symm⟩
      · cases h
    · rintro ⟨rfl, rfl⟩
      rw [if_pos (by simp), take_left, drop_left]
      change (ofUtf8 (messageBytes text) : Reading (HistoryError κ) String).run rest = _
      rw [ofUtf8, (fromUTF8_eq_some hbytes.of_append.1).mpr rfl]
      rfl
  have hboth := readCount_accepts.bind (fun text => (messageBytes text).length)
    fun length => (htext length).of_iff fun text => (and_true _).to_iff
  exact hboth.of_iff fun text => (and_true _).to_iff.symm

theorem readFlags_accepts : Accepts (readFlags : Reading (HistoryError κ) (Bool × Bool))
    (fun flags => [flags.1.toNat + 2 * flags.2.toNat]) (fun _ => True) := by
  intro bytes _ flags rest
  rw [readFlags, StateT.run_bind, run_takeBytes]
  rcases bytes with _ | ⟨byte, bytes⟩
  · simp [bind, Except.bind]
  · rw [if_pos (by simp)]
    have hbyte : ofBe [byte] = byte := by simp [ofBe]
    simp only [take_succ_cons, take_zero, drop_succ_cons, drop_zero]
    change (if ofBe [byte] > 3 then throw (HistoryError.integrity "history fact flags")
      else pure (decide (ofBe [byte] % 2 ≠ 0), decide (ofBe [byte] / 2 % 2 ≠ 0)) :
      Reading (HistoryError κ) (Bool × Bool)).run bytes = _ ↔ _
    rw [hbyte]
    obtain ⟨keptOurs, deleted⟩ := flags
    by_cases hlarge : byte > 3
    · rw [if_pos hlarge]
      refine ⟨fun h => (by cases h), fun h => ?_⟩
      obtain ⟨rfl, -⟩ := List.cons.inj h.2
      have hkept := keptOurs.toNat_le
      have hdeleted := deleted.toNat_le
      dsimp only at hlarge
      omega
    · rw [if_neg hlarge]
      have hcases : byte = 0 ∨ byte = 1 ∨ byte = 2 ∨ byte = 3 := by omega
      constructor
      · intro h
        cases h
        rcases hcases with rfl | rfl | rfl | rfl <;> exact ⟨trivial, rfl⟩
      · rintro ⟨-, h⟩
        obtain ⟨rfl, rfl⟩ := List.cons.inj h
        cases keptOurs <;> cases deleted <;> rfl

theorem readDecision_accepts : Accepts (readDecision : Reading (HistoryError κ) LwwDecision)
    LwwDecision.frame (LwwDecision.Within (2 ^ 32)) := by
  have hdone : ∀ path rule flags, Accepts
      (pure ⟨path, flags.1, flags.2, rule⟩ : Reading (HistoryError κ) LwwDecision) (fun _ => [])
      (fun value => (value.keptOurs, value.deleted) = flags ∧ value.rule = rule ∧
        value.path = path) := by
    intro path rule flags
    refine (Accepts.pure _).of_iff fun value => ?_
    obtain ⟨path, keptOurs, deleted, rule⟩ := value
    obtain ⟨kept, gone⟩ := flags
    simp only [LwwDecision.mk.injEq, Prod.mk.injEq]
    tauto
  have hflags : ∀ path rule, Accepts (readFlags >>= fun flags =>
      pure ⟨path, flags.1, flags.2, rule⟩ : Reading (HistoryError κ) LwwDecision)
      (fun value => [value.flags] ++ [])
      (fun value => value.rule = rule ∧ value.path = path) := by
    intro path rule
    have hboth := readFlags_accepts.bind
      (fun value : LwwDecision => (value.keptOurs, value.deleted)) (hdone path rule)
    exact hboth.of_iff fun value => (true_and _).to_iff.symm
  have hrule : ∀ path, Accepts (readText >>= fun rule => readFlags >>= fun flags =>
      pure ⟨path, flags.1, flags.2, rule⟩ : Reading (HistoryError κ) LwwDecision)
      (fun value => textFrame value.rule ++ ([value.flags] ++ []))
      (fun value => value.path = path ∧ Below (2 ^ 32) value.rule) := by
    intro path
    exact (readText_accepts.bind LwwDecision.rule (hflags path)).of_iff fun value => and_comm
  exact readText_accepts.bind LwwDecision.path hrule

theorem readUnit_accepts : Accepts (readUnit : Reading (HistoryError κ) MergeUnit)
    MergeUnit.frame (MergeUnit.Within (2 ^ 32)) := by
  have hdone : ∀ name patterns, Accepts
      (pure ⟨name, patterns⟩ : Reading (HistoryError κ) MergeUnit) (fun _ => [])
      (fun unit => unit.patterns = patterns ∧ unit.name = name) := by
    intro name patterns
    refine (Accepts.pure _).of_iff fun unit => ?_
    obtain ⟨name, patterns⟩ := unit
    simp only [MergeUnit.mk.injEq]
    tauto
  have hpatterns : ∀ name count, Accepts (readMany readText count >>= fun patterns =>
      pure ⟨name, patterns⟩ : Reading (HistoryError κ) MergeUnit)
      (fun unit => (unit.patterns.map textFrame).flatten ++ [])
      (fun unit => unit.patterns.length = count ∧ unit.name = name ∧
        ∀ text ∈ unit.patterns, Below (2 ^ 32) text) := by
    intro name count
    refine ((readText_accepts.many count).bind MergeUnit.patterns (hdone name)).of_iff
      fun unit => ?_
    tauto
  have hcount : ∀ name, Accepts (readCount >>= fun count => readMany readText count >>=
      fun patterns => pure ⟨name, patterns⟩ : Reading (HistoryError κ) MergeUnit)
      (fun unit => be 4 unit.patterns.length ++ ((unit.patterns.map textFrame).flatten ++ []))
      (fun unit => unit.name = name ∧ unit.patterns.length < 2 ^ 32 ∧
        ∀ text ∈ unit.patterns, Below (2 ^ 32) text) := by
    intro name
    refine (readCount_accepts.bind (fun unit : MergeUnit => unit.patterns.length)
      (hpatterns name)).of_iff fun unit => ?_
    tauto
  have hunit := readText_accepts.bind MergeUnit.name hcount
  simp only [append_nil] at hunit
  exact hunit

theorem readUnits_accepts : Accepts (readUnits : Reading (HistoryError κ) (List MergeUnit))
    unitsFrame (fun units => units.length < 2 ^ 32 ∧ ∀ unit ∈ units, unit.Within (2 ^ 32)) :=
  readCount_accepts.bind List.length readUnit_accepts.many

/-! ## The loop -/

theorem not_mark_of_below (hn : n < 2 ^ 32 - 1) : ¬unitsMark <+: be 4 n ++ rest := by
  intro h
  have hsame : unitsMark = be 4 n :=
    (prefix_of_prefix_length_le h (prefix_append _ _) (by simp [unitsMark])).eq_of_length
      (by simp [unitsMark])
  have hvalue := congrArg ofBe hsame
  rw [ofBe_be, show ofBe unitsMark = 2 ^ 32 - 1 by decide,
    Nat.mod_eq_of_lt (by omega)] at hvalue
  omega

theorem mark_of_length (hn : n < 2 ^ 32) (h : ¬unitsMark <+: be 4 n ++ rest) : n < 2 ^ 32 - 1 := by
  by_contra hlarge
  obtain rfl : n = 2 ^ 32 - 1 := by omega
  have hmark : be 4 (2 ^ 32 - 1) = unitsMark := by decide
  rw [hmark] at h
  exact h (prefix_append _ _)

/-- **What is legible**: lengths four bytes hold, and no path as long as the mark says. -/
def Legible (values : List LwwDecision) (units : List MergeUnit) : Prop :=
  Within (2 ^ 32) values units ∧ ∀ value ∈ values, Below (2 ^ 32 - 1) value.path

theorem factsFrame_nil (units : List MergeUnit) : factsFrame [] units =
    if units.isEmpty then [] else unitsMark ++ unitsFrame units := rfl

theorem factsFrame_cons (values : List LwwDecision) (units : List MergeUnit) :
    factsFrame (value :: values) units = value.frame ++ factsFrame values units := by
  rw [factsFrame, factsFrame, map_cons, flatten_cons, append_assoc]

theorem LwwDecision.frame_append (rest : Bytes) :
    ∃ tail, value.frame ++ rest = be 4 (messageBytes value.path).length ++ tail := by
  refine ⟨messageBytes value.path ++ (textFrame value.rule ++ [value.flags]) ++ rest, ?_⟩
  rw [frame, textFrame]
  simp only [append_assoc]

theorem LwwDecision.length_frame_pos : 0 < value.frame.length := by
  rw [frame, textFrame]
  simp only [length_append, length_be]
  omega

theorem factsFrame_eq_nil :
    (.ok ([], []) : HistoryResult κ _) = .ok (values, units) ↔
      Legible values units ∧ [] = factsFrame values units := by
  constructor
  · intro h
    cases h
    refine ⟨⟨⟨fun value hvalue => ?_, by decide, fun unit hunit => ?_⟩, fun value hvalue => ?_⟩,
      rfl⟩
    · exact absurd hvalue not_mem_nil
    · exact absurd hunit not_mem_nil
    · exact absurd hvalue not_mem_nil
  · rintro ⟨-, h⟩
    rcases values with _ | ⟨value, values⟩
    · rcases units with _ | ⟨unit, units⟩
      · rfl
      · have hlength := congrArg List.length h
        simp [factsFrame_nil, unitsMark] at hlength
    · have hlength := congrArg List.length h
      have hpos := value.length_frame_pos
      rw [factsFrame_cons, length_append, length_nil] at hlength
      omega

theorem decodeUnits_eq_ok (hrest : IsBytes rest) :
    (do
      let (units, rest) ← readUnits.run rest
      if !rest.isEmpty || units.isEmpty then .error (.integrity "history fact units")
      else return ([], units) : HistoryResult κ _) = .ok (values, units) ↔
    Legible values units ∧ unitsMark ++ rest = factsFrame values units := by
  rw [history_bind_eq_ok]
  constructor
  · rintro ⟨⟨found, left⟩, hread, hfound⟩
    dsimp only at hfound
    split_ifs at hfound with hbad
    cases hfound
    obtain ⟨⟨hcount, hunits⟩, rfl⟩ := (readUnits_accepts _ hrest _ _).mp hread
    simp only [Bool.or_eq_true, Bool.not_eq_true', not_or, Bool.not_eq_false,
      List.isEmpty_iff] at hbad
    obtain ⟨rfl, hnonempty⟩ := hbad
    refine ⟨⟨⟨fun value hvalue => ?_, hcount, hunits⟩, fun value hvalue => ?_⟩, ?_⟩
    · exact absurd hvalue not_mem_nil
    · exact absurd hvalue not_mem_nil
    · rw [factsFrame_nil, if_neg (fun h => hnonempty (List.isEmpty_iff.mp h)), append_nil]
  · rintro ⟨⟨⟨-, hcount, hunits⟩, hpaths⟩, hframe⟩
    rcases values with _ | ⟨value, values⟩
    · rw [factsFrame_nil] at hframe
      split_ifs at hframe with hempty
      · simp [unitsMark] at hframe
      · have hrest := append_cancel_left hframe
        refine ⟨(units, []), (readUnits_accepts _ ‹_› _ _).mpr ⟨⟨hcount, hunits⟩, ?_⟩, ?_⟩
        · rw [hrest, append_nil]
        · simp [hempty]
          rfl
    · -- a path in front would be as long as the mark says
      obtain ⟨tail, htail⟩ := value.frame_append (factsFrame values units)
      rw [factsFrame_cons, htail] at hframe
      exact absurd ⟨rest, hframe⟩ (not_mark_of_below (hpaths value mem_cons_self))

/-- **What the loop reads**: the blob of the two lists and no other. -/
theorem decodeLoop_eq_ok {turns : ℕ} (hbytes : IsBytes bytes) (hturns : bytes.length ≤ turns) :
    (decodeLoop turns bytes : HistoryResult κ _) = .ok (values, units) ↔
      Legible values units ∧ bytes = factsFrame values units := by
  induction turns generalizing bytes values with
  | zero =>
    cases length_eq_zero_iff.mp (Nat.le_zero.mp hturns)
    exact factsFrame_eq_nil
  | succ turns ih =>
    rw [decodeLoop]
    split_ifs with hempty hmark
    · cases List.isEmpty_iff.mp hempty
      exact factsFrame_eq_nil
    · obtain ⟨rest, rfl⟩ := isPrefixOf_iff_prefix.mp hmark
      rw [drop_left' (by simp [unitsMark])]
      exact decodeUnits_eq_ok hbytes.of_append.2
    · rw [ isPrefixOf_iff_prefix] at hmark
      constructor
      · intro hrun
        simp only [history_bind_eq_ok] at hrun
        obtain ⟨⟨value, rest⟩, hread, ⟨later, found⟩, hlater, hdone⟩ := hrun
        cases hdone
        obtain ⟨hwithin, rfl⟩ := (readDecision_accepts _ hbytes _ _).mp hread
        have hpos := value.length_frame_pos
        rw [length_append] at hturns
        obtain ⟨⟨⟨hvalues, hunits⟩, hpaths⟩, rfl⟩ :=
          (ih hbytes.of_append.2 (by omega)).mp hlater
        obtain ⟨tail, htail⟩ := value.frame_append (factsFrame later found)
        rw [htail] at hmark
        have hpath := mark_of_length hwithin.1 hmark
        exact ⟨⟨⟨forall_mem_cons.mpr ⟨hwithin, hvalues⟩, hunits⟩,
          forall_mem_cons.mpr ⟨hpath, hpaths⟩⟩, (factsFrame_cons _ _ _).symm⟩
      · rintro ⟨⟨⟨hvalues, hunits⟩, hpaths⟩, rfl⟩
        rcases values with _ | ⟨value, values⟩
        · rw [factsFrame_nil] at hempty hmark
          split_ifs at hempty hmark with hnone
          · exact absurd rfl hempty
          · exact absurd (prefix_append _ _) hmark
        · have hpos := value.length_frame_pos
          rw [factsFrame_cons] at hbytes hturns ⊢
          rw [length_append] at hturns
          obtain ⟨hwithin, hvalues⟩ := forall_mem_cons.mp hvalues
          obtain ⟨-, hpaths⟩ := forall_mem_cons.mp hpaths
          have hlater := (ih hbytes.of_append.2 (by omega)).mpr
            ⟨⟨⟨hvalues, hunits⟩, hpaths⟩, rfl⟩
          rw [(readDecision_accepts _ hbytes _ _).mpr ⟨hwithin, rfl⟩]
          change decodeLoop turns (factsFrame values units) >>= _ = _
          rw [hlater]
          rfl

/-- **What is read**: the blob of the two lists and no other. -/
theorem decodeFacts_eq_ok (hbytes : IsBytes bytes) :
    (decodeFacts bytes : HistoryResult κ _) = .ok (values, units) ↔
      Legible values units ∧ bytes = factsFrame values units :=
  decodeLoop_eq_ok hbytes le_rfl

/-! ## Round trips -/

theorem isBytes_textFrame (text : String) : IsBytes (textFrame text) :=
  (isBytes_be _ _).append (isBytes_toNat _)

theorem isBytes_unitsFrame (units : List MergeUnit) : IsBytes (unitsFrame units) := by
  refine (isBytes_be _ _).append (isBytes_flatten fun b hb => ?_)
  obtain ⟨unit, -, rfl⟩ := mem_map.mp hb
  refine (isBytes_textFrame _).append ((isBytes_be _ _).append (isBytes_flatten fun b hb => ?_))
  obtain ⟨text, -, rfl⟩ := mem_map.mp hb
  exact isBytes_textFrame text

theorem isBytes_factsFrame (values : List LwwDecision) (units : List MergeUnit) :
    IsBytes (factsFrame values units) := by
  refine IsBytes.append (isBytes_flatten fun b hb => ?_) ?_
  · obtain ⟨value, -, rfl⟩ := mem_map.mp hb
    refine (isBytes_textFrame _).append ((isBytes_textFrame _).append fun b hb => ?_)
    have hkept := value.keptOurs.toNat_le
    have hdeleted := value.deleted.toNat_le
    rw [mem_singleton.mp hb, LwwDecision.flags]
    omega
  · split_ifs
    · exact fun b hb => absurd hb not_mem_nil
    · exact IsBytes.append (by unfold IsBytes; decide) (isBytes_unitsFrame units)

theorem Within.legible (h : Within (2 ^ 32 - 1) values units) : Legible values units := by
  have hmore : ∀ {text : String}, Below (2 ^ 32 - 1) text → Below (2 ^ 32) text :=
    fun hbelow => Nat.lt_of_lt_pred hbelow
  obtain ⟨hvalues, hcount, hunits⟩ := h
  refine ⟨⟨fun value hvalue => ?_, Nat.lt_of_lt_pred hcount, fun unit hunit => ?_⟩,
    fun value hvalue => (hvalues value hvalue).1⟩
  · obtain ⟨hpath, hrule⟩ := hvalues value hvalue
    exact ⟨hmore hpath, hmore hrule⟩
  · obtain ⟨hname, hpatterns, htexts⟩ := hunits unit hunit
    exact ⟨hmore hname, Nat.lt_of_lt_pred hpatterns, fun text htext => hmore (htexts text htext)⟩

/-- **Each is the other's inverse.** What is written is read back; of bytes that are read, the two
lists have no other blob, no path in them is as long as the mark says, and writing them gives those
bytes back, unless another length is that of the mark: then nothing is written. -/
theorem facts_round_trip :
    (∀ (values : List LwwDecision) (units : List MergeUnit) (bytes : Bytes),
      (encodeFacts values units : HistoryResult κ Bytes) = .ok bytes →
        (decodeFacts bytes : HistoryResult κ _) = .ok (values, units)) ∧
    ∀ (blob : List UInt8) (values : List LwwDecision) (units : List MergeUnit),
      (decodeFacts (blob.map UInt8.toNat) : HistoryResult κ _) = .ok (values, units) →
        (encodeFacts values units : HistoryResult κ Bytes) =
          (if Within (2 ^ 32 - 1) values units then .ok (blob.map UInt8.toNat)
          else .error (.capacity "history fact text")) ∧
        (∀ value ∈ values, (messageBytes value.path).length < 2 ^ 32 - 1) ∧
        ∀ other : List UInt8,
          (decodeFacts (other.map UInt8.toNat) : HistoryResult κ _) = .ok (values, units) →
            other = blob := by
  refine ⟨fun values units bytes hencode => ?_, fun blob values units hdecode => ?_⟩
  · obtain ⟨hyes, hno⟩ := @encodeFacts_written κ values units
    by_cases hwithin : Within (2 ^ 32 - 1) values units
    · rw [hyes hwithin] at hencode
      cases hencode
      exact (decodeFacts_eq_ok (isBytes_factsFrame values units)).mpr ⟨hwithin.legible, rfl⟩
    · rw [hno hwithin] at hencode
      cases hencode
  · obtain ⟨hyes, hno⟩ := @encodeFacts_written κ values units
    obtain ⟨⟨-, hpaths⟩, hblob⟩ := (decodeFacts_eq_ok (isBytes_toNat blob)).mp hdecode
    refine ⟨?_, hpaths, fun other hother => ?_⟩
    · split_ifs with hwithin
      · rw [hyes hwithin, hblob]
      · exact hno hwithin
    · have hsame := ((decodeFacts_eq_ok (isBytes_toNat other)).mp hother).2.trans hblob.symm
      exact map_injective_iff.mpr (fun _ _ => UInt8.toNat_inj.mp) hsame

/-- One decision and one unit. -/
theorem facts_round_trip_pair :
    (decodeFacts (factsFrame [⟨"a", true, false, "*"⟩] [⟨"u", ["b"]⟩]) : HistoryResult Bytes _) =
      .ok ([⟨"a", true, false, "*"⟩], [⟨"u", ["b"]⟩]) := by
  have hwithin : Within (2 ^ 32 - 1) [⟨"a", true, false, "*"⟩] [⟨"u", ["b"]⟩] := by
    decide +kernel
  exact facts_round_trip.1 _ _ _ (encodeFacts_written.1 hwithin)

def textOf (length : ℕ) : String := String.ofList (List.replicate length 'a')

theorem length_textOf (length : ℕ) : (messageBytes (textOf length)).length = length := by
  have hsize : (List.replicate length 'a').utf8Encode.size = length := by
    induction length with
    | zero => rfl
    | succ length ih =>
      rw [replicate_succ, utf8Encode_cons, ByteArray.size_append, ih, Nat.add_comm]
      rfl
  rw [messageBytes, length_map, textOf, String.toByteArray_ofList]
  exact hsize

def longRule : LwwDecision := ⟨"", false, false, textOf (2 ^ 32 - 1)⟩

/-- **A blob with such a rule is read, and its lists are not written again.** -/
theorem long_rule_unwritten :
    ∃ blob : List UInt8, blob.map UInt8.toNat = factsFrame [longRule] [] ∧
      (decodeFacts (blob.map UInt8.toNat) : HistoryResult Bytes _) = .ok ([longRule], []) ∧
      (encodeFacts [longRule] [] : HistoryResult Bytes Bytes) =
        .error (.capacity "history fact text") := by
  have hlength : (messageBytes longRule.rule).length = 2 ^ 32 - 1 := length_textOf _
  have hbytes := isBytes_factsFrame [longRule] []
  have hblob := map_toNat_ofNat hbytes
  refine ⟨_, hblob, ?_, encodeFacts_written.2 fun h => ?_⟩
  · rw [hblob]
    have hempty : (messageBytes longRule.path).length = 0 := rfl
    refine (decodeFacts_eq_ok hbytes).mpr ⟨⟨⟨?_, by decide, ?_⟩, ?_⟩, rfl⟩
    · intro value hvalue
      rw [mem_singleton.mp hvalue]
      refine ⟨?_, ?_⟩
      · rw [Below, hempty]
        decide
      · rw [Below, hlength]
        decide
    · exact fun unit hunit => absurd hunit not_mem_nil
    · intro value hvalue
      rw [mem_singleton.mp hvalue, Below, hempty]
      decide
  · have hrule := (h.1 longRule mem_cons_self).2
    rw [Below, hlength] at hrule
    exact absurd hrule (lt_irrefl _)

end LayerFs.History
