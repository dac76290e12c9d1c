import LayerFs.Object.InodeLeaf
import LayerFs.Pack.Layout

/-!
# Pooled programs (`layerfs-storage/src/encoding/pool/delta.rs`, `pool/leaf.rs`)

A pooled body is stored in full or as a program of copies out of one direct base and inserted
bytes. A program is validated before it is applied, by code that reads it a second time.

* `validate_eq_ok` — **what is valid**: the bytes of a number of instructions.
* `apply_of_valid` — **what a valid program does**: its pieces are put out, or a copy leaves the
  base.
-/

namespace LayerFs

open List

variable {base instructions : List UInt8} {what : String} {count cursor n next outputLength : ℕ}

namespace Pool

open Wire Codec InodeCodec
open Pack (groupLimit recordCountLimit)

/-! ## Errors -/

/-- The failures of the pool functions, and the access outside a slice, which would stop them. -/
inductive PoolError where
  | integrity (what : String)
  | content (e : ContentError)
  | invalidIdentityLength (expected actual : ℕ)
  | outOfBounds
  deriving DecidableEq

abbrev PoolResult (α : Type) := Except PoolError α

section Result

variable {α β : Type}

theorem pool_bind_eq_ok {x : PoolResult α} {f : α → PoolResult β} {b : β} :
    x >>= f = .ok b ↔ ∃ a, x = .ok a ∧ f a = .ok b := by
  cases x with
  | error e => simp [bind, Except.bind]
  | ok a => simp [bind, Except.bind]

/-- The value of an option, or the refusal `e`. -/
def need (o : Option α) (e : PoolError) : PoolResult α :=
  match o with
  | some a => .ok a
  | none => .error e

@[simp] theorem need_eq_ok {o : Option α} {e : PoolError} {a : α} :
    need o e = .ok a ↔ o = some a := by
  cases o <;> simp [need]

def insist (check : Bool) (what : String) : PoolResult Unit :=
  if check then .ok () else .error (.integrity what)

@[simp] theorem insist_eq_ok {check : Bool} {u : Unit} :
    insist check what = .ok u ↔ check = true := by
  cases check <;> simp [insist]

theorem ok_bind_pool (a : α) (f : α → PoolResult β) : (.ok a : PoolResult α) >>= f = f a := rfl

end Result

/-- `checked_add`. -/
def addSizes (a b : ℕ) (what : String) : PoolResult ℕ :=
  if a + b < 2 ^ 64 then .ok (a + b) else .error (.integrity what)

theorem addSizes_eq_ok {a b : ℕ} {sum : ℕ} :
    addSizes a b what = .ok sum ↔ a + b < 2 ^ 64 ∧ sum = a + b := by
  rw [addSizes]
  split_ifs with h
  · rw [Except.ok.injEq, and_iff_right h, eq_comm]
  · exact iff_of_false (fun hsum => by cases hsum) fun hsum => h hsum.1

def index (bytes : List UInt8) (place : ℕ) : PoolResult UInt8 := need bytes[place]? .outOfBounds

def slice (bytes : List UInt8) (start stop : ℕ) : PoolResult (List UInt8) :=
  need (range? bytes start stop) .outOfBounds

/-- `read_u32`. -/
def readU32 (what : String) (bytes : List UInt8) (offset : ℕ) : PoolResult ℕ := do
  let stop ← addSizes offset 4 what
  let word ← need (range? bytes offset stop) (.integrity what)
  return ofLe32 word

/-! ## Validating -/

/-- `PROGRAM_LIMIT`: largest instruction program accepted. -/
def programLimit : ℕ := 64 * 1024

/-- What is read behind an opcode: a copy's offset, the length, and the place behind them. -/
def readOperands (instructions : List UInt8) (opcode : UInt8) (cursor : ℕ) :
    PoolResult (Option ℕ × ℕ × ℕ) :=
  if opcode = 0 then do
    let offset ← readU32 "pooled instruction field" instructions cursor
    let length ← readU32 "pooled instruction field" instructions (cursor + 4)
    return (some offset, length, cursor + 8)
  else if opcode = 1 then do
    let length ← readU32 "pooled instruction field" instructions cursor
    return (none, length, cursor + 4)
  else .error (.integrity "pooled instruction opcode")

/-- The place behind an instruction: inserted bytes follow their length. -/
def skipLiteral (offset : Option ℕ) (cursor length : ℕ) : PoolResult ℕ :=
  if offset.isNone then addSizes cursor length "pooled instruction literal" else .ok cursor

/-- One instruction under `validate`: the place behind it, and the output so far. -/
def validateStep (instructions : List UInt8) (outputLength cursor output : ℕ) :
    PoolResult (ℕ × ℕ) := do
  let opcode ← need instructions[cursor]? (.integrity "pooled instruction")
  let (offset, length, cursor) ← readOperands instructions opcode (cursor + 1)
  let output ← addSizes output length "pooled instruction length"
  insist (!(length == 0 || decide (outputLength < output))) "pooled instruction length"
  let cursor ← skipLiteral offset cursor length
  insist (decide (cursor ≤ instructions.length)) "pooled instruction extent"
  return (cursor, output)

/-- The loop of `validate`. -/
def validateSteps (instructions : List UInt8) (outputLength : ℕ) :
    ℕ → ℕ → ℕ → PoolResult (ℕ × ℕ)
  | 0, cursor, output => .ok (cursor, output)
  | count + 1, cursor, output => do
    let (cursor, output) ← validateStep instructions outputLength cursor output
    validateSteps instructions outputLength count cursor output

/-- `validate`: a well-formed program producing `outputLength` bytes. -/
def validate (instructions : List UInt8) (count outputLength : ℕ) : PoolResult Unit := do
  insist (decide (1 ≤ count ∧ count ≤ recordCountLimit ∧ outputLength ≠ 0 ∧
    outputLength ≤ groupLimit ∧ instructions.length ≤ programLimit)) "pooled instruction header"
  let (cursor, output) ← validateSteps instructions outputLength count 0 0
  insist (cursor == instructions.length && output == outputLength) "pooled instruction program"

/-! ## Applying -/

/-- One instruction under `apply`: the place behind it, and the output so far. -/
def applyStep (base instructions : List UInt8) (cursor : ℕ) (output : List UInt8) :
    PoolResult (ℕ × List UInt8) := do
  let opcode ← index instructions cursor
  let cursor := cursor + 1
  if opcode = 0 then do
    let offset ← readU32 "pooled instruction field" instructions cursor
    let length ← readU32 "pooled instruction field" instructions (cursor + 4)
    let stop ← addSizes offset length "pooled copy range"
    let piece ← need (range? base offset stop) (.integrity "pooled copy range")
    return (cursor + 8, output ++ piece)
  else do
    let length ← readU32 "pooled instruction field" instructions cursor
    let cursor := cursor + 4
    let stop ← addSizes cursor length "pooled insert range"
    let piece ← need (range? instructions cursor stop) (.integrity "pooled insert range")
    return (stop, output ++ piece)

/-- The loop of `apply`. -/
def applySteps (base instructions : List UInt8) :
    ℕ → ℕ → List UInt8 → PoolResult (ℕ × List UInt8)
  | 0, cursor, output => .ok (cursor, output)
  | count + 1, cursor, output => do
    let (cursor, output) ← applyStep base instructions cursor output
    applySteps base instructions count cursor output

/-- `apply`: one validated program applied to `base`. -/
def apply (base instructions : List UInt8) (count outputLength : ℕ) :
    PoolResult (List UInt8) := do
  validate instructions count outputLength
  let (_, output) ← applySteps base instructions count 0 []
  insist (output.length == outputLength) "pooled output length"
  return output

/-! ## Records -/

/-- `METADATA_RECORD_LIMIT`. -/
def metadataRecordLimit : ℕ := 8192

/-- One parsed pooled leaf record. -/
inductive PooledRecord where
  /-- a complete physical body -/
  | full (body : List UInt8)
  /-- instructions against one direct base -/
  | delta (base : ObjectId) (outputLength count : ℕ) (instructions : List UInt8)

/-- `parse`: one pooled leaf record. -/
def parse (record : List UInt8) : PoolResult PooledRecord :=
  if record.head? = some 0 then do
    let body ← slice record 1 record.length
    insist (!(body.isEmpty || decide (metadataRecordLimit < body.length))) "pooled record width"
    let _ ← (decodePooledBody (body.map UInt8.toNat)).mapError .content
    return .full body
  else if record.head? = some 1 then do
    insist (decide (41 ≤ record.length ∧ record.length ≤ metadataRecordLimit))
      "pooled delta record width"
    let named ← slice record 1 33
    let base ← Block.ofBytes (.invalidIdentityLength 32 named.length) 32 (named.map UInt8.toNat)
    let outputLength ← readU32 "pooled field" record 33
    let count ← readU32 "pooled field" record 37
    let instructions ← slice record 41 record.length
    validate instructions count outputLength
    return .delta base outputLength count instructions
  else .error (.integrity "pooled record tag")

/-! ## Instructions -/

/-- One instruction of a program. -/
inductive Instruction where
  /-- bytes of the base -/
  | copy (offset length : ℕ)
  /-- bytes of the program -/
  | insert (bytes : List UInt8)

namespace Instruction

def size : Instruction → ℕ
  | copy _ length => length
  | insert bytes => bytes.length

def frame : Instruction → List UInt8
  | copy offset length => 0 :: (le32 offset ++ le32 length)
  | insert bytes => 1 :: (le32 bytes.length ++ bytes)

theorem length_frame_copy (offset length : ℕ) : (copy offset length).frame.length = 9 := rfl

theorem length_frame_insert (bytes : List UInt8) :
    (insert bytes).frame.length = 5 + bytes.length := by
  rw [frame, length_cons, length_append, length_le32]
  omega

def Fits : Instruction → Prop
  | copy offset length => offset < 2 ^ 32 ∧ 0 < length ∧ length < 2 ^ 32
  | insert bytes => 0 < bytes.length ∧ bytes.length < 2 ^ 32

/-- The bytes an instruction puts out, none when a copy leaves the base. -/
def run (base : List UInt8) : Instruction → Option (List UInt8)
  | copy offset length => range? base offset (offset + length)
  | insert bytes => some bytes

theorem length_run {piece : List UInt8} {i : Instruction} (h : i.run base = some piece) :
    piece.length = i.size := by
  cases i with
  | copy offset length =>
    rw [length_of_range? h, size]
    omega
  | insert bytes =>
    cases h
    rfl

end Instruction

def frames (program : List Instruction) : List UInt8 := (program.map Instruction.frame).flatten

/-- The bytes some instructions put out, none when a copy leaves the base. -/
def runAll (base : List UInt8) : List Instruction → Option (List UInt8)
  | [] => some []
  | i :: rest => do
    let piece ← i.run base
    let later ← runAll base rest
    return piece ++ later

theorem runAll_append {first second : List Instruction} :
    runAll base (first ++ second) = do
      let before ← runAll base first
      let later ← runAll base second
      return before ++ later := by
  induction first with
  | nil => cases h : runAll base second <;> simp [runAll, h]
  | cons i rest ih =>
    rw [cons_append, runAll, ih, runAll]
    cases i.run base with
    | none => rfl
    | some piece =>
      cases runAll base rest with
      | none => rfl
      | some before =>
        cases runAll base second with
        | none => rfl
        | some later => simp

variable {program : List Instruction}

theorem length_runAll :
    ∀ {out : List UInt8}, runAll base program = some out →
      out.length = (program.map Instruction.size).sum := by
  induction program with
  | nil =>
    intro out h
    cases h
    rfl
  | cons i rest ih =>
    intro out h
    rw [runAll] at h
    obtain ⟨piece, hpiece, h⟩ := Option.bind_eq_some_iff.mp h
    obtain ⟨later, hlater, h⟩ := Option.bind_eq_some_iff.mp h
    cases h
    rw [length_append, i.length_run hpiece, ih hlater, map_cons, sum_cons]

/-! ## What is valid -/

/-- **A word is read** where its bytes stand. -/
theorem readU32_eq_ok {bytes : List UInt8} (hbytes : bytes.length < 2 ^ 64) {offset : ℕ} :
    readU32 what bytes offset = .ok n ↔
      n < 2 ^ 32 ∧ bytes.drop offset = le32 n ++ bytes.drop (offset + 4) := by
  rw [readU32, pool_bind_eq_ok]
  constructor
  · rintro ⟨stop, hstop, h⟩
    obtain ⟨-, rfl⟩ := addSizes_eq_ok.mp hstop
    obtain ⟨word, hword, h⟩ := pool_bind_eq_ok.mp h
    cases h
    rw [need_eq_ok] at hword
    have hfour : word.length = 4 := by
      rw [length_of_range? hword]
      omega
    obtain ⟨-, -, hword⟩ := range?_eq_some.mp hword
    rw [Nat.add_sub_cancel_left] at hword
    refine ⟨ofLe32_lt hfour, ?_⟩
    rw [le32_ofLe32 hfour, ← hword, ← drop_drop, take_append_drop]
  · rintro ⟨hn, hdrop⟩
    have hlength := congrArg List.length hdrop
    rw [length_append, length_le32, length_drop, length_drop] at hlength
    refine ⟨offset + 4, addSizes_eq_ok.mpr ⟨by omega, rfl⟩,
      pool_bind_eq_ok.mpr ⟨le32 n, need_eq_ok.mpr (range?_eq_some.mpr ⟨by omega, by omega, ?_⟩),
        congrArg Except.ok (ofLe32_le32 hn)⟩⟩
    rw [hdrop, Nat.add_sub_cancel_left, take_left' length_le32]

theorem drop_cons_iff {α : Type} {l rest : List α} {a : α} :
    l.drop n = a :: rest ↔ l[n]? = some a ∧ l.drop (n + 1) = rest := by
  rw [← head?_drop, ← tail_drop]
  cases l.drop n with
  | nil => simp
  | cons b later => simp

theorem readOperands_eq_ok (hbytes : instructions.length < 2 ^ 64) {opcode : UInt8} {length : ℕ}
    {offset : Option ℕ} :
    readOperands instructions opcode cursor = .ok (offset, length, next) ↔
      (opcode = 0 ∧ ∃ o, offset = some o ∧ o < 2 ^ 32 ∧ length < 2 ^ 32 ∧ next = cursor + 8 ∧
        instructions.drop cursor = le32 o ++ le32 length ++ instructions.drop next) ∨
      (opcode = 1 ∧ offset = none ∧ length < 2 ^ 32 ∧ next = cursor + 4 ∧
        instructions.drop cursor = le32 length ++ instructions.drop next) := by
  rw [readOperands]
  split_ifs with hcopy hinsert
  · rw [pool_bind_eq_ok]
    simp only [pool_bind_eq_ok, readU32_eq_ok hbytes]
    constructor
    · rintro ⟨o, ⟨ho, hfirst⟩, l, ⟨hl, hsecond⟩, h⟩
      cases h
      exact .inl ⟨hcopy, o, rfl, ho, hl, rfl, by rw [hfirst, hsecond, append_assoc]⟩
    · rintro (⟨-, o, rfl, ho, hl, rfl, hdrop⟩ | ⟨hone, -⟩)
      · rw [append_assoc] at hdrop
        have hrest : instructions.drop (cursor + 4) =
            le32 length ++ instructions.drop (cursor + 8) := by
          rw [← drop_drop, hdrop, drop_left' length_le32]
        exact ⟨o, ⟨ho, by rw [hdrop, hrest]⟩, length, ⟨hl, hrest⟩, rfl⟩
      · rw [hcopy] at hone
        exact absurd hone (by decide)
  · simp only [pool_bind_eq_ok, readU32_eq_ok hbytes]
    constructor
    · rintro ⟨l, ⟨hl, hdrop⟩, h⟩
      cases h
      exact .inr ⟨hinsert, rfl, hl, rfl, hdrop⟩
    · rintro (⟨hzero, -⟩ | ⟨-, rfl, hl, rfl, hdrop⟩)
      · exact absurd hzero hcopy
      · exact ⟨length, ⟨hl, hdrop⟩, rfl⟩
  · refine iff_of_false (fun h => by cases h) ?_
    rintro (⟨hzero, -⟩ | ⟨hone, -⟩)
    · exact hcopy hzero
    · exact hinsert hone

variable {i : Instruction}

theorem frame_within (h : instructions.drop cursor = i.frame ++ instructions.drop next)
    (hnext : next = cursor + i.frame.length) : next ≤ instructions.length := by
  have hlength := congrArg List.length h
  have hpos : 0 < i.frame.length := by cases i <;> exact Nat.succ_pos _
  rw [length_append, length_drop, length_drop] at hlength
  omega

/-- **What is valid at a place**: an instruction that puts out no more than is still asked for. -/
theorem validateStep_eq_ok (hshort : instructions.length ≤ programLimit)
    (hmost : outputLength ≤ groupLimit) {output total : ℕ} :
    validateStep instructions outputLength cursor output = .ok (next, total) ↔
      ∃ i : Instruction, i.Fits ∧
        instructions.drop cursor = i.frame ++ instructions.drop next ∧
        next = cursor + i.frame.length ∧ total = output + i.size ∧ total ≤ outputLength := by
  have hlength : instructions.length < 2 ^ 64 := by
    rw [programLimit] at hshort
    omega
  rw [groupLimit] at hmost
  rw [validateStep, pool_bind_eq_ok]
  simp only [need_eq_ok]
  constructor
  · rintro ⟨opcode, hopcode, h⟩
    obtain ⟨⟨offset, length, place⟩, hoperands, h⟩ := pool_bind_eq_ok.mp h
    dsimp only at h
    obtain ⟨sum, hsum, h⟩ := pool_bind_eq_ok.mp h
    obtain ⟨-, rfl⟩ := addSizes_eq_ok.mp hsum
    obtain ⟨_, hsize, h⟩ := pool_bind_eq_ok.mp h
    rw [insist_eq_ok, Bool.not_eq_true', Bool.or_eq_false_iff, beq_eq_false_iff_ne,
      decide_eq_false_iff_not, not_lt] at hsize
    obtain ⟨hpos, hwithin⟩ := hsize
    obtain ⟨last, hlast, h⟩ := pool_bind_eq_ok.mp h
    obtain ⟨_, hextent, h⟩ := pool_bind_eq_ok.mp h
    cases h
    rw [insist_eq_ok, decide_eq_true_eq] at hextent
    rcases (readOperands_eq_ok hlength).mp hoperands with
      ⟨rfl, o, rfl, ho, hl, rfl, hdrop⟩ | ⟨rfl, rfl, hl, rfl, hdrop⟩
    · cases hlast
      refine ⟨.copy o length, ⟨ho, Nat.pos_of_ne_zero hpos, hl⟩, ?_, rfl, rfl, hwithin⟩
      exact drop_cons_iff.mpr ⟨hopcode, hdrop⟩
    · rw [skipLiteral, if_pos Option.isNone_none] at hlast
      obtain ⟨-, rfl⟩ := addSizes_eq_ok.mp hlast
      have htaken : ((instructions.drop (cursor + 1 + 4)).take length).length = length := by
        rw [length_take, length_drop]
        omega
      refine ⟨.insert ((instructions.drop (cursor + 1 + 4)).take length), ?_, ?_, ?_, ?_, hwithin⟩
      · exact ⟨htaken.symm ▸ Nat.pos_of_ne_zero hpos, htaken.symm ▸ hl⟩
      · refine drop_cons_iff.mpr ⟨hopcode, ?_⟩
        rw [hdrop, htaken, ← drop_drop (i := length)]
        refine Eq.trans ?_ (append_assoc _ _ _).symm
        rw [take_append_drop]
      · rw [Instruction.length_frame_insert, htaken]
        omega
      · rw [Instruction.size, htaken]
  · rintro ⟨i, hfits, hdrop, hnext, rfl, hwithin⟩
    have hend := frame_within hdrop hnext
    cases i with
    | copy o length =>
      obtain ⟨ho, hpos, hl⟩ := hfits
      obtain ⟨hopcode, hrest⟩ := drop_cons_iff.mp hdrop
      have hnext' : next = cursor + 1 + 8 := hnext
      rw [Instruction.size] at hwithin ⊢
      have hsum : addSizes output length "pooled instruction length" = .ok (output + length) :=
        addSizes_eq_ok.mpr ⟨by omega, rfl⟩
      refine ⟨0, hopcode, pool_bind_eq_ok.mpr ⟨(some o, length, next),
        (readOperands_eq_ok hlength).mpr (.inl ⟨rfl, o, rfl, ho, hl, hnext', hrest⟩),
        pool_bind_eq_ok.mpr ⟨output + length, hsum,
        pool_bind_eq_ok.mpr ⟨(), ?_, pool_bind_eq_ok.mpr ⟨next, rfl,
        pool_bind_eq_ok.mpr ⟨(), insist_eq_ok.mpr (decide_eq_true hend), rfl⟩⟩⟩⟩⟩⟩
      rw [insist_eq_ok, Bool.not_eq_true', Bool.or_eq_false_iff, beq_eq_false_iff_ne,
        decide_eq_false_iff_not, not_lt]
      exact ⟨hpos.ne', hwithin⟩
    | insert bytes =>
      obtain ⟨hpos, hl⟩ := hfits
      obtain ⟨hopcode, hrest⟩ := drop_cons_iff.mp hdrop
      have hrest : instructions.drop (cursor + 1) =
          le32 bytes.length ++ (bytes ++ instructions.drop next) :=
        hrest.trans (append_assoc _ _ _)
      have hnext' : next = cursor + 1 + 4 + bytes.length := by
        rw [hnext, Instruction.length_frame_insert]
        omega
      have hrest' : instructions.drop (cursor + 1) =
          le32 bytes.length ++ instructions.drop (cursor + 1 + 4) := by
        rw [← drop_drop (i := 4), hrest, drop_left' length_le32]
      have hskip : skipLiteral none (cursor + 1 + 4) bytes.length = .ok next :=
        addSizes_eq_ok.mpr ⟨by omega, hnext'⟩
      rw [Instruction.size] at hwithin ⊢
      have hsum : addSizes output bytes.length "pooled instruction length" =
          .ok (output + bytes.length) := addSizes_eq_ok.mpr ⟨by omega, rfl⟩
      refine ⟨1, hopcode, pool_bind_eq_ok.mpr ⟨(none, bytes.length, cursor + 1 + 4),
        (readOperands_eq_ok hlength).mpr (.inr ⟨rfl, rfl, hl, rfl, hrest'⟩),
        pool_bind_eq_ok.mpr ⟨output + bytes.length, hsum,
        pool_bind_eq_ok.mpr ⟨(), ?_, pool_bind_eq_ok.mpr ⟨next, hskip,
        pool_bind_eq_ok.mpr ⟨(), insist_eq_ok.mpr (decide_eq_true hend), rfl⟩⟩⟩⟩⟩⟩
      rw [insist_eq_ok, Bool.not_eq_true', Bool.or_eq_false_iff, beq_eq_false_iff_ne,
        decide_eq_false_iff_not, not_lt]
      exact ⟨hpos.ne', hwithin⟩

/-- **What is valid from a place on**: instructions that put out no more than asked for. -/
theorem validateSteps_eq_ok (hshort : instructions.length ≤ programLimit)
    (hmost : outputLength ≤ groupLimit) :
    ∀ {cursor output next total : ℕ}, output ≤ outputLength →
      (validateSteps instructions outputLength count cursor output = .ok (next, total) ↔
        ∃ program : List Instruction, program.length = count ∧ (∀ i ∈ program, i.Fits) ∧
          instructions.drop cursor = frames program ++ instructions.drop next ∧
          next = cursor + (frames program).length ∧
          total = output + (program.map Instruction.size).sum ∧ total ≤ outputLength) := by
  induction count with
  | zero =>
    intro cursor output next total hwithin
    rw [validateSteps]
    constructor
    · intro h
      cases h
      exact ⟨[], rfl, forall_mem_nil _, rfl, rfl, rfl, hwithin⟩
    · rintro ⟨program, hnil, -, -, rfl, rfl, -⟩
      cases length_eq_zero_iff.mp hnil
      rfl
  | succ count ih =>
    intro cursor output next total hwithin
    rw [validateSteps, pool_bind_eq_ok]
    constructor
    · rintro ⟨⟨place, sum⟩, hstep, h⟩
      obtain ⟨i, hfits, hdrop, rfl, rfl, hsum⟩ := (validateStep_eq_ok hshort hmost).mp hstep
      obtain ⟨program, rfl, hall, hrest, rfl, rfl, htotal⟩ := (ih hsum).mp h
      refine ⟨i :: program, rfl, forall_mem_cons.mpr ⟨hfits, hall⟩, ?_, ?_, ?_, htotal⟩
      · rw [hdrop, hrest, frames, frames, map_cons, flatten_cons, append_assoc]
      · rw [frames, frames, map_cons, flatten_cons, length_append, Nat.add_assoc]
      · rw [map_cons, sum_cons, Nat.add_assoc]
    · rintro ⟨program, hcount, hall, hdrop, rfl, rfl, htotal⟩
      cases program with
      | nil => cases hcount
      | cons i rest =>
        obtain ⟨hfits, hrest⟩ := forall_mem_cons.mp hall
        rw [frames, map_cons, flatten_cons] at hdrop
        have hsame : cursor + (frames (i :: rest)).length =
            cursor + i.frame.length + (frames rest).length := by
          rw [frames, frames, map_cons, flatten_cons, length_append, Nat.add_assoc]
        rw [map_cons, sum_cons] at htotal
        have hlater : instructions.drop (cursor + i.frame.length) =
            frames rest ++ instructions.drop (cursor + (frames (i :: rest)).length) := by
          rw [← drop_drop, hdrop, append_assoc, drop_left]
          rfl
        refine ⟨(cursor + i.frame.length, output + i.size),
          (validateStep_eq_ok hshort hmost).mpr ⟨i, hfits, ?_, rfl, rfl, by omega⟩,
          (ih (by omega)).mpr ⟨rest, Nat.succ.inj hcount, hrest, hlater, hsame, ?_, ?_⟩⟩
        · rw [hlater, hdrop, append_assoc]
          rfl
        · rw [map_cons, sum_cons, Nat.add_assoc]
        · rw [map_cons, sum_cons]
          exact htotal

/-- A program of so many instructions that fit, under the limits of the format. -/
structure Valid (instructions : List UInt8) (count outputLength : ℕ)
    (program : List Instruction) : Prop where
  length_eq : program.length = count
  pos : 1 ≤ count
  count_le : count ≤ recordCountLimit
  output_pos : outputLength ≠ 0
  output_le : outputLength ≤ groupLimit
  short : instructions.length ≤ programLimit
  fits : ∀ i ∈ program, i.Fits
  frames_eq : instructions = frames program
  size_eq : (program.map Instruction.size).sum = outputLength

/-- **What is valid**: the bytes of as many instructions as the header says, which put out as many
bytes as it says. -/
theorem validate_eq_ok :
    validate instructions count outputLength = .ok () ↔
      ∃ program, Valid instructions count outputLength program := by
  rw [validate, pool_bind_eq_ok]
  simp only [insist_eq_ok, decide_eq_true_eq]
  constructor
  · rintro ⟨-, ⟨hpos, hcount, houtput, hmost, hshort⟩, h⟩
    obtain ⟨⟨cursor, output⟩, hsteps, h⟩ := pool_bind_eq_ok.mp h
    rw [insist_eq_ok, Bool.and_eq_true, beq_iff_eq, beq_iff_eq] at h
    obtain ⟨rfl, rfl⟩ := h
    obtain ⟨program, hlength, hall, hdrop, -, hsum, -⟩ :=
      (validateSteps_eq_ok hshort hmost (Nat.zero_le _)).mp hsteps
    rw [drop_zero, drop_length, append_nil] at hdrop
    exact ⟨program, hlength, hpos, hcount, houtput, hmost, hshort, hall, hdrop,
      by rw [hsum, Nat.zero_add]⟩
  · rintro ⟨program, hlength, hpos, hcount, houtput, hmost, hshort, hall, hframes, hsum⟩
    refine ⟨(), ⟨hpos, hcount, houtput, hmost, hshort⟩,
      pool_bind_eq_ok.mpr ⟨(instructions.length, outputLength), ?_, ?_⟩⟩
    · refine (validateSteps_eq_ok hshort hmost (Nat.zero_le _)).mpr
        ⟨program, hlength, hall, ?_, ?_, ?_, le_refl _⟩
      · rw [drop_zero, drop_length, append_nil, hframes]
      · rw [Nat.zero_add, ← hframes]
      · rw [Nat.zero_add, hsum]
    · rw [insist_eq_ok, Bool.and_eq_true, beq_iff_eq, beq_iff_eq]
      exact ⟨rfl, rfl⟩

/-! ## What a valid program does -/

def copyRange : PoolError := .integrity "pooled copy range"

/-- **What an instruction does**: its piece is put out, or a copy leaves the base. -/
theorem applyStep_eq (hbytes : instructions.length < 2 ^ 64) (hfits : i.Fits) (output : List UInt8)
    (hdrop : instructions.drop cursor = i.frame ++ instructions.drop next)
    (hnext : next = cursor + i.frame.length) :
    applyStep base instructions cursor output =
      (i.run base).elim (.error copyRange) fun piece => .ok (next, output ++ piece) := by
  have hend := frame_within hdrop hnext
  cases i with
  | copy o length =>
    obtain ⟨ho, -, hl⟩ := hfits
    obtain ⟨hopcode, hrest⟩ := drop_cons_iff.mp hdrop
    have hrest : instructions.drop (cursor + 1) =
        le32 o ++ (le32 length ++ instructions.drop next) := hrest.trans (append_assoc _ _ _)
    have hnext' : next = cursor + 1 + 8 := hnext
    have hlater : instructions.drop (cursor + 1 + 4) = le32 length ++ instructions.drop next := by
      rw [← drop_drop (i := 4), hrest, drop_left' length_le32]
    have hfirst : readU32 "pooled instruction field" instructions (cursor + 1) = .ok o :=
      (readU32_eq_ok hbytes).mpr ⟨ho, by rw [hlater, hrest]⟩
    have hsecond : readU32 "pooled instruction field" instructions (cursor + 1 + 4) =
        .ok length := (readU32_eq_ok hbytes).mpr ⟨hl, by rw [hlater, hnext']⟩
    have hstop : addSizes o length "pooled copy range" = .ok (o + length) :=
      addSizes_eq_ok.mpr ⟨by omega, rfl⟩
    have hbyte : index instructions cursor = .ok 0 := need_eq_ok.mpr hopcode
    rw [applyStep, hbyte, ok_bind_pool]
    dsimp only
    rw [if_pos rfl, hfirst, ok_bind_pool, hsecond, ok_bind_pool, hstop, ok_bind_pool,
      Instruction.run]
    cases range? base o (o + length) with
    | none => rfl
    | some piece =>
      rw [hnext']
      rfl
  | insert bytes =>
    obtain ⟨-, hl⟩ := hfits
    obtain ⟨hopcode, hrest⟩ := drop_cons_iff.mp hdrop
    have hrest : instructions.drop (cursor + 1) =
        le32 bytes.length ++ (bytes ++ instructions.drop next) :=
      hrest.trans (append_assoc _ _ _)
    have hnext' : next = cursor + 1 + 4 + bytes.length := by
      rw [hnext, Instruction.length_frame_insert]
      omega
    have hlater : instructions.drop (cursor + 1 + 4) = bytes ++ instructions.drop next := by
      rw [← drop_drop (i := 4), hrest, drop_left' length_le32]
    have hfirst : readU32 "pooled instruction field" instructions (cursor + 1) =
        .ok bytes.length := (readU32_eq_ok hbytes).mpr ⟨hl, by rw [hlater, hrest]⟩
    have hstop : addSizes (cursor + 1 + 4) bytes.length "pooled insert range" = .ok next :=
      addSizes_eq_ok.mpr ⟨by omega, hnext'⟩
    have hpiece : range? instructions (cursor + 1 + 4) next = some bytes := by
      refine range?_eq_some.mpr ⟨by omega, hend, ?_⟩
      rw [hlater, hnext', Nat.add_sub_cancel_left, take_left]
    have hbyte : index instructions cursor = .ok 1 := need_eq_ok.mpr hopcode
    rw [applyStep, hbyte, ok_bind_pool]
    dsimp only
    rw [if_neg (by decide), hfirst, ok_bind_pool, hstop, ok_bind_pool, hpiece]
    rfl

/-- **What instructions do from a place on.** -/
theorem applySteps_eq {base instructions : List UInt8} (hbytes : instructions.length < 2 ^ 64)
    {program : List Instruction} : ∀ {cursor next : ℕ} (output : List UInt8),
      (∀ i ∈ program, i.Fits) →
      instructions.drop cursor = frames program ++ instructions.drop next →
      next = cursor + (frames program).length →
      applySteps base instructions program.length cursor output =
        (runAll base program).elim (.error copyRange) fun out => .ok (next, output ++ out) := by
  induction program with
  | nil =>
    intro cursor next output _ _ hnext
    rw [hnext, runAll, Option.elim_some, append_nil]
    rfl
  | cons i rest ih =>
    intro cursor next output hall hdrop hnext
    obtain ⟨hfits, hrest⟩ := forall_mem_cons.mp hall
    have hsplit : frames (i :: rest) = i.frame ++ frames rest := by
      rw [frames, frames, map_cons, flatten_cons]
    rw [hsplit, append_assoc] at hdrop
    rw [hsplit, length_append, ← Nat.add_assoc] at hnext
    have hlater : instructions.drop (cursor + i.frame.length) =
        frames rest ++ instructions.drop next := by
      rw [← drop_drop, hdrop, drop_left]
    rw [length_cons, applySteps, applyStep_eq hbytes hfits output (hlater ▸ hdrop) rfl, runAll]
    cases i.run base with
    | none => rfl
    | some piece =>
      rw [Option.elim_some, ok_bind_pool]
      dsimp only
      rw [ih (output ++ piece) hrest hlater hnext, Option.bind_eq_bind, Option.bind_some]
      cases runAll base rest with
      | none => rfl
      | some later =>
        rw [Option.elim_some, append_assoc]
        rfl

/-- **What a valid program does**: it puts out the bytes of its instructions, as many as it says,
or a copy leaves the base. -/
theorem apply_of_valid (h : Valid instructions count outputLength program) :
    apply base instructions count outputLength =
      (runAll base program).elim (.error copyRange) .ok := by
  have hbytes : instructions.length < 2 ^ 64 := by
    have hshort := h.short
    rw [programLimit] at hshort
    omega
  have hsteps := @applySteps_eq base instructions hbytes program 0 instructions.length [] h.fits
    (by rw [drop_zero, drop_length, append_nil]; exact h.frames_eq)
    (by rw [Nat.zero_add, ← h.frames_eq])
  rw [h.length_eq] at hsteps
  rw [apply, validate_eq_ok.mpr ⟨program, h⟩, ok_bind_pool, hsteps]
  cases hrun : runAll base program with
  | none => rfl
  | some out =>
    have hlength : ([] ++ out).length = outputLength := by
      rw [nil_append, length_runAll hrun, h.size_eq]
    rw [Option.elim_some, ok_bind_pool]
    dsimp only
    rw [hlength, insist, if_pos (beq_self_eq_true _)]
    rfl

/-- **An accepted program is applied to its length or refused**, at any base, and never reads
outside the base or the program. -/
theorem apply_of_validate (h : validate instructions count outputLength = .ok ()) :
    (∃ out, apply base instructions count outputLength = .ok out ∧ out.length = outputLength) ∨
      apply base instructions count outputLength = .error copyRange := by
  obtain ⟨program, hvalid⟩ := validate_eq_ok.mp h
  rw [apply_of_valid hvalid]
  cases hrun : runAll base program with
  | none => exact .inr rfl
  | some out => exact .inl ⟨out, rfl, (length_runAll hrun).trans hvalid.size_eq⟩

/-! ## Accesses -/

section InBounds

variable {α β : Type}

def InBounds (x : PoolResult α) : Prop := x ≠ .error .outOfBounds

theorem InBounds.ok (a : α) : InBounds (.ok a) := fun h => by cases h

theorem InBounds.bind {x : PoolResult α} {f : α → PoolResult β} (hx : InBounds x)
    (hf : ∀ a, x = .ok a → InBounds (f a)) : InBounds (x >>= f) := by
  cases x with
  | error e => exact fun h => hx (congrArg Except.error (Except.error.inj h))
  | ok a => exact hf a rfl

theorem InBounds.need {o : Option α} {e : PoolError} (h : e ≠ .outOfBounds) :
    InBounds (need o e) := by
  cases o with
  | none => exact fun he => h (Except.error.inj he)
  | some a => exact .ok a

theorem InBounds.insist (check : Bool) (what : String) : InBounds (insist check what) := by
  cases check <;> exact fun h => by cases h

theorem InBounds.addSizes (a b : ℕ) (what : String) : InBounds (addSizes a b what) := by
  rw [Pool.addSizes]
  split_ifs <;> exact fun h => by cases h

theorem InBounds.readU32 (what : String) (bytes : List UInt8) (offset : ℕ) :
    InBounds (readU32 what bytes offset) :=
  (InBounds.addSizes _ _ _).bind fun _ _ =>
    (InBounds.need fun h => by cases h).bind fun _ _ => .ok _

theorem InBounds.slice {bytes : List UInt8} {start stop : ℕ} (hle : start ≤ stop)
    (hstop : stop ≤ bytes.length) : InBounds (slice bytes start stop) := by
  rw [Pool.slice, range?, if_pos ⟨hle, hstop⟩]
  exact .ok _

theorem InBounds.validate (instructions : List UInt8) (count outputLength : ℕ) :
    InBounds (validate instructions count outputLength) := by
  have hoperands : ∀ opcode cursor, InBounds (readOperands instructions opcode cursor) := by
    intro opcode cursor
    rw [readOperands]
    split_ifs
    · exact (InBounds.readU32 _ _ _).bind fun _ _ => (InBounds.readU32 _ _ _).bind fun _ _ => .ok _
    · exact (InBounds.readU32 _ _ _).bind fun _ _ => .ok _
    · exact fun h => by cases h
  have hskip : ∀ offset cursor length, InBounds (skipLiteral offset cursor length) := by
    intro offset cursor length
    rw [skipLiteral]
    split_ifs
    · exact .addSizes _ _ _
    · exact .ok _
  have hstep : ∀ cursor output,
      InBounds (validateStep instructions outputLength cursor output) := by
    intro cursor output
    exact (InBounds.need fun h => by cases h).bind fun _ _ => (hoperands _ _).bind fun _ _ =>
      (InBounds.addSizes _ _ _).bind fun _ _ => (InBounds.insist _ _).bind fun _ _ =>
        (hskip _ _ _).bind fun _ _ => (InBounds.insist _ _).bind fun _ _ => .ok _
  have hsteps : ∀ count cursor output,
      InBounds (validateSteps instructions outputLength count cursor output) := by
    intro count
    induction count with
    | zero => exact fun _ _ => .ok _
    | succ count ih => exact fun _ _ => (hstep _ _).bind fun _ _ => ih _ _
  exact (InBounds.insist _ _).bind fun _ _ => (hsteps _ _ _).bind fun _ _ => .insist _ _

/-- **A record is parsed within its bytes.** -/
theorem InBounds.parse (record : List UInt8) : InBounds (parse record) := by
  have hpos : ∀ {byte : UInt8}, record.head? = some byte → 1 ≤ record.length := by
    intro byte h
    exact length_pos_of_ne_nil fun hnil => by rw [hnil] at h; cases h
  rw [Pool.parse]
  split_ifs with hfull hdelta
  · refine (InBounds.slice (hpos hfull) (le_refl _)).bind fun body _ =>
      (InBounds.insist _ _).bind fun _ _ => InBounds.bind ?_ fun _ _ => .ok _
    cases decodePooledBody (body.map UInt8.toNat) with
    | error e => exact fun h => by cases h
    | ok found => exact .ok _
  · refine (InBounds.insist _ _).bind fun _ hwidth => ?_
    rw [insist_eq_ok, decide_eq_true_eq] at hwidth
    refine (InBounds.slice (by omega) (by omega)).bind fun named _ => InBounds.bind ?_ fun _ _ =>
      (InBounds.readU32 _ _ _).bind fun _ _ => (InBounds.readU32 _ _ _).bind fun _ _ =>
        (InBounds.slice hwidth.1 (le_refl _)).bind fun _ _ =>
          (InBounds.validate _ _ _).bind fun _ _ => .ok _
    rw [Block.ofBytes]
    split_ifs <;> exact fun h => by cases h
  · exact fun h => by cases h

end InBounds

/-! ## Delta records -/

def identityBytes (id : ObjectId) : List UInt8 := id.bytes.map UInt8.ofNat

def deltaHeader (base : ObjectId) (outputLength count : ℕ) : List UInt8 :=
  1 :: (identityBytes base ++ le32 outputLength ++ le32 count)

theorem length_identityBytes (id : ObjectId) : (identityBytes id).length = 32 := by
  rw [identityBytes, length_map, id.length_eq]

theorem length_deltaHeader (base : ObjectId) (outputLength count : ℕ) :
    (deltaHeader base outputLength count).length = 41 := by
  rw [deltaHeader, length_cons, length_append, length_append, length_identityBytes,
    length_le32, length_le32]

/-- **A delta record** is refused for its width, or its program is validated. -/
theorem parse_delta {base : ObjectId} (hlength : outputLength < 2 ^ 32) (hcount : count < 2 ^ 32)
    (hshort : instructions.length ≤ programLimit) :
    parse (deltaHeader base outputLength count ++ instructions) = do
      insist (decide (41 + instructions.length ≤ metadataRecordLimit)) "pooled delta record width"
      validate instructions count outputLength
      return .delta base outputLength count instructions := by
  have hrecord : (deltaHeader base outputLength count ++ instructions).length =
      41 + instructions.length := by
    rw [length_append, length_deltaHeader]
  have hbytes : (deltaHeader base outputLength count ++ instructions).length < 2 ^ 64 := by
    rw [programLimit] at hshort
    omega
  have hsplit : deltaHeader base outputLength count ++ instructions =
      [1] ++ identityBytes base ++ (le32 outputLength ++ (le32 count ++ instructions)) := by
    simp only [deltaHeader, cons_append, append_assoc, nil_append]
  have hdrop : (deltaHeader base outputLength count ++ instructions).drop 33 =
      le32 outputLength ++ (le32 count ++ instructions) := by
    rw [hsplit, drop_left']
    rw [length_append, length_identityBytes]
    rfl
  have hlater : (deltaHeader base outputLength count ++ instructions).drop 37 =
      le32 count ++ instructions := by
    rw [← drop_drop (i := 4) (j := 33), hdrop, drop_left' length_le32]
  have hlast : (deltaHeader base outputLength count ++ instructions).drop 41 = instructions :=
    drop_left' (length_deltaHeader base outputLength count)
  have hnamed : slice (deltaHeader base outputLength count ++ instructions) 1 33 =
      .ok (identityBytes base) := by
    have hstart : 1 = [(1 : UInt8)].length := rfl
    have hstop : 33 = [(1 : UInt8)].length + (identityBytes base).length := by
      rw [length_identityBytes]
      rfl
    rw [slice, hsplit, range?_append hstart hstop]
    rfl
  have hbase : Block.ofBytes (PoolError.invalidIdentityLength 32 (identityBytes base).length) 32
      ((identityBytes base).map UInt8.toNat) = .ok base := by
    rw [Block.ofBytes_eq_ok, identityBytes, map_toNat_ofNat base.isBytes]
  have houtput : readU32 "pooled field" (deltaHeader base outputLength count ++ instructions) 33 =
      .ok outputLength := (readU32_eq_ok hbytes).mpr ⟨hlength, by rw [hlater, hdrop]⟩
  have hnumber : readU32 "pooled field" (deltaHeader base outputLength count ++ instructions) 37 =
      .ok count := (readU32_eq_ok hbytes).mpr ⟨hcount, by rw [hlast, hlater]⟩
  have hprogram : slice (deltaHeader base outputLength count ++ instructions) 41
      (deltaHeader base outputLength count ++ instructions).length = .ok instructions := by
    rw [slice, range?, if_pos ⟨by omega, le_refl _⟩, hlast, hrecord, Nat.add_sub_cancel_left,
      take_length]
    rfl
  have hhead : (deltaHeader base outputLength count ++ instructions).head? = some 1 := rfl
  rw [parse, hhead, if_neg (by decide), if_pos rfl, hnamed, ok_bind_pool, hbase, ok_bind_pool,
    houtput, ok_bind_pool, hnumber, ok_bind_pool, hprogram, ok_bind_pool, hrecord]
  have hwidth : (41 ≤ 41 + instructions.length ∧ 41 + instructions.length ≤ metadataRecordLimit) ↔
      41 + instructions.length ≤ metadataRecordLimit := and_iff_right (Nat.le_add_right _ _)
  rw [decide_eq_decide.mpr hwidth]

theorem validate_of_parse {record : List UInt8} {base : ObjectId}
    (h : parse record = .ok (.delta base outputLength count instructions)) :
    validate instructions count outputLength = .ok () := by
  rw [parse] at h
  split_ifs at h
  · obtain ⟨_, -, h⟩ := pool_bind_eq_ok.mp h
    obtain ⟨_, -, h⟩ := pool_bind_eq_ok.mp h
    obtain ⟨_, -, h⟩ := pool_bind_eq_ok.mp h
    cases h
  · obtain ⟨_, -, h⟩ := pool_bind_eq_ok.mp h
    obtain ⟨_, -, h⟩ := pool_bind_eq_ok.mp h
    obtain ⟨_, -, h⟩ := pool_bind_eq_ok.mp h
    obtain ⟨_, -, h⟩ := pool_bind_eq_ok.mp h
    obtain ⟨_, -, h⟩ := pool_bind_eq_ok.mp h
    obtain ⟨_, -, h⟩ := pool_bind_eq_ok.mp h
    obtain ⟨_, hvalid, h⟩ := pool_bind_eq_ok.mp h
    cases h
    exact hvalid

end Pool

end LayerFs
