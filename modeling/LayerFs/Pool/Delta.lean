import LayerFs.Pool.Program
import LayerFs.Support.Budget

/-!
# Building a pooled program (`layerfs-storage/src/encoding/pool/delta.rs`)

The builder indexes the base by sixteen-byte seeds, walks the target and copies the longest match a
seed leads to; what no copy covers is inserted. Matches are found by a hash but compared byte by
byte, so whatever the table holds, a copy is right.

* `build_yields` — **what is built is a valid program that puts the target out**.
* `build_parse_apply` — **what is built, parsed and applied**: every program is applied to its
  target, and is accepted as a record when the record limit holds.
-/

namespace LayerFs

open List

variable (hash : List UInt8 → ℕ)

namespace Pool

open Wire Codec InodeCodec
open Pack (groupLimit recordCountLimit)

/-! ## The seed table -/

/-- `TABLE_BUCKETS`. -/
def tableBuckets : ℕ := 4096
/-- `TABLE_SLOTS`. -/
def tableSlots : ℕ := 4
/-- `SEED_BYTES`. -/
def seedBytes : ℕ := 16

/-- Offsets into the base, by the bucket of their seed; unset slots are left out. -/
abbrev SeedTable := ℕ → List ℕ

/-- `bucket`, of a hash that gives the first two bytes of the digest as a number. -/
def bucket (hash : List UInt8 → ℕ) (seed : List UInt8) : ℕ := hash seed % tableBuckets

def seedAt (bytes : List UInt8) (place : ℕ) : List UInt8 := (bytes.drop place).take seedBytes

/-- The offset takes the first unset slot of its bucket, if one is left. -/
def SeedTable.set (table : SeedTable) (key offset : ℕ) : SeedTable :=
  if (table key).length < tableSlots then Function.update table key (table key ++ [offset])
  else table

/-- The table of a base: the seeds at the multiples of their width. -/
def seedTable (hash : List UInt8 → ℕ) (base : List UInt8) : Trial PoolError SeedTable :=
  (List.range (base.length / seedBytes)).foldlM (fun table turn => do
    Trial.charge seedBytes
    let offset := turn * seedBytes
    return table.set (bucket hash (seedAt base offset)) offset) fun _ => []

/-! ## Matches -/

/-- How far two byte strings agree, one byte of budget for each comparison. -/
def matchLength : List UInt8 → List UInt8 → Trial PoolError ℕ
  | b :: base, t :: target => do
    Trial.charge 1
    if b = t then do
      let length ← matchLength base target
      return length + 1
    else return 0
  | _, _ => return 0

/-- The longest match of the candidates, the earliest of those as long. -/
def bestMatch (base target : List UInt8) (cursor : ℕ) : List ℕ → ℕ × ℕ → Trial PoolError (ℕ × ℕ)
  | [], best => return best
  | start :: rest, best => do
    let length ← matchLength (base.drop start) (target.drop cursor)
    bestMatch base target cursor rest <|
      if seedBytes ≤ length ∧ (best.2 < length ∨ length = best.2 ∧ start < best.1) then
        (start, length)
      else best

/-! ## Writing -/

/-- A program as it is written. -/
structure Written where
  program : List UInt8
  count : ℕ

/-- `put_u32`. -/
def putU32 (value : ℕ) : PoolResult (List UInt8) :=
  if value < 2 ^ 32 then .ok (le32 value) else .error (.integrity "pooled instruction field")

def putOffset : Option ℕ → PoolResult (List UInt8)
  | some offset => putU32 offset
  | none => .ok []

/-- `instruction`: one more instruction, or the trial is given up at its limits. -/
def instruction (limit : ℕ) (offset : Option ℕ) (bytes : List UInt8) (length : ℕ) (w : Written) :
    Trial PoolError Written :=
  let size := if offset.isSome then 9 else 5 + length
  if w.count = recordCountLimit ∨ limit < w.program.length + size then Trial.abandon
  else do
    let place ← Trial.lift (putOffset offset)
    let field ← Trial.lift (putU32 length)
    let opcode := if offset.isNone then 1 else 0
    let literal := if offset.isNone then bytes else []
    return ⟨w.program ++ opcode :: (place ++ field ++ literal), w.count + 1⟩

/-- The bytes of the target between two places, inserted when there are some. -/
def insertLiteral (limit : ℕ) (target : List UInt8) (literal cursor : ℕ) (w : Written) :
    Trial PoolError Written :=
  if literal < cursor then
    instruction limit none ((target.drop literal).take (cursor - literal)) (cursor - literal) w
  else return w

/-- The walk over the target: what is written, and the place up to which it is covered. -/
def scanTarget (hash : List UInt8 → ℕ) (base target : List UInt8) (limit : ℕ) (table : SeedTable)
    (w : Written) (cursor literal : ℕ) : Trial PoolError (Written × ℕ) :=
  if _h : cursor + seedBytes ≤ target.length then do
    Trial.charge seedBytes
    let best ← bestMatch base target cursor (table (bucket hash (seedAt target cursor))) (0, 0)
    if hbest : best.2 = 0 then scanTarget hash base target limit table w (cursor + 1) literal
    else do
      let w ← insertLiteral limit target literal cursor w
      let w ← instruction limit (some best.1) [] best.2 w
      scanTarget hash base target limit table w (cursor + best.2) (cursor + best.2)
  else return (w, literal)
termination_by target.length - cursor
decreasing_by
  · rw [seedBytes] at _h
    omega
  · rw [seedBytes] at _h
    omega

/-- `build`: one instruction program turning `base` into `target`. -/
def build (hash : List UInt8 → ℕ) (baseId : ObjectId) (base target : List UInt8) :
    Trial PoolError (List UInt8) := do
  Trial.lift (insist (!(base.isEmpty || decide (groupLimit < base.length) || target.isEmpty ||
    decide (groupLimit < target.length))) "pooled delta inputs")
  let limit := min (target.length + 1) groupLimit
  if limit < 41 then Trial.abandon
  else do
    let table ← seedTable hash base
    let outputField ← Trial.lift (putU32 target.length)
    let countField ← Trial.lift (putU32 0)
    let start := 1 :: (identityBytes baseId ++ outputField ++ countField)
    let (w, literal) ← scanTarget hash base target limit table ⟨start, 0⟩ 0 0
    let w ← insertLiteral limit target literal target.length w
    if w.count = 0 then Trial.abandon
    else return w.program.take 37 ++ le32 w.count ++ w.program.drop 41

/-! ## What is found -/

theorem putU32_eq_ok {value : ℕ} {bytes : List UInt8} :
    putU32 value = .ok bytes ↔ value < 2 ^ 32 ∧ bytes = le32 value := by
  rw [putU32]
  split_ifs with h
  · rw [Except.ok.injEq, and_iff_right h, eq_comm]
  · exact iff_of_false (fun hbytes => by cases hbytes) fun hbytes => h hbytes.1

theorem matchLength_yields (base target : List UInt8) :
    (matchLength base target).Yields fun length =>
      length ≤ base.length ∧ length ≤ target.length ∧ base.take length = target.take length := by
  induction base generalizing target with
  | nil => exact .pure ⟨le_refl _, Nat.zero_le _, rfl⟩
  | cons b base ih =>
    cases target with
    | nil => exact .pure ⟨Nat.zero_le _, le_refl _, rfl⟩
    | cons t target =>
      rw [matchLength]
      refine (Trial.Yields.any _).bind fun _ _ => ?_
      split_ifs with hsame
      · refine (ih target).bind fun length hlength => .pure ?_
        obtain ⟨hbase, htarget, htake⟩ := hlength
        exact ⟨Nat.succ_le_succ hbase, Nat.succ_le_succ htarget,
          by rw [take_succ_cons, take_succ_cons, hsame, htake]⟩
      · exact .pure ⟨Nat.zero_le _, Nat.zero_le _, rfl⟩

def Matches (base target : List UInt8) (cursor : ℕ) (best : ℕ × ℕ) : Prop :=
  best.2 ≠ 0 → cursor + best.2 ≤ target.length ∧ best.1 + best.2 ≤ base.length ∧
    (base.drop best.1).take best.2 = (target.drop cursor).take best.2

theorem bestMatch_yields {base target : List UInt8} {cursor : ℕ} (candidates : List ℕ) :
    ∀ {best : ℕ × ℕ}, Matches base target cursor best →
      (bestMatch base target cursor candidates best).Yields (Matches base target cursor) := by
  induction candidates with
  | nil => exact fun hbest => .pure hbest
  | cons start rest ih =>
    intro best hbest
    refine (matchLength_yields _ _).bind fun length hlength => ih ?_
    split_ifs
    · intro hpos
      obtain ⟨hbase, htarget, htake⟩ := hlength
      rw [length_drop] at hbase htarget
      dsimp only at hpos ⊢
      exact ⟨by omega, by omega, htake⟩
    · exact hbest

/-! ## What is written -/

def Instruction.offset : Instruction → Option ℕ
  | copy offset _ => some offset
  | insert _ => none

def Instruction.literal : Instruction → List UInt8
  | copy _ _ => []
  | insert bytes => bytes

/-- **One more instruction**, within the limits. -/
theorem instruction_yields (limit : ℕ) (i : Instruction) (w : Written) :
    (instruction limit i.offset i.literal i.size w).Yields fun next =>
      next = ⟨w.program ++ i.frame, w.count + 1⟩ ∧ next.program.length ≤ limit ∧
        w.count ≠ recordCountLimit := by
  have hroom : ∀ size bytes, i.frame = bytes → bytes.length = size →
      ¬ (w.count = recordCountLimit ∨ limit < w.program.length + size) →
      (w.program ++ bytes).length ≤ limit ∧ w.count ≠ recordCountLimit := by
    rintro size bytes - rfl hlimit
    rw [not_or, not_lt] at hlimit
    rw [length_append]
    exact ⟨hlimit.2, hlimit.1⟩
  rw [instruction]
  cases i with
  | copy offset length =>
    simp only [Instruction.offset, Instruction.literal, Instruction.size, Option.isSome_some,
      Option.isNone_some, if_true, Bool.false_eq_true, if_false, append_nil]
    split_ifs with hfull
    · exact .abandon
    · refine (Trial.Yields.lift fun place hplace => putU32_eq_ok.mp hplace).bind
        fun place hplace => (Trial.Yields.lift fun field hfield => putU32_eq_ok.mp hfield).bind
          fun field hfield => .pure ?_
      obtain ⟨-, rfl⟩ := hplace
      obtain ⟨-, rfl⟩ := hfield
      exact ⟨rfl, hroom 9 _ rfl rfl hfull⟩
  | insert bytes =>
    simp only [Instruction.offset, Instruction.literal, Instruction.size, Option.isSome_none,
      Option.isNone_none, if_true, Bool.false_eq_true, if_false]
    split_ifs with hfull
    · exact .abandon
    · refine (Trial.Yields.lift fun place hplace => (Except.ok.inj hplace).symm).bind
        fun place hplace => (Trial.Yields.lift fun field hfield => putU32_eq_ok.mp hfield).bind
          fun field hfield => .pure ?_
      obtain ⟨-, rfl⟩ := hfield
      rw [hplace, nil_append]
      exact ⟨rfl, hroom (5 + bytes.length) _ rfl (Instruction.length_frame_insert bytes) hfull⟩

theorem instruction_completes {limit : ℕ} {i : Instruction} {w : Written} (hfits : i.Fits)
    (hcount : w.count ≠ recordCountLimit) (hroom : w.program.length + i.frame.length ≤ limit) :
    (instruction limit i.offset i.literal i.size w).Completes
      ⟨w.program ++ i.frame, w.count + 1⟩ := by
  rw [instruction]
  cases i with
  | copy offset length =>
    have hroom : w.program.length + 9 ≤ limit := hroom
    simp only [Instruction.offset, Instruction.literal, Instruction.size, Option.isSome_some,
      Option.isNone_some, if_true, Bool.false_eq_true, if_false, append_nil]
    rw [if_neg (not_or.mpr ⟨hcount, not_lt.mpr hroom⟩)]
    exact (Trial.Completes.lift (putU32_eq_ok.mpr ⟨hfits.1, rfl⟩)).bind <|
      (Trial.Completes.lift (putU32_eq_ok.mpr ⟨hfits.2.2, rfl⟩)).bind (.pure _)
  | insert bytes =>
    rw [Instruction.length_frame_insert] at hroom
    simp only [Instruction.offset, Instruction.literal, Instruction.size, Option.isSome_none,
      Option.isNone_none, if_true, Bool.false_eq_true, if_false]
    rw [if_neg (not_or.mpr ⟨hcount, by omega⟩)]
    exact (Trial.Completes.lift rfl).bind <|
      (Trial.Completes.lift (putU32_eq_ok.mpr ⟨hfits.2, rfl⟩)).bind (.pure _)

/-- The bytes written so far are a program that puts out the target up to a place. -/
def Covers (baseId : ObjectId) (base target : List UInt8) (limit : ℕ) (w : Written)
    (place : ℕ) : Prop :=
  ∃ program : List Instruction, w.program = deltaHeader baseId target.length 0 ++ frames program ∧
    w.count = program.length ∧ (∀ i ∈ program, i.Fits) ∧
    runAll base program = some (target.take place) ∧ w.program.length ≤ limit ∧
    w.count ≤ recordCountLimit

section Covers

variable {baseId : ObjectId} {base target : List UInt8} {limit cursor literal place : ℕ}
  {w : Written}

/-- **Writing an instruction** that puts out what comes next in the target. -/
theorem Covers.instruction (h : Covers baseId base target limit w place) {i : Instruction}
    (hfits : i.Fits) (hrun : i.run base = some ((target.drop place).take i.size)) :
    (instruction limit i.offset i.literal i.size w).Yields fun next =>
      Covers baseId base target limit next (place + i.size) := by
  refine (instruction_yields limit i w).imp fun next hnext => ?_
  obtain ⟨program, hprogram, hcount, hall, houtput, -, hmost⟩ := h
  obtain ⟨rfl, hroom, hless⟩ := hnext
  refine ⟨program ++ [i], ?_, ?_, ?_, ?_, hroom, Nat.lt_of_le_of_ne hmost hless⟩
  · rw [hprogram, frames, frames, map_append, flatten_append, append_assoc,
      map_singleton, flatten_singleton]
  · rw [length_append, length_singleton, hcount]
  · exact forall_mem_append.mpr ⟨hall, forall_mem_singleton.mpr hfits⟩
  · rw [runAll_append, houtput, runAll, hrun, runAll, take_add]
    simp

/-- **Inserting** the bytes up to the cursor. -/
theorem Covers.insertLiteral (h : Covers baseId base target limit w literal)
    (hle : literal ≤ cursor) (hcursor : cursor ≤ target.length)
    (hsmall : target.length ≤ groupLimit) :
    (insertLiteral limit target literal cursor w).Yields fun next =>
      Covers baseId base target limit next cursor := by
  rw [groupLimit] at hsmall
  rw [Pool.insertLiteral]
  split_ifs with hlt
  · have hlength : ((target.drop literal).take (cursor - literal)).length = cursor - literal := by
      rw [length_take, length_drop]
      omega
    have hstep := h.instruction (i := .insert ((target.drop literal).take (cursor - literal)))
      ⟨by omega, by omega⟩ (by rw [Instruction.run, Instruction.size, hlength])
    rw [Instruction.size, hlength] at hstep
    rwa [Nat.add_sub_cancel' hle] at hstep
  · have hsame : literal = cursor := by omega
    exact .pure (hsame ▸ h)

/-- **Copying** a match. -/
theorem Covers.copy (h : Covers baseId base target limit w cursor) {best : ℕ × ℕ}
    (hbest : Matches base target cursor best) (hpos : best.2 ≠ 0)
    (hsmall : base.length ≤ groupLimit) :
    (Pool.instruction limit (some best.1) [] best.2 w).Yields fun next =>
      Covers baseId base target limit next (cursor + best.2) := by
  rw [groupLimit] at hsmall
  obtain ⟨htarget, hbase, htake⟩ := hbest hpos
  have hfits : (Instruction.copy best.1 best.2).Fits := ⟨by omega, by omega, by omega⟩
  have hrun : (Instruction.copy best.1 best.2).run base =
      some ((target.drop cursor).take best.2) := by
    refine range?_eq_some.mpr ⟨by omega, hbase, ?_⟩
    rw [Nat.add_sub_cancel_left, htake]
  exact h.instruction hfits hrun

/-- **The walk covers the target** up to the place it returns. -/
theorem Covers.scanTarget (table : SeedTable) (hbase : base.length ≤ groupLimit)
    (htarget : target.length ≤ groupLimit) (h : Covers baseId base target limit w literal)
    (hle : literal ≤ cursor) (hcursor : cursor ≤ target.length) :
    (scanTarget hash base target limit table w cursor literal).Yields fun out =>
      Covers baseId base target limit out.1 out.2 ∧ out.2 ≤ target.length := by
  -- by the bytes of the target that are left
  induction hleft : target.length - cursor using Nat.strong_induction_on
    generalizing w cursor literal with
  | _ left ih =>
    rw [Pool.scanTarget]
    split_ifs with hroom
    · rw [seedBytes] at hroom
      refine (Trial.Yields.any _).bind fun _ _ => ?_
      refine (bestMatch_yields _ fun h => absurd rfl h).bind fun best hbest => ?_
      split_ifs with hzero
      · exact ih _ (by omega) h (by omega) (by omega) rfl
      · obtain ⟨hwithin, -, -⟩ := hbest hzero
        refine (h.insertLiteral hle hcursor htarget).bind fun next hnext => ?_
        refine (hnext.copy hbest hzero hbase).bind fun last hlast => ?_
        exact ih _ (by omega) hlast (le_refl _) hwithin rfl
    · exact .pure ⟨h, hle.trans hcursor⟩

end Covers

theorem stamp_deltaHeader (baseId : ObjectId) (outputLength count : ℕ) (rest : List UInt8) :
    (deltaHeader baseId outputLength 0 ++ rest).take 37 ++ le32 count ++
        (deltaHeader baseId outputLength 0 ++ rest).drop 41 =
      deltaHeader baseId outputLength count ++ rest := by
  have hfirst : ((1 :: identityBytes baseId) ++ le32 outputLength).length = 37 := by
    rw [length_append, length_cons, length_identityBytes, length_le32]
  have hsplit : ∀ n, deltaHeader baseId outputLength n ++ rest =
      ((1 :: identityBytes baseId) ++ le32 outputLength) ++ (le32 n ++ rest) := by
    intro n
    simp only [deltaHeader, cons_append, append_assoc]
  rw [drop_left' (length_deltaHeader baseId outputLength 0), hsplit 0, hsplit count,
    take_left' hfirst, append_assoc]

/-- **What is built** is a valid program that puts the target out, and no longer than the target. -/
theorem build_yields (baseId : ObjectId) (base target : List UInt8) :
    (build hash baseId base target).Yields fun record =>
      ∃ count instructions program,
        record = deltaHeader baseId target.length count ++ instructions ∧
        record.length ≤ target.length + 1 ∧ count < 2 ^ 32 ∧
        Valid instructions count target.length program ∧ runAll base program = some target := by
  rw [build]
  refine (Trial.Yields.lift fun _ h => insist_eq_ok.mp h).bind fun _ hinputs => ?_
  simp only [Bool.not_eq_true', Bool.or_eq_false_iff, decide_eq_false_iff_not, not_lt,
    isEmpty_eq_false_iff] at hinputs
  obtain ⟨⟨⟨hbaseNe, hbase⟩, htargetNe⟩, htarget⟩ := hinputs
  dsimp only
  split_ifs with hlimit
  · exact .abandon
  · refine (Trial.Yields.any _).bind fun table _ => ?_
    refine (Trial.Yields.lift fun field h => putU32_eq_ok.mp h).bind fun output houtput => ?_
    refine (Trial.Yields.lift fun field h => putU32_eq_ok.mp h).bind fun zero hzero => ?_
    obtain ⟨hlength, rfl⟩ := houtput
    obtain ⟨-, rfl⟩ := hzero
    have hstart : Covers baseId base target (min (target.length + 1) groupLimit)
        ⟨deltaHeader baseId target.length 0, 0⟩ 0 := by
      refine ⟨[], ?_, rfl, forall_mem_nil _, rfl, ?_, Nat.zero_le _⟩
      · exact (append_nil _).symm
      · rw [length_deltaHeader]
        omega
    refine (hstart.scanTarget hash table hbase htarget (le_refl _) (Nat.zero_le _)).bind
      fun out hout => ?_
    obtain ⟨hcovers, hplace⟩ := hout
    refine (hcovers.insertLiteral hplace (le_refl _) htarget).bind fun w hw => ?_
    obtain ⟨program, hprogram, hcount, hall, hrun, hroom, hmost⟩ := hw
    split_ifs with hnone
    · exact .abandon
    · rw [take_length] at hrun
      have hframes : w.program.length = 41 + (frames program).length := by
        rw [hprogram, length_append, length_deltaHeader]
      have hprogramLimit : (frames program).length ≤ programLimit := by
        have hgroup : groupLimit = 65536 := rfl
        rw [programLimit]
        omega
      have hsmall : recordCountLimit < 2 ^ 32 := by decide
      refine .pure ⟨w.count, frames program, program, ?_, ?_, hmost.trans_lt hsmall,
        ⟨hcount.symm, Nat.pos_of_ne_zero hnone, hmost, ?_, htarget, hprogramLimit, hall, rfl,
          (length_runAll hrun).symm⟩, hrun⟩
      · rw [hprogram, stamp_deltaHeader]
      · rw [hprogram, stamp_deltaHeader, length_append, length_deltaHeader]
        omega
      · exact fun h => htargetNe (length_eq_zero_iff.mp h)

/-- **What is built, parsed and applied**: a returned program is applied to the base to give exactly
the target; as a record it names the base and the length of the target and is accepted when it is
no longer than the record limit, as one for a shorter target is. An accepted program, at any base,
is applied to exactly its recorded length or refused, and no access leaves the base or the
program. -/
theorem build_parse_apply (hash : List UInt8 → ℕ) :
    (∀ baseId base target budget record after,
      build hash baseId base target budget = .ok (some record, after) →
        record.length ≤ target.length + 1 ∧
        ∃ count instructions, apply base instructions count target.length = .ok target ∧
          parse record = if record.length ≤ metadataRecordLimit
            then .ok (.delta baseId target.length count instructions)
            else .error (.integrity "pooled delta record width")) ∧
    ∀ record, InBounds (parse record) ∧
      ∀ baseId outputLength count instructions base,
        parse record = .ok (.delta baseId outputLength count instructions) →
          (∃ out, apply base instructions count outputLength = .ok out ∧
            out.length = outputLength) ∨
          apply base instructions count outputLength = .error copyRange := by
  refine ⟨fun baseId base target budget record after h => ?_, fun record =>
    ⟨.parse record, fun _ _ _ _ _ h => apply_of_validate (validate_of_parse h)⟩⟩
  obtain ⟨count, instructions, program, rfl, hlength, hcount, hvalid, hrun⟩ :=
    build_yields hash baseId base target _ _ _ h
  have houtput : target.length < 2 ^ 32 := by
    have hmost := hvalid.output_le
    rw [groupLimit] at hmost
    omega
  have hrecord : (deltaHeader baseId target.length count ++ instructions).length =
      41 + instructions.length := by
    rw [length_append, length_deltaHeader]
  refine ⟨hlength, count, instructions, ?_, ?_⟩
  · rw [apply_of_valid hvalid, hrun]
    rfl
  · rw [parse_delta houtput hcount hvalid.short, hrecord, validate_eq_ok.mpr ⟨program, hvalid⟩]
    split_ifs with hlimit
    · rw [insist, if_pos (decide_eq_true hlimit)]
      rfl
    · rw [insist, if_neg (by rwa [decide_eq_true_eq])]
      rfl

/-! ### Zeros and ones -/

def zeros : List UInt8 := List.replicate 64 0

/-- Sixty-four zeros and `n` ones. -/
def zerosOnes (n : ℕ) : List UInt8 := zeros ++ List.replicate n 1

def zerosBucket (hash : List UInt8 → ℕ) : ℕ := bucket hash (List.replicate 16 0)

def zerosTable (hash : List UInt8 → ℕ) : SeedTable :=
  (((SeedTable.set (fun _ => []) (zerosBucket hash) 0).set (zerosBucket hash) 16).set
    (zerosBucket hash) 32).set (zerosBucket hash) 48

theorem zerosTable_bucket : zerosTable hash (zerosBucket hash) = [0, 16, 32, 48] := by
  simp [zerosTable, SeedTable.set, tableSlots]

theorem seedTable_zeros : (seedTable hash zeros).Completes (zerosTable hash) := by
  have hturns : List.range (zeros.length / seedBytes) = [0, 1, 2, 3] := by decide
  have hstep : ∀ (table : SeedTable) (turn : ℕ),
      Trial.Completes (ε := PoolError) (do
        Trial.charge seedBytes
        return table.set (bucket hash (seedAt zeros (turn * seedBytes))) (turn * seedBytes))
        (table.set (bucket hash (seedAt zeros (turn * seedBytes))) (turn * seedBytes)) :=
    fun _ _ => (Trial.Completes.charge _).bind (.pure _)
  rw [seedTable, hturns]
  exact .foldlM_cons (hstep _ 0) <| .foldlM_cons (hstep _ 1) <| .foldlM_cons (hstep _ 2) <|
    .foldlM_cons (hstep _ 3) (.pure _)

theorem matchLength_zeros {m k : ℕ} (hle : m ≤ k) (rest : List UInt8) :
    (matchLength (List.replicate m 0) (List.replicate k 0 ++ rest)).Completes m := by
  induction m generalizing k with
  | zero => exact .pure 0
  | succ m ih =>
    obtain ⟨k, rfl⟩ : ∃ j, k = j + 1 := ⟨k - 1, by omega⟩
    rw [replicate_succ, replicate_succ, cons_append, matchLength, if_pos rfl]
    exact (Trial.Completes.charge 1).bind ((ih (by omega)).bind (.pure _))

theorem matchLength_ones (m : ℕ) (rest : List UInt8) :
    (matchLength (List.replicate m 0) (1 :: rest)).Completes 0 := by
  cases m with
  | zero => exact .pure 0
  | succ m =>
    rw [replicate_succ, matchLength, if_neg (by decide)]
    exact (Trial.Completes.charge 1).bind (.pure 0)

theorem bestMatch_zeros (n : ℕ) :
    (bestMatch zeros (zerosOnes n) 0 [0, 16, 32, 48] (0, 0)).Completes (0, 64) := by
  have hmatch : ∀ start ≤ 64, (matchLength (zeros.drop start) ((zerosOnes n).drop 0)).Completes
      (64 - start) := by
    intro start hstart
    rw [zeros, drop_replicate, drop_zero]
    exact matchLength_zeros (Nat.sub_le 64 start) _
  have hstep : ∀ (start : ℕ) (rest : List ℕ) (best last : ℕ × ℕ), start ≤ 64 →
      (bestMatch zeros (zerosOnes n) 0 rest (if seedBytes ≤ 64 - start ∧
        (best.2 < 64 - start ∨ 64 - start = best.2 ∧ start < best.1) then (start, 64 - start)
        else best)).Completes last →
      (bestMatch zeros (zerosOnes n) 0 (start :: rest) best).Completes last := by
    intro start rest best last hstart hrest
    rw [bestMatch]
    exact (hmatch start hstart).bind hrest
  -- the first candidate agrees with all of the base, the later ones with less of it
  exact hstep 0 _ _ _ (by decide) <| hstep 16 _ _ _ (by decide) <| hstep 32 _ _ _ (by decide) <|
    hstep 48 _ _ _ (by decide) (.pure _)

theorem bestMatch_ones {target rest : List UInt8} {cursor : ℕ}
    (hdrop : target.drop cursor = 1 :: rest) (candidates : List ℕ) :
    (bestMatch zeros target cursor candidates (0, 0)).Completes (0, 0) := by
  induction candidates with
  | nil => exact .pure _
  | cons start later ih =>
    rw [bestMatch, hdrop, zeros, drop_replicate]
    exact (matchLength_ones _ _).bind ih

/-- **Over ones** the walk goes on to the end. -/
theorem scanTarget_ones (limit n : ℕ) (table : SeedTable) (w : Written) {cursor : ℕ}
    (hcursor : 64 ≤ cursor) :
    (scanTarget hash zeros (zerosOnes n) limit table w cursor 64).Completes (w, 64) := by
  have hlength : (zerosOnes n).length = 64 + n := by
    rw [zerosOnes, length_append, length_replicate]
    rfl
  induction hleft : (zerosOnes n).length - cursor using Nat.strong_induction_on
    generalizing cursor with
  | _ left ih =>
    rw [scanTarget]
    split_ifs with hroom
    · rw [seedBytes, hlength] at hroom
      have hdrop : (zerosOnes n).drop cursor = 1 :: List.replicate (64 + n - cursor - 1) 1 := by
        obtain ⟨k, rfl⟩ : ∃ k, cursor = 64 + k := ⟨cursor - 64, by omega⟩
        have hones : n - k = (64 + n - (64 + k) - 1) + 1 := by omega
        have hzeros : zeros.length = 64 := length_replicate
        rw [zerosOnes, ← drop_drop, drop_left' hzeros, drop_replicate,
          hones, replicate_succ]
      refine (Trial.Completes.charge _).bind ((bestMatch_ones hdrop _).bind ?_)
      rw [dif_pos rfl]
      exact ih _ (by omega) (by omega) rfl
    · exact .pure _

def zerosProgram (n : ℕ) : List Instruction := [.copy 0 64, .insert (List.replicate n 1)]

/-- **The builder on zeros and ones**, at any hash. -/
theorem build_zerosOnes (hash : List UInt8 → ℕ) (baseId : ObjectId) {n : ℕ} (hpos : 1 ≤ n)
    (hmost : n ≤ 65000) :
    (build hash baseId zeros (zerosOnes n)).Completes
      (deltaHeader baseId (64 + n) 2 ++ frames (zerosProgram n)) := by
  have hzeros : zeros.length = 64 := length_replicate
  have hlength : (zerosOnes n).length = 64 + n := by
    rw [zerosOnes, length_append, length_replicate, hzeros]
  have hgroup : groupLimit = 65536 := rfl
  have hlimit : min (64 + n + 1) groupLimit = 65 + n := by omega
  have hinputs : insist (!(zeros.isEmpty || decide (groupLimit < zeros.length) ||
      (zerosOnes n).isEmpty || decide (groupLimit < (zerosOnes n).length)))
      "pooled delta inputs" = .ok () := by
    rw [insist_eq_ok, hlength, hzeros, decide_eq_false (by omega), decide_eq_false (by omega)]
    rfl
  have hseed : bucket hash (seedAt (zerosOnes n) 0) = zerosBucket hash := by
    have htake : seedAt (zerosOnes n) 0 = List.replicate 16 0 := by
      rw [seedAt, drop_zero, zerosOnes, take_append_of_le_length (by decide)]
      decide
    rw [htake, zerosBucket]
  have hword : (0 : ℕ) < 2 ^ 32 ∧ 64 < 2 ^ 32 := by decide
  have hcopy := @instruction_completes (65 + n) (.copy 0 64)
    ⟨deltaHeader baseId (64 + n) 0, 0⟩ ⟨hword.1, by decide, hword.2⟩ (Nat.succ_ne_zero _).symm (by
      rw [length_deltaHeader, Instruction.length_frame_copy]
      omega)
  have hone : 1 ≠ recordCountLimit := by decide
  have hinsert := @instruction_completes (65 + n) (.insert (List.replicate n 1))
    ⟨deltaHeader baseId (64 + n) 0 ++ (Instruction.copy 0 64).frame, 1⟩
    (by rw [Instruction.Fits, length_replicate]; omega) hone (by
      rw [length_append, length_deltaHeader, Instruction.length_frame_copy,
        Instruction.length_frame_insert, length_replicate]
      omega)
  have hscan : (scanTarget hash zeros (zerosOnes n) (65 + n) (zerosTable hash)
      ⟨deltaHeader baseId (64 + n) 0, 0⟩ 0 0).Completes
      (⟨deltaHeader baseId (64 + n) 0 ++ (Instruction.copy 0 64).frame, 1⟩, 64) := by
    rw [scanTarget, dif_pos (by rw [seedBytes, hlength]; omega), hseed, zerosTable_bucket]
    refine (Trial.Completes.charge _).bind ((bestMatch_zeros n).bind ?_)
    rw [dif_neg (by decide), insertLiteral, if_neg (by decide)]
    exact (Trial.Completes.pure _).bind (hcopy.bind (scanTarget_ones hash _ n _ _ (le_refl _)))
  have hlast : (insertLiteral (65 + n) (zerosOnes n) 64 (64 + n)
      ⟨deltaHeader baseId (64 + n) 0 ++ (Instruction.copy 0 64).frame, 1⟩).Completes
      ⟨deltaHeader baseId (64 + n) 0 ++ frames (zerosProgram n), 2⟩ := by
    have hones : ((zerosOnes n).drop 64).take (64 + n - 64) = List.replicate n 1 := by
      rw [zerosOnes, drop_left' hzeros, Nat.add_sub_cancel_left, take_replicate, min_self]
    have hsize : 64 + n - 64 = (Instruction.insert (List.replicate n 1)).size := by
      rw [Instruction.size, length_replicate]
      omega
    have hframes : frames (zerosProgram n) =
        (Instruction.copy 0 64).frame ++ (Instruction.insert (List.replicate n 1)).frame := by
      rw [frames, zerosProgram, map_cons, map_singleton, flatten_cons,
        flatten_singleton]
    rw [insertLiteral, if_pos (by omega), hones, hsize, hframes, ← append_assoc]
    exact hinsert
  have hword : putU32 (64 + n) = .ok (le32 (64 + n)) := putU32_eq_ok.mpr ⟨by omega, rfl⟩
  have hzero : putU32 0 = .ok (le32 0) := rfl
  rw [build]
  refine (Trial.Completes.lift hinputs).bind ?_
  dsimp only
  rw [hlength, hlimit, if_neg (by omega)]
  refine (seedTable_zeros hash).bind <| (Trial.Completes.lift hword).bind <|
    (Trial.Completes.lift hzero).bind <| hscan.bind <| hlast.bind ?_
  rw [if_neg (Nat.succ_ne_zero 1), stamp_deltaHeader]
  exact .pure _

/-- One more byte than the base: the program is built, accepted and applied. -/
theorem build_parse_apply_one : ∃ budget record after,
    build (fun _ => 0) InodeCodec.zeroId zeros (zerosOnes 1) budget = .ok (some record, after) ∧
      ∃ count instructions, apply zeros instructions count 65 = .ok (zerosOnes 1) ∧
        parse record = .ok (.delta InodeCodec.zeroId 65 count instructions) := by
  obtain ⟨cost, hcost⟩ := build_zerosOnes (fun _ => 0) InodeCodec.zeroId (le_refl 1) (by decide)
  have hbuilt := hcost 0
  obtain ⟨hlength, count, instructions, happly, hparse⟩ :=
    (build_parse_apply fun _ => 0).1 _ _ _ _ _ _ hbuilt
  have htarget : (zerosOnes 1).length = 65 := by decide
  rw [htarget] at happly hparse hlength
  rw [if_pos (hlength.trans (by decide))] at hparse
  exact ⟨_, _, _, hbuilt, count, instructions, happly, hparse⟩

/-- A target of 10064 bytes: at any hash the builder returns a program of 10055 bytes, over the
record limit of the parser. -/
theorem build_over_record_limit : ¬ ∃ hash : List UInt8 → ℕ,
    ∀ baseId base target budget record after,
      build hash baseId base target budget = .ok (some record, after) →
        ∃ count instructions, parse record = .ok (.delta baseId target.length count instructions) ∧
          apply base instructions count target.length = .ok target := by
  rintro ⟨hash, hall⟩
  obtain ⟨cost, hcost⟩ := @build_zerosOnes hash InodeCodec.zeroId 10000 (by decide) (by decide)
  obtain ⟨count, instructions, hparse, -⟩ := hall _ _ _ _ _ _ (hcost 0)
  have hframes : (frames (zerosProgram 10000)).length = 10014 := by
    rw [frames, zerosProgram, map_cons, map_singleton, flatten_cons,
      flatten_singleton, length_append, Instruction.length_frame_copy,
      Instruction.length_frame_insert, length_replicate]
  have hsmall : 64 + 10000 < 2 ^ 32 ∧ 2 < 2 ^ 32 ∧ 10014 ≤ programLimit := by decide
  have hwide : ¬ 41 + 10014 ≤ metadataRecordLimit := by decide
  rw [parse_delta hsmall.1 hsmall.2.1 (hframes ▸ hsmall.2.2), hframes,
    decide_eq_false hwide] at hparse
  cases hparse

end Pool

end LayerFs
