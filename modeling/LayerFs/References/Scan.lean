import LayerFs.Object.InodeLeaf
import LayerFs.References.Reduce
import LayerFs.Support.Attempt
import LayerFs.Support.Overlay

/-!
# Runs, their readers and their merge (`references/merge.rs`, `references/backing.rs`)

A run is written once and read by scans, each with a bounded buffer of its own. Every call of the
backing may be refused, and what was done before stays done. The backing counts the bytes of the
runs it holds while they are written.

* `RunScan.next_ensures` — **a scan returns the rows that lie ahead**, one after another.
* `mergeRuns_ensures` — **a merge writes the newer rows over the older ones**, and refuses only
  what the backing refuses or a row that cannot be read back.
-/

namespace LayerFs.Tiered

open List

variable {Id : Type}

/-- The failures of the ordering runs. -/
inductive OrderingError where
  | content (e : ContentError)
  | invalidOrderingRecord (what : String)
  | io
  /-- a loop was not given the turns it needs; no call ends so -/
  | unfinished
  deriving DecidableEq, Repr

abbrev Entry (Id : Type) := ℕ × Row Id

/-! ## The backing -/

/-- The backing: which of its next calls it refuses, and the account of its bytes. -/
structure Backing where
  /-- the refusal of each call to come; beyond the list nothing is refused -/
  refusals : List (Option OrderingError)
  /-- bytes of the runs there are -/
  held : ℕ
  /-- bytes of the rows a spill is about, kept beside the runs -/
  pending : ℕ
  /-- the most there ever was of both -/
  peak : ℕ

namespace Backing

def call : Attempt Backing OrderingError Unit := fun backing =>
  match backing.refusals with
  | [] => (.ok (), backing)
  | none :: rest => (.ok (), { backing with refusals := rest })
  | some e :: rest => (.error e, { backing with refusals := rest })

def grow (bytes : ℕ) (backing : Backing) : Backing :=
  { backing with
    held := backing.held + bytes
    peak := max backing.peak (backing.held + bytes + backing.pending) }

/-- From here on so many bytes are pending. -/
def owe (bytes : ℕ) (backing : Backing) : Backing :=
  { backing with pending := bytes, peak := max backing.peak (backing.held + bytes) }

def giveBack (bytes : ℕ) (backing : Backing) : Backing :=
  { backing with held := backing.held - bytes }

/-- `OrderingRun::append`: one more row of a run. -/
def append : Attempt Backing OrderingError Unit := do
  Attempt.modify (grow rowBytes)
  call

end Backing

/-! ## Runs -/

/-- One immutable run of rows. -/
structure Run (Id : Type) where
  rows : List (Entry Id)
  count : ℕ
  first : ℕ
  last : ℕ

namespace Run

def bytes (run : Run Id) : ℕ := run.count * rowBytes

def ofRows (rows : List (Entry Id)) : Option (Run Id) :=
  rows.head?.map fun first =>
    ⟨rows, rows.length, first.1, (rows.getLast?.map Prod.fst).getD 0⟩

/-- `OrderingRun::read_at`: the rows at an offset, all of them or none. -/
def readAt (run : Run Id) (offset count : ℕ) : Attempt Backing OrderingError (List (Entry Id)) := do
  Backing.call
  Attempt.check (decide (offset + count ≤ run.rows.length)) .io
  return (run.rows.drop offset).take count

end Run

/-- What decoding checks of a typed value: inline metadata is valid for the kind. -/
def checkInline (value : InodeValue Id) : ContentResult Unit :=
  match value.metadataRoot with
  | .root _ => .ok ()
  | .inline metadata => metadata.validate value.kind

/-- `Row::decode` of `Row::encode`: a row is read back as it was written, unless its serial is zero
or its value has metadata that is not valid for its kind. -/
def reread (row : Entry Id) : Except OrderingError (Entry Id) :=
  if row.1 = 0 then .error (.invalidOrderingRecord "serial")
  else
    match row.2.value with
    | none => .ok row
    | some value =>
      match checkInline value with
      | .ok _ => .ok row
      | .error e => .error (.content e)

/-! ## Scans -/

/-- Buffered reader state over one run, in rows. -/
structure RunScan (Id : Type) where
  offset : ℕ
  remaining : ℕ
  room : ℕ
  buffer : List (Entry Id)
  consumed : ℕ

namespace RunScan

/-- `RunScan::new`. -/
def new (bufferBytes : ℕ) : RunScan Id := ⟨0, 0, max (bufferBytes / rowBytes) 1, [], 0⟩

/-- `RunReader::new`: a scan at the front of a run. -/
def reader (run : Run Id) (bufferBytes : ℕ) : RunScan Id :=
  { (new bufferBytes : RunScan Id) with remaining := run.count }

/-- `RunScan::start`. -/
def start (run : Run Id) (skipped : ℕ) (scan : RunScan Id) : Except OrderingError (RunScan Id) :=
  if run.count < skipped then .error (.invalidOrderingRecord "run seek past end")
  else .ok { scan with offset := skipped, remaining := run.count - skipped, buffer := [],
                       consumed := 0 }

/-- `RunScan::rewind`: puts the last row back. -/
def rewind (scan : RunScan Id) : RunScan Id :=
  if 1 ≤ scan.consumed then
    { scan with offset := scan.offset - 1, remaining := scan.remaining + 1,
                consumed := scan.consumed - 1 }
  else scan

def advance (scan : RunScan Id) : RunScan Id :=
  { scan with offset := scan.offset + 1, remaining := scan.remaining - 1,
              consumed := scan.consumed + 1 }

def fill (run : Run Id) : Attempt (RunScan Id × Backing) OrderingError Unit := do
  let scan := (← Attempt.get).1
  if scan.consumed = scan.buffer.length then do
    let rows ← (run.readAt scan.offset (min scan.remaining scan.room)).on Prod.snd
      fun state backing => (state.1, backing)
    Attempt.modify fun state => ({ state.1 with buffer := rows, consumed := 0 }, state.2)
  else return ()

/-- `RunScan::next`. -/
def next (run : Run Id) : Attempt (RunScan Id × Backing) OrderingError (Option (Entry Id)) := do
  let scan := (← Attempt.get).1
  if scan.remaining = 0 then return none
  else do
    fill run
    let scan := (← Attempt.get).1
    let bytes ← Attempt.demand scan.buffer[scan.consumed]? (.content .unexpectedEof)
    let row ← Attempt.lift (reread bytes)
    Attempt.modify fun state => (state.1.advance, state.2)
    return some row

end RunScan

/-! ## Merges -/

/-- A merge in progress. -/
structure Merging (Id : Type) where
  older : RunScan Id
  newer : RunScan Id
  old : Option (Entry Id)
  new : Option (Entry Id)
  written : List (Entry Id)
  backing : Backing

namespace Merging

def nextOlder (older : Run Id) : Attempt (Merging Id) OrderingError Unit := do
  let row ← (RunScan.next older).on (fun merging => (merging.older, merging.backing))
    fun merging state => { merging with older := state.1, backing := state.2 }
  Attempt.modify fun merging => { merging with old := row }

def nextNewer (newer : Run Id) : Attempt (Merging Id) OrderingError Unit := do
  let row ← (RunScan.next newer).on (fun merging => (merging.newer, merging.backing))
    fun merging state => { merging with newer := state.1, backing := state.2 }
  Attempt.modify fun merging => { merging with new := row }

def writeRow (row : Entry Id) : Attempt (Merging Id) OrderingError Unit := do
  Backing.append.on Merging.backing fun merging backing => { merging with backing := backing }
  Attempt.modify fun merging => { merging with written := merging.written ++ [row] }

/-- Passes over the older row when it has the serial of the newer one. -/
def passOlder (older : Run Id) (same : Bool) : Attempt (Merging Id) OrderingError Unit :=
  if same then nextOlder older else pure ()

def takeOld (older : Run Id) (old : Entry Id) : Attempt (Merging Id) OrderingError Bool := do
  nextOlder older
  writeRow old
  return true

def takeNew (older newer : Run Id) (new : Entry Id) :
    Attempt (Merging Id) OrderingError Bool := do
  let merging ← Attempt.get
  passOlder older (merging.old.any fun old => old.1 == new.1)
  nextNewer newer
  writeRow new
  return true

/-- One turn: the row with the lesser serial is written; of two with one serial, the newer. -/
def turn (older newer : Run Id) : Attempt (Merging Id) OrderingError Bool := do
  let merging ← Attempt.get
  match merging.old, merging.new with
  | none, none => return false
  | some old, none => takeOld older old
  | none, some new => takeNew older newer new
  | some old, some new => if new.1 ≤ old.1 then takeNew older newer new else takeOld older old

/-- The turns until both runs are at their ends. Each turn takes a row of one of them. -/
def turns (older newer : Run Id) : ℕ → Attempt (Merging Id) OrderingError Unit
  | 0 => Attempt.fail .unfinished
  | n + 1 => do
    let more ← turn older newer
    if more then turns older newer n else return ()

end Merging

/-- `merge_runs`: merges one older and one newer run into a fresh run. -/
def mergeRuns (bufferBytes : ℕ) (older newer : Run Id) : Attempt Backing OrderingError (Run Id) :=
  Attempt.on (fun backing => (⟨.reader older bufferBytes, .reader newer bufferBytes, none, none, [],
      backing⟩ : Merging Id)) (fun _ merging => merging.backing) do
    Attempt.check (decide (older.count + newer.count < u64Bound)) (.content .lengthOverflow)
    let call := Backing.call.on Merging.backing fun merging backing =>
      { merging with backing := backing }
    -- `create_run`
    call
    Merging.nextOlder older
    Merging.nextNewer newer
    Merging.turns older newer (older.count + newer.count + 1)
    -- `flush`
    call
    let merging ← Attempt.get
    Attempt.check (decide (merging.written.length ≤ older.count + newer.count))
      (.invalidOrderingRecord "merge rows")
    Attempt.demand (Run.ofRows merging.written) (.invalidOrderingRecord "empty merge")

/-! ## The account -/

namespace Backing

variable {backing later last : Backing} {n k : ℕ}

def Serves (backing : Backing) : Prop := ∀ refusal ∈ backing.refusals, refusal = none

/-- So many rows were written. -/
structure Wrote (rows : ℕ) (backing later : Backing) : Prop where
  refusals : later.refusals <:+ backing.refusals
  held : later.held = backing.held + rows * rowBytes
  pending : later.pending = backing.pending
  peak : later.peak ≤ max backing.peak (backing.held + rows * rowBytes + backing.pending)

/-- At most so many rows were written, or begun. -/
structure Tried (rows : ℕ) (backing later : Backing) : Prop where
  refusals : later.refusals <:+ backing.refusals
  pending : later.pending = backing.pending
  peak : later.peak ≤ max backing.peak (backing.held + rows * rowBytes + backing.pending)

theorem Serves.suffix (h : backing.Serves) (hlater : later.refusals <:+ backing.refusals) :
    later.Serves := fun refusal hrefusal => h refusal (hlater.subset hrefusal)

theorem Wrote.refl (backing : Backing) : backing.Wrote 0 backing :=
  ⟨suffix_refl _, by omega, rfl, by omega⟩

theorem Wrote.trans (h : backing.Wrote n later) (h' : later.Wrote k last) :
    backing.Wrote (n + k) last := by
  have hheld := h.held
  have hheld' := h'.held
  have hpeak := h.peak
  have hpeak' := h'.peak
  rw [hheld] at hheld' hpeak'
  rw [h.pending] at hpeak'
  refine ⟨h'.refusals.trans h.refusals, ?_, h'.pending.trans h.pending, ?_⟩
  · rw [hheld', Nat.add_mul, Nat.add_assoc]
  · rw [Nat.add_mul]
    omega

theorem Wrote.tried_of (h : backing.Wrote n later) (h' : later.Tried k last) {total : ℕ}
    (htotal : n + k ≤ total) : backing.Tried total last := by
  have hheld := h.held
  have hpeak := h.peak
  have hpeak' := h'.peak
  rw [hheld, h.pending] at hpeak'
  have hrows : n * rowBytes + k * rowBytes ≤ total * rowBytes := by
    rw [← Nat.add_mul]
    exact Nat.mul_le_mul_right rowBytes htotal
  exact ⟨h'.refusals.trans h.refusals, h'.pending.trans h.pending, by omega⟩

theorem Tried.mono (h : backing.Tried n later) (hn : n ≤ k) : backing.Tried k later := by
  have hpeak := h.peak
  have hrows := Nat.mul_le_mul_right rowBytes hn
  exact ⟨h.refusals, h.pending, by omega⟩

theorem Wrote.tried (h : backing.Wrote n later) : backing.Tried n later :=
  ⟨h.refusals, h.pending, h.peak⟩

theorem call_ensures (backing : Backing) :
    call.Ensures backing (fun _ later => backing.Wrote 0 later)
      fun _ later => backing.Tried 0 later ∧ ¬ backing.Serves := by
  obtain ⟨refusals, held, pending, peak⟩ := backing
  have hkept : ∀ rest, rest <:+ refusals →
      Wrote 0 ⟨refusals, held, pending, peak⟩ ⟨rest, held, pending, peak⟩ := fun rest hrest =>
    ⟨hrest, (Wrote.refl _).held, rfl, (Wrote.refl ⟨refusals, held, pending, peak⟩).peak⟩
  rcases refusals with _ | ⟨_ | e, rest⟩
  · exact hkept [] (suffix_refl _)
  · exact hkept rest (suffix_cons _ _)
  · have htried := hkept rest (suffix_cons _ _)
    refine ⟨htried.tried, fun hserves => ?_⟩
    cases hserves (some e) mem_cons_self

theorem append_ensures (backing : Backing) :
    append.Ensures backing (fun _ later => backing.Wrote 1 later)
      fun _ later => backing.Tried 1 later ∧ ¬ backing.Serves := by
  have hgrown : backing.Wrote 1 (grow rowBytes backing) :=
    ⟨suffix_refl _, by rw [grow, Nat.one_mul], rfl, by rw [grow, Nat.one_mul]⟩
  refine Attempt.ensures_bind_iff.mpr (Attempt.ensures_modify_iff.mpr ?_)
  refine (call_ensures _).mono (fun _ later hlater => hgrown.trans hlater) ?_
  exact fun _ later hlater => ⟨hgrown.tried_of hlater.1 (Nat.le_refl _), hlater.2⟩

end Backing

/-! ## Reading -/

namespace Run

variable {run : Run Id}

/-- A run as it was written. -/
structure Valid (run : Run Id) : Prop where
  written : ofRows run.rows = some run
  ascending : Ascending run.rows

theorem Valid.count_eq (h : run.Valid) : run.count = run.rows.length := by
  obtain ⟨first, -, hrun⟩ := Option.map_eq_some_iff.mp h.written
  rw [← hrun]

theorem Valid.rows_ne_nil (h : run.Valid) : run.rows ≠ [] := by
  intro hnil
  have hwritten := h.written
  rw [hnil] at hwritten
  cases hwritten

theorem Valid.within (h : run.Valid) {row : Entry Id} (hrow : row ∈ run.rows) :
    run.first ≤ row.1 ∧ row.1 ≤ run.last := by
  obtain ⟨first, hfirst, hrun⟩ := Option.map_eq_some_iff.mp h.written
  obtain ⟨rest, hrest⟩ : ∃ rest, run.rows = first :: rest := by
    obtain ⟨head, rest, hrest⟩ := exists_cons_of_ne_nil h.rows_ne_nil
    rw [hrest] at hfirst
    cases hfirst
    exact ⟨rest, hrest⟩
  have hascending := h.ascending
  have hle : ∀ other ∈ run.rows.getLast?, row.1 ≤ other.1 := by
    intro other hother
    obtain ⟨before, hbefore⟩ := getLast?_eq_some_iff.mp hother
    rw [hbefore] at hascending hrow
    rcases mem_append.mp hrow with hrow | hrow
    · exact ((pairwise_append.mp hascending).2.2 row hrow other mem_cons_self).le
    · rw [mem_singleton.mp hrow]
  rw [← hrun]
  refine ⟨?_, ?_⟩
  · rw [hrest] at hascending hrow
    exact hascending.head_le hrow
  · cases hlast : run.rows.getLast? with
    | none => exact absurd (getLast?_eq_none_iff.mp hlast) h.rows_ne_nil
    | some other => exact hle other hlast

theorem readAt_ensures {offset count : ℕ} (h : offset + count ≤ run.rows.length)
    (backing : Backing) :
    (run.readAt offset count).Ensures backing
      (fun rows later => rows = (run.rows.drop offset).take count ∧ backing.Wrote 0 later)
      fun _ later => backing.Tried 0 later ∧ ¬ backing.Serves := by
  refine (Backing.call_ensures backing).bind fun _ later hlater => ?_
  refine Attempt.ensures_bind_iff.mpr (Attempt.Ensures.check (fun _ => ⟨rfl, hlater⟩) fun hfalse => ?_)
  exact absurd (decide_eq_true h) (by rw [hfalse]; exact Bool.false_ne_true)

end Run

def Readable (row : Entry Id) : Prop := reread row = .ok row

theorem reread_eq_ok {row found : Entry Id} (h : reread row = .ok found) :
    found = row ∧ Readable row := by
  have hsame : found = row := by
    rw [reread] at h
    split_ifs at h
    cases hvalue : row.2.value with
    | none =>
      rw [hvalue] at h
      exact (Except.ok.inj h).symm
    | some value =>
      rw [hvalue] at h
      cases hcheck : checkInline value with
      | ok _ =>
        simp only [hcheck] at h
        exact (Except.ok.inj h).symm
      | error e =>
        simp only [hcheck] at h
        cases h
  exact ⟨hsame, hsame ▸ h⟩

namespace RunScan

variable {run : Run Id} {scan : RunScan Id} {rest : List (Entry Id)}

/-- **The rows ahead** of a scan are those it has still to return. -/
structure Ahead (run : Run Id) (scan : RunScan Id) (rest : List (Entry Id)) : Prop where
  rest_eq : run.rows.drop scan.offset = rest
  remaining : scan.remaining = rest.length
  room : 0 < scan.room
  consumed_le : scan.consumed ≤ scan.buffer.length
  buffered : scan.buffer.drop scan.consumed <+: rest

theorem reader_ahead (h : run.Valid) (bufferBytes : ℕ) :
    Ahead run (reader run bufferBytes) run.rows where
  rest_eq := rfl
  remaining := h.count_eq
  room := Nat.lt_of_lt_of_le Nat.zero_lt_one (Nat.le_max_right _ _)
  consumed_le := Nat.le_refl _
  buffered := nil_prefix

theorem start_ahead (h : run.Valid) (hroom : 0 < scan.room) :
    ∃ started, start run 0 scan = .ok started ∧ started.room = scan.room ∧
      Ahead run started run.rows :=
  ⟨_, if_neg (Nat.not_lt_zero _), rfl, rfl, h.count_eq, hroom, Nat.le_refl _, nil_prefix⟩

theorem Ahead.advance (h : Ahead run scan rest) (hbuffer : scan.buffer.drop scan.consumed ≠ []) :
    Ahead run scan.advance rest.tail where
  rest_eq := by rw [← h.rest_eq, tail_drop]; rfl
  remaining := by rw [length_tail, ← h.remaining]; rfl
  room := h.room
  consumed_le := Nat.lt_of_not_le fun hle => hbuffer (drop_eq_nil_of_le hle)
  buffered := by
    have htail : scan.advance.buffer.drop scan.advance.consumed
        = (scan.buffer.drop scan.consumed).tail := tail_drop.symm
    rw [htail]
    obtain ⟨more, hmore⟩ := h.buffered
    refine ⟨more, ?_⟩
    rw [← hmore, tail_append_of_ne_nil hbuffer]

theorem rewind_advance (hremaining : scan.remaining ≠ 0) : scan.advance.rewind = scan := by
  obtain ⟨offset, remaining, room, buffer, consumed⟩ := scan
  rw [rewind, advance, if_pos (Nat.le_add_left _ _)]
  simp only [Nat.add_sub_cancel, mk.injEq, true_and, and_true]
  exact Nat.sub_add_cancel (Nat.pos_of_ne_zero hremaining)

theorem fill_ensures (h : Ahead run scan rest) (hrest : rest ≠ []) (backing : Backing) :
    (fill run).Ensures (scan, backing)
      (fun _ later => Ahead run later.1 rest ∧ later.1.buffer.drop later.1.consumed ≠ [] ∧
        later.1.remaining ≠ 0 ∧ backing.Wrote 0 later.2)
      fun _ later => later.1 = scan ∧ backing.Tried 0 later.2 ∧ ¬ backing.Serves := by
  have hremaining : scan.remaining ≠ 0 := by
    rw [h.remaining]
    exact length_eq_zero_iff.not.mpr hrest
  refine Attempt.ensures_bind_iff.mpr (Attempt.ensures_get_iff.mpr ?_)
  dsimp only
  split_ifs with hfull
  · have hlength : scan.offset + min scan.remaining scan.room ≤ run.rows.length := by
      have hdrop := congrArg List.length h.rest_eq
      rw [length_drop, ← h.remaining] at hdrop
      omega
    refine Attempt.ensures_bind_iff.mpr (Attempt.ensures_on_iff.mpr ?_)
    refine (Run.readAt_ensures hlength backing).mono ?_ fun _ _ hlater => ⟨rfl, hlater⟩
    rintro rows later ⟨hrows, hlater⟩
    rw [h.rest_eq] at hrows
    refine Attempt.ensures_modify_iff.mpr ⟨⟨h.rest_eq, h.remaining, h.room, Nat.zero_le _, ?_⟩, ?_,
      hremaining, hlater⟩
    · exact hrows ▸ take_prefix _ _
    · have hpos : 0 < min scan.remaining scan.room :=
        Nat.lt_min.mpr ⟨Nat.pos_of_ne_zero hremaining, h.room⟩
      change rows ≠ []
      rw [hrows, Ne, take_eq_nil_iff]
      exact not_or.mpr ⟨Nat.pos_iff_ne_zero.mp hpos, hrest⟩
  · refine Attempt.ensures_pure_iff.mpr ⟨h, fun hnil => hfull ?_, hremaining, .refl _⟩
    exact Nat.le_antisymm h.consumed_le (drop_eq_nil_iff.mp hnil)

/-- **A scan returns the row ahead**, and rewound stands before it again, as it does when it
fails. -/
theorem next_ensures (h : Ahead run scan rest) (backing : Backing) :
    (next run).Ensures (scan, backing)
      (fun row later => row = rest.head? ∧ Ahead run later.1 rest.tail ∧
        (rest ≠ [] → Ahead run later.1.rewind rest) ∧ (∀ row ∈ rest.head?, Readable row) ∧
        backing.Wrote 0 later.2)
      fun _ later => Ahead run later.1 rest ∧ backing.Tried 0 later.2 ∧
        (backing.Serves → ∃ row ∈ rest.head?, ¬ Readable row) := by
  refine Attempt.ensures_bind_iff.mpr (Attempt.ensures_get_iff.mpr ?_)
  cases rest with
  | nil =>
    have hnone : scan.remaining = 0 := h.remaining
    rw [if_pos hnone]
    refine ⟨rfl, h, fun hne => absurd rfl hne, ?_, .refl _⟩
    rintro _ ⟨⟩
  | cons row rest =>
    have hsome : scan.remaining ≠ 0 := by
      rw [h.remaining]
      exact Nat.succ_ne_zero _
    rw [if_neg hsome]
    refine Attempt.ensures_bind_iff.mpr ((fill_ensures h (cons_ne_nil _ _) backing).mono ?_
      fun _ _ hlater => ⟨hlater.1 ▸ h, hlater.2.1, fun hserves => absurd hserves hlater.2.2⟩)
    rintro - ⟨filled, later⟩ ⟨hahead, hbuffer, hremaining, hlater⟩
    refine Attempt.ensures_bind_iff.mpr (Attempt.ensures_get_iff.mpr ?_)
    have hhead : filled.buffer[filled.consumed]? = some row := by
      obtain ⟨more, hmore⟩ := hahead.buffered
      obtain ⟨first, buffer, hfirst⟩ := exists_cons_of_ne_nil hbuffer
      dsimp only at hmore hfirst
      rw [hfirst] at hmore
      rw [← head?_drop, hfirst, (List.cons.inj hmore).1]
      rfl
    refine Attempt.ensures_bind_iff.mpr (Attempt.Ensures.demand ?_ fun hnone => ?_)
    · rintro found hfound
      cases hhead.symm.trans hfound
      refine Attempt.ensures_bind_iff.mpr (Attempt.Ensures.lift ?_ ?_)
      · intro found hread
        obtain ⟨rfl, hreadable⟩ := reread_eq_ok hread
        refine Attempt.ensures_bind_iff.mpr (Attempt.ensures_modify_iff.mpr ?_)
        refine ⟨rfl, hahead.advance hbuffer, fun _ => ?_, ?_, hlater⟩
        · exact (rewind_advance hremaining).symm ▸ hahead
        · rintro _ ⟨⟩
          exact hreadable
      · refine fun e hread => ⟨hahead, hlater.tried, fun _ => ⟨row, rfl, fun hok => ?_⟩⟩
        cases hread.symm.trans hok
    · cases hhead.symm.trans hnone

end RunScan

/-! ## Merging -/

namespace Merging

variable {older newer : Run Id} {merging : Merging Id} {lower upper : List (Entry Id)}

/-- The older rows still to be merged, and the newer ones: the first of each was read. -/
structure Stands (older newer : Run Id) (merging : Merging Id) (lower upper : List (Entry Id)) :
    Prop where
  old : merging.old = lower.head?
  older : RunScan.Ahead older merging.older lower.tail
  new : merging.new = upper.head?
  newer : RunScan.Ahead newer merging.newer upper.tail

/-- A refusal while so many rows may be written: the backing's, or of a row of these. -/
def Refused (rows : ℕ) (read : List (Entry Id)) (backing : Backing) (later : Backing) : Prop :=
  backing.Tried rows later ∧ (backing.Serves → ∃ row ∈ read, ¬ Readable row)

theorem Refused.after {n k : ℕ} {read all : List (Entry Id)} {backing later last : Backing}
    (h : Refused k read later last) (hwrote : backing.Wrote n later) {total : ℕ}
    (htotal : n + k ≤ total) (hread : ∀ row ∈ read, row ∈ all) : Refused total all backing last := by
  refine ⟨hwrote.tried_of h.1 htotal, fun hserves => ?_⟩
  obtain ⟨row, hrow, hunreadable⟩ := h.2 (hserves.suffix hwrote.refusals)
  exact ⟨row, hread row hrow, hunreadable⟩

theorem nextOlder_ensures {rest : List (Entry Id)} (h : RunScan.Ahead older merging.older rest) :
    (nextOlder older).Ensures merging
      (fun _ later => later.old = rest.head? ∧ RunScan.Ahead older later.older rest.tail ∧
        later.new = merging.new ∧ later.newer = merging.newer ∧ later.written = merging.written ∧
        merging.backing.Wrote 0 later.backing)
      fun _ later => Refused 0 rest merging.backing later.backing := by
  refine Attempt.ensures_bind_iff.mpr (Attempt.ensures_on_iff.mpr ?_)
  refine (RunScan.next_ensures h merging.backing).mono ?_ ?_
  · rintro row later ⟨hrow, hahead, -, -, hlater⟩
    exact ⟨hrow, hahead, rfl, rfl, rfl, hlater⟩
  · rintro e later ⟨-, htried, hrefused⟩
    refine ⟨htried, fun hserves => ?_⟩
    obtain ⟨row, hrow, hunreadable⟩ := hrefused hserves
    exact ⟨row, mem_of_head? hrow, hunreadable⟩

theorem nextNewer_ensures {rest : List (Entry Id)} (h : RunScan.Ahead newer merging.newer rest) :
    (nextNewer newer).Ensures merging
      (fun _ later => later.new = rest.head? ∧ RunScan.Ahead newer later.newer rest.tail ∧
        later.old = merging.old ∧ later.older = merging.older ∧ later.written = merging.written ∧
        merging.backing.Wrote 0 later.backing)
      fun _ later => Refused 0 rest merging.backing later.backing := by
  refine Attempt.ensures_bind_iff.mpr (Attempt.ensures_on_iff.mpr ?_)
  refine (RunScan.next_ensures h merging.backing).mono ?_ ?_
  · rintro row later ⟨hrow, hahead, -, -, hlater⟩
    exact ⟨hrow, hahead, rfl, rfl, rfl, hlater⟩
  · rintro e later ⟨-, htried, hrefused⟩
    refine ⟨htried, fun hserves => ?_⟩
    obtain ⟨row, hrow, hunreadable⟩ := hrefused hserves
    exact ⟨row, mem_of_head? hrow, hunreadable⟩

theorem writeRow_ensures (row : Entry Id) (merging : Merging Id) :
    (writeRow row).Ensures merging
      (fun _ later => later.old = merging.old ∧ later.older = merging.older ∧
        later.new = merging.new ∧ later.newer = merging.newer ∧
        later.written = merging.written ++ [row] ∧ merging.backing.Wrote 1 later.backing)
      fun _ later => Refused 1 ([] : List (Entry Id)) merging.backing later.backing := by
  refine Attempt.ensures_bind_iff.mpr (Attempt.ensures_on_iff.mpr ?_)
  refine (Backing.append_ensures merging.backing).mono ?_ ?_
  · exact fun _ later hlater => ⟨rfl, rfl, rfl, rfl, rfl, hlater⟩
  · exact fun e later hlater => ⟨hlater.1, fun hserves => absurd hserves hlater.2⟩

/-- What a turn did: it wrote the first row of the overlay, or there was none. -/
def Turned (older newer : Run Id) (merging : Merging Id) (lower upper : List (Entry Id))
    (more : Bool) (later : Merging Id) : Prop :=
  (more = false ∧ lower = [] ∧ upper = [] ∧ later = merging) ∨
  (more = true ∧ ∃ row lower' upper', Stands older newer later lower' upper' ∧
    lower' <:+ lower ∧ upper' <:+ upper ∧
    lower'.length + upper'.length < lower.length + upper.length ∧
    overlayRows upper lower = row :: overlayRows upper' lower' ∧
    later.written = merging.written ++ [row] ∧ merging.backing.Wrote 1 later.backing)

theorem takeOld_ensures {old : Entry Id} (h : Stands older newer merging (old :: lower) upper)
    (hfirst : overlayRows upper (old :: lower) = old :: overlayRows upper lower) :
    (takeOld older old).Ensures merging (Turned older newer merging (old :: lower) upper)
      fun _ later => Refused 1 (old :: lower ++ upper) merging.backing later.backing := by
  refine Attempt.ensures_bind_iff.mpr ((nextOlder_ensures h.older).mono ?_ fun e later hlater =>
    hlater.after (.refl _) (by omega) fun row hrow =>
      mem_append_left _ (mem_cons_of_mem _ hrow))
  rintro - read ⟨hold, hahead, hnew, hnewer, hwritten, hread⟩
  refine Attempt.ensures_bind_iff.mpr ((writeRow_ensures old read).mono ?_ fun e later hlater =>
    hlater.after hread (by omega) fun row hrow => absurd hrow not_mem_nil)
  rintro - later ⟨hold', holder', hnew', hnewer', hwritten', hwrote⟩
  refine .inr ⟨rfl, old, lower, upper, ⟨?_, ?_, ?_, ?_⟩, suffix_cons _ _, suffix_refl _,
    ?_, hfirst, ?_, (Nat.zero_add 1) ▸ hread.trans hwrote⟩
  · exact hold'.trans hold
  · exact holder' ▸ hahead
  · exact (hnew'.trans hnew).trans h.new
  · rw [hnewer', hnewer]
    exact h.newer
  · rw [length_cons]
    omega
  · rw [hwritten', hwritten]

theorem passOlder_ensures (h : Stands older newer merging lower upper) (same : Bool) :
    (passOlder older same).Ensures merging
      (fun _ later => later.old = (if same then lower.tail else lower).head? ∧
        RunScan.Ahead older later.older (if same then lower.tail else lower).tail ∧
        later.new = merging.new ∧ later.newer = merging.newer ∧ later.written = merging.written ∧
        merging.backing.Wrote 0 later.backing)
      fun _ later => Refused 0 lower merging.backing later.backing := by
  cases same with
  | false => exact ⟨h.old, h.older, rfl, rfl, rfl, .refl _⟩
  | true =>
    exact (nextOlder_ensures h.older).mono (fun _ _ hlater => hlater) fun e later hlater =>
      hlater.after (.refl _) (Nat.le_refl _) fun row hrow => mem_of_mem_tail hrow

theorem takeNew_ensures {new : Entry Id} {lower' : List (Entry Id)}
    (h : Stands older newer merging lower (new :: upper))
    (hlower : (if lower.head?.any fun old => old.1 == new.1 then lower.tail else lower) = lower')
    (hfirst : overlayRows (new :: upper) lower = new :: overlayRows upper lower') :
    (takeNew older newer new).Ensures merging (Turned older newer merging lower (new :: upper))
      fun _ later => Refused 1 (lower ++ new :: upper) merging.backing later.backing := by
  have hsuffix : lower' <:+ lower := by
    rw [← hlower]
    split_ifs
    · exact tail_suffix _
    · exact suffix_refl _
  refine Attempt.ensures_bind_iff.mpr (Attempt.ensures_get_iff.mpr ?_)
  rw [h.old]
  refine Attempt.ensures_bind_iff.mpr ((passOlder_ensures h _).mono ?_ fun e later hlater =>
    hlater.after (.refl _) (by omega) fun row hrow => mem_append_left _ hrow)
  rw [hlower]
  rintro - passed ⟨hold, holder, hnew, hnewer, hwritten, hpassed⟩
  have hahead : RunScan.Ahead newer passed.newer upper := hnewer ▸ h.newer
  refine Attempt.ensures_bind_iff.mpr ((nextNewer_ensures hahead).mono ?_ fun e later hlater =>
    hlater.after hpassed (by omega) fun row hrow =>
      mem_append_right _ (mem_cons_of_mem _ hrow))
  rintro - read ⟨hnew', hnewer', hold', holder', hwritten', hread⟩
  refine Attempt.ensures_bind_iff.mpr ((writeRow_ensures new read).mono ?_ fun e later hlater =>
    hlater.after (hpassed.trans hread) (by omega) fun row hrow => absurd hrow not_mem_nil)
  rintro - later ⟨hold'', holder'', hnew'', hnewer'', hwritten'', hwrote⟩
  refine .inr ⟨rfl, new, lower', upper, ⟨?_, ?_, ?_, ?_⟩, hsuffix, suffix_cons _ _, ?_, hfirst,
    ?_, (Nat.zero_add 1) ▸ (hpassed.trans hread).trans hwrote⟩
  · exact (hold''.trans hold').trans hold
  · rw [holder'', holder']
    exact holder
  · exact hnew''.trans hnew'
  · rw [hnewer'']
    exact hnewer'
  · have hlength := hsuffix.length_le
    rw [length_cons]
    omega
  · rw [hwritten'', hwritten', hwritten]

/-- **One turn** writes the first row of the newer rows over the older ones. -/
theorem turn_ensures (h : Stands older newer merging lower upper) (hlower : Ascending lower)
    (hupper : Ascending upper) :
    (turn older newer).Ensures merging (Turned older newer merging lower upper)
      fun _ later => Refused 1 (lower ++ upper) merging.backing later.backing := by
  refine Attempt.ensures_bind_iff.mpr (Attempt.ensures_get_iff.mpr ?_)
  rw [h.old, h.new]
  rcases lower with _ | ⟨old, lower⟩
  · rcases upper with _ | ⟨new, upper⟩
    · exact .inl ⟨rfl, rfl, rfl, rfl⟩
    · refine takeNew_ensures h rfl ?_
      rw [overlayRows_nil_right hupper]
      exact congrArg _ (overlayRows_nil_right hupper.tail).symm
  · rcases upper with _ | ⟨new, upper⟩
    · exact takeOld_ensures h rfl
    · dsimp only [head?_cons]
      split_ifs with hle
      · refine takeNew_ensures h rfl ?_
        by_cases hsame : old.1 = new.1
        · rw [if_pos (by simp [hsame])]
          exact overlayRows_cons_same hupper hlower hsame.symm
        · rw [if_neg (by simp [hsame])]
          have hlt : new.1 < old.1 := lt_of_le_of_ne hle (Ne.symm hsame)
          exact overlayRows_cons_lt hupper hlower fun row hrow => hlt.trans_le (hlower.head_le hrow)
      · refine takeOld_ensures h (overlayRows_cons_gt hupper hlower fun row hrow => ?_)
        exact (not_le.mp hle).trans_le (hupper.head_le hrow)

/-- **The turns** write the newer rows over the older ones. -/
theorem turns_ensures {n : ℕ} : ∀ {merging : Merging Id} {lower upper : List (Entry Id)},
    Stands older newer merging lower upper → Ascending lower → Ascending upper →
    lower.length + upper.length < n →
    (turns older newer n).Ensures merging
      (fun _ later => later.written = merging.written ++ overlayRows upper lower ∧
        merging.backing.Wrote (overlayRows upper lower).length later.backing)
      fun _ later => Refused (overlayRows upper lower).length (lower ++ upper) merging.backing
        later.backing := by
  induction n with
  | zero => exact fun _ _ _ hn => absurd hn (Nat.not_lt_zero _)
  | succ n ih =>
    intro merging lower upper h hlower hupper hn
    by_cases hdone : lower = [] ∧ upper = []
    · obtain ⟨rfl, rfl⟩ := hdone
      have hturn : (turn older newer).Ensures merging
          (fun more later => more = false ∧ later = merging) fun _ _ => False := by
        refine Attempt.ensures_bind_iff.mpr (Attempt.ensures_get_iff.mpr ?_)
        rw [h.old, h.new]
        exact ⟨rfl, rfl⟩
      refine Attempt.ensures_bind_iff.mpr (hturn.mono ?_ fun _ _ hfalse => hfalse.elim)
      rintro _ _ ⟨rfl, rfl⟩
      exact ⟨(append_nil _).symm, .refl _⟩
    · have hrow : 1 ≤ (overlayRows upper lower).length := by
        refine length_pos_of_ne_nil fun hnil => hdone ?_
        have hnone : ∀ key, lower.lookup key = none ∧ upper.lookup key = none := fun key => by
          have hkey := lookup_overlayRows hupper hlower key
          rw [hnil, lookup_nil, eq_comm, Option.or_eq_none_iff] at hkey
          exact hkey.symm
        exact ⟨hlower.ext ascending_nil fun key => (hnone key).1,
          hupper.ext ascending_nil fun key => (hnone key).2⟩
      refine Attempt.ensures_bind_iff.mpr ((turn_ensures h hlower hupper).mono ?_ fun e later hlater =>
        hlater.after (.refl _) (by omega) fun _ hmem => hmem)
      rintro more turned (⟨-, hlow, hup, -⟩ | ⟨rfl, row, lower', upper', hstands, hlower', hupper',
        hless, hfirst, hwritten, hwrote⟩)
      · exact absurd ⟨hlow, hup⟩ hdone
      · rw [if_pos rfl, hfirst, length_cons]
        refine (ih hstands (hlower.sublist hlower'.sublist) (hupper.sublist hupper'.sublist)
          (by omega)).mono ?_ fun e later hlater => hlater.after hwrote (by omega) fun row hmem => ?_
        · rintro - later ⟨hlater, hrows⟩
          refine ⟨?_, (Nat.add_comm 1 _) ▸ hwrote.trans hrows⟩
          rw [hlater, hwritten, append_assoc]
          rfl
        · exact (mem_append.mp hmem).elim
            (fun hmem => mem_append_left _ (hlower'.subset hmem))
            fun hmem => mem_append_right _ (hupper'.subset hmem)

end Merging

theorem Run.ofRows_overlayRows {older newer : Run Id} (holder : older.Valid) (hnewer : newer.Valid) :
    ∃ run, Run.ofRows (overlayRows newer.rows older.rows) = some run ∧ run.Valid ∧
      run.rows = overlayRows newer.rows older.rows := by
  have hrows : overlayRows newer.rows older.rows ≠ [] := by
    intro hnil
    obtain ⟨row, rest, hrow⟩ := exists_cons_of_ne_nil hnewer.rows_ne_nil
    have hkey := lookup_overlayRows hnewer.ascending holder.ascending row.1
    rw [hnil, hrow, lookup_cons_eq, if_pos rfl] at hkey
    cases hkey
  obtain ⟨row, rest, hrow⟩ := exists_cons_of_ne_nil hrows
  have hrun : ∃ run, Run.ofRows (overlayRows newer.rows older.rows) = some run ∧
      run.rows = overlayRows newer.rows older.rows := by
    rw [Run.ofRows, hrow]
    exact ⟨_, rfl, rfl⟩
  obtain ⟨run, hrun, hsame⟩ := hrun
  exact ⟨run, hrun, ⟨hsame ▸ hrun, hsame ▸ ascending_overlayRows holder.ascending⟩, hsame⟩

/-- **A merge writes the newer rows over the older ones.** It refuses what the backing refuses, a
row that cannot be read back, and counts no number holds. -/
theorem mergeRuns_ensures {older newer : Run Id} (holder : older.Valid) (hnewer : newer.Valid)
    (bufferBytes : ℕ) (backing : Backing) :
    (mergeRuns bufferBytes older newer).Ensures backing
      (fun run later => run.Valid ∧ run.rows = overlayRows newer.rows older.rows ∧
        backing.Wrote run.rows.length later)
      fun _ later => backing.Tried (overlayRows newer.rows older.rows).length later ∧
        (backing.Serves → (∃ row ∈ older.rows ++ newer.rows, ¬ Readable row) ∨
          u64Bound ≤ older.count + newer.count) := by
  refine Attempt.ensures_on_iff.mpr ?_
  have hcall : ∀ merging : Merging Id, (Backing.call.on Merging.backing fun merging backing =>
      { merging with backing := backing }).Ensures merging
      (fun _ later => later.older = merging.older ∧ later.newer = merging.newer ∧
        later.written = merging.written ∧ merging.backing.Wrote 0 later.backing)
      fun _ later => Merging.Refused 0 ([] : List (Entry Id)) merging.backing later.backing :=
    fun merging => Attempt.ensures_on_iff.mpr <| (Backing.call_ensures merging.backing).mono
      (fun _ _ hlater => ⟨rfl, rfl, rfl, hlater⟩) fun _ _ hlater =>
        ⟨hlater.1, fun hserves => absurd hserves hlater.2⟩
  have hgives : ∀ {n k : ℕ} {read : List (Entry Id)} {before last : Backing},
      Merging.Refused k read before last → backing.Wrote n before →
      n + k ≤ (overlayRows newer.rows older.rows).length →
      (∀ row ∈ read, row ∈ older.rows ++ newer.rows) →
      backing.Tried (overlayRows newer.rows older.rows).length last ∧
        (backing.Serves → (∃ row ∈ older.rows ++ newer.rows, ¬ Readable row) ∨
          u64Bound ≤ older.count + newer.count) :=
    fun hrefused hwrote htotal hread =>
      have hafter := hrefused.after hwrote htotal hread
      ⟨hafter.1, fun hserves => .inl (hafter.2 hserves)⟩
  refine Attempt.ensures_bind_iff.mpr (Attempt.Ensures.check (fun _ => ?_) fun hover => ?_)
  · refine Attempt.ensures_bind_iff.mpr ((hcall _).mono ?_ fun e later hlater =>
      hgives hlater (.refl _) (Nat.zero_le _) fun _ hrow => absurd hrow not_mem_nil)
    rintro - created ⟨holder', hnewer', hwritten, hcreated⟩
    have hahead : RunScan.Ahead older created.older older.rows :=
      holder' ▸ RunScan.reader_ahead holder bufferBytes
    refine Attempt.ensures_bind_iff.mpr ((Merging.nextOlder_ensures hahead).mono ?_ fun e later
      hlater => hgives hlater hcreated (Nat.zero_le _) fun row hrow => mem_append_left _ hrow)
    rintro - readOld ⟨hold, hrestOld, -, hnewer'', hwritten', hreadOld⟩
    have hahead' : RunScan.Ahead newer readOld.newer newer.rows := by
      rw [hnewer'', hnewer']
      exact RunScan.reader_ahead hnewer bufferBytes
    refine Attempt.ensures_bind_iff.mpr ((Merging.nextNewer_ensures hahead').mono ?_ fun e later
      hlater => hgives hlater (hcreated.trans hreadOld) (Nat.zero_le _) fun row hrow =>
        mem_append_right _ hrow)
    rintro - ready ⟨hnew, hrestNew, hold', holder'', hwritten'', hready⟩
    have hstands : Merging.Stands older newer ready older.rows newer.rows :=
      ⟨hold'.trans hold, holder'' ▸ hrestOld, hnew, hrestNew⟩
    have hbegun := (hcreated.trans hreadOld).trans hready
    have hnothing : ready.written = [] := by rw [hwritten'', hwritten', hwritten]
    have hcounts : older.rows.length + newer.rows.length < older.count + newer.count + 1 := by
      rw [holder.count_eq, hnewer.count_eq]
      exact Nat.lt_succ_self _
    refine Attempt.ensures_bind_iff.mpr ((Merging.turns_ensures hstands holder.ascending
      hnewer.ascending hcounts).mono ?_ fun e later hlater =>
        hgives hlater hbegun (by omega) fun _ hrow => hrow)
    rintro - merged ⟨hall, hmerged⟩
    rw [hnothing, nil_append] at hall
    have hrows := hbegun.trans hmerged
    refine Attempt.ensures_bind_iff.mpr ((hcall _).mono ?_ fun e later hlater =>
      hgives hlater hrows (by omega) fun _ hrow => absurd hrow not_mem_nil)
    rintro - flushed ⟨-, -, hkept, hflushed⟩
    obtain ⟨run, hrun, hvalid, hsame⟩ := Run.ofRows_overlayRows holder hnewer
    have hlength := @length_overlayRows_le _ _ _ newer.rows older.rows
    refine Attempt.ensures_bind_iff.mpr (Attempt.ensures_get_iff.mpr ?_)
    rw [hkept, hall, holder.count_eq, hnewer.count_eq, hrun, decide_eq_true (by omega)]
    refine ⟨hvalid, hsame, ?_⟩
    have hwrote := hrows.trans hflushed
    rw [Nat.add_zero, Nat.zero_add] at hwrote
    exact hsame ▸ hwrote
  · refine ⟨⟨suffix_refl _, rfl, Nat.le_max_left _ _⟩, fun _ => .inr ?_⟩
    exact Nat.le_of_not_lt (of_decide_eq_false hover)

end LayerFs.Tiered
