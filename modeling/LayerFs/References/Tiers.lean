import LayerFs.References.Scan

/-!
# The tiers of runs (`references/runs.rs`)

A spill writes its rows as a run and merges it with the runs of the tiers below the first free one;
a lookup asks the tiers from the newest on and leaves a scan at each, where the next lookup goes
on. Consolidation merges all runs into one.

* `Sound` — **what holds between operations**: runs are as they were written, and no scan has
  passed over a row a later lookup may still ask for.
* `Refines.spill`, `Refines.consolidate` — the store of the update route answers as the tiers do.
-/

namespace LayerFs.Tiered

open List

variable {Id : Type}
variable {index n : ℕ} (level : ℕ)

/-! ## Lookup scans -/

/-- One tier's resumable lookup scan. -/
structure LookupScan (Id : Type) where
  reader : RunScan Id
  /-- the least serial the cursor may still answer -/
  resume : Option ℕ
  /-- serials known to be absent, from the first to before the second -/
  gap : Option (ℕ × ℕ)

namespace LookupScan

/-- `LookupScan::new`. -/
def new (bufferBytes : ℕ) : LookupScan Id := ⟨.new bufferBytes, none, none⟩

def nextRow (run : Run Id) : Attempt (LookupScan Id × Backing) OrderingError (Option (Entry Id)) :=
  (RunScan.next run).on (fun state => (state.1.reader, state.2))
    fun state part => ({ state.1 with reader := part.1 }, part.2)

/-- Reads on until the serial is found or passed, with what to resume from if it is not found. -/
def seek (run : Run Id) (serial : ℕ) :
    ℕ → Option ℕ → Attempt (LookupScan Id × Backing) OrderingError (Option (Entry Id) × Option ℕ)
  | 0, _ => Attempt.fail .unfinished
  | n + 1, resume => do
    match ← nextRow run with
    | none => return (none, resume)
    | some row =>
      if row.1 = serial then return (some row, resume)
      else if serial < row.1 then do
        Attempt.modify fun state => ({ state.1 with
          reader := state.1.reader.rewind
          gap := some (serial, row.1) }, state.2)
        return (none, some row.1)
      else seek run serial n (some (saturatingAdd row.1 1))

/-- Goes to the front of the run when the cursor is past the serial. -/
def position (run : Run Id) (serial : ℕ) : Attempt (LookupScan Id × Backing) OrderingError Unit := do
  let scan := (← Attempt.get).1
  if scan.resume.all (serial < ·) then do
    let reader ← Attempt.lift (scan.reader.start run 0)
    Attempt.modify fun state => ({ state.1 with reader := reader }, state.2)
  else return ()

def lookup (run : Run Id) (serial : ℕ) :
    Attempt (LookupScan Id × Backing) OrderingError (Option (Entry Id)) := do
  let scan := (← Attempt.get).1
  if scan.gap.any fun gap => gap.1 ≤ serial && serial < gap.2 then return none
  else do
    position run serial
    let out ← seek run serial (run.count + 1) none
    Attempt.modify fun state => ({ state.1 with
      resume := if out.1.isSome then some (saturatingAdd serial 1) else out.2 }, state.2)
    return out.1

end LookupScan

/-! ## The store -/

/-- Tiered runs over one caller-supplied backing. -/
structure RunStore (Id : Type) where
  backed : Bool
  backing : Backing
  levels : List (Option (Run Id))
  scans : List (Option (LookupScan Id))
  mergeBuffer : ℕ
  limit : ℕ
  pendingBytes : ℕ
  mergeInputBytes : ℕ

namespace RunStore

/-- `RunStore::new`. -/
def new (backed : Bool) (refusals : List (Option OrderingError)) (mergeBuffer limit : ℕ) :
    RunStore Id :=
  ⟨backed, ⟨refusals, 0, 0, 0⟩, [], [], max mergeBuffer rowBytes, limit, 0, 0⟩

def live (store : RunStore Id) : List (Run Id) := store.levels.filterMap id

def runBytes (store : RunStore Id) : ℕ := (store.live.map Run.bytes).sum

/-- `owned_bytes`. -/
def ownedBytes (store : RunStore Id) : ℕ :=
  saturatingAdd (saturatingAdd store.runBytes store.pendingBytes) store.mergeInputBytes

def reserve (bytes : ℕ) : Attempt (RunStore Id) OrderingError Unit := do
  let store ← Attempt.get
  Attempt.check (decide (store.ownedBytes + bytes < u64Bound)) (.content .lengthOverflow)
  Attempt.check (decide (store.ownedBytes + bytes ≤ store.limit))
    (.content (.objectLimitExceeded store.limit (store.ownedBytes + bytes)))

def chargePending (rows : ℕ) : Attempt (RunStore Id) OrderingError Unit := do
  Attempt.check (decide (rows * rowBytes < u64Bound)) (.content .lengthOverflow)
  reserve (min (2 * (rows * rowBytes)) (u64Bound - 1))
  Attempt.modify fun store => { store with
    pendingBytes := rows * rowBytes
    backing := store.backing.owe (rows * rowBytes) }

def demandBacking : Attempt (RunStore Id) OrderingError Unit := do
  let store ← Attempt.get
  Attempt.check store.backed (.content (.resourceUnavailable "ordering backing"))

def onBacking {α : Type} (m : Attempt Backing OrderingError α) :
    Attempt (RunStore Id) OrderingError α :=
  m.on RunStore.backing fun store backing => { store with backing := backing }

def resetScansThrough (level : ℕ) (store : RunStore Id) : RunStore Id :=
  { store with scans :=
    List.replicate (min store.scans.length (level + 1)) none ++ store.scans.drop (level + 1) }

/-- The runs a failed operation still holds go with it: what stays are those of the tiers. -/
def settle (store : RunStore Id) : RunStore Id :=
  { store with backing := { store.backing with held := store.runBytes } }

def freeLevel (store : RunStore Id) : ℕ :=
  (store.levels.findIdx? Option.isNone).getD store.levels.length

/-! ### Spilling -/

def writeRows : List (Entry Id) → Attempt Backing OrderingError Unit
  | [] => return ()
  | _ :: rest => do
    Backing.append
    writeRows rest

/-- The tiers opened for a spill: the first free one is there, and its scans are dropped. -/
def opened (store : RunStore Id) : RunStore Id :=
  resetScansThrough store.freeLevel { store with levels :=
    if store.freeLevel = store.levels.length then store.levels ++ [none] else store.levels }

/-- Room for a tier and for the pending rows, and a fresh scan for every tier a spill replaces. -/
def openLevel : Attempt (RunStore Id) OrderingError ℕ := do
  let store ← Attempt.get
  reserve store.pendingBytes
  Attempt.check (decide (store.freeLevel < maximumLevels))
    (.content (.resourceUnavailable "ordering tiers"))
  Attempt.modify opened
  return store.freeLevel

/-- The first part of a spill: the pending rows become a run of their own. -/
def writeBatch (pending : List (Entry Id)) : Attempt (RunStore Id) OrderingError (ℕ × Run Id) := do
  chargePending pending.length
  let level ← openLevel
  demandBacking
  onBacking Backing.call
  onBacking (writeRows pending)
  onBacking Backing.call
  let run ← Attempt.demand (Run.ofRows pending) (.invalidOrderingRecord "spill rows")
  return (level, run)

def takeOlder (level : ℕ) (run : Run Id) (store : RunStore Id) : RunStore Id :=
  { store with
    levels := List.replicate level none ++ store.levels.drop level
    mergeInputBytes := saturatingAdd (((store.levels.take level).filterMap id).foldl
      (fun bytes older => saturatingAdd bytes older.bytes) store.mergeInputBytes) run.bytes }

def reserveOutput (older newer : ℕ) : Attempt (RunStore Id) OrderingError Unit := do
  Attempt.check (decide (older + newer < u64Bound)) (.content .lengthOverflow)
  Attempt.check (decide ((older + newer) * rowBytes < u64Bound)) (.content .lengthOverflow)
  reserve ((older + newer) * rowBytes)
  demandBacking

/-- Merges one older run under the rows merged so far; both inputs are dropped when the output
stands. -/
def mergeUnder (newer older : Run Id) : Attempt (RunStore Id) OrderingError (Run Id) := do
  reserveOutput older.count newer.count
  let store ← Attempt.get
  let run ← onBacking (mergeRuns store.mergeBuffer older newer)
  Attempt.modify fun store => { store with
    backing := (store.backing.giveBack newer.bytes).giveBack older.bytes
    mergeInputBytes := store.mergeInputBytes - older.bytes }
  return run

def install (level : ℕ) (run : Run Id) (store : RunStore Id) : RunStore Id :=
  resetScansThrough level { store with
    levels := List.replicate level none ++ some run :: store.levels.drop (level + 1)
    mergeInputBytes := store.mergeInputBytes - run.bytes
    pendingBytes := 0
    backing := store.backing.owe 0 }

/-- `spill`: writes pending rows as one run and merges it into the tiers. -/
def spill (pending : SortedMap ℕ (Row Id)) : Attempt (RunStore Id) OrderingError Unit :=
  if pending.entries.isEmpty then return ()
  else Attempt.closing settle do
    let batch ← writeBatch pending.entries
    let store ← Attempt.get
    Attempt.modify (takeOlder batch.1 batch.2)
    let run ← ((store.levels.take batch.1).filterMap id).foldlM mergeUnder batch.2
    Attempt.modify (install batch.1 run)

/-! ### Consolidation -/

def takeAll (store : RunStore Id) : RunStore Id :=
  { store with
    levels := store.levels.map fun _ => none
    mergeInputBytes := store.live.foldl (fun bytes run => saturatingAdd bytes run.bytes)
      store.mergeInputBytes }

/-- The newest run is adopted, and no longer counts as an input; the others are merged under
it. -/
def combine (combined : Option (Run Id)) (run : Run Id) :
    Attempt (RunStore Id) OrderingError (Option (Run Id)) :=
  match combined with
  | none => do
    reserveOutput run.count 0
    Attempt.modify fun store => { store with
      mergeInputBytes := store.mergeInputBytes - run.bytes }
    return some run
  | some newer => do
    let merged ← mergeUnder newer run
    return some merged

/-- `consolidate`: merges every live run into one. -/
def consolidate : Attempt (RunStore Id) OrderingError Unit := do
  let store ← Attempt.get
  if store.live.length ≤ 1 then return ()
  else Attempt.closing settle do
    Attempt.modify takeAll
    let combined ← store.live.foldlM combine none
    Attempt.modify fun store => { store with
      levels := combined.toList.map some
      scans := [] }

/-! ### Lookups -/

def scanOf (store : RunStore Id) (index : ℕ) : LookupScan Id :=
  store.scans[index]?.join.getD (.new store.mergeBuffer)

def setScan (index : ℕ) (scan : LookupScan Id) (store : RunStore Id) : RunStore Id :=
  { store with scans :=
    (store.scans ++ List.replicate (index + 1 - store.scans.length) none).set index (some scan) }

def lookupAt (run : Run Id) (serial index : ℕ) :
    Attempt (RunStore Id) OrderingError (Option (Entry Id)) :=
  (LookupScan.lookup run serial).on (fun store => (store.scanOf index, store.backing))
    fun store part => { setScan index part.1 store with backing := part.2 }

def findAt (serial index : ℕ) : Attempt (RunStore Id) OrderingError (Option (Entry Id)) := do
  let store ← Attempt.get
  match store.levels[index]?.join with
  | none => return none
  | some run =>
    if serial < run.first ∨ run.last < serial then return none
    else lookupAt run serial index

def findFrom (serial : ℕ) : ℕ → ℕ → Attempt (RunStore Id) OrderingError (Option (Entry Id))
  | 0, _ => return none
  | n + 1, index => do
    match ← findAt serial index with
    | some row => return some row
    | none => findFrom serial n (index + 1)

/-- `find`: the newest run row of a serial. -/
def find (serial : ℕ) : Attempt (RunStore Id) OrderingError (Option (Entry Id)) := do
  let store ← Attempt.get
  findFrom serial store.levels.length 0

end RunStore

/-! ### Visits -/

/-- A reader over one run with the row it stands at. -/
structure Reading (Id : Type) where
  run : Run Id
  scan : RunScan Id
  current : Option (Entry Id)

def Reading.advance : Attempt (Reading Id × Backing) OrderingError Unit := do
  let reading := (← Attempt.get).1
  let row ← (RunScan.next reading.run).on (fun state => (state.1.scan, state.2))
    fun state part => ({ state.1 with scan := part.1 }, part.2)
  Attempt.modify fun state => ({ state.1 with current := row }, state.2)

/-- A visit in progress. -/
structure Visiting (Id τ : Type) where
  /-- one reader a live run, the newest first -/
  readings : List (Reading Id)
  last : Option ℕ
  value : τ
  backing : Backing

/-- The first reader of those at the least serial, with the serial. -/
def best : List (Reading Id) → Option (ℕ × ℕ)
  | [] => none
  | reading :: rest =>
    match reading.current, best rest with
    | none, found => found.map fun place => (place.1 + 1, place.2)
    | some row, none => some (0, row.1)
    | some row, some place =>
      if place.2 < row.1 then some (place.1 + 1, place.2) else some (0, row.1)

namespace Visiting

variable {τ : Type}

def advanceAt (index : ℕ) : Attempt (Visiting Id τ) OrderingError Unit := do
  let visiting ← Attempt.get
  let reading ← Attempt.demand visiting.readings[index]? (.content .unexpectedEof)
  Reading.advance.on (fun visiting => (reading, visiting.backing)) fun visiting part =>
    { visiting with readings := visiting.readings.set index part.1, backing := part.2 }

/-- One turn: the row with the least serial goes to the visitor, unless its serial went before. -/
def turn (visitor : τ → Entry Id → Except OrderingError (τ × Bool)) :
    Attempt (Visiting Id τ) OrderingError Bool := do
  let visiting ← Attempt.get
  match best visiting.readings with
  | none => return false
  | some place => do
    let reading ← Attempt.demand visiting.readings[place.1]? (.content .unexpectedEof)
    let row ← Attempt.demand reading.current (.content .unexpectedEof)
    advanceAt place.1
    if visiting.last = some place.2 then return true
    else do
      let out ← Attempt.lift (visitor visiting.value row)
      Attempt.modify fun visiting => { visiting with last := some place.2, value := out.1 }
      return out.2

def turns (visitor : τ → Entry Id → Except OrderingError (τ × Bool)) :
    ℕ → Attempt (Visiting Id τ) OrderingError Unit
  | 0 => Attempt.fail .unfinished
  | n + 1 => do
    let more ← turn visitor
    if more then turns visitor n else return ()

end Visiting

def openReading (bufferBytes : ℕ) (run : Run Id) : Attempt Backing OrderingError (Reading Id) :=
  Attempt.on (fun backing => ((⟨run, .reader run bufferBytes, none⟩ : Reading Id), backing))
    (fun _ state => state.2) do
      Reading.advance
      return (← Attempt.get).1

def openReadings (bufferBytes : ℕ) : List (Run Id) → Attempt Backing OrderingError (List (Reading Id))
  | [] => return []
  | run :: rest => do
    let reading ← openReading bufferBytes run
    let others ← openReadings bufferBytes rest
    return reading :: others

/-- `visit_newest_first`: reads every live run with newest-row precedence. -/
def RunStore.visit {τ : Type} (visitor : τ → Entry Id → Except OrderingError (τ × Bool))
    (value : τ) : Attempt (RunStore Id) OrderingError τ := do
  let store ← Attempt.get
  let readings ← onBacking (openReadings store.mergeBuffer store.live)
  onBacking (Attempt.on (fun backing => (⟨readings, none, value, backing⟩ : Visiting Id τ))
    (fun _ visiting => visiting.backing) do
      Visiting.turns visitor ((store.live.map Run.count).sum + 1)
      return (← Attempt.get).value)

/-! ## What lookup scans know -/

def Bounded (row : Entry Id) : Prop := row.1 + 1 < u64Bound

instance (row : Entry Id) : Decidable (Bounded row) := Nat.decLt _ _

namespace LookupScan

variable {run : Run Id} {scan : LookupScan Id} {serial : ℕ}

/-- What a lookup answers of its run: nothing inside the gap, and else the row of the serial among
those from where it begins to read. -/
def answer (run : Run Id) (serial : ℕ) (scan : LookupScan Id) : Option (Row Id) :=
  if scan.gap.any fun gap => gap.1 ≤ serial && serial < gap.2 then none
  else (if scan.resume.all (serial < ·) then run.rows
    else run.rows.drop scan.reader.offset).lookup serial

/-- **What a scan knows** of its run: where its cursor stands. A `whole` scan has left no row behind:
the rows before the cursor are below what it resumes from, and no row is in the gap. A lookup that
fails may leave rows behind. -/
structure Sound (run : Run Id) (scan : LookupScan Id) (whole : Prop) : Prop where
  room : 0 < scan.reader.room
  gap : whole → ∀ gap ∈ scan.gap, ∀ row ∈ run.rows, gap.1 ≤ row.1 → gap.2 ≤ row.1
  resume : ∀ resume ∈ scan.resume, ∃ passed rest, run.rows = passed ++ rest ∧
    scan.reader.Ahead run rest ∧ (whole → ∀ row ∈ passed, row.1 < resume)

variable {whole : Prop}

theorem Sound.new (run : Run Id) (bufferBytes : ℕ) : Sound run (.new bufferBytes) whole where
  room := Nat.lt_of_lt_of_le Nat.zero_lt_one (Nat.le_max_right _ _)
  gap := by rintro - _ ⟨⟩
  resume := by rintro _ ⟨⟩

theorem Sound.weaken (h : Sound run scan whole) : Sound run scan False where
  room := h.room
  gap := False.elim
  resume := fun resume hresume =>
    let ⟨passed, rest, hsplit, hahead, _⟩ := h.resume resume hresume
    ⟨passed, rest, hsplit, hahead, False.elim⟩

theorem Sound.of_ahead {passed rest : List (Entry Id)} (hsplit : run.rows = passed ++ rest)
    (hahead : scan.reader.Ahead run rest) : Sound run scan False where
  room := hahead.room
  gap := False.elim
  resume := fun _ _ => ⟨passed, rest, hsplit, hahead, False.elim⟩

theorem lookup_eq_none_of_below {rows : List (Entry Id)} (h : ∀ row ∈ rows, row.1 < serial) :
    rows.lookup serial = none := by
  rw [lookup_eq_none_iff]
  intro hserial
  obtain ⟨row, hrow, rfl⟩ := mem_map.mp hserial
  exact lt_irrefl _ (h row hrow)

/-- A lookup that does not start over goes on past lower rows. -/
theorem Sound.resumes (h : Sound run scan whole) (hfront : ¬ scan.resume.all (serial < ·) = true) :
    ∃ passed rest, run.rows = passed ++ rest ∧ scan.reader.Ahead run rest ∧
      (whole → ∀ row ∈ passed, row.1 < serial) := by
  obtain ⟨resume, hresume, hlow⟩ : ∃ resume ∈ scan.resume, resume ≤ serial := by
    cases hresume : scan.resume <;> simp_all
  obtain ⟨passed, rest, hsplit, hahead, hbelow⟩ := h.resume resume hresume
  exact ⟨passed, rest, hsplit, hahead, fun hwhole row hrow =>
    (hbelow hwhole row hrow).trans_le hlow⟩

/-- **A whole scan answers as its run.** -/
theorem Sound.answer_eq (h : Sound run scan whole) (hwhole : whole) :
    answer run serial scan = run.rows.lookup serial := by
  rw [answer]
  split_ifs with hgap hfront
  · obtain ⟨gap, hscan, hinside⟩ : ∃ gap ∈ scan.gap,
        (decide (gap.1 ≤ serial) && decide (serial < gap.2)) = true := by
      cases hscan : scan.gap with
      | none =>
        rw [hscan] at hgap
        cases hgap
      | some gap =>
        rw [hscan] at hgap
        exact ⟨gap, rfl, hgap⟩
    rw [Bool.and_eq_true, decide_eq_true_eq, decide_eq_true_eq] at hinside
    refine (lookup_eq_none_iff.mpr fun hserial => ?_).symm
    obtain ⟨row, hrow, rfl⟩ := mem_map.mp hserial
    exact absurd (h.gap hwhole gap hscan row hrow hinside.1) (Nat.not_le.mpr hinside.2)
  · rfl
  · obtain ⟨passed, rest, hsplit, hahead, hbelow⟩ := h.resumes hfront
    rw [hahead.rest_eq, hsplit, lookup_append, lookup_eq_none_of_below (hbelow hwhole),
      Option.none_or]

/-- A lookup whose cursor has passed some rows, lower ones if the scan is whole. -/
structure Seeking (run : Run Id) (serial : ℕ) (whole : Prop) (scan : LookupScan Id)
    (passed rest : List (Entry Id)) : Prop where
  split : run.rows = passed ++ rest
  ahead : scan.reader.Ahead run rest
  below : whole → ∀ row ∈ passed, row.1 < serial
  gap : whole → ∀ gap ∈ scan.gap, ∀ row ∈ run.rows, gap.1 ≤ row.1 → gap.2 ≤ row.1

theorem nextRow_ensures {rest : List (Entry Id)} (h : scan.reader.Ahead run rest)
    (backing : Backing) : (nextRow run).Ensures (scan, backing)
      (fun row later => row = rest.head? ∧ later.1.reader.Ahead run rest.tail ∧
        (rest ≠ [] → later.1.reader.rewind.Ahead run rest) ∧ later.1.gap = scan.gap ∧
        backing.Wrote 0 later.2)
      fun _ later => later.1.reader.Ahead run rest ∧ backing.Tried 0 later.2 ∧
        (backing.Serves → ∃ row ∈ rest, ¬ Readable row) := by
  refine Attempt.ensures_on_iff.mpr ((RunScan.next_ensures h backing).mono ?_ ?_)
  · rintro row later ⟨hrow, hahead, hrewind, -, hlater⟩
    exact ⟨hrow, hahead, hrewind, rfl, hlater⟩
  · rintro e later ⟨hahead, htried, hrefused⟩
    refine ⟨hahead, htried, fun hserves => ?_⟩
    obtain ⟨row, hrow, hunreadable⟩ := hrefused hserves
    exact ⟨row, mem_of_head? hrow, hunreadable⟩

/-- What a lookup found, and from where the next may resume. -/
structure Sought (run : Run Id) (serial : ℕ) (whole : Prop) (rest : List (Entry Id))
    (out : Option (Entry Id) × Option ℕ) (scan : LookupScan Id) : Prop where
  found : out.1 = (rest.lookup serial).map (Prod.mk serial)
  gap : whole → ∀ gap ∈ scan.gap, ∀ row ∈ run.rows, gap.1 ≤ row.1 → gap.2 ≤ row.1
  room : 0 < scan.reader.room
  resume : ∀ resume ∈ if out.1.isSome then some (serial + 1) else out.2, ∃ passed rest,
    run.rows = passed ++ rest ∧ scan.reader.Ahead run rest ∧
      (whole → ∀ row ∈ passed, row.1 < resume)

/-- **Seeking finds the row of the serial** among those ahead. -/
theorem seek_ensures (hrun : run.Valid) (hbounded : ∀ row ∈ run.rows, Bounded row) :
    ∀ {scan : LookupScan Id} {passed rest : List (Entry Id)} {resume : Option ℕ}
      (backing : Backing), Seeking run serial whole scan passed rest → rest.length < n →
      (∀ least ∈ resume, whole → ∀ row ∈ passed, row.1 < least) →
      (seek run serial n resume).Ensures (scan, backing)
        (fun out later => Sought run serial whole rest out later.1 ∧ backing.Wrote 0 later.2)
        fun _ later => Sound run later.1 False ∧ backing.Tried 0 later.2 ∧
          (backing.Serves → ∃ row ∈ rest, ¬ Readable row) := by
  induction n with
  | zero => exact fun _ _ hn => absurd hn (Nat.not_lt_zero _)
  | succ n ih =>
    intro scan passed rest resume backing h hn hresume
    refine Attempt.ensures_bind_iff.mpr ((nextRow_ensures h.ahead backing).mono ?_
      fun _ _ hfailed => ⟨.of_ahead h.split hfailed.1, hfailed.2⟩)
    rintro _ ⟨read, later⟩ ⟨rfl, hahead, hrewind, hgap, hlater⟩
    have hgap' : whole → ∀ gap ∈ read.gap, ∀ row ∈ run.rows, gap.1 ≤ row.1 → gap.2 ≤ row.1 :=
      hgap ▸ h.gap
    rcases rest with _ | ⟨row, rest⟩
    · refine ⟨⟨rfl, hgap', hahead.room, fun least hleast => ?_⟩, hlater⟩
      exact ⟨passed, [], h.split, hahead, hresume least hleast⟩
    · have hsorted : Ascending (passed ++ row :: rest) := h.split ▸ hrun.ascending
      have hrest : Ascending (row :: rest) := hsorted.sublist (sublist_append_right _ _)
      dsimp only [head?_cons]
      split_ifs with hfound hpast
      · refine ⟨⟨?_, hgap', hahead.room, fun least hleast => ?_⟩, hlater⟩
        · rw [lookup_cons_eq, if_pos hfound.symm, ← hfound]
          rfl
        · obtain rfl : least = serial + 1 := (Option.some.inj hleast).symm
          refine ⟨passed ++ [row], rest, h.split.trans (append_cons _ _ _), hahead, ?_⟩
          intro hwhole other hother
          rcases mem_append.mp hother with hother | hother
          · exact (h.below hwhole other hother).trans (Nat.lt_succ_self _)
          · rw [mem_singleton.mp hother, hfound]
            exact Nat.lt_succ_self _
      · -- the row is put back; up to it nothing is at the serial
        have habove : ∀ other ∈ row :: rest, row.1 ≤ other.1 := fun other => hrest.head_le
        refine Attempt.ensures_bind_iff.mpr (Attempt.ensures_modify_iff.mpr ?_)
        refine ⟨⟨?_, ?_, (hrewind (cons_ne_nil _ _)).room, fun least hleast => ?_⟩, hlater⟩
        · rw [lookup_eq_none_of_lt fun other hother => hpast.trans_le (habove other hother)]
          rfl
        · rintro hwhole _ ⟨⟩ other hother hserial
          rw [h.split] at hother
          rcases mem_append.mp hother with hother | hother
          · exact absurd (h.below hwhole other hother) (Nat.not_lt.mpr hserial)
          · exact habove other hother
        · obtain rfl : least = row.1 := (Option.some.inj hleast).symm
          exact ⟨passed, row :: rest, h.split, hrewind (cons_ne_nil _ _), fun hwhole other hother =>
            (h.below hwhole other hother).trans hpast⟩
      · have hless : row.1 < serial := lt_of_le_of_ne (Nat.le_of_not_lt hpast) hfound
        have hrow : Bounded row := hbounded row (h.split ▸ mem_append_right _
          mem_cons_self)
        have hsucc : saturatingAdd row.1 1 = row.1 + 1 := Nat.min_eq_left (Nat.le_pred_of_lt hrow)
        have hseeking : Seeking run serial whole read (passed ++ [row]) rest := by
          refine ⟨h.split.trans (append_cons _ _ _), hahead, fun hwhole other hother => ?_, hgap'⟩
          rcases mem_append.mp hother with hother | hother
          · exact h.below hwhole other hother
          · exact mem_singleton.mp hother ▸ hless
        rw [hsucc]
        refine (ih later hseeking (Nat.lt_of_succ_lt_succ hn) ?_).mono ?_ ?_
        · rintro _ ⟨⟩ - other hother
          rcases mem_append.mp hother with hother | hother
          · have hlt : other.1 < row.1 := (pairwise_append.mp hsorted).2.2 other hother row
              mem_cons_self
            exact hlt.trans (Nat.lt_succ_self _)
          · rw [mem_singleton.mp hother]
            exact Nat.lt_succ_self _
        · rintro out last ⟨hsought, hlast⟩
          refine ⟨⟨?_, hsought.gap, hsought.room, hsought.resume⟩, hlater.trans hlast⟩
          rw [lookup_cons_eq, if_neg (Ne.symm hfound)]
          exact hsought.found
        · rintro e last ⟨hleft, htried, hrefused⟩
          refine ⟨hleft, hlater.tried_of htried (Nat.le_refl _), fun hserves => ?_⟩
          obtain ⟨bad, hbad, hunreadable⟩ := hrefused (hserves.suffix hlater.refusals)
          exact ⟨bad, mem_cons_of_mem _ hbad, hunreadable⟩

theorem position_ensures (hrun : run.Valid) (h : Sound run scan whole) (serial : ℕ)
    (backing : Backing) :
    (position run serial).Ensures (scan, backing)
      (fun _ later => later.2 = backing ∧ ∃ passed rest,
        Seeking run serial whole later.1 passed rest ∧
          rest = if scan.resume.all (serial < ·) then run.rows
            else run.rows.drop scan.reader.offset)
      fun _ _ => False := by
  refine Attempt.ensures_bind_iff.mpr (Attempt.ensures_get_iff.mpr ?_)
  dsimp only
  split_ifs with hfront
  · obtain ⟨started, hstarted, -, hahead⟩ := RunScan.start_ahead hrun h.room
    refine Attempt.ensures_bind_iff.mpr (Attempt.Ensures.lift ?_ fun e he => ?_)
    · intro reader hreader
      cases hstarted.symm.trans hreader
      exact ⟨rfl, [], run.rows, ⟨rfl, hahead, fun _ => forall_mem_nil _, h.gap⟩, rfl⟩
    · cases hstarted.symm.trans he
  · obtain ⟨passed, rest, hsplit, hahead, hbelow⟩ := h.resumes hfront
    exact ⟨rfl, passed, rest, ⟨hsplit, hahead, hbelow, h.gap⟩, hahead.rest_eq.symm⟩

/-- **A lookup answers from where it begins to read**, and leaves a scan as whole as it was; one that
fails may leave rows behind. -/
theorem lookup_ensures (hrun : run.Valid) (hbounded : ∀ row ∈ run.rows, Bounded row)
    (h : Sound run scan whole) (serial : ℕ) (backing : Backing) :
    (lookup run serial).Ensures (scan, backing)
      (fun found later => found = (answer run serial scan).map (Prod.mk serial) ∧
        Sound run later.1 whole ∧ backing.Wrote 0 later.2)
      fun _ later => Sound run later.1 False ∧ backing.Tried 0 later.2 ∧
        (backing.Serves → ∃ row ∈ run.rows, ¬ Readable row) := by
  refine Attempt.ensures_bind_iff.mpr (Attempt.ensures_get_iff.mpr ?_)
  dsimp only
  by_cases hgap : (scan.gap.any fun gap => gap.1 ≤ serial && serial < gap.2) = true
  · rw [if_pos hgap, answer, if_pos hgap]
    exact ⟨rfl, h, .refl _⟩
  · rw [if_neg hgap, answer, if_neg hgap]
    refine Attempt.ensures_bind_iff.mpr ((position_ensures hrun h serial backing).mono ?_
      fun _ _ hfalse => hfalse.elim)
    rintro - ⟨positioned, still⟩ ⟨hstill, passed, rest, hseeking, hrest⟩
    obtain rfl : still = backing := hstill
    have hlength : rest.length < run.count + 1 := by
      rw [hrun.count_eq, hseeking.split, length_append]
      omega
    rw [← hrest]
    refine Attempt.ensures_bind_iff.mpr ((seek_ensures hrun hbounded still hseeking hlength
      (by rintro _ ⟨⟩)).mono ?_ ?_)
    · rintro ⟨found, resume⟩ ⟨sought, later⟩ ⟨hsought, hlater⟩
      refine Attempt.ensures_bind_iff.mpr (Attempt.ensures_modify_iff.mpr ⟨hsought.found,
        ⟨hsought.room, hsought.gap, ?_⟩, hlater⟩)
      have hresume := hsought.resume
      dsimp only at hresume ⊢
      split_ifs at hresume ⊢ with hsome
      · -- the row found is bounded, so its serial is not the last number
        have hbound : serial + 1 < u64Bound := by
          obtain ⟨row, hrow⟩ := Option.isSome_iff_exists.mp hsome
          obtain ⟨value, hvalue, -⟩ :=
            Option.map_eq_some_iff.mp (hsought.found.symm.trans hrow)
          exact hbounded (serial, value)
            (hseeking.split ▸ mem_append_right _ (mem_of_lookup hvalue))
        have hsucc : saturatingAdd serial 1 = serial + 1 := Nat.min_eq_left (Nat.le_pred_of_lt hbound)
        rw [hsucc]
        exact hresume
      · exact hresume
    · rintro e later ⟨hleft, htried, hrefused⟩
      refine ⟨hleft, htried, fun hserves => ?_⟩
      obtain ⟨row, hrow, hunreadable⟩ := hrefused hserves
      exact ⟨row, hseeking.split ▸ mem_append_right _ hrow, hunreadable⟩

end LookupScan

/-! ## What holds between operations -/

namespace RunStore

variable {store : RunStore Id}

def rows (store : RunStore Id) : List (Entry Id) := overlayAll (store.live.map Run.rows)

/-- What the tier at a place answers. -/
def seenAt (store : RunStore Id) (serial index : ℕ) : Option (Row Id) :=
  store.levels[index]?.join.bind fun run =>
    if serial < run.first ∨ run.last < serial then none
    else (store.scanOf index).answer run serial

/-- What the store answers: the tiers from the newest on, each from its scan. -/
def seen (store : RunStore Id) (serial : ℕ) : Option (Row Id) :=
  (List.range store.levels.length).findSome? (store.seenAt serial)

/-- **What holds between operations.** The scans of a `whole` store have left no row behind. -/
structure Sound (store : RunStore Id) (whole : Prop) : Prop where
  valid : ∀ run ∈ store.live, run.Valid
  bounded : ∀ run ∈ store.live, ∀ row ∈ run.rows, Bounded row
  readable : ∀ run ∈ store.live, ∀ row ∈ run.rows, Readable row
  scans : ∀ (index : ℕ) (run : Run Id) (scan : LookupScan Id),
    store.levels[index]?.join = some run →
    store.scans[index]?.join = some scan → LookupScan.Sound run scan whole

variable {whole : Prop}

theorem Sound.weaken (h : store.Sound whole) : store.Sound False :=
  ⟨h.valid, h.bounded, h.readable, fun index run scan hrun hscan =>
    (h.scans index run scan hrun hscan).weaken⟩

theorem mem_live {run : Run Id} (h : store.levels[index]?.join = some run) : run ∈ store.live := by
  obtain ⟨level, hlevel, hrun⟩ := Option.bind_eq_some_iff.mp h
  exact mem_filterMap.mpr ⟨level, mem_of_getElem? hlevel, hrun⟩

theorem Sound.ascending (h : store.Sound whole) :
    ∀ rows ∈ store.live.map Run.rows, Ascending rows := by
  intro rows hrows
  obtain ⟨run, hrun, rfl⟩ := mem_map.mp hrows
  exact (h.valid run hrun).ascending

theorem Sound.lookup_rows (h : store.Sound whole) (serial : ℕ) :
    store.rows.lookup serial = store.live.findSome? fun run => run.rows.lookup serial := by
  rw [rows, lookup_overlayAll h.ascending, findSome?_map]
  rfl

theorem scans_setScan (index other : ℕ) (scan : LookupScan Id) (store : RunStore Id) :
    (setScan index scan store).scans[other]?.join =
      if other = index then some scan else store.scans[other]?.join := by
  have hlength : index < (store.scans ++
      List.replicate (index + 1 - store.scans.length) none).length := by
    rw [length_append, length_replicate]
    omega
  rw [setScan, getElem?_set]
  by_cases hother : other = index
  · rw [if_pos hother.symm, if_pos (hother ▸ hlength), if_pos hother]
    rfl
  · rw [if_neg (Ne.symm hother), if_neg hother]
    by_cases hold : other < store.scans.length
    · rw [getElem?_append_left hold]
    · rw [getElem?_append_right (Nat.le_of_not_lt hold), getElem?_replicate,
        getElem?_eq_none (Nat.le_of_not_lt hold)]
      split_ifs <;> rfl

theorem Sound.scanOf (h : store.Sound whole) {run : Run Id}
    (hrun : store.levels[index]?.join = some run) :
    LookupScan.Sound run (store.scanOf index) whole := by
  rw [RunStore.scanOf]
  cases hscan : store.scans[index]?.join with
  | none => exact .new run _
  | some scan => exact h.scans index run scan hrun hscan

theorem findSome?_live {α β : Type} (f : α → Option β) (levels : List (Option α)) :
    (List.range levels.length).findSome? (fun index => levels[index]?.join.bind f) =
      (levels.filterMap id).findSome? f := by
  induction levels with
  | nil => rfl
  | cons level levels ih =>
    have hrest : (List.range levels.length).findSome?
        ((fun index => (level :: levels)[index]?.join.bind f) ∘ Nat.succ) =
          (levels.filterMap id).findSome? f := ih
    rw [length_cons, range_succ_eq_map, findSome?_cons, findSome?_map, hrest]
    cases level with
    | none => rfl
    | some value => rfl

/-- **A whole store answers with its rows.** -/
theorem Sound.seen_eq (h : store.Sound whole) (hwhole : whole) (serial : ℕ) :
    store.seen serial = store.rows.lookup serial := by
  rw [h.lookup_rows, seen, live, ← findSome?_live]
  refine congrArg (fun f => (List.range store.levels.length).findSome? f) (funext fun index => ?_)
  rw [seenAt]
  cases hrun : store.levels[index]?.join with
  | none => rfl
  | some run =>
    rw [Option.bind_some, Option.bind_some]
    split_ifs with hout
    · refine (lookup_eq_none_iff.mpr fun hserial => ?_).symm
      obtain ⟨row, hrow, rfl⟩ := mem_map.mp hserial
      have hwithin := (h.valid run (mem_live hrun)).within hrow
      omega
    · exact (h.scanOf hrun).answer_eq hwhole

/-- What a lookup leaves: other scans, and fewer refusals to come. -/
structure Looked (whole : Prop) (store later : RunStore Id) : Prop where
  sound : later.Sound whole
  levels : later.levels = store.levels
  refusals : later.backing.refusals <:+ store.backing.refusals

theorem Looked.refl (h : store.Sound whole) : Looked whole store store := ⟨h, rfl, suffix_refl _⟩

variable {later : RunStore Id}

theorem Looked.trans {last : RunStore Id} (h : Looked whole store later)
    (h' : Looked whole later last) : Looked whole store last :=
  ⟨h'.sound, h'.levels.trans h.levels, h'.refusals.trans h.refusals⟩

theorem Sound.setScan (h : store.Sound whole) {run : Run Id} {scan : LookupScan Id}
    (hrun : store.levels[index]?.join = some run) (hscan : LookupScan.Sound run scan whole)
    (backing : Backing) :
    ({ RunStore.setScan index scan store with backing := backing } : RunStore Id).Sound whole := by
  refine ⟨h.valid, h.bounded, h.readable, fun other otherRun otherScan hlevel => ?_⟩
  change (RunStore.setScan index scan store).scans[other]?.join = some otherScan → _
  rw [scans_setScan]
  split_ifs with hsame
  · rintro ⟨⟩
    subst hsame
    cases hrun.symm.trans hlevel
    exact hscan
  · exact h.scans other otherRun otherScan hlevel

theorem findAt_ensures (h : store.Sound whole) (serial index : ℕ) :
    (findAt serial index).Ensures store
      (fun found later => found = (store.seenAt serial index).map (Prod.mk serial) ∧
        Looked whole store later ∧
        ∀ other, other ≠ index → later.seenAt serial other = store.seenAt serial other)
      fun _ later => later.Sound False ∧ ¬ store.backing.Serves := by
  refine Attempt.ensures_bind_iff.mpr (Attempt.ensures_get_iff.mpr ?_)
  rw [seenAt]
  cases hrun : store.levels[index]?.join with
  | none => exact ⟨rfl, .refl h, fun _ _ => rfl⟩
  | some run =>
    have hvalid := h.valid run (mem_live hrun)
    have hbounded := h.bounded run (mem_live hrun)
    dsimp only [Option.bind_some]
    split_ifs with hout
    · exact ⟨rfl, .refl h, fun _ _ => rfl⟩
    · refine Attempt.ensures_on_iff.mpr ((LookupScan.lookup_ensures hvalid hbounded
        (h.scanOf hrun) serial store.backing).mono ?_ ?_)
      · rintro found ⟨scan, backing⟩ ⟨hfound, hscan, hwrote⟩
        refine ⟨hfound, ⟨h.setScan hrun hscan backing, rfl, hwrote.refusals⟩, fun other hother => ?_⟩
        have hsame : ({ setScan index scan store with backing := backing } : RunStore Id).scanOf
            other = store.scanOf other := by
          rw [scanOf, scanOf]
          change Option.getD (setScan index scan store).scans[other]?.join _ = _
          rw [scans_setScan, if_neg hother]
          rfl
        rw [seenAt, hsame]
        rfl
      · rintro e later ⟨hleft, -, hrefused⟩
        refine ⟨h.weaken.setScan hrun hleft _, fun hserves => ?_⟩
        obtain ⟨row, hrow, hunreadable⟩ := hrefused hserves
        exact hunreadable (h.readable run (mem_live hrun) row hrow)

theorem findFrom_ensures : ∀ {store : RunStore Id} {serial index : ℕ}, store.Sound whole →
    (findFrom serial n index).Ensures store
      (fun found later => found = ((List.range' index n).findSome? (store.seenAt serial)).map
          (Prod.mk serial) ∧ Looked whole store later)
      fun _ later => later.Sound False ∧ ¬ store.backing.Serves := by
  induction n with
  | zero => exact fun h => ⟨rfl, .refl h⟩
  | succ n ih =>
    intro store serial index h
    refine Attempt.ensures_bind_iff.mpr ((findAt_ensures h serial index).mono_ok ?_)
    rintro found later ⟨hfound, hlooked, hothers⟩
    rw [range'_succ, findSome?_cons]
    cases hhere : store.seenAt serial index with
    | some value =>
      rw [hhere] at hfound
      subst hfound
      exact ⟨rfl, hlooked⟩
    | none =>
      rw [hhere] at hfound
      subst hfound
      refine (ih hlooked.sound).mono ?_ fun _ _ hfailed =>
        ⟨hfailed.1, fun hserves => hfailed.2 (hserves.suffix hlooked.refusals)⟩
      rintro found last ⟨hrest, hlast⟩
      refine ⟨hrest.trans (congrArg (Option.map (Prod.mk serial)) ?_), hlooked.trans hlast⟩
      have hsame : (List.range' (index + 1) n).map (later.seenAt serial) =
          (List.range' (index + 1) n).map (store.seenAt serial) := by
        refine map_congr_left fun other hother => hothers other ?_
        have hle := (mem_range'_1.mp hother).1
        omega
      calc
        _ = ((List.range' (index + 1) n).map (later.seenAt serial)).findSome? id :=
          findSome?_map.symm
        _ = _ := by rw [hsame, findSome?_map, Function.id_comp]

/-- **A lookup answers with what the tiers show**, the newest first; one that fails may leave rows
behind. -/
theorem find_ensures (h : store.Sound whole) (serial : ℕ) :
    (find serial).Ensures store
      (fun found later => found = (store.seen serial).map (Prod.mk serial) ∧
        Looked whole store later)
      fun _ later => later.Sound False ∧ ¬ store.backing.Serves := by
  refine Attempt.ensures_bind_iff.mpr (Attempt.ensures_get_iff.mpr ?_)
  rw [seen, range_eq_range']
  exact findFrom_ensures h

/-! ## Spilling -/

theorem writeRows_ensures (rows : List (Entry Id)) : ∀ backing : Backing,
    (writeRows rows).Ensures backing (fun _ later => backing.Wrote rows.length later)
      fun _ later => backing.Tried rows.length later ∧ ¬ backing.Serves := by
  induction rows with
  | nil => exact fun backing => Backing.Wrote.refl backing
  | cons row rest ih =>
    intro backing
    refine Attempt.ensures_bind_iff.mpr ((Backing.append_ensures backing).mono ?_ ?_)
    · intro _ first hfirst
      refine (ih first).mono ?_ ?_
      · intro _ later hlater
        rw [length_cons, Nat.add_comm]
        exact hfirst.trans hlater
      · rintro e later ⟨htried, hrefused⟩
        refine ⟨hfirst.tried_of htried ?_, fun hserves => hrefused (hserves.suffix hfirst.refusals)⟩
        rw [length_cons, Nat.add_comm]
    · rintro e later ⟨htried, hrefused⟩
      exact ⟨htried.mono (Nat.le_add_left 1 _), hrefused⟩

def Room (store : RunStore Id) (bytes : ℕ) : Prop :=
  store.ownedBytes + bytes < u64Bound ∧ store.ownedBytes + bytes ≤ store.limit

theorem Room.bytes_le {bytes : ℕ} (h : store.Room bytes) (hbytes : 0 < bytes) :
    store.runBytes + store.pendingBytes + store.mergeInputBytes + bytes ≤ store.limit := by
  obtain ⟨hfits, hlimit⟩ := h
  rw [ownedBytes, saturatingAdd, saturatingAdd] at hfits hlimit
  omega

theorem reserve_ensures (bytes : ℕ) (store : RunStore Id) :
    (reserve bytes).Ensures store (fun _ later => later = store ∧ store.Room bytes)
      fun _ later => later = store := by
  refine Attempt.ensures_bind_iff.mpr (Attempt.ensures_get_iff.mpr ?_)
  refine Attempt.ensures_bind_iff.mpr (Attempt.Ensures.check (fun hfits => ?_) fun _ => rfl)
  exact Attempt.Ensures.check
    (fun hlimit => ⟨rfl, of_decide_eq_true hfits, of_decide_eq_true hlimit⟩) fun _ => rfl

theorem levels_freeLevel (store : RunStore Id) :
    (∀ level ∈ store.levels.take store.freeLevel, level ≠ none) ∧
    (if store.freeLevel = store.levels.length then store.levels ++ [none] else store.levels) =
      store.levels.take store.freeLevel ++ none :: store.levels.drop (store.freeLevel + 1) ∧
    (store.levels.take store.freeLevel).length = store.freeLevel := by
  rw [freeLevel]
  cases hfree : store.levels.findIdx? Option.isNone with
  | none =>
    rw [Option.getD_none, if_pos rfl, take_length, drop_eq_nil_of_le (Nat.le_succ _)]
    refine ⟨fun level hlevel hnone => ?_, rfl, rfl⟩
    have hsome := findIdx?_eq_none_iff.mp hfree level hlevel
    rw [hnone] at hsome
    cases hsome
  | some index =>
    obtain ⟨hindex, hnone, hbefore⟩ := findIdx?_eq_some_iff_getElem.mp hfree
    rw [Option.getD_some, if_neg (Nat.ne_of_lt hindex)]
    refine ⟨fun level hlevel hlevelNone => ?_, ?_, length_take_of_le hindex.le⟩
    · obtain ⟨other, hother, hget⟩ := mem_iff_getElem.mp hlevel
      rw [length_take, Nat.lt_min] at hother
      rw [getElem_take] at hget
      exact hbefore other hother.1 (by rw [hget, hlevelNone]; rfl)
    · conv_lhs => rw [← take_append_drop index store.levels]
      rw [drop_eq_getElem_cons hindex, Option.isNone_iff_eq_none.mp hnone]

theorem live_freeLevel (store : RunStore Id) :
    store.live = (store.levels.take store.freeLevel).filterMap id ++
      (store.levels.drop (store.freeLevel + 1)).filterMap id := by
  have hlevels := (levels_freeLevel store).2.1
  have hsame : (if store.freeLevel = store.levels.length then store.levels ++ [none]
      else store.levels).filterMap id = store.live := by
    split_ifs
    · rw [filterMap_append]
      exact append_nil _
    · rfl
  rw [← hsame, hlevels, filterMap_append]
  rfl

theorem Sound.of_scans (h : store.Sound whole)
    (hlive : ∀ run ∈ later.live, run.Valid ∧ ∀ row ∈ run.rows, Bounded row ∧ Readable row)
    (hscans : ∀ (index : ℕ) (run : Run Id), later.levels[index]?.join = some run →
      later.scans[index]?.join = none ∨
      store.levels[index]?.join = some run ∧
        later.scans[index]?.join = store.scans[index]?.join) : later.Sound whole where
  valid := fun run hrun => (hlive run hrun).1
  bounded := fun run hrun row hrow => ((hlive run hrun).2 row hrow).1
  readable := fun run hrun row hrow => ((hlive run hrun).2 row hrow).2
  scans := by
    intro index run scan hrun hscan
    rcases hscans index run hrun with hnone | ⟨hsame, hkept⟩
    · cases hnone.symm.trans hscan
    · exact h.scans index run scan hsame (hkept ▸ hscan)

theorem Sound.row_of_live (h : store.Sound whole) :
    ∀ run ∈ store.live, run.Valid ∧ ∀ row ∈ run.rows, Bounded row ∧ Readable row :=
  fun run hrun => ⟨h.valid run hrun, fun row hrow => ⟨h.bounded run hrun row hrow,
    h.readable run hrun row hrow⟩⟩

theorem scans_resetScansThrough (index : ℕ) (store : RunStore Id) :
    (resetScansThrough level store).scans[index]?.join =
      if index ≤ level then none else store.scans[index]?.join := by
  rw [resetScansThrough]
  dsimp only
  by_cases hshort : store.scans.length ≤ level + 1
  · rw [Nat.min_eq_left hshort, drop_eq_nil_of_le hshort, append_nil,
      getElem?_replicate]
    split_ifs with hin hlevel
    · rfl
    · omega
    · rfl
    · rw [getElem?_eq_none (Nat.le_of_not_lt hin)]
  · rw [Nat.min_eq_right (by omega)]
    split_ifs with hlevel
    · rw [getElem?_append_left (by rw [length_replicate]; omega),
        getElem?_replicate, if_pos (by omega)]
      rfl
    · rw [getElem?_append_right (by rw [length_replicate]; omega),
        length_replicate, getElem?_drop]
      congr 2
      omega

theorem live_opened (store : RunStore Id) : store.opened.live = store.live := by
  change (if store.freeLevel = store.levels.length then store.levels ++ [none]
      else store.levels).filterMap id = store.levels.filterMap id
  split_ifs
  · rw [filterMap_append]
    exact append_nil _
  · rfl

theorem Sound.opened (h : store.Sound whole) : store.opened.Sound whole := by
  refine h.of_scans ((live_opened store).symm ▸ h.row_of_live) fun index run hrun => ?_
  rw [RunStore.opened, scans_resetScansThrough]
  by_cases hlevel : index ≤ store.freeLevel
  · exact .inl (if_pos hlevel)
  · refine .inr ⟨?_, if_neg hlevel⟩
    have hlevels : store.opened.levels[index]?.join = store.levels[index]?.join := by
      change (if store.freeLevel = store.levels.length then store.levels ++ [none]
        else store.levels)[index]?.join = _
      split_ifs with hend
      · rw [getElem?_append_right (by omega), getElem?_eq_none (by omega : _ ≤ index)]
        cases hsub : [(none : Option (Run Id))][index - store.levels.length]? with
        | none => rfl
        | some level =>
          rw [mem_singleton.mp (mem_of_getElem? hsub)]
          rfl
      · rfl
    exact hlevels ▸ hrun

/-- A store with another account of the rows about to be spilled, and another backing. -/
def charged (store : RunStore Id) (pendingBytes : ℕ) (backing : Backing) : RunStore Id :=
  { store with pendingBytes := pendingBytes, backing := backing }

theorem Sound.charged (h : store.Sound whole) (pendingBytes : ℕ) (backing : Backing) :
    (store.charged pendingBytes backing).Sound whole := ⟨h.valid, h.bounded, h.readable, h.scans⟩

theorem chargePending_ensures (rows : ℕ) (store : RunStore Id) :
    (chargePending rows).Ensures store
      (fun _ later => later =
          store.charged (rows * rowBytes) (store.backing.owe (rows * rowBytes)) ∧
        rows * rowBytes < u64Bound ∧ store.Room (min (2 * (rows * rowBytes)) (u64Bound - 1)))
      fun _ later => later = store := by
  refine Attempt.ensures_bind_iff.mpr (Attempt.Ensures.check (fun hbytes => ?_) fun _ => rfl)
  refine Attempt.ensures_bind_iff.mpr ((reserve_ensures _ store).mono_ok ?_)
  rintro _ _ ⟨rfl, hroom⟩
  exact ⟨rfl, of_decide_eq_true hbytes, hroom⟩

theorem openLevel_ensures (store : RunStore Id) :
    openLevel.Ensures store
      (fun level later => level = store.freeLevel ∧ later = store.opened ∧
        store.Room store.pendingBytes)
      fun _ later => later = store := by
  refine Attempt.ensures_bind_iff.mpr (Attempt.ensures_get_iff.mpr ?_)
  refine Attempt.ensures_bind_iff.mpr ((reserve_ensures _ store).mono_ok ?_)
  rintro _ _ ⟨rfl, hroom⟩
  exact Attempt.ensures_bind_iff.mpr (Attempt.Ensures.check (fun _ => ⟨rfl, rfl, hroom⟩)
    fun _ => rfl)

theorem demandBacking_ensures (store : RunStore Id) :
    demandBacking.Ensures store (fun _ later => later = store) fun _ later => later = store := by
  refine Attempt.ensures_bind_iff.mpr (Attempt.ensures_get_iff.mpr ?_)
  exact Attempt.Ensures.check (fun _ => rfl) fun _ => rfl

/-- What the first part of a spill leaves, whether it fails or not: the tiers as they were, perhaps
opened, and other accounts. -/
def Begun (store later : RunStore Id) : Prop :=
  ∃ pendingBytes backing, later = store.charged pendingBytes backing ∨
    later = store.opened.charged pendingBytes backing

theorem Begun.live (h : Begun store later) : later.live = store.live := by
  obtain ⟨pendingBytes, backing, rfl | rfl⟩ := h
  · rfl
  · exact live_opened store

theorem Begun.sound (h : Begun store later) (hsound : store.Sound whole) : later.Sound whole := by
  obtain ⟨pendingBytes, backing, rfl | rfl⟩ := h
  · exact hsound.charged pendingBytes backing
  · exact hsound.opened.charged pendingBytes backing

/-- The accounts a failed first part of a spill leaves: those of the store, or those of its pending
rows with what was written of their run. -/
inductive Charged (rows : ℕ) (store later : RunStore Id) : Prop
  | same (h : later = store)
  | pending (hbytes : later.pendingBytes = rows * rowBytes)
      (hroom : store.Room (min (2 * (rows * rowBytes)) (u64Bound - 1)))
      (hnarrow : rows * rowBytes < u64Bound)
      (hbacking : later.backing = store.backing.owe (rows * rowBytes) ∨
        (store.charged (rows * rowBytes) store.backing).Room (rows * rowBytes) ∧
          (store.backing.owe (rows * rowBytes)).Tried rows later.backing)

/-- **The pending rows become a run of their own.** -/
theorem writeBatch_ensures {pending : List (Entry Id)} (hpending : pending ≠ [])
    (hsorted : Ascending pending) (store : RunStore Id) :
    (writeBatch pending).Ensures store
      (fun batch later => batch.1 = store.freeLevel ∧ batch.2.Valid ∧ batch.2.rows = pending ∧
        (∃ backing, later = store.opened.charged (pending.length * rowBytes) backing ∧
          (store.backing.owe (pending.length * rowBytes)).Wrote pending.length backing) ∧
        (store.charged (pending.length * rowBytes) store.backing).Room
          (pending.length * rowBytes))
      fun _ later => Begun store later ∧ Charged pending.length store later := by
  have hrun : ∃ run, Run.ofRows pending = some run ∧ run.Valid ∧ run.rows = pending := by
    obtain ⟨row, rest, rfl⟩ := exists_cons_of_ne_nil hpending
    exact ⟨_, rfl, ⟨rfl, hsorted⟩, rfl⟩
  obtain ⟨run, hrun, hvalid, hrows⟩ := hrun
  refine Attempt.ensures_bind_iff.mpr ((chargePending_ensures pending.length store).mono ?_ ?_)
  · rintro _ _ ⟨rfl, hnarrow, hpendingRoom⟩
    refine Attempt.ensures_bind_iff.mpr ((openLevel_ensures _).mono ?_ ?_)
    · rintro _ _ ⟨rfl, rfl, hroom⟩
      have hopened : (store.charged (pending.length * rowBytes)
          (store.backing.owe (pending.length * rowBytes))).opened =
            store.opened.charged (pending.length * rowBytes)
              (store.backing.owe (pending.length * rowBytes)) := rfl
      rw [hopened]
      have hbegun : ∀ backing, Begun store
          (store.opened.charged (pending.length * rowBytes) backing) :=
        fun backing => ⟨_, backing, .inr rfl⟩
      have htried : ∀ {n backing later},
          (store.backing.owe (pending.length * rowBytes)).Wrote n backing →
          backing.Tried (pending.length - n) later → n ≤ pending.length →
          Begun store (store.opened.charged (pending.length * rowBytes) later) ∧
            Charged pending.length store
              (store.opened.charged (pending.length * rowBytes) later) :=
        fun hwrote htried hn => ⟨hbegun _, .pending rfl hpendingRoom hnarrow
          (.inr ⟨hroom, hwrote.tried_of htried (by omega)⟩)⟩
      refine Attempt.ensures_bind_iff.mpr ((demandBacking_ensures _).mono ?_ ?_)
      · rintro _ _ rfl
        refine Attempt.ensures_bind_iff.mpr (Attempt.ensures_on_iff.mpr
          ((Backing.call_ensures (store.backing.owe (pending.length * rowBytes))).mono ?_ ?_))
        · intro _ created hcreated
          refine Attempt.ensures_bind_iff.mpr (Attempt.ensures_on_iff.mpr
            ((writeRows_ensures pending created).mono ?_ ?_))
          · intro _ written hwritten
            have hwrote := hcreated.trans hwritten
            rw [Nat.zero_add] at hwrote
            refine Attempt.ensures_bind_iff.mpr (Attempt.ensures_on_iff.mpr
              ((Backing.call_ensures written).mono ?_ ?_))
            · intro _ flushed hflushed
              have hdone := hwrote.trans hflushed
              rw [Nat.add_zero] at hdone
              rw [hrun]
              exact ⟨rfl, hvalid, hrows, ⟨flushed, rfl, hdone⟩, hroom⟩
            · exact fun _ last hlast => htried hwrote (hlast.1.mono (Nat.zero_le _)) (Nat.le_refl _)
          · exact fun _ last hlast => htried hcreated (hlast.1.mono (Nat.le_refl _)) (Nat.zero_le _)
        · exact fun _ last hlast => htried (.refl _) (hlast.1.mono (Nat.zero_le _)) (Nat.zero_le _)
      · rintro _ _ rfl
        exact ⟨hbegun _, .pending rfl hpendingRoom hnarrow (.inl rfl)⟩
    · rintro _ _ rfl
      exact ⟨⟨_, _, .inl rfl⟩, .pending rfl hpendingRoom hnarrow (.inl rfl)⟩
  · rintro _ _ rfl
    exact ⟨⟨_, _, .inl rfl⟩, .same rfl⟩

/-! ### The merges of a spill -/

/-- A store with another backing and another account of its inputs. -/
def counted (store : RunStore Id) (backing : Backing) (mergeInputBytes : ℕ) : RunStore Id :=
  { store with backing := backing, mergeInputBytes := mergeInputBytes }

theorem Sound.counted (h : store.Sound whole) (backing : Backing) (mergeInputBytes : ℕ) :
    (store.counted backing mergeInputBytes).Sound whole := ⟨h.valid, h.bounded, h.readable, h.scans⟩

theorem reserveOutput_ensures (older newer : ℕ) (store : RunStore Id) :
    (reserveOutput older newer).Ensures store
      (fun _ later => later = store ∧ store.Room ((older + newer) * rowBytes))
      fun _ later => later = store := by
  refine Attempt.ensures_bind_iff.mpr (Attempt.Ensures.check (fun _ => ?_) fun _ => rfl)
  refine Attempt.ensures_bind_iff.mpr (Attempt.Ensures.check (fun _ => ?_) fun _ => rfl)
  refine Attempt.ensures_bind_iff.mpr ((reserve_ensures _ store).mono_ok ?_)
  rintro _ _ ⟨rfl, hroom⟩
  exact (demandBacking_ensures _).mono_ok fun _ _ hlater => ⟨hlater, hroom⟩

theorem mergeUnder_ensures {newer older : Run Id} (hnewer : newer.Valid) (holder : older.Valid)
    (store : RunStore Id) :
    (mergeUnder newer older).Ensures store
      (fun run later => run.Valid ∧ run.rows = overlayRows newer.rows older.rows ∧
        store.Room ((older.count + newer.count) * rowBytes) ∧
        ∃ written, store.backing.Wrote run.rows.length written ∧
          later = store.counted ((written.giveBack newer.bytes).giveBack older.bytes)
            (store.mergeInputBytes - older.bytes))
      fun _ later => ∃ backing, later = store.counted backing store.mergeInputBytes ∧
        (store.Room ((older.count + newer.count) * rowBytes) ∧
            store.backing.Tried (overlayRows newer.rows older.rows).length backing ∨
          backing = store.backing) := by
  refine Attempt.ensures_bind_iff.mpr ((reserveOutput_ensures _ _ store).mono ?_ ?_)
  · rintro _ _ ⟨rfl, hroom⟩
    refine Attempt.ensures_bind_iff.mpr (Attempt.ensures_get_iff.mpr ?_)
    refine Attempt.ensures_bind_iff.mpr (Attempt.ensures_on_iff.mpr
      ((mergeRuns_ensures holder hnewer _ _).mono ?_ ?_))
    · rintro run written ⟨hrun, hrows, hwrote⟩
      exact ⟨hrun, hrows, hroom, written, hwrote, rfl⟩
    · rintro e backing ⟨htried, -⟩
      exact ⟨backing, rfl, .inl ⟨hroom, htried⟩⟩
  · rintro _ _ rfl
    exact ⟨_, rfl, .inr rfl⟩

/-- **The merges** write the newest rows over all older ones. -/
theorem mergeAll_ensures {older : List (Run Id)} (holder : ∀ run ∈ older, run.Valid) :
    ∀ {newer : Run Id} (store : RunStore Id), newer.Valid →
      (older.foldlM mergeUnder newer).Ensures store
        (fun run later => run.Valid ∧ run.rows = overlayAll (newer.rows :: older.map Run.rows) ∧
          ∃ backing mergeInputBytes, later = store.counted backing mergeInputBytes)
        fun _ later => ∃ backing mergeInputBytes, later = store.counted backing mergeInputBytes := by
  induction older with
  | nil =>
    intro newer store hnewer
    exact ⟨hnewer, (overlayRows_nil_right hnewer.ascending).symm, _, _, rfl⟩
  | cons next rest ih =>
    intro newer store hnewer
    rw [forall_mem_cons] at holder
    rw [List.foldlM_cons]
    refine Attempt.ensures_bind_iff.mpr ((mergeUnder_ensures hnewer holder.1 store).mono ?_ ?_)
    · rintro run _ ⟨hrun, hrows, -, written, -, rfl⟩
      refine (ih holder.2 _ hrun).mono ?_ ?_
      · rintro last _ ⟨hlast, hall, backing, mergeInputBytes, rfl⟩
        refine ⟨hlast, ?_, backing, mergeInputBytes, rfl⟩
        rw [hall, hrows]
        exact overlayRows_assoc hnewer.ascending holder.1.ascending ascending_overlayAll
      · rintro e _ ⟨backing, mergeInputBytes, rfl⟩
        exact ⟨backing, mergeInputBytes, rfl⟩
    · rintro e _ ⟨backing, rfl, -⟩
      exact ⟨backing, _, rfl⟩

/-! ### A spill as a whole -/

def older (store : RunStore Id) : List (Run Id) := (store.levels.take store.freeLevel).filterMap id

def above (store : RunStore Id) : List (Run Id) :=
  (store.levels.drop (store.freeLevel + 1)).filterMap id

theorem levels_opened (store : RunStore Id) : store.opened.levels =
    store.levels.take store.freeLevel ++ none :: store.levels.drop (store.freeLevel + 1) :=
  (levels_freeLevel store).2.1

theorem take_opened (store : RunStore Id) :
    (store.opened.levels.take store.freeLevel).filterMap id = store.older := by
  rw [levels_opened, take_append_of_le_length (levels_freeLevel store).2.2.ge,
    take_of_length_le (levels_freeLevel store).2.2.le]
  rfl

theorem drop_opened (store : RunStore Id) : store.opened.levels.drop store.freeLevel =
    none :: store.levels.drop (store.freeLevel + 1) := by
  rw [levels_opened]
  exact drop_left' (levels_freeLevel store).2.2

theorem levels_takeOlder {run : Run Id} (pendingBytes : ℕ) (backing : Backing) :
    (takeOlder store.freeLevel run (store.opened.charged pendingBytes backing)).levels =
      List.replicate store.freeLevel none ++ none :: store.levels.drop (store.freeLevel + 1) := by
  rw [takeOlder]
  exact congrArg _ (drop_opened store)

theorem live_replicate (levels : List (Option (Run Id))) :
    (List.replicate level none ++ levels).filterMap id = levels.filterMap id := by
  have hnone : (List.replicate level (none : Option (Run Id))).filterMap id = [] :=
    filterMap_eq_nil_iff.mpr fun run hrun => eq_of_mem_replicate hrun
  rw [filterMap_append, hnone, nil_append]

theorem join_replicate_drop {level : ℕ} {levels : List (Option (Run Id))} {run : Run Id}
    (h : (List.replicate level none ++ levels.drop level)[index]?.join = some run) :
    level ≤ index ∧ levels[index]?.join = some run := by
  by_cases hindex : index < level
  · rw [getElem?_append_left (by rw [length_replicate]; exact hindex),
      getElem?_replicate, if_pos hindex] at h
    cases h
  · have hle := Nat.le_of_not_lt hindex
    rw [getElem?_append_right (by rw [length_replicate]; exact hle),
      length_replicate, getElem?_drop, Nat.add_sub_cancel' hle] at h
    exact ⟨hle, h⟩

theorem Sound.takeOlder (h : store.Sound whole) (level : ℕ) (run : Run Id) :
    (takeOlder level run store).Sound whole := by
  refine h.of_scans (fun other hother => h.row_of_live other ?_) fun index other hother =>
    .inr ⟨(join_replicate_drop hother).2, rfl⟩
  have hsub : (RunStore.takeOlder level run store).live.Sublist store.live := by
    change ((List.replicate level none ++ store.levels.drop level).filterMap id).Sublist _
    rw [live_replicate]
    exact (drop_sublist _ _).filterMap _
  exact hsub.subset hother

theorem Sound.install (h : store.Sound whole) {level : ℕ} {run : Run Id} (hrun : run.Valid)
    (hrows : ∀ row ∈ run.rows, Bounded row ∧ Readable row) : (install level run store).Sound whole := by
  refine h.of_scans (fun other hother => ?_) fun index other hother => ?_
  · change other ∈ (List.replicate level none ++
      some run :: store.levels.drop (level + 1)).filterMap id at hother
    rw [live_replicate] at hother
    rcases mem_cons.mp hother with rfl | hother
    · exact ⟨hrun, hrows⟩
    · exact h.row_of_live other (((drop_sublist _ _).filterMap _).subset hother)
  · rw [RunStore.install, scans_resetScansThrough]
    by_cases hindex : index ≤ level
    · exact .inl (if_pos hindex)
    · refine .inr ⟨?_, if_neg hindex⟩
      change (List.replicate level none ++
        some run :: store.levels.drop (level + 1))[index]?.join = some other at hother
      rw [getElem?_append_right (by rw [length_replicate]; omega),
        length_replicate, show index - level = index - (level + 1) + 1 by omega,
        getElem?_cons_succ, getElem?_drop] at hother
      rw [← hother]
      congr 2
      omega

theorem Sound.settle (h : store.Sound whole) : store.settle.Sound whole :=
  ⟨h.valid, h.bounded, h.readable, h.scans⟩

/-- The tiers from the first free one on, when the runs of those below it are gone. -/
def upper (store : RunStore Id) : RunStore Id :=
  { store.opened with
    levels := List.replicate store.freeLevel none ++ store.opened.levels.drop store.freeLevel }

theorem live_takeOlder {run : Run Id} (pendingBytes : ℕ) (backing : Backing) :
    (takeOlder store.freeLevel run (store.opened.charged pendingBytes backing)).live =
      store.above := by
  rw [live, levels_takeOlder, live_replicate]
  rfl

theorem live_install {run merged : Run Id} (pendingBytes mergeInputBytes : ℕ)
    (backing backing' : Backing) :
    (install store.freeLevel merged ((takeOlder store.freeLevel run
      (store.opened.charged pendingBytes backing)).counted backing' mergeInputBytes)).live =
        merged :: store.above := by
  have hlevels := @levels_takeOlder _ store run pendingBytes backing
  change (List.replicate store.freeLevel none ++ some merged ::
    (takeOlder store.freeLevel run _).levels.drop (store.freeLevel + 1)).filterMap id = _
  rw [live_replicate, hlevels, drop_append, length_replicate,
    drop_eq_nil_of_le (by rw [length_replicate]; omega), Nat.add_sub_cancel_left]
  rfl

/-- How a spill may fail: its own batch could not be written, or a merge failed, when the runs of
the tiers below the free one are gone. -/
inductive SpillFails (pending : List (Entry Id)) (store later : RunStore Id) : Prop
  | unwritten (e : OrderingError) (left : RunStore Id)
      (hbatch : writeBatch pending store = (.error e, left)) (hleft : later = left.settle)
  | unmerged (batch : ℕ × Run Id) (left : RunStore Id)
      (hbatch : writeBatch pending store = (.ok batch, left)) (pendingBytes : ℕ) (backing : Backing)
      (mergeInputBytes : ℕ)
      (hleft : later = (store.upper.charged pendingBytes backing).counted backing mergeInputBytes)

/-- **A spill lays its rows over the rows of the store.** -/
theorem spill_ensures (h : store.Sound whole) {pending : SortedMap ℕ (Row Id)}
    (hpending : pending.entries ≠ []) :
    (spill pending).Ensures store
      (fun _ later => (∀ row ∈ pending.entries, Bounded row ∧ Readable row) →
        later.Sound whole ∧ later.rows = overlayRows pending.entries store.rows)
      fun _ later => later.Sound whole ∧ SpillFails pending.entries store later := by
  rw [spill, if_neg (by rw [List.isEmpty_iff]; exact hpending)]
  refine Attempt.ensures_closing_iff.mpr (Attempt.ensures_bind_iff.mpr
    (((writeBatch_ensures hpending pending.sorted store).and Attempt.ensures_self).mono ?_ ?_))
  · rintro ⟨_, run⟩ _ ⟨⟨rfl, hrun, hsame, ⟨backing, rfl, -⟩, -⟩, hbatch⟩
    refine Attempt.ensures_bind_iff.mpr (Attempt.ensures_get_iff.mpr ?_)
    refine Attempt.ensures_bind_iff.mpr (Attempt.ensures_modify_iff.mpr ?_)
    have htaken : ((store.opened.charged (pending.entries.length * rowBytes) backing).levels.take
        store.freeLevel).filterMap id = store.older := take_opened store
    have hsound := (h.opened.charged (pending.entries.length * rowBytes) backing).takeOlder
      store.freeLevel run
    have holder : ∀ run ∈ store.older, run.Valid := fun run hrun =>
      h.valid run (live_freeLevel store ▸ mem_append_left _ hrun)
    have hall : ∀ rows ∈ pending.entries :: store.older.map Run.rows, Ascending rows := by
      refine forall_mem_cons.mpr ⟨pending.sorted, fun rows hrows => ?_⟩
      obtain ⟨run, hrun, rfl⟩ := mem_map.mp hrows
      exact (holder run hrun).ascending
    rw [htaken]
    refine Attempt.ensures_bind_iff.mpr ((mergeAll_ensures holder _ hrun).mono ?_ ?_)
    · rintro merged _ ⟨hmerged, hmergedRows, backing', mergeInputBytes, rfl⟩ hrows
      rw [hsame] at hmergedRows
      have hgood : ∀ row ∈ merged.rows, Bounded row ∧ Readable row := by
        intro row hrow
        rw [hmergedRows] at hrow
        obtain ⟨rows, hmem, hrow⟩ := mem_overlayAll hall hrow
        rcases mem_cons.mp hmem with rfl | hmem
        · exact hrows row hrow
        · obtain ⟨run, hrun, rfl⟩ := mem_map.mp hmem
          exact (h.row_of_live run (live_freeLevel store ▸ mem_append_left _ hrun)).2 row hrow
      refine ⟨((hsound.counted backing' mergeInputBytes).install hmerged hgood).settle, ?_⟩
      · have hlive : (install store.freeLevel merged ((takeOlder store.freeLevel run
            (store.opened.charged (pending.entries.length * rowBytes) backing)).counted backing'
              mergeInputBytes)).settle.live = merged :: store.above := live_install _ _ _ _
        rw [rows, hlive, map_cons, rows, live_freeLevel, map_append]
        change overlayRows merged.rows (overlayAll (store.above.map Run.rows)) =
          overlayAll ((pending.entries :: store.older.map Run.rows) ++ store.above.map Run.rows)
        rw [hmergedRows, overlayAll_append hall]
    · rintro e _ ⟨backing', mergeInputBytes, rfl⟩
      exact ⟨(hsound.counted backing' mergeInputBytes).settle, .unmerged _ _ hbatch _ _ _ rfl⟩
  · rintro e later ⟨⟨hbegun, -⟩, hbatch⟩
    exact ⟨(hbegun.sound h).settle, .unwritten e _ hbatch rfl⟩

/-! ## Consolidation -/

theorem foldlM_combine (runs : List (Run Id)) : ∀ newer : Run Id,
    runs.foldlM combine (some newer) =
      runs.foldlM mergeUnder newer >>= fun run => pure (some run) := by
  induction runs with
  | nil => exact fun newer => rfl
  | cons next rest ih =>
    intro newer
    rw [List.foldlM_cons, List.foldlM_cons, combine, Attempt.bind_assoc, Attempt.bind_assoc]
    refine congrArg _ (funext fun merged => ?_)
    rw [Attempt.pure_bind]
    exact ih merged

theorem combine_none_ensures (run : Run Id) (store : RunStore Id) :
    (combine none run).Ensures store
      (fun combined later => combined = some run ∧
        later = store.counted store.backing (store.mergeInputBytes - run.bytes) ∧
        store.Room (run.count * rowBytes))
      fun _ later => later = store := by
  refine Attempt.ensures_bind_iff.mpr ((reserveOutput_ensures _ _ store).mono_ok ?_)
  rintro _ _ ⟨rfl, hroom⟩
  exact ⟨rfl, rfl, hroom⟩

theorem levels_takeAll {run : Run Id} : (takeAll store).levels[index]?.join ≠ some run := by
  intro hrun
  obtain ⟨level, hlevel, hlevelRun⟩ := Option.bind_eq_some_iff.mp hrun
  obtain ⟨_, -, hnone⟩ := mem_map.mp (mem_of_getElem? hlevel)
  rw [← hnone] at hlevelRun
  cases hlevelRun

theorem live_takeAll : (takeAll store).live = [] := by
  refine filterMap_eq_nil_iff.mpr fun level hlevel => ?_
  obtain ⟨_, -, rfl⟩ := mem_map.mp hlevel
  rfl

theorem Sound.takeAll (h : store.Sound whole) : (takeAll store).Sound whole := by
  refine h.of_scans (live_takeAll ▸ forall_mem_nil _) fun index run hrun => ?_
  exact absurd hrun levels_takeAll

/-- **Consolidation keeps the rows of the store.** When it fails, all runs are gone. -/
theorem consolidate_ensures (h : store.Sound whole) :
    consolidate.Ensures store (fun _ later => later.Sound whole ∧ later.rows = store.rows)
      fun _ later => later.Sound whole ∧ 2 ≤ store.live.length ∧ later.live = [] := by
  refine Attempt.ensures_bind_iff.mpr (Attempt.ensures_get_iff.mpr ?_)
  split_ifs with hone
  · exact ⟨h, rfl⟩
  · refine Attempt.ensures_closing_iff.mpr (Attempt.ensures_bind_iff.mpr
      (Attempt.ensures_modify_iff.mpr ?_))
    have hfails : ∀ backing mergeInputBytes,
        ((takeAll store).counted backing mergeInputBytes).settle.Sound whole ∧ 2 ≤ store.live.length ∧
          ((takeAll store).counted backing mergeInputBytes).settle.live = [] :=
      fun backing mergeInputBytes => ⟨(h.takeAll.counted backing mergeInputBytes).settle, by omega,
        live_takeAll⟩
    cases hlive : store.live with
    | nil =>
      rw [hlive] at hone
      exact absurd (Nat.zero_le 1) hone
    | cons newest older =>
      have hvalid := h.valid
      rw [hlive, forall_mem_cons] at hvalid
      have hascending := h.ascending
      rw [List.foldlM_cons, Attempt.bind_assoc]
      rw [hlive] at hfails hascending
      refine Attempt.ensures_bind_iff.mpr ((combine_none_ensures newest _).mono ?_ ?_)
      · rintro _ _ ⟨rfl, rfl, -⟩
        rw [foldlM_combine, Attempt.bind_assoc]
        refine Attempt.ensures_bind_iff.mpr ((mergeAll_ensures hvalid.2 _ hvalid.1).mono ?_ ?_)
        · rintro run _ ⟨hrun, hrows, backing, mergeInputBytes, rfl⟩
          have hsame : run.rows = store.rows := by
            rw [hrows, rows, hlive]
            rfl
          have hgood : ∀ row ∈ run.rows, Bounded row ∧ Readable row := by
            intro row hrow
            rw [hrows] at hrow
            obtain ⟨rows, hmem, hrow⟩ := mem_overlayAll hascending hrow
            obtain ⟨other, hother, rfl⟩ := mem_map.mp hmem
            exact (h.row_of_live other (hlive ▸ hother)).2 row hrow
          refine ⟨h.of_scans (fun other hother => ?_) fun index other hother => .inl rfl, ?_⟩
          · obtain rfl : other = run := mem_singleton.mp hother
            exact ⟨hrun, hgood⟩
          · exact (overlayRows_nil_right hrun.ascending).trans hsame
        · rintro e _ ⟨backing, mergeInputBytes, rfl⟩
          exact hfails backing mergeInputBytes
      · rintro e _ rfl
        exact hfails _ _

/-! ## The store of the update route -/

variable {resident resident' : LayerFs.RunStore Id} {later : RunStore Id}

/-- The resident store, whose runs are maps, stands for this one. -/
def Refines (store : RunStore Id) (resident : LayerFs.RunStore Id) : Prop :=
  ∀ serial, store.rows.lookup serial = resident.find serial

/-- **The two stores keep agreeing** when both take a batch. -/
theorem Refines.spill (hrefines : store.Refines resident) (h : store.Sound whole)
    {pending : OrderingRun Id} (hpending : pending.entries ≠ [])
    (hrows : ∀ row ∈ pending.entries, Bounded row ∧ Readable row)
    (hspill : spill pending store = (.ok (), later)) (hresident : resident.spill pending = .ok resident') :
    later.Refines resident' := by
  intro serial
  rw [((spill_ensures h hpending).of_ok hspill hrows).2, LayerFs.RunStore.spill_yields.of_ok hresident,
    ← hrefines serial]
  exact lookup_overlayRows pending.sorted ascending_overlayAll serial

theorem Refines.consolidate (hrefines : store.Refines resident) (h : store.Sound whole)
    (hstore : consolidate store = (.ok (), later)) (hresident : resident.consolidate = .ok resident') :
    later.Refines resident' := by
  intro serial
  rw [((consolidate_ensures h).of_ok hstore).2, LayerFs.RunStore.consolidate_yields.of_ok hresident]
  exact hrefines serial

end RunStore

end LayerFs.Tiered
