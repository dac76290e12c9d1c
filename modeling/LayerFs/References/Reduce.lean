import LayerFs.Filesystem.Input
import LayerFs.References.Meaning
import LayerFs.Support.Walk

/-!
# The resident reducer and its spilled runs (`references/reduce.rs`, `references/runs.rs`)

The reducer holds a bounded map of pending rows. When it is full, the rows are written as one
sorted run and merged into the first free tier; a lookup asks the pending map first and then the
tiers, newest first. A run is its sorted rows; the bytes of a run, its reader buffers and the
position a lookup resumes from are left out, since a run never changes once it is written.

* `update_yields` — **spilling never shows**: an effect changes the ledger at its own serial and
  can be refused only for the effect itself or for lack of room.
-/

namespace LayerFs

open List

variable {Id : Type}

def Exhausted : ContentError → Prop
  | .objectLimitExceeded _ _ => True
  | .resourceUnavailable _ => True
  | _ => False

/-! ## Runs -/

namespace SortedMap

variable {K V : Type} [LinearOrder K]

def overlay (newer older : SortedMap K V) : SortedMap K V :=
  newer.entries.foldl (fun m e => m.insert e.1 e.2) older

theorem get?_foldl_insert {k : K} {l : List (K × V)} (hl : Ascending l) :
    ∀ {m : SortedMap K V}, (l.foldl (fun m e => m.insert e.1 e.2) m).get? k
      = (l.lookup k).or (m.get? k) := by
  induction l with
  | nil => simp
  | cons e rest ih =>
    intro m
    rw [ascending_cons] at hl
    rw [foldl_cons, ih hl.2, get?_insert, lookup_cons_eq]
    by_cases hk : k = e.1
    · -- the head's key does not return in the rest
      have hnone : rest.lookup k = none := lookup_eq_none_iff.mpr fun hmem => by
        obtain ⟨r, hr, hrk⟩ := mem_map.mp hmem
        exact absurd (hl.1 r hr) (by simp [hrk, hk])
      rw [hnone, if_pos hk, if_pos hk, Option.none_or, Option.some_or]
    · simp [hk]

@[simp] theorem get?_overlay {newer older : SortedMap K V} {k : K} :
    (newer.overlay older).get? k = (newer.get? k).or (older.get? k) :=
  get?_foldl_insert newer.sorted

end SortedMap

abbrev OrderingRun (Id : Type) := SortedMap ℕ (Row Id)

def runBytes (run : OrderingRun Id) : ℕ := run.size * rowBytes

def maximumLevels : ℕ := 32

/-- Tiered runs over one caller-supplied backing. -/
structure RunStore (Id : Type) where
  backing : Bool
  /-- the backing's own ceiling, when it declares one -/
  capacity : Option ℕ
  limit : ℕ
  levels : List (Option (OrderingRun Id)) := []
  /-- bytes of the rows about to be spilled -/
  pendingBytes : ℕ := 0
  /-- bytes of the runs a merge reads while its output is written -/
  mergeInputBytes : ℕ := 0

namespace RunStore

variable (runs : RunStore Id)

def checkCapacity : ContentResult Unit :=
  ensure (!runs.backing || runs.capacity.all (runs.limit ≤ ·))
    (.resourceUnavailable "ordering backing capacity")

def ownedBytes : ℕ :=
  (runs.levels.map fun run => (run.map runBytes).getD 0).sum + runs.pendingBytes
    + runs.mergeInputBytes

def reserve (bytes : ℕ) : ContentResult Unit :=
  ensure (runs.ownedBytes + bytes ≤ runs.limit)
    (.objectLimitExceeded runs.limit (runs.ownedBytes + bytes))

def find (serial : ℕ) : Option (Row Id) :=
  runs.levels.findSome? fun run => run.bind (·.get? serial)

/-- Merges one older run under a newer one. Both inputs are owned until the output stands. -/
def mergeRuns (state : RunStore Id × OrderingRun Id) (older : OrderingRun Id) :
    ContentResult (RunStore Id × OrderingRun Id) := do
  let (runs, run) := state
  runs.reserve (runBytes older + runBytes run)
  ensure runs.backing (.resourceUnavailable "ordering backing")
  .ok ({ runs with mergeInputBytes := runs.mergeInputBytes - runBytes older }, run.overlay older)

def freeLevel : ℕ := (runs.levels.findIdx? Option.isNone).getD runs.levels.length

def spill (pending : OrderingRun Id) : ContentResult (RunStore Id) :=
  if pending.entries.isEmpty then .ok runs
  else do
    runs.reserve (2 * runBytes pending)
    let runs := { runs with pendingBytes := runBytes pending }
    runs.reserve runs.pendingBytes
    let level := runs.freeLevel
    ensure (level < maximumLevels) (.resourceUnavailable "ordering tiers")
    ensure runs.backing (.resourceUnavailable "ordering backing")
    let olderRuns := (runs.levels.take level).filterMap id
    let above := runs.levels.drop (level + 1)
    let runs := { runs with
      levels := List.replicate level none ++ none :: above
      mergeInputBytes := runs.mergeInputBytes + (olderRuns.map runBytes).sum + runBytes pending }
    let (runs, run) ← olderRuns.foldlM mergeRuns (runs, pending)
    .ok { runs with
      levels := List.replicate level none ++ some run :: above
      mergeInputBytes := runs.mergeInputBytes - runBytes run
      pendingBytes := 0 }

/-- Merges every live run into one. The newest run is adopted, not copied, but its bytes are
reserved like every output. -/
def consolidate : ContentResult (RunStore Id) :=
  match runs.levels.filterMap id with
  | [] => .ok runs
  | [_] => .ok runs
  | newest :: older => do
    let runs := { runs with
      levels := []
      mergeInputBytes := runs.mergeInputBytes + ((newest :: older).map runBytes).sum }
    runs.reserve (runBytes newest)
    ensure runs.backing (.resourceUnavailable "ordering backing")
    let runs := { runs with mergeInputBytes := runs.mergeInputBytes - runBytes newest }
    let (runs, run) ← older.foldlM mergeRuns (runs, newest)
    .ok { runs with levels := [some run] }

def rows : OrderingRun Id :=
  (runs.levels.filterMap id).foldr SortedMap.overlay .empty

end RunStore

/-! ## The reducer -/

/-- Bounded reference reduction over an ordering backing. -/
structure ReferenceReducer (Id : Type) where
  /-- rows held before a spill, at least one -/
  maximumPending : ℕ
  pending : OrderingRun Id := .empty
  declaredNew : SortedMap ℕ Unit := .empty
  runs : RunStore Id

namespace ReferenceReducer

variable (reducer : ReferenceReducer Id)

def declareNew (serial : ℕ) : ContentResult (ReferenceReducer Id) := do
  ensure (serial != 0) (.invalidRecord "inode serial")
  ensure (reducer.declaredNew.get? serial).isNone (.invalidRecord "duplicate new inode")
  .ok { reducer with declaredNew := reducer.declaredNew.insert serial () }

def state (serial : ℕ) : Option (Row Id) :=
  (reducer.pending.get? serial).or (reducer.runs.find serial)

def makeRoom : ContentResult (ReferenceReducer Id) :=
  if reducer.maximumPending ≤ reducer.pending.size then do
    let runs ← reducer.runs.spill reducer.pending
    .ok { reducer with runs := runs, pending := .empty }
  else .ok reducer

def entry (serial : ℕ) : ContentResult (ReferenceReducer Id × Row Id) :=
  match reducer.pending.get? serial with
  | some row => .ok (reducer, row)
  | none => do
    let row := (reducer.runs.find serial).getD
      (freshRow (reducer.declaredNew.get? serial).isSome)
    let reducer ← reducer.makeRoom
    .ok ({ reducer with pending := reducer.pending.insert serial row }, row)

def update (serial : ℕ) (effect : Row Id → ContentResult (Row Id)) :
    ContentResult (ReferenceReducer Id) := do
  let (reducer, row) ← reducer.entry serial
  let row ← effect row
  .ok { reducer with pending := reducer.pending.insert serial row }

def noteRetainedBinding (serial : ℕ) : ContentResult (ReferenceReducer Id) :=
  reducer.update serial Row.retained

def noteRemovedBinding (serial : ℕ) : ContentResult (ReferenceReducer Id) :=
  reducer.update serial Row.removed

def noteValue (serial : ℕ) (value : InodeValue Id) : ContentResult (ReferenceReducer Id) :=
  reducer.update serial fun row => .ok (row.noteValue value)

def touchedSerials : ContentResult (ReferenceReducer Id × List (ℕ × Row Id)) := do
  let runs ← reducer.runs.consolidate
  .ok ({ reducer with runs := runs }, (reducer.pending.overlay runs.rows).entries)

/-- One wave of final rows: every row is completed before the first one is finished. -/
def finishWave (base : ℕ → Option (InodeValue Id)) (root : ℕ) (wave : List (ℕ × Row Id)) :
    ContentResult (List (ℕ × Option (InodeValue Id))) := do
  let rows ← wave.mapM fun (serial, row) => do
    let row ← row.withBase (base serial)
    .ok (serial, row)
  rows.mapM fun (serial, row) => row.finish serial root

def finish (base : ℕ → Option (InodeValue Id)) (batch root : ℕ) :
    ContentResult (List (ℕ × Option (InodeValue Id))) := do
  let runs ← reducer.runs.consolidate
  let waves ← (windows batch [] (reducer.pending.overlay runs.rows).entries).mapM
    (finishWave base root)
  .ok waves.flatten

def view : Ledger Id :=
  ⟨fun serial => (reducer.declaredNew.get? serial).isSome, reducer.state⟩

end ReferenceReducer

/-! ## What the runs answer -/

namespace RunStore

variable {runs : RunStore Id} {s : ℕ}

theorem findSome?_live {levels : List (Option (OrderingRun Id))} :
    (levels.filterMap id).findSome? (·.get? s)
      = levels.findSome? fun run => run.bind (·.get? s) := by
  induction levels with
  | nil => rfl
  | cons level rest ih =>
    cases level with
    | none => simpa using ih
    | some run =>
      rw [filterMap_cons, id_eq, findSome?_cons, findSome?_cons, ih]
      rfl

theorem reserve_yields (bytes : ℕ) : Yields Exhausted (fun _ => True) (runs.reserve bytes) := by
  rw [reserve, ensure]
  split_ifs <;> trivial

theorem mergeRuns_yields {older : List (OrderingRun Id)} :
    ∀ {runs : RunStore Id} {run : OrderingRun Id},
      Yields Exhausted (fun out => out.1.levels = runs.levels ∧ ∀ s,
        out.2.get? s = (run.get? s).or (older.findSome? (·.get? s)))
        (older.foldlM mergeRuns (runs, run)) := by
  induction older with
  | nil =>
    intro runs run
    exact ⟨rfl, fun s => by simp⟩
  | cons next rest ih =>
    intro runs run
    rw [List.foldlM_cons]
    refine Yields.bind (P := fun out => out.1.levels = runs.levels ∧ out.2 = run.overlay next) ?_ ?_
    · rw [mergeRuns]
      refine Yields.bind (reserve_yields _) fun _ _ => ?_
      exact Yields.bind (Yields.ensure fun _ => trivial) fun _ _ => ⟨rfl, rfl⟩
    · rintro ⟨runs', run'⟩ ⟨hlevels, rfl⟩
      refine ih.mono fun out hout => ⟨hout.1.trans hlevels, fun s => ?_⟩
      rw [hout.2, SortedMap.get?_overlay, findSome?_cons]
      cases run.get? s <;> cases next.get? s <;> rfl

theorem find_split : runs.find s = ((runs.levels.take runs.freeLevel).findSome? fun run =>
      run.bind (·.get? s)).or
      ((runs.levels.drop (runs.freeLevel + 1)).findSome? fun run => run.bind (·.get? s)) := by
  have hfree : runs.levels.drop runs.freeLevel
      = none :: runs.levels.drop (runs.freeLevel + 1) ∨ runs.levels.drop runs.freeLevel = [] := by
    rw [freeLevel]
    rcases hidx : runs.levels.findIdx? Option.isNone with _ | i
    · exact .inr (by simp)
    · obtain ⟨hi, hnone, -⟩ := findIdx?_eq_some_iff_getElem.mp hidx
      refine .inl ?_
      rw [Option.getD_some, drop_eq_getElem_cons hi, Option.isNone_iff_eq_none.mp hnone]
  rw [find]
  nth_rewrite 1 [← take_append_drop runs.freeLevel runs.levels]
  rw [findSome?_append]
  congr 1
  rcases hfree with hfree | hfree
  · rw [hfree]
    rfl
  · have hpast : runs.levels.drop (runs.freeLevel + 1) = [] := by
      rw [drop_eq_nil_iff] at hfree ⊢
      omega
    rw [hfree, hpast]

theorem findSome?_installed {n : ℕ} {run : OrderingRun Id}
    {above : List (Option (OrderingRun Id))} :
    (List.replicate n none ++ some run :: above).findSome?
        (fun run : Option (OrderingRun Id) => run.bind (·.get? s))
      = (run.get? s).or (above.findSome? fun run => run.bind (·.get? s)) := by
  have hnone : (List.replicate n (none : Option (OrderingRun Id))).findSome?
      (fun run => run.bind (·.get? s)) = none := by
    rw [findSome?_eq_none_iff]
    intro run hrun
    rw [eq_of_mem_replicate hrun]
    rfl
  rw [findSome?_append, hnone, Option.none_or, findSome?_cons, Option.bind_some]
  cases run.get? s <;> rfl

/-- **A spill answers as the pending rows over the tiers.** -/
theorem spill_yields {pending : OrderingRun Id} :
    Yields Exhausted (fun runs' => ∀ s, runs'.find s = (pending.get? s).or (runs.find s))
      (runs.spill pending) := by
  rw [spill]
  split_ifs with hempty
  · intro s
    rw [SortedMap.get?, List.isEmpty_iff.mp hempty]
    rfl
  · refine Yields.bind (reserve_yields _) fun _ _ => ?_
    refine Yields.bind (reserve_yields _) fun _ _ => ?_
    refine Yields.bind (Yields.ensure fun _ => trivial) fun _ _ => ?_
    refine Yields.bind (Yields.ensure fun _ => trivial) fun _ _ => ?_
    refine mergeRuns_yields.bind ?_
    rintro ⟨runs', run⟩ ⟨-, hrun⟩
    intro s
    have hrun : run.get? s = (pending.get? s).or
        ((runs.levels.take runs.freeLevel).findSome? fun run => run.bind (·.get? s)) := by
      rw [← findSome?_live]
      exact hrun s
    rw [find, findSome?_installed, @find_split _ runs, ← Option.or_assoc, hrun]
    rfl

theorem get?_rows : runs.rows.get? s = runs.find s := by
  rw [rows, find, ← findSome?_live]
  induction runs.levels.filterMap id with
  | nil => rfl
  | cons run rest ih =>
    rw [foldr_cons, SortedMap.get?_overlay, ih, findSome?_cons]
    cases run.get? s <;> rfl

theorem consolidate_yields :
    Yields Exhausted (fun runs' => ∀ s, runs'.find s = runs.find s) runs.consolidate := by
  rw [consolidate]
  split
  · exact fun _ => rfl
  · exact fun _ => rfl
  · rename_i newest older _ hlive
    refine Yields.bind (reserve_yields _) fun _ _ => ?_
    refine Yields.bind (Yields.ensure fun _ => trivial) fun _ _ => ?_
    refine mergeRuns_yields.bind ?_
    rintro ⟨runs', run⟩ ⟨-, hrun⟩
    intro s
    simp only [find, findSome?_cons, Option.bind_some, findSome?_nil]
    rw [hrun, ← findSome?_live, hlive, findSome?_cons]
    cases newest.get? s <;> cases older.findSome? (·.get? s) <;> rfl

end RunStore

namespace ReferenceReducer

variable {reducer : ReferenceReducer Id} {s : ℕ}

theorem state_eq : reducer.view.row? s = reducer.state s := rfl

theorem makeRoom_yields :
    Yields Exhausted (fun r => r.declaredNew = reducer.declaredNew ∧ ∀ s,
      r.state s = reducer.state s) reducer.makeRoom := by
  rw [makeRoom]
  split_ifs
  · refine RunStore.spill_yields.bind fun runs hruns => ⟨rfl, fun s => ?_⟩
    rw [state, state, SortedMap.get?_empty, Option.none_or]
    exact hruns s
  · exact ⟨rfl, fun _ => rfl⟩

/-- **Spilling never shows.** An effect changes the ledger at its own serial; it is refused for
the effect itself or for lack of room. -/
theorem update_yields (effect : Row Id → ContentResult (Row Id)) :
    Yields (fun e => Exhausted e ∨ effect (reducer.view.newest s) = .error e)
      (fun r => ∃ row, effect (reducer.view.newest s) = .ok row ∧
        r.view = reducer.view.set s row) (reducer.update s effect) := by
  have hentry : Yields (fun e => Exhausted e ∨ effect (reducer.view.newest s) = .error e)
      (fun out => out.2 = reducer.view.newest s ∧ out.1.declaredNew = reducer.declaredNew ∧
        ∀ x, x ≠ s → out.1.state x = reducer.state x) (reducer.entry s) := by
    rw [entry]
    rcases hget : reducer.pending.get? s with _ | row
    · refine Yields.bind (Yields.weaken makeRoom_yields fun _ he => .inl he) fun r hr => ?_
      refine ⟨?_, hr.1, fun x hx => ?_⟩
      · simp [Ledger.newest, view, state, hget]
      · rw [← hr.2 x, state, state, SortedMap.get?_insert, if_neg hx]
    · refine ⟨?_, rfl, fun _ _ => rfl⟩
      simp [Ledger.newest, view, state, hget]
  rw [update]
  refine hentry.bind ?_
  rintro ⟨r, row⟩ ⟨rfl, hdeclared, hother⟩
  refine Yields.bind (P := fun row => effect (reducer.view.newest s) = .ok row) ?_ fun row hrow => ?_
  · cases heffect : effect (reducer.view.newest s) with
    | error e => exact .inr rfl
    | ok row => rfl
  · refine ⟨row, hrow, ?_⟩
    rw [view, Ledger.set, view]
    dsimp only at hdeclared ⊢
    rw [hdeclared]
    congr 1
    funext x
    rw [Function.update_apply, state, SortedMap.get?_insert]
    split_ifs with hx
    · rfl
    · exact hother x hx

theorem touchedSerials_yields :
    Yields Exhausted (fun out => out.1.view = reducer.view ∧ Ascending out.2 ∧
      ∀ s row, (s, row) ∈ out.2 ↔ reducer.view.row? s = some row) reducer.touchedSerials := by
  rw [touchedSerials]
  refine RunStore.consolidate_yields.bind fun runs hruns => ⟨?_, SortedMap.sorted _, fun s row => ?_⟩
  · rw [view, view]
    congr 1
    funext s
    rw [state, hruns]
    rfl
  · rw [SortedMap.mem_entries_iff, SortedMap.get?_overlay, RunStore.get?_rows, hruns]
    rfl

/-! ## Final rows -/

def finishRow (base : ℕ → Option (InodeValue Id)) (root serial : ℕ) (row : Row Id) :
    ContentResult (ℕ × Option (InodeValue Id)) := do
  let row ← row.withBase (base serial)
  row.finish serial root

theorem finish_serial {serial root : ℕ} {row : Row Id} {change : ℕ × Option (InodeValue Id)}
    (h : row.finish serial root = .ok change) : change.1 = serial := by
  rw [Row.finish, bind_eq_ok] at h
  obtain ⟨value, -, h⟩ := h
  rw [check_bind_eq_ok] at h
  cases h.2
  rfl

theorem finishWave_eq_ok {base : ℕ → Option (InodeValue Id)} {root : ℕ} {wave : List (ℕ × Row Id)}
    {out : List (ℕ × Option (InodeValue Id))} (h : finishWave base root wave = .ok out) :
    out.map Prod.fst = wave.map Prod.fst ∧
      ∀ entry ∈ wave, ∃ change ∈ out, finishRow base root entry.1 entry.2 = .ok change := by
  rw [finishWave, bind_eq_ok] at h
  obtain ⟨rows, hrows, h⟩ := h
  have hkeys : rows.map Prod.fst = wave.map Prod.fst := by
    refine mapM_ok_keys (fun {a b} hab => ?_) hrows
    obtain ⟨row, -, hab⟩ := bind_eq_ok.mp hab
    cases hab
    rfl
  refine ⟨(mapM_ok_keys (fun hab => finish_serial hab) h).trans hkeys, fun entry hentry => ?_⟩
  obtain ⟨completed, hmem, heq⟩ := mapM_ok_of_mem hrows entry hentry
  obtain ⟨row, hbase, heq⟩ := bind_eq_ok.mp heq
  cases heq
  obtain ⟨change, hchange, hfinish⟩ := mapM_ok_of_mem h _ hmem
  exact ⟨change, hchange, bind_eq_ok.mpr ⟨row, hbase, hfinish⟩⟩

/-- **The final rows** are the finished rows of the ledger, in serial order. -/
theorem finish_eq_ok {base : ℕ → Option (InodeValue Id)} {batch root : ℕ}
    {changes : List (ℕ × Option (InodeValue Id))}
    (h : reducer.finish base batch root = .ok changes) :
    Ascending changes ∧ (∀ s, s ∈ changes.map Prod.fst ↔ (reducer.view.row? s).isSome) ∧
      ∀ s row, reducer.view.row? s = some row →
        ∃ change ∈ changes, finishRow base root s row = .ok change := by
  rw [finish, bind_eq_ok] at h
  obtain ⟨runs, hruns, h⟩ := h
  obtain ⟨waves, hwaves, h⟩ := bind_eq_ok.mp h
  cases h
  have hfind := RunStore.consolidate_yields.of_ok hruns
  have hrows : ∀ s row, (s, row) ∈ (reducer.pending.overlay runs.rows).entries ↔
      reducer.view.row? s = some row := by
    intro s row
    rw [SortedMap.mem_entries_iff, SortedMap.get?_overlay, RunStore.get?_rows, hfind]
    rfl
  have hflat : (windows batch [] (reducer.pending.overlay runs.rows).entries).flatten
      = (reducer.pending.overlay runs.rows).entries := flatten_windows
  have hkeys : waves.flatten.map Prod.fst
      = (reducer.pending.overlay runs.rows).entries.map Prod.fst := by
    rw [← hflat, map_flatten, map_flatten]
    exact congrArg List.flatten (mapM_ok_keys (fun hab => (finishWave_eq_ok hab).1) hwaves)
  refine ⟨?_, fun s => ?_, fun s row hrow => ?_⟩
  · have hsorted := pairwise_map.mpr (SortedMap.sorted (reducer.pending.overlay runs.rows))
    rw [← hkeys] at hsorted
    exact pairwise_map.mp hsorted
  · rw [hkeys, SortedMap.mem_keys_iff, SortedMap.get?_overlay, RunStore.get?_rows, hfind]
    rfl
  · have hmem := (hrows s row).mpr hrow
    rw [← hflat, mem_flatten] at hmem
    obtain ⟨wave, hwave, hmem⟩ := hmem
    obtain ⟨out, hout, hwaveOut⟩ := mapM_ok_of_mem hwaves wave hwave
    obtain ⟨change, hchange, hfinish⟩ := (finishWave_eq_ok hwaveOut).2 _ hmem
    exact ⟨change, mem_flatten.mpr ⟨out, hout, hchange⟩, hfinish⟩

end ReferenceReducer

end LayerFs
