import LayerFs.Support.Release
import LayerFs.Update.Run
import LayerFs.Validate.Effective

/-!
# What the passes account

Before anything is released, the operation has seen every binding its headers change. Whatever
route it drives, the tally of an inode is then the number of its effective bindings, and its noted
value is the supplied one with the rebuilt content root.

* `ReducerRoute.Reduces` — a route keeps a ledger: each of its effects is the effect on one row.
-/

namespace LayerFs

open List

variable {Id Table σ : Type}
variable {base : BaseRoot Id} {d : ℕ}

/-! ## Routes that keep a ledger -/

/-- Each effect of the route is the effect on one row of the ledger it keeps. -/
structure ReducerRoute.Reduces (route : ReducerRoute Id σ) (view : σ → Ledger Id) : Prop where
  start : Yields Exhausted (fun st => view st = .empty) route.start
  declareNew : ∀ st s, Yields (fun e => Exhausted e ∨ s = 0 ∨ (view st).declared s = true)
    (fun st' => view st' = (view st).declare s) (route.declareNew st s)
  retained : ∀ st s,
    Yields (fun e => Exhausted e ∨ ((view st).newest s).retained = .error e)
      (fun st' => ∃ row, ((view st).newest s).retained = .ok row ∧ view st' = (view st).set s row)
      (route.noteRetainedBinding st s)
  removed : ∀ st s,
    Yields (fun e => Exhausted e ∨ ((view st).newest s).removed = .error e)
      (fun st' => ∃ row, ((view st).newest s).removed = .ok row ∧ view st' = (view st).set s row)
      (route.noteRemovedBinding st s)
  noteValue : ∀ st s v,
    Yields Exhausted (fun st' => view st' = (view st).set s (((view st).newest s).noteValue v))
      (route.noteValue st s v)

theorem memoryRoute_reduces (trees : Trees Id Table) (inp : FilesystemInput Id) (fuel : ℕ)
    (backing : OrderingBacking) :
    (memoryRoute trees inp fuel backing).Reduces ReferenceReducer.view where
  start := by
    refine Yields.bind (P := fun _ => True) ?_ fun _ _ => rfl
    rw [RunStore.checkCapacity, ensure]
    split_ifs <;> trivial
  declareNew st s := by
    refine Yields.bind (Yields.ensure fun hs => .inr (.inl (by simpa using hs))) fun _ _ => ?_
    refine Yields.bind (Yields.ensure fun hs => .inr (.inr ?_)) fun _ _ => ?_
    · rw [Option.isNone_eq_false_iff] at hs
      exact hs
    · simp only [Yields.ok_iff, ReferenceReducer.view, Ledger.declare, Ledger.mk.injEq]
      refine ⟨?_, rfl⟩
      funext x
      rw [SortedMap.get?_insert, Function.update_apply]
      split_ifs <;> rfl
  retained st s := ReferenceReducer.update_yields Row.retained
  removed st s := ReferenceReducer.update_yields Row.removed
  noteValue st s v := by
    refine Yields.weaken (Yields.mono (@ReferenceReducer.update_yields Id st s
      fun row => .ok (row.noteValue v)) ?_) ?_
    · rintro r ⟨row, hrow, hview⟩
      cases hrow
      exact hview
    · rintro e (he | he)
      · exact he
      · cases he

section Effects

variable {view : σ → Ledger Id} {stored : ℕ → ℕ}

theorem foldlM_moves {α : Type} (view : σ → Ledger Id) {f : σ → α → ContentResult σ} {change : α → ℕ → ℤ}
    {l : List α} {start : σ}
    (h : ∀ a ∈ l, ∀ st, Yields (fun _ => True)
      (fun st' => Moves stored (view st) (view st') (change a)) (f st a)) :
    Yields (fun _ => True)
      (fun st => Moves stored (view start) (view st) fun s => (l.map fun a => change a s).sum)
      (l.foldlM f start) := by
  refine Yields.foldlM (fun done st => Moves stored (view start) (view st)
    fun s => (done.map fun a => change a s).sum) (Moves.refl.congr fun s => by simp) ?_
  intro done a rest st hl hdone
  refine (h a (by simp [hl]) st).mono fun st' hst' => ?_
  refine (hdone.trans hst').congr fun s => ?_
  simp [Pi.add_apply]

variable {route : ReducerRoute Id σ} (hroute : route.Reduces view) (stored)

include hroute

theorem noteRetained_yields (st : σ) (o : Option ℕ) :
    Yields (fun _ => True) (fun st' => Moves stored (view st) (view st') (occurs o))
      (noteBinding route.noteRetainedBinding st o) := by
  cases o with
  | none => exact Moves.refl.congr fun s => by simp [occurs]
  | some x =>
    refine Yields.weaken (Yields.mono (hroute.retained st x) ?_) fun _ _ => trivial
    rintro st' ⟨row, hrow, hview⟩
    refine (Moves.retained hrow hview).congr fun s => ?_
    simp [occurs, Pi.single_apply, eq_comm]

theorem noteRemoved_yields (st : σ) (o : Option ℕ) :
    Yields (fun _ => True) (fun st' => Moves stored (view st) (view st') fun s => - occurs o s)
      (noteBinding route.noteRemovedBinding st o) := by
  cases o with
  | none => exact Moves.refl.congr fun s => by simp [occurs]
  | some x =>
    refine Yields.weaken (Yields.mono (hroute.removed st x) ?_) fun _ _ => trivial
    rintro st' ⟨row, hrow, hview⟩
    refine (Moves.removed hrow hview).congr fun s => ?_
    by_cases hs : s = x
    · simp [occurs, hs]
    · simp [occurs, hs, Ne.symm hs]

theorem observe_yields (st : σ) (before after : Option ℕ) :
    Yields (fun _ => True)
      (fun st' => Moves stored (view st) (view st') fun s => occurs after s - occurs before s)
      (observe route st before after) := by
  rw [observe]
  split_ifs with heq
  · exact Moves.refl.congr fun s => by simp [heq]
  · refine (noteRetained_yields stored hroute st after).bind fun st₁ h₁ => ?_
    refine (noteRemoved_yields stored hroute st₁ before).mono fun st₂ h₂ => ?_
    refine (h₁.trans h₂).congr fun s => ?_
    rw [Pi.add_apply]
    omega

end Effects

/-! ## Stored and effective counts -/

namespace FilesystemInput

variable (inp : FilesystemInput Id)

def storedCount (serial : ℕ) : ℕ := ((inp.stored serial).map (·.namespaceRefCount)).getD 0

def storedChildren (d : ℕ) : List ℕ := (inp.storedListing d).map Prod.snd

def headerChange (update : DirectoryUpdate) (s : ℕ) : ℤ :=
  (inp.effective.children update.parent).count s - (inp.storedChildren update.parent).count s

variable {inp}

theorem storedCount_new {s : ℕ} (hs : inp.stored s = none) :
    inp.storedCount s = 0 := by
  simp [storedCount, hs]

theorem storedCount_eq (hb : inp.BaseValid) (hbase : inp.base = some base) (s : ℕ) :
    inp.storedCount s = base.tree.bindingCount s := by
  have hvalid := hb base hbase
  rw [storedCount]
  rcases hs : inp.stored s with _ | value
  · -- every binding of the base names an inode of its table
    rw [Option.map_none, Option.getD_none, eq_comm, ← Nat.le_zero, ← Nat.not_lt,
      ← Namespace.edge_iff_bound]
    rintro ⟨d, hd⟩
    have := BaseEdge.child_stored hb ⟨base, hbase, hd⟩
    rw [hs] at this
    cases this
  · obtain ⟨base', hbase', hrow⟩ := (stored_eq_some_iff hb).mp hs
    cases hbase.symm.trans hbase'
    exact hvalid.count_eq hrow

theorem effective_directories_eq (hbase : inp.base = some base) :
    ∃ new : List ℕ, inp.effective.directories = base.tree.directories ++ new ∧
      ∀ d ∈ new, inp.stored d = none := by
  refine ⟨((inp.inodes.filter fun update => (inp.stored update.serial).isNone).map
    fun update => (update.serial, update.value)).filter (fun row => row.2.kind == .directory)
      |>.map Prod.fst, ?_, fun d hd => ?_⟩
  · simp only [Namespace.directories, effective, hbase, Option.map_some, Option.getD_some]
    rw [filter_append, map_append]
  · obtain ⟨row, hrow, rfl⟩ := mem_map.mp hd
    obtain ⟨update, hupdate, rfl⟩ := mem_map.mp (mem_filter.mp hrow).1
    simpa using (mem_filter.mp hupdate).2

theorem effective_nodup (hb : inp.BaseValid) (h : inp.Shaped) (hbase : inp.base = some base) :
    inp.effective.directories.Nodup := by
  apply Namespace.directories_nodup
  simp only [Namespace.serials, effective, hbase, Option.map_some, Option.getD_some,
    map_append, map_map]
  refine nodup_append.mpr ⟨(hb base hbase).nodup, ?_, ?_⟩
  · refine List.Pairwise.imp ne_of_lt ?_
    rw [pairwise_map]
    exact h.values_ascending.filter _
  · intro a ha b hb' hab
    obtain ⟨row, hrow, rfl⟩ := mem_map.mp ha
    obtain ⟨update, hupdate, rfl⟩ := mem_map.mp hb'
    have hnone := (mem_filter.mp hupdate).2
    have := (stored_eq_some_iff hb).mpr ⟨base, hbase, hrow⟩
    simp only [Function.comp] at hab
    rw [← hab, this] at hnone
    cases hnone

theorem heldCount_stored (hb : inp.BaseValid) (hbase : inp.base = some base) (s : ℕ) :
    heldCount inp.storedChildren inp.effective.directories s = inp.storedCount s := by
  obtain ⟨new, hdirs, hnew⟩ := effective_directories_eq hbase
  have hold : ∀ d ∈ base.tree.directories, inp.storedChildren d = base.tree.children d := by
    intro d hd
    obtain ⟨value, hrow, -⟩ := Namespace.mem_directories.mp hd
    rw [storedChildren, storedListing_of_stored hbase
      (by rw [(stored_eq_some_iff hb).mpr ⟨base, hbase, hrow⟩]; rfl)]
    rfl
  have hzero : heldCount inp.storedChildren new s = 0 := by
    rw [heldCount, count_eq_zero, mem_flatMap]
    rintro ⟨d, hd, hs⟩
    rw [storedChildren, storedListing_of_none (hnew d hd)] at hs
    simp at hs
  rw [hdirs, heldCount_append, hzero, Nat.add_zero, storedCount_eq hb hbase,
    Namespace.bindingCount, Namespace.boundBy, heldCount, flatMap_congr hold]

theorem effective_listing_of_unstated (hd : inp.directoryFor d = none) :
    inp.effective.listing d = inp.storedListing d := by
  simp [effective, changesFor, hd, patch]

/-- **The headers lead from the stored counts to the effective ones.** -/
theorem effective_count {backed : Bool} {records : TopologyRecords}
    (hc : Classified inp backed records) (hb : inp.BaseValid) (hbase : inp.base = some base) (s : ℕ)
    :
    (inp.storedCount s : ℤ) + (inp.directories.map fun update => inp.headerChange update s).sum
      = inp.effective.bindingCount s := by
  have hnodup := effective_nodup hb hc.shaped hbase
  have hparents : (inp.directories.map DirectoryUpdate.parent).Nodup :=
    List.Pairwise.imp ne_of_lt (pairwise_map.mpr hc.shaped.parents_ascending)
  have hsub : inp.directories.map DirectoryUpdate.parent ⊆ inp.effective.directories := by
    intro d hd
    obtain ⟨update, hupdate, rfl⟩ := mem_map.mp hd
    exact hc.header_directory hb hupdate
  -- the directories without a header bind what they bound
  have hothers : heldCount inp.effective.children
        (survivors inp.effective.directories (inp.directories.map DirectoryUpdate.parent)) s
      = heldCount inp.storedChildren
        (survivors inp.effective.directories (inp.directories.map DirectoryUpdate.parent)) s := by
    rw [heldCount, heldCount, flatMap_congr]
    intro d hd
    obtain ⟨-, hd⟩ := mem_survivors.mp hd
    have hnone : inp.directoryFor d = none := by
      rw [directoryFor, find?_eq_none]
      intro update hupdate heq
      exact hd (mem_map.mpr ⟨update, hupdate, by simpa using heq⟩)
    rw [Namespace.children, effective_listing_of_unstated hnone, storedChildren]
  have hsum : (inp.directories.map fun update => inp.headerChange update s).sum
      = (heldCount inp.effective.children (inp.directories.map DirectoryUpdate.parent) s : ℤ)
        - heldCount inp.storedChildren (inp.directories.map DirectoryUpdate.parent) s := by
    induction inp.directories with
    | nil => simp
    | cons update rest ih =>
      rw [map_cons, sum_cons, ih, map_cons, heldCount_cons, heldCount_cons,
        headerChange]
      push_cast
      omega
  have heff := heldCount_split inp.effective.children hnodup hparents hsub s
  have hstored := heldCount_split inp.storedChildren hnodup hparents hsub s
  rw [heldCount_stored hb hbase] at hstored
  have hcount : heldCount inp.effective.children inp.effective.directories s
      = inp.effective.bindingCount s := rfl
  rw [hsum]
  omega

end FilesystemInput

/-! ## The directory pass -/

section Directories

open FilesystemInput

variable {inp : FilesystemInput Id} {trees : Trees Id Table} {root : RootRecord Id Table}
  {backed : Bool} {records : TopologyRecords}

theorem bindings_stored (hbase : inp.base = some (trees.openRoot root)) {record : InodeValue Id}
    (hd : inp.stored d = some record) :
    trees.bindings record.contentRoot = inp.storedListing d := by
  rw [storedListing_of_stored hbase (by simp [hd])]
  simp only [stored, hbase, Option.bind_some, Namespace.lookup, Trees.openRoot] at hd
  simp [Trees.openRoot, hd]

theorem changesFor_header (h : inp.Shaped) {update : DirectoryUpdate}
    (hupdate : update ∈ inp.directories) : inp.changesFor update.parent = update.changes := by
  rw [changesFor, (directoryFor_eq_some h).mpr hupdate]
  rfl

theorem headerChange_eq (h : inp.Shaped) {update : DirectoryUpdate}
    (hupdate : update ∈ inp.directories) (hrows : Ascending (inp.storedListing update.parent))
    (s : ℕ) :
    inp.headerChange update s = (update.changes.map fun change => occurs change.2 s
      - occurs ((inp.storedListing update.parent).lookup change.1) s).sum := by
  have hcount := count_patch (h.changes_ascending update hupdate) s hrows
  rw [headerChange, Namespace.children, effective, storedChildren]
  dsimp only
  rw [changesFor_header h hupdate, hcount]
  omega

variable {view : σ → Ledger Id} {route : ReducerRoute Id σ}

theorem rebuild_yields (hroute : route.Reduces view) (hc : Classified inp backed records)
    (hb : inp.BaseValid) (hbase : inp.base = some (trees.openRoot root))
    {update : DirectoryUpdate} (hupdate : update ∈ inp.directories) (st : σ) :
    Yields (fun _ => True)
      (fun out => Moves inp.storedCount (view st) (view out.1) (inp.headerChange update) ∧
        trees.bindings out.2 = inp.effective.listing update.parent)
      (rebuild trees route inp st update) := by
  have hdir := hc.header_directory hb hupdate
  have hrows := storedListing_ascending hb hc.shaped hdir
  have hlisting : inp.effective.listing update.parent
      = patch (inp.storedListing update.parent) update.changes := by
    rw [effective]
    dsimp only
    rw [changesFor_header hc.shaped hupdate]
  have hnewRows : inp.isNew update.parent = true → inp.storedListing update.parent = [] :=
    fun hnew => storedListing_of_none (hc.new_absent _ hnew)
  rw [rebuild]
  split_ifs with hempty
  · -- no changes: the listing is the stored one
    rw [List.isEmpty_iff] at hempty
    have hsame : inp.effective.listing update.parent = inp.storedListing update.parent := by
      rw [hlisting, hempty, patch]
    refine Yields.bind (P := fun id => trees.bindings id = inp.storedListing update.parent) ?_ ?_
    · rw [retainedRoot]
      split_ifs with hnew
      · rw [Yields.ok_iff, hnewRows hnew, trees.bindings_empty]
      · refine Yields.bind (Yields.orError fun _ => trivial) fun record hrecord => ?_
        exact bindings_stored hbase hrecord
    · intro id hid
      refine ⟨Moves.refl.congr fun s => ?_, hid.trans hsame.symm⟩
      rw [headerChange_eq hc.shaped hupdate hrows, hempty]
      rfl
  · refine Yields.bind (P := fun base : Option Id =>
      (base.map trees.bindings).getD [] = inp.storedListing update.parent) ?_ ?_
    · rw [baseDirectory]
      split_ifs with hnew
      · exact (hnewRows hnew).symm
      · refine Yields.bind (Yields.orError fun _ => trivial) fun record hrecord => ?_
        refine Yields.bind (Yields.ensure fun _ => trivial) fun _ _ => ?_
        exact bindings_stored hbase hrecord
    · intro base hbaseRows
      dsimp only
      rw [hbaseRows]
      refine Yields.bind (foldlM_moves view fun change _ st =>
        observe_yields inp.storedCount hroute st _ _) fun st' hst' => ?_
      refine Yields.bind (P := fun id => trees.bindings id = inp.effective.listing update.parent)
        ?_ fun id hid => ⟨hst'.congr fun s => (headerChange_eq hc.shaped hupdate hrows s).symm, hid⟩
      rcases happly : trees.applyBindings base update.changes with e | id
      · trivial
      · have := trees.bindings_apply happly (by rwa [hbaseRows])
          (hc.shaped.changes_ascending update hupdate)
        rw [Yields.ok_iff, this, hbaseRows, hlisting]

/-- The rebuilt roots: one for each header that is not dropped, with its effective listing. -/
structure Rebuilt (inp : FilesystemInput Id) (trees : Trees Id Table)
    (done : List DirectoryUpdate) (contents : List (ℕ × Id)) : Prop where
  keys : contents.map Prod.fst
    = (done.filter fun update => !inp.dropped update.parent).map DirectoryUpdate.parent
  listing : ∀ row ∈ contents, trees.bindings row.2 = inp.effective.listing row.1

/-- **The directory pass** accounts every header and rebuilds every directory it keeps. -/
theorem directories_yields (hroute : route.Reduces view) (hc : Classified inp backed records)
    (hb : inp.BaseValid) (hbase : inp.base = some (trees.openRoot root)) (st : σ) :
    Yields (fun _ => True)
      (fun out => Moves inp.storedCount (view st) (view out.1)
          (fun s => (inp.directories.map fun update => inp.headerChange update s).sum) ∧
        Rebuilt inp trees inp.directories out.2)
      (inp.directories.foldlM (directoryStep trees route inp) (st, [])) := by
  refine Yields.foldlM (fun done (out : σ × List (ℕ × Id)) => Moves inp.storedCount (view st)
      (view out.1)
      (fun s => (done.map fun update => inp.headerChange update s).sum) ∧
      Rebuilt inp trees done out.2) ⟨Moves.refl.congr fun s => by simp, rfl, by simp⟩ ?_
  rintro done update rest ⟨st₁, contents⟩ hall ⟨hmoves, hrebuilt⟩
  have hupdate : update ∈ inp.directories := by rw [hall]; simp
  have hmore : ∀ {st₂}, Moves inp.storedCount (view st₁) (view st₂) (inp.headerChange update) →
      Moves inp.storedCount (view st) (view st₂)
        fun s => ((done ++ [update]).map fun update => inp.headerChange update s).sum :=
    fun h => (hmoves.trans h).congr fun s => by simp [Pi.add_apply]
  rw [directoryStep]
  split_ifs with hdropped
  · refine Yields.bind (foldlM_moves view fun change _ st =>
      noteRetained_yields inp.storedCount hroute st _) fun st₂ hst₂ => ?_
    -- a dropped directory is new, so each of its bindings is an addition
    have hnew : inp.stored update.parent = none := by
      rw [dropped, Bool.and_eq_true, contains_iff_mem, trackedParents, mem_dedup,
        mem_filter, Bool.and_eq_true] at hdropped
      exact hc.new_absent _ hdropped.1.2.2
    have hrows := storedListing_of_none hnew
    refine ⟨hmore (hst₂.congr fun s => ?_), ?_, hrebuilt.listing⟩
    · rw [headerChange_eq hc.shaped hupdate (hrows ▸ ascending_nil), hrows]
      simp [occurs]
    · rw [filter_append, map_append, ← hrebuilt.keys]
      simp [hdropped]
  · refine (rebuild_yields hroute hc hb hbase hupdate st₁).bind ?_
    rintro ⟨st₂, id⟩ ⟨hst₂, hid⟩
    refine ⟨hmore hst₂, ?_, fun row hrow => ?_⟩
    · rw [map_append, hrebuilt.keys, filter_append, map_append]
      simp [hdropped]
    · rcases mem_append.mp hrow with hrow | hrow
      · exact hrebuilt.listing row hrow
      · rw [mem_singleton.mp hrow]
        exact hid

end Directories

end LayerFs
