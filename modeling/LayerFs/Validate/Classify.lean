import LayerFs.Validate.Topology

/-!
# What classification records

The passes of `check_effective_tree` see nothing of the input's rows but the records
classification left. `Classified` says what these are.

* `PlacedBy` — a header states a binding of a directory that the base does not already have.
-/

namespace LayerFs

open List

variable {backed : Bool} {st : ClassifyState} {rows window : List WindowRow}
  {placed : SortedMap ℕ Placement} {records : TopologyRecords} {child : ℕ}

namespace FilesystemInput

variable {Id : Type} (inp : FilesystemInput Id)

/-- A header of `parent` binds `name` to `child`. -/
def States (parent : ℕ) (name : PathName) (child : ℕ) : Prop :=
  (name, some child) ∈ inp.changesFor parent

/-- The base already binds this name of a stored parent to this stored directory. -/
def Restates (parent : ℕ) (name : PathName) (child : ℕ) : Prop :=
  ((inp.stored child).isSome ∧ inp.listed parent) ∧
    (inp.storedListing parent).lookup name = some child

/-- A header of `parent` places the directory `child` there. -/
def PlacedBy (parent child : ℕ) : Prop :=
  ∃ name, inp.States parent name child ∧ inp.bindingKind child = .ok .directory ∧
    ¬ inp.Restates parent name child

/-- The placement a binding of `child` in `parent` records. -/
def placementOf (parent child : ℕ) : Placement where
  parent := parent
  stored := (inp.stored child).isSome
  parentStored := inp.listed parent
  inPlace := false

def RowPlaces (row : WindowRow) (child : ℕ) (placement : Placement) : Prop :=
  ∃ name, row.bound = some (name, child) ∧ inp.bindingKind child = .ok .directory ∧
    ¬ inp.Restates row.parent name child ∧ placement = inp.placementOf row.parent child

def RowChecked (row : WindowRow) : Prop :=
  match row.bound with
  | none => inp.header row.parent = .ok ()
  | some (_, child) => child ≠ inp.rootSerial ∧ ∃ kind, inp.bindingKind child = .ok kind

end FilesystemInput

/-- The topology evidence of one checked input. -/
structure Classified {Id : Type} (inp : FilesystemInput Id) (backed : Bool)
    (records : TopologyRecords) : Prop where
  shaped : inp.Shaped
  base_root : ∀ base ∈ inp.base, base.tree.root = inp.rootSerial
  root_value : inp.base = none →
    ∃ value, inp.valueFor inp.rootSerial = some value ∧ value.kind = .directory
  new_absent : ∀ s, inp.isNew s = true → inp.stored s = none
  headers : ∀ update ∈ inp.directories, inp.header update.parent = .ok ()
  bindings : ∀ {parent name child}, inp.States parent name child →
    child ≠ inp.rootSerial ∧ ∃ kind, inp.bindingKind child = .ok kind
  placed_iff : ∀ {child placement}, records.placed.get? child = some placement ↔
    ∃ parent, inp.PlacedBy parent child ∧ placement = inp.placementOf parent child
  placements_eq : records.placements = records.placed.size
  stored_eq : records.stored = records.placed.entries.countP fun entry => entry.2.stored
  anchored_eq : records.anchored = records.placed.entries.any fun entry =>
    entry.2.parentStored && entry.2.parent != inp.rootSerial
  fresh : (records.backed = backed ∧ records.limit = inp.residentLimit) ∧
    records.inPlace = 0 ∧ records.queue = [] ∧
    records.territory = .empty ∧ records.rooted = .empty ∧ records.scanned = .empty

/-! ## One window -/

section Window

variable {Id : Type} {inp : FilesystemInput Id}

theorem place_yields {placement : Placement} :
    Yields (fun _ => True) (fun placed' => ∀ x p, placed'.get? x = some p ↔
      placed.get? x = some p ∨ x = child ∧ p = placement) (place placed child placement) := by
  rw [place]
  split_ifs with hin
  · trivial
  · intro x p
    rw [SortedMap.get?_insert]
    split_ifs with hx
    · subst hx
      have hnone : placed.get? x = none := by simpa using hin
      simp [hnone, eq_comm]
    · simp [hx]

/-- What a window has found in the rows it has classified. -/
structure Found (inp : FilesystemInput Id) (rows : List WindowRow) (st : ClassifyState) : Prop where
  checked : ∀ row ∈ rows, inp.RowChecked row
  /-- names whose verdict is the base's to give -/
  restated_iff : ∀ parent name child, (parent, name, child) ∈ st.restated ↔
    ⟨parent, some (name, child)⟩ ∈ rows ∧ inp.bindingKind child = .ok .directory ∧
      (inp.stored child).isSome ∧ inp.listed parent
  placed_iff : ∀ child placement, st.placed.get? child = some placement ↔
    ∃ row ∈ rows, ∃ name, row.bound = some (name, child) ∧
      inp.bindingKind child = .ok .directory ∧
      ¬ ((inp.stored child).isSome ∧ inp.listed row.parent) ∧
      placement = inp.placementOf row.parent child

theorem classifyRow_yields (h : Found inp rows st) (row : WindowRow) :
    Yields (fun _ => True) (Found inp (rows ++ [row])) (inp.classifyRow st row) := by
  obtain ⟨parent, bound⟩ := row
  have hchecked : ∀ {row}, inp.RowChecked row → ∀ r ∈ rows ++ [row], inp.RowChecked r := by
    intro row hrow r hr
    rcases mem_append.mp hr with hr | hr
    · exact h.checked r hr
    · exact mem_singleton.mp hr ▸ hrow
  rw [FilesystemInput.classifyRow]
  rcases bound with _ | ⟨name, child⟩
  · refine Yields.bind (P := fun _ => inp.header parent = .ok ()) ?_ fun _ hheader => ?_
    · cases hh : inp.header parent <;> simp
    · refine ⟨hchecked hheader, fun p n c => ?_, fun c p => ?_⟩
      · rw [h.restated_iff]
        simp
      · rw [h.placed_iff]
        simp
  · simp only [FilesystemInput.binding]
    refine Yields.bind (Yields.ensure fun _ => trivial) fun _ hroot => ?_
    rw [bne_iff_ne] at hroot
    refine Yields.bind (P := fun kind => inp.bindingKind child = .ok kind) ?_ fun kind hkind => ?_
    · cases hk : inp.bindingKind child <;> simp
    have hok : inp.RowChecked ⟨parent, some (name, child)⟩ := ⟨hroot, kind, hkind⟩
    split_ifs with hdir hrestated
    · -- files and symbolic links are no evidence
      refine ⟨hchecked hok, fun p n c => ?_, fun c p => ?_⟩
      · rw [h.restated_iff]
        simp only [mem_append, mem_singleton, WindowRow.mk.injEq, Option.some.injEq,
          Prod.mk.injEq]
        refine and_congr_left fun ⟨hc, _⟩ => ⟨.inl, ?_⟩
        rintro (hin | ⟨-, -, rfl⟩)
        · exact hin
        · exact absurd (Except.ok.inj (hkind.symm.trans hc)) hdir
      · rw [h.placed_iff]
        refine ⟨fun ⟨row, hrow, hrest⟩ => ⟨row, by simp [hrow], hrest⟩, ?_⟩
        rintro ⟨row, hrow, n, hbound, hc, hrest⟩
        rcases mem_append.mp hrow with hrow | hrow
        · exact ⟨row, hrow, n, hbound, hc, hrest⟩
        · obtain rfl := mem_singleton.mp hrow
          obtain ⟨rfl, rfl⟩ : name = n ∧ child = c := by simpa using hbound
          exact absurd (Except.ok.inj (hkind.symm.trans hc)) hdir
    · rw [not_ne_iff] at hdir
      subst hdir
      rw [Bool.and_eq_true] at hrestated
      refine ⟨hchecked hok, fun p n c => ?_, fun c p => ?_⟩
      · simp only [mem_append, h.restated_iff, mem_singleton, WindowRow.mk.injEq,
          Option.some.injEq, Prod.mk.injEq]
        refine ⟨?_, ?_⟩
        · rintro (⟨hin, hrest⟩ | ⟨rfl, rfl, rfl⟩)
          · exact ⟨.inl hin, hrest⟩
          · exact ⟨.inr ⟨rfl, rfl, rfl⟩, hkind, hrestated⟩
        · rintro ⟨hin | heq, hrest⟩
          · exact .inl ⟨hin, hrest⟩
          · exact .inr heq
      · rw [h.placed_iff]
        refine ⟨fun ⟨row, hrow, hrest⟩ => ⟨row, by simp [hrow], hrest⟩, ?_⟩
        rintro ⟨row, hrow, n, hbound, hc, hnot, hp⟩
        rcases mem_append.mp hrow with hrow | hrow
        · exact ⟨row, hrow, n, hbound, hc, hnot, hp⟩
        · obtain rfl := mem_singleton.mp hrow
          obtain ⟨rfl, rfl⟩ : name = n ∧ child = c := by simpa using hbound
          exact absurd hrestated hnot
    · rw [not_ne_iff] at hdir
      subst hdir
      rw [Bool.and_eq_true] at hrestated
      refine place_yields.bind fun placed hplaced => ?_
      refine ⟨hchecked hok, fun p n c => ?_, fun c p => ?_⟩
      · simp only [h.restated_iff, mem_append, mem_singleton, WindowRow.mk.injEq,
          Option.some.injEq, Prod.mk.injEq]
        refine and_congr_left fun ⟨_, hc⟩ => ⟨.inl, ?_⟩
        rintro (hin | ⟨rfl, -, rfl⟩)
        · exact hin
        · exact absurd hc hrestated
      · simp only [hplaced, h.placed_iff]
        refine ⟨?_, ?_⟩
        · rintro (⟨row, hrow, hrest⟩ | ⟨rfl, rfl⟩)
          · exact ⟨row, by simp [hrow], hrest⟩
          · exact ⟨⟨parent, some (name, c)⟩, by simp, name, rfl, hkind, hrestated, rfl⟩
        · rintro ⟨row, hrow, n, hbound, hc, hnot, hp⟩
          rcases mem_append.mp hrow with hrow | hrow
          · exact .inl ⟨row, hrow, n, hbound, hc, hnot, hp⟩
          · obtain rfl := mem_singleton.mp hrow
            obtain ⟨rfl, rfl⟩ : name = n ∧ child = c := by simpa using hbound
            exact .inr ⟨rfl, hp⟩

theorem placeRestated_yields (h : Found inp rows st) :
    Yields (fun _ => True) (fun placed => ∀ child placement,
      placed.get? child = some placement ↔ ∃ row ∈ rows, inp.RowPlaces row child placement)
      (st.restated.foldlM inp.placeRestated st.placed) := by
  refine Yields.mono (Yields.foldlM (fun done placed => ∀ child placement,
    placed.get? child = some placement ↔ st.placed.get? child = some placement ∨
      ∃ parent name, (parent, name, child) ∈ done ∧
        (inp.storedListing parent).lookup name ≠ some child ∧
        placement = ⟨parent, true, true, false⟩) ?_ ?_) ?_
  · simp
  · rintro done ⟨parent, name, child⟩ rest placed - hdone
    rw [FilesystemInput.placeRestated]
    split_ifs with hbase
    · intro c p
      rw [hdone]
      refine or_congr_right ⟨fun ⟨q, n, hin, hrest⟩ => ⟨q, n, by simp [hin], hrest⟩, ?_⟩
      rintro ⟨q, n, hin, hnot, hp⟩
      rcases mem_append.mp hin with hin | hin
      · exact ⟨q, n, hin, hnot, hp⟩
      · obtain ⟨rfl, rfl, rfl⟩ : q = parent ∧ n = name ∧ c = child := by simpa using hin
        exact absurd hbase hnot
    · refine place_yields.mono fun placed' hplaced c p => ?_
      rw [hplaced, hdone, or_assoc]
      refine or_congr_right ⟨?_, ?_⟩
      · rintro (⟨q, n, hin, hrest⟩ | ⟨rfl, rfl⟩)
        · exact ⟨q, n, by simp [hin], hrest⟩
        · exact ⟨parent, name, by simp, hbase, rfl⟩
      · rintro ⟨q, n, hin, hnot, hp⟩
        rcases mem_append.mp hin with hin | hin
        · exact .inl ⟨q, n, hin, hnot, hp⟩
        · obtain ⟨rfl, rfl, rfl⟩ : q = parent ∧ n = name ∧ c = child := by simpa using hin
          exact .inr ⟨rfl, hp⟩
  · intro placed hplaced child placement
    rw [hplaced, h.placed_iff]
    refine ⟨?_, ?_⟩
    · rintro (⟨row, hrow, name, hbound, hkind, hnot, hp⟩ | ⟨parent, name, hin, hnot, hp⟩)
      · exact ⟨row, hrow, name, hbound, hkind, fun hr => hnot hr.1, hp⟩
      · obtain ⟨hrow, hkind, hstored, hlisted⟩ := (h.restated_iff _ _ _).mp hin
        refine ⟨_, hrow, name, rfl, hkind, fun hr => hnot hr.2, ?_⟩
        simp [FilesystemInput.placementOf, hp, hstored, hlisted]
    · rintro ⟨row, hrow, name, hbound, hkind, hnot, hp⟩
      by_cases hboth : (inp.stored child).isSome ∧ inp.listed row.parent
      · refine .inr ⟨row.parent, name, (h.restated_iff _ _ _).mpr ⟨?_, hkind, hboth⟩,
          fun hb => hnot ⟨hboth, hb⟩, ?_⟩
        · rwa [← hbound]
        · simp [hp, FilesystemInput.placementOf, hboth]
      · exact .inl ⟨row, hrow, name, hbound, hkind, hboth, hp⟩

/-- The records of the windows classified so far. -/
structure Gathered (inp : FilesystemInput Id) (backed : Bool) (rows : List WindowRow)
    (records : TopologyRecords) : Prop where
  checked : ∀ row ∈ rows, inp.RowChecked row
  placed_iff : ∀ child placement, records.placed.get? child = some placement ↔
    ∃ row ∈ rows, inp.RowPlaces row child placement
  placements_eq : records.placements = records.placed.size
  stored_eq : records.stored = records.placed.entries.countP fun entry => entry.2.stored
  anchored_eq : records.anchored = records.placed.entries.any fun entry =>
    entry.2.parentStored && entry.2.parent != inp.rootSerial
  fresh : (records.backed = backed ∧ records.limit = inp.residentLimit) ∧
    records.inPlace = 0 ∧ records.queue = [] ∧
    records.territory = .empty ∧ records.rooted = .empty ∧ records.scanned = .empty

theorem place_gathered (h : Gathered inp backed rows records)
    (hchecked : ∀ row ∈ window, inp.RowChecked row)
    (hplaced : ∀ child placement, placed.get? child = some placement ↔
      ∃ row ∈ window, inp.RowPlaces row child placement)
    (hnew : ∀ entry ∈ placed.entries, records.placed.get? entry.1 = none) :
    Yields (fun _ => True) (Gathered inp backed (rows ++ window))
      (records.place placed inp.rootSerial) := by
  have hperm := SortedMap.foldl_insert_perm hnew placed.sorted.keys_nodup
  rw [TopologyRecords.place]
  refine Yields.bind (P := fun n => n = records.placements + placed.size) ?_ fun n hn => ?_
  · rw [checkedAdd]
    split_ifs <;> simp
  refine Yields.bind (Yields.ensure fun _ => trivial) fun _ _ => ?_
  refine Yields.bind (Yields.ensure fun _ => trivial) fun _ _ => ?_
  refine ⟨fun row hrow => ?_, fun c p => ?_, ?_, ?_, ?_, h.fresh⟩
  · rcases mem_append.mp hrow with hrow | hrow
    · exact h.checked row hrow
    · exact hchecked row hrow
  · rw [← SortedMap.mem_entries_iff, hperm.mem_iff, mem_append, SortedMap.mem_entries_iff,
      SortedMap.mem_entries_iff, hplaced, h.placed_iff]
    simp only [mem_append, or_and_right, exists_or]
    exact or_comm
  · simp only [hn, h.placements_eq, SortedMap.size]
    rw [hperm.length_eq, length_append]
    omega
  · simp only [h.stored_eq]
    rw [hperm.countP_eq, countP_append]
    omega
  · simp only [h.anchored_eq]
    rw [hperm.any_eq, any_append, Bool.or_comm]

theorem classify_yields (h : Gathered inp backed rows records) :
    Yields (fun _ => True) (Gathered inp backed (rows ++ window))
      (inp.classify records window) := by
  rw [FilesystemInput.classify]
  have hfound : Yields (fun _ => True) (Found inp window) (window.foldlM inp.classifyRow {}) := by
    refine Yields.foldlM (Found inp) ⟨by simp, by simp, by simp⟩ ?_
    intro done row rest st _ hst
    exact classifyRow_yields hst row
  refine hfound.bind fun st hst => (placeRestated_yields hst).bind fun placed hplaced => ?_
  refine Yields.bind (Yields.ensure fun _ => trivial) fun _ hnew => ?_
  split_ifs with hempty
  · -- a window without placements leaves the records as they are
    have hnone : ∀ child placement, ¬ ∃ row ∈ window, inp.RowPlaces row child placement := by
      intro child placement hrow
      rw [← hplaced, ← SortedMap.mem_entries_iff, List.isEmpty_iff.mp hempty] at hrow
      simp at hrow
    refine ⟨fun row hrow => ?_, fun c p => ?_, h.placements_eq, h.stored_eq, h.anchored_eq,
      h.fresh⟩
    · rcases mem_append.mp hrow with hrow | hrow
      · exact h.checked row hrow
      · exact hst.checked row hrow
    · rw [h.placed_iff]
      simp only [mem_append, or_and_right, exists_or]
      exact (or_iff_left (hnone c p)).symm
  · refine place_gathered h hst.checked hplaced fun entry hentry => ?_
    simpa using all_eq_true.mp hnew entry hentry

end Window

/-! ## The whole input -/

section Whole

variable {Id : Type} {inp : FilesystemInput Id}

theorem mem_windowRows {parent : ℕ} {name : PathName} (h : inp.Shaped) :
    ⟨parent, some (name, child)⟩ ∈ inp.directories.flatMap DirectoryUpdate.windowRows
      ↔ inp.States parent name child := by
  simp only [mem_flatMap, DirectoryUpdate.windowRows, mem_cons, WindowRow.mk.injEq,
    reduceCtorEq, and_false, false_or, mem_filterMap, Option.map_eq_some_iff,
    FilesystemInput.States, mem_changesFor h]
  refine ⟨?_, ?_⟩
  · rintro ⟨update, hupdate, ⟨n, b⟩, hchange, c, rfl, rfl, hbound⟩
    obtain ⟨rfl, rfl⟩ : n = name ∧ c = child := by simpa using hbound
    exact ⟨update, hupdate, rfl, hchange⟩
  · rintro ⟨update, hupdate, rfl, hchange⟩
    exact ⟨update, hupdate, _, hchange, child, rfl, rfl, rfl⟩

theorem header_mem_windowRows {update : DirectoryUpdate} (h : update ∈ inp.directories) :
    ⟨update.parent, none⟩ ∈ inp.directories.flatMap DirectoryUpdate.windowRows :=
  mem_flatMap.mpr ⟨update, h, mem_cons_self⟩

theorem foldlM_classify_yields (backed : Bool) (rows : List WindowRow) :
    Yields (fun _ => True) (Gathered inp backed rows)
      ((windows recordWindow [] rows).foldlM inp.classify
        { backed := backed, limit := inp.residentLimit }) := by
  have hflat : (windows recordWindow [] rows).flatten = rows := flatten_windows
  refine Yields.mono (Yields.foldlM (fun done records => Gathered inp backed done.flatten records)
    ⟨by simp, by simp, rfl, rfl, rfl, by simp⟩ ?_) fun records h => hflat ▸ h
  intro done window rest records _ hdone
  rw [flatten_append, flatten_singleton]
  exact classify_yields hdone

/-- **What classification records.** -/
theorem classifyOperation_classified [DecidableEq Id]
    (h : inp.classifyOperation backed = .ok records) : Classified inp backed records := by
  simp only [FilesystemInput.classifyOperation, check_bind_eq_ok] at h
  obtain ⟨hinput, -, hload, hnew, -, h⟩ := h
  obtain ⟨gathered, hfold, h⟩ := bind_eq_ok.mp h
  simp only [check_bind_eq_ok, FilesystemInput.checkRootInvariants] at h
  obtain ⟨⟨hroot, -⟩, -, h⟩ := h
  cases h
  have hshaped := checkOperationInput_shaped hinput
  have hall := (foldlM_classify_yields backed _).of_ok hfold
  refine ⟨hshaped, ?_, fun hnone => ?_, fun s hs => ?_, fun update hupdate => ?_,
    fun hstates => ?_, ?_, hall.placements_eq, hall.stored_eq, hall.anchored_eq, hall.fresh⟩
  · intro base hbase
    obtain hbase : inp.base = some base := hbase
    simp only [FilesystemInput.loadTopology, hbase, check_bind_eq_ok, ensure_eq_ok] at hload
    simpa using hload.2
  · simp only [FilesystemInput.checkBuiltRoot, hnone, Option.isSome_none, Bool.false_eq_true,
      if_false, bind_eq_ok, orError_eq_ok, ensure_eq_ok, beq_iff_eq] at hroot
    exact hroot
  · simp only [FilesystemInput.checkNewIdentities, ensure_eq_ok, all_eq_true] at hnew
    exact Option.isNone_iff_eq_none.mp (hnew s (by simpa [FilesystemInput.isNew] using hs))
  · exact hall.checked _ (header_mem_windowRows hupdate)
  · exact hall.checked _ ((mem_windowRows hshaped).mpr hstates)
  · intro child placement
    rw [hall.placed_iff]
    refine ⟨?_, ?_⟩
    · rintro ⟨⟨parent, bound⟩, hrow, name, hbound, hkind, hnot, hp⟩
      cases hbound
      exact ⟨parent, ⟨name, (mem_windowRows hshaped).mp hrow, hkind, hnot⟩, hp⟩
    · rintro ⟨parent, ⟨name, hstates, hkind, hnot⟩, hp⟩
      exact ⟨_, (mem_windowRows hshaped).mpr hstates, name, rfl, hkind, hnot, hp⟩

end Whole

end LayerFs
