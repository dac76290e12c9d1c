import LayerFs.Validate.Classify

/-!
# Effective bindings and base bindings

What the stated bindings make of the base tree, independently of how the check proves it.

* `BaseEdge` — a stored directory binds a serial in the base.
-/

namespace LayerFs

variable {name : PathName} {c child d s : ℕ}

namespace FilesystemInput

variable {Id : Type} (inp : FilesystemInput Id)

def BaseValid : Prop := ∀ base ∈ inp.base, base.tree.ValidBase

def BaseEdge (parent child : ℕ) : Prop :=
  ∃ base, inp.base = some base ∧ base.tree.Edge parent child

/-- Every stored directory but the root has exactly one effective binding, and an allocated
directory at most one. -/
structure SingleBound : Prop where
  stored_once : ∀ s ∈ inp.storedDirectories, s ≠ inp.rootSerial → inp.effective.bindingCount s = 1
  new_once : ∀ s ∈ inp.effective.directories, inp.effective.bindingCount s ≤ 1

variable {inp}

/-! ## Records and listings -/

variable {value : InodeValue Id}

theorem stored_eq_some_iff (hb : inp.BaseValid) :
    inp.stored s = some value ↔ ∃ base, inp.base = some base ∧ (s, value) ∈ base.tree.inodes := by
  rw [stored]
  rcases hbase : inp.base with _ | base
  · simp
  · simp [(hb base hbase).mem_iff_lookup]

theorem mem_storedDirectories (hb : inp.BaseValid) :
    d ∈ inp.storedDirectories ↔ ∃ value, inp.stored d = some value ∧ value.kind = .directory := by
  simp only [stored_eq_some_iff hb, storedDirectories]
  rcases hbase : inp.base with _ | base
  · simp
  · simp [Namespace.mem_directories]

theorem valueFor_eq_some_iff (h : inp.Shaped) :
    inp.valueFor s = some value ↔ ⟨s, value⟩ ∈ inp.inodes := by
  rw [valueFor, Option.map_eq_some_iff]
  refine ⟨?_, fun hmem => ⟨⟨s, value⟩, ?_, rfl⟩⟩
  · rintro ⟨update, hfind, rfl⟩
    have hserial : update.serial = s := by simpa using List.find?_some hfind
    exact hserial ▸ List.mem_of_find?_eq_some hfind
  · exact (find?_key_eq_some (f := InodeUpdate.serial) h.values_ascending).mpr hmem

theorem mem_effective_directories (hb : inp.BaseValid) (h : inp.Shaped) :
    d ∈ inp.effective.directories ↔ d ∈ inp.storedDirectories ∨
      inp.stored d = none ∧ ∃ value, inp.valueFor d = some value ∧ value.kind = .directory := by
  rw [Namespace.mem_directories, mem_storedDirectories hb]
  simp only [effective, List.mem_append, or_and_right, exists_or]
  refine or_congr (exists_congr fun value => and_congr_left fun _ => ?_) ?_
  · rw [stored_eq_some_iff hb]
    rcases inp.base with _ | base <;> simp
  · simp only [List.mem_map, List.mem_filter, valueFor_eq_some_iff h]
    refine ⟨?_, ?_⟩
    · rintro ⟨value, ⟨⟨s, v⟩, ⟨hmem, hnone⟩, heq⟩, hkind⟩
      obtain ⟨rfl, rfl⟩ : s = d ∧ v = value := by simpa using heq
      exact ⟨by simpa using hnone, v, hmem, hkind⟩
    · rintro ⟨hnone, value, hmem, hkind⟩
      exact ⟨value, ⟨⟨d, value⟩, ⟨hmem, by simpa using hnone⟩, rfl⟩, hkind⟩

theorem storedDirectories_effective (hb : inp.BaseValid) (h : inp.Shaped)
    (hd : d ∈ inp.storedDirectories) : d ∈ inp.effective.directories :=
  (mem_effective_directories hb h).mpr (.inl hd)

theorem bindingKind_directory (hb : inp.BaseValid) (h : inp.Shaped) :
    inp.bindingKind d = .ok .directory ↔ d ∈ inp.effective.directories := by
  rw [mem_effective_directories hb h, mem_storedDirectories hb, bindingKind]
  rcases inp.stored d with _ | record
  · simp only [reduceCtorEq, false_and, exists_false, false_or, true_and]
    rw [bind_eq_ok]
    simp
  · simp

theorem storedListing_of_stored {base : BaseRoot Id} (hbase : inp.base = some base)
    (hd : (inp.stored d).isSome) : inp.storedListing d = base.tree.listing d := by
  rw [stored, hbase] at hd
  rw [storedListing, hbase]
  exact if_pos hd

theorem storedListing_of_none (hd : inp.stored d = none) : inp.storedListing d = [] := by
  rw [stored] at hd
  rw [storedListing]
  rcases hbase : inp.base with _ | base
  · rfl
  · rw [hbase] at hd
    exact if_neg (by simpa using hd)

theorem storedListing_ascending (hb : inp.BaseValid) (h : inp.Shaped)
    (hd : d ∈ inp.effective.directories) : Ascending (inp.storedListing d) := by
  rcases (mem_effective_directories hb h).mp hd with hd | ⟨hnone, -⟩
  · obtain ⟨value, hvalue, hkind⟩ := (mem_storedDirectories hb).mp hd
    obtain ⟨base, hbase, hmem⟩ := (stored_eq_some_iff hb).mp hvalue
    rw [storedListing_of_stored hbase (by simp [hvalue])]
    exact (hb base hbase).names_ascending d (Namespace.mem_directories.mpr ⟨value, hmem, hkind⟩)
  · rw [storedListing_of_none hnone]
    exact ascending_nil

theorem mem_effective_listing (hb : inp.BaseValid) (h : inp.Shaped)
    (hd : d ∈ inp.effective.directories) :
    (name, child) ∈ inp.effective.listing d ↔ inp.States d name child ∨
      (inp.changesFor d).lookup name = none ∧ (name, child) ∈ inp.storedListing d :=
  mem_patch_iff (changesFor_ascending h d) (storedListing_ascending hb h hd)

theorem baseEdge_of_lookup (hb : inp.BaseValid) (h : inp.Shaped)
    (hd : d ∈ inp.effective.directories) (hl : (inp.storedListing d).lookup name = some child) :
    inp.BaseEdge d child := by
  have hmem := (storedListing_ascending hb h hd).mem_iff_lookup.mpr hl
  rcases (mem_effective_directories hb h).mp hd with hd | ⟨hnone, -⟩
  · obtain ⟨value, hvalue, hkind⟩ := (mem_storedDirectories hb).mp hd
    obtain ⟨base, hbase, hrow⟩ := (stored_eq_some_iff hb).mp hvalue
    rw [storedListing_of_stored hbase (by simp [hvalue])] at hmem
    exact ⟨base, hbase, Namespace.mem_directories.mpr ⟨value, hrow, hkind⟩,
      List.mem_map.mpr ⟨_, hmem, rfl⟩⟩
  · simp [storedListing_of_none hnone] at hmem

/-! ## Base edges -/

theorem BaseEdge.parent_stored {p x : ℕ} (h : inp.BaseEdge p x) :
    p ∈ inp.storedDirectories := by
  obtain ⟨base, hbase, hedge⟩ := h
  simpa [storedDirectories, hbase] using hedge.1

theorem BaseEdge.child_stored (hb : inp.BaseValid) {p x : ℕ} (h : inp.BaseEdge p x) :
    (inp.stored x).isSome := by
  obtain ⟨base, hbase, hedge⟩ := h
  obtain ⟨⟨s, value⟩, hrow, rfl⟩ := List.mem_map.mp ((hb base hbase).bound_mem hedge)
  rw [(stored_eq_some_iff hb).mpr ⟨base, hbase, hrow⟩]
  rfl

theorem BaseEdge.unique (hb : inp.BaseValid) {p q x : ℕ} (hx : x ∈ inp.storedDirectories)
    (hp : inp.BaseEdge p x) (hq : inp.BaseEdge q x) : p = q := by
  obtain ⟨base, hbase, hp⟩ := hp
  obtain ⟨base', hbase', hq⟩ := hq
  cases hbase.symm.trans hbase'
  obtain ⟨value, hvalue, hkind⟩ := (mem_storedDirectories hb).mp hx
  obtain ⟨base', hbase', hrow⟩ := (stored_eq_some_iff hb).mp hvalue
  cases hbase.symm.trans hbase'
  have hvalid := hb base hbase
  have hroot : x ≠ base.tree.root := by
    rintro rfl
    have := Namespace.edge_iff_bound.mp ⟨p, hp⟩
    have := hvalid.root_unbound
    omega
  exact Namespace.parent_unique (hvalid.bound_once hrow hroot (by simp [hkind])) hp hq

theorem base_reached (hb : inp.BaseValid)
    (hroot : ∀ base ∈ inp.base, base.tree.root = inp.rootSerial) {x : ℕ}
    (hx : x ∈ inp.storedDirectories) :
    Relation.ReflTransGen inp.BaseEdge inp.rootSerial x := by
  obtain ⟨value, hvalue, -⟩ := (mem_storedDirectories hb).mp hx
  obtain ⟨base, hbase, hrow⟩ := (stored_eq_some_iff hb).mp hvalue
  have hreach := (hb base hbase).reached x (List.mem_map.mpr ⟨_, hrow, rfl⟩)
  rw [← hroot base hbase]
  exact Relation.ReflTransGen.mono (fun a b hab => ⟨base, hbase, hab⟩) _ _ hreach

end FilesystemInput

/-! ## What classification says about bindings -/

namespace Classified

open FilesystemInput

variable {Id : Type} {inp : FilesystemInput Id} {backed : Bool} {records : TopologyRecords}

theorem root_directory (h : Classified inp backed records) (hb : inp.BaseValid) :
    inp.rootSerial ∈ inp.effective.directories := by
  rw [mem_effective_directories hb h.shaped, mem_storedDirectories hb]
  rcases hbase : inp.base with _ | base
  · exact .inr ⟨by simp [stored, hbase], h.root_value hbase⟩
  · obtain ⟨value, hrow, hkind⟩ := (hb base hbase).root_row
    rw [h.base_root base hbase] at hrow
    exact .inl ⟨value, (stored_eq_some_iff hb).mpr ⟨base, hbase, hrow⟩, hkind⟩

theorem header_directory (h : Classified inp backed records) (hb : inp.BaseValid)
    {update : DirectoryUpdate} (hupdate : update ∈ inp.directories) :
    update.parent ∈ inp.effective.directories := by
  have hheader := h.headers update hupdate
  rw [FilesystemInput.header] at hheader
  split_ifs at hheader with hroot hnew
  · exact hroot ▸ h.root_directory hb
  · rw [bind_eq_ok] at hheader
    obtain ⟨value, hvalue, hkind⟩ := hheader
    rw [orError_eq_ok] at hvalue
    refine (mem_effective_directories hb h.shaped).mpr (.inr ⟨?_, value, hvalue, by simpa using hkind⟩)
    rcases Bool.or_eq_true_iff.mp hnew with hnew | hnone
    · exact h.new_absent _ hnew
    · simp [stored, Option.isNone_iff_eq_none.mp hnone]
  · rw [bind_eq_ok] at hheader
    obtain ⟨value, hvalue, hkind⟩ := hheader
    rw [lookupOne, orError_eq_ok] at hvalue
    exact (mem_effective_directories hb h.shaped).mpr
      (.inl ((mem_storedDirectories hb).mpr ⟨value, hvalue, by simpa using hkind⟩))

theorem states_directory (h : Classified inp backed records) (hb : inp.BaseValid) {p : ℕ}
    (hs : inp.States p name c) : p ∈ inp.effective.directories := by
  obtain ⟨update, hupdate, rfl, -⟩ := (mem_changesFor h.shaped).mp hs
  exact h.header_directory hb hupdate

theorem listed_iff (h : Classified inp backed records) (hb : inp.BaseValid) {p : ℕ}
    (hp : p ∈ inp.effective.directories) (hheader : ∃ update ∈ inp.directories, update.parent = p) :
    inp.listed p = true ↔ p ∈ inp.storedDirectories := by
  rw [listed, Bool.and_eq_true, Bool.or_eq_true, beq_iff_eq, Bool.not_eq_true']
  refine ⟨?_, fun hstored => ?_⟩
  · rintro ⟨hbase, hcase⟩
    rcases (mem_effective_directories hb h.shaped).mp hp with hin | ⟨hnone, -⟩
    · exact hin
    · obtain ⟨base, hbase⟩ := Option.isSome_iff_exists.mp hbase
      rcases hcase with rfl | hnew
      · obtain ⟨value, hrow, -⟩ := (hb base hbase).root_row
        rw [h.base_root base hbase] at hrow
        have := (stored_eq_some_iff hb).mpr ⟨base, hbase, hrow⟩
        rw [hnone] at this
        cases this
      · obtain ⟨update, hupdate, rfl⟩ := hheader
        have hok := h.headers update hupdate
        rw [FilesystemInput.header] at hok
        split_ifs at hok with hroot hor
        · obtain ⟨value, hrow, -⟩ := (hb base hbase).root_row
          rw [h.base_root base hbase, ← hroot] at hrow
          have := (stored_eq_some_iff hb).mpr ⟨base, hbase, hrow⟩
          rw [hnone] at this
          cases this
        · simp [hnew, hbase] at hor
        · rw [bind_eq_ok] at hok
          obtain ⟨value, hvalue, -⟩ := hok
          rw [lookupOne, orError_eq_ok, hnone] at hvalue
          cases hvalue
  · obtain ⟨value, hvalue, -⟩ := (mem_storedDirectories hb).mp hstored
    obtain ⟨base, hbase, -⟩ := (stored_eq_some_iff hb).mp hvalue
    refine ⟨by simp [hbase], .inr ?_⟩
    by_contra hnew
    rw [Bool.not_eq_false] at hnew
    rw [h.new_absent p hnew] at hvalue
    cases hvalue

theorem edge_of_placedBy (h : Classified inp backed records) (hb : inp.BaseValid) {p : ℕ}
    (hp : inp.PlacedBy p c) : inp.effective.Edge p c := by
  obtain ⟨name, hs, -, -⟩ := hp
  have hd := h.states_directory hb hs
  exact ⟨hd, List.mem_map.mpr ⟨_, (mem_effective_listing hb h.shaped hd).mpr (.inl hs), rfl⟩⟩

/-- **An effective binding of a directory** is a recorded placement or a binding of the base. -/
theorem edge_cases (h : Classified inp backed records) (hb : inp.BaseValid) {p : ℕ}
    (hc : c ∈ inp.effective.directories) (hedge : inp.effective.Edge p c) :
    inp.PlacedBy p c ∨ inp.BaseEdge p c := by
  obtain ⟨hp, hchild⟩ := hedge
  obtain ⟨⟨name, child⟩, hmem, rfl⟩ := List.mem_map.mp hchild
  rcases (mem_effective_listing hb h.shaped hp).mp hmem with hs | ⟨-, hbase⟩
  · by_cases hr : inp.Restates p name child
    · exact .inr (baseEdge_of_lookup hb h.shaped hp hr.2)
    · exact .inl ⟨name, hs, (bindingKind_directory hb h.shaped).mpr hc, hr⟩
  · exact .inr (baseEdge_of_lookup hb h.shaped hp
      ((storedListing_ascending hb h.shaped hp).mem_iff_lookup.mp hbase))

end Classified

/-! ## Settled records -/

open FilesystemInput

/-- What the passes read off the placements once renames in place are marked. -/
structure Settled {Id : Type} (inp : FilesystemInput Id) (records : TopologyRecords) : Prop where
  /-- the placements are the placed directories -/
  placedBy : ∀ {c placement}, records.placed.get? c = some placement →
    inp.PlacedBy placement.parent c
  placed : ∀ {p c}, inp.PlacedBy p c →
    ∃ placement, records.placed.get? c = some placement ∧ placement.parent = p
  stored_eq : ∀ {c placement}, records.placed.get? c = some placement →
    placement.stored = (inp.stored c).isSome
  parentStored_eq : ∀ {c placement}, records.placed.get? c = some placement →
    placement.parentStored = inp.listed placement.parent
  /-- a directory marked in place is placed under its base parent -/
  inPlace : ∀ {c placement}, records.placed.get? c = some placement →
    placement.inPlace = true → inp.BaseEdge placement.parent c

namespace Settled

variable {Id : Type} {inp : FilesystemInput Id} {backed : Bool} {start records : TopologyRecords}
  {p q x : ℕ} {placement : Placement}

theorem of_placed_eq (hs : Settled inp start) (h : records.placed = start.placed) :
    Settled inp records := by
  obtain ⟨hby, hplaced, hstored, hparent, hinPlace⟩ := hs
  rw [← h] at hby hplaced hstored hparent hinPlace
  exact ⟨hby, hplaced, hstored, hparent, hinPlace⟩

theorem displaced_iff : records.displaced x = true ↔
    ∃ placement, records.placed.get? x = some placement ∧ placement.inPlace = false := by
  rw [TopologyRecords.displaced]
  rcases records.placed.get? x with _ | placement <;> simp

section

variable (hs : Settled inp records) (h : Classified inp backed start) (hb : inp.BaseValid)

include hs h hb

theorem placed_directory (hx : records.placed.get? x = some placement) :
    x ∈ inp.effective.directories := by
  obtain ⟨name, -, hkind, -⟩ := hs.placedBy hx
  exact (bindingKind_directory hb h.shaped).mp hkind

theorem placed_edge (hx : records.placed.get? x = some placement) :
    inp.effective.Edge placement.parent x :=
  h.edge_of_placedBy hb (hs.placedBy hx)

theorem parentStored_iff (hx : records.placed.get? x = some placement) :
    placement.parentStored = true ↔ placement.parent ∈ inp.storedDirectories := by
  obtain ⟨name, hstates, -, -⟩ := hs.placedBy hx
  obtain ⟨update, hupdate, hparent, -⟩ := (mem_changesFor h.shaped).mp hstates
  rw [hs.parentStored_eq hx]
  exact h.listed_iff hb (h.states_directory hb hstates) ⟨update, hupdate, hparent⟩

theorem stored_iff (hx : records.placed.get? x = some placement) :
    placement.stored = true ↔ x ∈ inp.storedDirectories := by
  rw [hs.stored_eq hx]
  refine ⟨fun hsome => ?_, fun hin => ?_⟩
  · rcases (mem_effective_directories hb h.shaped).mp (hs.placed_directory h hb hx) with hin | ⟨hn, -⟩
    · exact hin
    · simp [hn] at hsome
  · obtain ⟨value, hvalue, -⟩ := (mem_storedDirectories hb).mp hin
    simp [hvalue]

theorem not_edge_of_dropped (hx : x ∈ inp.effective.directories) (hnew : inp.stored x = none)
    (hplaced : records.placed.get? x = none) : ¬ inp.effective.Edge p x := by
  intro hedge
  rcases h.edge_cases hb hx hedge with hby | hbase
  · obtain ⟨placement, hin, -⟩ := hs.placed hby
    simp [hplaced] at hin
  · simpa [hnew] using hbase.child_stored hb

variable (hone : inp.SingleBound)

include hone

omit hs h hb in
theorem edge_unique (hx : x ∈ inp.effective.directories) (hp : inp.effective.Edge p x)
    (hq : inp.effective.Edge q x) : p = q := by
  have hpos := Namespace.edge_iff_bound.mp ⟨p, hp⟩
  have hle := hone.new_once x hx
  exact Namespace.parent_unique (by omega) hp hq

/-- **The way up from a placed directory is its placement.** -/
theorem edge_parent (hx : records.placed.get? x = some placement)
    (hp : inp.effective.Edge p x) : p = placement.parent :=
  edge_unique hone (hs.placed_directory h hb hx) hp (hs.placed_edge h hb hx)

/-- **The way up from a stored directory that was not displaced is its base parent.** -/
theorem edge_iff (hx : x ∈ inp.storedDirectories) (hroot : x ≠ inp.rootSerial)
    (hkept : records.displaced x = false) : inp.effective.Edge p x ↔ inp.BaseEdge p x := by
  have hdir := storedDirectories_effective hb h.shaped hx
  have hforward : ∀ {p}, inp.effective.Edge p x → inp.BaseEdge p x := by
    intro p hp
    rcases h.edge_cases hb hdir hp with hby | hbase
    · obtain ⟨placement, hin, rfl⟩ := hs.placed hby
      have hflag : placement.inPlace = true := by
        by_contra hflag
        rw [Bool.not_eq_true] at hflag
        rw [displaced_iff.mpr ⟨placement, hin, hflag⟩] at hkept
        cases hkept
      exact hs.inPlace hin hflag
    · exact hbase
  refine ⟨hforward, fun hp => ?_⟩
  -- the one effective binding there is leads to a base parent, and that is `p`
  obtain ⟨q, hq⟩ := Namespace.edge_iff_bound.mpr
    (show 0 < inp.effective.bindingCount x by rw [hone.stored_once x hx hroot]; omega)
  exact (hforward hq).unique hb hx hp ▸ hq

end

end Settled

theorem Classified.settled {Id : Type} {inp : FilesystemInput Id} {backed : Bool}
    {records : TopologyRecords} (h : Classified inp backed records) : Settled inp records := by
  refine ⟨fun hx => ?_, fun hp => ?_, fun hx => ?_, fun hx => ?_, fun hx hflag => ?_⟩
  · obtain ⟨parent, hby, rfl⟩ := h.placed_iff.mp hx
    exact hby
  · exact ⟨_, h.placed_iff.mpr ⟨_, hp, rfl⟩, rfl⟩
  · obtain ⟨parent, -, rfl⟩ := h.placed_iff.mp hx
    rfl
  · obtain ⟨parent, -, rfl⟩ := h.placed_iff.mp hx
    rfl
  · obtain ⟨parent, -, rfl⟩ := h.placed_iff.mp hx
    cases hflag

end LayerFs
