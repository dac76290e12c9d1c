import LayerFs.Update.Outcome

/-!
# What an accepted update leaves

* `updateFilesystem_valid_when` — over a valid base, an accepted update leaves a valid root, the
  base's with the headers applied, when no directory lies below itself in the effective bindings and
  supplied directory values name the listings there are.
-/

namespace LayerFs

open FilesystemInput

variable {Id Table : Type} {trees : Trees Id Table} {inp : FilesystemInput Id}

theorem updateFilesystem_eq_ok [DecidableEq Id] {fuel : ℕ} {backing : OrderingBacking}
    {base result : RootRecord Id Table}
    (h : updateFilesystem trees inp fuel backing base = .ok result) :
    ∃ records st contents reducer changes table, inp.classifyOperation false = .ok records ∧
      accountPasses trees (memoryRoute trees inp fuel backing) inp = .ok (st, contents) ∧
      (memoryRoute trees inp fuel backing).release st = .ok reducer ∧
      (memoryRoute trees inp fuel backing).finish reducer = .ok changes ∧
      trees.applyInodeValues base.inodeTable changes = .ok table ∧
      result = { base with inodeTable := table } := by
  rw [updateFilesystem, check_bind_eq_ok, runBody, check_bind_eq_ok, check_bind_eq_ok] at h
  obtain ⟨-, -, hcheck, h⟩ := h
  obtain ⟨records, hrecords, -⟩ := bind_eq_ok.mp hcheck
  obtain ⟨st₀, h₀, h⟩ := bind_eq_ok.mp h
  obtain ⟨st₁, h₁, h⟩ := bind_eq_ok.mp h
  obtain ⟨⟨st₂, contents⟩, h₂, h⟩ := bind_eq_ok.mp h
  obtain ⟨st₃, h₃, h⟩ := bind_eq_ok.mp h
  obtain ⟨st₄, h₄, h⟩ := bind_eq_ok.mp h
  obtain ⟨reducer, hrelease, h⟩ := bind_eq_ok.mp h
  obtain ⟨changes, hfinish, h⟩ := bind_eq_ok.mp h
  obtain ⟨table, htable, h⟩ := bind_eq_ok.mp h
  cases h
  refine ⟨records, st₄, contents, reducer, changes, table, hrecords, ?_, hrelease, hfinish, htable,
    rfl⟩
  exact bind_eq_ok.mpr ⟨st₀, h₀, bind_eq_ok.mpr ⟨st₁, h₁, bind_eq_ok.mpr ⟨(st₂, contents), h₂,
    bind_eq_ok.mpr ⟨st₃, h₃, bind_eq_ok.mpr ⟨st₄, h₄, rfl⟩⟩⟩⟩⟩

/-- **What an accepted update leaves.** Over a valid base, with supplied values that keep their
inode's kind and every new directory bound by a header, the resulting root is valid and its view is
the base's with the headers' bindings applied when every supplied directory value without a header
names the directory's own listing and no directory lies below itself in the effective bindings. It
is so only when the reached directories keep their listings, and when all do, only then. -/
theorem updateFilesystem_valid_when [DecidableEq Id] {fuel : ℕ} {backing : OrderingBacking}
    {base result : RootRecord Id Table} (hbase : inp.base = some (trees.openRoot base))
    (hvalid : (trees.openRoot base).tree.ValidBase) (hkinds : KeepsKinds inp)
    (hbound : BindsNew inp)
    (hrun : updateFilesystem trees inp fuel backing base = .ok result) :
    ((∀ d, KeepsListing trees inp d) ∧ (∀ s, ¬ Relation.TransGen inp.effective.Edge s s) →
      (trees.openRoot result).tree.ValidBase ∧ Applied inp (trees.openRoot result).tree) ∧
    ((trees.openRoot result).tree.ValidBase → Applied inp (trees.openRoot result).tree →
      (∀ d, inp.effective.Reached d → KeepsListing trees inp d) ∧
        ((∀ d, KeepsListing trees inp d) → ∀ s, ¬ Relation.TransGen inp.effective.Edge s s)) := by
  obtain ⟨records, st, contents, reducer, changes, table, hclassify, hpasses, hrelease, hfinish,
    htable, rfl⟩ := updateFilesystem_eq_ok hrun
  have hb : inp.BaseValid := by
    intro base' hbase'
    cases hbase.symm.trans hbase'
    exact hvalid
  have hc := classifyOperation_classified hclassify
  have hfirst := (accountPasses_yields (memoryRoute_reduces trees inp fuel backing) hc hb
    hbase).of_ok hpasses
  obtain ⟨released, hdropping⟩ :=
    (memoryRelease_yields hc hb hbase hkinds hfirst rfl).of_ok hrelease
  have hiff := fun hkeep => (outcome_of_finish hc hb hbase hfirst hdropping rfl hfinish htable
    hkeep).valid_iff hc hb hbase hkinds hkeep hbound hfirst hdropping
  refine ⟨fun ⟨hkeep, hacyclic⟩ => (hiff hkeep).mpr hacyclic, fun hnew happlied =>
    ⟨fun d hd => ?_, fun hkeep => (hiff hkeep).mp ⟨hnew, happlied⟩⟩⟩
  exact keepsListing_of_applied hc hb hbase hkinds hbound hfirst hdropping rfl hfinish htable hnew
    happlied hd

/-! ## Trees that are their own rows -/

def plainTrees : Trees (List (PathName × ℕ)) (List (ℕ × InodeValue (List (PathName × ℕ)))) where
  bindings rows := rows
  inodes rows := rows
  emptyDirectory := []
  applyBindings base changes := .ok (patch (base.getD []) changes)
  applyInodeValues base changes := .ok (patch base changes)
  bindings_empty := rfl
  bindings_apply := by
    rintro base changes root h - -
    cases h
    cases base <;> rfl
  inodes_apply := by
    rintro base changes table h - -
    cases h
    rfl

def plainDirectory (count : ℕ) (rows : List (PathName × ℕ)) :
    InodeValue (List (PathName × ℕ)) := ⟨.directory, count, rows, .root []⟩

/-- `/y` is 2, `/p` is 3 and `/p/x` is 4, all directories. -/
def twinBase : RootRecord (List (PathName × ℕ)) (List (ℕ × InodeValue (List (PathName × ℕ)))) where
  scope := []
  rootInode := 1
  inodeTable := [(1, plainDirectory 0 [(letter 15, 3), (letter 24, 2)]),
    (2, plainDirectory 1 []), (3, plainDirectory 1 [(letter 23, 4)]), (4, plainDirectory 1 [])]

/-- An input of binding changes over `twinBase`. -/
def twinInput (directories : List DirectoryUpdate) : FilesystemInput (List (PathName × ℕ)) where
  base := some (plainTrees.openRoot twinBase)
  scope := []
  rootSerial := 1
  directories := directories
  inodes := []
  newInodes := []
  resources := ⟨1024, 4096, 96, 32, 1048576⟩

/-- `mv /p/x /y/z`. -/
def moveHeaders : List DirectoryUpdate :=
  [⟨2, [(letter 25, some 4)]⟩, ⟨3, [(letter 23, none)]⟩]

/-- Removes `/y` and `/p`, binds `/p/x` in `/y` as well and `/p` in `/p/x`. -/
def cycleHeaders : List DirectoryUpdate :=
  [⟨1, [(letter 15, none), (letter 24, none)]⟩, ⟨2, [(letter 25, some 4)]⟩,
    ⟨4, [(letter 15, some 3)]⟩]

def movedRoot : RootRecord (List (PathName × ℕ)) (List (ℕ × InodeValue (List (PathName × ℕ)))) where
  scope := []
  rootInode := 1
  inodeTable := [(1, plainDirectory 0 [(letter 15, 3), (letter 24, 2)]),
    (2, plainDirectory 1 [(letter 25, 4)]), (3, plainDirectory 1 []), (4, plainDirectory 1 [])]

def cycleRoot : RootRecord (List (PathName × ℕ)) (List (ℕ × InodeValue (List (PathName × ℕ)))) where
  scope := []
  rootInode := 1
  inodeTable := [(1, plainDirectory 0 []), (3, plainDirectory 1 [(letter 23, 4)]),
    (4, plainDirectory 1 [(letter 15, 3)])]

theorem twinBase_valid : (plainTrees.openRoot twinBase).tree.ValidBase := by
  let ns := (plainTrees.openRoot twinBase).tree
  have h12 : ns.Edge 1 2 := ⟨by decide, by decide⟩
  have h13 : ns.Edge 1 3 := ⟨by decide, by decide⟩
  have h34 : ns.Edge 3 4 := ⟨by decide, by decide⟩
  have hreach : ∀ s ∈ ns.serials, ns.Reached s := by
    intro s hs
    have hall : ∀ s ∈ ns.serials, s = 1 ∨ s = 2 ∨ s = 3 ∨ s = 4 := by decide
    obtain rfl | rfl | rfl | rfl := hall s hs
    · exact .refl
    · exact .single h12
    · exact .single h13
    · exact (Relation.ReflTransGen.single h13).tail h34
  exact Namespace.validBase_of_reached (by decide) (by decide) (by decide) (by decide) (by decide)
    (by decide) (by decide) hreach (by decide) (by decide)

theorem twinInput_keepsKinds (headers : List DirectoryUpdate) : KeepsKinds (twinInput headers) := by
  rintro s value record ⟨⟩

theorem twinInput_keepsListing (headers : List DirectoryUpdate) (d : ℕ) :
    KeepsListing plainTrees (twinInput headers) d := by
  rintro value ⟨⟩

theorem twinInput_bindsNew (headers : List DirectoryUpdate) : BindsNew (twinInput headers) := by
  intro s value hnew
  cases hnew

/-- The moved directory is found at its new path, in a valid root. -/
theorem updateFilesystem_move :
    updateFilesystem plainTrees (twinInput moveHeaders) 20 none twinBase = .ok movedRoot ∧
      (plainTrees.openRoot movedRoot).tree.ValidBase ∧
      Applied (twinInput moveHeaders) (plainTrees.openRoot movedRoot).tree := by
  have hrun : updateFilesystem plainTrees (twinInput moveHeaders) 20 none twinBase =
      .ok movedRoot := rfl
  refine ⟨hrun, ?_⟩
  refine (updateFilesystem_valid_when rfl twinBase_valid (twinInput_keepsKinds _)
    (twinInput_bindsNew _) hrun).1 ⟨twinInput_keepsListing _, ?_⟩
  let ns := (twinInput moveHeaders).effective
  have h12 : ns.Edge 1 2 := ⟨by decide, by decide⟩
  have h13 : ns.Edge 1 3 := ⟨by decide, by decide⟩
  have h24 : ns.Edge 2 4 := ⟨by decide, by decide⟩
  have honce : ∀ s ∈ ns.directories, s ≠ ns.root → ns.bindingCount s = 1 := by decide
  apply ns.acyclic_of_reached (by decide) (honce _)
  intro s hs
  have hall : ∀ s ∈ ns.directories, s = 1 ∨ s = 2 ∨ s = 3 ∨ s = 4 := by decide
  obtain rfl | rfl | rfl | rfl := hall s hs
  · exact .refl
  · exact .single h12
  · exact .single h13
  · exact (Relation.ReflTransGen.single h12).tail h24

/-- **A removed directory keeps a cycle alive.** `/y` and `/p` are removed, `/p/x` is bound in the
removed `/y` and `/p` in `/p/x`: the update is accepted, and the table keeps 3 and 4, each bound
by the other and neither reached. -/
theorem updateFilesystem_orphans_cycle : (plainTrees.openRoot twinBase).tree.ValidBase ∧
    KeepsKinds (twinInput cycleHeaders) ∧ BindsNew (twinInput cycleHeaders) ∧
    updateFilesystem plainTrees (twinInput cycleHeaders) 20 none twinBase = .ok cycleRoot ∧
    3 ∈ (plainTrees.openRoot cycleRoot).tree.serials ∧
    ¬ (plainTrees.openRoot cycleRoot).tree.Reached 3 ∧
    ¬ (plainTrees.openRoot cycleRoot).tree.ValidBase := by
  let ns := (plainTrees.openRoot cycleRoot).tree
  have h34 : ns.Edge 3 4 := ⟨by decide, by decide⟩
  have h43 : ns.Edge 4 3 := ⟨by decide, by decide⟩
  have hreach : ¬ ns.Reached 3 := by
    intro h
    rcases Relation.ReflTransGen.cases_head h with h | ⟨next, hedge, -⟩
    · cases h
    · -- the root lists nothing
      have hnext : next ∈ ([] : List ℕ) := hedge.2
      cases hnext
  exact ⟨twinBase_valid, twinInput_keepsKinds _, twinInput_bindsNew _, rfl, by decide, hreach,
    fun hvalid => hvalid.acyclic 3 (.tail (.single h34) h43)⟩

end LayerFs
