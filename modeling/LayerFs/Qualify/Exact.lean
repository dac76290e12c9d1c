import LayerFs.Qualify.Closure

/-!
# When qualification answers for the stored namespace

`qualifyRoot_iff` is about the rows a windowed pass delivers. A root, however, means the rows
its listings *store*. The two agree on every listing in order, and only there: `list_after`
resumes behind a name and never compares a page with the sibling to its left, so the rows of a
page that starts at or before a window boundary are skipped unseen. The inode-table pass makes
exactly this comparison (`rowsAfter`); the listing pass does not.

* `qualifyRoot_exact` — where every listing is in order, acceptance is well-formedness of the
  stored namespace; a root with a page out of order is not well formed.
-/

namespace LayerFs

variable {Id : Type}

def Objects.stored (objects : Objects Id) (root : FilesystemRoot Id) : Namespace Id :=
  objects.namespaceOf Page.rows root

/-- **A well-formed root**: readable, with canonical listings, and a tree of directories over
exactly the inodes of its table. -/
structure WellFormedRoot [DecidableEq Id] (objects : Objects Id) (context : RootContext Id)
    (root : FilesystemRoot Id) : Prop where
  readable : RootReadable objects context root
  listings : objects.Listings root CanonicalListing
  wellFormed : (objects.stored root).WellFormed

/-- Every page of a listing starts past the name recorded for the sibling to its left. -/
def ListingInOrder (p : DirectoryPage) : Prop := Page.InOrder none p

/-- Every listing of the root's directories is in order. -/
def Objects.InOrder [DecidableEq Id] (objects : Objects Id) (context : RootContext Id) : Prop :=
  ∀ root, RootReadable objects context root → objects.Listings root ListingInOrder

theorem window_room : listingWidthBound * window ≤ windowBytes := by decide

theorem deliveredRows_of_canonical {p : DirectoryPage} (h : CanonicalListing p) :
    deliveredRows p = .ok p.rows :=
  deliver_of_canonical window_room (by decide) h.1 h.2 (Nat.lt_succ_self _)

theorem CanonicalListing.inOrder {p : DirectoryPage} (h : CanonicalListing p) :
    ListingInOrder p :=
  Page.inOrder_of_pairwise directoryCheck_sound h.1 h.2 (by simp)

theorem canonical_of_delivers {p : DirectoryPage} (h : Delivers p) (ho : ListingInOrder p) :
    CanonicalListing p := by
  obtain ⟨rows, hrows⟩ := h
  have hchecked := allChecked_of_deliver window_room (by decide) ho hrows
  exact ⟨hchecked, Page.rows_pairwise directoryCheck_sound hchecked ho⟩

/-- Well-formedness reads the bindings through the edges and the counts alone. -/
theorem Namespace.WellFormed.congr {a b : Namespace Id} (htable : (a.root, a.inodes) = (b.root, b.inodes))
    (hedge : a.Edge = b.Edge) (hcount : a.bindingCount = b.bindingCount) (hw : a.WellFormed) :
    b.WellFormed := by
  obtain ⟨_, _, _⟩ := a
  obtain ⟨_, _, _⟩ := b
  cases htable
  exact { nodup := hw.nodup, root_row := hw.root_row,
          bound_mem := fun he => hw.bound_mem (hedge ▸ he),
          root_unbound := hcount ▸ hw.root_unbound,
          reached := fun s hs => by
            rw [Reached, ← hedge]
            exact hw.reached s hs,
          bound_once := fun hm hne hk => hcount ▸ hw.bound_once hm hne hk,
          count_eq := fun hm => hcount ▸ hw.count_eq hm,
          acyclic := hedge ▸ hw.acyclic }

/-- On canonical listings the delivered namespace is well formed exactly when the stored one
is: they have the same edges, counts and rows. -/
theorem wellFormed_delivered_iff {objects : Objects Id} {root : FilesystemRoot Id}
    (hnodup : (objects.stored root).serials.Nodup)
    (h : objects.Listings root CanonicalListing) :
    (objects.delivered root).WellFormed ↔ (objects.stored root).WellFormed := by
  -- the listings agree on every directory of the table
  have hchildren : ∀ d ∈ (objects.stored root).directories,
      (objects.delivered root).children d = (objects.stored root).children d := by
    intro d hd
    obtain ⟨value, hv, hk⟩ := Namespace.mem_directories.mp hd
    have hrows := deliveredRows_of_canonical (h (d, value) hv hk)
    rw [children_delivered hnodup hv hrows, Objects.stored, children_namespaceOf hnodup hv]
  have hedge : (objects.delivered root).Edge = (objects.stored root).Edge := by
    funext d s
    refine propext (and_congr_right fun hd => ?_)
    rw [hchildren d hd]
  have hbound : (objects.delivered root).boundBy (objects.delivered root).directories
      = (objects.stored root).boundBy (objects.stored root).directories :=
    List.flatMap_congr fun d hd => hchildren d hd
  have hcount : (objects.delivered root).bindingCount = (objects.stored root).bindingCount := by
    funext s
    rw [Namespace.bindingCount, hbound]
    rfl
  exact ⟨.congr rfl hedge hcount, .congr rfl hedge.symm hcount.symm⟩

variable [DecidableEq Id] {objects : Objects Id} {context : RootContext Id}
  {root root' : FilesystemRoot Id}

theorem RootReadable.unique (h : RootReadable objects context root)
    (h' : RootReadable objects context root') : root = root' :=
  Except.ok.inj (h.root_eq.symm.trans h'.root_eq)

theorem RootReadable.serials_nodup (h : RootReadable objects context root) :
    (objects.stored root).serials.Nodup :=
  h.table_ordered.imp fun hlt => ne_of_lt hlt

/-- A well-formed root has no page out of order. -/
theorem WellFormedRoot.inOrder (h : WellFormedRoot objects context root) :
    objects.InOrder context := by
  intro root' hr row hrow hk
  obtain rfl := h.readable.unique hr
  exact (h.listings row hrow hk).inOrder

/-- **A well-formed root is accepted**, whatever else its pages hold. -/
theorem WellFormedRoot.accepted (h : WellFormedRoot objects context root) :
    ∃ proof, qualifyRoot objects context = .ok proof := by
  refine qualifyRoot_iff.mpr ⟨root, h.readable, fun row hrow hk => ?_, ?_⟩
  · exact ⟨_, deliveredRows_of_canonical (h.listings row hrow hk)⟩
  · exact (wellFormed_delivered_iff h.readable.serials_nodup h.listings).mpr h.wellFormed

/-- **When qualification is right.** Where every listing page starts past the name recorded for
the sibling to its left, a root is accepted exactly when it is well formed; elsewhere it is not
well formed, so an accepted one is accepted wrongly. -/
theorem qualifyRoot_exact (objects : Objects Id) (context : RootContext Id) :
    (objects.InOrder context →
      ((∃ proof, qualifyRoot objects context = .ok proof) ↔
        ∃ root, WellFormedRoot objects context root)) ∧
    (¬objects.InOrder context → ¬∃ root, WellFormedRoot objects context root) := by
  refine ⟨fun horder => ⟨fun haccept => ?_, fun ⟨_, hroot⟩ => hroot.accepted⟩,
    fun hnot ⟨_, hroot⟩ => hnot hroot.inOrder⟩
  obtain ⟨root, hr, hreads, hw⟩ := qualifyRoot_iff.mp haccept
  have hcanonical : objects.Listings root CanonicalListing := fun row hrow hk =>
    canonical_of_delivers (hreads row hrow hk) (horder root hr row hrow hk)
  exact ⟨root, hr, hcanonical, (wellFormed_delivered_iff hr.serials_nodup hcanonical).mp hw⟩

/-! ## Two windows of names -/

def namedRows (names : List (List ℕ)) (serial : ℕ) : List (PathName × ℕ) :=
  (names.filterMap fun bytes => (PathName.fromBytes bytes).toOption).map (·, serial)

/-- A filled leaf of exactly one window: 64 names of 45 bytes, told apart by their first. -/
def firstLeaf : List (PathName × ℕ) :=
  namedRows ((((List.range 44).map (· + 0x30)) ++ ((List.range 20).map (· + 0x5D))).map
    fun b => b :: List.replicate 44 0x61) 2

/-- The next leaf: 64 names behind those of `firstLeaf`. -/
def secondLeaf : List (PathName × ℕ) :=
  namedRows ((List.range 64).map fun i =>
    [0x78, 0x30 + i / 8, 0x30 + i % 8] ++ List.replicate 44 0x61) 2

/-- A name that comes before the last one of `firstLeaf`, and binds serial 9. -/
def hiddenRow : List (PathName × ℕ) := namedRows [0x30 :: List.replicate 44 0x62] 9

def branchOf (leaves : List (List (PathName × ℕ))) : DirectoryPage :=
  .branch 1 leaves.flatten.length 0 (leaves.flatMap fun rows =>
    (rows.getLast?.map fun last => (last.1, Page.leaf rows)).toList)

theorem branchOf_inOrder {first second : List (PathName × ℕ)}
    (h : ∀ last ∈ first.getLast?, ∀ row ∈ second, last.1 < row.1) :
    ListingInOrder (branchOf [first, second]) := by
  rcases hfirst : first.getLast? with _ | last <;> rcases hsecond : second.getLast? with _ | final
  all_goals simp [ListingInOrder, branchOf, hfirst, hsecond]
  rw [hfirst] at h
  exact ⟨h last rfl final (List.mem_of_getLast? hsecond), fun name serial => h last rfl (name, serial)⟩

/-- A root directory with this listing, and below it a directory 3 that binds the file once. -/
def twoWindows (listing : DirectoryPage) : Objects ℕ where
  filesystemRoot _ := .ok ⟨0, 0, 1, 0, by decide⟩
  directory content := if content = 0 then listing else .leaf (namedRows [[0x61]] 2)
  inodes _ := .leaf [(1, ⟨.directory, 0, 0, .root 0⟩), (2, ⟨.regularFile, 129, 0, .root 0⟩),
    (3, ⟨.directory, 1, 1, .root 0⟩)]

/-- The directory's name comes behind both leaves. -/
def orderedObjects : Objects ℕ :=
  twoWindows (branchOf [firstLeaf, secondLeaf ++ namedRows [[0x7A]] 3])

/-- A root of two directories, whose names come in three windows, is accepted and well formed. -/
theorem qualifyRoot_exact_ordered :
    (∃ proof, qualifyRoot orderedObjects ⟨0, 0, 0, none⟩ = .ok proof) ∧
      ∃ root, WellFormedRoot orderedObjects ⟨0, 0, 0, none⟩ root := by
  have horder : orderedObjects.InOrder ⟨0, 0, 0, none⟩ := by
    have hlisting : ListingInOrder (branchOf [firstLeaf, secondLeaf ++ namedRows [[0x7A]] 3]) :=
      branchOf_inOrder (by decide +kernel)
    intro root _ row _ _
    change ListingInOrder (if row.2.contentRoot = 0 then _ else _)
    split_ifs
    · exact hlisting
    · simp [ListingInOrder]
  have haccept : ∃ proof, qualifyRoot orderedObjects ⟨0, 0, 0, none⟩ = .ok proof := by
    have hok : (qualifyRoot orderedObjects ⟨0, 0, 0, none⟩).isOk = true := by decide +kernel
    rcases hrun : qualifyRoot orderedObjects ⟨0, 0, 0, none⟩ with e | proof
    · rw [hrun] at hok
      cases hok
    · exact ⟨proof, rfl⟩
  exact ⟨haccept, ((qualifyRoot_exact orderedObjects _).1 horder).mp haccept⟩

/-! ## A hidden row -/

/-- The second leaf begins with a row that comes before the first leaf's last. -/
def hidingObjects : Objects ℕ :=
  twoWindows (branchOf [firstLeaf, hiddenRow ++ secondLeaf ++ namedRows [[0x7A]] 3])

/-- **A hidden row is accepted.** The second window resumes behind the last name of the first
leaf and skips the row that binds serial 9, which the table does not hold. -/
theorem qualifyRoot_hidden_row :
    (∃ proof, qualifyRoot hidingObjects ⟨0, 0, 0, none⟩ = .ok proof) ∧
      ¬ ∃ root, WellFormedRoot hidingObjects ⟨0, 0, 0, none⟩ root := by
  refine ⟨?_, ?_⟩
  · have haccept : (qualifyRoot hidingObjects ⟨0, 0, 0, none⟩).isOk = true := by decide +kernel
    rcases hrun : qualifyRoot hidingObjects ⟨0, 0, 0, none⟩ with e | proof
    · rw [hrun] at haccept
      cases haccept
    · exact ⟨proof, rfl⟩
  · rintro ⟨root, hroot⟩
    have hdecoded := hroot.readable.root_eq
    cases hdecoded
    have hedge : (hidingObjects.stored ⟨0, 0, 1, 0, by decide⟩).Edge 1 9 := by
      refine ⟨by decide, ?_⟩
      decide +kernel
    have hmem := hroot.wellFormed.bound_mem hedge
    revert hmem
    decide

end LayerFs
