import LayerFs.Support.Overlay
import LayerFs.Update.Released

/-!
# The table an operation leaves

* `Outcome` — what the final rows say about the new table: the kept inodes are the root and the
  inodes at a positive tally, each with its final value and that count.
-/

namespace LayerFs

open List

open FilesystemInput

variable {Id Table : Type} {trees : Trees Id Table} {inp : FilesystemInput Id}
  {root : RootRecord Id Table} {backed : Bool} {records : TopologyRecords}
  {contents : List (ℕ × Id)} {first ledger : Ledger Id} {released : List ℕ} {s : ℕ}

/-! ## The final rows -/

def finalRow (inp : FilesystemInput Id) (contents : List (ℕ × Id)) (ledger : Ledger Id) (s : ℕ) :
    Option (InodeValue Id) :=
  if s = inp.rootSerial ∨ ledger.tally inp.storedCount s ≠ 0 then
    (finalOf inp contents s).map
      ({ · with namespaceRefCount := (ledger.tally inp.storedCount s).toNat })
  else none

/-- What the final rows say about the new table. -/
structure Outcome (inp : FilesystemInput Id) (trees : Trees Id Table) (contents : List (ℕ × Id))
    (ledger : Ledger Id) (tree : Namespace Id) : Prop where
  root_eq : tree.root = inp.rootSerial
  ascending : Ascending tree.inodes
  lookup_eq : ∀ s, tree.lookup s = finalRow inp contents ledger s
  listing_eq : ∀ {d v}, tree.lookup d = some v → tree.listing d = trees.bindings v.contentRoot
  /-- no directory and no symlink has two bindings -/
  single : ∀ {s v}, tree.lookup s = some v → s ≠ inp.rootSerial → v.kind ≠ .regularFile →
    v.namespaceRefCount ≤ 1

section Rows

variable (hc : Classified inp backed records) (hb : inp.BaseValid)
  (hbase : inp.base = some (trees.openRoot root))
  (hfirst : Accounted inp trees contents first)
  (h : Dropping trees inp first released [] [] ledger)

include hb in
theorem storedCount_pos {v : InodeValue Id} (hs : inp.stored s = some v)
    (hroot : s ≠ inp.rootSerial)
    (hbaseRoot : ∀ base ∈ inp.base, base.tree.root = inp.rootSerial) : inp.storedCount s ≠ 0 := by
  obtain ⟨base, hbase', hrow⟩ := (stored_eq_some_iff hb).mp hs
  have hreach := (hb base hbase').reached s (mem_map.mpr ⟨_, hrow, rfl⟩)
  rcases Relation.ReflTransGen.cases_tail hreach with hsame | ⟨d, -, hedge⟩
  · rw [hbaseRoot base hbase'] at hsame
    exact absurd hsame hroot
  · have := Namespace.edge_iff_bound.mp ⟨d, hedge⟩
    rw [storedCount_eq hb hbase']
    omega

include hc hfirst h

/-- The final change of one row is the serial's row in the new table, unless its tally fell below
zero. What it keeps has the final content, and passed the check for a second parent. -/
theorem finishRow_eq_ok {row : Row Id}
    (hrow : ledger.row? s = some row) {change : ℕ × Option (InodeValue Id)}
    (hchange : ReferenceReducer.finishRow inp.stored inp.rootSerial s row = .ok change) :
    change.1 = s ∧
      (0 ≤ ledger.tally inp.storedCount s → change.2 = finalRow inp contents ledger s) ∧
      ∀ v ∈ change.2, (v.kind ≠ .regularFile → v.namespaceRefCount ≤ 1) ∧
        ∃ final, finalOf inp contents s = some final ∧ v.contentRoot = final.contentRoot := by
  have hnewest : ledger.newest s = row := by
    rw [Ledger.newest, hrow]
    rfl
  have hvalue : row.value = notedValue inp contents s := hnewest ▸ h.value_eq hfirst s
  have htyped : row.isCount = ledger.declared s := hnewest ▸ h.typed hfirst s
  -- the value the row finishes with
  have hfinal : ∀ completed value, row.withBase (inp.stored s) = .ok completed →
      completed.finalValue s inp.rootSerial = .ok value →
        (0 ≤ ledger.tally inp.storedCount s → value = finalRow inp contents ledger s) ∧
          ∀ v ∈ value, ∃ final, finalOf inp contents s = some final ∧
            v.contentRoot = final.contentRoot := by
    intro completed value hcompleted hfinal
    cases row with
    | count noted n =>
      cases hcompleted
      rw [Row.finalValue, check_bind_eq_ok, ensure_eq_ok, bind_eq_ok] at hfinal
      obtain ⟨hbound, v, hv, hok⟩ := hfinal
      cases hok
      rw [orError_eq_ok] at hv
      have hnew : inp.stored s = none := by
        obtain ⟨change, hmoves⟩ := h.moves
        rw [hmoves.declared, hfirst.declared] at htyped
        have htyped : true = (inp.isNew s && !inp.dropped s) := htyped
        rw [eq_comm, Bool.and_eq_true] at htyped
        exact hc.new_absent s htyped.1
      have htally : ledger.tally inp.storedCount s = n := by
        rw [Ledger.tally, hnewest]
        rfl
      have hnoted : finalOf inp contents s = some v := by
        rw [finalOf, hnew, ← hvalue]
        exact hv
      refine ⟨fun _ => ?_, ?_⟩
      · rw [finalRow, htally, hnoted, if_pos]
        · rfl
        · rw [Bool.or_eq_true, bne_iff_ne, beq_iff_eq] at hbound
          omega
      · rintro _ ⟨⟩
        exact ⟨v, hnoted, rfl⟩
    | effect noted delta =>
      rw [Row.withBase, bind_eq_ok] at hcompleted
      obtain ⟨base, hstored, hok⟩ := hcompleted
      rw [orError_eq_ok] at hstored
      cases hok
      simp only [Row.finalValue, orError, bind, Except.bind] at hfinal
      have htally : ledger.tally inp.storedCount s = base.namespaceRefCount + delta := by
        rw [Ledger.tally, hnewest, storedCount, hstored]
        rfl
      have hnoted : finalOf inp contents s = some (noted.getD base) := by
        rw [finalOf, hstored, ← hvalue]
        rfl
      rcases hn : derivedCount base.namespaceRefCount delta with e | n
      · rw [hn] at hfinal
        cases hfinal
      · rw [hn] at hfinal
        refine ⟨fun hpos => ?_, ?_⟩
        · rw [htally] at hpos
          have hn := derivedCount_eq_ok hn hpos
          rw [finalRow, htally, hnoted, ← hn]
          dsimp only at hfinal
          split_ifs at hfinal with hgone
          · cases hfinal
            rw [if_neg]
            omega
          · cases hfinal
            rw [if_pos]
            · rfl
            · omega
        · dsimp only at hfinal
          split_ifs at hfinal with hgone
          · cases hfinal
            rintro _ ⟨⟩
          · cases hfinal
            rintro _ ⟨⟩
            exact ⟨_, hnoted, rfl⟩
  rw [ReferenceReducer.finishRow, bind_eq_ok] at hchange
  obtain ⟨completed, hcompleted, hfinish⟩ := hchange
  rw [Row.finish, bind_eq_ok] at hfinish
  obtain ⟨value, hvalueOk, hok⟩ := hfinish
  rw [check_bind_eq_ok, ensure_eq_ok] at hok
  obtain ⟨hsingle, hok⟩ := hok
  cases hok
  obtain ⟨hsame, hcontent⟩ := hfinal completed value hcompleted hvalueOk
  refine ⟨rfl, hsame, fun v hv => ⟨fun hkind => ?_, hcontent v hv⟩⟩
  obtain rfl : value = some v := hv
  simpa [hkind] using hsingle

include hb in
theorem finalRow_untouched (hrow : ledger.row? s = none) :
    finalRow inp contents ledger s = inp.stored s := by
  have hnewest : ledger.newest s = freshRow (ledger.declared s) := by
    rw [Ledger.newest, hrow]
    rfl
  have hnoted : notedValue inp contents s = none := by
    rw [← h.value_eq hfirst s, hnewest, freshRow]
    split_ifs <;> rfl
  rcases hstored : inp.stored s with _ | v
  · rw [finalRow, finalOf, hstored, hnoted]
    simp
  · have hdeclared : ledger.declared s = false := by
      obtain ⟨change, hmoves⟩ := h.moves
      rw [hmoves.declared, hfirst.declared]
      by_contra hnew
      rw [Bool.not_eq_false, Bool.and_eq_true] at hnew
      rw [hc.new_absent s hnew.1] at hstored
      cases hstored
    have htally : ledger.tally inp.storedCount s = inp.storedCount s := by
      rw [Ledger.tally, hnewest, hdeclared, freshRow]
      simp [Row.tally]
    have hcount : inp.storedCount s = v.namespaceRefCount := by simp [storedCount, hstored]
    rw [finalRow, finalOf, hstored, hnoted, htally, if_pos]
    · simp [hcount]
    · by_cases hroot : s = inp.rootSerial
      · exact .inl hroot
      · have := storedCount_pos hb hstored hroot hc.base_root
        exact .inr (by omega)

section Table

variable {reducer : ReferenceReducer Id} (hview : reducer.view = ledger) {batch : ℕ}
  {changes : List (ℕ × Option (InodeValue Id))} {table : Table}
  (hfinish : reducer.finish inp.stored batch inp.rootSerial = .ok changes)
  (htable : trees.applyInodeValues root.inodeTable changes = .ok table)

include hb hbase hview hfinish htable

/-- A row of the new table is that of the base, or what a row of the ledger finished with. -/
theorem lookup_of_finish (s : ℕ) :
    (ledger.row? s = none ∧ (trees.inodes table).lookup s = inp.stored s) ∨
    ∃ row value, ledger.row? s = some row ∧ (trees.inodes table).lookup s = value ∧
      ReferenceReducer.finishRow inp.stored inp.rootSerial s row = .ok (s, value) := by
  obtain ⟨hascending, hkeys, hrows⟩ := ReferenceReducer.finish_eq_ok hfinish
  rw [hview] at hkeys hrows
  have hold : Ascending (trees.inodes root.inodeTable) := (hb _ hbase).rows_ascending
  have hstored : inp.stored s = (trees.inodes root.inodeTable).lookup s := by
    rw [stored, hbase]
    rfl
  have hlookup : (trees.inodes table).lookup s = (changes.lookup s).getD (inp.stored s) := by
    rw [trees.inodes_apply htable hold hascending, lookup_patch hascending hold, hstored]
  rcases hrow : ledger.row? s with _ | row
  · have hnone : changes.lookup s = none := by
      rw [lookup_eq_none_iff, hkeys, hrow]
      exact Bool.false_ne_true
    rw [hlookup, hnone]
    exact .inl ⟨rfl, rfl⟩
  · obtain ⟨⟨serial, value⟩, hmem, hchange⟩ := hrows s row hrow
    obtain rfl : serial = s := (finishRow_eq_ok hc hfirst h hrow hchange).1
    rw [hlookup, hascending.mem_iff_lookup.mp hmem]
    exact .inr ⟨row, value, rfl, rfl, hchange⟩

/-- **The new table** of a finished release. -/
theorem outcome_of_finish (hkeep : ∀ d, KeepsListing trees inp d) :
    Outcome inp trees contents ledger
      (trees.openRoot { root with inodeTable := table }).tree := by
  obtain ⟨hascending, -⟩ := ReferenceReducer.finish_eq_ok hfinish
  have hold : Ascending (trees.inodes root.inodeTable) := (hb _ hbase).rows_ascending
  have hnodup := effective_nodup hb hc.shaped hbase
  refine ⟨hc.base_root (trees.openRoot root) hbase, ?_, fun s => ?_, fun hd => ?_,
    fun {s v} hs hroot hkind => ?_⟩
  · rw [Trees.openRoot]
    dsimp only
    rw [trees.inodes_apply htable hold hascending]
    exact patch_ascending hascending hold
  · rcases lookup_of_finish hc hb hbase hfirst h hview hfinish htable s with
      ⟨hrow, hs⟩ | ⟨row, value, hrow, hs, hchange⟩
    · exact hs.trans (finalRow_untouched hc hb hfirst h hrow).symm
    · have := (h.releasing hkeep).tally_ge hnodup s
      exact hs.trans ((finishRow_eq_ok hc hfirst h hrow hchange).2.1 (by omega))
  · simp only [Namespace.lookup, Trees.openRoot] at hd
    simp [Trees.openRoot, hd]
  · rcases lookup_of_finish hc hb hbase hfirst h hview hfinish htable s with
      ⟨-, hsame⟩ | ⟨row, value, hrow, hsame, hchange⟩
    · -- an untouched directory or symlink keeps its one base binding
      obtain ⟨base, hbase', hmem⟩ := (stored_eq_some_iff hb).mp (hsame.symm.trans hs)
      have hvalid := hb base hbase'
      rw [hvalid.count_eq hmem, hvalid.bound_once hmem ?_ hkind]
      rw [hc.base_root base hbase']
      exact hroot
    · exact ((finishRow_eq_ok hc hfirst h hrow hchange).2.2 v (hsame.symm.trans hs)).1 hkind

/-- What the new table keeps has its final content. -/
theorem content_of_finish {v : InodeValue Id} (hs : (trees.inodes table).lookup s = some v) :
    ∃ final, finalOf inp contents s = some final ∧ v.contentRoot = final.contentRoot := by
  rcases lookup_of_finish hc hb hbase hfirst h hview hfinish htable s with
    ⟨hrow, hsame⟩ | ⟨row, value, hrow, hsame, hchange⟩
  · have hnewest : ledger.newest s = freshRow (ledger.declared s) := by
      rw [Ledger.newest, hrow]
      rfl
    have hnoted : notedValue inp contents s = none := by
      rw [← h.value_eq hfirst s, hnewest, freshRow]
      split_ifs <;> rfl
    refine ⟨v, ?_, rfl⟩
    rw [finalOf, ← hsame, hs, hnoted]
    rfl
  · exact ((finishRow_eq_ok hc hfirst h hrow hchange).2.2 v (hsame.symm.trans hs)).2

end Table

end Rows

/-! ## The new tree -/

def BindsNew (inp : FilesystemInput Id) : Prop :=
  ∀ s value, inp.isNew s = true → inp.valueFor s = some value → value.kind = .directory →
    inp.boundByHeader s = true

/-- A tree is the base's with the headers' bindings applied. -/
structure Applied (inp : FilesystemInput Id) (tree : Namespace Id) : Prop where
  /-- every path leads where the stated bindings lead it -/
  paths : ∀ path, tree.resolve tree.root path = inp.effective.resolve inp.effective.root path
  /-- exactly the inodes some path still reaches are kept -/
  kept : ∀ s, s ∈ tree.serials ↔ inp.effective.Reached s
  /-- each with its supplied or its stored value -/
  values : ∀ {s value}, tree.lookup s = some value →
    ∃ stated, (inp.valueFor s).or (inp.stored s) = some stated ∧ value.kind = stated.kind ∧
      value.metadataRoot = stated.metadataRoot ∧
      (value.kind ≠ .directory → value.contentRoot = stated.contentRoot)

theorem not_dropped (hc : Classified inp backed records) (hbound : BindsNew inp) (s : ℕ) :
    inp.dropped s = false := by
  by_contra hdropped
  rw [Bool.not_eq_false] at hdropped
  have hroot : s ≠ inp.rootSerial := by
    rw [dropped, Bool.and_eq_true, contains_iff_mem, trackedParents, mem_dedup,
      mem_filter, Bool.and_eq_true, bne_iff_ne] at hdropped
    exact hdropped.1.2.1
  obtain ⟨⟨update, hupdate, rfl⟩, hnew, hfree⟩ := dropped_header hdropped
  -- a header of a new directory was checked against its supplied value
  have hheader := hc.headers update hupdate
  rw [FilesystemInput.header, if_neg hroot, if_pos (by simp [hnew]), bind_eq_ok] at hheader
  obtain ⟨value, hvalue, hkind⟩ := hheader
  rw [orError_eq_ok] at hvalue
  rw [hbound _ value hnew hvalue (by simpa using hkind)] at hfree
  cases hfree

theorem finalOf_stated (hc : Classified inp backed records) (hb : inp.BaseValid)
    (hbase : inp.base = some (trees.openRoot root)) (hkinds : KeepsKinds inp)
    (hrebuilt : Rebuilt inp trees inp.directories contents) {v : InodeValue Id}
    (hv : finalOf inp contents s = some v) :
    ∃ stated, (inp.valueFor s).or (inp.stored s) = some stated ∧ v.kind = stated.kind ∧
      v.metadataRoot = stated.metadataRoot ∧
      (v.kind ≠ .directory → v.contentRoot = stated.contentRoot) := by
  have hkind := (finalOf_directory hc hb hbase hkinds hrebuilt hv).1
  rw [finalOf, notedValue] at hv
  rcases hlook : contents.lookup s with _ | content
  · -- nothing was rebuilt: the value stands as it was stated
    refine ⟨v, ?_, rfl, rfl, fun _ => rfl⟩
    rw [hlook] at hv
    dsimp only at hv
    rcases hstored : inp.stored s with _ | base
    · rw [hstored] at hv
      dsimp only at hv
      split_ifs at hv
      rw [hv]
      rfl
    · rw [hstored] at hv
      dsimp only at hv
      have hnot : inp.dropped s = false := by
        by_contra hdropped
        rw [Bool.not_eq_false] at hdropped
        rw [hc.new_absent s (dropped_header hdropped).2.1] at hstored
        cases hstored
      rw [hnot, if_neg Bool.false_ne_true] at hv
      rcases hsupplied : inp.valueFor s with _ | value
      · rw [hsupplied] at hv
        exact hv
      · rw [hsupplied] at hv
        exact hv
  · -- a rebuilt inode is a directory
    have hdir : s ∈ inp.effective.directories := by
      have hmem : s ∈ contents.map Prod.fst := lookup_isSome_iff.mp (by rw [hlook]; rfl)
      rw [hrebuilt.keys] at hmem
      obtain ⟨update, hupdate, rfl⟩ := mem_map.mp hmem
      exact hc.header_directory hb (mem_filter.mp hupdate).1
    rw [hlook] at hv
    obtain ⟨w, hw⟩ : ∃ w, (inp.valueFor s).or (inp.stored s) = some w := by
      rcases hstored : inp.stored s with _ | base
      · rw [hstored] at hv
        obtain ⟨w, hw, -⟩ := Option.map_eq_some_iff.mp hv
        exact ⟨w, hw⟩
      · cases inp.valueFor s with
        | none => exact ⟨base, rfl⟩
        | some value => exact ⟨value, rfl⟩
    have heq : v = { w with contentRoot := content } := by
      dsimp only at hv
      rw [hw] at hv
      rcases hstored : inp.stored s with _ | base
      · rw [hstored] at hv
        exact (Option.some.inj hv).symm
      · rw [hstored] at hv
        exact (Option.some.inj hv).symm
    rw [heq] at hkind ⊢
    exact ⟨w, hw, rfl, rfl, fun hne => absurd (hkind.mpr hdir) hne⟩

section Tree

variable {tree : Namespace Id} (hc : Classified inp backed records) (hb : inp.BaseValid)
  (hbase : inp.base = some (trees.openRoot root)) (hkinds : KeepsKinds inp)
  (hkeep : ∀ d, KeepsListing trees inp d) (hbound : BindsNew inp)
  (hfirst : Accounted inp trees contents first)
  (h : Dropping trees inp first released [] [] ledger) (ho : Outcome inp trees contents ledger tree)

include hc hb hbound in
theorem finalOf_isSome (hs : s ∈ inp.effective.directories ∨ ∃ d, inp.effective.Edge d s) :
    (finalOf inp contents s).isSome := by
  rw [finalOf]
  rcases hstored : inp.stored s with _ | base
  · have hvalue : (inp.valueFor s).isSome := by
      rcases hs with hs | ⟨d, hd, hchild⟩
      · rcases (mem_effective_directories hb hc.shaped).mp hs with hs | ⟨-, value, hvalue, -⟩
        · obtain ⟨value, hvalue, -⟩ := (mem_storedDirectories hb).mp hs
          rw [hstored] at hvalue
          cases hvalue
        · simp [hvalue]
      · obtain ⟨⟨name, child⟩, hmem, rfl⟩ := mem_map.mp hchild
        rcases (mem_effective_listing hb hc.shaped hd).mp hmem with hstates | ⟨-, hbase⟩
        · obtain ⟨-, kind, hkind⟩ := hc.bindings hstates
          rw [bindingKind, hstored, bind_eq_ok] at hkind
          obtain ⟨value, hvalue, -⟩ := hkind
          rw [orError_eq_ok] at hvalue
          simp [hvalue]
        · have := BaseEdge.child_stored hb (baseEdge_of_lookup hb hc.shaped hd
            ((storedListing_ascending hb hc.shaped hd).mem_iff_lookup.mp hbase))
          rw [hstored] at this
          cases this
    obtain ⟨value, hvalue⟩ := Option.isSome_iff_exists.mp hvalue
    dsimp only
    rw [notedValue]
    rcases contents.lookup s with _ | content
    · simp [not_dropped hc hbound, hvalue]
    · simp [hvalue]
  · rfl

include hc hb hbase hkinds hkeep hbound hfirst h ho

theorem Outcome.mem_directories {d : ℕ} : d ∈ tree.directories ↔
    d ∈ survivors inp.effective.directories released := by
  have hnodup := effective_nodup hb hc.shaped hbase
  have hkept : d ∈ inp.effective.directories →
      (d ∉ released ↔ d = inp.rootSerial ∨ ledger.tally inp.storedCount d ≠ 0) := by
    intro hd
    by_cases hroot : d = inp.rootSerial
    · refine iff_of_true (fun hmem => ?_) (.inl hroot)
      exact ((h.releasing hkeep).released_zero d hmem).2 (.inl hroot)
    · rw [(h.releasing hkeep).mem_released hd (by simp [Exempt, hroot, not_dropped hc hbound])]
      simp [hroot]
  rw [mem_survivors, Namespace.mem_directories]
  simp only [ho.ascending.mem_iff_lookup]
  constructor
  · rintro ⟨value, hvalue, hkind⟩
    have hrow : finalRow inp contents ledger d = some value := (ho.lookup_eq d).symm.trans hvalue
    rw [finalRow] at hrow
    split_ifs at hrow with hcase
    obtain ⟨v, hv, rfl⟩ := Option.map_eq_some_iff.mp hrow
    have hd := (finalOf_directory hc hb hbase hkinds hfirst.rebuilt hv).1.mp hkind
    exact ⟨hd, (hkept hd).mpr hcase⟩
  · rintro ⟨hd, hnot⟩
    obtain ⟨v, hv⟩ := Option.isSome_iff_exists.mp
      (@finalOf_isSome _ inp backed records contents d hc hb hbound (.inl hd))
    have hkind := (finalOf_directory hc hb hbase hkinds hfirst.rebuilt hv).1.mpr hd
    refine ⟨{ v with namespaceRefCount := (ledger.tally inp.storedCount d).toNat },
      (ho.lookup_eq d).trans ?_, hkind⟩
    rw [finalRow, if_pos ((hkept hd).mp hnot), hv]
    rfl

theorem Outcome.listing_effective {d : ℕ} (hd : d ∈ tree.directories) :
    tree.listing d = inp.effective.listing d := by
  have hmem := (mem_survivors.mp ((ho.mem_directories hc hb hbase hkinds hkeep hbound hfirst h).mp hd)).1
  obtain ⟨value, hrow, -⟩ := Namespace.mem_directories.mp hd
  have hlookup : tree.lookup d = some value := ho.ascending.mem_iff_lookup.mp hrow
  rw [ho.listing_eq hlookup]
  rw [ho.lookup_eq, finalRow] at hlookup
  split_ifs at hlookup
  obtain ⟨v, hv, rfl⟩ := Option.map_eq_some_iff.mp hlookup
  exact (finalOf_directory hc hb hbase hkinds hfirst.rebuilt hv).2 (hkeep d) hmem

/-- **Counts are bindings**: the tally of an inode is the number of bindings the new tree has. -/
theorem Outcome.bindingCount_eq (s : ℕ) :
    (tree.bindingCount s : ℤ) = ledger.tally inp.storedCount s := by
  have hnodup := effective_nodup hb hc.shaped hbase
  have hperm : tree.directories.Perm (survivors inp.effective.directories released) := by
    refine (perm_ext_iff_of_nodup ?_ (hnodup.filter _)).mpr fun d =>
      ho.mem_directories hc hb hbase hkinds hkeep hbound hfirst h
    exact Namespace.directories_nodup ho.ascending.keys_nodup
  rw [(h.releasing hkeep).tally_survivors hnodup, ← heldCount_perm hperm, Namespace.bindingCount,
    Namespace.boundBy, heldCount]
  congr 2
  refine flatMap_congr fun d hd => ?_
  rw [Namespace.children, Namespace.children,
    ho.listing_effective hc hb hbase hkinds hkeep hbound hfirst h hd]

theorem Outcome.edge_iff {d : ℕ} :
    tree.Edge d s ↔ inp.effective.Edge d s ∧ d ∉ released := by
  rw [Namespace.Edge, Namespace.Edge, ho.mem_directories hc hb hbase hkinds hkeep hbound hfirst h,
    mem_survivors]
  refine ⟨fun ⟨hd, hs⟩ => ?_, fun ⟨⟨hd, hs⟩, hnot⟩ => ?_⟩
  · have hkept := (ho.mem_directories hc hb hbase hkinds hkeep hbound hfirst h).mpr (mem_survivors.mpr hd)
    rw [Namespace.children, ho.listing_effective hc hb hbase hkinds hkeep hbound hfirst h hkept] at hs
    exact ⟨⟨hd.1, hs⟩, hd.2⟩
  · have hkept := (ho.mem_directories hc hb hbase hkinds hkeep hbound hfirst h).mpr
      (mem_survivors.mpr ⟨hd, hnot⟩)
    refine ⟨⟨hd, hnot⟩, ?_⟩
    rw [Namespace.children, ho.listing_effective hc hb hbase hkinds hkeep hbound hfirst h hkept]
    exact hs

theorem Outcome.mem_serials : s ∈ tree.serials ↔ s = inp.rootSerial ∨ ∃ d, tree.Edge d s := by
  have hcount := ho.bindingCount_eq hc hb hbase hkinds hkeep hbound hfirst h s
  rw [Namespace.edge_iff_bound, Namespace.serials, ← lookup_isSome_iff]
  have hcase : s = inp.rootSerial ∨ ledger.tally inp.storedCount s ≠ 0 ↔
      s = inp.rootSerial ∨ 0 < tree.bindingCount s := by
    refine or_congr_right ?_
    omega
  rw [← hcase]
  refine ⟨fun hs => ?_, fun hs => ?_⟩
  · by_contra hnot
    have hnone : tree.lookup s = none := by
      rw [ho.lookup_eq, finalRow, if_neg hnot]
    rw [Namespace.lookup] at hnone
    simp [hnone] at hs
  · have hsome : (finalOf inp contents s).isSome := by
      apply finalOf_isSome hc hb hbound
      rcases hs with rfl | hs
      · exact .inl (hc.root_directory hb)
      · have hpos : 0 < tree.bindingCount s := by omega
        obtain ⟨d, hd⟩ := Namespace.edge_iff_bound.mpr hpos
        exact .inr ⟨d, ((ho.edge_iff hc hb hbase hkinds hkeep hbound hfirst h).mp hd).1⟩
    obtain ⟨v, hv⟩ := Option.isSome_iff_exists.mp hsome
    have hrow := ho.lookup_eq s
    rw [finalRow, if_pos hs, hv, Namespace.lookup] at hrow
    rw [hrow]
    rfl

theorem Outcome.kept_of_reached (hs : inp.effective.Reached s) :
    s ∈ tree.serials ∧ s ∉ released := by
  have hroot : inp.rootSerial ∉ released := fun hmem =>
    ((h.releasing hkeep).released_zero _ hmem).2 (.inl rfl)
  induction hs with
  | refl => exact ⟨(ho.mem_serials hc hb hbase hkinds hkeep hbound hfirst h).mpr (.inl rfl), hroot⟩
  | @tail d s hd hedge ih =>
    have hedge' := (ho.edge_iff hc hb hbase hkinds hkeep hbound hfirst h).mpr ⟨hedge, ih.2⟩
    exact ⟨(ho.mem_serials hc hb hbase hkinds hkeep hbound hfirst h).mpr (.inr ⟨d, hedge'⟩),
      (h.releasing hkeep).survives hedge ih.2⟩

/-- **Everything kept hangs from the root**, when no directory lies below itself. -/
theorem Outcome.reached (hacyclic : ∀ s, ¬ Relation.TransGen inp.effective.Edge s s)
    (hs : s ∈ tree.serials) : tree.Reached s := by
  have hup : ∀ s, s ∈ tree.serials → s ≠ inp.rootSerial →
      ∃ d, d ∈ tree.serials ∧ RefersTo tree.directories tree.children d s := by
    intro s hs hroot
    obtain ⟨d, hd⟩ := ((ho.mem_serials hc hb hbase hkinds hkeep hbound hfirst h).mp hs).resolve_left hroot
    exact ⟨d, Namespace.directories_subset hd.1, hd⟩
  have hno : ∀ s, ¬ Relation.TransGen (RefersTo tree.directories tree.children) s s := by
    intro s hcycle
    refine hacyclic s (Relation.TransGen.mono (fun a b hab => ?_) _ _ hcycle)
    exact ((ho.edge_iff hc hb hbase hkinds hkeep hbound hfirst h).mp hab).1
  rw [Namespace.Reached, ho.root_eq]
  exact Relation.ReflTransGen.mono (fun a b hab => hab.2) _ _ (reached_of_acyclic hno hup s hs)

theorem Outcome.resolve_eq (path : List PathName) :
    ∀ {s}, inp.effective.Reached s → tree.resolve s path = inp.effective.resolve s path := by
  induction path with
  | nil => exact fun _ => rfl
  | cons name rest ih =>
    intro s hs
    have hkept := (ho.kept_of_reached hc hb hbase hkinds hkeep hbound hfirst h hs).2
    have hdir : s ∈ tree.directories ↔ s ∈ inp.effective.directories := by
      rw [ho.mem_directories hc hb hbase hkinds hkeep hbound hfirst h, mem_survivors, and_iff_left hkept]
    rw [Namespace.resolve, Namespace.resolve]
    by_cases hmem : s ∈ tree.directories
    · have hlisting := ho.listing_effective hc hb hbase hkinds hkeep hbound hfirst h hmem
      rw [if_pos hmem, if_pos (hdir.mp hmem), hlisting]
      rcases hlookup : (inp.effective.listing s).lookup name with _ | child
      · rfl
      · apply ih
        refine hs.tail ⟨hdir.mp hmem, mem_map.mpr ⟨_, mem_of_lookup hlookup, rfl⟩⟩
    · rw [if_neg hmem, if_neg fun hin => hmem (hdir.mpr hin)]

/-- **The new tree is valid exactly when no directory lies below itself** in the effective
bindings, and it is then the base's with the headers applied. -/
theorem Outcome.valid_iff : tree.ValidBase ∧ Applied inp tree ↔
    ∀ s, ¬ Relation.TransGen inp.effective.Edge s s := by
  have hcount := ho.bindingCount_eq hc hb hbase hkinds hkeep hbound hfirst h
  refine ⟨fun hboth c hcycle => ?_, fun hacyclic => ⟨?_, ?_⟩⟩
  · -- a cycle is never released, so it is a cycle of the new tree
    have hc₀ : c ∉ released := (h.releasing hkeep).orderly.not_mem_of_cycle hcycle
    have hall : ∀ b, Relation.TransGen inp.effective.Edge c b →
        Relation.TransGen tree.Edge c b ∧ b ∉ released := by
      intro b hb'
      induction hb' with
      | single hedge => exact ⟨.single ((ho.edge_iff hc hb hbase hkinds hkeep hbound hfirst h).mpr
          ⟨hedge, hc₀⟩), (h.releasing hkeep).survives hedge hc₀⟩
      | tail _ hedge ih => exact ⟨ih.1.tail ((ho.edge_iff hc hb hbase hkinds hkeep hbound hfirst h).mpr
          ⟨hedge, ih.2⟩), (h.releasing hkeep).survives hedge ih.2⟩
    exact hboth.1.acyclic c (hall c hcycle).1
  · have hrow : ∀ {s value}, (s, value) ∈ tree.inodes ↔ tree.lookup s = some value :=
      ho.ascending.mem_iff_lookup
    have hvalue : ∀ {s value}, tree.lookup s = some value →
        value.namespaceRefCount = tree.bindingCount s := by
      intro s value hs
      rw [ho.lookup_eq, finalRow] at hs
      split_ifs at hs
      obtain ⟨v, -, rfl⟩ := Option.map_eq_some_iff.mp hs
      have := hcount s
      dsimp only
      omega
    have hroot : tree.root ∈ tree.directories := by
      rw [ho.root_eq, ho.mem_directories hc hb hbase hkinds hkeep hbound hfirst h, mem_survivors]
      exact ⟨hc.root_directory hb, fun hmem => ((h.releasing hkeep).released_zero _ hmem).2 (.inl rfl)⟩
    refine { nodup := ho.ascending.keys_nodup, root_row := Namespace.mem_directories.mp hroot,
             bound_mem := fun hedge =>
              (ho.mem_serials hc hb hbase hkinds hkeep hbound hfirst h).mpr (.inr ⟨_, hedge⟩),
             root_unbound := ?_, reached := fun s hs =>
              ho.reached hc hb hbase hkinds hkeep hbound hfirst h hacyclic hs,
             bound_once := fun {s value} hs hne hkind => ?_,
             count_eq := fun hs => hvalue (hrow.mp hs), acyclic := fun s hcycle => ?_,
             rows_ascending := ho.ascending, names_ascending := fun d hd => ?_ }
    · rw [← Nat.le_zero, ← Nat.not_lt, ← Namespace.edge_iff_bound, ho.root_eq]
      rintro ⟨d, hd⟩
      exact hc.not_edge_root hb ((ho.edge_iff hc hb hbase hkinds hkeep hbound hfirst h).mp hd).1
    · rw [ho.root_eq] at hne
      have hle := ho.single (hrow.mp hs) hne hkind
      rw [hvalue (hrow.mp hs)] at hle
      have hmem : s ∈ tree.serials := mem_map.mpr ⟨_, hs, rfl⟩
      have hbound' := ((ho.mem_serials hc hb hbase hkinds hkeep hbound hfirst h).mp hmem).resolve_left hne
      have := Namespace.edge_iff_bound.mp hbound'
      omega
    · refine hacyclic s (Relation.TransGen.mono (fun a b hab => ?_) _ _ hcycle)
      exact ((ho.edge_iff hc hb hbase hkinds hkeep hbound hfirst h).mp hab).1
    · have hmem := (ho.mem_directories hc hb hbase hkinds hkeep hbound hfirst h).mp hd
      rw [ho.listing_effective hc hb hbase hkinds hkeep hbound hfirst h hd]
      exact patch_ascending (changesFor_ascending hc.shaped d)
        (storedListing_ascending hb hc.shaped (mem_survivors.mp hmem).1)
  · refine ⟨fun path => ?_, fun s => ⟨fun hs => ?_, fun hs => ?_⟩, fun {s value} hs => ?_⟩
    · rw [ho.root_eq]
      exact ho.resolve_eq hc hb hbase hkinds hkeep hbound hfirst h path .refl
    · have hreached := ho.reached hc hb hbase hkinds hkeep hbound hfirst h hacyclic hs
      rw [Namespace.Reached, ho.root_eq] at hreached
      refine Relation.ReflTransGen.mono (fun a b hab => ?_) _ _ hreached
      exact ((ho.edge_iff hc hb hbase hkinds hkeep hbound hfirst h).mp hab).1
    · exact (ho.kept_of_reached hc hb hbase hkinds hkeep hbound hfirst h hs).1
    · rw [ho.lookup_eq, finalRow] at hs
      split_ifs at hs
      obtain ⟨v, hv, rfl⟩ := Option.map_eq_some_iff.mp hs
      obtain ⟨stated, hstated⟩ := finalOf_stated hc hb hbase hkinds hfirst.rebuilt hv
      exact ⟨stated, hstated⟩

end Tree

/-! ## Listings of what is kept -/

section Listings

variable (hc : Classified inp backed records) (hb : inp.BaseValid)

include hc hb

theorem effective_ascending {d : ℕ} (hd : d ∈ inp.effective.directories) :
    Ascending (inp.effective.listing d) :=
  patch_ascending (changesFor_ascending hc.shaped d) (storedListing_ascending hb hc.shaped hd)

/-- Some path leads to each reached inode. -/
theorem resolve_of_reached (hs : inp.effective.Reached s) :
    ∃ path, inp.effective.resolve inp.effective.root path = some s := by
  induction hs with
  | refl => exact ⟨[], rfl⟩
  | @tail d s _ hedge ih =>
    obtain ⟨path, hpath⟩ := ih
    obtain ⟨⟨name, child⟩, hmem, rfl⟩ := mem_map.mp hedge.2
    refine ⟨path ++ [name], ?_⟩
    rw [Namespace.resolve_append, hpath, Option.bind_some, Namespace.resolve_singleton hedge.1]
    exact (effective_ascending hc hb hedge.1).mem_iff_lookup.mp hmem

/-- **What is reached keeps its listing** when the new tree is the base's with the headers
applied: its supplied value, if no header states it, names its own listing. -/
theorem keepsListing_of_applied {reducer : ReferenceReducer Id} {batch : ℕ}
    {changes : List (ℕ × Option (InodeValue Id))} {table : Table}
    (hbase : inp.base = some (trees.openRoot root)) (hkinds : KeepsKinds inp)
    (hbound : BindsNew inp) (hfirst : Accounted inp trees contents first)
    (h : Dropping trees inp first released [] [] ledger) (hview : reducer.view = ledger)
    (hfinish : reducer.finish inp.stored batch inp.rootSerial = .ok changes)
    (htable : trees.applyInodeValues root.inodeTable changes = .ok table)
    (hvalid : (trees.openRoot { root with inodeTable := table }).tree.ValidBase)
    (happlied : Applied inp (trees.openRoot { root with inodeTable := table }).tree)
    (hs : inp.effective.Reached s) : KeepsListing trees inp s := by
  intro value hvalue hkind hheader
  -- the kept row has the supplied content
  have hfinal : finalOf inp contents s = some value := by
    have hlook : contents.lookup s = none := hfirst.rebuilt.lookup_eq_none.mpr (.inl hheader)
    rw [finalOf, notedValue, hlook, not_dropped hc hbound, hvalue]
    cases inp.stored s with
    | none => rfl
    | some record => rfl
  have hdir := (finalOf_directory hc hb hbase hkinds hfirst.rebuilt hfinal).1.mp hkind
  obtain ⟨v, hv⟩ := Option.isSome_iff_exists.mp (lookup_isSome_iff.mpr ((happlied.kept s).mpr hs))
  have hlisting : (trees.openRoot { root with inodeTable := table }).tree.listing s =
      trees.bindings value.contentRoot := by
    obtain ⟨final, hsame, hcontent⟩ :=
      content_of_finish hc hb hbase hfirst h hview hfinish htable hv
    obtain rfl : value = final := Option.some.inj (hfinal.symm.trans hsame)
    rw [← hcontent]
    simp only [Trees.openRoot] at hv ⊢
    rw [hv]
    rfl
  obtain ⟨stated, hstated, hsame, -, -⟩ := happlied.values hv
  have hmem := Namespace.mem_directories.mpr ⟨v, mem_of_lookup hv, by
    rw [hvalue] at hstated
    rw [hsame, ← Option.some.inj hstated, hkind]⟩
  obtain ⟨path, hpath⟩ := resolve_of_reached hc hb hs
  rw [← hlisting, ← effective_listing_of_unstated hheader]
  refine Ascending.ext (hvalid.names_ascending s hmem) (effective_ascending hc hb hdir)
    fun name => ?_
  -- one name further, the path leads to the same inode in both
  have hname := happlied.paths (path ++ [name])
  rw [Namespace.resolve_append, Namespace.resolve_append, happlied.paths path, hpath,
    Option.bind_some, Option.bind_some, Namespace.resolve_singleton hmem,
    Namespace.resolve_singleton hdir] at hname
  exact hname

end Listings

end LayerFs
