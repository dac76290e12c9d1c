import LayerFs.Directory.Listed
import LayerFs.Inode.Read

/-!
# Demands of the inode table (`filesystem/inode/read.rs`)

A demand of one serial or of a batch answers from the rows of a valid table, and refuses the
serial zero before it reads.

* `inodeLookup_eq`, `inodeLookupMany_eq` — **both answer from the rows**.
* `reads_answer_rows` — **every read** of a valid directory tree and of a valid inode table.
-/

namespace LayerFs

variable {Id : Type}

/-! ## Demands -/

/-- The rows of a leaf, searched for a serial: nothing lies past the last one. -/
def findInode (rows : List (ℕ × InodeValue Id)) (serial : ℕ) : Option (InodeValue Id) :=
  if (rows.getLast?.map Prod.fst).getD 0 < serial then none else rows.lookup serial

def inodeLookup (table : InodePage Id) (serial : ℕ) : ContentResult (Option (InodeValue Id)) := do
  ensure (serial != 0) (.invalidRecord "inode serial")
  table.lookupPage (fun expected _ p => checkedInodes expected p) findInode serial none none

def inodeLookupMany (table : InodePage Id) (serials : List ℕ) :
    ContentResult (List (Option (InodeValue Id))) :=
  if serials.isEmpty then .ok []
  else do
    ensure (serials.all (· != 0)) (.invalidRecord "inode serial")
    Page.lookupBatch (compactInodes (InodeValue Id)).decode checkedInodes table serials

/-- **A valid inode table**: every page passes its checks where it lies, and the rows ascend. -/
structure ValidTable (table : InodePage Id) : Prop where
  checked : table.AllChecked inodeCheck none
  ascending : (table.rows.map Prod.fst).Pairwise (· < ·)

/-! ## Answers -/

theorem inodeCheck_branching : Page.Branching (@inodeCheck Id) :=
  fun h => (inodeCheck_decode h).1

theorem inodeCheck_level {l k : ℕ} {p : InodePage Id} (h : inodeCheck (some (l, k)) p) :
    p.level = l := by
  rw [inodeCheck, checkedInodes] at h
  have hrecorded := ensure_eq_ok.mp
    (check_bind_eq_ok.mp (check_bind_eq_ok.mp h).2).2
  simp only [Option.all_some, Bool.and_eq_true, beq_iff_eq] at hrecorded
  exact hrecorded.1

theorem inodeCheck_level_le {expected : Option (ℕ × ℕ)} {p : InodePage Id}
    (h : inodeCheck expected p) : p.level ≤ maximumTreeLevel := by
  cases p with
  | absent e => exact Nat.zero_le _
  | leaf rows => exact Nat.zero_le _
  | branch level count bytes rows =>
    rw [inodeCheck, checkedInodes, Format.decode] at h
    have hdecode := (check_bind_eq_ok.mp (check_bind_eq_ok.mp h).1).2
    have hlevel := ensure_eq_ok.mp (check_bind_eq_ok.mp hdecode).1
    simp only [Bool.and_eq_true, decide_eq_true_eq] at hlevel
    exact hlevel.1.1.2

theorem findInode_eq {expected : Option (ℕ × ℕ)} {rows : List (ℕ × InodeValue Id)} {serial : ℕ}
    (h : inodeCheck expected (.leaf rows)) : findInode rows serial = rows.lookup serial := by
  rw [findInode]
  split_ifs with hpast
  · symm
    rw [List.lookup_eq_none_iff]
    intro row hrow
    refine bne_iff_ne.mpr fun hsame => ?_
    obtain ⟨last, hlast⟩ : ∃ last, rows.getLast? = some last := by
      rw [← Option.isSome_iff_exists, List.getLast?_isSome]
      exact List.ne_nil_of_mem hrow
    have hle : row.1 ≤ last.1 := Page.le_getLast (inodeCheck_sound.ordered h)
      (by rw [Page.keys, List.getLast?_map, hlast]; rfl) (List.mem_map_of_mem hrow)
    rw [hlast, Option.map_some, Option.getD_some, hsame] at hpast
    exact absurd hle (not_le.mpr hpast)
  · rfl

namespace ValidTable

variable {table : InodePage Id}

theorem inOrder (h : ValidTable table) : table.InOrder none :=
  Page.inOrder_of_pairwise inodeCheck_sound h.checked h.ascending fun _ _ => above_none

/-- **One demand** answers from the rows. -/
theorem lookup_eq (h : ValidTable table) {serial : ℕ} (hserial : serial ≠ 0) :
    inodeLookup table serial = .ok (table.rows.lookup serial) := by
  rw [inodeLookup]
  refine check_bind_eq_ok.mpr ⟨ensure_eq_ok.mpr (bne_iff_ne.mpr hserial), ?_⟩
  exact (Page.lookupPage_eq inodeCheck_sound inodeCheck_branching (fun hp _ => hp.self)
    findInode_eq).1 table h.checked h.inOrder

/-- **A batch of demands** answers from the rows, in the order of the batch. -/
theorem lookupMany_eq (h : ValidTable table) {serials : List ℕ} (hserials : 0 ∉ serials) :
    inodeLookupMany table serials = .ok (serials.map fun serial => table.rows.lookup serial) := by
  rw [inodeLookupMany]
  split_ifs with hempty
  · rw [List.isEmpty_iff.mp hempty]
    rfl
  · have hall : serials.all (· != 0) = true := by
      rw [List.all_eq_true]
      exact fun serial hin => bne_iff_ne.mpr fun h => hserials (h ▸ hin)
    refine check_bind_eq_ok.mpr ⟨ensure_eq_ok.mpr hall, ?_⟩
    exact Page.lookupBatch_eq inodeCheck_sound inodeCheck_branching inodeCheck_level
      (fun hp => hp.self) (fun hp => (check_bind_eq_ok.mp hp.self).1) h.checked h.inOrder
      (inodeCheck_level_le h.checked.self)

/-- **The windows of a table** behind a cursor are the rows past it. -/
theorem rows_eq (h : ValidTable table) {fuel : ℕ} {after : Option ℕ}
    (hfuel : (table.rows.filter fun row => above after row.1).length < fuel) :
    tableRows table fuel after = .ok (table.rows.filter fun row => above after row.1) :=
  tableRows_of_tablePast ((tablePast_none_iff.1 table).mpr ⟨h.checked, h.inOrder⟩) hfuel

end ValidTable

/-! ## Every read -/

/-- **Every read answers from the rows**: of a valid directory tree the listing in windows of any
limits that hold each of its rows, one lookup and a batch; of a valid inode table the windows, one
demand and a batch. -/
theorem reads_answer_rows {root : DirectoryPage} {table : InodePage Id}
    (hroot : ValidDirectory root) (htable : ValidTable table) :
    (∀ maxEntries maxBytes, 1 ≤ maxEntries → 1 ≤ maxBytes →
      (∀ row ∈ root.rows, listingWidth row.1 ≤ maxBytes) → ∀ fuel, root.rows.length < fuel →
      listChain maxEntries maxBytes root fuel none = .ok root.rows) ∧
    (∀ name, directoryLookup root name = .ok (root.rows.lookup name)) ∧
    (∀ names, directoryLookupMany root names =
      .ok (names.map fun name => root.rows.lookup name)) ∧
    (root.rows.map Prod.fst).Pairwise (· < ·) ∧
    (∀ fuel, table.rows.length < fuel → tableRows table fuel none = .ok table.rows) ∧
    (∀ serial, serial ≠ 0 → inodeLookup table serial = .ok (table.rows.lookup serial)) ∧
    (∀ serials, 0 ∉ serials → inodeLookupMany table serials =
      .ok (serials.map fun serial => table.rows.lookup serial)) ∧
    (table.rows.map Prod.fst).Pairwise (· < ·) := by
  have hnames : (root.rows.filter fun row => above none row.1) = root.rows := by
    simp only [above_none, decide_true, List.filter_true]
  have hserials : (table.rows.filter fun row => above none row.1) = table.rows := by
    simp only [above_none, decide_true, List.filter_true]
  refine ⟨?_, hroot.lookup_eq, hroot.lookupMany_eq, hroot.ascending, ?_,
    fun serial => htable.lookup_eq, fun serials => htable.lookupMany_eq, htable.ascending⟩
  · intro E B hE hB hwidth fuel hfuel
    have hchecked : root.AllChecked directoryCheck none :=
      hroot.checked.imp directoryCheck_of_levelled
    have h : listChain E B root fuel none = .ok (root.rows.filter fun row => above none row.1) :=
      listChain_eq (by omega) (by omega) hchecked hroot.ascending hwidth (by rwa [hnames])
    rwa [hnames] at h
  · intro fuel hfuel
    have h : tableRows table fuel none = .ok (table.rows.filter fun row => above none row.1) :=
      htable.rows_eq (by rwa [hserials])
    rwa [hserials] at h

/-- A directory of two names and a table of two serials answer, one name asked twice. -/
theorem reads_answer_rows_pair :
    let names : DirectoryPage := .leaf [(⟨[0x61], rfl⟩, 2), (⟨[0x62], rfl⟩, 3)]
    let serials : InodePage ℕ := .leaf [(2, ⟨.regularFile, 1, 7, .inline ⟨0o644, 0, 0⟩⟩),
      (3, ⟨.regularFile, 1, 8, .inline ⟨0o644, 0, 0⟩⟩)]
    listChain 1 11 names 3 none = .ok names.rows ∧
      directoryLookupMany names [⟨[0x62], rfl⟩, ⟨[0x63], rfl⟩, ⟨[0x62], rfl⟩] =
        .ok [some 3, none, some 3] ∧
      tableRows serials 3 none = .ok serials.rows := by
  intro names serials
  have hnames : ValidDirectory names := by
    refine ⟨Page.allChecked_leaf.mpr rfl, ?_⟩
    rw [← strictlyOrdered_iff]
    rfl
  have hserials : ValidTable serials := by
    refine ⟨Page.allChecked_leaf.mpr rfl, ?_⟩
    rw [← strictlyOrdered_iff]
    rfl
  obtain ⟨hlist, -, hmany, -, htable, -⟩ := reads_answer_rows hnames hserials
  refine ⟨hlist 1 11 le_rfl (by decide) ?_ 3 ?_, ?_, htable 3 ?_⟩
  · rw [Page.rows_leaf]
    decide
  · rw [Page.rows_leaf]
    decide
  · rw [hmany, Page.rows_leaf]
    rfl
  · rw [Page.rows_leaf]
    decide

end LayerFs
