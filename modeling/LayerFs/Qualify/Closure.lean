import LayerFs.Qualify.Records

/-!
# The count closure of a qualification

Why counting replaces a visited set. While directories are listed, `Closure` ties the records
to the namespace: every record holds the number of bindings seen so far, and the directories
listed or queued are exactly the root and the directories bound so far. When the queue is empty
and the total bound equals the total declared, no record can be short, so every inode is bound
as declared, every directory was listed, and every inode is reached (`closure_wellFormed`).
Conversely a well-formed namespace passes every check on the way (`bindQueue_complete`).

The rows the pass sees are those its windows deliver (`deliveredRows`); `qualifyRoot_iff` is
therefore about the *delivered* namespace.
-/

namespace LayerFs

open List

variable {Id : Type}
variable {value : InodeValue Id} {done keys queue : List ℕ} {ns : Namespace Id} {st : Pass Id}
  {d fuel s : ℕ}

/-! ## Sums over a table -/

theorem sum_indicator {a : ℕ} (hnodup : keys.Nodup) (h : a ∈ keys) :
    (keys.map fun s => if a = s then 1 else 0).sum = 1 := by
  induction keys with
  | nil => cases h
  | cons k ks ih =>
    obtain ⟨hk, hks⟩ := nodup_cons.mp hnodup
    rw [map_cons, sum_cons]
    rcases mem_cons.mp h with rfl | h
    · have hzero : (ks.map fun s => if a = s then 1 else 0) = ks.map fun _ => 0 :=
        map_congr_left fun s hs => if_neg fun heq : a = s => hk (heq ▸ hs)
      simp [hzero]
    · have hne : a ≠ k := fun heq => hk (heq ▸ h)
      rw [if_neg hne, ih hks h]

theorem sum_count_eq_length {l : List ℕ} (hnodup : keys.Nodup) (h : ∀ s ∈ l, s ∈ keys) :
    (keys.map fun s => l.count s).sum = l.length := by
  induction l with
  | nil => simp
  | cons a rest ih =>
    have hstep : (keys.map fun s => (a :: rest).count s).sum
        = (keys.map fun s => rest.count s).sum + (keys.map fun s => if a = s then 1 else 0).sum := by
      rw [← sum_map_add]
      simp [count_cons]
    rw [hstep, sum_indicator hnodup (h a (by simp)),
      ih fun s hs => h s (mem_cons_of_mem _ hs), length_cons]

theorem eq_of_sum_eq {α : Type} {l : List α} {f g : α → ℕ} (hle : ∀ x ∈ l, f x ≤ g x)
    (hsum : (l.map f).sum = (l.map g).sum) : ∀ x ∈ l, f x = g x := by
  induction l with
  | nil => simp
  | cons a rest ih =>
    have hrest : (rest.map f).sum ≤ (rest.map g).sum :=
      sum_le_sum fun x hx => hle x (mem_cons_of_mem _ hx)
    have ha := hle a (by simp)
    simp only [map_cons, sum_cons] at hsum
    intro x hx
    rcases mem_cons.mp hx with rfl | hx
    · omega
    · exact ih (fun y hy => hle y (mem_cons_of_mem _ hy)) (by omega) x hx

/-! ## The namespace a pass sees -/

def deliveredRows (p : DirectoryPage) : ContentResult (List (PathName × ℕ)) :=
  deliver window windowBytes p (p.rows.length + 1) none

def Objects.namespaceOf (objects : Objects Id) (rowsOf : DirectoryPage → List (PathName × ℕ))
    (root : FilesystemRoot Id) : Namespace Id where
  root := root.rootSerial
  inodes := (objects.inodes root.inodeTable).rows
  listing d := match (objects.inodes root.inodeTable).rows.lookup d with
    | some value => rowsOf (objects.directory value.contentRoot)
    | none => []

def Objects.delivered (objects : Objects Id) (root : FilesystemRoot Id) : Namespace Id :=
  objects.namespaceOf (fun p => ((deliveredRows p).toOption).getD []) root

theorem lookup_of_mem {rows : List (ℕ × InodeValue Id)} (hnodup : (rows.map Prod.fst).Nodup)
    (h : (s, value) ∈ rows) : rows.lookup s = some value := by
  induction rows with
  | nil => cases h
  | cons row rest ih =>
    obtain ⟨k, v⟩ := row
    rw [map_cons, nodup_cons] at hnodup
    rcases mem_cons.mp h with heq | h
    · cases heq
      simp
    · have hne : s ≠ k := fun heq => hnodup.1 (mem_map.mpr ⟨(s, value), h, heq⟩)
      simp [lookup_cons, beq_eq_false_iff_ne.mpr hne, ih hnodup.2 h]

theorem children_namespaceOf {objects : Objects Id} {rowsOf : DirectoryPage → List (PathName × ℕ)}
    {root : FilesystemRoot Id} (hnodup : (objects.namespaceOf rowsOf root).serials.Nodup)
    (h : (d, value) ∈ (objects.namespaceOf rowsOf root).inodes) :
    (objects.namespaceOf rowsOf root).children d
      = (rowsOf (objects.directory value.contentRoot)).map Prod.snd := by
  have hlookup : (objects.inodes root.inodeTable).rows.lookup d = some value :=
    lookup_of_mem hnodup h
  simp only [Namespace.children, Objects.namespaceOf, hlookup]

theorem children_delivered {objects : Objects Id} {root : FilesystemRoot Id}
    (hnodup : (objects.delivered root).serials.Nodup)
    (h : (d, value) ∈ (objects.delivered root).inodes) {rows : List (PathName × ℕ)}
    (hrows : deliveredRows (objects.directory value.contentRoot) = .ok rows) :
    (objects.delivered root).children d = rows.map Prod.snd := by
  rw [Objects.delivered, children_namespaceOf hnodup h, hrows]
  rfl

/-! ## The invariant -/

/-- The records after listing the directories `done`, with `queue` still to list. -/
structure Closure (objects : Objects Id) (ns : Namespace Id) (done queue : List ℕ)
    (st : Pass Id) : Prop where
  /-- a record holds the bindings seen so far -/
  rows_mem : ∀ {s value}, (s, value) ∈ ns.inodes →
    st.rows s = some { QualifyRow.new value with bound := (ns.boundBy done).count s }
  rows_none : ∀ {s}, s ∉ ns.serials → st.rows s = none
  bindings_eq : st.bindings = (ns.boundBy done).length
  directories_eq : st.directories = done.length
  nodup : (done ++ queue).Nodup
  /-- listed or queued are the root and the directories bound so far -/
  mem_iff : ∀ s, s ∈ done ++ queue ↔
    s = ns.root ∨ s ∈ ns.directories ∧ s ∈ ns.boundBy done
  reached : ∀ s ∈ done ++ queue, ns.Reached s
  /-- every binding seen fits its record -/
  target : ∀ s ∈ ns.boundBy done, s ≠ ns.root ∧ ∃ value, (s, value) ∈ ns.inodes ∧
    (ns.boundBy done).count s ≤ value.namespaceRefCount ∧
    (value.kind = .directory → (ns.boundBy done).count s ≤ 1)
  /-- every listed directory was delivered -/
  delivered : ∀ d ∈ done, ∃ value rows, (d, value) ∈ ns.inodes ∧
    deliveredRows (objects.directory value.contentRoot) = .ok rows

theorem Closure.withQueue {objects : Objects Id} (h : Closure objects ns done queue st)
    (rest : List ℕ) :
    Closure objects ns done queue { st with queue := rest } where
  rows_mem := h.rows_mem
  rows_none := h.rows_none
  bindings_eq := h.bindings_eq
  directories_eq := h.directories_eq
  nodup := h.nodup
  mem_iff := h.mem_iff
  reached := h.reached
  target := h.target
  delivered := h.delivered

section Invariant

variable {objects : Objects Id} {root : FilesystemRoot Id}
  (hnodup : (objects.delivered root).serials.Nodup)
  (hroot : root.rootSerial ∈ (objects.delivered root).directories)
include hnodup hroot

omit hroot in
theorem Closure.isDirectory_iff (h : Closure objects (objects.delivered root) done queue st) :
    st.rows.isDirectory s = true ↔ s ∈ (objects.delivered root).directories := by
  rw [Namespace.mem_directories]
  by_cases hs : s ∈ (objects.delivered root).serials
  · obtain ⟨⟨s, value⟩, hmem, rfl⟩ := mem_map.mp hs
    simp only [QualifyRows.isDirectory, h.rows_mem hmem, Option.any_some, QualifyRow.new,
      beq_iff_eq]
    refine ⟨fun hk => ⟨value, hmem, hk⟩, ?_⟩
    rintro ⟨value', hmem', hk⟩
    rw [Namespace.row_unique hnodup hmem hmem']
    exact hk
  · simp only [QualifyRows.isDirectory, h.rows_none hs, Option.any_none, Bool.false_eq_true,
      false_iff, not_exists]
    rintro value ⟨hmem, -⟩
    exact hs (mem_map_of_mem hmem)

/-- **One directory.** Listing the next directory keeps the invariant. -/
theorem Closure.step {done queue : List ℕ} {d : ℕ} {value : InodeValue Id} {st st' : Pass Id}
    (h : Closure objects (objects.delivered root) done (d :: queue) st) (hqueue : st.queue = queue)
    (hbounded : st.rows.Bounded) (hd : (d, value) ∈ (objects.delivered root).inodes)
    (hrun : bindDirectory root.rootSerial (objects.directory value.contentRoot)
      ((objects.directory value.contentRoot).rows.length + 1) none st = .ok st') :
    Closure objects (objects.delivered root) (done ++ [d]) st'.queue st' := by
  obtain ⟨rows, hrows, hadmits, hbinds, hcount, hdirs⟩ := bindDirectory_sound hbounded hrun
  have hchildren := children_delivered hnodup hd hrows
  obtain ⟨queued, hqueued, hqnodup, hqmem⟩ := hbinds.queue_eq
  rw [← hchildren] at hadmits hbinds hqmem
  have hbound : (objects.delivered root).boundBy (done ++ [d])
      = (objects.delivered root).boundBy done ++ (objects.delivered root).children d := by
    simp [Namespace.boundBy_append]
  -- the bindings of `d` on top of those already seen
  have htarget : ∀ s ∈ (objects.delivered root).children d, s ≠ root.rootSerial ∧
      ∃ v, (s, v) ∈ (objects.delivered root).inodes ∧
        ((objects.delivered root).boundBy (done ++ [d])).count s ≤ v.namespaceRefCount ∧
        (v.kind = .directory → ((objects.delivered root).boundBy (done ++ [d])).count s ≤ 1) := by
    intro s hs
    obtain ⟨hne, row, hrow, hle, hone⟩ := hadmits s hs
    have hmem : s ∈ (objects.delivered root).serials := by
      by_contra hnot
      rw [h.rows_none hnot] at hrow
      cases hrow
    obtain ⟨⟨s, v⟩, hv, rfl⟩ := mem_map.mp hmem
    rw [h.rows_mem hv] at hrow
    cases hrow
    rw [hbound, count_append]
    exact ⟨hne, v, hv, hle, hone⟩
  have hdone : done ++ d :: queue = done ++ [d] ++ queue := by simp
  have hnew : ∀ s ∈ queued, s ∉ done ++ [d] ++ queue := by
    intro s hs hold
    rw [← hdone, h.mem_iff] at hold
    obtain ⟨hs, hdir⟩ := (hqmem s).mp hs
    obtain ⟨hne, v, hv, -, hone⟩ := htarget s hs
    rcases hold with rfl | ⟨hsdir, hsbound⟩
    · exact hne rfl
    · obtain ⟨v', hv', hk⟩ := Namespace.mem_directories.mp hsdir
      cases Namespace.row_unique hnodup hv hv'
      have hle := hone hk
      have hpos := count_pos_iff.mpr hsbound
      have hpos' := count_pos_iff.mpr hs
      rw [hbound, count_append] at hle
      omega
  have hqueue' : done ++ [d] ++ st'.queue = (done ++ d :: queue) ++ queued := by
    rw [hqueued, hqueue]
    simp
  refine { rows_mem := ?_, rows_none := ?_, bindings_eq := ?_, directories_eq := ?_, nodup := ?_,
           mem_iff := ?_, reached := ?_, target := ?_, delivered := ?_ }
  · intro s v hv
    rw [hbinds.rows_eq, QualifyRows.addBound, h.rows_mem hv, hbound, count_append]
    rfl
  · intro s hs
    rw [hbinds.rows_eq, QualifyRows.addBound, h.rows_none hs]
    rfl
  · have hlen : rows.length = ((objects.delivered root).children d).length := by
      rw [hchildren, length_map]
    rw [hcount, h.bindings_eq, hbound, length_append, hlen]
  · rw [hdirs, h.directories_eq, length_append]
    rfl
  · rw [hqueue', nodup_append]
    refine ⟨h.nodup, hqnodup, ?_⟩
    rintro s hs s' hs' rfl
    exact hnew s hs' (hdone ▸ hs)
  · intro s
    rw [hqueue', mem_append, h.mem_iff, hqmem, h.isDirectory_iff hnodup, hbound,
      mem_append]
    tauto
  · intro s hs
    rw [hqueue', mem_append] at hs
    rcases hs with hs | hs
    · exact h.reached s hs
    · have hdreach := h.reached d (by simp)
      have hddir : d ∈ (objects.delivered root).directories := by
        rcases (h.mem_iff d).mp (by simp) with rfl | hdir
        · exact hroot
        · exact hdir.1
      exact hdreach.tail ⟨hddir, ((hqmem s).mp hs).1⟩
  · intro s hs
    by_cases hsd : s ∈ (objects.delivered root).children d
    · exact htarget s hsd
    · rw [hbound] at hs ⊢
      obtain ⟨hne, v, hv, hle, hone⟩ := h.target s ((mem_append.mp hs).resolve_right hsd)
      rw [count_append, count_eq_zero_of_not_mem hsd, Nat.add_zero]
      exact ⟨hne, v, hv, hle, hone⟩
  · intro x hx
    rcases mem_append.mp hx with hx | hx
    · exact h.delivered x hx
    · rw [mem_singleton.mp hx]
      exact ⟨value, rows, hd, hrows⟩

/-- **The whole queue.** A pass that ends has listed every directory it queued. -/
theorem Closure.run :
    ∀ {done queue : List ℕ} {d : ℕ} {value : InodeValue Id} {st st' : Pass Id},
      Closure objects (objects.delivered root) done (d :: queue) st → st.queue = queue →
      st.rows.Bounded → (d, value) ∈ (objects.delivered root).inodes →
      bindQueue objects root.rootSerial fuel value.contentRoot st = .ok st' →
      ∃ done', Closure objects (objects.delivered root) done' [] st' := by
  induction fuel with
  | zero => intro done queue d value st st' _ _ _ _ h; cases h
  | succ fuel ih =>
    intro done queue d value st st' hc hqueue hbounded hd h
    rw [bindQueue, bind_eq_ok] at h
    obtain ⟨st₁, hst₁, h⟩ := h
    have hstep := hc.step hnodup hroot hqueue hbounded hd hst₁
    obtain ⟨_, _, _, hbinds, _⟩ := bindDirectory_sound hbounded hst₁
    rcases hq : st₁.queue with _ | ⟨serial, rest⟩
    · rw [hq] at h hstep
      cases h
      exact ⟨_, hstep⟩
    · rw [hq] at h hstep
      obtain ⟨next, hnext, h⟩ := bind_eq_ok.mp h
      rw [orError_eq_ok] at hnext
      have hdir : serial ∈ (objects.delivered root).directories := by
        rcases (hstep.mem_iff serial).mp (by simp) with rfl | hdir
        · exact hroot
        · exact hdir.1
      obtain ⟨v, hv, hk⟩ := Namespace.mem_directories.mp hdir
      have hnext' : next = v.contentRoot := by
        rw [hstep.rows_mem hv] at hnext
        simpa [QualifyRow.new, hk, eq_comm] using hnext
      subst hnext'
      have hb₁ : st₁.rows.Bounded := by
        rw [hbinds.rows_eq]
        exact hbounded.addBound
      exact ih (hstep.withQueue rest) rfl hb₁ hv h

omit hnodup hroot in
theorem Closure.start {st : Recorded Id}
    (h : st.Holds root.rootSerial (objects.delivered root).inodes) :
    Closure objects (objects.delivered root) [] [root.rootSerial] { rows := st.rows } where
  rows_mem := by
    intro s value hmem
    simp [h.rows_mem hmem, QualifyRow.new]
  rows_none := fun hs => h.rows_none hs
  bindings_eq := rfl
  directories_eq := rfl
  nodup := by simp
  mem_iff := by
    intro s
    simp [Objects.delivered, Objects.namespaceOf]
  reached := by
    intro s hs
    rw [nil_append, mem_singleton] at hs
    rw [hs]
    exact Relation.ReflTransGen.refl
  target := by simp
  delivered := by simp

omit hroot in
theorem Closure.length_eq_sum (h : Closure objects (objects.delivered root) done queue st) :
    ((objects.delivered root).inodes.map fun row =>
      ((objects.delivered root).boundBy done).count row.1).sum
      = ((objects.delivered root).boundBy done).length := by
  have hmem : ∀ s ∈ (objects.delivered root).boundBy done, s ∈ (objects.delivered root).serials := by
    intro s hs
    obtain ⟨-, value, hv, -⟩ := h.target s hs
    exact mem_map_of_mem hv
  have hsum := sum_count_eq_length hnodup hmem
  rwa [Namespace.serials, map_map] at hsum

/-- **The pigeonhole.** With an empty queue and equal totals, the namespace is well formed. -/
theorem Closure.wellFormed (h : Closure objects (objects.delivered root) done [] st)
    (hvalid : ∀ row ∈ (objects.delivered root).inodes, RowValid root.rootSerial row)
    (htotal : st.bindings = declaredTotal (objects.delivered root).inodes) :
    (objects.delivered root).WellFormed ∧
      ∀ d ∈ (objects.delivered root).directories, d ∈ done := by
  set ns := objects.delivered root with hns
  -- every inode is bound as often as it declares
  have hexact : ∀ row ∈ ns.inodes, (ns.boundBy done).count row.1 = row.2.namespaceRefCount := by
    refine eq_of_sum_eq (fun row hrow => ?_) ?_
    · by_cases hs : row.1 ∈ ns.boundBy done
      · obtain ⟨-, value, hv, hle, -⟩ := h.target row.1 hs
        rwa [Namespace.row_unique hnodup hv hrow] at hle
      · rw [count_eq_zero_of_not_mem hs]
        exact Nat.zero_le _
    · rw [h.length_eq_sum hnodup, ← h.bindings_eq, htotal]
      rfl
  have hbound : ∀ {s value}, (s, value) ∈ ns.inodes → s ≠ ns.root → s ∈ ns.boundBy done := by
    intro s value hmem hne
    obtain ⟨-, -, hv⟩ := hvalid (s, value) hmem
    have hroot' : (s == root.rootSerial) = false := beq_eq_false_iff_ne.mpr hne
    simp only [InodeValue.validate, ensure_eq_ok, hroot', Bool.false_eq_true, if_false,
      Bool.and_eq_true, decide_eq_true_eq] at hv
    rw [← count_pos_iff, hexact _ hmem]
    exact hv.1
  have hdone : ∀ d ∈ ns.directories, d ∈ done := by
    intro d hd
    have hmem := (h.mem_iff d).mpr (by
      by_cases hdr : d = ns.root
      · exact .inl hdr
      · obtain ⟨value, hv, -⟩ := Namespace.mem_directories.mp hd
        exact .inr ⟨hd, hbound hv hdr⟩)
    simpa using hmem
  have hsub : ∀ d ∈ done, d ∈ ns.directories := by
    intro d hd
    rcases (h.mem_iff d).mp (by simpa using hd) with rfl | hdir
    · exact hroot
    · exact hdir.1
  have hdnodup : done.Nodup := by simpa using h.nodup
  have hcount : ∀ s, ns.bindingCount s = (ns.boundBy done).count s := fun s =>
    le_antisymm
      (Namespace.count_boundBy_le (Namespace.directories_nodup hnodup) (fun d hd => hdone d hd) s)
      (Namespace.count_boundBy_le hdnodup (fun d hd => hsub d hd) s)
  have hrootzero : ns.bindingCount ns.root = 0 := by
    rw [hcount, count_eq_zero]
    exact fun hmem => (h.target _ hmem).1 rfl
  have honce : ∀ {s value}, (s, value) ∈ ns.inodes → s ≠ ns.root → value.kind ≠ .regularFile →
      ns.bindingCount s = 1 := by
    intro s value hmem hne hk
    obtain ⟨-, -, hv⟩ := hvalid (s, value) hmem
    have hroot' : (s == root.rootSerial) = false := beq_eq_false_iff_ne.mpr hne
    simp only [InodeValue.validate, ensure_eq_ok, hroot', Bool.false_eq_true, if_false,
      Bool.and_eq_true, Bool.or_eq_true, beq_iff_eq] at hv
    rw [hcount, hexact _ hmem]
    exact hv.2.resolve_left hk
  have hreached : ∀ s ∈ ns.serials, ns.Reached s := by
    intro s hs
    obtain ⟨⟨s, value⟩, hmem, rfl⟩ := mem_map.mp hs
    by_cases hsr : s = ns.root
    · rw [hsr]
      exact Relation.ReflTransGen.refl
    · obtain ⟨d, hd, hsd⟩ := Namespace.mem_boundBy.mp (hbound hmem hsr)
      exact (h.reached d (by simpa using hd)).tail ⟨hsub d hd, hsd⟩
  obtain ⟨rootValue, hrootMem, hrootKind⟩ := Namespace.mem_directories.mp hroot
  refine ⟨{ nodup := hnodup, root_row := ⟨rootValue, hrootMem, hrootKind⟩, bound_mem := ?_,
            root_unbound := hrootzero, reached := hreached, bound_once := honce,
            count_eq := ?_, acyclic := ?_ }, hdone⟩
  · intro d s hedge
    have hmem := Namespace.mem_boundBy.mpr ⟨d, hdone d hedge.1, hedge.2⟩
    obtain ⟨-, value, hv, -⟩ := h.target s hmem
    exact mem_map_of_mem hv
  · intro s value hmem
    rw [hcount]
    exact (hexact _ hmem).symm
  · refine Namespace.acyclic_of_reached hrootzero (fun {s} hs hne => ?_) fun s hs =>
      hreached s (Namespace.directories_subset hs)
    obtain ⟨value, hv, hk⟩ := Namespace.mem_directories.mp hs
    exact honce hv hne (by rw [hk]; decide)

omit hnodup hroot in
theorem length_boundBy_directories (hw : (objects.delivered root).WellFormed) :
    ((objects.delivered root).boundBy (objects.delivered root).directories).length
      = declaredTotal (objects.delivered root).inodes := by
  have hmem : ∀ s ∈ (objects.delivered root).boundBy (objects.delivered root).directories,
      s ∈ (objects.delivered root).serials := by
    intro s hs
    obtain ⟨d, hd, hsd⟩ := Namespace.mem_boundBy.mp hs
    exact hw.bound_mem ⟨hd, hsd⟩
  rw [← sum_count_eq_length hw.nodup hmem, declaredTotal, Namespace.serials, map_map]
  refine congrArg List.sum (map_congr_left fun row hrow => ?_)
  exact (hw.count_eq hrow).symm

/-- **A well-formed namespace passes.** The queue empties within one listing per directory, and
then every directory was listed. -/
theorem bindQueue_complete (hw : (objects.delivered root).WellFormed)
    (htotal : declaredTotal (objects.delivered root).inodes < u64Bound)
    (hreads : ∀ {d value}, (d, value) ∈ (objects.delivered root).inodes → value.kind = .directory →
      ∃ rows, deliveredRows (objects.directory value.contentRoot) = .ok rows) :
    ∀ {done queue : List ℕ} {d : ℕ} {value : InodeValue Id} {st : Pass Id},
      Closure objects (objects.delivered root) done (d :: queue) st → st.queue = queue →
      st.rows.Bounded → (d, value) ∈ (objects.delivered root).inodes →
      (objects.delivered root).directories.length < fuel + done.length →
      ∃ st', bindQueue objects root.rootSerial fuel value.contentRoot st = .ok st' := by
  set ns := objects.delivered root with hns
  induction fuel with
  | zero =>
    -- `done` and `d` are distinct directories of the table
    intro done queue d value st hc _ _ _ hfuel
    have hsub : done ++ d :: queue ⊆ ns.directories := by
      intro s hs
      rcases (hc.mem_iff s).mp hs with rfl | hdir
      · exact hroot
      · exact hdir.1
    have hle := (subperm_of_subset hc.nodup hsub).length_le
    rw [length_append, length_cons] at hle
    omega
  | succ fuel ih =>
    intro done queue d value st hc hqueue hbounded hd hfuel
    have hmemdir : ∀ s ∈ done ++ d :: queue, s ∈ ns.directories := by
      intro s hs
      rcases (hc.mem_iff s).mp hs with rfl | hdir
      · exact hroot
      · exact hdir.1
    have hddir := hmemdir d (by simp)
    have hkind : value.kind = .directory := by
      obtain ⟨v, hv, hk⟩ := Namespace.mem_directories.mp hddir
      rwa [Namespace.row_unique hnodup hd hv]
    obtain ⟨rows, hrows⟩ := hreads hd hkind
    have hchildren : ns.children d = rows.map Prod.snd := children_delivered hnodup hd hrows
    have hbound : ns.boundBy (done ++ [d]) = ns.boundBy done ++ ns.children d := by
      simp [Namespace.boundBy_append]
    have hpart : (done ++ [d]).Nodup ∧ done ++ [d] ⊆ ns.directories := by
      have hnd : (done ++ [d] ++ queue).Nodup := by simpa using hc.nodup
      refine ⟨(nodup_append.mp hnd).1, fun s hs => hmemdir s ?_⟩
      rcases mem_append.mp hs with hs | hs
      · exact mem_append_left _ hs
      · rw [mem_singleton.mp hs]
        simp
    have hcountle : ∀ s, (ns.boundBy done).count s + (ns.children d).count s ≤ ns.bindingCount s := by
      intro s
      rw [← count_append, ← hbound]
      exact Namespace.count_boundBy_le hpart.1 hpart.2 s
    have hadmits : Admits root.rootSerial st.rows (rows.map Prod.snd) := by
      rw [← hchildren]
      intro s hs
      have hedge : ns.Edge d s := ⟨hddir, hs⟩
      obtain ⟨⟨s, v⟩, hv, rfl⟩ := mem_map.mp (hw.bound_mem hedge)
      have hpos : 0 < ns.bindingCount s := Namespace.edge_iff_bound.mp ⟨d, hedge⟩
      have hne : s ≠ ns.root := by
        rintro rfl
        have := hw.root_unbound
        omega
      refine ⟨hne, _, hc.rows_mem hv, ?_, fun hk => ?_⟩
      · exact (hcountle s).trans (le_of_eq (hw.count_eq hv).symm)
      · refine (hcountle s).trans (le_of_eq (hw.bound_once hv hne ?_))
        have hk : v.kind = .directory := hk
        rw [hk]
        decide
    have hsum : st.bindings + rows.length < u64Bound := by
      have hlen : rows.length = (ns.children d).length := by rw [hchildren, length_map]
      have hle : (ns.boundBy (done ++ [d])).length ≤ (ns.boundBy ns.directories).length := by
        obtain ⟨part, hperm, hsub⟩ := subperm_of_subset hpart.1 hpart.2
        have h₁ := (hperm.flatMap_right ns.children).length_eq
        have h₂ := (hsub.flatMap ns.children).length_le
        rw [Namespace.boundBy, Namespace.boundBy, ← h₁]
        exact h₂
      have hall : (ns.boundBy ns.directories).length = declaredTotal ns.inodes :=
        length_boundBy_directories hw
      rw [hall, hbound, length_append] at hle
      rw [hc.bindings_eq, hlen]
      omega
    obtain ⟨st₁, hst₁⟩ := bindDirectory_complete hbounded hrows hadmits hsum
    have hstep := hc.step hnodup hroot hqueue hbounded hd hst₁
    obtain ⟨_, _, _, hbinds, _⟩ := bindDirectory_sound hbounded hst₁
    rw [bindQueue]
    rcases hq : st₁.queue with _ | ⟨serial, rest⟩
    · exact ⟨st₁, bind_eq_ok.mpr ⟨st₁, hst₁, by rw [hq]⟩⟩
    · rw [hq] at hstep
      have hdir : serial ∈ ns.directories := by
        rcases (hstep.mem_iff serial).mp (by simp) with rfl | hdir
        · exact hroot
        · exact hdir.1
      obtain ⟨v, hv, hk⟩ := Namespace.mem_directories.mp hdir
      have hb₁ : st₁.rows.Bounded := by
        rw [hbinds.rows_eq]
        exact hbounded.addBound
      obtain ⟨st', hst'⟩ := ih (hstep.withQueue rest) rfl hb₁ hv (by simp; omega)
      refine ⟨st', bind_eq_ok.mpr ⟨st₁, hst₁, ?_⟩⟩
      rw [hq]
      refine bind_eq_ok.mpr ⟨v.contentRoot, orError_eq_ok.mpr ?_, hst'⟩
      rw [hstep.rows_mem hv]
      simp [QualifyRow.new, hk]

theorem Closure.listed_all (hw : (objects.delivered root).WellFormed)
    (h : Closure objects (objects.delivered root) done [] st) :
    done.length = (objects.delivered root).directories.length ∧
    st.bindings = declaredTotal (objects.delivered root).inodes := by
  set ns := objects.delivered root with hns
  have hclosed : ∀ s, ns.Reached s → s ∈ ns.directories → s ∈ done := by
    intro s hs
    induction hs with
    | refl =>
      intro _
      simpa using (h.mem_iff ns.root).mpr (.inl rfl)
    | @tail x y hx hxy ih =>
      intro hy
      have hxdone := ih hxy.1
      simpa using (h.mem_iff y).mpr (.inr ⟨hy, Namespace.mem_boundBy.mpr ⟨x, hxdone, hxy.2⟩⟩)
  have hdone : ns.directories ⊆ done := fun d hd =>
    hclosed d (hw.reached d (Namespace.directories_subset hd)) hd
  have hsub : done ⊆ ns.directories := by
    intro d hd
    rcases (h.mem_iff d).mp (by simpa using hd) with rfl | hdir
    · exact hroot
    · exact hdir.1
  have hperm : done.Perm ns.directories := by
    have hdnodup : done.Nodup := by simpa using h.nodup
    exact (subperm_of_subset hdnodup hsub).antisymm
      (subperm_of_subset (Namespace.directories_nodup hnodup) hdone)
  refine ⟨hperm.length_eq, ?_⟩
  rw [h.bindings_eq, ← length_boundBy_directories hw]
  exact (hperm.flatMap_right ns.children).length_eq

end Invariant

/-! ## Acceptance -/

/-- What a root must satisfy beyond its listings: it is the one the context names, its inode
table is canonical, and serials and the declared total are representable. -/
structure RootReadable [DecidableEq Id] (objects : Objects Id) (context : RootContext Id)
    (root : FilesystemRoot Id) : Prop where
  root_eq : objects.filesystemRoot context.root = .ok root
  context_eq : context.check root = .ok ()
  table_checked : Page.AllChecked inodeCheck none (objects.inodes root.inodeTable)
  table_ordered : ((objects.inodes root.inodeTable).rows.map Prod.fst).Pairwise (· < ·)
  serials_le : ∀ row ∈ (objects.inodes root.inodeTable).rows,
    row.1 ≠ 0 ∧ row.1 ≤ maximumInodeSerial
  total_lt : declaredTotal (objects.inodes root.inodeTable).rows < u64Bound

def Delivers (p : DirectoryPage) : Prop := ∃ rows, deliveredRows p = .ok rows

/-- A listing whose pages are all checked and whose names strictly increase. -/
def CanonicalListing (p : DirectoryPage) : Prop :=
  Page.AllChecked directoryCheck none p ∧ (p.rows.map Prod.fst).Pairwise (· < ·)

def Objects.Listings (objects : Objects Id) (root : FilesystemRoot Id)
    (property : DirectoryPage → Prop) : Prop :=
  ∀ row ∈ (objects.inodes root.inodeTable).rows, row.2.kind = .directory →
    property (objects.directory row.2.contentRoot)

theorem Namespace.WellFormed.validate (hw : ns.WellFormed) (h : (s, value) ∈ ns.inodes) :
    value.validate (s == ns.root) = .ok () := by
  rw [InodeValue.validate, ensure_eq_ok, hw.count_eq h]
  by_cases hs : s = ns.root
  · obtain ⟨v, hv, hk⟩ := hw.root_row
    rw [hs] at h
    cases Namespace.row_unique hw.nodup h hv
    simp [hs, hk, hw.root_unbound]
  · rw [if_neg (by simpa using hs)]
    have hpos : 0 < ns.bindingCount s := by
      -- a reached serial other than the root has a last edge
      rcases Relation.ReflTransGen.cases_tail (hw.reached s (mem_map_of_mem h)) with heq | hlast
      · exact absurd heq hs
      · obtain ⟨d, -, hd⟩ := hlast
        exact Namespace.edge_iff_bound.mp ⟨d, hd⟩
    by_cases hk : value.kind = .regularFile
    · simp [hk]
      omega
    · simp [hw.bound_once h hs hk]

/-- **Acceptance is well-formedness of the delivered namespace.** -/
theorem qualifyRoot_iff [DecidableEq Id] {objects : Objects Id} {context : RootContext Id} :
    (∃ proof, qualifyRoot objects context = .ok proof) ↔
      ∃ root, RootReadable objects context root ∧ objects.Listings root Delivers ∧
        (objects.delivered root).WellFormed := by
  refine ⟨?_, ?_⟩
  · rintro ⟨proof, h⟩
    rw [qualifyRoot, bind_eq_ok] at h
    obtain ⟨root, hroot, h⟩ := h
    obtain ⟨hcontext, h⟩ := check_bind_eq_ok.mp h
    obtain ⟨recorded, hrecorded, h⟩ := bind_eq_ok.mp h
    obtain ⟨listing, hlisting, h⟩ := bind_eq_ok.mp h
    obtain ⟨pass, hpass, h⟩ := bind_eq_ok.mp h
    obtain ⟨htotal, -⟩ := check_bind_eq_ok.mp h
    obtain ⟨⟨hchecked, hordered⟩, hvalid, hlt, rfl⟩ :=
      (recordInodes_iff (Nat.lt_succ_self _)).mp hrecorded
    have hnodup : (objects.delivered root).serials.Nodup := hordered.imp fun h => ne_of_lt h
    have hholds : Recorded.Holds root.rootSerial (objects.delivered root).inodes
        ((objects.inodes root.inodeTable).rows.foldl (Recorded.add root.rootSerial) {}) :=
      Recorded.holds_table hnodup
    rw [orError_eq_ok] at hlisting
    obtain ⟨value, hvalue, rfl⟩ := hholds.listing_eq.mp hlisting
    have hrootdir : root.rootSerial ∈ (objects.delivered root).directories := by
      refine Namespace.mem_directories.mpr ⟨value, hvalue, ?_⟩
      have hv := (hvalid _ hvalue).2.2
      simp only [InodeValue.validate, ensure_eq_ok, BEq.rfl, if_true, Bool.and_eq_true,
        beq_iff_eq] at hv
      exact hv.1
    obtain ⟨done, hdone⟩ := Closure.run hnodup hrootdir (Closure.start hholds) rfl
      (hholds.bounded hlt) hvalue hpass
    have htotal' : pass.bindings = declaredTotal (objects.delivered root).inodes := by
      rw [ensure_eq_ok, beq_iff_eq] at htotal
      rw [htotal, hholds.declared_eq]
    obtain ⟨hw, hall⟩ := hdone.wellFormed hnodup hrootdir hvalid htotal'
    refine ⟨root, ⟨hroot, hcontext, hchecked, hordered,
      fun row hrow => ⟨(hvalid row hrow).1, (hvalid row hrow).2.1⟩, hlt⟩, ?_, hw⟩
    intro row hrow hk
    obtain ⟨v, rows, hv, hrows⟩ :=
      hdone.delivered row.1 (hall row.1 (Namespace.mem_directories.mpr ⟨row.2, hrow, hk⟩))
    rw [Namespace.row_unique hnodup hv hrow] at hrows
    exact ⟨rows, hrows⟩
  · rintro ⟨root, hr, hreads, hw⟩
    have hnodup : (objects.delivered root).serials.Nodup := hw.nodup
    have hholds : Recorded.Holds root.rootSerial (objects.delivered root).inodes
        ((objects.inodes root.inodeTable).rows.foldl (Recorded.add root.rootSerial) {}) :=
      Recorded.holds_table hnodup
    obtain ⟨value, hvalue, hkind⟩ := hw.root_row
    have hrootdir : root.rootSerial ∈ (objects.delivered root).directories :=
      Namespace.mem_directories.mpr ⟨value, hvalue, hkind⟩
    have hbounded := hholds.bounded hr.total_lt
    have hdirs : (objects.delivered root).directories.length
        = ((objects.inodes root.inodeTable).rows.filter fun row =>
            row.2.kind == .directory).length := by
      rw [Namespace.directories, length_map]
      rfl
    have hfuel : (objects.delivered root).directories.length
        < (objects.inodes root.inodeTable).rows.length + 1 + ([] : List ℕ).length := by
      have := length_filter_le (fun row : ℕ × InodeValue Id => row.2.kind == .directory)
        (objects.inodes root.inodeTable).rows
      simp only [length_nil]
      omega
    obtain ⟨pass, hpass⟩ := bindQueue_complete hnodup hrootdir hw hr.total_lt
      (fun {d value} hmem hk => hreads (d, value) hmem hk) (Closure.start hholds) rfl hbounded hvalue
      hfuel
    obtain ⟨done, hdone⟩ := Closure.run hnodup hrootdir (Closure.start hholds) rfl hbounded hvalue
      hpass
    obtain ⟨hlen, hbindings⟩ := hdone.listed_all hnodup hrootdir hw
    have hvalid : ∀ row ∈ (objects.inodes root.inodeTable).rows, RowValid root.rootSerial row :=
      fun row hrow => ⟨(hr.serials_le row hrow).1, (hr.serials_le row hrow).2, hw.validate hrow⟩
    rw [qualifyRoot]
    refine ⟨_, bind_eq_ok.mpr ⟨root, hr.root_eq, check_bind_eq_ok.mpr ⟨hr.context_eq,
      bind_eq_ok.mpr ⟨_, (recordInodes_iff (Nat.lt_succ_self _)).mpr
        ⟨⟨hr.table_checked, hr.table_ordered⟩, hvalid, hr.total_lt, rfl⟩,
      bind_eq_ok.mpr ⟨value.contentRoot, ?_, bind_eq_ok.mpr ⟨pass, hpass,
        check_bind_eq_ok.mpr ⟨?_, check_bind_eq_ok.mpr ⟨?_, rfl⟩⟩⟩⟩⟩⟩⟩⟩
    · exact orError_eq_ok.mpr (hholds.listing_eq.mpr ⟨value, hvalue, rfl⟩)
    · rw [ensure_eq_ok, beq_iff_eq, hbindings, hholds.declared_eq]
    · rw [ensure_eq_ok, beq_iff_eq, hdone.directories_eq, hlen, hdirs, hholds.directories_eq]
      rfl

end LayerFs
