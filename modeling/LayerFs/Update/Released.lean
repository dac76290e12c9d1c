import LayerFs.Update.Account
import LayerFs.Validate.Territory

/-!
# What the resident release drops

The release walks the listings the result would have, so it is a run of `Releasing` over the
effective directories: the frontier waits, the cursors hold the open references, and the tally is
the ledger's.

* `releaseZeroCount_yields` — **the release is complete**: it ends with nothing waiting and nothing
  open.
-/

namespace LayerFs

open List

open FilesystemInput

variable {Id Table : Type}
variable {v : InodeValue Id} {ledger : Ledger Id} {open_ released waiting : List ℕ}
  {reducer : ReferenceReducer Id} {n : ℕ}

/-- The caller's promise about supplied values: a stored inode keeps its kind. -/
def KeepsKinds (inp : FilesystemInput Id) : Prop :=
  ∀ s value record, inp.valueFor s = some value → inp.stored s = some record →
    value.kind = record.kind

/-- A directory value supplied without a header names the directory's own listing. No check asks
for it. -/
def KeepsListing (trees : Trees Id Table) (inp : FilesystemInput Id) (s : ℕ) : Prop :=
  ∀ value, inp.valueFor s = some value → value.kind = .directory → inp.directoryFor s = none →
    trees.bindings value.contentRoot = inp.storedListing s

variable {trees : Trees Id Table} {inp : FilesystemInput Id} {root : RootRecord Id Table}
  {backed : Bool} {records : TopologyRecords} {contents : List (ℕ × Id)} {s : ℕ}

/-! ## Final values -/

def finalOf (inp : FilesystemInput Id) (contents : List (ℕ × Id)) (s : ℕ) :
    Option (InodeValue Id) :=
  match inp.stored s with
  | some base => some ((notedValue inp contents s).getD base)
  | none => notedValue inp contents s

theorem Rebuilt.lookup_eq_none (h : Rebuilt inp trees inp.directories contents) :
    contents.lookup s = none ↔ inp.directoryFor s = none ∨ inp.dropped s = true := by
  rw [lookup_eq_none_iff, h.keys, FilesystemInput.directoryFor, find?_eq_none]
  refine ⟨fun hs => ?_, fun hs hmem => ?_⟩
  · by_contra hcase
    rw [not_or, not_forall] at hcase
    obtain ⟨⟨update, hcase⟩, hdropped⟩ := hcase
    rw [Classical.not_imp, Bool.not_eq_true, Bool.not_eq_false, beq_iff_eq] at hcase
    refine hs (mem_map.mpr ⟨update, mem_filter.mpr ⟨hcase.1, ?_⟩, hcase.2⟩)
    simpa [hcase.2] using hdropped
  · obtain ⟨update, hupdate, rfl⟩ := mem_map.mp hmem
    obtain ⟨hupdate, hkept⟩ := mem_filter.mp hupdate
    rcases hs with hs | hs
    · exact hs update hupdate (by simp)
    · simp [hs] at hkept

theorem dropped_header (h : inp.dropped s = true) :
    (∃ update ∈ inp.directories, update.parent = s) ∧ inp.isNew s = true ∧
      inp.boundByHeader s = false := by
  rw [dropped, Bool.and_eq_true, contains_iff_mem, trackedParents, mem_dedup,
    mem_filter, Bool.and_eq_true, mem_map, Bool.not_eq_true'] at h
  exact ⟨h.1.1, h.1.2.2, h.2⟩

theorem notedValue_kind (hv : notedValue inp contents s = some v) :
    ∃ w, (inp.valueFor s).or (inp.stored s) = some w ∧ v.kind = w.kind := by
  rw [notedValue] at hv
  rcases hlook : contents.lookup s with _ | content
  · rw [hlook] at hv
    dsimp only at hv
    split_ifs at hv
    exact ⟨v, by rw [hv]; rfl, rfl⟩
  · rw [hlook] at hv
    obtain ⟨w, hw, rfl⟩ := Option.map_eq_some_iff.mp hv
    exact ⟨w, hw, rfl⟩

/-- **Final values and effective directories.** -/
theorem finalOf_directory (hc : Classified inp backed records) (hb : inp.BaseValid)
    (hbase : inp.base = some (trees.openRoot root)) (hkinds : KeepsKinds inp)
    (hrebuilt : Rebuilt inp trees inp.directories contents) (hv : finalOf inp contents s = some v) :
    (v.kind = .directory ↔ s ∈ inp.effective.directories) ∧
      (KeepsListing trees inp s → s ∈ inp.effective.directories →
        trees.bindings v.contentRoot = inp.effective.listing s) := by
  have hkind : v.kind = .directory ↔ s ∈ inp.effective.directories := by
    rw [mem_effective_directories hb hc.shaped, mem_storedDirectories hb]
    rw [finalOf] at hv
    rcases hs : inp.stored s with _ | base
    · rw [hs] at hv
      obtain ⟨w, hw, hkind⟩ := notedValue_kind hv
      rw [hs, Option.or_none] at hw
      simp [hw, hkind]
    · have hsame : v.kind = base.kind := by
        rw [hs] at hv
        obtain rfl : (notedValue inp contents s).getD base = v := Option.some.inj hv
        rcases hnoted : notedValue inp contents s with _ | noted
        · rfl
        · obtain ⟨w, hw, hkind⟩ := notedValue_kind hnoted
          rw [Option.getD_some, hkind]
          rcases hsupplied : inp.valueFor s with _ | value
          · rw [hsupplied, hs, Option.none_or] at hw
            rw [Option.some.inj hw]
          · rw [hsupplied, Option.some_or] at hw
            rw [← Option.some.inj hw]
            exact hkinds s _ _ hsupplied hs
      simp [hsame]
  refine ⟨hkind, fun hkeep hdir => ?_⟩
  rcases hlook : contents.lookup s with _ | content
  · rcases hrebuilt.lookup_eq_none.mp hlook with hheader | hdropped
    · -- without a header the listing is the stored one
      rw [effective_listing_of_unstated hheader]
      rw [finalOf, notedValue, hlook] at hv
      dsimp only at hv
      rcases hsupplied : inp.valueFor s with _ | value
      · rw [hsupplied, ite_self] at hv
        rcases hs : inp.stored s with _ | base
        · rw [hs] at hv
          cases hv
        · rw [hs] at hv
          cases hv
          exact bindings_stored hbase hs
      · have hnot : inp.dropped s = false := by
          by_contra hd
          rw [Bool.not_eq_false] at hd
          obtain ⟨update, hupdate, hparent⟩ := (dropped_header hd).1
          rw [FilesystemInput.directoryFor, find?_eq_none] at hheader
          exact hheader update hupdate (by simpa using hparent)
        obtain rfl : value = v := by
          rw [hsupplied, hnot] at hv
          rcases hst : inp.stored s with _ | base
          · rw [hst] at hv
            exact Option.some.inj hv
          · rw [hst] at hv
            exact Option.some.inj hv
        exact hkeep _ hsupplied (hkind.mpr hdir) hheader
    · rw [finalOf, hc.new_absent s (dropped_header hdropped).2.1, notedValue, hlook] at hv
      simp [hdropped] at hv
  · have hroot : v.contentRoot = content := by
      rw [finalOf, notedValue, hlook] at hv
      dsimp only at hv
      rcases hs : inp.stored s with _ | base
      · rw [hs] at hv
        obtain ⟨w, -, rfl⟩ := Option.map_eq_some_iff.mp hv
        rfl
      · rw [hs] at hv
        rcases hsupplied : inp.valueFor s with _ | value
        · rw [hsupplied] at hv
          cases hv
          rfl
        · rw [hsupplied] at hv
          cases hv
          rfl
    rw [hroot]
    exact hrebuilt.listing (s, content) (mem_of_lookup hlook)

/-! ## One page -/

def Exempt (inp : FilesystemInput Id) (d : ℕ) : Prop :=
  d = inp.rootSerial ∨ inp.dropped d = true

theorem boundByHeader_of_states (hshaped : inp.Shaped) {p : ℕ} {name : PathName}
    (h : inp.States p name s) : inp.boundByHeader s = true := by
  obtain ⟨update, hupdate, -, hchange⟩ := (mem_changesFor hshaped).mp h
  rw [boundByHeader, any_eq_true]
  exact ⟨update, hupdate, any_eq_true.mpr ⟨_, hchange, by simp⟩⟩

theorem exempt_unbound (hc : Classified inp backed records) (hb : inp.BaseValid)
    (h : Exempt inp s) : heldCount inp.effective.children inp.effective.directories s = 0 := by
  rw [← Nat.le_zero, ← Nat.not_lt]
  intro hpos
  obtain ⟨p, hedge⟩ := Namespace.edge_iff_bound.mpr hpos
  rcases h with rfl | hdropped
  · exact hc.not_edge_root hb hedge
  · obtain ⟨⟨update, hupdate, rfl⟩, hnew, hfree⟩ := dropped_header hdropped
    rcases hc.edge_cases hb (hc.header_directory hb hupdate) hedge with ⟨name, hstates, -⟩ | hbase
    · rw [boundByHeader_of_states hc.shaped hstates] at hfree
      cases hfree
    · have := BaseEdge.child_stored hb hbase
      rw [hc.new_absent _ hnew] at this
      cases this

/-- A release under way, started from an accounted ledger: only effects have touched it since, those
of the bindings in the listings it dropped if the supplied values keep them. -/
structure Dropping (trees : Trees Id Table) (inp : FilesystemInput Id) (first : Ledger Id)
    (released waiting open_ : List ℕ) (ledger : Ledger Id) : Prop where
  moves : ∃ change, Moves inp.storedCount first ledger change
  releasing : (∀ d, KeepsListing trees inp d) → Releasing inp.effective.directories inp.effective.children (Exempt inp) released
    waiting open_ (ledger.tally inp.storedCount)

section Release

variable {first : Ledger Id} (hc : Classified inp backed records) (hb : inp.BaseValid)
  (hbase : inp.base = some (trees.openRoot root)) (hkinds : KeepsKinds inp)
  (hfirst : Accounted inp trees contents first)

include hfirst in
theorem Dropping.value_eq (h : Dropping trees inp first released waiting open_ ledger) (s : ℕ) :
    (ledger.newest s).value = notedValue inp contents s := by
  obtain ⟨change, hmoves⟩ := h.moves
  rw [hmoves.value, hfirst.value]

include hfirst in
theorem Dropping.typed (h : Dropping trees inp first released waiting open_ ledger) : ledger.Typed := by
  obtain ⟨change, hmoves⟩ := h.moves
  intro s
  rw [hmoves.isCount, hfirst.typed, hmoves.declared]

theorem derivedCount_eq_ok {base : ℕ} {delta : ℤ} (h : derivedCount base delta = .ok n)
    (hpos : 0 ≤ base + delta) : (n : ℤ) = base + delta := by
  rw [derivedCount] at h
  split_ifs at h
  cases h
  rw [max_eq_left hpos, Int.toNat_of_nonneg hpos]

include hc hb hbase hkinds hfirst

theorem releaseChild_yields {queue : List ℕ} {x : ℕ}
    (h : Dropping trees inp first released queue (x :: open_) reducer.view) :
    Yields (fun _ => True) (fun out => Dropping trees inp first released out.2 open_ out.1.view)
      (releaseChild inp (reducer, queue) x) := by
  have hnodup := effective_nodup hb hc.shaped hbase
  rw [releaseChild]
  refine Yields.bind (Yields.orError fun _ => trivial) fun base hstored => ?_
  refine Yields.bind (Yields.weaken (ReferenceReducer.update_yields Row.removed)
    fun _ _ => trivial) ?_
  rintro reducer' ⟨row, hrow, hview⟩
  have hmoves : Moves inp.storedCount reducer.view reducer'.view (Pi.single x (-1)) :=
    Moves.removed hrow hview
  have hstate : reducer'.state x = some row := by
    rw [← ReferenceReducer.state_eq, hview, Ledger.row?_set, if_pos rfl]
  have hnewest : reducer'.view.newest x = row := by
    rw [hview, Ledger.newest_set, if_pos rfl]
  -- a removed binding is one of an existing inode
  obtain ⟨-, hvalue, -, hcount⟩ := Row.removed_eq_ok hrow (inp.storedCount x)
  rw [h.value_eq hfirst] at hvalue
  cases row with
  | count value n => cases hcount
  | effect value delta =>
    have hbaseCount : inp.storedCount x = base.namespaceRefCount := by
      simp [storedCount, hstored]
    have htally : reducer'.view.tally inp.storedCount x = base.namespaceRefCount + delta := by
      rw [Ledger.tally, hnewest, hbaseCount]
      rfl
    have hkind : (value.getD base).kind = .directory ↔ x ∈ inp.effective.directories := by
      obtain rfl : value = notedValue inp contents x := hvalue
      refine (finalOf_directory hc hb hbase hkinds hfirst.rebuilt ?_).1
      rw [finalOf, hstored]
    dsimp only
    rw [hstate, childCount]
    rcases hn : derivedCount base.namespaceRefCount delta with e | n
    · trivial
    · obtain ⟨change, hbefore⟩ := h.moves
      refine ⟨⟨_, hbefore.trans hmoves⟩, fun hkeep => ?_⟩
      have hpos : 0 ≤ reducer'.view.tally inp.storedCount x := by
        have := (h.releasing hkeep).tally_ge hnodup x
        rw [count_cons_self] at this
        rw [hmoves.tally, Pi.single_eq_same]
        omega
      rw [htally] at hpos
      have hn := derivedCount_eq_ok hn hpos
      refine (h.releasing hkeep).drop hnodup (fun s => exempt_unbound hc hb) ?_ ?_ ?_
      · rw [hmoves.tally, Pi.single_eq_same]
        rfl
      · intro s hs
        rw [hmoves.tally, Pi.single_eq_of_ne hs]
        omega
      · refine if_congr (and_congr ?_ hkind) rfl rfl
        rw [htally, ← hn]
        omega

theorem releasePage_yields {page : List ℕ} :
    ∀ {queue : List ℕ} {reducer : ReferenceReducer Id},
      Dropping trees inp first released queue (page ++ open_) reducer.view →
      Yields (fun _ => True) (fun out => Dropping trees inp first released out.2 open_ out.1.view)
        (page.foldlM (releaseChild inp) (reducer, queue)) := by
  induction page with
  | nil =>
    intro queue reducer h
    exact h
  | cons x rest ih =>
    intro queue reducer h
    rw [List.foldlM_cons]
    apply Yields.bind (releaseChild_yields hc hb hbase hkinds hfirst h)
    rintro ⟨reducer', queue'⟩ h'
    exact ih h'

/-! ## The whole release -/

omit hb hbase hkinds in
theorem frontierValue_yields (h : Dropping trees inp first released waiting open_ reducer.view) (s : ℕ) :
    Yields (fun _ => True) (fun v => finalOf inp contents s = some v)
      (frontierValue inp (reducer.state s) s) := by
  have hvalue := h.value_eq hfirst s
  have htyped := h.typed hfirst s
  rw [Ledger.newest, ReferenceReducer.state_eq] at hvalue htyped
  rw [finalOf]
  rcases hrow : reducer.state s with _ | row
  · -- an untouched inode has no noted value
    refine Yields.mono (Yields.orError fun _ => trivial) fun v hv => ?_
    rw [hrow, Option.getD_none, freshRow] at hvalue
    have hnone : notedValue inp contents s = none := by
      rw [← hvalue]
      split_ifs <;> rfl
    rw [hv, hnone]
    rfl
  · rw [hrow, Option.getD_some] at hvalue htyped
    cases row with
    | count value n =>
      refine Yields.mono (Yields.orError fun _ => trivial) fun v hv => ?_
      -- a counted inode was declared new, so the base does not hold it
      have hnew : inp.stored s = none := by
        obtain ⟨change, hmoves⟩ := h.moves
        rw [hmoves.declared, hfirst.declared] at htyped
        have htyped : true = (inp.isNew s && !inp.dropped s) := htyped
        rw [eq_comm, Bool.and_eq_true] at htyped
        exact hc.new_absent s htyped.1
      rw [hnew, ← hvalue]
      exact hv
    | effect value delta =>
      refine Yields.bind (Yields.orError fun _ => trivial) fun base hstored => ?_
      rw [hstored]
      obtain rfl : value = notedValue inp contents s := hvalue
      rfl

omit hc hb hbase hkinds hfirst in
theorem takePage_append {entries bytes : ℕ} {rows : List (PathName × ℕ)} :
    (takePage entries bytes rows).1 ++ (takePage entries bytes rows).2 = rows := by
  induction rows generalizing entries bytes with
  | nil => rfl
  | cons row rest ih =>
    rw [takePage]
    split_ifs
    · rfl
    · exact congrArg (row :: ·) ih

/-- **The release is complete**: it ends with nothing waiting and nothing open. -/
theorem releaseZeroCount_yields {fuel : ℕ} : ∀ {released : List ℕ} {st : ReleaseState Id},
    Dropping trees inp first released st.pending
      (st.cursors.flatMap fun cursor => cursor.rows.map Prod.snd) st.reducer.view →
    (∀ cursor ∈ st.cursors, cursor.finished = true → cursor.rows = []) →
    Yields (fun _ => True) (fun reducer => ∃ released, Dropping trees inp first released [] [] reducer.view)
      (releaseZeroCount trees inp fuel st) := by
  have hnodup := effective_nodup hb hc.shaped hbase
  induction fuel with
  | zero => exact fun _ _ => trivial
  | succ fuel ih =>
    rintro released ⟨reducer, pending, cursors⟩ h hfinished
    rcases pending with _ | ⟨serial, pending⟩
    · rcases cursors with _ | ⟨cursor, cursors⟩
      · exact ⟨released, h⟩
      · have hrest : ∀ c ∈ cursors, c.finished = true → c.rows = [] :=
          fun c hmem => hfinished c (mem_cons_of_mem _ hmem)
        rw [releaseZeroCount]
        split_ifs with hdone
        · have hrows : cursor.rows = [] := hfinished cursor mem_cons_self hdone
          apply @ih released
          · simpa [hrows] using h
          · exact hrest
        · have hopen : Dropping trees inp first released []
              (((takePage 0 0 cursor.rows).1.map Prod.snd)
                ++ (((takePage 0 0 cursor.rows).2.map Prod.snd)
                  ++ cursors.flatMap fun c => c.rows.map Prod.snd)) reducer.view := by
            rw [← append_assoc, ← map_append, takePage_append]
            exact h
          apply Yields.bind (releasePage_yields hc hb hbase hkinds hfirst hopen)
          rintro ⟨reducer', queue⟩ h'
          apply ih h'
          rintro c (_ | ⟨_, hmem⟩) hc'
          · simpa using hc'
          · exact hrest c hmem hc'
    · rw [releaseZeroCount]
      apply Yields.bind (frontierValue_yields hc hfirst h serial)
      intro v hv
      obtain ⟨hkind, hlisting⟩ := finalOf_directory hc hb hbase hkinds hfirst.rebuilt hv
      split_ifs with hdir
      · -- a directory at zero: its listing is still to be dropped
        have hmem := hkind.mp hdir
        apply @ih (serial :: released)
        · refine ⟨h.moves, fun hkeep => ?_⟩
          rw [flatMap_cons, hlisting (hkeep serial) hmem]
          exact (h.releasing hkeep).open hnodup hmem
        · rintro c (_ | ⟨_, hmem⟩) hdone
          · cases hdone
          · exact hfinished c hmem hdone
      · exact ih ⟨h.moves, fun hkeep => (h.releasing hkeep).skip fun hmem =>
          hdir (hkind.mpr hmem)⟩ hfinished

/-! ## The frontier -/

omit hc hb hbase hkinds in
theorem touchedCount_eq_ok {row : Row Id} (hrow : first.row? s = some row)
    (h : touchedCount inp s row = .ok n) : (n : ℤ) = first.tally inp.storedCount s := by
  have hpos : 0 ≤ first.tally inp.storedCount s := by
    rw [hfirst.tally]
    omega
  have hnewest : first.newest s = row := by
    rw [Ledger.newest, hrow]
    rfl
  rw [Ledger.tally, hnewest] at hpos ⊢
  cases row with
  | count value m =>
    cases h
    rfl
  | effect value delta => exact derivedCount_eq_ok h hpos

omit hbase hkinds in
theorem row_of_zero {d : ℕ} (hd : d ∈ inp.effective.directories) (hexempt : ¬ Exempt inp d)
    (hzero : first.tally inp.storedCount d = 0) : (first.row? d).isSome := by
  rw [Exempt, not_or, Bool.not_eq_true] at hexempt
  rcases (mem_effective_directories hb hc.shaped).mp hd with hstored | ⟨hnone, value, hvalue, -⟩
  · -- untouched, a stored directory other than the root still has its base binding
    obtain ⟨value, hvalue, hkind⟩ := (mem_storedDirectories hb).mp hstored
    obtain ⟨base, hbase', hrow⟩ := (stored_eq_some_iff hb).mp hvalue
    by_contra hnone
    rw [Option.not_isSome_iff_eq_none] at hnone
    have hnew : inp.isNew d = false := by
      by_contra hnew
      rw [Bool.not_eq_false] at hnew
      rw [hc.new_absent d hnew] at hvalue
      cases hvalue
    rw [Ledger.tally, Ledger.newest, hnone, Option.getD_none, hfirst.declared, hnew, freshRow,
      storedCount_eq hb hbase', (hb base hbase').bound_once hrow ?_ (by simp [hkind])] at hzero
    · simp [Row.tally] at hzero
    · rw [hc.base_root base hbase']
      exact hexempt.1
  · -- a new directory has its supplied value
    apply Ledger.row?_isSome_of_value
    rw [hfirst.value, notedValue]
    rcases contents.lookup d with _ | content
    · simp [hexempt.2, hvalue]
    · simp [hvalue]

omit hbase hkinds in
/-- **The frontier** is every directory the headers left without a binding. -/
theorem zeroCountSerials_yields (hview : reducer.view = first) :
    Yields (fun _ => True) (fun out => Dropping trees inp first [] out.2 [] out.1.view)
      (zeroCountSerials inp reducer) := by
  rw [zeroCountSerials]
  refine Yields.bind (Yields.weaken ReferenceReducer.touchedSerials_yields fun _ _ => trivial) ?_
  rintro ⟨reducer', touched⟩ ⟨hsame, hascending, htouched⟩
  simp only [hview] at hsame htouched
  refine Yields.bind (Yields.ensure fun _ => trivial) fun _ _ => ?_
  refine Yields.bind (P := fun zero => zero = (touched.filter fun entry =>
    first.tally inp.storedCount entry.1 = 0 ∧ entry.1 ≠ inp.rootSerial ∧
      inp.dropped entry.1 = false).map Prod.fst) ?_ fun zero hzero => ?_
  · refine Yields.foldlM (fun done zero => zero = (done.filter fun entry =>
      first.tally inp.storedCount entry.1 = 0 ∧ entry.1 ≠ inp.rootSerial ∧
        inp.dropped entry.1 = false).map Prod.fst) rfl ?_
    rintro done ⟨s, row⟩ rest zero hall rfl
    have hrow : first.row? s = some row := (htouched s row).mp (by rw [hall]; simp)
    rw [addZero]
    rcases hn : touchedCount inp s row with e | n
    · trivial
    · have hn := touchedCount_eq_ok hfirst hrow hn
      have hiff : n = 0 ↔ first.tally inp.storedCount s = 0 := by omega
      rw [filter_append, map_append]
      dsimp only [Yields, bind, Except.bind]
      split_ifs with hcase
      · simp [hiff.mp hcase.1, hcase.2.1, hcase.2.2]
      · rw [hiff] at hcase
        simp [hcase]
  · refine ⟨⟨0, hsame ▸ Moves.refl⟩, fun _ => ?_⟩
    have hmem : ∀ d, d ∈ zero ↔ (first.row? d).isSome ∧ first.tally inp.storedCount d = 0 ∧
        ¬ Exempt inp d := by
      intro d
      rw [hzero, Exempt, not_or, Bool.not_eq_true, Option.isSome_iff_exists]
      simp [htouched]
    rw [hsame]
    apply Releasing.init
    · rw [hzero]
      exact hascending.keys_nodup.sublist (filter_sublist.map Prod.fst)
    · exact hfirst.tally
    · exact fun d hd => ((hmem d).mp hd).2
    · exact fun d hd hexempt hd0 =>
        (hmem d).mpr ⟨row_of_zero hc hb hfirst hd hexempt hd0, hd0, hexempt⟩

/-- **The resident release** leaves nothing waiting and nothing open. -/
theorem memoryRelease_yields (hview : reducer.view = first) {fuel : ℕ} {backing : OrderingBacking} :
    Yields (fun _ => True) (fun reducer => ∃ released, Dropping trees inp first released [] [] reducer.view)
      ((memoryRoute trees inp fuel backing).release reducer) := by
  apply Yields.bind (zeroCountSerials_yields hc hb hfirst hview)
  rintro ⟨reducer', zero⟩ h
  apply @releaseZeroCount_yields _ _ _ _ _ _ _ _ _ hc hb hbase hkinds hfirst fuel [] ⟨reducer', zero, []⟩
  · exact h
  · exact fun _ hmem => nomatch hmem

end Release

end LayerFs
