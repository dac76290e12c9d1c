import LayerFs.Qualify.Walk

/-!
# What the two passes of a qualification record

Each loop of the pass is reduced to its effect on the records:

* `recordInodes_iff` — the sequential pass succeeds exactly on a canonical table of valid rows
  with a representable total, and leaves one fresh record per row;
-/

namespace LayerFs

open List

variable {Id : Type}
variable {p : DirectoryPage} {table : InodePage Id} {entries : List (PathName × ℕ)}
  {targets : List (ℕ × ℕ)} {st : Recorded Id} {fuel n s serial : ℕ}

/-! ## The sequential inode pass -/

/-- The checks `recordRow` makes of a row by itself. -/
def RowValid (rootSerial : ℕ) (row : ℕ × InodeValue Id) : Prop :=
  row.1 ≠ 0 ∧ row.1 ≤ maximumInodeSerial ∧ row.2.validate (row.1 == rootSerial) = .ok ()

def declaredTotal (rows : List (ℕ × InodeValue Id)) : ℕ :=
  (rows.map fun row => row.2.namespaceRefCount).sum

def Recorded.add (rootSerial : ℕ) (st : Recorded Id) (row : ℕ × InodeValue Id) : Recorded Id where
  rows := st.rows.put row.1 (.new row.2)
  declared := st.declared + row.2.namespaceRefCount
  directories := if row.2.kind = .directory then st.directories + 1 else st.directories
  inodes := st.inodes + 1
  listing := if row.1 = rootSerial then some row.2.contentRoot else st.listing

theorem recordRow_iff {rootSerial : ℕ} {st' : Recorded Id} {row : ℕ × InodeValue Id} :
    recordRow rootSerial st row = .ok st' ↔
      RowValid rootSerial row ∧ st.declared + row.2.namespaceRefCount < u64Bound ∧
        st.rows row.1 = none ∧ st' = st.add rootSerial row := by
  rw [recordRow, check_bind_eq_ok, check_bind_eq_ok, bind_eq_ok]
  simp only [check_bind_eq_ok, ensure_eq_ok, checkedAdd_eq_ok, Bool.and_eq_true, bne_iff_ne,
    decide_eq_true_eq, Option.isNone_iff_eq_none, Except.ok.injEq, RowValid]
  constructor
  · rintro ⟨⟨hne, hle⟩, hvalid, declared, ⟨hsum, rfl⟩, hnone, rfl⟩
    exact ⟨⟨hne, hle, hvalid⟩, hsum, hnone, rfl⟩
  · rintro ⟨⟨hne, hle, hvalid⟩, hsum, hnone, rfl⟩
    exact ⟨⟨hne, hle⟩, hvalid, _, ⟨hsum, rfl⟩, hnone, rfl⟩

theorem recordInodes_eq {rootSerial : ℕ} :
    ∀ {after : Option ℕ} {st st' : Recorded Id},
      recordInodes rootSerial table fuel after st = .ok st' ↔
        ∃ rows, tableRows table fuel after = .ok rows ∧
          rows.foldlM (recordRow rootSerial) st = .ok st' := by
  induction fuel with
  | zero => intro after st st'; simp [recordInodes, tableRows]
  | succ fuel ih =>
    intro after st st'
    rw [recordInodes, tableRows, bind_eq_ok]
    constructor
    · rintro ⟨rows, hrows, h⟩
      rcases hlast : rows.getLast? with _ | last
      · rw [hlast] at h
        cases h
        exact ⟨[], bind_eq_ok.mpr ⟨rows, hrows, by rw [hlast]⟩, rfl⟩
      · rw [hlast] at h
        obtain ⟨st₁, hfold, h⟩ := bind_eq_ok.mp h
        obtain ⟨rest, hrest, hfold'⟩ := ih.mp h
        refine ⟨rows ++ rest, bind_eq_ok.mpr ⟨rows, hrows, ?_⟩, ?_⟩
        · rw [hlast]
          exact bind_eq_ok.mpr ⟨rest, hrest, rfl⟩
        · rw [foldlM_append]
          exact bind_eq_ok.mpr ⟨st₁, hfold, hfold'⟩
    · rintro ⟨all, h, hfold⟩
      obtain ⟨rows, hrows, h⟩ := bind_eq_ok.mp h
      refine ⟨rows, hrows, ?_⟩
      rcases hlast : rows.getLast? with _ | last
      · rw [hlast] at h
        cases h
        exact hfold
      · rw [hlast] at h
        obtain ⟨rest, hrest, h⟩ := bind_eq_ok.mp h
        cases h
        rw [foldlM_append] at hfold
        obtain ⟨st₁, hfold₁, hfold₂⟩ := bind_eq_ok.mp hfold
        exact bind_eq_ok.mpr ⟨st₁, hfold₁, ih.mpr ⟨rest, hrest, hfold₂⟩⟩

theorem foldlM_recordRow_iff {rootSerial : ℕ} {rows : List (ℕ × InodeValue Id)} :
    ∀ {st st' : Recorded Id}, (rows.map Prod.fst).Nodup → (∀ row ∈ rows, st.rows row.1 = none) →
      st.declared < u64Bound →
      (rows.foldlM (recordRow rootSerial) st = .ok st' ↔
        (∀ row ∈ rows, RowValid rootSerial row) ∧ st.declared + declaredTotal rows < u64Bound ∧
          st' = rows.foldl (Recorded.add rootSerial) st) := by
  induction rows with
  | nil =>
    intro st st' _ _ hdecl
    simp [declaredTotal, hdecl, pure, Except.pure, eq_comm]
  | cons row rest ih =>
    intro st st' hnodup hfresh hdecl
    rw [map_cons, nodup_cons] at hnodup
    rw [List.foldlM_cons, bind_eq_ok]
    have hfresh' : ∀ r ∈ rest, (st.add rootSerial row).rows r.1 = none := by
      intro r hr
      have hne : r.1 ≠ row.1 := fun h => hnodup.1 (h ▸ mem_map_of_mem hr)
      simp only [Recorded.add, QualifyRows.put, if_neg hne]
      exact hfresh r (mem_cons_of_mem _ hr)
    have htotal : declaredTotal (row :: rest)
        = row.2.namespaceRefCount + declaredTotal rest := by
      simp [declaredTotal]
    rw [htotal, forall_mem_cons, foldl_cons]
    constructor
    · rintro ⟨st₁, hrow, hrest⟩
      obtain ⟨hvalid, hsum, -, rfl⟩ := recordRow_iff.mp hrow
      obtain ⟨hvalids, htot, rfl⟩ := (ih hnodup.2 hfresh' hsum).mp hrest
      exact ⟨⟨hvalid, hvalids⟩, by simpa [Recorded.add, Nat.add_assoc] using htot, rfl⟩
    · rintro ⟨⟨hvalid, hvalids⟩, htot, rfl⟩
      have hsum : st.declared + row.2.namespaceRefCount < u64Bound := by omega
      refine ⟨_, recordRow_iff.mpr ⟨hvalid, hsum, hfresh row (by simp), rfl⟩, ?_⟩
      exact (ih hnodup.2 hfresh' hsum).mpr
        ⟨hvalids, by simpa [Recorded.add, Nat.add_assoc] using htot, rfl⟩

/-- What the fold leaves behind. -/
structure Recorded.Holds (rootSerial : ℕ) (rows : List (ℕ × InodeValue Id)) (st : Recorded Id) :
    Prop where
  rows_mem : ∀ {s value}, (s, value) ∈ rows → st.rows s = some (.new value)
  rows_none : ∀ {s}, s ∉ rows.map Prod.fst → st.rows s = none
  declared_eq : st.declared = declaredTotal rows
  directories_eq : st.directories = (rows.filter fun row => row.2.kind == .directory).length
  listing_eq : ∀ {id}, st.listing = some id ↔
    ∃ value, (rootSerial, value) ∈ rows ∧ value.contentRoot = id

theorem Recorded.holds_nil (rootSerial : ℕ) : Recorded.Holds rootSerial [] ({} : Recorded Id) where
  rows_mem := by simp
  rows_none := by simp
  declared_eq := rfl
  directories_eq := rfl
  listing_eq := by simp

theorem Recorded.Holds.add {rootSerial : ℕ} {rows : List (ℕ × InodeValue Id)} {st : Recorded Id}
    (h : st.Holds rootSerial rows) {row : ℕ × InodeValue Id} (hnew : row.1 ∉ rows.map Prod.fst) :
    (st.add rootSerial row).Holds rootSerial (rows ++ [row]) where
  rows_mem := by
    intro s value hmem
    simp only [Recorded.add, QualifyRows.put]
    rcases mem_append.mp hmem with hmem | hmem
    · have hne : s ≠ row.1 := fun heq => hnew (heq ▸ mem_map_of_mem hmem)
      rw [if_neg hne]
      exact h.rows_mem hmem
    · cases mem_singleton.mp hmem
      rw [if_pos rfl]
  rows_none := by
    intro s hs
    rw [map_append, mem_append, not_or, map_singleton, mem_singleton] at hs
    simp only [Recorded.add, QualifyRows.put, if_neg hs.2]
    exact h.rows_none hs.1
  declared_eq := by
    simp [Recorded.add, h.declared_eq, declaredTotal]
  directories_eq := by
    by_cases hk : row.2.kind = .directory
    · simp [Recorded.add, hk, h.directories_eq]
    · simp [Recorded.add, hk, h.directories_eq]
  listing_eq := by
    intro id
    by_cases hroot : row.1 = rootSerial
    · simp only [Recorded.add, hroot, if_true, Option.some.injEq, mem_append,
        mem_singleton]
      constructor
      · intro hid
        exact ⟨row.2, .inr (by rw [← hroot]), hid⟩
      · rintro ⟨value, hmem | hmem, hid⟩
        · exact absurd (mem_map_of_mem (f := Prod.fst) hmem) (by rwa [← hroot])
        · rw [← hid, ← hmem]
    · simp only [Recorded.add, if_neg hroot, h.listing_eq, mem_append, mem_singleton]
      constructor
      · rintro ⟨value, hmem, hid⟩
        exact ⟨value, .inl hmem, hid⟩
      · rintro ⟨value, hmem | hmem, hid⟩
        · exact ⟨value, hmem, hid⟩
        · exact absurd (congrArg Prod.fst hmem).symm hroot

theorem Recorded.holds_foldl {rootSerial : ℕ} {rows : List (ℕ × InodeValue Id)} :
    ∀ {done : List (ℕ × InodeValue Id)} {st : Recorded Id}, st.Holds rootSerial done →
      ((done ++ rows).map Prod.fst).Nodup →
      (rows.foldl (Recorded.add rootSerial) st).Holds rootSerial (done ++ rows) := by
  induction rows with
  | nil => intro done st h _; simpa using h
  | cons row rest ih =>
    intro done st h hnodup
    have hnew : row.1 ∉ done.map Prod.fst := by
      rw [map_append, nodup_append] at hnodup
      intro hmem
      exact hnodup.2.2 _ hmem row.1 (by simp) rfl
    have hstep := ih (h.add hnew) (by simpa using hnodup)
    simpa using hstep

theorem Recorded.holds_table {rootSerial : ℕ} {rows : List (ℕ × InodeValue Id)}
    (hnodup : (rows.map Prod.fst).Nodup) :
    (rows.foldl (Recorded.add rootSerial) {}).Holds rootSerial rows :=
  Recorded.holds_foldl (Recorded.holds_nil rootSerial) hnodup

/-- **The sequential pass** accepts exactly a canonical table of valid rows with a representable
total, and records it. -/
theorem recordInodes_iff {rootSerial : ℕ} (hfuel : table.rows.length < fuel) :
    recordInodes rootSerial table fuel none {} = .ok st ↔
      (Page.AllChecked inodeCheck none table ∧ (table.rows.map Prod.fst).Pairwise (· < ·)) ∧
      (∀ row ∈ table.rows, RowValid rootSerial row) ∧ declaredTotal table.rows < u64Bound ∧
        st = table.rows.foldl (Recorded.add rootSerial) {} := by
  have hfold : ∀ h : (table.rows.map Prod.fst).Pairwise (· < ·),
      (table.rows.foldlM (recordRow rootSerial) {} = .ok st ↔
        (∀ row ∈ table.rows, RowValid rootSerial row) ∧ declaredTotal table.rows < u64Bound ∧
          st = table.rows.foldl (Recorded.add rootSerial) {}) := fun h => by
    have hf := @foldlM_recordRow_iff Id rootSerial table.rows {} st
      (h.imp fun hlt => ne_of_lt hlt) (by simp) (Nat.two_pow_pos 64)
    simpa using hf
  rw [recordInodes_eq]
  constructor
  · rintro ⟨rows, hrows, h⟩
    obtain ⟨hc, hord, rfl⟩ := (tableRows_iff hfuel).mp hrows
    exact ⟨⟨hc, hord⟩, (hfold hord).mp h⟩
  · rintro ⟨⟨hc, hord⟩, h⟩
    exact ⟨table.rows, (tableRows_iff hfuel).mpr ⟨hc, hord, rfl⟩, (hfold hord).mpr h⟩

/-! ## One window of bindings -/

theorem mem_keys_tallyInsert :
    s ∈ (tallyInsert serial targets).map Prod.fst ↔ s = serial ∨ s ∈ targets.map Prod.fst := by
  induction targets with
  | nil => simp [tallyInsert]
  | cons target rest ih =>
    obtain ⟨t, n⟩ := target
    rw [tallyInsert]
    split
    · simp
    · split
      · rename_i heq
        simp [heq]
      · rw [map_cons, mem_cons, ih, map_cons, mem_cons]
        tauto

theorem sorted_tallyInsert (h : (targets.map Prod.fst).Pairwise (· < ·)) :
    ((tallyInsert serial targets).map Prod.fst).Pairwise (· < ·) := by
  induction targets with
  | nil => simp [tallyInsert]
  | cons target rest ih =>
    obtain ⟨t, n⟩ := target
    rw [map_cons, pairwise_cons] at h
    rw [tallyInsert]
    split
    · rename_i hlt
      rw [map_cons, map_cons, pairwise_cons, pairwise_cons]
      refine ⟨fun x hx => ?_, h⟩
      rcases mem_cons.mp hx with rfl | hx
      · exact hlt
      · exact hlt.trans (h.1 x hx)
    · split
      · rw [map_cons, pairwise_cons]
        exact h
      · rename_i hlt hne
        rw [map_cons, pairwise_cons]
        refine ⟨fun x hx => ?_, ih h.2⟩
        rcases mem_keys_tallyInsert.mp hx with rfl | hx
        · show t < _
          omega
        · exact h.1 x hx

def tallied (targets : List (ℕ × ℕ)) (s : ℕ) : ℕ :=
  ((targets.filter fun target => target.1 = s).map Prod.snd).sum

theorem tallied_tallyInsert :
    tallied (tallyInsert serial targets) s
      = tallied targets s + if serial = s then 1 else 0 := by
  induction targets with
  | nil => by_cases h : serial = s <;> simp [tallyInsert, tallied, h]
  | cons target rest ih =>
    obtain ⟨t, n⟩ := target
    rw [tallyInsert]
    split
    · by_cases h : serial = s
      · simp [tallied, h]
        omega
      · simp [tallied, h]
    · split
      · rename_i heq
        subst heq
        by_cases h : serial = s
        · simp [tallied, h]
          omega
        · simp [tallied, h]
      · by_cases h : t = s
        · simp only [tallied, filter_cons, h, decide_true, if_true, map_cons,
            sum_cons] at ih ⊢
          omega
        · simp only [tallied, filter_cons, h, decide_false] at ih ⊢
          exact ih

theorem tallied_of_mem (h : (targets.map Prod.fst).Nodup) (hmem : (s, n) ∈ targets) :
    tallied targets s = n := by
  have hfilter : (targets.filter fun target => target.1 = s) = [(s, n)] := by
    induction targets with
    | nil => cases hmem
    | cons target rest ih =>
      rw [map_cons, nodup_cons] at h
      rcases mem_cons.mp hmem with rfl | hmem
      · rw [filter_cons_of_pos (by simp), filter_eq_nil_iff.mpr]
        intro x hx heq
        exact h.1 (mem_map.mpr ⟨x, hx, of_decide_eq_true heq⟩)
      · have hne : target.1 ≠ s := fun heq => h.1 (heq ▸ mem_map_of_mem hmem)
        rw [filter_cons_of_neg (by simpa using hne)]
        exact ih h.2 hmem
  simp [tallied, hfilter]

/-- **The tally of a window**: distinct targets, each with its number of bindings. -/
theorem tally_spec (entries : List (PathName × ℕ)) :
    ((tally entries).map Prod.fst).Pairwise (· < ·) ∧
    (∀ s, s ∈ (tally entries).map Prod.fst ↔ s ∈ entries.map Prod.snd) ∧
    ∀ s, tallied (tally entries) s = (entries.map Prod.snd).count s := by
  induction entries using List.reverseRecOn with
  | nil => simp [tally, tallied]
  | append_singleton rest entry ih =>
    have hstep : tally (rest ++ [entry]) = tallyInsert entry.2 (tally rest) := by
      simp [tally]
    obtain ⟨hord, hmem, hcount⟩ := ih
    rw [hstep]
    refine ⟨sorted_tallyInsert hord, fun s => ?_, fun s => ?_⟩
    · rw [mem_keys_tallyInsert, hmem]
      simp [or_comm, eq_comm]
    · rw [tallied_tallyInsert, hcount, map_append, count_append, map_singleton,
        count_singleton]
      simp

theorem mem_tally :
    (s, n) ∈ tally entries ↔
      s ∈ entries.map Prod.snd ∧ n = (entries.map Prod.snd).count s := by
  obtain ⟨hord, hmem, hcount⟩ := tally_spec entries
  have hnodup : ((tally entries).map Prod.fst).Nodup := hord.imp fun h => ne_of_lt h
  constructor
  · intro h
    refine ⟨(hmem s).mp (mem_map.mpr ⟨(s, n), h, rfl⟩), ?_⟩
    rw [← hcount, tallied_of_mem hnodup h]
  · rintro ⟨hs, rfl⟩
    obtain ⟨⟨s', m⟩, hmem', rfl⟩ := mem_map.mp ((hmem s).mpr hs)
    rw [← hcount, tallied_of_mem hnodup hmem']
    exact hmem'

/-- The bindings `targets` fit the records: no target is the root, missing, over its declared
count, or a directory bound twice. -/
def Admits (rootSerial : ℕ) (rows : QualifyRows Id) (targets : List ℕ) : Prop :=
  ∀ s ∈ targets, s ≠ rootSerial ∧ ∃ row, rows s = some row ∧
    row.bound + targets.count s ≤ row.declared ∧
    (row.kind = .directory → row.bound + targets.count s ≤ 1)

/-- The records after the bindings `targets`. -/
def QualifyRows.addBound (rows : QualifyRows Id) (targets : List ℕ) : QualifyRows Id :=
  fun s => (rows s).map fun row => { row with bound := row.bound + targets.count s }

/-- Serial `s` is recorded as a directory. -/
def QualifyRows.isDirectory (rows : QualifyRows Id) (s : ℕ) : Bool :=
  (rows s).any (·.kind == .directory)

def QualifyRows.Bounded (rows : QualifyRows Id) : Prop :=
  ∀ s row, rows s = some row → row.declared < u64Bound

theorem Recorded.Holds.bounded {rootSerial : ℕ} {rows : List (ℕ × InodeValue Id)}
    (h : st.Holds rootSerial rows) (htotal : declaredTotal rows < u64Bound) : st.rows.Bounded := by
  intro s row hrow
  have hs : s ∈ rows.map Prod.fst := by
    by_contra hs
    rw [h.rows_none hs] at hrow
    cases hrow
  obtain ⟨⟨s, value⟩, hmem, rfl⟩ := mem_map.mp hs
  rw [h.rows_mem hmem] at hrow
  cases hrow
  have hle : value.namespaceRefCount ≤ declaredTotal rows :=
    single_le_sum (by simp) _ (mem_map.mpr ⟨(s, value), hmem, rfl⟩)
  exact lt_of_le_of_lt hle htotal

section AddBound

variable {rows : QualifyRows Id} {a b : List ℕ} {rootSerial : ℕ}

theorem addBound_append : rows.addBound (a ++ b) = (rows.addBound a).addBound b := by
  funext s
  simp only [QualifyRows.addBound, Option.map_map, count_append]
  congr 1
  funext row
  simp [Nat.add_assoc]

@[simp] theorem isDirectory_addBound : (rows.addBound a).isDirectory s = rows.isDirectory s := by
  simp only [QualifyRows.isDirectory, QualifyRows.addBound]
  cases rows s <;> rfl

theorem QualifyRows.Bounded.addBound (h : rows.Bounded) : (rows.addBound a).Bounded := by
  intro s row hrow
  obtain ⟨row', hrow', rfl⟩ := Option.map_eq_some_iff.mp hrow
  exact h s row' hrow'

theorem admits_append :
    Admits rootSerial rows (a ++ b) ↔
      Admits rootSerial rows a ∧ Admits rootSerial (rows.addBound a) b := by
  constructor
  · intro h
    constructor
    · intro s hs
      obtain ⟨hroot, row, hrow, hle, hdir⟩ := h s (mem_append_left _ hs)
      rw [count_append] at hle hdir
      exact ⟨hroot, row, hrow, by omega, fun hk => by have := hdir hk; omega⟩
    · intro s hs
      obtain ⟨hroot, row, hrow, hle, hdir⟩ := h s (mem_append_right _ hs)
      rw [count_append, ← Nat.add_assoc] at hle hdir
      exact ⟨hroot, { row with bound := row.bound + a.count s },
        by simp [QualifyRows.addBound, hrow], hle, hdir⟩
  · rintro ⟨ha, hb⟩ s hs
    simp only [count_append, ← Nat.add_assoc]
    by_cases hsb : s ∈ b
    · obtain ⟨hroot, row, hrow, hle, hdir⟩ := hb s hsb
      obtain ⟨row', hrow', rfl⟩ := Option.map_eq_some_iff.mp hrow
      exact ⟨hroot, row', hrow', hle, hdir⟩
    · obtain ⟨hroot, row, hrow, hle, hdir⟩ := ha s ((mem_append.mp hs).resolve_right hsb)
      simp only [count_eq_zero_of_not_mem hsb, Nat.add_zero]
      exact ⟨hroot, row, hrow, hle, hdir⟩

end AddBound

theorem bindTarget_iff {rootSerial : ℕ} {rows : QualifyRows Id} (hb : rows.Bounded)
    {target : ℕ × ℕ} {change : ℕ × QualifyRow Id} :
    bindTarget rootSerial rows target = .ok change ↔
      target.1 ≠ rootSerial ∧ ∃ row, rows target.1 = some row ∧
        row.bound + target.2 ≤ row.declared ∧
        (row.kind = .directory → row.bound + target.2 ≤ 1) ∧
        change = (target.1, { row with bound := row.bound + target.2 }) := by
  rw [bindTarget, check_bind_eq_ok, bind_eq_ok]
  simp only [orError_eq_ok, ensure_eq_ok, bne_iff_ne]
  refine and_congr_right fun _ => exists_congr fun row => and_congr_right fun hrow => ?_
  rw [bind_eq_ok]
  simp only [check_bind_eq_ok, ensure_eq_ok, checkedAdd_eq_ok, decide_eq_true_eq, Bool.or_eq_true,
    bne_iff_ne, Except.ok.injEq]
  constructor
  · rintro ⟨bound, ⟨-, rfl⟩, hdir, hle, rfl⟩
    exact ⟨hle, fun hk => hdir.resolve_left (by simpa using hk), rfl⟩
  · rintro ⟨hle, hdir, rfl⟩
    have hlt := hb target.1 row hrow
    refine ⟨_, ⟨by omega, rfl⟩, ?_, hle, rfl⟩
    by_cases hk : row.kind = .directory
    · exact .inr (hdir hk)
    · exact .inl hk

/-- What a step of the reachability pass does with the bindings `targets`: it adds them to the
records and queues every directory among them, once. -/
structure Pass.Binds (targets : List ℕ) (st st' : Pass Id) : Prop where
  rows_eq : st'.rows = st.rows.addBound targets
  queue_eq : ∃ queued : List ℕ, st'.queue = st.queue ++ queued ∧ queued.Nodup ∧
    ∀ s, s ∈ queued ↔ s ∈ targets ∧ st.rows.isDirectory s = true

theorem foldl_put_spec {changes : List (ℕ × QualifyRow Id)} :
    ∀ {rows : QualifyRows Id}, (changes.map Prod.fst).Nodup →
      (∀ {s row}, (s, row) ∈ changes →
        changes.foldl (fun rows change => rows.put change.1 change.2) rows s = some row) ∧
      ∀ {s}, s ∉ changes.map Prod.fst →
        changes.foldl (fun rows change => rows.put change.1 change.2) rows s = rows s := by
  induction changes with
  | nil => intro rows _; simp
  | cons change rest ih =>
    intro rows hnodup
    rw [map_cons, nodup_cons] at hnodup
    obtain ⟨hin, hout⟩ := @ih (rows.put change.1 change.2) hnodup.2
    constructor
    · intro s row hmem
      rcases mem_cons.mp hmem with rfl | hmem
      · rw [foldl_cons, hout hnodup.1]
        simp [QualifyRows.put]
      · exact hin hmem
    · intro s hs
      rw [map_cons, mem_cons, not_or] at hs
      rw [foldl_cons, hout hs.2]
      simp [QualifyRows.put, hs.1]

/-- **One window** adds its bindings, which fit. -/
theorem bindTargets_sound {rootSerial : ℕ} {st st' : Pass Id} (hb : st.rows.Bounded)
    (h : bindTargets rootSerial (tally entries) st = .ok st') :
    Admits rootSerial st.rows (entries.map Prod.snd) ∧
      Pass.Binds (entries.map Prod.snd) st st' ∧
      st'.bindings = st.bindings ∧ st'.directories = st.directories := by
  rw [bindTargets, bind_eq_ok] at h
  obtain ⟨changes, hchanges, h⟩ := h
  cases h
  have hmem := mapM_ok_mem hchanges
  have hkeys : changes.map Prod.fst = (tally entries).map Prod.fst := by
    refine mapM_ok_keys (fun {target change} hc => ?_) hchanges
    obtain ⟨-, row, -, -, -, rfl⟩ := (bindTarget_iff hb).mp hc
    rfl
  have hnodup : (changes.map Prod.fst).Nodup := by
    rw [hkeys]
    exact (tally_spec entries).1.imp fun h => ne_of_lt h
  have hadmits : Admits rootSerial st.rows (entries.map Prod.snd) := by
    intro s hs
    have hkey : s ∈ changes.map Prod.fst := by
      rw [hkeys]
      exact (tally_spec entries).2.1 s |>.mpr hs
    obtain ⟨change, hchange, rfl⟩ := mem_map.mp hkey
    obtain ⟨⟨t, n⟩, htarget, hc⟩ := (hmem change).mp hchange
    obtain ⟨hroot, row, hrow, hle, hdir, rfl⟩ := (bindTarget_iff hb).mp hc
    rw [(mem_tally.mp htarget).2] at hle hdir
    exact ⟨hroot, row, hrow, hle, hdir⟩
  -- the record of every changed target is the added one
  have hrows : changes.foldl (fun rows change => rows.put change.1 change.2) st.rows
      = st.rows.addBound (entries.map Prod.snd) := by
    funext s
    by_cases hs : s ∈ changes.map Prod.fst
    · obtain ⟨⟨s, row'⟩, hchange, rfl⟩ := mem_map.mp hs
      rw [(foldl_put_spec hnodup).1 hchange]
      obtain ⟨⟨t, n⟩, htarget, hc⟩ := (hmem (s, row')).mp hchange
      obtain ⟨-, row, hrow, -, -, heq⟩ := (bindTarget_iff hb).mp hc
      cases heq
      rw [(mem_tally.mp htarget).2]
      simp only [QualifyRows.addBound, hrow, Option.map_some]
    · rw [(foldl_put_spec hnodup).2 hs]
      rw [hkeys, (tally_spec entries).2.1 s] at hs
      simp only [QualifyRows.addBound, count_eq_zero_of_not_mem hs, Nat.add_zero]
      cases st.rows s <;> rfl
  refine ⟨hadmits, ⟨hrows, _, rfl, ?_, fun s => ?_⟩, rfl, rfl⟩
  · exact hnodup.sublist (filter_sublist.map Prod.fst)
  · rw [mem_map]
    constructor
    · rintro ⟨⟨s, row'⟩, hchange, rfl⟩
      obtain ⟨hchange, hkind⟩ := mem_filter.mp hchange
      obtain ⟨⟨t, n⟩, htarget, hc⟩ := (hmem (s, row')).mp hchange
      obtain ⟨-, row, hrow, -, -, heq⟩ := (bindTarget_iff hb).mp hc
      cases heq
      refine ⟨(mem_tally.mp htarget).1, ?_⟩
      simpa [QualifyRows.isDirectory, hrow] using hkind
    · rintro ⟨hs, hdir⟩
      have hkey : s ∈ changes.map Prod.fst := by
        rw [hkeys]
        exact (tally_spec entries).2.1 s |>.mpr hs
      obtain ⟨⟨s, row'⟩, hchange, rfl⟩ := mem_map.mp hkey
      obtain ⟨⟨t, n⟩, htarget, hc⟩ := (hmem (s, row')).mp hchange
      obtain ⟨-, row, hrow, -, -, heq⟩ := (bindTarget_iff hb).mp hc
      cases heq
      refine ⟨_, mem_filter.mpr ⟨hchange, ?_⟩, rfl⟩
      simpa [QualifyRows.isDirectory, hrow] using hdir

theorem bindTargets_complete {rootSerial : ℕ} {entries : List (PathName × ℕ)} {st : Pass Id}
    (hb : st.rows.Bounded) (h : Admits rootSerial st.rows (entries.map Prod.snd)) :
    ∃ st', bindTargets rootSerial (tally entries) st = .ok st' := by
  obtain ⟨changes, hchanges⟩ : ∃ changes,
      (tally entries).mapM (bindTarget rootSerial st.rows) = .ok changes := by
    refine mapM_ok_of_forall fun ⟨s, n⟩ htarget => ?_
    obtain ⟨hs, rfl⟩ := mem_tally.mp htarget
    obtain ⟨hroot, row, hrow, hle, hdir⟩ := h s hs
    exact ⟨_, (bindTarget_iff hb).mpr ⟨hroot, row, hrow, hle, hdir, rfl⟩⟩
  rw [bindTargets]
  exact ⟨_, bind_eq_ok.mpr ⟨changes, hchanges, rfl⟩⟩

/-! ## One directory -/

theorem Pass.Binds.append {rootSerial : ℕ} {a b : List ℕ} {st st₁ st₂ : Pass Id}
    (ha : Pass.Binds a st st₁) (hb : Pass.Binds b st₁ st₂)
    (hadmits : Admits rootSerial st.rows (a ++ b)) : Pass.Binds (a ++ b) st st₂ where
  rows_eq := by rw [hb.rows_eq, ha.rows_eq, addBound_append]
  queue_eq := by
    obtain ⟨qa, hqa, hnodupa, hmema⟩ := ha.queue_eq
    obtain ⟨qb, hqb, hnodupb, hmemb⟩ := hb.queue_eq
    simp only [ha.rows_eq, isDirectory_addBound] at hmemb
    refine ⟨qa ++ qb, by rw [hqb, hqa, append_assoc], ?_, fun s => ?_⟩
    · refine nodup_append.mpr ⟨hnodupa, hnodupb, ?_⟩
      rintro s hsa s' hsb rfl
      -- a directory queued by both steps would be bound twice
      obtain ⟨hina, hdir⟩ := (hmema s).mp hsa
      have hposa := count_pos_iff.mpr hina
      have hposb := count_pos_iff.mpr ((hmemb s).mp hsb).1
      obtain ⟨-, row, hrow, -, hone⟩ := hadmits s (mem_append_left _ hina)
      have hkind : row.kind = .directory := by
        simpa [QualifyRows.isDirectory, hrow] using hdir
      have := hone hkind
      rw [count_append] at this
      omega
    · rw [mem_append, hmema, hmemb, mem_append]
      tauto

theorem bindDirectory_sound {rootSerial : ℕ} :
    ∀ {after : Option PathName} {st st' : Pass Id}, st.rows.Bounded →
      bindDirectory rootSerial p fuel after st = .ok st' →
      ∃ rows, deliver window windowBytes p fuel after = .ok rows ∧
        Admits rootSerial st.rows (rows.map Prod.snd) ∧ Pass.Binds (rows.map Prod.snd) st st' ∧
        st'.bindings = st.bindings + rows.length ∧ st'.directories = st.directories + 1 := by
  induction fuel with
  | zero => intro after st st' _ h; cases h
  | succ fuel ih =>
    intro after st st' hb h
    rw [bindDirectory, bind_eq_ok] at h
    obtain ⟨page, hpage, h⟩ := h
    obtain ⟨hasc, h⟩ := check_bind_eq_ok.mp h
    obtain ⟨bindings, hbindings, h⟩ := bind_eq_ok.mp h
    obtain ⟨st₁, hst₁, hnext⟩ := bind_eq_ok.mp h
    obtain ⟨-, rfl⟩ := checkedAdd_eq_ok.mp hbindings
    obtain ⟨hadmits, hbinds, hcount, hdirs⟩ := bindTargets_sound (by exact hb) hst₁
    rw [deliver]
    rcases hcont : page.continuation with _ | name
    · rw [hcont] at hnext
      cases hnext
      refine ⟨page.entries, bind_eq_ok.mpr ⟨page, hpage, ?_⟩, hadmits,
        ⟨hbinds.rows_eq, hbinds.queue_eq⟩, hcount, by simp [hdirs]⟩
      exact check_bind_eq_ok.mpr ⟨hasc, by rw [hcont]⟩
    · rw [hcont] at hnext
      have hb₁ : st₁.rows.Bounded := by
        rw [hbinds.rows_eq]
        exact hb.addBound
      obtain ⟨rest, hrest, hadmits', hbinds', hcount', hdirs'⟩ := ih hb₁ hnext
      rw [hbinds.rows_eq] at hadmits'
      have hall : Admits rootSerial st.rows ((page.entries ++ rest).map Prod.snd) := by
        rw [map_append]
        exact admits_append.mpr ⟨hadmits, hadmits'⟩
      refine ⟨page.entries ++ rest, bind_eq_ok.mpr ⟨page, hpage, ?_⟩, hall, ?_, ?_, ?_⟩
      · refine check_bind_eq_ok.mpr ⟨hasc, ?_⟩
        rw [hcont]
        exact bind_eq_ok.mpr ⟨rest, hrest, rfl⟩
      · rw [map_append] at hall ⊢
        have hbinds₀ : Pass.Binds (page.entries.map Prod.snd) st st₁ :=
          ⟨hbinds.rows_eq, hbinds.queue_eq⟩
        exact hbinds₀.append hbinds' hall
      · rw [hcount', hcount, length_append, Nat.add_assoc]
      · rw [hdirs', hdirs]

theorem bindDirectory_complete {rootSerial : ℕ} :
    ∀ {after : Option PathName} {st : Pass Id} {rows : List (PathName × ℕ)}, st.rows.Bounded →
      deliver window windowBytes p fuel after = .ok rows →
      Admits rootSerial st.rows (rows.map Prod.snd) → st.bindings + rows.length < u64Bound →
      ∃ st', bindDirectory rootSerial p fuel after st = .ok st' := by
  induction fuel with
  | zero => intro after st rows _ h; cases h
  | succ fuel ih =>
    intro after st rows hb h hadmits hsum
    rw [deliver, bind_eq_ok] at h
    obtain ⟨page, hpage, h⟩ := h
    obtain ⟨hasc, h⟩ := check_bind_eq_ok.mp h
    rcases hcont : page.continuation with _ | name
    · rw [hcont] at h
      cases h
      obtain ⟨st₁, hst₁⟩ := @bindTargets_complete Id rootSerial page.entries
        { st with bindings := st.bindings + page.entries.length } hb hadmits
      rw [bindDirectory]
      refine ⟨{ st₁ with directories := st₁.directories + 1 }, bind_eq_ok.mpr ⟨page, hpage,
        check_bind_eq_ok.mpr ⟨hasc, bind_eq_ok.mpr ⟨_, checkedAdd_eq_ok.mpr ⟨hsum, rfl⟩,
          bind_eq_ok.mpr ⟨st₁, hst₁, ?_⟩⟩⟩⟩⟩
      rw [hcont]
    · rw [hcont] at h
      obtain ⟨rest, hrest, h⟩ := bind_eq_ok.mp h
      cases h
      rw [length_append] at hsum
      rw [map_append, admits_append] at hadmits
      obtain ⟨st₁, hst₁⟩ := @bindTargets_complete Id rootSerial page.entries
        { st with bindings := st.bindings + page.entries.length } hb hadmits.1
      obtain ⟨-, hbinds, hcount, -⟩ := bindTargets_sound (by exact hb) hst₁
      have hrows : st₁.rows = st.rows.addBound (page.entries.map Prod.snd) := hbinds.rows_eq
      have hb₁ : st₁.rows.Bounded := by
        rw [hrows]
        exact hb.addBound
      have hcount : st₁.bindings = st.bindings + page.entries.length := hcount
      obtain ⟨st', hst'⟩ := ih hb₁ hrest (by rw [hrows]; exact hadmits.2) (by omega)
      rw [bindDirectory]
      refine ⟨st', bind_eq_ok.mpr ⟨page, hpage, check_bind_eq_ok.mpr ⟨hasc, bind_eq_ok.mpr
        ⟨_, checkedAdd_eq_ok.mpr ⟨by omega, rfl⟩, bind_eq_ok.mpr ⟨st₁, hst₁, ?_⟩⟩⟩⟩⟩
      rw [hcont]
      exact hst'

end LayerFs
