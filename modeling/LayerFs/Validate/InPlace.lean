import LayerFs.Validate.Effective

/-!
# Renames in place keep the base parent

The in-place pass reads the change rows of each stored parent and flags the placements whose
directory the parent's base listing already bound under another name.

* `Flagged` — the placements of the start with some flags set, each on a directory whose base
  parent its placement names.
-/

namespace LayerFs

open List

open FilesystemInput

variable {Id : Type} {inp : FilesystemInput Id}

/-- Resident records outgrow the caller's budget: one container would hold these directories of
the effective tree, more of them than the limit. -/
def Refused (inp : FilesystemInput Id) (backed : Bool) (e : ContentError) : Prop :=
  backed = false ∧ ∃ held : List ℕ, held.Nodup ∧ held ⊆ inp.effective.directories ∧
    inp.residentLimit < held.length ∧ e = .objectLimitExceeded inp.residentLimit held.length

/-- Records kept as the caller asks, under its budget. -/
def Kept (inp : FilesystemInput Id) (backed : Bool) (records : TopologyRecords) : Prop :=
  records.backed = backed ∧ records.limit = inp.residentLimit

namespace TopologyRecords

variable {records : TopologyRecords} {backed : Bool}

theorem held_yields (h : Kept inp backed records) {held : List ℕ} (hnodup : held.Nodup)
    (hdir : held ⊆ inp.effective.directories) :
    Yields (Refused inp backed) (fun _ => True) (records.held held.length) := by
  refine Yields.mono (Yields.ensure fun hfalse => ?_) fun _ _ => trivial
  rw [Bool.or_eq_false_iff, decide_eq_false_iff_not, not_le, h.2] at hfalse
  exact ⟨h.1 ▸ hfalse.1, held, hnodup, hdir, hfalse.2,
    congrArg (ContentError.objectLimitExceeded · _) h.2⟩

theorem held_keys {α : Type} {m : SortedMap ℕ α} (h : Kept inp backed records)
    (hdir : ∀ d, (m.get? d).isSome → d ∈ inp.effective.directories) :
    Yields (Refused inp backed) (fun _ => True) (records.held m.size) := by
  have hheld := held_yields h (SortedMap.sorted m).keys_nodup
    fun d hd => hdir d (SortedMap.mem_keys_iff.mp hd)
  rwa [length_map] at hheld

theorem guarded_yields {refuses : ContentError → Prop} {expected : Bool}
    (h : expected = true) : Yields refuses (fun _ => True) (records.guarded expected) := by
  refine Yields.mono (Yields.ensure fun hfalse => ?_) fun _ _ => trivial
  simp [h] at hfalse

end TopologyRecords

variable {backed : Bool} {start records : TopologyRecords}

def unflagged (entry : ℕ × Placement) : ℕ × Placement :=
  (entry.1, { entry.2 with inPlace := false })

/-- The placements of `start` with some directories flagged as renamed in place. -/
structure Flagged (inp : FilesystemInput Id) (start : TopologyRecords)
    (placed : SortedMap ℕ Placement) (count : ℕ) : Prop where
  same : placed.entries.map unflagged = start.placed.entries
  sound : ∀ {x p}, placed.get? x = some p → p.inPlace = true → inp.BaseEdge p.parent x
  count_eq : count = placed.entries.countP fun entry => entry.2.inPlace

namespace Flagged

variable {placed : SortedMap ℕ Placement} {count x : ℕ} {p : Placement}

theorem start_eq (h : Flagged inp start placed count) (hx : placed.get? x = some p) :
    start.placed.get? x = some { p with inPlace := false } := by
  rw [← SortedMap.mem_entries_iff] at hx ⊢
  exact h.same ▸ mem_map_of_mem (f := unflagged) hx

theorem of_start (h : Flagged inp start placed count) (hx : start.placed.get? x = some p) :
    ∃ flag, placed.get? x = some { p with inPlace := flag } := by
  rw [← SortedMap.mem_entries_iff, ← h.same, mem_map] at hx
  obtain ⟨⟨y, q⟩, hmem, heq⟩ := hx
  obtain ⟨rfl, rfl⟩ := Prod.mk.inj heq
  exact ⟨q.inPlace, SortedMap.mem_entries_iff.mp hmem⟩

theorem size_eq (h : Flagged inp start placed count) : placed.size = start.placed.size := by
  rw [SortedMap.size, SortedMap.size, ← h.same, length_map]

theorem init (h : Classified inp backed start) : Flagged inp start start.placed 0 := by
  have hflag : ∀ entry ∈ start.placed.entries, entry.2.inPlace = false := by
    rintro ⟨x, p⟩ hmem
    obtain ⟨parent, -, rfl⟩ := h.placed_iff.mp (SortedMap.mem_entries_iff.mp hmem)
    rfl
  refine ⟨?_, fun hx hp => ?_, ?_⟩
  · conv_rhs => rw [← map_id start.placed.entries]
    refine map_congr_left fun entry hentry => ?_
    have := hflag entry hentry
    obtain ⟨x, parent, stored, parentStored, inPlace⟩ := entry
    subst this
    rfl
  · rw [hflag _ (SortedMap.mem_entries_iff.mpr hx)] at hp
    cases hp
  · symm
    rw [countP_eq_zero]
    intro entry hentry
    simp [hflag entry hentry]

theorem insert (h : Flagged inp start placed count) (hx : placed.get? x = some p)
    (hp : p.inPlace = false) (hedge : inp.BaseEdge p.parent x) :
    Flagged inp start (placed.insert x { p with inPlace := true }) (count + 1) := by
  refine ⟨?_, fun {y q} hy hq => ?_, ?_⟩
  · rw [← h.same]
    exact SortedMap.map_insert_of_get? hx (by simp [unflagged])
  · rw [SortedMap.get?_insert] at hy
    split_ifs at hy with hyx
    · cases hy
      exact hyx ▸ hedge
    · exact h.sound hy hq
  · have hperm := (SortedMap.insert_perm_of_some (v := { p with inPlace := true }) hx).countP_eq
      fun entry => entry.2.inPlace
    rw [countP_cons, countP_cons, ← h.count_eq] at hperm
    simp only [hp, Bool.false_eq_true, if_false, if_true] at hperm
    omega

theorem foldl {l : List (ℕ × Placement)} : ∀ {placed : SortedMap ℕ Placement} {count : ℕ},
    Flagged inp start placed count → (l.map Prod.fst).Nodup →
    (∀ entry ∈ l, placed.get? entry.1 = some entry.2 ∧ entry.2.inPlace = false ∧
      inp.BaseEdge entry.2.parent entry.1) →
    Flagged inp start
      (l.foldl (fun placed entry => placed.insert entry.1 { entry.2 with inPlace := true }) placed)
      (count + l.length) := by
  induction l with
  | nil => exact fun h _ _ => h
  | cons entry rest ih =>
    intro placed count h hnodup hall
    rw [map_cons, nodup_cons] at hnodup
    obtain ⟨hget, hflag, hedge⟩ := hall entry (by simp)
    have hrest := ih (h.insert hget hflag hedge) hnodup.2 fun e he => ?_
    · rw [length_cons]
      exact (by omega : count + 1 + rest.length = count + (rest.length + 1)) ▸ hrest
    · obtain ⟨heget, heflag, heedge⟩ := hall e (mem_cons_of_mem _ he)
      have hne : e.1 ≠ entry.1 := fun heq => hnodup.1 (heq ▸ mem_map_of_mem he)
      rw [SortedMap.get?_insert, if_neg hne]
      exact ⟨heget, heflag, heedge⟩

/-- **Equal counters mean that no stored directory moved.** -/
theorem all_inPlace (h : Flagged inp start placed count) (hc : Classified inp backed start)
    (hb : inp.BaseValid) (hmoved : start.stored ≤ count) (hx : placed.get? x = some p)
    (hstored : p.stored = true) : p.inPlace = true := by
  have hstart : start.stored = placed.entries.countP fun entry => entry.2.stored := by
    rw [hc.stored_eq, ← h.same, countP_map]
    rfl
  -- flagged directories are stored, so a stored one without a flag breaks the count
  have hle : ∀ entry ∈ placed.entries, entry.2.inPlace = true → entry.2.stored = true := by
    rintro ⟨y, q⟩ hmem hq
    have hy := SortedMap.mem_entries_iff.mp hmem
    have := (h.sound hy hq).child_stored hb
    rw [← hc.settled.stored_eq (h.start_eq hy)] at this
    exact this
  by_contra hflag
  have hperm := perm_cons_erase (SortedMap.mem_entries_iff.mpr hx)
  have hrest : (placed.entries.erase (x, p)).countP (fun entry => entry.2.inPlace)
      ≤ (placed.entries.erase (x, p)).countP fun entry => entry.2.stored :=
    countP_mono_left fun entry hentry => hle entry (mem_of_mem_erase hentry)
  have hcount := h.count_eq
  rw [hperm.countP_eq, countP_cons, if_neg hflag] at hcount
  rw [hperm.countP_eq, countP_cons, if_pos hstored] at hstart
  omega

theorem settled (h : Flagged inp start placed count) (hc : Classified inp backed start)
    (hplaced : records.placed = placed) : Settled inp records := by
  have hstart := hc.settled
  subst hplaced
  refine ⟨fun hx => (hstart.placedBy (h.start_eq hx) :), fun hp => ?_,
    fun hx => (hstart.stored_eq (h.start_eq hx) :),
    fun hx => (hstart.parentStored_eq (h.start_eq hx) :), fun hx hp => h.sound hx hp⟩
  obtain ⟨p, hp, hparent⟩ := hstart.placed hp
  obtain ⟨flag, hflag⟩ := h.of_start hp
  exact ⟨_, hflag, hparent⟩

end Flagged

/-! ## The pass -/

/-- The records of the pass so far: the start's, with flags, their count and scanned parents. -/
def Scanned (inp : FilesystemInput Id) (start records : TopologyRecords) : Prop :=
  ∃ placed scanned count, records =
    { start with placed := placed, scanned := scanned, inPlace := count } ∧
    Flagged inp start placed count ∧
    ∀ d, (scanned.get? d).isSome → d ∈ inp.effective.directories

theorem keepRow_sound {parent : ℕ} {rows : List (PathName × Option ℕ)} (hb : inp.BaseValid)
    (hshaped : inp.Shaped) (hparent : parent ∈ inp.effective.directories) :
    ∀ {kept : SortedMap ℕ Placement},
      (∀ x p, kept.get? x = some p → records.placed.get? x = some p ∧ p.inPlace = false ∧
        inp.BaseEdge p.parent x) →
      ∀ x p, (rows.foldl (inp.keepRow records parent) kept).get? x = some p →
        records.placed.get? x = some p ∧ p.inPlace = false ∧ inp.BaseEdge p.parent x := by
  induction rows with
  | nil => exact fun h => h
  | cons row rest ih =>
    intro kept hkept
    refine ih fun x p hx => ?_
    rw [keepRow] at hx
    split at hx
    · exact hkept x p hx
    · rename_i serial hbase
      split_ifs at hx
      · exact hkept x p hx
      · split at hx
        · exact hkept x p hx
        · rename_i placement hplaced
          split_ifs at hx with hsame
          · rw [SortedMap.get?_insert] at hx
            split_ifs at hx with hxs
            · cases hx
              subst hxs
              refine ⟨hplaced, hsame.2, ?_⟩
              rw [hsame.1]
              exact baseEdge_of_lookup hb hshaped hparent hbase
            · exact hkept x p hx
          · exact hkept x p hx

theorem resolve_yields {parent : ℕ} {window : List (PathName × Option ℕ)}
    (hc : Classified inp backed start) (hb : inp.BaseValid)
    (hparent : parent ∈ inp.storedDirectories) (h : Scanned inp start records) :
    Yields (Refused inp backed) (fun records' => Scanned inp start records' ∧
      records'.scanned = records.scanned) (inp.resolve parent records window) := by
  obtain ⟨value, hvalue, -⟩ := (mem_storedDirectories hb).mp hparent
  rw [FilesystemInput.resolve]
  refine Yields.bind (P := fun _ => True) (Yields.mono (Yields.orError ?_) fun _ _ => trivial)
    fun _ _ => ?_
  · simp [hvalue]
  have hkept := @keepRow_sound Id inp records parent window hb hc.shaped
    (storedDirectories_effective hb hc.shaped hparent) .empty (by simp)
  dsimp only
  split_ifs
  · exact ⟨h, rfl⟩
  · obtain ⟨placed, scanned, count, rfl, hflagged, hdirs⟩ := h
    have hall : ∀ entry ∈ (window.foldl (inp.keepRow { start with placed, scanned, inPlace := count }
        parent) .empty).entries, placed.get? entry.1 = some entry.2 ∧ entry.2.inPlace = false ∧
        inp.BaseEdge entry.2.parent entry.1 :=
      fun entry hentry => hkept entry.1 entry.2 (SortedMap.mem_entries_iff.mp hentry)
    rw [TopologyRecords.markInPlace]
    refine Yields.bind (TopologyRecords.guarded_yields ?_) fun _ _ => ?_
    · exact all_eq_true.mpr fun entry hentry => by simp [(hall entry hentry).1]
    refine Yields.bind (Yields.ensure fun hfalse => ?_) fun _ _ => ?_
    · rw [Bool.or_eq_false_iff, all_eq_false] at hfalse
      obtain ⟨-, entry, hentry, hnone⟩ := hfalse
      simp [(hall entry hentry).1] at hnone
    · exact ⟨⟨_, scanned, _, rfl, hflagged.foldl (SortedMap.sorted _).keys_nodup hall,
        hdirs⟩, rfl⟩

theorem scan_yields {parent : ℕ} (hc : Classified inp backed start) (hb : inp.BaseValid)
    (hparent : parent ∈ inp.storedDirectories) (hheader : (inp.directoryFor parent).isSome)
    (h : Scanned inp start records) :
    Yields (Refused inp backed) (fun records' => Scanned inp start records' ∧
      records'.scanned = records.scanned) (inp.scan records parent) := by
  rw [scan]
  refine Yields.bind (P := fun _ => True) (Yields.mono (Yields.orError ?_) fun _ _ => trivial)
    fun row _ => ?_
  · intro hnone
    simp [hnone] at hheader
  · refine Yields.foldlM (fun _ records' => Scanned inp start records' ∧
      records'.scanned = records.scanned) ⟨h, rfl⟩ ?_
    rintro done window rest records' - ⟨hscanned, hsame⟩
    exact (resolve_yields hc hb hparent hscanned).mono fun r hr => ⟨hr.1, hr.2.trans hsame⟩

/-- **The in-place pass** only flags directories placed under their base parent. -/
theorem markInPlace_yields (hc : Classified inp backed start) (hb : inp.BaseValid) :
    Yields (Refused inp backed) (Scanned inp start) (inp.markInPlace start) := by
  refine Yields.foldlM (fun _ => Scanned inp start)
    ⟨start.placed, start.scanned, 0, ?_, Flagged.init hc, ?_⟩ ?_
  · rw [← hc.fresh.2.1]
  · rw [hc.fresh.2.2.2.2.2]
    exact fun d hd => absurd hd (by simp)
  rintro done ⟨x, p⟩ rest records hentries h
  have hplaced : start.placed.get? x = some p :=
    SortedMap.mem_entries_iff.mp (by simp [hentries])
  rw [scanPlacement]
  split_ifs with hskip
  · exact h
  · simp only [Bool.or_eq_true, Bool.not_eq_true', not_or, Bool.not_eq_false] at hskip
    obtain ⟨⟨-, hparent⟩, hscanned⟩ := hskip
    have hstored := (hc.settled.parentStored_iff hc hb hplaced).mp hparent
    have hheader : (inp.directoryFor p.parent).isSome := by
      obtain ⟨name, hstates, -⟩ := hc.settled.placedBy hplaced
      obtain ⟨update, hupdate, hparent, -⟩ := (mem_changesFor hc.shaped).mp hstates
      rw [← hparent, (directoryFor_eq_some hc.shaped).mpr hupdate]
      rfl
    refine (scan_yields hc hb hstored hheader h).bind fun records' hr => ?_
    obtain ⟨⟨placed, scanned, count, rfl, hflagged, hdirs⟩, hsame⟩ := hr
    have hnext : ∀ d, ((scanned.insert p.parent ()).get? d).isSome →
        d ∈ inp.effective.directories := by
      intro d hd
      rw [SortedMap.get?_insert] at hd
      split_ifs at hd with heq
      · exact heq ▸ storedDirectories_effective hb hc.shaped hstored
      · exact hdirs d hd
    rw [TopologyRecords.markScanned]
    refine Yields.bind (TopologyRecords.guarded_yields ?_) fun _ _ => ?_
    · rw [hsame]
      simpa using hscanned
    refine Yields.bind (TopologyRecords.held_keys hc.fresh.1 hnext) fun _ _ => ?_
    exact ⟨placed, _, count, rfl, hflagged, hnext⟩

end LayerFs
