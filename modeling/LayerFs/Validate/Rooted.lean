import LayerFs.Validate.Territory

/-!
# The effective-tree proof is exact

From every placed directory a walk goes up: along its placement when it was displaced, to the
owner of its territory when it was not. Each step is a stretch of the effective tree, so the
walk ends well exactly when the directory reaches the root.

* `Ready` — what a proof knows once the marks are made. Without territories either no stored
  directory moved, or no placement lands below a directory that did.
-/

namespace LayerFs

open FilesystemInput

variable {Id : Type} {inp : FilesystemInput Id} {backed territories : Bool}
  {start records : TopologyRecords} {p x o : ℕ}

/-- What a proof knows once the marks are made. -/
structure Ready (inp : FilesystemInput Id) (backed : Bool) (start : TopologyRecords)
    (territories : Bool) (records : TopologyRecords) : Prop where
  settled : Settled inp records
  placed_iff : ∀ x, (records.placed.get? x).isSome ↔ (start.placed.get? x).isSome
  placements_eq : records.placements = records.placed.size
  kept : Kept inp backed records
  rooted_eq : records.rooted = .empty
  /-- with territories, the marks are exact -/
  marks : territories = true → ∀ x q, records.territory.get? x = some q ↔
    Moved records q ∧ Under inp records q x ∧ (inp.directoryFor x).isSome
  /-- without them, nothing moved or nothing lands below a stored directory -/
  quiet : territories = false → (∀ o, ¬ Moved records o) ∨
    ∀ x placement, records.placed.get? x = some placement → placement.inPlace = false →
      placement.parent ∈ inp.storedDirectories →
        placement.parent = inp.rootSerial ∨ records.displaced placement.parent = true

/-! ## The marks -/

theorem not_moved_of_stored_zero (hc : Classified inp backed start) (h : start.stored = 0) :
    ¬ Moved start o := by
  rintro ⟨placement, hplaced, hstored, -⟩
  rw [hc.stored_eq, List.countP_eq_zero] at h
  exact h _ (SortedMap.mem_entries_iff.mpr hplaced) hstored

theorem quiet_of_not_anchored (hc : Classified inp backed start) (hb : inp.BaseValid)
    (h : start.anchored = false) {placement : Placement}
    (hx : start.placed.get? x = some placement)
    (hparent : placement.parent ∈ inp.storedDirectories) :
    placement.parent = inp.rootSerial := by
  rw [hc.anchored_eq, List.any_eq_false] at h
  have := h _ (SortedMap.mem_entries_iff.mpr hx)
  rw [(hc.settled.parentStored_iff hc hb hx).mpr hparent] at this
  simpa using this

theorem quiet_of_not_landing (hc : Classified inp backed start) (hb : inp.BaseValid)
    (hs : Settled inp records) (h : inp.landing records = false) {placement : Placement}
    (hx : records.placed.get? x = some placement) (hflag : placement.inPlace = false)
    (hparent : placement.parent ∈ inp.storedDirectories) :
    placement.parent = inp.rootSerial ∨ records.displaced placement.parent = true := by
  rw [landing, List.any_eq_false] at h
  have := h _ (SortedMap.mem_entries_iff.mpr hx)
  rw [(hs.parentStored_iff hc hb hx).mpr hparent] at this
  by_contra hnot
  rw [not_or, Bool.not_eq_true] at hnot
  simp [hflag, hnot] at this

/-- **The marks are what the walks need.** -/
theorem marks_yields (hc : Classified inp backed start) (hb : inp.BaseValid)
    (hone : inp.SingleBound) :
    Yields (Refused inp backed) (fun out => Ready inp backed start out.1 out.2) (inp.marks start) := by
  obtain ⟨hkept, hzero, hqueue, hterritory, hrooted, -⟩ := hc.fresh
  have hstart : (∀ o, ¬ Moved start o) ∨ (∀ x placement, start.placed.get? x = some placement →
      placement.inPlace = false → placement.parent ∈ inp.storedDirectories →
        placement.parent = inp.rootSerial ∨ start.displaced placement.parent = true) →
      Ready inp backed start false start := fun hquiet =>
    ⟨hc.settled, fun _ => Iff.rfl, hc.placements_eq, hkept, hrooted, Bool.noConfusion, fun _ => hquiet⟩
  rw [marks]
  split_ifs with hneeded
  · rw [Bool.and_eq_true, decide_eq_true_eq] at hneeded
    refine Yields.bind (P := fun _ => True) (Yields.mono (Yields.ensure fun hnone => ?_)
      fun _ _ => trivial) fun _ _ => ?_
    · -- a stored placement needs a base
      have hpos := hneeded.1
      rw [hc.stored_eq, List.countP_pos_iff] at hpos
      obtain ⟨⟨x, placement⟩, hmem, hstored⟩ := hpos
      rw [hc.settled.stored_eq (SortedMap.mem_entries_iff.mp hmem)] at hstored
      rw [Option.isSome_eq_false_iff, Option.isNone_iff_eq_none] at hnone
      simp [stored, hnone] at hstored
    refine (markInPlace_yields hc hb).bind fun marked hmarked => ?_
    obtain ⟨placed, scanned, count, rfl, hflagged, -⟩ := hmarked
    have hs : Settled inp { start with placed, scanned, inPlace := count } :=
      hflagged.settled hc rfl
    have hsame : ∀ x, (placed.get? x).isSome ↔ (start.placed.get? x).isSome := by
      intro x
      refine ⟨fun h => ?_, fun h => ?_⟩
      · obtain ⟨q, hq⟩ := Option.isSome_iff_exists.mp h
        simp [hflagged.start_eq hq]
      · obtain ⟨q, hq⟩ := Option.isSome_iff_exists.mp h
        obtain ⟨flag, hflag⟩ := hflagged.of_start hq
        simp [hflag]
    have hsize : start.placements = placed.size := hc.placements_eq.trans hflagged.size_eq.symm
    split_ifs with hlist
    · refine (markTerritories_yields hc hb hs hone hkept hqueue hterritory).bind fun r hr => ?_
      obtain ⟨marks, rfl, hmarks⟩ := hr
      exact ⟨hs.of_placed_eq rfl, hsame, hsize, hkept, hrooted, fun _ => hmarks, Bool.noConfusion⟩
    · refine ⟨hs, hsame, hsize, hkept, hrooted, Bool.noConfusion, fun _ => ?_⟩
      rw [Bool.and_eq_true, not_and_or, Bool.not_eq_true, Bool.not_eq_true] at hlist
      rcases hlist with hmoved | hlanding
      · refine .inl ?_
        rintro o ⟨placement, hplaced, hstored, hflag⟩
        have hle : start.stored ≤ count := by
          simpa [TopologyRecords.moved] using hmoved
        rw [hflagged.all_inPlace hc hb hle hplaced hstored] at hflag
        cases hflag
      · exact .inr fun x placement hx hflag => quiet_of_not_landing hc hb hs hlanding hx hflag
  · rw [Bool.and_eq_true, not_and_or, decide_eq_true_eq, Bool.not_eq_true] at hneeded
    refine hstart ?_
    rcases hneeded with hstored | hanchored
    · exact .inl fun o => not_moved_of_stored_zero hc (by omega)
    · exact .inr fun x placement hx _ hparent =>
        .inl (quiet_of_not_anchored hc hb hanchored hx hparent)

/-! ## One step -/

section Steps

variable (hr : Ready inp backed start territories records) (hc : Classified inp backed start)
  (hb : inp.BaseValid)

omit hr in
theorem step_root : inp.step territories records inp.rootSerial = .rooted := by
  rw [step, if_pos (by simp)]

include hr

theorem step_displaced {placement : Placement} (hroot : x ≠ inp.rootSerial)
    (hx : records.placed.get? x = some placement) (hflag : placement.inPlace = false) :
    inp.step territories records x = .up placement.parent := by
  obtain ⟨parent, stored, parentStored, inPlace⟩ := placement
  subst hflag
  rw [step, if_neg (by simp [hroot, hr.rooted_eq]), hx]

include hc hb

theorem step_kept (hroot : x ≠ inp.rootSerial) (hx : x ∈ inp.storedDirectories)
    (hkept : records.displaced x = false) :
    (inp.step territories records x = .rooted ∧
      (territories = true → ∀ q, Moved records q → Under inp records q x →
        inp.directoryFor x = none)) ∨
    ∃ q, inp.step territories records x = .up q ∧ Moved records q ∧ Under inp records q x := by
  obtain ⟨value, hvalue, -⟩ := (mem_storedDirectories hb).mp hx
  have hbase : inp.base.isNone = false := by
    obtain ⟨base, hbase, -⟩ := (stored_eq_some_iff hb).mp hvalue
    simp [hbase]
  have hnew : inp.isNew x = false := by
    by_contra hnew
    rw [Bool.not_eq_false] at hnew
    rw [hc.new_absent x hnew] at hvalue
    cases hvalue
  have hstep : inp.step territories records x
      = if territories then (records.territory.get? x).elim .rooted .up else .rooted := by
    rw [step, if_neg (by simp [hroot, hr.rooted_eq])]
    rcases hplaced : records.placed.get? x with _ | ⟨parent, stored, parentStored, inPlace⟩
    · cases records.territory.get? x <;> simp [hbase, hnew]
    · cases inPlace with
      | false =>
        rw [Settled.displaced_iff.mpr ⟨_, hplaced, rfl⟩] at hkept
        cases hkept
      | true => cases records.territory.get? x <;> simp [hbase, hnew]
  rw [hstep]
  cases territories with
  | false => exact .inl ⟨rfl, nofun⟩
  | true =>
    rcases hmark : records.territory.get? x with _ | q
    · refine .inl ⟨rfl, fun _ q hq hunder => ?_⟩
      by_contra hheader
      have := (hr.marks rfl x q).mpr ⟨hq, hunder, by simpa [Option.isSome_iff_ne_none] using hheader⟩
      rw [hmark] at this
      cases this
    · obtain ⟨hq, hunder, -⟩ := (hr.marks rfl x q).mp hmark
      exact .inr ⟨q, rfl, hq, hunder⟩

omit hb in
theorem step_dropped (hroot : x ≠ inp.rootSerial) (hnew : inp.stored x = none)
    (hplaced : records.placed.get? x = none)
    (hheader : ∃ update ∈ inp.directories, update.parent = x) :
    inp.step territories records x = .dropped := by
  rw [step, if_neg (by simp [hroot, hr.rooted_eq]), hplaced]
  refine if_pos ?_
  obtain ⟨update, hupdate, rfl⟩ := hheader
  have hok := hc.headers update hupdate
  rw [header, if_neg hroot] at hok
  split_ifs at hok with hnone
  · simpa [or_comm] using hnone
  · rw [bind_eq_ok] at hok
    obtain ⟨value, hvalue, -⟩ := hok
    rw [lookupOne, orError_eq_ok, hnew] at hvalue
    cases hvalue

end Steps

/-! ## Climbing is reaching the root -/

section Climbing

variable (hr : Ready inp backed start territories records) (hc : Classified inp backed start)
  (hb : inp.BaseValid) (hone : inp.SingleBound)

include hr hc hb

theorem moved_of_displaced (hx : x ∈ inp.storedDirectories) (h : records.displaced x = true) :
    Moved records x := by
  obtain ⟨placement, hplaced, hflag⟩ := Settled.displaced_iff.mp h
  exact ⟨placement, hplaced, (hr.settled.stored_iff hc hb hplaced).mpr hx, hflag⟩

theorem directory_cases (hx : x ∈ inp.effective.directories) :
    (∃ placement, records.placed.get? x = some placement ∧ placement.inPlace = false) ∨
    (x ∈ inp.storedDirectories ∧ records.displaced x = false) ∨
    (inp.stored x = none ∧ records.placed.get? x = none) := by
  rcases hd : records.displaced x with _ | _
  · rcases (mem_effective_directories hb hc.shaped).mp hx with hin | ⟨hnone, -⟩
    · exact .inr (.inl ⟨hin, rfl⟩)
    · refine .inr (.inr ⟨hnone, ?_⟩)
      rcases hplaced : records.placed.get? x with _ | placement
      · rfl
      · -- a placement in place names a stored directory
        cases hflag : placement.inPlace with
        | false =>
          rw [Settled.displaced_iff.mpr ⟨placement, hplaced, hflag⟩] at hd
          cases hd
        | true => simpa [hnone] using (hr.settled.inPlace hplaced hflag).child_stored hb
  · exact .inl (Settled.displaced_iff.mp hd)

include hone

theorem climbs_of_reached (hx : inp.effective.Reached x) (hdir : x ∈ inp.effective.directories) :
    Climbs (inp.step territories records) x ∧
      ∀ o, Moved records o → Under inp records o x → Climbs (inp.step territories records) o := by
  induction hx with
  | refl =>
    refine ⟨climbs_of_rooted step_root, fun o _ hunder => ?_⟩
    obtain ⟨y, -, hheld⟩ := Relation.TransGen.tail'_iff.mp hunder
    exact absurd hheld.1 (hc.not_baseEdge_root hb)
  | @tail q x _ hedge ih =>
    obtain ⟨hclimbs, howners⟩ := ih hedge.1
    have hroot : x ≠ inp.rootSerial := by
      rintro rfl
      exact hc.not_edge_root hb hedge
    rcases directory_cases hr hc hb hdir with ⟨placement, hplaced, hflag⟩ | ⟨hstored, hkept⟩
      | ⟨hnew, hnone⟩
    · refine ⟨(climbs_up (step_displaced hr hroot hplaced hflag)).mpr ?_, fun o _ hunder => ?_⟩
      · exact hr.settled.edge_parent hc hb hone hplaced hedge ▸ hclimbs
      · exact absurd hunder
          (not_under_of_displaced hb (Settled.displaced_iff.mpr ⟨placement, hplaced, hflag⟩))
    · -- the base parent is the way up, so an owner of `x` is `q` or an owner of `q`
      have hbase := (hr.settled.edge_iff hc hb hone hstored hroot hkept).mp hedge
      have hup : ∀ o, Moved records o → Under inp records o x →
          Climbs (inp.step territories records) o := by
        intro o ho hunder
        cases hunder with
        | single hheld => exact hheld.1.unique hb hstored hbase ▸ hclimbs
        | tail hunder hheld =>
          rw [hheld.1.unique hb hstored hbase] at hunder
          exact howners o ho hunder
      refine ⟨?_, hup⟩
      rcases step_kept hr hc hb hroot hstored hkept with ⟨hstep, -⟩ | ⟨o, hstep, ho, hunder⟩
      · exact climbs_of_rooted hstep
      · exact (climbs_up hstep).mpr (hup o ho hunder)
    · exact absurd hedge (hr.settled.not_edge_of_dropped hc hb hdir hnew hnone)

theorem reached_of_under (hunder : Under inp records o x) (ho : inp.effective.Reached o) :
    inp.effective.Reached x := by
  have hheld : ∀ {p y}, Holds inp records p y → inp.effective.Edge p y := by
    intro p y h
    obtain ⟨hy, hkept⟩ := (inside_iff hb).mp h.2
    have hroot : y ≠ inp.rootSerial := by
      rintro rfl
      exact hc.not_baseEdge_root hb h.1
    exact (hr.settled.edge_iff hc hb hone hy hroot hkept).mpr h.1
  induction hunder with
  | single h => exact ho.tail (hheld h)
  | tail _ h ih => exact ih.tail (hheld h)

theorem reached_or_under (hx : x ∈ inp.storedDirectories) :
    inp.effective.Reached x ∨ ∃ o, Moved records o ∧ (o = x ∨ Under inp records o x) := by
  have hreach := base_reached hb hc.base_root hx
  induction hreach with
  | refl => exact .inl .refl
  | @tail q x _ hedge ih =>
    have hroot : x ≠ inp.rootSerial := by
      rintro rfl
      exact hc.not_baseEdge_root hb hedge
    rcases hd : records.displaced x with _ | _
    · have hin : inp.inside records x = true := (inside_iff hb).mpr ⟨hx, hd⟩
      rcases ih hedge.parent_stored with hq | ⟨o, ho, rfl | hunder⟩
      · exact .inl (hq.tail ((hr.settled.edge_iff hc hb hone hx hroot hd).mpr hedge))
      · exact .inr ⟨o, ho, .inr (.single ⟨hedge, hin⟩)⟩
      · exact .inr ⟨o, ho, .inr (hunder.tail ⟨hedge, hin⟩)⟩
    · exact .inr ⟨x, moved_of_displaced hr hc hb hx hd, .inl rfl⟩

/-- A walk from a displaced directory or a header that is proven reaches the root. Without
territories the walk meets a kept directory only when nothing moved. -/
theorem reached_of_climbsIn {n : ℕ} (hclimbs : ClimbsIn (inp.step territories records) n x)
    (hdir : x ∈ inp.effective.directories)
    (hstop : records.displaced x = true ∨ ∃ update ∈ inp.directories, update.parent = x)
    (hquiet : territories = true ∨ (∀ o, ¬ Moved records o) ∨ x = inp.rootSerial ∨
      records.displaced x = true ∨ inp.stored x = none) :
    inp.effective.Reached x := by
  induction n using Nat.strongRecOn generalizing x with
  | ind n ih =>
    by_cases hroot : x = inp.rootSerial
    · exact hroot ▸ .refl
    rcases directory_cases hr hc hb hdir with ⟨placement, hplaced, hflag⟩ | ⟨hstored, hkept⟩
      | ⟨hnew, hnone⟩
    · -- up along the placement
      have hedge := hr.settled.placed_edge hc hb hplaced
      have hstep := step_displaced hr hroot hplaced hflag
      cases n with
      | zero => exact absurd (hstep.symm.trans hclimbs) (by simp)
      | succ n =>
        obtain ⟨q, hq, hn⟩ := hclimbs
        cases hstep.symm.trans hq
        obtain ⟨name, hstates, -⟩ := hr.settled.placedBy hplaced
        obtain ⟨update, hupdate, hparent, -⟩ := (mem_changesFor hc.shaped).mp hstates
        refine (ih n (by omega) hn hedge.1 (.inr ⟨update, hupdate, hparent⟩) ?_).tail hedge
        cases hterr : territories with
        | true => exact .inl rfl
        | false =>
          rcases hr.quiet hterr with hmoved | hland
          · exact .inr (.inl hmoved)
          · rcases (mem_effective_directories hb hc.shaped).mp hedge.1 with hin | ⟨hn, -⟩
            · rcases hland x placement hplaced hflag hin with h | h
              · exact .inr (.inr (.inl h))
              · exact .inr (.inr (.inr (.inl h)))
            · exact .inr (.inr (.inr (.inr hn)))
    · rcases reached_or_under hr hc hb hone hstored with hreach | ⟨o, ho, rfl | hunder⟩
      · exact hreach
      · rw [ho.displaced] at hkept
        cases hkept
      · -- below a moved directory only a walk with territories stops here, and it is marked
        have hterr : territories = true := by
          rcases hquiet with h | h | h | h | h
          · exact h
          · exact absurd ho (h o)
          · exact absurd h hroot
          · rw [hkept] at h
            cases h
          · obtain ⟨value, hvalue, -⟩ := (mem_storedDirectories hb).mp hstored
            rw [h] at hvalue
            cases hvalue
        rcases step_kept hr hc hb hroot hstored hkept with ⟨-, hheader⟩ | ⟨o', hstep, ho', hunder'⟩
        · rcases hstop with h | ⟨update, hupdate, rfl⟩
          · rw [hkept] at h
            cases h
          · have := hheader hterr o ho hunder
            rw [(directoryFor_eq_some hc.shaped).mpr hupdate] at this
            cases this
        · cases n with
          | zero => exact absurd (hstep.symm.trans hclimbs) (by simp)
          | succ n =>
            obtain ⟨q, hq, hn⟩ := hclimbs
            cases hstep.symm.trans hq
            refine reached_of_under hr hc hb hone hunder' (ih n (by omega) hn ?_
              (.inl ho'.displaced) (.inl hterr))
            exact storedDirectories_effective hb hc.shaped (ho'.stored hc hb hr.settled)
    · rcases hstop with h | hheader
      · obtain ⟨placement, hplaced, -⟩ := Settled.displaced_iff.mp h
        rw [hnone] at hplaced
        cases hplaced
      · exact absurd ⟨n, hclimbs⟩
          (not_climbs_of_dropped (step_dropped hr hc hroot hnew hnone hheader))

/-- **Climbing is reaching the root**, for all placed directories together. -/
theorem climbs_iff_reached :
    (∀ x, (records.placed.get? x).isSome → Climbs (inp.step territories records) x) ↔
      ∀ x, (records.placed.get? x).isSome → inp.effective.Reached x := by
  refine ⟨fun h => ?_, fun h x hx => ?_⟩
  · have hdisplaced : ∀ x, records.displaced x = true → inp.effective.Reached x := by
      intro x hd
      obtain ⟨placement, hplaced, -⟩ := Settled.displaced_iff.mp hd
      obtain ⟨n, hn⟩ := h x (by simp [hplaced])
      exact reached_of_climbsIn hr hc hb hone hn (hr.settled.placed_directory hc hb hplaced)
        (.inl hd) (.inr (.inr (.inr (.inl hd))))
    intro x hx
    obtain ⟨placement, hplaced⟩ := Option.isSome_iff_exists.mp hx
    cases hflag : placement.inPlace with
    | false => exact hdisplaced x (Settled.displaced_iff.mpr ⟨placement, hplaced, hflag⟩)
    | true =>
      -- a directory renamed in place is reached unless it lies under a displaced one
      have hstored : x ∈ inp.storedDirectories := by
        refine (hr.settled.stored_iff hc hb hplaced).mp ?_
        rw [hr.settled.stored_eq hplaced]
        exact (hr.settled.inPlace hplaced hflag).child_stored hb
      rcases reached_or_under hr hc hb hone hstored with hreach | ⟨o, ho, rfl | hunder⟩
      · exact hreach
      · exact hdisplaced o ho.displaced
      · exact reached_of_under hr hc hb hone hunder (hdisplaced o ho.displaced)
  · obtain ⟨placement, hplaced⟩ := Option.isSome_iff_exists.mp hx
    exact (climbs_of_reached hr hc hb hone (h x hx) (hr.settled.placed_directory hc hb hplaced)).1

end Climbing

end LayerFs
