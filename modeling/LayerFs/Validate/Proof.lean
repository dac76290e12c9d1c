import LayerFs.Validate.Rooted

/-!
# The walks of the effective-tree proof

* `step_eq_withMarks` — rooted marks only cut walks short.
-/

namespace LayerFs

open FilesystemInput

variable {Id : Type} {inp : FilesystemInput Id} {backed territories : Bool}
  {start records : TopologyRecords} {x : ℕ}

/-- The records of a proof that has marked some directories as rooted. -/
def TopologyRecords.withRooted (records : TopologyRecords) (rooted : SortedMap ℕ Unit) :
    TopologyRecords := { records with rooted := rooted }

theorem step_eq_withMarks (hr : Ready inp backed start territories records)
    (rooted : SortedMap ℕ Unit) :
    inp.step territories (records.withRooted rooted)
      = withMarks (fun x => (rooted.get? x).isSome) (inp.step territories records) := by
  funext x
  by_cases hroot : x = inp.rootSerial
  · subst hroot
    rw [withMarks, step_root, step_root, ite_self]
  · cases hmark : (rooted.get? x).isSome with
    | false => simp [withMarks, step, TopologyRecords.withRooted, hroot, hmark, hr.rooted_eq]
    | true => simp [withMarks, step, TopologyRecords.withRooted, hmark]

/-- **The step limit is no false alarm**: a proven walk meets each placed directory once, with
at most one territory step between two of them. -/
theorem climbs_bound (hr : Ready inp backed start territories records) {n : ℕ}
    (h : ClimbsIn (inp.step territories records) n x) : n ≤ 2 * records.placements + 2 := by
  have hhub : ∀ a b, inp.step territories records a = .up b →
      a ∉ records.placed.entries.map Prod.fst → b ∈ records.placed.entries.map Prod.fst := by
    intro a b hstep ha
    rw [SortedMap.mem_keys_iff] at ha ⊢
    have hnone : records.placed.get? a = none := by simpa using ha
    rw [step, hnone] at hstep
    split_ifs at hstep with hrooted hdropped hterr
    rcases hmark : records.territory.get? a with _ | q
    · simp [hmark] at hstep
    · obtain rfl : q = b := by simpa [hmark] using hstep
      obtain ⟨⟨placement, hplaced, -⟩, -⟩ := (hr.marks hterr a q).mp hmark
      simp [hplaced]
  have := h.le_of_hubs hhub
  rw [hr.placements_eq, SortedMap.size]
  rw [List.length_map] at this
  omega

theorem get?_foldl_insert_unit {l : List ℕ} : ∀ {m : SortedMap ℕ Unit},
    ((l.foldl (fun m d => m.insert d ()) m).get? x).isSome ↔ (m.get? x).isSome ∨ x ∈ l := by
  induction l with
  | nil => simp
  | cons d rest ih =>
    intro m
    rw [List.foldl_cons, ih, SortedMap.get?_insert]
    by_cases hx : x = d <;> simp [hx]

/-- **A step up lands on a directory** of the effective tree. -/
theorem step_directory (hr : Ready inp backed start territories records)
    (hc : Classified inp backed start) (hb : inp.BaseValid) {p : ℕ}
    (h : inp.step territories records x = .up p) : p ∈ inp.effective.directories := by
  have howner : territories = true → records.territory.get? x = some p →
      p ∈ inp.effective.directories := by
    intro hterr hmark
    obtain ⟨hmoved, -, -⟩ := (hr.marks hterr x p).mp hmark
    exact storedDirectories_effective hb hc.shaped (hmoved.stored hc hb hr.settled)
  by_cases hroot : (decide (x = inp.rootSerial) || (records.rooted.get? x).isSome) = true
  · rw [step, if_pos hroot] at h
    cases h
  rw [step, if_neg hroot] at h
  split at h
  next hplaced =>
    cases h
    exact (hr.settled.placed_edge hc hb hplaced).1
  next =>
    split_ifs at h with hdropped hterr
    split at h
    next hmark =>
      cases h
      exact howner hterr hmark
    next => cases h

theorem markRooted_yields (hkept : Kept inp backed records) {rooted : SortedMap ℕ Unit}
    {path : List ℕ} (hnodup : path.Nodup) (hnew : ∀ d ∈ path, rooted.get? d = none)
    (hdir : ∀ d, (rooted.get? d).isSome ∨ d ∈ path → d ∈ inp.effective.directories) :
    Yields (Refused inp backed) (fun r => ∃ rooted', r = records.withRooted rooted' ∧
      ∀ x, (rooted'.get? x).isSome ↔ (rooted.get? x).isSome ∨ x ∈ path)
      ((records.withRooted rooted).markRooted path) := by
  rw [TopologyRecords.markRooted]
  split_ifs with hempty
  · refine ⟨rooted, rfl, fun x => ?_⟩
    simp [List.isEmpty_iff.mp hempty]
  · refine Yields.bind (TopologyRecords.guarded_yields ?_) fun _ _ => ?_
    · rw [Bool.and_eq_true, decide_eq_true_eq, List.all_eq_true]
      exact ⟨hnodup, fun d hd => by simp [TopologyRecords.withRooted, hnew d hd]⟩
    · refine Yields.bind (@TopologyRecords.held_keys _ _ (records.withRooted rooted) _ _ _ hkept
        fun d hd => hdir d (get?_foldl_insert_unit.mp hd)) fun _ _ => ?_
      exact ⟨_, rfl, fun x => get?_foldl_insert_unit⟩

/-- **The second walk.** Its marks are the proven path: what it has marked or holds back lies
strictly before the directory it stands on, so no mark meets it again. -/
theorem markPath_yields (hr : Ready inp backed start territories records)
    (hc : Classified inp backed start) (hb : inp.BaseValid) {first : SortedMap ℕ Unit} :
    ∀ (fuel k : ℕ) (path : List ℕ) (rooted : SortedMap ℕ Unit) (x : ℕ), k < fuel →
      ClimbsIn (inp.step territories (records.withRooted first)) k x → path.Nodup →
      (∀ d ∈ path, rooted.get? d = none ∧
        ∃ j > k, ClimbsIn (inp.step territories (records.withRooted first)) j d) →
      (∀ d, (first.get? d).isSome → (rooted.get? d).isSome) →
      (∀ d, (rooted.get? d).isSome → (first.get? d).isSome ∨
        ∃ j > k, ClimbsIn (inp.step territories (records.withRooted first)) j d) →
      (∀ d, (rooted.get? d).isSome ∨ d ∈ path ∨ d = x → d ∈ inp.effective.directories) →
      Yields (Refused inp backed) (fun r => ∃ rooted', r = records.withRooted rooted' ∧
          ∀ d, (rooted'.get? d).isSome → d ∈ inp.effective.directories ∧
            ((first.get? d).isSome ∨ Climbs (inp.step territories (records.withRooted first)) d))
        (inp.markPath territories fuel path (records.withRooted rooted) x) := by
  intro fuel
  induction fuel with
  | zero =>
    intro k path rooted x hk
    omega
  | succ fuel ih =>
    intro k path rooted x hk hclimbs hnodup hpath hkeep hrooted hdir
    -- the marks of this walk do not change the step it stands on
    have hsame : inp.step territories (records.withRooted rooted) x
        = inp.step territories (records.withRooted first) x := by
      rw [step_eq_withMarks hr, step_eq_withMarks hr, withMarks, withMarks]
      refine if_congr ⟨fun h => ?_, hkeep x⟩ rfl rfl
      rcases hrooted x h with h | ⟨j, hj, hjx⟩
      · exact h
      · have := hjx.unique hclimbs
        omega
    have hdone : Yields (Refused inp backed) (fun r => ∃ rooted', r = records.withRooted rooted' ∧
        ∀ d, (rooted'.get? d).isSome → d ∈ inp.effective.directories ∧
          ((first.get? d).isSome ∨ Climbs (inp.step territories (records.withRooted first)) d))
        ((records.withRooted rooted).markRooted path) := by
      refine (markRooted_yields hr.kept hnodup (fun d hd => (hpath d hd).1) fun d hd =>
        hdir d (hd.imp_right .inl)).mono ?_
      rintro r ⟨rooted', rfl, hrooted'⟩
      refine ⟨rooted', rfl, fun d hd => ⟨hdir d (((hrooted' d).mp hd).imp_right .inl), ?_⟩⟩
      rcases (hrooted' d).mp hd with h | h
      · rcases hrooted d h with h | ⟨j, -, hj⟩
        · exact .inl h
        · exact .inr ⟨j, hj⟩
      · obtain ⟨-, j, -, hj⟩ := hpath d h
        exact .inr ⟨j, hj⟩
    rw [markPath, hsame]
    cases k with
    | zero =>
      rw [show inp.step territories (records.withRooted first) x = .rooted from hclimbs]
      exact hdone
    | succ k =>
      obtain ⟨parent, hup, hn⟩ := id hclimbs
      rw [hup]
      dsimp only
      -- `x` is new on the path and among the marks
      have hx : rooted.get? x = none := by
        rcases hget : rooted.get? x with _ | u
        · rfl
        · rcases hrooted x (by simp [hget]) with h | ⟨j, hj, hjx⟩
          · rw [step_eq_withMarks hr, withMarks, if_pos h] at hup
            cases hup
          · have := hjx.unique hclimbs
            omega
      have hxpath : x ∉ path := by
        intro hin
        obtain ⟨-, j, hj, hjx⟩ := hpath x hin
        have := hjx.unique hclimbs
        omega
      have hparent : parent ∈ inp.effective.directories := by
        rw [step_eq_withMarks hr, withMarks] at hup
        split_ifs at hup
        exact step_directory hr hc hb hup
      have hnodup' : (path ++ [x]).Nodup := by
        rw [List.nodup_append]
        refine ⟨hnodup, by simp, fun a ha b hb hab => hxpath ?_⟩
        rw [List.mem_singleton.mp hb] at hab
        exact hab ▸ ha
      have hpath' : ∀ d ∈ path ++ [x], rooted.get? d = none ∧
          ∃ j > k, ClimbsIn (inp.step territories (records.withRooted first)) j d := by
        intro d hd
        rcases List.mem_append.mp hd with hd | hd
        · obtain ⟨hnone, j, hj, hjd⟩ := hpath d hd
          exact ⟨hnone, j, by omega, hjd⟩
        · rw [List.mem_singleton.mp hd]
          exact ⟨hx, k + 1, by omega, hclimbs⟩
      have hrooted' : ∀ d, (rooted.get? d).isSome → (first.get? d).isSome ∨
          ∃ j > k, ClimbsIn (inp.step territories (records.withRooted first)) j d := by
        intro d hd
        rcases hrooted d hd with h | ⟨j, hj, hjd⟩
        · exact .inl h
        · exact .inr ⟨j, by omega, hjd⟩
      have hdir' : ∀ d, (rooted.get? d).isSome ∨ d ∈ path ++ [x] →
          d ∈ inp.effective.directories := by
        rintro d (hd | hd)
        · exact hdir d (.inl hd)
        · exact hdir d (.inr ((List.mem_append.mp hd).imp_right List.mem_singleton.mp))
      split_ifs
      · refine (markRooted_yields hr.kept hnodup' (fun d hd => (hpath' d hd).1) hdir').bind ?_
        rintro r ⟨rooted', rfl, hmarked⟩
        refine ih k [] rooted' parent (by omega) hn (by simp) (by simp) ?_ ?_ ?_
        · exact fun d hd => (hmarked d).mpr (.inl (hkeep d hd))
        · intro d hd
          rcases (hmarked d).mp hd with h | h
          · exact hrooted' d h
          · exact .inr (hpath' d h).2
        · rintro d (hd | hd | rfl)
          · exact hdir' d ((hmarked d).mp hd)
          · exact absurd hd List.not_mem_nil
          · exact hparent
      · refine ih k (path ++ [x]) rooted parent (by omega) hn hnodup' hpath' hkeep hrooted' ?_
        rintro d (hd | hd | rfl)
        · exact hdir' d (.inl hd)
        · exact hdir' d (.inr hd)
        · exact hparent

def Unproven (inp : FilesystemInput Id) (backed : Bool) (holds : Prop) (e : ContentError) : Prop :=
  Refused inp backed e ∨ e = .invalidRecord "effective tree cycle" ∧ ¬ holds

theorem prove_yields (hr : Ready inp backed start territories records)
    (hc : Classified inp backed start) (hb : inp.BaseValid) {rooted : SortedMap ℕ Unit}
    (hrooted : ∀ d, (rooted.get? d).isSome →
      d ∈ inp.effective.directories ∧ Climbs (inp.step territories records) d)
    (hx : x ∈ inp.effective.directories) :
    Yields (Unproven inp backed (Climbs (inp.step territories records) x))
      (fun r => (∃ rooted', r = records.withRooted rooted' ∧
        ∀ d, (rooted'.get? d).isSome →
          d ∈ inp.effective.directories ∧ Climbs (inp.step territories records) d) ∧
        Climbs (inp.step territories records) x)
      (inp.prove territories (2 * records.placements + 2) (records.withRooted rooted) x) := by
  have hsound : ∀ {k d}, ClimbsIn (inp.step territories (records.withRooted rooted)) k d →
      Climbs (inp.step territories records) d := by
    intro k d hk
    rw [step_eq_withMarks hr] at hk
    exact climbs_of_withMarks (fun d hd => (hrooted d hd).2) hk
  rw [prove]
  refine Yields.bind (Yields.ensure fun hfalse => ?_) fun _ hclimb => ?_
  · refine .inr ⟨rfl, fun ⟨n, hn⟩ => ?_⟩
    obtain ⟨k, hk, hkx⟩ : ∃ k ≤ n, ClimbsIn (withMarks (fun d => (rooted.get? d).isSome)
        (inp.step territories records)) k x := hn.withMarks
    rw [← step_eq_withMarks hr] at hkx
    have := climb_iff.mpr ⟨k, hk.trans (climbs_bound hr hn), hkx⟩
    rw [hfalse] at this
    cases this
  · obtain ⟨k, hk, hkx⟩ := climb_iff.mp hclimb
    refine Yields.weaken (Yields.mono (markPath_yields hr hc hb _ k [] rooted x (by omega) hkx
      (by simp) (by simp) (fun _ h => h) (fun d hd => .inl hd) ?_) ?_) fun e he => .inl he
    · rintro d (hd | hd | rfl)
      · exact (hrooted d hd).1
      · exact absurd hd List.not_mem_nil
      · exact hx
    rintro r ⟨rooted', rfl, hrooted'⟩
    refine ⟨⟨rooted', rfl, fun d hd => ?_⟩, hsound hkx⟩
    obtain ⟨hdir, h | ⟨j, hj⟩⟩ := hrooted' d hd
    · exact hrooted d h
    · exact ⟨hdir, hsound hj⟩

/-- **All walks**: accepted when every placed directory climbs. -/
theorem proofs_yields (hr : Ready inp backed start territories records)
    (hc : Classified inp backed start) (hb : inp.BaseValid) :
    Yields (Unproven inp backed (∀ x, (records.placed.get? x).isSome →
        Climbs (inp.step territories records) x))
      (fun _ => ∀ x, (records.placed.get? x).isSome → Climbs (inp.step territories records) x)
      ((records.placed.entries.map Prod.fst).foldlM
        (inp.prove territories (2 * records.placements + 2)) records) := by
  refine Yields.mono (Yields.foldlM (fun done r => (∃ rooted, r = records.withRooted rooted ∧
      ∀ d, (rooted.get? d).isSome →
        d ∈ inp.effective.directories ∧ Climbs (inp.step territories records) d) ∧
      ∀ x ∈ done, Climbs (inp.step territories records) x) ?_ ?_) ?_
  · refine ⟨⟨.empty, ?_, by simp⟩, by simp⟩
    rw [TopologyRecords.withRooted, ← hr.rooted_eq]
  · rintro done x rest r hkeys ⟨⟨rooted, rfl, hrooted⟩, hdone⟩
    have hx : (records.placed.get? x).isSome :=
      SortedMap.mem_keys_iff.mp (by rw [hkeys]; simp)
    obtain ⟨placement, hplaced⟩ := Option.isSome_iff_exists.mp hx
    have hdir := hr.settled.placed_directory hc hb hplaced
    refine Yields.weaken ((prove_yields hr hc hb hrooted hdir).mono ?_) ?_
    · rintro r ⟨hr', hclimbs⟩
      refine ⟨hr', fun y hy => ?_⟩
      rcases List.mem_append.mp hy with hy | hy
      · exact hdone y hy
      · exact List.mem_singleton.mp hy ▸ hclimbs
    · rintro e (he | ⟨he, hnot⟩)
      · exact .inl he
      · exact .inr ⟨he, fun hall => hnot (hall x hx)⟩
  · rintro r ⟨-, hall⟩ x hx
    exact hall x (SortedMap.mem_keys_iff.mpr hx)

theorem checkEffectiveTree_yields (hc : Classified inp backed start) (hb : inp.BaseValid)
    (hone : inp.SingleBound) :
    Yields (Unproven inp backed (∀ x, (start.placed.get? x).isSome → inp.effective.Reached x))
      (fun _ => ∀ x, (start.placed.get? x).isSome → inp.effective.Reached x)
      (inp.checkEffectiveTree start) := by
  rw [checkEffectiveTree]
  split_ifs with hzero
  · -- no placements, nothing to reach
    intro x hx
    rw [hc.placements_eq, SortedMap.size, List.length_eq_zero_iff] at hzero
    rw [← SortedMap.mem_keys_iff, hzero] at hx
    simp at hx
  · refine Yields.bind (Yields.weaken (marks_yields hc hb hone) fun e he => .inl he) ?_
    rintro ⟨territories, records⟩ hr
    have hiff := climbs_iff_reached hr hc hb hone
    simp only [hr.placed_iff] at hiff
    refine Yields.bind (Yields.weaken (Yields.mono (proofs_yields hr hc hb) fun r h => ?_) ?_)
      fun r h => h
    · simp only [hr.placed_iff] at h
      exact hiff.mp h
    · simp only [hr.placed_iff]
      rintro e (he | ⟨he, hnot⟩)
      · exact .inl he
      · exact .inr ⟨he, fun hall => hnot (hiff.mpr hall)⟩

/-- **The effective-tree check is exact.** Over a valid base, when every stored directory has one
effective binding and an allocated one at most one, the check of a classified input accepts
exactly when every placed directory reaches the root directory, and refuses as a cycle only when
one does not. Resident records may also outgrow the caller's budget: one of their containers would
hold more directories of the effective tree, each once, than the budget allows. -/
theorem checkEffectiveTree_iff [DecidableEq Id]
    (hclassify : inp.classifyOperation backed = .ok start) (hb : inp.BaseValid) (hone : inp.SingleBound) :
    ((inp.checkEffectiveTree start = .ok () ↔
        ∀ x, (start.placed.get? x).isSome → inp.effective.Reached x) ∧
      (inp.checkEffectiveTree start ≠ .ok () →
        inp.checkEffectiveTree start = .error (.invalidRecord "effective tree cycle"))) ∨
    (backed = false ∧ ∃ held : List ℕ, held.Nodup ∧ held ⊆ inp.effective.directories ∧
      inp.residentLimit < held.length ∧ inp.checkEffectiveTree start
        = .error (.objectLimitExceeded inp.residentLimit held.length)) := by
  have h := checkEffectiveTree_yields (classifyOperation_classified hclassify) hb hone
  rcases hcheck : inp.checkEffectiveTree start with e | u
  · rw [hcheck] at h
    rcases h with ⟨hbacked, held, hnodup, hdir, hlimit, rfl⟩ | ⟨rfl, hnot⟩
    · exact .inr ⟨hbacked, held, hnodup, hdir, hlimit, rfl⟩
    · exact .inl ⟨⟨nofun, fun hall => absurd hall hnot⟩, fun _ => rfl⟩
  · rw [hcheck] at h
    exact .inl ⟨⟨fun _ => h, fun _ => rfl⟩, fun hne => absurd rfl hne⟩

/-! ## Two directories that trade places -/

/-- A base of three nested directories: `/a` is 2 and `/a/b` is 3. -/
def nestedBase : Namespace Unit where
  root := 1
  inodes := [(1, ⟨.directory, 0, (), .root ()⟩), (2, ⟨.directory, 1, (), .root ()⟩),
    (3, ⟨.directory, 1, (), .root ()⟩)]
  listing := fun d => if d = 1 then [(letter 0, 2)] else if d = 2 then [(letter 1, 3)]
    else []

/-- `mv /a/b /c; mv /a /c/d`: the inner directory becomes the outer one. -/
def tradeInput : FilesystemInput Unit where
  base := some ⟨(), nestedBase⟩
  scope := ()
  rootSerial := 1
  directories := [⟨1, [(letter 0, none), (letter 2, some 3)]⟩,
    ⟨2, [(letter 1, none)]⟩, ⟨3, [(letter 3, some 2)]⟩]
  inodes := []
  newInodes := []
  resources := ⟨1024, 1, 96, 1, 1048576⟩

theorem nestedBase_valid : nestedBase.ValidBase := by
  have h12 : nestedBase.Edge 1 2 := ⟨by decide, by decide⟩
  have h23 : nestedBase.Edge 2 3 := ⟨by decide, by decide⟩
  have hreach : ∀ s ∈ nestedBase.serials, nestedBase.Reached s := by
    intro s hs
    obtain rfl | rfl | rfl : s = 1 ∨ s = 2 ∨ s = 3 := by simpa [Namespace.serials, nestedBase] using hs
    · exact .refl
    · exact .single h12
    · exact (Relation.ReflTransGen.single h12).tail h23
  exact Namespace.validBase_of_reached (by decide) (by decide) (by decide) (by decide) (by decide)
    (by decide) (by decide) hreach (by decide) (by decide)

/-- What is said of the traded directories. -/
def TradeAccepted (backed : Bool) : Prop := ∃ start,
  tradeInput.classifyOperation backed = .ok start ∧ (start.placed.get? 2).isSome ∧
    tradeInput.checkEffectiveTree start = .ok () ∧ tradeInput.effective.Reached 2

/-- The traded directories are accepted, from the records classification really leaves: records of
the caller's store, and resident ones with room for 1024 entries. -/
theorem checkEffectiveTree_trade : TradeAccepted true ∧ TradeAccepted false := by
  have hb : tradeInput.BaseValid := by
    rintro base ⟨⟩
    exact nestedBase_valid
  have hone : tradeInput.SingleBound := ⟨by decide, by decide⟩
  have hthree : tradeInput.effective.directories.length = 3 := rfl
  have hlimit : tradeInput.residentLimit = 1024 := rfl
  refine ⟨⟨_, rfl, rfl, rfl, ?_⟩, ⟨_, rfl, rfl, ?_⟩⟩
  · rcases @checkEffectiveTree_iff Unit tradeInput true _ _ rfl hb hone with
      ⟨⟨hall, -⟩, -⟩ | ⟨hfalse, -⟩
    · exact hall rfl 2 rfl
    · cases hfalse
  · rcases @checkEffectiveTree_iff Unit tradeInput false _ _ rfl hb hone with
      ⟨hiff, -⟩ | ⟨-, held, hnodup, hdir, hmore, -⟩
    · exact ⟨rfl, hiff.mp rfl 2 rfl⟩
    · have hfew := length_le_of_nodup_subset hnodup hdir
      omega

end LayerFs
