import LayerFs.History.Consistent

/-!
# Exploring local Commits

`explore` visits the run segments of a Commit's local Commits that no Layer below a height absorbed.
In a consistent catalog a skipped region is closed: whatever lies below an absorbed Commit is
absorbed too.

* `Consistent.explore_spec` — **the segments cover the unabsorbed local Commits, and only those**.
-/

namespace LayerFs.History

open List

variable {hi lo : ℕ}

theorem length_filterMap_add_countP_le {α β : Type} {f : α → Option β} {before after : α → Bool} :
    ∀ {l : List α}, (∀ x ∈ l, after x → before x) →
      (∀ x ∈ l, (f x).isSome → before x ∧ ¬after x) →
      (l.filterMap f).length + l.countP after ≤ l.countP before
  | [], _, _ => by simp
  | x :: l, hafter, hyield => by
    have ih := length_filterMap_add_countP_le (l := l)
      (fun y hy => hafter y (mem_cons_of_mem x hy))
      (fun y hy => hyield y (mem_cons_of_mem x hy))
    have hx := hafter x mem_cons_self
    have hy := hyield x mem_cons_self
    rw [countP_cons, countP_cons, filterMap_cons]
    rcases hf : f x with _ | b
    · cases ha : after x <;> cases hb : before x <;> simp_all <;> omega
    · obtain ⟨hb, ha⟩ := hy (by simp [hf])
      simp only [hb, ha, length_cons, if_true]
      simp
      omega

namespace Catalog

variable {κ ρ : Type} [DecidableEq κ] {s : Catalog κ ρ} {below : Height} {start : κ}
  {pending extra : List (κ × ℕ)} {explored : κ → Option (ℕ × ℕ)}

/-! ## Places -/

variable {c : κ}

theorem commitLine_eq_ok {line : CommitLine κ} : s.commitLine c = .ok line ↔
    ∃ row record, s.commitRow c = some row ∧ s.commit c = some record ∧
      line = ⟨record.stack, row.run, row.depth, row.newest, record.parent⟩ := by
  rw [commitLine]
  rcases s.commitRow c with _ | row
  · simp
  · rcases s.commit c with _ | record
    · simp
    · simp [eq_comm]

variable {row : CommitLineage κ}

theorem Consistent.place_eq (h : s.Consistent) (hc : s.commitRow c = some row) :
    s.place c = .ok (row.run, row.depth) := by
  obtain ⟨record, hrecord⟩ := h.row_commit hc
  simp [place, commitLine, hc, hrecord, bind, Except.bind, pure, Except.pure]

theorem Consistent.mapM_place (h : s.Consistent) :
    ∀ {l : List κ}, (∀ m ∈ l, ∃ row, s.commitRow m = some row) →
      ∃ places, l.mapM s.place = .ok places ∧ places.length = l.length ∧
        (∀ m ∈ l, ∀ row, s.commitRow m = some row → (row.run, row.depth) ∈ places) ∧
        ∀ place ∈ places, ∃ m ∈ l, ∃ row, s.commitRow m = some row ∧
          row.run = place.1 ∧ row.depth = place.2
  | [], _ => ⟨[], rfl, rfl, by simp, by simp⟩
  | c :: l, hl => by
    obtain ⟨row, hrow⟩ := hl c mem_cons_self
    obtain ⟨places, hplaces, hlength, hto, hof⟩ :=
      h.mapM_place (l := l) fun m hm => hl m (mem_cons_of_mem c hm)
    refine ⟨(row.run, row.depth) :: places, ?_, by simp [hlength], fun m hm row' hrow' => ?_, ?_⟩
    · simp [mapM_cons, h.place_eq hrow, hplaces, bind, Except.bind, pure, Except.pure]
    · rcases mem_cons.mp hm with rfl | hm
      · rw [hrow] at hrow'
        cases hrow'
        exact mem_cons_self
      · exact mem_cons_of_mem _ (hto m hm row' hrow')
    · intro place hplace
      rcases mem_cons.mp hplace with rfl | hplace
      · exact ⟨c, mem_cons_self, row, hrow, rfl, rfl⟩
      · obtain ⟨m, hm, hrest⟩ := hof place hplace
        exact ⟨m, mem_cons_of_mem c hm, hrest⟩

variable {run : κ}

theorem mem_merges {m : κ} : m ∈ s.merges run lo hi ↔
    ∃ row ∈ s.commitLineage, row.run = run ∧ lo < row.depth ∧ row.depth ≤ hi ∧
      row.merged = some m := by
  simp only [merges, mem_filterMap]
  constructor
  · rintro ⟨row, hrow, hm⟩
    split_ifs at hm with hcond
    exact ⟨row, hrow, hcond.1, hcond.2.1, hcond.2.2, hm⟩
  · rintro ⟨row, hrow, hrun, hlo, hhi, hm⟩
    exact ⟨row, hrow, by rw [if_pos ⟨hrun, hlo, hhi⟩, hm]⟩

/-! ## The invariant -/

def Skipped (s : Catalog κ ρ) (below : Height) (row : CommitLineage κ) : Prop :=
  row.depth ≤ s.absorbedBelow row.run below

def DoneIn (explored : κ → Option (ℕ × ℕ)) (row : CommitLineage κ) : Prop :=
  ∃ lo done, explored row.run = some (lo, done) ∧ lo < row.depth ∧ row.depth ≤ done

def Waiting (pending : List (κ × ℕ)) (row : CommitLineage κ) : Prop :=
  ∃ hi, (row.run, hi) ∈ pending ∧ row.depth ≤ hi

def Handled (s : Catalog κ ρ) (below : Height) (pending : List (κ × ℕ))
    (explored : κ → Option (ℕ × ℕ)) (row : CommitLineage κ) : Prop :=
  s.Skipped below row ∨ DoneIn explored row ∨ Waiting pending row

def Occupied (s : Catalog κ ρ) (run : κ) (depth : ℕ) (p : κ → Prop) : Prop :=
  ∃ c row, s.commitRow c = some row ∧ row.run = run ∧ row.depth = depth ∧ p c

/-- **The invariant of the loop.** -/
structure Frontier (s : Catalog κ ρ) (below : Height) (start : κ) (pending : List (κ × ℕ))
    (explored : κ → Option (ℕ × ℕ)) : Prop where
  /-- the places to follow hold local Commits -/
  reached : ∀ place ∈ pending, s.Occupied place.1 place.2 (s.LocalReach start)
  /-- an explored run was visited from its absorbed prefix up to a Commit -/
  known : ∀ {run lo done}, explored run = some (lo, done) →
    lo = s.absorbedBelow run below ∧ lo ≤ done ∧ s.Occupied run done fun _ => True
  begun : ∀ {row}, s.commitRow start = some row → s.Handled below pending explored row
  /-- and so is what lies next to an explored Commit -/
  closed : ∀ {c p row before}, s.commitRow c = some row → s.commitRow p = some before →
    s.LocalEdge c p → DoneIn explored row → s.Handled below pending explored before

theorem Handled.settle {done : ℕ} (hrow : s.Handled below ((run, hi) :: pending) explored row)
    (hlo : lo = s.absorbedBelow run below) (hhi : hi ≤ done)
    (hold : ∀ lo' done', explored run = some (lo', done') → lo' = lo ∧ done' ≤ done) :
    s.Handled below (extra ++ pending) (Function.update explored run (some (lo, done))) row := by
  rcases hrow with hskip | ⟨lo', done', hexp, hlow, hdone⟩ | ⟨hi', hmem, hle⟩
  · exact .inl hskip
  · refine .inr (.inl ?_)
    by_cases hrun : row.run = run
    · obtain ⟨rfl, hle⟩ := hold lo' done' (hrun ▸ hexp)
      exact ⟨lo', done, by rw [hrun, Function.update_self], hlow, hdone.trans hle⟩
    · exact ⟨lo', done', by rw [Function.update_of_ne hrun, hexp], hlow, hdone⟩
  · rcases mem_cons.mp hmem with heq | hmem
    · obtain ⟨hrun, rfl⟩ := Prod.mk.inj heq
      rcases Nat.lt_or_ge lo row.depth with hlt | hge
      · exact .inr (.inl ⟨lo, done, by rw [hrun, Function.update_self], hlt, hle.trans hhi⟩)
      · refine .inl ?_
        rw [Skipped, hrun, ← hlo]
        exact hge
    · exact .inr (.inr ⟨hi', mem_append_right _ hmem, hle⟩)

/-- **One turn keeps the invariant**: the popped run's mark moves up, the places pushed hold local
Commits, and what lies next to a newly explored Commit is handled. -/
theorem Frontier.settle {done : ℕ} (hf : s.Frontier below start ((run, hi) :: pending) explored)
    (hlo : lo = s.absorbedBelow run below) (hhi : hi ≤ done) (hle : lo ≤ done)
    (hold : ∀ lo' done', explored run = some (lo', done') → lo' = lo ∧ done' ≤ done)
    (htop : s.Occupied run done fun _ => True)
    (hextra : ∀ place ∈ extra, s.Occupied place.1 place.2 (s.LocalReach start))
    (hnew : ∀ {c p row before}, s.commitRow c = some row → s.commitRow p = some before →
      s.LocalEdge c p → row.run = run → lo < row.depth → row.depth ≤ done →
      ¬DoneIn explored row →
      s.Handled below (extra ++ pending) (Function.update explored run (some (lo, done))) before) :
    s.Frontier below start (extra ++ pending)
      (Function.update explored run (some (lo, done))) where
  reached place hplace := by
    rcases mem_append.mp hplace with hplace | hplace
    · exact hextra place hplace
    · exact hf.reached place (mem_cons_of_mem _ hplace)
  known {run'} lo' done' hexp := by
    by_cases hrun : run' = run
    · subst hrun
      rw [Function.update_self] at hexp
      cases hexp
      exact ⟨hlo, hle, htop⟩
    · rw [Function.update_of_ne hrun] at hexp
      exact hf.known hexp
  begun hrow := (hf.begun hrow).settle hlo hhi hold
  closed {c p row before} hc hp hedge hdone := by
    by_cases hbefore : DoneIn explored row
    · exact (hf.closed hc hp hedge hbefore).settle hlo hhi hold
    · obtain ⟨lo', done', hexp, hlow, hdepth⟩ := hdone
      by_cases hrun : row.run = run
      · rw [hrun, Function.update_self] at hexp
        cases hexp
        exact hnew hc hp hedge hrun hlow hdepth hbefore
      · rw [Function.update_of_ne hrun] at hexp
        exact absurd ⟨lo', done', hexp, hlow, hdepth⟩ hbefore

/-! ## Turns -/

def passed (explored : κ → Option (ℕ × ℕ)) (row : CommitLineage κ) : Bool :=
  (explored row.run).any fun mark => row.depth ≤ mark.2

/-- The second parents and the run starts that may still be followed. -/
def leftover (s : Catalog κ ρ) (explored : κ → Option (ℕ × ℕ)) : ℕ :=
  s.commitLineage.countP (fun row => !passed explored row)
    + s.commitLineage.countP (fun row => (explored row.commitId).isNone)

theorem passed_merges {run : κ} {lo hi done : ℕ}
    (hold : ∀ lo' done', explored run = some (lo', done') → done' ≤ done) (hle : done ≤ hi) :
    (s.merges run done hi).length
        + s.commitLineage.countP
          (fun row => !passed (Function.update explored run (some (lo, hi))) row) ≤
      s.commitLineage.countP (fun row => !passed explored row) := by
  refine length_filterMap_add_countP_le (fun row _ hafter => ?_) fun row _ hyield => ?_
  · by_cases hrun : row.run = run
    · rcases hexp : explored run with _ | ⟨lo', done'⟩
      · simp [passed, hrun, hexp]
      · have := hold lo' done' hexp
        simp only [passed, hrun, Function.update_self, Option.any_some, Bool.not_eq_true',
          decide_eq_false_iff_not] at hafter
        simp only [passed, hrun, hexp, Option.any_some, Bool.not_eq_true',
          decide_eq_false_iff_not]
        omega
    · simpa [passed, Function.update_of_ne hrun] using hafter
  · split_ifs at hyield with hcond
    · obtain ⟨hrun, hlow, hhigh⟩ := hcond
      constructor
      · rcases hexp : explored run with _ | ⟨lo', done'⟩
        · simp [passed, hrun, hexp]
        · have := hold lo' done' hexp
          simp only [passed, hrun, hexp, Option.any_some, Bool.not_eq_true',
            decide_eq_false_iff_not]
          omega
      · simp [passed, hrun, hhigh]
    · cases hyield

theorem leftover_merges {run : κ} {lo hi done : ℕ}
    (hold : ∀ lo' done', explored run = some (lo', done') → done' ≤ done) (hle : done ≤ hi) :
    (s.merges run done hi).length + s.leftover (Function.update explored run (some (lo, hi))) ≤
      s.leftover explored := by
  have hpassed := @passed_merges _ _ _ s explored run lo hi done hold hle
  have hstarts : s.commitLineage.countP
        (fun row => (Function.update explored run (some (lo, hi)) row.commitId).isNone) ≤
      s.commitLineage.countP (fun row => (explored row.commitId).isNone) := by
    apply countP_mono_left
    intro row _ hnone
    by_cases hrun : row.commitId = run
    · simp [hrun] at hnone
    · simpa [Function.update_of_ne hrun] using hnone
  rw [leftover, leftover]
  omega

theorem leftover_first {run : κ} {lo hi done : ℕ} {row : CommitLineage κ}
    (hnone : explored run = none) (hle : done ≤ hi) (hrow : s.commitRow run = some row) :
    (s.merges run done hi).length + s.leftover (Function.update explored run (some (lo, hi))) + 1 ≤
      s.leftover explored := by
  have hpassed := @passed_merges _ _ _ s explored run lo hi done (by simp [hnone]) hle
  have hstarts : (s.commitLineage.filterMap
        fun row => if row.commitId = run then some row else none).length
      + s.commitLineage.countP
        (fun row => (Function.update explored run (some (lo, hi)) row.commitId).isNone) ≤
      s.commitLineage.countP (fun row => (explored row.commitId).isNone) := by
    refine length_filterMap_add_countP_le (fun row _ hafter => ?_) fun row _ hyield => ?_
    · by_cases hrun : row.commitId = run
      · simp [hrun] at hafter
      · simpa [Function.update_of_ne hrun] using hafter
    · split_ifs at hyield with hrun
      · simp [hrun, hnone]
      · cases hyield
  have hpos : 0 < (s.commitLineage.filterMap
      fun row => if row.commitId = run then some row else none).length := by
    refine length_pos_of_mem (a := row) (mem_filterMap.mpr ⟨row, commitRow_mem hrow, ?_⟩)
    rw [if_pos (commitRow_id hrow)]
  rw [leftover, leftover]
  omega

/-! ## The loop -/

/-- What the loop returns from a state: segments of unabsorbed local Commits, each run's growing,
that with the explored ones cover all of them. -/
structure Explored (s : Catalog κ ρ) (below : Height) (start : κ) (explored : κ → Option (ℕ × ℕ))
    (segments : List (Segment κ)) : Prop where
  /-- a segment starts at the absorbed prefix -/
  lo_eq : ∀ segment ∈ segments, segment.lo = s.absorbedBelow segment.run below
  lo_lt : ∀ segment ∈ segments, segment.lo < segment.hi
  top : ∀ segment ∈ segments, s.Occupied segment.run segment.hi (s.LocalReach start)
  /-- an unabsorbed local Commit was explored or is in a segment -/
  covers : ∀ {c row}, s.commitRow c = some row → s.LocalReach start c → ¬s.Skipped below row →
    DoneIn explored row ∨ ∃ segment ∈ segments, segment.run = row.run ∧ row.depth ≤ segment.hi
  grows : segments.Pairwise fun a b => a.run = b.run → a.hi < b.hi
  later : ∀ segment ∈ segments, ∀ lo done, explored segment.run = some (lo, done) →
    done < segment.hi

theorem Frontier.done (h : s.Consistent) (hf : s.Frontier below start [] explored)
    (hc : s.commitRow c = some row) (hreach : s.LocalReach start c) (hskip : ¬s.Skipped below row) :
    DoneIn explored row := by
  have hnext : ∀ {row}, s.Handled below [] explored row → ¬s.Skipped below row →
      DoneIn explored row := by
    rintro row (hskip' | hdone | ⟨hi, hmem, -⟩) hskip
    · exact absurd hskip' hskip
    · exact hdone
    · cases hmem
  -- along the path to an unabsorbed Commit nothing is absorbed
  induction hreach generalizing row with
  | refl => exact hnext (hf.begun hc) hskip
  | @tail b c _ hedge ih =>
    obtain ⟨stack, hb, -⟩ := h.edge_stack hedge
    obtain ⟨before, hbefore⟩ := h.exists_commitRow hb
    have hbskip : ¬s.Skipped below before := fun hb =>
      hskip (h.absorbed_of_reach hbefore hc (.single hedge) hb)
    exact hnext (hf.closed hbefore hc hedge (ih hbefore hbskip)) hskip

/-- What lies next to a newly explored Commit of a run is handled: its first parent is below it in
the run or the run's start was pushed, its second parent was pushed. -/
theorem Consistent.handled_of_visit (h : s.Consistent) {p : κ} {done : ℕ} {before : CommitLineage κ}
    {places : List (κ × ℕ)} (hlo : lo = s.absorbedBelow run below)
    (hmerged : ∀ m ∈ s.merges run done hi, ∀ row, s.commitRow m = some row →
      (row.run, row.depth) ∈ places)
    (hstart : s.commitRow run = some row → done < row.depth → lo < row.depth →
      ∀ p before, s.FirstParent run p → s.commitRow p = some before →
        (before.run, before.depth) ∈ places) (hc : s.commitRow c = some row)
    (hp : s.commitRow p = some before) (hedge : s.LocalEdge c p) (hrun : row.run = run)
    (hlow : lo < row.depth) (hhigh : row.depth ≤ hi) (hnew : done < row.depth) :
    s.Handled below (places ++ pending) (Function.update explored run (some (lo, hi))) before := by
  have hpushed : (before.run, before.depth) ∈ places →
      s.Handled below (places ++ pending) (Function.update explored run (some (lo, hi))) before :=
    fun hmem => .inr (.inr ⟨before.depth, mem_append_left _ hmem, le_rfl⟩)
  cases hedge with
  | @parent _ _ record hrecord hparent =>
    by_cases hname : row.run = c
    · have hrunc : run = c := hrun.symm.trans hname
      subst hrunc
      exact hpushed (hstart hc hnew hlow p before ⟨record, hrecord, hparent⟩ hp)
    · obtain ⟨p', before', ⟨record', hrecord', hparent'⟩, hbefore', hsame, hdepth⟩ :=
        h.run_parent hc hname
      rw [hrecord] at hrecord'
      cases hrecord'
      rw [hparent] at hparent'
      cases hparent'
      rw [hp] at hbefore'
      cases hbefore'
      have hrun' : before.run = run := hsame.trans hrun
      rcases Nat.lt_or_ge lo before.depth with hlt | hge
      · exact .inr (.inl ⟨lo, hi, by rw [hrun', Function.update_self], hlt, by omega⟩)
      · exact .inl (by rw [Skipped, hrun', ← hlo]; exact hge)
  | @second _ _ record hrecord hsecond =>
    have hmem : p ∈ s.merges run done hi :=
      mem_merges.mpr ⟨row, commitRow_mem hc, hrun, hnew, hhigh,
        (h.merged_iff hrecord hc).mpr hsecond⟩
    exact hpushed (hmerged p hmem before hp)

theorem Consistent.occupied_absorbedBelow (h : s.Consistent) {run : κ}
    (hpos : 0 < s.absorbedBelow run below) :
    s.Occupied run (s.absorbedBelow run below) fun _ => True := by
  obtain ⟨held, hheld, hrun, hunder, hle⟩ := (h.le_absorbedBelow_iff hpos).mp le_rfl
  obtain ⟨c, row, -, -, hc, hcrun, hdepth, -⟩ := h.prefix_commit held hheld
  have hge : held.depth ≤ s.absorbedBelow run below :=
    (h.le_absorbedBelow_iff (hdepth ▸ h.depth_pos hc)).mpr ⟨held, hheld, hrun, hunder, le_rfl⟩
  exact ⟨c, row, hc, hcrun.trans hrun, by omega, trivial⟩

theorem Consistent.start_le_of_occupied (h : s.Consistent) {depth : ℕ} {p : κ → Prop}
    {start : CommitLineage κ} (hplace : s.Occupied run depth p)
    (hstart : s.commitRow run = some start) : start.depth ≤ depth := by
  obtain ⟨c, row, hc, rfl, rfl, -⟩ := hplace
  exact h.start_le hc hstart

theorem Consistent.startPlaces_spec (h : s.Consistent) {run : κ} {lo : ℕ} {first : Bool}
    {startRow : CommitLineage κ} (hstart : s.commitRow run = some startRow) :
    ∃ places, s.startPlaces run lo first = .ok places ∧ places.length ≤ first.toNat ∧
      (first = true → lo = 0 → ∀ p before, s.FirstParent run p → s.commitRow p = some before →
        (before.run, before.depth) ∈ places) ∧
      ∀ place ∈ places, ∃ p, s.FirstParent run p ∧ ∃ row, s.commitRow p = some row ∧
        row.run = place.1 ∧ row.depth = place.2 := by
  by_cases hcond : (first && lo == 0) = true
  · obtain ⟨rfl, hzero⟩ := by simpa using hcond
    subst hzero
    obtain ⟨record, hrecord⟩ := h.row_commit hstart
    have hparents : ∀ p ∈ record.parent.toList, s.FirstParent run p := fun p hp =>
      ⟨record, hrecord, by simpa using hp⟩
    obtain ⟨places, hplaces, hlength, hto, hof⟩ := h.mapM_place (l := record.parent.toList)
      fun p hp => by
        obtain ⟨stack, -, hstack⟩ := h.edge_stack (firstParent_localEdge (hparents p hp))
        exact h.exists_commitRow hstack
    refine ⟨places, ?_, ?_, fun _ _ p before hp hbefore => ?_, fun place hplace => ?_⟩
    · simp only [startPlaces, commitLine, hstart, hrecord]
      exact hplaces
    · rw [hlength]
      cases record.parent <;> simp
    · obtain ⟨record', hrecord', hparent⟩ := hp
      rw [hrecord] at hrecord'
      cases hrecord'
      exact hto p (by simp [hparent]) before hbefore
    · obtain ⟨p, hp, hrest⟩ := hof place hplace
      exact ⟨p, hparents p hp, hrest⟩
  · refine ⟨[], by simp only [startPlaces, if_neg hcond]; rfl, by simp, fun hfirst hlo => ?_,
      by simp⟩
    exact absurd (by simp [hfirst, hlo]) hcond

/-- **One visit**: the places it pushes succeed, keep the invariant and leave less to do. -/
theorem Frontier.visit (h : s.Consistent) {run : κ} {lo hi done : ℕ} {first : Bool}
    (hf : s.Frontier below start ((run, hi) :: pending) explored)
    (hlo : lo = s.absorbedBelow run below) (hlt : lo < hi) (hdone : done < hi)
    (hfirst : first = true ∧ explored run = none ∧ done = lo ∨
      first = false ∧ explored run = some (lo, done)) :
    ∃ merged started, (s.merges run done hi).mapM s.place = .ok merged ∧
      s.startPlaces run lo first = .ok started ∧
      s.Frontier below start (started ++ merged.reverse ++ pending)
        (Function.update explored run (some (lo, hi))) ∧
      started.length + merged.length
        + s.leftover (Function.update explored run (some (lo, hi))) ≤ s.leftover explored := by
  obtain ⟨top, topRow, htop, htopRun, htopDepth, htopReach⟩ :=
    hf.reached (run, hi) mem_cons_self
  dsimp only at htopRun htopDepth
  obtain ⟨startRow, hstart, -⟩ := h.run_start htop
  rw [htopRun] at hstart
  -- every Commit of the run up to the place is local
  have hlocal : ∀ {c row}, s.commitRow c = some row → row.run = run → row.depth ≤ hi →
      s.LocalReach start c := fun hc hrun hle =>
    htopReach.trans (h.run_reach hc htop (hrun.trans htopRun.symm) (by omega))
  have hedges : ∀ m ∈ s.merges run done hi, ∃ row, s.commitRow m = some row ∧
      s.LocalReach start m := by
    intro m hm
    obtain ⟨row, hrow, hrun, -, hhigh, hmerged⟩ := mem_merges.mp hm
    obtain ⟨record, hrecord⟩ := h.row_commit (h.row_mem row hrow)
    have hedge : s.LocalEdge row.commitId m :=
      .second hrecord ((h.merged_iff hrecord (h.row_mem row hrow)).mp hmerged)
    obtain ⟨stack, -, hstack⟩ := h.edge_stack hedge
    obtain ⟨mrow, hmrow⟩ := h.exists_commitRow hstack
    exact ⟨mrow, hmrow, (hlocal (h.row_mem row hrow) hrun hhigh).tail hedge⟩
  obtain ⟨merged, hmapM, hlength, hto, hof⟩ := h.mapM_place (l := s.merges run done hi)
    fun m hm => (hedges m hm).imp fun _ hrow => hrow.1
  obtain ⟨started, hstarted, hstartedLength, hstartedTo, hstartedOf⟩ :=
    @Consistent.startPlaces_spec _ _ _ s h run lo first startRow hstart
  have hold : ∀ lo' done', explored run = some (lo', done') → lo' = lo ∧ done' ≤ done := by
    rcases hfirst with ⟨-, hnone, -⟩ | ⟨-, hsome⟩
    · simp [hnone]
    · intro lo' done' heq
      rw [hsome] at heq
      cases heq
      exact ⟨rfl, le_rfl⟩
  refine ⟨merged, started, hmapM, hstarted, ?_, ?_⟩
  · refine hf.settle hlo le_rfl hlt.le (fun lo' done' heq => ?_)
      ⟨top, topRow, htop, htopRun, htopDepth, trivial⟩ (fun place hplace => ?_) ?_
    · have := hold lo' done' heq
      exact ⟨this.1, by omega⟩
    · rcases mem_append.mp hplace with hplace | hplace
      · obtain ⟨p, hp, row, hrow, hrun, hdepth⟩ := hstartedOf place hplace
        have hle := h.start_le_of_occupied ⟨top, topRow, htop, htopRun, htopDepth, htopReach⟩ hstart
        obtain ⟨again, hagain, hagainRun⟩ := h.run_start htop
        rw [htopRun, hstart] at hagain
        cases hagain
        exact ⟨p, row, hrow, hrun, hdepth,
          (hlocal hstart (hagainRun.trans htopRun) hle).tail (firstParent_localEdge hp)⟩
      · obtain ⟨m, hm, row, hrow, hrun, hdepth⟩ := hof place (mem_reverse.mp hplace)
        obtain ⟨-, -, hreach⟩ := hedges m hm
        exact ⟨m, row, hrow, hrun, hdepth, hreach⟩
    · intro c p row before hc hp hedge hrun hlow hhigh hnew
      have hnewDepth : done < row.depth := by
        rcases hfirst with ⟨-, -, rfl⟩ | ⟨-, hsome⟩
        · exact hlow
        · by_contra hle
          exact hnew ⟨lo, done, by rw [hrun, hsome], hlow, not_lt.mp hle⟩
      refine h.handled_of_visit hlo (fun m hm row hrow => ?_)
        (fun hrow hdepth hlowDepth p before hparent hbefore => ?_) hc hp hedge hrun hlow hhigh
        hnewDepth
      · exact mem_append_right _ (mem_reverse.mpr (hto m hm row hrow))
      · refine mem_append_left _ ?_
        rcases hfirst with ⟨hisFirst, -, -⟩ | ⟨-, hsome⟩
        · refine hstartedTo hisFirst ?_ p before hparent hbefore
          -- a run with an absorbed prefix has its start in it
          by_contra hne
          have hpos : 0 < s.absorbedBelow run below := by omega
          have := h.start_le_of_occupied (h.occupied_absorbedBelow hpos) hrow
          omega
        · have := h.start_le_of_occupied (hf.known hsome).2.2 hrow
          omega
  · have hreverse : merged.length = (s.merges run done hi).length := hlength
    rcases hfirst with ⟨rfl, hnone, -⟩ | ⟨rfl, hsome⟩
    · have := @leftover_first _ _ _ s explored run lo hi done startRow hnone hdone.le hstart
      simp only [Bool.toNat_true] at hstartedLength
      omega
    · have := @leftover_merges _ _ _ s explored run lo hi done
        (fun lo' done' heq => (hold lo' done' heq).2) hdone.le
      simp only [Bool.toNat_false] at hstartedLength
      omega

theorem Frontier.skip {done : ℕ} (hf : s.Frontier below start ((run, hi) :: pending) explored)
    (hexp : explored run = some (lo, done)) (hle : hi ≤ done) :
    s.Frontier below start pending explored := by
  obtain ⟨hlo, hlodone, hplace⟩ := hf.known hexp
  have hsettle : s.Frontier below start ([] ++ pending)
      (Function.update explored run (some (lo, done))) := by
    refine hf.settle hlo hle hlodone (fun lo' done' heq => ?_) hplace (by simp) ?_
    · rw [hexp] at heq
      cases heq
      exact ⟨rfl, le_rfl⟩
    · intro c p row before _ _ _ hrun hlow hhigh hnew
      exact absurd ⟨lo, done, by rw [hrun, hexp], hlow, hhigh⟩ hnew
  rwa [nil_append, ← hexp, Function.update_eq_self] at hsettle

theorem Frontier.absorb (h : s.Consistent)
    (hf : s.Frontier below start ((run, hi) :: pending) explored) (hexp : explored run = none)
    (hle : hi ≤ s.absorbedBelow run below) :
    s.Frontier below start pending (Function.update explored run
      (some (s.absorbedBelow run below, s.absorbedBelow run below))) := by
  obtain ⟨c, row, hc, -, hdepth, -⟩ := hf.reached (run, hi) mem_cons_self
  have hpos := h.depth_pos hc
  dsimp only at hdepth
  have hplace := @Consistent.occupied_absorbedBelow _ _ _ s below h run (by omega)
  have hsettle : s.Frontier below start ([] ++ pending) (Function.update explored run
      (some (s.absorbedBelow run below, s.absorbedBelow run below))) := by
    refine hf.settle rfl hle le_rfl (by simp [hexp]) hplace (by simp) ?_
    intro c p row before _ _ _ _ hlow hhigh
    omega
  exact hsettle

theorem Explored.of_absorb {segments : List (Segment κ)} (hexp : explored run = none)
    (he : s.Explored below start (Function.update explored run (some (lo, lo))) segments) :
    s.Explored below start explored segments where
  lo_eq := he.lo_eq
  lo_lt := he.lo_lt
  top := he.top
  grows := he.grows
  covers {c row} hc hreach hskip := by
    refine (he.covers hc hreach hskip).imp_left ?_
    rintro ⟨lo', done, heq, hlow, hhigh⟩
    by_cases hrun : row.run = run
    · rw [hrun, Function.update_self] at heq
      cases heq
      omega
    · rw [Function.update_of_ne hrun] at heq
      exact ⟨lo', done, heq, hlow, hhigh⟩
  later segment hsegment lo' done heq := by
    have hrun : segment.run ≠ run := by
      rintro rfl
      rw [hexp] at heq
      cases heq
    exact he.later segment hsegment lo' done (by rw [Function.update_of_ne hrun, heq])

theorem Explored.cons {run : κ} {lo hi : ℕ} {segments : List (Segment κ)}
    (he : s.Explored below start (Function.update explored run (some (lo, hi))) segments)
    (hlo : lo = s.absorbedBelow run below) (hlt : lo < hi)
    (htop : s.Occupied run hi (s.LocalReach start))
    (hold : ∀ lo' done', explored run = some (lo', done') → done' < hi) :
    s.Explored below start explored (⟨run, lo, hi⟩ :: segments) where
  lo_eq := forall_mem_cons.mpr ⟨hlo, he.lo_eq⟩
  lo_lt := forall_mem_cons.mpr ⟨hlt, he.lo_lt⟩
  top := forall_mem_cons.mpr ⟨htop, he.top⟩
  covers {c row} hc hreach hskip := by
    rcases he.covers hc hreach hskip with ⟨lo', done, heq, hlow, hhigh⟩ | ⟨segment, hmem, hrest⟩
    · by_cases hrun : row.run = run
      · rw [hrun, Function.update_self] at heq
        cases heq
        exact .inr ⟨_, mem_cons_self, hrun.symm, hhigh⟩
      · rw [Function.update_of_ne hrun] at heq
        exact .inl ⟨lo', done, heq, hlow, hhigh⟩
    · exact .inr ⟨segment, mem_cons_of_mem _ hmem, hrest⟩
  grows := by
    refine pairwise_cons.mpr ⟨fun segment hsegment hrun => ?_, he.grows⟩
    exact he.later segment hsegment lo hi (by rw [← hrun, Function.update_self])
  later := by
    refine forall_mem_cons.mpr ⟨fun lo' done heq => hold lo' done heq, ?_⟩
    intro segment hsegment lo' done heq
    by_cases hrun : segment.run = run
    · have hlater := he.later segment hsegment lo hi (by rw [hrun, Function.update_self])
      exact (hold lo' done (hrun ▸ heq)).trans hlater
    · exact he.later segment hsegment lo' done (by rw [Function.update_of_ne hrun, heq])

/-- **From a state of the invariant the loop ends**, with segments that cover what is left. -/
theorem exploreLoop_spec (h : s.Consistent) {turns : ℕ}
    (hf : s.Frontier below start pending explored)
    (hturns : pending.length + s.leftover explored < turns) :
    ∃ segments, s.exploreLoop below turns pending explored = .ok segments ∧
      s.Explored below start explored segments := by
  induction turns generalizing pending explored with
  | zero => omega
  | succ turns ih =>
    rcases pending with _ | ⟨⟨run, hi⟩, pending⟩
    · refine ⟨[], rfl, by simp, by simp, by simp, fun hc hreach hskip => ?_, .nil, by simp⟩
      exact .inl (hf.done h hc hreach hskip)
    · rw [length_cons] at hturns
      -- what a visit returns, given what the loop does after it
      have hvisit : ∀ {lo done : ℕ} {first : Bool},
          s.unvisited below explored run hi = some (lo, done, first) →
          lo = s.absorbedBelow run below → lo < hi → done < hi →
          (first = true ∧ explored run = none ∧ done = lo ∨
            first = false ∧ explored run = some (lo, done)) →
          ∃ segments, s.exploreLoop below (turns + 1) ((run, hi) :: pending) explored
            = .ok segments ∧ s.Explored below start explored segments := by
        intro lo done first hunvisited hlo hlt hdone hfirst
        obtain ⟨merged, started, hmerged, hstarted, hfrontier, hless⟩ :=
          hf.visit h hlo hlt hdone hfirst
        obtain ⟨segments, hsegments, hexplored⟩ := ih hfrontier (by
          simp only [length_append, length_reverse]
          omega)
        refine ⟨⟨run, lo, hi⟩ :: segments, ?_, hexplored.cons hlo hlt
          (hf.reached (run, hi) mem_cons_self) fun lo' done' heq => ?_⟩
        · simp only [exploreLoop, hunvisited, if_neg (not_le.mpr hlt), hmerged, hstarted, bind,
            Except.bind, hsegments]
          rfl
        · rcases hfirst with ⟨-, hnone, -⟩ | ⟨-, hsome⟩
          · rw [hnone] at heq
            cases heq
          · rw [hsome] at heq
            cases heq
            exact hdone
      rcases hexp : explored run with _ | ⟨lo, done⟩
      · have hunvisited : s.unvisited below explored run hi =
            some (s.absorbedBelow run below, s.absorbedBelow run below, true) := by
          simp [unvisited, hexp]
        rcases Nat.lt_or_ge (s.absorbedBelow run below) hi with hlt | hle
        · exact hvisit hunvisited rfl hlt hlt (.inl ⟨rfl, hexp, rfl⟩)
        · have hless := @leftover_merges _ _ _ s explored run (s.absorbedBelow run below)
            (s.absorbedBelow run below) (s.absorbedBelow run below) (by simp [hexp]) le_rfl
          obtain ⟨segments, hsegments, hexplored⟩ := ih (hf.absorb h hexp hle) (by omega)
          refine ⟨segments, ?_, hexplored.of_absorb hexp⟩
          simp [exploreLoop, hunvisited, if_pos hle, hsegments]
      · rcases Nat.lt_or_ge done hi with hlt | hle
        · obtain ⟨hlo, hlodone, -⟩ := hf.known hexp
          have hunvisited : s.unvisited below explored run hi = some (lo, done, false) := by
            simp [unvisited, hexp, if_neg (not_le.mpr hlt), max_eq_left hlodone]
          exact hvisit hunvisited hlo (by omega) hlt (.inr ⟨rfl, hexp⟩)
        · obtain ⟨segments, hsegments, hexplored⟩ := ih (hf.skip hexp hle) (by omega)
          refine ⟨segments, ?_, hexplored⟩
          simp [exploreLoop, unvisited, hexp, if_pos hle, hsegments]

/-- **What `explore` returns**: segments of the local Commits no Layer below absorbed, which cover all
of them. -/
theorem Consistent.explore_spec (h : s.Consistent) {row : CommitLineage κ} {line : CommitLine κ}
    (hrow : s.commitRow start = some row) (hrun : line.run = row.run)
    (hdepth : line.depth = row.depth) (below : Height) :
    ∃ segments, s.explore line below = .ok segments ∧
      s.Explored below start (fun _ => none) segments := by
  refine exploreLoop_spec h ⟨?_, by simp, fun hrow' => ?_, ?_⟩ ?_
  · intro place hplace
    rw [mem_singleton] at hplace
    subst hplace
    exact ⟨start, row, hrow, hrun.symm, hdepth.symm, .refl⟩
  · rw [hrow] at hrow'
    cases hrow'
    exact .inr (.inr ⟨row.depth, by simp [hrun, hdepth], le_rfl⟩)
  · rintro c p row before - - - ⟨lo, done, heq, -⟩
    cases heq
  · have hleft : s.leftover (fun _ => none) ≤ s.commitLineage.length + s.commitLineage.length :=
      Nat.add_le_add countP_le_length countP_le_length
    rw [length_singleton]
    omega

end Catalog

end LayerFs.History
