import LayerFs.History.Grow

/-!
# Every reachable catalog is consistent

Each operation leaves the lineage alone, records one Commit or publishes one Layer.

* `Operation.grows` — **what one operation does to history**.
* `Reachable.consistent` — **so every run does**.
-/

namespace LayerFs.History

variable {height newest now : ℕ}

namespace Catalog

variable {κ ρ : Type} [DecidableEq κ] {codec : Codec κ ρ} {s s' : Catalog κ ρ}

/-! ## Layers -/

variable {record : LayerRecord κ}

theorem insertLayer_eq_ok : s.insertLayer record = .ok s' ↔
    s.layer record.id = none ∧
      (s.layers.any fun row => row.stack = record.stack ∧ row.parent = record.parent) = false ∧
      { s with layers := record :: s.layers } = s' := by
  simp [insertLayer, history_bind_eq_ok, pure, Except.pure, and_assoc]

variable {id stack : κ}

theorem recordLayer_eq_ok {overwrote : ℕ} :
    s.recordLayer id stack height overwrote = .ok s' ↔
      s.layerRow id = none ∧
      (s.layerLineage.any fun row => row.stack = stack ∧ row.height = height) = false ∧
      { s with layerLineage := ⟨id, stack, height, overwrote⟩ :: s.layerLineage } = s' := by
  simp [recordLayer, history_bind_eq_ok, pure, Except.pure, and_assoc]

variable {segments : List (Segment κ)}

theorem foldlM_insertAbsorbed
    (h : segments.foldlM (fun (s : Catalog κ ρ) segment => s.insertAbsorbed height segment) s
      = .ok s') :
    s' = { s with
      absorbed := (segments.map (Segment.absorbedAt height)).reverse ++ s.absorbed } := by
  induction segments generalizing s with
  | nil =>
    cases h
    rfl
  | cons segment segments ih =>
    rw [List.foldlM_cons, history_bind_eq_ok] at h
    obtain ⟨s₁, hinsert, hrest⟩ := h
    simp only [insertAbsorbed, history_bind_eq_ok, require_eq_ok] at hinsert
    obtain ⟨-, -, hinsert⟩ := hinsert
    cases hinsert
    rw [ih hrest]
    simp [Segment.absorbedAt]

theorem exploreLoop_relayer {layers : List (LayerRecord κ)} {lineage : List (LayerLineage κ)}
    {below : Height} {turns : ℕ} {pending : List (κ × ℕ)} {explored : κ → Option (ℕ × ℕ)} :
    ({ s with layers := layers, layerLineage := lineage } : Catalog κ ρ).exploreLoop below turns
      pending explored = s.exploreLoop below turns pending explored := by
  induction turns generalizing pending explored with
  | zero => rfl
  | succ turns ih =>
    rcases pending with _ | ⟨⟨run, hi⟩, pending⟩
    · rfl
    · simp only [exploreLoop, ih]
      rfl

/-- The frontiers after a publication: its height at the place of its source, and at the height of
the Layer that absorbed the source before, when one did. -/
def frontiers (s : Catalog κ ρ) (stack : κ) (source : CommitLine κ) (height : ℕ) :
    List (Reach κ) :=
  let s := s.reachInsert (.run source.run) source.depth height
  match s.absorbedHeight source.run source.depth with
  | some x => (s.reachInsert (.stack stack) x height).reach
  | none => s.reach

variable {source : CommitLine κ}

theorem absorb_eq_ok (h : s.absorb stack source height = .ok s') :
    ∃ segments, s.explore source none = .ok segments ∧
      s' = { s with
        absorbed := (segments.map (Segment.absorbedAt height)).reverse ++ s.absorbed
        reach := s.frontiers stack source height } := by
  simp only [absorb, history_bind_eq_ok] at h
  obtain ⟨segments, hsegments, s₁, hfold, h⟩ := h
  have hs₁ := foldlM_insertAbsorbed hfold
  subst hs₁
  refine ⟨segments, hsegments, ?_⟩
  have hread : (s.reachInsert (.run source.run) source.depth height).absorbedHeight source.run
      source.depth = s.absorbedHeight source.run source.depth := rfl
  rcases hbefore : s.absorbedHeight source.run source.depth with _ | x
  · rw [hbefore] at h
    cases h
    simp only [frontiers, hread, hbefore]
    rfl
  · rw [hbefore] at h
    cases h
    simp only [frontiers, hread, hbefore]
    rfl

/-- **Initializing a stack publishes its genesis.** -/
theorem initializeLayerstack_cases (h : s.Consistent) {request : StackInitialization κ}
    (hinit : s.initializeLayerstack codec request = .ok s') :
    ∃ record row heads, s.NewLayer record row heads [] ∧ record.sourceCommit = none ∧
      s' = s.withLayer record row heads [] s.reach := by
  simp only [initializeLayerstack, history_bind_eq_ok, require_eq_ok] at hinit
  obtain ⟨-, hstack, -, -, s₁, hinsert, hrecord⟩ := hinit
  obtain ⟨hfresh, -, rfl⟩ := insertLayer_eq_ok.mp hinsert
  obtain ⟨-, -, rfl⟩ := recordLayer_eq_ok.mp hrecord
  rw [Option.isNone_iff_eq_none] at hstack
  refine ⟨_, _, _, ⟨hfresh, rfl, rfl, ?_, ?_, fun _ => rfl, ?_, ?_, fun _ => rfl, ?_, ?_⟩, rfl, rfl⟩
  · rintro n (⟨p, hp, -⟩ | ⟨c, hc, -⟩)
    · cases hp
    · cases hc
  · -- the stack is new, so it has no Layer
    intro l other hl hother
    obtain ⟨record, hlayer⟩ := h.row_layer hl
    obtain ⟨row, hrow, hrowStack⟩ := h.layer_row hlayer
    rw [hl] at hrow
    cases hrow
    have hknown := h.layer_stack hlayer
    rw [← hrowStack, hother, hstack] at hknown
    cases hknown
  · intro p hp
    cases hp
  · intro c hc
    cases hc
  · intro id stack hid
    rw [List.find?_cons] at hid
    split at hid
    · rename_i heq
      cases hid
      exact .inl ⟨(by simpa using heq : request.stack = id).symm, rfl⟩
    · rename_i heq
      exact .inr ⟨fun h => absurd h.symm (by simpa using heq), hid⟩
  · intro id hid
    rw [List.find?_cons]
    split
    · rfl
    · rename_i heq
      rcases hid with rfl | hid
      · simp at heq
      · exact hid

theorem find?_advanceStack {head : κ} :
    ((s.advanceStack stack head).layerStacks.find? fun row => row.id = id) =
      (s.layerStack id).map fun row =>
        if row.id = stack then { row with headLayer := head } else row := by
  have hid : ((fun row : LayerStackRecord κ => decide (row.id = id)) ∘ fun row =>
      if row.id = stack then { row with headLayer := head } else row) =
      fun row => decide (row.id = id) := by
    funext row
    by_cases hrow : row.id = stack
    · simp [hrow]
    · simp [hrow]
  simp only [advanceStack, List.find?_map, hid]
  rfl

theorem publishLayer_eq_ok (hunknown : s.layer record.id ≠ some record)
    (hpublish : s.publishLayer record source height = .ok s') :
    s.layer record.id = none ∧ ∃ segments, s.explore source none = .ok segments ∧
      s' = s.withLayer record ⟨record.id, record.stack, height, record.overwroteCount⟩ s.layerStacks
        segments (s.frontiers record.stack source height) := by
  simp only [publishLayer, history_bind_eq_ok] at hpublish
  obtain ⟨known, hverify, hpublish⟩ := hpublish
  rcases hlayer : s.layer record.id with _ | stored
  · simp only [verifyLayer, hlayer, Except.ok.injEq] at hverify
    subst hverify
    simp only [Bool.false_eq_true, if_false, history_bind_eq_ok] at hpublish
    obtain ⟨s₁, hinsert, s₂, hrecord, habsorb⟩ := hpublish
    obtain ⟨-, -, rfl⟩ := insertLayer_eq_ok.mp hinsert
    obtain ⟨-, -, rfl⟩ := recordLayer_eq_ok.mp hrecord
    obtain ⟨segments, hsegments, rfl⟩ := absorb_eq_ok habsorb
    refine ⟨rfl, segments, ?_, rfl⟩
    exact (exploreLoop_relayer (s := s)).symm.trans hsegments
  · simp only [verifyLayer, hlayer, history_bind_eq_ok, require_eq_ok] at hverify
    obtain ⟨-, hstored, -⟩ := hverify
    exact absurd (by rw [hlayer, of_decide_eq_true hstored]) hunknown

/-- Publishing would add a Layer: the Commit was not published from the Branch, and its root is not
that of the head. -/
def Adds (s : Catalog κ ρ) (request : AddLayerRequest κ) : Prop :=
  s.publishedSource request.branch request.commit = none ∧
    ∀ stack commit, s.layerStack request.stack = some stack →
      s.commit request.commit = some commit → s.layerRoot stack.headLayer ≠ .ok commit.root

/-- **What a publication that adds a Layer reads and writes.** -/
structure Added (codec : Codec κ ρ) (s : Catalog κ ρ) (request : AddLayerRequest κ)
    (head : LayerLineage κ) (source : CommitLine κ) (covered : ℕ) (record : LayerRecord κ)
    (segments : List (Segment κ)) (s' : Catalog κ ρ) : Prop where
  stack : ∃ stack, s.layerStack request.stack = some stack ∧
    s.layerRow stack.headLayer = some head ∧ record.parent = some stack.headLayer
  commit : s.stackOf (.commit request.commit) = some request.stack
  source_eq : s.commitLine request.commit = .ok source
  covered_eq : s.covered request.stack head.height source = .ok covered
  explored : s.explore source none = .ok segments
  fresh : s.layer record.id = none
  record_stack : record.stack = request.stack
  record_source : record.sourceCommit = some request.commit
  overwrote : record.overwroteCount = head.height - covered
  after : s' = s.withLayer record ⟨record.id, record.stack, head.height + 1, record.overwroteCount⟩
    (s.advanceStack request.stack record.id).layerStacks segments
    (s.frontiers request.stack source (head.height + 1))

variable {request : AddLayerRequest κ}

/-- **A publication changes nothing, or adds the Layer above the head of its stack.** -/
theorem addLayer_inv (h : s.Consistent) (hadd : s.addLayer codec request = .ok s') :
    (¬s.Adds request ∧ s' = s) ∨ s.Adds request ∧ ∃ head source covered record segments,
      s.Added codec request head source covered record segments s' := by
  simp only [addLayer, history_bind_eq_ok, found_eq_ok, require_eq_ok] at hadd
  obtain ⟨stack, hstack, branch, -, -, -, commit, hcommit, -, hcommitStack, hadd⟩ := hadd
  rcases hpublished : s.publishedSource request.branch request.commit with _ | stored
  · rw [hpublished] at hadd
    simp only [history_bind_eq_ok, require_eq_ok] at hadd
    obtain ⟨-, -, -, -, -, -, headRoot, hheadRoot, hadd⟩ := hadd
    split_ifs at hadd with hsame
    · refine .inl ⟨fun hadds => hadds.2 stack commit hstack hcommit ?_, (Except.ok.inj hadd).symm⟩
      rw [hheadRoot, hsame]
    · simp only [history_bind_eq_ok] at hadd
      obtain ⟨head, hhead, source, hsource, covered, hcovered, s₁, hpublish, hadd⟩ := hadd
      rw [layerLine, found_eq_ok] at hhead
      obtain ⟨top, htop, htopStack, hbound⟩ := h.head_top hstack
      rw [hhead] at htop
      cases htop
      -- a Layer above the head would be higher than it
      have hunknown : ∀ {record : LayerRecord κ}, record.stack = request.stack →
          record.parent = some stack.headLayer → s.layer record.id ≠ some record := by
        intro record hrecordStack hparent hlayer
        obtain ⟨row, hrow, hrowStack⟩ := h.layer_row hlayer
        obtain ⟨below, hbelow, hheight⟩ := (h.height_eq hlayer hrow).2 _ hparent
        rw [hhead] at hbelow
        cases hbelow
        have := hbound _ row hrow (hrowStack.trans hrecordStack)
        omega
      obtain ⟨hfresh, segments, hsegments, rfl⟩ := publishLayer_eq_ok (hunknown rfl rfl) hpublish
      refine .inr ⟨⟨hpublished, ?_⟩, head, source, covered, _, segments, ⟨stack, hstack, hhead, rfl⟩,
        ?_, hsource, hcovered, hsegments, hfresh, rfl, rfl, rfl, (Except.ok.inj hadd).symm⟩
      · intro stack' commit' hstack' hcommit' hroot
        rw [hstack] at hstack'
        rw [hcommit] at hcommit'
        cases hstack'
        cases hcommit'
        exact hsame (Except.ok.inj (hroot.symm.trans hheadRoot))
      · simpa [stackOf, hcommit] using hcommitStack
  · rw [hpublished] at hadd
    simp only [history_bind_eq_ok, require_eq_ok] at hadd
    obtain ⟨-, -, hadd⟩ := hadd
    refine .inl ⟨fun hadds => ?_, (Except.ok.inj hadd).symm⟩
    rw [hadds.1] at hpublished
    cases hpublished

theorem Added.newLayer (h : s.Consistent) {head : LayerLineage κ} {covered : ℕ}
    (hadded : s.Added codec request head source covered record segments s') :
    s.NewLayer record ⟨record.id, record.stack, head.height + 1, record.overwroteCount⟩
      (s.advanceStack request.stack record.id).layerStacks segments := by
  obtain ⟨stack, hstack, hhead, hparent⟩ := hadded.stack
  obtain ⟨sourceRow, commit, hrow, -, hline⟩ := commitLine_eq_ok.mp hadded.source_eq
  have hrun : source.run = sourceRow.run := by rw [hline]
  have hdepth : source.depth = sourceRow.depth := by rw [hline]
  obtain ⟨top, htop, htopStack, hbound⟩ := h.head_top hstack
  rw [hhead] at htop
  cases htop
  obtain ⟨segments', hsegments', hexplored⟩ := h.explore_spec hrow hrun hdepth none
  rw [hadded.explored] at hsegments'
  cases hsegments'
  refine ⟨hadded.fresh, rfl, rfl, ?_, ?_, ?_, ?_, ?_, ?_, ?_, ?_⟩
  · rintro n (⟨p, hp, rfl⟩ | ⟨c, hc, rfl⟩)
    · rw [hparent] at hp
      cases hp
      rw [h.stackOf_layer hhead, htopStack, hadded.record_stack]
    · rw [hadded.record_source] at hc
      cases hc
      rw [hadded.commit, hadded.record_stack]
  · intro l other hl hother
    exact Nat.lt_succ_of_le (hbound l other hl (hother.trans hadded.record_stack))
  · intro hp
    rw [hparent] at hp
    cases hp
  · intro p hp
    rw [hparent] at hp
    cases hp
    exact ⟨head, hhead, rfl⟩
  · intro c hc
    rw [hadded.record_source] at hc
    cases hc
    exact hexplored
  · intro hc
    rw [hadded.record_source] at hc
    cases hc
  · intro id stack' hid
    rw [find?_advanceStack] at hid
    obtain ⟨row, hrow', rfl⟩ := Option.map_eq_some_iff.mp hid
    have hrowId : row.id = id := by simpa using List.find?_some hrow'
    rw [hadded.record_stack]
    by_cases heq : row.id = request.stack
    · exact .inl ⟨hrowId.symm.trans heq, by simp [heq]⟩
    · rw [if_neg heq]
      exact .inr ⟨hrowId ▸ heq, hrow'⟩
  · intro id hid
    rw [find?_advanceStack, Option.isSome_map]
    rcases hid with hid | hid
    · rw [hid, hadded.record_stack]
      exact Option.isSome_of_mem hstack
    · exact hid

/-! ## Commits -/

variable {parent : Option κ} {baseLayer : κ}

theorem firstLine_eq_ok {run : κ} {depth : ℕ}
    (h : s.firstLine id parent baseLayer = .ok (run, depth, newest)) :
    (parent = none → run = id ∧ depth = 1 ∧ s.newestOf (.layer baseLayer) = some newest) ∧
      ∀ p, parent = some p → ∃ before, s.commitRow p = some before ∧ depth = before.depth + 1 ∧
        (run = id ∨ run = before.run) ∧ s.newestOf (.commit p) = some newest := by
  rcases parent with _ | p
  · simp only [firstLine, history_bind_eq_ok, layerLine, found_eq_ok] at h
    obtain ⟨line, hline, hvalue⟩ := h
    cases hvalue
    exact ⟨fun _ => ⟨rfl, rfl, by simp [newestOf, hline]⟩, fun p hp => absurd hp (by simp)⟩
  · simp only [firstLine, history_bind_eq_ok] at h
    obtain ⟨line, hline, hvalue⟩ := h
    obtain ⟨before, record, hbefore, -, rfl⟩ := commitLine_eq_ok.mp hline
    cases hvalue
    refine ⟨fun hp => absurd hp (by simp), fun q hq => ?_⟩
    cases hq
    refine ⟨before, hbefore, rfl, ?_, by simp [newestOf, hbefore]⟩
    dsimp only
    split_ifs
    · exact .inl rfl
    · exact .inr rfl

variable {second : Option (NodeId κ)}

theorem secondLine_eq_ok {newest' : ℕ} {merged : Option κ}
    (h : s.secondLine newest second = .ok (newest', merged)) :
    (∀ m, merged = some m ↔ second = some (.commit m)) ∧ (second = none → newest' = newest) ∧
      ∀ n, second = some n → ∃ k, s.newestOf n = some k ∧ newest' = max newest k := by
  rcases second with _ | (c | l)
  · cases h
    exact ⟨by simp, fun _ => rfl, fun n hn => absurd hn (by simp)⟩
  · simp only [secondLine, history_bind_eq_ok] at h
    obtain ⟨line, hline, hvalue⟩ := h
    obtain ⟨row, record, hrow, -, rfl⟩ := commitLine_eq_ok.mp hline
    cases hvalue
    refine ⟨by simp, fun hn => absurd hn (by simp), fun n hn => ?_⟩
    cases hn
    exact ⟨row.newest, by simp [newestOf, hrow], rfl⟩
  · simp only [secondLine, history_bind_eq_ok, layerLine, found_eq_ok] at h
    obtain ⟨line, hline, hvalue⟩ := h
    cases hvalue
    refine ⟨by simp, fun hn => absurd hn (by simp), fun n hn => ?_⟩
    cases hn
    exact ⟨line.height, by simp [newestOf, hline], rfl⟩

/-- **The row recorded for a Commit whose parents are of its stack.** -/
theorem recordParents_eq_ok {record : CommitRecord κ ρ} (hfresh : s.commit record.id = none)
    (hstack : ∀ {n}, record.Target n → s.stackOf n = some record.stack)
    (hrecord : ({ s with commits := record :: s.commits } : Catalog κ ρ).recordParents record.id
      record.parent record.baseLayer record.secondParent = .ok s') :
    ∃ row, s.NewCommit record row ∧ s' = s.withCommit record row := by
  simp only [recordParents, history_bind_eq_ok] at hrecord
  obtain ⟨⟨run, depth, first⟩, hfirst, ⟨newest, merged⟩, hsecond, hinsert⟩ := hrecord
  obtain ⟨hgenesis, hnext⟩ := firstLine_eq_ok hfirst
  obtain ⟨hmerged, hnone, hsome⟩ := secondLine_eq_ok hsecond
  simp only [insertCommitRow, history_bind_eq_ok, require_eq_ok, Bool.and_eq_true,
    Option.isNone_iff_eq_none] at hinsert
  obtain ⟨-, ⟨-, hplace⟩, hinsert⟩ := hinsert
  -- the first edge's newest height, and that the second only raises it
  have hfirstEdge : ∃ n, record.Target n ∧ s.newestOf n = some first := by
    rcases hp : record.parent with _ | p
    · exact ⟨_, .inr (.inl ⟨hp, rfl⟩), (hgenesis hp).2.2⟩
    · obtain ⟨-, -, -, -, hn⟩ := hnext p hp
      exact ⟨_, .inl ⟨p, hp, rfl⟩, hn⟩
  have hraise : first ≤ newest := by
    rcases hs : record.secondParent with _ | n
    · exact (hnone hs).ge
    · obtain ⟨k, -, hk⟩ := hsome n hs
      rw [hk]
      exact le_max_left _ _
  refine ⟨⟨record.id, run, depth, newest, merged⟩, ⟨hfresh, rfl, hstack, hplace, ?_, ?_, ?_, ?_, hmerged _⟩,
    (Except.ok.inj hinsert).symm⟩
  · rintro n k (⟨p, hp, rfl⟩ | ⟨hp, rfl⟩ | hn) hk
    · obtain ⟨-, -, -, -, hfirst'⟩ := hnext p hp
      have : k = first := Option.some.inj (hk.symm.trans hfirst')
      exact this ▸ hraise
    · have : k = first := Option.some.inj (hk.symm.trans (hgenesis hp).2.2)
      exact this ▸ hraise
    · obtain ⟨k', hk', hmax⟩ := hsome n hn
      have : k = k' := Option.some.inj (hk.symm.trans hk')
      exact this ▸ hmax ▸ le_max_right _ _
  · rcases hs : record.secondParent with _ | n
    · obtain ⟨n, htarget, hn⟩ := hfirstEdge
      exact ⟨n, htarget, by rw [hn, hnone hs]⟩
    · obtain ⟨k, hk, hmax⟩ := hsome n hs
      rcases le_total first k with hle | hle
      · exact ⟨n, .inr (.inr hs), hk.trans (by rw [hmax, max_eq_right hle])⟩
      · obtain ⟨n, htarget, hn⟩ := hfirstEdge
        exact ⟨n, htarget, by rw [hn, hmax, max_eq_left hle]⟩
  · intro hp
    exact ⟨(hgenesis hp).1, (hgenesis hp).2.1⟩
  · intro p hp
    obtain ⟨before, hbefore, hdepth, hrun, -⟩ := hnext p hp
    exact ⟨before, hbefore, hdepth, hrun⟩

theorem fork_eq_ok {request : ForkRequest κ} (hfork : s.fork request = .ok s') :
    ∃ record, s' = s.insertBranch record := by
  simp only [fork, history_bind_eq_ok] at hfork
  obtain ⟨-, -, -, -, hfork⟩ := hfork
  rcases hsource : request.source with id | ⟨branch, commit⟩
  · rw [hsource] at hfork
    simp only [history_bind_eq_ok] at hfork
    obtain ⟨-, -, -, -, hfork⟩ := hfork
    exact ⟨_, (Except.ok.inj hfork).symm⟩
  · rw [hsource] at hfork
    simp only [history_bind_eq_ok] at hfork
    obtain ⟨-, -, -, -, selected, -, -, -, -, -, -, -, hfork⟩ := hfork
    exact ⟨_, (Except.ok.inj hfork).symm⟩

/-! ## What one operation does -/

/-- **What one operation does to history**: nothing but Branches, one Commit or one Layer more. -/
inductive Grows (s s' : Catalog κ ρ) : Prop
  | rebranched (branches : List (BranchRecord κ)) (heq : s' = { s with branches := branches })
  | commit {record : CommitRecord κ ρ} {row : CommitLineage κ} (hnew : s.NewCommit record row)
      (branches : List (BranchRecord κ))
      (heq : s' = { s.withCommit record row with branches := branches })
  | layer {record : LayerRecord κ} {row : LayerLineage κ} {heads : List (LayerStackRecord κ)}
      {segments : List (Segment κ)} (hnew : s.NewLayer record row heads segments)
      (frontiers : List (Reach κ)) (hnone : record.sourceCommit = none → frontiers = s.reach)
      (hsome : ∀ c, record.sourceCommit = some c → ∃ source, s.commitLine c = .ok source ∧
        frontiers = s.frontiers record.stack source row.height)
      (heq : s' = s.withLayer record row heads segments frontiers)

theorem Grows.consistent (h : s.Consistent) (hgrows : s.Grows s') : s'.Consistent := by
  cases hgrows with
  | rebranched branches heq =>
    rw [heq]
    exact h.rebranch branches
  | commit hnew branches heq =>
    rw [heq]
    exact (h.grow_commit hnew).rebranch branches
  | layer hnew frontiers _ _ heq =>
    rw [heq]
    exact h.grow_layer hnew

theorem addLayer_grows (h : s.Consistent) (hadd : s.addLayer codec request = .ok s') :
    s.Grows s' := by
  rcases addLayer_inv h hadd with ⟨-, rfl⟩ | ⟨-, head, source, covered, record, segments, hadded⟩
  · exact .rebranched _ rfl
  · refine .layer (hadded.newLayer h) _ (fun hnone => ?_) (fun c hc => ?_) hadded.after
    · rw [hadded.record_source] at hnone
      cases hnone
    · rw [hadded.record_source] at hc
      cases hc
      exact ⟨source, hadded.source_eq, by rw [hadded.record_stack]⟩

section Operations

variable [DecidableEq ρ]

/-- **Making a Commit changes nothing, or records one.** -/
theorem newCommit_cases {branch root : κ} {info : CommitMeta κ ρ}
    (hsecond : ∀ n ∈ second, s.stackOf n = some stack)
    (hcommit : s.newCommit codec now stack branch root parent baseLayer second info = .ok (id, s'))
    :
    s' = s ∨ ∃ record row, s.NewCommit record row ∧ s' = s.withCommit record row := by
  simp only [newCommit, history_bind_eq_ok] at hcommit
  obtain ⟨-, -, known, hverify, hcommit⟩ := hcommit
  split_ifs at hcommit with hknown
  · exact .inl (Prod.mk.inj (Except.ok.inj hcommit)).2.symm
  · simp only [history_bind_eq_ok, insertCommit, require_eq_ok] at hcommit
    obtain ⟨-, -, s₁, ⟨-, hparent, -, hbase, hinsert⟩, s₂, hrecord, hvalue⟩ := hcommit
    cases hinsert
    cases hvalue
    refine .inr ⟨_, recordParents_eq_ok ?_ ?_ hrecord⟩
    · rcases hfound : s.commit _ with _ | stored
      · rfl
      · simp only [verifyCommit, hfound, history_bind_eq_ok] at hverify
        obtain ⟨-, -, hvalue⟩ := hverify
        exact absurd (Except.ok.inj hvalue).symm hknown
    · rintro n (⟨p, hp, rfl⟩ | ⟨-, rfl⟩ | hn)
      · dsimp only at hp
        simpa [hp] using hparent
      · simpa using hbase
      · exact hsecond n hn

theorem commitBranch_grows {request : CommitRequest κ ρ}
    (hsame : (Operation.commitBranch now request).SameStack s)
    (hcommit : s.commitBranch codec now request = .ok s') : s.Grows s' := by
  simp only [Catalog.commitBranch, history_bind_eq_ok, found_eq_ok] at hcommit
  obtain ⟨branch, hbranch, -, -, -, -, -, -, -, -, -, -, -, -, current, -, hcommit⟩ := hcommit
  by_cases hroot : request.candidateRoot = current
  · rw [if_pos hroot] at hcommit
    cases hcommit
    exact .rebranched s.branches rfl
  · rw [if_neg hroot, history_bind_eq_ok] at hcommit
    obtain ⟨⟨id, s₁⟩, hnew, hadvance⟩ := hcommit
    cases hadvance
    rcases newCommit_cases (hsame branch hbranch) hnew with rfl | ⟨record, row, hrecord, rfl⟩
    · exact .rebranched _ rfl
    · exact .commit hrecord _ rfl

theorem mergeBranch_grows {request : BranchMergeRequest κ ρ}
    (hsame : (Operation.mergeBranch now request).SameStack s)
    (hmerge : s.mergeBranch codec now request = .ok s') : s.Grows s' := by
  simp only [Catalog.mergeBranch, history_bind_eq_ok] at hmerge
  obtain ⟨-, -, -, -, -, -, ⟨base, head⟩, -, -, -, -, -, ⟨head', s₁⟩, hhead, hinsert⟩ := hmerge
  cases hinsert
  rcases hkind : request.head with node | merge
  · simp only [mergedHead, hkind] at hhead
    cases hhead
    exact .rebranched _ rfl
  · simp only [mergedHead, hkind, history_bind_eq_ok] at hhead
    obtain ⟨⟨id, s₂⟩, hnew, hvalue⟩ := hhead
    cases hvalue
    have hsecond : ∀ n ∈ some merge.secondParent, s.stackOf n = some request.stack := by
      intro n hn
      simp only [Operation.SameStack, hkind] at hsame
      cases hn
      exact hsame
    rcases newCommit_cases hsecond hnew with rfl | ⟨record, row, hrecord, rfl⟩
    · exact .rebranched _ rfl
    · exact .commit hrecord _ rfl

end Operations

end Catalog

section Reach

variable {κ ρ : Type} [DecidableEq κ] [DecidableEq ρ] {codec : Codec κ ρ} {s s' : Catalog κ ρ}

/-- **One operation of a consistent catalog.** -/
theorem Operation.grows {operation : Operation κ ρ} (h : s.Consistent)
    (hsame : operation.SameStack s) (happly : operation.apply codec s = .ok s') :
    s.Grows s' := by
  cases operation with
  | initializeLayerstack request =>
    obtain ⟨record, row, heads, hnew, hsource, rfl⟩ := Catalog.initializeLayerstack_cases h happly
    refine .layer hnew _ (fun _ => rfl) (fun c hc => ?_) rfl
    rw [hsource] at hc
    cases hc
  | fork request =>
    obtain ⟨record, rfl⟩ := Catalog.fork_eq_ok happly
    exact .rebranched _ rfl
  | commitBranch now request => exact Catalog.commitBranch_grows hsame happly
  | mergeBranch now request => exact Catalog.mergeBranch_grows hsame happly
  | addLayer request => exact Catalog.addLayer_grows h happly

/-- **Every reachable catalog is consistent.** -/
theorem Reachable.consistent (h : Reachable codec s) : s.Consistent := by
  induction h with
  | empty => exact Catalog.consistent_empty
  | step _ hsame happly ih => exact (Operation.grows ih hsame happly).consistent ih

end Reach

end LayerFs.History
