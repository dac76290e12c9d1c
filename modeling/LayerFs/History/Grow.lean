import LayerFs.History.Explore

/-!
# Consistent catalogs grow

A catalog gains a Commit or a Layer, never loses or changes one, and stays consistent.

* `Catalog.NewCommit`, `Consistent.grow_commit` — **a recorded Commit keeps consistency**: nothing
  reaches it yet, and its place is new in its run.
* `Catalog.NewLayer`, `Consistent.grow_layer` — **a published Layer keeps consistency**: what it
  absorbs is what its source reaches and no older Layer did.
-/

namespace LayerFs.History

open List

variable {height : ℕ}

def CommitRecord.Target {κ ρ : Type} (record : CommitRecord κ ρ) (n : NodeId κ) : Prop :=
  (∃ p, record.parent = some p ∧ n = .commit p) ∨
    (record.parent = none ∧ n = .layer record.baseLayer) ∨ record.secondParent = some n

def LayerRecord.Target {κ : Type} (record : LayerRecord κ) (n : NodeId κ) : Prop :=
  (∃ p, record.parent = some p ∧ n = .layer p) ∨
    ∃ c, record.sourceCommit = some c ∧ n = .commit c

def Segment.absorbedAt {κ : Type} (height : ℕ) (segment : Segment κ) : Absorbed κ :=
  ⟨segment.run, segment.hi, height⟩

namespace Catalog

variable {κ ρ : Type} [DecidableEq κ] {s : Catalog κ ρ}
variable {held : Absorbed κ} {crow : CommitLineage κ} {n : NodeId κ} {segment : Segment κ}
  {c l source stack : κ}

theorem Consistent.occupied_between (h : s.Consistent) {top : κ} {row topRow : CommitLineage κ}
    {d : ℕ} (hc : s.commitRow c = some row) (htop : s.commitRow top = some topRow)
    (hrun : row.run = topRow.run) (hlow : row.depth ≤ d) (hhigh : d ≤ topRow.depth) :
    s.Occupied row.run d fun _ => True := by
  generalize hn : topRow.depth = n at hhigh
  induction n generalizing top topRow with
  | zero =>
    have := h.depth_pos hc
    omega
  | succ n ih =>
    rcases Nat.lt_or_ge n d with hlt | hge
    · exact ⟨top, topRow, htop, hrun.symm, by omega, trivial⟩
    · by_cases hstart : topRow.run = top
      · have := h.start_le hc (hrun ▸ hstart ▸ htop)
        omega
      · obtain ⟨p, before, -, hbefore, hsame, hdepth⟩ := h.run_parent htop hstart
        exact ih hbefore (hrun.trans hsame.symm) (by omega) hge

/-! ## A new Commit -/

def withCommit (s : Catalog κ ρ) (record : CommitRecord κ ρ) (row : CommitLineage κ) :
    Catalog κ ρ :=
  { s with commits := record :: s.commits, commitLineage := row :: s.commitLineage }

/-- **A Commit and the lineage row recorded for it.** -/
structure NewCommit (s : Catalog κ ρ) (record : CommitRecord κ ρ) (row : CommitLineage κ) :
    Prop where
  fresh : s.commit record.id = none
  id_eq : row.commitId = record.id
  stack_eq : ∀ {n}, record.Target n → s.stackOf n = some record.stack
  unplaced : s.commitAt row.run row.depth = none
  /-- its newest height bounds those it leads to -/
  newest_ge : ∀ {n k}, record.Target n → s.newestOf n = some k → k ≤ row.newest
  newest_eq : ∃ n, record.Target n ∧ s.newestOf n = some row.newest
  first : record.parent = none → row.run = record.id ∧ row.depth = 1
  next : ∀ {p}, record.parent = some p → ∃ before, s.commitRow p = some before ∧
    row.depth = before.depth + 1 ∧ (row.run = record.id ∨ row.run = before.run)
  merged_iff : ∀ {m}, row.merged = some m ↔ record.secondParent = some (.commit m)

section Commit

variable {record : CommitRecord κ ρ} {row : CommitLineage κ}

theorem withCommit_commit : (s.withCommit record row).commit c =
    if record.id = c then some record else s.commit c := by
  simp only [withCommit, commit, find?_cons]
  split_ifs with heq
  · simp [heq]
  · simp [heq]

theorem withCommit_commitRow : (s.withCommit record row).commitRow c =
    if row.commitId = c then some row else s.commitRow c := by
  simp only [withCommit, commitRow, find?_cons]
  split_ifs with heq
  · simp [heq]
  · simp [heq]

theorem withCommit_stackOf (hn : n ≠ .commit record.id) :
    (s.withCommit record row).stackOf n = s.stackOf n := by
  cases n with
  | commit c =>
    have hne : record.id ≠ c := fun heq => hn (heq ▸ rfl)
    simp [stackOf, withCommit_commit, hne]
  | layer l => rfl

variable (hnew : s.NewCommit record row)
include hnew

theorem NewCommit.ne_of_stack (hn : s.stackOf n = some stack) : n ≠ .commit record.id := by
  rintro rfl
  simp [stackOf, hnew.fresh] at hn

variable (h : s.Consistent)
include h

theorem NewCommit.free : s.commitRow record.id = none := by
  rcases hrow : s.commitRow record.id with _ | found
  · rfl
  · obtain ⟨r, hr⟩ := h.row_commit hrow
    rw [hnew.fresh] at hr
    cases hr

theorem NewCommit.grown :
    GrownBy s.Edge (s.withCommit record row).Edge (.commit record.id) record.Target where
  edge_iff a b := by
    constructor
    · intro hedge
      cases hedge with
      | @parent c p r hc hp =>
        rw [withCommit_commit] at hc
        split_ifs at hc with heq
        · cases hc
          exact .inr ⟨by rw [heq], .inl ⟨p, hp, rfl⟩⟩
        · exact .inl (.parent hc hp)
      | @base c r hc hp =>
        rw [withCommit_commit] at hc
        split_ifs at hc with heq
        · cases hc
          exact .inr ⟨by rw [heq], .inr (.inl ⟨hp, rfl⟩)⟩
        · exact .inl (.base hc hp)
      | @second c n r hc hn =>
        rw [withCommit_commit] at hc
        split_ifs at hc with heq
        · cases hc
          exact .inr ⟨by rw [heq], .inr (.inr hn)⟩
        · exact .inl (.second hc hn)
      | previous hl hp => exact .inl (.previous hl hp)
      | source hl hc => exact .inl (.source hl hc)
    · have hkeep : ∀ {c r}, s.commit c = some r → (s.withCommit record row).commit c = some r := by
        intro c r hc
        rw [withCommit_commit, if_neg, hc]
        rintro rfl
        rw [hnew.fresh] at hc
        cases hc
      have hown : (s.withCommit record row).commit record.id = some record := by
        rw [withCommit_commit, if_pos rfl]
      rintro (hedge | ⟨rfl, ⟨p, hp, rfl⟩ | ⟨hp, rfl⟩ | hn⟩)
      · cases hedge with
        | parent hc hp => exact .parent (hkeep hc) hp
        | base hc hp => exact .base (hkeep hc) hp
        | second hc hn => exact .second (hkeep hc) hn
        | previous hl hp => exact .previous hl hp
        | source hl hc => exact .source hl hc
      · exact .parent hown hp
      · exact .base hown hp
      · exact .second hown hn
  not_left b hedge := by
    obtain ⟨stack, hstack, -⟩ := h.edge_stack hedge
    exact hnew.ne_of_stack hstack rfl
  not_right a hedge := by
    obtain ⟨stack, -, hstack⟩ := h.edge_stack hedge
    exact hnew.ne_of_stack hstack rfl
  not_target htarget := hnew.ne_of_stack (hnew.stack_eq htarget) rfl

theorem NewCommit.not_prefixAt : ¬s.PrefixAt row.run row.depth height := by
  rintro ⟨held, hheld, hrun, hle, -⟩
  obtain ⟨c, crow, -, -, hc, hcrun, hdepth, -⟩ := h.prefix_commit held hheld
  have hname : row.run ≠ record.id := by
    intro hname
    obtain ⟨start, hstart, -⟩ := h.run_start hc
    rw [hcrun, hrun, hname, hnew.free h] at hstart
    cases hstart
  rcases hp : record.parent with _ | p
  · exact hname (hnew.first hp).1
  · obtain ⟨before, hbefore, hnext, hstart | hsame⟩ := hnew.next hp
    · exact hname hstart
    · obtain ⟨b, brow, hb, hbrun, hbdepth, -⟩ := h.occupied_between hbefore hc
        (hsame.symm.trans (hcrun.trans hrun).symm) (d := row.depth) (by omega) (by omega)
      have hfound := find?_eq_none.mp (Option.map_eq_none_iff.mp hnew.unplaced) brow
        (commitRow_mem hb)
      exact hfound (by simp [hbrun, hbdepth, hsame])

/-- **A recorded Commit keeps consistency.** -/
theorem Consistent.grow_commit : (s.withCommit record row).Consistent := by
  have hgrown := hnew.grown h
  have hfree := hnew.free h
  have hold : ∀ {n b}, n ≠ .commit record.id →
      ((s.withCommit record row).Reaches n b ↔ s.Reaches n b) := fun hn => hgrown.reach_old hn
  have hrowOld : ∀ {c r}, s.commitRow c = some r →
      (s.withCommit record row).commitRow c = some r := by
    intro c r hc
    rw [withCommit_commitRow, if_neg, hc]
    rintro rfl
    rw [hnew.id_eq, hfree] at hc
    cases hc
  have hrowCases : ∀ {c r}, (s.withCommit record row).commitRow c = some r →
      c = record.id ∧ r = row ∨ s.commitRow c = some r ∧ c ≠ record.id := by
    intro c r hc
    rw [withCommit_commitRow, hnew.id_eq] at hc
    split_ifs at hc with heq
    · exact .inl ⟨heq.symm, (Option.some.inj hc).symm⟩
    · exact .inr ⟨hc, fun h => heq h.symm⟩
  have hcommitCases : ∀ {c r}, (s.withCommit record row).commit c = some r →
      c = record.id ∧ r = record ∨ s.commit c = some r ∧ c ≠ record.id := by
    intro c r hc
    rw [withCommit_commit] at hc
    split_ifs at hc with heq
    · exact .inl ⟨heq.symm, (Option.some.inj hc).symm⟩
    · exact .inr ⟨hc, fun h => heq h.symm⟩
  have hrowNew : (s.withCommit record row).commitRow record.id = some row := by
    rw [withCommit_commitRow, if_pos hnew.id_eq]
  have hrowNe : ∀ {c r}, s.commitRow c = some r → c ≠ record.id := by
    rintro c r hc rfl
    rw [hfree] at hc
    cases hc
  constructor
  case commit_row =>
    intro c r hc
    rcases hcommitCases hc with ⟨rfl, -⟩ | ⟨hc, -⟩
    · exact ⟨row, hrowNew⟩
    · obtain ⟨found, hfound⟩ := h.commit_row hc
      exact ⟨found, hrowOld hfound⟩
  case row_commit =>
    intro c r hc
    rcases hrowCases hc with ⟨rfl, -⟩ | ⟨hc, hne⟩
    · exact ⟨record, by rw [withCommit_commit, if_pos rfl]⟩
    · obtain ⟨found, hfound⟩ := h.row_commit hc
      exact ⟨found, by rw [withCommit_commit, if_neg hne.symm, hfound]⟩
  case row_mem =>
    intro r hr
    rcases mem_cons.mp hr with rfl | hr
    · rw [hnew.id_eq]
      exact hrowNew
    · exact hrowOld (h.row_mem r hr)
  case layer_row => exact h.layer_row
  case row_layer => exact h.row_layer
  case layerRow_mem => exact h.layerRow_mem
  case edge_stack =>
    intro a b hedge
    rcases (hgrown.edge_iff a b).mp hedge with hedge | ⟨rfl, htarget⟩
    · obtain ⟨stack, ha, hb⟩ := h.edge_stack hedge
      refine ⟨stack, ?_, ?_⟩
      · rw [withCommit_stackOf (hnew.ne_of_stack ha), ha]
      · rw [withCommit_stackOf (hnew.ne_of_stack hb), hb]
    · have hb := hnew.stack_eq htarget
      refine ⟨record.stack, by simp [stackOf, withCommit_commit], ?_⟩
      rw [withCommit_stackOf (hnew.ne_of_stack hb), hb]
  case acyclic => exact hgrown.acyclic h.acyclic
  case height_eq => exact h.height_eq
  case source_newest =>
    intro l r lrow c hl hrow hc
    obtain ⟨source, hsource, hlt⟩ := h.source_newest hl hrow hc
    exact ⟨source, hrowOld hsource, hlt⟩
  case height_unique => exact h.height_unique
  case head_top => exact h.head_top
  case layer_stack => exact h.layer_stack
  case newest_reached =>
    intro c r hc
    rcases hrowCases hc with ⟨rfl, rfl⟩ | ⟨hc, hne⟩
    · obtain ⟨n, htarget, hn⟩ := hnew.newest_eq
      obtain ⟨l, top, htop, hheight, hreach⟩ := h.reaches_newest hn
      exact ⟨l, top, htop, hheight, hgrown.reach_new.mpr (.inr ⟨n, htarget, hreach⟩)⟩
    · obtain ⟨l, top, htop, hheight, hreach⟩ := h.newest_reached hc
      exact ⟨l, top, htop, hheight, hgrown.mono hreach⟩
  case newest_top =>
    intro c r l other hc hl hreach
    rcases hrowCases hc with ⟨rfl, rfl⟩ | ⟨hc, hne⟩
    · rcases hgrown.reach_new.mp hreach with heq | ⟨n, htarget, hreach⟩
      · cases heq
      · obtain ⟨k, hk⟩ := h.exists_newest (hnew.stack_eq htarget)
        have hle := h.newest_le hreach hk (by simpa [newestOf] using ⟨_, hl, rfl⟩)
        exact hle.trans (hnew.newest_ge htarget hk)
    · exact h.newest_top hc hl ((hold (by simpa using hne)).mp hreach)
  case run_first =>
    intro c r lrow hc hrow hp
    rcases hcommitCases hc with ⟨rfl, rfl⟩ | ⟨hc, hne⟩
    · rw [hrowNew] at hrow
      cases hrow
      exact hnew.first hp
    · rcases hrowCases hrow with ⟨heq, -⟩ | ⟨hrow, -⟩
      · exact absurd heq hne
      · exact h.run_first hc hrow hp
  case run_next =>
    intro c r lrow p hc hrow hp
    rcases hcommitCases hc with ⟨rfl, rfl⟩ | ⟨hc, hne⟩
    · rw [hrowNew] at hrow
      cases hrow
      obtain ⟨before, hbefore, hrest⟩ := hnew.next hp
      exact ⟨before, hrowOld hbefore, hrest⟩
    · rcases hrowCases hrow with ⟨heq, -⟩ | ⟨hrow, -⟩
      · exact absurd heq hne
      · obtain ⟨before, hbefore, hrest⟩ := h.run_next hc hrow hp
        exact ⟨before, hrowOld hbefore, hrest⟩
  case run_start =>
    intro c r hc
    rcases hrowCases hc with ⟨rfl, rfl⟩ | ⟨hc, -⟩
    · by_cases hname : r.run = record.id
      · exact ⟨r, by rw [hname, hrowNew], rfl⟩
      · rcases hp : record.parent with _ | p
        · exact absurd (hnew.first hp).1 hname
        · obtain ⟨before, hbefore, -, hstart | hsame⟩ := hnew.next hp
          · exact absurd hstart hname
          · obtain ⟨start, hstart, hrun⟩ := h.run_start hbefore
            exact ⟨start, by rw [hsame]; exact hrowOld hstart, hrun.trans hsame.symm⟩
    · obtain ⟨start, hstart, hrun⟩ := h.run_start hc
      exact ⟨start, hrowOld hstart, hrun⟩
  case place_unique =>
    -- the new row's place was free
    have hapart : ∀ {c r}, s.commitRow c = some r → r.run = row.run → r.depth ≠ row.depth := by
      intro c r hc hrun hdepth
      have hfound := find?_eq_none.mp (Option.map_eq_none_iff.mp hnew.unplaced) r
        (commitRow_mem hc)
      exact hfound (by simp [hrun, hdepth])
    intro c c' r r' hc hc' hrun hdepth
    rcases hrowCases hc with ⟨rfl, hr⟩ | ⟨hbefore, -⟩
    · subst hr
      rcases hrowCases hc' with ⟨rfl, -⟩ | ⟨hbefore', -⟩
      · rfl
      · exact absurd hdepth.symm (hapart hbefore' hrun.symm)
    · rcases hrowCases hc' with ⟨rfl, hr⟩ | ⟨hbefore', -⟩
      · subst hr
        exact absurd hdepth (hapart hbefore hrun)
      · exact h.place_unique hbefore hbefore' hrun hdepth
  case merged_iff =>
    intro c r lrow m hc hrow
    rcases hcommitCases hc with ⟨rfl, rfl⟩ | ⟨hc, hne⟩
    · rw [hrowNew] at hrow
      cases hrow
      exact hnew.merged_iff
    · rcases hrowCases hrow with ⟨heq, -⟩ | ⟨hrow, -⟩
      · exact absurd heq hne
      · exact h.merged_iff hc hrow
  case prefix_commit =>
    intro held hheld
    obtain ⟨c, crow, l, layer, hc, hrun, hdepth, hl, hheight, hreach⟩ := h.prefix_commit held hheld
    exact ⟨c, crow, l, layer, hrowOld hc, hrun, hdepth, hl, hheight, hgrown.mono hreach⟩
  case prefix_mono => exact h.prefix_mono
  case prefix_iff =>
    intro c r height hc
    rcases hrowCases hc with ⟨rfl, rfl⟩ | ⟨hc, hne⟩
    · refine ⟨fun hprefix => absurd hprefix (hnew.not_prefixAt h), ?_⟩
      rintro ⟨l, lrow, -, -, hreach⟩
      exact absurd rfl (hgrown.ne_of_reach (by simp) hreach).2
    · refine (h.prefix_iff hc).trans ?_
      constructor
      · rintro ⟨l, lrow, hl, hle, hreach⟩
        exact ⟨l, lrow, hl, hle, hgrown.mono hreach⟩
      · rintro ⟨l, lrow, hl, hle, hreach⟩
        exact ⟨l, lrow, hl, hle, (hold (by simp)).mp hreach⟩

end Commit

/-! ## A new Layer -/

def withLayer (s : Catalog κ ρ) (record : LayerRecord κ) (row : LayerLineage κ)
    (heads : List (LayerStackRecord κ)) (segments : List (Segment κ)) (frontiers : List (Reach κ)) :
    Catalog κ ρ :=
  { s with
    layerStacks := heads
    layers := record :: s.layers
    layerLineage := row :: s.layerLineage
    absorbed := (segments.map (Segment.absorbedAt row.height)).reverse ++ s.absorbed
    reach := frontiers }

/-- **A Layer, its place in the chain and what it absorbs.** -/
structure NewLayer (s : Catalog κ ρ) (record : LayerRecord κ) (row : LayerLineage κ)
    (heads : List (LayerStackRecord κ)) (segments : List (Segment κ)) : Prop where
  fresh : s.layer record.id = none
  id_eq : row.layerId = record.id
  row_stack : row.stack = record.stack
  stack_eq : ∀ {n}, record.Target n → s.stackOf n = some record.stack
  above : ∀ {l other}, s.layerRow l = some other → other.stack = record.stack →
    other.height < row.height
  first : record.parent = none → row.height = 0
  next : ∀ {p}, record.parent = some p → ∃ below, s.layerRow p = some below ∧
    row.height = below.height + 1
  /-- it absorbs the local Commits of its source no Layer absorbed -/
  absorbs : ∀ {c}, record.sourceCommit = some c → s.Explored none c (fun _ => none) segments
  absorbs_nothing : record.sourceCommit = none → segments = []
  /-- it is the head of its stack, and the others keep theirs -/
  heads_of : ∀ {id stack}, heads.find? (fun row => row.id = id) = some stack →
    id = record.stack ∧ stack.headLayer = record.id ∨
      id ≠ record.stack ∧ s.layerStack id = some stack
  heads_to : ∀ {id}, id = record.stack ∨ (s.layerStack id).isSome →
    (heads.find? fun row => row.id = id).isSome

section Layer

variable {record : LayerRecord κ} {row : LayerLineage κ} {heads : List (LayerStackRecord κ)}
  {segments : List (Segment κ)} {frontiers : List (Reach κ)}

theorem withLayer_layer : (s.withLayer record row heads segments frontiers).layer l =
    if record.id = l then some record else s.layer l := by
  simp only [withLayer, layer, find?_cons]
  split_ifs with heq
  · simp [heq]
  · simp [heq]

theorem withLayer_layerRow :
    (s.withLayer record row heads segments frontiers).layerRow l =
      if row.layerId = l then some row else s.layerRow l := by
  simp only [withLayer, layerRow, find?_cons]
  split_ifs with heq
  · simp [heq]
  · simp [heq]

theorem withLayer_stackOf (hn : n ≠ .layer record.id) :
    (s.withLayer record row heads segments frontiers).stackOf n = s.stackOf n := by
  cases n with
  | commit c => rfl
  | layer l =>
    have hne : record.id ≠ l := fun heq => hn (heq ▸ rfl)
    simp [stackOf, withLayer_layer, hne]

omit [DecidableEq κ] in
theorem mem_withLayer_absorbed :
    held ∈ (s.withLayer record row heads segments frontiers).absorbed ↔
      (∃ segment ∈ segments, segment.absorbedAt row.height = held) ∨ held ∈ s.absorbed := by
  simp [withLayer]

variable (hnew : s.NewLayer record row heads segments)
include hnew

theorem NewLayer.ne_of_stack (hn : s.stackOf n = some stack) : n ≠ .layer record.id := by
  rintro rfl
  simp [stackOf, hnew.fresh] at hn

theorem NewLayer.exists_source (hmem : segment ∈ segments) :
    ∃ source, record.sourceCommit = some source := by
  rcases hs : record.sourceCommit with _ | source
  · rw [hnew.absorbs_nothing hs] at hmem
    cases hmem
  · exact ⟨source, rfl⟩

variable (h : s.Consistent)
include h

theorem NewLayer.free : s.layerRow record.id = none := by
  rcases hrow : s.layerRow record.id with _ | found
  · rfl
  · obtain ⟨r, hr⟩ := h.row_layer hrow
    rw [hnew.fresh] at hr
    cases hr

theorem NewLayer.grown : GrownBy s.Edge (s.withLayer record row heads segments frontiers).Edge
    (.layer record.id) record.Target where
  edge_iff a b := by
    constructor
    · intro hedge
      cases hedge with
      | parent hc hp => exact .inl (.parent hc hp)
      | base hc hp => exact .inl (.base hc hp)
      | second hc hn => exact .inl (.second hc hn)
      | @previous l p r hl hp =>
        rw [withLayer_layer] at hl
        split_ifs at hl with heq
        · cases hl
          exact .inr ⟨by rw [heq], .inl ⟨p, hp, rfl⟩⟩
        · exact .inl (.previous hl hp)
      | @source l c r hl hc =>
        rw [withLayer_layer] at hl
        split_ifs at hl with heq
        · cases hl
          exact .inr ⟨by rw [heq], .inr ⟨c, hc, rfl⟩⟩
        · exact .inl (.source hl hc)
    · have hkeep : ∀ {l r}, s.layer l = some r →
          (s.withLayer record row heads segments frontiers).layer l = some r := by
        intro l r hl
        rw [withLayer_layer, if_neg, hl]
        rintro rfl
        rw [hnew.fresh] at hl
        cases hl
      have hown :
          (s.withLayer record row heads segments frontiers).layer record.id = some record := by
        rw [withLayer_layer, if_pos rfl]
      rintro (hedge | ⟨rfl, ⟨p, hp, rfl⟩ | ⟨c, hc, rfl⟩⟩)
      · cases hedge with
        | parent hc hp => exact .parent hc hp
        | base hc hp => exact .base hc hp
        | second hc hn => exact .second hc hn
        | previous hl hp => exact .previous (hkeep hl) hp
        | source hl hc => exact .source (hkeep hl) hc
      · exact .previous hown hp
      · exact .source hown hc
  not_left b hedge := by
    obtain ⟨stack, hstack, -⟩ := h.edge_stack hedge
    exact hnew.ne_of_stack hstack rfl
  not_right a hedge := by
    obtain ⟨stack, -, hstack⟩ := h.edge_stack hedge
    exact hnew.ne_of_stack hstack rfl
  not_target htarget := hnew.ne_of_stack (hnew.stack_eq htarget) rfl

theorem NewLayer.lt_of_reaches {other : LayerLineage κ} (hl : s.layerRow l = some other)
    (hreach : s.Reaches (.layer l) (.commit c)) (hstack : s.stackOf (.commit c) = some record.stack) :
    other.height < row.height := by
  have hsame := h.reaches_stack (h.stackOf_layer hl) hreach
  exact hnew.above hl (Option.some.inj (hsame.symm.trans hstack))

theorem NewLayer.segment_reach (hsource : record.sourceCommit = some source)
    (hmem : segment ∈ segments) (hc : s.commitRow c = some crow) (hrun : crow.run = segment.run)
    (hle : crow.depth ≤ segment.hi) : s.LocalReach source c := by
  obtain ⟨top, topRow, htop, htopRun, htopDepth, hreach⟩ :=
    (hnew.absorbs hsource).top segment hmem
  exact hreach.trans (h.run_reach hc htop (hrun.trans htopRun.symm) (by omega))

theorem NewLayer.held_lt (hsource : record.sourceCommit = some source) (hheld : held ∈ s.absorbed)
    (hc : s.commitRow c = some crow) (hrun : crow.run = held.run) (hle : crow.depth ≤ held.depth)
    (hreach : s.LocalReach source c) : held.height < row.height := by
  obtain ⟨top, topRow, l, layer, htop, htopRun, htopDepth, hl, hheight, hltop⟩ :=
    h.prefix_commit held hheld
  have hlc : s.Reaches (.layer l) (.commit c) :=
    hltop.trans (h.run_reach hc htop (hrun.trans htopRun.symm) (by omega)).reaches
  have hstack := h.reaches_stack (hnew.stack_eq (.inr ⟨source, hsource, rfl⟩)) hreach.reaches
  rw [← hheight]
  exact hnew.lt_of_reaches h hl hlc hstack

theorem NewLayer.reaches_commit :
    (s.withLayer record row heads segments frontiers).Reaches (.layer record.id) (.commit c) ↔
      (∃ p, record.parent = some p ∧ s.Reaches (.layer p) (.commit c)) ∨
        ∃ source, record.sourceCommit = some source ∧ s.Reaches (.commit source) (.commit c) := by
  refine (hnew.grown h).reach_new.trans ?_
  constructor
  · rintro (heq | ⟨n, ⟨p, hp, rfl⟩ | ⟨source, hsource, rfl⟩, hreach⟩)
    · cases heq
    · exact .inl ⟨p, hp, hreach⟩
    · exact .inr ⟨source, hsource, hreach⟩
  · rintro (⟨p, hp, hreach⟩ | ⟨source, hsource, hreach⟩)
    · exact .inr ⟨_, .inl ⟨p, hp, rfl⟩, hreach⟩
    · exact .inr ⟨_, .inr ⟨source, hsource, rfl⟩, hreach⟩

theorem NewLayer.absorbed_of_source (hsource : record.sourceCommit = some source)
    (hc : s.commitRow c = some crow) (hheight : row.height ≤ height)
    (hreach : s.Reaches (.commit source) (.commit c)) :
    s.PrefixAt crow.run crow.depth height ∨
      ∃ segment ∈ segments, segment.run = crow.run ∧ crow.depth ≤ segment.hi := by
  have hstack := hnew.stack_eq (.inr ⟨source, hsource, rfl⟩)
  rcases reaches_commit_iff.mp hreach with hlocal | ⟨l, hl, hlc⟩
  · by_cases hskip : s.Skipped none crow
    · obtain ⟨held, hheld, hrun, -, hle⟩ := (h.le_absorbedBelow_iff (h.depth_pos hc)).mp hskip
      have hlt := hnew.held_lt h hsource hheld hc hrun.symm hle hlocal
      exact .inl ⟨held, hheld, hrun, hle, by omega⟩
    · rcases (hnew.absorbs hsource).covers hc hlocal hskip with ⟨lo, done, heq, -⟩ | hsegment
      · cases heq
      · exact .inr hsegment
  · obtain ⟨other, hother, -⟩ := h.layerRow_stack (h.reaches_stack hstack hl)
    have hlt := hnew.lt_of_reaches h hother hlc (h.reaches_stack hstack hreach)
    exact .inl ((h.prefix_iff hc).mpr ⟨l, other, hother, by omega, hlc⟩)

theorem NewLayer.prefix_iff (hc : s.commitRow c = some crow) :
    (s.withLayer record row heads segments frontiers).PrefixAt crow.run crow.depth height ↔
      (s.withLayer record row heads segments frontiers).HeldAt c height := by
  have hgrown : GrownBy s.Edge (s.withLayer record row heads segments frontiers).Edge
      (.layer record.id) record.Target := hnew.grown h
  have hrowNew :
      (s.withLayer record row heads segments frontiers).layerRow record.id = some row := by
    rw [withLayer_layerRow, if_pos hnew.id_eq]
  constructor
  · rintro ⟨held, hheld, hrun, hle, hheight⟩
    rcases mem_withLayer_absorbed.mp hheld with ⟨segment, hmem, rfl⟩ | hheld
    · obtain ⟨source, hsource⟩ := hnew.exists_source hmem
      have hlocal := hnew.segment_reach h hsource hmem hc hrun.symm hle
      exact ⟨record.id, row, hrowNew, hheight,
        (hnew.reaches_commit h).mpr (.inr ⟨source, hsource, hlocal.reaches⟩)⟩
    · obtain ⟨l, other, hl, hother, hreach⟩ :=
        (h.prefix_iff hc).mp ⟨held, hheld, hrun, hle, hheight⟩
      have hne : row.layerId ≠ l := by
        rintro rfl
        rw [hnew.id_eq, hnew.free h] at hl
        cases hl
      exact ⟨l, other, by rw [withLayer_layerRow, if_neg hne, hl], hother, hgrown.mono hreach⟩
  · rintro ⟨l, other, hl, hother, hreach⟩
    have hkeep : s.PrefixAt crow.run crow.depth height →
        (s.withLayer record row heads segments frontiers).PrefixAt crow.run crow.depth height := by
      rintro ⟨held, hheld, hrest⟩
      exact ⟨held, mem_withLayer_absorbed.mpr (.inr hheld), hrest⟩
    rw [withLayer_layerRow, hnew.id_eq] at hl
    split_ifs at hl with heq
    · subst heq
      cases hl
      rcases (hnew.reaches_commit h).mp hreach with ⟨p, hp, hreach⟩ | ⟨source, hsource, hreach⟩
      · obtain ⟨below, hbelow, hheight⟩ := hnew.next hp
        exact hkeep ((h.prefix_iff hc).mpr ⟨p, below, hbelow, by omega, hreach⟩)
      · rcases hnew.absorbed_of_source h hsource hc hother hreach with
          hprefix | ⟨segment, hmem, hrun, hle⟩
        · exact hkeep hprefix
        · exact ⟨segment.absorbedAt row.height, mem_withLayer_absorbed.mpr
            (.inl ⟨segment, hmem, rfl⟩), hrun, hle, hother⟩
    · have hne : NodeId.layer l ≠ .layer record.id := fun h => heq (NodeId.layer.inj h).symm
      exact hkeep ((h.prefix_iff hc).mpr ⟨l, other, hl, hother, (hgrown.reach_old hne).mp hreach⟩)

theorem NewLayer.prefix_mono {a b : Absorbed κ}
    (ha : a ∈ (s.withLayer record row heads segments frontiers).absorbed)
    (hb : b ∈ (s.withLayer record row heads segments frontiers).absorbed) (hrun : a.run = b.run)
    (hle : a.depth ≤ b.depth) : a.height ≤ b.height := by
  rcases mem_withLayer_absorbed.mp ha with ⟨sa, hsa, rfl⟩ | ha
  · rcases mem_withLayer_absorbed.mp hb with ⟨sb, hsb, rfl⟩ | hb
    · exact le_rfl
    · -- a segment starts above every older prefix of its run
      obtain ⟨source, hsource⟩ := hnew.exists_source hsa
      have hlo := (hnew.absorbs hsource).lo_eq sa hsa
      have hlt := (hnew.absorbs hsource).lo_lt sa hsa
      have habsorbed : sa.hi ≤ s.absorbedBelow sa.run none :=
        (h.le_absorbedBelow_iff (by omega)).mpr ⟨b, hb, hrun.symm, under_none, hle⟩
      omega
  · rcases mem_withLayer_absorbed.mp hb with ⟨sb, hsb, rfl⟩ | hb
    · obtain ⟨source, hsource⟩ := hnew.exists_source hsb
      obtain ⟨c, crow, -, -, hc, hcrun, hdepth, -⟩ := h.prefix_commit a ha
      have hlocal := hnew.segment_reach h hsource hsb hc (hcrun.trans hrun)
        (by rw [hdepth]; exact hle)
      exact (hnew.held_lt h hsource ha hc hcrun hdepth.le hlocal).le
    · exact h.prefix_mono a ha b hb hrun hle

/-- **A published Layer keeps consistency.** -/
theorem Consistent.grow_layer : (s.withLayer record row heads segments frontiers).Consistent := by
  have hgrown : GrownBy s.Edge (s.withLayer record row heads segments frontiers).Edge
      (.layer record.id) record.Target := hnew.grown h
  have hfree := hnew.free h
  have hrowNew :
      (s.withLayer record row heads segments frontiers).layerRow record.id = some row := by
    rw [withLayer_layerRow, if_pos hnew.id_eq]
  have hrowOld : ∀ {l r}, s.layerRow l = some r →
      (s.withLayer record row heads segments frontiers).layerRow l = some r := by
    intro l r hl
    rw [withLayer_layerRow, if_neg, hl]
    rintro rfl
    rw [hnew.id_eq, hfree] at hl
    cases hl
  have hrowCases : ∀ {l r},
      (s.withLayer record row heads segments frontiers).layerRow l = some r →
      l = record.id ∧ r = row ∨ s.layerRow l = some r ∧ l ≠ record.id := by
    intro l r hl
    rw [withLayer_layerRow, hnew.id_eq] at hl
    split_ifs at hl with heq
    · exact .inl ⟨heq.symm, (Option.some.inj hl).symm⟩
    · exact .inr ⟨hl, fun h => heq h.symm⟩
  have hlayerCases : ∀ {l r}, (s.withLayer record row heads segments frontiers).layer l = some r →
      l = record.id ∧ r = record ∨ s.layer l = some r ∧ l ≠ record.id := by
    intro l r hl
    rw [withLayer_layer] at hl
    split_ifs at hl with heq
    · exact .inl ⟨heq.symm, (Option.some.inj hl).symm⟩
    · exact .inr ⟨hl, fun h => heq h.symm⟩
  constructor
  case commit_row => exact h.commit_row
  case row_commit => exact h.row_commit
  case row_mem => exact h.row_mem
  case layer_row =>
    intro l r hl
    rcases hlayerCases hl with ⟨rfl, rfl⟩ | ⟨hl, -⟩
    · exact ⟨row, hrowNew, hnew.row_stack⟩
    · obtain ⟨found, hfound, hstack⟩ := h.layer_row hl
      exact ⟨found, hrowOld hfound, hstack⟩
  case row_layer =>
    intro l r hl
    rcases hrowCases hl with ⟨rfl, -⟩ | ⟨hl, hne⟩
    · exact ⟨record, by rw [withLayer_layer, if_pos rfl]⟩
    · obtain ⟨found, hfound⟩ := h.row_layer hl
      exact ⟨found, by rw [withLayer_layer, if_neg hne.symm, hfound]⟩
  case layerRow_mem =>
    intro r hr
    rcases mem_cons.mp hr with rfl | hr
    · rw [hnew.id_eq]
      exact hrowNew
    · exact hrowOld (h.layerRow_mem r hr)
  case edge_stack =>
    intro a b hedge
    rcases (hgrown.edge_iff a b).mp hedge with hedge | ⟨rfl, htarget⟩
    · obtain ⟨stack, ha, hb⟩ := h.edge_stack hedge
      refine ⟨stack, ?_, ?_⟩
      · rw [withLayer_stackOf (hnew.ne_of_stack ha), ha]
      · rw [withLayer_stackOf (hnew.ne_of_stack hb), hb]
    · have hb := hnew.stack_eq htarget
      refine ⟨record.stack, by simp [stackOf, withLayer_layer], ?_⟩
      rw [withLayer_stackOf (hnew.ne_of_stack hb), hb]
  case acyclic => exact hgrown.acyclic h.acyclic
  case height_eq =>
    intro l r lrow hl hrow
    rcases hlayerCases hl with ⟨rfl, rfl⟩ | ⟨hl, hne⟩
    · rw [hrowNew] at hrow
      cases hrow
      refine ⟨hnew.first, fun p hp => ?_⟩
      obtain ⟨below, hbelow, hheight⟩ := hnew.next hp
      exact ⟨below, hrowOld hbelow, hheight⟩
    · rcases hrowCases hrow with ⟨heq, -⟩ | ⟨hrow, -⟩
      · exact absurd heq hne
      · obtain ⟨hfirst, hnext⟩ := h.height_eq hl hrow
        refine ⟨hfirst, fun p hp => ?_⟩
        obtain ⟨below, hbelow, hheight⟩ := hnext p hp
        exact ⟨below, hrowOld hbelow, hheight⟩
  case source_newest =>
    intro l r lrow c hl hrow hc
    rcases hlayerCases hl with ⟨rfl, rfl⟩ | ⟨hl, hne⟩
    · rw [hrowNew] at hrow
      cases hrow
      have hstack := hnew.stack_eq (.inr ⟨c, hc, rfl⟩)
      obtain ⟨source, hsource⟩ := h.exists_commitRow hstack
      obtain ⟨top, topRow, htop, hheight, hreach⟩ := h.newest_reached hsource
      have htopStack := h.reaches_stack hstack hreach
      have hlt := hnew.above htop (Option.some.inj ((h.stackOf_layer htop).symm.trans htopStack))
      exact ⟨source, hsource, by omega⟩
    · rcases hrowCases hrow with ⟨heq, -⟩ | ⟨hrow, -⟩
      · exact absurd heq hne
      · exact h.source_newest hl hrow hc
  case height_unique =>
    intro l l' r r' hl hl' hstack hheight
    rcases hrowCases hl with ⟨rfl, hr⟩ | ⟨hbefore, -⟩
    · subst hr
      rcases hrowCases hl' with ⟨rfl, -⟩ | ⟨hbefore', -⟩
      · rfl
      · have := hnew.above hbefore' (hstack.symm.trans hnew.row_stack)
        omega
    · rcases hrowCases hl' with ⟨rfl, hr⟩ | ⟨hbefore', -⟩
      · subst hr
        have := hnew.above hbefore (hstack.trans hnew.row_stack)
        omega
      · exact h.height_unique hbefore hbefore' hstack hheight
  case head_top =>
    intro id stack hid
    rcases hnew.heads_of hid with ⟨rfl, hhead⟩ | ⟨hne, hid⟩
    · refine ⟨row, by rw [hhead, hrowNew], hnew.row_stack, fun l other hl hstack => ?_⟩
      rcases hrowCases hl with ⟨-, rfl⟩ | ⟨hl, -⟩
      · exact le_rfl
      · exact (hnew.above hl hstack).le
    · obtain ⟨top, htop, htopStack, hbound⟩ := h.head_top hid
      refine ⟨top, hrowOld htop, htopStack, fun l other hl hstack => ?_⟩
      rcases hrowCases hl with ⟨-, rfl⟩ | ⟨hl, -⟩
      · exact absurd (hstack.symm.trans hnew.row_stack) hne
      · exact hbound l other hl hstack
  case layer_stack =>
    intro l r hl
    rcases hlayerCases hl with ⟨-, rfl⟩ | ⟨hl, -⟩
    · exact hnew.heads_to (.inl rfl)
    · exact hnew.heads_to (.inr (h.layer_stack hl))
  case newest_reached =>
    intro c r hc
    obtain ⟨l, top, htop, hheight, hreach⟩ := h.newest_reached hc
    exact ⟨l, top, hrowOld htop, hheight, hgrown.mono hreach⟩
  case newest_top =>
    intro c r l other hc hl hreach
    obtain ⟨hold, hne⟩ := hgrown.ne_of_reach (by simp) hreach
    rcases hrowCases hl with ⟨rfl, -⟩ | ⟨hl, -⟩
    · exact absurd rfl hne
    · exact h.newest_top hc hl hold
  case run_first => exact h.run_first
  case run_next => exact h.run_next
  case run_start => exact h.run_start
  case place_unique => exact h.place_unique
  case merged_iff => exact h.merged_iff
  case prefix_commit =>
    intro held hheld
    rcases mem_withLayer_absorbed.mp hheld with ⟨segment, hmem, rfl⟩ | hheld
    · obtain ⟨source, hsource⟩ := hnew.exists_source hmem
      obtain ⟨c, crow, hc, hrun, hdepth, hreach⟩ := (hnew.absorbs hsource).top segment hmem
      exact ⟨c, crow, record.id, row, hc, hrun, hdepth, hrowNew, rfl,
        (hnew.reaches_commit h).mpr (.inr ⟨source, hsource, hreach.reaches⟩)⟩
    · obtain ⟨c, crow, l, layer, hc, hrun, hdepth, hl, hheight, hreach⟩ :=
        h.prefix_commit held hheld
      exact ⟨c, crow, l, layer, hc, hrun, hdepth, hrowOld hl, hheight, hgrown.mono hreach⟩
  case prefix_mono => exact fun a ha b hb hrun hle => hnew.prefix_mono h ha hb hrun hle
  case prefix_iff => exact fun hc => hnew.prefix_iff h hc

end Layer

/-! ## Branches and frontiers -/

theorem edge_rebranch {branches : List (BranchRecord κ)} :
    ({ s with branches := branches } : Catalog κ ρ).Edge = s.Edge := by
  funext a b
  apply propext
  constructor
  · intro hedge
    cases hedge with
    | parent hc hp => exact .parent hc hp
    | base hc hp => exact .base hc hp
    | second hc hn => exact .second hc hn
    | previous hl hp => exact .previous hl hp
    | source hl hc => exact .source hl hc
  · intro hedge
    cases hedge with
    | parent hc hp => exact .parent hc hp
    | base hc hp => exact .base hc hp
    | second hc hn => exact .second hc hn
    | previous hl hp => exact .previous hl hp
    | source hl hc => exact .source hl hc

theorem Consistent.rebranch (h : s.Consistent) (branches : List (BranchRecord κ)) :
    ({ s with branches := branches } : Catalog κ ρ).Consistent := by
  have hreach : ∀ a b, ({ s with branches := branches } : Catalog κ ρ).Reaches a b ↔
      s.Reaches a b := fun a b => by rw [Reaches, edge_rebranch, Reaches]
  constructor
  case commit_row => exact h.commit_row
  case row_commit => exact h.row_commit
  case row_mem => exact h.row_mem
  case layer_row => exact h.layer_row
  case row_layer => exact h.row_layer
  case layerRow_mem => exact h.layerRow_mem
  case edge_stack =>
    intro a b hedge
    rw [edge_rebranch] at hedge
    obtain ⟨stack, ha, hb⟩ := h.edge_stack hedge
    exact ⟨stack, by cases a <;> exact ha, by cases b <;> exact hb⟩
  case acyclic =>
    rw [edge_rebranch]
    exact h.acyclic
  case height_eq => exact h.height_eq
  case source_newest => exact h.source_newest
  case height_unique => exact h.height_unique
  case head_top => exact h.head_top
  case layer_stack => exact h.layer_stack
  case newest_reached =>
    intro c row hc
    obtain ⟨l, newest, hl, hheight, hlc⟩ := h.newest_reached hc
    exact ⟨l, newest, hl, hheight, (hreach _ _).mpr hlc⟩
  case newest_top => exact fun hc hl hlc => h.newest_top hc hl ((hreach _ _).mp hlc)
  case run_first => exact h.run_first
  case run_next => exact h.run_next
  case run_start => exact h.run_start
  case place_unique => exact h.place_unique
  case merged_iff => exact h.merged_iff
  case prefix_commit =>
    intro held hheld
    obtain ⟨c, row, l, layer, hc, hrun, hdepth, hl, hheight, hlc⟩ := h.prefix_commit held hheld
    exact ⟨c, row, l, layer, hc, hrun, hdepth, hl, hheight, (hreach _ _).mpr hlc⟩
  case prefix_mono => exact h.prefix_mono
  case prefix_iff =>
    intro c row height hc
    refine (h.prefix_iff hc).trans ?_
    constructor
    · rintro ⟨l, lrow, hl, hle, hlc⟩
      exact ⟨l, lrow, hl, hle, (hreach _ _).mpr hlc⟩
    · rintro ⟨l, lrow, hl, hle, hlc⟩
      exact ⟨l, lrow, hl, hle, (hreach _ _).mp hlc⟩

theorem consistent_empty : (Catalog.empty : Catalog κ ρ).Consistent := by
  have hno : ∀ a b, ¬(Catalog.empty : Catalog κ ρ).Edge a b := by
    intro a b hedge
    cases hedge with
    | parent hc hp => cases hc
    | base hc hp => cases hc
    | second hc hn => cases hc
    | previous hl hp => cases hl
    | source hl hc => cases hl
  constructor
  case edge_stack => exact fun hedge => absurd hedge (hno _ _)
  case acyclic =>
    intro a hcycle
    obtain ⟨c, hac, -⟩ := Relation.TransGen.head'_iff.mp hcycle
    exact hno a c hac
  case row_mem => exact fun row hrow => absurd hrow not_mem_nil
  case layerRow_mem => exact fun row hrow => absurd hrow not_mem_nil
  case prefix_commit => exact fun held hheld => absurd hheld not_mem_nil
  case prefix_mono => exact fun a ha => absurd ha not_mem_nil
  -- the other fields start from a row the catalog finds
  all_goals
    intros
    contradiction

end Catalog

end LayerFs.History
