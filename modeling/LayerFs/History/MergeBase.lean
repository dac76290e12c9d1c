import LayerFs.History.Ancestry
import Mathlib.Data.Finset.Card

/-!
# The merge base

The newest common ancestor of two nodes (`merge_base`,
`layerfs-persistence/src/history/ancestry.rs`). Let `F` be the older of the two sides' newest Layers:
the common ancestry is that of `F` plus the local Commits of its side, not absorbed by `F`, that the
other side contains; within one run those form a range, so only its top can be maximal.

* `mergeBase_best` — **the answer in every reachable catalog**: the best ranked maximal common
  ancestor, whichever side comes first and whatever the order.
-/

namespace LayerFs.History

open List

variable {depth height : ℕ}

/-! ## Ranks -/

section Rank

variable {κ : Type} [LinearOrder κ]

/-- The order of the encoded identities: the tag byte of a Commit is below that of a Layer. -/
def NodeId.before : NodeId κ → NodeId κ → Bool
  | .commit a, .commit b => a < b
  | .commit _, .layer _ => true
  | .layer _, .commit _ => false
  | .layer a, .layer b => a < b

/-- What orders maximal common ancestors: newest Layer, then deepest first parent, then smallest
identity. -/
structure Rank (κ : Type) where
  newest : ℕ
  depth : ℕ
  node : NodeId κ

def Rank.lt (a b : Rank κ) : Bool :=
  a.newest < b.newest ||
    (a.newest = b.newest &&
      (a.depth < b.depth || (a.depth = b.depth && b.node.before a.node)))

theorem NodeId.before_irrefl {a : NodeId κ} : a.before a = false := by
  cases a <;> simp [before]

theorem NodeId.before_trans {a b c : NodeId κ} (hab : a.before b = true) (hbc : b.before c = true) :
    a.before c = true := by
  cases a <;> cases b <;> cases c <;> simp_all [before]
  · exact hab.trans hbc
  · exact hab.trans hbc

theorem NodeId.before_total {a b : NodeId κ} (hab : a.before b = false) :
    b.before a = true ∨ b = a := by
  cases a with
  | commit a =>
    cases b with
    | commit b => simpa [before, le_iff_lt_or_eq] using hab
    | layer b => simp [before] at hab
  | layer a =>
    cases b with
    | commit b => exact .inl rfl
    | layer b => simpa [before, le_iff_lt_or_eq] using hab

variable {a b : Rank κ}

theorem Rank.lt_iff : a.lt b = true ↔ a.newest < b.newest ∨
    a.newest = b.newest ∧ (a.depth < b.depth ∨ a.depth = b.depth ∧ b.node.before a.node) := by
  simp [Rank.lt]

theorem Rank.lt_irrefl : ¬a.lt a = true := by
  rw [Rank.lt_iff]
  simp [NodeId.before_irrefl]

variable {c : Rank κ}

theorem Rank.lt_trans (hab : a.lt b = true) (hbc : b.lt c = true) : a.lt c = true := by
  rw [Rank.lt_iff] at hab hbc ⊢
  rcases hab with hab | ⟨hab, hab' | ⟨hab', hnode⟩⟩
  · rcases hbc with hbc | ⟨hbc, -⟩ <;> exact .inl (by omega)
  · rcases hbc with hbc | ⟨hbc, hbc' | ⟨hbc', -⟩⟩
    · exact .inl (by omega)
    · exact .inr ⟨by omega, .inl (by omega)⟩
    · exact .inr ⟨by omega, .inl (by omega)⟩
  · rcases hbc with hbc | ⟨hbc, hbc' | ⟨hbc', hnode'⟩⟩
    · exact .inl (by omega)
    · exact .inr ⟨by omega, .inl (by omega)⟩
    · exact .inr ⟨by omega, .inr ⟨by omega, NodeId.before_trans hnode' hnode⟩⟩

theorem Rank.lt_total (hab : a.lt b = false) : b.lt a = true ∨ b = a := by
  have hnot : ¬a.lt b = true := by simp [hab]
  rw [Rank.lt_iff] at hnot
  rw [Rank.lt_iff]
  rcases Nat.lt_trichotomy b.newest a.newest with hlt | heq | hgt
  · exact .inl (.inl hlt)
  · rcases Nat.lt_trichotomy b.depth a.depth with hlt | hdepth | hgt
    · exact .inl (.inr ⟨heq, .inl hlt⟩)
    · have hnode : b.node.before a.node = false := by
        by_contra hne
        exact hnot (.inr ⟨heq.symm, .inr ⟨hdepth.symm, by simpa using hne⟩⟩)
      rcases NodeId.before_total hnode with hbefore | hsame
      · exact .inl (.inr ⟨heq, .inr ⟨hdepth, hbefore⟩⟩)
      · obtain ⟨an, ad, ax⟩ := a
        obtain ⟨bn, bd, bx⟩ := b
        simp_all
    · exact absurd (.inr ⟨heq.symm, .inl hgt⟩) hnot
  · exact absurd (.inl hgt) hnot

theorem Rank.le_trans (hab : a = b ∨ a.lt b = true) (hbc : b = c ∨ b.lt c = true) :
    a = c ∨ a.lt c = true := by
  rcases hab with rfl | hab
  · exact hbc
  · rcases hbc with rfl | hbc
    · exact .inr hab
    · exact .inr (Rank.lt_trans hab hbc)

end Rank

/-! ## The computation -/

def lastPerRun {κ : Type} [DecidableEq κ] : List (Segment κ) → List (Segment κ)
  | [] => []
  | segment :: rest =>
    if rest.any fun later => later.run = segment.run then lastPerRun rest
    else segment :: lastPerRun rest

namespace Catalog

section Computation

variable {κ ρ : Type} [DecidableEq κ] (s : Catalog κ ρ)

/-- `segments`: each run's deepest explored segment of the start's local Commits not absorbed below
a height. -/
def segments (start : Line κ) (below : Height) : HistoryResult κ (List (Segment κ)) :=
  match start with
  | .layer _ _ => .ok []
  | .commit line => do
    let explored ← s.explore line below
    return lastPerRun explored

def sharedTop (otherNewest : ℕ) (theirs : List (Segment κ)) (segment : Segment κ) : Option κ :=
  let held := max (s.absorbedBelow segment.run (some (otherNewest + 1)))
    (((theirs.find? fun their => their.run = segment.run).map Segment.hi).getD 0)
  let top := min segment.hi held
  if segment.lo < top then s.commitAt segment.run top else none

/-- `F` and the tops, with their lines. -/
def candidates (order : List (Segment κ) → List (Segment κ)) (stack : κ) (small other : Line κ) :
    HistoryResult κ (List (NodeId κ × Line κ)) := do
  let theirs ← s.segments other (some (other.newest + 1))
  let floor ← s.layerAt stack small.newest
  let mine ← s.segments small (some (small.newest + 1))
  let tops := (order mine).filterMap (s.sharedTop other.newest theirs)
  (NodeId.layer floor :: tops.map NodeId.commit).mapM fun node => do
    let line ← s.readLine node
    return (node, line)

def dominated (entries : List (NodeId κ × Line κ)) (entry : NodeId κ × Line κ) (index : ℕ) :
    HistoryResult κ Bool :=
  entries.zipIdx.anyM fun other =>
    if other.2 = index then return false else s.contains entry.2 other.1.2

end Computation

section Order

variable {κ ρ : Type} [LinearOrder κ] (s : Catalog κ ρ)

/-- The loop over the candidates: the best ranked of those no other contains. -/
def pickBest (entries : List (NodeId κ × Line κ)) :
    List ((NodeId κ × Line κ) × ℕ) → Option (Rank κ) → HistoryResult κ (Option (Rank κ))
  | [], best => .ok best
  | entry :: rest, best => do
    let skip ← s.dominated entries entry.1 entry.2
    let rank : Rank κ := ⟨entry.1.2.newest, entry.1.2.depth, entry.1.1⟩
    if skip then pickBest entries rest best
    else pickBest entries rest (if best.all fun held => held.lt rank then some rank else best)

/-- `merge_base`. -/
def mergeBase (order : List (Segment κ) → List (Segment κ)) (left right : NodeId κ) :
    HistoryResult κ (Option (NodeId κ)) :=
  if left = right then .ok (some left)
  else do
    let l ← s.readLine left
    let r ← s.readLine right
    if l.stack = r.stack then
      let entries ← if l.newest ≤ r.newest then s.candidates order l.stack l r
        else s.candidates order l.stack r l
      let best ← s.pickBest entries entries.zipIdx none
      return best.map Rank.node
    else return none

end Order

/-! ## What the answer means -/

section Meaning

variable {κ ρ : Type} [DecidableEq κ] (s : Catalog κ ρ)

def CommonAncestor (left right x : NodeId κ) : Prop := s.Reaches left x ∧ s.Reaches right x

def MaximalCommon (left right x : NodeId κ) : Prop :=
  s.CommonAncestor left right x ∧
    ∀ y, s.CommonAncestor left right y → s.Reaches y x → y = x

/-- First-parent depth: the Commits of the first-parent chain, none for a Layer. -/
inductive ParentDepth : NodeId κ → ℕ → Prop
  | layer {l : κ} : ParentDepth (.layer l) 0
  | first {c : κ} {record : CommitRecord κ ρ} (hc : s.commit c = some record)
      (hp : record.parent = none) : ParentDepth (.commit c) 1
  | next {c p : κ} {record : CommitRecord κ ρ} {depth : ℕ} (hc : s.commit c = some record)
      (hp : record.parent = some p) (h : ParentDepth (.commit p) depth) :
      ParentDepth (.commit c) (depth + 1)

/-- The rank of a node: the height of the newest Layer it reaches, its first-parent depth and its
identity. -/
structure Ranked (n : NodeId κ) (rank : Rank κ) : Prop where
  newest : s.IsNewest n rank.newest
  depth : s.ParentDepth n rank.depth
  node : rank.node = n

end Meaning

/-- **The best ranked maximal common ancestor.** -/
def BestCommon {κ ρ : Type} [LinearOrder κ] (s : Catalog κ ρ) (left right x : NodeId κ) : Prop :=
  s.MaximalCommon left right x ∧ ∃ rank, s.Ranked x rank ∧
    ∀ y, s.MaximalCommon left right y → y ≠ x → ∃ rank', s.Ranked y rank' ∧ rank'.lt rank = true

/-! ## Segments of a side -/

def LocalFrom {κ ρ : Type} [DecidableEq κ] (s : Catalog κ ρ) (n : NodeId κ) (c : κ) : Prop :=
  ∃ d, n = .commit d ∧ s.LocalReach d c

/-- What `segments` returns: a segment for each run with an unabsorbed local Commit, up to the
deepest one. -/
structure LocalSegments {κ ρ : Type} [DecidableEq κ] (s : Catalog κ ρ) (below : Height)
    (n : NodeId κ) (segments : List (Segment κ)) : Prop where
  distinct : segments.Pairwise fun a b => a.run ≠ b.run
  lo_eq : ∀ segment ∈ segments, segment.lo = s.absorbedBelow segment.run below
  top : ∀ segment ∈ segments, s.Occupied segment.run segment.hi (s.LocalFrom n)
  covers : ∀ {c row}, s.commitRow c = some row → s.LocalFrom n c → ¬s.Skipped below row →
    ∃ segment ∈ segments, segment.run = row.run ∧ row.depth ≤ segment.hi

section Segments

variable {κ ρ : Type} [DecidableEq κ] {s : Catalog κ ρ}
variable {row : CommitLineage κ} {l : List (Segment κ)} {segment : Segment κ} {c : κ}

theorem mem_of_mem_lastPerRun (h : segment ∈ lastPerRun l) : segment ∈ l := by
  induction l with
  | nil => exact h
  | cons first rest ih =>
    rw [lastPerRun] at h
    split_ifs at h with hany
    · exact mem_cons_of_mem _ (ih h)
    · rcases mem_cons.mp h with rfl | h
      · exact mem_cons_self
      · exact mem_cons_of_mem _ (ih h)

theorem lastPerRun_distinct : (lastPerRun l).Pairwise fun a b => a.run ≠ b.run := by
  induction l with
  | nil => exact .nil
  | cons first rest ih =>
    rw [lastPerRun]
    split_ifs with hany
    · exact ih
    · refine pairwise_cons.mpr ⟨fun later hlater hrun => hany ?_, ih⟩
      exact any_eq_true.mpr ⟨later, mem_of_mem_lastPerRun hlater, by simp [hrun]⟩

theorem exists_lastPerRun (hgrows : l.Pairwise fun a b => a.run = b.run → a.hi < b.hi)
    (hmem : segment ∈ l) :
    ∃ last ∈ lastPerRun l, last.run = segment.run ∧ segment.hi ≤ last.hi := by
  induction l generalizing segment with
  | nil => cases hmem
  | cons first rest ih =>
    obtain ⟨hfirst, hrest⟩ := pairwise_cons.mp hgrows
    rw [lastPerRun]
    split_ifs with hany
    · rcases mem_cons.mp hmem with rfl | hmem
      · obtain ⟨later, hlater, hrun⟩ := any_eq_true.mp hany
        have hrun' : later.run = segment.run := by simpa using hrun
        obtain ⟨last, hlast, hlastRun, hle⟩ := ih hrest hlater
        have hlt := hfirst later hlater hrun'.symm
        exact ⟨last, hlast, hlastRun.trans hrun', by omega⟩
      · exact ih hrest hmem
    · rcases mem_cons.mp hmem with rfl | hmem
      · exact ⟨segment, mem_cons_self, rfl, le_rfl⟩
      · obtain ⟨last, hlast, hrest⟩ := ih hrest hmem
        exact ⟨last, mem_cons_of_mem _ hlast, hrest⟩

/-- **What `segments` returns for a side.** -/
theorem Consistent.segments_spec (h : s.Consistent) {n : NodeId κ} {line : Line κ}
    (hn : s.Describes n line) (below : Height) :
    ∃ found, s.segments line below = .ok found ∧ s.LocalSegments below n found := by
  cases n with
  | layer l =>
    obtain ⟨row, -, rfl⟩ := hn.layer_eq
    refine ⟨[], rfl, .nil, by simp, by simp, ?_⟩
    rintro c row - ⟨d, hd, -⟩
    cases hd
  | commit d =>
    obtain ⟨row, record, hrow, -, rfl⟩ := hn.commit_eq
    obtain ⟨explored, hexplore, hexplored⟩ := @Consistent.explore_spec _ _ _ s d h row
      ⟨record.stack, row.run, row.depth, row.newest, record.parent⟩ hrow rfl rfl below
    refine ⟨lastPerRun explored, by rw [segments, hexplore]; rfl, lastPerRun_distinct,
      fun segment hmem => hexplored.lo_eq segment (mem_of_mem_lastPerRun hmem),
      fun segment hmem => ?_, ?_⟩
    · obtain ⟨c, crow, hc, hrun, hdepth, hreach⟩ :=
        hexplored.top segment (mem_of_mem_lastPerRun hmem)
      exact ⟨c, crow, hc, hrun, hdepth, d, rfl, hreach⟩
    · rintro c crow hc ⟨d', heq, hreach⟩ hskip
      cases heq
      rcases hexplored.covers hc hreach hskip with ⟨lo, done, heq, -⟩ |
        ⟨segment, hmem, hrun, hle⟩
      · cases heq
      · obtain ⟨last, hlast, hlastRun, hlastLe⟩ := exists_lastPerRun hexplored.grows hmem
        exact ⟨last, hlast, hlastRun.trans hrun, hle.trans hlastLe⟩

theorem LocalSegments.localFrom {below : Height} {n : NodeId κ} {found : List (Segment κ)}
    (hl : s.LocalSegments below n found) (h : s.Consistent) (hmem : segment ∈ found)
    (hc : s.commitRow c = some row) (hrun : row.run = segment.run) (hle : row.depth ≤ segment.hi) :
    s.LocalFrom n c := by
  obtain ⟨top, topRow, htop, htopRun, htopDepth, d, rfl, hreach⟩ := hl.top segment hmem
  exact ⟨d, rfl, hreach.trans (h.run_reach hc htop (hrun.trans htopRun.symm) (by omega))⟩

theorem LocalFrom.reaches {n : NodeId κ} (h : s.LocalFrom n c) : s.Reaches n (.commit c) := by
  obtain ⟨d, rfl, hreach⟩ := h
  exact hreach.reaches

theorem Consistent.skipped_iff (h : s.Consistent) (hc : s.commitRow c = some row) :
    s.Skipped (some (height + 1)) row ↔ s.HeldAt c height := by
  rw [Skipped, h.le_absorbedBelow_iff (h.depth_pos hc), ← h.prefix_iff hc]
  constructor
  · rintro ⟨held, hheld, hrun, hunder, hle⟩
    exact ⟨held, hheld, hrun, hle, Nat.le_of_lt_succ (under_some.mp hunder)⟩
  · rintro ⟨held, hheld, hrun, hle, hheight⟩
    exact ⟨held, hheld, hrun, under_some.mpr (Nat.lt_succ_of_le hheight), hle⟩

theorem Consistent.reaches_commit (h : s.Consistent) {n : NodeId κ} {stack : κ}
    (hn : s.stackOf n = some stack) (hc : s.stackOf (.commit c) = some stack)
    (hnewest : s.newestOf n = some height) :
    s.Reaches n (.commit c) ↔ s.HeldAt c height ∨ s.LocalFrom n c := by
  rw [h.heldAt_iff hn hc hnewest]
  constructor
  · intro hreach
    cases n with
    | layer l => exact .inl ⟨l, .refl, hreach⟩
    | commit d =>
      rcases reaches_commit_iff.mp hreach with hlocal | hlayer
      · exact .inr ⟨d, rfl, hlocal⟩
      · exact .inl hlayer
  · rintro (⟨l, hnl, hlc⟩ | hlocal)
    · exact hnl.trans hlc
    · exact hlocal.reaches

end Segments

/-! ## Candidates -/

section Candidates

variable {κ ρ : Type} [DecidableEq κ] {s : Catalog κ ρ} {n m : NodeId κ} {small other : Line κ}
variable {row : CommitLineage κ} {segment : Segment κ} {c run : κ}
  {mine theirs : List (Segment κ)}

theorem Consistent.commitAt_spec (h : s.Consistent) (hat : s.commitAt run depth = some c) :
    ∃ row, s.commitRow c = some row ∧ row.run = run ∧ row.depth = depth := by
  obtain ⟨row, hrow, rfl⟩ := Option.map_eq_some_iff.mp hat
  have hplace : row.run = run ∧ row.depth = depth := by simpa using find?_some hrow
  exact ⟨row, h.row_mem row (mem_of_find?_eq_some hrow), hplace.1, hplace.2⟩

theorem exists_commitAt {p : κ → Prop} (hplace : s.Occupied run depth p) :
    ∃ c, s.commitAt run depth = some c := by
  obtain ⟨c, row, hc, hrun, hdepth, -⟩ := hplace
  have hfound : (s.commitLineage.find? fun row => row.run = run ∧ row.depth = depth).isSome :=
    find?_isSome.mpr ⟨row, commitRow_mem hc, by simp [hrun, hdepth]⟩
  obtain ⟨found, hfound⟩ := Option.isSome_iff_exists.mp hfound
  exact ⟨found.commitId, by rw [commitAt, hfound]; rfl⟩

theorem Consistent.reaches_iff_held (h : s.Consistent) {stack : κ} (hm : s.Describes m other)
    (hstack : other.stack = stack) (htheirs : s.LocalSegments (some (other.newest + 1)) m theirs)
    (hc : s.commitRow c = some row) (hcs : s.stackOf (.commit c) = some stack) :
    s.Reaches m (.commit c) ↔ row.depth ≤ max (s.absorbedBelow row.run (some (other.newest + 1)))
      (((theirs.find? fun their => their.run = row.run).map Segment.hi).getD 0) := by
  rw [h.reaches_commit (hstack ▸ hm.stack) hcs hm.newest, ← h.skipped_iff hc]
  rw [le_max_iff]
  by_cases hskip : s.Skipped (some (other.newest + 1)) row
  · exact iff_of_true (.inl hskip) (.inl hskip)
  · rw [or_iff_right hskip, or_iff_right (show ¬row.depth ≤ _ from hskip)]
    constructor
    · intro hlocal
      obtain ⟨their, hmem, hrun, hle⟩ := htheirs.covers hc hlocal hskip
      have hsome : (theirs.find? fun their => their.run = row.run).isSome :=
        find?_isSome.mpr ⟨their, hmem, by simp [hrun]⟩
      obtain ⟨found, hfound⟩ := Option.isSome_iff_exists.mp hsome
      have hfoundRun : found.run = row.run := by simpa using find?_some hfound
      have heq : found = their := inj_on_of_nodup_map
        (pairwise_map.mpr htheirs.distinct) (mem_of_find?_eq_some hfound) hmem
        (hfoundRun.trans hrun.symm)
      rw [hfound, heq]
      exact hle
    · intro hle
      rcases hfound : theirs.find? fun their => their.run = row.run with _ | found
      · have := h.depth_pos hc
        rw [hfound] at hle
        simp only [Option.map_none, Option.getD_none] at hle
        omega
      · have hfoundRun : found.run = row.run := by simpa using find?_some hfound
        rw [hfound] at hle
        exact htheirs.localFrom h (mem_of_find?_eq_some hfound) hc hfoundRun.symm hle

theorem Consistent.sharedTop_spec (h : s.Consistent) {stack : κ} (hn : s.stackOf n = some stack)
    (hm : s.Describes m other) (hstack : other.stack = stack)
    (hmine : s.LocalSegments (some (small.newest + 1)) n mine)
    (htheirs : s.LocalSegments (some (other.newest + 1)) m theirs) (hmem : segment ∈ mine)
    (htop : s.sharedTop other.newest theirs segment = some c) :
    ∃ row, s.commitRow c = some row ∧ row.run = segment.run ∧
      s.CommonAncestor n m (.commit c) := by
  simp only [sharedTop] at htop
  split_ifs at htop with hlt
  obtain ⟨row, hc, hrun, hdepth⟩ := h.commitAt_spec htop
  have hlocal := hmine.localFrom h hmem hc hrun (by omega)
  refine ⟨row, hc, hrun, hlocal.reaches, ?_⟩
  refine (h.reaches_iff_held hm hstack htheirs hc (h.reaches_stack hn hlocal.reaches)).mpr ?_
  rw [hrun, hdepth]
  exact min_le_right _ _

theorem Consistent.sharedTop_cover (h : s.Consistent) {stack : κ} (hm : s.Describes m other)
    (hstack : other.stack = stack) (hmine : s.LocalSegments (some (small.newest + 1)) n mine)
    (htheirs : s.LocalSegments (some (other.newest + 1)) m theirs) (hmem : segment ∈ mine)
    (hc : s.commitRow c = some row) (hcs : s.stackOf (.commit c) = some stack)
    (hrun : segment.run = row.run) (hskip : ¬s.Skipped (some (small.newest + 1)) row)
    (hle : row.depth ≤ segment.hi) (hreach : s.Reaches m (.commit c)) :
    ∃ t, s.sharedTop other.newest theirs segment = some t ∧ s.Reaches (.commit t) (.commit c) := by
  have hheld := (h.reaches_iff_held hm hstack htheirs hc hcs).mp hreach
  rw [← hrun] at hheld
  obtain ⟨top, topRow, htop, htopRun, htopDepth, -⟩ := hmine.top segment hmem
  have hlow : segment.lo < row.depth := by
    rw [hmine.lo_eq segment hmem, hrun]
    exact not_le.mp hskip
  generalize hheldEq : max (s.absorbedBelow segment.run (some (other.newest + 1)))
    (((theirs.find? fun their => their.run = segment.run).map Segment.hi).getD 0) = held at hheld
  have hplace : s.Occupied row.run (min segment.hi held) fun _ => True :=
    h.occupied_between hc htop (hrun.symm.trans htopRun.symm) (by omega) (by omega)
  obtain ⟨t, ht⟩ := exists_commitAt hplace
  obtain ⟨trow, htrow, htrun, htdepth⟩ := h.commitAt_spec ht
  refine ⟨t, ?_, (h.run_reach hc htrow htrun.symm (by omega)).reaches⟩
  simp only [sharedTop, hheldEq]
  rw [if_pos (by omega), hrun]
  exact ht

/-- **The older side's newest Layer and the shared tops are common, and every common ancestor lies
below one of them.** -/
theorem Consistent.candidates_cover (h : s.Consistent) {stack f : κ} {floor : LayerLineage κ}
    (hn : s.Describes n small) (hm : s.Describes m other) (hns : small.stack = stack)
    (hms : other.stack = stack) (hnewest : small.newest ≤ other.newest)
    (hfloor : s.layerRow f = some floor) (hfs : floor.stack = stack)
    (hheight : floor.height = small.newest)
    (hmine : s.LocalSegments (some (small.newest + 1)) n mine)
    (htheirs : s.LocalSegments (some (other.newest + 1)) m theirs) :
    s.CommonAncestor n m (.layer f) ∧
      ∀ x, s.CommonAncestor n m x → s.Reaches (.layer f) x ∨
        ∃ segment ∈ mine, ∃ t, s.sharedTop other.newest theirs segment = some t ∧
          s.Reaches (.commit t) x := by
  have hnStack : s.stackOf n = some floor.stack := by rw [hfs, ← hns, hn.stack]
  have hmStack : s.stackOf m = some floor.stack := by rw [hfs, ← hms, hm.stack]
  refine ⟨⟨(h.reaches_layer_iff hnStack hn.newest hfloor).mpr hheight.le,
    (h.reaches_layer_iff hmStack hm.newest hfloor).mpr (hheight ▸ hnewest)⟩, ?_⟩
  rintro x ⟨hnx, hmx⟩
  have hxStack := h.reaches_stack hnStack hnx
  have hfStack := h.stackOf_layer hfloor
  have hfNewest : s.newestOf (.layer f) = some small.newest := by
    simp [newestOf, hfloor, hheight]
  cases x with
  | layer l =>
    obtain ⟨row, hrow, hlstack⟩ := h.layerRow_stack hxStack
    have hle := (h.reaches_layer_iff (hlstack ▸ hnStack) hn.newest hrow).mp hnx
    exact .inl ((h.reaches_layer_iff (hlstack ▸ hfStack) hfNewest hrow).mpr hle)
  | commit c =>
    obtain ⟨row, hrow⟩ := h.exists_commitRow hxStack
    by_cases hskip : s.Skipped (some (small.newest + 1)) row
    · have hheld := (h.skipped_iff hrow).mp hskip
      exact .inl ((h.reaches_commit hfStack hxStack hfNewest).mpr (.inl hheld))
    · rcases (h.reaches_commit hnStack hxStack hn.newest).mp hnx with hheld | hlocal
      · exact absurd ((h.skipped_iff hrow).mpr hheld) hskip
      · obtain ⟨segment, hmem, hrun, hle⟩ := hmine.covers hrow hlocal hskip
        obtain ⟨t, ht, hreach⟩ := h.sharedTop_cover hm hms hmine htheirs hmem hrow
          (hfs ▸ hxStack) hrun hskip hle hmx
        exact .inr ⟨segment, hmem, t, ht, hreach⟩

theorem Consistent.layerAt_spec (h : s.Consistent) {stack : κ} (hn : s.stackOf n = some stack)
    (hnewest : s.newestOf n = some height) :
    ∃ f row, s.layerAt stack height = .ok f ∧ s.layerRow f = some row ∧ row.stack = stack ∧
      row.height = height := by
  obtain ⟨l, lrow, hl, hheight, hreach⟩ := h.reaches_newest hnewest
  have hstack : lrow.stack = stack :=
    Option.some.inj ((h.stackOf_layer hl).symm.trans (h.reaches_stack hn hreach))
  have hsome : (s.layerLineage.find? fun row => row.stack = stack ∧ row.height = height).isSome :=
    find?_isSome.mpr ⟨lrow, mem_of_find?_eq_some hl, by simp [hstack, hheight]⟩
  obtain ⟨row, hrow⟩ := Option.isSome_iff_exists.mp hsome
  have hplace : row.stack = stack ∧ row.height = height := by simpa using find?_some hrow
  exact ⟨row.layerId, row, by rw [layerAt, hrow]; rfl,
    h.layerRow_mem row (mem_of_find?_eq_some hrow), hplace.1, hplace.2⟩

theorem Consistent.mapM_readLine (h : s.Consistent) {stack : κ} :
    ∀ {nodes : List (NodeId κ)}, (∀ x ∈ nodes, s.stackOf x = some stack) →
      ∃ entries, (nodes.mapM fun node => do
          let line ← s.readLine node
          return (node, line)) = .ok entries ∧
        entries.map Prod.fst = nodes ∧
        ∀ entry ∈ entries, s.Describes entry.1 entry.2 ∧ entry.2.stack = stack
  | [], _ => ⟨[], rfl, rfl, by simp⟩
  | x :: nodes, hnodes => by
    obtain ⟨line, hline, hstack⟩ := h.readLine_spec (hnodes x mem_cons_self)
    obtain ⟨entries, hentries, hmap, hdescribes⟩ :=
      h.mapM_readLine fun y hy => hnodes y (mem_cons_of_mem x hy)
    refine ⟨(x, line) :: entries, ?_, by rw [map_cons, hmap], ?_⟩
    · rw [mapM_cons, hline.read, hentries]
      rfl
    · exact forall_mem_cons.mpr ⟨⟨hline, hstack⟩, hdescribes⟩

/-- What `merge_base` chooses from: distinct common ancestors that every other lies below. -/
structure Covering (s : Catalog κ ρ) (n m : NodeId κ) (stack : κ)
    (entries : List (NodeId κ × Line κ)) : Prop where
  nonempty : entries ≠ []
  nodup : (entries.map Prod.fst).Nodup
  describes : ∀ entry ∈ entries, s.Describes entry.1 entry.2 ∧ entry.2.stack = stack
  common : ∀ entry ∈ entries, s.CommonAncestor n m entry.1
  covers : ∀ x, s.CommonAncestor n m x → ∃ entry ∈ entries, s.Reaches entry.1 x

theorem Consistent.candidates_spec (h : s.Consistent) {stack : κ}
    {order : List (Segment κ) → List (Segment κ)} (horder : ∀ l, (order l).Perm l)
    (hn : s.Describes n small) (hm : s.Describes m other) (hns : small.stack = stack)
    (hms : other.stack = stack) (hnewest : small.newest ≤ other.newest) :
    ∃ entries, s.candidates order stack small other = .ok entries ∧
      s.Covering n m stack entries := by
  have hnStack : s.stackOf n = some stack := hns ▸ hn.stack
  obtain ⟨theirs, htheirsEq, htheirs⟩ := h.segments_spec hm (some (other.newest + 1))
  obtain ⟨mine, hmineEq, hmine⟩ := h.segments_spec hn (some (small.newest + 1))
  obtain ⟨f, floor, hlayerAt, hfloor, hfs, hheight⟩ := h.layerAt_spec hnStack hn.newest
  obtain ⟨hfCommon, hcover⟩ :=
    h.candidates_cover hn hm hns hms hnewest hfloor hfs hheight hmine htheirs
  have htops : ∀ {t}, t ∈ (order mine).filterMap (s.sharedTop other.newest theirs) ↔
      ∃ segment ∈ mine, s.sharedTop other.newest theirs segment = some t := by
    intro t
    simp only [mem_filterMap, (horder mine).mem_iff]
  have hcommon : ∀ x ∈ NodeId.layer f ::
      ((order mine).filterMap (s.sharedTop other.newest theirs)).map NodeId.commit,
      s.CommonAncestor n m x := by
    intro x hx
    rcases mem_cons.mp hx with rfl | hx
    · exact hfCommon
    · obtain ⟨t, ht, rfl⟩ := mem_map.mp hx
      obtain ⟨segment, hmem, htop⟩ := htops.mp ht
      obtain ⟨row, -, -, hca⟩ := h.sharedTop_spec hnStack hm hms hmine htheirs hmem htop
      exact hca
  obtain ⟨entries, hentries, hmap, hdescribes⟩ :=
    @Consistent.mapM_readLine _ _ _ s h stack _ fun x hx => h.reaches_stack hnStack (hcommon x hx).1
  have hin : ∀ {x}, x ∈ NodeId.layer f ::
      ((order mine).filterMap (s.sharedTop other.newest theirs)).map NodeId.commit →
      ∃ entry ∈ entries, entry.1 = x := by
    intro x hx
    rw [← hmap] at hx
    simpa using hx
  refine ⟨entries, ?_, ?_, ?_, hdescribes, fun entry hentry => ?_, fun x hx => ?_⟩
  · simp only [candidates, htheirsEq, hlayerAt, hmineEq, bind, Except.bind]
    exact hentries
  · rintro rfl
    cases hmap
  · rw [hmap, nodup_cons]
    refine ⟨by simp, ?_⟩
    refine List.Nodup.map (fun a b heq => NodeId.commit.inj heq) ?_
    -- tops of distinct runs are distinct
    refine List.Pairwise.filterMap _ ?_ (R := fun a b => a ∈ mine ∧ b ∈ mine ∧ a.run ≠ b.run) ?_
    · rintro a b ⟨ha, hb, hne⟩ t ht t' ht' rfl
      obtain ⟨row, hrow, hrun, -⟩ := h.sharedTop_spec hnStack hm hms hmine htheirs ha ht
      obtain ⟨row', hrow', hrun', -⟩ := h.sharedTop_spec hnStack hm hms hmine htheirs hb ht'
      rw [hrow] at hrow'
      cases hrow'
      exact hne (hrun.symm.trans hrun')
    · refine ((horder mine).pairwise_iff ?_).mpr ?_
      · rintro a b ⟨ha, hb, hne⟩
        exact ⟨hb, ha, hne.symm⟩
      · exact hmine.distinct.imp_of_mem fun ha hb hne => ⟨ha, hb, hne⟩
  · apply hcommon
    rw [← hmap]
    exact mem_map_of_mem hentry
  · rcases hcover x hx with hreach | ⟨segment, hmem, t, ht, hreach⟩
    · obtain ⟨entry, hentry, heq⟩ := hin mem_cons_self
      exact ⟨entry, hentry, heq ▸ hreach⟩
    · obtain ⟨entry, hentry, heq⟩ := hin (mem_cons_of_mem _
        (mem_map_of_mem (htops.mpr ⟨segment, hmem, ht⟩)))
      exact ⟨entry, hentry, heq ▸ hreach⟩

end Candidates

/-! ## The choice -/

theorem anyM_spec {κ α : Type} {f : α → HistoryResult κ Bool} {p : α → Prop} :
    ∀ {l : List α}, (∀ x ∈ l, ∃ answer, f x = .ok answer ∧ (answer = true ↔ p x)) →
      ∃ answer, l.anyM f = .ok answer ∧ (answer = true ↔ ∃ x ∈ l, p x)
  | [], _ => ⟨false, rfl, by simp⟩
  | x :: l, hl => by
    obtain ⟨answer, hanswer, hiff⟩ := hl x mem_cons_self
    obtain ⟨rest, hrest, hrestIff⟩ := anyM_spec (l := l) fun y hy => hl y (mem_cons_of_mem x hy)
    rw [List.anyM, hanswer]
    cases answer with
    | true => exact ⟨true, rfl, iff_of_true rfl ⟨x, mem_cons_self, hiff.mp rfl⟩⟩
    | false =>
      refine ⟨rest, hrest, hrestIff.trans ?_⟩
      have hx : ¬p x := fun hp => absurd (hiff.mpr hp) (by simp)
      simp [hx]

section Choice

variable {κ ρ : Type} [DecidableEq κ] {s : Catalog κ ρ}
variable {x : NodeId κ} {entry : NodeId κ × Line κ}

def Dominated (s : Catalog κ ρ) (entries : List (NodeId κ × Line κ)) (x : NodeId κ) : Prop :=
  ∃ other ∈ entries, other.1 ≠ x ∧ s.Reaches other.1 x

variable {n m : NodeId κ} {stack : κ} {entries : List (NodeId κ × Line κ)}

theorem Covering.dominated_spec (hcov : s.Covering n m stack entries) (h : s.Consistent) {index : ℕ}
    (hmem : (entry, index) ∈ entries.zipIdx) :
    ∃ answer, s.dominated entries entry index = .ok answer ∧
      (answer = true ↔ s.Dominated entries entry.1) := by
  obtain ⟨-, hlt, hentry⟩ := mem_zipIdx hmem
  have hin : entry ∈ entries := by
    rw [hentry]
    exact getElem_mem _
  have hall : ∀ other ∈ entries.zipIdx, ∃ answer,
      (if other.2 = index then pure false else s.contains entry.2 other.1.2) = .ok answer ∧
        (answer = true ↔ other.2 ≠ index ∧ s.Reaches other.1.1 entry.1) := by
    intro other hother
    by_cases hindex : other.2 = index
    · exact ⟨false, by rw [if_pos hindex]; rfl, by simp [hindex]⟩
    · rw [if_neg hindex]
      have hotherIn : other.1 ∈ entries := by
        obtain ⟨-, hother', heq⟩ := mem_zipIdx (x := other.1) (i := other.2) hother
        rw [heq]
        exact getElem_mem _
      obtain ⟨answer, hanswer, hiff⟩ := h.contains_spec (hcov.describes entry hin).1
        (hcov.describes other.1 hotherIn).1
        ((hcov.describes entry hin).2.trans (hcov.describes other.1 hotherIn).2.symm)
      exact ⟨answer, hanswer, hiff.trans (by simp [hindex])⟩
  obtain ⟨answer, hanswer, hiff⟩ := anyM_spec hall
  refine ⟨answer, hanswer, hiff.trans ?_⟩
  constructor
  · rintro ⟨other, hother, hindex, hreach⟩
    obtain ⟨-, hotherLt, heq⟩ := mem_zipIdx (x := other.1) (i := other.2) hother
    refine ⟨other.1, heq ▸ getElem_mem _, fun hsame => hindex ?_, hreach⟩
    -- one node stands at one index
    simp only [Nat.zero_add, Nat.sub_zero] at hotherLt hlt heq hentry
    have hnodup := nodup_iff_injective_get.mp hcov.nodup
    have hget := @hnodup ⟨other.2, by simpa using hotherLt⟩ ⟨index, by simpa using hlt⟩
      (by simp [← heq, ← hentry, hsame])
    simpa using hget
  · rintro ⟨other, hother, hne, hreach⟩
    obtain ⟨i, hi, rfl⟩ := getElem_of_mem hother
    refine ⟨(entries[i], i), mem_zipIdx_iff_getElem?.mpr (by simp [hi]), ?_, hreach⟩
    rintro rfl
    simp only [Nat.sub_zero] at hentry
    exact hne (by rw [hentry])

theorem Covering.maximal_iff (hcov : s.Covering n m stack entries) (h : s.Consistent)
    (hentry : entry ∈ entries) : ¬s.Dominated entries entry.1 ↔ s.MaximalCommon n m entry.1 := by
  constructor
  · intro hfree
    refine ⟨hcov.common entry hentry, fun y hy hreach => ?_⟩
    obtain ⟨other, hother, hotherY⟩ := hcov.covers y hy
    by_cases hsame : other.1 = entry.1
    · exact h.acyclic.antisymm hreach (hsame ▸ hotherY)
    · exact absurd ⟨other, hother, hsame, hotherY.trans hreach⟩ hfree
  · rintro ⟨-, hmax⟩ ⟨other, hother, hne, hreach⟩
    exact hne (hmax other.1 (hcov.common other hother) hreach)

theorem Covering.mem_of_maximal (hcov : s.Covering n m stack entries) (hx : s.MaximalCommon n m x) :
    ∃ entry ∈ entries, entry.1 = x := by
  obtain ⟨entry, hentry, hreach⟩ := hcov.covers x hx.1
  exact ⟨entry, hentry, hx.2 entry.1 (hcov.common entry hentry) hreach⟩

theorem Covering.exists_maximal (hcov : s.Covering n m stack entries) (h : s.Consistent) :
    ∃ entry ∈ entries, s.MaximalCommon n m entry.1 := by
  obtain ⟨x, hx, htop⟩ := h.acyclic.exists_top (l := entries.map Prod.fst)
    (by simpa using hcov.nonempty)
  obtain ⟨entry, hentry, rfl⟩ := mem_map.mp hx
  refine ⟨entry, hentry, (hcov.maximal_iff h hentry).mp ?_⟩
  rintro ⟨other, hother, hne, hreach⟩
  exact hne (htop other.1 (mem_map_of_mem hother) hreach)

theorem Consistent.parentDepth (h : s.Consistent) {c : κ} {row : CommitLineage κ}
    (hc : s.commitRow c = some row) : s.ParentDepth (.commit c) row.depth := by
  generalize hn : row.depth = depth
  induction depth generalizing c row with
  | zero =>
    have := h.depth_pos hc
    omega
  | succ depth ih =>
    obtain ⟨record, hrecord⟩ := h.row_commit hc
    rcases hp : record.parent with _ | p
    · have hone := (h.run_first hrecord hc hp).2
      obtain rfl : depth = 0 := by omega
      exact .first hrecord hp
    · obtain ⟨before, hbefore, hdepth, -⟩ := h.run_next hrecord hc hp
      exact .next hrecord hp (ih hbefore (by omega))

theorem ParentDepth.unique {d d' : ℕ} (h : s.ParentDepth x d) (h' : s.ParentDepth x d') :
    d = d' := by
  induction h generalizing d' with
  | layer =>
    cases h'
    rfl
  | first hc hp =>
    cases h' with
    | first => rfl
    | next hc' hp' =>
      rw [hc] at hc'
      cases hc'
      rw [hp] at hp'
      cases hp'
  | next hc hp _ ih =>
    cases h' with
    | first hc' hp' =>
      rw [hc] at hc'
      cases hc'
      rw [hp] at hp'
      cases hp'
    | next hc' hp' hdepth =>
      rw [hc] at hc'
      cases hc'
      rw [hp] at hp'
      cases hp'
      rw [ih hdepth]

theorem IsNewest.unique {a b : ℕ} (ha : s.IsNewest x a) (hb : s.IsNewest x b) : a = b := by
  obtain ⟨⟨l, row, hl, rfl, hreach⟩, hmax⟩ := ha
  obtain ⟨⟨l', row', hl', rfl, hreach'⟩, hmax'⟩ := hb
  exact le_antisymm (hmax' l row hl hreach) (hmax l' row' hl' hreach')

theorem Ranked.unique {a b : Rank κ} (ha : s.Ranked x a) (hb : s.Ranked x b) : a = b := by
  obtain ⟨an, ad, ax⟩ := a
  obtain ⟨bn, bd, bx⟩ := b
  have hnewest := ha.newest.unique hb.newest
  have hdepth := ha.depth.unique hb.depth
  have hnode := ha.node.trans hb.node.symm
  simp_all

def rankOf (entry : NodeId κ × Line κ) : Rank κ := ⟨entry.2.newest, entry.2.depth, entry.1⟩

theorem Consistent.ranked (h : s.Consistent) {entry : NodeId κ × Line κ}
    (hd : s.Describes entry.1 entry.2) : s.Ranked entry.1 (rankOf entry) := by
  refine ⟨h.isNewest hd.newest, ?_, rfl⟩
  obtain ⟨node, line⟩ := entry
  cases node with
  | layer l =>
    obtain ⟨row, -, rfl⟩ := hd.layer_eq
    exact .layer
  | commit c =>
    obtain ⟨row, record, hrow, -, rfl⟩ := hd.commit_eq
    exact h.parentDepth hrow

end Choice

section Best

variable {κ ρ : Type} [LinearOrder κ] {s : Catalog κ ρ} {n m : NodeId κ} {stack : κ}
variable {x : NodeId κ}
  {entries : List (NodeId κ × Line κ)}

/-- A rank the loop still compares: the best so far, or that of a candidate no other contains. -/
def Offered (s : Catalog κ ρ) (entries : List (NodeId κ × Line κ))
    (rest : List ((NodeId κ × Line κ) × ℕ)) (best : Option (Rank κ)) (rank : Rank κ) : Prop :=
  best = some rank ∨ ∃ entry ∈ rest, ¬s.Dominated entries entry.1.1 ∧ rank = rankOf entry.1

theorem better_spec {best : Option (Rank κ)} {rank : Rank κ} :
    ∃ held, (if best.all fun held => held.lt rank then some rank else best) = some held ∧
      (held = rank ∨ best = some held) ∧ (rank = held ∨ rank.lt held = true) ∧
      ∀ old, best = some old → old = held ∨ old.lt held = true := by
  rcases best with _ | old
  · exact ⟨rank, by simp, .inl rfl, .inl rfl, by simp⟩
  · by_cases hlt : old.lt rank = true
    · refine ⟨rank, by simp [hlt], .inl rfl, .inl rfl, fun held hheld => ?_⟩
      cases hheld
      exact .inr hlt
    · refine ⟨old, by simp [hlt], .inr rfl, ?_, fun held hheld => ?_⟩
      · exact (Rank.lt_total (by simpa using hlt)).symm
      · cases hheld
        exact .inl rfl

/-- **The loop returns the best ranked of the candidates no other contains.** -/
theorem Covering.pickBest_spec (hcov : s.Covering n m stack entries) (h : s.Consistent)
    {rest : List ((NodeId κ × Line κ) × ℕ)} {best : Option (Rank κ)}
    (hrest : ∀ entry ∈ rest, entry ∈ entries.zipIdx) :
    ∃ result, s.pickBest entries rest best = .ok result ∧
      (∀ rank, result = some rank → s.Offered entries rest best rank) ∧
      ∀ rank, s.Offered entries rest best rank →
        ∃ top, result = some top ∧ (rank = top ∨ rank.lt top = true) := by
  induction rest generalizing best with
  | nil =>
    refine ⟨best, rfl, fun rank hrank => .inl hrank, ?_⟩
    rintro rank (hbest | ⟨entry, hmem, -⟩)
    · exact ⟨rank, hbest, .inl rfl⟩
    · cases hmem
  | cons entry rest ih =>
    obtain ⟨skip, hskip, hiff⟩ := hcov.dominated_spec h (hrest entry mem_cons_self)
    have hrest' : ∀ e ∈ rest, e ∈ entries.zipIdx := fun e he =>
      hrest e (mem_cons_of_mem entry he)
    have hkeep : ∀ {best rank}, s.Offered entries rest best rank →
        best = some rank ∨ s.Offered entries (entry :: rest) none rank := by
      rintro best rank (hbest | ⟨e, he, hfree⟩)
      · exact .inl hbest
      · exact .inr (.inr ⟨e, mem_cons_of_mem entry he, hfree⟩)
    have hwiden : ∀ {rank}, s.Offered entries (entry :: rest) none rank →
        s.Offered entries (entry :: rest) best rank := by
      rintro rank (hnone | hentry)
      · cases hnone
      · exact .inr hentry
    rw [pickBest, hskip]
    cases skip with
    | true =>
      obtain ⟨result, hresult, hfrom, hto⟩ := @ih best hrest'
      refine ⟨result, hresult, fun rank hrank => ?_, ?_⟩
      · rcases hkeep (hfrom rank hrank) with hbest | hoffered
        · exact .inl hbest
        · exact hwiden hoffered
      · rintro rank (hbest | ⟨e, he, hfree, heq⟩)
        · exact hto rank (.inl hbest)
        · rcases mem_cons.mp he with rfl | he
          · exact absurd (hiff.mp rfl) hfree
          · exact hto rank (.inr ⟨e, he, hfree, heq⟩)
    | false =>
      have hfree : ¬s.Dominated entries entry.1.1 := fun hdom => absurd (hiff.mpr hdom) (by simp)
      obtain ⟨held, hheld, hheldFrom, hown, hold⟩ :=
        @better_spec _ _ best (rankOf entry.1)
      obtain ⟨result, hresult, hfrom, hto⟩ := @ih (some held) hrest'
      obtain ⟨top, htop, hheldTop⟩ := hto held (.inl rfl)
      refine ⟨result, by rw [← hheld] at hresult; exact hresult, fun rank hrank => ?_, ?_⟩
      · rcases hkeep (hfrom rank hrank) with hbest | hoffered
        · cases hbest
          rcases hheldFrom with rfl | hbest
          · exact .inr ⟨entry, mem_cons_self, hfree, rfl⟩
          · exact .inl hbest
        · exact hwiden hoffered
      · rintro rank (hbest | ⟨e, he, hefree, rfl⟩)
        · exact ⟨top, htop, Rank.le_trans (hold rank hbest) hheldTop⟩
        · rcases mem_cons.mp he with rfl | he
          · exact ⟨top, htop, Rank.le_trans hown hheldTop⟩
          · exact hto _ (.inr ⟨e, he, hefree, rfl⟩)

theorem Covering.best (hcov : s.Covering n m stack entries) (h : s.Consistent) :
    ∃ top, s.pickBest entries entries.zipIdx none = .ok (some top) ∧
      s.BestCommon n m top.node := by
  obtain ⟨result, hresult, hfrom, hto⟩ :=
    @Covering.pickBest_spec _ _ _ s n m stack entries hcov h entries.zipIdx none fun _ he => he
  have hoffer : ∀ {entry}, entry ∈ entries → s.MaximalCommon n m entry.1 →
      s.Offered entries entries.zipIdx none (rankOf entry) := by
    intro entry hentry hmax
    obtain ⟨i, hi, rfl⟩ := getElem_of_mem hentry
    refine .inr ⟨(entries[i], i), mem_zipIdx_iff_getElem?.mpr (by simp [hi]), ?_, rfl⟩
    exact (hcov.maximal_iff h hentry).mpr hmax
  obtain ⟨first, hfirst, hfirstMax⟩ := hcov.exists_maximal h
  obtain ⟨top, rfl, -⟩ := hto _ (hoffer hfirst hfirstMax)
  rcases hfrom top rfl with hnone | ⟨⟨entry, index⟩, hmem, hfree, rfl⟩
  · cases hnone
  · have hentry : entry ∈ entries := by
      obtain ⟨-, hlt, heq⟩ := mem_zipIdx hmem
      rw [heq]
      exact getElem_mem _
    refine ⟨_, hresult, (hcov.maximal_iff h hentry).mp hfree, rankOf entry,
      h.ranked (hcov.describes entry hentry).1, fun y hy hne => ?_⟩
    obtain ⟨other, hother, rfl⟩ := hcov.mem_of_maximal hy
    obtain ⟨top, heq, hle⟩ := hto _ (hoffer hother hy)
    cases heq
    refine ⟨rankOf other, h.ranked (hcov.describes other hother).1, hle.resolve_left ?_⟩
    exact fun hsame => hne (congrArg Rank.node hsame)

theorem BestCommon.unique {y : NodeId κ} (hx : s.BestCommon n m x) (hy : s.BestCommon n m y) :
    x = y := by
  by_contra hne
  obtain ⟨hxmax, rx, hrx, hxbest⟩ := hx
  obtain ⟨hymax, ry, hry, hybest⟩ := hy
  obtain ⟨ry', hry', hlt⟩ := hxbest y hymax (Ne.symm hne)
  obtain ⟨rx', hrx', hlt'⟩ := hybest x hxmax hne
  rw [hry'.unique hry] at hlt
  rw [hrx'.unique hrx] at hlt'
  exact Rank.lt_irrefl (Rank.lt_trans hlt hlt')

theorem BestCommon.symm (hx : s.BestCommon n m x) : s.BestCommon m n x := by
  have hcommon : ∀ {y}, s.CommonAncestor m n y ↔ s.CommonAncestor n m y := and_comm
  have hmax : ∀ {y}, s.MaximalCommon m n y ↔ s.MaximalCommon n m y := by
    intro y
    simp only [MaximalCommon, hcommon]
  obtain ⟨hxmax, rank, hrank, hbest⟩ := hx
  exact ⟨hmax.mpr hxmax, rank, hrank, fun y hy hne => hbest y (hmax.mp hy) hne⟩

theorem Consistent.best_self (h : s.Consistent) (hn : s.stackOf n = some stack) :
    s.BestCommon n n n := by
  obtain ⟨line, hline, -⟩ := h.readLine_spec hn
  refine ⟨⟨⟨.refl, .refl⟩, fun y hy hreach => h.acyclic.antisymm hreach hy.1⟩,
    rankOf (n, line), @Consistent.ranked _ _ _ s h (n, line) hline, fun y hy hne => ?_⟩
  exact absurd (hy.2 n ⟨.refl, .refl⟩ hy.1.1).symm hne

/-- **`merge_base` in a consistent catalog.** -/
theorem Consistent.mergeBase_spec (h : s.Consistent)
    {order : List (Segment κ) → List (Segment κ)} (horder : ∀ l, (order l).Perm l)
    {stack' : κ} (hn : s.stackOf n = some stack) (hm : s.stackOf m = some stack') :
    (stack ≠ stack' → s.mergeBase order n m = .ok none) ∧
      (stack = stack' → ∃ base, s.mergeBase order n m = .ok (some base) ∧
        s.BestCommon n m base) := by
  by_cases heq : n = m
  · subst heq
    rw [hn] at hm
    cases hm
    exact ⟨fun hne => absurd rfl hne, fun _ => ⟨n, by simp [mergeBase], h.best_self hn⟩⟩
  · obtain ⟨l, hl, rfl⟩ := h.readLine_spec hn
    obtain ⟨r, hr, rfl⟩ := h.readLine_spec hm
    simp only [mergeBase, if_neg heq, hl.read, hr.read, bind, Except.bind]
    refine ⟨fun hne => by rw [if_neg hne]; rfl, fun hstack => ?_⟩
    rw [if_pos hstack]
    by_cases hnewest : l.newest ≤ r.newest
    · obtain ⟨entries, hentries, hcov⟩ :=
        h.candidates_spec horder hl hr rfl hstack.symm hnewest
      obtain ⟨top, hpick, hbest⟩ := hcov.best h
      exact ⟨top.node, by rw [if_pos hnewest, hentries]; simp [hpick, pure, Except.pure], hbest⟩
    · obtain ⟨entries, hentries, hcov⟩ :=
        h.candidates_spec horder hr hl hstack.symm rfl (Nat.le_of_not_le hnewest)
      obtain ⟨top, hpick, hbest⟩ := hcov.best h
      exact ⟨top.node, by rw [if_neg hnewest, hentries]; simp [hpick, pure, Except.pure],
        hbest.symm⟩

end Best

end Catalog

section Exact

variable {κ ρ : Type} [LinearOrder κ] [DecidableEq ρ] {codec : Codec κ ρ} {s : Catalog κ ρ}

/-- **`merge_base` in every reachable catalog**: none exactly when the nodes are in different stacks,
else the best ranked maximal common ancestor. Neither the side that comes first nor the order the
segments are visited in changes it. -/
theorem mergeBase_best (h : Reachable codec s)
    {order order' : List (Segment κ) → List (Segment κ)} (horder : ∀ l, (order l).Perm l)
    (horder' : ∀ l, (order' l).Perm l) {left right : NodeId κ} {stackL stackR : κ}
    (hl : s.stackOf left = some stackL) (hr : s.stackOf right = some stackR) :
    (s.mergeBase order left right = .ok none ↔ stackL ≠ stackR) ∧
    (stackL = stackR → ∃ base, s.mergeBase order left right = .ok (some base) ∧
      s.BestCommon left right base) ∧
    s.mergeBase order' right left = s.mergeBase order left right := by
  have hs := h.consistent
  obtain ⟨hapart, hshared⟩ := hs.mergeBase_spec horder hl hr
  obtain ⟨hapart', hshared'⟩ := hs.mergeBase_spec horder' hr hl
  refine ⟨⟨fun hnone heq => ?_, hapart⟩, hshared, ?_⟩
  · obtain ⟨base, hbase, -⟩ := hshared heq
    rw [hnone] at hbase
    cases hbase
  · by_cases heq : stackL = stackR
    · obtain ⟨base, hbase, hbest⟩ := hshared heq
      obtain ⟨base', hbase', hbest'⟩ := hshared' heq.symm
      rw [hbase, hbase', hbest'.unique hbest.symm]
    · rw [hapart heq, hapart' (Ne.symm heq)]

/-- A published Commit and its Layer have a merge base, whichever comes first. -/
theorem mergeBase_best_published : Reachable numbering publishedCatalog ∧
    (∃ base, publishedCatalog.mergeBase id (.commit 111) (.layer 211) = .ok (some base) ∧
      publishedCatalog.BestCommon (.commit 111) (.layer 211) base) ∧
    publishedCatalog.mergeBase List.reverse (.layer 211) (.commit 111) =
      publishedCatalog.mergeBase id (.commit 111) (.layer 211) := by
  have hl : publishedCatalog.stackOf (.commit 111) = some 1 := rfl
  have hr : publishedCatalog.stackOf (.layer 211) = some 1 := rfl
  obtain ⟨-, hbest, hswap⟩ := mergeBase_best reachable_publishedCatalog (fun l => .refl l)
    (fun l => reverse_perm l) hl hr
  exact ⟨reachable_publishedCatalog, hbest rfl, hswap⟩

end Exact

end LayerFs.History
