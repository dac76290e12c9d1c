import LayerFs.History.MergeBase

/-!
# Answers that stay

Publishing a Commit or a Layer rewrites the tables the ancestry queries read: what is absorbed, what
a run reaches, which Layer is newest. What they answer about recorded nodes stays as it was, and the
two queries agree with each other.

* `answers_stay` — **no later operation changes an answer**.
* `mergeBase_eq_iff` — **a merge base is one of its sides** exactly when that is an ancestor.
-/

namespace LayerFs.History

open Relation

namespace Catalog

/-! ## What an operation keeps -/

section Keeps

variable {κ ρ : Type} [DecidableEq κ] {s s' s'' : Catalog κ ρ} {n m x : NodeId κ} {stack : κ}

/-- A recorded node stays in its stack and reaches what it reached, and rows stay. -/
structure Keeps (s s' : Catalog κ ρ) : Prop where
  stackOf : ∀ {n stack}, s.stackOf n = some stack → s'.stackOf n = some stack
  commit : ∀ {c record}, s.commit c = some record → s'.commit c = some record
  layerRow : ∀ {l row}, s.layerRow l = some row → s'.layerRow l = some row
  reaches : ∀ {n stack}, s.stackOf n = some stack → ∀ m, s'.Reaches n m ↔ s.Reaches n m

theorem Grows.keeps (h : s.Consistent) (hgrows : s.Grows s') : s.Keeps s' := by
  cases hgrows with
  | rebranched branches heq =>
    subst heq
    exact ⟨id, id, id, fun _ m => by rw [Reaches, edge_rebranch, Reaches]⟩
  | @commit record row hnew branches heq =>
    subst heq
    refine ⟨fun hn => ?_, fun hc => ?_, id, fun hn m => ?_⟩
    · show (s.withCommit record row).stackOf _ = _
      rw [withCommit_stackOf (hnew.ne_of_stack hn), hn]
    · show (s.withCommit record row).commit _ = _
      rw [withCommit_commit, if_neg ?_, hc]
      rintro rfl
      rw [hnew.fresh] at hc
      cases hc
    · rw [Reaches, edge_rebranch]
      exact (hnew.grown h).reach_old (hnew.ne_of_stack hn)
  | @layer record row heads segments hnew frontiers _ _ heq =>
    subst heq
    refine ⟨fun hn => (withLayer_stackOf (hnew.ne_of_stack hn)).trans hn, id, fun hl => ?_,
      fun hn m => (hnew.grown h).reach_old (hnew.ne_of_stack hn)⟩
    rw [withLayer_layerRow, hnew.id_eq, if_neg ?_, hl]
    rintro rfl
    rw [hnew.free h] at hl
    cases hl

theorem Keeps.isNewest {height : ℕ} (h : s.Consistent) (hkeeps : s.Keeps s')
    (hn : s.stackOf n = some stack) (hnewest : s.IsNewest n height) : s'.IsNewest n height := by
  obtain ⟨⟨l, row, hl, hheight, hreach⟩, htop⟩ := hnewest
  refine ⟨⟨l, row, hkeeps.layerRow hl, hheight, (hkeeps.reaches hn _).mpr hreach⟩, ?_⟩
  intro l' row' hl' hreach'
  have hold := (hkeeps.reaches hn _).mp hreach'
  obtain ⟨held, hheld, -⟩ := h.layerRow_stack (h.reaches_stack hn hold)
  rw [hkeeps.layerRow hheld] at hl'
  cases hl'
  exact htop l' row' hheld hold

theorem Keeps.parentDepth {depth : ℕ} (hkeeps : s.Keeps s') (h : s.ParentDepth n depth) :
    s'.ParentDepth n depth := by
  induction h with
  | layer => exact .layer
  | first hc hp => exact .first (hkeeps.commit hc) hp
  | next hc hp _ ih => exact .next (hkeeps.commit hc) hp ih

end Keeps

section Answers

variable {κ ρ : Type} [LinearOrder κ] {s s' : Catalog κ ρ} {n m x : NodeId κ} {stack stack' : κ}

/-- **The best common ancestor stays.** -/
theorem Keeps.bestCommon (h : s.Consistent) (hkeeps : s.Keeps s') (hn : s.stackOf n = some stack)
    (hm : s.stackOf m = some stack') (hbest : s.BestCommon n m x) : s'.BestCommon n m x := by
  have hcommon : ∀ y, s'.CommonAncestor n m y ↔ s.CommonAncestor n m y := fun y =>
    and_congr (hkeeps.reaches hn y) (hkeeps.reaches hm y)
  have hstack : ∀ {y}, s.CommonAncestor n m y → s.stackOf y = some stack := fun hy =>
    h.reaches_stack hn hy.1
  have hmax : ∀ {y}, s'.MaximalCommon n m y ↔ s.MaximalCommon n m y := fun {y} =>
    and_congr (hcommon y) (forall_congr' fun z => by
      rw [hcommon]
      exact imp_congr_right fun hz => by rw [hkeeps.reaches (hstack hz)])
  have hranked : ∀ {y rank}, s.MaximalCommon n m y → s.Ranked y rank → s'.Ranked y rank :=
    fun hy hrank => ⟨hkeeps.isNewest h (hstack hy.1) hrank.newest,
      hkeeps.parentDepth hrank.depth, hrank.node⟩
  obtain ⟨hx, rank, hrank, hothers⟩ := hbest
  refine ⟨hmax.mpr hx, rank, hranked hx hrank, fun y hy hne => ?_⟩
  obtain ⟨rank', hrank', hlt⟩ := hothers y (hmax.mp hy) hne
  exact ⟨rank', hranked (hmax.mp hy) hrank', hlt⟩

end Answers

end Catalog

/-! ## Runs -/

section Runs

variable {κ ρ : Type} [LinearOrder κ] [DecidableEq ρ] {codec : Codec κ ρ} {s s' : Catalog κ ρ}
variable {a d : NodeId κ} {stack stack' : κ}

/-- One more operation. -/
def Performs (codec : Codec κ ρ) (s s' : Catalog κ ρ) : Prop :=
  ∃ operation : Operation κ ρ, operation.SameStack s ∧ operation.apply codec s = .ok s'

theorem Reachable.run (h : Reachable codec s) (hrun : ReflTransGen (Performs codec) s s') :
    Reachable codec s' ∧ s.Keeps s' := by
  induction hrun with
  | refl => exact ⟨h, id, id, id, fun _ _ => Iff.rfl⟩
  | tail _ hstep ih =>
    obtain ⟨operation, hsame, happly⟩ := hstep
    obtain ⟨hreachable, hold⟩ := ih
    have hnew := (Operation.grows hreachable.consistent hsame happly).keeps hreachable.consistent
    exact ⟨.step hreachable hsame happly, fun hn => hnew.stackOf (hold.stackOf hn),
      fun hc => hnew.commit (hold.commit hc), fun hl => hnew.layerRow (hold.layerRow hl),
      fun hn m => (hnew.reaches (hold.stackOf hn) m).trans (hold.reaches hn m)⟩

variable {order : List (Segment κ) → List (Segment κ)}

/-- **No later operation changes an answer**: whatever is published after a catalog is reached, what
`is_ancestor` and `merge_base` answer about two of its nodes stays. -/
theorem answers_stay (h : Reachable codec s) (hrun : ReflTransGen (Performs codec) s s')
    (horder : ∀ l, (order l).Perm l) (ha : s.stackOf a = some stack)
    (hd : s.stackOf d = some stack') :
    s'.isAncestor a d = s.isAncestor a d ∧ s'.mergeBase order a d = s.mergeBase order a d := by
  obtain ⟨hlater, hkeeps⟩ := h.run hrun
  have hs := h.consistent
  have hs' := hlater.consistent
  constructor
  · obtain ⟨answer, hanswer, hiff⟩ := hs.isAncestor_spec ha hd
    obtain ⟨answer', hanswer', hiff'⟩ := hs'.isAncestor_spec (hkeeps.stackOf ha) (hkeeps.stackOf hd)
    have hsame := hiff'.trans ((hkeeps.reaches hd a).trans hiff.symm)
    rw [hanswer, hanswer', Bool.eq_iff_iff.mpr hsame]
  · obtain ⟨hapart, hshared⟩ := hs.mergeBase_spec horder ha hd
    obtain ⟨hapart', hshared'⟩ :=
      hs'.mergeBase_spec horder (hkeeps.stackOf ha) (hkeeps.stackOf hd)
    by_cases hstack : stack = stack'
    · obtain ⟨base, hbase, hbest⟩ := hshared hstack
      obtain ⟨base', hbase', hbest'⟩ := hshared' hstack
      rw [hbase, hbase', hbest'.unique (hkeeps.bestCommon hs ha hd hbest)]
    · rw [hapart hstack, hapart' hstack]

theorem answers_stay_committed : ReflTransGen (Performs numbering) publishedCatalog secondCatalog ∧
    secondCatalog.isAncestor (.commit 111) (.layer 211) =
      publishedCatalog.isAncestor (.commit 111) (.layer 211) := by
  let commit : Operation ℕ Unit :=
    .commitBranch 6 ⟨2, some 111, 210, 11, 12, 0, 0, none, plainInfo, false⟩
  have hrun : ReflTransGen (Performs numbering) publishedCatalog secondCatalog :=
    .single ⟨commit, fun _ _ _ hsecond => absurd hsecond (by simp), rfl⟩
  exact ⟨hrun, (answers_stay reachable_publishedCatalog hrun (fun l => .refl l) rfl rfl).1⟩

/-- **A merge base is one of its sides** exactly when that side is an ancestor of the other. -/
theorem mergeBase_eq_iff (h : Reachable codec s) (horder : ∀ l, (order l).Perm l)
    (ha : s.stackOf a = some stack) (hd : s.stackOf d = some stack') :
    s.mergeBase order a d = .ok (some a) ↔ s.isAncestor a d = .ok true := by
  have hs := h.consistent
  obtain ⟨answer, hanswer, hiff⟩ := hs.isAncestor_spec ha hd
  obtain ⟨hapart, hshared⟩ := hs.mergeBase_spec horder ha hd
  rw [hanswer, Except.ok.injEq, hiff]
  constructor
  · intro hbase
    by_cases hstack : stack = stack'
    · obtain ⟨base, hbase', hbest⟩ := hshared hstack
      rw [hbase] at hbase'
      cases hbase'
      exact hbest.1.1.2
    · rw [hapart hstack] at hbase
      cases hbase
  · intro hreach
    have hstack := Option.some.inj ((h.consistent.reaches_stack hd hreach).symm.trans ha)
    obtain ⟨base, hbase, hbest⟩ := hshared hstack.symm
    -- nothing above the side itself is common to both
    rw [hbase, hbest.1.2 a ⟨.refl, hreach⟩ hbest.1.1.1]

theorem mergeBase_eq_iff_published :
    publishedCatalog.mergeBase id (.commit 111) (.layer 211) = .ok (some (.commit 111)) ↔
      publishedCatalog.isAncestor (.commit 111) (.layer 211) = .ok true :=
  mergeBase_eq_iff reachable_publishedCatalog (fun l => .refl l) rfl rfl

end Runs

end LayerFs.History
