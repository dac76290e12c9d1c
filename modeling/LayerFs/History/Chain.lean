import LayerFs.History.Ancestry
import LayerFs.History.Heads

/-!
# First-parent chains

Whether a Commit is on the first-parent chain of a head is decided run by run
(`layerfs-persistence/src/history/commit.rs`, `ancestry_contains`): within a run by depth, and from
the start of a run on to the run of its parent.

* `Consistent.chainContains_spec` — **the loop answers, and rightly**.
* `ancestryContains_exact` — **in every reachable catalog**, with what `fork` and `commit_history`
  refuse.
-/

namespace LayerFs.History

open List

open Relation

variable {now : ℕ}

namespace Catalog

variable {κ ρ : Type} [DecidableEq κ] {s s' : Catalog κ ρ}
variable {row target : CommitLineage κ} {c p t : κ}

/-- `commit_history` without a cursor: the Commit it starts at. -/
def historyStart (s : Catalog κ ρ) (branch : BranchRecord κ) (start : Option κ) :
    HistoryResult κ (Option κ) :=
  match start.or branch.headCommit with
  | some id => do
    let record ← found (s.commit id) (.missing .commit)
    require (record.stack = branch.stack) (.integrity "Commit ownership")
    if start.isSome then
      let contained ← s.ancestryContains branch.headCommit id
      require contained (.notInHistory "Commit")
      return some id
    else return some id
  | none => return none

/-! ## First parents -/

theorem FirstParent.unique {q : κ} (hp : s.FirstParent c p) (hq : s.FirstParent c q) : p = q := by
  obtain ⟨record, hrecord, hparent⟩ := hp
  obtain ⟨record', hrecord', hparent'⟩ := hq
  rw [hrecord] at hrecord'
  cases hrecord'
  exact Option.some.inj (hparent.symm.trans hparent')

namespace Consistent

theorem firstParent_row (h : s.Consistent) (hc : s.commitRow c = some row) (hp : s.FirstParent c p)
    :
    ∃ before, s.commitRow p = some before ∧ row.depth = before.depth + 1 := by
  obtain ⟨record, hrecord, hparent⟩ := hp
  obtain ⟨before, hbefore, hdepth, -⟩ := h.run_next hrecord hc hparent
  exact ⟨before, hbefore, hdepth⟩

theorem depth_le_of_chain (h : s.Consistent) (hc : s.commitRow c = some row)
    (ht : s.commitRow t = some target) (hchain : ReflTransGen s.FirstParent c t) :
    target.depth ≤ row.depth := by
  induction hchain using ReflTransGen.head_induction_on generalizing row with
  | refl =>
    rw [hc] at ht
    cases ht
    exact le_rfl
  | head hparent _ ih =>
    obtain ⟨before, hbefore, hdepth⟩ := h.firstParent_row hc hparent
    have := ih hbefore
    omega

/-- **A chain to another run passes the start of this one.** -/
theorem chain_start (h : s.Consistent) (hc : s.commitRow c = some row)
    (ht : s.commitRow t = some target) (hrun : row.run ≠ target.run)
    (hchain : ReflTransGen s.FirstParent c t) : ReflTransGen s.FirstParent row.run t := by
  induction hchain using ReflTransGen.head_induction_on generalizing row with
  | refl =>
    rw [hc] at ht
    cases ht
    exact absurd rfl hrun
  | @head c q hparent hrest ih =>
    by_cases hstart : row.run = c
    · rw [hstart]
      exact hrest.head hparent
    · -- the parent continues the run
      obtain ⟨p, before, hown, hbefore, hsame, -⟩ := h.run_parent hc hstart
      cases hparent.unique hown
      rw [← hsame]
      exact ih hbefore (by rw [hsame]; exact hrun)

end Consistent

def rowsUpTo (s : Catalog κ ρ) (depth : ℕ) : ℕ :=
  s.commitLineage.countP fun row => row.depth ≤ depth

theorem rowsUpTo_lt (hc : s.commitRow c = some row) {depth : ℕ} (hlt : depth < row.depth) :
    s.rowsUpTo depth < s.rowsUpTo row.depth := by
  have hmono : ∀ rows : List (CommitLineage κ), rows.countP (fun other => other.depth ≤ depth) ≤
      rows.countP fun other => other.depth ≤ row.depth := by
    refine fun rows => countP_mono_left fun other _ hother => ?_
    simp only [decide_eq_true_eq] at hother ⊢
    omega
  obtain ⟨before, after, hsplit⟩ := append_of_mem (commitRow_mem hc)
  rw [rowsUpTo, rowsUpTo, hsplit, countP_append, countP_append, countP_cons_of_neg,
    countP_cons_of_pos]
  · have := hmono before
    have := hmono after
    omega
  · simp
  · simpa using hlt

theorem Consistent.line_of_holds (h : s.Consistent) (hc : s.Holds c) :
    ∃ row line, s.commitRow c = some row ∧ s.commitLine c = .ok line := by
  rcases hcommit : s.commit c with _ | record
  · exact absurd hc (commit_eq_none_iff.mp hcommit)
  · obtain ⟨row, hrow⟩ := h.commit_row hcommit
    exact ⟨row, _, hrow, commitLine_eq_ok.mpr ⟨row, record, hrow, hcommit, rfl⟩⟩

/-- **The loop answers whether a Commit is on the chain**, in any number of turns above the number of
rows that lie no deeper. -/
theorem Consistent.chainContains_spec (h : s.Consistent) {line : CommitLine κ}
    (ht : s.commitRow t = some target) (hline : s.commitLine t = .ok line) {turns : ℕ}
    {current : CommitLine κ} (hc : s.commitRow c = some row)
    (hcurrent : s.commitLine c = .ok current) (hturns : s.rowsUpTo row.depth < turns) :
    ∃ answer, s.chainContains line turns current = .ok answer ∧
      (answer = true ↔ ReflTransGen s.FirstParent c t) := by
  induction turns generalizing c row current with
  | zero => exact absurd hturns (Nat.not_lt_zero _)
  | succ turns ih =>
    obtain ⟨target', record, ht', -, rfl⟩ := commitLine_eq_ok.mp hline
    rw [ht] at ht'
    cases ht'
    obtain ⟨row', record', hc', hrecord', rfl⟩ := commitLine_eq_ok.mp hcurrent
    rw [hc] at hc'
    cases hc'
    simp only [chainContains]
    by_cases hdepth : row.depth < target.depth
    · refine ⟨false, if_pos hdepth, ?_⟩
      simp only [Bool.false_eq_true, false_iff]
      intro hchain
      have := h.depth_le_of_chain hc ht hchain
      omega
    · rw [if_neg hdepth]
      by_cases hrun : row.run = target.run
      · rw [if_pos hrun]
        exact ⟨true, rfl, fun _ => h.run_path ht hc hrun.symm (not_lt.mp hdepth), fun _ => rfl⟩
      · rw [if_neg hrun]
        obtain ⟨start, hstart, hstartRun⟩ := h.run_start hc
        obtain ⟨first, hfirst⟩ := h.row_commit hstart
        have hlow := h.start_le hc hstart
        -- the run from the Commit down to its start
        have hdown : ReflTransGen s.FirstParent c row.run :=
          h.run_path hstart hc hstartRun hlow
        have hstartLine := commitLine_eq_ok.mpr ⟨start, first, hstart, hfirst, rfl⟩
        rw [hstartLine]
        rcases hparent : first.parent with _ | p
        · refine ⟨false, by simp [bind, Except.bind, pure, Except.pure], ?_⟩
          simp only [Bool.false_eq_true, false_iff]
          intro hchain
          rcases (h.chain_start hc ht hrun hchain).cases_head with heq | ⟨q, ⟨other, ho, hq⟩, -⟩
          · rw [heq, ht] at hstart
            cases hstart
            exact hrun hstartRun.symm
          · rw [hfirst] at ho
            cases ho
            rw [hparent] at hq
            cases hq
        · obtain ⟨before, hbefore, hbeforeDepth, -⟩ := h.run_next hfirst hstart hparent
          obtain ⟨parent, hparentRecord⟩ := h.row_commit hbefore
          have hparentLine := commitLine_eq_ok.mpr ⟨before, parent, hbefore, hparentRecord, rfl⟩
          have hless : s.rowsUpTo before.depth < turns := by
            have := rowsUpTo_lt hc (by omega : before.depth < row.depth)
            omega
          obtain ⟨answer, hanswer, hiff⟩ := ih hbefore hparentLine hless
          refine ⟨answer, by simpa [bind, Except.bind, hparent, hparentLine] using hanswer,
            hiff.trans ⟨fun hchain => hdown.trans (hchain.head ⟨first, hfirst, hparent⟩),
              fun hchain => ?_⟩⟩
          rcases (h.chain_start hc ht hrun hchain).cases_head with heq | ⟨q, hq, hrest⟩
          · rw [heq, ht] at hstart
            cases hstart
            exact absurd hstartRun.symm hrun
          · cases hq.unique ⟨first, hfirst, hparent⟩
            exact hrest

/-- **`ancestry_contains` answers for two Commits.** -/
theorem Consistent.ancestryContains_spec (h : s.Consistent) {head : κ} (hhead : s.Holds head)
    (ht : s.Holds t) : ∃ answer, s.ancestryContains (some head) t = .ok answer ∧
      (answer = true ↔ ReflTransGen s.FirstParent head t) := by
  obtain ⟨row, line, hrow, hline⟩ := h.line_of_holds hhead
  obtain ⟨target, targetLine, htarget, htargetLine⟩ := h.line_of_holds ht
  obtain ⟨answer, hanswer, hiff⟩ := h.chainContains_spec htarget htargetLine hrow hline
    (Nat.lt_succ_of_le countP_le_length)
  refine ⟨answer, ?_, hiff⟩
  rw [ancestryContains, htargetLine, hline]
  exact hanswer

theorem Consistent.ancestryContains_false (h : s.Consistent) {head : Option κ}
    (hhead : ∀ id ∈ head, s.Holds id) (ht : s.Holds t)
    (hoff : ∀ id ∈ head, ¬ReflTransGen s.FirstParent id t) :
    s.ancestryContains head t = .ok false := by
  cases head with
  | none => rfl
  | some head =>
    obtain ⟨answer, hanswer, hiff⟩ := h.ancestryContains_spec (hhead head rfl) ht
    cases answer with
    | false => exact hanswer
    | true => exact absurd (hiff.mp rfl) (hoff head rfl)

/-! ## Heads -/

def HeadsKnown (s : Catalog κ ρ) : Prop :=
  ∀ row ∈ s.branches, ∀ head ∈ row.headCommit, s.Holds head

omit [DecidableEq κ] in
theorem HeadsKnown.same (h : s.HeadsKnown) (hsame : s.SameHeads s') : s'.HeadsKnown := by
  intro row hrow head hhead
  rw [hsame.2] at hrow
  exact (h row hrow head hhead).of_commits hsame.1

omit [DecidableEq κ] in
theorem HeadsKnown.insertBranch (h : s.HeadsKnown) {row : BranchRecord κ}
    (hrow : ∀ head ∈ row.headCommit, s.Holds head) : (s.insertBranch row).HeadsKnown := by
  intro other hother head hhead
  rcases mem_cons.mp hother with rfl | hother
  · exact hrow head hhead
  · exact h other hother head hhead

variable [DecidableEq ρ] {codec : Codec κ ρ}

theorem newCommit_holds {stack branch root baseLayer id : κ} {parent : Option κ}
    {second : Option (NodeId κ)} {info : CommitMeta κ ρ}
    (hcommit : s.newCommit codec now stack branch root parent baseLayer second info = .ok (id, s'))
    :
    s'.Holds id ∧ s.commits ⊆ s'.commits ∧ s'.branches = s.branches := by
  by_cases hknown : s.Holds
      (madeCommit codec now stack branch root parent baseLayer second info).id
  · simp only [newCommit, history_bind_eq_ok] at hcommit
    obtain ⟨-, -, known, hverify, hcommit⟩ := hcommit
    cases known with
    | true =>
      cases hcommit
      exact ⟨hknown, List.Subset.refl _, rfl⟩
    | false =>
      -- a known identity is verified, not inserted
      rcases hfound : s.commit (codec.commitId root parent baseLayer second
        (info.stamped branch now)) with _ | stored
      · exact absurd hknown (commit_eq_none_iff.mp hfound)
      · simp only [verifyCommit, hfound, history_bind_eq_ok] at hverify
        obtain ⟨-, -, hvalue⟩ := hverify
        cases hvalue
  · obtain ⟨-, -, hid, hcommits, hbranches⟩ := newCommit_of_fresh hknown hcommit
    refine ⟨⟨_, ?_, hid.symm⟩, ?_, hbranches⟩
    · rw [hcommits]
      exact mem_cons_self
    · rw [hcommits]
      exact subset_cons_self _ _

theorem HeadsKnown.commitBranch (h : s.HeadsKnown) {request : CommitRequest κ ρ}
    (hcommit : s.commitBranch codec now request = .ok s') : s'.HeadsKnown := by
  simp only [Catalog.commitBranch, history_bind_eq_ok] at hcommit
  obtain ⟨branch, -, -, -, -, -, -, -, -, -, -, -, -, -, current, -, hcommit⟩ := hcommit
  by_cases hroot : request.candidateRoot = current
  · rw [if_pos hroot] at hcommit
    cases hcommit
    exact h
  · rw [if_neg hroot, history_bind_eq_ok] at hcommit
    obtain ⟨⟨id, s₁⟩, hnew, hadvance⟩ := hcommit
    cases hadvance
    obtain ⟨hholds, hcommits, hbranches⟩ := newCommit_holds hnew
    intro row hrow head hhead
    obtain ⟨old, hold, rfl⟩ := mem_map.mp hrow
    rw [hbranches] at hold
    split_ifs at hhead
    · cases hhead
      exact hholds
    · exact (h old hold head hhead).mono hcommits

theorem HeadsKnown.mergeBranch (h : s.HeadsKnown) {request : BranchMergeRequest κ ρ}
    (hmerge : s.mergeBranch codec now request = .ok s') : s'.HeadsKnown := by
  simp only [Catalog.mergeBranch, history_bind_eq_ok] at hmerge
  obtain ⟨-, -, -, -, -, -, ⟨base, existing⟩, hexisting, -, -, -, -, ⟨head, s₁⟩, hhead,
    hinsert⟩ := hmerge
  cases hinsert
  rcases hkind : request.head with node | merge
  · simp only [mergedHead, hkind] at hhead
    cases hhead
    exact h.insertBranch (mergeBaseHead_holds hexisting)
  · simp only [mergedHead, hkind, history_bind_eq_ok] at hhead
    obtain ⟨⟨id, s₂⟩, hnew, hvalue⟩ := hhead
    cases hvalue
    obtain ⟨hholds, hcommits, hbranches⟩ := newCommit_holds hnew
    have hold : s₂.HeadsKnown := by
      intro row hrow other hother
      rw [hbranches] at hrow
      exact (h row hrow other hother).mono hcommits
    refine hold.insertBranch fun other hother => ?_
    cases hother
    exact hholds

end Catalog

section Exact

variable {κ ρ : Type} [DecidableEq κ] [DecidableEq ρ] {codec : Codec κ ρ} {s : Catalog κ ρ}

/-- **The head of every Branch of a reachable catalog is a Commit.** -/
theorem Reachable.heads_known (h : Reachable codec s) : s.HeadsKnown := by
  induction h with
  | empty => exact fun row hrow => absurd hrow not_mem_nil
  | @step s s' operation _ _ happly ih =>
    cases operation with
    | initializeLayerstack request => exact ih.same (Catalog.initializeLayerstack_sameHeads happly)
    | fork request =>
      have heffect : Catalog.Effect (fun _ => True) s s' := Catalog.fork_effect happly
      cases heffect with
      | same hsame => exact ih.same hsame
      | branched row _ hhead hcommits hbranches =>
        intro other hother head hother'
        rw [hbranches] at hother
        exact (ih.insertBranch hhead other hother head hother').of_commits hcommits
      | published record branch _ hpublish =>
        obtain ⟨row, rfl⟩ := Catalog.fork_eq_ok happly
        exact absurd hpublish.commits.symm (cons_ne_self _ _)
    | commitBranch now request => exact ih.commitBranch happly
    | mergeBranch now request => exact ih.mergeBranch happly
    | addLayer request => exact ih.same (Catalog.addLayer_sameHeads happly)

/-- **`ancestry_contains` is exact in every reachable catalog**: for two Commits it answers whether
one is reached from the other over first parents alone. Its loop ends: a chain whose turns run out
answers nothing, and every number of turns above that of the Commits gives the answer. So `fork` and `commit_history` refuse a Commit that is not on the chain of the
Branch's head, one reached only through a second parent included. -/
theorem ancestryContains_exact (h : Reachable codec s) :
    (∀ head target, s.Holds head → s.Holds target →
      ∃ answer, s.ancestryContains (some head) target = .ok answer ∧
        (answer = true ↔ ReflTransGen s.FirstParent head target)) ∧
    (∀ head target line targetLine turns, s.commitLine head = .ok line →
      s.commitLine target = .ok targetLine → s.commitLineage.length < turns →
      s.chainContains targetLine turns line = s.ancestryContains (some head) target) ∧
    (∀ request branch commit source, request.source = .commit branch commit →
      (s.layerStack request.stack).isSome →
      s.requireBranchFree request.stack request.branch request.name = .ok () →
      s.branch branch = some source → source.stack = request.stack →
      s.stackOf (.commit commit) = some request.stack →
      (∀ head ∈ source.headCommit, ¬ReflTransGen s.FirstParent head commit) →
      s.fork request = .error (.notInHistory "Commit")) ∧
    ∀ branch row start, s.branch branch = some row → s.stackOf (.commit start) = some row.stack →
      (∀ head ∈ row.headCommit, ¬ReflTransGen s.FirstParent head start) →
      s.historyStart row (some start) = .error (.notInHistory "Commit") := by
  have hs := h.consistent
  have hheads : ∀ {branch row}, s.branch branch = some row → ∀ id ∈ row.headCommit, s.Holds id :=
    fun hrow id hid => h.heads_known _ (mem_of_find?_eq_some hrow) id hid
  refine ⟨fun head target hhead htarget => hs.ancestryContains_spec hhead htarget, ?_, ?_, ?_⟩
  · intro head target line targetLine turns hline htargetLine hturns
    obtain ⟨row, record, hrow, -, -⟩ := Catalog.commitLine_eq_ok.mp hline
    obtain ⟨target', record', htarget, -, -⟩ := Catalog.commitLine_eq_ok.mp htargetLine
    have hlow : s.rowsUpTo row.depth ≤ s.commitLineage.length := countP_le_length
    obtain ⟨answer, hanswer, hiff⟩ := hs.chainContains_spec htarget htargetLine hrow hline
      (lt_of_le_of_lt hlow hturns)
    obtain ⟨answer', hanswer', hiff'⟩ := hs.chainContains_spec htarget htargetLine hrow hline
      (Nat.lt_succ_of_le hlow)
    have hsame : answer = answer' := Bool.eq_iff_iff.mpr (hiff.trans hiff'.symm)
    rw [hanswer, Catalog.ancestryContains, htargetLine, hline, hsame]
    exact hanswer'.symm
  · intro request branch commit source hsource hstack hfree hbranch hown hcommit hoff
    obtain ⟨selected, hselected, hselectedStack⟩ := Option.map_eq_some_iff.mp hcommit
    have hno := hs.ancestryContains_false (hheads hbranch) (Catalog.holds_of_commit hselected) hoff
    simp [Catalog.fork, hsource, hfree, hbranch, hselected, hselectedStack, hown, hno, require,
      found, bind, Except.bind, hstack]
  · intro branch row start hbranch hstart hoff
    obtain ⟨selected, hselected, hselectedStack⟩ := Option.map_eq_some_iff.mp hstart
    have hno := hs.ancestryContains_false (hheads hbranch) (Catalog.holds_of_commit hselected) hoff
    simp [Catalog.historyStart, hselected, hselectedStack, hno, require, found, bind, Except.bind]

end Exact

/-- A Commit is on the chain of the one made on it. -/
theorem ancestryContains_exact_published : Reachable numbering secondCatalog ∧
    ∃ answer, secondCatalog.ancestryContains (some 112) 111 = .ok answer ∧
      (answer = true ↔ ReflTransGen secondCatalog.FirstParent 112 111) := by
  have hhead : secondCatalog.Holds 112 := ⟨_, mem_cons_self, rfl⟩
  have htarget : secondCatalog.Holds 111 := ⟨_, mem_cons_of_mem _ mem_cons_self, rfl⟩
  exact ⟨reachable_secondCatalog,
    (ancestryContains_exact reachable_secondCatalog).1 112 111 hhead htarget⟩

end LayerFs.History
