import LayerFs.History.Heads

/-!
# Every publication is new

The catalog over a hash without collisions. A request's identities have the widths of their types;
a merge Commit displaces no Commit but one that exists, as its one caller, which displaces none,
promises.

* `head_unrepeated` — **over every run a published Commit is new, and a head is never held twice**.
-/

namespace LayerFs.History

variable {row : BranchRecord Bytes} {branch stack : Bytes}
  {request : CommitRequest Bytes CommitFacts} {merge : MergeCommit Bytes CommitFacts}
  {side : MergeSide Bytes} {b now : ℕ}

/-! ## Requests -/

/-- The identities a Commit request hands to the hash, by their types. -/
structure CommitRequest.Typed {ρ : Type} (request : CommitRequest Bytes ρ) : Prop where
  branch : request.branch.length = 17
  expectedHead : ∀ c ∈ request.expectedHead, IsCommitId c
  expectedBase : IsLayerId request.expectedBase
  candidateRoot : request.candidateRoot.length = 32
  secondParent : ∀ n ∈ request.secondParent, n.Typed
  mergedFrom : ∀ n ∈ request.info.mergedFrom, n.Typed

/-- The same of the Commit of a merge. -/
structure MergeCommit.Typed {ρ : Type} (merge : MergeCommit Bytes ρ) : Prop where
  base : IsLayerId merge.base
  parent : ∀ c ∈ merge.parent, IsCommitId c
  secondParent : merge.secondParent.Typed
  root : merge.root.length = 32
  mergedFrom : ∀ n ∈ merge.info.mergedFrom, n.Typed
  displaced : ∀ d ∈ merge.info.displaced, IsCommitId d

def Operation.Typed {ρ : Type} : Operation Bytes ρ → Prop
  | .commitBranch _ request => request.Typed
  | .mergeBranch _ request =>
    request.branch.length = 17 ∧ ∀ merge, request.head = .commit merge → merge.Typed
  | _ => True

def Operation.Displaces {κ ρ : Type} (s : Catalog κ ρ) : Operation κ ρ → Prop
  | .mergeBranch _ request =>
    ∀ merge, request.head = .commit merge → ∀ d ∈ merge.info.displaced, s.Holds d
  | _ => True

/-! ## Derived records -/

section Derived

variable {ρ : Type} {hash : Bytes → Bytes}

def Derived (hash : Bytes → Bytes) (record : CommitRecord Bytes ρ) : Prop :=
  record.Typed ∧ record.id = commitTag :: hash record.frame

theorem Derived.isCommitId (hwidth : ∀ bytes, (hash bytes).length = 32)
    {record : CommitRecord Bytes ρ} (h : Derived hash record) : IsCommitId record.id := by
  rw [h.2]
  exact ⟨by rw [List.length_cons, hwidth], rfl⟩

theorem length_messageBytes {message : String} :
    (messageBytes message).length = message.utf8ByteSize := by
  rw [messageBytes, List.length_map]
  rfl

theorem stamped_message {info : CommitMeta Bytes ρ} (hcheck : info.check = .ok ()) :
    ∀ m ∈ (info.stamped branch now).message, (messageBytes m).length < 256 ^ 8 := by
  intro m hm
  have hm : info.message.getD (info.via.name ++ " filesystem change") = m := Option.some.inj hm
  rw [length_messageBytes, ← hm]
  cases hmessage : info.message with
  | none =>
    rw [Option.getD_none, String.utf8ByteSize_append]
    cases info.via <;> decide
  | some text =>
    simp only [CommitMeta.check, hmessage, require_eq_ok, Bool.and_eq_true, decide_eq_true_eq]
      at hcheck
    exact lt_of_le_of_lt hcheck.1 (by decide)

/-- **The record a request makes is typed**, its message checked. -/
theorem derived_madeCommit {root baseLayer : Bytes} {parent : Option Bytes}
    {second : Option (NodeId Bytes)} {info : CommitMeta Bytes CommitFacts}
    (hroot : root.length = 32) (hparent : ∀ p ∈ parent, IsCommitId p) (hbase : IsLayerId baseLayer)
    (hsecond : ∀ n ∈ second, n.Typed) (hbranch : branch.length = 17)
    (hmerged : ∀ n ∈ info.mergedFrom, n.Typed) (hdisplaced : ∀ d ∈ info.displaced, IsCommitId d)
    (hcheck : info.check = .ok ()) :
    Derived hash (Catalog.madeCommit (blake hash) now stack branch root parent baseLayer second
      info) := by
  refine ⟨⟨hroot, hparent, hbase, hsecond, ?_, stamped_message hcheck, hmerged, hdisplaced⟩, rfl⟩
  intro b hb
  cases hb
  exact hbranch

end Derived

namespace Catalog

variable {hash : Bytes → Bytes} {s s' : Catalog Bytes CommitFacts}

/-- **A Commit is new unless a stored one has its Branch, its parent and its displaced head.** -/
theorem Headed.fresh (hinj : Function.Injective hash) (h : s.Headed (Derived hash))
    {record : CommitRecord Bytes CommitFacts} (hrecord : Derived hash record)
    (hnew : ∀ stored ∈ s.commits, stored.SameIdentity record → False) : ¬s.Holds record.id := by
  rintro ⟨stored, hstored, hid⟩
  obtain ⟨htyped, hderived⟩ := h.derived stored hstored
  rw [hderived, hrecord.2] at hid
  exact hnew stored hstored (CommitRecord.frame_inj htyped hrecord.1 (hinj (List.cons.inj hid).2))

/-! ## Commits -/

def moved (row : BranchRecord Bytes) (request : CommitRequest Bytes CommitFacts) : Bool :=
  decide (row.baseLayer ≠ request.expectedBase) || decide (row.headCommit ≠ request.expectedHead)

/-- The Commit `commit_branch` makes on a Branch. -/
def committed (hash : Bytes → Bytes) (now : ℕ) (row : BranchRecord Bytes)
    (request : CommitRequest Bytes CommitFacts) : CommitRecord Bytes CommitFacts :=
  madeCommit (blake hash) now row.stack request.branch request.candidateRoot request.expectedHead
    request.expectedBase request.secondParent
    { request.info with displaced := if moved row request then row.headCommit else none }

def UpToDate (s : Catalog Bytes CommitFacts) (request : CommitRequest Bytes CommitFacts) : Prop :=
  ∃ row baseRoot, s.branch request.branch = some row ∧
    s.layerRoot request.expectedBase = .ok baseRoot ∧
    s.rootOf row baseRoot row.headCommit = .ok request.candidateRoot

theorem headCommit_of_displaced {d : Bytes}
    (hd : (if moved row request then row.headCommit else none) = some d) :
    row.headCommit = some d := by
  split_ifs at hd
  exact hd

theorem derived_committed (hwidth : ∀ bytes, (hash bytes).length = 32) (h : s.Headed (Derived hash))
    (htyped : request.Typed) (hrow : s.branch request.branch = some row)
    (hcheck : request.info.check = .ok ()) : Derived hash (committed hash now row request) := by
  refine derived_madeCommit htyped.candidateRoot htyped.expectedHead htyped.expectedBase
    htyped.secondParent htyped.branch htyped.mergedFrom (fun d hd => ?_) hcheck
  have hhead : s.headOf request.branch = some (some d) := by
    rw [headOf, hrow, ← headCommit_of_displaced hd]
    rfl
  obtain ⟨record, hrecord, rfl⟩ := h.headed _ d hhead
  exact (h.derived record hrecord).isCommitId hwidth

/-- **No Commit of the Branch was put on its head the same way.** -/
theorem fresh_committed (hinj : Function.Injective hash)
    (hwidth : ∀ bytes, (hash bytes).length = 32) (h : s.Headed (Derived hash))
    (htyped : request.Typed) (hrow : s.branch request.branch = some row)
    (hcheck : request.info.check = .ok ()) : ¬s.Holds (committed hash now row request).id := by
  refine h.fresh hinj (derived_committed hwidth h htyped hrow hcheck) fun stored hstored hsame => ?_
  have hon : stored.info.branch = some request.branch := hsame.branch
  have hhead : s.headOf request.branch = some row.headCommit := by
    rw [headOf, hrow]
    rfl
  rcases hold : row.headCommit with _ | head
  · -- a Branch without a head has no Commit
    obtain ⟨on, other, hbranch, hother⟩ := h.branched stored hstored
    cases Option.some.inj (hbranch.symm.trans hon)
    rw [hhead, hold] at hother
    cases hother
  · rw [hold] at hhead
    obtain ⟨hdisplaced, hparent⟩ := h.unused _ head hhead stored hstored hon
    have hdrop : stored.info.displaced = if moved row request then row.headCommit else none :=
      hsame.displaced
    cases hmoved : moved row request with
    | true =>
      rw [hmoved, if_pos rfl, hold] at hdrop
      exact hdisplaced hdrop
    | false =>
      rw [hmoved, if_neg (by simp)] at hdrop
      have hexpected : row.headCommit = request.expectedHead := by
        simp only [moved, Bool.or_eq_false_iff, decide_eq_false_iff_not, not_not] at hmoved
        exact hmoved.2
      exact hparent hdrop (hsame.parent.trans (hexpected.symm.trans hold))

/-- **A Commit is up to date, or makes a new head of its Branch.** -/
theorem commitBranch_effect (hinj : Function.Injective hash)
    (hwidth : ∀ bytes, (hash bytes).length = 32) (h : s.Headed (Derived hash))
    (htyped : request.Typed) (hcommit : s.commitBranch (blake hash) now request = .ok s') :
    (s.UpToDate request ∧ s' = s) ∨
      ∃ record, Derived hash record ∧ s.Publishes record request.branch s' := by
  simp only [commitBranch, history_bind_eq_ok, found_eq_ok] at hcommit
  obtain ⟨row, hrow, -, -, -, -, -, -, baseRoot, hbaseRoot, -, -, -, -, current, hcurrent,
    hcommit⟩ := hcommit
  by_cases hroot : request.candidateRoot = current
  · rw [if_pos hroot] at hcommit
    subst hroot
    exact .inl ⟨⟨row, baseRoot, hrow, hbaseRoot, hcurrent⟩, (Except.ok.inj hcommit).symm⟩
  · rw [if_neg hroot, history_bind_eq_ok] at hcommit
    obtain ⟨⟨id, s₁⟩, hnew, hadvance⟩ := hcommit
    cases hadvance
    have hcheck : request.info.check = .ok () := by
      simp only [newCommit, history_bind_eq_ok] at hnew
      obtain ⟨_, hcheck, -⟩ := hnew
      exact hcheck
    have hfresh : ¬s.Holds (committed hash now row request).id :=
      fresh_committed hinj hwidth h htyped hrow hcheck
    obtain ⟨-, hparent, hid, hcommits, hbranches⟩ := newCommit_of_fresh hfresh hnew
    have hhead : ∀ other, s₁.headOf other = s.headOf other := by
      intro other
      rw [headOf, Catalog.branch, hbranches]
      rfl
    have hheadRow : s.headOf request.branch = some row.headCommit := by
      rw [headOf, hrow]
      rfl
    refine .inr ⟨_, derived_committed hwidth h htyped hrow hcheck, hfresh, rfl, hparent, ?_,
      hcommits, ?_, fun other hother => ?_⟩
    · intro d hd
      rw [headCommit_of_displaced hd] at hheadRow
      exact h.headed _ d hheadRow
    · rw [headOf_advanceBranch, if_pos rfl, hhead, hheadRow, hid]
      rfl
    · rw [headOf_advanceBranch, if_neg hother, hhead]

theorem spares_rootOf {baseRoot : Bytes} {head : Option Bytes} :
    Spares (s.rootOf row baseRoot head) := by
  cases head with
  | none => exact spares_ok
  | some head =>
    exact (spares_found (by simp)).bind fun _ _ => (spares_require (by simp)).bind
      fun _ _ => spares_ok

/-- **A Commit is never refused for its identity.** -/
theorem spares_commitBranch (hinj : Function.Injective hash)
    (hwidth : ∀ bytes, (hash bytes).length = 32) (h : s.Headed (Derived hash))
    (htyped : request.Typed) : Spares (s.commitBranch (blake hash) now request) := by
  refine (spares_found (by simp)).bind fun row hrow => (spares_found (by simp)).bind fun _ _ =>
    (spares_require (by simp)).bind fun _ _ => (spares_require (by simp)).bind fun _ _ =>
    Spares.bind (spares_found (by simp)) fun _ _ => spares_rootOf.bind fun _ _ =>
    (spares_require (by simp)).bind fun _ _ => spares_rootOf.bind fun current _ => ?_
  by_cases hroot : request.candidateRoot = current
  · rw [if_pos hroot]
    exact spares_ok
  · rw [if_neg hroot]
    refine Spares.bind (spares_newCommit (fun _ => spares_storableFacts) fun hcheck => ?_)
      fun _ _ => spares_ok
    exact fresh_committed hinj hwidth h htyped (found_eq_ok.mp hrow) hcheck

/-! ## Merges -/

/-- The Commit `merge_branch` makes. -/
def mergedCommit (hash : Bytes → Bytes) (now : ℕ) (request : BranchMergeRequest Bytes CommitFacts)
    (merge : MergeCommit Bytes CommitFacts) : CommitRecord Bytes CommitFacts :=
  madeCommit (blake hash) now request.stack request.branch merge.root merge.parent merge.base
    (some merge.secondParent) merge.info

theorem derived_mergedCommit {request : BranchMergeRequest Bytes CommitFacts}
    (hbranch : request.branch.length = 17) (htyped : merge.Typed)
    (hcheck : merge.info.check = .ok ()) : Derived hash (mergedCommit hash now request merge) := by
  refine derived_madeCommit htyped.root htyped.parent htyped.base (fun n hn => ?_) hbranch
    htyped.mergedFrom htyped.displaced hcheck
  cases hn
  exact htyped.secondParent

/-- **The Branch of a merge is new, so no Commit was made on it.** -/
theorem fresh_mergedCommit (hinj : Function.Injective hash) (h : s.Headed (Derived hash))
    {request : BranchMergeRequest Bytes CommitFacts} (hbranch : request.branch.length = 17)
    (htyped : merge.Typed) (hfree : s.branch request.branch = none)
    (hcheck : merge.info.check = .ok ()) : ¬s.Holds (mergedCommit hash now request merge).id := by
  refine h.fresh hinj (derived_mergedCommit hbranch htyped hcheck) fun stored hstored hsame => ?_
  obtain ⟨on, head, hon, hhead⟩ := h.branched stored hstored
  cases Option.some.inj (hon.symm.trans hsame.branch)
  rw [headOf, hfree] at hhead
  cases hhead

/-- **A merge adds a Branch at a Commit that exists, or at the new one it makes.** -/
theorem mergeBranch_effect (hinj : Function.Injective hash) (h : s.Headed (Derived hash))
    {request : BranchMergeRequest Bytes CommitFacts}
    (htyped : (Operation.mergeBranch now request).Typed)
    (hdisplaces : (Operation.mergeBranch now request).Displaces s)
    (hmerge : s.mergeBranch (blake hash) now request = .ok s') :
    Effect (Derived hash) s s' ∧ ∀ merge, request.head = .commit merge →
      ∃ record, Derived hash record ∧ s.Publishes record request.branch s' := by
  simp only [mergeBranch, history_bind_eq_ok] at hmerge
  obtain ⟨-, -, -, -, _, hfree, ⟨base, existing⟩, hexisting, -, -, -, -, ⟨head, s₁⟩, hhead,
    hinsert⟩ := hmerge
  cases hinsert
  have hfree := requireBranchFree_eq_ok hfree
  rcases hkind : request.head with node | merge
  · simp only [mergedHead, hkind] at hhead
    cases hhead
    exact ⟨.branched _ hfree (mergeBaseHead_holds hexisting) rfl rfl,
      fun merge hmerge => by cases hmerge⟩
  · simp only [mergedHead, hkind, history_bind_eq_ok] at hhead
    obtain ⟨⟨id, s₂⟩, hnew, hvalue⟩ := hhead
    cases hvalue
    have hcheck : merge.info.check = .ok () := by
      simp only [newCommit, history_bind_eq_ok] at hnew
      obtain ⟨_, hcheck, -⟩ := hnew
      exact hcheck
    have hmergeTyped := htyped.2 merge hkind
    have hfresh : ¬s.Holds (mergedCommit hash now request merge).id :=
      fresh_mergedCommit hinj h htyped.1 hmergeTyped hfree hcheck
    obtain ⟨-, hparent, hid, hcommits, hbranches⟩ := newCommit_of_fresh hfresh hnew
    have hrows : ∀ row, (s₂.insertBranch row).branches = row :: s.branches := by
      intro row
      rw [insertBranch, hbranches]
    have hpublish : s.Publishes (mergedCommit hash now request merge) request.branch
        (s₂.insertBranch ⟨request.branch, request.stack, request.name, base, some id,
          some request.left.2⟩) := by
      refine ⟨hfresh, rfl, hparent, hdisplaces merge hkind, hcommits, ?_, fun other hother => ?_⟩
      · rw [headOf_cons (hrows _), if_pos rfl, hid]
        rfl
      · rw [headOf_cons (hrows _), if_neg (Ne.symm hother)]
    have hderived : Derived hash (mergedCommit hash now request merge) :=
      derived_mergedCommit htyped.1 hmergeTyped hcheck
    exact ⟨.published _ _ hderived hpublish, fun _ _ => ⟨_, hderived, hpublish⟩⟩

theorem spares_sideNode : Spares (s.sideNode stack side) := by
  cases side with
  | main => exact (spares_found (by simp)).bind fun _ _ => spares_ok
  | branch id =>
    exact (spares_found (by simp)).bind fun _ _ => (spares_require (by simp)).bind
      fun _ _ => spares_ok

theorem sideMoved_ne {expected actual : NodeId Bytes} :
    s.sideMoved side expected actual ≠ .integrity "Commit identity" := by
  cases side with
  | main => cases expected <;> cases actual <;> simp [sideMoved]
  | branch id =>
    simp only [sideMoved]
    rcases s.branch id with _ | row
    · simp
    · cases expected <;> simp

theorem spares_requireSide {side : MergeSide Bytes × NodeId Bytes} :
    Spares (s.requireSide stack side) :=
  spares_sideNode.bind fun _ _ => spares_require sideMoved_ne

theorem spares_requireOwned {node : NodeId Bytes} : Spares (s.requireOwned stack node) := by
  refine Spares.bind (spares_found ?_) fun _ _ => spares_require (by simp)
  cases node <;> simp

theorem spares_mergeBaseHead {head : MergeHead Bytes CommitFacts} :
    Spares (s.mergeBaseHead head) := by
  rcases head with (id | id) | merge
  · exact (spares_found (by simp)).bind fun _ _ => spares_ok
  · exact spares_ok
  · exact spares_ok

/-- **A merge is never refused for the identity of its Commit.** -/
theorem spares_mergeBranch (hinj : Function.Injective hash) (h : s.Headed (Derived hash))
    {request : BranchMergeRequest Bytes CommitFacts}
    (htyped : (Operation.mergeBranch now request).Typed) :
    Spares (s.mergeBranch (blake hash) now request) := by
  have hfreeSpares : Spares (s.requireBranchFree request.stack request.branch request.name) :=
    (spares_require (by simp)).bind fun _ _ => spares_require (by simp)
  refine spares_requireSide.bind fun _ _ => spares_requireSide.bind fun _ _ =>
    hfreeSpares.bind fun _ hfree => spares_mergeBaseHead.bind fun baseHead _ =>
    spares_requireOwned.bind fun _ _ => Spares.bind ?_ fun _ _ => Spares.bind ?_
    fun _ _ => spares_ok
  · rcases baseHead.2 with _ | id
    · exact spares_ok
    · exact spares_requireOwned.bind fun _ _ => spares_ok
  · rcases hkind : request.head with node | merge
    · simp only [mergedHead, hkind]
      exact spares_ok
    · simp only [mergedHead, hkind]
      refine Spares.bind (spares_newCommit (fun _ => spares_storableFacts) fun hcheck => ?_)
        fun _ _ => spares_ok
      exact fresh_mergedCommit hinj h htyped.1 (htyped.2 merge hkind)
        (requireBranchFree_eq_ok hfree) hcheck

end Catalog

section Run

variable {hash : Bytes → Bytes} {s s' : Catalog Bytes CommitFacts}

/-- **What one operation does.** -/
theorem Operation.effect (hinj : Function.Injective hash)
    (hwidth : ∀ bytes, (hash bytes).length = 32) (h : s.Headed (Derived hash))
    {operation : Operation Bytes CommitFacts} (htyped : operation.Typed)
    (hdisplaces : operation.Displaces s) (happly : operation.apply (blake hash) s = .ok s') :
    Catalog.Effect (Derived hash) s s' := by
  cases operation with
  | initializeLayerstack request => exact .same (Catalog.initializeLayerstack_sameHeads happly)
  | fork request => exact Catalog.fork_effect happly
  | commitBranch now request =>
    rcases Catalog.commitBranch_effect hinj hwidth h htyped happly with
      ⟨-, rfl⟩ | ⟨record, hderived, hpublish⟩
    · exact .same ⟨rfl, rfl⟩
    · exact .published record _ hderived hpublish
  | mergeBranch now request => exact (Catalog.mergeBranch_effect hinj h htyped hdisplaces happly).1
  | addLayer request => exact .same (Catalog.addLayer_sameHeads happly)

def Step (hash : Bytes → Bytes) (s s' : Catalog Bytes CommitFacts) : Prop :=
  ∃ operation : Operation Bytes CommitFacts, operation.Typed ∧ operation.Displaces s ∧
    operation.apply (blake hash) s = .ok s'

abbrev Run (hash : Bytes → Bytes) := Relation.ReflTransGen (Step hash)

/-- **Every run keeps the invariant, and is a chain of effects.** -/
theorem Run.effects (hinj : Function.Injective hash) (hwidth : ∀ bytes, (hash bytes).length = 32)
    (h : s.Headed (Derived hash)) (hrun : Run hash s s') :
    s'.Headed (Derived hash) ∧ Relation.ReflTransGen (Catalog.Effect (Derived hash)) s s' := by
  induction hrun with
  | refl => exact ⟨h, .refl⟩
  | tail _ hstep ih =>
    obtain ⟨hheaded, heffects⟩ := ih
    obtain ⟨operation, htyped, hdisplaces, happly⟩ := hstep
    have heffect := Operation.effect hinj hwidth hheaded htyped hdisplaces happly
    exact ⟨hheaded.effect heffect, heffects.tail heffect⟩

/-- **A Branch never holds one head at two separated moments.** Over a hash without collisions, in
every catalog a run reaches: a Commit or a merge is never refused for the identity of its Commit; a
Commit is up to date or makes one of a new identity, and so does a merge that makes one; and when a
Branch has the head it had before, it had it in between, and no Commit was made on it. -/
theorem head_unrepeated (hinj : Function.Injective hash)
    (hwidth : ∀ bytes, (hash bytes).length = 32) (hs : Run hash .empty s) :
    (∀ now request, (Operation.commitBranch now request).Typed →
      s.commitBranch (blake hash) now request ≠ .error (.integrity "Commit identity")) ∧
    (∀ now request, (Operation.mergeBranch now request).Typed →
      s.mergeBranch (blake hash) now request ≠ .error (.integrity "Commit identity")) ∧
    (∀ now request s', (Operation.commitBranch now request).Typed →
      s.commitBranch (blake hash) now request = .ok s' →
      (s.UpToDate request ∧ s' = s) ∨ ∃ record, s.commit record.id = none ∧
        s'.commits = record :: s.commits ∧ record.info.branch = some request.branch ∧
        s'.headOf request.branch = some (some record.id)) ∧
    (∀ now request merge s', request.head = .commit merge →
      (Operation.mergeBranch now request).Typed → (Operation.mergeBranch now request).Displaces s →
      s.mergeBranch (blake hash) now request = .ok s' → ∃ record, s.commit record.id = none ∧
        s'.commits = record :: s.commits ∧ record.info.branch = some request.branch ∧
        s'.headOf request.branch = some (some record.id)) ∧
    ∀ t u, Run hash s t → Run hash t u → ∀ branch head, s.headOf branch = some head →
      u.headOf branch = some head → t.headOf branch = some head ∧
        ∀ record ∈ u.commits, record.info.branch = some branch → record ∈ s.commits := by
  have hheaded := (Run.effects hinj hwidth Catalog.headed_empty hs).1
  refine ⟨fun now request htyped => Catalog.spares_commitBranch hinj hwidth hheaded htyped,
    fun now request htyped => Catalog.spares_mergeBranch hinj hheaded htyped, ?_, ?_, ?_⟩
  · intro now request s' htyped hcommit
    rcases Catalog.commitBranch_effect hinj hwidth hheaded htyped hcommit with
      hdone | ⟨record, -, hpublish⟩
    · exact .inl hdone
    · exact .inr ⟨record, Catalog.commit_eq_none_iff.mpr hpublish.fresh, hpublish.commits,
        hpublish.made, hpublish.head⟩
  · intro now request merge s' hkind htyped hdisplaces hmerge
    obtain ⟨record, -, hpublish⟩ :=
      (Catalog.mergeBranch_effect hinj hheaded htyped hdisplaces hmerge).2 merge hkind
    exact ⟨record, Catalog.commit_eq_none_iff.mpr hpublish.fresh, hpublish.commits, hpublish.made,
      hpublish.head⟩
  · intro t u hst htu branch head hsHead huHead
    obtain ⟨htHeaded, hstEffects⟩ := Run.effects hinj hwidth hheaded hst
    obtain ⟨-, htuEffects⟩ := Run.effects hinj hwidth htHeaded htu
    exact hheaded.unrepeated hstEffects htuEffects hsHead huHead

end Run

/-! ## A first Commit -/

def packed : Bytes → ℕ
  | [] => 0
  | b :: rest => 2 ^ b * (2 * packed rest + 1)

/-- A digest without collisions, its first element as large as it has to be. -/
def packing (bytes : Bytes) : Bytes := packed bytes :: List.replicate 31 0

theorem two_pow_mul_odd_inj {a m n : ℕ} (h : 2 ^ a * (2 * m + 1) = 2 ^ b * (2 * n + 1)) :
    a = b ∧ m = n := by
  induction a generalizing b with
  | zero =>
    cases b with
    | zero => exact ⟨rfl, by omega⟩
    | succ b =>
      rw [Nat.pow_succ, Nat.mul_comm (2 ^ b), Nat.mul_assoc] at h
      omega
  | succ a ih =>
    cases b with
    | zero =>
      rw [Nat.pow_succ, Nat.mul_comm (2 ^ a), Nat.mul_assoc] at h
      omega
    | succ b =>
      rw [Nat.pow_succ, Nat.pow_succ, Nat.mul_comm (2 ^ a), Nat.mul_comm (2 ^ b), Nat.mul_assoc,
        Nat.mul_assoc] at h
      obtain ⟨hab, hmn⟩ := ih (Nat.eq_of_mul_eq_mul_left Nat.two_pos h)
      exact ⟨congrArg Nat.succ hab, hmn⟩

theorem packed_cons_pos {rest : Bytes} : 0 < packed (b :: rest) :=
  Nat.mul_pos (Nat.two_pow_pos b) (Nat.succ_pos _)

theorem packed_injective : Function.Injective packed := by
  intro bytes
  induction bytes with
  | nil =>
    rintro (_ | ⟨b, rest⟩) h
    · rfl
    · exact absurd h (Nat.ne_of_lt packed_cons_pos)
  | cons b rest ih =>
    rintro (_ | ⟨c, others⟩) h
    · exact absurd h.symm (Nat.ne_of_lt packed_cons_pos)
    · obtain ⟨hb, hrest⟩ := two_pow_mul_odd_inj h
      rw [hb, ih hrest]

theorem packing_injective : Function.Injective packing :=
  fun _ _ h => packed_injective (List.cons.inj h).1

theorem length_packing (bytes : Bytes) : (packing bytes).length = 32 := by
  rw [packing, List.length_cons, List.length_replicate]

def firstStack : Bytes := 0x31 :: List.replicate 16 0

def firstBranch : Bytes := 0x11 :: List.replicate 16 0

def firstRoot : Bytes := List.replicate 32 0

def nextRoot : Bytes := List.replicate 32 1

def genesisOf (hash : Bytes → Bytes) : Bytes :=
  layerTag :: hash (layerFrame firstStack none firstRoot)

def firstCatalog (hash : Bytes → Bytes) : Catalog Bytes CommitFacts where
  layerStacks := [⟨firstStack, "main", [], [], genesisOf hash⟩]
  layers := [⟨0, genesisOf hash, firstStack, none, firstRoot, none, none, 0⟩]
  commits := []
  branches :=
    [⟨firstBranch, firstStack, "work", genesisOf hash, none, some (.layer (genesisOf hash))⟩]
  commitLineage := []
  layerLineage := [⟨genesisOf hash, firstStack, 0, 0⟩]
  absorbed := []
  reach := []

def firstRequest (hash : Bytes → Bytes) : CommitRequest Bytes CommitFacts where
  branch := firstBranch
  expectedHead := none
  expectedBase := genesisOf hash
  expectedRoot := firstRoot
  candidateRoot := nextRoot
  profile := []
  scope := []
  secondParent := none
  info := ⟨none, .workspace, none, none, none, 0, 0, ⟨0, 0, 0, [], false, []⟩⟩
  force := false

theorem run_firstCatalog (hash : Bytes → Bytes) : Run hash .empty (firstCatalog hash) := by
  have hstart : Step hash .empty { firstCatalog hash with branches := [] } :=
    ⟨.initializeLayerstack ⟨firstStack, "main", [], [], firstRoot, 0⟩, trivial, trivial, rfl⟩
  have hfork : Step hash { firstCatalog hash with branches := [] } (firstCatalog hash) := by
    refine ⟨.fork ⟨firstStack, firstBranch, "work", .layer (genesisOf hash)⟩, trivial, trivial, ?_⟩
    simp [Operation.apply, Catalog.fork, firstCatalog, Catalog.layerStack, Catalog.layer,
      Catalog.requireBranchFree, Catalog.branch, require, found, bind, Except.bind, pure,
      Except.pure, Catalog.insertBranch]
  exact (Relation.ReflTransGen.single hstart).tail hfork

theorem nextRoot_ne : nextRoot ≠ firstRoot := by decide

theorem firstRequest_accepted (hash : Bytes → Bytes) :
    ∃ s', (firstCatalog hash).commitBranch (blake hash) 7 (firstRequest hash) = .ok s' := by
  simp [Catalog.commitBranch, firstCatalog, firstRequest, Catalog.layerStack, Catalog.layer,
    Catalog.branch, require, found, bind, Except.bind, pure, Except.pure, Catalog.layerRoot,
    Catalog.rootOf, nextRoot_ne, Catalog.newCommit, CommitMeta.check, Catalog.verifyCommit,
    Catalog.commit, Catalog.insertCommit, Catalog.stackOf, blake, storableFacts, fitsColumn,
    encodeFacts, CommitMeta.stamped, Catalog.recordParents, Catalog.firstLine,
    Catalog.secondLine, Catalog.layerLine, Catalog.layerRow, Catalog.insertCommitRow,
    Catalog.commitRow, Catalog.commitAt]

theorem firstRequest_not_upToDate (hash : Bytes → Bytes) :
    ¬(firstCatalog hash).UpToDate (firstRequest hash) := by
  rintro ⟨row, baseRoot, hrow, hbase, hroot⟩
  have hrow : (firstCatalog hash).branches.head? = some row := by
    simpa [Catalog.branch, firstCatalog, firstRequest] using hrow
  cases hrow
  have hbase : firstRoot = baseRoot := by
    simpa [Catalog.layerRoot, Catalog.layer, firstCatalog, firstRequest, found] using hbase
  exact nextRoot_ne ((Except.ok.inj hroot).symm.trans hbase.symm)

theorem firstRequest_typed : (firstRequest packing).Typed where
  branch := rfl
  expectedHead _ h := absurd h (by simp [firstRequest])
  expectedBase := ⟨by
    rw [firstRequest, genesisOf, List.length_cons, length_packing], rfl⟩
  candidateRoot := rfl
  secondParent _ h := absurd h (by simp [firstRequest])
  mergedFrom _ h := absurd h (by simp [firstRequest])

/-- The first Commit of a Branch is new and becomes its head. -/
theorem head_unrepeated_first : Run packing .empty (firstCatalog packing) ∧
    ∃ s' id, (firstCatalog packing).commitBranch (blake packing) 7 (firstRequest packing)
      = .ok s' ∧ (firstCatalog packing).commit id = none ∧
      s'.headOf firstBranch = some (some id) := by
  refine ⟨run_firstCatalog packing, ?_⟩
  obtain ⟨s', hcommit⟩ := firstRequest_accepted packing
  obtain ⟨-, -, hnew, -, -⟩ :=
    head_unrepeated packing_injective length_packing (run_firstCatalog packing)
  rcases hnew 7 _ s' firstRequest_typed hcommit with ⟨hdone, -⟩ | ⟨record, hfresh, -, -, hhead⟩
  · exact absurd hdone (firstRequest_not_upToDate packing)
  · exact ⟨s', record.id, hcommit, hfresh, hhead⟩

end LayerFs.History
