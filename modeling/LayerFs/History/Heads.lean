import LayerFs.History.Identity

/-!
# A Branch never returns to a head

A Commit's identity leaves out its time, its byte counts and its merge facts, so a Commit that
repeated an older one in all the rest would be refused, or would bring an old head back. It cannot:
on one Branch a Commit either has the current head as its parent and displaces nothing, or it
displaces the current head, and no Commit made on the Branch before did the same to that head.

* `Headed` — **the invariant**: no Commit of a Branch was already put on its present head.
* `head_unrepeated` — **every run**.
-/

namespace LayerFs.History

open List

variable {now : ℕ}

/-! ## Refusals -/

section Refusals

variable {κ α β : Type}

def Spares (r : HistoryResult κ α) : Prop := r ≠ .error (.integrity "Commit identity")

theorem spares_ok {a : α} : Spares (.ok a : HistoryResult κ α) := fun h => by cases h

variable {e : HistoryError κ}

theorem spares_error (he : e ≠ .integrity "Commit identity") :
    Spares (.error e : HistoryResult κ α) := fun h => he (Except.error.inj h)

variable {f : α → HistoryResult κ β}

theorem Spares.bind {x : HistoryResult κ α} (hx : Spares x) (hf : ∀ a, x = .ok a → Spares (f a)) :
    Spares (x >>= f) := by
  cases x with
  | error e => exact fun h => hx (by rw [Except.error.inj h])
  | ok a => exact hf a rfl

theorem spares_require {check : Bool} (he : e ≠ .integrity "Commit identity") :
    Spares (require check e) := by
  cases check with
  | false => exact spares_error he
  | true => exact spares_ok

theorem spares_found {o : Option α} (he : e ≠ .integrity "Commit identity") :
    Spares (found o e) := by
  cases o with
  | none => exact spares_error he
  | some a => exact spares_ok

theorem spares_mapM (hf : ∀ a, Spares (f a)) (as : List α) : Spares (as.mapM f) := by
  induction as with
  | nil => exact spares_ok
  | cons a as ih =>
    rw [mapM_cons]
    exact (hf a).bind fun _ _ => ih.bind fun _ _ => spares_ok

theorem spares_putCount {count : ℕ} : Spares (putCount count : HistoryResult κ Bytes) := by
  unfold putCount
  split_ifs
  · exact spares_ok
  · exact spares_error (by simp)

theorem spares_putFact {text : String} : Spares (putFact text : HistoryResult κ Bytes) :=
  spares_putCount.bind fun _ _ => spares_ok

theorem spares_encodeFacts {values : List LwwDecision} {units : List MergeUnit} :
    Spares (encodeFacts values units : HistoryResult κ Bytes) := by
  refine (spares_mapM (fun value => ?_) values).bind fun decisions _ => ?_
  · exact spares_putFact.bind fun _ _ => spares_putFact.bind fun _ _ => spares_ok
  · split_ifs
    · exact spares_ok
    · refine spares_putCount.bind fun _ _ =>
        (spares_mapM (fun unit => ?_) units).bind fun _ _ => spares_ok
      exact spares_putFact.bind fun _ _ => spares_putCount.bind fun _ _ =>
        (spares_mapM (fun _ => spares_putFact) unit.patterns).bind fun _ _ => spares_ok

theorem spares_storableFacts {info : CommitMeta κ CommitFacts} : Spares (storableFacts info) :=
  have hcolumn : ∀ count what, Spares (fitsColumn count what : HistoryResult κ Unit) :=
    fun _ _ => spares_require (by simp)
  (hcolumn _ _).bind fun _ _ => (hcolumn _ _).bind fun _ _ => (hcolumn _ _).bind fun _ _ =>
    (hcolumn _ _).bind fun _ _ => spares_encodeFacts.bind fun _ _ => spares_ok

end Refusals

namespace Catalog

/-! ## Making a Commit -/

section Made

variable {κ ρ : Type} [DecidableEq κ] {codec : Codec κ ρ} {s s' : Catalog κ ρ}

/-- The record `new_commit` derives. -/
def madeCommit (codec : Codec κ ρ) (now : ℕ) (stack branch root : κ) (parent : Option κ)
    (baseLayer : κ) (second : Option (NodeId κ)) (info : CommitMeta κ ρ) : CommitRecord κ ρ :=
  ⟨codec.commitId root parent baseLayer second (info.stamped branch now), stack, root, parent,
    baseLayer, second, info.stamped branch now⟩

def Holds (s : Catalog κ ρ) (id : κ) : Prop := ∃ record ∈ s.commits, record.id = id

variable {record : CommitRecord κ ρ} {id : κ}

theorem holds_of_commit (h : s.commit id = some record) : s.Holds id :=
  ⟨record, mem_of_find?_eq_some h, by simpa using find?_some h⟩

theorem commit_eq_none_iff : s.commit id = none ↔ ¬s.Holds id := by
  simp [commit, Holds]

def SameHeads (s s' : Catalog κ ρ) : Prop := s'.commits = s.commits ∧ s'.branches = s.branches

variable {second : Option (NodeId κ)} {parent : Option κ} {baseLayer : κ}

theorem recordParents_sameHeads (h : s.recordParents id parent baseLayer second = .ok s') :
    s.SameHeads s' := by
  simp only [recordParents, history_bind_eq_ok] at h
  obtain ⟨⟨run, depth, first⟩, -, ⟨newest, merged⟩, -, hinsert⟩ := h
  simp only [insertCommitRow, history_bind_eq_ok] at hinsert
  obtain ⟨-, -, hinsert⟩ := hinsert
  cases hinsert
  exact ⟨rfl, rfl⟩

variable {branch stack : κ}

theorem requireBranchFree_eq_ok {name : String} {u : Unit}
    (h : s.requireBranchFree stack branch name = .ok u) : s.branch branch = none := by
  simp only [requireBranchFree, history_bind_eq_ok, require_eq_ok, Option.isNone_iff_eq_none] at h
  obtain ⟨-, hfree, -⟩ := h
  exact hfree

theorem mergeBaseHead_holds {head : MergeHead κ ρ} {base : κ}
    {existing : Option κ} (h : s.mergeBaseHead head = .ok (base, existing)) :
    ∀ id ∈ existing, s.Holds id := by
  rcases head with (id | id) | merge
  · simp only [mergeBaseHead, history_bind_eq_ok, found_eq_ok] at h
    obtain ⟨record, hrecord, hvalue⟩ := h
    cases hvalue
    intro other hother
    cases hother
    exact holds_of_commit hrecord
  · cases h
    exact fun id hid => absurd hid (by simp)
  · cases h
    exact fun id hid => absurd hid (by simp)

theorem initializeLayerstack_sameHeads {request : StackInitialization κ}
    (h : s.initializeLayerstack codec request = .ok s') : s.SameHeads s' := by
  simp only [initializeLayerstack, history_bind_eq_ok] at h
  obtain ⟨-, -, -, -, s₁, hinsert, hrecord⟩ := h
  obtain ⟨-, -, rfl⟩ := insertLayer_eq_ok.mp hinsert
  obtain ⟨-, -, rfl⟩ := recordLayer_eq_ok.mp hrecord
  exact ⟨rfl, rfl⟩

theorem publishLayer_sameHeads {record : LayerRecord κ} {source : CommitLine κ}
    {height : ℕ} (h : s.publishLayer record source height = .ok s') : s.SameHeads s' := by
  simp only [publishLayer, history_bind_eq_ok] at h
  obtain ⟨known, -, h⟩ := h
  split_ifs at h
  · cases h
    exact ⟨rfl, rfl⟩
  · simp only [history_bind_eq_ok] at h
    obtain ⟨s₁, hinsert, s₂, hrecord, habsorb⟩ := h
    obtain ⟨-, -, rfl⟩ := insertLayer_eq_ok.mp hinsert
    obtain ⟨-, -, rfl⟩ := recordLayer_eq_ok.mp hrecord
    obtain ⟨segments, -, rfl⟩ := absorb_eq_ok habsorb
    exact ⟨rfl, rfl⟩

theorem addLayer_sameHeads {request : AddLayerRequest κ}
    (h : s.addLayer codec request = .ok s') : s.SameHeads s' := by
  simp only [addLayer, history_bind_eq_ok] at h
  obtain ⟨stack, -, branch, -, -, -, commit, -, -, -, h⟩ := h
  rcases hpublished : s.publishedSource request.branch request.commit with _ | stored
  · rw [hpublished] at h
    simp only [history_bind_eq_ok] at h
    obtain ⟨-, -, -, -, -, -, headRoot, -, h⟩ := h
    split_ifs at h
    · cases h
      exact ⟨rfl, rfl⟩
    · simp only [history_bind_eq_ok] at h
      obtain ⟨head, -, source, -, covered, -, s₁, hpublish, h⟩ := h
      cases h
      obtain ⟨hcommits, hbranches⟩ := publishLayer_sameHeads hpublish
      exact ⟨hcommits, hbranches⟩
  · rw [hpublished] at h
    simp only [history_bind_eq_ok] at h
    obtain ⟨-, -, h⟩ := h
    cases h
    exact ⟨rfl, rfl⟩

theorem spares_commitLine : Spares (s.commitLine id) := by
  unfold commitLine
  split
  · exact spares_ok
  · exact spares_error (by simp)

theorem spares_layerLine : Spares (s.layerLine id) := spares_found (by simp)

theorem spares_recordParents : Spares (s.recordParents id parent baseLayer second) := by
  refine Spares.bind ?_ fun first _ => Spares.bind ?_ fun _ _ => ?_
  · cases parent with
    | none => exact spares_layerLine.bind fun _ _ => spares_ok
    | some p => exact spares_commitLine.bind fun _ _ => spares_ok
  · rcases second with _ | (c | l)
    · exact spares_ok
    · exact spares_commitLine.bind fun _ _ => spares_ok
    · exact spares_layerLine.bind fun _ _ => spares_ok
  · exact (spares_require (by simp)).bind fun _ _ => spares_ok

variable [DecidableEq ρ]

theorem verifyCommit_of_fresh (hfresh : ¬s.Holds record.id) :
    s.verifyCommit record = .ok false := by
  rw [verifyCommit, commit_eq_none_iff.mpr hfresh]

variable {info : CommitMeta κ ρ} {root : κ}

/-- **What making a Commit of a new identity adds.** -/
theorem newCommit_of_fresh
    (hfresh : ¬s.Holds (madeCommit codec now stack branch root parent baseLayer second info).id)
    (hcommit : s.newCommit codec now stack branch root parent baseLayer second info = .ok (id, s'))
    :
    info.check = .ok () ∧ (∀ p ∈ parent, s.Holds p) ∧
      id = (madeCommit codec now stack branch root parent baseLayer second info).id ∧
      s'.commits =
        madeCommit codec now stack branch root parent baseLayer second info :: s.commits ∧
      s'.branches = s.branches := by
  simp only [newCommit, history_bind_eq_ok] at hcommit
  obtain ⟨_, hcheck, known, hverify, hcommit⟩ := hcommit
  have hunknown : known = false :=
    Except.ok.inj (hverify.symm.trans (verifyCommit_of_fresh hfresh))
  subst hunknown
  simp only [Bool.false_eq_true, if_false, history_bind_eq_ok, insertCommit, require_eq_ok]
    at hcommit
  obtain ⟨-, -, s₁, ⟨-, hparent, -, -, hinsert⟩, s₂, hrecord, hvalue⟩ := hcommit
  cases hinsert
  cases hvalue
  obtain ⟨hcommits, hbranches⟩ := recordParents_sameHeads hrecord
  refine ⟨hcheck, ?_, rfl, hcommits, hbranches⟩
  intro p hp
  cases hp
  have hstack : s.stackOf (.commit p) = some stack := by simpa using hparent
  simp only [stackOf, Option.map_eq_some_iff] at hstack
  obtain ⟨record, hrecord, -⟩ := hstack
  exact holds_of_commit hrecord

/-- **A Commit of a new identity is not refused for it.** -/
theorem spares_newCommit (hstorable : ∀ info, Spares (codec.storable info))
    (hfresh : info.check = .ok () →
      ¬s.Holds (madeCommit codec now stack branch root parent baseLayer second info).id) :
    Spares (s.newCommit codec now stack branch root parent baseLayer second info) := by
  refine Spares.bind ?_ fun _ hcheck => ?_
  · unfold CommitMeta.check
    split
    · exact spares_require (by simp)
    · exact spares_ok
  · have hverify := verifyCommit_of_fresh (hfresh hcheck)
    refine Spares.bind (fun h => ?_) fun known hknown => ?_
    · cases hverify.symm.trans h
    · cases hverify.symm.trans hknown
      refine (hstorable _).bind fun _ _ => Spares.bind ?_ fun _ _ => spares_recordParents.bind
        fun _ _ => spares_ok
      exact (spares_require (by simp)).bind fun _ _ => (spares_require (by simp)).bind
        fun _ _ => spares_ok

end Made

/-! ## What one operation does -/

section Effects

variable {κ ρ : Type} [DecidableEq κ] {s s' : Catalog κ ρ}

def headOf (s : Catalog κ ρ) (branch : κ) : Option (Option κ) :=
  (s.branch branch).map BranchRecord.headCommit

/-- A Commit made on a Branch becomes its head; nothing else changes. -/
structure Publishes (s : Catalog κ ρ) (record : CommitRecord κ ρ) (branch : κ)
    (s' : Catalog κ ρ) : Prop where
  fresh : ¬s.Holds record.id
  made : record.info.branch = some branch
  parent : ∀ p ∈ record.parent, s.Holds p
  displaced : ∀ d ∈ record.info.displaced, s.Holds d
  commits : s'.commits = record :: s.commits
  head : s'.headOf branch = some (some record.id)
  others : ∀ other ≠ branch, s'.headOf other = s.headOf other

/-- **What one operation does to Commits and Branches**; a new Commit is as `derived` says. -/
inductive Effect (derived : CommitRecord κ ρ → Prop) (s s' : Catalog κ ρ) : Prop
  | same (h : s.SameHeads s')
  | branched (row : BranchRecord κ) (hfree : s.branch row.id = none)
      (hhead : ∀ head ∈ row.headCommit, s.Holds head) (hcommits : s'.commits = s.commits)
      (hbranches : s'.branches = row :: s.branches)
  | published (record : CommitRecord κ ρ) (branch : κ) (hderived : derived record)
      (h : s.Publishes record branch s')

theorem SameHeads.headOf (h : s.SameHeads s') (branch : κ) :
    s'.headOf branch = s.headOf branch := by
  rw [Catalog.headOf, Catalog.branch, h.2]
  rfl

theorem headOf_cons {row : BranchRecord κ} (hbranches : s'.branches = row :: s.branches)
    (branch : κ) : s'.headOf branch = if row.id = branch then some row.headCommit
      else s.headOf branch := by
  rw [headOf, Catalog.branch, hbranches, find?_cons]
  by_cases hid : row.id = branch
  · simp [hid]
  · simp only [hid, decide_false, if_false]
    rfl

theorem headOf_advanceBranch {branch head : κ} (other : κ) :
    (s.advanceBranch branch head).headOf other =
      if other = branch then (s.headOf branch).map fun _ => some head else s.headOf other := by
  have hid : ((fun row : BranchRecord κ => decide (row.id = other)) ∘ fun row =>
      if row.id = branch then { row with headCommit := some head } else row) =
      fun row => decide (row.id = other) := by
    funext row
    by_cases hrow : row.id = branch
    · simp [hrow]
    · simp [hrow]
  simp only [headOf, Catalog.branch, advanceBranch, find?_map, hid]
  rcases hrow : s.branches.find? fun row => decide (row.id = other) with _ | row
  · by_cases hother : other = branch
    · subst hother
      simp [hrow]
    · simp [hrow, hother]
  · have hrowId : row.id = other := by simpa using find?_some hrow
    by_cases hother : other = branch
    · subst hother
      simp [hrow, hrowId]
    · simp [hrow, hrowId, hother]

/-- **A fork adds a Branch without a head, or at a Commit that exists.** -/
theorem fork_effect {derived : CommitRecord κ ρ → Prop}
    {request : ForkRequest κ} (hfork : s.fork request = .ok s') :
    Effect derived s s' := by
  simp only [fork, history_bind_eq_ok] at hfork
  obtain ⟨-, -, _, hfree, hfork⟩ := hfork
  have hfree := requireBranchFree_eq_ok hfree
  rcases hsource : request.source with id | ⟨branch, commit⟩
  · rw [hsource] at hfork
    simp only [history_bind_eq_ok] at hfork
    obtain ⟨-, -, -, -, hfork⟩ := hfork
    cases hfork
    exact .branched _ hfree (fun head hhead => absurd hhead (by simp)) rfl rfl
  · rw [hsource] at hfork
    simp only [history_bind_eq_ok, found_eq_ok] at hfork
    obtain ⟨-, -, -, -, selected, hselected, -, -, -, -, -, -, hfork⟩ := hfork
    cases hfork
    refine .branched _ hfree (fun head hhead => ?_) rfl rfl
    cases hhead
    exact holds_of_commit hselected

end Effects

/-! ## The invariant -/

section Invariant

variable {κ ρ : Type} [DecidableEq κ] {derived : CommitRecord κ ρ → Prop} {s s' : Catalog κ ρ}

/-- **No Commit of a Branch was already put on its present head**: none displaced it, and none that
displaced nothing has it as its parent. -/
structure Headed (derived : CommitRecord κ ρ → Prop) (s : Catalog κ ρ) : Prop where
  derived : ∀ record ∈ s.commits, derived record
  branched : ∀ record ∈ s.commits, ∃ branch head,
    record.info.branch = some branch ∧ s.headOf branch = some (some head)
  headed : ∀ branch head, s.headOf branch = some (some head) → s.Holds head
  parents : ∀ record ∈ s.commits, ∀ p ∈ record.parent, s.Holds p
  displaced : ∀ record ∈ s.commits, ∀ d ∈ record.info.displaced, s.Holds d
  unused : ∀ branch head, s.headOf branch = some (some head) → ∀ record ∈ s.commits,
    record.info.branch = some branch → record.info.displaced ≠ some head ∧
      (record.info.displaced = none → record.parent ≠ some head)

theorem headed_empty : (empty : Catalog κ ρ).Headed derived where
  derived _ h := absurd h not_mem_nil
  branched _ h := absurd h not_mem_nil
  headed _ _ h := by cases h
  parents _ h := absurd h not_mem_nil
  displaced _ h := absurd h not_mem_nil
  unused _ _ h := by cases h

omit [DecidableEq κ] in
theorem Holds.of_commits (hcommits : s'.commits = s.commits) {id : κ} (h : s.Holds id) :
    s'.Holds id := by
  rw [Holds, hcommits]
  exact h

theorem Headed.of_heads (h : s.Headed derived) (hcommits : s'.commits = s.commits)
    (hheads : ∀ branch head, s'.headOf branch = some (some head) →
      s.headOf branch = some (some head) ∨
        s.Holds head ∧ ∀ record ∈ s.commits, record.info.branch ≠ some branch)
    (hkept : ∀ branch head, s.headOf branch = some (some head) →
      s'.headOf branch = some (some head)) : s'.Headed derived where
  derived := by
    rw [hcommits]
    exact h.derived
  branched := by
    intro record hrecord
    rw [hcommits] at hrecord
    obtain ⟨branch, head, hbranch, hhead⟩ := h.branched record hrecord
    exact ⟨branch, head, hbranch, hkept branch head hhead⟩
  headed := by
    intro branch head hhead
    rcases hheads branch head hhead with hold | ⟨hholds, -⟩
    · exact (h.headed branch head hold).of_commits hcommits
    · exact hholds.of_commits hcommits
  parents := by
    intro record hrecord p hp
    rw [hcommits] at hrecord
    exact (h.parents record hrecord p hp).of_commits hcommits
  displaced := by
    intro record hrecord d hd
    rw [hcommits] at hrecord
    exact (h.displaced record hrecord d hd).of_commits hcommits
  unused := by
    intro branch head hhead record hrecord hbranch
    rw [hcommits] at hrecord
    rcases hheads branch head hhead with hold | ⟨-, hnone⟩
    · exact h.unused branch head hold record hrecord hbranch
    · exact absurd hbranch (hnone record hrecord)

/-- **A new head is one nothing was put on yet.** -/
theorem Headed.publish {record : CommitRecord κ ρ} {branch : κ} (h : s.Headed derived)
    (hderived : derived record) (hpublish : s.Publishes record branch s') :
    s'.Headed derived := by
  have hmem : ∀ other ∈ s'.commits, other = record ∨ other ∈ s.commits := by
    intro other hother
    rw [hpublish.commits] at hother
    exact mem_cons.mp hother
  have hgrow : ∀ {id : κ}, s.Holds id → s'.Holds id := by
    rintro id ⟨other, hother, hid⟩
    refine ⟨other, ?_, hid⟩
    rw [hpublish.commits]
    exact mem_cons_of_mem _ hother
  have hparents : ∀ other ∈ s'.commits, ∀ p ∈ other.parent, s.Holds p := by
    intro other hother p hp
    rcases hmem other hother with rfl | hold
    · exact hpublish.parent p hp
    · exact h.parents other hold p hp
  have hdisplaced : ∀ other ∈ s'.commits, ∀ d ∈ other.info.displaced, s.Holds d := by
    intro other hother d hd
    rcases hmem other hother with rfl | hold
    · exact hpublish.displaced d hd
    · exact h.displaced other hold d hd
  have hheads : ∀ other head, s'.headOf other = some (some head) →
      (other = branch ∧ head = record.id) ∨
        other ≠ branch ∧ s.headOf other = some (some head) := by
    intro other head hhead
    by_cases hother : other = branch
    · subst hother
      rw [hpublish.head] at hhead
      exact .inl ⟨rfl, (Option.some.inj (Option.some.inj hhead)).symm⟩
    · rw [hpublish.others other hother] at hhead
      exact .inr ⟨hother, hhead⟩
  refine ⟨?_, ?_, ?_, fun other hother p hp => hgrow (hparents other hother p hp),
    fun other hother d hd => hgrow (hdisplaced other hother d hd), ?_⟩
  · intro other hother
    rcases hmem other hother with rfl | hold
    · exact hderived
    · exact h.derived other hold
  · intro other hother
    rcases hmem other hother with rfl | hold
    · exact ⟨branch, other.id, hpublish.made, hpublish.head⟩
    · obtain ⟨on, head, hon, hhead⟩ := h.branched other hold
      by_cases hsame : on = branch
      · exact ⟨on, record.id, hon, hsame ▸ hpublish.head⟩
      · exact ⟨on, head, hon, (hpublish.others on hsame).trans hhead⟩
  · intro other head hhead
    rcases hheads other head hhead with ⟨-, rfl⟩ | ⟨-, hold⟩
    · refine ⟨record, ?_, rfl⟩
      rw [hpublish.commits]
      exact mem_cons_self
    · exact hgrow (h.headed other head hold)
  · intro on head hhead other hother hon
    rcases hheads on head hhead with ⟨rfl, rfl⟩ | ⟨hne, hold⟩
    · -- whatever a Commit displaced or has as its parent was there before the new head
      refine ⟨fun hd => hpublish.fresh (hdisplaced other hother _ hd), fun _ hp =>
        hpublish.fresh (hparents other hother _ hp)⟩
    · rcases hmem other hother with rfl | hother
      · exact absurd (Option.some.inj (hon.symm.trans hpublish.made)) hne
      · exact h.unused on head hold other hother hon

/-- **Every effect keeps the invariant.** -/
theorem Headed.effect (h : s.Headed derived) (heffect : Effect derived s s') :
    s'.Headed derived := by
  cases heffect with
  | same hsame =>
    refine h.of_heads hsame.1 (fun branch head hhead => .inl ?_) fun branch head hhead => ?_
    · rw [← hsame.headOf]
      exact hhead
    · rw [hsame.headOf]
      exact hhead
  | branched row hfree hhead hcommits hbranches =>
    have hnew : s.headOf row.id = none := by
      rw [headOf, hfree]
      rfl
    refine h.of_heads hcommits (fun branch head hbranch => ?_) fun branch head hbranch => ?_
    · rw [headOf_cons hbranches] at hbranch
      split_ifs at hbranch with hid
      · refine .inr ⟨hhead head (Option.some.inj hbranch), fun record hrecord hmade => ?_⟩
        -- a Commit's Branch has a head already
        obtain ⟨on, old, hon, hold⟩ := h.branched record hrecord
        cases Option.some.inj (hon.symm.trans (hmade.trans (congrArg some hid.symm)))
        rw [hnew] at hold
        cases hold
      · exact .inl hbranch
    · rw [headOf_cons hbranches, if_neg]
      · exact hbranch
      · rintro rfl
        rw [hnew] at hbranch
        cases hbranch
  | published record branch hderived hpublish => exact h.publish hderived hpublish

/-! ## Chains of effects -/

theorem Effect.commits_subset (h : Effect derived s s') : s.commits ⊆ s'.commits := by
  cases h with
  | same hsame => rw [hsame.1]; exact List.Subset.refl _
  | branched row _ _ hcommits _ => rw [hcommits]; exact List.Subset.refl _
  | published record branch _ hpublish =>
    rw [hpublish.commits]
    exact subset_cons_self _ _

omit [DecidableEq κ] in
theorem Holds.mono (hcommits : s.commits ⊆ s'.commits) {id : κ} (h : s.Holds id) :
    s'.Holds id := by
  obtain ⟨record, hrecord, hid⟩ := h
  exact ⟨record, hcommits hrecord, hid⟩

theorem Effect.head_cases (h : Effect derived s s') {branch : κ} {head : Option κ}
    (hhead : s.headOf branch = some head) :
    (s'.headOf branch = some head ∧
      ∀ record ∈ s'.commits, record.info.branch = some branch → record ∈ s.commits) ∨
    ∃ id, s'.headOf branch = some (some id) ∧ ¬s.Holds id := by
  cases h with
  | same hsame =>
    refine .inl ⟨(hsame.headOf branch).trans hhead, fun record hrecord _ => ?_⟩
    rw [← hsame.1]
    exact hrecord
  | branched row hfree _ hcommits hbranches =>
    refine .inl ⟨?_, fun record hrecord _ => ?_⟩
    · rw [headOf_cons hbranches, if_neg]
      · exact hhead
      · rintro rfl
        rw [headOf, hfree] at hhead
        cases hhead
    · rw [← hcommits]
      exact hrecord
  | published record on _ hpublish =>
    by_cases hon : branch = on
    · subst hon
      exact .inr ⟨record.id, hpublish.head, hpublish.fresh⟩
    · refine .inl ⟨(hpublish.others branch hon).trans hhead, fun other hother hmade => ?_⟩
      rw [hpublish.commits] at hother
      rcases mem_cons.mp hother with rfl | hold
      · exact absurd (Option.some.inj (hmade.symm.trans hpublish.made)) hon
      · exact hold

theorem commits_subset_of_effects (h : Relation.ReflTransGen (Effect derived) s s') :
    s.commits ⊆ s'.commits := by
  induction h with
  | refl => exact List.Subset.refl _
  | tail _ heffect ih => exact List.Subset.trans ih heffect.commits_subset

/-- **Along a chain a Branch keeps its head and gets no Commit, or ends at a head that is new.** -/
theorem head_of_effects (hrun : Relation.ReflTransGen (Effect derived) s s') {branch : κ}
    {head : Option κ} (hhead : s.headOf branch = some head) :
    (s'.headOf branch = some head ∧
      ∀ record ∈ s'.commits, record.info.branch = some branch → record ∈ s.commits) ∨
    ∃ id, s'.headOf branch = some (some id) ∧ ¬s.Holds id := by
  induction hrun with
  | refl => exact .inl ⟨hhead, fun _ hrecord _ => hrecord⟩
  | @tail t u hrun heffect ih =>
    have hsub := commits_subset_of_effects hrun
    rcases ih with ⟨hkept, hnone⟩ | ⟨id, hid, hfresh⟩
    · rcases heffect.head_cases hkept with ⟨hkept', hnone'⟩ | ⟨id, hid, hfresh⟩
      · exact .inl ⟨hkept', fun record hrecord hmade =>
          hnone record (hnone' record hrecord hmade) hmade⟩
      · exact .inr ⟨id, hid, fun hold => hfresh (hold.mono hsub)⟩
    · rcases heffect.head_cases hid with ⟨hkept', -⟩ | ⟨id', hid', hfresh'⟩
      · exact .inr ⟨id, hkept', hfresh⟩
      · exact .inr ⟨id', hid', fun hold => hfresh' (hold.mono hsub)⟩

/-- **A head that was left does not come back.** -/
theorem Headed.unrepeated {t u : Catalog κ ρ} (h : s.Headed derived)
    (hst : Relation.ReflTransGen (Effect derived) s t)
    (htu : Relation.ReflTransGen (Effect derived) t u) {branch : κ} {head : Option κ}
    (hs : s.headOf branch = some head) (hu : u.headOf branch = some head) :
    t.headOf branch = some head ∧
      ∀ record ∈ u.commits, record.info.branch = some branch → record ∈ s.commits := by
  have hold : ∀ id, u.headOf branch = some (some id) → s.Holds id := by
    intro id hid
    rw [hu, ← hs] at hid
    exact h.headed branch id hid
  -- the head at the end is that of the start, so it is new to neither
  rcases head_of_effects hst hs with ⟨ht, -⟩ | ⟨id, ht, hfresh⟩
  · rcases head_of_effects (hst.trans htu) hs with ⟨-, hnone⟩ | ⟨id, hid, hfresh⟩
    · exact ⟨ht, hnone⟩
    · exact absurd (hold id hid) hfresh
  · rcases head_of_effects htu ht with ⟨hkept, -⟩ | ⟨id', hid', hfresh'⟩
    · exact absurd (hold id hkept) hfresh
    · exact absurd ((hold id' hid').mono (commits_subset_of_effects hst)) hfresh'

end Invariant

end Catalog

end LayerFs.History
