import LayerFs.History.Cursor
import LayerFs.History.Heads
import LayerFs.Support.Parents

/-!
# The tables of a catalog over a run

What the operations of a catalog do to the tables its ranges read: stacks and Branches arrive under
new names and only their heads move, Layers and Commits arrive behind a parent of their stack and
never change.

* `Sound` — **what holds of the tables after any run**.
* `Extends` — **what a run keeps of them**.
* `Evolves.run` — **every run of operations keeps the tables sound**, and keeps what they held.
-/

namespace LayerFs.History

open List

open Relation Parents

variable {baseLayer id stack : Bytes} {second : Option (NodeId Bytes)} {parent : Option Bytes}
  {α : Type} {rows : List α} {β : Type} {f : α → β} {now : ℕ}

/-! ## Identities -/

def stackTag : ℕ := 0x31

def branchTag : ℕ := 0x11

def IsStackId (id : Bytes) : Prop := id.length = 17 ∧ id.head? = some stackTag

def IsBranchId (id : Bytes) : Prop := id.length = 17 ∧ id.head? = some branchTag

/-- A codec's identities are of their kind. -/
structure Codec.Tagged {ρ : Type} (codec : Codec Bytes ρ) : Prop where
  commit : ∀ root parent baseLayer second info,
    IsCommitId (codec.commitId root parent baseLayer second info)
  layer : ∀ stack parent root, IsLayerId (codec.layerId stack parent root)

theorem blake_tagged {hash : Bytes → Bytes} (hhash : ∀ bytes, (hash bytes).length = 32) :
    (blake hash).Tagged where
  commit _ _ _ _ _ := ⟨congrArg Nat.succ (hhash _), rfl⟩
  layer _ _ _ := ⟨congrArg Nat.succ (hhash _), rfl⟩

/-- What the types of the identities a request brings say of their bytes. -/
def Operation.Identified {ρ : Type} : Operation Bytes ρ → Prop
  | .initializeLayerstack request => IsStackId request.stack
  | .fork request => IsBranchId request.branch
  | .mergeBranch _ request => IsBranchId request.branch
  | _ => True

def Evolves {ρ : Type} [DecidableEq ρ] (codec : Codec Bytes ρ) :
    Catalog Bytes ρ → Catalog Bytes ρ → Prop :=
  ReflTransGen fun s s' => ∃ operation : Operation Bytes ρ, operation.Identified ∧
    operation.apply codec s = .ok s'

/-! ## Tables and changes -/

/-- The tables the ranges of a catalog read. -/
structure Tables (κ ρ : Type) where
  layerStacks : List (LayerStackRecord κ)
  layers : List (LayerRecord κ)
  commits : List (CommitRecord κ ρ)
  branches : List (BranchRecord κ)

def Catalog.tables {κ ρ : Type} (s : Catalog κ ρ) : Tables κ ρ :=
  ⟨s.layerStacks, s.layers, s.commits, s.branches⟩

namespace Tables

variable {ρ : Type}

def commitStack (t : Tables Bytes ρ) (id : Bytes) : Option Bytes :=
  (t.commits.find? fun row => row.id = id).map CommitRecord.stack

def layerStackOf (t : Tables Bytes ρ) (id : Bytes) : Option Bytes :=
  (t.layers.find? fun row => row.id = id).map LayerRecord.stack

/-- **The changes operations are made of.** -/
inductive Change (t : Tables Bytes ρ) : Tables Bytes ρ → Prop
  /-- a stack with its first Layer -/
  | stack (row : LayerStackRecord Bytes) (genesis : LayerRecord Bytes)
      (hid : ∀ other ∈ t.layerStacks, other.id ≠ row.id)
      (hname : ∀ other ∈ t.layerStacks, other.name ≠ row.name)
      (hfresh : ∀ other ∈ t.layers, other.id ≠ genesis.id) (hroot : genesis.parent = none)
      (hstack : genesis.stack = row.id) (hhead : row.headLayer = genesis.id)
      (hstackId : IsStackId row.id) (hlayerId : IsLayerId genesis.id) :
      Change t { t with layerStacks := row :: t.layerStacks, layers := genesis :: t.layers }
  /-- a Layer on the head of its stack -/
  | layer (record : LayerRecord Bytes) (stack : LayerStackRecord Bytes)
      (hstack : stack ∈ t.layerStacks) (hfresh : ∀ other ∈ t.layers, other.id ≠ record.id)
      (hparent : record.parent = some stack.headLayer) (howner : record.stack = stack.id)
      (hlayerId : IsLayerId record.id) : Change t { t with layers := record :: t.layers }
  /-- a stack's head moves to a Layer of it -/
  | stackHead (stack head : Bytes) (howner : t.layerStackOf head = some stack) :
      Change t { t with
        layerStacks := t.layerStacks.map fun row =>
          if row.id = stack then { row with headLayer := head } else row }
  /-- a Commit behind one of its stack -/
  | commit (record : CommitRecord Bytes ρ) (hfresh : ∀ other ∈ t.commits, other.id ≠ record.id)
      (hparent : ∀ p ∈ record.parent, t.commitStack p = some record.stack)
      (hcommitId : IsCommitId record.id) : Change t { t with commits := record :: t.commits }
  /-- a Branch's head moves to a Commit of its stack -/
  | branchHead (branch head : Bytes)
      (howner : ∀ row ∈ t.branches, row.id = branch → t.commitStack head = some row.stack) :
      Change t { t with
        branches := t.branches.map fun row =>
          if row.id = branch then { row with headCommit := some head } else row }
  /-- a Branch -/
  | branch (row : BranchRecord Bytes) (hid : ∀ other ∈ t.branches, other.id ≠ row.id)
      (hname : ∀ other ∈ t.branches, other.stack = row.stack → other.name ≠ row.name)
      (hhead : ∀ head ∈ row.headCommit, t.commitStack head = some row.stack)
      (hbranchId : IsBranchId row.id) : Change t { t with branches := row :: t.branches }

/-- **What holds of the tables after any run.** -/
structure Sound (t : Tables Bytes ρ) : Prop where
  commits : Grounded CommitRecord.id CommitRecord.parent CommitRecord.stack t.commits
  layers : Grounded LayerRecord.id LayerRecord.parent LayerRecord.stack t.layers
  stack_ids : (t.layerStacks.map LayerStackRecord.id).Nodup
  stack_names : (t.layerStacks.map LayerStackRecord.name).Nodup
  branch_ids : (t.branches.map BranchRecord.id).Nodup
  branch_names : (t.branches.map fun row => (row.stack, row.name)).Nodup
  stack_head : ∀ row ∈ t.layerStacks, t.layerStackOf row.headLayer = some row.id
  branch_head : ∀ row ∈ t.branches, ∀ head ∈ row.headCommit, t.commitStack head = some row.stack
  commit_id : ∀ row ∈ t.commits, IsCommitId row.id
  layer_id : ∀ row ∈ t.layers, IsLayerId row.id
  stack_id : ∀ row ∈ t.layerStacks, IsStackId row.id
  branch_id : ∀ row ∈ t.branches, IsBranchId row.id

/-- **What a run keeps of the tables.** -/
structure Extends (t t' : Tables Bytes ρ) : Prop where
  commit : ∀ {id row}, (t.commits.find? fun row => row.id = id) = some row →
    (t'.commits.find? fun row => row.id = id) = some row
  layer : ∀ {id row}, (t.layers.find? fun row => row.id = id) = some row →
    (t'.layers.find? fun row => row.id = id) = some row
  stack : ∀ row ∈ t.layerStacks, ∃ row' ∈ t'.layerStacks, row'.id = row.id ∧ row'.name = row.name
  branch : ∀ row ∈ t.branches, ∃ row' ∈ t'.branches,
    row'.id = row.id ∧ row'.stack = row.stack ∧ row'.name = row.name

theorem Extends.refl (t : Tables Bytes ρ) : t.Extends t :=
  ⟨fun h => h, fun h => h, fun row hrow => ⟨row, hrow, rfl, rfl⟩,
    fun row hrow => ⟨row, hrow, rfl, rfl, rfl⟩⟩

variable {t t' : Tables Bytes ρ}

theorem Extends.trans {t'' : Tables Bytes ρ} (h : t.Extends t') (h' : t'.Extends t'') :
    t.Extends t'' := by
  refine ⟨fun hrow => h'.commit (h.commit hrow), fun hrow => h'.layer (h.layer hrow),
    fun row hrow => ?_, fun row hrow => ?_⟩
  · obtain ⟨row', hrow', hid, hname⟩ := h.stack row hrow
    obtain ⟨row'', hrow'', hid', hname'⟩ := h'.stack row' hrow'
    exact ⟨row'', hrow'', hid'.trans hid, hname'.trans hname⟩
  · obtain ⟨row', hrow', hid, hstack, hname⟩ := h.branch row hrow
    obtain ⟨row'', hrow'', hid', hstack', hname'⟩ := h'.branch row' hrow'
    exact ⟨row'', hrow'', hid'.trans hid, hstack'.trans hstack, hname'.trans hname⟩

theorem Extends.commitStack (h : t.Extends t') (hstack : t.commitStack id = some stack) :
    t'.commitStack id = some stack := by
  obtain ⟨row, hrow, hown⟩ := Option.map_eq_some_iff.mp hstack
  exact Option.map_eq_some_iff.mpr ⟨row, h.commit hrow, hown⟩

theorem Extends.layerStackOf (h : t.Extends t') (hstack : t.layerStackOf id = some stack) :
    t'.layerStackOf id = some stack := by
  obtain ⟨row, hrow, hown⟩ := Option.map_eq_some_iff.mp hstack
  exact Option.map_eq_some_iff.mpr ⟨row, h.layer hrow, hown⟩

theorem Change.extends (h : t.Change t') : t.Extends t' := by
  have hrefl := Extends.refl t
  cases h with
  | stack row genesis _ _ hfresh =>
    exact ⟨hrefl.commit, find?_cons_of_fresh hfresh,
      fun other hother => ⟨other, mem_cons_of_mem _ hother, rfl, rfl⟩, hrefl.branch⟩
  | layer record _ _ hfresh =>
    exact ⟨hrefl.commit, find?_cons_of_fresh hfresh, hrefl.stack, hrefl.branch⟩
  | stackHead stack head =>
    refine ⟨hrefl.commit, hrefl.layer, fun row hrow => ⟨_, mem_map_of_mem hrow, ?_⟩,
      hrefl.branch⟩
    split_ifs
    · exact ⟨rfl, rfl⟩
    · exact ⟨rfl, rfl⟩
  | commit record hfresh =>
    exact ⟨find?_cons_of_fresh hfresh, hrefl.layer, hrefl.stack, hrefl.branch⟩
  | branchHead branch head =>
    refine ⟨hrefl.commit, hrefl.layer, hrefl.stack, fun row hrow =>
      ⟨_, mem_map_of_mem hrow, ?_⟩⟩
    split_ifs
    · exact ⟨rfl, rfl, rfl⟩
    · exact ⟨rfl, rfl, rfl⟩
  | branch row =>
    exact ⟨hrefl.commit, hrefl.layer, hrefl.stack,
      fun other hother => ⟨other, mem_cons_of_mem _ hother, rfl, rfl, rfl⟩⟩

theorem nodup_map_cons {row : α} (h : (rows.map f).Nodup) (hfresh : ∀ other ∈ rows, f other ≠ f row)
    :
    ((row :: rows).map f).Nodup := by
  rw [map_cons, nodup_cons]
  refine ⟨fun hmem => ?_, h⟩
  obtain ⟨other, hother, hsame⟩ := mem_map.mp hmem
  exact hfresh other hother hsame

theorem map_map_of_same {g : α → α} (h : ∀ row, f (g row) = f row) :
    (rows.map g).map f = rows.map f := by
  rw [List.map_map]
  exact map_congr_left fun row _ => h row

theorem sound_empty : (Catalog.empty : Catalog Bytes ρ).tables.Sound where
  commits := trivial
  layers := trivial
  stack_ids := nodup_nil
  stack_names := nodup_nil
  branch_ids := nodup_nil
  branch_names := nodup_nil
  stack_head _ hrow := absurd hrow not_mem_nil
  branch_head _ hrow := absurd hrow not_mem_nil
  commit_id _ hrow := absurd hrow not_mem_nil
  layer_id _ hrow := absurd hrow not_mem_nil
  stack_id _ hrow := absurd hrow not_mem_nil
  branch_id _ hrow := absurd hrow not_mem_nil

/-- **A change keeps the tables sound.** -/
theorem Sound.change (h : t.Sound) (hchange : t.Change t') : t'.Sound := by
  have hextends := hchange.extends
  cases hchange with
  | stack row genesis hid hname hfresh hroot hstack hhead hstackId hlayerId =>
    refine { h with
      layers := ⟨hfresh, fun p hp => ?_, h.layers⟩
      stack_ids := nodup_map_cons h.stack_ids hid
      stack_names := nodup_map_cons h.stack_names hname
      stack_head := fun other hother => ?_
      layer_id := forall_mem_cons.mpr ⟨hlayerId, h.layer_id⟩
      stack_id := forall_mem_cons.mpr ⟨hstackId, h.stack_id⟩ }
    · rw [hroot] at hp
      cases hp
    · rcases mem_cons.mp hother with rfl | hother
      · refine Option.map_eq_some_iff.mpr ⟨genesis, ?_, hstack⟩
        rw [hhead]
        exact find?_cons_of_pos (by simp)
      · exact hextends.layerStackOf (h.stack_head other hother)
  | layer record stack hmem hfresh hparent howner hlayerId =>
    refine { h with
      layers := ⟨hfresh, fun p hp => ?_, h.layers⟩
      stack_head := fun other hother => hextends.layerStackOf (h.stack_head other hother)
      layer_id := forall_mem_cons.mpr ⟨hlayerId, h.layer_id⟩ }
    rw [hparent] at hp
    obtain rfl := Option.some.inj hp
    obtain ⟨row, hrow, hown⟩ := Option.map_eq_some_iff.mp (h.stack_head stack hmem)
    exact ⟨row, mem_of_find?_eq_some hrow, by simpa using find?_some hrow,
      hown.trans howner.symm⟩
  | stackHead stack head howner =>
    refine { h with
      stack_ids := ?_
      stack_names := ?_
      stack_head := fun row hrow => ?_
      stack_id := fun row hrow => ?_ }
    · rw [map_map_of_same fun row => by split_ifs <;> rfl]
      exact h.stack_ids
    · rw [map_map_of_same fun row => by split_ifs <;> rfl]
      exact h.stack_names
    · obtain ⟨old, hold, rfl⟩ := mem_map.mp hrow
      split_ifs with hthis
      · exact howner.trans (congrArg some hthis.symm)
      · exact h.stack_head old hold
    · obtain ⟨old, hold, rfl⟩ := mem_map.mp hrow
      split_ifs
      · exact h.stack_id old hold
      · exact h.stack_id old hold
  | commit record hfresh hparent hcommitId =>
    refine { h with
      commits := ⟨hfresh, fun p hp => ?_, h.commits⟩
      branch_head := fun row hrow head hhead =>
        hextends.commitStack (h.branch_head row hrow head hhead)
      commit_id := forall_mem_cons.mpr ⟨hcommitId, h.commit_id⟩ }
    obtain ⟨row, hrow, hown⟩ := Option.map_eq_some_iff.mp (hparent p hp)
    exact ⟨row, mem_of_find?_eq_some hrow, by simpa using find?_some hrow, hown⟩
  | branchHead branch head howner =>
    refine { h with
      branch_ids := ?_
      branch_names := ?_
      branch_head := fun row hrow other hother => ?_
      branch_id := fun row hrow => ?_ }
    · rw [map_map_of_same fun row => by split_ifs <;> rfl]
      exact h.branch_ids
    · rw [map_map_of_same fun row => by split_ifs <;> rfl]
      exact h.branch_names
    · obtain ⟨old, hold, rfl⟩ := mem_map.mp hrow
      split_ifs at hother ⊢ with hthis
      · obtain rfl := Option.some.inj hother
        exact howner old hold hthis
      · exact h.branch_head old hold other hother
    · obtain ⟨old, hold, rfl⟩ := mem_map.mp hrow
      split_ifs
      · exact h.branch_id old hold
      · exact h.branch_id old hold
  | branch row hid hname hhead hbranchId =>
    exact { h with
      branch_ids := nodup_map_cons h.branch_ids hid
      branch_names := nodup_map_cons h.branch_names fun other hother hsame =>
        hname other hother (congrArg Prod.fst hsame) (congrArg Prod.snd hsame)
      branch_head := forall_mem_cons.mpr ⟨hhead, h.branch_head⟩
      branch_id := forall_mem_cons.mpr ⟨hbranchId, h.branch_id⟩ }

def Changes : Tables Bytes ρ → Tables Bytes ρ → Prop := ReflTransGen Change

/-- **What any run of changes does.** -/
theorem Changes.run (h : t.Changes t') (hsound : t.Sound) : t'.Sound ∧ t.Extends t' := by
  induction h with
  | refl => exact ⟨hsound, .refl t⟩
  | tail _ hchange ih => exact ⟨ih.1.change hchange, ih.2.trans hchange.extends⟩

end Tables

/-! ## Operations as changes -/

namespace Catalog

variable {ρ : Type} {s s' : Catalog Bytes ρ} {codec : Codec Bytes ρ}

theorem recordParents_tables (h : s.recordParents id parent baseLayer second = .ok s') :
    s'.tables = s.tables := by
  simp only [recordParents, history_bind_eq_ok] at h
  obtain ⟨⟨run, depth, first⟩, -, ⟨newest, merged⟩, -, hinsert⟩ := h
  simp only [insertCommitRow, history_bind_eq_ok] at hinsert
  obtain ⟨-, -, hinsert⟩ := hinsert
  cases hinsert
  rfl

theorem commit_fresh (h : s.commit id = none) : ∀ other ∈ s.commits, other.id ≠ id := by
  simpa [commit] using h

theorem layer_fresh (h : s.layer id = none) : ∀ other ∈ s.layers, other.id ≠ id := by
  simpa [layer] using h

theorem initializeLayerstack_changes (htagged : codec.Tagged)
    {request : StackInitialization Bytes} (hid : IsStackId request.stack)
    (h : s.initializeLayerstack codec request = .ok s') : s.tables.Changes s'.tables := by
  simp only [initializeLayerstack, history_bind_eq_ok, require_eq_ok] at h
  obtain ⟨-, hfree, -, hname, s₁, hinsert, hrecord⟩ := h
  obtain ⟨hfresh, -, rfl⟩ := insertLayer_eq_ok.mp hinsert
  obtain ⟨-, -, rfl⟩ := recordLayer_eq_ok.mp hrecord
  have hids : ∀ other ∈ s.layerStacks, other.id ≠ request.stack := by
    simpa [layerStack] using hfree
  have hnames : ∀ other ∈ s.layerStacks, other.name ≠ request.name := by simpa using hname
  exact .single (.stack ⟨request.stack, request.name, request.scope, request.profile, _⟩ _
    hids hnames (layer_fresh hfresh) rfl rfl rfl hid (htagged.layer _ _ _))

theorem fork_changes {request : ForkRequest Bytes} (hid : IsBranchId request.branch)
    (h : s.fork request = .ok s') : s.tables.Changes s'.tables := by
  simp only [fork, history_bind_eq_ok, requireBranchFree, require_eq_ok] at h
  obtain ⟨-, -, -, ⟨-, hfree, hname⟩, hfork⟩ := h
  have hids : ∀ other ∈ s.branches, other.id ≠ request.branch := by simpa [branch] using hfree
  have hnames : ∀ other ∈ s.branches, other.stack = request.stack → other.name ≠ request.name := by
    simpa using hname
  rcases hsource : request.source with id | ⟨branch, commit⟩
  · rw [hsource] at hfork
    simp only [history_bind_eq_ok] at hfork
    obtain ⟨-, -, -, -, hfork⟩ := hfork
    cases hfork
    exact .single (.branch _ hids hnames (fun head hhead => by cases hhead) hid)
  · rw [hsource] at hfork
    simp only [history_bind_eq_ok, require_eq_ok, found_eq_ok, decide_eq_true_eq] at hfork
    obtain ⟨-, -, -, -, selected, hselected, -, hstack, -, -, -, -, hfork⟩ := hfork
    cases hfork
    refine .single (.branch _ hids hnames (fun head hhead => ?_) hid)
    cases hhead
    exact Option.map_eq_some_iff.mpr ⟨selected, hselected, hstack⟩

variable [DecidableEq ρ]

theorem newCommit_changes (htagged : codec.Tagged) {branch root : Bytes} {info : CommitMeta Bytes ρ}
    (h : s.newCommit codec now stack branch root parent baseLayer second info = .ok (id, s')) :
    s.tables.Changes s'.tables ∧ s'.tables.commitStack id = some stack ∧
      s'.branches = s.branches := by
  simp only [newCommit, history_bind_eq_ok] at h
  obtain ⟨-, -, known, hverify, h⟩ := h
  rcases hfound : s.commit (codec.commitId root parent baseLayer second
    (info.stamped branch now)) with _ | stored
  · simp only [verifyCommit, hfound] at hverify
    cases hverify
    simp only [Bool.false_eq_true, if_false, history_bind_eq_ok, insertCommit, require_eq_ok] at h
    obtain ⟨-, -, s₁, ⟨-, hparent, -, -, hinsert⟩, s₂, hrecord, hvalue⟩ := h
    cases hinsert
    cases hvalue
    have htables := recordParents_tables hrecord
    have hbranches := congrArg Tables.branches htables
    rw [htables]
    refine ⟨.single (.commit _ (commit_fresh hfound) (fun p hp => ?_) (htagged.commit _ _ _ _ _)),
      ?_, hbranches⟩
    · cases hp
      have hown : s.stackOf (.commit p) = some stack := by simpa using hparent
      exact hown
    · exact Option.map_eq_some_iff.mpr ⟨_, find?_cons_of_pos (by simp), rfl⟩
  · simp only [verifyCommit, hfound, history_bind_eq_ok, require_eq_ok, decide_eq_true_eq] at hverify
    obtain ⟨-, hsame, hvalue⟩ := hverify
    cases hvalue
    cases h
    exact ⟨.refl, Option.map_eq_some_iff.mpr ⟨stored, hfound, hsame.2.2.2.2.1⟩, rfl⟩

theorem commitBranch_changes (htagged : codec.Tagged) {request : CommitRequest Bytes ρ}
    (hsound : s.tables.Sound) (h : s.commitBranch codec now request = .ok s') :
    s.tables.Changes s'.tables := by
  simp only [commitBranch, history_bind_eq_ok, found_eq_ok] at h
  obtain ⟨branch, hbranch, -, -, -, -, -, -, -, -, -, -, -, -, current, -, h⟩ := h
  by_cases hroot : request.candidateRoot = current
  · rw [if_pos hroot] at h
    cases h
    exact .refl
  · rw [if_neg hroot, history_bind_eq_ok] at h
    obtain ⟨⟨id, s₁⟩, hnew, hadvance⟩ := h
    cases hadvance
    obtain ⟨hchanges, hown, hbranches⟩ := newCommit_changes htagged hnew
    refine hchanges.tail (.branchHead request.branch id fun row hrow hid => ?_)
    -- one row has the identity of the request
    have hfind := find?_of_mem (hchanges.run hsound).1.branch_ids hrow
    have hsame : s₁.branches.find? (fun other => decide (other.id = row.id)) = some branch := by
      rw [hbranches, hid]
      exact hbranch
    cases hfind.symm.trans hsame
    exact hown

omit [DecidableEq ρ] in
theorem requireOwned_all {existing : Option Bytes} {u : PUnit}
    (h : (existing.toList.map NodeId.commit).forM (s.requireOwned stack) = .ok u) :
    ∀ head ∈ existing, s.tables.commitStack head = some stack := by
  rintro head rfl
  have hboth : (s.requireOwned stack (.commit head) >>= fun _ =>
      ([] : List (NodeId Bytes)).forM (s.requireOwned stack)) = .ok u := h
  obtain ⟨_, hown, -⟩ := history_bind_eq_ok.mp hboth
  simp only [requireOwned, history_bind_eq_ok, found_eq_ok, require_eq_ok, decide_eq_true_eq] at hown
  obtain ⟨owner, howner, rfl⟩ := hown
  exact howner

theorem mergeBranch_changes (htagged : codec.Tagged) {request : BranchMergeRequest Bytes ρ}
    (hid : IsBranchId request.branch) (h : s.mergeBranch codec now request = .ok s') :
    s.tables.Changes s'.tables := by
  simp only [mergeBranch, history_bind_eq_ok, requireBranchFree, require_eq_ok] at h
  obtain ⟨-, -, -, -, -, ⟨-, hfree, hname⟩, ⟨base, existing⟩, -, -, -, _, howned, ⟨head, s₁⟩, hhead,
    hinsert⟩ := h
  cases hinsert
  have hids : ∀ other ∈ s.branches, other.id ≠ request.branch := by simpa [branch] using hfree
  have hnames : ∀ other ∈ s.branches, other.stack = request.stack → other.name ≠ request.name := by
    simpa using hname
  rcases hkind : request.head with node | merge
  · simp only [mergedHead, hkind] at hhead
    cases hhead
    refine .single (.branch _ hids hnames (fun head hhead => ?_) hid)
    cases hhead
    exact requireOwned_all howned head rfl
  · simp only [mergedHead, hkind, history_bind_eq_ok] at hhead
    obtain ⟨⟨id, s₂⟩, hnew, hvalue⟩ := hhead
    cases hvalue
    obtain ⟨hchanges, hown, hbranches⟩ := newCommit_changes htagged hnew
    refine hchanges.tail (.branch _ ?_ ?_ (fun head hhead => ?_) hid)
    · intro other hother
      exact hids other (hbranches ▸ hother)
    · intro other hother
      exact hnames other (hbranches ▸ hother)
    · cases hhead
      exact hown

omit [DecidableEq ρ] in
theorem publishLayer_changes {record : LayerRecord Bytes} {source : CommitLine Bytes} {height : ℕ}
    {stack : LayerStackRecord Bytes} (hstack : stack ∈ s.layerStacks)
    (hparent : record.parent = some stack.headLayer) (howner : record.stack = stack.id)
    (hlayerId : IsLayerId record.id) (h : s.publishLayer record source height = .ok s') :
    s.tables.Changes s'.tables ∧ s'.tables.layerStackOf record.id = some record.stack := by
  simp only [publishLayer, history_bind_eq_ok] at h
  obtain ⟨known, hverify, h⟩ := h
  rcases hfound : s.layer record.id with _ | stored
  · simp only [verifyLayer, hfound] at hverify
    cases hverify
    simp only [Bool.false_eq_true, if_false, history_bind_eq_ok] at h
    obtain ⟨s₁, hinsert, s₂, hrecord, habsorb⟩ := h
    obtain ⟨hfresh, -, rfl⟩ := insertLayer_eq_ok.mp hinsert
    obtain ⟨-, -, rfl⟩ := recordLayer_eq_ok.mp hrecord
    obtain ⟨segments, -, rfl⟩ := absorb_eq_ok habsorb
    refine ⟨.single (.layer record stack hstack (layer_fresh hfresh) hparent howner hlayerId), ?_⟩
    exact Option.map_eq_some_iff.mpr ⟨record, find?_cons_of_pos (by simp), rfl⟩
  · simp only [verifyLayer, hfound, history_bind_eq_ok, require_eq_ok, decide_eq_true_eq] at hverify
    obtain ⟨-, hsame, hvalue⟩ := hverify
    cases hvalue
    cases h
    exact ⟨.refl, Option.map_eq_some_iff.mpr ⟨stored, hfound, congrArg LayerRecord.stack hsame⟩⟩

omit [DecidableEq ρ] in
theorem addLayer_changes (htagged : codec.Tagged) {request : AddLayerRequest Bytes}
    (h : s.addLayer codec request = .ok s') : s.tables.Changes s'.tables := by
  simp only [addLayer, history_bind_eq_ok, found_eq_ok] at h
  obtain ⟨stack, hstack, branch, -, -, -, commit, -, -, -, h⟩ := h
  have hid : stack.id = request.stack := by simpa using find?_some hstack
  rcases hpublished : s.publishedSource request.branch request.commit with _ | stored
  · rw [hpublished] at h
    simp only [history_bind_eq_ok] at h
    obtain ⟨-, -, -, -, -, -, headRoot, -, h⟩ := h
    split_ifs at h
    · cases h
      exact .refl
    · simp only [history_bind_eq_ok] at h
      obtain ⟨head, -, source, -, covered, -, s₁, hpublish, h⟩ := h
      cases h
      obtain ⟨hchanges, hown⟩ := publishLayer_changes (mem_of_find?_eq_some hstack) rfl
        hid.symm (htagged.layer _ _ _) hpublish
      exact hchanges.tail (.stackHead request.stack _ hown)
  · rw [hpublished] at h
    simp only [history_bind_eq_ok] at h
    obtain ⟨-, -, h⟩ := h
    cases h
    exact .refl

end Catalog

/-- **Every operation is a run of changes.** -/
theorem Operation.changes {ρ : Type} [DecidableEq ρ] {codec : Codec Bytes ρ}
    (htagged : codec.Tagged) {operation : Operation Bytes ρ} (hidentified : operation.Identified)
    {s s' : Catalog Bytes ρ} (hsound : s.tables.Sound) (h : operation.apply codec s = .ok s') :
    s.tables.Changes s'.tables := by
  cases operation with
  | initializeLayerstack request =>
    exact Catalog.initializeLayerstack_changes htagged hidentified h
  | fork request => exact Catalog.fork_changes hidentified h
  | commitBranch now request => exact Catalog.commitBranch_changes htagged hsound h
  | mergeBranch now request => exact Catalog.mergeBranch_changes htagged hidentified h
  | addLayer request => exact Catalog.addLayer_changes htagged h

/-- **Every run of operations keeps the tables sound**, and what they held. -/
theorem Evolves.run {ρ : Type} [DecidableEq ρ] {codec : Codec Bytes ρ} (htagged : codec.Tagged)
    {s s' : Catalog Bytes ρ} (h : Evolves codec s s') (hsound : s.tables.Sound) :
    s'.tables.Sound ∧ s.tables.Extends s'.tables := by
  induction h with
  | refl => exact ⟨hsound, .refl _⟩
  | tail _ hstep ih =>
    obtain ⟨operation, hidentified, happly⟩ := hstep
    obtain ⟨hsound', hextends⟩ := (operation.changes htagged hidentified ih.1 happly).run ih.1
    exact ⟨hsound', ih.2.trans hextends⟩

end LayerFs.History
