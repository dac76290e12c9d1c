import LayerFs.Draft.Page
import LayerFs.Mapping.Build

/-!
# The drafts an edit holds (`file/edit/tree.rs`)

Splitting and joining hand the engine new pages through four functions: a leaf of some slices, a
branch of some children, and the two that divide a list too long for one page. None of them fills a
page as the canonical partition asks.

* `rootFromExtents_held`, `rootFromChildren_held` — **every page they hold is a draft**.
* `codecs_invert` — **both codecs**: what is written reads back, and what is read was written.
-/

namespace LayerFs.Codec

open List

open Wire

variable {node : DraftNode} {extents : List (ExtentSlice ObjectId)}
  {children : List (NodeSummary EditRef)}

abbrev Holding := StateT (List DraftNode) (Except ContentError)

/-- `hold_node`: the page is held under the next number. -/
def holdNode (node : DraftNode) : Holding (NodeSummary EditRef) := fun held => do
  let _ ← checkedAdd held.length 1
  return (⟨.node held.length, node.logicalLen, node.extentCount, node.level⟩, held ++ [node])

/-- The bytes of a leaf, added up in `u64`. -/
def sumBytes (extents : List (ExtentSlice ObjectId)) : ContentResult ℕ :=
  extents.foldlM (fun sum extent => checkedAdd sum extent.logicalLength) 0

/-- `emit_leaf`. -/
def emitDraftLeaf (extents : List (ExtentSlice ObjectId)) : Holding (NodeSummary EditRef) := do
  let bytes ← sumBytes extents
  holdNode (.leaf bytes extents)

/-- `emit_branch`. -/
def emitDraftBranch : List (NodeSummary EditRef) → Holding (NodeSummary EditRef)
  | [] => throw (.invalidRecord "empty branch")
  | first :: rest => do
    let level := first.level + 1
    if 256 ≤ level then throw .mappingDepthExceeded
    else if (first :: rest).any (fun child => child.level + 1 != level) then
      throw (.invalidRecord "mixed branch levels")
    else do
      let (bytes, extents, descriptors) ← (describe 0 0 (first :: rest) : Holding _)
      holdNode (.branch level bytes extents descriptors)

/-- `root_from_children`: one child stands for itself, too many are divided. -/
def rootFromChildren (children : List (NodeSummary EditRef)) :
    Holding (Option (NodeSummary EditRef)) :=
  match children with
  | [] => return none
  | [child] => return some child
  | children =>
    if children.length ≤ maximumEntries then some <$> emitDraftBranch children
    else do
      let half := children.length / 2
      let left ← emitDraftBranch (children.take half)
      let right ← emitDraftBranch (children.drop half)
      some <$> emitDraftBranch [left, right]

/-- `root_from_extents`: too many slices are divided. -/
def rootFromExtents (extents : List (ExtentSlice ObjectId)) : Holding (NodeSummary EditRef) :=
  if extents.length ≤ maximumEntries then emitDraftLeaf extents
  else do
    let half := extents.length / 2
    let left ← emitDraftLeaf (extents.take half)
    let right ← emitDraftLeaf (extents.drop half)
    match ← rootFromChildren [left, right] with
    | some root => return root
    | none => throw (.invalidRecord "empty extent root")

/-- The leaf of `split`: the slices in front of an offset and those behind it, with the one that
holds the offset cut in two. -/
def splitSlices (offset : ℕ) : ℕ → List (ExtentSlice ObjectId) →
    ContentResult (List (ExtentSlice ObjectId) × List (ExtentSlice ObjectId))
  | _, [] => .ok ([], [])
  | logical, extent :: rest => do
    let stop ← checkedAdd logical extent.logicalLength
    if stop ≤ offset then do
      let (left, right) ← splitSlices offset stop rest
      return (extent :: left, right)
    else if offset ≤ logical then do
      let (left, right) ← splitSlices offset stop rest
      return (left, extent :: right)
    else do
      let leftLen := offset - logical
      let front ← ExtentSlice.new extent.payloadObjectId extent.sourceOffset leftLen
      let back ← ExtentSlice.new extent.payloadObjectId (extent.sourceOffset + leftLen)
        (extent.logicalLength - leftLen)
      let (left, right) ← splitSlices offset stop rest
      return (front :: left, back :: right)

/-! ## What is held -/

/-- **A page that may be held**: a draft, unless it lies above every level the grammar can express,
where it has no record at all. -/
def Held (node : DraftNode) : Prop :=
  DraftFits node ∧ (node.level ≤ maximumLevel → Draft node)

def SummaryFits (summary : NodeSummary EditRef) : Prop :=
  summary.id.Fits ∧ 0 < summary.bytes ∧ 0 < summary.extents

/-- What is held is added to what was held, and every page of it may be. -/
def Keeps {α : Type} (m : Holding α) (P : α → Prop) : Prop :=
  ∀ held a later, m.run held = .ok (a, later) →
    ∃ more, later = held ++ more ∧ (∀ node ∈ more, Held node) ∧ P a

namespace Keeps

variable {α β : Type} {P : α → Prop} {Q : β → Prop}

theorem pure {a : α} (h : P a) : Keeps (pure a) P := by
  intro held a' later hrun
  cases hrun
  exact ⟨[], (append_nil _).symm, fun _ h => absurd h not_mem_nil, h⟩

theorem throw (e : ContentError) : Keeps (throw e : Holding α) P := by
  intro held a later hrun
  cases hrun

variable {m : Holding α}

theorem bind {f : α → Holding β} (hm : Keeps m P) (hf : ∀ a, P a → Keeps (f a) Q) :
    Keeps (m >>= f) Q := by
  intro held b later hrun
  rw [StateT.run_bind] at hrun
  obtain ⟨⟨a, middle⟩, hfirst, hrest⟩ := bind_eq_ok.mp hrun
  obtain ⟨more, rfl, hmore, ha⟩ := hm held a middle hfirst
  obtain ⟨more', rfl, hmore', hb⟩ := hf a ha _ b later hrest
  exact ⟨more ++ more', append_assoc _ _ _,
    forall_mem_append.mpr ⟨hmore, hmore'⟩, hb⟩

theorem map {f : α → β} (hm : Keeps m P) (hf : ∀ a, P a → Q (f a)) : Keeps (f <$> m) Q := by
  rw [← bind_pure_comp]
  exact hm.bind fun a ha => Keeps.pure (hf a ha)

theorem lift {x : ContentResult α} (h : ∀ a, x = .ok a → P a) : Keeps (x : Holding α) P := by
  intro held a later hrun
  rcases x with e | b
  · cases hrun
  · cases hrun
    exact ⟨[], (append_nil _).symm, fun _ h => absurd h not_mem_nil, h _ rfl⟩

end Keeps

theorem holdNode_keeps (h : Held node) :
    Keeps (holdNode node) (fun summary => summary.id.Fits ∧ summary.bytes = node.logicalLen ∧
      summary.extents = node.extentCount) := by
  intro held summary later hrun
  obtain ⟨next, hnext, hrun⟩ := bind_eq_ok.mp hrun
  cases hrun
  have hlt := (checkedAdd_eq_ok.mp hnext).1
  exact ⟨[node], rfl, forall_mem_singleton.mpr h, Nat.lt_of_succ_lt hlt, rfl, rfl⟩

theorem sum_eq_ok {start sum : ℕ}
    (h : extents.foldlM (fun sum extent => checkedAdd sum extent.logicalLength) start = .ok sum) :
    sum = start + totalBytes extents := by
  induction extents generalizing start with
  | nil =>
    cases h
    rfl
  | cons extent rest ih =>
    rw [List.foldlM_cons, bind_eq_ok] at h
    obtain ⟨next, hnext, h⟩ := h
    rw [ih h, (checkedAdd_eq_ok.mp hnext).2, totalBytes_cons, Nat.add_assoc]

theorem emitDraftLeaf_keeps (h : extents.length ≤ maximumEntries) :
    Keeps (emitDraftLeaf extents) (fun summary => extents ≠ [] → SummaryFits summary) := by
  rw [emitDraftLeaf]
  refine (Keeps.lift (P := (· = totalBytes extents)) fun sum hsum => ?_).bind ?_
  · rw [sum_eq_ok hsum, Nat.zero_add]
  · rintro _ rfl
    have hheld : Held (.leaf (totalBytes extents) extents) := ⟨trivial, fun _ => ⟨h, rfl⟩⟩
    intro held summary later hrun
    obtain ⟨more, hlater, hmore, hid, hbytes, hextents⟩ :=
      holdNode_keeps hheld held summary later hrun
    refine ⟨more, hlater, hmore, fun hsome => ⟨hid, ?_, ?_⟩⟩
    · have hlength := length_le_totalBytes extents
      have hpos := length_pos_of_ne_nil hsome
      have htotal : summary.bytes = totalBytes extents := hbytes
      omega
    · have hcount : summary.extents = extents.length := hextents
      rw [hcount]
      exact length_pos_of_ne_nil hsome

/-- **The descriptors of some children** grow and end at the totals. -/
theorem describe_grows {bytes extents lastBytes lastExtents : ℕ}
    {descriptors : List (ChildDescriptor EditRef)} (hall : ∀ child ∈ children, SummaryFits child)
    (h : describe bytes extents children = .ok (lastBytes, lastExtents, descriptors)) :
    descriptors.length = children.length ∧ Threads Grows endsOf (bytes, extents) descriptors ∧
      descriptors.foldl endsOf (bytes, extents) = (lastBytes, lastExtents) ∧
      (∀ child ∈ descriptors, ChildFits child ∧ child.childObjectId.Fits) ∧
      (bytes ≤ lastBytes ∧ extents ≤ lastExtents) := by
  induction children generalizing bytes extents descriptors with
  | nil =>
    cases h
    exact ⟨rfl, trivial, rfl, fun _ h => absurd h not_mem_nil, le_refl _, le_refl _⟩
  | cons child rest ih =>
    rw [describe] at h
    obtain ⟨⟨hid, hbytes, hextents⟩, hrest⟩ := forall_mem_cons.mp hall
    obtain ⟨bytes', hbytes', h⟩ := bind_eq_ok.mp h
    obtain ⟨extents', hextents', h⟩ := bind_eq_ok.mp h
    obtain ⟨⟨lastBytes', lastExtents', later⟩, hlater, h⟩ := bind_eq_ok.mp h
    cases h
    obtain ⟨hb, rfl⟩ := checkedAdd_eq_ok.mp hbytes'
    obtain ⟨he, rfl⟩ := checkedAdd_eq_ok.mp hextents'
    obtain ⟨hlength, hgrows, hlast, hfits, hle, hle'⟩ := ih hrest hlater
    have hgrow : bytes < bytes + child.bytes ∧ extents < extents + child.extents := by omega
    exact ⟨congrArg Nat.succ hlength, ⟨hgrow, hgrows⟩, hlast,
      forall_mem_cons.mpr ⟨⟨⟨hb, he⟩, hid⟩, hfits⟩, by omega, by omega⟩

theorem emitDraftBranch_keeps (htwo : 2 ≤ children.length)
    (hmost : children.length ≤ maximumEntries) (hall : ∀ child ∈ children, SummaryFits child) :
    Keeps (emitDraftBranch children) SummaryFits := by
  rcases children with _ | ⟨first, rest⟩
  · exact absurd htwo (by decide)
  · rw [emitDraftBranch]
    dsimp only
    split_ifs with hlevel hmixed
    · exact Keeps.throw _
    · exact Keeps.throw _
    · refine (Keeps.lift fun found hfound => hfound).bind ?_
      rintro ⟨bytes, extents, descriptors⟩ hdescribe
      obtain ⟨hlength, hgrows, hlast, hfits, -⟩ := describe_grows hall hdescribe
      have hheld : Held (.branch (first.level + 1) bytes extents descriptors) :=
        ⟨hfits, fun hmost' => ⟨⟨Nat.succ_pos _, hmost'⟩, by rw [hlength]; exact ⟨htwo, hmost⟩,
          hgrows, hlast⟩⟩
      have hpos : 0 < bytes ∧ 0 < extents := by
        rw [describe] at hdescribe
        obtain ⟨⟨-, hbytes, hextents⟩, hrest⟩ := forall_mem_cons.mp hall
        obtain ⟨bytes', hbytes', h⟩ := bind_eq_ok.mp hdescribe
        obtain ⟨extents', hextents', h⟩ := bind_eq_ok.mp h
        obtain ⟨⟨lastBytes', lastExtents', later⟩, hlater, h⟩ := bind_eq_ok.mp h
        cases h
        obtain ⟨-, rfl⟩ := checkedAdd_eq_ok.mp hbytes'
        obtain ⟨-, rfl⟩ := checkedAdd_eq_ok.mp hextents'
        obtain ⟨-, -, -, -, hle, hle'⟩ := describe_grows hrest hlater
        omega
      intro held summary later hrun
      obtain ⟨more, hlater, hmore, hid, hbytes, hextents⟩ :=
        holdNode_keeps hheld held summary later hrun
      have hbytes' : summary.bytes = bytes := hbytes
      have hextents' : summary.extents = extents := hextents
      exact ⟨more, hlater, hmore, hid, hbytes' ▸ hpos.1, hextents' ▸ hpos.2⟩

/-- **Every page `root_from_children` holds is a draft.** -/
theorem rootFromChildren_keeps (hmost : children.length ≤ 2 * maximumEntries)
    (hall : ∀ child ∈ children, SummaryFits child) :
    Keeps (rootFromChildren children) (fun root => ∀ summary ∈ root, SummaryFits summary) := by
  have hsome : ∀ {m : Holding (NodeSummary EditRef)}, Keeps m SummaryFits →
      Keeps (some <$> m) (fun root => ∀ summary ∈ root, SummaryFits summary) := fun hm =>
    hm.map fun summary hsummary found hfound => Option.mem_some.mp hfound ▸ hsummary
  unfold rootFromChildren
  split
  · exact Keeps.pure fun summary h => absurd h (Option.not_mem_none summary)
  · rename_i child
    refine Keeps.pure fun summary h => ?_
    rw [← Option.mem_some.mp h]
    exact hall child mem_cons_self
  · rename_i hnotNone hnotOne
    have htwo : 2 ≤ children.length := by
      rcases children with _ | ⟨first, _ | ⟨second, rest⟩⟩
      · exact absurd rfl hnotNone
      · exact absurd rfl (hnotOne first)
      · simp
    split_ifs with hfew
    · exact hsome (emitDraftBranch_keeps htwo hfew hall)
    · have hentries : maximumEntries = 128 := rfl
      have htake : (children.take (children.length / 2)).length = children.length / 2 := by
        rw [length_take]
        omega
      have hdrop : (children.drop (children.length / 2)).length =
          children.length - children.length / 2 := length_drop
      refine (emitDraftBranch_keeps (by omega) (by omega)
        fun child h => hall child (mem_of_mem_take h)).bind fun left hleft => ?_
      refine (emitDraftBranch_keeps (by omega) (by omega)
        fun child h => hall child (mem_of_mem_drop h)).bind fun right hright => ?_
      exact hsome (emitDraftBranch_keeps (le_refl 2) (by decide : 2 ≤ maximumEntries)
        (forall_mem_cons.mpr ⟨hleft, forall_mem_singleton.mpr hright⟩))

/-- **Every page `root_from_extents` holds is a draft.** -/
theorem rootFromExtents_keeps (hmost : extents.length ≤ 2 * maximumEntries) :
    Keeps (rootFromExtents extents) (fun summary => extents ≠ [] → SummaryFits summary) := by
  rw [rootFromExtents]
  split_ifs with hfew
  · exact emitDraftLeaf_keeps hfew
  · have hentries : maximumEntries = 128 := rfl
    have htake : (extents.take (extents.length / 2)).length = extents.length / 2 := by
      rw [length_take]
      omega
    have hdrop : (extents.drop (extents.length / 2)).length =
        extents.length - extents.length / 2 := length_drop
    refine (emitDraftLeaf_keeps (by omega)).bind fun left hleft => ?_
    refine (emitDraftLeaf_keeps (by omega)).bind fun right hright => ?_
    have hleft := hleft (length_pos_iff.mp (by omega))
    have hright := hright (length_pos_iff.mp (by omega))
    refine (rootFromChildren_keeps (by simp [hentries])
      (forall_mem_cons.mpr ⟨hleft, forall_mem_singleton.mpr hright⟩)).bind ?_
    intro root hroot
    rcases root with _ | root
    · exact Keeps.throw _
    · exact Keeps.pure fun _ => hroot root rfl

theorem splitSlices_length {offset logical : ℕ} {left right : List (ExtentSlice ObjectId)}
    (h : splitSlices offset logical extents = .ok (left, right)) :
    left.length ≤ extents.length ∧ right.length ≤ extents.length ∧
      totalBytes left + totalBytes right = totalBytes extents := by
  induction extents generalizing logical left right with
  | nil =>
    cases h
    exact ⟨le_refl _, le_refl _, rfl⟩
  | cons extent rest ih =>
    rw [splitSlices] at h
    obtain ⟨stop, hstop, h⟩ := bind_eq_ok.mp h
    obtain ⟨-, rfl⟩ := checkedAdd_eq_ok.mp hstop
    split_ifs at h with hfront hback
    · obtain ⟨⟨l, r⟩, hrest, h⟩ := bind_eq_ok.mp h
      cases h
      obtain ⟨hl, hr, hsum⟩ := ih hrest
      simp only [length_cons, totalBytes_cons]
      omega
    · obtain ⟨⟨l, r⟩, hrest, h⟩ := bind_eq_ok.mp h
      cases h
      obtain ⟨hl, hr, hsum⟩ := ih hrest
      simp only [length_cons, totalBytes_cons]
      omega
    · obtain ⟨front, hfrontSlice, h⟩ := bind_eq_ok.mp h
      obtain ⟨back, hbackSlice, h⟩ := bind_eq_ok.mp h
      obtain ⟨⟨l, r⟩, hrest, h⟩ := bind_eq_ok.mp h
      cases h
      obtain ⟨hl, hr, hsum⟩ := ih hrest
      have hfrontLen := (sliceNew_eq_ok.mp hfrontSlice).2.2
      have hbackLen := (sliceNew_eq_ok.mp hbackSlice).2.2
      simp only [length_cons, totalBytes_cons]
      omega

/-! ## Both codecs -/

def Kept (node : DraftNode) : Prop :=
  ∃ bytes, encodeDraft node = .ok bytes ∧ decodeDraft bytes = .ok node

theorem Held.kept (h : Held node) (hlevel : node.level ≤ maximumLevel) : Kept node :=
  ⟨draftFrame node, encodeDraft_eq_ok (h.2 hlevel) h.1⟩

/-- What is written of a page reads back as the page, and a page of a level the grammar can express
is written. -/
def Inverted (node : DraftNode) : Prop :=
  (∀ bytes, encodeDraft node = .ok bytes → decodeDraft bytes = .ok node) ∧
    (node.level ≤ maximumLevel → Kept node)

theorem Held.inverted (h : Held node) : Inverted node := by
  refine ⟨fun bytes hbytes => ?_, h.kept⟩
  have hlevel : node.level ≤ maximumLevel := by
    rw [encodeDraft, check_bind_eq_ok] at hbytes
    simp only [ensure_eq_ok, Bool.and_eq_true, decide_eq_true_eq] at hbytes
    exact hbytes.1.2
  obtain ⟨bytes', hbytes', hback⟩ := h.kept hlevel
  rw [hbytes] at hbytes'
  cases hbytes'
  exact hback

theorem Keeps.inverted {α : Type} {m : Holding α} {P : α → Prop} (h : Keeps m P) {a : α}
    {held : List DraftNode} (hrun : m.run [] = .ok (a, held)) :
    ∀ node ∈ held, Inverted node := by
  obtain ⟨more, rfl, hmore, -⟩ := h [] a held hrun
  exact fun node hnode => (hmore node hnode).inverted

/-- **Both codecs.** A page that `encode_node` takes in a context decodes as itself in the same
context, and bytes that decode are those it is written as; so with file states. Every draft, a short
or an empty one too, is written and reads back as it was: the halves of a leaf that is split, and
every page held for slices or children that two pages had. A finished page comes back with its
references and its predecessors. -/
theorem codecs_invert (profile : ObjectId) (identify : Bytes → ObjectId) :
    (∀ (node : ExtentNode ObjectId) (root : Bool) (canonical : Bytes), NodeFits node →
      encodeNode node root = .ok canonical → decodeNodeWithContext canonical root = .ok node) ∧
    (∀ (canonical : Bytes) (root : Bool) (node : ExtentNode ObjectId), IsBytes canonical →
      decodeNodeWithContext canonical root = .ok node → encodeNode node root = .ok canonical) ∧
    (∀ (state : ProfiledState) (canonical : Bytes), state.Fits →
      encodeFileState profile state = .ok canonical →
        decodeFileState profile canonical = .ok state) ∧
    (∀ (canonical : Bytes) (state : ProfiledState), IsBytes canonical →
      decodeFileState profile canonical = .ok state →
        encodeFileState profile state = .ok canonical) ∧
    (∀ node : DraftNode, Draft node → DraftFits node → Kept node) ∧
    (∀ (offset : ℕ) (extents left right : List (ExtentSlice ObjectId)),
      extents.length ≤ maximumEntries → splitSlices offset 0 extents = .ok (left, right) →
        Kept (.leaf (totalBytes left) left) ∧ Kept (.leaf (totalBytes right) right)) ∧
    (∀ (extents : List (ExtentSlice ObjectId)) (summary : NodeSummary EditRef)
      (held : List DraftNode), extents.length ≤ 2 * maximumEntries →
        (rootFromExtents extents).run [] = .ok (summary, held) →
          ∀ node ∈ held, Inverted node) ∧
    (∀ (children : List (NodeSummary EditRef)) (root : Option (NodeSummary EditRef))
      (held : List DraftNode), children.length ≤ 2 * maximumEntries →
        (∀ child ∈ children, SummaryFits child) →
        (rootFromChildren children).run [] = .ok (root, held) →
          ∀ node ∈ held, Inverted node) ∧
    (∀ (object : FinalizedObject) (bytes : Bytes), encodePage object = .ok bytes →
      decodePage identify bytes (identify object.canonical) = .ok object) := by
  have hleaf : ∀ extents : List (ExtentSlice ObjectId), extents.length ≤ maximumEntries →
      Kept (.leaf (totalBytes extents) extents) := fun extents h =>
    ⟨_, encodeDraft_eq_ok ⟨h, rfl⟩ trivial⟩
  refine ⟨?_, ?_, ?_, ?_, ?_, ?_, ?_, ?_, ?_⟩
  · intro node root canonical hfits h
    obtain ⟨hvalid, rfl⟩ := encodeNode_eq_ok.mp h
    exact (decodeNodeWithContext_eq_ok (isBytes_nodeObject node)).mpr ⟨hfits, hvalid, rfl⟩
  · intro canonical root node hbytes h
    exact encodeNode_eq_ok.mpr ((decodeNodeWithContext_eq_ok hbytes).mp h).2
  · intro state canonical hfits h
    obtain ⟨hprofile, rfl⟩ := encodeFileState_eq_ok.mp h
    exact (decodeFileState_eq_ok (isBytes_envelope (isBytes_fileStateFrame state))).mpr
      ⟨hfits, hprofile, rfl⟩
  · intro canonical state hbytes h
    exact encodeFileState_eq_ok.mpr ((decodeFileState_eq_ok hbytes).mp h).2
  · exact fun node hdraft hfits => ⟨_, encodeDraft_eq_ok hdraft hfits⟩
  · intro offset extents left right hfew h
    obtain ⟨hl, hr, -⟩ := splitSlices_length h
    exact ⟨hleaf left (hl.trans hfew), hleaf right (hr.trans hfew)⟩
  · intro extents summary held hmost hrun
    exact (rootFromExtents_keeps hmost).inverted hrun
  · intro children root held hmost hall hrun
    exact (rootFromChildren_keeps hmost hall).inverted hrun
  · exact fun object bytes h => decodePage_encodePage identify h

theorem isBytes_zeroId : IsBytes (List.replicate 32 0) := by decide

theorem length_zeroId : (List.replicate 32 (0 : ℕ)).length = 32 := rfl

def zeroId : ObjectId := ⟨List.replicate 32 0, length_zeroId, isBytes_zeroId⟩

def onePage : ExtentNode ObjectId :=
  .leaf 5 [⟨zeroId, 0, 5, by decide, by decide⟩]

/-- The page, finished, and thought to resemble an object of zeros. -/
def oneObject : FinalizedObject :=
  ⟨.extentLeaf, nodeObject onePage, [zeroId],
    ⟨[(zeroId, .reusedRange)], nodup_singleton _, by decide⟩, isBytes_nodeObject onePage,
    _, (decodeBytesObject_eq_ok (isBytes_nodeObject onePage)).mpr ⟨by decide, rfl⟩⟩

def oneState : ProfiledState := ⟨⟨5, 1, 0, zeroId⟩, zeroId⟩

def threeKinds : DraftNode :=
  .branch 1 15 3 [⟨5, 1, .stored zeroId⟩, ⟨10, 2, .node 7⟩, ⟨15, 3, .page zeroId⟩]

/-- A page, a file state, a draft of three kinds, a leaf cut in two and a finished page. -/
theorem codecs_invert_resident :
    decodeNodeWithContext (nodeObject onePage) true = .ok onePage ∧
      encodeNode onePage true = .ok (nodeObject onePage) ∧
      decodeFileState zeroId (envelope oneState.frame) = .ok oneState ∧
      encodeFileState zeroId oneState = .ok (envelope oneState.frame) ∧
      Kept threeKinds ∧ Kept (.leaf 0 []) ∧
      decodePage (fun _ => zeroId) (pageFrame oneObject) zeroId = .ok oneObject := by
  obtain ⟨hnode, hbytes, hstate, hstateBytes, hdraft, hsplit, -, -, hpage⟩ :=
    codecs_invert zeroId (fun _ => zeroId)
  have hencoded : encodeNode onePage true = .ok (nodeObject onePage) :=
    encodeNode_eq_ok.mpr ⟨by decide, rfl⟩
  have hdecoded := hnode onePage true _ (by decide : 5 < u64Bound) hencoded
  have hstateFits : oneState.Fits :=
    ⟨(by decide : 5 < u64Bound), (by decide : 1 < u64Bound), (by decide : 0 < 256)⟩
  have hstateEncoded : encodeFileState zeroId oneState = .ok (envelope oneState.frame) :=
    encodeFileState_eq_ok.mpr ⟨⟨rfl, by decide⟩, rfl⟩
  have hstateDecoded := hstate oneState _ hstateFits hstateEncoded
  have hthree : Draft threeKinds :=
    ⟨by decide, by decide, ⟨⟨by decide, by decide⟩, ⟨by decide, by decide⟩,
      ⟨by decide, by decide⟩, trivial⟩, rfl⟩
  have hthreeFits : DraftFits threeKinds := by
    refine forall_mem_cons.mpr ⟨⟨by decide, trivial⟩, forall_mem_cons.mpr
      ⟨⟨by decide, (by decide : 7 < u64Bound)⟩, forall_mem_singleton.mpr
        ⟨by decide, trivial⟩⟩⟩
  refine ⟨hdecoded, hbytes _ true onePage (isBytes_nodeObject onePage) hdecoded, hstateDecoded,
    hstateBytes _ oneState (isBytes_envelope (isBytes_fileStateFrame oneState)) hstateDecoded,
    hdraft threeKinds hthree hthreeFits, (hsplit 0 [] [] [] (by decide) rfl).1, ?_⟩
  refine hpage oneObject _ ?_
  rw [encodePage, ensure_pass _ (by decide), ok_bind, show oneObject.canonical = nodeObject onePage
    from rfl, hdecoded, ok_bind]
  rfl

end LayerFs.Codec
