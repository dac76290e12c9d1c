import LayerFs.Mapping.Build

/-!
# The extents of a file, one at a time (`file/mapping/extents.rs`)

A walk holds the subtrees still to come, each with the offset it begins at, and the rest of the leaf
it is in. A subtree that ends at or before the offset sought is passed unread; in the leaf that
holds that offset the walk begins with the first extent, and the cursor passes those that end before
it.

* `Walk.Ahead` — **what is still to come**: the placed extents of the leaf's rest and of the pending
  subtrees.
* `extents_exact` — **every sequence of seeks and reads** sees the file's extents in order, from the
  one that holds the offset sought, and they tile the file.
-/

namespace LayerFs

open List

variable {Id : Type}
variable {index level start turns : ℕ}

/-! ## The walk -/

/-- A pending subtree: its summary, whether it is the tree's root, and its offset. -/
structure PendingNode (Id : Type) where
  summary : NodeSummary Id
  root : Bool
  base : ℕ

/-- `Walk`: the pending subtrees, the next one first, and the current leaf. -/
structure Walk (Id : Type) where
  stack : List (PendingNode Id)
  leaf : List (ExtentSlice Id)
  position : ℕ

/-- An extent at its logical range. -/
structure Placed (Id : Type) where
  start : ℕ
  stop : ℕ
  slice : ExtentSlice Id

/-- `Walk::new`. -/
def Walk.new (state : FileState Id) : Walk Id :=
  ⟨[⟨⟨state.mappingRoot, state.logicalLen, state.extentCount, state.treeLevel⟩, true, 0⟩], [], 0⟩

def pendChildren (base level : ℕ) : ℕ → ℕ → List (ChildDescriptor Id) →
    ContentResult (List (PendingNode Id))
  | _, _, [] => .ok []
  | previousBytes, previousExtents, child :: rest => do
    ensure (decide (previousBytes ≤ child.cumulativeLogicalEnd))
      (.invalidRecord "mapping branch order")
    ensure (decide (previousExtents ≤ child.cumulativeExtentEnd))
      (.invalidRecord "mapping branch order")
    let start ← checkedAdd base previousBytes
    let later ← pendChildren base level child.cumulativeLogicalEnd child.cumulativeExtentEnd rest
    return ⟨⟨child.childObjectId, child.cumulativeLogicalEnd - previousBytes,
      child.cumulativeExtentEnd - previousExtents, level⟩, false, start⟩ :: later

variable [DecidableEq Id]

def Walk.openPage (reader : Id → Option (MappingObject Id)) (node : PendingNode Id)
    (stack : List (PendingNode Id)) (walk : Walk Id) : ContentResult (Walk Id) := do
  let object ← orError (reader node.summary.id) .missingObject
  let page ← decodeNodeWithContext object node.root
  ensure (page.level == node.summary.level && page.logicalLen == node.summary.bytes
    && page.extentCount == node.summary.extents) (.invalidRecord "mapping page summary")
  match page with
  | .leaf _ extents => return ⟨stack, extents, node.base⟩
  | .branch level _ _ children => do
    ensure (level != 0) .mappingDepthExceeded
    let pending ← pendChildren node.base (level - 1) 0 0 children
    return { walk with stack := pending ++ stack }

def PendingNode.passed (node : PendingNode Id) (start : ℕ) : ContentResult Bool :=
  if start ≠ 0 then do
    let stop ← checkedAdd node.base node.summary.bytes
    return decide (stop ≤ start)
  else return false

/-- The loop of `Walk::next`. -/
def Walk.nextLoop (reader : Id → Option (MappingObject Id)) (start : ℕ) : ℕ → Walk Id →
    ContentResult (Option (Placed Id) × Walk Id)
  | 0, _ => .error .mappingDepthExceeded
  | turns + 1, walk =>
    match walk.leaf with
    | extent :: rest => do
      let stop ← checkedAdd walk.position extent.logicalLength
      return (some ⟨walk.position, stop, extent⟩, ⟨walk.stack, rest, stop⟩)
    | [] =>
      match walk.stack with
      | [] => return (none, walk)
      | node :: stack => do
        let passed ← node.passed start
        if passed then nextLoop reader start turns { walk with stack }
        else
          let walk ← walk.openPage reader node stack
          nextLoop reader start turns walk

/-- The turns that are enough for some subtrees: a page has at most `maximumEntries` children, each
one level lower. -/
def turnsBelow (stack : List (PendingNode Id)) : ℕ :=
  (stack.map fun node => (maximumEntries + 1) ^ (node.summary.level + 1)).sum

/-- `Walk::next`. -/
def Walk.next (walk : Walk Id) (reader : Id → Option (MappingObject Id)) (start : ℕ) :
    ContentResult (Option (Placed Id) × Walk Id) :=
  walk.nextLoop reader start (turnsBelow walk.stack + 1)

/-! ## The cursor -/

/-- `Extent`: bytes of the file that are bytes of a chunk. -/
structure Extent (Id : Type) where
  offset : ℕ
  length : ℕ
  chunk : Id
  chunkOffset : ℕ
  deriving DecidableEq

/-- `ExtentCursor`, without its count of pages. -/
structure ExtentCursor (Id : Type) where
  state : FileState Id
  walk : Walk Id
  start : ℕ

namespace ExtentCursor

/-- `ExtentCursor::new`. -/
def new (state : FileState Id) : ExtentCursor Id := ⟨state, .new state, 0⟩

/-- `ExtentCursor::seek`. -/
def seek (cursor : ExtentCursor Id) (offset : ℕ) : ExtentCursor Id :=
  { cursor with walk := .new cursor.state, start := offset }

/-- The loop of `ExtentCursor::next`. -/
def nextLoop (reader : Id → Option (MappingObject Id)) : ℕ → ExtentCursor Id →
    ContentResult (Option (Extent Id) × ExtentCursor Id)
  | 0, _ => .error .mappingDepthExceeded
  | turns + 1, cursor => do
    let found ← cursor.walk.next reader cursor.start
    match found.1 with
    | none => return (none, { cursor with walk := found.2 })
    | some placed =>
      -- an extent of the sought leaf that ends at or before the offset
      if placed.stop ≤ cursor.start then nextLoop reader turns { cursor with walk := found.2 }
      else return (some ⟨placed.start, placed.slice.logicalLength, placed.slice.payloadObjectId,
        placed.slice.sourceOffset⟩, { cursor with walk := found.2 })

/-- `ExtentCursor::next`: there are no more extents to pass than the file has. -/
def next (cursor : ExtentCursor Id) (reader : Id → Option (MappingObject Id)) :
    ContentResult (Option (Extent Id) × ExtentCursor Id) :=
  cursor.nextLoop reader (cursor.state.extentCount + 1)

end ExtentCursor

/-- A call on a cursor. -/
inductive CursorCall where
  | seek (offset : ℕ)
  | next

/-- What the `next` calls of a sequence return. -/
def ExtentCursor.run (reader : Id → Option (MappingObject Id)) : ExtentCursor Id →
    List CursorCall → ContentResult (List (Option (Extent Id)))
  | _, [] => .ok []
  | cursor, .seek offset :: calls => run reader (cursor.seek offset) calls
  | cursor, .next :: calls => do
    let found ← cursor.next reader
    let later ← run reader found.2 calls
    return found.1 :: later

/-! ## What a cursor is for -/

def extentAt (extents : List (ExtentSlice Id)) (index : ℕ) : Option (Extent Id) :=
  extents[index]?.map fun slice => ⟨totalBytes (extents.take index), slice.logicalLength,
    slice.payloadObjectId, slice.sourceOffset⟩

def indexAt : List (ExtentSlice Id) → ℕ → ℕ
  | [], _ => 0
  | slice :: rest, offset =>
    if slice.logicalLength ≤ offset then indexAt rest (offset - slice.logicalLength) + 1 else 0

/-- **What a sequence of calls is to return**: the extents from an index on, one after the other; a
seek goes to the index of the extent that holds its offset. -/
def viewRun (extents : List (ExtentSlice Id)) : ℕ → List CursorCall → List (Option (Extent Id))
  | _, [] => []
  | _, .seek offset :: calls => viewRun extents (indexAt extents offset) calls
  | index, .next :: calls => extentAt extents index :: viewRun extents (index + 1) calls

/-! ## What is still to come -/

def placedFrom : ℕ → List (ExtentSlice Id) → List (Placed Id)
  | _, [] => []
  | position, slice :: rest =>
    ⟨position, position + slice.logicalLength, slice⟩ ::
      placedFrom (position + slice.logicalLength) rest

omit [DecidableEq Id] in
theorem placedFrom_append (a b : List (ExtentSlice Id)) (position : ℕ) :
    placedFrom position (a ++ b) =
      placedFrom position a ++ placedFrom (position + totalBytes a) b := by
  induction a generalizing position with
  | nil => rfl
  | cons slice a ih =>
    rw [cons_append, placedFrom, placedFrom, ih, totalBytes_cons, Nat.add_assoc]
    rfl

omit [DecidableEq Id] in
theorem length_placedFrom (extents : List (ExtentSlice Id)) (position : ℕ) :
    (placedFrom position extents).length = extents.length := by
  induction extents generalizing position with
  | nil => rfl
  | cons slice rest ih => rw [placedFrom, length_cons, length_cons, ih]

omit [DecidableEq Id] in
theorem placedFrom_bounds {extents : List (ExtentSlice Id)} : ∀ {position : ℕ} {placed : Placed Id},
    placed ∈ placedFrom position extents →
      position < placed.stop ∧ placed.stop ≤ position + totalBytes extents := by
  induction extents with
  | nil => exact fun h => absurd h not_mem_nil
  | cons slice rest ih =>
    intro position placed h
    have hpos := slice.nonempty
    rw [totalBytes_cons]
    rcases mem_cons.mp h with rfl | h
    · dsimp only
      omega
    · have := ih h
      omega

section Ahead

variable {reader : Id → Option (MappingObject Id)}

/-- **The extents of pending subtrees**, which are valid trees at their offsets. -/
inductive Pends (reader : Id → Option (MappingObject Id)) :
    List (PendingNode Id) → List (Placed Id) → Prop
  | nil : Pends reader [] []
  | cons {node : PendingNode Id} {part : List (ExtentSlice Id)} {stack : List (PendingNode Id)}
      {rest : List (Placed Id)}
      (hmapped : Mapped reader node.summary.level node.root node.summary.id part)
      (hbytes : node.summary.bytes = totalBytes part) (hextents : node.summary.extents = part.length)
      (hbound : node.base + totalBytes part < u64Bound) (h : Pends reader stack rest) :
      Pends reader (node :: stack) (placedFrom node.base part ++ rest)

/-- **What is still to come** of a walk. -/
def Walk.Ahead (reader : Id → Option (MappingObject Id)) (walk : Walk Id)
    (rest : List (Placed Id)) : Prop :=
  walk.position + totalBytes walk.leaf < u64Bound ∧
    ∃ later, Pends reader walk.stack later ∧ rest = placedFrom walk.position walk.leaf ++ later

variable {rest : List (Placed Id)}

theorem pendChildren_eq_ok {base : ℕ} {children : List (ChildDescriptor Id)}
    {parts : List (List (ExtentSlice Id))} {stack : List (PendingNode Id)}
    (hmapped : List.Forall₂
      (fun child part => Mapped reader level false child.childObjectId part) children parts)
    (hstack : Pends reader stack rest) :
    ∀ {bytes extents : ℕ},
      children.map ChildDescriptor.cumulativeLogicalEnd = cumulative bytes (parts.map totalBytes) →
      children.map ChildDescriptor.cumulativeExtentEnd =
        cumulative extents (parts.map List.length) →
      base + bytes + totalBytes parts.flatten < u64Bound →
      ∃ pending, pendChildren base level bytes extents children = .ok pending ∧
        pending.length = children.length ∧ (∀ node ∈ pending, node.summary.level = level) ∧
        Pends reader (pending ++ stack) (placedFrom (base + bytes) parts.flatten ++ rest) := by
  induction hmapped with
  | nil =>
    intro bytes extents _ _ _
    exact ⟨[], rfl, rfl, fun node hnode => absurd hnode not_mem_nil, hstack⟩
  | @cons child part children parts hchild _ ih =>
    intro bytes extents hbytes hextents hbound
    rw [map_cons, map_cons, cumulative] at hbytes hextents
    obtain ⟨hend, hbytes⟩ := List.cons.inj hbytes
    obtain ⟨hlast, hextents⟩ := List.cons.inj hextents
    rw [flatten_cons, totalBytes_append] at hbound
    obtain ⟨pending, hpending, hlength, hlevels, hpends⟩ :=
      ih hbytes hextents (by omega)
    have hadd : checkedAdd base bytes = .ok (base + bytes) := checkedAdd_eq_ok.mpr ⟨by omega, rfl⟩
    refine ⟨⟨⟨child.childObjectId, totalBytes part, part.length, level⟩, false, base + bytes⟩ ::
      pending, ?_, ?_, ?_, ?_⟩
    · rw [pendChildren, hend, hlast, hadd, hpending]
      have hone : bytes + totalBytes part - bytes = totalBytes part := by omega
      have htwo : extents + part.length - extents = part.length := by omega
      rw [hone, htwo]
      simp [ensure, ok_bind]
    · rw [length_cons, length_cons, hlength]
    · intro node hnode
      rcases mem_cons.mp hnode with rfl | hnode
      · rfl
      · exact hlevels node hnode
    · rw [flatten_cons, placedFrom_append, append_assoc, Nat.add_assoc]
      rw [Nat.add_assoc] at hbound
      rw [cons_append]
      exact .cons hchild rfl rfl (by dsimp only; omega) hpends

omit [DecidableEq Id] in
theorem turnsBelow_of_level {nodes : List (PendingNode Id)}
    (h : ∀ node ∈ nodes, node.summary.level = level) :
    turnsBelow nodes = nodes.length * (maximumEntries + 1) ^ (level + 1) := by
  induction nodes with
  | nil => rw [length_nil, Nat.zero_mul]; rfl
  | cons node nodes ih =>
    have hnode := h node mem_cons_self
    have hnodes := ih fun x hx => h x (mem_cons_of_mem node hx)
    rw [turnsBelow] at hnodes ⊢
    rw [map_cons, sum_cons, hnodes, hnode, length_cons, Nat.succ_mul, Nat.add_comm]

omit [DecidableEq Id] in
theorem turnsBelow_append (a b : List (PendingNode Id)) :
    turnsBelow (a ++ b) = turnsBelow a + turnsBelow b := by
  rw [turnsBelow, map_append, sum_append]
  rfl

theorem decodeNodeWithContext_page {page : ExtentNode Id} {root : Bool}
    (hvalid : page.validate root = .ok ()) :
    decodeNodeWithContext (.page page) root = .ok page := by
  rw [decodeNodeWithContext, hvalid]
  rfl

/-- **A valid page is read**: the same extents are to come, with fewer turns. -/
theorem openPage_eq_ok {node : PendingNode Id} {part : List (ExtentSlice Id)}
    {stack : List (PendingNode Id)} {rest : List (Placed Id)} {walk : Walk Id}
    (hmapped : Mapped reader node.summary.level node.root node.summary.id part)
    (hbytes : node.summary.bytes = totalBytes part) (hextents : node.summary.extents = part.length)
    (hbound : node.base + totalBytes part < u64Bound) (hstack : Pends reader stack rest)
    (hleaf : walk.leaf = []) (hposition : walk.position < u64Bound) :
    ∃ walk', walk.openPage reader node stack = .ok walk' ∧
      walk'.Ahead reader (placedFrom node.base part ++ rest) ∧
      turnsBelow walk'.stack < turnsBelow (node :: stack) := by
  obtain ⟨⟨id, bytes, extents, level⟩, root, base⟩ := node
  dsimp only at hmapped hbytes hextents hbound ⊢
  subst hbytes hextents
  cases level with
  | zero =>
    obtain ⟨hstored, hvalid⟩ := hmapped
    refine ⟨⟨stack, part, base⟩, ?_, ⟨hbound, rest, hstack, rfl⟩, ?_⟩
    · have hdecode := decodeNodeWithContext_page hvalid
      rw [Walk.openPage, hstored]
      simp only [orError, ok_bind, hdecode, ensure, ExtentNode.level, ExtentNode.logicalLen,
        ExtentNode.extentCount, beq_self_eq_true, Bool.and_self, if_true]
      rfl
    · rw [turnsBelow, turnsBelow, map_cons, sum_cons]
      exact Nat.lt_add_of_pos_left (Nat.pow_pos (by decide))
  | succ level =>
    obtain ⟨children, parts, rfl, hstored, hvalid, hends, hlasts, hchildren⟩ := hmapped
    obtain ⟨pending, hpending, hlength, hlevels, hpends⟩ :=
      pendChildren_eq_ok hchildren hstack hends hlasts (by omega : base + 0 + _ < u64Bound)
    have hcount : children.length ≤ maximumEntries := by
      have hchecks := (check_bind_eq_ok.mp hvalid).1
      simp only [ensure_eq_ok, Bool.and_eq_true, decide_eq_true_eq] at hchecks
      exact hchecks.1
    refine ⟨{ walk with stack := pending ++ stack }, ?_, ?_, ?_⟩
    · have hdecode := decodeNodeWithContext_page hvalid
      have hdeep : (level + 1 != 0) = true := rfl
      rw [Walk.openPage, hstored]
      simp only [orError, ok_bind, hdecode, ensure, ExtentNode.level, ExtentNode.logicalLen,
        ExtentNode.extentCount, beq_self_eq_true, Bool.and_self, if_true, Nat.add_sub_cancel,
        hdeep, hpending]
      rfl
    · refine ⟨?_, _, hpends, ?_⟩
      · rw [hleaf]
        exact hposition
      · rw [hleaf]
        rfl
    · have hone : 0 < (maximumEntries + 1) ^ (level + 1) := Nat.pow_pos (by decide)
      dsimp only
      rw [turnsBelow_append, turnsBelow_of_level hlevels, hlength, ← singleton_append,
        turnsBelow_append]
      refine Nat.add_lt_add_right ?_ _
      calc children.length * (maximumEntries + 1) ^ (level + 1)
          ≤ maximumEntries * (maximumEntries + 1) ^ (level + 1) := Nat.mul_le_mul_right _ hcount
        _ < (maximumEntries + 1) * (maximumEntries + 1) ^ (level + 1) :=
          Nat.mul_lt_mul_of_pos_right (Nat.lt_succ_self _) hone
        _ = turnsBelow [⟨⟨id, totalBytes parts.flatten, parts.flatten.length, level + 1⟩, root,
            base⟩] := by
          rw [turnsBelow, map_singleton, sum_singleton, Nat.pow_succ _ (level + 1),
            Nat.mul_comm]

/-- What is passed of a list of extents, the next one and what is to come behind it. -/
structure Walk.Found (reader : Id → Option (MappingObject Id)) (start : ℕ) (rest : List (Placed Id))
    (placed : Placed Id) (walk : Walk Id) (later : List (Placed Id)) : Prop where
  split : ∃ passed, rest = passed ++ placed :: later ∧ ∀ x ∈ passed, x.stop ≤ start
  ahead : walk.Ahead reader later

/-- **The walk's next extent**: only extents that end at or before the offset sought are passed. -/
theorem Walk.nextLoop_spec {walk : Walk Id} (h : walk.Ahead reader rest)
    (hturns : turnsBelow walk.stack < turns) :
    (∃ placed walk' later, walk.nextLoop reader start turns = .ok (some placed, walk') ∧
      Walk.Found reader start rest placed walk' later) ∨
    ∃ walk', walk.nextLoop reader start turns = .ok (none, walk') ∧
      (∀ x ∈ rest, x.stop ≤ start) ∧ walk'.Ahead reader [] := by
  induction turns generalizing walk rest with
  | zero => omega
  | succ turns ih =>
    obtain ⟨stack, leaf, position⟩ := walk
    obtain ⟨hbound, later, hpends, rfl⟩ := h
    dsimp only at hbound hpends hturns ⊢
    cases leaf with
    | cons extent leaf =>
      rw [totalBytes_cons] at hbound
      have hadd : checkedAdd position extent.logicalLength =
        .ok (position + extent.logicalLength) := checkedAdd_eq_ok.mpr ⟨by omega, rfl⟩
      refine .inl ⟨_, ⟨stack, leaf, position + extent.logicalLength⟩,
        placedFrom (position + extent.logicalLength) leaf ++ later, ?_, ⟨[], rfl, ?_⟩, ?_⟩
      · rw [nextLoop]
        simp only [hadd, ok_bind]
        rfl
      · exact fun x hx => absurd hx not_mem_nil
      · exact ⟨by dsimp only; omega, later, hpends, rfl⟩
    | nil =>
      cases hpends with
      | nil =>
        refine .inr ⟨⟨[], [], position⟩, rfl, ?_, hbound, [], .nil, rfl⟩
        exact fun x hx => absurd hx not_mem_nil
      | @cons node part stack rest hmapped hbytes hextents hfits hstack =>
        have hfewer : turnsBelow stack < turnsBelow (node :: stack) := by
          rw [turnsBelow, turnsBelow, map_cons, sum_cons]
          exact Nat.lt_add_of_pos_left (Nat.pow_pos (by decide))
        have hpassed : node.passed start =
            .ok (decide (start ≠ 0) && decide (node.base + totalBytes part ≤ start)) := by
          rw [PendingNode.passed, hbytes]
          split_ifs with hzero
          · rw [checkedAdd_eq_ok.mpr ⟨hfits, rfl⟩, ok_bind, decide_eq_true hzero, Bool.true_and]
            rfl
          · rw [decide_eq_false hzero, Bool.false_and]
            rfl
        rw [nextLoop]
        simp only [hpassed, ok_bind]
        split_ifs with hskip
        · -- the subtree ends before the offset sought, and so do its extents
          rw [Bool.and_eq_true, decide_eq_true_eq, decide_eq_true_eq] at hskip
          have hbefore : ∀ x ∈ placedFrom node.base part, x.stop ≤ start := fun x hx =>
            (placedFrom_bounds hx).2.trans hskip.2
          have hrest : (Walk.mk stack [] position).Ahead reader rest := ⟨hbound, rest, hstack, rfl⟩
          obtain ⟨placed, walk', later, hnext, ⟨passed, rfl, hpast⟩, hahead⟩ |
            ⟨walk', hnext, hall, hahead⟩ := ih hrest (by dsimp only; omega)
          · refine .inl ⟨placed, walk', later, hnext, ⟨placedFrom node.base part ++ passed, ?_, ?_⟩,
              hahead⟩
            · simp [placedFrom]
            · exact fun x hx => (mem_append.mp hx).elim (hbefore x) (hpast x)
          · refine .inr ⟨walk', hnext, fun x hx => ?_, hahead⟩
            replace hx : x ∈ placedFrom node.base part ++ rest := hx
            exact (mem_append.mp hx).elim (hbefore x) (hall x)
        · obtain ⟨walk', hopen, hahead, hless⟩ := @openPage_eq_ok _ _ reader node part stack rest
            ⟨node :: stack, [], position⟩ hmapped hbytes hextents hfits hstack rfl hbound
          rw [hopen, ok_bind]
          exact ih hahead (by omega)

theorem Walk.next_spec {start : ℕ} {walk : Walk Id} {rest : List (Placed Id)}
    (h : walk.Ahead reader rest) :
    (∃ placed walk' later, walk.next reader start = .ok (some placed, walk') ∧
      Walk.Found reader start rest placed walk' later) ∨
    ∃ walk', walk.next reader start = .ok (none, walk') ∧
      (∀ x ∈ rest, x.stop ≤ start) ∧ walk'.Ahead reader [] :=
  nextLoop_spec h (Nat.lt_succ_self _)

/-! ## The cursor's extents -/

def behind (start : ℕ) (rest : List (Placed Id)) : List (Placed Id) :=
  rest.dropWhile fun placed => decide (placed.stop ≤ start)

variable {placed : Placed Id}

omit [DecidableEq Id] in
theorem behind_cons_of_le (h : placed.stop ≤ start) :
    behind start (placed :: rest) = behind start rest := by
  simp [behind, h]

omit [DecidableEq Id] in
theorem behind_cons_of_lt (h : start < placed.stop) :
    behind start (placed :: rest) = placed :: rest := by
  simp [behind, h]

omit [DecidableEq Id] in
theorem behind_append {start : ℕ} {passed rest : List (Placed Id)}
    (h : ∀ x ∈ passed, x.stop ≤ start) : behind start (passed ++ rest) = behind start rest := by
  induction passed with
  | nil => rfl
  | cons x passed ih =>
    rw [cons_append, behind_cons_of_le (h x mem_cons_self)]
    exact ih fun y hy => h y (mem_cons_of_mem x hy)

omit [DecidableEq Id] in
theorem behind_eq_nil (h : ∀ x ∈ rest, x.stop ≤ start) : behind start rest = [] := by
  have hnone := @behind_append _ start rest [] h
  rw [append_nil] at hnone
  exact hnone

omit [DecidableEq Id] in
theorem behind_behind (rest : List (Placed Id)) :
    behind start (behind start rest) = behind start rest := by
  induction rest with
  | nil => rfl
  | cons placed rest ih =>
    by_cases hbefore : placed.stop ≤ start
    · rw [behind_cons_of_le hbefore, ih]
    · rw [behind_cons_of_lt (not_le.mp hbefore), behind_cons_of_lt (not_le.mp hbefore)]

def Placed.extent (placed : Placed Id) : Extent Id :=
  ⟨placed.start, placed.slice.logicalLength, placed.slice.payloadObjectId,
    placed.slice.sourceOffset⟩

variable {cursor : ExtentCursor Id}

/-- **The cursor's next extent** is the first that ends behind the offset sought. -/
theorem ExtentCursor.nextLoop_spec (h : cursor.walk.Ahead reader rest)
    (hturns : rest.length < turns) :
    ∃ walk, cursor.nextLoop reader turns =
        .ok ((behind cursor.start rest).head?.map Placed.extent, { cursor with walk }) ∧
      walk.Ahead reader (behind cursor.start rest).tail := by
  induction turns generalizing cursor rest with
  | zero => omega
  | succ turns ih =>
    rw [nextLoop]
    obtain ⟨placed, walk, later, hnext, ⟨passed, rfl, hpast⟩, hahead⟩ |
      ⟨walk, hnext, hall, hahead⟩ := @Walk.next_spec _ _ reader cursor.start _ _ h
    · rw [hnext, ok_bind, behind_append hpast]
      dsimp only
      rw [length_append, length_cons] at hturns
      split_ifs with hbefore
      · rw [behind_cons_of_le hbefore]
        exact ih hahead (by omega)
      · rw [behind_cons_of_lt (not_le.mp hbefore)]
        exact ⟨walk, rfl, hahead⟩
    · rw [hnext, ok_bind, behind_eq_nil hall]
      exact ⟨walk, rfl, hahead⟩

/-! ## Indices -/

omit [DecidableEq Id] in
theorem getElem_placedFrom {extents : List (ExtentSlice Id)} : ∀ {index position : ℕ},
    (placedFrom position extents)[index]? = extents[index]?.map fun slice =>
      ⟨position + totalBytes (extents.take index),
        position + totalBytes (extents.take index) + slice.logicalLength, slice⟩ := by
  induction extents with
  | nil => exact fun {index position} => by simp [placedFrom]
  | cons slice rest ih =>
    intro index position
    cases index with
    | zero => simp [placedFrom]
    | succ index =>
      rw [placedFrom, getElem?_cons_succ, getElem?_cons_succ, ih, take_succ_cons,
        totalBytes_cons, Nat.add_assoc]

omit [DecidableEq Id] in
theorem extentAt_eq (extents : List (ExtentSlice Id)) (index : ℕ) :
    extentAt extents index = (placedFrom 0 extents)[index]?.map Placed.extent := by
  rw [extentAt, getElem_placedFrom, Option.map_map]
  congr 1
  funext slice
  simp [Placed.extent]

omit [DecidableEq Id] in
theorem behind_placedFrom {extents : List (ExtentSlice Id)} : ∀ {position offset : ℕ},
    behind (position + offset) (placedFrom position extents) =
      (placedFrom position extents).drop (indexAt extents offset) := by
  induction extents with
  | nil => exact fun {position offset} => rfl
  | cons slice rest ih =>
    intro position offset
    rw [placedFrom, indexAt]
    split_ifs with hbefore
    · rw [behind_cons_of_le (by dsimp only; omega), drop_succ_cons, ← ih]
      congr 1
      omega
    · rw [behind_cons_of_lt (by dsimp only; omega), drop_zero]

omit [DecidableEq Id] in
theorem placedFrom_ascending (extents : List (ExtentSlice Id)) : ∀ position : ℕ,
    (placedFrom position extents).Pairwise fun a b => a.stop < b.stop := by
  induction extents with
  | nil => exact fun _ => .nil
  | cons slice rest ih =>
    intro position
    exact pairwise_cons.mpr ⟨fun x hx => (placedFrom_bounds hx).1, ih _⟩

omit [DecidableEq Id] in
theorem behind_tail (hascending : rest.Pairwise fun a b => a.stop < b.stop)
    (h : behind start rest = rest) : behind start rest.tail = rest.tail := by
  rcases rest with _ | ⟨first, _ | ⟨second, rest⟩⟩
  · rfl
  · rfl
  · have hstart : start < first.stop := by
      by_contra hbefore
      rw [behind_cons_of_le (not_lt.mp hbefore)] at h
      have hless : (behind start (second :: rest)).length ≤ (second :: rest).length :=
        (dropWhile_suffix _).length_le
      rw [h, length_cons] at hless
      omega
    have hnext := (pairwise_cons.mp hascending).1 second mem_cons_self
    exact behind_cons_of_lt (hstart.trans hnext)

/-! ## Every sequence of calls -/

/-- **A file state that opens a valid mapping tree.** -/
structure Opens (reader : Id → Option (MappingObject Id)) (state : FileState Id)
    (extents : List (ExtentSlice Id)) : Prop where
  mapped : Mapped reader state.treeLevel true state.mappingRoot extents
  logicalLen_eq : state.logicalLen = totalBytes extents
  extentCount_eq : state.extentCount = extents.length
  logicalLen_lt : state.logicalLen < u64Bound

variable {state : FileState Id} {extents : List (ExtentSlice Id)}

theorem Opens.new_ahead (h : Opens reader state extents) :
    (Walk.new state).Ahead reader (placedFrom 0 extents) := by
  have hbound := h.logicalLen_lt
  rw [h.logicalLen_eq] at hbound
  have hroot := @Pends.cons _ _ reader ⟨⟨state.mappingRoot, state.logicalLen, state.extentCount,
    state.treeLevel⟩, true, 0⟩ _ _ _ h.mapped h.logicalLen_eq h.extentCount_eq
    (by dsimp only; omega) .nil
  rw [append_nil] at hroot
  exact ⟨show 0 + 0 < u64Bound by decide, _, hroot, rfl⟩

/-- A cursor over a file whose next extent is the one at an index. -/
structure ExtentCursor.At (reader : Id → Option (MappingObject Id)) (state : FileState Id)
    (extents : List (ExtentSlice Id)) (cursor : ExtentCursor Id) (index : ℕ) : Prop where
  state_eq : cursor.state = state
  ahead : ∃ rest, cursor.walk.Ahead reader rest ∧ rest.length ≤ extents.length ∧
    behind cursor.start rest = (placedFrom 0 extents).drop index

theorem Opens.seek_at (h : Opens reader state extents) {cursor : ExtentCursor Id}
    (hstate : cursor.state = state) (offset : ℕ) :
    (cursor.seek offset).At reader state extents (indexAt extents offset) := by
  refine ⟨hstate, placedFrom 0 extents, ?_, ?_, ?_⟩
  · rw [ExtentCursor.seek, hstate]
    exact h.new_ahead
  · exact (length_placedFrom extents 0).le
  · have hbehind := @behind_placedFrom _ extents 0 offset
    rw [Nat.zero_add] at hbehind
    exact hbehind

theorem Opens.new_at (h : Opens reader state extents) :
    (ExtentCursor.new state).At reader state extents 0 := by
  have hzero : indexAt extents 0 = 0 := by
    cases extents with
    | nil => rfl
    | cons slice rest => exact if_neg (not_le.mpr slice.nonempty)
  have hat := @Opens.seek_at _ _ _ _ _ h (ExtentCursor.new state) rfl 0
  rw [hzero] at hat
  exact hat

/-- **A read** returns the extent at the index, and the next one is behind it. -/
theorem Opens.next_at (h : Opens reader state extents) (hat : cursor.At reader state extents index)
    :
    ∃ cursor', cursor.next reader = .ok (extentAt extents index, cursor') ∧
      cursor'.At reader state extents (index + 1) := by
  obtain ⟨hstate, rest, hahead, hlength, hbehind⟩ := hat
  have hturns : rest.length < cursor.state.extentCount + 1 := by
    rw [hstate, h.extentCount_eq]
    omega
  obtain ⟨walk, hnext, hlater⟩ := ExtentCursor.nextLoop_spec hahead hturns
  rw [hbehind] at hnext hlater
  refine ⟨{ cursor with walk }, ?_, hstate, _, hlater, ?_, ?_⟩
  · rw [ExtentCursor.next, hnext, extentAt_eq, head?_drop]
  · rw [length_tail, length_drop, length_placedFrom]
    omega
  · have hwhole : behind cursor.start ((placedFrom 0 extents).drop index) =
        (placedFrom 0 extents).drop index := by
      rw [← hbehind, behind_behind]
    rw [behind_tail ((placedFrom_ascending extents 0).sublist (drop_sublist _ _)) hwhole,
      tail_drop]

theorem Opens.run_eq (h : Opens reader state extents) {calls : List CursorCall} :
    ∀ {cursor : ExtentCursor Id} {index : ℕ}, cursor.At reader state extents index →
      cursor.run reader calls = .ok (viewRun extents index calls) := by
  induction calls with
  | nil => exact fun _ => rfl
  | cons call calls ih =>
    intro cursor index hat
    cases call with
    | seek offset => exact ih (h.seek_at hat.state_eq offset)
    | next =>
      obtain ⟨cursor', hnext, hat'⟩ := h.next_at hat
      rw [ExtentCursor.run, hnext, ok_bind, ih hat']
      rfl

end Ahead

omit [DecidableEq Id] in
theorem placed_indexAt {extents : List (ExtentSlice Id)} : ∀ {position offset : ℕ},
    offset < totalBytes extents → ∃ placed,
      (placedFrom position extents)[indexAt extents offset]? = some placed ∧
        placed.start ≤ position + offset ∧ position + offset < placed.stop ∧
        placed.stop = placed.start + placed.slice.logicalLength := by
  induction extents with
  | nil => exact fun h => absurd h (Nat.not_lt_zero _)
  | cons slice rest ih =>
    intro position offset h
    rw [totalBytes_cons] at h
    rw [indexAt, placedFrom]
    split_ifs with hbefore
    · obtain ⟨placed, hplaced, hstart, hstop, hlength⟩ :=
        @ih (position + slice.logicalLength) (offset - slice.logicalLength) (by omega)
      refine ⟨placed, ?_, by omega, by omega, hlength⟩
      rw [getElem?_cons_succ, hplaced]
    · refine ⟨_, getElem?_cons_zero, Nat.le_add_right .., ?_, rfl⟩
      dsimp only
      omega

omit [DecidableEq Id] in
theorem length_le_indexAt {extents : List (ExtentSlice Id)} : ∀ {offset : ℕ},
    totalBytes extents ≤ offset → extents.length ≤ indexAt extents offset := by
  induction extents with
  | nil => exact fun _ => Nat.zero_le _
  | cons slice rest ih =>
    intro offset h
    rw [totalBytes_cons] at h
    rw [indexAt, if_pos (by omega), length_cons]
    exact Nat.succ_le_succ (ih (by omega))

omit [DecidableEq Id] in
theorem extentAt_tiles {extents : List (ExtentSlice Id)} {extent : Extent Id}
    (h : extentAt extents index = some extent) :
    extent.offset + extent.length = totalBytes (extents.take (index + 1)) := by
  obtain ⟨slice, hslice, rfl⟩ := Option.map_eq_some_iff.mp h
  rw [take_add_one, hslice, totalBytes_append]
  simp

/-- **Every sequence of seeks and reads** of a cursor over a valid mapping tree returns the extents
in order: from the start of the file, or from the extent that holds the offset sought, its
successors one by one up to the end. The extents tile the file. -/
theorem extents_exact {reader : Id → Option (MappingObject Id)} {state : FileState Id}
    {extents : List (ExtentSlice Id)} (h : Opens reader state extents) :
    (∀ calls, (ExtentCursor.new state).run reader calls = .ok (viewRun extents 0 calls)) ∧
    (∀ offset, offset < state.logicalLen → ∃ extent,
      extentAt extents (indexAt extents offset) = some extent ∧ extent.offset ≤ offset ∧
        offset < extent.offset + extent.length) ∧
    (∀ offset, state.logicalLen ≤ offset → extentAt extents (indexAt extents offset) = none) ∧
    ∀ index extent, extentAt extents index = some extent →
      (index = 0 → extent.offset = 0) ∧
      (∀ next, extentAt extents (index + 1) = some next →
        next.offset = extent.offset + extent.length) ∧
      (extentAt extents (index + 1) = none →
        extent.offset + extent.length = state.logicalLen) := by
  refine ⟨fun calls => ?_, fun offset hoffset => ?_, fun offset hoffset => ?_,
    fun index extent hextent => ⟨?_, fun next hnext => ?_, fun hnone => ?_⟩⟩
  · exact h.run_eq h.new_at
  · rw [h.logicalLen_eq] at hoffset
    obtain ⟨placed, hplaced, hstart, hstop, hlength⟩ := @placed_indexAt _ extents 0 offset hoffset
    refine ⟨placed.extent, by rw [extentAt_eq, hplaced]; rfl, ?_, ?_⟩
    · rw [Nat.zero_add] at hstart
      exact hstart
    · rw [hlength, Nat.zero_add] at hstop
      exact hstop
  · rw [h.logicalLen_eq] at hoffset
    rw [extentAt, getElem?_eq_none (length_le_indexAt hoffset)]
    rfl
  · rintro rfl
    obtain ⟨slice, -, rfl⟩ := Option.map_eq_some_iff.mp hextent
    rfl
  · rw [extentAt_tiles hextent]
    obtain ⟨slice, -, rfl⟩ := Option.map_eq_some_iff.mp hnext
    rfl
  · rw [extentAt_tiles hextent, h.logicalLen_eq, take_of_length_le]
    exact List.getElem?_eq_none_iff.mp (Option.map_eq_none_iff.mp hnone)

/-- Two leaves below a branch: a seek into the second, a read, and one from the start. -/
theorem extents_exact_pair : (ExtentCursor.new pairState).run pairStore
    [.seek 70, .next, .seek 0, .next, .next] =
      .ok [some ⟨70, 1, 4, 0⟩, some ⟨0, 1, 3, 0⟩, some ⟨1, 1, 3, 0⟩] := by
  have hopens : Opens pairStore pairState (pairLeaf 3 ++ pairLeaf 4) :=
    ⟨pairFile.mapped, pairFile.logicalLen_eq, pairFile.extentCount_eq, pairFile.logicalLen_lt⟩
  rw [(extents_exact hopens).1]
  decide +kernel

end LayerFs
