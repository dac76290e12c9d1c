import LayerFs.Mapping.Segments
import LayerFs.Support.Paging

/-!
# Streaming construction of the extent tree

Slices arrive in logical order at one builder (`file/mapping/build.rs`). A level that passes its
streaming bound hands its first full page to its consumer and the page's summary to the level above;
what is left when the input ends is partitioned from the lowest level up.

* `pushExtent_eq_ok` — **a slice arrives as the paging of its level says**, whatever the store.
-/

namespace LayerFs

open List

variable {root : Bool}

/-! ## Objects and the consumer -/

/-- A summary of a completed node, retained while its parent is unfinished. -/
structure NodeSummary (Id : Type) where
  id : Id
  bytes : ℕ
  extents : ℕ
  level : ℕ
  deriving DecidableEq

/-- The canonical objects a file is made of. -/
inductive FileObject (Id : Type) where
  /-- a mapping page or a chunk -/
  | mapping (object : MappingObject Id)
  /-- the root of a chunked file -/
  | state (state : FileState Id)
  /-- a whole file -/
  | whole (payload : List UInt8)

/-- A finalized object with its advisory predecessor. -/
structure FinalizedObject (Id : Type) where
  object : FileObject Id
  predecessor : Option Id

/-- A computation that hands finalized objects to its consumer, in the order it finishes them. -/
def Construction (Id α : Type) : Type := ContentResult (α × List (FinalizedObject Id))

namespace Construction

variable {Id α β : Type}
variable {x : Construction Id α} {out : List (FinalizedObject Id)} {a : α}
  {f : α → Construction Id β}

protected def pure (a : α) : Construction Id α := Except.ok (a, [])

/-- Hands over what the first half does, then what the second does. -/
protected def bind (x : Construction Id α) (f : α → Construction Id β) : Construction Id β :=
  match x with
  | .error e => .error e
  | .ok (a, out) =>
    match f a with
    | .error e => .error e
    | .ok (b, later) => .ok (b, out ++ later)

instance : Monad (Construction Id) where
  pure := Construction.pure
  bind := Construction.bind

def lift (x : ContentResult α) : Construction Id α :=
  match x with
  | .error e => .error e
  | .ok a => .ok (a, [])

instance : MonadLift ContentResult (Construction Id) := ⟨lift⟩

/-- `FinalizedConsumer::accept`. -/
def accept (object : FinalizedObject Id) : Construction Id Unit := Except.ok ((), [object])

def result (x : Construction Id α) : ContentResult α :=
  match x with
  | .error e => .error e
  | .ok (a, _) => .ok a

theorem bind_ok {b : β} {later : List (FinalizedObject Id)} (hx : x = Except.ok (a, out))
    (hf : f a = Except.ok (b, later)) : x >>= f = Except.ok (b, out ++ later) := by
  subst hx
  show Construction.bind _ f = _
  rw [Construction.bind, hf]

theorem lift_ok {x : ContentResult α} (hx : x = .ok a) :
    (liftM x : Construction Id α) = Except.ok (a, []) := by
  subst hx
  rfl

theorem bind_error {e : ContentError} (hx : x = Except.ok (a, out)) (hf : f a = Except.error e) :
    x >>= f = Except.error e := by
  subst hx
  show Construction.bind _ f = _
  rw [Construction.bind, hf]

theorem lift_bind : (liftM (Except.ok a : ContentResult α) >>= f : Construction Id β) = f a := by
  rcases hf : f a with e | ⟨b, later⟩
  · exact bind_error (lift_ok rfl) hf
  · exact bind_ok (lift_ok rfl) hf

theorem result_bind : result (x >>= f) = result x >>= fun a => result (f a) := by
  rcases x with e | ⟨a, out⟩
  · rfl
  · rcases hf : f a with e | ⟨b, later⟩
    · rw [bind_error rfl hf]
      exact (congrArg result hf).symm
    · rw [bind_ok rfl hf]
      exact (congrArg result hf).symm

theorem result_lift {x : ContentResult α} : result (liftM x : Construction Id α) = x := by
  rcases x with e | a
  · rfl
  · rfl

end Construction

variable {Id : Type} [DecidableEq Id] (identify : FileObject Id → Id)

/-! ## Pages -/

/-- The leaf of some slices, its bytes added up in `u64`. -/
def leafPage (extents : List (ExtentSlice Id)) : ContentResult (ExtentNode Id) := do
  let bytes ← extents.foldlM (fun sum extent => checkedAdd sum extent.logicalLength) 0
  return .leaf bytes extents

/-- The descriptors of consecutive children, their totals added up in `u64`. -/
def describe : ℕ → ℕ → List (NodeSummary Id) → ContentResult (ℕ × ℕ × List (ChildDescriptor Id))
  | bytes, extents, [] => .ok (bytes, extents, [])
  | bytes, extents, child :: rest => do
    let bytes ← checkedAdd bytes child.bytes
    let extents ← checkedAdd extents child.extents
    let (lastBytes, lastExtents, later) ← describe bytes extents rest
    return (lastBytes, lastExtents, ⟨bytes, extents, child.id⟩ :: later)

def branchPage (level : ℕ) (children : List (NodeSummary Id)) : ContentResult (ExtentNode Id) := do
  let (bytes, extents, descriptors) ← describe 0 0 children
  return .branch level bytes extents descriptors

def pageObject (node : ExtentNode Id) : FileObject Id := .mapping (.page node)

def summaryOf (node : ExtentNode Id) : NodeSummary Id :=
  ⟨identify (pageObject node), node.logicalLen, node.extentCount, node.level⟩

/-- `emit_node`: a page, checked in its context. -/
def emitNode (node : ExtentNode Id) (root : Bool) : Construction Id (NodeSummary Id) := do
  ensure (decide (node.level ≤ maximumLevel)) .mappingDepthExceeded
  node.validate root
  Construction.accept ⟨pageObject node, none⟩
  return summaryOf identify node

/-- `emit_prefix` at level zero. -/
def emitLeaf (root : Bool) (extents : List (ExtentSlice Id)) :
    Construction Id (NodeSummary Id) := do
  let node ← leafPage extents
  emitNode identify node root

/-- `emit_prefix` at a level above. -/
def emitBranch (root : Bool) (level : ℕ) (children : List (NodeSummary Id)) :
    Construction Id (NodeSummary Id) := do
  let node ← branchPage level children
  emitNode identify node root

/-! ## The builder -/

section Level

variable {ε L : Type} (flushAt : ℕ) (emitPage : List ε → Construction Id (NodeSummary Id))
  (raise : List (NodeSummary Id) → L → Construction Id L)

/-- The turns of `flush_streaming` at one level: full pages leave while it is over its bound. -/
def sealFull : ℕ → List ε → Construction Id (List (NodeSummary Id) × List ε)
  | 0, here => pure ([], here)
  | turns + 1, here =>
    if here.length ≤ flushAt then pure ([], here)
    else do
      let summary ← emitPage (here.take maximumEntries)
      let (later, rest) ← sealFull turns (here.drop maximumEntries)
      return (summary :: later, rest)

/-- One level of `flush_streaming`: the summaries of its pages go to the level above. -/
def flushLevel (here : List ε) (above : L) : Construction Id (List ε × L) := do
  let (summaries, rest) ← sealFull flushAt emitPage here.length here
  if summaries.isEmpty then return (rest, above)
  else
    let above ← raise summaries above
    return (rest, above)

end Level

/-- `flush_streaming` from a level up, behind the summaries `push_summary` placed there. -/
def flushLevels (flushAt : ℕ) : ℕ → ℕ → List (NodeSummary Id) → List (List (NodeSummary Id)) →
    Construction Id (List (List (NodeSummary Id)))
  | 0, _, _, _ => (Except.error .mappingDepthExceeded : ContentResult _)
  | room + 1, level, incoming, levels => do
    let (here, above) ← flushLevel flushAt (emitBranch identify false level)
      (flushLevels flushAt room (level + 1)) (levels.headD [] ++ incoming) levels.tail
    return here :: above

/-- One owned decoded unfinished builder: the pending slices, the pending summaries of each level
above, and the logical bytes offered. -/
structure ExtentBuilder (Id : Type) where
  flushAt : ℕ
  extents : List (ExtentSlice Id)
  children : List (List (NodeSummary Id))
  logicalLen : ℕ
  deriving DecidableEq

/-- `coalesce_adjacent`: two contiguous slices of one payload are one. -/
def coalesceAdjacent (left right : ExtentSlice Id) : Option (ExtentSlice Id) :=
  if left.Touches right then
    (ExtentSlice.new left.payloadObjectId left.sourceOffset
      (left.logicalLength + right.logicalLength)).toOption
  else none

namespace ExtentBuilder

/-- `ExtentBuilder::new`. -/
def new (streamFlushEntries : ℕ) : ExtentBuilder Id :=
  ⟨max streamFlushEntries (maximumEntries + 1), [], [], 0⟩

/-- `flush_streaming` from level zero. -/
def flushStreaming (builder : ExtentBuilder Id) : Construction Id (ExtentBuilder Id) := do
  let (extents, children) ← flushLevel builder.flushAt (emitLeaf identify false)
    (flushLevels identify builder.flushAt maximumLevel 1) builder.extents builder.children
  return { builder with extents := extents, children := children }

/-- The pending slices behind one more, merged where it continues the last. -/
def placeExtent (extents : List (ExtentSlice Id)) (extent : ExtentSlice Id) :
    List (ExtentSlice Id) :=
  match extents.getLast?.bind fun previous => coalesceAdjacent previous extent with
  | some merged => extents.dropLast ++ [merged]
  | none => extents ++ [extent]

/-- `push_extent`. -/
def pushExtent (builder : ExtentBuilder Id) (extent : ExtentSlice Id) :
    Construction Id (ExtentBuilder Id) := do
  let logicalLen ← checkedAdd builder.logicalLen extent.logicalLength
  flushStreaming identify
    { builder with extents := placeExtent builder.extents extent, logicalLen := logicalLen }

end ExtentBuilder

section Finish

variable {ε : Type} (emitPage : List ε → Construction Id (NodeSummary Id))

/-- The turns of `finish_levels` at one level below the root: the whole level leaves, an overfull
one by halves. -/
def sealRest : ℕ → List ε → Construction Id (List (NodeSummary Id))
  | 0, _ => pure []
  | turns + 1, here =>
    if here.isEmpty then pure []
    else do
      let first := if maximumEntries < here.length then here.length / 2 else here.length
      let summary ← emitPage (here.take first)
      let later ← sealRest turns (here.drop first)
      return summary :: later

end Finish

/-- `finish_levels` from a level above the slices: its one child, a root page, or pages for the
level above. -/
def finishLevels : ℕ → ℕ → List (List (NodeSummary Id)) → Construction Id (NodeSummary Id)
  | 0, _, _ => (Except.error .mappingDepthExceeded : ContentResult _)
  | _ + 1, _, [] => (Except.error (.invalidRecord "empty rope builder") : ContentResult _)
  | room + 1, level, here :: above =>
    if above.all List.isEmpty && decide (here.length ≤ maximumEntries) then
      match here with
      | [child] => pure child
      | _ => emitBranch identify true level here
    else do
      let summaries ← sealRest (emitBranch identify false level) here.length here
      finishLevels room (level + 1) ((above.headD [] ++ summaries) :: above.tail)

/-- Facts established while building: the mapping root, unless no slice arrived, and the logical
bytes offered. -/
structure MappingBuild (Id : Type) where
  root : Option (NodeSummary Id)
  logicalLen : ℕ

namespace ExtentBuilder

/-- `finish_levels` from the slices. -/
def finishExtents (builder : ExtentBuilder Id) : Construction Id (NodeSummary Id) :=
  if builder.children.all List.isEmpty && decide (builder.extents.length ≤ maximumEntries) then
    emitLeaf identify true builder.extents
  else do
    let summaries ← sealRest (emitLeaf identify false) builder.extents.length builder.extents
    finishLevels identify (maximumLevel + 1) 1
      ((builder.children.headD [] ++ summaries) :: builder.children.tail)

/-- `finish`. -/
def finish (builder : ExtentBuilder Id) : Construction Id (MappingBuild Id) :=
  if builder.logicalLen = 0 then pure ⟨none, 0⟩
  else do
    let root ← finishExtents identify builder
    return ⟨some root, builder.logicalLen⟩

end ExtentBuilder

/-! ## Pages that pass their checks -/

def Coalesced (extents : List (ExtentSlice Id)) : Prop :=
  List.IsChain (fun prior next => ¬prior.Touches next) extents

theorem checkExtents_eq_ok {extents : List (ExtentSlice Id)} :
    ∀ {previous : Option (ExtentSlice Id)} {total : ℕ},
    Coalesced (previous.toList ++ extents) → total + totalBytes extents < u64Bound →
    ExtentNode.checkExtents previous total extents = .ok (total + totalBytes extents) := by
  induction extents with
  | nil => exact fun _ _ => rfl
  | cons extent rest ih =>
    intro previous total hchain hbound
    rw [totalBytes_cons] at hbound ⊢
    have hfree : (!(previous.any fun prior => decide (prior.Touches extent))) = true := by
      cases previous with
      | none => rfl
      | some prior =>
        have : ¬prior.Touches extent := (isChain_cons_cons.mp hchain).1
        simpa using this
    have hrest : Coalesced ((some extent).toList ++ rest) := by
      cases previous with
      | none => exact hchain
      | some prior => exact (isChain_cons_cons.mp hchain).2
    have hadd : checkedAdd total extent.logicalLength = .ok (total + extent.logicalLength) :=
      checkedAdd_eq_ok.mpr ⟨by omega, rfl⟩
    rw [ExtentNode.checkExtents, hfree, hadd]
    show ExtentNode.checkExtents (some extent) (total + extent.logicalLength) rest = _
    rw [ih hrest (by omega), Nat.add_assoc]

variable {extents : List (ExtentSlice Id)}

theorem validate_leaf (hchain : Coalesced extents) (hbound : totalBytes extents < u64Bound)
    (hmost : extents.length ≤ maximumEntries)
    (hleast : root = false → minimumEntries ≤ extents.length) :
    (ExtentNode.leaf (totalBytes extents) extents).validate root = .ok () := by
  have hcount : (decide (extents.length ≤ maximumEntries)
      && (root || decide (minimumEntries ≤ extents.length))) = true := by
    cases root with
    | true => simpa using hmost
    | false => simpa using ⟨hmost, hleast rfl⟩
  have hcheck := @checkExtents_eq_ok Id _ extents none 0 hchain (by omega)
  rw [Nat.zero_add] at hcheck
  refine check_bind_eq_ok.mpr ⟨ensure_eq_ok.mpr hcount, ?_⟩
  refine bind_eq_ok.mpr ⟨totalBytes extents, hcheck, ?_⟩
  exact ensure_eq_ok.mpr (by simp)

omit [DecidableEq Id] in
theorem leafPage_eq_ok (hbound : totalBytes extents < u64Bound) :
    leafPage extents = .ok (.leaf (totalBytes extents) extents) := by
  have hfold : ∀ {extents : List (ExtentSlice Id)} {sum : ℕ}, sum + totalBytes extents < u64Bound →
      extents.foldlM (fun sum extent => checkedAdd sum extent.logicalLength) sum =
        (.ok (sum + totalBytes extents) : ContentResult ℕ) := by
    intro extents
    induction extents with
    | nil => exact fun _ => rfl
    | cons extent rest ih =>
      intro sum hsum
      rw [totalBytes_cons] at hsum ⊢
      have hadd : checkedAdd sum extent.logicalLength = .ok (sum + extent.logicalLength) :=
        checkedAdd_eq_ok.mpr ⟨by omega, rfl⟩
      rw [List.foldlM_cons, hadd, ok_bind, ih (by omega), Nat.add_assoc]
  rw [leafPage, hfold (by omega), Nat.zero_add]
  rfl

def descriptors (bytes extents : ℕ) : List (NodeSummary Id) → List (ChildDescriptor Id)
  | [] => []
  | child :: rest =>
    ⟨bytes + child.bytes, extents + child.extents, child.id⟩ ::
      descriptors (bytes + child.bytes) (extents + child.extents) rest

def childBytes (children : List (NodeSummary Id)) : ℕ := (children.map NodeSummary.bytes).sum

def childExtents (children : List (NodeSummary Id)) : ℕ := (children.map NodeSummary.extents).sum

variable {rest : List (NodeSummary Id)} {child : NodeSummary Id}

omit [DecidableEq Id] in
@[simp] theorem childBytes_cons : childBytes (child :: rest) = child.bytes + childBytes rest := by
  simp [childBytes]

omit [DecidableEq Id] in
@[simp] theorem childExtents_cons :
    childExtents (child :: rest) = child.extents + childExtents rest := by
  simp [childExtents]

variable {children : List (NodeSummary Id)}

omit [DecidableEq Id] in
theorem length_descriptors : ∀ {bytes extents : ℕ},
    (descriptors bytes extents children).length = children.length := by
  induction children with
  | nil => exact rfl
  | cons child rest ih => exact congrArg (· + 1) ih

omit [DecidableEq Id] in
theorem describe_eq_ok : ∀ {bytes extents : ℕ},
    bytes + childBytes children < u64Bound → extents + childExtents children < u64Bound →
    describe bytes extents children =
      .ok (bytes + childBytes children, extents + childExtents children,
        descriptors bytes extents children) := by
  induction children with
  | nil => exact fun _ _ => rfl
  | cons child rest ih =>
    intro bytes extents hbytes hextents
    rw [childBytes_cons] at hbytes ⊢
    rw [childExtents_cons] at hextents ⊢
    have hfirst : checkedAdd bytes child.bytes = .ok (bytes + child.bytes) :=
      checkedAdd_eq_ok.mpr ⟨by omega, rfl⟩
    have hsecond : checkedAdd extents child.extents = .ok (extents + child.extents) :=
      checkedAdd_eq_ok.mpr ⟨by omega, rfl⟩
    rw [describe, hfirst, ok_bind, hsecond, ok_bind, ih (by omega) (by omega), ok_bind,
      Nat.add_assoc, Nat.add_assoc]
    rfl

omit [DecidableEq Id] in
theorem checkChildren_descriptors :
    ∀ {bytes extents : ℕ}, (∀ child ∈ children, 0 < child.bytes ∧ 0 < child.extents) →
    ExtentNode.checkChildren bytes extents (descriptors bytes extents children) =
      .ok (bytes + childBytes children, extents + childExtents children) := by
  induction children with
  | nil => exact fun _ => rfl
  | cons child rest ih =>
    intro bytes extents hpos
    obtain ⟨hbytes, hextents⟩ := hpos child mem_cons_self
    have hgrow : (decide (bytes < bytes + child.bytes)
        && decide (extents < extents + child.extents)) = true := by
      simp only [Bool.and_eq_true, decide_eq_true_eq]
      omega
    rw [descriptors, ExtentNode.checkChildren]
    refine check_bind_eq_ok.mpr ⟨ensure_eq_ok.mpr hgrow, ?_⟩
    rw [ih fun next hnext => hpos next (mem_cons_of_mem _ hnext), childBytes_cons,
      childExtents_cons, Nat.add_assoc, Nat.add_assoc]

def branchNode (level : ℕ) (children : List (NodeSummary Id)) : ExtentNode Id :=
  .branch level (childBytes children) (childExtents children) (descriptors 0 0 children)

theorem validate_branch {level : ℕ} (hlevel : 1 ≤ level ∧ level ≤ maximumLevel)
    (hpos : ∀ child ∈ children, 0 < child.bytes ∧ 0 < child.extents)
    (hmost : children.length ≤ maximumEntries)
    (hleast : (if root then minimumRootEntries else minimumEntries) ≤ children.length) :
    (branchNode level children).validate root = .ok () := by
  have hcount : (decide ((descriptors 0 0 children).length ≤ maximumEntries)
      && (root || decide (minimumEntries ≤ (descriptors 0 0 children).length))) = true := by
    rw [length_descriptors]
    cases root with
    | true => simpa using hmost
    | false => simpa using ⟨hmost, hleast⟩
  have hroot : (decide (1 ≤ level) && decide (level ≤ maximumLevel)
      && !(root && decide ((descriptors 0 0 children).length < minimumRootEntries))) = true := by
    rw [length_descriptors]
    cases root with
    | true => simpa using ⟨hlevel, hleast⟩
    | false => simpa using hlevel
  refine check_bind_eq_ok.mpr ⟨ensure_eq_ok.mpr hcount, ?_⟩
  refine check_bind_eq_ok.mpr ⟨ensure_eq_ok.mpr hroot, ?_⟩
  refine bind_eq_ok.mpr ⟨_, checkChildren_descriptors hpos, ?_⟩
  exact ensure_eq_ok.mpr (by simp)

omit [DecidableEq Id] in
theorem branchPage_eq_ok {level : ℕ} (hbytes : childBytes children < u64Bound)
    (hextents : childExtents children < u64Bound) :
    branchPage level children = .ok (branchNode level children) := by
  rw [branchPage, describe_eq_ok (by omega) (by omega), Nat.zero_add, Nat.zero_add]
  rfl

/-! ## Summaries of valid subtrees -/

def Stored (store : Id → Option (MappingObject Id)) (out : List (FinalizedObject Id)) : Prop :=
  ∀ finalized ∈ out, ∀ object, finalized.object = .mapping object →
    store (identify finalized.object) = some object

/-- A summary of a subtree over some slices, mapped by the store where one is given. -/
structure Sealed (store : Option (Id → Option (MappingObject Id))) (level : ℕ)
    (summary : NodeSummary Id) (part : List (ExtentSlice Id)) : Prop where
  level_eq : summary.level = level
  bytes_eq : summary.bytes = totalBytes part
  extents_eq : summary.extents = part.length
  filled : minimumEntries ^ (level + 1) ≤ part.length
  mapped : ∀ given ∈ store, Mapped given level false summary.id part

section Sealed

variable {store : Option (Id → Option (MappingObject Id))} {level : ℕ}
variable {given : Id → Option (MappingObject Id)} {part : List (ExtentSlice Id)}
  {parts : List (List (ExtentSlice Id))} {summary : NodeSummary Id}

theorem Sealed.extents_pos (h : Sealed store level summary part) : 0 < part.length :=
  lt_of_lt_of_le (Nat.pow_pos (by decide)) h.filled

theorem Sealed.pos (h : Sealed store level summary part) :
    0 < summary.bytes ∧ 0 < summary.extents := by
  rw [h.bytes_eq, h.extents_eq]
  exact ⟨lt_of_lt_of_le h.extents_pos (length_le_totalBytes part), h.extents_pos⟩

theorem Sealed.forget (h : Sealed store level summary part) : Sealed none level summary part :=
  ⟨h.level_eq, h.bytes_eq, h.extents_eq, h.filled, fun _ hnone => (by cases hnone)⟩

theorem childBytes_eq {children : List (NodeSummary Id)}
    (h : List.Forall₂ (Sealed store level) children parts) :
    childBytes children = totalBytes parts.flatten ∧
      childExtents children = parts.flatten.length := by
  induction h with
  | nil => exact ⟨rfl, rfl⟩
  | cons hchild _ ih =>
    rw [childBytes_cons, childExtents_cons, flatten_cons, totalBytes_append,
      length_append, hchild.bytes_eq, hchild.extents_eq, ih.1, ih.2]
    exact ⟨rfl, rfl⟩

theorem descriptors_cumulative {children : List (NodeSummary Id)}
    (h : List.Forall₂ (Sealed store level) children parts) :
    ∀ {bytes extents : ℕ},
    (descriptors bytes extents children).map ChildDescriptor.cumulativeLogicalEnd =
        cumulative bytes (parts.map totalBytes) ∧
      (descriptors bytes extents children).map ChildDescriptor.cumulativeExtentEnd =
        cumulative extents (parts.map List.length) := by
  induction h with
  | nil => exact ⟨rfl, rfl⟩
  | cons hchild _ ih =>
    intro bytes extents
    rw [descriptors, map_cons, map_cons, map_cons, map_cons, cumulative,
      cumulative, (ih).1, (ih).2, hchild.bytes_eq, hchild.extents_eq]
    exact ⟨rfl, rfl⟩

theorem descriptors_mapped {children : List (NodeSummary Id)} (hgiven : given ∈ store)
    (h : List.Forall₂ (Sealed store level) children parts) :
    ∀ {bytes extents : ℕ},
    List.Forall₂ (fun child part => Mapped given level false child.childObjectId part)
      (descriptors bytes extents children) parts := by
  induction h with
  | nil => exact .nil
  | cons hchild _ ih => exact .cons (hchild.mapped given hgiven) ih

theorem branch_mapped {children : List (NodeSummary Id)} (hgiven : given ∈ store)
    (h : List.Forall₂ (Sealed store level) children parts)
    (hvalid : (branchNode (level + 1) children).validate root = .ok ())
    (hstored : Stored identify given [⟨pageObject (branchNode (level + 1) children), none⟩]) :
    Mapped given (level + 1) root (identify (pageObject (branchNode (level + 1) children)))
      parts.flatten := by
  obtain ⟨hbytes, hextents⟩ := childBytes_eq h
  have hpage := hstored _ mem_cons_self _ rfl
  rw [branchNode, hbytes, hextents] at hvalid
  refine ⟨descriptors 0 0 children, parts, rfl, ?_, hvalid, (descriptors_cumulative h).1,
    (descriptors_cumulative h).2, descriptors_mapped hgiven h⟩
  rw [← hbytes, ← hextents]
  exact hpage

theorem level_of_filled {count : ℕ} (hfilled : minimumEntries ^ (level + 1) ≤ count)
    (hbound : count < u64Bound) : level < 10 := by
  by_contra hdeep
  have hpow : minimumEntries ^ 11 ≤ minimumEntries ^ (level + 1) :=
    Nat.pow_le_pow_right (by decide) (by omega)
  have : u64Bound ≤ minimumEntries ^ 11 := by decide
  omega

theorem Sealed.level_lt (h : Sealed store level summary part) (hbound : totalBytes part < u64Bound) :
    level < 10 :=
  level_of_filled h.filled (lt_of_le_of_lt (length_le_totalBytes part) hbound)

theorem filled_flatten {children : List (NodeSummary Id)}
    (h : List.Forall₂ (Sealed store level) children parts) :
    children.length * minimumEntries ^ (level + 1) ≤ parts.flatten.length := by
  induction h with
  | nil => exact Nat.le_of_eq (Nat.zero_mul _)
  | cons hchild _ ih =>
    have := hchild.filled
    rw [length_cons, flatten_cons, length_append, Nat.succ_mul]
    omega

def pageOut (node : ExtentNode Id) : List (FinalizedObject Id) := [⟨pageObject node, none⟩]

theorem emitNode_eq_ok {node : ExtentNode Id} (hlevel : node.level ≤ maximumLevel)
    (hvalid : node.validate root = .ok ()) :
    emitNode identify node root = Except.ok (summaryOf identify node, pageOut node) := by
  have hdepth : ensure (decide (node.level ≤ maximumLevel)) .mappingDepthExceeded = .ok () :=
    ensure_eq_ok.mpr (decide_eq_true hlevel)
  exact Construction.bind_ok (Construction.lift_ok hdepth)
    (Construction.bind_ok (Construction.lift_ok hvalid) (Construction.bind_ok rfl rfl))

theorem children_pos {children : List (NodeSummary Id)}
    (h : List.Forall₂ (Sealed store level) children parts) :
    ∀ child ∈ children, 0 < child.bytes ∧ 0 < child.extents := by
  induction h with
  | nil => exact fun _ hchild => absurd hchild not_mem_nil
  | cons hchild _ ih =>
    intro child hmem
    rcases mem_cons.mp hmem with rfl | hmem
    · exact hchild.pos
    · exact ih child hmem

theorem validate_branchNode {children : List (NodeSummary Id)}
    {parts : List (List (ExtentSlice Id))} {root : Bool}
    (h : List.Forall₂ (Sealed store level) children parts)
    (hlevel : level < 10) (hmost : children.length ≤ maximumEntries)
    (hleast : (if root then minimumRootEntries else minimumEntries) ≤ children.length) :
    (branchNode (level + 1) children).validate root = .ok () := by
  have hdeep := show maximumLevel = 31 from rfl
  exact validate_branch ⟨by omega, by omega⟩ (children_pos h) hmost hleast

/-- **A page of subtrees leaves as the summary of their slices.** -/
theorem emitBranch_eq_ok {children : List (NodeSummary Id)}
    {parts : List (List (ExtentSlice Id))} {root : Bool}
    (h : List.Forall₂ (Sealed store level) children parts)
    (hbound : totalBytes parts.flatten < u64Bound) (hmost : children.length ≤ maximumEntries)
    (hleast : (if root then minimumRootEntries else minimumEntries) ≤ children.length) :
    emitBranch identify root (level + 1) children =
      Except.ok (summaryOf identify (branchNode (level + 1) children),
        pageOut (branchNode (level + 1) children)) := by
  obtain ⟨hbytes, hextents⟩ := childBytes_eq h
  have hlength := length_le_totalBytes parts.flatten
  have hfilled := filled_flatten h
  have hsome : 1 ≤ children.length := by
    refine le_trans ?_ hleast
    cases root <;> decide
  have hlevel : level < 10 :=
    level_of_filled (le_trans (Nat.le_mul_of_pos_left _ hsome) hfilled) (by omega)
  have hdeep := show maximumLevel = 31 from rfl
  have hpage : branchPage (level + 1) children = .ok (branchNode (level + 1) children) :=
    branchPage_eq_ok (by omega) (by omega)
  refine Construction.bind_ok (Construction.lift_ok hpage) ?_
  refine emitNode_eq_ok identify ?_ (validate_branchNode h hlevel hmost hleast)
  show level + 1 ≤ maximumLevel
  omega

theorem sealed_branch {children : List (NodeSummary Id)}
    (h : List.Forall₂ (Sealed store level) children parts) (hlevel : level < 10)
    (hmost : children.length ≤ maximumEntries) (hleast : minimumEntries ≤ children.length)
    (hstored : ∀ given ∈ store, Stored identify given (pageOut (branchNode (level + 1) children))) :
    Sealed store (level + 1) (summaryOf identify (branchNode (level + 1) children))
      parts.flatten := by
  obtain ⟨hbytes, hextents⟩ := childBytes_eq h
  refine ⟨rfl, hbytes, hextents, ?_, fun given hgiven => ?_⟩
  · calc minimumEntries ^ (level + 1 + 1)
        = minimumEntries * minimumEntries ^ (level + 1) := Nat.pow_succ'
      _ ≤ children.length * minimumEntries ^ (level + 1) := Nat.mul_le_mul_right _ hleast
      _ ≤ parts.flatten.length := filled_flatten h
  · exact branch_mapped identify hgiven h (validate_branchNode h hlevel hmost hleast)
      (hstored given hgiven)

def leafNode (extents : List (ExtentSlice Id)) : ExtentNode Id := .leaf (totalBytes extents) extents

/-- **A page of slices leaves as their summary.** -/
theorem emitLeaf_eq_ok {extents : List (ExtentSlice Id)} {root : Bool} (hchain : Coalesced extents)
    (hbound : totalBytes extents < u64Bound) (hmost : extents.length ≤ maximumEntries)
    (hleast : root = false → minimumEntries ≤ extents.length) :
    emitLeaf identify root extents =
      Except.ok (summaryOf identify (leafNode extents), pageOut (leafNode extents)) := by
  refine Construction.bind_ok (Construction.lift_ok (leafPage_eq_ok hbound)) ?_
  exact emitNode_eq_ok identify (Nat.zero_le _) (validate_leaf hchain hbound hmost hleast)

theorem sealed_leaf {extents : List (ExtentSlice Id)} (hchain : Coalesced extents)
    (hbound : totalBytes extents < u64Bound) (hmost : extents.length ≤ maximumEntries)
    (hleast : minimumEntries ≤ extents.length)
    (hstored : ∀ given ∈ store, Stored identify given (pageOut (leafNode extents))) :
    Sealed store 0 (summaryOf identify (leafNode extents)) extents := by
  refine ⟨rfl, rfl, rfl, ?_, fun given hgiven => ⟨?_, ?_⟩⟩
  · rw [Nat.zero_add, Nat.pow_one]
    exact hleast
  · exact hstored given hgiven _ mem_cons_self _ rfl
  · exact validate_leaf hchain hbound hmost fun _ => hleast

end Sealed

/-! ## Summaries on their way up -/

/-- What a level and those above it hold once some summaries have arrived, all at once. -/
def raised (flushAt : ℕ) : ℕ → ℕ → List (NodeSummary Id) → List (List (NodeSummary Id)) →
    List (List (NodeSummary Id))
  | 0, _, _, levels => levels
  | room + 1, level, incoming, levels =>
    if incoming.isEmpty then levels
    else
      let paged := paginate flushAt maximumEntries (levels.headD []) incoming
      paged.2 :: raised flushAt room (level + 1)
        (paged.1.map fun page => summaryOf identify (branchNode level page)) levels.tail

section Raised

variable {flushAt : ℕ}
variable {parts : List (List (ExtentSlice Id))} {levels : List (List (NodeSummary Id))}
  {here : List (NodeSummary Id)}

omit [DecidableEq Id] in
@[simp]
theorem raised_nil {room level : ℕ} : raised identify flushAt room level [] levels = levels := by
  cases room <;> rfl

omit [DecidableEq Id] in
theorem raised_append : ∀ {room level : ℕ} {a b : List (NodeSummary Id)}
    {levels : List (List (NodeSummary Id))},
    raised identify flushAt room level (a ++ b) levels =
      raised identify flushAt room level b (raised identify flushAt room level a levels) := by
  intro room
  induction room with
  | zero => exact rfl
  | succ room ih =>
    intro level a b levels
    rcases a with _ | ⟨first, a⟩
    · rw [nil_append, raised_nil]
    rcases b with _ | ⟨second, b⟩
    · rw [append_nil, raised_nil]
    rw [raised, raised, raised, if_neg (by simp), if_neg (by simp), if_neg (by simp)]
    dsimp only
    rw [paginate_append, map_append, ih, headD_cons, tail_cons]

/-- The pending summaries of the levels from one up, and the slices they cover. -/
def Tower (store : Option (Id → Option (MappingObject Id))) (flushAt : ℕ) :
    ℕ → List (List (NodeSummary Id)) → List (ExtentSlice Id) → Prop
  | _, [], slices => slices = []
  | level, here :: above, slices => here.length ≤ flushAt ∧
    ∃ before parts, slices = before ++ parts.flatten ∧
      List.Forall₂ (Sealed store level) here parts ∧ Tower store flushAt (level + 1) above before

theorem Tower.split {store : Option (Id → Option (MappingObject Id))} {level : ℕ}
    {slices : List (ExtentSlice Id)} (h : Tower store flushAt level levels slices) :
    (levels.headD []).length ≤ flushAt ∧
    ∃ before parts, slices = before ++ parts.flatten ∧
      List.Forall₂ (Sealed store level) (levels.headD []) parts ∧
      Tower store flushAt (level + 1) levels.tail before := by
  cases levels with
  | nil => exact ⟨Nat.zero_le _, [], [], h, .nil, rfl⟩
  | cons here above => exact h

theorem forall₂_sealed_forget {store : Option (Id → Option (MappingObject Id))} {level : ℕ}
    (h : List.Forall₂ (Sealed store level) here parts) :
    List.Forall₂ (Sealed none level) here parts :=
  h.imp fun _ _ hsealed => hsealed.forget

theorem Tower.forget {store : Option (Id → Option (MappingObject Id))} :
    ∀ {levels : List (List (NodeSummary Id))} {level : ℕ} {slices : List (ExtentSlice Id)},
    Tower store flushAt level levels slices → Tower none flushAt level levels slices := by
  intro levels
  induction levels with
  | nil => exact fun h => h
  | cons here above ih =>
    rintro level slices ⟨hroom, before, parts, hslices, hhere, habove⟩
    exact ⟨hroom, before, parts, hslices, forall₂_sealed_forget hhere, ih habove⟩

section Level

variable {ε L : Type} {emitPage : List ε → Construction Id (NodeSummary Id)}
variable {above : L}
  {raise : List (NodeSummary Id) → L → Construction Id L}

omit [DecidableEq Id] in
theorem sealFull_fits {turns : ℕ} {here : List ε} (h : here.length ≤ flushAt) :
    sealFull flushAt emitPage turns here = Except.ok (([], here), []) := by
  cases turns with
  | zero => rfl
  | succ turns => exact if_pos h

omit [DecidableEq Id] in
theorem flushLevel_fits {here : List ε} (h : here.length ≤ flushAt) :
    flushLevel flushAt emitPage raise here above = Except.ok ((here, above), []) :=
  Construction.bind_ok (sealFull_fits h) rfl

omit [DecidableEq Id] in
theorem flushLevel_passes {here : List ε} {above' : L} {summary : NodeSummary Id}
    {out later : List (FinalizedObject Id)} (h : here.length = flushAt + 1)
    (hpage : emitPage (here.take maximumEntries) = Except.ok (summary, out))
    (hraise : raise [summary] above = Except.ok (above', later)) :
    flushLevel flushAt emitPage raise here above =
      Except.ok ((here.drop maximumEntries, above'), out ++ later) := by
  have hrest : (here.drop maximumEntries).length ≤ flushAt := by
    have := show maximumEntries = 128 from rfl
    rw [length_drop]
    omega
  have hseal : sealFull flushAt emitPage here.length here =
      Except.ok (([summary], here.drop maximumEntries), out ++ ([] ++ [])) := by
    rw [h, sealFull, if_neg (by omega)]
    exact Construction.bind_ok hpage (Construction.bind_ok (sealFull_fits hrest) rfl)
  have hall : flushLevel flushAt emitPage raise here above =
      Except.ok ((here.drop maximumEntries, above'), out ++ ([] ++ []) ++ (later ++ [])) :=
    Construction.bind_ok hseal (Construction.bind_ok hraise rfl)
  rw [hall, append_nil, append_nil, append_nil]

end Level

omit [DecidableEq Id] in
theorem Stored.left {given : Id → Option (MappingObject Id)} {a b : List (FinalizedObject Id)}
    (h : Stored identify given (a ++ b)) : Stored identify given a :=
  fun finalized hmem => h finalized (mem_append_left _ hmem)

omit [DecidableEq Id] in
theorem Stored.right {given : Id → Option (MappingObject Id)} {a b : List (FinalizedObject Id)}
    (h : Stored identify given (a ++ b)) : Stored identify given b :=
  fun finalized hmem => h finalized (mem_append_right _ hmem)

theorem forall₂_cut {store : Option (Id → Option (MappingObject Id))} {level count : ℕ}
    {here : List (NodeSummary Id)} {parts : List (List (ExtentSlice Id))}
    (h : List.Forall₂ (Sealed store level) here parts) :
    List.Forall₂ (Sealed store level) (here.take count) (parts.take count) ∧
      List.Forall₂ (Sealed store level) (here.drop count) (parts.drop count) ∧
      parts.flatten = (parts.take count).flatten ++ (parts.drop count).flatten := by
  refine ⟨forall₂_take count h, forall₂_drop count h, ?_⟩
  rw [← flatten_append, take_append_drop]

theorem emitBranch_full {store : Option (Id → Option (MappingObject Id))} {level : ℕ}
    (h : List.Forall₂ (Sealed store level) here parts) (hlength : maximumEntries ≤ here.length)
    (hbound : totalBytes parts.flatten < u64Bound) :
    emitBranch identify false (level + 1) (here.take maximumEntries) =
        Except.ok (summaryOf identify (branchNode (level + 1) (here.take maximumEntries)),
          pageOut (branchNode (level + 1) (here.take maximumEntries))) ∧
      ((∀ given ∈ store, Stored identify given
          (pageOut (branchNode (level + 1) (here.take maximumEntries)))) →
        Sealed store (level + 1)
          (summaryOf identify (branchNode (level + 1) (here.take maximumEntries)))
          (parts.take maximumEntries).flatten) := by
  obtain ⟨htaken, -, hcut⟩ := @forall₂_cut _ _ _ _ maximumEntries _ _ h
  have hbytes := congrArg totalBytes hcut
  rw [totalBytes_append] at hbytes
  have hpage : (here.take maximumEntries).length = maximumEntries := by
    rw [length_take]
    omega
  have hleast : minimumEntries ≤ (here.take maximumEntries).length := by
    rw [hpage]
    decide
  have hmany := length_le_totalBytes (parts.take maximumEntries).flatten
  have hfilled := filled_flatten htaken
  have hlevel : level < 10 := by
    refine level_of_filled (le_trans (Nat.le_mul_of_pos_left _ ?_) hfilled) (by omega)
    rw [hpage]
    decide
  exact ⟨emitBranch_eq_ok identify htaken (by omega) hpage.le hleast,
    sealed_branch identify htaken hlevel hpage.le hleast⟩

/-- **A summary arrives as the paging of its level says**, and so do the summaries of the pages it
makes leave. -/
theorem flushLevels_single (hflush : maximumEntries < flushAt) : ∀ {room level : ℕ}
    {store : Option (Id → Option (MappingObject Id))} {levels : List (List (NodeSummary Id))}
    {before part : List (ExtentSlice Id)} {summary : NodeSummary Id}, 31 ≤ room + level →
    Tower store flushAt level levels before → Sealed store level summary part →
    totalBytes (before ++ part) < u64Bound →
    ∃ out, flushLevels identify flushAt room (level + 1) [summary] levels =
        Except.ok (raised identify flushAt room (level + 1) [summary] levels, out) ∧
      ((∀ given ∈ store, Stored identify given out) →
        Tower store flushAt level (raised identify flushAt room (level + 1) [summary] levels)
          (before ++ part)) := by
  intro room
  induction room with
  | zero =>
    intro level store levels before part summary hroom _ hsummary hbound
    rw [totalBytes_append] at hbound
    have := hsummary.level_lt (by omega)
    omega
  | succ room ih =>
    intro level store levels before part summary hroom htower hsummary hbound
    obtain ⟨hhere, earlier, parts, rfl, hparts, habove⟩ := htower.split
    rw [append_assoc, totalBytes_append] at hbound
    have hall : List.Forall₂ (Sealed store level) (levels.headD [] ++ [summary])
        (parts ++ [part]) := rel_append hparts (.cons hsummary .nil)
    have hflat : (parts ++ [part]).flatten = parts.flatten ++ part := by
      rw [flatten_append, flatten_singleton]
    have hlength : (levels.headD [] ++ [summary]).length = (levels.headD []).length + 1 := by
      rw [length_append, length_singleton]
    rw [raised, if_neg (by simp), flushLevels]
    dsimp only
    rcases Nat.lt_or_ge (levels.headD []).length flushAt with hfits | hpasses
    · -- The level keeps the summary.
      rw [paginate_of_fits (by rw [length_singleton]; omega), map_nil, raised_nil]
      refine ⟨[] ++ [], ?_, fun _ =>
        ⟨by dsimp only; omega, earlier, parts ++ [part], ?_, hall, habove⟩⟩
      · exact Construction.bind_ok (flushLevel_fits (by omega)) rfl
      · rw [hflat, append_assoc]
    · -- The level's first page leaves, and its summary arrives above.
      rw [paginate_of_passes hhere (by rw [length_singleton]; omega)]
      obtain ⟨-, hdropped, hcut⟩ := @forall₂_cut _ _ _ _ maximumEntries _ _ hall
      rw [← hflat] at hbound
      have hbytes := congrArg totalBytes hcut
      rw [totalBytes_append] at hbytes
      obtain ⟨hemit, -⟩ := emitBranch_full identify hall (by omega) (by omega)
      obtain ⟨-, hforget⟩ := emitBranch_full identify (forall₂_sealed_forget hall) (by omega)
        (by omega)
      obtain ⟨out, hraise, -⟩ := ih (show 31 ≤ room + (level + 1) by omega) habove.forget
        (hforget fun _ hnone => (by cases hnone)) (by rw [totalBytes_append]; omega)
      refine ⟨_ ++ out ++ [], Construction.bind_ok (flushLevel_passes (by omega) hemit hraise) rfl,
        fun hstored => ?_⟩
      obtain ⟨-, hsealed⟩ := emitBranch_full identify hall (by omega) (by omega)
      obtain ⟨out', hraise', htower'⟩ := ih (show 31 ≤ room + (level + 1) by omega) habove
        (hsealed fun given hgiven => (hstored given hgiven).left.left)
        (by rw [totalBytes_append]; omega)
      rw [hraise] at hraise'
      cases hraise'
      refine ⟨?_, _, _, ?_, hdropped, htower' fun given hgiven => (hstored given hgiven).left.right⟩
      · have := show maximumEntries = 128 from rfl
        rw [length_drop]
        omega
      · rw [append_assoc, append_assoc, ← hcut, hflat]

end Raised

/-! ## Slices arriving -/

namespace ExtentBuilder

variable {builder : ExtentBuilder Id} {extent : ExtentSlice Id} {slices : List (ExtentSlice Id)}

def fed (builder : ExtentBuilder Id) (incoming : List (ExtentSlice Id)) : ExtentBuilder Id :=
  let paged := paginate builder.flushAt maximumEntries builder.extents incoming
  { flushAt := builder.flushAt
    extents := paged.2
    children := raised identify builder.flushAt maximumLevel 1
      (paged.1.map fun page => summaryOf identify (leafNode page)) builder.children
    logicalLen := builder.logicalLen + totalBytes incoming }

omit [DecidableEq Id] in
@[simp]
theorem fed_nil : fed identify builder [] = builder := by
  rw [fed]
  dsimp only [paginate]
  rw [map_nil, raised_nil]
  rfl

omit [DecidableEq Id] in
theorem fed_append {a b : List (ExtentSlice Id)} :
    fed identify builder (a ++ b) = fed identify (fed identify builder a) b := by
  rw [fed, fed, fed, paginate_append, totalBytes_append, Nat.add_assoc]
  dsimp only
  rw [map_append, raised_append]

/-- **A builder over some slices**: its pending summaries and slices cover them. -/
structure Building (store : Option (Id → Option (MappingObject Id))) (builder : ExtentBuilder Id)
    (slices : List (ExtentSlice Id)) : Prop where
  flushAt_gt : maximumEntries < builder.flushAt
  fits : builder.extents.length ≤ builder.flushAt
  covers : ∃ before, slices = before ++ builder.extents ∧
    Tower store builder.flushAt 0 builder.children before
  coalesced : Coalesced slices
  logicalLen_eq : builder.logicalLen = totalBytes slices
  bounded : totalBytes slices < u64Bound

theorem Building.forget {store : Option (Id → Option (MappingObject Id))}
    (h : Building store builder slices) : Building none builder slices := by
  obtain ⟨before, hslices, htower⟩ := h.covers
  exact ⟨h.flushAt_gt, h.fits, ⟨before, hslices, htower.forget⟩, h.coalesced, h.logicalLen_eq,
    h.bounded⟩

theorem building_new {store : Option (Id → Option (MappingObject Id))} {streamFlushEntries : ℕ} :
    Building store (new streamFlushEntries) [] :=
  ⟨lt_of_lt_of_le (Nat.lt_succ_self _) (le_max_right _ _), Nat.zero_le _, ⟨[], rfl, rfl⟩, .nil, rfl,
    show 0 < u64Bound by decide⟩

theorem placeExtent_eq {extents : List (ExtentSlice Id)} (h : Coalesced (extents ++ [extent])) :
    placeExtent extents extent = extents ++ [extent] := by
  rcases eq_nil_or_concat extents with rfl | ⟨first, last, rfl⟩
  · rfl
  · rw [concat_eq_append] at h ⊢
    have hfree : ¬last.Touches extent := by
      rw [Coalesced, append_assoc] at h
      exact (isChain_cons_cons.mp h.right_of_append).1
    rw [placeExtent, getLast?_concat, Option.bind_some, coalesceAdjacent, if_neg hfree]

/-- **A slice arrives as the paging of its level says.** -/
theorem pushExtent_eq_ok {store : Option (Id → Option (MappingObject Id))}
    (h : Building store builder slices) (hchain : Coalesced (slices ++ [extent]))
    (hbound : totalBytes (slices ++ [extent]) < u64Bound) :
    ∃ out, pushExtent identify builder extent =
        Except.ok (fed identify builder [extent], out) ∧
      ((∀ given ∈ store, Stored identify given out) →
        Building store (fed identify builder [extent]) (slices ++ [extent])) := by
  obtain ⟨flushAt, extents, children, logicalLen⟩ := builder
  obtain ⟨hflush, hfits, ⟨before, hslices, htower⟩, -, hlogicalLen, -⟩ := h
  dsimp only at hflush hfits hslices htower hlogicalLen
  subst hslices hlogicalLen
  have hentries := show maximumEntries = 128 from rfl
  have hhere : Coalesced (extents ++ [extent]) := by
    rw [Coalesced, append_assoc] at hchain
    exact hchain.right_of_append
  have hadd : checkedAdd (totalBytes (before ++ extents)) extent.logicalLength =
      .ok (totalBytes (before ++ extents) + extent.logicalLength) := by
    rw [totalBytes_append, totalBytes_cons, totalBytes_nil] at hbound
    exact checkedAdd_eq_ok.mpr ⟨by omega, rfl⟩
  have hlogical : totalBytes (before ++ extents) + totalBytes [extent] =
      totalBytes (before ++ extents ++ [extent]) := (totalBytes_append _ _).symm
  have hone : totalBytes [extent] = extent.logicalLength := by simp
  have hlength : (extents ++ [extent]).length = extents.length + 1 := by
    rw [length_append, length_singleton]
  have hcut : totalBytes (extents ++ [extent]) =
      totalBytes ((extents ++ [extent]).take maximumEntries) +
        totalBytes ((extents ++ [extent]).drop maximumEntries) := by
    rw [← totalBytes_append, take_append_drop]
  rw [pushExtent, placeExtent_eq hhere]
  rcases Nat.lt_or_ge extents.length flushAt with hroom | hpasses
  · -- The slice stays.
    rw [fed]
    dsimp only
    rw [paginate_of_fits (by rw [length_singleton]; omega), map_nil, raised_nil]
    refine ⟨[] ++ ([] ++ []), ?_, fun _ => ⟨hflush, ?_, ⟨before, ?_, htower⟩, hchain, hlogical,
      hbound⟩⟩
    · refine Construction.bind_ok (Construction.lift_ok hadd) ?_
      rw [hone]
      exact Construction.bind_ok (flushLevel_fits (by dsimp only; omega)) rfl
    · dsimp only
      omega
    · rw [append_assoc]
  · -- The first page leaves.
    have hpageChain : Coalesced ((extents ++ [extent]).take maximumEntries) := by
      rw [← take_append_drop maximumEntries (extents ++ [extent])] at hhere
      exact hhere.left_of_append
    have hpageLength : ((extents ++ [extent]).take maximumEntries).length = maximumEntries := by
      rw [length_take]
      omega
    have hpageLeast : minimumEntries ≤ ((extents ++ [extent]).take maximumEntries).length := by
      rw [hpageLength]
      decide
    have hbytes := hbound
    rw [append_assoc, totalBytes_append] at hbytes
    have hpageBound : totalBytes ((extents ++ [extent]).take maximumEntries) < u64Bound := by
      omega
    obtain ⟨out, hraise, -⟩ := flushLevels_single identify hflush (show 31 ≤ maximumLevel + 0 by
      decide) htower.forget (sealed_leaf identify hpageChain hpageBound hpageLength.le hpageLeast
        fun _ hnone => (by cases hnone)) (by rw [totalBytes_append]; omega)
    have hemit := @emitLeaf_eq_ok Id _ identify _ false hpageChain hpageBound hpageLength.le
      fun _ => hpageLeast
    rw [fed]
    dsimp only
    rw [paginate_of_passes hfits (by rw [length_singleton]; omega)]
    refine ⟨[] ++ (pageOut (leafNode ((extents ++ [extent]).take maximumEntries)) ++ out ++ []), ?_,
      fun hstored => ⟨hflush, ?_, ?_, hchain, hlogical, hbound⟩⟩
    · refine Construction.bind_ok (Construction.lift_ok hadd) ?_
      rw [hone]
      exact Construction.bind_ok (flushLevel_passes (by dsimp only; omega) hemit hraise) rfl
    · dsimp only
      rw [length_drop]
      omega
    · rw [nil_append, append_nil] at hstored
      obtain ⟨out', hraise', htower'⟩ := flushLevels_single identify hflush
        (show 31 ≤ maximumLevel + 0 by decide) htower (sealed_leaf identify hpageChain hpageBound
          hpageLength.le hpageLeast fun given hgiven => (hstored given hgiven).left)
        (by rw [totalBytes_append]; omega)
      rw [hraise] at hraise'
      cases hraise'
      refine ⟨_, ?_, htower' fun given hgiven => (hstored given hgiven).right⟩
      rw [append_assoc, append_assoc, take_append_drop]

end ExtentBuilder

end LayerFs
