import LayerFs.Mapping.Serve

/-!
# The walk down the levels

Over a valid mapping tree the walk keeps, level by level, the nodes whose bytes meet the range.

* `slicesBelow` — the slices below a page, read off the store.
-/

namespace LayerFs

variable {Id : Type} [DecidableEq Id] {reader : Id → Option (MappingObject Id)} {range : ByteRange}

/-! ## Levels -/

def slicesBelow (reader : Id → Option (MappingObject Id)) : ℕ → Id → List (ExtentSlice Id)
  | 0, id =>
    match reader id with
    | some (.page (.leaf _ extents)) => extents
    | _ => []
  | level + 1, id =>
    match reader id with
    | some (.page (.branch _ _ _ children)) =>
      children.flatMap fun child => slicesBelow reader level child.childObjectId
    | _ => []

theorem Mapped.slicesBelow_eq : ∀ {level : ℕ} {root : Bool} {id : Id}
    {extents : List (ExtentSlice Id)}, Mapped reader level root id extents →
    slicesBelow reader level id = extents := by
  intro level
  induction level with
  | zero =>
    intro root id extents h
    rw [Mapped] at h
    rw [slicesBelow, h.1]
  | succ level ih =>
    intro root id extents h
    rw [Mapped] at h
    obtain ⟨children, parts, rfl, hstored, -, -, -, hmapped⟩ := h
    rw [slicesBelow, hstored]
    clear hstored
    dsimp only
    induction hmapped with
    | nil => rfl
    | cons hfirst _ hrest => rw [List.flatMap_cons, List.flatten_cons, ih hfirst, hrest]

def servedBelow (reader : Id → Option (MappingObject Id)) (range : ByteRange) (level : ℕ)
    (node : FrontierNode Id) : List UInt8 :=
  clip range node.origin (bytesOf reader (slicesBelow reader level node.id))

def nodeStop (reader : Id → Option (MappingObject Id)) (level : ℕ) (node : FrontierNode Id) : ℕ :=
  node.origin + totalBytes (slicesBelow reader level node.id)

/-- **A node of the walk**: a valid tree of the node's level at its offset, before the range's
end. -/
structure Reaches (reader : Id → Option (MappingObject Id)) (range : ByteRange) (level : ℕ)
    (node : FrontierNode Id) : Prop where
  level_eq : node.level = level
  mapped : Mapped reader level node.root node.id (slicesBelow reader level node.id)
  expected : ∀ e ∈ node.expectedRoot, e =
    (totalBytes (slicesBelow reader level node.id), (slicesBelow reader level node.id).length)
  stop_lt : nodeStop reader level node < u64Bound
  inChunk : ∀ extent ∈ slicesBelow reader level node.id, InChunk reader extent
  before : node.origin < range.stop

/-- The nodes of one level, in file order. -/
structure Level (reader : Id → Option (MappingObject Id)) (range : ByteRange) (level : ℕ)
    (nodes : List (FrontierNode Id)) : Prop where
  reaches : ∀ node ∈ nodes, Reaches reader range level node
  ascending : nodes.Pairwise fun a b => nodeStop reader level a ≤ b.origin

/-- The children of a branch from `start` on, as the walk reaches them. -/
structure Children (reader : Id → Option (MappingObject Id)) (range : ByteRange) (level first : ℕ)
    (parts : List (List (ExtentSlice Id))) (nodes : List (FrontierNode Id)) : Prop where
  toLevel : Level reader range level nodes
  within : ∀ node ∈ nodes, first ≤ node.origin ∧
    nodeStop reader level node ≤ first + totalBytes parts.flatten
  served : nodes.flatMap (servedBelow reader range level) =
    clip range first (bytesOf reader parts.flatten)

theorem children_childNodes {origin level : ℕ} {children : List (ChildDescriptor Id)}
    {parts : List (List (ExtentSlice Id))}
    (hmapped : List.Forall₂
      (fun child part => Mapped reader level false child.childObjectId part) children parts) :
    ∀ {start : ℕ},
      children.map ChildDescriptor.cumulativeLogicalEnd = cumulative start (parts.map totalBytes) →
      origin + start + totalBytes parts.flatten < u64Bound →
      (∀ extent ∈ parts.flatten, InChunk reader extent) →
      Children reader range level (origin + start) parts
        (childNodes range origin level (origin + start) children) := by
  induction hmapped with
  | nil =>
    intro start _ _ _
    refine ⟨⟨?_, .nil⟩, ?_, ?_⟩
    · exact fun node hnode => absurd hnode List.not_mem_nil
    · exact fun node hnode => absurd hnode List.not_mem_nil
    · simp [childNodes, bytesOf]
  | @cons child part children parts hchild _ ih =>
    intro start hcum hbound hin
    rw [List.map_cons, List.map_cons, cumulative] at hcum
    obtain ⟨hend, hcum⟩ := List.cons.inj hcum
    rw [List.flatten_cons, totalBytes_append] at hbound
    have hpart : ∀ extent ∈ part, InChunk reader extent :=
      fun x hx => hin x (by rw [List.flatten_cons]; exact List.mem_append_left _ hx)
    have hnext : origin + (start + totalBytes part) = origin + start + totalBytes part := by omega
    have hrest := ih hcum (by omega) fun x hx =>
      hin x (by rw [List.flatten_cons]; exact List.mem_append_right _ hx)
    rw [hnext] at hrest
    have hslices := hchild.slicesBelow_eq
    have hwithin : ∀ node ∈ childNodes range origin level (origin + start + totalBytes part)
        children, origin + start ≤ node.origin ∧ nodeStop reader level node ≤
          origin + start + totalBytes (part :: parts).flatten := by
      intro node hnode
      have := hrest.within node hnode
      rw [List.flatten_cons, totalBytes_append]
      omega
    rw [childNodes, hend, hnext]
    split_ifs with hmeets
    · -- the child meets the range
      have hstop : nodeStop reader level ⟨child.childObjectId, false, level, origin + start, none⟩ =
          origin + start + totalBytes part := by rw [nodeStop, hslices]
      refine ⟨⟨?_, ?_⟩, ?_, ?_⟩
      · intro node hnode
        rcases List.mem_cons.mp hnode with rfl | hnode
        · refine ⟨rfl, ?_, ?_, ?_, ?_, hmeets.2⟩
          · rw [hslices]
            exact hchild
          · exact fun e he => absurd he (by simp)
          · rw [hstop]
            omega
          · rw [hslices]
            exact hpart
        · exact hrest.toLevel.reaches node hnode
      · refine List.pairwise_cons.mpr ⟨fun node hnode => ?_, hrest.toLevel.ascending⟩
        rw [hstop]
        exact (hrest.within node hnode).1
      · intro node hnode
        rcases List.mem_cons.mp hnode with rfl | hnode
        · rw [hstop, List.flatten_cons, totalBytes_append]
          dsimp only
          omega
        · exact hwithin node hnode
      · rw [List.flatMap_cons, hrest.served, List.flatten_cons, bytesOf_append, clip_append,
          length_bytesOf hpart, servedBelow, hslices]
    · -- its bytes lie outside the range
      refine ⟨hrest.toLevel, hwithin, ?_⟩
      rw [hrest.served, List.flatten_cons, bytesOf_append, clip_append, length_bytesOf hpart]
      rw [@clip_of_outside (origin + start) range (bytesOf reader part), List.nil_append]
      rw [length_bytesOf hpart]
      omega

theorem reachChildren_eq_ok {origin level : ℕ} {children : List (ChildDescriptor Id)}
    {parts : List (List (ExtentSlice Id))}
    (hmapped : List.Forall₂
      (fun child part => Mapped reader level false child.childObjectId part) children parts) :
    ∀ {start : ℕ},
      children.map ChildDescriptor.cumulativeLogicalEnd = cumulative start (parts.map totalBytes) →
      origin + start + totalBytes parts.flatten < u64Bound →
      (∀ extent ∈ parts.flatten, InChunk reader extent) →
      ∃ finished, reachChildren range origin level (origin + start) children =
          .ok (childNodes range origin level (origin + start) children, finished) ∧
        (finished = true → range.stop ≤ origin + start + totalBytes parts.flatten) := by
  induction hmapped with
  | nil =>
    intro start _ _ _
    exact ⟨false, rfl, fun h => Bool.noConfusion h⟩
  | @cons child part children parts hchild hrest ih =>
    intro start hcum hbound hin
    have hall := @children_childNodes _ _ reader range origin _ _ _ (.cons hchild hrest) _ hcum
      hbound hin
    rw [List.map_cons, List.map_cons, cumulative] at hcum
    obtain ⟨hend, hcum⟩ := List.cons.inj hcum
    rw [List.flatten_cons, totalBytes_append] at hbound
    have hnext : origin + (start + totalBytes part) = origin + start + totalBytes part := by omega
    obtain ⟨finished, hreach, hfinished⟩ := ih hcum (by omega) fun x hx =>
      hin x (by rw [List.flatten_cons]; exact List.mem_append_right _ hx)
    rw [hnext] at hreach hfinished
    have hadd : checkedAdd origin child.cumulativeLogicalEnd =
        .ok (origin + start + totalBytes part) :=
      checkedAdd_eq_ok.mpr ⟨by omega, by omega⟩
    have hlater : finished = true → range.stop ≤
        origin + start + totalBytes (part :: parts).flatten := by
      intro h
      have := hfinished h
      rw [List.flatten_cons, totalBytes_append]
      omega
    rw [reachChildren, hadd, ok_bind]
    split_ifs with hskip hended
    · refine ⟨finished, ?_, hlater⟩
      rw [hreach, childNodes, hend, hnext, if_neg (by omega)]
    · -- nothing at or after this child can meet the range
      refine ⟨true, ?_, fun _ => by omega⟩
      have hnone : childNodes range origin level (origin + start) (child :: children) = [] := by
        rw [List.eq_nil_iff_forall_not_mem]
        intro node hnode
        have hfirst := (hall.within node hnode).1
        have hbefore := (hall.toLevel.reaches node hnode).before
        omega
      rw [hnone]
      rfl
    · refine ⟨finished, ?_, hlater⟩
      rw [hreach, childNodes, hend, hnext, if_pos (by omega)]
      rfl

/-! ## One page -/

/-- What a page of a level serves at once: the clip of a leaf, nothing of a branch. -/
def servedAt (reader : Id → Option (MappingObject Id)) (range : ByteRange) (level : ℕ)
    (node : FrontierNode Id) : List UInt8 :=
  if level = 0 then servedBelow reader range level node else []

theorem Reaches.stored {level : ℕ} {node : FrontierNode Id} (h : Reaches reader range level node) :
    ∃ page, reader node.id = some (.page page) ∧ page.validate node.root = .ok () ∧
      page.level = node.level ∧ page.logicalLen = totalBytes (slicesBelow reader level node.id) ∧
      page.extentCount = (slicesBelow reader level node.id).length := by
  have hmapped := h.mapped
  cases level with
  | zero => exact ⟨_, hmapped.1, hmapped.2, h.level_eq.symm, rfl, rfl⟩
  | succ level =>
    obtain ⟨children, parts, -, hstored, hvalid, -⟩ := hmapped
    exact ⟨_, hstored, hvalid, h.level_eq.symm, rfl, rfl⟩

theorem Reaches.visitPage_eq_ok {level : ℕ} {node : FrontierNode Id}
    (h : Reaches reader range level node) {page : ExtentNode Id}
    (hpage : reader node.id = some (.page page)) {wave : Wave Id}
    {result : List (FrontierNode Id) × Bool × Wave Id}
    (hvisit : (match page with
      | .leaf _ extents => do
        let wave ← pushExtents reader range extents node.origin wave
        return ([], false, wave)
      | .branch _ _ _ children => do
        ensure (node.level != 0) .mappingDepthExceeded
        let (reached, finished) ←
          reachChildren range node.origin (node.level - 1) node.origin children
        return (reached, finished, wave)) = .ok result) :
    visitPage reader range node (.page page) wave = .ok result := by
  obtain ⟨page', hstored, hvalid, hlevel, hbytes, hcount⟩ := h.stored
  obtain rfl : page = page' := by
    rw [hpage] at hstored
    injection hstored with hstored
    injection hstored
  refine bind_eq_ok.mpr ⟨page, check_bind_eq_ok.mpr ⟨hvalid, rfl⟩, check_bind_eq_ok.mpr ⟨?_,
    check_bind_eq_ok.mpr ⟨?_, hvisit⟩⟩⟩
  · rw [hlevel, beq_self_eq_true]
    rfl
  · rcases hexpected : node.expectedRoot with _ | expected
    · rfl
    · rw [h.expected expected hexpected, hbytes, hcount]
      simp

/-- **One page**: the clip of a leaf is served, and the children of a branch that meet the range
are found. -/
theorem visitPage_eq_ok {level : ℕ} {node : FrontierNode Id} (hrange : range.start < range.stop)
    (h : Reaches reader range level node) {object : MappingObject Id}
    (hobject : reader node.id = some object) {wave : Wave Id} {base out : List UInt8}
    (hsound : wave.Sound reader base out)
    (hbound : (out ++ servedAt reader range level node).length < u64Bound) :
    ∃ finished wave', visitPage reader range node object wave =
        .ok (nodesBelow reader range node, finished, wave') ∧
      (finished = true → range.stop ≤ nodeStop reader level node) ∧
      wave'.Sound reader base (out ++ servedAt reader range level node) ∧
      wave'.cache = wave.cache := by
  have hmapped := h.mapped
  cases level with
  | zero =>
    rw [Mapped] at hmapped
    obtain rfl : object = _ := Option.some.inj (hobject.symm.trans hmapped.1)
    rw [servedAt, if_pos rfl] at hbound ⊢
    obtain ⟨wave', hpush, hsound', hcache⟩ :=
      pushExtents_eq_ok hrange hsound h.inChunk h.stop_lt hbound
    refine ⟨false, wave', h.visitPage_eq_ok hobject ?_, fun h => Bool.noConfusion h, hsound',
      hcache⟩
    rw [nodesBelow, hobject]
    exact bind_eq_ok.mpr ⟨wave', hpush, rfl⟩
  | succ level =>
    obtain ⟨children, parts, hflat, hstored, -, hcum, -, hbelow⟩ := hmapped
    obtain rfl : object = _ := Option.some.inj (hobject.symm.trans hstored)
    have hstop := h.stop_lt
    have hin := h.inChunk
    rw [nodeStop, hflat] at hstop
    rw [hflat] at hin
    obtain ⟨finished, hreach, hfinished⟩ := 
      @reachChildren_eq_ok _ _ reader range node.origin _ _ _ hbelow _ hcum hstop hin
    refine ⟨finished, wave, ?_, ?_, ?_, rfl⟩
    · apply h.visitPage_eq_ok hobject
      rw [nodesBelow, hobject, h.level_eq]
      exact check_bind_eq_ok.mpr ⟨rfl, bind_eq_ok.mpr ⟨_, hreach, rfl⟩⟩
    · rw [nodeStop, hflat]
      exact hfinished
    · rw [servedAt, if_neg (Nat.succ_ne_zero level), List.append_nil]
      exact hsound

/-! ## One level -/

namespace Level

variable {level : ℕ} {node : FrontierNode Id} {nodes later : List (FrontierNode Id)}

theorem tail (h : Level reader range level (node :: nodes)) : Level reader range level nodes :=
  ⟨fun n hn => h.reaches n (List.mem_cons_of_mem _ hn), (List.pairwise_cons.mp h.ascending).2⟩

theorem right (h : Level reader range level (nodes ++ later)) : Level reader range level later :=
  ⟨fun n hn => h.reaches n (List.mem_append_right _ hn), (List.pairwise_append.mp h.ascending).2.1⟩

theorem left (h : Level reader range level (nodes ++ later)) : Level reader range level nodes :=
  ⟨fun n hn => h.reaches n (List.mem_append_left _ hn), (List.pairwise_append.mp h.ascending).1⟩

theorem last (h : Level reader range level (nodes ++ later)) (hnode : node ∈ nodes)
    (hended : range.stop ≤ nodeStop reader level node) : later = [] := by
  rw [List.eq_nil_iff_forall_not_mem]
  intro next hnext
  have hafter := (List.pairwise_append.mp h.ascending).2.2 node hnode next hnext
  have hbefore := (h.reaches next (List.mem_append_right _ hnext)).before
  omega

theorem object_eq (h : Level reader range level nodes) :
    ∃ object : Id → MappingObject Id, ∀ node ∈ nodes, reader node.id = some (object node.id) := by
  refine ⟨fun id => (reader id).getD (.chunk []), fun node hnode => ?_⟩
  obtain ⟨page, hpage, -⟩ := (h.reaches node hnode).stored
  dsimp only
  rw [hpage]
  rfl

end Level

theorem visitPages_eq_ok {level : ℕ} {base : List UInt8} {object : Id → MappingObject Id}
    (hrange : range.start < range.stop) : ∀ {nodes : List (FrontierNode Id)} {wave : Wave Id}
    {out : List UInt8}, Level reader range level nodes →
    (∀ node ∈ nodes, reader node.id = some (object node.id)) → wave.Sound reader base out →
    (out ++ nodes.flatMap (servedAt reader range level)).length < u64Bound →
    ∃ finished wave',
      visitPages reader range (nodes.map fun node => (node, object node.id)) wave =
        .ok (nodes.flatMap (nodesBelow reader range), finished, wave') ∧
      (finished = true → ∃ node ∈ nodes, range.stop ≤ nodeStop reader level node) ∧
      wave'.Sound reader base (out ++ nodes.flatMap (servedAt reader range level)) ∧
      wave'.cache = wave.cache := by
  intro nodes
  induction nodes with
  | nil =>
    intro wave out _ _ hsound _
    refine ⟨false, wave, rfl, fun h => Bool.noConfusion h, ?_, rfl⟩
    simpa using hsound
  | cons node rest ih =>
    intro wave out hlevel hobject hsound hbound
    have hcons : out ++ (node :: rest).flatMap (servedAt reader range level) =
        out ++ servedAt reader range level node ++ rest.flatMap (servedAt reader range level) := by
      rw [List.flatMap_cons, List.append_assoc]
    rw [hcons] at hbound ⊢
    have hone : (out ++ servedAt reader range level node).length < u64Bound := by
      rw [List.length_append] at hbound
      omega
    obtain ⟨finished, next, hvisit, hended, hnext, hcache⟩ := visitPage_eq_ok hrange
      (hlevel.reaches node List.mem_cons_self) (hobject node List.mem_cons_self) hsound hone
    rw [List.map_cons, visitPages, hvisit, ok_bind, List.flatMap_cons]
    dsimp only
    cases finished with
    | true =>
      -- the range ended inside this page, which is the last of the level
      have hstop := hended rfl
      obtain rfl : rest = [] := @Level.last _ _ reader range level node [node] rest hlevel
        List.mem_cons_self hstop
      refine ⟨true, next, ?_, fun _ => ⟨node, List.mem_cons_self, hstop⟩, ?_, hcache⟩
      · rw [List.flatMap_nil, List.append_nil]
        rfl
      · rw [List.flatMap_nil, List.append_nil]
        exact hnext
    | false =>
      obtain ⟨finished, wave', hrun, hended', hsound', hcache'⟩ := ih hlevel.tail
        (fun n hn => hobject n (List.mem_cons_of_mem _ hn)) hnext hbound
      refine ⟨finished, wave', ?_, ?_, hsound', hcache'.trans hcache⟩
      · rw [if_neg Bool.false_ne_true, hrun]
        rfl
      · intro hfinished
        obtain ⟨n, hn, hstop⟩ := hended' hfinished
        exact ⟨n, List.mem_cons_of_mem _ hn, hstop⟩

/-- What a walk keeps of its cache: the bound, faithful pages, and the pages the waves leave. -/
structure Retains (reader : Id → Option (MappingObject Id)) (cache : PageCache Id)
    (waves : List (Finset (Id × Bool))) (cache' : PageCache Id) : Prop where
  limit_eq : cache'.limit = cache.limit
  faithful : cache'.Faithful reader
  keySet_eq : cache'.pages.keySet = heldAfterAll cache.limit cache.pages.keySet waves

omit [DecidableEq Id] in
theorem Wave.Sound.same {wave wave' : Wave Id} {base out : List UInt8}
    (h : wave.Sound reader base out) (hsame : wave.SameDemands wave') :
    wave'.Sound reader base out := by
  obtain ⟨done, hsink, hcount, hout⟩ := h.written
  refine ⟨hsame.distinct ▸ h.distinct_le, ?_, hsame.distinct ▸ h.stored, ?_, done, ?_, ?_, ?_⟩
  · rw [hsame.demands, hsame.distinct]
    exact h.idle
  · rw [hsame.demands, hsame.distinct]
    exact h.demanded
  · rw [hsame.sink, hsink]
  · rw [hsame.payloadBytes, hcount]
  · rw [hsame.demands, hout]

/-- **One level**: its waves are served when the cache serves them, and the nodes of the next
level are found. -/
theorem visitWaves_servedIf {level : ℕ} {base : List UInt8} (hrange : range.start < range.stop) :
    ∀ {waves : List (List (FrontierNode Id))} {wave : Wave Id} {out : List UInt8},
    Level reader range level waves.flatten → (∀ nodes ∈ waves, nodes ≠ []) →
    wave.cache.Faithful reader → wave.Sound reader base out →
    (out ++ waves.flatten.flatMap (servedAt reader range level)).length < u64Bound →
    ServedIf (Fits wave.cache.limit wave.cache.pages.keySet (waves.map waveKeys))
      (fun result : List (FrontierNode Id) × Wave Id =>
        result.1 = waves.flatten.flatMap (nodesBelow reader range) ∧
        result.2.Sound reader base (out ++ waves.flatten.flatMap (servedAt reader range level)) ∧
        Retains reader wave.cache (waves.map waveKeys) result.2.cache)
      (visitWaves reader range waves wave) := by
  intro waves
  induction waves with
  | nil =>
    intro wave out _ _ hfaithful hsound _
    refine .of_ok rfl ⟨rfl, ?_, rfl, hfaithful, rfl⟩
    simpa using hsound
  | cons nodes rest ih =>
    intro wave out hlevel hne hfaithful hsound hbound
    rw [List.flatten_cons] at hlevel hbound ⊢
    rw [List.flatMap_append, ← List.append_assoc] at hbound
    obtain ⟨object, hobject⟩ := hlevel.left.object_eq
    rw [List.map_cons, Fits, visitWaves]
    refine (Wave.pages_servedIf hfaithful hobject).bind ?_
    rintro ⟨pages, next⟩ ⟨rfl, hsame, hlimit, hfaithful', hkeys⟩
    dsimp only at hlimit hkeys hfaithful' ⊢
    have hzip : nodes.zip (nodes.map fun node => object node.id) =
        nodes.map fun node => (node, object node.id) := by
      simpa using @List.zip_map' _ _ _ id (fun node : FrontierNode Id => object node.id) nodes
    have hone : (out ++ nodes.flatMap (servedAt reader range level)).length < u64Bound := by
      rw [List.length_append] at hbound
      omega
    obtain ⟨finished, visited, hvisit, hended, hvisited, hcache⟩ :=
      visitPages_eq_ok hrange hlevel.left hobject (hsound.same hsame) hone
    rw [hzip, hvisit, ok_bind, ← hkeys, ← hlimit, ← hcache]
    dsimp only
    cases finished with
    | true =>
      -- the range ended in this wave, which is the last of the level
      obtain ⟨node, hnode, hstop⟩ := hended rfl
      have hlast := hlevel.last hnode hstop
      obtain rfl : rest = [] := by
        rw [List.eq_nil_iff_forall_not_mem]
        intro later hlater
        apply hne later (List.mem_cons_of_mem _ hlater)
        exact List.flatten_eq_nil_iff.mp hlast later hlater
      refine .of_ok rfl ⟨?_, ?_, ?_⟩
      · simp
      · simpa using hvisited
      · refine ⟨?_, ?_, ?_⟩
        · rw [hcache, hlimit]
        · rw [hcache]
          exact hfaithful'
        · rw [hcache, hkeys]
          rfl
    | false =>
      rw [if_neg Bool.false_ne_true]
      refine ((ih hlevel.right (fun n hn => hne n (List.mem_cons_of_mem _ hn)) ?_ hvisited
        hbound).bind ?_).congr (iff_of_eq (and_true _)).symm fun _ h => h
      · rw [hcache]
        exact hfaithful'
      · rintro ⟨later, last⟩ ⟨rfl, hlast, hretains⟩
        refine .of_ok rfl ⟨?_, ?_, ?_⟩
        · rw [List.flatMap_append]
        · rw [List.flatMap_append, ← List.append_assoc]
          exact hlast
        · refine ⟨?_, hretains.faithful, ?_⟩
          · rw [hretains.limit_eq, hcache, hlimit]
          · rw [hretains.keySet_eq, hcache, hlimit, hkeys]
            rfl

/-! ## All levels -/

theorem chunksOf_flatten {α : Type} {size : ℕ} (hsize : 0 < size) : ∀ {fuel : ℕ} {l : List α},
    l.length ≤ fuel → (chunksOf size fuel l).flatten = l ∧ ∀ piece ∈ chunksOf size fuel l,
      piece ≠ [] := by
  intro fuel
  induction fuel with
  | zero =>
    intro l hl
    obtain rfl : l = [] := List.length_eq_zero_iff.mp (Nat.le_zero.mp hl)
    exact ⟨rfl, fun piece hpiece => absurd hpiece List.not_mem_nil⟩
  | succ fuel ih =>
    intro l hl
    rw [chunksOf]
    split_ifs with hempty
    · rw [List.isEmpty_iff] at hempty
      subst hempty
      exact ⟨rfl, fun piece hpiece => absurd hpiece List.not_mem_nil⟩
    · rw [List.isEmpty_iff] at hempty
      have hpos := List.length_pos_iff.mpr hempty
      obtain ⟨hflat, hne⟩ := @ih (l.drop size) (by rw [List.length_drop]; omega)
      refine ⟨by rw [List.flatten_cons, hflat, List.take_append_drop], fun piece hpiece => ?_⟩
      rcases List.mem_cons.mp hpiece with rfl | hpiece
      · rw [← List.length_pos_iff, List.length_take]
        omega
      · exact hne piece hpiece

omit [DecidableEq Id] in
theorem navigationWaves_flatten (nodes : List (FrontierNode Id)) :
    (navigationWaves nodes).flatten = nodes := (chunksOf_flatten (by decide) (le_refl _)).1

omit [DecidableEq Id] in
theorem navigationWaves_ne_nil {nodes piece : List (FrontierNode Id)}
    (h : piece ∈ navigationWaves nodes) : piece ≠ [] :=
  (chunksOf_flatten (by decide) (le_refl _)).2 piece h

theorem wavesBelow_nil (level : ℕ) : wavesBelow reader range level [] = [] := by
  induction level with
  | zero => rfl
  | succ level ih =>
    rw [wavesBelow, List.flatMap_nil, ih]
    rfl

theorem Reaches.children {level : ℕ} {node : FrontierNode Id}
    (h : Reaches reader range (level + 1) node) :
    ∃ parts : List (List (ExtentSlice Id)),
      slicesBelow reader (level + 1) node.id = parts.flatten ∧
      Children reader range level node.origin parts (nodesBelow reader range node) := by
  have hmapped := h.mapped
  obtain ⟨children, parts, hflat, hstored, -, hcum, -, hbelow⟩ := hmapped
  have hstop := h.stop_lt
  have hin := h.inChunk
  rw [nodeStop, hflat] at hstop
  rw [hflat] at hin
  refine ⟨parts, hflat, ?_⟩
  rw [nodesBelow, hstored, h.level_eq]
  exact @children_childNodes _ _ reader range node.origin _ _ _ hbelow _ hcum hstop hin

/-- **The next level**: the nodes below a branch level are again a level. -/
theorem Level.below {level : ℕ} {nodes : List (FrontierNode Id)}
    (h : Level reader range (level + 1) nodes) :
    Level reader range level (nodes.flatMap (nodesBelow reader range)) := by
  refine ⟨fun node hnode => ?_, ?_⟩
  · obtain ⟨parent, hparent, hnode⟩ := List.mem_flatMap.mp hnode
    obtain ⟨parts, -, hchildren⟩ := (h.reaches parent hparent).children
    exact hchildren.toLevel.reaches node hnode
  · rw [List.pairwise_flatMap]
    refine ⟨fun node hnode => ?_, ?_⟩
    · obtain ⟨parts, -, hchildren⟩ := (h.reaches node hnode).children
      exact hchildren.toLevel.ascending
    · refine h.ascending.imp_of_mem ?_
      intro a b ha hb hab x hx y hy
      obtain ⟨parts, hflat, hchildren⟩ := (h.reaches a ha).children
      obtain ⟨parts', -, hchildren'⟩ := (h.reaches b hb).children
      have hstop := (hchildren.within x hx).2
      have hfirst := (hchildren'.within y hy).1
      rw [nodeStop, hflat] at hab
      omega

theorem Level.served_below {level : ℕ} {nodes : List (FrontierNode Id)}
    (h : Level reader range (level + 1) nodes) :
    (nodes.flatMap (nodesBelow reader range)).flatMap (servedBelow reader range level) =
      nodes.flatMap (servedBelow reader range (level + 1)) := by
  rw [List.flatMap_assoc]
  refine List.flatMap_congr fun node hnode => ?_
  obtain ⟨parts, hflat, hchildren⟩ := (h.reaches node hnode).children
  rw [hchildren.served, servedBelow, hflat]

theorem Level.leaves {nodes : List (FrontierNode Id)} (h : Level reader range 0 nodes) :
    nodes.flatMap (nodesBelow reader range) = [] := by
  rw [List.flatMap_eq_nil_iff]
  intro node hnode
  have hmapped := (h.reaches node hnode).mapped
  rw [Mapped] at hmapped
  rw [nodesBelow, hmapped.1]

theorem traverseLevels_nil (remaining : ℕ) (wave : Wave Id) :
    traverseLevels reader range remaining [] wave = .ok wave := by
  cases remaining <;> rfl

theorem traverseLevels_nil_servedIf {level remaining : ℕ} {wave : Wave Id} {base out : List UInt8}
    (hfaithful : wave.cache.Faithful reader) (hsound : wave.Sound reader base out) :
    ServedIf (Fits wave.cache.limit wave.cache.pages.keySet (wavesBelow reader range level []))
      (fun result : Wave Id =>
        result.Sound reader base
          (out ++ ([] : List (FrontierNode Id)).flatMap (servedBelow reader range level)) ∧
        Retains reader wave.cache (wavesBelow reader range level []) result.cache)
      (traverseLevels reader range remaining [] wave) := by
  rw [wavesBelow_nil, traverseLevels_nil, List.flatMap_nil, List.append_nil]
  exact .of_ok rfl ⟨hsound, rfl, hfaithful, rfl⟩

/-- **The walk**: what the range asks of a level is served when the cache serves the navigation of
the level and of everything below it. -/
theorem traverseLevels_servedIf {base : List UInt8} (hrange : range.start < range.stop) :
    ∀ {level remaining : ℕ} {nodes : List (FrontierNode Id)} {wave : Wave Id} {out : List UInt8},
    level < remaining → Level reader range level nodes → wave.cache.Faithful reader →
    wave.Sound reader base out →
    (out ++ nodes.flatMap (servedBelow reader range level)).length < u64Bound →
    ServedIf (Fits wave.cache.limit wave.cache.pages.keySet (wavesBelow reader range level nodes))
      (fun result : Wave Id =>
        result.Sound reader base (out ++ nodes.flatMap (servedBelow reader range level)) ∧
        Retains reader wave.cache (wavesBelow reader range level nodes) result.cache)
      (traverseLevels reader range remaining nodes wave) := by
  intro level
  induction level with
  | zero =>
    intro remaining nodes wave out hremaining hlevel hfaithful hsound hbound
    obtain ⟨remaining, rfl⟩ : ∃ r, remaining = r + 1 := ⟨remaining - 1, by omega⟩
    by_cases hempty : nodes = []
    · subst hempty
      exact traverseLevels_nil_servedIf hfaithful hsound
    · rw [traverseLevels, if_neg (mt List.isEmpty_iff.mp hempty)]
      have hwaves := navigationWaves_flatten nodes
      refine ((visitWaves_servedIf hrange (hwaves.symm ▸ hlevel)
        (fun piece => navigationWaves_ne_nil) hfaithful hsound (by rw [hwaves]; exact hbound)).bind
        (d := True) ?_).congr (iff_of_eq (and_true _)).symm fun _ h => h
      rintro ⟨next, last⟩ ⟨rfl, hlast, hretains⟩
      rw [hwaves] at hlast ⊢
      refine .of_ok (a := last) ?_ ⟨hlast, hretains⟩
      dsimp only
      rw [hlevel.leaves, traverseLevels_nil]
  | succ level ih =>
    intro remaining nodes wave out hremaining hlevel hfaithful hsound hbound
    obtain ⟨remaining, rfl⟩ : ∃ r, remaining = r + 1 := ⟨remaining - 1, by omega⟩
    by_cases hempty : nodes = []
    · subst hempty
      exact traverseLevels_nil_servedIf hfaithful hsound
    · rw [traverseLevels, if_neg (mt List.isEmpty_iff.mp hempty)]
      have hwaves := navigationWaves_flatten nodes
      have hserved : nodes.flatMap (servedAt reader range (level + 1)) = [] :=
        List.flatMap_eq_nil_iff.mpr fun _ _ => if_neg (Nat.succ_ne_zero level)
      have hshort : out.length < u64Bound := by
        rw [List.length_append] at hbound
        omega
      rw [wavesBelow, fits_append]
      refine (visitWaves_servedIf hrange (hwaves.symm ▸ hlevel)
        (fun piece => navigationWaves_ne_nil) hfaithful hsound
        (by rw [hwaves, hserved, List.append_nil]; exact hshort)).bind ?_
      rintro ⟨next, last⟩ ⟨rfl, hlast, hretains⟩
      rw [hwaves, hserved, List.append_nil] at hlast
      dsimp only
      rw [hwaves, ← hlevel.served_below, ← hretains.limit_eq]
      rw [← hlevel.served_below] at hbound
      refine (ih (by omega) hlevel.below hretains.faithful hlast hbound).congr ?_ ?_
      · rw [hretains.keySet_eq, hretains.limit_eq]
      · rintro result ⟨hresult, hafter⟩
        refine ⟨hresult, ?_, hafter.faithful, ?_⟩
        · rw [hafter.limit_eq, hretains.limit_eq]
        · rw [hafter.keySet_eq, hretains.keySet_eq, hretains.limit_eq, heldAfterAll, heldAfterAll,
            heldAfterAll, List.foldl_append]

end LayerFs
