import LayerFs.Cdc.Local
import LayerFs.Files.Construct

/-!
# What is constructed reads back

However a file arrives, the builder is where the chunks of all its bytes, pushed one by one, leave
it.

* `constructBytes_reads` — **every file reads back**, byte for byte.
* `constructStream_eq` — **a stream makes what its bytes make**, however it is read.
-/

namespace LayerFs.Files

open List ExtentBuilder Scanner

variable {Id α β : Type}

/-! ## Constructions that succeed -/

theorem bind_ok_inv {x : Construction Id α} {f : α → Construction Id β} {b : β}
    {out : List (FinalizedObject Id)} (h : x >>= f = Except.ok (b, out)) :
    ∃ a first later, x = Except.ok (a, first) ∧ f a = Except.ok (b, later) ∧
      out = first ++ later := by
  rcases x with e | ⟨a, first⟩
  · cases h
  · rcases hf : f a with e | ⟨b', later⟩
    · rw [Construction.bind_error rfl hf] at h
      cases h
    · rw [Construction.bind_ok rfl hf] at h
      cases h
      exact ⟨a, first, later, rfl, hf, rfl⟩

theorem bind_assoc_eq {γ : Type} {x : Construction Id α} {f : α → Construction Id β}
    {g : β → Construction Id γ} : x >>= f >>= g = x >>= fun a => f a >>= g := by
  rcases x with e | ⟨a, out⟩
  · rfl
  simp only [bind, Construction.bind]
  rcases f a with e | ⟨b, later⟩
  · rfl
  rcases hlast : g b with e | ⟨d, last⟩
  all_goals
    simp only [hlast, append_assoc]
    rfl

/-- What a construction computes has `P`, where it succeeds. -/
def Always (P : α → Prop) (op : Construction Id α) : Prop := ∀ a out, op = Except.ok (a, out) → P a

variable {P : β → Prop}

theorem always_pure {b : β} (h : P b) : Always P (pure b : Construction Id β) := by
  rintro _ _ ⟨⟩
  exact h

theorem always_result {x : ContentResult α} :
    Always (fun a => x = .ok a) (liftM x : Construction Id α) := by
  rcases x with e | a
  · rintro _ _ ⟨⟩
  · exact always_pure rfl

theorem Always.bind {Q : α → Prop} {x : Construction Id α} {f : α → Construction Id β}
    (hx : Always Q x) (hf : ∀ a, Q a → Always P (f a)) : Always P (x >>= f) := by
  intro b out h
  obtain ⟨a, first, later, hfirst, hlater, -⟩ := bind_ok_inv h
  exact hf a (hx a first hfirst) b later hlater

variable [DecidableEq Id] (identify : FileObject Id → Id)
variable {builder : ExtentBuilder Id} {chunks : List (List UInt8)} {chunk bytes : List UInt8}
  {out : List (FinalizedObject Id)} {store : Option (Id → Option (MappingObject Id))}

omit [DecidableEq Id] in
/-- The result of a computation in every store that holds what it handed over. -/
theorem Hands.holds {P Q : Option (Id → Option (MappingObject Id)) → Prop}
    {op : Construction Id α} {a : α} (h : Hands identify P op a Q) (hP : ∀ store, P store) :
    ∃ out, op = Except.ok (a, out) ∧
      ∀ store, (∀ given ∈ store, Stored identify given out) → Q store := by
  obtain ⟨out, hop, -⟩ := h none (hP none)
  refine ⟨out, hop, fun store hstored => ?_⟩
  obtain ⟨out', hop', hQ⟩ := h store (hP store)
  rw [hop] at hop'
  cases hop'
  exact hQ hstored

/-! ## The level of a root -/

def Low (summary : NodeSummary Id) : Prop := summary.level ≤ maximumLevel

theorem low_emitNode {node : ExtentNode Id} {root : Bool} :
    Always Low (emitNode identify node root) := by
  refine always_result.bind fun _ hlevel => always_result.bind fun _ _ => ?_
  refine Always.bind (fun _ _ _ => trivial) fun _ _ => always_pure ?_
  exact (of_decide_eq_true (ensure_eq_ok.mp hlevel) : node.level ≤ maximumLevel)

theorem low_emitBranch {root : Bool} {level : ℕ} {children : List (NodeSummary Id)} :
    Always Low (emitBranch identify root level children) :=
  always_result.bind fun _ _ => low_emitNode identify

theorem low_emitLeaf {root : Bool} {extents : List (ExtentSlice Id)} :
    Always Low (emitLeaf identify root extents) :=
  always_result.bind fun _ _ => low_emitNode identify

omit [DecidableEq Id] in
theorem low_sealRest {ε : Type} {emitPage : List ε → Construction Id (NodeSummary Id)}
    (hemit : ∀ here, Always Low (emitPage here)) : ∀ {turns : ℕ} {here : List ε},
    Always (fun summaries => ∀ s ∈ summaries, Low s) (sealRest emitPage turns here) := by
  intro turns
  induction turns with
  | zero => exact always_pure (forall_mem_nil _)
  | succ turns ih =>
    intro here
    rw [sealRest]
    by_cases hempty : here.isEmpty
    · rw [if_pos hempty]
      exact always_pure (forall_mem_nil _)
    · rw [if_neg hempty]
      exact (hemit _).bind fun summary hsummary => ih.bind fun later hlater =>
        always_pure (forall_mem_cons.mpr ⟨hsummary, hlater⟩)

omit [DecidableEq Id] in
theorem low_next {summaries : List (NodeSummary Id)} {above : List (List (NodeSummary Id))}
    (hlow : ∀ here ∈ above, ∀ s ∈ here, Low s) (hnew : ∀ s ∈ summaries, Low s) :
    ∀ here ∈ (above.headD [] ++ summaries) :: above.tail, ∀ s ∈ here, Low s := by
  cases above with
  | nil => exact forall_mem_singleton.mpr hnew
  | cons next rest =>
    obtain ⟨hnext, hrest⟩ := forall_mem_cons.mp hlow
    exact forall_mem_cons.mpr ⟨forall_mem_append.mpr ⟨hnext, hnew⟩, hrest⟩

theorem low_finishLevels : ∀ {room level : ℕ} {levels : List (List (NodeSummary Id))},
    (∀ here ∈ levels, ∀ s ∈ here, Low s) →
    Always Low (finishLevels identify room level levels) := by
  intro room
  induction room with
  | zero =>
    rintro level levels - _ _ ⟨⟩
  | succ room ih =>
    rintro level (_ | ⟨here, above⟩) hlow
    · rintro _ _ ⟨⟩
    obtain ⟨hhere, habove⟩ := forall_mem_cons.mp hlow
    change Always Low (ite _ _ _)
    split_ifs
    · match here, hhere with
      | [child], hhere => exact always_pure (hhere child mem_cons_self)
      | [], _ => exact low_emitBranch identify
      | _ :: _ :: _, _ => exact low_emitBranch identify
    · exact (low_sealRest fun _ => low_emitBranch identify).bind fun summaries hnew =>
        ih (low_next habove hnew)

theorem low_tower {flushAt : ℕ} : ∀ {levels : List (List (NodeSummary Id))} {level : ℕ}
    {slices : List (ExtentSlice Id)}, Tower none flushAt level levels slices →
    totalBytes slices < u64Bound → ∀ here ∈ levels, ∀ s ∈ here, Low s := by
  intro levels
  induction levels with
  | nil => exact fun _ _ => forall_mem_nil _
  | cons here above ih =>
    rintro level slices ⟨-, before, parts, rfl, hparts, habove⟩ hbound
    rw [totalBytes_append] at hbound
    refine forall_mem_cons.mpr ⟨fun s hs => ?_, ih habove (by omega)⟩
    obtain ⟨part, hsealed⟩ := exists_of_forall₂ hparts hs
    have hlevel := level_of_filled (le_trans (Nat.le_mul_of_pos_left _ (length_pos_of_mem hs))
      (filled_flatten hparts)) (lt_of_le_of_lt (length_le_totalBytes _) (by omega))
    rw [Low, hsealed.level_eq]
    exact le_trans hlevel.le (by decide)

theorem low_finish {slices : List (ExtentSlice Id)} (h : Building none builder slices) :
    Always (fun build => ∀ root ∈ build.root, Low root) (builder.finish identify) := by
  obtain ⟨before, hslices, htower⟩ := h.covers
  have hbound := h.bounded
  rw [hslices, totalBytes_append] at hbound
  have hlow := low_tower htower (by omega)
  rw [ExtentBuilder.finish]
  split_ifs
  · exact always_pure fun root hroot => absurd hroot (Option.not_mem_none root)
  · refine Always.bind (Q := Low) ?_ fun root hroot => always_pure (by rintro _ ⟨⟩; exact hroot)
    rw [finishExtents]
    split_ifs
    · exact low_emitLeaf identify
    · exact (low_sealRest fun _ => low_emitLeaf identify).bind fun summaries hnew =>
        low_finishLevels identify (low_next hlow hnew)

/-! ## Chunks in a builder -/

def Sized (chunk : List UInt8) : Prop := 0 < chunk.length ∧ chunk.length ≤ maximumChunkBytes

/-- The whole slices of some chunks. -/
def chunkSlices (chunks : List (List UInt8)) : List (ExtentSlice Id) :=
  chunks.flatMap fun raw => ((Push.chunk raw none).slices identify)

variable {more : List (List UInt8)}

omit [DecidableEq Id] in
theorem chunkSlices_cons (h : Sized chunk) :
    chunkSlices identify (chunk :: more) =
      chunkSlice identify chunk h.1 h.2 :: chunkSlices identify more := by
  rw [chunkSlices, flatMap_cons, Push.slices, new_chunkSlice identify h.1 h.2]
  rfl

omit [DecidableEq Id] in
theorem totalBytes_chunkSlices (h : ∀ chunk ∈ chunks, Sized chunk) :
    totalBytes (chunkSlices identify chunks) = chunks.flatten.length := by
  induction chunks with
  | nil => rfl
  | cons chunk rest ih =>
    obtain ⟨hchunk, hrest⟩ := forall_mem_cons.mp h
    rw [chunkSlices_cons identify hchunk, totalBytes_cons, ih hrest, flatten_cons, length_append]
    rfl

/-- **Chunks arrive one behind the other.** -/
theorem pushScanned_hands : ∀ {builder : ExtentBuilder Id} {slices : List (ExtentSlice Id)},
    (∀ chunk ∈ more, Sized chunk) → totalBytes (slices ++ chunkSlices identify more) < u64Bound →
    Hands identify (fun store => Building store builder slices) (pushScanned identify builder more)
      (fed identify builder (chunkSlices identify more)) (fun store =>
        Building store (fed identify builder (chunkSlices identify more))
          (slices ++ chunkSlices identify more)) := by
  induction more with
  | nil =>
    intro builder slices _ _
    rw [chunkSlices, flatMap_nil, append_nil, fed_nil]
    exact Hands.pure identify fun _ h => h
  | cons chunk rest ih =>
    intro builder slices hsized hbound
    obtain ⟨hchunk, hrest⟩ := forall_mem_cons.mp hsized
    rw [show chunkSlices identify (chunk :: rest) = [chunkSlice identify chunk hchunk.1 hchunk.2] ++
      chunkSlices identify rest from chunkSlices_cons identify hchunk, ← append_assoc] at hbound ⊢
    have hroom : totalBytes slices + chunk.length < u64Bound := by
      rw [totalBytes_append, totalBytes_append] at hbound
      exact lt_of_le_of_lt (Nat.le_add_right _ _) hbound
    rw [fed_append]
    exact Hands.bind identify (fun _ h => h.forget) (fun store h => pushChunk_hands identify
      hchunk.1 hchunk.2 h.coalesced hroom none store h) (ih hrest hbound)

/-- **Every chunk is handed over.** -/
theorem pushScanned_gives : ∀ {builder builder' : ExtentBuilder Id} {out},
    (∀ chunk ∈ more, Sized chunk) →
    pushScanned identify builder more = Except.ok (builder', out) →
    ∀ chunk ∈ more, ⟨.mapping (.chunk chunk), none⟩ ∈ out := by
  induction more with
  | nil => exact fun _ _ => forall_mem_nil _
  | cons chunk rest ih =>
    intro builder builder' out hsized h
    obtain ⟨hchunk, hrest⟩ := forall_mem_cons.mp hsized
    obtain ⟨_, first, later, hfirst, hlater, rfl⟩ := bind_ok_inv h
    change pushChunk identify builder chunk none = _ at hfirst
    rw [pushChunk, chunkObject_eq hchunk.2, Construction.lift_bind] at hfirst
    obtain ⟨_, _, _, haccept, _, rfl⟩ := bind_ok_inv hfirst
    cases haccept
    exact forall_mem_cons.mpr ⟨mem_append_left _ (mem_append_left _ mem_cons_self),
      fun chunk hchunk => mem_append_right _ (ih hrest hlater chunk hchunk)⟩

/-! ## The chunks of an input -/

theorem pushScanned_append : ∀ {builder : ExtentBuilder Id},
    pushScanned identify builder (chunks ++ more) =
      pushScanned identify builder chunks >>= fun builder => pushScanned identify builder more := by
  induction chunks with
  | nil =>
    intro builder
    exact (@Construction.lift_bind Id _ _ builder fun builder =>
      pushScanned identify builder more).symm
  | cons chunk rest ih =>
    intro builder
    show _ = (pushChunk identify builder chunk none >>= _) >>= _
    rw [bind_assoc_eq]
    exact congrArg _ (funext fun builder => ih)

variable {reads : List (List UInt8)} {capacities : ConstructionCapacities}

/-- **A scan pushes the chunks of all the bytes**, however they are read. -/
theorem scanInto_eq : ∀ {scanner : Scanner} {builder : ExtentBuilder Id} {scanned : ℕ},
    Ready scanner → scanned + reads.flatten.length < u64Bound →
    scanInto identify reads scanner builder scanned =
      pushScanned identify builder (cut scanner reads.flatten) >>= fun builder =>
        pure (builder, scanned + reads.flatten.length) := by
  induction reads with
  | nil => exact fun _ _ => rfl
  | cons read rest ih =>
    intro scanner builder scanned h hbound
    rw [flatten_cons, length_append, ← Nat.add_assoc] at hbound ⊢
    have hread : scanned + read.length < u64Bound := lt_of_le_of_lt (Nat.le_add_right _ _) hbound
    rw [scanInto, checkedAdd_eq_ok.mpr ⟨hread, rfl⟩, Construction.lift_bind, consume_eq_feed h,
      cut_append, pushScanned_append, bind_assoc_eq]
    exact congrArg _ (funext fun builder => ih (feed_ready h) hbound)

theorem buildStreaming_eq (hbound : reads.flatten.length < u64Bound) :
    buildStreaming identify capacities reads =
      pushScanned identify (.new capacities.streamFlushEntries) (cut new reads.flatten) >>=
        fun builder => liftM (ensure (reads.flatten.length == builder.logicalLen)
          (.invalidRecord "chunk accounting")) >>= fun _ => builder.finish identify := by
  rw [buildStreaming, scanInto_eq identify new_ready (by rwa [Nat.zero_add]), bind_assoc_eq,
    Nat.zero_add]
  exact congrArg _ (funext fun builder => Construction.lift_bind)

/-! ## Files that read back -/

omit [DecidableEq Id] in
theorem chunkSlices_bytes {given : Id → Option (MappingObject Id)}
    (hsized : ∀ chunk ∈ chunks, Sized chunk)
    (hstored : ∀ chunk ∈ chunks, given (identify (.mapping (.chunk chunk))) = some (.chunk chunk)) :
    bytesOf given (chunkSlices identify chunks) = chunks.flatten ∧
      ∀ slice ∈ chunkSlices identify chunks, InChunk given slice := by
  induction chunks with
  | nil => exact ⟨rfl, forall_mem_nil _⟩
  | cons chunk rest ih =>
    obtain ⟨hchunk, hrest⟩ := forall_mem_cons.mp hsized
    obtain ⟨hfirst, hlater⟩ := forall_mem_cons.mp hstored
    obtain ⟨hbytes, hin⟩ := ih hrest hlater
    rw [chunkSlices_cons identify hchunk, bytesOf_cons, hbytes, flatten_cons]
    refine ⟨congrArg (· ++ _) ?_, forall_mem_cons.mpr ⟨⟨chunk, hfirst, ?_, hchunk.2⟩, hin⟩⟩
    · rw [sliceBytes, payloadOf, chunkSlice, hfirst]
      exact take_length
    · exact (Nat.zero_add _).le

/-- What a root object is to a reader. -/
def rootContent : FileObject Id → Option (Compare.FileContent Id)
  | .mapping _ => none
  | .state state => some (.chunked state)
  | .whole payload => some (.wholeFile payload)

/-- A provider that serves the objects of a construction. -/
structure Provides (provider : Compare.FileProvider Id) (out : List (FinalizedObject Id)) :
    Prop where
  stored : Stored identify provider.mapping out
  classified : ∀ finalized ∈ out, ∀ content ∈ rootContent finalized.object,
    provider.classify (identify finalized.object) = .ok content

/-- A root that is a file of these bytes: a range of it is served while the pages of its navigation
fit a page cache, and what is served is theirs. -/
def Reads (provider : Compare.FileProvider Id) (root : Id) (bytes : List UInt8) : Prop :=
  ∃ content, provider.classify root = .ok content ∧ content.logicalLen = bytes.length ∧
    ∀ range : ByteRange, range.start ≤ range.stop → range.stop ≤ bytes.length →
      ServedIf (content.Serves provider.mapping range)
        (fun read => read = (bytes.drop range.start).take (range.stop - range.start))
        (content.readRange provider.mapping range [])

/-- A construction that succeeds with a file of these bytes, through every provider of the objects
it hands over. -/
def ReadsBack (op : Construction Id (ConstructedFile Id)) (bytes : List UInt8) : Prop :=
  ∃ file out, op = Except.ok (file, out) ∧ file.logicalLen = bytes.length ∧
    ∀ provider, Provides identify provider out → Reads provider file.root bytes

variable {provider : Compare.FileProvider Id} {id : Id} {root : NodeSummary Id}

theorem reads_of_valid {content : Compare.FileContent Id}
    (hroot : provider.classify id = .ok content) (h : content.Valid provider.mapping) :
    Reads provider id (content.bytes provider.mapping) := by
  refine ⟨content, hroot, h.length_bytes.symm, fun range hrange hstop => ?_⟩
  exact h.readRange_servedIf hrange (h.length_bytes ▸ hstop)

theorem reads_of_rooted (hsized : ∀ chunk ∈ chunks, Sized chunk)
    (hbound : chunks.flatten.length < u64Bound)
    (hstored : ∀ chunk ∈ chunks,
      provider.mapping (identify (.mapping (.chunk chunk))) = some (.chunk chunk))
    (hroot : Rooted (some provider.mapping) root (chunkSlices identify chunks))
    (hstate : provider.classify id = .ok (.chunked (stateOf root))) :
    Reads provider id chunks.flatten := by
  have hmapped := hroot.mapped _ rfl
  have hslices : (Compare.FileContent.chunked (stateOf root)).slices provider.mapping =
      chunkSlices identify chunks := hmapped.slicesBelow_eq
  obtain ⟨hbytes, hin⟩ := chunkSlices_bytes identify hsized hstored
  rw [← totalBytes_chunkSlices identify hsized] at hbound
  rw [← hbytes, ← hslices]
  refine reads_of_valid hstate (show ChunkedFile provider.mapping (stateOf root) _ from ?_)
  rw [hslices]
  exact ⟨hmapped, hroot.bytes_eq, hroot.extents_eq, lt_of_eq_of_lt hroot.bytes_eq hbound, hin⟩

omit [DecidableEq Id] in
theorem emitFileState_eq_ok (h : Low root) : emitFileState identify root =
    Except.ok (identify (.state (stateOf root)), [⟨.state (stateOf root), none⟩]) := by
  have hlevel : ensure (decide ((stateOf root).treeLevel ≤ maximumLevel))
      (.invalidRecord "file state profile") = .ok () := ensure_eq_ok.mpr (decide_eq_true h)
  exact Construction.bind_ok (Construction.lift_ok hlevel) (Construction.bind_ok rfl rfl)

/-- **A stream is built** into a mapping over the chunks of its bytes, and hands them over. -/
theorem buildStreaming_eq_ok (policy : ConstructionPolicy)
    (hbound : reads.flatten.length < u64Bound) :
    ∃ build out, buildStreaming identify policy.capacities reads = Except.ok (build, out) ∧
      (∀ root ∈ build.root, Low root) ∧
      (∀ chunk ∈ cut new reads.flatten, ⟨.mapping (.chunk chunk), none⟩ ∈ out) ∧
      ∀ store, (∀ given ∈ store, Stored identify given out) →
        Finished store build (chunkSlices identify (cut new reads.flatten)) := by
  obtain ⟨hflat, hsized⟩ := @cut_exact reads.flatten
  have hlength := totalBytes_chunkSlices identify hsized
  rw [hflat] at hlength
  have hpushed := @pushScanned_hands Id _ identify (cut new reads.flatten) (.new streamFlushEntries)
    [] hsized (by rwa [nil_append, hlength])
  rw [nil_append] at hpushed
  obtain ⟨_, _, hover⟩ := Hands.holds identify hpushed fun _ => building_new
  have hbuilding := hover none fun _ hgiven => by cases hgiven
  have haccount : ensure (reads.flatten.length == (fed identify (.new streamFlushEntries)
      (chunkSlices identify (cut new reads.flatten))).logicalLen)
      (.invalidRecord "chunk accounting") = .ok () := by
    rw [hbuilding.logicalLen_eq, hlength]
    exact ensure_eq_ok.mpr (beq_self_eq_true _)
  obtain ⟨build, hfinish⟩ := finish_hands identify hbuilding
    (keeps_fed identify (show maximumEntries < 192 by decide) (keeps_new _) _)
    (show minimumEntries + maximumEntries ≤ 192 by decide)
    (show 192 + 2 ≤ 2 * maximumEntries by decide)
  obtain ⟨_, hlow, -⟩ := hfinish none hbuilding
  have hstream : Hands identify (fun store => Building store (.new streamFlushEntries) [])
      (buildStreaming identify policy.capacities reads) build
      (fun store => Finished store build (chunkSlices identify (cut new reads.flatten))) := by
    rw [buildStreaming_eq identify hbound]
    exact Hands.bind identify (fun _ h => h.forget) hpushed (Hands.lift identify haccount hfinish)
  obtain ⟨out, hok, hfinished⟩ := Hands.holds identify hstream fun _ => building_new
  refine ⟨build, out, hok, low_finish identify hbuilding _ _ hlow, fun chunk hchunk => ?_,
    hfinished⟩
  rw [buildStreaming_eq identify hbound] at hok
  obtain ⟨_, first, later, hfirst, -, rfl⟩ := bind_ok_inv hok
  exact mem_append_left _ (pushScanned_gives identify hsized hfirst chunk hchunk)

/-- **Chunks make a file**, whatever their number. -/
theorem constructChunked_readsBack (policy : ConstructionPolicy)
    (hbound : reads.flatten.length < u64Bound) :
    ReadsBack identify (constructChunked identify policy.capacities reads) reads.flatten := by
  obtain ⟨hflat, hsized⟩ := @cut_exact reads.flatten
  have hlength := totalBytes_chunkSlices identify hsized
  obtain ⟨build, out, hbuild, hlow, hgiven, hholds⟩ := buildStreaming_eq_ok identify policy hbound
  have hfinished := hholds none fun _ hgiven => by cases hgiven
  have hmade : ∃ root later, mappingRoot identify build = Except.ok (root, later) ∧ Low root ∧
      root.bytes = reads.flatten.length ∧ ∀ given, Stored identify given (out ++ later) →
        Rooted (some given) root (chunkSlices identify (cut new reads.flatten)) := by
    rw [mappingRoot]
    rcases hroot : build.root with _ | root
    · have hnone := hfinished.none_iff.mp hroot
      rw [hnone] at hlength ⊢
      refine ⟨_, _, emitNode_eq_ok identify (Nat.zero_le _) rfl, Nat.zero_le _,
        hlength.trans (congrArg _ hflat), fun given hstored => ⟨rfl, rfl, ?_⟩⟩
      rintro _ ⟨⟩
      exact ⟨hstored _ (mem_append_right _ mem_cons_self) _ rfl, rfl⟩
    · refine ⟨root, [], rfl, hlow root hroot, ?_, fun given hstored => ?_⟩
      · rw [(hfinished.rooted root hroot).bytes_eq, hlength, hflat]
      · exact (hholds (some given) (by rintro _ ⟨⟩; exact hstored.left)).rooted root hroot
  obtain ⟨root, later, hroot, hlevel, hbytes, hrooted⟩ := hmade
  refine ⟨_, _, Construction.bind_ok hbuild (Construction.bind_ok hroot
    (Construction.bind_ok (emitFileState_eq_ok identify hlevel) rfl)), hbytes, ?_⟩
  intro provider ⟨hstored, hclassified⟩
  rw [← append_assoc] at hstored
  have hheld := hstored.left
  have hreads := reads_of_rooted identify hsized (by rwa [hflat])
    (fun chunk hchunk => hheld _ (mem_append_left _ (hgiven chunk hchunk)) _ rfl) (hrooted _ hheld)
    (hclassified _ (mem_append_right _ (mem_append_right _ mem_cons_self)) _ rfl)
  rwa [hflat] at hreads

/-! ## Sources -/

theorem cutReads_flatten : ∀ {turns : ℕ} {bytes : List UInt8}, bytes.length ≤ turns →
    (cutReads turns bytes).flatten = bytes := by
  intro turns
  induction turns with
  | zero => exact fun h => (length_eq_zero_iff.mp (Nat.le_zero.mp h)).symm
  | succ turns ih =>
    intro bytes h
    rw [cutReads]
    split_ifs with hempty
    · exact (isEmpty_iff.mp hempty).symm
    · have hpos := length_pos_of_ne_nil (mt isEmpty_iff.mpr hempty)
      have hroom : 0 < maximumChunkBytes := by decide
      rw [flatten_cons, ih (by rw [length_drop]; omega), take_append_drop]

theorem readsOf_flatten {pieces : List (List UInt8)} :
    (readsOf pieces).flatten = pieces.flatten := by
  induction pieces with
  | nil => rfl
  | cons piece rest ih =>
    rw [readsOf, flatMap_cons, flatten_append, cutReads_flatten le_rfl, flatten_cons]
    exact congrArg _ ih

theorem readAtMost_spec : ∀ {pieces : List (List UInt8)} {limit : ℕ},
    (readAtMost limit pieces).1 = pieces.flatten.take limit ∧
      (readAtMost limit pieces).1 ++ (readAtMost limit pieces).2.flatten = pieces.flatten := by
  intro pieces
  induction pieces with
  | nil => exact fun {limit} => ⟨take_nil.symm, rfl⟩
  | cons piece rest ih =>
    intro limit
    rw [readAtMost]
    split_ifs with hwhole
    · obtain ⟨htake, hall⟩ := @ih (limit - piece.length)
      exact ⟨by rw [flatten_cons, take_append, take_of_length_le hwhole, ← htake],
        by rw [flatten_cons, append_assoc, hall]⟩
    · exact ⟨by rw [flatten_cons, take_append_of_le_length (by omega)],
        by rw [flatten_cons, flatten_cons, ← append_assoc, take_append_drop]⟩

theorem constructChunked_congr {pieces : List (List UInt8)} (h : reads.flatten = pieces.flatten)
    (hbound : pieces.flatten.length < u64Bound) :
    constructChunked identify capacities reads = constructChunked identify capacities pieces := by
  rw [constructChunked, constructChunked, buildStreaming_eq identify hbound,
    buildStreaming_eq identify (h ▸ hbound), h]

/-- **A stream makes what its bytes make**: the same root and the same objects in the same order,
wherever the reads of the stream end. -/
theorem constructStream_eq (policy : ConstructionPolicy) {source : List (List UInt8)}
    (hbound : source.flatten.length < u64Bound) :
    constructStream identify policy capacities source =
      constructBytes identify policy capacities source.flatten := by
  obtain ⟨htake, hall⟩ := @readAtMost_spec source policy.smallFileThresholdBytes
  have hleast := policy.atLeast
  rw [constructStream]
  dsimp only
  split_ifs with hshort
  · rw [htake] at hshort ⊢
    rw [length_take] at hshort
    rw [take_of_length_le (by omega)]
  · have hlong : policy.smallFileThresholdBytes ≤ source.flatten.length := by
      rw [htake, length_take] at hshort
      omega
    have hchunked : policy.representation source.flatten.length = .chunked := by
      rw [ConstructionPolicy.representation, if_neg (by omega), if_neg (by omega)]
    rw [constructBytes, hchunked]
    refine constructChunked_congr identify ?_ ?_
    · rw [readsOf_flatten, readsOf_flatten, flatten_cons, hall, flatten_singleton]
    · rwa [readsOf_flatten, flatten_singleton]

theorem constructStream_eq_two : ∃ policy : ConstructionPolicy,
    constructStream (fun _ => 0) policy policy.capacities [[7], [8]] =
      constructBytes (fun _ => 0) policy policy.capacities [7, 8] :=
  ⟨⟨131072, ⟨17, rfl⟩, by decide, by decide⟩, constructStream_eq _ _ (by decide)⟩

/-! ## Both representations -/

omit [DecidableEq Id] in
theorem encodeWholeFile_eq_ok (policy : ConstructionPolicy) (hpos : 0 < bytes.length)
    (hshort : bytes.length < policy.smallFileThresholdBytes) :
    encodeWholeFile policy.capacities bytes = .ok (.whole bytes : FileObject Id) := by
  have hmost := policy.atMost
  have hcanonical := Codec.canonicalLen_eq_ok.mpr
    ⟨show wholeValueHeader + bytes.length ≤ Codec.maximumObjectFieldBytes from
      le_trans (by rw [wholeValueHeader]; omega) (show 2097152 ≤ _ by decide), rfl⟩
  have hsome : bytes.isEmpty = false := isEmpty_eq_false_iff.mpr (ne_nil_of_length_pos hpos)
  refine check_bind_eq_ok.mpr ⟨ensure_eq_ok.mpr ?_, bind_eq_ok.mpr ⟨_, hcanonical,
    check_bind_eq_ok.mpr ⟨ensure_eq_ok.mpr (decide_eq_true ?_), rfl⟩⟩⟩
  · rw [hsome]
    exact decide_eq_true (show bytes.length ≤ policy.smallFileThresholdBytes - 1 by omega)
  · show 10 + bytes.length + 13 ≤ policy.smallFileThresholdBytes - 1 + 23
    omega

/-- **Every file reads back**: a construction of up to `u64` bytes succeeds, and through any
provider of the objects it handed over its root is a file of exactly these bytes. -/
theorem constructBytes_reads (policy : ConstructionPolicy) (hbound : bytes.length < u64Bound) :
    ReadsBack identify (constructBytes identify policy policy.capacities bytes) bytes := by
  have hchunked : ReadsBack identify
      (constructChunked identify policy.capacities (readsOf [bytes])) bytes := by
    have hflat : (readsOf [bytes]).flatten = bytes := by rw [readsOf_flatten, flatten_singleton]
    have hreads := constructChunked_readsBack identify policy (hflat.symm ▸ hbound)
    rwa [hflat] at hreads
  rw [constructBytes, ConstructionPolicy.representation]
  split_ifs with hzero hshort
  · exact hchunked
  · have hwhole := @encodeWholeFile_eq_ok Id bytes policy (Nat.pos_of_ne_zero hzero) hshort
    refine ⟨_, _, Construction.bind_ok (Construction.lift_ok hwhole) (Construction.bind_ok rfl rfl),
      rfl, fun provider hprovides => ?_⟩
    refine @reads_of_valid Id _ provider _ (.wholeFile bytes) ?_ hbound
    exact hprovides.classified _ (mem_append_right _ mem_cons_self) _ rfl
  · exact hchunked

theorem constructBytes_reads_one : ∃ policy : ConstructionPolicy,
    constructBytes (fun _ => 0) policy policy.capacities [7] =
        Except.ok (⟨0, 1⟩, [⟨.whole [7], none⟩]) ∧
      Reads ⟨fun _ => .ok (.wholeFile [7]), fun _ => none⟩ 0 [7] := by
  let policy : ConstructionPolicy := ⟨131072, ⟨17, rfl⟩, by decide, by decide⟩
  obtain ⟨file, out, hok, -, hreads⟩ := constructBytes_reads (fun _ => 0) policy
    (show [7].length < u64Bound by decide)
  obtain ⟨rfl, rfl⟩ : (⟨0, 1⟩, [⟨.whole [7], none⟩]) = (file, out) := Except.ok.inj hok
  exact ⟨policy, rfl, hreads _ ⟨by simp [Stored], by simp [rootContent]⟩⟩

end LayerFs.Files
