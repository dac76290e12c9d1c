import LayerFs.Mapping.Cache

/-!
# Demands and the bytes they stand for

* `Wave.Sound` — what is written and what is still demanded make up the bytes served so far.
-/

namespace LayerFs

open List

variable {Id : Type} [DecidableEq Id]
variable {extent : ExtentSlice Id} {base out : List UInt8} {position : ℕ}

namespace Wave

variable {reader : Id → Option (MappingObject Id)} {wave : Wave Id}

/-! ## Demands -/

def demandBytes (reader : Id → Option (MappingObject Id)) (demand : Demand Id) : List UInt8 :=
  ((payloadOf reader demand.id).drop demand.sourceOffset).take demand.length

/-- **A read in progress** has served `out` so far: what it appended to the sink `base` and, after
that, what its demands stand for. Every demand lies in a chunk of the wave. -/
structure Sound (reader : Id → Option (MappingObject Id)) (base : List UInt8) (wave : Wave Id)
    (out : List UInt8) : Prop where
  distinct_le : wave.distinct.length ≤ readWaveObjects
  idle : wave.demands = [] → wave.distinct = []
  stored : ∀ id ∈ wave.distinct, reader id = some (.chunk (payloadOf reader id)) ∧
    (payloadOf reader id).length ≤ maximumChunkBytes
  demanded : ∀ demand ∈ wave.demands, demand.id ∈ wave.distinct ∧
    demand.sourceOffset + demand.length ≤ (payloadOf reader demand.id).length
  written : ∃ done, wave.sink = base ++ done ∧ wave.counters.payloadBytesRead = done.length ∧
    out = done ++ wave.demands.flatMap (demandBytes reader)

theorem saturatingAdd_eq {a b : ℕ} (h : a + b < u64Bound) : saturatingAdd a b = a + b := by
  rw [saturatingAdd]
  omega

theorem serve_eq_ok {ids : List Id} {demand : Demand Id} (hid : demand.id ∈ ids)
    (hinside : demand.sourceOffset + demand.length ≤ (payloadOf reader demand.id).length)
    (hbound : wave.counters.payloadBytesRead + (demandBytes reader demand).length < u64Bound) :
    ∃ wave', serve (ids.map fun id => (id, payloadOf reader id)) wave demand = .ok wave' ∧
      wave'.sink = wave.sink ++ demandBytes reader demand ∧
      wave'.counters.payloadBytesRead =
        wave.counters.payloadBytesRead + (demandBytes reader demand).length ∧
      wave'.cache = wave.cache := by
  rw [serve, lookup_graph _ hid]
  exact ⟨_, bind_eq_ok.mpr ⟨_, rfl, check_bind_eq_ok.mpr ⟨by simpa using hinside, rfl⟩⟩, rfl,
    saturatingAdd_eq hbound, rfl⟩

theorem foldlM_serve {ids : List Id} : ∀ {demands : List (Demand Id)} {wave : Wave Id},
    (∀ demand ∈ demands, demand.id ∈ ids ∧
      demand.sourceOffset + demand.length ≤ (payloadOf reader demand.id).length) →
    wave.counters.payloadBytesRead + (demands.flatMap (demandBytes reader)).length < u64Bound →
    ∃ wave', demands.foldlM (serve (ids.map fun id => (id, payloadOf reader id))) wave = .ok wave' ∧
      wave'.sink = wave.sink ++ demands.flatMap (demandBytes reader) ∧
      wave'.counters.payloadBytesRead =
        wave.counters.payloadBytesRead + (demands.flatMap (demandBytes reader)).length ∧
      wave'.cache = wave.cache := by
  intro demands
  induction demands with
  | nil =>
    intro wave _ _
    exact ⟨wave, rfl, by simp, by simp, rfl⟩
  | cons demand rest ih =>
    intro wave hall hbound
    obtain ⟨hid, hinside⟩ := hall demand mem_cons_self
    rw [flatMap_cons, length_append] at hbound
    obtain ⟨next, hserve, hsink, hcount, hcache⟩ :=
      @serve_eq_ok _ _ reader wave ids demand hid hinside (by omega)
    obtain ⟨wave', hrun, hsink', hcount', hcache'⟩ :=
      @ih next (fun d hd => hall d (mem_cons_of_mem _ hd)) (by omega)
    refine ⟨wave', ?_, ?_, ?_, hcache'.trans hcache⟩
    · rw [List.foldlM_cons, hserve]
      exact hrun
    · rw [hsink', hsink, flatMap_cons, append_assoc]
    · rw [hcount', hcount, flatMap_cons, length_append, add_assoc]

omit [DecidableEq Id] in
theorem mapM_decodeChunkPayload {ids : List Id}
    (h : ∀ id ∈ ids, (payloadOf reader id).length ≤ maximumChunkBytes) :
    (ids.map fun id => @MappingObject.chunk Id (payloadOf reader id)).mapM
      decodeChunkPayload = .ok (ids.map (payloadOf reader)) := by
  induction ids with
  | nil => rfl
  | cons id rest ih =>
    rw [map_cons, mapM_cons, ih fun x hx => h x (mem_cons_of_mem _ hx)]
    have hid : decodeChunkPayload (@MappingObject.chunk Id (payloadOf reader id)) =
        .ok (payloadOf reader id) :=
      check_bind_eq_ok.mpr ⟨by simpa using h id mem_cons_self, rfl⟩
    rw [hid]
    rfl

/-- **A flush** writes what is demanded and demands nothing any more. -/
theorem Sound.flush {base out : List UInt8} (h : Sound reader base wave out)
    (hbound : out.length < u64Bound) :
    ∃ wave', wave.flush reader = .ok wave' ∧ Sound reader base wave' out ∧ wave'.demands = [] ∧
      wave'.cache = wave.cache := by
  by_cases hempty : wave.demands = []
  · refine ⟨wave, ?_, h, hempty, rfl⟩
    rw [Wave.flush, hempty]
    rfl
  obtain ⟨done, hsink, hcount, hout⟩ := h.written
  have hread := readCanonicalBatch_eq fun id hid => (h.stored id hid).1
  have hdecode := @mapM_decodeChunkPayload Id reader wave.distinct fun id hid =>
    (h.stored id hid).2
  have hzip : wave.distinct.zip (wave.distinct.map (payloadOf reader)) =
      wave.distinct.map fun id => (id, payloadOf reader id) := by
    simpa using @zip_map' _ _ _ id (payloadOf reader) wave.distinct
  have hsum : ((wave.distinct.map (payloadOf reader)).map List.length).sum ≤ readWaveBytes := by
    have hle : ∀ n ∈ (wave.distinct.map (payloadOf reader)).map List.length,
        n ≤ maximumChunkBytes := by
      simp only [map_map, mem_map, Function.comp_apply]
      rintro n ⟨id, hid, rfl⟩
      exact (h.stored id hid).2
    refine (sum_le_card_nsmul _ _ hle).trans ?_
    rw [length_map, length_map, nsmul_eq_mul, Nat.cast_id, readWaveBytes]
    exact Nat.mul_le_mul_right _ h.distinct_le
  rw [hout, length_append, ← hcount] at hbound
  obtain ⟨served, hserve, hserved, hserved', hcache⟩ :=
    @foldlM_serve _ _ reader wave.distinct wave.demands
      { wave with counters := { wave.counters with
          payloadBatchesRead := saturatingAdd wave.counters.payloadBatchesRead 1
          payloadIdsRead := saturatingAdd wave.counters.payloadIdsRead wave.distinct.length
          maxPayloadBatch := max wave.counters.maxPayloadBatch wave.distinct.length } }
      h.demanded hbound
  refine ⟨{ served with demands := [], distinct := [] }, ?_, ?_, rfl, hcache⟩
  · rw [Wave.flush, if_neg (by simpa using hempty)]
    refine bind_eq_ok.mpr ⟨_, hread, check_bind_eq_ok.mpr ⟨by simp, bind_eq_ok.mpr ⟨_, hdecode,
      check_bind_eq_ok.mpr ⟨?_, bind_eq_ok.mpr ⟨served, ?_, rfl⟩⟩⟩⟩⟩
    · exact ensure_eq_ok.mpr (decide_eq_true hsum)
    · rw [hzip]
      exact hserve
  · refine ⟨Nat.zero_le _, fun _ => rfl, fun _ hid => absurd hid not_mem_nil,
      fun _ hd => absurd hd not_mem_nil, out, ?_, ?_, (append_nil out).symm⟩
    · rw [hserved, hsink, hout, append_assoc]
    · rw [hserved', hcount, hout, length_append]

theorem Sound.makeRoom (h : Sound reader base wave out) (hbound : out.length < u64Bound) (id : Id) :
    ∃ wave', wave.makeRoom reader id = .ok wave' ∧ Sound reader base wave' out ∧
      (id ∈ wave'.distinct ∨ wave'.distinct.length < readWaveObjects) ∧
      wave'.cache = wave.cache := by
  rw [Wave.makeRoom]
  split_ifs with hfull
  · obtain ⟨wave', hflush, hsound, hdemands, hcache⟩ := h.flush hbound
    refine ⟨wave', hflush, hsound, .inr ?_, hcache⟩
    rw [hsound.idle hdemands, length_nil]
    decide
  · refine ⟨wave, rfl, h, ?_, rfl⟩
    rw [not_and_or, not_not, not_le] at hfull
    exact hfull

/-- **A pushed demand** is served after everything before it. -/
theorem Sound.push (h : Sound reader base wave out) {demand : Demand Id}
    (hstored : reader demand.id = some (.chunk (payloadOf reader demand.id)))
    (hsize : (payloadOf reader demand.id).length ≤ maximumChunkBytes)
    (hinside : demand.sourceOffset + demand.length ≤ (payloadOf reader demand.id).length)
    (hbound : (out ++ demandBytes reader demand).length < u64Bound) :
    ∃ wave', wave.push reader demand.id demand.sourceOffset demand.length = .ok wave' ∧
      Sound reader base wave' (out ++ demandBytes reader demand) ∧ wave'.cache = wave.cache := by
  obtain ⟨room, hroom, hsound, hfree, hcache⟩ :=
    h.makeRoom (by rw [length_append] at hbound; omega) demand.id
  obtain ⟨done, hsink, hcount, hout⟩ := hsound.written
  have hmem : ∀ id, id ∈ pushNew room.distinct demand.id ↔ id ∈ room.distinct ∨ id = demand.id := by
    intro id
    simpa using @mem_foldl_pushNew _ _ [demand.id] id room.distinct
  have hpushed : Sound reader base { room with
      distinct := pushNew room.distinct demand.id
      demands := room.demands ++ [⟨demand.id, demand.sourceOffset, demand.length⟩] }
      (out ++ demandBytes reader demand) := by
    refine ⟨?_, ?_, ?_, ?_, done, hsink, hcount, ?_⟩
    · dsimp only
      rw [pushNew]
      split_ifs with hin
      · exact hsound.distinct_le
      · rw [length_append]
        exact hfree.resolve_left hin
    · intro hnil
      exact absurd hnil (by simp)
    · intro id hid
      rcases (hmem id).mp hid with hid | rfl
      · exact hsound.stored id hid
      · exact ⟨hstored, hsize⟩
    · intro d hd
      rcases mem_append.mp hd with hd | hd
      · exact ⟨(hmem _).mpr (.inl (hsound.demanded d hd).1), (hsound.demanded d hd).2⟩
      · rw [mem_singleton.mp hd]
        exact ⟨(hmem _).mpr (.inr rfl), hinside⟩
    · rw [hout, flatMap_append, append_assoc]
      simp
  have hpush : wave.push reader demand.id demand.sourceOffset demand.length =
      (let next : Wave Id := { room with
        distinct := pushNew room.distinct demand.id
        demands := room.demands ++ [⟨demand.id, demand.sourceOffset, demand.length⟩] }
      if readWaveObjects * 4 ≤ next.demands.length then next.flush reader else .ok next) := by
    rw [Wave.push, hroom]
    rfl
  rw [hpush]
  dsimp only
  split_ifs with hfull
  · obtain ⟨wave', hflush, hsound', -, hcache'⟩ := hpushed.flush hbound
    exact ⟨wave', hflush, hsound', hcache'.trans hcache⟩
  · exact ⟨_, rfl, hpushed, hcache⟩

end Wave

/-! ## The slices of a leaf -/

/-- The part a range asks for of bytes that start at file offset `position`. -/
def clip (range : ByteRange) (position : ℕ) (bytes : List UInt8) : List UInt8 :=
  (bytes.drop (range.start - position)).take (range.stop - max range.start position)

section Clip

variable {reader : Id → Option (MappingObject Id)} {range : ByteRange}

@[simp] theorem clip_nil : clip range position [] = [] := by
  simp [clip]

theorem clip_append (a b : List UInt8) :
    clip range position (a ++ b) =
      clip range position a ++ clip range (position + a.length) b := by
  have hdrop : range.start - position - a.length = range.start - (position + a.length) := by omega
  have htake : range.stop - max range.start position - (a.length - (range.start - position)) =
      range.stop - max range.start (position + a.length) := by omega
  rw [clip, clip, clip, drop_append, take_append, length_drop, hdrop, htake]

theorem clip_of_outside {bytes : List UInt8}
    (h : position + bytes.length ≤ range.start ∨ range.stop ≤ position) :
    clip range position bytes = [] := by
  rw [← length_eq_zero_iff, clip, length_take, length_drop]
  omega

omit [DecidableEq Id] in
theorem InChunk.payload (h : InChunk reader extent) :
    reader extent.payloadObjectId = some (.chunk (payloadOf reader extent.payloadObjectId)) ∧
      extent.sourceOffset + extent.logicalLength ≤
        (payloadOf reader extent.payloadObjectId).length ∧
      (payloadOf reader extent.payloadObjectId).length ≤ maximumChunkBytes := by
  obtain ⟨payload, hstored, hinside, hsize⟩ := h
  have hpayload : payloadOf reader extent.payloadObjectId = payload := by rw [payloadOf, hstored]
  rw [hpayload]
  exact ⟨hstored, hinside, hsize⟩

omit [DecidableEq Id] in
theorem length_sliceBytes (h : InChunk reader extent) :
    (sliceBytes reader extent).length = extent.logicalLength := by
  have := h.payload.2.1
  rw [sliceBytes, length_take, length_drop]
  omega

omit [DecidableEq Id] in
@[simp] theorem bytesOf_cons (extent : ExtentSlice Id) (rest : List (ExtentSlice Id)) :
    bytesOf reader (extent :: rest) = sliceBytes reader extent ++ bytesOf reader rest := rfl

omit [DecidableEq Id] in
@[simp] theorem bytesOf_append (a b : List (ExtentSlice Id)) :
    bytesOf reader (a ++ b) = bytesOf reader a ++ bytesOf reader b := flatMap_append

omit [DecidableEq Id] in
theorem length_bytesOf {extents : List (ExtentSlice Id)}
    (h : ∀ extent ∈ extents, InChunk reader extent) :
    (bytesOf reader extents).length = totalBytes extents := by
  induction extents with
  | nil => rfl
  | cons extent rest ih =>
    rw [bytesOf_cons, length_append, totalBytes_cons,
      length_sliceBytes (h extent mem_cons_self),
      ih fun x hx => h x (mem_cons_of_mem _ hx)]

theorem pushExtent_eq_ok {wave : Wave Id} (hrange : range.start < range.stop)
    (hsound : wave.Sound reader base out) (hin : InChunk reader extent)
    (hposition : position + extent.logicalLength < u64Bound)
    (hbound : (out ++ clip range position (sliceBytes reader extent)).length < u64Bound) :
    ∃ wave', pushExtent reader range extent position wave =
        .ok (position + extent.logicalLength, wave') ∧
      wave'.Sound reader base (out ++ clip range position (sliceBytes reader extent)) ∧
      wave'.cache = wave.cache := by
  have hlength := length_sliceBytes hin
  have hadd : checkedAdd position extent.logicalLength = .ok (position + extent.logicalLength) :=
    checkedAdd_eq_ok.mpr ⟨hposition, rfl⟩
  rw [pushExtent, hadd]
  by_cases hout : position + extent.logicalLength ≤ range.start ∨ range.stop ≤ position
  · have hclip : clip range position (sliceBytes reader extent) = [] :=
      clip_of_outside (by rw [hlength]; exact hout)
    refine ⟨wave, ?_, ?_, rfl⟩
    · exact if_pos hout
    · rw [hclip, append_nil]
      exact hsound
  · obtain ⟨hstored, hinside, hsize⟩ := hin.payload
    rw [not_or, not_le, not_le] at hout
    have hnonempty := extent.nonempty
    obtain ⟨skip, hskip⟩ : ∃ skip, max range.start position - position = skip := ⟨_, rfl⟩
    obtain ⟨length, hlen⟩ :
        ∃ length, min range.stop (position + extent.logicalLength) - position - skip = length :=
      ⟨_, rfl⟩
    have hclip : clip range position (sliceBytes reader extent) =
        Wave.demandBytes reader ⟨extent.payloadObjectId, extent.sourceOffset + skip, length⟩ := by
      have hfirst : range.start - position = skip := by omega
      have hrest : min (range.stop - max range.start position) (extent.logicalLength - skip) =
          length := by omega
      rw [clip, sliceBytes, Wave.demandBytes, drop_take, drop_drop, take_take,
        hfirst, hrest]
    rw [hclip] at hbound ⊢
    have hdemand : extent.sourceOffset + skip + length ≤
        (payloadOf reader extent.payloadObjectId).length := by omega
    obtain ⟨wave', hpush, hsound', hcache⟩ := hsound.push hstored hsize hdemand hbound
    refine ⟨wave', ?_, hsound', hcache⟩
    change (if _ then _ else _) = _
    rw [if_neg (by omega), hskip, hlen]
    refine check_bind_eq_ok.mpr ⟨?_, bind_eq_ok.mpr ⟨wave', hpush, rfl⟩⟩
    have hsome : length ≠ 0 := by omega
    simpa using hsome

/-- **The slices of a leaf** serve the clip of the leaf's bytes. -/
theorem pushExtents_eq_ok (hrange : range.start < range.stop) :
    ∀ {extents : List (ExtentSlice Id)} {position : ℕ} {wave : Wave Id} {out : List UInt8},
    wave.Sound reader base out →
    (∀ extent ∈ extents, InChunk reader extent) → position + totalBytes extents < u64Bound →
    (out ++ clip range position (bytesOf reader extents)).length < u64Bound →
    ∃ wave', pushExtents reader range extents position wave = .ok wave' ∧
      wave'.Sound reader base (out ++ clip range position (bytesOf reader extents)) ∧
      wave'.cache = wave.cache := by
  intro extents
  induction extents with
  | nil =>
    intro position wave out hsound _ _ _
    refine ⟨wave, rfl, ?_, rfl⟩
    simpa [bytesOf] using hsound
  | cons extent rest ih =>
    intro position wave out hsound hin hposition hbound
    have hfirst := hin extent mem_cons_self
    rw [totalBytes_cons] at hposition
    rw [bytesOf_cons, clip_append, length_sliceBytes hfirst, ← append_assoc] at hbound ⊢
    have hhead : position + extent.logicalLength < u64Bound := by omega
    have htail : position + extent.logicalLength + totalBytes rest < u64Bound := by omega
    have hsome : (out ++ clip range position (sliceBytes reader extent)).length < u64Bound := by
      rw [length_append] at hbound
      omega
    obtain ⟨next, hpush, hnext, hcache⟩ := pushExtent_eq_ok hrange hsound hfirst hhead hsome
    obtain ⟨wave', hrun, hsound', hcache'⟩ :=
      ih hnext (fun x hx => hin x (mem_cons_of_mem _ hx)) htail hbound
    refine ⟨wave', ?_, hsound', hcache'.trans hcache⟩
    rw [pushExtents, hpush]
    exact hrun

end Clip

end LayerFs
