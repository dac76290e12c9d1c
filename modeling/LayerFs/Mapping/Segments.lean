import LayerFs.Mapping.Descend

/-!
# Ranges of a chunked file

* `rangeBytes` — the file's bytes of a range.
-/

namespace LayerFs

open List

variable {Id : Type} [DecidableEq Id] {reader : Id → Option (MappingObject Id)}
  {state : FileState Id} {extents : List (ExtentSlice Id)}

def rangeBytes (reader : Id → Option (MappingObject Id)) (extents : List (ExtentSlice Id))
    (range : ByteRange) : List UInt8 :=
  ((bytesOf reader extents).drop range.start).take (range.stop - range.start)

/-- Ascending ranges of a file of the given length, from `first` on. -/
def AscendingRanges (length : ℕ) : ℕ → List ByteRange → Prop
  | _, [] => True
  | first, range :: rest => first ≤ range.start ∧ range.start ≤ range.stop ∧
      range.stop ≤ length ∧ AscendingRanges length range.stop rest

/-! ## One range -/

theorem Mapped.level_le {level : ℕ} {root : Bool} {id : Id}
    (h : Mapped reader level root id extents) : level ≤ maximumLevel := by
  cases level with
  | zero => exact Nat.zero_le _
  | succ level =>
    obtain ⟨children, parts, -, -, hvalid, -⟩ := h
    have hchecks := (check_bind_eq_ok.mp (check_bind_eq_ok.mp hvalid).2).1
    simp only [ensure_eq_ok, Bool.and_eq_true, decide_eq_true_eq] at hchecks
    exact hchecks.1.2

theorem ChunkedFile.level_rootFrontier (hfile : ChunkedFile reader state extents)
    {range : ByteRange} (hstop : 0 < range.stop) :
    Level reader range state.treeLevel [rootFrontier state] := by
  have hslices := hfile.mapped.slicesBelow_eq
  refine ⟨fun node hnode => ?_, pairwise_singleton _ _⟩
  obtain rfl := mem_singleton.mp hnode
  have hbelow : slicesBelow reader state.treeLevel (rootFrontier state).id = extents := hslices
  refine ⟨rfl, ?_, ?_, ?_, ?_, hstop⟩
  · rw [hbelow]
    exact hfile.mapped
  · intro expected hexpected
    rw [hbelow, ← hfile.logicalLen_eq, ← hfile.extentCount_eq]
    exact (Option.some.inj hexpected).symm
  · rw [nodeStop, hbelow, ← hfile.logicalLen_eq]
    exact (Nat.zero_add _).symm ▸ hfile.logicalLen_lt
  · rw [hbelow]
    exact hfile.inChunk

theorem ChunkedFile.served_rootFrontier (hfile : ChunkedFile reader state extents)
    (range : ByteRange) :
    [rootFrontier state].flatMap (servedBelow reader range state.treeLevel) =
      rangeBytes reader extents range := by
  have hbelow : slicesBelow reader state.treeLevel (rootFrontier state).id = extents :=
    hfile.mapped.slicesBelow_eq
  rw [flatMap_singleton, servedBelow, hbelow, clip, rangeBytes]
  congr 2
  exact Nat.max_zero _

theorem ChunkedFile.length_rangeBytes (hfile : ChunkedFile reader state extents)
    {range : ByteRange} (hstop : range.stop ≤ state.logicalLen) :
    (rangeBytes reader extents range).length = range.stop - range.start := by
  have hlength := length_bytesOf hfile.inChunk
  rw [← hfile.logicalLen_eq] at hlength
  rw [rangeBytes, length_take, length_drop]
  omega

/-- **One range** through a cache of faithful pages. -/
theorem serveRange_servedIf (hfile : ChunkedFile reader state extents) {range : ByteRange}
    (hrange : range.start < range.stop) (hstop : range.stop ≤ state.logicalLen)
    {cache : PageCache Id} (hfaithful : cache.Faithful reader) (sink : List UInt8) :
    ServedIf (Fits cache.limit cache.pages.keySet (navigation reader state range))
      (fun wave : Wave Id => wave.sink = sink ++ rangeBytes reader extents range ∧
        Retains reader cache (navigation reader state range) wave.cache)
      (serveRange reader range state sink cache) := by
  have hserved := hfile.served_rootFrontier range
  have hlength := hfile.length_rangeBytes hstop
  have hshort : (rangeBytes reader extents range).length < u64Bound := by
    have := hfile.logicalLen_lt
    omega
  have hidle : Wave.Sound reader sink (⟨sink, cache, [], [], .zero⟩ : Wave Id) [] :=
    ⟨Nat.zero_le _, fun _ => rfl, fun _ hid => absurd hid not_mem_nil,
      fun _ hd => absurd hd not_mem_nil, [], (append_nil sink).symm, rfl, rfl⟩
  have hwalk := @traverseLevels_servedIf _ _ reader range sink hrange state.treeLevel
    (maximumLevel + 1) [rootFrontier state] _ [] (Nat.lt_succ_of_le hfile.mapped.level_le)
    (hfile.level_rootFrontier (by omega)) hfaithful hidle
    (by rw [hserved, nil_append]; exact hshort)
  rw [navigation, if_neg (by omega)]
  refine (hwalk.bind (d := True) ?_).congr (iff_of_eq (and_true _)).symm fun _ h => h
  rintro wave ⟨hsound, hretains⟩
  rw [hserved, nil_append] at hsound
  obtain ⟨last, hflush, hlast, hdemands, hcache⟩ := hsound.flush hshort
  obtain ⟨done, hsink, hcount, hdone⟩ := hlast.written
  rw [hdemands, flatMap_nil, append_nil] at hdone
  subst hdone
  refine .of_ok (bind_eq_ok.mpr ⟨last, hflush, check_bind_eq_ok.mpr ⟨?_, rfl⟩⟩) ⟨hsink, ?_⟩
  · rw [hcount, hlength, beq_self_eq_true]
    rfl
  · rw [hcache]
    exact hretains

theorem new_faithful : (PageCache.new : PageCache Id).Faithful reader :=
  fun key page hpage => absurd hpage (by simp [PageCache.get, PageCache.new, PageCache.bounded])

/-- **One range** through a cache of its own. -/
theorem readRange_servedIf (hfile : ChunkedFile reader state extents) {range : ByteRange}
    (hrange : range.start ≤ range.stop) (hstop : range.stop ≤ state.logicalLen)
    (sink : List UInt8) :
    ServedIf (Fits readNavigationCachePages ∅ (navigation reader state range))
      (fun result : List UInt8 × ReadCounters =>
        result.1 = sink ++ rangeBytes reader extents range)
      (readRange reader range state sink) := by
  have hcheck : (decide (range.start ≤ range.stop) && decide (range.stop ≤ state.logicalLen)) =
      true := by simp [hrange, hstop]
  rw [readRange, hcheck]
  change ServedIf _ _ (ite _ _ _)
  split_ifs with hempty
  · have hnone : rangeBytes reader extents range = [] := by
      rw [rangeBytes, hempty, Nat.sub_self, take_zero]
    rw [navigation, if_pos hempty, hnone, append_nil]
    exact .of_ok rfl rfl
  · refine ((serveRange_servedIf hfile (by omega) hstop new_faithful sink).bind (d := True)
      ?_).congr (iff_of_eq (and_true _)).symm fun _ h => h
    rintro wave ⟨hsink, -⟩
    exact .of_ok rfl hsink

/-! ## Sequences of ranges -/

theorem readSegment_servedIf (hfile : ChunkedFile reader state extents) {cursor : RangeCursor Id}
    (hstate : cursor.state = state) {range : ByteRange} (hfirst : cursor.segmentStart ≤ range.start)
    (hrange : range.start ≤ range.stop) (hstop : range.stop ≤ state.logicalLen)
    {cache : PageCache Id} (hfaithful : cache.Faithful reader) (sink : List UInt8) :
    ServedIf (Fits cache.limit cache.pages.keySet (navigation reader state range))
      (fun result : RangeCursor Id × List UInt8 × PageCache Id =>
        result.1.state = state ∧ result.1.segmentStart = range.stop ∧
        result.2.1 = sink ++ rangeBytes reader extents range ∧
        Retains reader cache (navigation reader state range) result.2.2)
      (cursor.readSegment reader range sink cache) := by
  subst hstate
  have hcheck : (decide (range.start ≤ range.stop) && decide (range.stop ≤ cursor.state.logicalLen)
      && decide (cursor.segmentStart ≤ range.start)) = true := by simp [hfirst, hrange, hstop]
  rw [RangeCursor.readSegment, hcheck]
  change ServedIf _ _ (ite _ _ _)
  split_ifs with hempty
  · have hnone : rangeBytes reader extents range = [] := by
      rw [rangeBytes, hempty, Nat.sub_self, take_zero]
    rw [navigation, if_pos hempty, hnone, append_nil]
    exact .of_ok rfl ⟨rfl, rfl, rfl, rfl, hfaithful, rfl⟩
  · refine ((serveRange_servedIf hfile (by omega) hstop hfaithful sink).bind (d := True)
      ?_).congr (iff_of_eq (and_true _)).symm fun _ h => h
    rintro wave ⟨hsink, hretains⟩
    exact .of_ok rfl ⟨rfl, rfl, hsink, hretains⟩

theorem readSegments_servedIf (hfile : ChunkedFile reader state extents) :
    ∀ {ranges : List ByteRange} {cursor : RangeCursor Id} {cache : PageCache Id}
      {sink : List UInt8},
    cursor.state = state → AscendingRanges state.logicalLen cursor.segmentStart ranges →
    cache.Faithful reader →
    ServedIf (Fits cache.limit cache.pages.keySet (ranges.flatMap (navigation reader state)))
      (fun result : RangeCursor Id × List UInt8 × PageCache Id =>
        result.2.1 = sink ++ ranges.flatMap (rangeBytes reader extents))
      (cursor.readSegments reader ranges sink cache) := by
  intro ranges
  induction ranges with
  | nil =>
    intro cursor cache sink _ _ _
    exact .of_ok rfl (by simp)
  | cons range rest ih =>
    intro cursor cache sink hstate hascending hfaithful
    obtain ⟨hfirst, hrange, hstop, hrest⟩ := hascending
    rw [flatMap_cons, fits_append, RangeCursor.readSegments]
    refine (readSegment_servedIf hfile hstate hfirst hrange hstop hfaithful sink).bind ?_
    rintro ⟨next, written, pages⟩ ⟨hnext, hposition, hwritten, hretains⟩
    dsimp only at hnext hposition hwritten hretains ⊢
    rw [← hposition] at hrest
    refine (@ih next pages written hnext hrest hretains.faithful).congr ?_ ?_
    · rw [hretains.keySet_eq, hretains.limit_eq]
    · intro result hresult
      rw [hresult, hwritten, flatMap_cons, append_assoc]

theorem AscendingRanges.of_prefix {length : ℕ} : ∀ {first : ℕ} {served later : List ByteRange},
    AscendingRanges length first (served ++ later) → AscendingRanges length first served := by
  intro first served
  induction served generalizing first with
  | nil => exact fun _ => trivial
  | cons range rest ih =>
    rintro later ⟨hfirst, hrange, hstop, hrest⟩
    exact ⟨hfirst, hrange, hstop, ih hrest⟩

/-- **Exactly the served ranges**: over a valid tree and a cache of faithful pages, every read of an
ascending sequence appends the file's bytes of its range precisely when the navigation of the
sequence fits the cache, and a single range precisely when its navigation fits a cache of its
own. -/
theorem readSegments_served_iff (hfile : ChunkedFile reader state extents) :
    (∀ (cache : PageCache Id) (ranges : List ByteRange) (sink : List UInt8),
      cache.Faithful reader → AscendingRanges state.logicalLen 0 ranges →
      ((∀ served, served <+: ranges → ∃ cursor pages,
          (RangeCursor.new state).readSegments reader served sink cache =
            .ok (cursor, sink ++ served.flatMap (rangeBytes reader extents), pages)) ↔
        Fits cache.limit cache.pages.keySet (ranges.flatMap (navigation reader state)))) ∧
    (∀ (range : ByteRange) (sink : List UInt8), range.start ≤ range.stop →
      range.stop ≤ state.logicalLen →
      ((∃ counters, readRange reader range state sink =
          .ok (sink ++ rangeBytes reader extents range, counters)) ↔
        Fits readNavigationCachePages ∅ (navigation reader state range))) := by
  refine ⟨fun cache ranges sink hfaithful hascending => ⟨fun h => ?_, ?_⟩, ?_⟩
  · obtain ⟨cursor, pages, hread⟩ := h ranges (prefix_refl _)
    exact (@readSegments_servedIf _ _ reader state extents hfile ranges (.new state) cache sink rfl
      hascending hfaithful).ok_iff.mp ⟨_, hread, rfl⟩
  · rintro hfits served ⟨later, rfl⟩
    rw [flatMap_append, fits_append] at hfits
    obtain ⟨⟨cursor, written, pages⟩, hread, hwritten⟩ :=
      (@readSegments_servedIf _ _ reader state extents hfile served (.new state) cache sink rfl
        hascending.of_prefix hfaithful).1 hfits.1
    refine ⟨cursor, pages, ?_⟩
    rw [hread]
    dsimp only at hwritten
    rw [hwritten]
  · intro range sink hrange hstop
    have hread := readRange_servedIf hfile hrange hstop sink
    refine ⟨?_, fun hfits => ?_⟩
    · rintro ⟨counters, hok⟩
      exact hread.ok_iff.mp ⟨_, hok, rfl⟩
    · obtain ⟨⟨written, counters⟩, hok, rfl⟩ := hread.1 hfits
      exact ⟨counters, hok⟩

/-! ## Two leaves -/

def pairSlice (id : ℕ) : ExtentSlice ℕ := ⟨id, 0, 1, by decide, by decide⟩

def pairLeaf (id : ℕ) : List (ExtentSlice ℕ) := List.replicate 64 (pairSlice id)

/-- A root over two leaves, each of them one byte sixty-four times. -/
def pairStore : ℕ → Option (MappingObject ℕ)
  | 0 => some (.page (.branch 1 128 128 [⟨64, 64, 1⟩, ⟨128, 128, 2⟩]))
  | 1 => some (.page (.leaf 64 (pairLeaf 3)))
  | 2 => some (.page (.leaf 64 (pairLeaf 4)))
  | 3 => some (.chunk [0x61])
  | 4 => some (.chunk [0x62])
  | _ => none

def pairState : FileState ℕ := ⟨128, 128, 1, 0⟩

/-- The first byte, and the rest of the first leaf with one byte of the second. -/
def pairRanges : List ByteRange := [⟨0, 1⟩, ⟨1, 65⟩]

theorem totalBytes_pairLeaf (id : ℕ) : totalBytes (pairLeaf id) = 64 := by
  rw [totalBytes, pairLeaf, map_replicate, sum_replicate]
  rfl

theorem pairFile : ChunkedFile pairStore pairState (pairLeaf 3 ++ pairLeaf 4) := by
  have hbytes : totalBytes (pairLeaf 3 ++ pairLeaf 4) = 128 := by
    rw [totalBytes_append, totalBytes_pairLeaf, totalBytes_pairLeaf]
  have hcount : (pairLeaf 3 ++ pairLeaf 4).length = 128 := by simp [pairLeaf]
  refine ⟨⟨[⟨64, 64, 1⟩, ⟨128, 128, 2⟩], [pairLeaf 3, pairLeaf 4], ?_, ?_, ?_, ?_, ?_, ?_⟩,
    hbytes.symm, hcount.symm, by decide, ?_⟩
  · rw [flatten_cons, flatten_singleton]
  · rw [hbytes, hcount]
    rfl
  · rw [hbytes, hcount]
    rfl
  · simp [cumulative, totalBytes_pairLeaf]
  · simp [cumulative, pairLeaf]
  · refine .cons ⟨?_, ?_⟩ (.cons ⟨?_, ?_⟩ .nil)
    · rw [totalBytes_pairLeaf]
      rfl
    · rw [totalBytes_pairLeaf]
      rfl
    · rw [totalBytes_pairLeaf]
      rfl
    · rw [totalBytes_pairLeaf]
      rfl
  · intro extent hextent
    rcases mem_append.mp hextent with h | h
    · obtain rfl := eq_of_mem_replicate h
      exact ⟨[0x61], rfl, by decide, by decide⟩
    · obtain rfl := eq_of_mem_replicate h
      exact ⟨[0x62], rfl, by decide, by decide⟩

theorem pairRanges_ascending : AscendingRanges 128 0 pairRanges := by
  refine ⟨?_, ?_, ?_, ?_, ?_, ?_, trivial⟩ <;> decide

theorem bounded_faithful (limit : ℕ) : (PageCache.bounded limit).Faithful pairStore :=
  fun key page hpage => absurd hpage (by simp [PageCache.get, PageCache.bounded])

/-- Through a cache of three pages both ranges are read, and so is one range over both. -/
theorem readSegments_pair :
    (∃ cursor pages, (RangeCursor.new pairState).readSegments pairStore pairRanges [] (.bounded 3) =
      .ok (cursor, List.replicate 64 0x61 ++ [0x62], pages)) ∧
    (∃ counters, readRange pairStore ⟨0, 65⟩ pairState [] =
      .ok (List.replicate 64 0x61 ++ [0x62], counters)) := by
  have hsegments := ((readSegments_served_iff pairFile).1 (.bounded 3) pairRanges []
    (bounded_faithful 3) pairRanges_ascending).mpr (by decide +kernel) pairRanges
    (prefix_refl _)
  have hrange := ((readSegments_served_iff pairFile).2 ⟨0, 65⟩ [] (by decide) (by decide)).mpr
    (by decide +kernel)
  have hbytes : pairRanges.flatMap (rangeBytes pairStore (pairLeaf 3 ++ pairLeaf 4)) =
      List.replicate 64 0x61 ++ [0x62] := by decide +kernel
  have hall : rangeBytes pairStore (pairLeaf 3 ++ pairLeaf 4) ⟨0, 65⟩ =
      List.replicate 64 0x61 ++ [0x62] := by decide +kernel
  rw [hbytes] at hsegments
  rw [hall] at hrange
  exact ⟨hsegments, hrange⟩

/-- **A hit that is emptied away**: through a cache of two pages the second range meets the
retained first leaf, empties the cache for the second leaf, and is refused. -/
theorem readSegments_evicts_hit :
    ChunkedFile pairStore pairState (pairLeaf 3 ++ pairLeaf 4) ∧
    (PageCache.bounded 2).Faithful pairStore ∧
    AscendingRanges pairState.logicalLen 0 pairRanges ∧
    (RangeCursor.new pairState).readSegments pairStore pairRanges [] (.bounded 2) =
      .error .missingObject :=
  ⟨pairFile, bounded_faithful 2, pairRanges_ascending, rfl⟩

end LayerFs
