import LayerFs.Compare.Difference
import LayerFs.Merge.Text

/-!
# Laws of the three-way line merge (`merge/text.rs`)

A merge is a list of segments, agreed lines and conflicts, which no label changes; the merged
text and its hunks are read off the segments.

* `segments_left`, `segments_both` — **an unchanged side loses to the other**, and equal sides
  agree.
-/

namespace LayerFs

open List

variable {l : Line} {P : Line → Prop} {mo mt : List (Option ℕ)} {ls : List Line} {st : MergeState}
  {j : ℕ} (labels : Labels) (b o t : List Line) (n : ℕ)

/-! ## Segments -/

/-- One piece of a merge. -/
inductive Segment where
  | agreed (ls : List Line)
  | conflict (ours theirs : List Line)
  deriving DecidableEq, Repr

namespace Segment

def swap : Segment → Segment
  | agreed ls => agreed ls
  | conflict ours theirs => conflict theirs ours

def written (labels : Labels) : Segment → List Line
  | agreed ls => ls
  | conflict ours theirs => markerBlock labels ours theirs

def count : Segment → ℕ
  | agreed ls => ls.length
  | conflict ours theirs => ours.length + theirs.length + 3

theorem length_written (s : Segment) : (s.written labels).length = s.count := by
  cases s with
  | agreed ls => rfl
  | conflict ours theirs =>
    simp only [written, markerBlock, count, length_append, length_cons, length_nil]
    omega

end Segment

def writtenLines (labels : Labels) (segments : List Segment) : List Line :=
  segments.flatMap (Segment.written labels)

/-- The hunks of segments behind `start` lines. -/
def hunksFrom (start : ℕ) : List Segment → List Hunk
  | [] => []
  | .agreed ls :: rest => hunksFrom (start + ls.length) rest
  | .conflict ours theirs :: rest =>
    ⟨start + 1, ours, theirs⟩ :: hunksFrom (start + (ours.length + theirs.length + 3)) rest

def writtenMerge (labels : Labels) (segments : List Segment) : TextMerge :=
  ⟨joinLines (writtenLines labels segments), hunksFrom 0 segments⟩

theorem writtenLines_append (s s' : List Segment) :
    writtenLines labels (s ++ s') = writtenLines labels s ++ writtenLines labels s' :=
  flatMap_append

theorem hunksFrom_append (s s' : List Segment) (start : ℕ) :
    hunksFrom start (s ++ s')
      = hunksFrom start s ++ hunksFrom (start + (writtenLines labels s).length) s' := by
  induction s generalizing start with
  | nil => rfl
  | cons segment rest ih =>
    have hcount : (writtenLines labels (segment :: rest)).length
        = segment.count + (writtenLines labels rest).length := by
      rw [writtenLines, flatMap_cons, length_append, segment.length_written]
      rfl
    rw [hcount, ← Nat.add_assoc]
    cases segment with
    | agreed ls => exact ih (start + ls.length)
    | conflict ours theirs => exact congrArg (⟨start + 1, ours, theirs⟩ :: ·) (ih _)

/-! ## The merge without its writer -/

/-- The segments so far and the next line of each text. -/
structure SegmentState where
  segments : List Segment := []
  bi : ℕ := 0
  oi : ℕ := 0
  ti : ℕ := 0

def chunkSegment (cb co ct : List Line) : Segment :=
  if co = cb then .agreed ct else if ct = cb ∨ co = ct then .agreed co else .conflict co ct

/-- One base line: matched on both sides past what was merged, it ends a chunk. -/
def segmentLine (b o t : List Line) (mo mt : List (Option ℕ)) (st : SegmentState) (k : ℕ) :
    SegmentState :=
  match mo[k]?.join, mt[k]?.join with
  | some atO, some atT =>
    if atO < st.oi ∨ atT < st.ti then st
    else
      ⟨st.segments ++ [chunkSegment (slice b st.bi k) (slice o st.oi atO) (slice t st.ti atT),
        .agreed (slice b k (k + 1))], k + 1, atO + 1, atT + 1⟩
  | _, _ => st

/-- The segments of the first `n` base lines. -/
def segmentsTo (b o t : List Line) (n : ℕ) : SegmentState :=
  (List.range n).foldl (segmentLine b o t (matchLines b o) (matchLines b t)) {}

def lastSegment (b o t : List Line) (st : SegmentState) : Segment :=
  chunkSegment (slice b st.bi b.length) (slice o st.oi o.length) (slice t st.ti t.length)

def segments (b o t : List Line) : List Segment :=
  (segmentsTo b o t b.length).segments ++ [lastSegment b o t (segmentsTo b o t b.length)]

theorem segmentsTo_succ :
    segmentsTo b o t (n + 1)
      = segmentLine b o t (matchLines b o) (matchLines b t) (segmentsTo b o t n) n := by
  rw [segmentsTo, range_succ, foldl_append]
  rfl

/-- The merge has written these segments. -/
structure SegmentsWritten (labels : Labels) (st : MergeState) (s : SegmentState) : Prop where
  out : st.out = writtenLines labels s.segments
  hunks : st.hunks = hunksFrom 0 s.segments
  bi : st.bi = s.bi
  oi : st.oi = s.oi
  ti : st.ti = s.ti

theorem chunk_writes {labels : Labels} {s : SegmentState} (h : SegmentsWritten labels st s)
    (cb co ct : List Line) :
    (chunk labels st cb co ct).out = writtenLines labels (s.segments ++ [chunkSegment cb co ct]) ∧
      (chunk labels st cb co ct).hunks = hunksFrom 0 (s.segments ++ [chunkSegment cb co ct]) := by
  rw [writtenLines_append, hunksFrom_append labels, ← h.out, ← h.hunks, chunk, chunkSegment,
    Nat.zero_add]
  split_ifs <;> simp [writtenLines, Segment.written, hunksFrom]

theorem mergeLine_writes {labels : Labels} {b o t : List Line} {s : SegmentState}
    (h : SegmentsWritten labels st s) (k : ℕ) :
    SegmentsWritten labels (mergeLine labels b o t mo mt st k) (segmentLine b o t mo mt s k) := by
  rw [mergeLine, segmentLine, h.oi, h.ti, h.bi]
  rcases mo[k]?.join with _ | atO
  · exact h
  rcases mt[k]?.join with _ | atT
  · exact h
  dsimp only
  split_ifs
  · exact h
  · obtain ⟨hout, hhunks⟩ := chunk_writes h (slice b s.bi k) (slice o s.oi atO) (slice t s.ti atT)
    have hsplit : ∀ segment, s.segments ++ [segment, .agreed (slice b k (k + 1))]
        = s.segments ++ [segment] ++ [.agreed (slice b k (k + 1))] := by simp
    refine ⟨?_, ?_, rfl, rfl, rfl⟩
    · rw [hout, hsplit, writtenLines_append _ (_ ++ _)]
      simp [writtenLines, Segment.written]
    · rw [hhunks, hsplit, hunksFrom_append labels (_ ++ _)]
      simp [hunksFrom]

/-- **A merge writes its segments**, with any labels. -/
theorem merge3_eq (base ours theirs : List ℕ) (labels : Labels) :
    merge3 base ours theirs labels
      = writtenMerge labels (segments (lines base) (lines ours) (lines theirs)) := by
  have hfold : ∀ (ks : List ℕ) (st : MergeState) (s : SegmentState), SegmentsWritten labels st s →
      SegmentsWritten labels
        (ks.foldl (mergeLine labels (lines base) (lines ours) (lines theirs)
          (matchLines (lines base) (lines ours)) (matchLines (lines base) (lines theirs))) st)
        (ks.foldl (segmentLine (lines base) (lines ours) (lines theirs)
          (matchLines (lines base) (lines ours)) (matchLines (lines base) (lines theirs))) s) := by
    intro ks
    induction ks with
    | nil => exact fun _ _ h => h
    | cons k ks ih => exact fun _ _ h => ih _ _ (mergeLine_writes h k)
  have hrun := hfold (List.range (lines base).length) {} {} ⟨rfl, rfl, rfl, rfl, rfl⟩
  have hlast := chunk_writes hrun
  rw [merge3, writtenMerge, segments, lastSegment]
  simp only [hlast, hrun.bi, hrun.oi, hrun.ti]
  rfl

/-! ## Swapping the sides -/

theorem chunkSegment_swap (cb co ct : List Line) :
    chunkSegment cb ct co = (chunkSegment cb co ct).swap := by
  simp only [chunkSegment]
  split_ifs <;> simp_all [Segment.swap]

def SegmentState.swap (s : SegmentState) : SegmentState :=
  ⟨s.segments.map Segment.swap, s.bi, s.ti, s.oi⟩

theorem segmentLine_swap (mo mt : List (Option ℕ)) (s : SegmentState) (k : ℕ) :
    segmentLine b t o mt mo s.swap k = (segmentLine b o t mo mt s k).swap := by
  rw [segmentLine, segmentLine]
  rcases mo[k]?.join with _ | atO
  · rcases mt[k]?.join with _ | atT <;> rfl
  rcases mt[k]?.join with _ | atT
  · rfl
  by_cases h : atO < s.oi ∨ atT < s.ti
  · exact (if_pos h.symm).trans (congrArg SegmentState.swap (if_pos h).symm)
  · refine (if_neg fun h' => h h'.symm).trans
      (Eq.trans ?_ (congrArg SegmentState.swap (if_neg h).symm))
    have hchunk := chunkSegment_swap (slice b s.bi k) (slice o s.oi atO) (slice t s.ti atT)
    rw [SegmentState.swap, SegmentState.swap, map_append, map_cons, ← hchunk]
    rfl

theorem segmentsTo_swap : segmentsTo b t o n = (segmentsTo b o t n).swap := by
  induction n with
  | zero => rfl
  | succ n ih => rw [segmentsTo_succ, segmentsTo_succ, ih, segmentLine_swap]

/-- **Swapping the sides swaps the halves of every conflict** and nothing else. -/
theorem segments_swap : segments b t o = (segments b o t).map Segment.swap := by
  rw [segments, segments, segmentsTo_swap, map_append]
  refine congrArg _ (congrArg ([·]) ?_)
  exact chunkSegment_swap _ _ _

/-! ## Sides without a conflict -/

def Agreed (segments : List Segment) (ls : List Line) : Prop :=
  ∃ pieces : List (List Line), segments = pieces.map Segment.agreed ∧ pieces.flatten = ls

theorem Agreed.append {s : List Segment} (h : Agreed s ls) (l : List Line) :
    Agreed (s ++ [.agreed l]) (ls ++ l) := by
  obtain ⟨pieces, rfl, rfl⟩ := h
  exact ⟨pieces ++ [l], by simp, by simp⟩

theorem Agreed.swap {s : List Segment} (h : Agreed s ls) : Agreed (s.map Segment.swap) ls := by
  obtain ⟨pieces, rfl, rfl⟩ := h
  refine ⟨pieces, ?_, rfl⟩
  rw [map_map]
  rfl

/-- **Agreed lines are written without a hunk.** -/
theorem Agreed.writtenMerge {s : List Segment} (h : Agreed s ls) (labels : Labels) :
    writtenMerge labels s = ⟨joinLines ls, []⟩ := by
  obtain ⟨pieces, rfl, rfl⟩ := h
  have hlines : writtenLines labels (pieces.map Segment.agreed) = pieces.flatten := by
    rw [writtenLines, flatMap_map, flatten_eq_flatMap]
    rfl
  have hhunks : ∀ (pieces : List (List Line)) (start : ℕ),
      hunksFrom start (pieces.map Segment.agreed) = [] := by
    intro pieces
    induction pieces with
    | nil => exact fun _ => rfl
    | cons piece rest ih => exact fun start => ih (start + piece.length)
  rw [LayerFs.writtenMerge, hlines, hhunks]

theorem take_append_slice {i : ℕ} (h : i ≤ j) : ls.take i ++ slice ls i j = ls.take j := by
  have htake : ls.take i = (ls.take j).take i := by rw [take_take, Nat.min_eq_left h]
  rw [htake, slice, take_append_drop]

theorem slice_one {k : ℕ} (h : ls[k]? = some l) : slice ls k (k + 1) = [l] := by
  obtain ⟨hk, rfl⟩ := List.getElem?_eq_some_iff.mp h
  rw [slice, drop_take, Nat.add_sub_cancel_left, drop_eq_getElem_cons hk,
    take_succ_cons, take_zero]

theorem diffLines_self (x : List Line) : diffLines x x = x.map (⟨.same, ·⟩) := by
  have hwalk : ∀ (fuel : ℕ) (x : List Line) (rows : List (List ℕ)), x.length ≤ fuel →
      tableWalk fuel x x rows = x.map (⟨.same, ·⟩) := by
    intro fuel
    induction fuel with
    | zero =>
      intro x rows hx
      rw [eq_nil_of_length_eq_zero (Nat.le_zero.mp hx)]
      rfl
    | succ fuel ih =>
      intro x rows hx
      rcases x with _ | ⟨a, x⟩
      · rfl
      · rw [tableWalk, if_pos rfl, ih x _ (Nat.le_of_succ_le_succ hx), map_cons]
  have hfront : ∀ x : List Line, commonPrefix x x = x.length := by
    intro x
    induction x with
    | nil => rfl
    | cons a x ih => rw [commonPrefix, if_pos rfl, ih, length_cons]
  rw [diffLines]
  split_ifs with hcells
  · exact hwalk _ x _ (Nat.le_add_left _ _)
  · simp [hfront, tableDiff, table, tableWalk, cells, maximumDiffCells]

theorem matchLines_self {x : List Line} {k : ℕ} (h : (matchLines x x)[k]? = some (some j)) :
    j = k := by
  have hmatch : ∀ (ls : List Line) (n k : ℕ),
      (matchFrom n (ls.map (⟨.same, ·⟩)))[k]? = some (some j) → j = n + k := by
    intro ls
    induction ls with
    | nil => simp [matchFrom]
    | cons l ls ih =>
      intro n k hk
      rcases k with _ | k
      · simpa [matchFrom, eq_comm] using hk
      · have hrest := ih (n + 1) k (by simpa [matchFrom] using hk)
        omega
  rw [matchLines, diffLines_self] at h
  have hj := hmatch x 0 k h
  omega

theorem chunkSegment_agreed {cb co ct : List Line} (h : co = cb ∨ co = ct) :
    chunkSegment cb co ct = .agreed ct := by
  rw [chunkSegment]
  split_ifs with hbase hside
  · rfl
  · rw [h.resolve_left hbase]
  · exact absurd (.inr (h.resolve_left hbase)) hside

/-- Ours is the base or theirs, and the merge so far agrees on theirs. -/
structure FollowsTheirs (b o t : List Line) (n : ℕ) (s : SegmentState) : Prop where
  agreed : Agreed s.segments (t.take s.ti)
  ti_le : s.ti ≤ t.length
  bi_le : s.bi ≤ n
  /-- no later match lies before the next line of theirs -/
  next : ∀ {k j : ℕ}, n ≤ k → (matchLines b t)[k]? = some (some j) → s.ti ≤ j
  side : (o = b ∧ s.oi = s.bi) ∨ (o = t ∧ s.oi = s.ti)

theorem FollowsTheirs.step {b o t : List Line} {n : ℕ} {s : SegmentState}
    (h : FollowsTheirs b o t n s) :
    FollowsTheirs b o t (n + 1)
      (segmentLine b o t (matchLines b o) (matchLines b t) s n) := by
  have hstay : FollowsTheirs b o t (n + 1) s :=
    ⟨h.agreed, h.ti_le, h.bi_le.trans (Nat.le_succ n), fun hk hj => h.next (by omega) hj, h.side⟩
  rw [segmentLine]
  rcases hO : (matchLines b o)[n]?.join with _ | atO
  · exact hstay
  rcases hT : (matchLines b t)[n]?.join with _ | atT
  · exact hstay
  dsimp only
  split_ifs with hpassed
  · exact hstay
  have hO := Option.join_eq_some_iff.mp hO
  have hT := Option.join_eq_some_iff.mp hT
  have hti : s.ti ≤ atT := h.next le_rfl hT
  obtain ⟨l, hb, ht⟩ := (matchLines_paired b t).equal hT
  have hchunk : chunkSegment (slice b s.bi n) (slice o s.oi atO) (slice t s.ti atT)
      = .agreed (slice t s.ti atT) := by
    refine chunkSegment_agreed ?_
    rcases h.side with ⟨rfl, hoi⟩ | ⟨rfl, hoi⟩
    · rw [matchLines_self hO, hoi]
      exact .inl rfl
    · rw [hO] at hT
      cases hT
      rw [hoi]
      exact .inr rfl
  have hagreed : Agreed (s.segments ++ [chunkSegment (slice b s.bi n) (slice o s.oi atO)
      (slice t s.ti atT), .agreed (slice b n (n + 1))]) (t.take (atT + 1)) := by
    rw [hchunk, ← take_append_slice (Nat.le_succ atT), ← take_append_slice hti, slice_one hb,
      ← slice_one ht, append_cons]
    exact (h.agreed.append _).append _
  refine ⟨hagreed, ?_, le_rfl, fun hk hj => ?_, ?_⟩
  · exact (List.getElem?_eq_some_iff.mp ht).1
  · exact (matchLines_paired b t).increasing (by omega) hT hj
  · rcases h.side with ⟨rfl, -⟩ | ⟨rfl, -⟩
    · exact .inl ⟨rfl, by rw [matchLines_self hO]⟩
    · rw [hO] at hT
      cases hT
      exact .inr ⟨rfl, rfl⟩

/-- **Ours unchanged or equal to theirs leaves theirs**, without a conflict. -/
theorem segments_agreed {b o t : List Line} (h : o = b ∨ o = t) : Agreed (segments b o t) t := by
  have hrun : ∀ n, FollowsTheirs b o t n (segmentsTo b o t n) := by
    intro n
    induction n with
    | zero =>
      refine ⟨⟨[], rfl, by simp [segmentsTo]⟩, Nat.zero_le _, le_rfl, fun _ _ => Nat.zero_le _, ?_⟩
      rcases h with h | h
      · exact .inl ⟨h, rfl⟩
      · exact .inr ⟨h, rfl⟩
    | succ n ih =>
      rw [segmentsTo_succ]
      exact ih.step
  have hlast := hrun b.length
  have hchunk : lastSegment b o t (segmentsTo b o t b.length)
      = .agreed (slice t (segmentsTo b o t b.length).ti t.length) := by
    refine chunkSegment_agreed ?_
    rcases hlast.side with ⟨rfl, hoi⟩ | ⟨rfl, hoi⟩
    · rw [hoi]
      exact .inl rfl
    · rw [hoi]
      exact .inr rfl
  have happend := hlast.agreed.append (slice t (segmentsTo b o t b.length).ti t.length)
  rw [take_append_slice hlast.ti_le, take_length, ← hchunk] at happend
  exact happend

/-! ## Where the hunks are -/

theorem block_of_hunk {labels : Labels} {s : List Segment} {start : ℕ} {h : Hunk}
    (hh : h ∈ hunksFrom start s) :
    ∃ before, h.line = start + before + 1 ∧
      (markerBlock labels h.ours h.theirs).IsPrefix ((writtenLines labels s).drop before) := by
  induction s generalizing start with
  | nil => exact absurd hh not_mem_nil
  | cons segment rest ih =>
    have hlines : writtenLines labels (segment :: rest)
        = segment.written labels ++ writtenLines labels rest := flatMap_cons
    have hrest : h ∈ hunksFrom (start + segment.count) rest →
        ∃ before, h.line = start + before + 1 ∧ (markerBlock labels h.ours h.theirs).IsPrefix
          ((writtenLines labels (segment :: rest)).drop before) := by
      intro hmem
      obtain ⟨before, hline, hblock⟩ := ih hmem
      refine ⟨segment.count + before, by omega, ?_⟩
      rwa [hlines, ← segment.length_written labels, drop_length_add_append]
    cases segment with
    | agreed ls => exact hrest hh
    | conflict ours theirs =>
      rcases mem_cons.mp hh with rfl | hh
      · exact ⟨0, rfl, by rw [hlines]; exact prefix_append _ _⟩
      · exact hrest hh

theorem hunksFrom_apart (s : List Segment) (start : ℕ) :
    (hunksFrom start s).Pairwise fun h h' =>
      h.line + (h.ours.length + h.theirs.length + 3) ≤ h'.line := by
  induction s generalizing start with
  | nil => exact .nil
  | cons segment rest ih =>
    cases segment with
    | agreed ls => exact ih _
    | conflict ours theirs =>
      refine pairwise_cons.mpr ⟨fun h hh => ?_, ih _⟩
      obtain ⟨before, hline, -⟩ := @block_of_hunk ⟨[], [], rfl, rfl⟩ _ _ _ hh
      dsimp only
      omega

/-! ### Lines without a newline -/

theorem newline_of_mem_lines {text : List ℕ} {l : Line} (h : l ∈ lines text) : newline ∉ l := by
  induction text generalizing l with
  | nil => simp_all [lines]
  | cons b rest ih =>
    rw [lines] at h
    obtain ⟨l', ls, hl⟩ := exists_cons_of_ne_nil (lines_ne_nil rest)
    split_ifs at h with hb
    · rcases mem_cons.mp h with rfl | h
      · exact not_mem_nil
      · exact ih h
    · rw [hl, modifyHead_cons, mem_cons] at h
      rcases h with rfl | h
      · rw [mem_cons, not_or]
        exact ⟨Ne.symm hb, ih (hl ▸ mem_cons_self)⟩
      · exact ih (hl ▸ mem_cons_of_mem _ h)

theorem lines_of_newline (h : newline ∉ l) : lines l = [l] := by
  induction l with
  | nil => rfl
  | cons b l ih =>
    rw [mem_cons, not_or] at h
    rw [lines, if_neg (Ne.symm h.1), ih h.2, modifyHead_cons]

theorem lines_joinLines (hne : ls ≠ []) (h : ∀ l ∈ ls, newline ∉ l) :
    lines (joinLines ls) = ls := by
  rw [lines_join hne]
  clear hne
  induction ls with
  | nil => rfl
  | cons l ls ih =>
    rw [forall_mem_cons] at h
    rw [flatMap_cons, lines_of_newline h.1, ih h.2, singleton_append]

def Segment.Within (P : Line → Prop) : Segment → Prop
  | .agreed ls => ∀ l ∈ ls, P l
  | .conflict ours theirs => (∀ l ∈ ours, P l) ∧ ∀ l ∈ theirs, P l

theorem chunkSegment_within {cb co ct : List Line} (ho : ∀ l ∈ co, P l) (ht : ∀ l ∈ ct, P l) :
    (chunkSegment cb co ct).Within P := by
  rw [chunkSegment]
  split_ifs
  · exact ht
  · exact ho
  · exact ⟨ho, ht⟩

theorem segmentLine_within {b o t : List Line} (hb : ∀ l ∈ b, P l) (ho : ∀ l ∈ o, P l)
    (ht : ∀ l ∈ t, P l) {s : SegmentState} (h : ∀ segment ∈ s.segments, segment.Within P) (k : ℕ) :
    ∀ segment ∈ (segmentLine b o t mo mt s k).segments, segment.Within P := by
  rw [segmentLine]
  rcases mo[k]?.join with _ | atO
  · exact h
  rcases mt[k]?.join with _ | atT
  · exact h
  dsimp only
  split_ifs
  · exact h
  · intro segment hmem
    rcases mem_append.mp hmem with hmem | hmem
    · exact h segment hmem
    · simp only [mem_cons, not_mem_nil, or_false] at hmem
      rcases hmem with rfl | rfl
      · exact chunkSegment_within (fun l hl => ho l (slice_subset hl))
          fun l hl => ht l (slice_subset hl)
      · exact fun l hl => hb l (slice_subset hl)

/-- **A merge only holds lines of its texts.** -/
theorem segments_within {P : Line → Prop} {b o t : List Line} (hb : ∀ l ∈ b, P l)
    (ho : ∀ l ∈ o, P l) (ht : ∀ l ∈ t, P l) : ∀ segment ∈ segments b o t, segment.Within P := by
  have hrun : ∀ n, ∀ segment ∈ (segmentsTo b o t n).segments, segment.Within P := by
    intro n
    induction n with
    | zero => exact fun segment hmem => absurd hmem not_mem_nil
    | succ n ih =>
      rw [segmentsTo_succ]
      exact segmentLine_within hb ho ht ih n
  intro segment hmem
  rcases mem_append.mp hmem with hmem | hmem
  · exact hrun _ segment hmem
  · rw [mem_singleton.mp hmem]
    exact chunkSegment_within (fun l hl => ho l (slice_subset hl))
      fun l hl => ht l (slice_subset hl)

theorem written_newline {labels : Labels} (ho : newline ∉ labels.ours)
    (ht : newline ∉ labels.theirs) {segment : Segment}
    (h : segment.Within (newline ∉ ·)) : ∀ l ∈ segment.written labels, newline ∉ l := by
  cases segment with
  | agreed ls => exact h
  | conflict ours theirs =>
    intro l hl
    simp only [Segment.written, markerBlock, mem_append, mem_cons, not_mem_nil,
      or_false] at hl
    rcases hl with ((rfl | hl) | rfl | hl) | rfl
    · rw [mem_append, not_or]
      exact ⟨openMarker_newline, ho⟩
    · exact h.1 l hl
    · decide
    · exact h.2 l hl
    · rw [mem_append, not_or]
      exact ⟨closeMarker_newline, ht⟩

theorem lines_merge3 {b o t : List ℕ} {labels : Labels} (ho : newline ∉ labels.ours)
    (ht : newline ∉ labels.theirs) (hhunks : (merge3 b o t labels).hunks ≠ []) :
    lines (merge3 b o t labels).text
      = writtenLines labels (segments (lines b) (lines o) (lines t)) := by
  rw [merge3_eq] at hhunks ⊢
  have hwithin := @segments_within (newline ∉ ·) _ _ _ (fun l => @newline_of_mem_lines b l)
    (fun l => @newline_of_mem_lines o l) (fun l => @newline_of_mem_lines t l)
  refine lines_joinLines ?_ fun l hl => ?_
  · intro hnil
    obtain ⟨h, hh⟩ := exists_mem_of_ne_nil _ hhunks
    obtain ⟨before, -, hblock⟩ := @block_of_hunk labels _ _ _ hh
    rw [hnil, drop_nil, prefix_nil] at hblock
    exact absurd hblock (by simp [markerBlock])
  · obtain ⟨segment, hmem, hl⟩ := mem_flatMap.mp hl
    exact written_newline ho ht (hwithin segment hmem) l hl

/-! ## The laws -/

/-- **The laws of every merge.** A side that is the base loses to the other and equal sides
agree, without hunks; the segments of the two orders of the sides differ in the halves of the
conflicts alone; and with labels of one line each hunk's number is the line of the merged text
at which its own block begins. -/
theorem merge3_laws (b o t : List ℕ) (labels : Labels) :
    merge3 b b t labels = ⟨t, []⟩ ∧ merge3 b o b labels = ⟨o, []⟩ ∧
      merge3 b t t labels = ⟨t, []⟩ ∧
      (∃ segments : List Segment, ∀ labels,
        merge3 b o t labels = writtenMerge labels segments ∧
          merge3 b t o labels = writtenMerge labels (segments.map Segment.swap)) ∧
      (newline ∉ labels.ours → newline ∉ labels.theirs →
        ((merge3 b o t labels).hunks.Pairwise fun h h' =>
          h.line + (h.ours.length + h.theirs.length + 3) ≤ h'.line) ∧
        ∀ h ∈ (merge3 b o t labels).hunks, ∃ before, h.line = before + 1 ∧
          (markerBlock labels h.ours h.theirs).IsPrefix
            ((lines (merge3 b o t labels).text).drop before)) := by
  refine ⟨?_, ?_, ?_, ⟨_, fun labels => ⟨merge3_eq b o t labels, ?_⟩⟩, fun ho ht => ⟨?_, ?_⟩⟩
  · rw [merge3_eq, (segments_agreed (.inl rfl)).writtenMerge, join_lines]
  · rw [merge3_eq, segments_swap, (segments_agreed (.inl rfl)).swap.writtenMerge, join_lines]
  · rw [merge3_eq, (segments_agreed (.inr rfl)).writtenMerge, join_lines]
  · rw [merge3_eq, segments_swap]
  · rw [merge3_eq]
    exact hunksFrom_apart _ 0
  · intro h hh
    rw [lines_merge3 ho ht (ne_nil_of_mem hh)]
    rw [merge3_eq] at hh
    obtain ⟨before, hline, hblock⟩ := block_of_hunk hh
    exact ⟨before, by omega, hblock⟩

/-- `a` against `b` and `c`: one block at line 1. -/
theorem merge3_laws_conflict :
    ∃ before, 1 = before + 1 ∧ (markerBlock ⟨[], [], rfl, rfl⟩ [[0x62]] [[0x63]]).IsPrefix
      ((lines (merge3 [0x61] [0x62] [0x63] ⟨[], [], rfl, rfl⟩).text).drop before) :=
  ((merge3_laws [0x61] [0x62] [0x63] ⟨[], [], rfl, rfl⟩).2.2.2.2 (by decide) (by decide)).2
    ⟨1, [[0x62]], [[0x63]]⟩ (by decide)

end LayerFs
