import LayerFs.Mapping.Extents
import LayerFs.Mapping.Repeated

/-!
# The finished tree

`finish` (`file/mapping/build.rs`) seals what is left of every level, an overfull one by halves. No
page below the root is short: a level that has handed a page up keeps more than half a page.

* `pushExtent_any` — **a slice arrives behind the others**, merged where it continues the last.
* `finish_hands` — **every builder finishes**, with a tree over its slices.
* `builder_exact` — **runs are their chunks one by one, and the finished tree holds the pushed slices**,
  neighbours merged, on pages the decoder accepts.
-/

namespace LayerFs

open List

variable {Id : Type} [DecidableEq Id] (identify : FileObject Id → Id)
variable {builder builder' : ExtentBuilder Id} {slice : ExtentSlice Id}
  {out : List (FinalizedObject Id)} {above : List (List (NodeSummary Id))} {raw : List UInt8}
  {store : Option (Id → Option (MappingObject Id))} {predecessor : Option Id}
  {count level lvl turns : ℕ}

/-! ## What levels keep -/

/-- Below a level that holds something, levels keep what a page leaves of a full one. -/
def Filled (flushAt : ℕ) : List (List (NodeSummary Id)) → Prop
  | [] => True
  | here :: above => ((∃ level ∈ above, level ≠ []) → flushAt < here.length + maximumEntries) ∧
    Filled flushAt above

omit [DecidableEq Id] in
theorem Filled.tail {flushAt : ℕ} {levels : List (List (NodeSummary Id))}
    (h : Filled flushAt levels) : Filled flushAt levels.tail := by
  cases levels with
  | nil => trivial
  | cons here above => exact h.2

omit [DecidableEq Id] in
theorem Filled.head {flushAt : ℕ} {levels : List (List (NodeSummary Id))}
    (h : Filled flushAt levels) (hsome : ∃ level ∈ levels.tail, level ≠ []) :
    flushAt < (levels.headD []).length + maximumEntries := by
  cases levels with
  | nil =>
    obtain ⟨level, hlevel, -⟩ := hsome
    cases hlevel
  | cons here above => exact h.1 hsome

section Paged

variable {α : Type} {flushAt : ℕ} {here incoming : List α}

theorem paginate_filled (hflush : maximumEntries < flushAt)
    (h : (paginate flushAt maximumEntries here incoming).1 = [] →
      flushAt < here.length + maximumEntries) :
    flushAt < (paginate flushAt maximumEntries here incoming).2.length + maximumEntries := by
  rcases hpages : (paginate flushAt maximumEntries here incoming).1 with _ | ⟨page, pages⟩
  · have hflat := @paginate_flatten α flushAt maximumEntries incoming here
    rw [hpages, flatten_nil, nil_append] at hflat
    have := h hpages
    rw [hflat, length_append]
    omega
  · exact paginate_rest_of_page hflush.le (by rw [hpages]; exact cons_ne_nil _ _)

end Paged

omit [DecidableEq Id] in
theorem raised_filled {flushAt : ℕ} (hflush : maximumEntries < flushAt) : ∀ {room level : ℕ}
    {incoming : List (NodeSummary Id)} {levels : List (List (NodeSummary Id))},
    Filled flushAt levels → Filled flushAt (raised identify flushAt room level incoming levels) := by
  intro room
  induction room with
  | zero => exact fun h => h
  | succ room ih =>
    intro level incoming levels h
    rw [raised]
    split_ifs with hnone
    · exact h
    · refine ⟨fun hsome => paginate_filled hflush fun hpages => ?_, ih h.tail⟩
      rw [hpages, map_nil, raised_nil] at hsome
      exact h.head hsome

namespace ExtentBuilder

def Keeps (builder : ExtentBuilder Id) : Prop :=
  ((∃ level ∈ builder.children, level ≠ []) →
    builder.flushAt < builder.extents.length + maximumEntries) ∧
  Filled builder.flushAt builder.children

omit [DecidableEq Id] in
theorem keeps_fed (hflush : maximumEntries < builder.flushAt) (h : builder.Keeps)
    (incoming : List (ExtentSlice Id)) : (fed identify builder incoming).Keeps := by
  rw [fed]
  refine ⟨fun hsome => paginate_filled hflush fun hpages => ?_, raised_filled identify hflush h.2⟩
  dsimp only at hsome hpages
  rw [hpages, map_nil, raised_nil] at hsome
  exact h.1 hsome

omit [DecidableEq Id] in
theorem keeps_new (streamFlushEntries : ℕ) :
    (new streamFlushEntries : ExtentBuilder Id).Keeps := by
  refine ⟨?_, trivial⟩
  rintro ⟨level, hlevel, -⟩
  cases hlevel

/-! ## Slices that continue the last -/

theorem tower_eq_nil {flushAt : ℕ} :
    ∀ {levels : List (List (NodeSummary Id))} {level : ℕ} {slices : List (ExtentSlice Id)},
    Tower store flushAt level levels slices → (∀ level ∈ levels, level = []) → slices = [] := by
  intro levels
  induction levels with
  | nil => exact fun h _ => h
  | cons here above ih =>
    rintro level slices ⟨-, before, parts, rfl, hparts, habove⟩ hall
    obtain ⟨rfl, hempty⟩ := forall_mem_cons.mp hall
    cases hparts
    rw [ih habove hempty]
    rfl

theorem Building.pending {slices : List (ExtentSlice Id)} (h : Building store builder slices)
    (hkeeps : builder.Keeps) (hsome : slices ≠ []) : builder.extents ≠ [] := by
  intro hnone
  obtain ⟨before, rfl, htower⟩ := h.covers
  have hflush := h.flushAt_gt
  by_cases hall : ∀ level ∈ builder.children, level = []
  · rw [tower_eq_nil htower hall, hnone] at hsome
    exact hsome rfl
  · have hfilled := hkeeps.1 (by simpa using hall)
    rw [hnone, length_nil] at hfilled
    omega

theorem coalesceAdjacent_touches {left right : ExtentSlice Id} (h : left.Touches right) :
    ∃ merged, coalesceAdjacent left right = some merged ∧
      merged.payloadObjectId = left.payloadObjectId ∧ merged.sourceOffset = left.sourceOffset ∧
      merged.logicalLength = left.logicalLength + right.logicalLength := by
  have hpos := left.nonempty
  have hinside := right.inside
  have hend := h.2
  have hnew : 0 < left.logicalLength + right.logicalLength ∧
      left.sourceOffset + (left.logicalLength + right.logicalLength) ≤ maximumChunkBytes := by omega
  refine ⟨⟨left.payloadObjectId, left.sourceOffset, left.logicalLength + right.logicalLength,
    hnew.1, hnew.2⟩, ?_, rfl, rfl, rfl⟩
  rw [coalesceAdjacent, if_pos h, ExtentSlice.new, dif_pos hnew]
  rfl

theorem placeExtent_append {before extents : List (ExtentSlice Id)} (hsome : extents ≠ [])
    (extent : ExtentSlice Id) :
    placeExtent (before ++ extents) extent = before ++ placeExtent extents extent := by
  rw [placeExtent, placeExtent, getLast?_append_of_ne_nil _ hsome]
  rcases extents.getLast?.bind fun previous => coalesceAdjacent previous extent with _ | merged
  · exact append_assoc _ _ _
  · dsimp only
    rw [dropLast_append_of_ne_nil hsome, append_assoc]

theorem placeExtent_cases (slices : List (ExtentSlice Id)) (extent : ExtentSlice Id) :
    ((∀ last ∈ slices.getLast?, ¬last.Touches extent) ∧
      placeExtent slices extent = slices ++ [extent]) ∨
    ∃ first last merged, slices = first ++ [last] ∧ last.Touches extent ∧
      placeExtent slices extent = first ++ [merged] ∧
      merged.payloadObjectId = last.payloadObjectId ∧ merged.sourceOffset = last.sourceOffset ∧
      merged.logicalLength = last.logicalLength + extent.logicalLength := by
  rcases eq_nil_or_concat' slices with rfl | ⟨first, last, rfl⟩
  · exact .inl ⟨fun last hlast => absurd hlast (Option.not_mem_none last), rfl⟩
  · by_cases htouch : last.Touches extent
    · obtain ⟨merged, hmerged, hid, hoffset, hlength⟩ := coalesceAdjacent_touches htouch
      refine .inr ⟨first, last, merged, rfl, htouch, ?_, hid, hoffset, hlength⟩
      rw [placeExtent, getLast?_concat, Option.bind_some, hmerged]
      dsimp only
      rw [dropLast_concat]
    · refine .inl ⟨fun other hother => ?_, ?_⟩
      · rw [getLast?_concat] at hother
        obtain rfl := Option.some.inj hother
        exact htouch
      · rw [placeExtent, getLast?_concat, Option.bind_some, coalesceAdjacent, if_neg htouch]

theorem totalBytes_placeExtent (slices : List (ExtentSlice Id)) (extent : ExtentSlice Id) :
    totalBytes (placeExtent slices extent) = totalBytes slices + extent.logicalLength := by
  rcases placeExtent_cases slices extent with ⟨-, heq⟩ | ⟨first, last, merged, rfl, -, heq, -, -, hlength⟩
  · rw [heq, totalBytes_append, totalBytes_cons, totalBytes_nil, Nat.add_zero]
  · rw [heq, totalBytes_append, totalBytes_append, totalBytes_cons, totalBytes_cons, totalBytes_nil,
      hlength]
    omega

theorem coalesced_placeExtent {slices : List (ExtentSlice Id)} (h : Coalesced slices)
    (extent : ExtentSlice Id) : Coalesced (placeExtent slices extent) := by
  rcases placeExtent_cases slices extent with
    ⟨hfree, heq⟩ | ⟨first, last, merged, rfl, -, heq, hid, hoffset, -⟩
  · rw [heq]
    refine h.append (isChain_singleton _) fun prior hprior next hnext => ?_
    obtain rfl := Option.some.inj hnext
    exact hfree prior hprior
  · rw [heq]
    refine h.left_of_append.append (isChain_singleton _) fun prior hprior next hnext => ?_
    obtain rfl := Option.some.inj hnext
    have hlast : ¬prior.Touches last := (isChain_append.mp h).2.2 prior hprior last rfl
    rintro ⟨hsame, hend⟩
    exact hlast ⟨hsame.trans hid, hend.trans hoffset⟩

/-- **A slice arrives behind the others**, merged where it continues the last. -/
theorem pushExtent_any {slices : List (ExtentSlice Id)} (h : Building none builder slices)
    (hkeeps : builder.Keeps) {extent : ExtentSlice Id}
    (hbound : totalBytes slices + extent.logicalLength < u64Bound) :
    ∃ builder', builder'.Keeps ∧ builder'.flushAt = builder.flushAt ∧
      Hands identify (fun store => Building store builder slices)
        (pushExtent identify builder extent) builder'
        (fun store => Building store builder' (placeExtent slices extent)) := by
  have hchain := coalesced_placeExtent h.coalesced extent
  have hbytes := totalBytes_placeExtent slices extent
  rcases placeExtent_cases slices extent with
    ⟨hfree, heq⟩ | ⟨first, last, merged, hslices, htouch, heq, hid, hoffset, hlength⟩
  · rw [heq] at hchain hbytes ⊢
    exact ⟨_, keeps_fed identify h.flushAt_gt hkeeps [extent], rfl,
      pushExtent_hands identify hchain (by omega)⟩
  · have hsome : slices ≠ [] := by
      rw [hslices]
      simp
    have hpending := h.pending hkeeps hsome
    -- the merged slice takes the place of the last: no level grows
    have hcount : (placeExtent builder.extents extent).length = builder.extents.length := by
      obtain ⟨before, hcovers, -⟩ := h.covers
      rw [hcovers, placeExtent_append hpending] at heq
      have hlengths := congrArg List.length heq
      have hlengths' := congrArg List.length (hcovers.symm.trans hslices)
      simp only [length_append, length_singleton] at hlengths hlengths'
      omega
    have hadd : checkedAdd builder.logicalLen extent.logicalLength =
        .ok (builder.logicalLen + extent.logicalLength) :=
      checkedAdd_eq_ok.mpr ⟨by rw [h.logicalLen_eq]; exact hbound, rfl⟩
    refine ⟨{ builder with
      extents := placeExtent builder.extents extent
      logicalLen := builder.logicalLen + extent.logicalLength }, ⟨?_, hkeeps.2⟩, rfl, ?_⟩
    · dsimp only
      rw [hcount]
      exact hkeeps.1
    · refine Hands.lift identify hadd fun store hstore => ?_
      have hfits : (placeExtent builder.extents extent).length ≤ builder.flushAt := by
        rw [hcount]
        exact h.fits
      refine ⟨[] ++ [], Construction.bind_ok (flushLevel_fits hfits) rfl, fun _ => ?_⟩
      obtain ⟨before, hcovers, htower⟩ := hstore.covers
      refine ⟨h.flushAt_gt, hfits, ⟨before, ?_, htower⟩, hchain, ?_, by omega⟩
      · rw [hcovers, placeExtent_append hpending]
      · rw [hbytes, h.logicalLen_eq]

end ExtentBuilder

/-! ## Sealing what is left -/

/-- The entries of a level and the levels above it cover some slices. -/
def Covers {ε : Type} (store : Option (Id → Option (MappingObject Id))) (flushAt lvl : ℕ)
    (R : Option (Id → Option (MappingObject Id)) → ε → List (ExtentSlice Id) → Prop)
    (here : List ε) (above : List (List (NodeSummary Id))) (slices : List (ExtentSlice Id)) : Prop :=
  ∃ before parts, slices = before ++ parts.flatten ∧ List.Forall₂ (R store) here parts ∧
    Tower store flushAt lvl above before

/-- Pages of at least half a page of entries leave as summaries of the level `lvl`. -/
def Cuts {ε : Type} (lvl : ℕ)
    (R : Option (Id → Option (MappingObject Id)) → ε → List (ExtentSlice Id) → Prop)
    (emitPage : List ε → Construction Id (NodeSummary Id)) (node : List ε → ExtentNode Id) : Prop :=
  ∀ {store page parts}, List.Forall₂ (R store) page parts → minimumEntries ≤ page.length →
    page.length ≤ maximumEntries → Coalesced parts.flatten → totalBytes parts.flatten < u64Bound →
    emitPage page = Except.ok (summaryOf identify (node page), pageOut (node page)) ∧
      ((∀ given ∈ store, Stored identify given (pageOut (node page))) →
        Sealed store lvl (summaryOf identify (node page)) parts.flatten)

theorem cuts_branch (hlevel : level < 10) :
    Cuts identify (level + 1) (fun store => Sealed store level)
      (emitBranch identify false (level + 1)) (branchNode (level + 1)) := by
  intro store page parts hparts hleast hmost _ hbound
  exact ⟨emitBranch_eq_ok identify hparts hbound hmost hleast,
    sealed_branch identify hparts hlevel hmost hleast⟩

theorem cuts_leaf : Cuts identify 0 ExtentBuilder.Itself (emitLeaf identify false) leafNode := by
  intro store page parts hparts hleast hmost hchain hbound
  rw [ExtentBuilder.flatten_of_itself hparts] at hchain hbound ⊢
  exact ⟨emitLeaf_eq_ok identify hchain hbound hmost fun _ => hleast,
    sealed_leaf identify hchain hbound hmost hleast⟩

section Seal

variable {ε : Type} {emitPage : List ε → Construction Id (NodeSummary Id)}

omit [DecidableEq Id] in
theorem sealRest_short {here : List ε} {summary : NodeSummary Id} (hsome : here ≠ [])
    (hmost : here.length ≤ maximumEntries) (hemit : emitPage here = Except.ok (summary, out)) :
    sealRest emitPage (turns + 1) here = Except.ok ([summary], out) := by
  have hdone : sealRest emitPage turns ([] : List ε) = Except.ok ([], []) := by
    cases turns with
    | zero => rfl
    | succ turns => rfl
  rw [sealRest, if_neg (by simpa using hsome), if_neg (Nat.not_lt.mpr hmost)]
  dsimp only
  rw [take_length, drop_length]
  have hrest : (sealRest emitPage turns ([] : List ε) >>= fun later =>
      (pure (summary :: later) : Construction Id _)) = Except.ok ([summary], [] ++ []) :=
    Construction.bind_ok hdone rfl
  have hall : (emitPage here >>= fun summary => sealRest emitPage turns [] >>= fun later =>
      (pure (summary :: later) : Construction Id _)) = Except.ok ([summary], out ++ ([] ++ [])) :=
    Construction.bind_ok hemit hrest
  rw [append_nil, append_nil] at hall
  exact hall

omit [DecidableEq Id] in
theorem sealRest_long {here : List ε} {first second : NodeSummary Id}
    {later : List (FinalizedObject Id)} (hover : maximumEntries < here.length)
    (hmost : here.length ≤ 2 * maximumEntries)
    (hfirst : emitPage (here.take (here.length / 2)) = Except.ok (first, out))
    (hsecond : emitPage (here.drop (here.length / 2)) = Except.ok (second, later)) :
    sealRest emitPage (turns + 2) here = Except.ok ([first, second], out ++ later) := by
  have hsome : here ≠ [] := ne_nil_of_length_pos (by omega)
  have hlength : (here.drop (here.length / 2)).length = here.length - here.length / 2 :=
    length_drop
  rw [sealRest, if_neg (by simpa using hsome), if_pos hover]
  have hrest : sealRest emitPage (turns + 1) (here.drop (here.length / 2)) =
      Except.ok ([second], later) :=
    sealRest_short (ne_nil_of_length_pos (by omega)) (by omega) hsecond
  have hcons : (sealRest emitPage (turns + 1) (here.drop (here.length / 2)) >>= fun later =>
      (pure (first :: later) : Construction Id _)) = Except.ok ([first, second], later ++ []) :=
    Construction.bind_ok hrest rfl
  have hall : (emitPage (here.take (here.length / 2)) >>= fun summary =>
      sealRest emitPage (turns + 1) (here.drop (here.length / 2)) >>= fun later =>
      (pure (summary :: later) : Construction Id _)) =
        Except.ok ([first, second], out ++ (later ++ [])) :=
    Construction.bind_ok hfirst hcons
  rw [append_nil] at hall
  exact hall

variable {node : List ε → ExtentNode Id}
  {R : Option (Id → Option (MappingObject Id)) → ε → List (ExtentSlice Id) → Prop}

/-- **A level below the root leaves in one page or two**, none of them short. -/
theorem sealRest_hands {flushAt : ℕ} (hcuts : Cuts identify lvl R emitPage node) {here : List ε}
    {slices : List (ExtentSlice Id)} (hleast : minimumEntries ≤ here.length)
    (hmost : here.length ≤ 2 * maximumEntries) (hchain : Coalesced slices)
    (hbound : totalBytes slices < u64Bound) :
    ∃ summaries, 0 < summaries.length ∧ summaries.length ≤ 2 ∧
      (maximumEntries < here.length → summaries.length = 2) ∧
      Hands identify (fun store => Covers store flushAt lvl R here above slices)
        (sealRest emitPage here.length here) summaries
        (fun store => Covers store flushAt (lvl + 1) (fun store => Sealed store lvl)
          (above.headD [] ++ summaries) above.tail slices) := by
  have hhalf := show minimumEntries = 64 from rfl
  have hentries := show maximumEntries = 128 from rfl
  -- what the level above covers behind some new summaries
  have habove : ∀ {store before parts} {summaries : List (NodeSummary Id)}
      {sealed : List (List (ExtentSlice Id))}, Tower store flushAt lvl above before →
      List.Forall₂ (Sealed store lvl) summaries sealed → sealed.flatten = parts →
      Covers store flushAt (lvl + 1) (fun store => Sealed store lvl)
        (above.headD [] ++ summaries) above.tail (before ++ parts) := by
    intro store before parts summaries sealed htower hsealed hflat
    obtain ⟨-, earlier, held, rfl, hheld, hrest⟩ := htower.split
    refine ⟨earlier, held ++ sealed, ?_, rel_append hheld hsealed, hrest⟩
    rw [flatten_append, hflat, append_assoc]
  rcases Nat.lt_or_ge maximumEntries here.length with hover | hshort
  · refine ⟨[summaryOf identify (node (here.take (here.length / 2))),
      summaryOf identify (node (here.drop (here.length / 2)))], Nat.two_pos, Nat.le_refl 2,
      fun _ => rfl, ?_⟩
    rintro store ⟨before, parts, rfl, hparts, htower⟩
    have hcut : parts.flatten =
        (parts.take (here.length / 2)).flatten ++ (parts.drop (here.length / 2)).flatten := by
      rw [← flatten_append, take_append_drop]
    have htaken : (here.take (here.length / 2)).length = here.length / 2 := by
      rw [length_take]
      omega
    have hdropped : (here.drop (here.length / 2)).length = here.length - here.length / 2 :=
      length_drop
    rw [hcut] at hchain hbound ⊢
    rw [totalBytes_append, totalBytes_append] at hbound
    obtain ⟨hfirst, hsealed⟩ := hcuts (forall₂_take (here.length / 2) hparts) (by omega)
      (by omega) hchain.right_of_append.left_of_append (by omega)
    obtain ⟨hsecond, hsealed'⟩ := hcuts (forall₂_drop (here.length / 2) hparts) (by omega)
      (by omega) hchain.right_of_append.right_of_append (by omega)
    obtain ⟨turns, hturns⟩ : ∃ turns, here.length = turns + 2 := ⟨here.length - 2, by omega⟩
    refine ⟨_, ?_, fun hstored => habove htower
      (.cons (hsealed fun given hgiven => (hstored given hgiven).left)
        (.cons (hsealed' fun given hgiven => (hstored given hgiven).right) .nil)) (by simp)⟩
    nth_rewrite 1 [hturns]
    exact sealRest_long hover hmost hfirst hsecond
  · refine ⟨[summaryOf identify (node here)], Nat.one_pos, by simp, fun h => absurd h (by omega), ?_⟩
    rintro store ⟨before, parts, rfl, hparts, htower⟩
    rw [totalBytes_append] at hbound
    obtain ⟨hemit, hsealed⟩ := hcuts hparts hleast hshort hchain.right_of_append (by omega)
    obtain ⟨turns, hturns⟩ : ∃ turns, here.length = turns + 1 := ⟨here.length - 1, by omega⟩
    refine ⟨_, ?_, fun hstored => habove htower (.cons (hsealed hstored) .nil) (by simp)⟩
    nth_rewrite 1 [hturns]
    exact sealRest_short (ne_nil_of_length_pos (by omega)) hshort hemit

omit [DecidableEq Id] in
theorem all_isEmpty_or (levels : List (List (NodeSummary Id))) :
    levels.all List.isEmpty = true ∧ (∀ level ∈ levels, level = []) ∨
    levels.all List.isEmpty = false ∧ ∃ level ∈ levels, level ≠ [] := by
  by_cases hall : ∀ level ∈ levels, level = []
  · exact .inl ⟨by simpa using hall, hall⟩
  · exact .inr ⟨by simpa using hall, by simpa using hall⟩

/-- **What a level below the root leaves for the next**: at least two summaries, and as many as a
page needs where a level above holds something. -/
theorem sealRest_next {flushAt : ℕ} (hcuts : Cuts identify lvl R emitPage node)
    (hflush : minimumEntries + maximumEntries ≤ flushAt) {here : List ε}
    {slices : List (ExtentSlice Id)} (hnone : Covers none flushAt lvl R here above slices)
    (hfilled : Filled flushAt above)
    (hover : maximumEntries < here.length ∨
      minimumEntries ≤ here.length ∧ ∃ level ∈ above, level ≠ [])
    (hmost : here.length ≤ 2 * maximumEntries) (hchain : Coalesced slices)
    (hbound : totalBytes slices < u64Bound) :
    ∃ summaries, 2 ≤ (above.headD [] ++ summaries).length ∧
      (above.headD [] ++ summaries).length ≤ flushAt + 2 ∧
      ((∃ level ∈ above.tail, level ≠ []) →
        minimumEntries ≤ (above.headD [] ++ summaries).length) ∧
      Hands identify (fun store => Covers store flushAt lvl R here above slices)
        (sealRest emitPage here.length here) summaries
        (fun store => Covers store flushAt (lvl + 1) (fun store => Sealed store lvl)
          (above.headD [] ++ summaries) above.tail slices) := by
  have hhalf := show minimumEntries = 64 from rfl
  have hentries := show maximumEntries = 128 from rfl
  have hleast : minimumEntries ≤ here.length := by
    rcases hover with hover | ⟨hleast, -⟩
    · omega
    · exact hleast
  obtain ⟨summaries, hpos, htwo, hboth, hhands⟩ :=
    sealRest_hands identify hcuts hleast hmost hchain hbound
  have hlength : (above.headD [] ++ summaries).length = (above.headD []).length + summaries.length :=
    length_append
  have hroom : (above.headD []).length ≤ flushAt := by
    obtain ⟨before, parts, -, -, htower⟩ := hnone
    exact htower.split.1
  refine ⟨summaries, ?_, by omega, fun hsome => ?_, hhands⟩
  · rcases hover with hover | ⟨-, level, hlevel, hsome⟩
    · have := hboth hover
      omega
    · -- the lowest level above holds something, or has handed pages up
      cases above with
      | nil => cases hlevel
      | cons next above =>
        rcases mem_cons.mp hlevel with rfl | hlevel
        · have := length_pos_iff.mpr hsome
          rw [headD_cons] at hlength ⊢
          omega
        · have := hfilled.head ⟨level, hlevel, hsome⟩
          omega
  · have := hfilled.head hsome
    omega

end Seal

/-! ## Roots -/

/-- A root over some slices, mapped by the store where one is given. -/
structure Rooted (store : Option (Id → Option (MappingObject Id))) (root : NodeSummary Id)
    (slices : List (ExtentSlice Id)) : Prop where
  bytes_eq : root.bytes = totalBytes slices
  extents_eq : root.extents = slices.length
  mapped : ∀ given ∈ store, Mapped given root.level true root.id slices

theorem Covers.forget {flushAt : ℕ} {here : List (NodeSummary Id)} {slices : List (ExtentSlice Id)}
    (h : Covers store flushAt (level + 1) (fun store => Sealed store level) here above slices) :
    Covers none flushAt (level + 1) (fun store => Sealed store level) here above slices := by
  obtain ⟨before, parts, hslices, hparts, htower⟩ := h
  exact ⟨before, parts, hslices, forall₂_sealed_forget hparts, htower.forget⟩

theorem Covers.level_lt {flushAt : ℕ} {here : List (NodeSummary Id)}
    {slices : List (ExtentSlice Id)}
    (h : Covers store flushAt (level + 1) (fun store => Sealed store level) here above slices)
    (hsome : 0 < here.length) (hbound : totalBytes slices < u64Bound) : level < 10 := by
  obtain ⟨before, parts, rfl, hparts, -⟩ := h
  have hlength := length_le_totalBytes parts.flatten
  rw [totalBytes_append] at hbound
  exact level_of_filled (le_trans (Nat.le_mul_of_pos_left _ hsome) (filled_flatten hparts))
    (by omega)

theorem emitBranch_root {flushAt : ℕ} {here : List (NodeSummary Id)}
    {slices : List (ExtentSlice Id)} (hlevel : level < 10) (htwo : 2 ≤ here.length)
    (hmost : here.length ≤ maximumEntries) (hempty : ∀ level ∈ above, level = [])
    (hbound : totalBytes slices < u64Bound) :
    Hands identify
      (fun store => Covers store flushAt (level + 1) (fun store => Sealed store level) here above
        slices)
      (emitBranch identify true (level + 1) here)
      (summaryOf identify (branchNode (level + 1) here))
      (fun store => Rooted store (summaryOf identify (branchNode (level + 1) here)) slices) := by
  rintro store ⟨before, parts, rfl, hparts, htower⟩
  obtain rfl := ExtentBuilder.tower_eq_nil htower hempty
  rw [nil_append] at hbound ⊢
  obtain ⟨hbytes, hextents⟩ := childBytes_eq hparts
  exact ⟨_, @emitBranch_eq_ok Id _ identify store level here parts true hparts hbound hmost htwo,
    fun hstored => ⟨hbytes, hextents, fun given hgiven => branch_mapped identify hgiven hparts
      (@validate_branchNode Id _ store level here parts true hparts hlevel hmost htwo)
      (hstored given hgiven)⟩⟩

theorem finishLevels_two {room : ℕ} {here : List (NodeSummary Id)} (htwo : 2 ≤ here.length) :
    finishLevels identify (room + 1) level (here :: above) =
      if above.all List.isEmpty && decide (here.length ≤ maximumEntries) then
        emitBranch identify true level here
      else sealRest (emitBranch identify false level) here.length here >>= fun summaries =>
        finishLevels identify room (level + 1) ((above.headD [] ++ summaries) :: above.tail) := by
  match here, htwo with
  | first :: second :: rest, _ => rfl

/-- **Levels of summaries finish under one root.** -/
theorem finishLevels_hands {flushAt : ℕ} (hflush : minimumEntries + maximumEntries ≤ flushAt)
    (hover : flushAt + 2 ≤ 2 * maximumEntries) : ∀ {room level : ℕ} {here : List (NodeSummary Id)}
    {above : List (List (NodeSummary Id))} {slices : List (ExtentSlice Id)}, 31 ≤ room + level →
    Covers none flushAt (level + 1) (fun store => Sealed store level) here above slices →
    2 ≤ here.length → here.length ≤ flushAt + 2 →
    ((∃ level ∈ above, level ≠ []) → minimumEntries ≤ here.length) → Filled flushAt above →
    Coalesced slices → totalBytes slices < u64Bound →
    ∃ root, Hands identify
      (fun store => Covers store flushAt (level + 1) (fun store => Sealed store level) here above
        slices)
      (finishLevels identify room (level + 1) (here :: above)) root
      (fun store => Rooted store root slices) := by
  intro room
  induction room with
  | zero =>
    intro level here above slices hroom hnone htwo _ _ _ _ hbound
    have := hnone.level_lt (by omega) hbound
    omega
  | succ room ih =>
    intro level here above slices hroom hnone htwo hmost hfull hfilled hchain hbound
    have hlevel := hnone.level_lt (by omega) hbound
    -- pages for the level above, and what finishes there
    have hraise : (maximumEntries < here.length ∨
        minimumEntries ≤ here.length ∧ ∃ level ∈ above, level ≠ []) →
        ∃ root, Hands identify
          (fun store => Covers store flushAt (level + 1) (fun store => Sealed store level) here
            above slices)
          (sealRest (emitBranch identify false (level + 1)) here.length here >>= fun summaries =>
            finishLevels identify room (level + 1 + 1)
              ((above.headD [] ++ summaries) :: above.tail)) root
          (fun store => Rooted store root slices) := by
      intro hleaves
      obtain ⟨summaries, htwo', hmost', hfull', hhands⟩ := sealRest_next identify
        (cuts_branch identify hlevel) hflush hnone hfilled hleaves (by omega) hchain hbound
      obtain ⟨_, -, hnone'⟩ := hhands none hnone
      obtain ⟨root, hroot⟩ := ih (by omega) (hnone' fun _ hgiven => by cases hgiven) htwo' hmost'
        hfull' hfilled.tail hchain hbound
      exact ⟨root, Hands.bind identify (fun _ h => h.forget) hhands hroot⟩
    rw [finishLevels_two identify htwo]
    rcases all_isEmpty_or above with ⟨hall, hempty⟩ | ⟨hall, hsome⟩
    · rcases Nat.lt_or_ge maximumEntries here.length with hlong | hshort
      · rw [hall, decide_eq_false (Nat.not_le.mpr hlong), Bool.and_false, if_neg Bool.false_ne_true]
        exact hraise (.inl hlong)
      · rw [hall, decide_eq_true hshort, Bool.and_true, if_pos rfl]
        exact ⟨_, emitBranch_root identify hlevel htwo hshort hempty hbound⟩
    · rw [hall, Bool.false_and, if_neg Bool.false_ne_true]
      exact hraise (.inr ⟨hfull hsome, hsome⟩)

namespace ExtentBuilder

/-- **Every builder of a stream finishes**, with a root over its slices. -/
theorem finishExtents_hands {slices : List (ExtentSlice Id)} (h : Building none builder slices)
    (hkeeps : builder.Keeps) (hflush : minimumEntries + maximumEntries ≤ builder.flushAt)
    (hover : builder.flushAt + 2 ≤ 2 * maximumEntries) :
    ∃ root, Hands identify (fun store => Building store builder slices)
      (finishExtents identify builder) root (fun store => Rooted store root slices) := by
  have hentries := show maximumEntries = 128 from rfl
  have hhalf := show minimumEntries = 64 from rfl
  -- the slices that wait as a level over the levels above
  have hcovers : ∀ store, Building store builder slices →
      Covers store builder.flushAt 0 Itself builder.extents builder.children slices :=
    fun store hstore => hstore.held.covers
  have hraise : (maximumEntries < builder.extents.length ∨
      minimumEntries ≤ builder.extents.length ∧ ∃ level ∈ builder.children, level ≠ []) →
      ∃ root, Hands identify (fun store => Building store builder slices)
        (sealRest (emitLeaf identify false) builder.extents.length builder.extents >>=
          fun summaries => finishLevels identify (maximumLevel + 1) 1
            ((builder.children.headD [] ++ summaries) :: builder.children.tail)) root
        (fun store => Rooted store root slices) := by
    intro hleaves
    obtain ⟨summaries, htwo, hmost, hfull, hhands⟩ := sealRest_next identify
      (cuts_leaf identify) hflush (hcovers none h) hkeeps.2 hleaves
      (by have := h.fits; omega) h.coalesced h.bounded
    obtain ⟨_, -, hnone⟩ := hhands none (hcovers none h)
    obtain ⟨root, hroot⟩ := finishLevels_hands identify hflush hover
      (show 31 ≤ maximumLevel + 1 + 0 by decide) (hnone fun _ hgiven => by cases hgiven) htwo hmost
      hfull hkeeps.2.tail h.coalesced h.bounded
    exact ⟨root, Hands.bind identify (fun _ hstore => hstore.forget)
      (hhands.imp identify hcovers fun _ hstore => hstore) hroot⟩
  rw [finishExtents]
  rcases all_isEmpty_or builder.children with ⟨hall, hempty⟩ | ⟨hall, hsome⟩
  · rcases Nat.lt_or_ge maximumEntries builder.extents.length with hlong | hshort
    · rw [hall, decide_eq_false (Nat.not_le.mpr hlong), Bool.and_false, if_neg Bool.false_ne_true]
      exact hraise (.inl hlong)
    · rw [hall, decide_eq_true hshort, Bool.and_true, if_pos rfl]
      -- a root leaf of any length
      have hslices : slices = builder.extents := by
        obtain ⟨before, hslices, htower⟩ := h.covers
        rw [hslices, tower_eq_nil htower hempty, nil_append]
      have hchain := h.coalesced
      have hbound := h.bounded
      rw [hslices] at hchain hbound ⊢
      refine ⟨summaryOf identify (leafNode builder.extents), fun store _ => ⟨_,
        @emitLeaf_eq_ok Id _ identify _ true hchain hbound hshort (fun hroot => by cases hroot),
        fun hstored => ⟨rfl, rfl, fun given hgiven => ⟨?_, ?_⟩⟩⟩⟩
      · exact hstored given hgiven _ mem_cons_self _ rfl
      · exact validate_leaf hchain hbound hshort fun hroot => by cases hroot
  · rw [hall, Bool.false_and, if_neg Bool.false_ne_true]
    have := hkeeps.1 hsome
    exact hraise (.inr ⟨by omega, hsome⟩)

/-- What a finished construction holds: no root where no slice arrived, else one over all. -/
structure Finished (store : Option (Id → Option (MappingObject Id))) (build : MappingBuild Id)
    (slices : List (ExtentSlice Id)) : Prop where
  none_iff : build.root = none ↔ slices = []
  logicalLen_eq : build.logicalLen = totalBytes slices
  rooted : ∀ root ∈ build.root, Rooted store root slices

/-- **Every builder finishes**, with a tree over its slices. -/
theorem finish_hands {slices : List (ExtentSlice Id)} (h : Building none builder slices)
    (hkeeps : builder.Keeps) (hflush : minimumEntries + maximumEntries ≤ builder.flushAt)
    (hover : builder.flushAt + 2 ≤ 2 * maximumEntries) :
    ∃ build, Hands identify (fun store => Building store builder slices) (finish identify builder)
      build (fun store => Finished store build slices) := by
  have hlength := length_le_totalBytes slices
  have hlogical := h.logicalLen_eq
  rw [finish]
  split_ifs with hzero
  · have hempty : slices = [] := length_eq_zero_iff.mp (by omega)
    refine ⟨⟨none, 0⟩, Hands.pure identify fun _ _ => ⟨?_, ?_, ?_⟩⟩
    · exact ⟨fun _ => hempty, fun _ => rfl⟩
    · show 0 = _
      omega
    · exact fun root hroot => absurd hroot (Option.not_mem_none root)
  · obtain ⟨root, hroot⟩ := finishExtents_hands identify h hkeeps hflush hover
    refine ⟨⟨some root, builder.logicalLen⟩, Hands.bind identify (fun _ hstore => hstore.forget)
      hroot (Hands.pure identify fun store hrooted => ⟨?_, hlogical, ?_⟩)⟩
    · refine ⟨fun hnone => (by cases hnone), fun hempty => absurd hlogical ?_⟩
      rw [hempty, totalBytes_nil]
      exact hzero
    · rintro other hother
      obtain rfl := Option.some.inj hother
      exact hrooted

/-! ## Runs of pushes -/

/-- What a caller hands to a builder. -/
inductive Push (Id : Type) where
  | chunk (raw : List UInt8) (predecessor : Option Id)
  | extent (slice : ExtentSlice Id)
  | repeated (raw : List UInt8) (count : ℕ) (predecessor : Option Id)

def push (builder : ExtentBuilder Id) : Push Id → Construction Id (ExtentBuilder Id)
  | .chunk raw predecessor => pushChunk identify builder raw predecessor
  | .extent slice => pushExtent identify builder slice
  | .repeated raw count predecessor => pushRepeatedChunk identify builder raw count predecessor

def pushAll : List (Push Id) → ExtentBuilder Id → Construction Id (ExtentBuilder Id)
  | [], builder => pure builder
  | first :: rest, builder => do
    let builder ← push identify builder first
    pushAll rest builder

/-- The slices a push stands for: a chunk is one whole slice of itself. -/
def Push.slices : Push Id → List (ExtentSlice Id)
  | .chunk raw _ => (ExtentSlice.new (identify (.mapping (.chunk raw))) 0 raw.length).toOption.toList
  | .extent slice => [slice]
  | .repeated raw count _ => (List.replicate count
      (ExtentSlice.new (identify (.mapping (.chunk raw))) 0 raw.length).toOption.toList).flatten

def merged (slices : List (ExtentSlice Id)) : List (ExtentSlice Id) := slices.foldl placeExtent []

/-- The bytes some slices name: the payload and the position in it of each. -/
def places (slices : List (ExtentSlice Id)) : List (Id × ℕ) :=
  slices.flatMap fun slice =>
    (List.range' slice.sourceOffset slice.logicalLength).map (Prod.mk slice.payloadObjectId)

theorem places_placeExtent (slices : List (ExtentSlice Id)) (extent : ExtentSlice Id) :
    places (placeExtent slices extent) = places slices ++ places [extent] := by
  rcases placeExtent_cases slices extent with
    ⟨-, heq⟩ | ⟨first, last, merged, rfl, ⟨hsame, hend⟩, heq, hid, hoffset, hlength⟩
  · rw [heq, places, flatMap_append]
    rfl
  · have hrange : List.range' last.sourceOffset (last.logicalLength + extent.logicalLength) =
        List.range' last.sourceOffset last.logicalLength ++
          List.range' extent.sourceOffset extent.logicalLength := by
      rw [← hend]
      exact range'_append_1.symm
    rw [heq, places, places, places, flatMap_append, flatMap_append, append_assoc]
    simp only [flatMap_cons, flatMap_nil, append_nil]
    rw [hlength, hoffset, hid, hrange, map_append, hsame]

/-- **Merging keeps the bytes**, and leaves no two neighbours that continue each other. -/
theorem merged_exact (slices : List (ExtentSlice Id)) :
    Coalesced (merged slices) ∧ places (merged slices) = places slices := by
  have hfold : ∀ before : List (ExtentSlice Id), Coalesced before →
      Coalesced (slices.foldl placeExtent before) ∧
        places (slices.foldl placeExtent before) = places before ++ places slices := by
    induction slices with
    | nil => exact fun before hbefore => ⟨hbefore, (append_nil _).symm⟩
    | cons slice rest ih =>
      intro before hbefore
      obtain ⟨hchain, hplaces⟩ := ih (placeExtent before slice) (coalesced_placeExtent hbefore slice)
      refine ⟨hchain, hplaces.trans ?_⟩
      rw [places_placeExtent, append_assoc]
      congr 1
      show places [slice] ++ places rest = places ([slice] ++ rest)
      exact flatMap_append.symm
  exact hfold [] .nil

theorem merged_eq_nil {slices : List (ExtentSlice Id)} : merged slices = [] ↔ slices = [] := by
  refine ⟨fun hempty => ?_, fun hempty => by rw [hempty]; rfl⟩
  rcases eq_nil_or_concat' slices with rfl | ⟨first, last, rfl⟩
  · rfl
  · rw [merged, foldl_append, foldl_cons, foldl_nil] at hempty
    rcases placeExtent_cases (first.foldl placeExtent []) last with
      ⟨-, heq⟩ | ⟨_, _, _, -, -, heq, -⟩
    all_goals
      rw [heq] at hempty
      simp at hempty

theorem foldl_placeExtent_replicate {slices : List (ExtentSlice Id)}
    (hstart : slice.sourceOffset = 0) (count : ℕ) : Coalesced slices →
    (List.replicate count slice).foldl placeExtent slices = slices ++ List.replicate count slice := by
  induction count generalizing slices with
  | zero => exact fun _ => (append_nil _).symm
  | succ count ih =>
    intro hchain
    have hnext : Coalesced (slices ++ [slice]) := coalesced_replicate hchain hstart 1
    rw [replicate_succ, foldl_cons, placeExtent_eq hnext, ih hnext, append_assoc]
    rfl

theorem pushRepeatedChunk_fits {slices : List (ExtentSlice Id)} (h : Building none builder slices)
    (hcount : count ≠ 0)
    (hok : (pushRepeatedChunk identify builder raw count predecessor).result = .ok builder') :
    0 < raw.length ∧ raw.length ≤ maximumChunkBytes ∧
      totalBytes slices + raw.length * count < u64Bound := by
  rcases Nat.lt_or_ge maximumChunkBytes raw.length with hlong | hmost
  · rw [pushRepeatedChunk_long identify hcount hlong] at hok
    cases hok
  rcases Nat.eq_zero_or_pos raw.length with hempty | hpos
  · rw [pushRepeatedChunk_empty identify hcount hempty] at hok
    cases hok
  rcases Nat.lt_or_ge (totalBytes slices + raw.length * count) u64Bound with hfits | hover
  · exact ⟨hpos, hmost, hfits⟩
  · rw [← h.logicalLen_eq] at hover
    rw [pushRepeatedChunk_overflow identify hpos hmost hcount hover] at hok
    cases hok

def Pushes (op : Construction Id (ExtentBuilder Id)) (builder builder' : ExtentBuilder Id)
    (slices slices' : List (ExtentSlice Id)) : Prop :=
  builder'.Keeps ∧ builder'.flushAt = builder.flushAt ∧
    Hands identify (fun store => Building store builder slices) op builder'
      (fun store => Building store builder' slices')

theorem pushes_repeated {slices : List (ExtentSlice Id)} (h : Building none builder slices)
    (hkeeps : builder.Keeps)
    (hok : (pushRepeatedChunk identify builder raw count predecessor).result = .ok builder') :
    Pushes identify (pushRepeatedChunk identify builder raw count predecessor) builder builder'
      slices ((Push.repeated raw count predecessor).slices identify |>.foldl placeExtent slices) := by
  rcases Nat.eq_zero_or_pos count with rfl | hcount
  · obtain rfl : builder = builder' := Except.ok.inj hok
    exact ⟨hkeeps, rfl, Hands.pure identify fun _ hstore => hstore⟩
  obtain ⟨hpos, hmost, hfits⟩ := pushRepeatedChunk_fits identify h (by omega) hok
  have hhands := pushRepeatedChunk_hands identify hpos hmost h.flushAt_gt h.fits h.logicalLen_eq
    h.coalesced hfits predecessor
  obtain ⟨out, hrun, -⟩ := hhands none h
  rw [hrun] at hok
  obtain rfl := Except.ok.inj hok
  have hslices : (Push.repeated raw count predecessor).slices identify =
      List.replicate count (chunkSlice identify raw hpos hmost) := by
    rw [Push.slices, new_chunkSlice identify hpos hmost]
    exact flatten_replicate_singleton
  rw [hslices, foldl_placeExtent_replicate rfl count h.coalesced]
  exact ⟨keeps_fed identify h.flushAt_gt hkeeps _, rfl, hhands⟩

theorem pushes_chunk {slices : List (ExtentSlice Id)} (h : Building none builder slices)
    (hkeeps : builder.Keeps)
    (hok : (pushChunk identify builder raw predecessor).result = .ok builder') :
    Pushes identify (pushChunk identify builder raw predecessor) builder builder'
      slices ((Push.chunk raw predecessor).slices identify |>.foldl placeExtent slices) := by
  have hrun : (pushRepeatedChunk identify builder raw 1 predecessor).result = .ok builder' := by
    refine (pushRepeatedChunk_eq identify h raw predecessor [predecessor]).trans ?_
    rw [pushChunks, Construction.result_bind, hok]
    rfl
  obtain ⟨hpos, hmost, hfits⟩ := pushRepeatedChunk_fits identify h Nat.one_ne_zero hrun
  rw [Nat.mul_one] at hfits
  have hhands := @pushChunk_hands Id _ identify raw hpos hmost builder slices h.coalesced hfits
    predecessor
  obtain ⟨out, hone, -⟩ := hhands none h
  rw [hone] at hok
  obtain rfl := Except.ok.inj hok
  have hslices : (Push.chunk raw predecessor).slices identify =
      List.replicate 1 (chunkSlice identify raw hpos hmost) := by
    rw [Push.slices, new_chunkSlice identify hpos hmost]
    rfl
  rw [hslices, foldl_placeExtent_replicate rfl 1 h.coalesced]
  exact ⟨keeps_fed identify h.flushAt_gt hkeeps _, rfl, hhands⟩

theorem pushes_extent {slices : List (ExtentSlice Id)} (h : Building none builder slices)
    (hkeeps : builder.Keeps) (hok : (pushExtent identify builder slice).result = .ok builder') :
    Pushes identify (pushExtent identify builder slice) builder builder' slices
      (placeExtent slices slice) := by
  have hfits : totalBytes slices + slice.logicalLength < u64Bound := by
    by_contra hover
    rw [← h.logicalLen_eq] at hover
    have hadd : checkedAdd builder.logicalLen slice.logicalLength = .error .lengthOverflow :=
      if_neg hover
    rw [pushExtent, Construction.result_bind, Construction.result_lift, hadd] at hok
    cases hok
  obtain ⟨next, hkeeps', hsame, hhands⟩ := pushExtent_any identify h hkeeps hfits
  obtain ⟨out, hone, -⟩ := hhands none h
  rw [hone] at hok
  obtain rfl := Except.ok.inj hok
  exact ⟨hkeeps', hsame, hhands⟩

/-- **One push keeps a builder over its slices.** -/
theorem push_pushes {slices : List (ExtentSlice Id)} {next : Push Id}
    (h : Building none builder slices) (hkeeps : builder.Keeps)
    (hok : (push identify builder next).result = .ok builder') :
    Pushes identify (push identify builder next) builder builder' slices
      ((next.slices identify).foldl placeExtent slices) := by
  cases next with
  | chunk raw predecessor => exact pushes_chunk identify h hkeeps hok
  | extent slice => exact pushes_extent identify h hkeeps hok
  | repeated raw count predecessor => exact pushes_repeated identify h hkeeps hok

/-- **A run of pushes keeps a builder over its slices.** -/
theorem pushAll_pushes {pushes : List (Push Id)} : ∀ {builder builder' : ExtentBuilder Id}
    {slices : List (ExtentSlice Id)}, Building none builder slices → builder.Keeps →
    (pushAll identify pushes builder).result = .ok builder' →
    Pushes identify (pushAll identify pushes builder) builder builder' slices
      ((pushes.flatMap (Push.slices identify)).foldl placeExtent slices) := by
  induction pushes with
  | nil =>
    intro builder builder' slices h hkeeps hok
    obtain rfl : builder = builder' := Except.ok.inj hok
    exact ⟨hkeeps, rfl, Hands.pure identify fun _ hstore => hstore⟩
  | cons first rest ih =>
    intro builder builder' slices h hkeeps hok
    rw [pushAll] at hok ⊢
    rw [Construction.result_bind] at hok
    rcases hfirst : (push identify builder first).result with error | next
    · rw [hfirst] at hok
      cases hok
    · rw [hfirst] at hok
      obtain ⟨hkeeps', hsame, hhands⟩ := push_pushes identify h hkeeps hfirst
      obtain ⟨_, -, hnone⟩ := hhands none h
      obtain ⟨hkeeps'', hsame', hrest⟩ := ih (hnone fun _ hgiven => by cases hgiven) hkeeps' hok
      rw [flatMap_cons, foldl_append]
      exact ⟨hkeeps'', hsame'.trans hsame,
        Hands.bind identify (fun _ hstore => hstore.forget) hhands hrest⟩

/-! ## The pages of a tree -/

/-- The pages below a page, each with its context: a child page is no root. -/
inductive PageOf (store : Id → Option (MappingObject Id)) : Id → Bool → Id → Bool → Prop where
  | self {id : Id} {root : Bool} : PageOf store id root id root
  | child {id page : Id} {root context : Bool} {level bytes count : ℕ}
      {children : List (ChildDescriptor Id)} {child : ChildDescriptor Id}
      (hpage : store id = some (.page (.branch level bytes count children)))
      (hchild : child ∈ children) (hbelow : PageOf store child.childObjectId false page context) :
      PageOf store id root page context

theorem exists_of_forall₂ {α β : Type} {r : α → β → Prop} {a : α} {as : List α} {bs : List β}
    (h : List.Forall₂ r as bs) (ha : a ∈ as) : ∃ b, r a b := by
  induction h with
  | nil => cases ha
  | cons hfirst _ ih =>
    rcases mem_cons.mp ha with rfl | ha
    · exact ⟨_, hfirst⟩
    · exact ih ha

/-- **Every page of a valid tree decodes in its own context.** -/
theorem PageOf.decodes {store : Id → Option (MappingObject Id)} {id page : Id}
    {root context : Bool} (h : PageOf store id root page context) : ∀ {level : ℕ}
    {slices : List (ExtentSlice Id)}, Mapped store level root id slices →
    ∃ object node, store page = some object ∧ decodeNodeWithContext object context = .ok node := by
  induction h with
  | self =>
    intro level slices hmapped
    cases level with
    | zero =>
      obtain ⟨hstore, hvalid⟩ := hmapped
      exact ⟨_, _, hstore, decodeNodeWithContext_page hvalid⟩
    | succ level =>
      obtain ⟨children, parts, -, hstore, hvalid, -⟩ := hmapped
      exact ⟨_, _, hstore, decodeNodeWithContext_page hvalid⟩
  | child hpage hchild _ ih =>
    intro level slices hmapped
    cases level with
    | zero =>
      obtain ⟨hstore, -⟩ := hmapped
      rw [hpage] at hstore
      cases hstore
    | succ level =>
      obtain ⟨children, parts, -, hstore, -, -, -, hbelow⟩ := hmapped
      rw [hpage] at hstore
      cases hstore
      obtain ⟨part, hpart⟩ := exists_of_forall₂ hbelow hchild
      exact ih hpart

/-! ## Exactness -/

/-- `STREAM_FLUSH_HEADROOM`. -/
def streamFlushHeadroom : ℕ := 64

/-- `stream_flush_entries`, the bound every construction streams under. -/
def streamFlushEntries : ℕ := maximumEntries + streamFlushHeadroom

/-- **Runs are their chunks one by one, and the finished tree holds the pushed slices.** After any
pushes a run leaves the builder as its chunks one by one do, so that whatever follows finishes with
the same root. And every builder finishes: with no root where no slice arrived, else with a tree
whose slices in order are the pushed ones, contiguous neighbours merged, on pages that the decoder
accepts, each in its own context. -/
theorem builder_exact {pushes : List (Push Id)} {builder : ExtentBuilder Id}
    {out : List (FinalizedObject Id)}
    (hrun : pushAll identify pushes (new streamFlushEntries) = Except.ok (builder, out)) :
    (∀ (raw : List UInt8) (predecessor : Option Id) (hints : List (Option Id))
        (later : List (Push Id)),
      (pushRepeatedChunk identify builder raw hints.length predecessor).result =
        (pushChunks identify raw hints builder).result ∧
      (pushRepeatedChunk identify builder raw hints.length predecessor >>= fun builder =>
          pushAll identify later builder >>= finish identify).result =
        (pushChunks identify raw hints builder >>= fun builder =>
          pushAll identify later builder >>= finish identify).result) ∧
    Coalesced (merged (pushes.flatMap (Push.slices identify))) ∧
    places (merged (pushes.flatMap (Push.slices identify))) =
      places (pushes.flatMap (Push.slices identify)) ∧
    ∃ build last, finish identify builder = Except.ok (build, last) ∧
      (build.root = none ↔ pushes.flatMap (Push.slices identify) = []) ∧
      build.logicalLen = totalBytes (merged (pushes.flatMap (Push.slices identify))) ∧
      ∀ root ∈ build.root, ∀ store, Stored identify store (out ++ last) →
        Mapped store root.level true root.id (merged (pushes.flatMap (Push.slices identify))) ∧
        ∀ page context, PageOf store root.id true page context → ∃ object node,
          store page = some object ∧ decodeNodeWithContext object context = .ok node := by
  obtain ⟨hchain, hplaces⟩ := merged_exact (pushes.flatMap (Push.slices identify))
  obtain ⟨hkeeps, hflush, hhands⟩ := pushAll_pushes identify building_new
    (keeps_new streamFlushEntries) (congrArg Construction.result hrun)
  obtain ⟨out', hrun', hnone⟩ := hhands none building_new
  have hbuilding := hnone fun _ hgiven => by cases hgiven
  have hbound : builder.flushAt = 192 := hflush
  obtain ⟨build, hfinish⟩ := finish_hands identify hbuilding hkeeps (by rw [hbound]; decide)
    (by rw [hbound]; decide)
  obtain ⟨last, hlast, hbuild⟩ := hfinish none hbuilding
  have hbuilt := hbuild fun _ hgiven => by cases hgiven
  refine ⟨fun raw predecessor hints later => ?_, hchain, hplaces, build, last, hlast, ?_,
    hbuilt.logicalLen_eq, fun root hroot store hstored => ?_⟩
  · have hsame := pushRepeatedChunk_eq identify hbuilding raw predecessor hints
    refine ⟨hsame, ?_⟩
    rw [Construction.result_bind, Construction.result_bind, hsame]
  · exact hbuilt.none_iff.trans merged_eq_nil
  · -- the same run and finish, seen from a store that holds what they handed over
    obtain ⟨out'', hrun'', hmapped⟩ := hhands (some store) building_new
    rw [hrun] at hrun''
    cases hrun''
    obtain ⟨last', hlast', hrooted⟩ := hfinish (some store) (hmapped fun given hgiven => by
      cases hgiven
      exact hstored.left)
    rw [hlast] at hlast'
    cases hlast'
    have htree := (hrooted fun given hgiven => by
      cases hgiven
      exact hstored.right).rooted root hroot
    have hmapped := htree.mapped store rfl
    exact ⟨hmapped, fun page context hpage => hpage.decodes hmapped⟩

/-- A chunk, two slices of one payload that continue each other, and a run that fills pages. -/
def samplePushes : List (Push ℕ) :=
  [.chunk [1, 2, 3] none, .extent ⟨7, 0, 2, by decide, by decide⟩,
    .extent ⟨7, 2, 2, by decide, by decide⟩, .repeated [5] 200 none]

/-- Identities that tell the objects of `samplePushes` apart. -/
def sampleIdentify : FileObject ℕ → ℕ
  | .mapping (.chunk raw) => raw.length
  | .mapping (.page (.leaf bytes _)) => 100 + bytes
  | .mapping (.page (.branch _ bytes _ _)) => 1000 + bytes
  | _ => 9

set_option maxRecDepth 20000 in
theorem builder_exact_merged : ∃ builder out build last,
    pushAll sampleIdentify samplePushes (new streamFlushEntries) = Except.ok (builder, out) ∧
    finish sampleIdentify builder = Except.ok (build, last) ∧ build.logicalLen = 207 ∧
      ∀ root ∈ build.root, ∀ store, Stored sampleIdentify store (out ++ last) →
        Mapped store root.level true root.id (⟨3, 0, 3, by decide, by decide⟩ ::
          ⟨7, 0, 4, by decide, by decide⟩ :: List.replicate 200 ⟨1, 0, 1, by decide, by decide⟩) := by
  have hruns : (pushAll sampleIdentify samplePushes (new streamFlushEntries)).result.toOption.isSome =
      true := by decide +kernel
  rcases hrun : pushAll sampleIdentify samplePushes (new streamFlushEntries) with e | ⟨builder, out⟩
  · rw [hrun] at hruns
    cases hruns
  have hslices : merged (samplePushes.flatMap (Push.slices sampleIdentify)) =
      ⟨3, 0, 3, by decide, by decide⟩ :: ⟨7, 0, 4, by decide, by decide⟩ ::
        List.replicate 200 ⟨1, 0, 1, by decide, by decide⟩ := by decide +kernel
  obtain ⟨-, -, -, build, last, hfinish, -, hlen, hroot⟩ := builder_exact sampleIdentify hrun
  rw [hslices] at hlen hroot
  exact ⟨builder, out, build, last, rfl, hfinish, hlen, fun root hmem store hstored =>
    (hroot root hmem store hstored).1⟩

end ExtentBuilder

end LayerFs
