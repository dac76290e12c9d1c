import LayerFs.Mapping.Build

/-!
# Uniform runs

`push_repeated_chunk` (`file/mapping/repeated.rs`) appends one chunk many times. At every level it
places entries through the ordinary path until the level's old entries have left; what is left is
uniform, so one full page stands for all that leave, and the level above repeats its summary.

* `repeatLevels_hands` — **a run of summaries arrives as the paging of its levels says**.
* `pushRepeatedChunk_eq` — **a run leaves the builder as its chunks one by one do**.
-/

namespace LayerFs

open List

variable {Id : Type} [DecidableEq Id] (identify : FileObject Id → Id)
variable {builder : ExtentBuilder Id} {extent : ExtentSlice Id} {slices : List (ExtentSlice Id)}
  {above : List (List (NodeSummary Id))} {hints : List (Option Id)}
  {store : Option (Id → Option (MappingObject Id))} {count : ℕ}

/-! ## The source's operations -/

/-- `u64::checked_mul`. -/
def checkedMul (a b : ℕ) : ContentResult ℕ :=
  if a * b < u64Bound then .ok (a * b) else .error .lengthOverflow

section Level

variable {ε L : Type} (flushAt : ℕ) (emitPage : List ε → Construction Id (NodeSummary Id))
  (raise : List (NodeSummary Id) → L → Construction Id L)

/-- The turns of `repeat` while a level holds old entries: it is filled one over its bound, and its
first page leaves. What is left of the run, the level and those above. -/
def drainOld (entry : ε) : ℕ → ℕ → ℕ → List ε → L → Construction Id (ℕ × List ε × L)
  | 0, _, count, here, above => pure (count, here, above)
  | turns + 1, old, count, here, above =>
    if old = 0 ∨ count = 0 then pure (count, here, above)
    else
      let taken := min count (flushAt + 1 - here.length)
      let filled := here ++ List.replicate taken entry
      if flushAt < filled.length then do
        let (here, above) ← flushLevel flushAt emitPage raise filled above
        drainOld entry turns (old - maximumEntries) (count - taken) here above
      -- the level takes the whole run: the call returns
      else pure (0, filled, above)

/-- `repeat` at one level: `emitUniform` is the page of equal entries, `repeatAbove` the call at the
level above. -/
def repeatLevel (emitUniform : ε → Construction Id (NodeSummary Id))
    (repeatAbove : NodeSummary Id → ℕ → L → Construction Id L) (entry : ε) (count : ℕ)
    (here : List ε) (above : L) : Construction Id (List ε × L) := do
  let (left, here, above) ← drainOld flushAt emitPage raise entry here.length here.length count
    here above
  if left = 0 then return (here, above)
  else
    let total ← checkedAdd here.length left
    let pages := pagesOf flushAt maximumEntries total
    let tail := List.replicate (total - pages * maximumEntries) entry
    if pages = 0 then return (tail, above)
    else
      let summary ← emitUniform entry
      let above ← repeatAbove summary pages above
      return (tail, above)

end Level

/-- `repeat` from a level above the slices. -/
def repeatLevels (flushAt : ℕ) : ℕ → ℕ → NodeSummary Id → ℕ → List (List (NodeSummary Id)) →
    Construction Id (List (List (NodeSummary Id)))
  | 0, _, _, count, levels =>
    if count = 0 then pure levels else (Except.error .mappingDepthExceeded : ContentResult _)
  | room + 1, level, entry, count, levels =>
    if count = 0 then pure levels
    else do
      let (here, above) ← repeatLevel flushAt (emitBranch identify false level)
        (flushLevels identify flushAt room (level + 1))
        (fun child => emitBranch identify false level (List.replicate maximumEntries child))
        (repeatLevels flushAt room (level + 1)) entry count (levels.headD []) levels.tail
      return here :: above

/-- `uniform_node` at level zero. -/
def uniformLeaf (extent : ExtentSlice Id) : ExtentNode Id :=
  .leaf (extent.logicalLength * maximumEntries) (List.replicate maximumEntries extent)

/-- The object of a chunk, within the largest payload (`encode_chunk_object`). -/
def chunkObject (raw : List UInt8) : ContentResult (FileObject Id) := do
  ensure (decide (raw.length ≤ maximumChunkBytes)) (.objectLimitExceeded maximumChunkBytes raw.length)
  return .mapping (.chunk raw)

namespace ExtentBuilder

/-- `push_chunk`. -/
def pushChunk (builder : ExtentBuilder Id) (raw : List UInt8) (predecessor : Option Id) :
    Construction Id (ExtentBuilder Id) := do
  let object ← chunkObject raw
  Construction.accept ⟨object, predecessor⟩
  let extent ← ExtentSlice.new (identify object) 0 raw.length
  pushExtent identify builder extent

/-- `push_repeated_chunk_with_predecessor`. -/
def pushRepeatedChunk (builder : ExtentBuilder Id) (raw : List UInt8) (count : ℕ)
    (predecessor : Option Id) : Construction Id (ExtentBuilder Id) :=
  if count = 0 then pure builder
  else do
    let object ← chunkObject raw
    let bytes ← checkedMul raw.length count
    let extent ← ExtentSlice.new (identify object) 0 raw.length
    let logicalLen ← checkedAdd builder.logicalLen bytes
    Construction.accept ⟨object, predecessor⟩
    let (extents, children) ← repeatLevel builder.flushAt (emitLeaf identify false)
      (flushLevels identify builder.flushAt maximumLevel 1)
      (fun extent => emitNode identify (uniformLeaf extent) false)
      (repeatLevels identify builder.flushAt maximumLevel 1) extent count builder.extents
      builder.children
    return { builder with extents := extents, children := children, logicalLen := logicalLen }

end ExtentBuilder

/-! ## What a construction hands over -/

/-- **A construction and the stores that hold its objects**: from every store with `P` it computes
`x`, and `Q` holds of the store once it holds what was handed over. -/
def Hands {α : Type} (P : Option (Id → Option (MappingObject Id)) → Prop) (op : Construction Id α)
    (x : α) (Q : Option (Id → Option (MappingObject Id)) → Prop) : Prop :=
  ∀ store, P store → ∃ out, op = Except.ok (x, out) ∧
    ((∀ given ∈ store, Stored identify given out) → Q store)

section Hands

variable {α β : Type} {P Q R : Option (Id → Option (MappingObject Id)) → Prop}

variable {x : α}
omit [DecidableEq Id] in
theorem Hands.pure (h : ∀ store, P store → Q store) : Hands identify P (pure x) x Q :=
  fun store hstore => ⟨[], rfl, fun _ => h store hstore⟩

variable {op : Construction Id α}

omit [DecidableEq Id] in
theorem Hands.imp {P' Q' : Option (Id → Option (MappingObject Id)) → Prop}
    (h : Hands identify P op x Q) (hP : ∀ store, P' store → P store)
    (hQ : ∀ store, Q store → Q' store) : Hands identify P' op x Q' := by
  intro store hstore
  obtain ⟨out, hop, hout⟩ := h store (hP store hstore)
  exact ⟨out, hop, fun hstored => hQ store (hout hstored)⟩

variable {f : α → Construction Id β} {y : β}

omit [DecidableEq Id] in
/-- **Two halves**: the second is run where no store is given to see what it hands over, and where
one is given to see what it maps. -/
theorem Hands.bind (hforget : ∀ store, P store → P none) (hop : Hands identify P op x Q)
    (hf : Hands identify Q (f x) y R) : Hands identify P (op >>= f) y R := by
  intro store hstore
  obtain ⟨out, hout, hmapped⟩ := hop store hstore
  obtain ⟨out', hout', hnone⟩ := hop none (hforget store hstore)
  obtain ⟨later, hlater, -⟩ := hf none (hnone fun _ hgiven => by cases hgiven)
  refine ⟨out ++ later, Construction.bind_ok hout hlater, fun hstored => ?_⟩
  obtain ⟨later', hlater', hrest⟩ := hf store (hmapped fun given hgiven =>
    (hstored given hgiven).left)
  rw [hlater] at hlater'
  cases hlater'
  exact hrest fun given hgiven => (hstored given hgiven).right

omit [DecidableEq Id] in
theorem Hands.lift {a : α} {check : ContentResult α} (hcheck : check = .ok a)
    (hf : Hands identify P (f a) y R) : Hands identify P (liftM check >>= f) y R := by
  intro store hstore
  obtain ⟨out, hout, hrest⟩ := hf store hstore
  exact ⟨[] ++ out, Construction.bind_ok (Construction.lift_ok hcheck) hout, hrest⟩

end Hands

/-! ## One level -/

/-- What the entries of one level stand for: `R` relates an entry to its slices, `node` is the page
of entries, and full pages of them leave as summaries of the level `lvl`. -/
structure Pages {ε : Type} (lvl : ℕ)
    (R : Option (Id → Option (MappingObject Id)) → ε → List (ExtentSlice Id) → Prop)
    (emitPage : List ε → Construction Id (NodeSummary Id)) (node : List ε → ExtentNode Id) :
    Prop where
  emits : ∀ {store page parts}, List.Forall₂ (R store) page parts →
    page.length = maximumEntries → Coalesced parts.flatten → totalBytes parts.flatten < u64Bound →
    emitPage page = Except.ok (summaryOf identify (node page), pageOut (node page)) ∧
      ((∀ given ∈ store, Stored identify given (pageOut (node page))) →
        Sealed store lvl (summaryOf identify (node page)) parts.flatten)
  forget : ∀ {store entry part}, R store entry part → R none entry part
  length_eq : ∀ {store entry part part'}, R store entry part → R store entry part' →
    part.length = part'.length
  nonempty : ∀ {store entry part}, R store entry part → 0 < part.length

/-- **A level over some slices**: its entries and the levels above cover them. -/
structure Held {ε : Type} (store : Option (Id → Option (MappingObject Id))) (flushAt lvl : ℕ)
    (R : Option (Id → Option (MappingObject Id)) → ε → List (ExtentSlice Id) → Prop)
    (here : List ε) (above : List (List (NodeSummary Id))) (slices : List (ExtentSlice Id)) :
    Prop where
  fits : here.length ≤ flushAt
  covers : ∃ before parts, slices = before ++ parts.flatten ∧
    List.Forall₂ (R store) here parts ∧ Tower store flushAt lvl above before

/-- A level and those above once `count` equal entries have arrived. -/
def arrived {ε : Type} (flushAt room lvl : ℕ) (node : List ε → ExtentNode Id) (entry : ε)
    (count : ℕ) (here : List ε) (above : List (List (NodeSummary Id))) :
    List ε × List (List (NodeSummary Id)) :=
  let paged := paginate flushAt maximumEntries here (List.replicate count entry)
  (paged.2, raised identify flushAt room (lvl + 1)
    (paged.1.map fun page => summaryOf identify (node page)) above)

section Run

variable {ε : Type} {flushAt room lvl : ℕ}
  {R : Option (Id → Option (MappingObject Id)) → ε → List (ExtentSlice Id) → Prop}
  {emitPage : List ε → Construction Id (NodeSummary Id)} {node : List ε → ExtentNode Id}
  {entry : ε} {part : List (ExtentSlice Id)}

variable {here : List ε}
omit [DecidableEq Id] in
theorem arrived_add {a b : ℕ} :
    arrived identify flushAt room lvl node entry (a + b) here above =
      arrived identify flushAt room lvl node entry b
        (arrived identify flushAt room lvl node entry a here above).1
        (arrived identify flushAt room lvl node entry a here above).2 := by
  rw [arrived, ← replicate_append_replicate, paginate_append]
  dsimp only
  rw [map_append, raised_append]
  rfl

omit [DecidableEq Id] in
theorem arrived_fits (h : here.length + count ≤ flushAt) :
    arrived identify flushAt room lvl node entry count here above =
      (here ++ List.replicate count entry, above) := by
  rw [arrived, paginate_of_fits (by rw [length_replicate]; exact h), map_nil, raised_nil]

omit [DecidableEq Id] in
theorem arrived_passes (hhere : here.length ≤ flushAt) (h : here.length + count = flushAt + 1) :
    arrived identify flushAt room lvl node entry count here above =
      ((here ++ List.replicate count entry).drop maximumEntries,
        raised identify flushAt room (lvl + 1) [summaryOf identify
          (node ((here ++ List.replicate count entry).take maximumEntries))] above) := by
  rw [arrived, paginate_of_passes hhere (by rw [length_replicate]; exact h)]
  rfl

omit [DecidableEq Id] in
theorem forall₂_replicate {S : ε → List (ExtentSlice Id) → Prop} (h : S entry part) (count : ℕ) :
    List.Forall₂ S (List.replicate count entry) (List.replicate count part) := by
  induction count with
  | zero => exact .nil
  | succ count ih => exact .cons h ih

theorem Held.forget (hpages : Pages identify lvl R emitPage node)
    (h : Held store flushAt lvl R here above slices) :
    Held none flushAt lvl R here above slices := by
  obtain ⟨hfits, before, parts, hslices, hparts, htower⟩ := h
  exact ⟨hfits, before, parts, hslices, hparts.imp fun _ _ => hpages.forget, htower.forget⟩

/-- **One over its bound, a level hands over its first page**, whose summary arrives above. -/
theorem flushLevel_hands (hpages : Pages identify lvl R emitPage node)
    (hflush : maximumEntries < flushAt) (hroom : 31 ≤ room + lvl)
    (hcount : here.length + count = flushAt + 1)
    (hchain : Coalesced (slices ++ (List.replicate count part).flatten))
    (hbound : totalBytes (slices ++ (List.replicate count part).flatten) < u64Bound) :
    Hands identify (fun store => Held store flushAt lvl R here above slices ∧ R store entry part)
      (flushLevel flushAt emitPage (flushLevels identify flushAt room (lvl + 1))
        (here ++ List.replicate count entry) above)
      (arrived identify flushAt room lvl node entry count here above)
      (fun store => Held store flushAt lvl R
        (arrived identify flushAt room lvl node entry count here above).1
        (arrived identify flushAt room lvl node entry count here above).2
        (slices ++ (List.replicate count part).flatten) ∧ R store entry part) := by
  rintro store ⟨⟨hfits, before, parts, rfl, hparts, htower⟩, hentry⟩
  have hentries := show maximumEntries = 128 from rfl
  rw [arrived_passes identify hfits hcount]
  have hall : List.Forall₂ (R store) (here ++ List.replicate count entry)
      (parts ++ List.replicate count part) :=
    rel_append hparts (forall₂_replicate hentry count)
  have hflat : (parts ++ List.replicate count part).flatten =
      parts.flatten ++ (List.replicate count part).flatten := flatten_append
  rw [append_assoc, ← hflat] at hchain hbound ⊢
  have hlength : (here ++ List.replicate count entry).length = flushAt + 1 := by
    rw [length_append, length_replicate, hcount]
  generalize here ++ List.replicate count entry = filled at hall hlength ⊢
  generalize parts ++ List.replicate count part = allParts at hall hflat hchain hbound ⊢
  have hpageLength : (filled.take maximumEntries).length = maximumEntries := by
    rw [length_take]
    omega
  have hcut : allParts.flatten =
      (allParts.take maximumEntries).flatten ++ (allParts.drop maximumEntries).flatten := by
    rw [← flatten_append, take_append_drop]
  rw [hcut, totalBytes_append, totalBytes_append] at hbound
  have hpage := forall₂_take maximumEntries hall
  have hrest := forall₂_drop maximumEntries hall
  have hpageChain : Coalesced (allParts.take maximumEntries).flatten := by
    rw [hcut] at hchain
    exact hchain.right_of_append.left_of_append
  obtain ⟨hemit, hsealed⟩ := hpages.emits hpage hpageLength hpageChain (by omega)
  obtain ⟨-, hnone⟩ := hpages.emits (hpage.imp fun _ _ => hpages.forget) hpageLength hpageChain
    (by omega)
  obtain ⟨out, hraise, -⟩ := flushLevels_single identify hflush hroom htower.forget
    (hnone fun _ hgiven => by cases hgiven) (by rw [totalBytes_append]; omega)
  refine ⟨_, flushLevel_passes hlength hemit hraise, fun hstored => ⟨⟨?_, ?_⟩, hentry⟩⟩
  · rw [length_drop]
    omega
  · obtain ⟨out', hraise', htower'⟩ := flushLevels_single identify hflush hroom htower
      (hsealed fun given hgiven => (hstored given hgiven).left) (by rw [totalBytes_append]; omega)
    rw [hraise] at hraise'
    cases hraise'
    refine ⟨_, _, ?_, hrest, htower' fun given hgiven => (hstored given hgiven).right⟩
    rw [append_assoc, ← hcut]

/-- **While old entries are there, the run arrives entry by entry**; what is left of it then meets
only entries of its own. -/
theorem drainOld_hands (hpages : Pages identify lvl R emitPage node)
    (hflush : maximumEntries < flushAt) (hroom : 31 ≤ room + lvl) {turns : ℕ} :
    ∀ {old m count : ℕ} {olds here : List ε} {above : List (List (NodeSummary Id))}
      {slices : List (ExtentSlice Id)}, old ≤ turns → olds.length ≤ old →
      here = olds ++ List.replicate m entry → here.length ≤ flushAt →
      Coalesced (slices ++ (List.replicate count part).flatten) →
      totalBytes (slices ++ (List.replicate count part).flatten) < u64Bound →
      ∃ placed left, count = placed + left ∧
        (left ≠ 0 → ∃ k, k ≤ m + placed ∧
          (arrived identify flushAt room lvl node entry placed here above).1 =
            List.replicate k entry) ∧
        Hands identify
          (fun store => Held store flushAt lvl R here above slices ∧ R store entry part)
          (drainOld flushAt emitPage (flushLevels identify flushAt room (lvl + 1)) entry turns old
            count here above)
          (left, (arrived identify flushAt room lvl node entry placed here above).1,
            (arrived identify flushAt room lvl node entry placed here above).2)
          (fun store => Held store flushAt lvl R
            (arrived identify flushAt room lvl node entry placed here above).1
            (arrived identify flushAt room lvl node entry placed here above).2
            (slices ++ (List.replicate placed part).flatten) ∧ R store entry part) := by
  have hentries := show maximumEntries = 128 from rfl
  -- a call that stops at once has placed nothing
  have hstop : ∀ {m count : ℕ} {olds here : List ε} {above : List (List (NodeSummary Id))}
      {slices : List (ExtentSlice Id)} {op}, (count ≠ 0 → olds = []) →
      here = olds ++ List.replicate m entry → here.length ≤ flushAt →
      op = (pure (count, here, above) : Construction Id _) →
      ∃ placed left, count = placed + left ∧
        (left ≠ 0 → ∃ k, k ≤ m + placed ∧
          (arrived identify flushAt room lvl node entry placed here above).1 =
            List.replicate k entry) ∧
        Hands identify
          (fun store => Held store flushAt lvl R here above slices ∧ R store entry part) op
          (left, (arrived identify flushAt room lvl node entry placed here above).1,
            (arrived identify flushAt room lvl node entry placed here above).2)
          (fun store => Held store flushAt lvl R
            (arrived identify flushAt room lvl node entry placed here above).1
            (arrived identify flushAt room lvl node entry placed here above).2
            (slices ++ (List.replicate placed part).flatten) ∧ R store entry part) := by
    intro m count olds here above slices op holds hhere hfits hop
    refine ⟨0, count, (Nat.zero_add _).symm, fun hleft => ⟨m, Nat.le_refl _, ?_⟩, ?_⟩
    · rw [arrived_fits identify (by omega), hhere, holds hleft]
      simp
    · rw [arrived_fits identify (by omega), hop]
      simpa using Hands.pure identify fun store h => h
  induction turns with
  | zero =>
    intro old m count olds here above slices hold holds hhere hfits hchain hbound
    refine hstop (fun _ => length_eq_zero_iff.mp (by omega)) hhere hfits ?_
    rw [drainOld]
  | succ turns ih =>
    intro old m count olds here above slices hold holds hhere hfits hchain hbound
    rw [drainOld]
    by_cases hend : old = 0 ∨ count = 0
    · refine hstop (fun hcount => length_eq_zero_iff.mp ?_) hhere hfits (if_pos hend)
      have := hend.resolve_right hcount
      omega
    rw [if_neg hend]
    dsimp only
    generalize htaken : min count (flushAt + 1 - here.length) = taken
    rw [length_append, length_replicate]
    by_cases hover : flushAt < here.length + taken
    · -- the level is one over its bound: its first page leaves, and the run goes on
      have hpasses : here.length + taken = flushAt + 1 := by omega
      obtain ⟨rest, rfl⟩ : ∃ rest, count = taken + rest := ⟨count - taken, by omega⟩
      rw [← replicate_append_replicate, flatten_append, ← append_assoc] at hchain hbound
      have hkept : (arrived identify flushAt room lvl node entry taken here above).1 =
          olds.drop maximumEntries ++
            List.replicate (m + taken - (maximumEntries - olds.length)) entry := by
        rw [arrived_passes identify hfits hpasses, hhere, append_assoc,
          replicate_append_replicate, drop_append, drop_replicate]
      have hbelow : (arrived identify flushAt room lvl node entry taken here above).1.length ≤
          flushAt := by
        rw [arrived_passes identify hfits hpasses, length_drop, length_append,
          length_replicate]
        omega
      have hdropped : (olds.drop maximumEntries).length ≤ old - maximumEntries := by
        rw [length_drop]
        omega
      obtain ⟨placed, left, rfl, huniform, hhands⟩ := @ih _ _ _ _ _
        (arrived identify flushAt room lvl node entry taken here above).2 _
        (show old - maximumEntries ≤ turns by omega) hdropped hkept hbelow hchain hbound
      rw [← arrived_add] at huniform hhands
      refine ⟨taken + placed, left, by omega, fun hleft => ?_, ?_⟩
      · obtain ⟨k, hk, heq⟩ := huniform hleft
        exact ⟨k, by omega, heq⟩
      · rw [if_pos hover, Nat.add_sub_cancel_left, ← replicate_append_replicate,
          flatten_append, ← append_assoc]
        refine Hands.bind identify (fun store h => ⟨h.1.forget identify hpages, hpages.forget h.2⟩)
          (flushLevel_hands identify hpages hflush hroom hpasses hchain.left_of_append ?_) hhands
        rw [totalBytes_append] at hbound
        omega
    · -- the level takes what is left of the run
      have hall : taken = count := by omega
      subst hall
      refine ⟨taken, 0, rfl, fun h => absurd rfl h, ?_⟩
      rw [if_neg hover, arrived_fits identify (by omega)]
      refine Hands.pure identify fun store h => ⟨⟨?_, ?_⟩, h.2⟩
      · rw [length_append, length_replicate]
        omega
      · obtain ⟨before, parts, rfl, hparts, htower⟩ := h.1.covers
        refine ⟨before, parts ++ List.replicate taken part, ?_,
          rel_append hparts (forall₂_replicate h.2 taken), htower⟩
        rw [flatten_append, append_assoc]

theorem length_flatten_of_replicate (hpages : Pages identify lvl R emitPage node)
    (hentry : R store entry part) {k : ℕ} :
    ∀ {parts : List (List (ExtentSlice Id))},
      List.Forall₂ (R store) (List.replicate k entry) parts →
      parts.flatten.length = (List.replicate k part).flatten.length := by
  induction k with
  | zero =>
    intro parts h
    cases h
    rfl
  | succ k ih =>
    intro parts h
    rw [replicate_succ] at h ⊢
    cases h with
    | cons hfirst hrest =>
      rw [flatten_cons, flatten_cons, length_append, length_append, ih hrest,
        hpages.length_eq hfirst hentry]

omit [DecidableEq Id] in
theorem flatten_replicate_flatten (a b : ℕ) :
    (List.replicate a (List.replicate b part).flatten).flatten =
      (List.replicate (a * b) part).flatten := by
  rw [← map_replicate, ← flatten_flatten, flatten_replicate_replicate]

theorem pagesOf_mul_le {bound total : ℕ} (hbound : maximumEntries ≤ bound) :
    pagesOf bound maximumEntries total * maximumEntries ≤ total := by
  have hentries := show maximumEntries = 128 from rfl
  have hle := Nat.div_mul_le_self (total - bound + (maximumEntries - 1)) maximumEntries
  rw [pagesOf]
  rcases Nat.le_total total bound with hfew | hmany
  · rw [Nat.sub_eq_zero_of_le hfew, Nat.div_eq_of_lt (by omega)]
    omega
  · omega

/-- **A run at one level arrives as its paging says**, when runs above do. -/
theorem repeatLevel_hands (hpages : Pages identify lvl R emitPage node)
    (hflush : maximumEntries < flushAt) (hroom : 31 ≤ room + lvl)
    {emitUniform : ε → Construction Id (NodeSummary Id)}
    (huniform : ∀ {x}, emitPage (List.replicate maximumEntries entry) = Except.ok x →
      emitUniform entry = Except.ok x)
    {repeatAbove : NodeSummary Id → ℕ → List (List (NodeSummary Id)) →
      Construction Id (List (List (NodeSummary Id)))}
    (hrepeat : ∀ {summary : NodeSummary Id} {part : List (ExtentSlice Id)} {count : ℕ}
      {above : List (List (NodeSummary Id))} {before : List (ExtentSlice Id)},
      0 < part.length → Coalesced (before ++ (List.replicate count part).flatten) →
      totalBytes (before ++ (List.replicate count part).flatten) < u64Bound →
      Hands identify
        (fun store => Tower store flushAt lvl above before ∧ Sealed store lvl summary part)
        (repeatAbove summary count above)
        (raised identify flushAt room (lvl + 1) (List.replicate count summary) above)
        (fun store => Tower store flushAt lvl
          (raised identify flushAt room (lvl + 1) (List.replicate count summary) above)
          (before ++ (List.replicate count part).flatten))) (hfits : here.length ≤ flushAt)
    (hpos : 0 < part.length) (hchain : Coalesced (slices ++ (List.replicate count part).flatten))
    (hbound : totalBytes (slices ++ (List.replicate count part).flatten) < u64Bound) :
    Hands identify (fun store => Held store flushAt lvl R here above slices ∧ R store entry part)
      (repeatLevel flushAt emitPage (flushLevels identify flushAt room (lvl + 1)) emitUniform
        repeatAbove entry count here above)
      (arrived identify flushAt room lvl node entry count here above)
      (fun store => Held store flushAt lvl R
        (arrived identify flushAt room lvl node entry count here above).1
        (arrived identify flushAt room lvl node entry count here above).2
        (slices ++ (List.replicate count part).flatten)) := by
  have hentries := show maximumEntries = 128 from rfl
  obtain ⟨placed, left, rfl, hkept, hdrain⟩ := @drainOld_hands _ _ identify _ flushAt room lvl R
    emitPage node entry part hpages hflush hroom here.length here.length 0 _ here here above slices
    (Nat.le_refl _) (Nat.le_refl _) (by simp) hfits hchain hbound
  refine Hands.bind identify (fun store h => ⟨h.1.forget identify hpages, hpages.forget h.2⟩)
    hdrain ?_
  dsimp only
  by_cases hleft : left = 0
  · subst hleft
    rw [if_pos rfl]
    exact Hands.pure identify fun store h => h.1
  obtain ⟨k, hk, huni⟩ := hkept hleft
  rw [if_neg hleft, arrived_add]
  generalize harrived : arrived identify flushAt room lvl node entry placed here above = state
    at huni hdrain ⊢
  obtain ⟨here', above'⟩ := state
  dsimp only at huni hdrain ⊢
  subst huni
  rw [length_replicate]
  have hkfits : k ≤ flushAt := by
    have hrest := @paginate_rest ε flushAt maximumEntries (by decide) (List.replicate placed entry)
      here hfits
    rw [arrived] at harrived
    rw [(Prod.mk.inj harrived).1, length_replicate] at hrest
    exact hrest
  have hsplit : (List.replicate (placed + left) part).flatten =
      (List.replicate (placed - k) part).flatten ++ (List.replicate k part).flatten ++
        (List.replicate left part).flatten := by
    rw [← flatten_append, ← flatten_append, replicate_append_replicate,
      replicate_append_replicate]
    congr 2
    omega
  -- every entry stands for a slice, and slices are at least a byte
  have hcount : k + left < u64Bound := by
    have hslices := length_le_totalBytes (slices ++ (List.replicate (placed + left) part).flatten)
    have hlength : (List.replicate (placed + left) part).flatten.length =
        (placed + left) * part.length := by
      rw [length_flatten, map_replicate, sum_replicate_nat]
    have hmul : (placed + left) * 1 ≤ (placed + left) * part.length := Nat.mul_le_mul_left _ hpos
    rw [length_append, hlength] at hslices
    omega
  rw [arrived, paginate_replicate (by decide) hflush.le hkfits]
  refine Hands.lift identify (checkedAdd_eq_ok.mpr ⟨hcount, rfl⟩) ?_
  dsimp only
  by_cases hnone : pagesOf flushAt maximumEntries (k + left) = 0
  · -- nothing leaves
    have hroomy : k + left ≤ flushAt := by
      rw [pagesOf, Nat.div_eq_zero_iff] at hnone
      omega
    rw [if_pos hnone, hnone, Nat.zero_mul, Nat.sub_zero, replicate_zero, map_nil,
      raised_nil]
    refine Hands.pure identify fun store h => ⟨by rw [length_replicate]; exact hroomy, ?_⟩
    obtain ⟨before, parts, hslices, hparts, htower⟩ := h.1.covers
    refine ⟨before, parts ++ List.replicate left part, ?_, ?_, htower⟩
    · rw [← replicate_append_replicate, flatten_append, ← append_assoc, hslices,
        append_assoc, flatten_append]
    · rw [← replicate_append_replicate]
      exact rel_append hparts (forall₂_replicate h.2 left)
  · rw [if_neg hnone, map_replicate]
    have hmul := @pagesOf_mul_le flushAt (k + left) hflush.le
    have htail : k + left - pagesOf flushAt maximumEntries (k + left) * maximumEntries ≤ flushAt := by
      have hrest := @paginate_rest ε flushAt maximumEntries (by decide) (List.replicate left entry)
        (List.replicate k entry) (by rwa [length_replicate])
      rwa [paginate_replicate (by decide) hflush.le hkfits, length_replicate] at hrest
    generalize pagesOf flushAt maximumEntries (k + left) = pages at hnone hmul htail ⊢
    -- what the levels above cover already
    have hcovers : ∀ store, (Held store flushAt lvl R (List.replicate k entry) above'
        (slices ++ (List.replicate placed part).flatten) ∧ R store entry part) →
        Tower store flushAt lvl above' (slices ++ (List.replicate (placed - k) part).flatten) ∧
          R store entry part := by
      rintro store ⟨⟨-, before, parts, hslices, hparts, htower⟩, hentry⟩
      have hlength := length_flatten_of_replicate identify hpages hentry hparts
      have hplaced : (List.replicate placed part).flatten =
          (List.replicate (placed - k) part).flatten ++ (List.replicate k part).flatten := by
        rw [← flatten_append, replicate_append_replicate]
        congr 2
        omega
      rw [hplaced, ← append_assoc] at hslices
      rw [(append_inj' hslices hlength.symm).1]
      exact ⟨htower, hentry⟩
    refine Hands.imp identify ?_ hcovers fun _ h => h
    clear hcovers hdrain harrived
    have hwhole : slices ++ (List.replicate (placed + left) part).flatten =
        (slices ++ (List.replicate (placed - k) part).flatten ++
          (List.replicate pages (List.replicate maximumEntries part).flatten).flatten) ++
          (List.replicate (k + left - pages * maximumEntries) part).flatten := by
      rw [flatten_replicate_flatten, append_assoc, append_assoc, ← flatten_append,
        ← flatten_append, replicate_append_replicate, replicate_append_replicate]
      congr 3
      omega
    rw [hwhole] at hchain hbound ⊢
    rw [totalBytes_append] at hbound
    generalize slices ++ (List.replicate (placed - k) part).flatten = before at hchain hbound ⊢
    have hpagesChain := hchain.left_of_append
    obtain ⟨more, rfl⟩ : ∃ more, pages = more + 1 := ⟨pages - 1, by omega⟩
    have hpage : Coalesced (List.replicate maximumEntries part).flatten ∧
        totalBytes (List.replicate maximumEntries part).flatten < u64Bound := by
      rw [replicate_succ, flatten_cons] at hpagesChain hbound
      rw [totalBytes_append, totalBytes_append] at hbound
      exact ⟨hpagesChain.right_of_append.left_of_append, by omega⟩
    have hpageLength : 0 < (List.replicate maximumEntries part).flatten.length := by
      rw [length_flatten, map_replicate, sum_replicate_nat]
      exact Nat.mul_pos (by decide) hpos
    refine Hands.bind identify (fun store h => ⟨h.1.forget, hpages.forget h.2⟩)
      (x := summaryOf identify (node (List.replicate maximumEntries entry)))
      (Q := fun store => (Tower store flushAt lvl above' before ∧ Sealed store lvl
        (summaryOf identify (node (List.replicate maximumEntries entry)))
        (List.replicate maximumEntries part).flatten) ∧ R store entry part) ?_ ?_
    · rintro store ⟨htower, hentry⟩
      obtain ⟨hemit, hsealed⟩ := hpages.emits (forall₂_replicate hentry maximumEntries)
        length_replicate hpage.1 hpage.2
      exact ⟨_, huniform hemit, fun hstored => ⟨⟨htower, hsealed hstored⟩, hentry⟩⟩
    · refine Hands.bind identify (fun store h => ⟨⟨h.1.1.forget, h.1.2.forget⟩, hpages.forget h.2⟩)
        (x := raised identify flushAt room (lvl + 1) (List.replicate (more + 1)
          (summaryOf identify (node (List.replicate maximumEntries entry)))) above')
        (Q := fun store => Tower store flushAt lvl
          (raised identify flushAt room (lvl + 1) (List.replicate (more + 1)
            (summaryOf identify (node (List.replicate maximumEntries entry)))) above')
          (before ++ (List.replicate (more + 1)
            (List.replicate maximumEntries part).flatten).flatten) ∧ R store entry part) ?_ ?_
      · rintro store ⟨hready, hentry⟩
        obtain ⟨out, hop, hmapped⟩ := hrepeat hpageLength hpagesChain (by omega) store hready
        exact ⟨out, hop, fun hstored => ⟨hmapped hstored, hentry⟩⟩
      · refine Hands.pure identify fun store h => ⟨?_, _, _, rfl, forall₂_replicate h.2 _, h.1⟩
        rw [length_replicate]
        exact htail

end Run

/-! ## Levels above the slices -/

section Levels

variable {flushAt : ℕ}

theorem pages_branch {level : ℕ} :
    Pages identify (level + 1) (fun store => Sealed store level)
      (emitBranch identify false (level + 1)) (branchNode (level + 1)) where
  emits := by
    intro store page parts hparts hlength _ hbound
    have hfull := emitBranch_full identify hparts hlength.ge hbound
    rw [take_of_length_le hlength.le, take_of_length_le
      (by rw [← hparts.length_eq]; exact hlength.le)] at hfull
    exact hfull
  forget h := h.forget
  length_eq h h' := h.extents_eq.symm.trans h'.extents_eq
  nonempty h := h.extents_pos

/-- **A run of summaries arrives as the paging of its levels says.** -/
theorem repeatLevels_hands (hflush : maximumEntries < flushAt) : ∀ {room level : ℕ}
    {summary : NodeSummary Id} {part : List (ExtentSlice Id)} {count : ℕ}
    {levels : List (List (NodeSummary Id))} {before : List (ExtentSlice Id)}, 31 ≤ room + level →
    0 < part.length → Coalesced (before ++ (List.replicate count part).flatten) →
    totalBytes (before ++ (List.replicate count part).flatten) < u64Bound →
    Hands identify
      (fun store => Tower store flushAt level levels before ∧ Sealed store level summary part)
      (repeatLevels identify flushAt room (level + 1) summary count levels)
      (raised identify flushAt room (level + 1) (List.replicate count summary) levels)
      (fun store => Tower store flushAt level
        (raised identify flushAt room (level + 1) (List.replicate count summary) levels)
        (before ++ (List.replicate count part).flatten)) := by
  intro room
  -- nothing arrives of a run of none
  have hnone : ∀ {level : ℕ} {summary : NodeSummary Id} {part : List (ExtentSlice Id)}
      {levels : List (List (NodeSummary Id))} {before : List (ExtentSlice Id)} {room : ℕ},
      Hands identify
        (fun store => Tower store flushAt level levels before ∧ Sealed store level summary part)
        (pure levels : Construction Id _)
        (raised identify flushAt room (level + 1) (List.replicate 0 summary) levels)
        (fun store => Tower store flushAt level
          (raised identify flushAt room (level + 1) (List.replicate 0 summary) levels)
          (before ++ (List.replicate 0 part).flatten)) := by
    intro level summary part levels before room
    rw [replicate_zero, raised_nil, replicate_zero, flatten_nil, append_nil]
    exact Hands.pure identify fun store h => h.1
  induction room with
  | zero =>
    intro level summary part count levels before hroom hpos hchain hbound
    rw [repeatLevels]
    rcases count with _ | count
    · exact hnone
    · rintro store ⟨-, hsummary⟩
      rw [replicate_succ, flatten_cons, totalBytes_append, totalBytes_append] at hbound
      have := hsummary.level_lt (by omega)
      omega
  | succ room ih =>
    intro level summary part count levels before hroom hpos hchain hbound
    rw [repeatLevels]
    rcases count with _ | count
    · exact hnone
    · rw [if_neg (Nat.succ_ne_zero count)]
      rintro store ⟨htower, hsummary⟩
      obtain ⟨hfits, before', parts, hslices, hparts, habove⟩ := htower.split
      have hlevel : Hands identify
          (fun store => Held store flushAt (level + 1) (fun store => Sealed store level)
            (levels.headD []) levels.tail before ∧ Sealed store level summary part)
          (repeatLevel flushAt (emitBranch identify false (level + 1))
            (flushLevels identify flushAt room (level + 1 + 1))
            (fun child =>
              emitBranch identify false (level + 1) (List.replicate maximumEntries child))
            (repeatLevels identify flushAt room (level + 1 + 1)) summary (count + 1)
            (levels.headD []) levels.tail)
          (arrived identify flushAt room (level + 1) (branchNode (level + 1)) summary (count + 1)
            (levels.headD []) levels.tail)
          (fun store => Held store flushAt (level + 1) (fun store => Sealed store level)
            (arrived identify flushAt room (level + 1) (branchNode (level + 1)) summary (count + 1)
              (levels.headD []) levels.tail).1
            (arrived identify flushAt room (level + 1) (branchNode (level + 1)) summary (count + 1)
              (levels.headD []) levels.tail).2
            (before ++ (List.replicate (count + 1) part).flatten)) :=
        repeatLevel_hands identify (pages_branch identify) hflush
          (show 31 ≤ room + (level + 1) by omega) (fun h => h)
          (fun hpos hchain hbound => ih (by omega) hpos hchain hbound) hfits hpos hchain hbound
      obtain ⟨out, hop, hmapped⟩ := hlevel store
        ⟨⟨hfits, before', parts, hslices, hparts, habove⟩, hsummary⟩
      have hraised : raised identify flushAt (room + 1) (level + 1)
          (List.replicate (count + 1) summary) levels =
          (arrived identify flushAt room (level + 1) (branchNode (level + 1)) summary (count + 1)
            (levels.headD []) levels.tail).1 ::
          (arrived identify flushAt room (level + 1) (branchNode (level + 1)) summary (count + 1)
            (levels.headD []) levels.tail).2 := by
        rw [raised, if_neg (by simp)]
        rfl
      rw [hraised]
      refine ⟨out ++ [], Construction.bind_ok hop rfl, fun hstored => ?_⟩
      obtain ⟨hfits', hcovers⟩ := hmapped fun given hgiven => (hstored given hgiven).left
      exact ⟨hfits', hcovers⟩

end Levels

/-! ## The slices -/

namespace ExtentBuilder

def pushChunks (raw : List UInt8) : List (Option Id) → ExtentBuilder Id →
    Construction Id (ExtentBuilder Id)
  | [], builder => pure builder
  | predecessor :: rest, builder => do
    let builder ← pushChunk identify builder raw predecessor
    pushChunks raw rest builder

def Itself (_ : Option (Id → Option (MappingObject Id))) (extent : ExtentSlice Id)
    (part : List (ExtentSlice Id)) : Prop := part = [extent]

omit [DecidableEq Id] in
theorem flatten_of_itself {extents : List (ExtentSlice Id)} {parts : List (List (ExtentSlice Id))}
    (h : List.Forall₂ (Itself store) extents parts) : parts.flatten = extents := by
  induction h with
  | nil => rfl
  | cons hfirst _ ih =>
    rw [flatten_cons, ih, show _ = [_] from hfirst]
    rfl

theorem pages_leaf : Pages identify 0 Itself (emitLeaf identify false)
    (leafNode : List (ExtentSlice Id) → ExtentNode Id) where
  emits := by
    intro store page parts hparts hlength hchain hbound
    rw [flatten_of_itself hparts] at hchain hbound ⊢
    have hleast : minimumEntries ≤ page.length := by
      rw [hlength]
      decide
    exact ⟨emitLeaf_eq_ok identify hchain hbound hlength.le fun _ => hleast,
      fun hstored => sealed_leaf identify hchain hbound hlength.le hleast hstored⟩
  forget h := h
  length_eq h h' := by rw [show _ = [_] from h, show _ = [_] from h']
  nonempty h := by
    rw [show _ = [_] from h]
    exact Nat.one_pos

theorem Building.held (h : Building store builder slices) :
    Held store builder.flushAt 0 Itself builder.extents builder.children slices := by
  obtain ⟨before, hslices, htower⟩ := h.covers
  refine ⟨h.fits, before, builder.extents.map fun extent => [extent], ?_, ?_, htower⟩
  · rw [hslices, ← flatMap_def, flatMap_singleton']
  · induction builder.extents with
    | nil => exact .nil
    | cons extent rest ih => exact .cons rfl ih

omit [DecidableEq Id] in
theorem uniformLeaf_eq (extent : ExtentSlice Id) :
    uniformLeaf extent = leafNode (List.replicate maximumEntries extent) := by
  rw [uniformLeaf, leafNode, totalBytes, map_replicate, sum_replicate_nat, Nat.mul_comm]

theorem emitNode_uniform {x : NodeSummary Id × List (FinalizedObject Id)}
    (h : emitLeaf identify false (List.replicate maximumEntries extent) = Except.ok x) :
    emitNode identify (uniformLeaf extent) false = Except.ok x := by
  have hbound : totalBytes (List.replicate maximumEntries extent) < u64Bound := by
    have hinside := extent.inside
    have hmost := show maximumChunkBytes = 32768 from rfl
    have hlimit := show u64Bound = 18446744073709551616 from rfl
    rw [totalBytes, map_replicate, sum_replicate_nat]
    have hentries := show maximumEntries = 128 from rfl
    rw [hentries]
    omega
  rw [emitLeaf, leafPage_eq_ok hbound, Construction.lift_bind] at h
  rwa [uniformLeaf_eq]

omit [DecidableEq Id] in
theorem coalesced_replicate (h : Coalesced slices) (hstart : extent.sourceOffset = 0) (count : ℕ) :
    Coalesced (slices ++ List.replicate count extent) := by
  have hfree : ∀ prior : ExtentSlice Id, ¬prior.Touches extent := by
    rintro prior ⟨-, hend⟩
    have := prior.nonempty
    omega
  induction count with
  | zero => rwa [replicate_zero, append_nil]
  | succ count ih =>
    rw [replicate_succ', ← append_assoc]
    refine ih.append (isChain_singleton _) fun prior _ next hnext => ?_
    obtain rfl := Option.some.inj hnext
    exact hfree prior

omit [DecidableEq Id] in
theorem totalBytes_replicate (count : ℕ) (extent : ExtentSlice Id) :
    totalBytes (List.replicate count extent) = extent.logicalLength * count := by
  rw [totalBytes, map_replicate, sum_replicate_nat, Nat.mul_comm]

theorem pushExtent_hands (hchain : Coalesced (slices ++ [extent]))
    (hbound : totalBytes (slices ++ [extent]) < u64Bound) :
    Hands identify (fun store => Building store builder slices)
      (pushExtent identify builder extent) (fed identify builder [extent])
      (fun store => Building store (fed identify builder [extent]) (slices ++ [extent])) :=
  fun _ h => pushExtent_eq_ok identify h hchain hbound

def chunkSlice (raw : List UInt8) (hpos : 0 < raw.length) (hmost : raw.length ≤ maximumChunkBytes) :
    ExtentSlice Id :=
  ⟨identify (.mapping (.chunk raw)), 0, raw.length, hpos, by rwa [Nat.zero_add]⟩

omit [DecidableEq Id] in
theorem chunkObject_long {raw : List UInt8} (hlong : maximumChunkBytes < raw.length) :
    chunkObject raw = (.error (.objectLimitExceeded maximumChunkBytes raw.length) :
      ContentResult (FileObject Id)) := by
  rw [chunkObject, ensure, decide_eq_false (Nat.not_le.mpr hlong)]
  rfl

section Chunk

variable {raw : List UInt8} (hpos : 0 < raw.length) (hmost : raw.length ≤ maximumChunkBytes)
include hpos hmost

omit [DecidableEq Id] hpos in
theorem chunkObject_eq : chunkObject raw = .ok (.mapping (.chunk raw) : FileObject Id) :=
  check_bind_eq_ok.mpr ⟨ensure_eq_ok.mpr (decide_eq_true hmost), rfl⟩

omit [DecidableEq Id] in
theorem new_chunkSlice : ExtentSlice.new (identify (.mapping (.chunk raw))) 0 raw.length =
    .ok (chunkSlice identify raw hpos hmost) :=
  dif_pos ⟨hpos, by rwa [Nat.zero_add]⟩

theorem pushChunk_hands {builder : ExtentBuilder Id} {slices : List (ExtentSlice Id)}
    (hchain : Coalesced slices) (hbound : totalBytes slices + raw.length < u64Bound)
    (predecessor : Option Id) :
    Hands identify (fun store => Building store builder slices)
      (pushChunk identify builder raw predecessor)
      (fed identify builder [chunkSlice identify raw hpos hmost])
      (fun store => Building store (fed identify builder [chunkSlice identify raw hpos hmost])
        (slices ++ [chunkSlice identify raw hpos hmost])) := by
  refine Hands.lift identify (chunkObject_eq hmost) ?_
  refine Hands.bind identify (fun _ h => h.forget) (fun store h => ⟨_, rfl, fun _ => h⟩) ?_
  refine Hands.lift identify (new_chunkSlice identify hpos hmost) ?_
  refine pushExtent_hands identify (coalesced_replicate hchain rfl 1) ?_
  rw [totalBytes_append, totalBytes_cons, totalBytes_nil]
  exact hbound

/-- **Chunks one by one arrive as the paging says.** -/
theorem pushChunks_hands :
    ∀ {builder : ExtentBuilder Id} {slices : List (ExtentSlice Id)}, Coalesced slices →
      totalBytes slices + raw.length * hints.length < u64Bound →
      Hands identify (fun store => Building store builder slices)
        (pushChunks identify raw hints builder)
        (fed identify builder (List.replicate hints.length (chunkSlice identify raw hpos hmost)))
        (fun store => Building store
          (fed identify builder (List.replicate hints.length (chunkSlice identify raw hpos hmost)))
          (slices ++ List.replicate hints.length (chunkSlice identify raw hpos hmost))) := by
  induction hints with
  | nil =>
    intro builder slices _ _
    rw [length_nil, replicate_zero, fed_nil, append_nil]
    exact Hands.pure identify fun _ h => h
  | cons hint hints ih =>
    intro builder slices hchain hbound
    rw [length_cons, Nat.mul_succ] at hbound
    rw [length_cons, replicate_succ,
      show chunkSlice identify raw hpos hmost :: List.replicate hints.length
        (chunkSlice identify raw hpos hmost) = [chunkSlice identify raw hpos hmost] ++
          List.replicate hints.length (chunkSlice identify raw hpos hmost) from rfl,
      fed_append, ← append_assoc]
    refine Hands.bind identify (fun _ h => h.forget)
      (pushChunk_hands identify hpos hmost hchain (by omega) hint)
      (ih (coalesced_replicate hchain rfl 1) ?_)
    rw [totalBytes_append, totalBytes_cons, totalBytes_nil]
    show totalBytes slices + (raw.length + 0) + raw.length * hints.length < u64Bound
    omega

/-- **A run of chunks arrives as the paging says.** -/
theorem pushRepeatedChunk_hands (hflush : maximumEntries < builder.flushAt)
    (hfits : builder.extents.length ≤ builder.flushAt)
    (hlogical : builder.logicalLen = totalBytes slices) (hchain : Coalesced slices)
    (hbound : totalBytes slices + raw.length * count < u64Bound) (predecessor : Option Id) :
    Hands identify (fun store => Building store builder slices)
      (pushRepeatedChunk identify builder raw count predecessor)
      (fed identify builder (List.replicate count (chunkSlice identify raw hpos hmost)))
      (fun store => Building store
        (fed identify builder (List.replicate count (chunkSlice identify raw hpos hmost)))
        (slices ++ List.replicate count (chunkSlice identify raw hpos hmost))) := by
  rw [pushRepeatedChunk]
  by_cases hcount : count = 0
  · subst hcount
    rw [if_pos rfl, replicate_zero, fed_nil, append_nil]
    exact Hands.pure identify fun _ h => h
  rw [if_neg hcount]
  have hflat : (List.replicate count [chunkSlice identify raw hpos hmost]).flatten =
      List.replicate count (chunkSlice identify raw hpos hmost) :=
    flatten_replicate_singleton
  have hchain' := coalesced_replicate hchain
    (show (chunkSlice identify raw hpos hmost).sourceOffset = 0 from rfl) count
  have hbytes : totalBytes (slices ++ List.replicate count (chunkSlice identify raw hpos hmost)) =
      totalBytes slices + raw.length * count := by
    rw [totalBytes_append, totalBytes_replicate]
    rfl
  refine Hands.lift identify (chunkObject_eq hmost) ?_
  refine Hands.lift identify (if_pos (by omega) : checkedMul raw.length count = _) ?_
  refine Hands.lift identify (new_chunkSlice identify hpos hmost) ?_
  refine Hands.lift identify (checkedAdd_eq_ok.mpr ⟨by omega, rfl⟩) ?_
  refine Hands.bind identify (fun _ h => h.forget) (fun store h => ⟨_, rfl, fun _ => h⟩) ?_
  have hrun : Hands identify
      (fun store => Held store builder.flushAt 0 Itself builder.extents builder.children slices ∧
        Itself store (chunkSlice identify raw hpos hmost) [chunkSlice identify raw hpos hmost])
      (repeatLevel builder.flushAt (emitLeaf identify false)
        (flushLevels identify builder.flushAt maximumLevel (0 + 1))
        (fun extent => emitNode identify (uniformLeaf extent) false)
        (repeatLevels identify builder.flushAt maximumLevel (0 + 1))
        (chunkSlice identify raw hpos hmost) count builder.extents builder.children)
      (arrived identify builder.flushAt maximumLevel 0 leafNode
        (chunkSlice identify raw hpos hmost) count builder.extents builder.children)
      (fun store => Held store builder.flushAt 0 Itself
        (arrived identify builder.flushAt maximumLevel 0 leafNode
          (chunkSlice identify raw hpos hmost) count builder.extents builder.children).1
        (arrived identify builder.flushAt maximumLevel 0 leafNode
          (chunkSlice identify raw hpos hmost) count builder.extents builder.children).2
        (slices ++ (List.replicate count [chunkSlice identify raw hpos hmost]).flatten)) :=
    repeatLevel_hands identify (pages_leaf identify) hflush (show 31 ≤ maximumLevel + 0 by decide)
      (emitNode_uniform identify)
      (fun hpos hchain hbound => repeatLevels_hands identify hflush
        (show 31 ≤ maximumLevel + 0 by decide) hpos hchain hbound)
      hfits Nat.one_pos (by rwa [hflat]) (by rw [hflat, hbytes]; exact hbound)
  rw [hflat] at hrun
  intro store h
  obtain ⟨out, hop, hmapped⟩ := hrun store ⟨h.held, rfl⟩
  have hlength : (fed identify builder
      (List.replicate count (chunkSlice identify raw hpos hmost))).logicalLen =
      builder.logicalLen + raw.length * count := by
    rw [fed, totalBytes_replicate]
    rfl
  refine ⟨out ++ [], ?_, fun hstored => ?_⟩
  · refine Construction.bind_ok hop ?_
    rw [← hlength]
    rfl
  · obtain ⟨hfits', before, parts, hslices, hparts, htower⟩ := hmapped fun given hgiven =>
      (hstored given hgiven).left
    refine ⟨hflush, hfits', ⟨before, ?_, htower⟩, hchain', ?_, by rw [hbytes]; exact hbound⟩
    · rw [hslices, flatten_of_itself hparts]
      rfl
    · rw [hlength, hbytes, hlogical]

theorem pushChunk_overflow (hover : u64Bound ≤ builder.logicalLen + raw.length)
    (predecessor : Option Id) :
    (pushChunk identify builder raw predecessor).result = .error .lengthOverflow := by
  have hadd : checkedAdd builder.logicalLen raw.length = .error .lengthOverflow :=
    if_neg (Nat.not_lt.mpr hover)
  rw [pushChunk, chunkObject_eq hmost, Construction.lift_bind, Construction.result_bind]
  show (liftM _ >>= _ : Construction Id (ExtentBuilder Id)).result = _
  rw [new_chunkSlice identify hpos hmost, Construction.lift_bind, pushExtent,
    Construction.result_bind, Construction.result_lift]
  show (checkedAdd builder.logicalLen raw.length >>= _) = _
  rw [hadd]
  rfl

theorem pushChunks_overflow :
    ∀ {builder : ExtentBuilder Id} {slices : List (ExtentSlice Id)}, Building none builder slices →
      u64Bound ≤ totalBytes slices + raw.length * hints.length →
      (pushChunks identify raw hints builder).result = .error .lengthOverflow := by
  induction hints with
  | nil =>
    intro builder slices h hover
    have := h.bounded
    rw [length_nil] at hover
    omega
  | cons hint hints ih =>
    intro builder slices h hover
    rw [length_cons, Nat.mul_succ] at hover
    rw [pushChunks, Construction.result_bind]
    rcases Nat.lt_or_ge (totalBytes slices + raw.length) u64Bound with hfits | hpast
    · obtain ⟨out, hop, hnext⟩ := pushChunk_hands identify hpos hmost h.coalesced hfits hint none h
      rw [hop]
      refine ih (hnext fun _ hgiven => by cases hgiven) ?_
      rw [totalBytes_append, totalBytes_cons, totalBytes_nil]
      show u64Bound ≤ totalBytes slices + (raw.length + 0) + raw.length * hints.length
      omega
    · rw [pushChunk_overflow identify hpos hmost (by rw [h.logicalLen_eq]; exact hpast)]
      rfl

theorem pushRepeatedChunk_overflow (hcount : count ≠ 0)
    (hover : u64Bound ≤ builder.logicalLen + raw.length * count) (predecessor : Option Id) :
    (pushRepeatedChunk identify builder raw count predecessor).result = .error .lengthOverflow := by
  rw [pushRepeatedChunk, if_neg hcount, chunkObject_eq hmost, Construction.lift_bind,
    Construction.result_bind, Construction.result_lift]
  rcases Nat.lt_or_ge (raw.length * count) u64Bound with hfits | hpast
  · have hadd : checkedAdd builder.logicalLen (raw.length * count) = .error .lengthOverflow :=
      if_neg (Nat.not_lt.mpr hover)
    rw [show checkedMul raw.length count = .ok (raw.length * count) from if_pos hfits]
    show (liftM _ >>= _ : Construction Id (ExtentBuilder Id)).result = _
    rw [new_chunkSlice identify hpos hmost, Construction.lift_bind, Construction.result_bind,
      Construction.result_lift, hadd]
    rfl
  · rw [show checkedMul raw.length count = .error .lengthOverflow from
      if_neg (Nat.not_lt.mpr hpast)]
    rfl

end Chunk

theorem pushRepeatedChunk_long {raw : List UInt8} (hcount : count ≠ 0)
    (hlong : maximumChunkBytes < raw.length) (predecessor : Option Id) :
    (pushRepeatedChunk identify builder raw count predecessor).result =
      .error (.objectLimitExceeded maximumChunkBytes raw.length) := by
  rw [pushRepeatedChunk, if_neg hcount, Construction.result_bind, Construction.result_lift,
    chunkObject_long hlong]
  rfl

theorem pushRepeatedChunk_empty {raw : List UInt8} (hcount : count ≠ 0) (hempty : raw.length = 0)
    (predecessor : Option Id) :
    (pushRepeatedChunk identify builder raw count predecessor).result =
      .error (.invalidRecord "extent slice") := by
  have hrefuse : ∀ id : Id, ExtentSlice.new id 0 raw.length =
      .error (.invalidRecord "extent slice") := fun id => dif_neg (by omega)
  have hmost : raw.length ≤ maximumChunkBytes := by omega
  rw [pushRepeatedChunk, if_neg hcount, chunkObject_eq hmost, Construction.lift_bind,
    show checkedMul raw.length count = .ok _ from if_pos (by
      rw [hempty, Nat.zero_mul]
      decide), Construction.lift_bind, hrefuse]
  rfl

/-- **A run leaves the builder as its chunks one by one do**, and is refused as they are. -/
theorem pushRepeatedChunk_eq (h : Building none builder slices) (raw : List UInt8)
    (predecessor : Option Id) (hints : List (Option Id)) :
    (pushRepeatedChunk identify builder raw hints.length predecessor).result =
      (pushChunks identify raw hints builder).result := by
  rcases hints with _ | ⟨hint, hints⟩
  · rfl
  have hsome : ¬(hint :: hints).length = 0 := Nat.succ_ne_zero _
  rcases Nat.lt_or_ge maximumChunkBytes raw.length with hlong | hmost
  · -- both refuse a payload no chunk has
    rw [pushRepeatedChunk_long identify hsome hlong, pushChunks, pushChunk,
      Construction.result_bind, Construction.result_bind, Construction.result_lift,
      chunkObject_long hlong]
    rfl
  rcases Nat.eq_zero_or_pos raw.length with hempty | hpos
  · -- both refuse an empty slice
    have hrefuse : ∀ id : Id, ExtentSlice.new id 0 raw.length =
        .error (.invalidRecord "extent slice") := fun id => dif_neg (by omega)
    rw [pushRepeatedChunk_empty identify hsome hempty, pushChunks, pushChunk,
      chunkObject_eq hmost, Construction.lift_bind, hrefuse]
    rfl
  rcases Nat.lt_or_ge (totalBytes slices + raw.length * (hint :: hints).length) u64Bound with
    hfits | hover
  · obtain ⟨_, hrun, -⟩ := pushRepeatedChunk_hands identify hpos hmost h.flushAt_gt h.fits
      h.logicalLen_eq h.coalesced hfits predecessor none h
    obtain ⟨_, hchunks, -⟩ := pushChunks_hands identify hpos hmost h.coalesced hfits none h
    rw [hrun, hchunks]
    rfl
  · rw [pushChunks_overflow identify hpos hmost h hover]
    exact pushRepeatedChunk_overflow identify hpos hmost hsome
      (by rw [h.logicalLen_eq]; exact hover) predecessor

end ExtentBuilder

end LayerFs
