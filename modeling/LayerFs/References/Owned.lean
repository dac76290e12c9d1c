import LayerFs.References.Failed

/-!
# What the ordering runs hold (`references/runs.rs`)

Every output is reserved against the limit before it is written, with everything owned at that
moment. What is counted as the input of a merge is the older run and the batch, not what was merged
so far, so from the second merge on more may be held than was reserved.

* `within_bytes_le` — **the runs and the pending rows never exceed the limit** where merges fit.
-/

namespace LayerFs.Tiered.RunStore

open List

variable {Id τ : Type} {store : RunStore Id} {limit : ℕ}

/-! ## The merges -/

def countedBytes (store : RunStore Id) : ℕ :=
  store.runBytes + store.pendingBytes + store.mergeInputBytes

/-- **The merges fit**: at each one whose output is reserved, the runs of the tiers and the pending
rows (`upper`), the older runs not yet merged, the run merged so far and the output. -/
def MergesFit (limit upper : ℕ) : ℕ → List (Entry Id) → List (Run Id) → Prop
  | _, _, [] => True
  | counted, newer, older :: rest =>
    counted + (older.count + newer.length) * rowBytes ≤ limit →
      upper + newer.length * rowBytes + ((older :: rest).map Run.bytes).sum +
          (overlayRows newer older.rows).length * rowBytes ≤ limit ∧
        MergesFit limit upper (counted - older.bytes) (overlayRows newer older.rows) rest

theorem bytes_of_valid {run : Run Id} (h : run.Valid) :
    run.bytes = run.rows.length * rowBytes := by
  rw [Run.bytes, h.count_eq]

/-- **Merges that fit keep what is held under the limit.** -/
theorem mergeAll_held {older : List (Run Id)} (holder : ∀ run ∈ older, run.Valid) :
    ∀ {newer : Run Id} {store : RunStore Id} {counted : ℕ}, newer.Valid →
      store.backing.held = store.runBytes + newer.bytes + (older.map Run.bytes).sum →
      store.backing.pending = store.pendingBytes →
      store.backing.held + store.pendingBytes ≤ store.limit → store.backing.peak ≤ store.limit →
      counted ≤ store.countedBytes →
      MergesFit store.limit (store.runBytes + store.pendingBytes) counted newer.rows older →
      (older.foldlM mergeUnder newer).Ensures store
        (fun run later => run.Valid ∧ later.backing.held = store.runBytes + run.bytes ∧
          later.backing.held + store.pendingBytes ≤ store.limit ∧
          later.backing.pending = store.pendingBytes ∧ later.backing.peak ≤ store.limit ∧
          ∃ backing mergeInputBytes, later = store.counted backing mergeInputBytes)
        fun _ later => later.backing.pending = store.pendingBytes ∧
          later.backing.peak ≤ store.limit ∧
          ∃ backing mergeInputBytes, later = store.counted backing mergeInputBytes := by
  induction older with
  | nil =>
    intro newer store counted hnewer hheld hpending hlimit hpeak _ _
    exact ⟨hnewer, hheld, hlimit, hpending, hpeak, _, _, rfl⟩
  | cons next rest ih =>
    intro newer store counted hnewer hheld hpending hlimit hpeak hcounted hfits
    rw [forall_mem_cons] at holder
    have hbytes := bytes_of_valid hnewer
    have hcount := hnewer.count_eq
    have hpositive : 0 < (next.count + newer.count) * rowBytes := by
      have hrow := length_pos_iff.mpr hnewer.rows_ne_nil
      exact Nat.mul_pos (by omega) (by decide)
    -- a reservation that is granted covers what the condition asks for
    have hroom : store.Room ((next.count + newer.count) * rowBytes) →
        store.backing.held + (overlayRows newer.rows next.rows).length * rowBytes +
            store.pendingBytes ≤ store.limit ∧
          MergesFit store.limit (store.runBytes + store.pendingBytes) (counted - next.bytes)
            (overlayRows newer.rows next.rows) rest := by
      intro hroom
      have hle := hroom.bytes_le hpositive
      rw [countedBytes] at hcounted
      rw [hcount] at hle
      obtain ⟨hfit, hrest⟩ := hfits (by omega)
      exact ⟨by omega, hrest⟩
    rw [List.foldlM_cons]
    refine Attempt.ensures_bind_iff.mpr ((mergeUnder_ensures hnewer holder.1 store).mono ?_ ?_)
    · rintro run _ ⟨hrun, hrows, hreserved, written, hwrote, rfl⟩
      obtain ⟨hfit, hrest⟩ := hroom hreserved
      have hwritten := hwrote.held
      have hwrittenPeak := hwrote.peak
      have hrunBytes := bytes_of_valid hrun
      rw [hrows] at hwritten hwrittenPeak hrunBytes
      rw [hpending] at hwrittenPeak
      rw [map_cons, sum_cons] at hheld
      have hleft : ((written.giveBack newer.bytes).giveBack next.bytes).held =
          store.runBytes + run.bytes + (rest.map Run.bytes).sum := by
        change written.held - newer.bytes - next.bytes = _
        omega
      refine (@ih holder.2 run _ (counted - next.bytes) hrun hleft (hwrote.pending.trans hpending)
        ?_ ?_ ?_ ?_).mono ?_ ?_
      · change ((written.giveBack newer.bytes).giveBack next.bytes).held + store.pendingBytes ≤
          store.limit
        omega
      · change written.peak ≤ store.limit
        omega
      · change _ ≤ store.runBytes + store.pendingBytes + (store.mergeInputBytes - next.bytes)
        rw [countedBytes] at hcounted
        omega
      · rw [hrows]
        exact hrest
      · rintro last _ ⟨hlast, hlastHeld, hlastLimit, hlastPending, hlastPeak, backing, inputs, rfl⟩
        exact ⟨hlast, hlastHeld, hlastLimit, hlastPending, hlastPeak, backing, inputs, rfl⟩
      · rintro e _ ⟨hlastPending, hlastPeak, backing, inputs, rfl⟩
        exact ⟨hlastPending, hlastPeak, backing, inputs, rfl⟩
    · rintro e _ ⟨backing, rfl, ⟨hreserved, htried⟩ | rfl⟩
      · have hfit := (hroom hreserved).1
        have htriedPeak := htried.peak
        rw [hpending] at htriedPeak
        exact ⟨htried.pending.trans hpending, show backing.peak ≤ _ by omega, backing, _, rfl⟩
      · exact ⟨hpending, hpeak, _, _, rfl⟩

/-! ## What holds between operations -/

/-- **What holds between operations**: what is held are the runs of the tiers; they fit under the
limit with the pending rows, and so does all there ever was of both. -/
structure Kept (limit : ℕ) (store : RunStore Id) : Prop where
  valid : ∀ run ∈ store.live, run.Valid
  limited : store.limit = limit
  held : store.backing.held = store.runBytes
  pending : store.backing.pending = store.pendingBytes
  fits : store.runBytes + store.pendingBytes ≤ limit
  peak : store.backing.peak ≤ limit

theorem Kept.of_tiers {later : RunStore Id} (h : Kept limit store)
    (hlater : later.tiers = store.tiers) : Kept limit later := by
  have hlive : later.live = store.live := by
    change later.tiers.levels.filterMap id = store.tiers.levels.filterMap id
    rw [hlater]
  have hbytes : later.runBytes = store.runBytes := congrArg (fun live => (live.map Run.bytes).sum) hlive
  have hpending : later.pendingBytes = store.pendingBytes :=
    congrArg (fun store => store.pendingBytes) hlater
  refine ⟨hlive.symm ▸ h.valid, ?_, ?_, ?_, hbytes ▸ hpending ▸ h.fits, ?_⟩
  · exact (congrArg RunStore.limit hlater).trans h.limited
  · exact (congrArg (fun store => store.backing.held) hlater).trans (h.held.trans hbytes.symm)
  · exact (congrArg (fun store => store.backing.pending) hlater).trans
      (h.pending.trans hpending.symm)
  · exact (congrArg (fun store => store.backing.peak) hlater).trans_le h.peak

theorem Kept.settle_sublist {later : RunStore Id} (h : Kept limit store)
    (hlive : later.live.Sublist store.live) (hlimit : later.limit = store.limit)
    (hpending : later.backing.pending = later.pendingBytes)
    (hfits : store.runBytes + later.pendingBytes ≤ limit)
    (hpeak : later.backing.peak ≤ limit) : Kept limit later.settle where
  valid := fun run hrun => h.valid run (hlive.subset hrun)
  limited := hlimit.trans h.limited
  held := rfl
  pending := hpending
  fits := (Nat.add_le_add_right ((hlive.map Run.bytes).sum_le_sum fun _ _ => Nat.zero_le _)
    _).trans hfits
  peak := hpeak

/-! ### Spills -/

/-- The store when the batch is written and the older runs are taken out to be merged. -/
def taken (pending : List (Entry Id)) (store : RunStore Id) : RunStore Id :=
  takeOlder store.freeLevel ⟨pending, pending.length, 0, 0⟩
    (store.opened.charged (pending.length * rowBytes) store.backing)

/-- **A spill fits** when its merges after the first do. -/
def SpillFits (pending : List (Entry Id)) (store : RunStore Id) : Prop :=
  match store.older with
  | [] => True
  | first :: rest =>
    BatchStands pending.length store →
      (taken pending store).countedBytes + (first.count + pending.length) * rowBytes ≤ store.limit →
        MergesFit store.limit ((taken pending store).runBytes + (taken pending store).pendingBytes)
          ((taken pending store).countedBytes - first.bytes) (overlayRows pending first.rows) rest

theorem spillFits_of_length_le {pending : List (Entry Id)} (h : store.older.length ≤ 1) :
    SpillFits pending store := by
  rw [SpillFits]
  rcases holder : store.older with _ | ⟨first, _ | ⟨second, rest⟩⟩
  · trivial
  · exact fun _ _ => trivial
  · rw [holder, length_cons, length_cons] at h
    omega

theorem le_foldl_saturatingAdd (runs : List (Run Id)) : ∀ bytes : ℕ,
    min (bytes + (runs.map Run.bytes).sum) (u64Bound - 1) ≤
      runs.foldl (fun bytes run => saturatingAdd bytes run.bytes) bytes := by
  induction runs with
  | nil => exact fun bytes => Nat.min_le_left _ _
  | cons run rest ih =>
    intro bytes
    have hle := ih (saturatingAdd bytes run.bytes)
    rw [foldl_cons, map_cons, sum_cons]
    rw [saturatingAdd] at hle ⊢
    omega

theorem live_taken (pending : List (Entry Id)) (store : RunStore Id) :
    (taken pending store).live = store.above := live_takeOlder _ _

theorem runBytes_eq (store : RunStore Id) : store.runBytes =
    (store.older.map Run.bytes).sum + (store.above.map Run.bytes).sum := by
  rw [runBytes, live_freeLevel, map_append, sum_append]
  rfl

theorem SpillFits.mergesFit (hlimit : store.limit < u64Bound) {pending : List (Entry Id)}
    (h : SpillFits pending store) (hstands : BatchStands pending.length store)
    (hpending : pending ≠ []) (holder : ∀ run ∈ store.older, run.Valid) :
    MergesFit store.limit ((taken pending store).runBytes + (taken pending store).pendingBytes)
      (taken pending store).countedBytes pending store.older := by
  have htaken := take_opened store
  rw [SpillFits] at h
  cases holderRuns : store.older with
  | nil => trivial
  | cons first rest =>
    rw [holderRuns] at h holder htaken
    intro hreserved
    refine ⟨?_, h hstands hreserved⟩
    have hfirst := (holder first mem_cons_self).count_eq
    have hlength := @length_overlayRows_le _ _ _ pending first.rows
    have houtput : (overlayRows pending first.rows).length * rowBytes ≤
        (first.count + pending.length) * rowBytes :=
      Nat.mul_le_mul_right _ (by omega)
    have hpositive : 0 < (first.count + pending.length) * rowBytes := by
      have hrow := length_pos_iff.mpr hpending
      exact Nat.mul_pos (by omega) (by decide)
    have hinputs : (taken pending store).mergeInputBytes = saturatingAdd
        ((first :: rest).foldl (fun bytes run => saturatingAdd bytes run.bytes)
          store.mergeInputBytes) (pending.length * rowBytes) := by
      rw [← htaken]
      rfl
    have hsum := le_foldl_saturatingAdd (first :: rest) store.mergeInputBytes
    have hcharged : (taken pending store).pendingBytes = pending.length * rowBytes := rfl
    rw [countedBytes, hinputs, hcharged, saturatingAdd] at hreserved
    omega

/-- **A spill that fits** keeps what is held under the limit, however it ends. -/
theorem Kept.spill (hlimit : limit < u64Bound) {pending : SortedMap ℕ (Row Id)}
    (h : Kept limit store) (hfits : SpillFits pending.entries store) :
    Kept limit (RunStore.spill pending store).2 := by
  by_cases hpending : pending.entries = []
  · rw [spill_nil hpending]
    exact h
  have holder : ∀ run ∈ store.older, run.Valid := fun run hrun =>
    h.valid run (live_freeLevel store ▸ mem_append_left _ hrun)
  have habove : store.above.Sublist store.live :=
    live_freeLevel store ▸ sublist_append_right _ _
  have hheld := h.held
  have hpeak := h.peak
  have hlimited := h.limited
  have hstoreFits := h.fits
  have hbytes := runBytes_eq store
  have hpositive : 0 < pending.entries.length * rowBytes :=
    Nat.mul_pos (length_pos_iff.mpr hpending) (by decide)
  -- what the room for the batch says
  have hbatch : (store.charged (pending.entries.length * rowBytes) store.backing).Room
      (pending.entries.length * rowBytes) →
        store.backing.held + pending.entries.length * rowBytes +
          pending.entries.length * rowBytes ≤ limit := by
    intro hroom
    have hle := hroom.bytes_le hpositive
    change store.runBytes + pending.entries.length * rowBytes + store.mergeInputBytes + _ ≤
      store.limit at hle
    omega
  refine Attempt.Ensures.later ?_
  rw [RunStore.spill, if_neg (by rw [List.isEmpty_iff]; exact hpending)]
  refine Attempt.ensures_closing_iff.mpr (Attempt.ensures_bind_iff.mpr
    (((writeBatch_ensures hpending pending.sorted store).and
      (writeBatch_stands hpending store)).mono ?_ ?_))
  · rintro ⟨_, run⟩ _ ⟨⟨rfl, hrun, hrows, ⟨backing, rfl, hwrote⟩, hroom⟩, hstands⟩
    dsimp only at hrun hrows
    have hfit := hbatch hroom
    have hwritten := hwrote.held
    have hwrittenPeak := hwrote.peak
    change backing.held = store.backing.held + _ at hwritten
    change backing.peak ≤ max (max store.backing.peak (store.backing.held +
      pending.entries.length * rowBytes)) (store.backing.held + _ +
        pending.entries.length * rowBytes) at hwrittenPeak
    have hrunBytes := bytes_of_valid hrun
    rw [hrows] at hrunBytes
    refine Attempt.ensures_bind_iff.mpr (Attempt.ensures_get_iff.mpr ?_)
    refine Attempt.ensures_bind_iff.mpr (Attempt.ensures_modify_iff.mpr ?_)
    have htaken : ((store.opened.charged (pending.entries.length * rowBytes) backing).levels.take
        store.freeLevel).filterMap id = store.older := take_opened store
    have hlive := @live_takeOlder _ store run (pending.entries.length * rowBytes) backing
    have hupper : (takeOlder store.freeLevel run
        (store.opened.charged (pending.entries.length * rowBytes) backing)).runBytes =
          (store.above.map Run.bytes).sum := congrArg (fun live => (live.map Run.bytes).sum) hlive
    have hupper' : (taken pending.entries store).runBytes = (store.above.map Run.bytes).sum :=
      congrArg (fun live => (live.map Run.bytes).sum) (live_taken pending.entries store)
    have hinputs : (takeOlder store.freeLevel run (store.opened.charged
        (pending.entries.length * rowBytes) backing)).mergeInputBytes =
          (taken pending.entries store).mergeInputBytes := by
      change saturatingAdd _ run.bytes = saturatingAdd _ (pending.entries.length * rowBytes)
      rw [hrunBytes]
      rfl
    have hmerges := hfits.mergesFit (hlimited.symm ▸ hlimit) hstands hpending holder
    rw [hupper'] at hmerges
    rw [htaken]
    refine Attempt.ensures_bind_iff.mpr ((@mergeAll_held _ _ holder run _
      (taken pending.entries store).countedBytes hrun ?_ hwrote.pending ?_ ?_ ?_ ?_).mono ?_ ?_)
    · rw [hupper]
      change backing.held = _
      omega
    · change backing.held + pending.entries.length * rowBytes ≤ store.limit
      omega
    · change backing.peak ≤ store.limit
      omega
    · rw [countedBytes, countedBytes, hupper, hupper', hinputs]
      exact Nat.le_refl _
    · rw [hupper, hrows]
      exact hmerges
    · rintro merged _ ⟨hmerged, hmergedHeld, hmergedLimit, -, hmergedPeak, backing', inputs, rfl⟩
      have hlive' := @live_install _ store run merged (pending.entries.length * rowBytes) inputs
        backing backing'
      rw [hupper] at hmergedHeld
      change backing'.held = _ at hmergedHeld
      change backing'.held + pending.entries.length * rowBytes ≤ store.limit at hmergedLimit
      change backing'.peak ≤ store.limit at hmergedPeak
      refine ⟨fun other hother => ?_, hlimited, rfl, rfl, ?_, ?_⟩
      · change other ∈ (install _ _ _).live at hother
        rw [hlive'] at hother
        rcases mem_cons.mp hother with rfl | hother
        · exact hmerged
        · exact h.valid other (habove.subset hother)
      · change ((install _ _ _).live.map Run.bytes).sum + 0 ≤ limit
        rw [hlive', map_cons, sum_cons]
        omega
      · change max backing'.peak (backing'.held + 0) ≤ limit
        omega
    · rintro e _ ⟨hfailedPending, hfailedPeak, backing', inputs, rfl⟩
      refine h.settle_sublist (by exact hlive ▸ habove) rfl hfailedPending ?_
        (hlimited ▸ hfailedPeak)
      change store.runBytes + pending.entries.length * rowBytes ≤ limit
      omega
  · rintro e later ⟨⟨hbegun, haccount⟩, -⟩
    have hlimit' : later.limit = store.limit := by
      obtain ⟨pendingBytes, backing, rfl | rfl⟩ := hbegun
      · rfl
      · rfl
    have hlive' : later.live.Sublist store.live := hbegun.live ▸ List.Sublist.refl _
    cases haccount with
    | same hsame =>
      subst hsame
      exact h.settle_sublist hlive' rfl h.pending hstoreFits hpeak
    | pending hpendingBytes hroom hnarrow hbacking =>
      -- the room for twice the pending rows is room for them once
      have honce : store.runBytes + pending.entries.length * rowBytes ≤ limit := by
        obtain ⟨-, hroom⟩ := hroom
        rw [ownedBytes, saturatingAdd, saturatingAdd] at hroom
        omega
      have howed : (store.backing.owe (pending.entries.length * rowBytes)).peak ≤ limit := by
        change max store.backing.peak (store.backing.held + pending.entries.length * rowBytes) ≤
          limit
        omega
      refine h.settle_sublist hlive' hlimit' ?_ (hpendingBytes ▸ honce) ?_
      · rcases hbacking with hbacking | ⟨-, htried⟩
        · rw [hbacking, hpendingBytes]
          rfl
        · rw [htried.pending, hpendingBytes]
          rfl
      · rcases hbacking with hbacking | ⟨hrunRoom, htried⟩
        · exact hbacking ▸ howed
        · have hfit := hbatch hrunRoom
          have htriedPeak := htried.peak
          change later.backing.peak ≤ max (max store.backing.peak (store.backing.held +
            pending.entries.length * rowBytes)) (store.backing.held + _ +
              pending.entries.length * rowBytes) at htriedPeak
          omega

/-! ### Consolidation -/

/-- **A consolidation fits** when its merges do. The newest run, which is adopted, is no longer
counted. -/
def ConsolidationFits (store : RunStore Id) : Prop :=
  match store.live with
  | [] => True
  | newest :: older =>
    (takeAll store).Room (newest.count * rowBytes) →
      MergesFit store.limit store.pendingBytes ((takeAll store).countedBytes - newest.bytes)
        newest.rows older

theorem consolidationFits_of_length_le (h : store.live.length ≤ 1) : ConsolidationFits store := by
  rw [ConsolidationFits]
  rcases hlive : store.live with _ | ⟨newest, _ | ⟨second, rest⟩⟩
  · trivial
  · exact fun _ => trivial
  · rw [hlive, length_cons, length_cons] at h
    omega

theorem runBytes_takeAll : (takeAll store).runBytes = 0 := by
  rw [runBytes, live_takeAll]
  rfl

/-- **A consolidation that fits** keeps what is held under the limit, however it ends. -/
theorem Kept.consolidate (h : Kept limit store) (hfits : ConsolidationFits store) :
    Kept limit (RunStore.consolidate store).2 := by
  refine Attempt.Ensures.later (Attempt.ensures_bind_iff.mpr (Attempt.ensures_get_iff.mpr ?_))
  have hheld := h.held
  have hpeak := h.peak
  have hlimited := h.limited
  have hstoreFits := h.fits
  split_ifs with hone
  · exact h
  refine Attempt.ensures_closing_iff.mpr (Attempt.ensures_bind_iff.mpr
    (Attempt.ensures_modify_iff.mpr ?_))
  have hfails : ∀ backing inputs, backing.pending = store.pendingBytes →
      backing.peak ≤ store.limit → Kept limit ((takeAll store).counted backing inputs).settle := by
    intro backing inputs hpending hlast
    have hnone : ((takeAll store).counted backing inputs).live = [] :=
      (live_takeAll : (takeAll store).live = [])
    exact h.settle_sublist (hnone ▸ nil_sublist _) rfl hpending hstoreFits (hlimited ▸ hlast)
  cases hlive : store.live with
  | nil =>
    rw [hlive] at hone
    exact absurd (Nat.zero_le 1) hone
  | cons newest older =>
    have hvalid := h.valid
    rw [hlive, forall_mem_cons] at hvalid
    have hbytes : store.runBytes = newest.bytes + (older.map Run.bytes).sum := by
      rw [runBytes, hlive, map_cons, sum_cons]
    rw [ConsolidationFits, hlive] at hfits
    rw [List.foldlM_cons, Attempt.bind_assoc]
    refine Attempt.ensures_bind_iff.mpr ((combine_none_ensures newest _).mono ?_ ?_)
    · rintro _ _ ⟨rfl, rfl, hroom⟩
      rw [foldlM_combine, Attempt.bind_assoc]
      refine Attempt.ensures_bind_iff.mpr ((@mergeAll_held _ _ hvalid.2 newest _
        ((takeAll store).countedBytes - newest.bytes) hvalid.1 ?_ ?_ ?_ ?_ ?_ ?_).mono ?_ ?_)
      · change store.backing.held = (takeAll store).runBytes + _ + _
        rw [runBytes_takeAll]
        omega
      · exact h.pending
      · change store.backing.held + store.pendingBytes ≤ store.limit
        omega
      · change store.backing.peak ≤ store.limit
        omega
      · change _ ≤ (takeAll store).runBytes + (takeAll store).pendingBytes +
          ((takeAll store).mergeInputBytes - newest.bytes)
        rw [countedBytes]
        omega
      · change MergesFit store.limit ((takeAll store).runBytes + store.pendingBytes) _ _ _
        rw [runBytes_takeAll, Nat.zero_add]
        exact hfits hroom
      · rintro run _ ⟨hrun, hrunHeld, hrunLimit, hrunPending, hrunPeak, backing, inputs, rfl⟩
        change backing.held = (takeAll store).runBytes + _ at hrunHeld
        rw [runBytes_takeAll] at hrunHeld
        refine ⟨forall_mem_singleton.mpr hrun, hlimited, rfl, hrunPending, ?_,
          hlimited ▸ hrunPeak⟩
        change run.bytes + 0 + store.pendingBytes ≤ limit
        change backing.held + store.pendingBytes ≤ store.limit at hrunLimit
        omega
      · rintro e _ ⟨hpending, hlast, backing, inputs, rfl⟩
        exact hfails backing inputs hpending hlast
    · rintro e _ rfl
      exact hfails _ _ h.pending (hlimited ▸ hpeak)

/-! ## Runs of operations -/

/-- Runs of operations, failed ones among them, whose merges fit. -/
inductive Within (limit : ℕ) : RunStore Id → Prop
  | new (backed : Bool) (refusals : List (Option OrderingError)) (mergeBuffer : ℕ) :
    Within limit (.new backed refusals mergeBuffer limit)
  | spill {store : RunStore Id} (h : Within limit store) {pending : SortedMap ℕ (Row Id)}
    (hfits : SpillFits pending.entries store) : Within limit (RunStore.spill pending store).2
  | consolidate {store : RunStore Id} (h : Within limit store) (hfits : ConsolidationFits store) :
    Within limit (RunStore.consolidate store).2
  | find {store : RunStore Id} (h : Within limit store) (serial : ℕ) :
    Within limit (RunStore.find serial store).2
  | visit {store : RunStore Id} (h : Within limit store) {τ : Type}
    (visitor : τ → Entry Id → Except OrderingError (τ × Bool)) (value : τ) :
    Within limit (RunStore.visit visitor value store).2

theorem Within.kept (hlimit : limit < u64Bound) (h : Within limit store) : Kept limit store := by
  induction h with
  | new backed refusals mergeBuffer =>
    exact ⟨forall_mem_nil _, rfl, rfl, rfl, Nat.zero_le _, Nat.zero_le _⟩
  | spill h hfits ih => exact ih.spill hlimit hfits
  | consolidate h hfits ih => exact ih.consolidate hfits
  | find h serial ih => exact ih.of_tiers (find_keeps serial _)
  | visit h visitor value ih =>
    exact ih.of_tiers (congrArg (fun store => { store with scans := [] })
      (visit_keeps visitor value _))

/-- **The runs and the pending rows never exceed the limit** in a run whose merges fit: neither
between operations, when the runs are those of the tiers, nor at any moment before. -/
theorem within_bytes_le (hlimit : limit < u64Bound) (h : Within limit store) :
    store.backing.held = store.runBytes ∧ store.backing.pending = store.pendingBytes ∧
      store.runBytes + store.pendingBytes ≤ limit ∧ store.backing.peak ≤ limit :=
  ⟨(h.kept hlimit).held, (h.kept hlimit).pending, (h.kept hlimit).fits, (h.kept hlimit).peak⟩

/-- Two spills and a consolidation under a limit of five rows. -/
theorem within_bytes_le_two :
    (RunStore.consolidate (RunStore.spill (oneRow 2) (RunStore.spill (oneRow 1)
      (.new true [] 96 480)).2).2).2.backing.peak ≤ 480 :=
  (within_bytes_le (by decide) (.consolidate (.spill (.spill (.new true [] 96)
    (spillFits_of_length_le (by decide))) (spillFits_of_length_le (by decide)))
    (consolidationFits_of_length_le (by decide)))).2.2.2

/-- **More there is than the limit**: runs of 576 bytes under a limit of 480, in the consolidation of
three rows in two runs; and runs of 576 bytes with one pending row under a limit of 576, in the second
merge of a spill. -/
theorem bytes_over_limit :
    (Operation.applyAll [.spill (oneRow 1), .spill (oneRow 2), .spill (oneRow 3), .consolidate]
      (.new true [] 96 480)).2.backing.peak = 576 ∧
    (Operation.applyAll [.spill (oneRow 1), .spill (oneRow 1), .spill (oneRow 2), .spill (oneRow 3)]
      (.new true [] 96 576)).2.backing.peak = 672 := by
  refine ⟨?_, ?_⟩
  · decide +kernel
  · decide +kernel

end LayerFs.Tiered.RunStore
