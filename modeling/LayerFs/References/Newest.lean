import LayerFs.References.Tiers

/-!
# The newest row wins (`references/runs.rs`)

* `RunStore.visit_ensures` — **a visit hands over every serial once**, in order, with its newest row.
* `operations_newest_wins` — **the store is a map in which the newest row wins**, over any sequence
  of spills, lookups, consolidations and visits that succeed.
-/

namespace LayerFs.Tiered

open List

variable {Id τ : Type}
variable {row : Entry Id} {after before readings : List (Reading Id)}

/-! ## Visits -/

/-- What a visit hands over: rows in order, until the visitor refuses or wants no more. -/
def feed (visitor : τ → Entry Id → Except OrderingError (τ × Bool)) :
    List (Entry Id) → τ → Except OrderingError τ
  | [], value => .ok value
  | row :: rest, value =>
    match visitor value row with
    | .error e => .error e
    | .ok out => if out.2 then feed visitor rest out.1 else .ok out.1

namespace Reading

def rows (reading : Reading Id) : List (Entry Id) :=
  reading.current.toList ++ reading.run.rows.drop reading.scan.offset

/-- A reader at a row of its run, or at the end. -/
structure Sound (reading : Reading Id) : Prop where
  ahead : reading.scan.Ahead reading.run (reading.run.rows.drop reading.scan.offset)
  ended : reading.current = none → reading.run.rows.drop reading.scan.offset = []
  ascending : Ascending reading.rows

variable {reading : Reading Id}

theorem Sound.rows_eq_nil (h : reading.Sound) (hnone : reading.current = none) :
    reading.rows = [] := by
  rw [rows, hnone, h.ended hnone]
  rfl

theorem rows_eq_cons (h : reading.current = some row) :
    reading.rows = row :: reading.run.rows.drop reading.scan.offset := by
  rw [rows, h]
  rfl

theorem advance_ensures (hahead : reading.scan.Ahead reading.run
      (reading.run.rows.drop reading.scan.offset))
    (hsorted : Ascending (reading.run.rows.drop reading.scan.offset)) (backing : Backing) :
    advance.Ensures (reading, backing)
      (fun _ later => later.1.Sound ∧
        later.1.rows = reading.run.rows.drop reading.scan.offset ∧
        later.2.refusals <:+ backing.refusals)
      fun _ _ => backing.Serves →
        ∃ row ∈ reading.run.rows.drop reading.scan.offset, ¬ Readable row := by
  generalize hrest : reading.run.rows.drop reading.scan.offset = rest at hahead hsorted ⊢
  refine Attempt.ensures_bind_iff.mpr (Attempt.ensures_get_iff.mpr ?_)
  refine Attempt.ensures_bind_iff.mpr (Attempt.ensures_on_iff.mpr
    ((RunScan.next_ensures hahead backing).mono ?_ ?_))
  · rintro _ ⟨scan, later⟩ ⟨rfl, hnext, -, -, hlater⟩
    have hdrop : reading.run.rows.drop scan.offset = rest.tail := hnext.rest_eq
    have hrows : (⟨reading.run, scan, rest.head?⟩ : Reading Id).rows = rest := by
      rw [rows]
      refine (congrArg _ hdrop).trans ?_
      cases rest <;> rfl
    refine ⟨⟨?_, fun hnone => ?_, ?_⟩, hrows, hlater.refusals⟩
    · exact hdrop.symm ▸ hnext
    · refine hdrop.trans ?_
      rw [head?_eq_none_iff.mp hnone]
      rfl
    · exact hrows.symm ▸ hsorted
  · rintro e later ⟨-, -, hrefused⟩ hserves
    obtain ⟨row, hrow, hunreadable⟩ := hrefused hserves
    exact ⟨row, mem_of_head? hrow, hunreadable⟩

end Reading

theorem best_eq_none (h : best readings = none) : ∀ reading ∈ readings, reading.current = none := by
  induction readings with
  | nil => exact forall_mem_nil _
  | cons reading rest ih =>
    rw [best] at h
    cases hcurrent : reading.current with
    | none =>
      rw [hcurrent] at h
      exact forall_mem_cons.mpr ⟨hcurrent, ih (Option.map_eq_none_iff.mp h)⟩
    | some row =>
      rw [hcurrent] at h
      cases hrest : best rest with
      | none =>
        rw [hrest] at h
        cases h
      | some place =>
        rw [hrest] at h
        dsimp only at h
        split_ifs at h

/-- **The best reader** is at the least serial, and the first of those that are. -/
theorem best_eq_some : ∀ {place : ℕ × ℕ},
    best readings = some place → ∃ before reading after row,
      readings = before ++ reading :: after ∧ before.length = place.1 ∧
      reading.current = some row ∧ row.1 = place.2 ∧
      (∀ other ∈ before, ∀ head ∈ other.current, place.2 < head.1) ∧
      ∀ other ∈ after, ∀ head ∈ other.current, place.2 ≤ head.1 := by
  induction readings with
  | nil =>
    rintro place ⟨⟩
  | cons reading rest ih =>
    intro place h
    rw [best] at h
    cases hcurrent : reading.current with
    | none =>
      rw [hcurrent] at h
      obtain ⟨found, hfound, rfl⟩ := Option.map_eq_some_iff.mp h
      obtain ⟨before, chosen, after, row, rfl, hlength, hrow, hserial, hbefore, hafter⟩ := ih hfound
      refine ⟨reading :: before, chosen, after, row, rfl, congrArg (· + 1) hlength, hrow, hserial,
        forall_mem_cons.mpr ⟨?_, hbefore⟩, hafter⟩
      rw [hcurrent]
      rintro _ ⟨⟩
    | some row =>
      rw [hcurrent] at h
      have hfirst : (∀ other ∈ rest, ∀ head ∈ other.current, row.1 ≤ head.1) → some (0, row.1) =
          some place → ∃ before reading' after row',
            reading :: rest = before ++ reading' :: after ∧ before.length = place.1 ∧
            reading'.current = some row' ∧ row'.1 = place.2 ∧
            (∀ other ∈ before, ∀ head ∈ other.current, place.2 < head.1) ∧
            ∀ other ∈ after, ∀ head ∈ other.current, place.2 ≤ head.1 := by
        rintro hrest ⟨⟩
        exact ⟨[], reading, rest, row, rfl, rfl, hcurrent, rfl, forall_mem_nil _, hrest⟩
      cases hbest : best rest with
      | none =>
        rw [hbest] at h
        refine hfirst (fun other hother head hhead => ?_) h
        rw [best_eq_none hbest other hother] at hhead
        cases hhead
      | some found =>
        rw [hbest] at h
        obtain ⟨before, chosen, after, least, rfl, hlength, hleast, hserial, hbefore, hafter⟩ :=
          ih hbest
        dsimp only at h
        split_ifs at h with hless
        · cases h
          refine ⟨reading :: before, chosen, after, least, rfl, congrArg (· + 1) hlength, hleast,
            hserial, forall_mem_cons.mpr ⟨?_, hbefore⟩, hafter⟩
          rw [hcurrent]
          rintro _ ⟨⟩
          exact hless
        · refine hfirst (fun other hother head hhead => ?_) h
          have hle := Nat.le_of_not_lt hless
          rcases mem_append.mp hother with hother | hother
          · exact hle.trans (hbefore other hother head hhead).le
          · rcases mem_cons.mp hother with rfl | hother
            · rw [hleast] at hhead
              cases hhead
              exact hle.trans_eq hserial.symm
            · exact hle.trans (hafter other hother head hhead)

namespace Visiting

variable {visitor : τ → Entry Id → Except OrderingError (τ × Bool)} {visiting : Visiting Id τ}

def layers (visiting : Visiting Id τ) : List (List (Entry Id)) :=
  visiting.readings.map Reading.rows

def remaining (visiting : Visiting Id τ) : List (Entry Id) :=
  (overlayAll visiting.layers).filter fun row => visiting.last ≠ some row.1

def size (visiting : Visiting Id τ) : ℕ := (visiting.layers.map List.length).sum

/-- Between the turns: no reader is behind the serial handed over last. -/
structure Sound (visiting : Visiting Id τ) : Prop where
  readings : ∀ reading ∈ visiting.readings, reading.Sound
  last : ∀ last ∈ visiting.last, ∀ rows ∈ visiting.layers, ∀ row ∈ rows, last ≤ row.1

theorem Sound.ascending (h : visiting.Sound) : ∀ rows ∈ visiting.layers, Ascending rows := by
  intro rows hrows
  obtain ⟨reading, hreading, rfl⟩ := mem_map.mp hrows
  exact (h.readings reading hreading).ascending

def Unreadable (visiting : Visiting Id τ) : Prop :=
  visiting.backing.Serves → ∃ rows ∈ visiting.layers, ∃ row ∈ rows, ¬ Readable row

/-- What a turn did: it handed over a row, passed over one, or found none. -/
structure Turned (visitor : τ → Entry Id → Except OrderingError (τ × Bool))
    (visiting : Visiting Id τ) (more : Bool) (later : Visiting Id τ) : Prop where
  refusals : later.backing.refusals <:+ visiting.backing.refusals
  feeds : feed visitor visiting.remaining visiting.value =
    if more then feed visitor later.remaining later.value else .ok later.value
  goes : more = true → later.Sound ∧ later.size < visiting.size ∧
    ∀ rows ∈ later.layers, ∀ row ∈ rows, ∃ rows ∈ visiting.layers, row ∈ rows

theorem remaining_eq_nil (h : ∀ rows ∈ visiting.layers, rows = []) : visiting.remaining = [] := by
  have hsorted : ∀ rows ∈ visiting.layers, Ascending rows :=
    fun rows hrows => (h rows hrows).symm ▸ ascending_nil
  rw [remaining, filter_eq_nil_iff]
  intro row hrow
  obtain ⟨rows, hrows, hmem⟩ := mem_overlayAll hsorted hrow
  rw [h rows hrows] at hmem
  cases hmem

def advanced (before : List (Reading Id)) (reading : Reading Id) (after : List (Reading Id))
    (backing : Backing) (visiting : Visiting Id τ) : Visiting Id τ :=
  { visiting with readings := before ++ reading :: after, backing := backing }

theorem advanceAt_ensures {reading : Reading Id}
    (hreadings : visiting.readings = before ++ reading :: after)
    (hcurrent : reading.current = some row) (h : reading.Sound) :
    (advanceAt before.length).Ensures visiting
      (fun _ later => ∃ next backing, later = visiting.advanced before next after backing ∧
        next.Sound ∧ reading.rows = row :: next.rows ∧
        backing.refusals <:+ visiting.backing.refusals)
      fun _ _ => visiting.Unreadable := by
  have hget : visiting.readings[before.length]? = some reading := by
    rw [hreadings, getElem?_append_right (Nat.le_refl _), Nat.sub_self]
    rfl
  have hrows := Reading.rows_eq_cons hcurrent
  refine Attempt.ensures_bind_iff.mpr (Attempt.ensures_get_iff.mpr ?_)
  refine Attempt.ensures_bind_iff.mpr (Attempt.Ensures.demand ?_ fun hnone => ?_)
  · rintro found hfound
    cases hget.symm.trans hfound
    have hsorted := h.ascending
    rw [hrows] at hsorted
    refine Attempt.ensures_on_iff.mpr ((Reading.advance_ensures h.ahead hsorted.tail
      visiting.backing).mono ?_ ?_)
    · rintro - ⟨next, backing⟩ ⟨hnext, hnextRows, hlater⟩
      refine ⟨next, backing, ?_, hnext, hnextRows.symm ▸ hrows, hlater⟩
      rw [advanced, hreadings, set_append_right _ _ (Nat.le_refl _), Nat.sub_self]
      rfl
    · rintro e - hrefused hserves
      obtain ⟨bad, hbad, hunreadable⟩ := hrefused hserves
      refine ⟨reading.rows, mem_map_of_mem ?_, bad, ?_, hunreadable⟩
      · rw [hreadings]
        exact mem_append_right _ mem_cons_self
      · rw [hrows]
        exact mem_cons_of_mem _ hbad
  · cases hget.symm.trans hnone

theorem above_of_current {serial : ℕ} (h : ∀ reading ∈ readings, reading.Sound)
    (hcurrent : ∀ reading ∈ readings, ∀ head ∈ reading.current, serial ≤ head.1) :
    ∀ rows ∈ readings.map Reading.rows, ∀ row ∈ rows, serial ≤ row.1 := by
  intro rows hrows row hrow
  obtain ⟨reading, hreading, rfl⟩ := mem_map.mp hrows
  cases hhead : reading.current with
  | none =>
    rw [(h reading hreading).rows_eq_nil hhead] at hrow
    cases hrow
  | some head =>
    have hsorted := (h reading hreading).ascending
    rw [Reading.rows_eq_cons hhead] at hsorted hrow
    exact (hcurrent reading hreading head hhead).trans (hsorted.head_le hrow)

theorem remaining_eq {reading next : Reading Id} (h : visiting.Sound)
    (hreadings : visiting.readings = before ++ reading :: after)
    (hrows : reading.rows = row :: next.rows)
    (hbefore : ∀ other ∈ before, ∀ head ∈ other.current, row.1 < head.1)
    (hafter : ∀ other ∈ after, ∀ head ∈ other.current, row.1 ≤ head.1) (backing : Backing) :
    visiting.remaining =
      if visiting.last = some row.1 then (visiting.advanced before next after backing).remaining
      else row :: (overlayAll (visiting.advanced before next after backing).layers).filter
        fun other => other.1 ≠ row.1 := by
  have hlayers : visiting.layers =
      before.map Reading.rows ++ (row :: next.rows) :: after.map Reading.rows := by
    rw [layers, hreadings, map_append, map_cons, hrows]
  have hothers : ∀ reading ∈ before ++ after, reading.Sound := fun other hother =>
    h.readings other <| hreadings ▸ (mem_append.mp hother).elim (mem_append_left _)
      fun hmem => mem_append_right _ (mem_cons_of_mem _ hmem)
  have hall := overlayAll_least (hlayers ▸ h.ascending)
    (above_of_current (fun other hother => hothers other (mem_append_left _ hother)) hbefore)
    (above_of_current (fun other hother => hothers other (mem_append_right _ hother)) hafter)
  have hnext : (visiting.advanced before next after backing).layers =
      before.map Reading.rows ++ next.rows :: after.map Reading.rows := by
    rw [layers, advanced, map_append, map_cons]
  rw [remaining, hlayers, hall, hnext]
  split_ifs with hlast
  · rw [filter_cons_of_neg (by simp [hlast]), filter_filter, remaining, hnext]
    refine filter_congr fun other _ => ?_
    rw [hlast]
    simp [advanced, hlast, eq_comm]
  · rw [filter_cons_of_pos (by simp [hlast]), filter_eq_self.mpr]
    intro other hother
    have hle : ∀ last ∈ visiting.last, last ≤ row.1 := fun last hmem =>
      h.last last hmem _ (hlayers ▸ mem_append_right _ mem_cons_self) row
        mem_cons_self
    have hlt : row.1 < other.1 := by
      have hsorted : Ascending (overlayAll visiting.layers) := ascending_overlayAll
      rw [hlayers, hall] at hsorted
      exact (ascending_cons.mp hsorted).1 other hother
    rw [decide_eq_true_eq]
    intro hsame
    exact absurd (hle other.1 hsame) (Nat.not_le.mpr hlt)

/-- **One turn** hands over the row with the least serial, unless its serial went before. -/
theorem turn_ensures (h : visiting.Sound) :
    (turn visitor).Ensures visiting (Turned visitor visiting)
      fun e _ => feed visitor visiting.remaining visiting.value = .error e ∨
        visiting.Unreadable := by
  refine Attempt.ensures_bind_iff.mpr (Attempt.ensures_get_iff.mpr ?_)
  cases hbest : best visiting.readings with
  | none =>
    have hempty : ∀ rows ∈ visiting.layers, rows = [] := by
      intro rows hrows
      obtain ⟨reading, hreading, rfl⟩ := mem_map.mp hrows
      exact (h.readings reading hreading).rows_eq_nil (best_eq_none hbest reading hreading)
    refine ⟨suffix_refl _, ?_, fun hfalse => by cases hfalse⟩
    rw [remaining_eq_nil hempty]
    rfl
  | some place =>
    obtain ⟨before, reading, after, row, hreadings, hlength, hcurrent, hserial, hbefore, hafter⟩ :=
      best_eq_some hbest
    have hreading : reading.Sound := h.readings reading
      (hreadings ▸ mem_append_right _ mem_cons_self)
    have hget : visiting.readings[place.1]? = some reading := by
      rw [hreadings, ← hlength, getElem?_append_right (Nat.le_refl _), Nat.sub_self]
      rfl
    dsimp only
    rw [hget]
    refine Attempt.ensures_bind_iff.mpr (Attempt.ensures_pure_iff.mpr ?_)
    rw [hcurrent]
    refine Attempt.ensures_bind_iff.mpr (Attempt.ensures_pure_iff.mpr ?_)
    rw [← hlength]
    refine Attempt.ensures_bind_iff.mpr ((advanceAt_ensures hreadings hcurrent hreading).mono ?_
      fun e _ hunreadable => .inr hunreadable)
    rintro - _ ⟨next, backing, rfl, hnext, hrows, hlater⟩
    rw [← hserial] at hbefore hafter ⊢
    have hremaining := remaining_eq h hreadings hrows hbefore hafter backing
    have hothers : ∀ other ∈ before ++ after, other.Sound := fun other hother =>
      h.readings other <| hreadings ▸ (mem_append.mp hother).elim (mem_append_left _)
        fun hmem => mem_append_right _ (mem_cons_of_mem _ hmem)
    have hsound : ∀ other ∈ before ++ next :: after, other.Sound := by
      intro other hother
      rcases mem_append.mp hother with hother | hother
      · exact hothers other (mem_append_left _ hother)
      · rcases mem_cons.mp hother with rfl | hother
        · exact hnext
        · exact hothers other (mem_append_right _ hother)
    have hlayers : visiting.layers =
        before.map Reading.rows ++ (row :: next.rows) :: after.map Reading.rows := by
      rw [layers, hreadings, map_append, map_cons, hrows]
    have hsub : ∀ rows ∈ (before ++ next :: after).map Reading.rows, ∀ other ∈ rows,
        ∃ rows ∈ visiting.layers, other ∈ rows := by
      intro rows hmem other hother
      rw [map_append, map_cons] at hmem
      rw [hlayers]
      rcases mem_append.mp hmem with hmem | hmem
      · exact ⟨rows, mem_append_left _ hmem, hother⟩
      · rcases mem_cons.mp hmem with rfl | hmem
        · exact ⟨_, mem_append_right _ mem_cons_self, mem_cons_of_mem _ hother⟩
        · exact ⟨rows, mem_append_right _ (mem_cons_of_mem _ hmem), hother⟩
    have hsize : (((before ++ next :: after).map Reading.rows).map List.length).sum <
        visiting.size := by
      rw [size, hlayers]
      simp only [map_append, map_cons, sum_append, sum_cons, length_cons]
      omega
    have habove : ∀ rows ∈ (before ++ next :: after).map Reading.rows, ∀ other ∈ rows,
        row.1 ≤ other.1 := by
      have hleast := above_of_current (fun other hother => hothers other
        (mem_append_left _ hother)) fun other hother head hhead =>
          (hbefore other hother head hhead).le
      have hleast' := above_of_current (fun other hother => hothers other
        (mem_append_right _ hother)) hafter
      have hsorted : Ascending (row :: next.rows) := hrows ▸ hreading.ascending
      intro rows hmem other hother
      rw [map_append, map_cons] at hmem
      rcases mem_append.mp hmem with hmem | hmem
      · exact hleast rows hmem other hother
      · rcases mem_cons.mp hmem with rfl | hmem
        · exact hsorted.head_le (mem_cons_of_mem _ hother)
        · exact hleast' rows hmem other hother
    by_cases hlast : visiting.last = some row.1
    · rw [if_pos hlast] at hremaining ⊢
      refine ⟨hlater, ?_, fun _ => ⟨⟨hsound, ?_⟩, hsize, hsub⟩⟩
      · rw [hremaining]
        rfl
      · exact fun last hmem => Option.some.inj (hlast.symm.trans hmem) ▸ habove
    · rw [if_neg hlast] at hremaining ⊢
      refine Attempt.ensures_bind_iff.mpr (Attempt.Ensures.lift ?_ fun e he => .inl ?_)
      · intro out hout
        refine Attempt.ensures_bind_iff.mpr (Attempt.ensures_modify_iff.mpr ?_)
        have hfeed : feed visitor visiting.remaining visiting.value =
            if out.2 then feed visitor ((overlayAll (visiting.advanced before next after
              backing).layers).filter fun other => other.1 ≠ row.1) out.1 else .ok out.1 := by
          rw [hremaining, feed, hout]
        refine ⟨hlater, ?_, fun _ => ⟨⟨hsound, ?_⟩, hsize, hsub⟩⟩
        · rw [hfeed]
          refine congrArg (fun rest => if out.2 then feed visitor rest out.1 else .ok out.1) ?_
          refine filter_congr fun other _ => ?_
          simp [eq_comm]
        · exact fun last hmem => Option.some.inj hmem ▸ habove
      · rw [hremaining, feed, he]

/-- **The turns** hand over the newest rows in order. -/
theorem turns_ensures {n : ℕ} : ∀ {visiting : Visiting Id τ}, visiting.Sound → visiting.size < n →
    (turns visitor n).Ensures visiting
      (fun _ later => feed visitor visiting.remaining visiting.value = .ok later.value ∧
        later.backing.refusals <:+ visiting.backing.refusals)
      fun e _ => feed visitor visiting.remaining visiting.value = .error e ∨
        visiting.Unreadable := by
  induction n with
  | zero => exact fun _ hsize => absurd hsize (Nat.not_lt_zero _)
  | succ n ih =>
    intro visiting h hsize
    refine Attempt.ensures_bind_iff.mpr ((turn_ensures h).mono_ok fun more later hturned => ?_)
    cases more with
    | false => exact ⟨hturned.feeds, hturned.refusals⟩
    | true =>
      obtain ⟨hsound, hless, hsub⟩ := hturned.goes rfl
      refine (ih hsound (by omega)).mono ?_ ?_
      · rintro - last ⟨hfeed, hlast⟩
        exact ⟨hturned.feeds.trans hfeed, hlast.trans hturned.refusals⟩
      · rintro e last (herror | hunreadable)
        · exact .inl (hturned.feeds.trans herror)
        · refine .inr fun hserves => ?_
          obtain ⟨rows, hrows, row, hrow, hbad⟩ := hunreadable (hserves.suffix hturned.refusals)
          obtain ⟨others, hothers, hmem⟩ := hsub rows hrows row hrow
          exact ⟨others, hothers, row, hmem, hbad⟩

end Visiting

/-! ### A visit as a whole -/

theorem openReading_ensures {run : Run Id} (h : run.Valid) (bufferBytes : ℕ) (backing : Backing) :
    (openReading bufferBytes run).Ensures backing
      (fun reading later => reading.Sound ∧ reading.rows = run.rows ∧
        later.refusals <:+ backing.refusals)
      fun _ _ => backing.Serves → ∃ row ∈ run.rows, ¬ Readable row := by
  have hadvance := @Reading.advance_ensures _ ⟨run, .reader run bufferBytes, none⟩
    (RunScan.reader_ahead h bufferBytes) h.ascending backing
  refine Attempt.ensures_on_iff.mpr (Attempt.ensures_bind_iff.mpr
    (hadvance.mono ?_ fun _ _ hrefused => hrefused))
  rintro - later ⟨hsound, hrows, hlater⟩
  exact ⟨hsound, hrows, hlater⟩

theorem openReadings_ensures {runs : List (Run Id)} (bufferBytes : ℕ) :
    (∀ run ∈ runs, run.Valid) → ∀ backing : Backing, (openReadings bufferBytes runs).Ensures backing
      (fun readings later => (∀ reading ∈ readings, reading.Sound) ∧
        readings.map Reading.rows = runs.map Run.rows ∧ later.refusals <:+ backing.refusals)
      fun _ _ => backing.Serves → ∃ run ∈ runs, ∃ row ∈ run.rows, ¬ Readable row := by
  induction runs with
  | nil => exact fun _ backing => ⟨forall_mem_nil _, rfl, suffix_refl _⟩
  | cons run rest ih =>
    intro h backing
    rw [forall_mem_cons] at h
    refine Attempt.ensures_bind_iff.mpr ((openReading_ensures h.1 bufferBytes backing).mono ?_ ?_)
    · rintro reading later ⟨hreading, hrows, hlater⟩
      refine Attempt.ensures_bind_iff.mpr ((ih h.2 later).mono ?_ ?_)
      · rintro readings last ⟨hreadings, hall, hlast⟩
        exact ⟨forall_mem_cons.mpr ⟨hreading, hreadings⟩, congrArg₂ List.cons hrows hall,
          hlast.trans hlater⟩
      · rintro e last hrefused hserves
        obtain ⟨other, hother, hbad⟩ := hrefused (hserves.suffix hlater)
        exact ⟨other, mem_cons_of_mem _ hother, hbad⟩
    · rintro e later hrefused hserves
      exact ⟨run, mem_cons_self, hrefused hserves⟩

/-- **A visit hands over every serial once**, in order, with its newest row. -/
theorem RunStore.visit_ensures {store : RunStore Id} {whole : Prop} (h : store.Sound whole)
    (visitor : τ → Entry Id → Except OrderingError (τ × Bool)) (value : τ) :
    (visit visitor value).Ensures store
      (fun out later => feed visitor store.rows value = .ok out ∧ Looked whole store later)
      fun e _ => feed visitor store.rows value = .error e ∨ ¬ store.backing.Serves := by
  refine Attempt.ensures_bind_iff.mpr (Attempt.ensures_get_iff.mpr ?_)
  refine Attempt.ensures_bind_iff.mpr (Attempt.ensures_on_iff.mpr
    ((openReadings_ensures store.mergeBuffer h.valid store.backing).mono ?_ ?_))
  · rintro readings backing ⟨hreadings, hrows, hbacking⟩
    have hlayers : (⟨readings, none, value, backing⟩ : Visiting Id τ).layers =
        store.live.map Run.rows := hrows
    have hsound : (⟨readings, none, value, backing⟩ : Visiting Id τ).Sound :=
      ⟨hreadings, by rintro _ ⟨⟩⟩
    have hsize : (⟨readings, none, value, backing⟩ : Visiting Id τ).size <
        (store.live.map Run.count).sum + 1 := by
      rw [Visiting.size, hlayers, map_map]
      refine Nat.lt_succ_of_le (Nat.le_of_eq (congrArg List.sum (map_congr_left fun run hrun => ?_)))
      exact (h.valid run hrun).count_eq.symm
    have hremaining : (⟨readings, none, value, backing⟩ : Visiting Id τ).remaining = store.rows := by
      rw [Visiting.remaining, hlayers]
      exact filter_eq_self.mpr fun _ _ => rfl
    refine Attempt.ensures_on_iff.mpr (Attempt.ensures_on_iff.mpr (Attempt.ensures_bind_iff.mpr
      ((Visiting.turns_ensures hsound hsize).mono ?_ ?_)))
    · rintro - later ⟨hfeed, hlater⟩
      rw [hremaining] at hfeed
      exact ⟨hfeed, ⟨h.valid, h.bounded, h.readable, h.scans⟩, rfl, hlater.trans hbacking⟩
    · rintro e later (herror | hunreadable)
      · exact .inl (hremaining ▸ herror)
      · refine .inr fun hserves => ?_
        obtain ⟨rows, hmem, row, hrow, hbad⟩ := hunreadable (hserves.suffix hbacking)
        rw [hlayers] at hmem
        obtain ⟨run, hrun, rfl⟩ := mem_map.mp hmem
        exact hbad (h.readable run hrun row hrow)
  · rintro e later hrefused
    refine .inr fun hserves => ?_
    obtain ⟨run, hrun, row, hrow, hbad⟩ := hrefused hserves
    exact hbad (h.readable run hrun row hrow)

/-- **A sound store answers** a lookup with what its tiers show, and a visit with its rows. -/
theorem RunStore.Sound.answers {store : RunStore Id} {whole : Prop} (h : store.Sound whole)
    (hserves : store.backing.Serves) :
    (∀ serial, (RunStore.find serial store).1 =
      .ok ((store.seen serial).map (Prod.mk serial))) ∧
    ∀ {τ : Type} (visitor : τ → Entry Id → Except OrderingError (τ × Bool)) (value : τ),
      (RunStore.visit visitor value store).1 = feed visitor store.rows value := by
  refine ⟨fun serial => ?_, fun visitor value => ?_⟩
  · have hfind := RunStore.find_ensures h serial
    rcases hresult : RunStore.find serial store with ⟨e | row, later⟩
    · exact absurd hserves (hfind.of_error hresult).2
    · exact congrArg Except.ok (hfind.of_ok hresult).1
  · have hvisit := RunStore.visit_ensures h visitor value
    rcases hresult : RunStore.visit visitor value store with ⟨e | out, later⟩
    · exact ((hvisit.of_error hresult).resolve_right (not_not.mpr hserves)).symm
    · exact (hvisit.of_ok hresult).1.symm

/-! ## Sequences of operations -/

/-- An operation on the store; a visit collects what it is handed. -/
inductive Operation (Id : Type) where
  | spill (batch : SortedMap ℕ (Row Id))
  | find (serial : ℕ)
  | consolidate
  | visit

/-- What an operation answers. -/
inductive Answer (Id : Type) where
  | done
  | found (row : Option (Entry Id))
  | visited (rows : List (Entry Id))
  deriving DecidableEq

def collect (rows : List (Entry Id)) (row : Entry Id) :
    Except OrderingError (List (Entry Id) × Bool) := .ok (rows ++ [row], true)

theorem feed_collect (rows : List (Entry Id)) : ∀ found : List (Entry Id),
    feed collect rows found = .ok (found ++ rows) := by
  induction rows with
  | nil => exact fun found => congrArg _ (append_nil _).symm
  | cons row rest ih =>
    intro found
    refine (ih (found ++ [row])).trans ?_
    rw [append_assoc]
    rfl

namespace Operation

def apply : Operation Id → Attempt (RunStore Id) OrderingError (Answer Id)
  | spill batch => do
    RunStore.spill batch
    return .done
  | find serial => do
    let row ← RunStore.find serial
    return .found row
  | consolidate => do
    RunStore.consolidate
    return .done
  | visit => do
    let rows ← RunStore.visit collect []
    return .visited rows

def applyAll : List (Operation Id) → Attempt (RunStore Id) OrderingError (List (Answer Id))
  | [] => return []
  | operation :: rest => do
    let answer ← operation.apply
    let later ← applyAll rest
    return answer :: later

def onMap (newest : SortedMap ℕ (Row Id)) : Operation Id → SortedMap ℕ (Row Id)
  | spill batch => batch.overlay newest
  | _ => newest

def answer (newest : SortedMap ℕ (Row Id)) : Operation Id → Answer Id
  | find serial => .found ((newest.get? serial).map (Prod.mk serial))
  | visit => .visited newest.entries
  | _ => .done

def answers : List (Operation Id) → SortedMap ℕ (Row Id) → List (Answer Id)
  | [], _ => []
  | operation :: rest, newest => operation.answer newest :: answers rest (operation.onMap newest)

def newest (operations : List (Operation Id)) : SortedMap ℕ (Row Id) :=
  operations.foldl onMap .empty

/-- The rows of a spill are read back as they are written, and none has the last serial. -/
def Sound : Operation Id → Prop
  | spill batch => ∀ row ∈ batch.entries, Bounded row ∧ Readable row
  | _ => True

/-- The store stands for a map. -/
structure Stands (store : RunStore Id) (newest : SortedMap ℕ (Row Id)) : Prop where
  sound : store.Sound True
  rows : store.rows = newest.entries

variable {store : RunStore Id} {newest : SortedMap ℕ (Row Id)}

theorem Stands.looked {later : RunStore Id} (h : Stands store newest)
    (hlooked : RunStore.Looked True store later) : Stands later newest := by
  refine ⟨hlooked.sound, ?_⟩
  rw [RunStore.rows, RunStore.live, hlooked.levels]
  exact h.rows

/-- **One operation** answers as the map does. -/
theorem apply_ensures {operation : Operation Id} (hoperation : operation.Sound)
    (h : Stands store newest) :
    operation.apply.Ensures store
      (fun answer later => answer = operation.answer newest ∧
        Stands later (operation.onMap newest)) fun _ _ => True := by
  cases operation with
  | spill batch =>
    by_cases hbatch : batch.entries = []
    · have hsame : batch.overlay newest = newest := by
        rw [SortedMap.overlay, hbatch]
        rfl
      have hspill : (RunStore.spill batch).Ensures store (fun _ later => later = store)
          fun _ _ => True := by
        rw [RunStore.spill, if_pos (List.isEmpty_iff.mpr hbatch)]
        rfl
      refine Attempt.ensures_bind_iff.mpr (hspill.mono_ok ?_)
      rintro _ _ rfl
      refine ⟨rfl, ?_⟩
      rw [onMap, hsame]
      exact h
    · refine Attempt.ensures_bind_iff.mpr ((RunStore.spill_ensures h.sound hbatch).mono ?_
        fun _ _ _ => trivial)
      intro _ later hspilled
      obtain ⟨hsound, hrows⟩ := hspilled hoperation
      refine ⟨rfl, hsound, ?_⟩
      rw [hrows, h.rows]
      exact (overlayRows_entries batch newest).symm
  | find serial =>
    refine Attempt.ensures_bind_iff.mpr ((RunStore.find_ensures h.sound serial).mono ?_
      fun _ _ _ => trivial)
    rintro row later ⟨hrow, hlooked⟩
    refine ⟨?_, h.looked hlooked⟩
    rw [hrow, h.sound.seen_eq trivial, h.rows]
    rfl
  | consolidate =>
    refine Attempt.ensures_bind_iff.mpr ((RunStore.consolidate_ensures h.sound).mono ?_
      fun _ _ _ => trivial)
    rintro _ later ⟨hsound, hrows⟩
    exact ⟨rfl, hsound, hrows.trans h.rows⟩
  | visit =>
    refine Attempt.ensures_bind_iff.mpr ((RunStore.visit_ensures h.sound collect []).mono ?_
      fun _ _ _ => trivial)
    rintro rows later ⟨hfeed, hlooked⟩
    rw [feed_collect, nil_append, h.rows] at hfeed
    cases hfeed
    exact ⟨rfl, h.looked hlooked⟩

/-- **Operations** answer as the map does, one after another. -/
theorem applyAll_ensures {operations : List (Operation Id)} :
    (∀ operation ∈ operations, operation.Sound) → ∀ {store : RunStore Id}
      {newest : SortedMap ℕ (Row Id)}, Stands store newest →
      (applyAll operations).Ensures store
        (fun found later => found = answers operations newest ∧
          Stands later (operations.foldl onMap newest)) fun _ _ => True := by
  induction operations with
  | nil => exact fun _ store newest h => ⟨rfl, h⟩
  | cons operation rest ih =>
    intro hoperations store newest h
    rw [forall_mem_cons] at hoperations
    refine Attempt.ensures_bind_iff.mpr ((apply_ensures hoperations.1 h).mono_ok ?_)
    rintro _ later ⟨rfl, hlater⟩
    refine Attempt.ensures_bind_iff.mpr ((ih hoperations.2 hlater).mono_ok ?_)
    rintro _ last ⟨rfl, hlast⟩
    exact ⟨rfl, hlast⟩

theorem new_stands (backed : Bool) (refusals : List (Option OrderingError))
    (mergeBuffer limit : ℕ) :
    Stands (RunStore.new backed refusals mergeBuffer limit : RunStore Id) .empty := by
  refine ⟨⟨forall_mem_nil _, forall_mem_nil _, forall_mem_nil _, ?_⟩, rfl⟩
  intro index run scan hrun
  rw [RunStore.new, getElem?_nil] at hrun
  cases hrun

theorem Stands.answers_newest (h : Stands store newest) (hserves : store.backing.Serves) :
    (∀ serial, (RunStore.find serial store).1 = .ok ((newest.get? serial).map (Prod.mk serial))) ∧
    ∀ {τ : Type} (visitor : τ → Entry Id → Except OrderingError (τ × Bool)) (value : τ),
      (RunStore.visit visitor value store).1 = feed visitor newest.entries value := by
  have hanswers := h.sound.answers hserves
  refine ⟨fun serial => ?_, h.rows ▸ hanswers.2⟩
  rw [hanswers.1 serial, h.sound.seen_eq trivial, h.rows]
  rfl

end Operation

/-- **The store is a map in which the newest row wins**: over any sequence of operations that
succeed every lookup returns the row of its serial spilled last, and every visit hands over each
serial once, in order, with that row. -/
theorem operations_newest_wins {operations : List (Operation Id)}
    (hoperations : ∀ operation ∈ operations, operation.Sound) {backed : Bool}
    {refusals : List (Option OrderingError)} {mergeBuffer limit : ℕ} {found : List (Answer Id)}
    {store : RunStore Id}
    (h : Operation.applyAll operations (RunStore.new backed refusals mergeBuffer limit) =
      (.ok found, store)) :
    found = Operation.answers operations .empty ∧
      (store.backing.Serves →
        (∀ serial, (RunStore.find serial store).1 =
          .ok (((Operation.newest operations).get? serial).map (Prod.mk serial))) ∧
        ∀ {τ : Type} (visitor : τ → Entry Id → Except OrderingError (τ × Bool)) (value : τ),
          (RunStore.visit visitor value store).1 =
            feed visitor (Operation.newest operations).entries value) := by
  obtain ⟨hfound, hstands⟩ := (Operation.applyAll_ensures hoperations
    (Operation.new_stands backed refusals mergeBuffer limit)).of_ok h
  exact ⟨hfound, fun hserves => hstands.answers_newest hserves⟩

def twoBatches : List (Operation ℕ) :=
  [.spill ⟨[(1, .count none 1), (2, .effect none 1)], by decide⟩,
    .spill ⟨[(1, .count none 2)], by decide⟩, .find 1, .consolidate, .visit]

theorem twoBatches_sound : ∀ operation ∈ twoBatches, operation.Sound := by
  simp only [twoBatches, forall_mem_cons, Operation.Sound]
  refine ⟨?_, ?_, trivial, trivial, trivial, forall_mem_nil _⟩
  · exact ⟨⟨by decide, rfl⟩, ⟨by decide, rfl⟩, forall_mem_nil _⟩
  · exact ⟨⟨by decide, rfl⟩, forall_mem_nil _⟩

theorem operations_newest_wins_two : ∃ store,
    Operation.applyAll twoBatches (RunStore.new true [] 96 4096) =
      (.ok [.done, .done, .found (some (1, .count none 2)), .done,
        .visited [(1, .count none 2), (2, .effect none 1)]], store) ∧
    (RunStore.find 2 store).1 = .ok (some (2, .effect none 1)) := by
  have hrun : (Operation.applyAll twoBatches (RunStore.new true [] 96 4096)).1.isOk = true ∧
      (Operation.applyAll twoBatches (RunStore.new true [] 96 4096)).2.backing.refusals = [] := by
    decide +kernel
  generalize hresult : Operation.applyAll twoBatches _ = result at hrun
  obtain ⟨e | found, store⟩ := result
  · cases hrun.1
  obtain ⟨rfl, hanswers⟩ := operations_newest_wins twoBatches_sound hresult
  have hserves : store.backing.Serves := by
    rw [Backing.Serves, hrun.2]
    exact forall_mem_nil _
  exact ⟨store, rfl, (hanswers hserves).1 2⟩

def oneRow (serial : ℕ) : SortedMap ℕ (Row ℕ) :=
  ⟨[(serial, .count none 1)], pairwise_singleton _ _⟩

def lookedUpTwice (serial : ℕ) : List (Operation ℕ) :=
  [.spill (oneRow serial), .find serial, .find serial]

/-- **Rows the store does not give back**: one under serial zero cannot be read, one under the last
serial is missed by the second lookup in a row, and one in a run whose merge is refused is lost. -/
theorem operations_lose_rows :
    (Operation.applyAll (lookedUpTwice 0) (RunStore.new true [] 96 4096)).1 =
      .error (.invalidOrderingRecord "serial") ∧
    (Operation.applyAll (lookedUpTwice (2 ^ 64 - 1)) (RunStore.new true [] 96 4096)).1 =
      .ok [.done, .found (some (2 ^ 64 - 1, .count none 1)), .found none] ∧
    (let spilled := (RunStore.spill (oneRow 1)
      (RunStore.new true (List.replicate 6 none ++ [some .io]) 96 4096)).2
    (RunStore.find 1 spilled).1 = .ok (some (1, .count none 1)) ∧
      (RunStore.find 1 (RunStore.spill (oneRow 2) spilled).2).1 = .ok none) := by
  refine ⟨?_, ?_, ?_, ?_⟩
  · rfl
  · decide +kernel
  · decide +kernel
  · decide +kernel

end LayerFs.Tiered
