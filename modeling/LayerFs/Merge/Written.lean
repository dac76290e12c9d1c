import LayerFs.Merge.Rows

/-!
# A written plan (`merge/rows.rs`, `merge/build.rs`)

Any steps of writing a plan, in any order across its directories, leave records that tell the
pushed lists.

* `Kept.step`, `Kept.run` — **written rows are the pushed lists**.
* `Ranked`, `rank_ranked` — **every fresh serial gets its place in serial order**.
-/

namespace LayerFs.Merge

open List

open Windows Wire

variable {R : Type} {b : Backing R Identity} {view : R → SortedMap (RecordKey Identity) Bytes}
variable {steps : List (PlanStep R)} {α : Type} {l : List α} {a : α} {f : α → α} {i : ℕ}
  {m m' : SortedMap (RecordKey Identity) Bytes} {s : Spill R Identity}
  {rows : ℕ → List (List Change)} {p : Planned} {writers : List (Option ChangeWriter)}

/-! ## One step -/

/-- A step that keeps to the rules: its other work leaves the plan's rows alone. -/
def PlanStep.Minds (b : Backing R Identity) (view : R → SortedMap (RecordKey Identity) Bytes) :
    PlanStep R → Prop
  | .other work => LeavesPlan b view work
  | _ => True

theorem modify_of_eq (h : ∀ a, l[i]? = some a → f a = a) : l.modify i f = l := by
  refine ext_getElem? fun j => ?_
  rw [getElem?_modify]
  rcases hj : l[j]? with _ | a
  · rfl
  · refine congrArg some ?_
    split_ifs with hij
    · subst hij
      exact h a hj
    · rfl

/-- A writer that is not there or is done adds nothing to the lists. -/
theorem Planned.push_gone {p : Planned} {writer : ℕ} {name : PathName} {binding : Option ℕ}
    (h : ∀ l, p.lists[writer]? = some l → l.finished = true) :
    p.step (.push writer name binding : PlanStep R) = p := by
  rw [Planned.step, modify_of_eq fun l hl => by rw [PlannedList.push, if_pos (h l hl)]]

theorem Planned.finish_gone {p : Planned} {writer : ℕ}
    (h : ∀ l, p.lists[writer]? = some l → l.finished = true) :
    p.step (.finish writer : PlanStep R) = p := by
  rw [Planned.step, modify_of_eq fun l hl => by rw [← h l hl]]

theorem modify_eq_set (h : l[i]? = some a) : l.modify i f = l.set i (f a) := by
  refine ext_getElem? fun j => ?_
  rw [getElem?_modify, getElem?_set]
  by_cases hij : i = j
  · subst hij
    rw [if_pos rfl, if_pos (List.getElem?_eq_some_iff.mp h).1, h]
    exact congrArg some (if_pos rfl)
  · simp [hij]

theorem concat_cases {β : Type} {l' : List β} {c : β} (hlength : l'.length = l.length) {x : α}
    (hx : (l ++ [a])[i]? = some x) :
    l[i]? = some x ∧ (l' ++ [c])[i]? = l'[i]? ∨ x = a ∧ (l' ++ [c])[i]? = some c := by
  rcases Nat.lt_or_ge i l.length with hlt | hge
  · rw [getElem?_append_left hlt] at hx
    exact .inl ⟨hx, getElem?_append_left (hlength.symm ▸ hlt)⟩
  · obtain ⟨hlt, -⟩ := List.getElem?_eq_some_iff.mp hx
    rw [length_append, length_singleton] at hlt
    obtain rfl : i = l.length := by omega
    rw [getElem?_concat_length] at hx
    cases hx
    refine .inr ⟨rfl, ?_⟩
    rw [← hlength, getElem?_concat_length]

theorem Kept.start (h : Kept m rows p writers) (parent : ℕ) :
    Kept m rows { p with lists := p.lists ++ [.new parent] } (writers ++ [some (.new parent)]) := by
  have hcases : ∀ {i : ℕ} {l : PlannedList}, (p.lists ++ [.new parent])[i]? = some l →
      p.lists[i]? = some l ∧ (writers ++ [some (.new parent)])[i]? = writers[i]? ∨
        l = .new parent ∧ (writers ++ [some (.new parent)])[i]? = some (some (.new parent)) :=
    fun hl => concat_cases h.length hl
  have hzero : 0 < u64Bound := by decide
  have hold : ∀ {i : ℕ} {l : PlannedList}, p.lists[i]? = some l →
      (p.lists ++ [.new parent])[i]? = some l := fun hl =>
    (getElem?_append_left (List.getElem?_eq_some_iff.mp hl).1).trans hl
  refine ⟨h.chunked, fun q hq => ?_, ?_, ?_, ?_, ?_, fun q hq => ?_, h.fresh⟩
  · obtain ⟨i, l, hl, hparent, htouched⟩ := h.owner q hq
    exact ⟨i, l, hold hl, hparent, htouched⟩
  · rw [length_append, length_append, h.length]
    rfl
  · intro i l hl hfinished
    rcases hcases hl with ⟨hl, hw⟩ | ⟨rfl, hw⟩
    · rw [hw]
      exact h.unfinished hl hfinished
    · refine ⟨_, [], [], hw, ⟨rfl, rfl, hzero, rfl, hzero, ?_, rfl, rfl, rfl⟩, ?_⟩
      · exact fun group hgroup => absurd hgroup not_mem_nil
      · exact fun hne => absurd rfl hne
  · intro i l hl hfinished
    rcases hcases hl with ⟨hl, hw⟩ | ⟨rfl, -⟩
    · rw [hw]
      exact h.gone hl hfinished
    · cases hfinished
  · intro i l hl hfinished
    rcases hcases hl with ⟨hl, -⟩ | ⟨rfl, -⟩
    · exact h.header hl hfinished
    · cases hfinished
  · exact h.absent q fun i l hl => hq i l (hold hl)

theorem Kept.fresh_step (hb : b.Lawful view) (hs : Refines view PlanKind s m)
    (h : Kept m rows p writers) (serial : ℕ) :
    Yields b.Fails (fun s' => ∃ m', Refines view PlanKind s' m' ∧
        Kept m' rows { p with fresh := p.fresh ++ [serial] } writers)
      (freshSerial b s serial) := by
  have hkind : PlanKind freshKind := .inr (.inr (.inr rfl))
  have hmem : ∀ key, (key ∈ (p.fresh ++ [serial]).map single) ↔
      key = single serial ∨ key ∈ p.fresh.map single := by
    intro key
    rw [map_append, mem_append, map_singleton, mem_singleton]
    exact or_comm
  rw [freshSerial]
  refine (hs.get hb hkind).bind fun r hr => ?_
  obtain ⟨held, s₁⟩ := r
  obtain ⟨rfl, h₁⟩ := hr
  dsimp only at h₁ ⊢
  rw [h.fresh]
  by_cases hin : single serial ∈ p.fresh.map single
  · rw [if_pos hin]
    refine ⟨m, h₁, ⟨h.chunked, h.owner, h.length, h.unfinished, h.gone, h.header, h.absent,
      fun key => ?_⟩⟩
    rw [h.fresh]
    refine if_congr ⟨fun hkey => (hmem key).mpr (.inr hkey), fun hkey => ?_⟩ rfl rfl
    exact ((hmem key).mp hkey).elim (fun heq => heq ▸ hin) id
  · have hnone : m.get? (recordKey freshKind (single serial)) = none := by
      rw [h.fresh, if_neg hin]
    rw [if_neg hin]
    refine (h₁.insert hb hkind [] hnone).mono fun s₂ h₂ => ⟨_, h₂, ?_⟩
    have hkept : ∀ {kind key}, kind ≠ freshKind →
        (m.insert (recordKey freshKind (single serial)) []).get? (recordKey kind key)
          = m.get? (recordKey kind key) := fun hne => get?_insert_kind hne
    refine ⟨⟨fun q i => ?_, fun q i => ?_, h.chunked.full⟩, h.owner, h.length, h.unfinished,
      h.gone, fun hl hfinished => ?_, fun q hq => ?_, fun key => ?_⟩
    · rw [hkept (by decide), h.chunked.first]
    · rw [hkept (by decide), h.chunked.changes]
    · rw [hkept (by decide)]
      exact h.header hl hfinished
    · rw [hkept (by decide)]
      exact h.absent q hq
    · rw [SortedMap.get?_insert, h.fresh]
      by_cases hkey : key = single serial
      · rw [hkey, if_pos rfl, if_pos ((hmem _).mpr (.inl rfl))]
      · rw [if_neg fun heq => hkey (recordKey_inj.mp heq).2]
        refine if_congr ⟨fun hk => (hmem key).mpr (.inr hk), fun hk => ?_⟩ rfl rfl
        exact ((hmem key).mp hk).resolve_left hkey

/-- **One step keeps the records with the lists.** -/
theorem Kept.step (hb : b.Lawful view) {w : Writing R} {step : PlanStep R}
    (hs : Refines view PlanKind w.spill m) (h : Kept m rows p w.writers) (hmind : step.Minds b view)
    (hapart : (p.step step).Apart) :
    Yields (Stops b (p.step step)) (fun w' => ∃ m' rows', Refines view PlanKind w'.spill m' ∧
        Kept m' rows' (p.step step) w'.writers)
      (w.step b step) := by
  cases step with
  | start parent => exact ⟨m, rows, hs, h.start parent⟩
  | push writer name binding =>
    rw [Writing.step]
    rcases hl : p.lists[writer]? with _ | l
    · rw [h.no_list hl]
      refine ⟨m, rows, hs, ?_⟩
      rw [Planned.push_gone (by simp [hl])]
      exact h
    rcases hfinished : l.finished with _ | _
    · have hself : (p.step (.push writer name binding : PlanStep R)).lists[writer]?
          = some (l.push (name, binding)) := by
        rw [Planned.step, getElem?_modify, hl]
        exact congrArg some (if_pos rfl)
      have hsole := hapart.sole hl hself (l.push_touched _)
      obtain ⟨cw, last, hw, hholds⟩ := h.writer hl hfinished hsole
      rw [hw]
      refine ((cw.push_chunked hb hs h.chunked hholds hfinished name binding).weaken
        fun e he => he.imp_right fun he => ⟨he.1, _, mem_of_getElem? hself, he.2⟩).bind
        fun r hr => ?_
      obtain ⟨m', groups, last', hm', hchunked, hholds', halone⟩ := hr
      refine ⟨m', Function.update rows l.parent groups, hm', ?_⟩
      rw [Planned.step, modify_eq_set hl]
      refine h.replace hl hfinished hsole (l.push_parent _) (l.push_touched _) hchunked
        (fun _ => ⟨r.1, last', rfl, hholds'⟩) (fun hdone => ?_)
        (fun kind key hne₁ hne₂ _ => halone kind key hne₁ hne₂)
      rw [l.push_finished, hfinished] at hdone
      cases hdone
    · rw [h.gone hl hfinished]
      refine ⟨m, rows, hs, ?_⟩
      rw [Planned.push_gone (by simp [hl, hfinished])]
      exact h
  | finish writer =>
    rw [Writing.step]
    rcases hl : p.lists[writer]? with _ | l
    · rw [h.no_list hl]
      refine ⟨m, rows, hs, ?_⟩
      rw [Planned.finish_gone (by simp [hl])]
      exact h
    rcases hfinished : l.finished with _ | _
    · have hself : (p.step (.finish writer : PlanStep R)).lists[writer]?
          = some { l with finished := true } := by
        rw [Planned.step, getElem?_modify, hl]
        exact congrArg some (if_pos rfl)
      have hsole := hapart.sole hl hself (.inr rfl)
      obtain ⟨cw, last, hw, hholds⟩ := h.writer hl hfinished hsole
      have habsent : m.get? (recordKey headerKind (single l.parent)) = none := by
        refine h.absent _ fun j k hk hdone hparent => ?_
        have hj := hsole j k hk (.inr hdone) hparent
        rw [hj, hl] at hk
        cases hk
        rw [hfinished] at hdone
        cases hdone
      rw [hw]
      refine ((cw.finish_chunked hb hs h.chunked hholds habsent).weaken fun e => Or.inl).bind
        fun s' hs' => ?_
      obtain ⟨m', groups, hm', hchunked, hflat, hmany, hfew, halone⟩ := hs'
      refine ⟨_, Function.update rows l.parent groups, hm', ?_⟩
      rw [Planned.step, modify_eq_set hl]
      have hchunked' : Chunked (m'.insert (recordKey headerKind (single l.parent))
          (be 8 l.changes.length ++ be 8 groups.length))
          (Function.update rows l.parent groups) := by
        refine ⟨fun q i => ?_, fun q i => ?_, hchunked.full⟩
        · rw [get?_insert_kind (by decide), hchunked.first]
        · rw [get?_insert_kind (by decide), hchunked.changes]
      have hparent : ({ l with finished := true } : PlannedList).parent = l.parent := rfl
      refine h.replace hl hfinished hsole hparent (.inr rfl) hchunked'
         (fun hdone => by cases hdone) (fun _ => ⟨rfl, ?_, hflat, hmany, hfew⟩)
        fun kind key hne₁ hne₂ hkey => ?_
      · rw [SortedMap.get?_insert, if_pos rfl]
      · rw [SortedMap.get?_insert, if_neg (hkey rfl), halone kind key hne₁ hne₂]
    · rw [h.gone hl hfinished]
      refine ⟨m, rows, hs, ?_⟩
      rw [Planned.finish_gone (by simp [hl, hfinished])]
      exact h
  | fresh serial =>
    rw [Writing.step]
    refine ((h.fresh_step hb hs serial).weaken fun e => Or.inl).bind fun s' hs' => ?_
    obtain ⟨m', hm', hkept⟩ := hs'
    exact ⟨m', rows, hm', hkept⟩
  | other work =>
    rw [Writing.step]
    refine ((hmind PlanKind (fun _ => id) _ m hs).weaken fun e => Or.inl).bind fun s' hs' => ?_
    exact ⟨m, rows, hs', h⟩

/-- **Written rows are the pushed lists**, whatever is written in between. -/
theorem Kept.run (hb : b.Lawful view) :
    ∀ {w : Writing R} {m : SortedMap (RecordKey Identity) Bytes} {rows : ℕ → List (List Change)}
      {p : Planned}, Refines view PlanKind w.spill m → Kept m rows p w.writers →
      (∀ step ∈ steps, step.Minds b view) → (planned p steps).Apart →
      Yields (Stops b (planned p steps)) (fun w' => ∃ m' rows', Refines view PlanKind w'.spill m' ∧
          Kept m' rows' (planned p steps) w'.writers)
        (w.run b steps) := by
  induction steps with
  | nil => exact fun hs h _ _ => ⟨_, _, hs, h⟩
  | cons step steps ih =>
    intro w m rows p hs h hmind hapart
    rw [forall_mem_cons] at hmind
    rw [Writing.run]
    refine ((h.step hb hs hmind.1 (Planned.Apart.of_planned hapart)).weaken
      fun e he => he.imp_right fun he => ⟨he.1, he.2.planned⟩).bind fun w' hw' => ?_
    obtain ⟨m', rows', hs', h'⟩ := hw'
    exact ih hs' h' hmind.2 hapart

/-! ## A directory written twice -/

/-- What ends the writing of a plan that has a directory twice. -/
def StopsTwice (b : Backing R Identity) (p : Planned) (e : ContentError) : Prop :=
  Stops b p e ∨ e = malformed ∨ e = writtenTwice

/-- The ends of a call of the records, or of a refused row. -/
def Refused (b : Backing R Identity) (e : ContentError) : Prop :=
  b.Fails e ∨ e = malformed ∨ e = writtenTwice

theorem StopsTwice.of_refused {e : ContentError} (h : Refused b e) : StopsTwice b p e :=
  h.imp_left .inl

theorem StopsTwice.of_insert {e : ContentError} (h : b.Fails e ∨ e = malformed) :
    StopsTwice b p e :=
  StopsTwice.of_refused (h.imp_right .inl)

def HeaderKind (kind : ℕ) : Prop := kind = headerKind

/-- A writer's counters, whatever rows the records hold: a chunk has a name. -/
structure ChangeWriter.Tallies (w : ChangeWriter) (l : PlannedList) : Prop where
  parent : w.parent = l.parent
  count : w.count = l.changes.length
  narrow : w.count < u64Bound
  chunks : w.chunks + (if w.chunk = [] then 0 else 1) ≤ w.count

variable {w : ChangeWriter} {l : PlannedList}

theorem ChangeWriter.flush_headers (hb : b.Lawful view) (h : Refines view HeaderKind s m)
    (hw : w.Tallies l) :
    Yields (fun e => b.Fails e ∨ e = malformed) (fun r => Refines view HeaderKind r.2 m ∧
        r.1.Tallies l)
      (w.flush b s) := by
  rw [ChangeWriter.flush]
  split_ifs with hempty
  · exact ⟨h, hw⟩
  · refine (h.insert_other hb (by rw [HeaderKind]; decide) _ _).bind fun s₁ h₁ => ?_
    refine (h₁.insert_other hb (by rw [HeaderKind]; decide) _ _).bind fun s₂ h₂ => ?_
    have hchunks := hw.chunks
    rw [if_neg hempty] at hchunks
    rw [checkedAdd_eq_ok.mpr ⟨hchunks.trans_lt hw.narrow, rfl⟩]
    exact ⟨h₂, hw.parent, hw.count, hw.narrow, hchunks⟩

theorem ChangeWriter.push_headers (hb : b.Lawful view) (h : Refines view HeaderKind s m)
    (hw : w.Tallies l) (hopen : l.finished = false) (name : PathName) (binding : Option ℕ) :
    Yields (fun e => (b.Fails e ∨ e = malformed) ∨
        e = .lengthOverflow ∧ u64Bound ≤ (l.push (name, binding)).changes.length)
      (fun r => Refines view HeaderKind r.2 m ∧ r.1.Tallies (l.push (name, binding)))
      (w.push b s name binding) := by
  have hroom : Yields (fun e => b.Fails e ∨ e = malformed)
      (fun r => Refines view HeaderKind r.2 m ∧ r.1.Tallies l) (w.room b s name) := by
    rw [ChangeWriter.room]
    split_ifs
    · exact ChangeWriter.flush_headers hb h hw
    · exact ⟨h, hw⟩
  have hpush : (l.push (name, binding)).changes.length = l.changes.length + 1 := by
    rw [PlannedList.push, hopen]
    exact length_append
  rw [ChangeWriter.push]
  refine (hroom.weaken fun e => Or.inl).bind fun r hr => ?_
  obtain ⟨w', s'⟩ := r
  obtain ⟨h', hw'⟩ := hr
  dsimp only at h' hw' ⊢
  rw [if_neg (not_le_of_gt (name.length_le.trans_lt (by decide)))]
  rcases hadd : checkedAdd w'.count 1 with e | count
  · rw [checkedAdd] at hadd
    split_ifs at hadd with hlong
    cases hadd
    rw [hw'.count] at hlong
    exact .inr ⟨rfl, by rw [hpush]; exact not_lt.mp hlong⟩
  obtain ⟨hnarrow, rfl⟩ := checkedAdd_eq_ok.mp hadd
  refine ⟨h', hw'.parent.trans (l.push_parent _).symm, ?_, hnarrow, ?_⟩
  · rw [hpush]
    exact congrArg (· + 1) hw'.count
  · have hchunks := hw'.chunks
    dsimp only
    split_ifs at hchunks ⊢ <;> omega

/-- **A parent that has its header is refused.** -/
theorem ChangeWriter.finish_headers (hb : b.Lawful view) (h : Refines view HeaderKind s m)
    (hw : w.Tallies l) :
    Yields (Refused b) (fun s' =>
        m.get? (recordKey headerKind (single l.parent)) = none ∧
        ∃ value, Refines view HeaderKind s'
          (m.insert (recordKey headerKind (single l.parent)) value))
      (w.finish b s) := by
  rw [ChangeWriter.finish]
  refine ((ChangeWriter.flush_headers hb h hw).weaken fun e he => he.imp_right .inl).bind
    fun r hr => ?_
  obtain ⟨w', s'⟩ := r
  obtain ⟨h', hw'⟩ := hr
  dsimp only at h' hw' ⊢
  refine ((h'.get hb rfl).weaken fun e he => .inl he).bind fun r hr => ?_
  obtain ⟨held, s₁⟩ := r
  obtain ⟨rfl, h₁⟩ := hr
  dsimp only at h₁ ⊢
  rw [hw'.parent]
  split_ifs with hheld
  · exact .inr (.inr rfl)
  · have hnone := Option.not_isSome_iff_eq_none.mp hheld
    refine ((h₁.insert hb rfl _ hnone).weaken fun e he => .inl he).mono fun s₂ h₂ => ?_
    exact ⟨hnone, _, h₂⟩

/-- What the headers tell of the lists. -/
structure Headed (m : SortedMap (RecordKey Identity) Bytes) (p : Planned)
    (writers : List (Option ChangeWriter)) : Prop where
  length : writers.length = p.lists.length
  unfinished : ∀ {i : ℕ} {l : PlannedList}, p.lists[i]? = some l → l.finished = false →
    ∃ w, writers[i]? = some (some w) ∧ w.Tallies l
  gone : ∀ {i : ℕ} {l : PlannedList}, p.lists[i]? = some l → l.finished = true →
    writers[i]? = some none
  header : ∀ {i : ℕ} {l : PlannedList}, p.lists[i]? = some l → l.finished = true →
    m.get? (recordKey headerKind (single l.parent)) ≠ none
  once : ∀ {i j : ℕ} {l l' : PlannedList}, p.lists[i]? = some l → p.lists[j]? = some l' →
    l.finished = true → l'.finished = true → l.parent = l'.parent → i = j

theorem Headed.replace (h : Headed m p writers) {l l' : PlannedList} {writer : Option ChangeWriter}
    (hl : p.lists[i]? = some l) (hparent : l'.parent = l.parent)
    (hstill : l'.finished = false → ∃ w, writer = some w ∧ w.Tallies l')
    (hdone : l'.finished = true → writer = none ∧
      m.get? (recordKey headerKind (single l.parent)) = none ∧
      m'.get? (recordKey headerKind (single l.parent)) ≠ none)
    (hkeep : ∀ parent, m.get? (recordKey headerKind (single parent)) ≠ none →
      m'.get? (recordKey headerKind (single parent)) ≠ none) :
    Headed m' { p with lists := p.lists.set i l' } (writers.set i writer) := by
  have hi := (List.getElem?_eq_some_iff.mp hl).1
  have hwriter : (writers.set i writer)[i]? = some writer :=
    getElem?_set_self (h.length.symm ▸ hi)
  have hcases : ∀ {j : ℕ} {k : PlannedList}, (p.lists.set i l')[j]? = some k →
      j = i ∧ k = l' ∨ j ≠ i ∧ p.lists[j]? = some k := by
    intro j k hk
    by_cases hj : j = i
    · subst hj
      rw [getElem?_set_self hi] at hk
      exact .inl ⟨rfl, (Option.some.inj hk).symm⟩
    · rw [getElem?_set_ne (Ne.symm hj)] at hk
      exact .inr ⟨hj, hk⟩
  -- a finished list elsewhere has its header already
  have hnew : ∀ {j : ℕ} {k : PlannedList}, p.lists[j]? = some k → k.finished = true →
      l'.finished = true → k.parent ≠ l.parent := fun hk hfinished hdone' heq =>
    h.header hk hfinished (heq ▸ (hdone hdone').2.1)
  refine ⟨?_, fun hk hfinished => ?_, fun hk hfinished => ?_, fun hk hfinished => ?_,
    fun hk hk' hfinished hfinished' heq => ?_⟩
  · rw [length_set, length_set, h.length]
  · rcases hcases hk with ⟨rfl, rfl⟩ | ⟨hj, hk⟩
    · obtain ⟨w, rfl, hw⟩ := hstill hfinished
      exact ⟨w, hwriter, hw⟩
    · rw [getElem?_set_ne (Ne.symm hj)]
      exact h.unfinished hk hfinished
  · rcases hcases hk with ⟨rfl, rfl⟩ | ⟨hj, hk⟩
    · rw [hwriter, (hdone hfinished).1]
    · rw [getElem?_set_ne (Ne.symm hj)]
      exact h.gone hk hfinished
  · rcases hcases hk with ⟨rfl, rfl⟩ | ⟨hj, hk⟩
    · rw [hparent]
      exact (hdone hfinished).2.2
    · exact hkeep _ (h.header hk hfinished)
  · rcases hcases hk with ⟨rfl, rfl⟩ | ⟨-, hold⟩ <;> rcases hcases hk' with ⟨rfl, rfl⟩ | ⟨-, hold'⟩
    · rfl
    · exact absurd (heq.symm.trans hparent) (hnew hold' hfinished' hfinished)
    · exact absurd (heq.trans hparent) (hnew hold hfinished hfinished')
    · exact h.once hold hold' hfinished hfinished' heq

theorem Headed.start (h : Headed m p writers) (parent : ℕ) :
    Headed m { p with lists := p.lists ++ [.new parent] } (writers ++ [some (.new parent)]) := by
  have hcases : ∀ {i : ℕ} {l : PlannedList}, (p.lists ++ [.new parent])[i]? = some l →
      p.lists[i]? = some l ∧ (writers ++ [some (.new parent)])[i]? = writers[i]? ∨
        l = .new parent ∧ (writers ++ [some (.new parent)])[i]? = some (some (.new parent)) :=
    fun hl => concat_cases h.length hl
  have hzero : 0 < u64Bound := by decide
  refine ⟨?_, fun hk hfinished => ?_, fun hk hfinished => ?_, fun hk hfinished => ?_,
    fun hk hk' hfinished hfinished' heq => ?_⟩
  · rw [length_append, length_append, h.length]
    rfl
  · rcases hcases hk with ⟨hk, hw⟩ | ⟨rfl, hw⟩
    · rw [hw]
      exact h.unfinished hk hfinished
    · exact ⟨_, hw, rfl, rfl, hzero, le_rfl⟩
  · rcases hcases hk with ⟨hk, hw⟩ | ⟨rfl, -⟩
    · rw [hw]
      exact h.gone hk hfinished
    · cases hfinished
  · rcases hcases hk with ⟨hk, -⟩ | ⟨rfl, -⟩
    · exact h.header hk hfinished
    · cases hfinished
  · rcases hcases hk with ⟨hold, -⟩ | ⟨rfl, -⟩
    · rcases hcases hk' with ⟨hold', -⟩ | ⟨rfl, -⟩
      · exact h.once hold hold' hfinished hfinished' heq
      · cases hfinished'
    · cases hfinished

/-- **One step keeps the headers with the lists**, whatever else is written. -/
theorem Headed.step (hb : b.Lawful view) {w : Writing R} {step : PlanStep R}
    (hs : Refines view HeaderKind w.spill m) (h : Headed m p w.writers)
    (hmind : step.Minds b view) :
    Yields (StopsTwice b (p.step step)) (fun w' => ∃ m', Refines view HeaderKind w'.spill m' ∧
        Headed m' (p.step step) w'.writers)
      (w.step b step) := by
  cases step with
  | start parent => exact ⟨m, hs, h.start parent⟩
  | push writer name binding =>
    rw [Writing.step]
    rcases hl : p.lists[writer]? with _ | l
    · rw [List.getElem?_eq_none_iff.mpr (h.length.trans_le (List.getElem?_eq_none_iff.mp hl))]
      refine ⟨m, hs, ?_⟩
      rw [Planned.push_gone (by simp [hl])]
      exact h
    rcases hfinished : l.finished with _ | _
    · have hself : (p.step (.push writer name binding : PlanStep R)).lists[writer]?
          = some (l.push (name, binding)) := by
        rw [Planned.step, getElem?_modify, hl]
        exact congrArg some (if_pos rfl)
      obtain ⟨cw, hw, htallies⟩ := h.unfinished hl hfinished
      rw [hw]
      refine ((ChangeWriter.push_headers hb hs htallies hfinished name binding).weaken
        fun e he => he.elim StopsTwice.of_insert fun he =>
          .inl (.inr ⟨he.1, _, mem_of_getElem? hself, he.2⟩)).bind fun r hr => ⟨m, hr.1, ?_⟩
      rw [Planned.step, modify_eq_set hl]
      refine h.replace hl (l.push_parent _) (fun _ => ⟨r.1, rfl, hr.2⟩)
        (fun hdone => ?_) fun _ => id
      rw [l.push_finished, hfinished] at hdone
      cases hdone
    · rw [h.gone hl hfinished]
      refine ⟨m, hs, ?_⟩
      rw [Planned.push_gone (by simp [hl, hfinished])]
      exact h
  | finish writer =>
    rw [Writing.step]
    rcases hl : p.lists[writer]? with _ | l
    · rw [List.getElem?_eq_none_iff.mpr (h.length.trans_le (List.getElem?_eq_none_iff.mp hl))]
      refine ⟨m, hs, ?_⟩
      rw [Planned.finish_gone (by simp [hl])]
      exact h
    rcases hfinished : l.finished with _ | _
    · obtain ⟨cw, hw, htallies⟩ := h.unfinished hl hfinished
      rw [hw]
      refine ((ChangeWriter.finish_headers hb hs htallies).weaken
        fun e => StopsTwice.of_refused).bind fun s' hs' => ?_
      obtain ⟨hnone, value, hm'⟩ := hs'
      refine ⟨_, hm', ?_⟩
      rw [Planned.step, modify_eq_set hl]
      have hsame : ({ l with finished := true } : PlannedList).parent = l.parent := rfl
      refine h.replace hl hsame (fun hdone => by cases hdone)
        (fun _ => ⟨rfl, hnone, ?_⟩) fun parent hne => ?_
      · rw [SortedMap.get?_insert, if_pos rfl]
        exact Option.some_ne_none _
      · rw [SortedMap.get?_insert]
        split_ifs
        · exact Option.some_ne_none _
        · exact hne
    · rw [h.gone hl hfinished]
      refine ⟨m, hs, ?_⟩
      rw [Planned.finish_gone (by simp [hl, hfinished])]
      exact h
  | fresh serial =>
    rw [Writing.step, freshSerial]
    have hfresh : Yields (Refused b) (fun s' => Refines view HeaderKind s' m)
        (w.spill.get b freshKind (single serial) >>= fun r =>
          if r.1.isNone then r.2.insert b freshKind (single serial) [] else pure r.2) := by
      refine ((hs.get_other hb _ _).weaken fun e he => .inl he).bind fun r hr => ?_
      split_ifs
      · exact (hr.insert_other hb (by rw [HeaderKind]; decide) _ _).weaken
          fun e he => he.imp_right .inl
      · exact hr
    exact (hfresh.weaken fun e => StopsTwice.of_refused).bind fun s' hs' => ⟨m, hs', h.length, h.unfinished, h.gone, h.header, h.once⟩
  | other work =>
    rw [Writing.step]
    refine ((hmind HeaderKind (fun _ => .inl) _ m hs).weaken fun e he => .inl (.inl he)).bind
      fun s' hs' => ?_
    exact ⟨m, hs', h⟩

theorem Headed.run (hb : b.Lawful view) :
    ∀ {w : Writing R} {m : SortedMap (RecordKey Identity) Bytes} {p : Planned},
      Refines view HeaderKind w.spill m → Headed m p w.writers →
      (∀ step ∈ steps, step.Minds b view) →
      Yields (StopsTwice b (planned p steps)) (fun w' => ∃ m', Headed m' (planned p steps) w'.writers)
        (w.run b steps) := by
  induction steps with
  | nil => exact fun _ h _ => ⟨_, h⟩
  | cons step steps ih =>
    intro w m p hs h hmind
    rw [forall_mem_cons] at hmind
    rw [Writing.run]
    refine ((h.step hb hs hmind.1).weaken fun e he => he.imp_left fun he =>
      he.imp_right fun he => ⟨he.1, he.2.planned⟩).bind fun w' hw' => ?_
    obtain ⟨m', hs', h'⟩ := hw'
    exact ih hs' h' hmind.2

/-- **A written plan has each directory once**: finishing a second list of a parent is refused. -/
theorem Headed.apart (h : Headed m p writers) (hfinished : p.Finished) : p.Apart :=
  fun _ _ l l' hl hl' htouched htouched' heq =>
    h.once hl hl' (hfinished l (mem_of_getElem? hl) htouched)
      (hfinished l' (mem_of_getElem? hl') htouched') heq

/-! ## Ranks -/

/-- The first fresh serials have their ranks, the others none yet. -/
structure Ranked (m : SortedMap (RecordKey Identity) Bytes) (keys : List Identity) (n : ℕ) :
    Prop where
  known : kindKeys m freshKind = keys
  rank : ∀ key ∈ keys, m.get? (recordKey freshKind key)
    = some (if keys.idxOf key < n then be 8 (keys.idxOf key) else [])

def FreshAlone (m m' : SortedMap (RecordKey Identity) Bytes) : Prop :=
  ∀ kind key, kind ≠ freshKind → m'.get? (recordKey kind key) = m.get? (recordKey kind key)

variable {keys : List Identity}

theorem Ranked.ascending {n : ℕ} (h : Ranked m keys n) : keys.Pairwise (· < ·) :=
  h.known ▸ kindKeys_ascending m freshKind

/-- **Ranks of keys that follow each other.** -/
theorem Ranked.rankKeys (hb : b.Lawful view) {window : List Identity} :
    ∀ {s : Spill R Identity} {m : SortedMap (RecordKey Identity) Bytes}
      {front back : List Identity}, keys = front ++ (window ++ back) →
      Refines view PlanKind s m → Ranked m keys front.length →
      Yields b.Fails (fun s' => ∃ m', Refines view PlanKind s' m' ∧
          Ranked m' keys (front.length + window.length) ∧ FreshAlone m m')
        (rankKeys b window front.length s) := by
  induction window with
  | nil => exact fun _ hs h => ⟨_, hs, h, fun _ _ _ => rfl⟩
  | cons key window ih =>
    intro s m front back hkeys hs h
    have hnodup : keys.Nodup := h.ascending.imp ne_of_lt
    have hat : keys[front.length]? = some key := by
      rw [hkeys, getElem?_append_right le_rfl, Nat.sub_self]
      rfl
    obtain ⟨hlt, hget⟩ := List.getElem?_eq_some_iff.mp hat
    have hidx : keys.idxOf key = front.length := by
      rw [← hget, hnodup.idxOf_getElem]
    have hmem : key ∈ keys := mem_of_getElem? hat
    have hold : m.get? (recordKey freshKind key) = some [] := by
      rw [h.rank key hmem, hidx, if_neg (lt_irrefl _)]
    rw [Merge.rankKeys]
    refine (hs.replace hb (.inr (.inr (.inr rfl))) (be 8 front.length) hold).bind fun s₁ h₁ => ?_
    have hnext : Ranked (m.insert (recordKey freshKind key) (be 8 front.length)) keys
        (front ++ [key]).length := by
      refine ⟨?_, fun key' hkey' => ?_⟩
      · rw [← h.known]
        refine kindKeys_congr fun key' => ?_
        rw [SortedMap.get?_insert]
        split_ifs with heq
        · rw [heq, hold]
          rfl
        · rfl
      · rw [SortedMap.get?_insert, h.rank key' hkey', length_append, length_singleton]
        by_cases heq : key' = key
        · rw [if_pos (by rw [heq]), heq, hidx, if_pos (Nat.lt_succ_self _)]
        · have hne : keys.idxOf key' ≠ front.length := by
            rw [← hidx]
            exact fun hsame => heq ((idxOf_inj hkey').mp hsame)
          rw [if_neg fun hsame => heq (recordKey_inj.mp hsame).2]
          refine congrArg some (if_congr ⟨fun hlt => ?_, fun hlt => ?_⟩ rfl rfl)
          · exact Nat.lt_succ_of_lt hlt
          · exact lt_of_le_of_ne (Nat.le_of_lt_succ hlt) hne
    have hkeys' : keys = (front ++ [key]) ++ (window ++ back) := by
      rw [hkeys, append_assoc]
      rfl
    have hrest := ih hkeys' h₁ hnext
    rw [length_append, length_singleton] at hrest
    refine hrest.mono fun s₂ hs₂ => ?_
    obtain ⟨m₂, h₂, hranked, halone⟩ := hs₂
    refine ⟨m₂, h₂, ?_, fun kind key' hkind => ?_⟩
    · rwa [length_cons, Nat.add_comm window.length 1, ← Nat.add_assoc]
    · rw [halone kind key' hkind, get?_insert_kind hkind]

/-- **Every fresh serial gets its place in serial order**, when there are turns enough. -/
theorem rank_ranked (hb : b.Lawful view) {turns : ℕ} :
    ∀ {s : Spill R Identity} {m : SortedMap (RecordKey Identity) Bytes} {after : Option Identity}
      {front : List Identity}, keys = front ++ rest keys after → Refines view PlanKind s m →
      Ranked m keys front.length →
      Yields b.Fails (fun r => ∃ m', Refines view PlanKind r.2 m' ∧
          (r.1 = true → Ranked m' keys keys.length) ∧
          ((rest keys after).length < turns → r.1 = true) ∧ FreshAlone m m')
        (rank b turns after front.length s) := by
  induction turns with
  | zero => exact fun _ hs _ => ⟨_, hs, fun h => absurd h Bool.false_ne_true,
      fun h => absurd h (Nat.not_lt_zero _), fun _ _ _ => rfl⟩
  | succ turns ih =>
    intro s m after front hkeys hs h
    rw [rank]
    refine (hs.keysAfter hb (.inr (.inr (.inr rfl))) after).bind fun r hr => ?_
    obtain ⟨window, s₁⟩ := r
    obtain ⟨rfl, h₁⟩ := hr
    dsimp only at h₁ ⊢
    rw [h.known]
    rcases hlast : ((rest keys after).take windowKeys).getLast? with _ | last
    · have hnil : rest keys after = [] := by
        rw [getLast?_eq_none_iff, take_eq_nil_iff] at hlast
        exact hlast.resolve_left (by decide)
      refine ⟨m, h₁, fun _ => ?_, fun _ => rfl, fun _ _ _ => rfl⟩
      rw [hnil, append_nil] at hkeys
      rw [hkeys] at h ⊢
      exact h
    · have hsplit := rest_of_window h.ascending hlast
      have hpos : 0 < ((rest keys after).take windowKeys).length :=
        length_pos_of_mem (mem_of_getLast? hlast)
      have hparts : keys
          = front ++ ((rest keys after).take windowKeys ++ rest keys (some last)) := by
        rw [hsplit]
        exact hkeys
      refine (Ranked.rankKeys hb hparts h₁ h).bind fun s₂ hs₂ => ?_
      obtain ⟨m₂, h₂, hranked, halone⟩ := hs₂
      rw [← append_assoc] at hparts
      rw [← length_append] at hranked ⊢
      refine (ih hparts h₂ hranked).mono fun r hr => ?_
      obtain ⟨m₃, h₃, hdone, hturns, halone'⟩ := hr
      have hlength := congrArg List.length hsplit
      rw [length_append] at hlength
      refine ⟨m₃, h₃, hdone, fun hlong => hturns (by omega), fun kind key hkind => ?_⟩
      rw [halone' kind key hkind, halone kind key hkind]

end LayerFs.Merge
