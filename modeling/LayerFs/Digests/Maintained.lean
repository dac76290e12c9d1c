import LayerFs.Digests.Kept

/-!
# Maintenance turns keep the invariant

* `Sound.putRow` — the row the view reads, written again at the active generation, stands for the
  same content; the fold of a failed capture writes it without publishing a revision.
-/

namespace LayerFs

namespace Digests

namespace Overlay

variable {Digest : Type} {blake3 : List UInt8 → Digest} {s s' : Overlay Digest} {serial g : ℕ}
variable {left : Option (List UInt8)} {moved : Option Moved} {orphan : Orphan} {d n serial' : ℕ}
  {row : Row}

/-! ## The same content under a new number -/

/-- The one row that `putRow` writes. -/
def again (s : Overlay Digest) (serial : ℕ) (row : Row) : ℕ → Option Row := fun serial' =>
  if serial' = serial then some { row with sequence := s.revision + 1 } else none

theorem again_self :
    s.again serial row serial = some { row with sequence := s.revision + 1 } := if_pos rfl

theorem again_eq_some {new : Row} (h : s.again serial row serial' = some new) :
    serial' = serial ∧ new = { row with sequence := s.revision + 1 } := by
  rw [again] at h
  split_ifs at h with hserial
  exact ⟨hserial, (Option.some.inj h).symm⟩

theorem puts_again (hcurrent : s.current serial = some (d, row)) :
    Puts s (s.putRow serial row).rows (s.again serial row) where
  get := by
    intro serial' g'
    rw [putRow, AssocMap.get?_insert, again]
    by_cases hkey : serial' = serial ∧ g' = s.active
    · obtain ⟨rfl, rfl⟩ := hkey
      rw [if_pos rfl, if_pos rfl, if_pos rfl]
      rfl
    · rw [if_neg fun h => hkey (Prod.mk.inj h)]
      by_cases hg : g' = s.active
      · rw [if_pos hg, if_neg fun h => hkey ⟨h, hg⟩]
        rfl
      · rw [if_neg hg]
        rfl
  sequence := by
    intro serial' new hnew
    rw [(again_eq_some hnew).2]
  removed := by
    intro serial' new d' old hnew hold hdead
    obtain ⟨rfl, rfl⟩ := again_eq_some hnew
    rw [hcurrent] at hold
    cases hold
    exact hdead

/-- **The row the view reads may be written again.** -/
theorem Sound.putRow (hsound : Sound blake3 s) (hcurrent : s.current serial = some (d, row)) :
    Sound blake3 (s.putRow serial row) := by
  have hputs := puts_again hcurrent
  have hbytes := content_of_current hcurrent
  refine ⟨hputs.gens hsound.gens, ?_, ?_⟩
  · obtain ⟨ledger, hcore⟩ := hsound.core
    refine ⟨_, hputs.core hsound.gens hcore fun serial' new hnew => .inr fun bytes hnext => ?_⟩
    obtain ⟨rfl, rfl⟩ := again_eq_some hnew
    obtain ⟨hlinked, hcontent⟩ := hcore.next serial' bytes hnext
    exact ⟨hlinked d row (latest_of_current hcurrent), hbytes.symm.trans hcontent⟩
  · intro serial' bytes hfollowed
    obtain ⟨hlinked, hcontent⟩ := hsound.followed serial' bytes hfollowed
    by_cases hserial : serial' = serial
    · subst hserial
      refine ⟨linked_of_current (hputs.current_new hsound.gens again_self) ?_, ?_⟩
      · exact hlinked d row (latest_of_current hcurrent)
      · exact (hputs.content_new hsound.gens again_self).trans (hbytes.symm.trans hcontent)
    · have hnew : s.again serial row serial' = none := if_neg hserial
      exact ⟨(hputs.linked_old hnew).mpr hlinked, (hputs.content_old hnew).trans hcontent⟩

theorem Sound.settle (hsound : Sound blake3 s) : Sound blake3 s.settle := by
  refine ⟨hsound.gens.of_eq rfl rfl rfl rfl rfl le_rfl hsound.gens.readers hsound.gens.orphans
    hsound.gens.retiring, ?_, hsound.followed⟩
  obtain ⟨ledger, hcore⟩ := hsound.core
  refine ⟨ledger, ⟨?_, ?_, hcore.live, hcore.latest, hcore.removed, hcore.pins, hcore.slot⟩⟩
  · intro serial q bytes hq
    exact (hcore.bound serial q bytes hq).trans (Nat.le_succ _)
  · intro serial bytes hq
    have := hcore.bound serial _ bytes hq
    change s.revision + 1 + 1 ≤ s.revision + 1 at this
    omega

/-- **A row kept live keeps the invariant.** -/
theorem Sound.keepLiveRow {reader : Reader} (hsound : Sound blake3 s)
    (h : s.keepLiveRow reader serial = some s') : Sound blake3 s' := by
  rw [Overlay.keepLiveRow] at h
  split_ifs at h
  rw [Option.map_eq_some_iff] at h
  obtain ⟨⟨d, row⟩, hcurrent, h⟩ := h
  split_ifs at h
  · exact h ▸ hsound
  · exact h ▸ (hsound.putRow hcurrent).settle

/-! ## The fold -/

/-- A step that touches the rows of one serial alone. -/
structure Touches (s s' : Overlay Digest) (serial : ℕ) : Prop where
  others : ∀ serial' g, serial' ≠ serial → s'.row serial' g = s.row serial' g
  cursor : s'.cursor = s.cursor
  consolidating : s'.consolidating = s.consolidating
  active : s'.active = s.active

namespace Touches

theorem refl : Touches s s serial := ⟨fun _ _ _ => rfl, rfl, rfl, rfl⟩

theorem trans {s'' : Overlay Digest} (h : Touches s s' serial) (h' : Touches s' s'' serial) :
    Touches s s'' serial where
  others := fun serial' g hserial => (h'.others serial' g hserial).trans (h.others serial' g hserial)
  cursor := h'.cursor.trans h.cursor
  consolidating := h'.consolidating.trans h.consolidating
  active := h'.active.trans h.active

theorem putRow : Touches s (s.putRow serial row) serial := by
  refine ⟨fun serial' g hserial => ?_, rfl, rfl, rfl⟩
  rw [Overlay.putRow, row_insert, if_neg fun h => hserial h.1]

theorem leave {left : List UInt8} : Touches s (s.leave serial g left) serial := by
  rw [Overlay.leave]
  rcases s.row serial g with _ | old
  · exact refl
  · dsimp only
    split_ifs
    · refine ⟨fun serial' g' hserial => ?_, rfl, rfl, rfl⟩
      rw [row_insert, if_neg fun h => hserial h.1]
    · exact refl

theorem dropRow : Touches s (s.dropRow serial g) serial := by
  refine ⟨fun serial' g' hserial => ?_, rfl, rfl, rfl⟩
  rw [Overlay.dropRow, row_erase, if_neg fun h => hserial h.1]

end Touches

theorem nextFolded_clear (h : s.nextFolded g serial = true) (hcursor : s.cursor ≤ serial')
    (hlt : serial' < serial) : s.row serial' g = none := by
  rcases hrow : s.row serial' g with _ | row
  · rfl
  rw [nextFolded, Bool.and_eq_true, List.all_eq_true] at h
  have := h.2 ((serial', g), row) (AssocMap.mem_entries_iff.mpr hrow)
  simp only [beq_self_eq_true, Bool.true_and, Bool.not_eq_true', Bool.and_eq_false_iff,
    decide_eq_false_iff_not] at this
  omega

theorem Sound.advance (hsound : Sound blake3 s)
    (hpassed : ∀ g serial, s.consolidating = some g → serial < n → (s.row serial g).isSome →
      (s.row serial s.active).isSome) : Sound blake3 { s with cursor := n } := by
  have hgens := hsound.gens
  refine hsound.of_rows rfl rfl rfl rfl rfl rfl rfl rfl (fun _ hlive => hlive)
    ⟨hgens.installed_lt, hgens.captured, hgens.consolidating, hgens.range, hgens.readers,
      hgens.leftover, hpassed, hgens.orphans, hgens.retiring⟩

theorem Sound.advance_to {s₀ : Overlay Digest} (hsound : Sound blake3 s)
    (hfold : s₀.consolidating = some g) (hnext : s₀.nextFolded g serial = true)
    (htouches : Touches s₀ s serial) (hn : n ≤ serial + 1)
    (hself : n = serial + 1 → (s.row serial g).isSome → (s.row serial s.active).isSome) :
    Sound blake3 { s with cursor := n } := by
  refine hsound.advance fun g' serial' hfold' hlt hsome => ?_
  obtain rfl : g' = g := by
    rw [htouches.consolidating, hfold] at hfold'
    exact (Option.some.inj hfold').symm
  by_cases hserial : serial' = serial
  · subst hserial
    exact hself (by omega) hsome
  · rcases Nat.lt_or_ge serial' s.cursor with hbelow | habove
    · exact hsound.gens.passed g' serial' hfold' hbelow hsome
    · rw [htouches.cursor] at habove
      rw [htouches.others serial' g' hserial,
        nextFolded_clear hnext habove (by omega)] at hsome
      cases hsome

theorem current_of_folded (hgens : Gens s) (hfold : s.consolidating = some g)
    (hrow : s.row serial g = some row) (hnone : s.row serial s.active = none) :
    s.current serial = some (g, row) := by
  obtain ⟨hactive, hinstalled, _⟩ := hgens.consolidating g hfold
  rw [current, ← hactive]
  rw [← hactive] at hnone
  exact (newest_succ hnone).trans (newest_top hinstalled hrow)

/-- **The turn of a row an orphan reads keeps the invariant.** -/
theorem Sound.foldHeld (hsound : Sound blake3 s) (hfold : s.consolidating = some g)
    (hnext : s.nextFolded g serial = true) (hrow : s.row serial g = some row)
    (hholds : s.orphanHolds serial g = true) : Sound blake3 (s.foldHeld serial row) := by
  have hgens := hsound.gens
  have hdoomed : s.Doomed serial g := by
    rw [orphanHolds, Option.any_eq_true] at hholds
    obtain ⟨orphan, horphan, hholds⟩ := hholds
    rw [Orphan.holds, Bool.and_eq_true, decide_eq_true_eq, decide_eq_true_eq] at hholds
    exact (hgens.orphans serial orphan horphan).mono hholds.2
  rw [Overlay.foldHeld]
  split_ifs with hput
  · have hcurrent := current_of_folded hgens hfold hrow (Option.isNone_iff_eq_none.mp hput.2)
    refine (hsound.putRow hcurrent).advance_to hfold hnext Touches.putRow le_rfl fun _ _ => ?_
    change ((s.putRow serial row).row serial s.active).isSome
    rw [Overlay.putRow, row_insert, if_pos ⟨rfl, rfl⟩]
    rfl
  · refine hsound.advance_to hfold hnext Touches.refl le_rfl fun _ _ => ?_
    rcases hactive : s.row serial s.active with _ | active
    · -- without an active row the doomed layer itself is the view: the row is unlinked
      have hcurrent := current_of_folded hgens hfold hrow hactive
      refine absurd ⟨hdoomed.unlinked hcurrent, ?_⟩ hput
      rw [hactive]
      rfl
    · rfl

theorem not_live_of_not_held (hgens : Gens s) (hfold : s.consolidating = some g)
    (hheld : s.generationHeld g = false) : ¬ s.Live g := by
  obtain ⟨hactive, _, hcaptured⟩ := hgens.consolidating g hfold
  rintro (rfl | hsealed | ⟨reader, hreader, rfl⟩)
  · omega
  · rw [hcaptured] at hsealed
    cases hsealed
  · rw [generationHeld, List.any_eq_false] at hheld
    exact hheld reader hreader (beq_self_eq_true _)

theorem Sound.foldMoved_active (hsound : Sound blake3 s) (hfold : s.consolidating = some g)
    (hheld : s.generationHeld g = false) {top : Row} (htop : s.row serial s.active = some top)
    (moved : Option Moved) :
    ∃ s', Touches s s' serial ∧ Sound blake3 s' ∧ s' = (match moved with
      | some moved =>
        if ((s.leave serial g moved.bottom).row serial (s.leave serial g moved.bottom).active).any
            (fun top : Row => top.nlink == 0) then
          (s.leave serial g moved.bottom).leave serial (s.leave serial g moved.bottom).active
            moved.top
        else s.leave serial g moved.bottom
      | none => s.dropRow serial g) := by
  have hgens := hsound.gens
  have hne : g ≠ s.active := by
    have := (hgens.consolidating g hfold).1
    omega
  have hcurrent : s.current serial = some (s.active, top) := newest_top hgens.installed_lt htop
  rcases moved with _ | moved
  · refine ⟨_, Touches.dropRow, ?_, rfl⟩
    have hlater : s.LaterRow serial g := by
      refine ⟨s.active, ?_, by rw [htop]; rfl⟩
      have := (hgens.consolidating g hfold).1
      omega
    exact hsound.dropRow (.inr hlater) (.inl hlater)
  · have hleave : Sound blake3 (s.leave serial g moved.bottom) := by
      refine hsound.leave (fun row hrow => ?_)
        fun row hlive _ => absurd hlive (not_live_of_not_held hgens hfold hheld)
      rw [hcurrent] at hrow
      exact absurd (congrArg Prod.fst (Option.some.inj hrow)).symm hne
    dsimp only
    split_ifs with hdead
    · refine ⟨_, Touches.leave.trans Touches.leave, ?_, rfl⟩
      rw [Option.any_eq_true] at hdead
      obtain ⟨top', htop', hdead⟩ := hdead
      rw [beq_iff_eq] at hdead
      refine hleave.leave (fun row hrow => ?_) fun row _ hrow => ?_
      · have := (newest_eq_some.mp hrow).2.2.1
        rw [htop'] at this
        cases this
        exact hdead
      · rw [htop'] at hrow
        cases hrow
        exact hdead
    · exact ⟨_, Touches.leave, hleave, rfl⟩

/-- **The turn of any other row keeps the invariant.** -/
theorem Sound.foldMoved (hsound : Sound blake3 s) (hfold : s.consolidating = some g)
    (hheld : s.generationHeld g = false) (hnext : s.nextFolded g serial = true)
    (hrow : s.row serial g = some row) : Sound blake3 (s.foldMoved g serial row moved) := by
  have hput : ∃ s', Touches s s' serial ∧ Sound blake3 s' ∧ s'.generationHeld g = false ∧
      (∃ top, s'.row serial s'.active = some top) ∧
      s' = if (s.row serial s.active).isNone then s.putRow serial row else s := by
    split_ifs with hnone
    · have hcurrent := current_of_folded hsound.gens hfold hrow (Option.isNone_iff_eq_none.mp hnone)
      refine ⟨_, Touches.putRow, hsound.putRow hcurrent, hheld,
        ⟨{ row with sequence := s.revision + 1 }, ?_⟩, rfl⟩
      change (s.putRow serial row).row serial s.active = _
      rw [Overlay.putRow, row_insert, if_pos ⟨rfl, rfl⟩]
    · refine ⟨s, Touches.refl, hsound, hheld, ?_, rfl⟩
      rcases hactive : s.row serial s.active with _ | top
      · rw [hactive] at hnone
        exact absurd rfl hnone
      · exact ⟨top, rfl⟩
  obtain ⟨s₁, htouches, hsound₁, hheld₁, ⟨top, htop⟩, hs₁⟩ := hput
  obtain ⟨s₂, htouches₂, hsound₂, hs₂⟩ :=
    hsound₁.foldMoved_active (htouches.consolidating.trans hfold) hheld₁ htop moved
  have hdone := hsound₂.advance_to hfold hnext (htouches.trans htouches₂) (Nat.le_succ serial)
    fun h => absurd h (Nat.succ_ne_self serial).symm
  rw [hs₂, hs₁] at hdone
  exact hdone

/-- **Every fold turn over inode rows keeps the invariant.** -/
theorem Sound.foldNamespace (hsound : Sound blake3 s) (h : s.foldNamespace serial moved = some s') :
    Sound blake3 s' := by
  rw [Overlay.foldNamespace] at h
  rcases hfold : s.consolidating with _ | g
  · rw [hfold] at h
    cases h
  rw [hfold] at h
  dsimp only at h
  by_cases hrefused : s.closed = true ∨ s.generationHeld g = true ∨ s.nextFolded g serial = false
  · rw [if_pos hrefused] at h
    cases h
  rw [if_neg hrefused, Option.map_eq_some_iff] at h
  obtain ⟨row, hrow, h⟩ := h
  obtain ⟨_, hheld, hnext⟩ : s.closed = false ∧ s.generationHeld g = false ∧
      s.nextFolded g serial = true := by
    simpa only [not_or, Bool.not_eq_true, Bool.not_eq_false] using hrefused
  split_ifs at h with hholds
  · exact h ▸ hsound.foldHeld hfold hnext hrow hholds
  · exact h ▸ hsound.foldMoved hfold hheld hnext hrow

/-! ## Retirement -/

theorem not_held_iff : s.generationHeld g = false ↔ ∀ reader ∈ s.readers, reader.generation ≠ g := by
  rw [generationHeld, List.any_eq_false]
  exact forall₂_congr fun reader _ => by rw [beq_iff_eq]

theorem dropRow_of_none (h : s.row serial g = none) : s.dropRow serial g = s := by
  rw [Overlay.dropRow, AssocMap.erase_eq_self h]

/-- **Retiring a row with its generation keeps the invariant**, if the latest row of a serial goes
last. -/
theorem Sound.retireGeneration (hsound : Sound blake3 s)
    (h : s.retireGeneration serial g left = some s')
    (hlast : left = none → s.LaterRow serial g ∨ ∀ k < g, s.row serial k = none) :
    Sound blake3 s' := by
  have hgens := hsound.gens
  rw [Overlay.retireGeneration.eq_def] at h
  split_ifs at h with hallowed
  simp only [Bool.and_eq_true, Bool.not_eq_true'] at hallowed
  obtain ⟨⟨hretirable, hheld⟩, _⟩ := hallowed
  rw [retirable, Bool.or_eq_true, decide_eq_true_eq] at hretirable
  simp only [Bool.and_eq_true, decide_eq_true_eq, bne_iff_ne] at hretirable
  have hview : ∀ row, s.row serial g = some row → g ≤ s.installed ∨ s.LaterRow serial g := by
    intro row hrow
    rcases Nat.lt_or_ge s.installed g with hlt | hge
    · obtain ⟨⟨hbelow, hcaptured⟩, hconsolidating⟩ := hretirable.resolve_left (by omega)
      exact .inr (hgens.leftover serial g row hrow hlt hbelow hcaptured hconsolidating)
    · exact .inl hge
  have hlive : ¬ s.Live g := by
    rintro (rfl | hsealed | ⟨reader, hreader, rfl⟩)
    · have := hgens.installed_lt
      rcases hretirable with hle | ⟨⟨hlt, _⟩, _⟩ <;> omega
    · rcases hretirable with hle | ⟨⟨_, hcaptured⟩, _⟩
      · have := (hgens.captured g hsealed).2
        omega
      · exact hcaptured hsealed
    · exact not_held_iff.mp hheld reader hreader rfl
  obtain rfl := Option.some.inj h
  rcases left with _ | left
  · rcases hrow : s.row serial g with _ | row
    · rw [dropRow_of_none hrow]
      exact hsound
    · exact hsound.dropRow (hview row hrow) (hlast rfl)
  · refine hsound.leave (fun row hcurrent => ?_) fun row h _ => absurd h hlive
    obtain ⟨hlt, _, hrow, habove⟩ := newest_eq_some.mp hcurrent
    obtain ⟨k, hk, hkactive, hsome⟩ := ((hview row hrow).resolve_left (by omega)).le hgens
    rw [habove k hk hkactive] at hsome
    cases hsome

theorem laterRow_of_superseded (h : s.superseded serial g = true) :
    g ≤ s.installed ∨ s.LaterRow serial g := by
  rw [superseded, Bool.or_eq_true, decide_eq_true_eq, List.any_eq_true] at h
  refine h.imp id ?_
  rintro ⟨⟨⟨serial', k⟩, row⟩, hentry, hkey⟩
  simp only [Bool.and_eq_true, beq_iff_eq, decide_eq_true_eq] at hkey
  obtain ⟨⟨rfl, _⟩, hk⟩ := hkey
  refine ⟨k, (le_max_left _ _).trans_lt hk, ?_⟩
  rw [show s.row serial' k = some row from AssocMap.mem_entries_iff.mp hentry]
  rfl

/-- **Retiring one layer of one serial keeps the invariant**, if a captured row that is still
linked keeps its payload and the latest row of a serial goes last. -/
theorem Sound.retireLayer (hsound : Sound blake3 s) (h : s.retireLayer serial g left = some s')
    (hsealed : left ≠ none → s.captured = some g → ∀ row, s.row serial g = some row →
      row.nlink = 0)
    (hlast : left = none → s.superseded serial g = true →
      s.LaterRow serial g ∨ ∀ k < g, s.row serial k = none) : Sound blake3 s' := by
  have hgens := hsound.gens
  rw [Overlay.retireLayer.eq_def] at h
  by_cases hallowed :
      (s.retiring serial g && !s.generationHeld g && !s.orphanHolds serial g) = true
  swap
  · rw [if_neg hallowed] at h
    cases h
  rw [if_pos hallowed] at h
  simp only [Bool.and_eq_true, Bool.not_eq_true'] at hallowed
  obtain ⟨⟨hretiring, hheld⟩, _⟩ := hallowed
  have hdoomed := hgens.retiring serial g hretiring
  obtain rfl := Option.some.inj h
  rcases left with _ | left
  · -- whether or not the row goes, the item is done
    have hrows : ∃ s₁, Sound blake3 s₁ ∧ s₁.retiring = s.retiring ∧
        s₁ = if s.superseded serial g then s.dropRow serial g else s := by
      split_ifs with hsuperseded
      · exact ⟨_, hsound.dropRow (laterRow_of_superseded hsuperseded) (hlast rfl hsuperseded), rfl,
          rfl⟩
      · exact ⟨s, hsound, rfl, rfl⟩
    obtain ⟨s₁, hsound₁, hsame, hs₁⟩ := hrows
    dsimp only
    rw [← hs₁]
    have hgens₁ := hsound₁.gens
    refine hsound₁.of_rows rfl rfl rfl rfl rfl rfl rfl rfl (fun _ hlive => hlive)
      (hgens₁.of_eq rfl rfl rfl rfl rfl le_rfl hgens₁.readers hgens₁.orphans
        fun serial' g' hretiring' => hgens₁.retiring serial' g' ?_)
    rw [Bool.and_eq_true] at hretiring'
    rw [hsame]
    exact hretiring'.2
  · refine hsound.leave (fun row hcurrent => hdoomed.unlinked hcurrent) fun row hlive hrow => ?_
    rcases hlive with rfl | hcaptured | ⟨reader, hreader, rfl⟩
    · exact hdoomed.active_unlinked hgens hrow
    · exact hsealed (by simp) hcaptured row hrow
    · exact absurd rfl (not_held_iff.mp hheld reader hreader)

/-! ## Orphans -/

theorem Sound.releaseLayer (hsound : Sound blake3 s) (horphan : s.orphans serial = some orphan)
    (hfloor : orphan.floor ≤ orphan.top) (hg : g ≤ orphan.top) :
    Sound blake3 (s.releaseLayer serial g orphan) := by
  have hgens := hsound.gens
  have hdoomed := hgens.orphans serial orphan horphan
  refine hsound.of_rows rfl rfl rfl rfl rfl rfl rfl rfl (fun _ hlive => hlive)
    (hgens.of_eq rfl rfl rfl rfl rfl le_rfl hgens.readers (fun serial' other hother => ?_)
      fun serial' g' hretiring => ?_)
  · change Function.update s.orphans serial _ serial' = some other at hother
    by_cases hserial : serial' = serial
    · subst hserial
      rw [Function.update_self] at hother
      obtain rfl := Option.some.inj hother
      exact hdoomed.mono (max_le (by omega) hfloor)
    · rw [Function.update_of_ne hserial] at hother
      exact hgens.orphans serial' other hother
  · change (serial' == serial && g' == g || s.retiring serial' g') = true at hretiring
    rw [Bool.or_eq_true, Bool.and_eq_true, beq_iff_eq, beq_iff_eq] at hretiring
    rcases hretiring with ⟨rfl, rfl⟩ | hretiring
    · exact hdoomed.mono hg
    · exact hgens.retiring serial' g' hretiring

theorem Sound.updateOrphan (hsound : Sound blake3 s) (horphan : s.orphans serial = some orphan)
    {next : Option Orphan} (hnext : ∀ other, next = some other → other.top ≤ orphan.top) :
    Sound blake3 { s with orphans := Function.update s.orphans serial next } := by
  have hgens := hsound.gens
  refine hsound.of_rows rfl rfl rfl rfl rfl rfl rfl rfl (fun _ hlive => hlive)
    (hgens.of_eq rfl rfl rfl rfl rfl le_rfl hgens.readers (fun serial' other hother => ?_)
      hgens.retiring)
  change Function.update s.orphans serial _ serial' = some other at hother
  by_cases hserial : serial' = serial
  · subst hserial
    rw [Function.update_self] at hother
    exact (hgens.orphans serial' orphan horphan).mono (hnext other hother)
  · rw [Function.update_of_ne hserial] at hother
    exact hgens.orphans serial' other hother

/-- **A step of an orphan that something holds keeps the invariant.** -/
theorem Sound.migrateOrphan (hsound : Sound blake3 s) (h : s.migrateOrphan serial left = some s') :
    Sound blake3 s' := by
  have hgens := hsound.gens
  rw [Overlay.migrateOrphan, Option.bind_eq_some_iff] at h
  obtain ⟨orphan, horphan, h⟩ := h
  have hdoomed := hgens.orphans serial orphan horphan
  by_cases hheld : (s.custody serial).total = 0 ∨ orphan.top ≤ orphan.floor
  · rw [if_pos hheld] at h
    cases h
  rw [if_neg hheld, not_or] at *
  rcases hlower : newest (s.row serial) orphan.floor orphan.top with _ | ⟨g, row⟩
  · rw [hlower] at h
    obtain rfl := Option.some.inj h
    refine hsound.updateOrphan horphan fun other hother => ?_
    obtain rfl := Option.some.inj hother
    exact (Nat.lt_of_not_le hheld.2).le
  rw [hlower] at h
  obtain ⟨hfloor, htop, hrow, _⟩ := newest_eq_some.mp hlower
  dsimp only at h
  by_cases hawaited : s.orphanSourceAwaited g = true
  · rw [if_pos hawaited] at h
    cases h
  rw [if_neg hawaited] at h
  obtain rfl := Option.some.inj h
  rcases left with _ | left
  · exact hsound.releaseLayer horphan (hfloor.trans_le htop).le htop
  · have hlayer := hdoomed.mono htop
    rw [orphanSourceAwaited, Bool.or_eq_true, not_or, beq_iff_eq, Bool.not_eq_true] at hawaited
    refine hsound.leave (fun row hcurrent => hlayer.unlinked hcurrent) fun row hlive hrow => ?_
    rcases hlive with rfl | hcaptured | ⟨reader, hreader, rfl⟩
    · exact hlayer.active_unlinked hgens hrow
    · exact absurd hcaptured hawaited.1
    · exact absurd rfl (not_held_iff.mp hawaited.2 reader hreader)

/-- **A step of an orphan nothing holds keeps the invariant.** -/
theorem Sound.reclaimOrphan (hsound : Sound blake3 s)
    (h : s.reclaimOrphan serial = some s') : Sound blake3 s' := by
  rw [Overlay.reclaimOrphan, Option.bind_eq_some_iff] at h
  obtain ⟨orphan, horphan, h⟩ := h
  by_cases hheld : (s.custody serial).total ≠ 0
  · rw [if_pos hheld] at h
    cases h
  rw [if_neg hheld] at h
  rcases hlower : newest (s.row serial) orphan.floor orphan.top with _ | ⟨g, row⟩
  · rw [hlower] at h
    obtain rfl := Option.some.inj h
    exact hsound.updateOrphan horphan fun other hother => by cases hother
  · rw [hlower] at h
    obtain rfl := Option.some.inj h
    obtain ⟨hfloor, htop, _, _⟩ := newest_eq_some.mp hlower
    exact hsound.releaseLayer horphan (hfloor.trans_le htop).le htop

end Overlay

end Digests

end LayerFs
