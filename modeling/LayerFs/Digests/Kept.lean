import LayerFs.Digests.Sound

/-!
# Steps that keep every content

* `Sound.leave` — payload leaves a row that no linked view reads.
-/

namespace LayerFs

namespace Digests

namespace Overlay

variable {Digest : Type} {blake3 : List UInt8 → Digest} {s s' : Overlay Digest} {serial g : ℕ}

/-! ## Payload that leaves a row -/

theorem Doomed.mono {k : ℕ} (h : s.Doomed serial g) (hle : k ≤ g) : s.Doomed serial k := by
  rcases h with hinstalled | ⟨d, row, hcurrent, hgd, hrow⟩
  · exact .inl (hle.trans hinstalled)
  · exact .inr ⟨d, row, hcurrent, hle.trans hgd, hrow⟩

theorem Doomed.unlinked {row : Row} (h : s.Doomed serial g)
    (hcurrent : s.current serial = some (g, row)) : row.nlink = 0 := by
  rcases h with hinstalled | ⟨d, dead, hdead, hgd, hnlink⟩
  · have := (newest_eq_some.mp hcurrent).1
    omega
  · rw [hcurrent] at hdead
    cases hdead
    exact hnlink

theorem Doomed.active_unlinked {row : Row} (hgens : Gens s) (h : s.Doomed serial s.active)
    (hrow : s.row serial s.active = some row) : row.nlink = 0 :=
  h.unlinked (newest_top hgens.installed_lt hrow)

section Leave

variable {old new : Row}

abbrev replaced (s : Overlay Digest) (serial g : ℕ) (new : Row) : Overlay Digest :=
  { s with rows := s.rows.insert (serial, g) new }

theorem row_replaced_ne {serial' g' : ℕ} (h : serial' = serial → g' ≠ g) :
    (s.replaced serial g new).row serial' g' = s.row serial' g' := by
  rw [row_insert, if_neg]
  rintro ⟨hserial, hg⟩
  exact h hserial hg

theorem isSome_row_replaced (hrow : s.row serial g = some old) {serial' g' : ℕ} :
    ((s.replaced serial g new).row serial' g').isSome = (s.row serial' g').isSome := by
  rw [row_insert]
  split_ifs with h
  · rw [h.1, h.2, hrow]
    rfl
  · rfl

theorem newest_replaced (hrow : s.row serial g = some old) (floor top : ℕ) :
    newest ((s.replaced serial g new).row serial) floor top =
      (newest (s.row serial) floor top).map fun found =>
        if found.1 = g then (g, new) else found := by
  refine newest_replace (fun k hk => row_replaced_ne fun _ => hk) ?_ ?_
  · rw [hrow]
    rfl
  · rw [row_insert, if_pos ⟨rfl, rfl⟩]

theorem views_replaced_ne {serial' : ℕ} (h : serial' ≠ serial) :
    (s.replaced serial g new).current serial' = s.current serial' ∧
      (s.replaced serial g new).latest serial' = s.latest serial' :=
  views_congr (fun _ => row_replaced_ne fun hserial => absurd hserial h) rfl rfl

theorem exists_of_newest_replaced (hrow : s.row serial g = some old)
    (hnlink : new.nlink = old.nlink) (hsequence : new.sequence = old.sequence)
    (hsize : new.size = old.size) {floor top d : ℕ} {row : Row}
    (h : newest ((s.replaced serial g new).row serial) floor top = some (d, row)) :
    ∃ found, newest (s.row serial) floor top = some (d, found) ∧ found.nlink = row.nlink ∧
      found.sequence = row.sequence ∧ found.size = row.size := by
  rw [newest_replaced hrow, Option.map_eq_some_iff] at h
  obtain ⟨⟨k, found⟩, hfound, heq⟩ := h
  by_cases hk : k = g
  · subst hk
    rw [if_pos rfl] at heq
    cases heq
    have hold : found = old := by
      have := (newest_eq_some.mp hfound).2.2.1
      rw [hrow] at this
      cases this
      rfl
    subst hold
    exact ⟨found, hfound, hnlink.symm, hsequence.symm, hsize.symm⟩
  · rw [if_neg hk] at heq
    cases heq
    exact ⟨row, hfound, rfl, rfl, rfl⟩

theorem Keeps.replaced (hrow : s.row serial g = some old) (hnlink : new.nlink = old.nlink)
    (hsequence : new.sequence = old.sequence) (hsize : new.size = old.size)
    (hview : ∀ row, s.current serial = some (g, row) → row.nlink = 0)
    (hlive : s.Live g → old.nlink = 0) : Keeps s (s.replaced serial g new) where
  latest := by
    intro serial' d row hlatest
    by_cases hserial : serial' = serial
    · subst hserial
      exact exists_of_newest_replaced hrow hnlink hsequence hsize hlatest
    · rw [(views_replaced_ne hserial).2] at hlatest
      exact ⟨row, hlatest, rfl, rfl, rfl⟩
  content := by
    intro serial' hlinked
    by_cases hserial : serial' = serial
    · subst hserial
      have hcurrent : (s.replaced serial' g new).current serial' = s.current serial' := by
        rw [current, newest_replaced hrow, ← current]
        rcases hcurrent : s.current serial' with _ | ⟨d, row⟩
        · rfl
        · have hd : d ≠ g := by
            rintro rfl
            exact hlinked d row (latest_of_current hcurrent) (hview row hcurrent)
          rw [Option.map_some, if_neg hd]
      rw [Overlay.content, hcurrent]
      rfl
    · rw [Overlay.content, (views_replaced_ne hserial).1]
      rfl
  live := by
    intro serial' g' row hlive' hrow' hlinked
    refine ⟨hlive', ?_⟩
    by_cases hkey : serial' = serial ∧ g' = g
    · obtain ⟨rfl, rfl⟩ := hkey
      rw [row_insert, if_pos ⟨rfl, rfl⟩] at hrow'
      cases hrow'
      exact absurd (hnlink.trans (hlive hlive')) hlinked
    · rw [row_insert, if_neg hkey] at hrow'
      exact hrow'

theorem Gens.replaced (hgens : Gens s) (hrow : s.row serial g = some old)
    (hnlink : new.nlink = old.nlink) : Gens (s.replaced serial g new) := by
  have hdoomed : ∀ serial' k, s.Doomed serial' k → (s.replaced serial g new).Doomed serial' k := by
    rintro serial' k (hinstalled | ⟨d, row, hcurrent, hkd, hdead⟩)
    · exact .inl hinstalled
    · right
      by_cases hserial : serial' = serial
      · subst hserial
        have hcurrent' : (s.replaced serial' g new).current serial' =
            some (if d = g then (g, new) else (d, row)) := by
          rw [current, newest_replaced hrow, ← current, hcurrent]
          rfl
        by_cases hd : d = g
        · subst hd
          rw [if_pos rfl] at hcurrent'
          refine ⟨d, new, hcurrent', hkd, hnlink.trans ?_⟩
          have := (newest_eq_some.mp hcurrent).2.2.1
          rw [hrow] at this
          cases this
          exact hdead
        · rw [if_neg hd] at hcurrent'
          exact ⟨d, row, hcurrent', hkd, hdead⟩
      · exact ⟨d, row, (views_replaced_ne hserial).1.trans hcurrent, hkd, hdead⟩
  refine ⟨hgens.installed_lt, hgens.captured, hgens.consolidating, ?_, hgens.readers, ?_, ?_,
    fun serial' orphan horphan => hdoomed _ _ (hgens.orphans serial' orphan horphan),
    fun serial' k hretiring => hdoomed _ _ (hgens.retiring serial' k hretiring)⟩
  · intro serial' g' row hrow'
    obtain ⟨before, hbefore⟩ : ∃ before, s.row serial' g' = some before := by
      rw [← Option.isSome_iff_exists, ← isSome_row_replaced hrow, hrow']
      rfl
    exact hgens.range serial' g' before hbefore
  · intro serial' g' row hrow' hinstalled hactive hcaptured hconsolidating
    obtain ⟨before, hbefore⟩ : ∃ before, s.row serial' g' = some before := by
      rw [← Option.isSome_iff_exists, ← isSome_row_replaced hrow, hrow']
      rfl
    obtain ⟨k, hk, hsome⟩ :=
      hgens.leftover serial' g' before hbefore hinstalled hactive hcaptured hconsolidating
    exact ⟨k, hk, (isSome_row_replaced hrow).trans hsome⟩
  · intro g' serial' hconsolidating hcursor hsome
    rw [isSome_row_replaced hrow] at hsome
    exact (isSome_row_replaced hrow).trans
      (hgens.passed g' serial' hconsolidating hcursor hsome)

/-- **Payload leaves a row that no linked view reads.** -/
theorem Sound.leave (hsound : Sound blake3 s) {left : List UInt8}
    (hview : ∀ row, s.current serial = some (g, row) → row.nlink = 0)
    (hlive : ∀ row, s.Live g → s.row serial g = some row → row.nlink = 0) :
    Sound blake3 (s.leave serial g left) := by
  rw [Overlay.leave]
  rcases hrow : s.row serial g with _ | old
  · exact hsound
  · dsimp only
    split_ifs with hlength
    · have hkeeps : Keeps s (s.replaced serial g { old with bytes := left }) :=
        Keeps.replaced hrow rfl rfl hlength hview fun h => hlive old h hrow
      exact hkeeps.sound hsound (hsound.gens.replaced hrow rfl) rfl rfl rfl rfl
    · exact hsound

end Leave

/-! ## A row that goes -/

section Drop

theorem row_dropRow_ne {serial' g' : ℕ} (h : serial' = serial → g' ≠ g) :
    (s.dropRow serial g).row serial' g' = s.row serial' g' := by
  rw [dropRow, row_erase, if_neg]
  rintro ⟨hserial, hg⟩
  exact h hserial hg

theorem row_dropRow_self : (s.dropRow serial g).row serial g = none := by
  rw [dropRow, row_erase, if_pos ⟨rfl, rfl⟩]

theorem row_of_dropRow {serial' g' : ℕ} {row : Row}
    (h : (s.dropRow serial g).row serial' g' = some row) : s.row serial' g' = some row := by
  rw [dropRow, row_erase] at h
  split_ifs at h
  exact h

theorem views_dropRow_ne {serial' : ℕ} (h : serial' ≠ serial) :
    (s.dropRow serial g).current serial' = s.current serial' ∧
      (s.dropRow serial g).latest serial' = s.latest serial' :=
  views_congr (fun _ => row_dropRow_ne fun hserial => absurd hserial h) rfl rfl

def LaterRow (s : Overlay Digest) (serial g : ℕ) : Prop := ∃ k, g < k ∧ (s.row serial k).isSome

theorem LaterRow.le (h : s.LaterRow serial g) (hgens : Gens s) :
    ∃ k, g < k ∧ k ≤ s.active ∧ (s.row serial k).isSome := by
  obtain ⟨k, hk, hsome⟩ := h
  obtain ⟨row, hrow⟩ := Option.isSome_iff_exists.mp hsome
  exact ⟨k, hk, (hgens.range serial k row hrow).2, hsome⟩

theorem current_dropRow (hgens : Gens s) (hview : g ≤ s.installed ∨ s.LaterRow serial g)
    {serial' : ℕ} : (s.dropRow serial g).current serial' = s.current serial' := by
  by_cases hserial : serial' = serial
  · subst hserial
    refine newest_change (fun k hk => row_dropRow_ne fun _ => hk) ?_
    exact hview.imp id fun hlater => hlater.le hgens
  · exact (views_dropRow_ne hserial).1

theorem latest_dropRow (hgens : Gens s)
    (hlast : s.LaterRow serial g ∨ ∀ k < g, s.row serial k = none) {serial' d : ℕ} {row : Row}
    (h : (s.dropRow serial g).latest serial' = some (d, row)) :
    s.latest serial' = some (d, row) := by
  by_cases hserial : serial' = serial
  · subst hserial
    rcases hlast with hlater | hlower
    · rw [← h]
      exact (newest_change (fun k hk => row_dropRow_ne fun _ => hk)
        (.inr (hlater.le hgens))).symm
    · obtain ⟨hd, hactive, hrow, habove⟩ := newest_eq_some.mp h
      have hrow' := row_of_dropRow hrow
      refine newest_eq_some.mpr ⟨hd, hactive, hrow', fun k hk hktop => ?_⟩
      have hdg : g < d := by
        rcases Nat.lt_trichotomy d g with hlt | rfl | hgt
        · rw [hlower d hlt] at hrow'
          cases hrow'
        · rw [row_dropRow_self] at hrow
          cases hrow
        · exact hgt
      exact (row_dropRow_ne fun _ => by omega).symm.trans (habove k hk hktop)
  · rw [(views_dropRow_ne hserial).2] at h
    exact h

theorem Keeps.dropRow (hgens : Gens s) (hview : g ≤ s.installed ∨ s.LaterRow serial g)
    (hlast : s.LaterRow serial g ∨ ∀ k < g, s.row serial k = none) :
    Keeps s (s.dropRow serial g) where
  latest := fun _ _ row hlatest => ⟨row, latest_dropRow hgens hlast hlatest, rfl, rfl, rfl⟩
  content := by
    intro serial' _
    rw [Overlay.content, current_dropRow hgens hview]
    rfl
  live := fun _ _ _ hlive hrow _ => ⟨hlive, row_of_dropRow hrow⟩

theorem Gens.dropRow (hgens : Gens s) (hview : g ≤ s.installed ∨ s.LaterRow serial g) :
    Gens (s.dropRow serial g) := by
  have hactive : g < s.active := by
    rcases hview with hle | hlater
    · exact hle.trans_lt hgens.installed_lt
    · obtain ⟨k, hgk, hk, _⟩ := hlater.le hgens
      exact hgk.trans_le hk
  have hdoomed : ∀ serial' k, s.Doomed serial' k → (s.dropRow serial g).Doomed serial' k := by
    rintro serial' k (hinstalled | ⟨d, row, hcurrent, hkd, hdead⟩)
    · exact .inl hinstalled
    · exact .inr ⟨d, row, (current_dropRow hgens hview).trans hcurrent, hkd, hdead⟩
  refine ⟨hgens.installed_lt, hgens.captured, hgens.consolidating,
    fun serial' g' row hrow => hgens.range serial' g' row (row_of_dropRow hrow), hgens.readers,
    ?_, ?_, fun serial' orphan horphan => hdoomed _ _ (hgens.orphans serial' orphan horphan),
    fun serial' k hretiring => hdoomed _ _ (hgens.retiring serial' k hretiring)⟩
  · intro serial' g' row hrow hinstalled hbelow hcaptured hconsolidating
    obtain ⟨k, hk, hsome⟩ := hgens.leftover serial' g' row (row_of_dropRow hrow) hinstalled hbelow
      hcaptured hconsolidating
    by_cases hkey : serial' = serial ∧ k = g
    · -- the row that superseded this one went, so a still later one supersedes both
      obtain ⟨rfl, rfl⟩ := hkey
      rcases hview with hle | ⟨j, hj, hsome'⟩
      · exact absurd (hinstalled.trans hk) (by change ¬ s.installed < k; omega)
      · refine ⟨j, hk.trans hj, ?_⟩
        rw [row_dropRow_ne fun _ => Nat.ne_of_gt hj]
        exact hsome'
    · refine ⟨k, hk, ?_⟩
      rw [row_dropRow_ne fun hserial hg => hkey ⟨hserial, hg⟩]
      exact hsome
  · intro g' serial' hconsolidating hcursor hsome
    obtain ⟨row, hrow⟩ := Option.isSome_iff_exists.mp hsome
    have hpassed := hgens.passed g' serial' hconsolidating hcursor
      (by rw [row_of_dropRow hrow]; rfl)
    change ((s.dropRow serial g).row serial' s.active).isSome
    rw [row_dropRow_ne fun _ => Nat.ne_of_gt hactive]
    exact hpassed

/-- **A row goes that is installed or superseded.** -/
theorem Sound.dropRow (hsound : Sound blake3 s) (hview : g ≤ s.installed ∨ s.LaterRow serial g)
    (hlast : s.LaterRow serial g ∨ ∀ k < g, s.row serial k = none) :
    Sound blake3 (s.dropRow serial g) :=
  (Keeps.dropRow hsound.gens hview hlast).sound hsound (hsound.gens.dropRow hview) rfl rfl rfl rfl

end Drop

/-! ## Captures -/

section Captures

theorem Keeps.of_rows (hrows : s'.rows = s.rows) (hactive : s'.active = s.active)
    (hinstalled : s'.installed = s.installed) (hbase : s'.base = s.base)
    (hlive : ∀ g, s'.Live g → s.Live g) : Keeps s s' := by
  have hrow : ∀ serial g, s'.row serial g = s.row serial g := by
    intro serial g
    rw [row, row, hrows]
  have hviews := fun serial => @views_congr _ s s' serial (hrow serial) hactive hinstalled
  refine ⟨fun serial g row hlatest => ⟨row, ?_, rfl, rfl, rfl⟩, fun serial _ => ?_,
    fun serial g row hg hrow' _ => ⟨hlive g hg, (hrow serial g).symm.trans hrow'⟩⟩
  · rw [← (hviews serial).2]
    exact hlatest
  · rw [Overlay.content, Overlay.content, (hviews serial).1, hbase]

theorem Gens.of_eq (hgens : Gens s) (hrows : s'.rows = s.rows) (hactive : s'.active = s.active)
    (hinstalled : s'.installed = s.installed) (hcaptured : s'.captured = s.captured)
    (hconsolidating : s'.consolidating = s.consolidating) (hcursor : s'.cursor ≤ s.cursor)
    (hreaders : ∀ reader ∈ s'.readers,
      reader.installed < reader.generation ∧ reader.generation < s.active)
    (horphans : ∀ serial orphan, s'.orphans serial = some orphan → s.Doomed serial orphan.top)
    (hretiring : ∀ serial g, s'.retiring serial g = true → s.Doomed serial g) : Gens s' := by
  have hrow : ∀ serial g, s'.row serial g = s.row serial g := by
    intro serial g
    rw [row, row, hrows]
  have hdoomed : ∀ serial g, s.Doomed serial g → s'.Doomed serial g := by
    intro serial g h
    rw [Doomed, (@views_congr _ s s' serial (hrow serial) hactive hinstalled).1, hinstalled]
    exact h
  refine ⟨?_, ?_, ?_, ?_, ?_, ?_, ?_,
    fun serial orphan h => hdoomed _ _ (horphans serial orphan h),
    fun serial g h => hdoomed _ _ (hretiring serial g h)⟩
  · rw [hinstalled, hactive]
    exact hgens.installed_lt
  · rw [hcaptured, hinstalled, hactive]
    exact hgens.captured
  · rw [hconsolidating, hinstalled, hactive, hcaptured]
    exact hgens.consolidating
  · intro serial g row h
    rw [hactive]
    exact hgens.range serial g row ((hrow serial g).symm.trans h)
  · rw [hactive]
    exact hreaders
  · intro serial g row h
    rw [hinstalled, hactive, hcaptured, hconsolidating]
    simp only [hrow]
    exact hgens.leftover serial g row ((hrow serial g).symm.trans h)
  · intro g serial hfold hbelow
    rw [hrow, hrow, hactive]
    rw [hconsolidating] at hfold
    exact hgens.passed g serial hfold (hbelow.trans_le hcursor)

theorem Sound.of_rows (hsound : Sound blake3 s) (hrows : s'.rows = s.rows)
    (hactive : s'.active = s.active) (hinstalled : s'.installed = s.installed)
    (hbase : s'.base = s.base) (hrevision : s'.revision = s.revision) (hpins : s'.pins = s.pins)
    (hslot : s'.resumable = s.resumable) (hdigests : s'.digests = s.digests)
    (hlive : ∀ g, s'.Live g → s.Live g) (hgens : Gens s') : Sound blake3 s' :=
  (Keeps.of_rows hrows hactive hinstalled hbase hlive).sound hsound hgens hrevision hpins hslot
    hdigests

theorem row_above (hgens : Gens s) (h : s.active < g) : s.row serial g = none := by
  rcases hrow : s.row serial g with _ | row
  · rfl
  · have := (hgens.range serial g row hrow).2
    omega

/-- **Sealing the active generation keeps the invariant.** -/
theorem Sound.capture (hsound : Sound blake3 s) (h : s.capture = some s') : Sound blake3 s' := by
  have hgens := hsound.gens
  rw [Overlay.capture] at h
  split_ifs at h with hrefused
  obtain ⟨hcaptured, hconsolidating⟩ : s.captured = none ∧ s.consolidating = none := by
    simp only [not_or, Bool.not_eq_true, Option.isSome_eq_false_iff, Option.isNone_iff_eq_none]
      at hrefused
    exact hrefused.2
  obtain rfl := Option.some.inj h
  have hnone : ∀ serial, s.row serial (s.active + 1) = none :=
    fun _ => row_above hgens (Nat.lt_succ_self _)
  have hviews : ∀ serial,
      Overlay.current { s with captured := some s.active, active := s.active + 1 } serial =
        s.current serial ∧
      Overlay.latest { s with captured := some s.active, active := s.active + 1 } serial =
        s.latest serial := fun serial => ⟨newest_succ (hnone serial), newest_succ (hnone serial)⟩
  have hkeeps : Keeps s { s with captured := some s.active, active := s.active + 1 } := by
    refine ⟨fun serial g row hlatest => ⟨row, ?_, rfl, rfl, rfl⟩, fun serial _ => ?_,
      fun serial g row hlive hrow _ => ⟨?_, hrow⟩⟩
    · rw [← (hviews serial).2]
      exact hlatest
    · rw [Overlay.content, (hviews serial).1]
      rfl
    · rcases hlive with hactive | hsealed | hreader
      · have habove : s.row serial g = none := row_above hgens (by
          change g = s.active + 1 at hactive
          omega)
        cases habove.symm.trans hrow
      · exact .inl (Option.some.inj hsealed).symm
      · exact .inr (.inr hreader)
  have hdoomed : ∀ serial k, s.Doomed serial k →
      Doomed { s with captured := some s.active, active := s.active + 1 } serial k := by
    intro serial k hk
    rw [Doomed, (hviews serial).1]
    exact hk
  refine hkeeps.sound hsound ⟨?_, ?_, ?_, ?_, ?_, ?_, ?_,
    fun serial orphan horphan => hdoomed _ _ (hgens.orphans serial orphan horphan),
    fun serial k hretiring => hdoomed _ _ (hgens.retiring serial k hretiring)⟩ rfl rfl rfl rfl
  · exact hgens.installed_lt.trans (Nat.lt_succ_self _)
  · intro g hg
    obtain rfl := Option.some.inj hg
    exact ⟨rfl, hgens.installed_lt⟩
  · intro g hg
    change s.consolidating = some g at hg
    rw [hconsolidating] at hg
    cases hg
  · intro serial g row hrow
    have := hgens.range serial g row hrow
    exact ⟨this.1, this.2.trans (Nat.le_succ _)⟩
  · intro reader hreader
    have := hgens.readers reader hreader
    exact ⟨this.1, this.2.trans (Nat.lt_succ_self _)⟩
  · intro serial g row hrow hinstalled hactive hsealed _
    have hg : g ≠ s.active := fun hg => hsealed (by rw [hg])
    refine hgens.leftover serial g row hrow hinstalled ?_ (by rw [hcaptured]; simp)
      (by rw [hconsolidating]; simp)
    change g < s.active + 1 at hactive
    omega
  · intro g serial hg
    change s.consolidating = some g at hg
    rw [hconsolidating] at hg
    cases hg

theorem content_install (hgens : Gens s) (hcaptured : s.captured = some g)
    (hlinked : s.Linked serial) :
    Overlay.content { s with base := s.capturedContent g, installed := g, captured := none }
      serial = s.content serial := by
  obtain ⟨hactive, hinstalled⟩ := hgens.captured g hcaptured
  rcases hrow : s.row serial s.active with _ | row
  · have habove : Overlay.current
        { s with base := s.capturedContent g, installed := g, captured := none } serial = none := by
      refine newest_eq_none.mpr fun k hk hktop => ?_
      have hkactive : k = s.active := by
        change k ≤ s.active at hktop
        change g < k at hk
        omega
      rw [hkactive]
      exact hrow
    have hbelow : s.current serial = newest (s.row serial) s.installed g := by
      rw [current, ← hactive]
      exact newest_succ (by rw [hactive]; exact hrow)
    rw [content_of_inherited habove, content, hbelow]
    change s.capturedContent g serial = _
    rw [capturedContent]
    rcases hnewest : newest (s.row serial) s.installed g with _ | ⟨d, row⟩
    · rfl
    · rw [hnewest] at hbelow
      exact if_neg (hlinked d row (latest_of_current hbelow))
  · have hafter : Overlay.current
        { s with base := s.capturedContent g, installed := g, captured := none } serial =
          some (s.active, row) :=
      newest_top (by change g < s.active; omega) hrow
    rw [content_of_current hafter, content_of_current (newest_top hgens.installed_lt hrow)]

/-- **Installing the captured view keeps the invariant.** -/
theorem Sound.install (hsound : Sound blake3 s) (h : s.install = some s') : Sound blake3 s' := by
  have hgens := hsound.gens
  rw [Overlay.install, Option.map_eq_some_iff] at h
  obtain ⟨g, hcaptured, rfl⟩ := h
  obtain ⟨hactive, hinstalled⟩ := hgens.captured g hcaptured
  have hkeeps : Keeps s
      { s with base := s.capturedContent g, installed := g, captured := none } := by
    refine ⟨fun serial k row hlatest => ⟨row, hlatest, rfl, rfl, rfl⟩,
      fun serial hlinked => content_install hgens hcaptured hlinked,
      fun serial k row hlive hrow _ => ⟨?_, hrow⟩⟩
    rcases hlive with hactive | hsealed | hreader
    · exact .inl hactive
    · cases hsealed
    · exact .inr (.inr hreader)
  have hdoomed : ∀ serial k, s.Doomed serial k →
      Doomed { s with base := s.capturedContent g, installed := g, captured := none } serial k := by
    rintro serial k (hle | ⟨d, row, hcurrent, hkd, hdead⟩)
    · exact .inl (hle.trans hinstalled.le)
    · obtain ⟨_, hdactive, hrow, _⟩ := newest_eq_some.mp hcurrent
      rcases Nat.lt_or_ge g d with hlt | hge
      · obtain rfl : d = s.active := by omega
        exact .inr ⟨s.active, row, newest_top hlt hrow, hkd, hdead⟩
      · exact .inl (hkd.trans hge)
  have hconsolidating : s.consolidating = none := by
    rcases hfold : s.consolidating with _ | c
    · rfl
    · have := (hgens.consolidating c hfold).2.2
      rw [hcaptured] at this
      cases this
  refine hkeeps.sound hsound ⟨?_, ?_, ?_, hgens.range, hgens.readers, ?_, ?_,
    fun serial orphan horphan => hdoomed _ _ (hgens.orphans serial orphan horphan),
    fun serial k hretiring => hdoomed _ _ (hgens.retiring serial k hretiring)⟩ rfl rfl rfl rfl
  · change g < s.active
    omega
  · intro k hk
    cases hk
  · intro k hk
    change s.consolidating = some k at hk
    rw [hconsolidating] at hk
    cases hk
  · intro serial k row _ hlow hhigh
    change g < k at hlow
    change k < s.active at hhigh
    omega
  · intro k serial hk
    change s.consolidating = some k at hk
    rw [hconsolidating] at hk
    cases hk

/-- **Giving a capture up keeps the invariant.** -/
theorem Sound.resolveFailedCapture (hsound : Sound blake3 s)
    (h : s.resolveFailedCapture = some s') : Sound blake3 s' := by
  have hgens := hsound.gens
  rw [Overlay.resolveFailedCapture] at h
  split_ifs at h
  rw [Option.map_eq_some_iff] at h
  obtain ⟨g, hcaptured, rfl⟩ := h
  obtain ⟨hactive, hinstalled⟩ := hgens.captured g hcaptured
  have hkeeps : Keeps s { s with captured := none, consolidating := some g, cursor := 0 } := by
    refine Keeps.of_rows rfl rfl rfl rfl fun k hlive => ?_
    rcases hlive with hactive | hsealed | hreader
    · exact .inl hactive
    · cases hsealed
    · exact .inr (.inr hreader)
  refine hkeeps.sound hsound ⟨hgens.installed_lt, ?_, ?_, hgens.range, hgens.readers, ?_, ?_,
    hgens.orphans, hgens.retiring⟩ rfl rfl rfl rfl
  · intro k hk
    cases hk
  · intro k hk
    obtain rfl := Option.some.inj hk
    exact ⟨hactive, hinstalled, rfl⟩
  · intro serial k row hrow hlow hhigh _ hfold
    have hk : k ≠ g := fun hk => hfold (by rw [hk])
    refine hgens.leftover serial k row hrow hlow hhigh ?_ fun hc => ?_
    · rw [hcaptured]
      exact fun hsame => hk (Option.some.inj hsame).symm
    · have := (hgens.consolidating k hc).2.2
      rw [hcaptured] at this
      cases this
  · intro k serial _ hcursor
    cases hcursor

/-- **The fold's last turn keeps the invariant**: what it left behind is superseded. -/
theorem Sound.foldFinish (hsound : Sound blake3 s) (h : s.foldFinish = some s') :
    Sound blake3 s' := by
  have hgens := hsound.gens
  rw [Overlay.foldFinish] at h
  rcases hfold : s.consolidating with _ | c
  · rw [hfold] at h
    cases h
  rw [hfold] at h
  dsimp only at h
  split_ifs at h with hrefused
  obtain rfl := Option.some.inj h
  obtain ⟨hactive, hinstalled, hcaptured⟩ := hgens.consolidating c hfold
  have hdone : ∀ serial row, s.row serial c = some row → serial < s.cursor := by
    intro serial row hrow
    by_contra hge
    refine hrefused (.inr (.inr ?_))
    refine List.any_eq_true.mpr ⟨((serial, c), row), AssocMap.mem_entries_iff.mpr hrow, ?_⟩
    simpa using hge
  have hkeeps : Keeps s { s with consolidating := none } :=
    Keeps.of_rows rfl rfl rfl rfl fun _ hlive => hlive
  refine hkeeps.sound hsound ⟨hgens.installed_lt, hgens.captured, ?_, hgens.range, hgens.readers,
    ?_, ?_, hgens.orphans, hgens.retiring⟩ rfl rfl rfl rfl
  · intro k hk
    cases hk
  · intro serial k row hrow hlow hhigh hsealed _
    by_cases hk : k = c
    · subst hk
      have hpassed := hgens.passed k serial hfold (hdone serial row hrow) (by
        rw [show s.row serial k = some row from hrow]
        rfl)
      exact ⟨s.active, hhigh, hpassed⟩
    · exact hgens.leftover serial k row hrow hlow hhigh hsealed (by
        rw [hfold]
        exact fun hsame => hk (Option.some.inj hsame).symm)
  · intro k serial hk
    cases hk

/-- **Readers come and go.** -/
theorem Sound.acquireReader (hsound : Sound blake3 s) (h : s.acquireReader = some s') :
    Sound blake3 s' := by
  have hgens := hsound.gens
  rw [Overlay.acquireReader] at h
  split_ifs at h
  rw [Option.map_eq_some_iff] at h
  obtain ⟨g, hcaptured, rfl⟩ := h
  obtain ⟨hactive, hinstalled⟩ := hgens.captured g hcaptured
  refine hsound.of_rows rfl rfl rfl rfl rfl rfl rfl rfl (fun k hlive => ?_)
    (hgens.of_eq rfl rfl rfl rfl rfl le_rfl ?_ hgens.orphans hgens.retiring)
  · rcases hlive with hactive | hsealed | ⟨reader, hreader, hk⟩
    · exact .inl hactive
    · exact .inr (.inl hsealed)
    · rcases List.mem_cons.mp hreader with rfl | hreader
      · exact .inr (.inl (hcaptured.trans (congrArg some hk)))
      · exact .inr (.inr ⟨reader, hreader, hk⟩)
  · intro reader hreader
    rcases List.mem_cons.mp hreader with rfl | hreader
    · exact ⟨hinstalled, by change g < s.active; omega⟩
    · exact hgens.readers reader hreader

theorem Sound.releaseReader {reader : Reader} (hsound : Sound blake3 s)
    (h : s.releaseReader reader = some s') : Sound blake3 s' := by
  have hgens := hsound.gens
  rw [Overlay.releaseReader] at h
  split_ifs at h
  obtain rfl := Option.some.inj h
  refine hsound.of_rows rfl rfl rfl rfl rfl rfl rfl rfl (fun k hlive => ?_)
    (hgens.of_eq rfl rfl rfl rfl rfl le_rfl ?_ hgens.orphans hgens.retiring)
  · rcases hlive with hactive | hsealed | ⟨other, hother, hk⟩
    · exact .inl hactive
    · exact .inr (.inl hsealed)
    · exact .inr (.inr ⟨other, List.mem_of_mem_erase hother, hk⟩)
  · exact fun other hother => hgens.readers other (List.mem_of_mem_erase hother)

end Captures

end Overlay

end Digests

end LayerFs
