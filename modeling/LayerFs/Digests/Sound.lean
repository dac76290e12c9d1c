import LayerFs.Digests.Turns

/-!
# What a content sequence stands for

A pin is sound as long as one content sequence of a serial stands for one content. The invariant
keeps a ledger of these contents beside the state.

* `Gens` — how the generations lie, and that only removed files lose their layers.
-/

namespace LayerFs

namespace Digests

namespace Overlay

variable {Digest : Type}

/-! ## The invariant -/

/-- The contents that the content sequences of each serial stand for. -/
abbrev Ledger := ℕ → ℕ → Option (List UInt8)

def Linked (s : Overlay Digest) (serial : ℕ) : Prop :=
  ∀ g row, s.latest serial = some (g, row) → row.nlink ≠ 0

def Live (s : Overlay Digest) (g : ℕ) : Prop :=
  g = s.active ∨ s.captured = some g ∨ ∃ reader ∈ s.readers, reader.generation = g

/-- A layer that no linked row of the view reads: it is installed, or its file was removed in it
or above it. -/
def Doomed (s : Overlay Digest) (serial g : ℕ) : Prop :=
  g ≤ s.installed ∨ ∃ d row, s.current serial = some (d, row) ∧ g ≤ d ∧ row.nlink = 0

/-- How the generations of a Workspace lie. -/
structure Gens (s : Overlay Digest) : Prop where
  installed_lt : s.installed < s.active
  captured : ∀ g, s.captured = some g → g + 1 = s.active ∧ s.installed < g
  consolidating : ∀ g, s.consolidating = some g →
    g + 1 = s.active ∧ s.installed < g ∧ s.captured = none
  range : ∀ serial g row, s.row serial g = some row → 0 < g ∧ g ≤ s.active
  readers : ∀ reader ∈ s.readers,
    reader.installed < reader.generation ∧ reader.generation < s.active
  /-- a row below the active generation that is in no capture or fold is superseded -/
  leftover : ∀ serial g row, s.row serial g = some row → s.installed < g → g < s.active →
    s.captured ≠ some g → s.consolidating ≠ some g → ∃ k, g < k ∧ (s.row serial k).isSome
  /-- the fold leaves a row behind only under an active one -/
  passed : ∀ g serial, s.consolidating = some g → serial < s.cursor → (s.row serial g).isSome →
    (s.row serial s.active).isSome
  orphans : ∀ serial orphan, s.orphans serial = some orphan → s.Doomed serial orphan.top
  retiring : ∀ serial g, s.retiring serial g = true → s.Doomed serial g

variable (blake3 : List UInt8 → Digest)

/-- Rows, pins and the slot agree with a ledger of contents. -/
structure Core (s : Overlay Digest) (ledger : Ledger) : Prop where
  bound : ∀ serial q bytes, ledger serial q = some bytes → q ≤ s.revision + 1
  /-- what already carries the next number is what its file reads now -/
  next : ∀ serial bytes, ledger serial (s.revision + 1) = some bytes →
    s.Linked serial ∧ s.content serial = bytes
  live : ∀ serial g row, s.Live g → s.row serial g = some row → row.nlink ≠ 0 →
    ledger serial row.sequence = some row.bytes
  latest : ∀ serial g row, s.latest serial = some (g, row) → row.nlink ≠ 0 →
    ledger serial row.sequence = some (s.content serial) ∧ row.size = (s.content serial).length
  removed : ∀ serial g row, s.latest serial = some (g, row) → row.nlink = 0 →
    ledger serial row.sequence = none
  pins : ∀ serial pin, s.pins serial = some pin → ∃ bytes,
    ledger serial pin.sequence = some bytes ∧ pin.digest = blake3 bytes ∧
      pin.length = bytes.length
  slot : ∀ slot, s.resumable = some slot →
    ledger slot.serial slot.sequence = some slot.followed ∧
      ∃ pin, s.pins slot.serial = some pin ∧ pin.sequence = slot.sequence

def Followed (s : Overlay Digest) : Prop :=
  ∀ serial bytes, s.digests serial = some bytes → s.Linked serial ∧ s.content serial = bytes

/-- **The invariant of every orderly run.** -/
structure Sound (s : Overlay Digest) : Prop where
  gens : Gens s
  core : ∃ ledger, Core blake3 s ledger
  followed : Followed s

/-! ## Views -/

variable {s s' : Overlay Digest} {ledger : Ledger} {blake3} {serial g : ℕ} {row : Row}

theorem content_of_current {d : ℕ} (h : s.current serial = some (d, row)) :
    s.content serial = row.bytes := by
  rw [content, h]

theorem content_of_inherited (h : s.current serial = none) :
    s.content serial = s.base serial := by
  rw [content, h]

theorem latest_of_current {d : ℕ} (h : s.current serial = some (d, row)) :
    s.latest serial = some (d, row) :=
  newest_of_le (Nat.zero_le _) h

theorem linked_of_current {d : ℕ} (h : s.current serial = some (d, row)) (hrow : row.nlink ≠ 0) :
    s.Linked serial := by
  intro g latest hlatest
  rw [latest_of_current h] at hlatest
  cases hlatest
  exact hrow

theorem views_congr (hrows : ∀ g, s'.row serial g = s.row serial g) (hactive : s'.active = s.active)
    (hinstalled : s'.installed = s.installed) :
    s'.current serial = s.current serial ∧ s'.latest serial = s.latest serial := by
  have h : s'.row serial = s.row serial := funext hrows
  rw [current, latest, h, hactive, hinstalled]
  exact ⟨rfl, rfl⟩

def Unused (s : Overlay Digest) (serial q : ℕ) : Prop :=
  (∀ g row, s.row serial g = some row → row.sequence ≠ q) ∧
    ∀ pin, s.pins serial = some pin → pin.sequence ≠ q

/-! ## Rows written at the active generation -/

def Ledger.put (ledger : Ledger) (q : ℕ) (new : ℕ → Option Row) : Ledger := fun serial k =>
  if k = q then
    match new serial with
    | some row => if row.nlink = 0 then none else some row.bytes
    | none => ledger serial k
  else ledger serial k

theorem Ledger.put_old {q k : ℕ} {new : ℕ → Option Row} (h : new serial = none) :
    ledger.put q new serial k = ledger serial k := by
  rw [Ledger.put, h]
  split_ifs <;> rfl

theorem Ledger.put_ne {q k : ℕ} {new : ℕ → Option Row} (h : k ≠ q) :
    ledger.put q new serial k = ledger serial k := if_neg h

theorem Ledger.put_new {q : ℕ} {new : ℕ → Option Row} (h : new serial = some row) :
    ledger.put q new serial q = if row.nlink = 0 then none else some row.bytes := by
  rw [Ledger.put, if_pos rfl, h]

/-- Rows put over the active generation. -/
structure Puts (s : Overlay Digest) (rows : AssocMap (ℕ × ℕ) Row) (new : ℕ → Option Row) :
    Prop where
  get : ∀ serial g, rows.get? (serial, g) =
    if g = s.active then (new serial).or (s.row serial g) else s.row serial g
  sequence : ∀ serial row, new serial = some row → row.sequence = s.revision + 1
  /-- a removed file is not linked again -/
  removed : ∀ serial row d old, new serial = some row → s.current serial = some (d, old) →
    old.nlink = 0 → row.nlink = 0

namespace Puts

variable {rows : AssocMap (ℕ × ℕ) Row} {new : ℕ → Option Row}

theorem row_old (h : Puts s rows new) (hnew : new serial = none) :
    Overlay.row { s with rows := rows } serial g = s.row serial g := by
  rw [Overlay.row, h.get, hnew]
  split_ifs <;> rfl

theorem row_lower (h : Puts s rows new) (hg : g ≠ s.active) :
    Overlay.row { s with rows := rows } serial g = s.row serial g := by
  rw [Overlay.row, h.get, if_neg hg]

theorem row_active (h : Puts s rows new) (hnew : new serial = some row) :
    Overlay.row { s with rows := rows } serial s.active = some row := by
  rw [Overlay.row, h.get, if_pos rfl, hnew]
  rfl

theorem current_old (h : Puts s rows new) (hnew : new serial = none) :
    Overlay.current { s with rows := rows } serial = s.current serial :=
  newest_congr fun _ _ _ => h.row_old hnew

theorem latest_old (h : Puts s rows new) (hnew : new serial = none) :
    Overlay.latest { s with rows := rows } serial = s.latest serial :=
  newest_congr fun _ _ _ => h.row_old hnew

theorem current_new (h : Puts s rows new) (hgens : Gens s) (hnew : new serial = some row) :
    Overlay.current { s with rows := rows } serial = some (s.active, row) :=
  newest_top hgens.installed_lt (h.row_active hnew)

theorem latest_new (h : Puts s rows new) (hgens : Gens s) (hnew : new serial = some row) :
    Overlay.latest { s with rows := rows } serial = some (s.active, row) :=
  latest_of_current (h.current_new hgens hnew)

theorem content_old (h : Puts s rows new) (hnew : new serial = none) :
    Overlay.content { s with rows := rows } serial = s.content serial := by
  rw [content, h.current_old hnew]
  rfl

theorem content_new (h : Puts s rows new) (hgens : Gens s) (hnew : new serial = some row) :
    Overlay.content { s with rows := rows } serial = row.bytes :=
  content_of_current (h.current_new hgens hnew)

theorem linked_old (h : Puts s rows new) (hnew : new serial = none) :
    Linked { s with rows := rows } serial ↔ s.Linked serial := by
  rw [Linked, Linked, h.latest_old hnew]

theorem isSome_row (h : Puts s rows new) (hrow : (s.row serial g).isSome) :
    (Overlay.row { s with rows := rows } serial g).isSome := by
  rw [Overlay.row, h.get]
  split_ifs with hg
  · rcases new serial with _ | row
    · exact hrow
    · rfl
  · exact hrow

theorem doomed (h : Puts s rows new) (hgens : Gens s) (hdoomed : s.Doomed serial g) :
    Doomed { s with rows := rows } serial g := by
  rcases hdoomed with hle | ⟨d, old, hcurrent, hgd, hold⟩
  · exact .inl hle
  · right
    rcases hnew : new serial with _ | row
    · exact ⟨d, old, (h.current_old hnew).trans hcurrent, hgd, hold⟩
    · have hd : d ≤ s.active := (newest_eq_some.mp hcurrent).2.1
      exact ⟨s.active, row, h.current_new hgens hnew, hgd.trans hd,
        h.removed serial row d old hnew hcurrent hold⟩

/-- **Writing active rows keeps the generations in order.** -/
theorem gens (h : Puts s rows new) (hgens : Gens s) : Gens { s with rows := rows } where
  installed_lt := hgens.installed_lt
  captured := hgens.captured
  consolidating := hgens.consolidating
  range := by
    intro serial g row hrow
    by_cases hg : g = s.active
    · subst hg
      exact ⟨Nat.zero_lt_of_lt hgens.installed_lt, le_rfl⟩
    · rw [h.row_lower hg] at hrow
      exact hgens.range serial g row hrow
  readers := hgens.readers
  leftover := by
    intro serial g row hrow hinstalled hactive hcaptured hconsolidating
    rw [h.row_lower (Nat.ne_of_lt hactive)] at hrow
    obtain ⟨k, hk, hsome⟩ :=
      hgens.leftover serial g row hrow hinstalled hactive hcaptured hconsolidating
    exact ⟨k, hk, h.isSome_row hsome⟩
  passed := by
    intro g serial hconsolidating hcursor hsome
    have hg : g ≠ s.active := by
      have := (hgens.consolidating g hconsolidating).1
      omega
    rw [h.row_lower hg] at hsome
    exact h.isSome_row (hgens.passed g serial hconsolidating hcursor hsome)
  orphans := fun serial orphan horphan => h.doomed hgens (hgens.orphans serial orphan horphan)
  retiring := fun serial g hretiring => h.doomed hgens (hgens.retiring serial g hretiring)

/-- The new rows clash with nothing: their number is unused, or already stands for their bytes. -/
def Fits (s : Overlay Digest) (ledger : Ledger) (new : ℕ → Option Row) : Prop :=
  ∀ serial row, new serial = some row → s.Unused serial (s.revision + 1) ∨
    ∀ bytes, ledger serial (s.revision + 1) = some bytes → row.nlink ≠ 0 ∧ row.bytes = bytes

theorem ledger_of_used (hfits : Fits s ledger new) {k : ℕ} {bytes : List UInt8}
    (hused : s.Unused serial (s.revision + 1) → k ≠ s.revision + 1)
    (hk : ledger serial k = some bytes) :
    ledger.put (s.revision + 1) new serial k = some bytes := by
  by_cases hq : k = s.revision + 1
  · subst hq
    rcases hnew : new serial with _ | row
    · rw [Ledger.put_old hnew, hk]
    · rcases hfits serial row hnew with hunused | hsame
      · exact absurd rfl (hused hunused)
      · obtain ⟨hlinked, hbytes⟩ := hsame bytes hk
        rw [Ledger.put_new hnew, if_neg hlinked, hbytes]
  · rw [Ledger.put_ne hq, hk]

/-- **Writing active rows keeps the ledger**, with the new rows' number added to it. -/
theorem core (h : Puts s rows new) (hgens : Gens s) (hcore : Core blake3 s ledger)
    (hfits : Fits s ledger new) :
    Core blake3 { s with rows := rows } (ledger.put (s.revision + 1) new) where
  bound := by
    intro serial q bytes hq
    by_cases hnext : q = s.revision + 1
    · exact hnext.le
    · rw [Ledger.put_ne hnext] at hq
      exact hcore.bound serial q bytes hq
  next := by
    intro serial bytes hq
    change ledger.put (s.revision + 1) new serial (s.revision + 1) = some bytes at hq
    rcases hnew : new serial with _ | row
    · rw [Ledger.put_old hnew] at hq
      obtain ⟨hlinked, hcontent⟩ := hcore.next serial bytes hq
      exact ⟨(h.linked_old hnew).mpr hlinked, (h.content_old hnew).trans hcontent⟩
    · rw [Ledger.put_new hnew] at hq
      by_cases hnlink : row.nlink = 0
      · rw [if_pos hnlink] at hq
        cases hq
      · rw [if_neg hnlink] at hq
        cases hq
        exact ⟨linked_of_current (h.current_new hgens hnew) hnlink, h.content_new hgens hnew⟩
  live := by
    intro serial g row hlive hrow hnlink
    by_cases hwritten : g = s.active ∧ (new serial).isSome
    · obtain ⟨rfl, hsome⟩ := hwritten
      obtain ⟨fresh, hnew⟩ := Option.isSome_iff_exists.mp hsome
      rw [h.row_active hnew] at hrow
      cases hrow
      rw [h.sequence serial row hnew, Ledger.put_new hnew, if_neg hnlink]
    · have hold : s.row serial g = some row := by
        by_cases hg : g = s.active
        · have hnew : new serial = none := by
            rcases hnew : new serial with _ | fresh
            · rfl
            · exact absurd ⟨hg, by rw [hnew]; rfl⟩ hwritten
          exact (h.row_old hnew).symm.trans hrow
        · exact (h.row_lower hg).symm.trans hrow
      exact ledger_of_used hfits (fun hunused => hunused.1 g row hold)
        (hcore.live serial g row hlive hold hnlink)
  latest := by
    intro serial g row hlatest hnlink
    rcases hnew : new serial with _ | fresh
    · rw [h.latest_old hnew] at hlatest
      rw [Ledger.put_old hnew, h.content_old hnew]
      exact hcore.latest serial g row hlatest hnlink
    · rw [h.latest_new hgens hnew] at hlatest
      cases hlatest
      rw [h.sequence serial row hnew, Ledger.put_new hnew, if_neg hnlink,
        h.content_new hgens hnew]
      exact ⟨rfl, rfl⟩
  removed := by
    intro serial g row hlatest hnlink
    rcases hnew : new serial with _ | fresh
    · rw [h.latest_old hnew] at hlatest
      rw [Ledger.put_old hnew]
      exact hcore.removed serial g row hlatest hnlink
    · rw [h.latest_new hgens hnew] at hlatest
      cases hlatest
      rw [h.sequence serial row hnew, Ledger.put_new hnew, if_pos hnlink]
  pins := by
    intro serial pin hpin
    obtain ⟨bytes, hledger, hdigest, hlength⟩ := hcore.pins serial pin hpin
    refine ⟨bytes, ?_, hdigest, hlength⟩
    exact ledger_of_used hfits (fun hunused => hunused.2 pin hpin) hledger
  slot := by
    intro slot hslot
    obtain ⟨hledger, pin, hpin, hsequence⟩ := hcore.slot slot hslot
    refine ⟨?_, pin, hpin, hsequence⟩
    refine ledger_of_used hfits (fun hunused => ?_) hledger
    rw [← hsequence]
    exact hunused.2 pin hpin

end Puts

/-! ## Steps that write no row -/

/-- A step after which every linked file reads what it read, no serial has a latest row that it
had not before, and no row became readable to a capture. -/
structure Keeps (s s' : Overlay Digest) : Prop where
  latest : ∀ serial g row, s'.latest serial = some (g, row) → ∃ old,
    s.latest serial = some (g, old) ∧ old.nlink = row.nlink ∧ old.sequence = row.sequence ∧
      old.size = row.size
  content : ∀ serial, s.Linked serial → s'.content serial = s.content serial
  live : ∀ serial g row, s'.Live g → s'.row serial g = some row → row.nlink ≠ 0 →
    s.Live g ∧ s.row serial g = some row

namespace Keeps

theorem linked (h : Keeps s s') (hlinked : s.Linked serial) : s'.Linked serial := by
  intro g row hrow
  obtain ⟨old, hold, hnlink, _, _⟩ := h.latest serial g row hrow
  rw [← hnlink]
  exact hlinked g old hold

theorem core (h : Keeps s s') (hcore : Core blake3 s ledger) (hrevision : s'.revision = s.revision)
    (hpins : s'.pins = s.pins) (hslot : s'.resumable = s.resumable) : Core blake3 s' ledger where
  bound := by
    rw [hrevision]
    exact hcore.bound
  next := by
    intro serial bytes hq
    rw [hrevision] at hq
    obtain ⟨hlinked, hcontent⟩ := hcore.next serial bytes hq
    exact ⟨h.linked hlinked, (h.content serial hlinked).trans hcontent⟩
  live := by
    intro serial g row hlive hrow hnlink
    obtain ⟨hlive, hrow⟩ := h.live serial g row hlive hrow hnlink
    exact hcore.live serial g row hlive hrow hnlink
  latest := by
    intro serial g row hrow hnlink
    obtain ⟨old, hold, hsame, hsequence, hsize⟩ := h.latest serial g row hrow
    rw [← hsame] at hnlink
    have hlinked : s.Linked serial := by
      intro g' other hother
      rw [hold] at hother
      cases hother
      exact hnlink
    rw [← hsequence, ← hsize, h.content serial hlinked]
    exact hcore.latest serial g old hold hnlink
  removed := by
    intro serial g row hrow hnlink
    obtain ⟨old, hold, hsame, hsequence, _⟩ := h.latest serial g row hrow
    rw [← hsequence]
    exact hcore.removed serial g old hold (hsame.trans hnlink)
  pins := by
    rw [hpins]
    exact hcore.pins
  slot := by
    rw [hslot, hpins]
    exact hcore.slot

/-- **A step that keeps contents and pins keeps the invariant.** -/
theorem sound (h : Keeps s s') (hsound : Sound blake3 s) (hgens : Gens s')
    (hrevision : s'.revision = s.revision) (hpins : s'.pins = s.pins)
    (hslot : s'.resumable = s.resumable) (hdigests : s'.digests = s.digests) :
    Sound blake3 s' where
  gens := hgens
  core := by
    obtain ⟨ledger, hcore⟩ := hsound.core
    exact ⟨ledger, h.core hcore hrevision hpins hslot⟩
  followed := by
    intro serial bytes hbytes
    rw [hdigests] at hbytes
    obtain ⟨hlinked, hcontent⟩ := hsound.followed serial bytes hbytes
    exact ⟨h.linked hlinked, (h.content serial hlinked).trans hcontent⟩

end Keeps

/-! ## One row changed -/

theorem row_insert {old : Row} {serial' g' : ℕ} :
    Overlay.row { s with rows := s.rows.insert (serial, g) old } serial' g' =
      if serial' = serial ∧ g' = g then some old else s.row serial' g' := by
  rw [Overlay.row, AssocMap.get?_insert]
  simp only [Prod.mk.injEq]
  rfl

theorem row_erase {serial' g' : ℕ} :
    Overlay.row { s with rows := s.rows.erase (serial, g) } serial' g' =
      if serial' = serial ∧ g' = g then none else s.row serial' g' := by
  rw [Overlay.row, AssocMap.get?_erase]
  simp only [Prod.mk.injEq]
  rfl

end Overlay

end Digests

end LayerFs
