import LayerFs.Digests.Maintained

/-!
# Pins that move and pins that are made

* `Sound.resumeDigest` — a file followed again reads the bytes its hash state is resumed from.
-/

namespace LayerFs

namespace Digests

namespace Overlay

variable {Digest : Type} {blake3 : List UInt8 → Digest} {s s' : Overlay Digest} {serial q : ℕ}
variable {bytes : List UInt8} {carried : List ℕ} {kind : Reference} {row : Row} {write : Write}
  {g : ℕ}
  {ledger : Ledger}

/-! ## Following again -/

theorem Core.content_of_latest (hcore : Core blake3 s ledger)
    (hlatest : s.latest serial = some (g, row)) (hledger : ledger serial row.sequence = some bytes)
    :
    s.Linked serial ∧ s.content serial = bytes ∧ row.size = bytes.length := by
  have hnlink : row.nlink ≠ 0 := by
    intro hdead
    rw [hcore.removed serial g row hlatest hdead] at hledger
    cases hledger
  obtain ⟨hsame, hsize⟩ := hcore.latest serial g row hlatest hnlink
  obtain rfl : s.content serial = bytes := Option.some.inj (hsame.symm.trans hledger)
  refine ⟨fun g' other hother => ?_, rfl, hsize⟩
  rw [hlatest] at hother
  cases hother
  exact hnlink

theorem Core.stillEmpty (hcore : Core blake3 s ledger)
    (hlatest : s.latest write.serial = some (g, row)) (h : s.stillEmpty write row = some bytes) :
    s.Linked write.serial ∧ s.content write.serial = bytes := by
  rw [Overlay.stillEmpty] at h
  split_ifs at h with hempty
  obtain ⟨_, _, hpin⟩ := hempty
  rw [Option.any_eq_true] at hpin
  obtain ⟨pin, hpin, hsame⟩ := hpin
  simp only [Bool.and_eq_true, beq_iff_eq] at hsame
  obtain ⟨content, hledger, _, hlength⟩ := hcore.pins write.serial pin hpin
  rw [hsame.1] at hledger
  obtain ⟨hlinked, hcontent, _⟩ := hcore.content_of_latest hlatest hledger
  refine ⟨hlinked, hcontent.trans ?_⟩
  rw [← Option.some.inj h]
  exact List.eq_nil_of_length_eq_zero (hlength.symm.trans hsame.2)

/-- **What a write resumes from is what its file reads.** -/
theorem Core.resumed (hcore : Core blake3 s ledger)
    (hlatest : s.latest write.serial = some (g, row)) (h : s.resumed write row = some bytes) :
    s.Linked write.serial ∧ s.content write.serial = bytes := by
  rw [Overlay.resumed] at h
  rcases hslot : s.resumable with _ | slot
  · rw [hslot] at h
    exact hcore.stillEmpty hlatest h
  rw [hslot] at h
  dsimp only at h
  by_cases hsame : slot.serial = write.serial ∧ slot.sequence = row.sequence ∧
      slot.followed.length = row.size ∧ slot.followed.length = write.offset
  · rw [if_pos hsame] at h
    obtain rfl := Option.some.inj h
    have hledger := (hcore.slot slot hslot).1
    rw [hsame.1, hsame.2.1] at hledger
    obtain ⟨hlinked, hcontent, _⟩ := hcore.content_of_latest hlatest hledger
    exact ⟨hlinked, hcontent⟩
  · rw [if_neg hsame] at h
    exact hcore.stillEmpty hlatest h

theorem Sound.of_digests (hsound : Sound blake3 s) {digests : ℕ → Option (List UInt8)}
    (h : Followed { s with digests := digests }) : Sound blake3 { s with digests := digests } := by
  have hgens := hsound.gens
  obtain ⟨ledger, hcore⟩ := hsound.core
  exact ⟨hgens.of_eq rfl rfl rfl rfl rfl le_rfl hgens.readers hgens.orphans hgens.retiring,
    ⟨ledger, ⟨hcore.bound, hcore.next, hcore.live, hcore.latest, hcore.removed, hcore.pins,
      hcore.slot⟩⟩, h⟩

/-- **Following a file again keeps the invariant.** -/
theorem Sound.resumeDigest {changes : Changes} (hsound : Sound blake3 s) :
    Sound blake3 (s.resumeDigest changes) := by
  rw [Overlay.resumeDigest]
  rcases changes.write with _ | write
  · exact hsound
  dsimp only
  by_cases hheld : (s.digests write.serial).isSome = true
  · rw [if_pos hheld]
    exact hsound
  rw [if_neg hheld]
  rcases hresumed : (s.latest write.serial).bind fun latest => s.resumed write latest.2 with
    _ | followed
  · exact hsound
  obtain ⟨⟨g, row⟩, hlatest, hfollowed⟩ := Option.bind_eq_some_iff.mp hresumed
  obtain ⟨ledger, hcore⟩ := hsound.core
  refine hsound.of_digests fun serial bytes hbytes => ?_
  change Function.update s.digests write.serial (some followed) serial = some bytes at hbytes
  by_cases hserial : serial = write.serial
  · subst hserial
    rw [Function.update_self] at hbytes
    obtain rfl := Option.some.inj hbytes
    exact hcore.resumed hlatest hfollowed
  · rw [Function.update_of_ne hserial] at hbytes
    exact hsound.followed serial bytes hbytes

theorem resumeDigest_eq {changes : Changes} :
    ∃ digests, s.resumeDigest changes = { s with digests := digests } := by
  rw [Overlay.resumeDigest]
  rcases changes.write with _ | write
  · exact ⟨s.digests, rfl⟩
  dsimp only
  split_ifs
  · exact ⟨s.digests, rfl⟩
  · rcases (s.latest write.serial).bind fun latest => s.resumed write latest.2 with _ | followed
    · exact ⟨s.digests, rfl⟩
    · exact ⟨_, rfl⟩

/-! ## Inside a job's transaction -/

/-- The invariant with the ledger at hand. -/
structure Tracked (blake3 : List UInt8 → Digest) (s : Overlay Digest) (ledger : Ledger) :
    Prop where
  gens : Gens s
  core : Core blake3 s ledger
  followed : Followed s

theorem Tracked.sound (h : Tracked blake3 s ledger) : Sound blake3 s :=
  ⟨h.gens, ⟨ledger, h.core⟩, h.followed⟩

/-- **A pin made at a number that stands for the followed bytes.** -/
theorem Tracked.finishDigest (h : Tracked blake3 s ledger)
    (hq : ∀ bytes, s.digests serial = some bytes → ledger serial q = some bytes) :
    Tracked blake3 (s.finishDigest blake3 serial q) ledger := by
  rw [Overlay.finishDigest]
  rcases hdigests : s.digests serial with _ | followed
  · exact h
  have hcore := h.core
  refine ⟨h.gens.of_eq rfl rfl rfl rfl rfl le_rfl h.gens.readers h.gens.orphans h.gens.retiring,
    ⟨hcore.bound, hcore.next, hcore.live, hcore.latest, hcore.removed, ?_, ?_⟩, ?_⟩
  · intro serial' pin hpin
    change Function.update s.pins serial _ serial' = some pin at hpin
    by_cases hserial : serial' = serial
    · subst hserial
      rw [Function.update_self] at hpin
      obtain rfl := Option.some.inj hpin
      exact ⟨followed, hq followed hdigests, rfl, rfl⟩
    · rw [Function.update_of_ne hserial] at hpin
      exact hcore.pins serial' pin hpin
  · intro slot hslot
    obtain rfl := Option.some.inj hslot
    exact ⟨hq followed hdigests, _, Function.update_self .., rfl⟩
  · intro serial' bytes hbytes
    change Function.update s.digests serial none serial' = some bytes at hbytes
    by_cases hserial : serial' = serial
    · subst hserial
      rw [Function.update_self] at hbytes
      cases hbytes
    · rw [Function.update_of_ne hserial] at hbytes
      exact h.followed serial' bytes hbytes

theorem digests_of_finishDigest {serial' : ℕ}
    (h : (s.finishDigest blake3 serial q).digests serial' = some bytes) :
    s.digests serial' = some bytes := by
  rw [Overlay.finishDigest] at h
  rcases hdigests : s.digests serial with _ | followed
  · rw [hdigests] at h
    exact h
  rw [hdigests] at h
  change Function.update s.digests serial none serial' = some bytes at h
  by_cases hserial : serial' = serial
  · subst hserial
    rw [Function.update_self] at h
    cases h
  · rw [Function.update_of_ne hserial] at h
    exact h

theorem Tracked.finishUnopened {inodes : List Inode} (h : Tracked blake3 s ledger)
    (hq : ∀ inode ∈ inodes, ∀ bytes, s.digests inode.serial = some bytes →
      ledger inode.serial q = some bytes) :
    Tracked blake3
      (inodes.foldl (fun s inode => s.finishUnopened blake3 inode.serial q) s) ledger := by
  induction inodes generalizing s with
  | nil => exact h
  | cons inode rest ih =>
    rw [List.foldl_cons, Overlay.finishUnopened]
    split_ifs with hopens
    · refine ih (h.finishDigest (hq inode List.mem_cons_self)) fun other hother bytes hbytes => ?_
      exact hq other (List.mem_cons_of_mem _ hother) bytes (digests_of_finishDigest hbytes)
    · exact ih h fun other hother => hq other (List.mem_cons_of_mem _ hother)

def Moves (s : Overlay Digest) (ledger : Ledger) (serial q : ℕ) : Prop :=
  ∀ pin bytes, s.pins serial = some pin → ledger serial pin.sequence = some bytes →
    ledger serial q = some bytes

/-- **A pin moved to a number that stands for the same bytes.** -/
theorem Tracked.repin (h : Tracked blake3 s ledger) (hq : s.Moves ledger serial q) :
    Tracked blake3 (s.repin serial q) ledger := by
  have hcore := h.core
  refine ⟨h.gens.of_eq rfl rfl rfl rfl rfl le_rfl h.gens.readers h.gens.orphans h.gens.retiring,
    ⟨hcore.bound, hcore.next, hcore.live, hcore.latest, hcore.removed, ?_, ?_⟩, h.followed⟩
  · intro serial' pin hpin
    change Function.update s.pins serial _ serial' = some pin at hpin
    by_cases hserial : serial' = serial
    · subst hserial
      rw [Function.update_self, Option.map_eq_some_iff] at hpin
      obtain ⟨old, hold, rfl⟩ := hpin
      obtain ⟨bytes, hledger, hdigest, hlength⟩ := hcore.pins serial' old hold
      exact ⟨bytes, hq old bytes hold hledger, hdigest, hlength⟩
    · rw [Function.update_of_ne hserial] at hpin
      exact hcore.pins serial' pin hpin
  · intro slot hslot
    change s.resumable.map _ = some slot at hslot
    obtain ⟨old, hold, hmoved⟩ := Option.map_eq_some_iff.mp hslot
    obtain ⟨hledger, pin, hpin, hsequence⟩ := hcore.slot old hold
    split_ifs at hmoved with hserial
    · subst hserial hmoved
      refine ⟨hq pin _ hpin (by rw [hsequence]; exact hledger), ?_⟩
      refine ⟨{ pin with sequence := q }, ?_, rfl⟩
      change Function.update s.pins old.serial _ old.serial = _
      rw [Function.update_self, hpin]
      rfl
    · subst hmoved
      refine ⟨hledger, pin, ?_, hsequence⟩
      change Function.update s.pins serial _ old.serial = _
      rw [Function.update_of_ne hserial]
      exact hpin

theorem Tracked.repinAll (h : Tracked blake3 s ledger)
    (hq : ∀ serial ∈ carried, s.Moves ledger serial q) :
    Tracked blake3 (carried.foldl (fun s serial => s.repin serial q) s) ledger := by
  induction carried generalizing s with
  | nil => exact h
  | cons serial rest ih =>
    rw [List.foldl_cons]
    refine ih (h.repin (hq serial List.mem_cons_self)) fun other hother pin bytes hpin hledger => ?_
    change Function.update s.pins serial _ other = some pin at hpin
    by_cases hserial : other = serial
    · subst hserial
      rw [Function.update_self, Option.map_eq_some_iff] at hpin
      obtain ⟨old, _, rfl⟩ := hpin
      exact hledger
    · rw [Function.update_of_ne hserial] at hpin
      exact hq other (List.mem_cons_of_mem _ hother) pin bytes hpin hledger

theorem digests_repinAll :
    (carried.foldl (fun s serial => s.repin serial q) s).digests = s.digests := by
  induction carried generalizing s with
  | nil => rfl
  | cons serial rest ih => exact ih

/-! ## The last close -/

/-- **The pin made at the last close keeps the invariant.** -/
theorem Sound.digestClosed (hsound : Sound blake3 s) :
    Sound blake3 (s.digestClosed blake3 serial) := by
  have hforget : Sound blake3 { s with digests := Function.update s.digests serial none } := by
    refine hsound.of_digests fun serial' bytes hbytes => ?_
    change Function.update s.digests serial none serial' = some bytes at hbytes
    by_cases hserial : serial' = serial
    · subst hserial
      rw [Function.update_self] at hbytes
      cases hbytes
    · rw [Function.update_of_ne hserial] at hbytes
      exact hsound.followed serial' bytes hbytes
  rw [Overlay.digestClosed]
  rcases hdigests : s.digests serial with _ | followed
  · exact hsound
  rcases hlatest : s.latest serial with _ | ⟨g, row⟩
  · exact hforget
  dsimp only
  split_ifs with hsize
  · obtain ⟨ledger, hcore⟩ := hsound.core
    have htracked : Tracked blake3 s ledger := ⟨hsound.gens, hcore, hsound.followed⟩
    refine (htracked.finishDigest fun bytes hbytes => ?_).sound
    obtain ⟨hlinked, hcontent⟩ := hsound.followed serial bytes hbytes
    rw [(hcore.latest serial g row hlatest (hlinked g row hlatest)).1, hcontent]
  · exact hforget

/-- **Releasing a reference keeps the invariant.** -/
theorem Sound.release (hsound : Sound blake3 s) (h : s.release blake3 serial kind = some s') :
    Sound blake3 s' := by
  have hgens := hsound.gens
  rw [Overlay.release, Option.map_eq_some_iff] at h
  obtain ⟨refs, _, rfl⟩ := h
  have hrefs : Sound blake3 { s with custody := Function.update s.custody serial refs } :=
    hsound.of_rows rfl rfl rfl rfl rfl rfl rfl rfl (fun _ hlive => hlive)
      (hgens.of_eq rfl rfl rfl rfl rfl le_rfl hgens.readers hgens.orphans hgens.retiring)
  dsimp only
  split_ifs
  · exact hrefs.digestClosed
  · exact hrefs

theorem Sound.retain (hsound : Sound blake3 s) : Sound blake3 (s.retain serial kind) := by
  have hgens := hsound.gens
  exact hsound.of_rows rfl rfl rfl rfl rfl rfl rfl rfl (fun _ hlive => hlive)
    (hgens.of_eq rfl rfl rfl rfl rfl le_rfl hgens.readers hgens.orphans hgens.retiring)

end Overlay

end Digests

end LayerFs
