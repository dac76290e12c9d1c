import LayerFs.Digests.Pinned

/-!
# A compound job keeps the invariant

* `Sound.applyChecked` — **a job whose number is unused keeps the invariant**.
-/

namespace LayerFs

open List

namespace Digests

variable {Digest : Type} {blake3 : List UInt8 → Digest} {changes : Changes} {serial : ℕ}
  {inode : Inode}

/-! ## What the checks before the transaction give -/

namespace Changes

theorem nodup_of_check (h : changes.check = true) : (changes.inodes.map Inode.serial).Nodup := by
  simp only [check, Bool.and_eq_true, decide_eq_true_eq] at h
  exact h.1.1.2

theorem cell_of_check (h : changes.check = true) {cell : ℕ × List UInt8}
    (hcell : changes.cell = some cell) : ∃ inode ∈ changes.inodes, inode.serial = cell.1 := by
  simp only [check, Bool.and_eq_true, hcell, Option.all_some, any_eq_true, beq_iff_eq] at h
  exact h.1.2

theorem write_of_check (h : changes.check = true) {write : Write}
    (hwrite : changes.write = some write) :
    write.data ≠ [] ∧ ∃ inode ∈ changes.inodes, inode.serial = write.serial ∧
      write.offset + write.data.length ≤ inode.size := by
  simp only [check, Bool.and_eq_true, hwrite, Option.all_some, checkWrite, Bool.not_eq_true',
    Option.any_eq_true, decide_eq_true_eq] at h
  obtain ⟨_, ⟨hdata, _⟩, inode, hfind, hfits⟩ := h
  refine ⟨fun hnil => ?_, inode, mem_of_find?_eq_some hfind, ?_, hfits⟩
  · rw [hnil] at hdata
    cases hdata
  · have := find?_some hfind
    simp only [Bool.and_eq_true, beq_iff_eq] at this
    exact this.1

theorem inode?_spec (h : changes.inode? serial = some inode) :
    inode ∈ changes.inodes ∧ inode.serial = serial :=
  ⟨mem_of_find?_eq_some h, by simpa using find?_some h⟩

theorem inode?_of_mem (h : (changes.inodes.map Inode.serial).Nodup) (hmem : inode ∈ changes.inodes) :
    changes.inode? inode.serial = some inode := by
  rcases hfind : changes.inode? inode.serial with _ | found
  · have := find?_eq_none.mp hfind inode hmem
    simp at this
  · obtain ⟨hfound, hserial⟩ := inode?_spec hfind
    rw [inj_on_of_nodup_map h hfound hmem hserial]

theorem inode?_eq_none (h : changes.inode? serial = none) :
    ∀ inode ∈ changes.inodes, inode.serial ≠ serial := by
  intro inode hmem
  simpa using find?_eq_none.mp h inode hmem

end Changes

namespace Overlay

variable {s : Overlay Digest} {ledger : Ledger} {q : ℕ}

/-! ## The rows of a job -/

def jobRows (s : Overlay Digest) (changes : Changes) : ℕ → Option Row := fun serial =>
  (changes.inode? serial).bind fun inode =>
    if s.orphanDomain changes inode then none else some (s.putInodeDomain changes inode)

theorem jobRows_eq_some {row : Row} (h : s.jobRows changes serial = some row) :
    ∃ inode ∈ changes.inodes, inode.serial = serial ∧ row = s.putInodeDomain changes inode := by
  rw [jobRows, Option.bind_eq_some_iff] at h
  obtain ⟨inode, hinode, h⟩ := h
  obtain ⟨hmem, hserial⟩ := Changes.inode?_spec hinode
  split_ifs at h
  exact ⟨inode, hmem, hserial, (Option.some.inj h).symm⟩

theorem jobRows_linked (hinode : changes.inode? serial = some inode) (hnlink : inode.nlink ≠ 0) :
    s.jobRows changes serial = some (s.putInodeDomain changes inode) := by
  rw [jobRows, hinode, Option.bind_some, if_neg]
  simp [orphanDomain, hnlink]

theorem nodup_keys (h : (changes.inodes.map Inode.serial).Nodup) :
    (changes.inodes.map fun inode => (inode.serial, s.active)).Nodup := by
  have hkeys := h.map (fun a b (hab : (a, s.active) = (b, s.active)) => (Prod.mk.inj hab).1)
  rw [map_map] at hkeys
  exact hkeys

theorem nodup_written (h : (changes.inodes.map Inode.serial).Nodup) :
    ((s.written changes).map Prod.fst).Nodup := by
  rw [written, map_map]
  exact (nodup_keys h).sublist (filter_sublist.map _)

theorem lookup_written (h : (changes.inodes.map Inode.serial).Nodup) {g : ℕ} :
    (AssocMap.empty.insertAll (s.written changes)).get? (serial, g) =
      if g = s.active then s.jobRows changes serial else none := by
  rw [AssocMap.get?_insertAll_of_nodup (nodup_written h), written,
    AssocMap.lookup_map_filter (nodup_keys h), AssocMap.get?_empty, Option.or_none]
  by_cases hg : g = s.active
  · subst hg
    rw [if_pos rfl, jobRows, Changes.inode?]
    have hsame : (fun inode : Inode => decide ((inode.serial, s.active) = (serial, s.active))) =
        fun inode => inode.serial == serial := by
      funext inode
      rw [Bool.eq_iff_iff, decide_eq_true_eq, beq_iff_eq, Prod.mk.injEq, and_iff_left rfl]
    rw [hsame]
    refine congrArg _ (funext fun inode => ?_)
    rcases s.orphanDomain changes inode <;> rfl
  · rw [if_neg hg, find?_eq_none.mpr, Option.bind_none]
    intro inode _ heq
    exact hg (Prod.mk.inj (of_decide_eq_true heq)).2.symm

theorem promised_spec (h : s.promised (.job changes) = true) (hmem : inode ∈ changes.inodes) :
    (inode.nlink ≠ 0 → ∀ d row, s.current inode.serial = some (d, row) → row.nlink ≠ 0) ∧
      (s.current inode.serial = none → inode.inherited = (s.base inode.serial).length) ∧
      (changes.created = some inode.serial → ∀ g, s.row inode.serial g = none) := by
  have hspec := all_eq_true.mp h inode hmem
  simp only [Bool.and_eq_true, Bool.or_eq_true, beq_iff_eq, bne_iff_ne, all_eq_true] at hspec
  obtain ⟨⟨hlinked, hinherited⟩, hcreated⟩ := hspec
  refine ⟨fun hnlink d row hcurrent => ?_, fun hnone => ?_, fun hreserved g => ?_⟩
  · have := (hlinked.resolve_left hnlink).2
    rw [hcurrent] at this
    simpa using this
  · rw [hnone] at hinherited
    simpa using hinherited
  · rcases hrow : s.row inode.serial g with _ | row
    · rfl
    · have := hcreated.resolve_left (fun hne => hne hreserved) ((inode.serial, g), row)
        (AssocMap.mem_entries_iff.mpr hrow)
      exact absurd rfl this

/-- **The rows of a job are put over the active generation.** -/
theorem puts_job (hnodup : (changes.inodes.map Inode.serial).Nodup)
    (hpromised : s.promised (.job changes) = true) :
    Puts s (s.putInodes changes).rows (s.jobRows changes) where
  get := by
    intro serial g
    have hlookup := @lookup_written _ changes serial s hnodup g
    rw [AssocMap.get?_insertAll_of_nodup (nodup_written hnodup), AssocMap.get?_empty,
      Option.or_none] at hlookup
    rw [putInodes, AssocMap.get?_insertAll_of_nodup (nodup_written hnodup), hlookup]
    split_ifs <;> rfl
  sequence := by
    intro serial row hrow
    obtain ⟨inode, _, _, rfl⟩ := jobRows_eq_some hrow
    rfl
  removed := by
    intro serial row d old hrow hcurrent hdead
    obtain ⟨inode, hmem, rfl, rfl⟩ := jobRows_eq_some hrow
    by_contra hnlink
    exact (promised_spec hpromised hmem).1 hnlink d old hcurrent hdead

theorem inherited_eq_content (hgens : Gens s) (hpromised : s.promised (.job changes) = true)
    (hmem : inode ∈ changes.inodes) : s.inherited changes inode = s.content inode.serial := by
  obtain ⟨_, hinherited, hcreated⟩ := promised_spec hpromised hmem
  rw [inherited]
  rcases hactive : s.row inode.serial s.active with _ | row
  · dsimp only
    have hbase : s.current inode.serial = none →
        (s.base inode.serial).take inode.inherited = s.content inode.serial := by
      intro hnone
      rw [content_of_inherited hnone, hinherited hnone, take_length]
    split_ifs with hreserved
    · have hnone : s.current inode.serial = none :=
        newest_eq_none.mpr fun g _ _ => hcreated hreserved g
      rw [content_of_inherited hnone]
      exact (hbase hnone).trans (content_of_inherited hnone)
    · rcases hcurrent : s.current inode.serial with _ | ⟨d, row⟩
      · exact hbase hcurrent
      · exact (content_of_current hcurrent).symm
  · exact (content_of_current (newest_top hgens.installed_lt hactive)).symm

/-! ## What a job removed -/

/-- What detaching one removed inode does: it changes nothing but orphans and queued retirements,
each of its serial at the active generation. -/
structure Detached (inode : Inode) (s later : Overlay Digest) : Prop where
  eq : later = { s with orphans := later.orphans, retiring := later.retiring }
  orphans : ∀ serial orphan, later.orphans serial = some orphan → s.orphans serial = some orphan ∨
    (orphan.top = s.active ∧ s.orphans serial = none ∧ inode.serial = serial ∧ inode.nlink = 0)
  kept : ∀ serial, later.orphans serial = none → s.orphans serial = none
  retiring : ∀ serial g, later.retiring serial g = true → s.retiring serial g = true ∨
    (g = s.active ∧ s.orphans serial = none ∧ inode.serial = serial ∧ inode.nlink = 0)

theorem Detached.refl (inode : Inode) (s : Overlay Digest) : Detached inode s s :=
  ⟨rfl, fun _ _ h => .inl h, fun _ h => h, fun _ _ h => .inl h⟩

theorem detachOrphan_detached (inode : Inode) : Detached inode s (s.detachOrphan inode) := by
  rw [detachOrphan]
  split_ifs with hkept hfree
  · exact .refl inode s
  · rw [not_or, not_not, Bool.not_eq_true, Option.isSome_eq_false_iff,
      Option.isNone_iff_eq_none] at hkept
    refine ⟨rfl, fun _ _ h => .inl h, fun _ h => h, fun serial g h => ?_⟩
    rw [Bool.or_eq_true, Bool.and_eq_true, beq_iff_eq, beq_iff_eq] at h
    rcases h with ⟨rfl, rfl⟩ | h
    · exact .inr ⟨rfl, hkept.2, rfl, hkept.1⟩
    · exact .inl h
  · rw [not_or, not_not, Bool.not_eq_true, Option.isSome_eq_false_iff,
      Option.isNone_iff_eq_none] at hkept
    refine ⟨rfl, fun serial orphan h => ?_, fun serial h => ?_, fun _ _ h => .inl h⟩
    · dsimp only at h
      by_cases hserial : serial = inode.serial
      · subst hserial
        rw [Function.update_self] at h
        obtain rfl := Option.some.inj h
        exact .inr ⟨rfl, hkept.2, rfl, hkept.1⟩
      · rw [Function.update_of_ne hserial] at h
        exact .inl h
    · dsimp only at h
      by_cases hserial : serial = inode.serial
      · subst hserial
        exact hkept.2
      · rw [Function.update_of_ne hserial] at h
        exact h

/-- Detaching changes nothing but orphans and queued retirements, each of a removed serial at the
active generation. -/
theorem detachOrphans_spec {inodes : List Inode} {p : Inode → Prop} [DecidablePred p] :
    ∃ orphans retiring,
      inodes.foldl (fun s inode => if p inode then s.detachOrphan inode else s) s =
        { s with orphans := orphans, retiring := retiring } ∧
      (∀ serial orphan, orphans serial = some orphan → s.orphans serial = some orphan ∨
        (orphan.top = s.active ∧ s.orphans serial = none ∧
          ∃ inode ∈ inodes, inode.serial = serial ∧ inode.nlink = 0)) ∧
      ∀ serial g, retiring serial g = true → s.retiring serial g = true ∨
        (g = s.active ∧ s.orphans serial = none ∧
          ∃ inode ∈ inodes, inode.serial = serial ∧ inode.nlink = 0) := by
  induction inodes generalizing s with
  | nil => exact ⟨s.orphans, s.retiring, rfl, fun _ _ h => .inl h, fun _ _ h => .inl h⟩
  | cons inode rest ih =>
    rw [foldl_cons]
    have hstep : Detached inode s (if p inode then s.detachOrphan inode else s) := by
      split_ifs
      · exact detachOrphan_detached inode
      · exact .refl inode s
    generalize (if p inode then s.detachOrphan inode else s) = later at hstep ⊢
    obtain ⟨heq, horphans, hkept, hretiring⟩ := hstep
    have hactive : later.active = s.active := by rw [heq]
    obtain ⟨orphans', retiring', heq', horphans', hretiring'⟩ := @ih later
    rw [hactive] at horphans' hretiring'
    refine ⟨orphans', retiring', heq'.trans (by rw [heq]), fun serial orphan h => ?_,
      fun serial g h => ?_⟩
    · rcases horphans' serial orphan h with h | ⟨htop, hnone, other, hother, hserial, hnlink⟩
      · refine (horphans serial orphan h).imp id ?_
        rintro ⟨htop, hnone, hserial, hnlink⟩
        exact ⟨htop, hnone, inode, mem_cons_self, hserial, hnlink⟩
      · exact .inr ⟨htop, hkept serial hnone, other, mem_cons_of_mem _ hother, hserial, hnlink⟩
    · rcases hretiring' serial g h with h | ⟨hg, hnone, other, hother, hserial, hnlink⟩
      · refine (hretiring serial g h).imp id ?_
        rintro ⟨hg, hnone, hserial, hnlink⟩
        exact ⟨hg, hnone, inode, mem_cons_self, hserial, hnlink⟩
      · exact .inr ⟨hg, hkept serial hnone, other, mem_cons_of_mem _ hother, hserial, hnlink⟩

theorem detachOrphans_eq :
    ∃ orphans retiring, s.detachOrphans changes =
      { s with orphans := orphans, retiring := retiring } := by
  obtain ⟨orphans, retiring, heq, _⟩ := @detachOrphans_spec _ s changes.inodes
    (fun inode => inode.kind = .regularFile ∨ changes.detached = some inode.serial) _
  exact ⟨orphans, retiring, heq⟩

/-- **What a job removed is doomed.** -/
theorem gens_detachOrphans (hgens : Gens s)
    (hremoved : ∀ inode ∈ changes.inodes, inode.nlink = 0 → s.orphans inode.serial = none →
      s.Doomed inode.serial s.active) : Gens (s.detachOrphans changes) := by
  obtain ⟨orphans, retiring, heq, horphans, hretiring⟩ := @detachOrphans_spec _ s changes.inodes
    (fun inode => inode.kind = .regularFile ∨ changes.detached = some inode.serial) _
  rw [detachOrphans, heq]
  refine hgens.of_eq rfl rfl rfl rfl rfl le_rfl hgens.readers (fun serial orphan h => ?_)
    fun serial g h => ?_
  · rcases horphans serial orphan h with h | ⟨htop, hnone, inode, hmem, rfl, hnlink⟩
    · exact hgens.orphans serial orphan h
    · rw [htop]
      exact hremoved inode hmem hnlink hnone
  · rcases hretiring serial g h with h | ⟨rfl, hnone, inode, hmem, rfl, hnlink⟩
    · exact hgens.retiring serial g h
    · exact hremoved inode hmem hnlink hnone

/-! ## What a job leaves followed -/

theorem follow_other (hcheck : changes.check = true) (hnone : changes.inode? serial = none)
    {followed : Option (List UInt8)} : follow changes serial followed = followed := by
  have hother := Changes.inode?_eq_none hnone
  have hfresh : fresh changes serial = false := by
    rw [fresh, Bool.and_eq_false_iff]
    right
    rw [any_eq_false]
    intro inode hmem hsame
    simp only [Bool.and_eq_true, beq_iff_eq] at hsame
    exact hother inode hmem hsame.1.1
  have hcell : (changes.cell.any fun cell => cell.1 == serial) = false := by
    rcases hcell : changes.cell with _ | cell
    · rfl
    · obtain ⟨inode, hmem, hserial⟩ := Changes.cell_of_check hcheck hcell
      rw [Option.any_some, ← hserial]
      exact beq_false_of_ne (hother inode hmem)
  rw [follow, hnone]
  simp only [hfresh, hcell, Bool.false_eq_true, if_false]
  rcases hwrite : changes.write with _ | write
  · rfl
  · obtain ⟨_, inode, hmem, hserial, _⟩ := Changes.write_of_check hcheck hwrite
    dsimp only
    rw [if_neg]
    rw [← hserial]
    exact hother inode hmem

def followedFrom (changes : Changes) (serial : ℕ) (followed : Option (List UInt8)) :
    Option (List UInt8) :=
  if fresh changes serial then some [] else followed

/-- What a job leaves followed of a serial it changes: its cell is elsewhere, and its write, if
any, was an append. -/
theorem follow_eq_some (hinode : changes.inode? serial = some inode)
    {followed : Option (List UInt8)} {bytes : List UInt8}
    (h : follow changes serial followed = some bytes) :
    kept inode bytes = true ∧ (∀ cell, changes.cell = some cell → cell.1 ≠ serial) ∧
      ((∃ write, changes.write = some write ∧ write.serial = serial ∧ ∃ start,
          followedFrom changes serial followed = some start ∧ start.length = write.offset ∧
            bytes = start ++ write.data) ∨
        (∀ write, changes.write = some write → write.serial ≠ serial) ∧
          followedFrom changes serial followed = some bytes) := by
  rw [follow, hinode] at h
  simp only [Option.filter_eq_some_iff] at h
  obtain ⟨h, hkept⟩ := h
  by_cases hcell : (changes.cell.any fun cell => cell.1 == serial) = true
  · rw [if_pos hcell] at h
    rcases hwrite : changes.write with _ | write
    · rw [hwrite] at h
      cases h
    · rw [hwrite] at h
      dsimp only at h
      split_ifs at h
      cases h
  rw [if_neg hcell] at h
  refine ⟨hkept, fun cell hsome hserial => hcell ?_, ?_⟩
  · rw [hsome, Option.any_some]
    exact beq_iff_eq.mpr hserial
  rcases hwrite : changes.write with _ | write
  · rw [hwrite] at h
    exact .inr ⟨fun _ hsome => (by cases hsome), h⟩
  rw [hwrite] at h
  dsimp only at h
  by_cases hserial : write.serial = serial
  · rw [if_pos hserial, Option.bind_eq_some_iff] at h
    obtain ⟨start, hstart, h⟩ := h
    split_ifs at h with hlength
    exact .inl ⟨write, rfl, hserial, start, hstart, hlength, (Option.some.inj h).symm⟩
  · rw [if_neg hserial] at h
    refine .inr ⟨fun other hother => ?_, h⟩
    obtain rfl := Option.some.inj hother
    exact hserial

theorem written_of_no_cell (hcell : ∀ cell, changes.cell = some cell → cell.1 ≠ serial)
    {bytes : List UInt8} :
    changes.written serial bytes = match changes.write with
      | some write =>
        if write.serial = serial then overwrite bytes write.offset write.data else bytes
      | none => bytes := by
  rw [Changes.written]
  rcases hsome : changes.cell with _ | ⟨owner, after⟩
  · rfl
  · have howner : owner ≠ serial := hcell (owner, after) hsome
    cases changes.write with
    | none => exact if_neg howner
    | some write => simp only [if_neg howner]

/-- **The row of a followed file holds exactly the bytes its hash state took.** -/
theorem bytes_of_follow (hgens : Gens s) (hfollowed : Followed s) (hcheck : changes.check = true)
    (hpromised : s.promised (.job changes) = true) (hinode : changes.inode? serial = some inode)
    {bytes : List UInt8} (h : follow changes serial (s.digests serial) = some bytes) :
    inode.nlink = 1 ∧ (s.putInodeDomain changes inode).bytes = bytes := by
  obtain ⟨hmem, hserial⟩ := Changes.inode?_spec hinode
  obtain ⟨hkept, hcell, hbytes⟩ := follow_eq_some hinode h
  simp only [kept, Bool.and_eq_true, beq_iff_eq] at hkept
  refine ⟨hkept.1.2, ?_⟩
  change changes.written inode.serial (resize (s.inherited changes inode) inode.size) = bytes
  rw [inherited_eq_content hgens hpromised hmem, hserial, written_of_no_cell hcell, hkept.2]
  rcases hbytes with ⟨write, hwrite, hwritten, start, hstart, hlength, rfl⟩ | ⟨hwrite, hstart⟩
  · rw [hwrite]
    dsimp only
    rw [if_pos hwritten]
    have hnotfresh : fresh changes serial = false := by
      -- a file created empty has no room for the written bytes
      rw [← Bool.not_eq_true]
      intro hfresh
      rw [fresh, Bool.and_eq_true, any_eq_true] at hfresh
      obtain ⟨_, other, hother, hsame⟩ := hfresh
      simp only [Bool.and_eq_true, beq_iff_eq] at hsame
      have hfind := Changes.inode?_of_mem (Changes.nodup_of_check hcheck) hother
      rw [hsame.1.1, hinode] at hfind
      obtain rfl := Option.some.inj hfind
      have hdata := (Changes.write_of_check hcheck hwrite).1
      have hsize : (start ++ write.data).length = 0 := hkept.2.symm.trans hsame.2
      rw [length_eq_zero_iff, append_eq_nil_iff] at hsize
      exact hdata hsize.2
    rw [followedFrom, hnotfresh] at hstart
    rw [(hfollowed serial start hstart).2, length_append, ← hlength]
    exact overwrite_resize_append
  · have hno : ∀ content : List UInt8, (match changes.write with
        | some write =>
          if write.serial = serial then overwrite content write.offset write.data else content
        | none => content) = content := by
      intro content
      rcases hsome : changes.write with _ | write
      · rfl
      · exact if_neg (hwrite write hsome)
    rw [hno]
    rw [followedFrom] at hstart
    split_ifs at hstart with hfresh
    · obtain rfl := Option.some.inj hstart
      exact eq_nil_of_length_eq_zero length_resize
    · rw [(hfollowed serial bytes hstart).2, resize_length]

/-! ## The transaction -/

theorem exists_of_carried (h : serial ∈ s.carriedDigests changes) :
    ∃ inode ∈ changes.inodes, inode.serial = serial := by
  rw [carriedDigests] at h
  split_ifs at h
  · cases h
  · obtain ⟨inode, hinode, hserial⟩ := mem_map.mp h
    exact ⟨inode, (mem_filter.mp hinode).1, hserial⟩

/-- **A carried file reads under the job's number what it read before.** -/
theorem moves_carried (hgens : Gens s) (hcore : Core blake3 s ledger)
    (hnodup : (changes.inodes.map Inode.serial).Nodup)
    (hpromised : s.promised (.job changes) = true) (hmem : serial ∈ s.carriedDigests changes)
    (hunused : s.Unused serial (s.revision + 1)) {pin : Pin Digest} {bytes : List UInt8}
    (hpin : s.pins serial = some pin)
    (hledger : ledger.put (s.revision + 1) (s.jobRows changes) serial pin.sequence = some bytes) :
    ledger.put (s.revision + 1) (s.jobRows changes) serial (s.revision + 1) = some bytes := by
  rw [carriedDigests] at hmem
  split_ifs at hmem with htouched
  · cases hmem
  rw [not_or, Bool.not_eq_true, Bool.not_eq_true, Option.isSome_eq_false_iff,
    Option.isSome_eq_false_iff, Option.isNone_iff_eq_none, Option.isNone_iff_eq_none] at htouched
  obtain ⟨inode, hinode, rfl⟩ := mem_map.mp hmem
  obtain ⟨hinode, hcarries⟩ := mem_filter.mp hinode
  simp only [carries, Bool.and_eq_true, beq_iff_eq, Option.any_eq_true] at hcarries
  obtain ⟨⟨⟨_, hnlink⟩, _⟩, ⟨g, row⟩, hlatest, hsize, found, hfound, hsequence, _⟩ := hcarries
  rw [hpin] at hfound
  obtain rfl := Option.some.inj hfound
  rw [Ledger.put_ne (hunused.2 pin hpin), hsequence] at hledger
  obtain ⟨_, hcontent, hlength⟩ := hcore.content_of_latest hlatest hledger
  have hlinked : inode.nlink ≠ 0 := by
    rw [hnlink]
    exact one_ne_zero
  rw [Ledger.put_new (jobRows_linked (Changes.inode?_of_mem hnodup hinode) hlinked),
    if_neg (show (s.putInodeDomain changes inode).nlink ≠ 0 from hlinked)]
  change some (changes.written inode.serial (resize (s.inherited changes inode) inode.size)) = _
  rw [Changes.written, htouched.1, htouched.2]
  dsimp only
  rw [inherited_eq_content hgens hpromised hinode, hcontent, ← hsize, hlength, resize_length]

/-- **A job whose number is unused keeps the invariant.** -/
theorem Sound.applyChecked (hsound : Sound blake3 s) (hcheck : changes.check = true)
    (hpromised : s.promised (.job changes) = true)
    (hunused : ∀ inode ∈ changes.inodes, s.Unused inode.serial (s.revision + 1)) :
    Sound blake3 (s.applyChecked blake3 changes) := by
  obtain ⟨digests, hresumed⟩ := @resumeDigest_eq _ s changes
  have hsound₁ : Sound blake3 (s.resumeDigest changes) := hsound.resumeDigest
  rw [Overlay.applyChecked]
  -- from here on the state is the one whose file is followed again
  rw [hresumed] at hsound₁ ⊢
  generalize hs₁ : ({ s with digests := digests } : Overlay Digest) = s₁ at hsound₁ ⊢
  have hpromised₁ : s₁.promised (.job changes) = true := by
    rw [← hs₁]
    exact hpromised
  have hunused₁ : ∀ inode ∈ changes.inodes, s₁.Unused inode.serial (s₁.revision + 1) := by
    rw [← hs₁]
    exact hunused
  have hnodup := Changes.nodup_of_check hcheck
  have hgens₁ := hsound₁.gens
  obtain ⟨ledger, hcore₁⟩ := hsound₁.core
  have hputs := puts_job hnodup hpromised₁
  have hcore₂ := hputs.core hgens₁ hcore₁ fun serial row hrow => by
    obtain ⟨inode, hmem, rfl, _⟩ := jobRows_eq_some hrow
    exact .inl (hunused₁ inode hmem)
  have hgens₃ : Gens ((s₁.putInodes changes).detachOrphans changes) := by
    refine gens_detachOrphans (hputs.gens hgens₁) fun inode hmem hnlink hnone => ?_
    have hdomain : s₁.orphanDomain changes inode = false := by
      rw [orphanDomain, show s₁.orphans inode.serial = none from hnone]
      simp
    have hnew : s₁.jobRows changes inode.serial = some (s₁.putInodeDomain changes inode) := by
      rw [jobRows, Changes.inode?_of_mem hnodup hmem, Option.bind_some, hdomain]
      rfl
    exact .inr ⟨s₁.active, _, hputs.current_new hgens₁ hnew, le_rfl, hnlink⟩
  obtain ⟨orphans, retiring, hdetached⟩ := @detachOrphans_eq _ changes (s₁.putInodes changes)
  rw [hdetached] at hgens₃ ⊢
  rw [followDigests]
  dsimp only
  have htracked : Tracked blake3
      { s₁.putInodes changes with
        orphans := orphans, retiring := retiring,
        digests := fun serial => follow changes serial (s₁.digests serial) }
      (ledger.put (s₁.revision + 1) (s₁.jobRows changes)) := by
    refine ⟨hgens₃.of_eq rfl rfl rfl rfl rfl le_rfl hgens₃.readers hgens₃.orphans hgens₃.retiring,
      ⟨hcore₂.bound, hcore₂.next, hcore₂.live, hcore₂.latest, hcore₂.removed, hcore₂.pins,
        hcore₂.slot⟩, fun serial bytes hbytes => ?_⟩
    change follow changes serial (s₁.digests serial) = some bytes at hbytes
    rcases hinode : changes.inode? serial with _ | inode
    · have hnew : s₁.jobRows changes serial = none := by
        rw [jobRows, hinode]
        rfl
      rw [follow_other hcheck hinode] at hbytes
      obtain ⟨hlinked, hcontent⟩ := hsound₁.followed serial bytes hbytes
      exact ⟨(hputs.linked_old hnew).mpr hlinked, (hputs.content_old hnew).trans hcontent⟩
    · obtain ⟨hnlink, hrow⟩ :=
        bytes_of_follow hgens₁ hsound₁.followed hcheck hpromised₁ hinode hbytes
      have hlinked : inode.nlink ≠ 0 := by
        rw [hnlink]
        exact one_ne_zero
      have hnew := jobRows_linked (s := s₁) hinode hlinked
      exact ⟨linked_of_current (hputs.current_new hgens₁ hnew) hlinked,
        (hputs.content_new hgens₁ hnew).trans hrow⟩
  have hmoves : ∀ serial ∈ s₁.carriedDigests changes,
      Moves { s₁.putInodes changes with
        orphans := orphans, retiring := retiring,
        digests := fun serial => follow changes serial (s₁.digests serial) }
        (ledger.put (s₁.revision + 1) (s₁.jobRows changes)) serial (s₁.revision + 1) := by
    intro serial hmem pin bytes hpin hledger
    obtain ⟨inode, hinode, rfl⟩ := exists_of_carried hmem
    exact moves_carried hgens₁ hcore₁ hnodup hpromised₁ hmem (hunused₁ inode hinode) hpin hledger
  have hcarried := htracked.repinAll hmoves
  refine (hcarried.finishUnopened fun inode hmem bytes hbytes => ?_).sound.settle
  rw [digests_repinAll] at hbytes
  change follow changes inode.serial (s₁.digests inode.serial) = some bytes at hbytes
  have hinode := Changes.inode?_of_mem hnodup hmem
  obtain ⟨hnlink, hrow⟩ :=
    bytes_of_follow hgens₁ hsound₁.followed hcheck hpromised₁ hinode hbytes
  have hlinked : inode.nlink ≠ 0 := by
    rw [hnlink]
    exact one_ne_zero
  change ledger.put (s₁.revision + 1) (s₁.jobRows changes) inode.serial (s₁.revision + 1) = _
  rw [Ledger.put_new (jobRows_linked hinode hlinked),
    if_neg (show (s₁.putInodeDomain changes inode).nlink ≠ 0 from hlinked), hrow]

end Overlay

end Digests

end LayerFs
