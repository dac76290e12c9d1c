import LayerFs.Digests.Jobs

/-!
# The digests of a captured generation

* `captured_digest_exact` — **a captured digest is the hash of exactly the captured bytes**, in
  every state of every orderly run.
-/

namespace LayerFs

namespace Digests

namespace Overlay

variable {Digest : Type} {blake3 : List UInt8 → Digest} {s s' : Overlay Digest}

/-! ## Orderly runs -/

/-- Whether no row and no pin of a serial carries the number the next job writes. -/
def unused (s : Overlay Digest) (serial : ℕ) : Bool :=
  (s.rows.entries.all fun entry =>
    !(entry.1.1 == serial && entry.2.sequence == s.revision + 1)) &&
    (s.pins serial).all fun pin => pin.sequence != s.revision + 1

/-- Whether a row is not the latest of its serial, or the last one left. -/
def outlived (s : Overlay Digest) (serial g : ℕ) : Bool :=
  (s.rows.entries.any fun entry => entry.1.1 == serial && g < entry.1.2) ||
    s.rows.entries.all fun entry => !(entry.1.1 == serial && entry.1.2 < g)

/-- A step under which a content sequence goes on standing for one content: a job writes a number
its serials do not carry yet; the latest row of a serial goes after the older ones; a captured row
that is still linked keeps its payload. -/
def orderly (s : Overlay Digest) : Action → Bool
  | .job changes => changes.inodes.all fun inode => s.unused inode.serial
  | .retireGeneration serial g none => s.outlived serial g
  | .retireLayer serial g none => !s.superseded serial g || s.outlived serial g
  | .retireLayer serial g (some _) =>
    s.captured != some g || (s.row serial g).all fun row => row.nlink == 0
  | _ => true

theorem unused_of_unused {serial : ℕ} (h : s.unused serial = true) :
    s.Unused serial (s.revision + 1) := by
  rw [unused, Bool.and_eq_true, List.all_eq_true] at h
  refine ⟨fun g row hrow hsequence => ?_, fun pin hpin => ?_⟩
  · have := h.1 ((serial, g), row) (AssocMap.mem_entries_iff.mpr hrow)
    simp [hsequence] at this
  · have := h.2
    rw [hpin] at this
    simpa using this

theorem outlived_spec {serial g : ℕ} (h : s.outlived serial g = true) :
    s.LaterRow serial g ∨ ∀ k < g, s.row serial k = none := by
  rw [outlived, Bool.or_eq_true, List.any_eq_true, List.all_eq_true] at h
  rcases h with ⟨⟨⟨serial', k⟩, row⟩, hentry, hlater⟩ | hlower
  · simp only [Bool.and_eq_true, beq_iff_eq, decide_eq_true_eq] at hlater
    obtain ⟨rfl, hk⟩ := hlater
    refine .inl ⟨k, hk, ?_⟩
    rw [show s.row serial' k = some row from AssocMap.mem_entries_iff.mp hentry]
    rfl
  · refine .inr fun k hk => ?_
    rcases hrow : s.row serial k with _ | row
    · rfl
    · have := hlower ((serial, k), row) (AssocMap.mem_entries_iff.mpr hrow)
      simp [hk] at this

/-- **One orderly step keeps the invariant.** -/
theorem Sound.step {action : Action} (hsound : Sound blake3 s)
    (hpromised : s.promised action = true) (horderly : s.orderly action = true)
    (h : s.step blake3 action = some s') : Sound blake3 s' := by
  cases action with
  | job changes =>
    rw [Overlay.step, Overlay.apply] at h
    split_ifs at h with hallowed
    simp only [Bool.and_eq_true] at hallowed
    obtain rfl := Option.some.inj h
    refine hsound.applyChecked hallowed.1.1.1 hpromised fun inode hmem => ?_
    exact unused_of_unused (List.all_eq_true.mp horderly inode hmem)
  | keepLive reader serial => exact hsound.keepLiveRow h
  | retain serial kind =>
    rw [Overlay.step] at h
    split_ifs at h
    obtain rfl := Option.some.inj h
    exact hsound.retain
  | release serial kind => exact hsound.release h
  | capture => exact hsound.capture h
  | acquireReader => exact hsound.acquireReader h
  | releaseReader reader => exact hsound.releaseReader h
  | install => exact hsound.install h
  | resolveFailedCapture => exact hsound.resolveFailedCapture h
  | close =>
    obtain rfl := Option.some.inj h
    have hgens := hsound.gens
    exact hsound.of_rows rfl rfl rfl rfl rfl rfl rfl rfl (fun _ hlive => hlive)
      (hgens.of_eq rfl rfl rfl rfl rfl le_rfl hgens.readers hgens.orphans hgens.retiring)
  | fold serial moved => exact hsound.foldNamespace h
  | foldFinish => exact hsound.foldFinish h
  | retireGeneration serial g left =>
    refine hsound.retireGeneration h fun hleft => ?_
    subst hleft
    exact outlived_spec horderly
  | retireLayer serial g left =>
    refine hsound.retireLayer h (fun hleft hcaptured row hrow => ?_) fun hleft hsuperseded => ?_
    · obtain ⟨left, rfl⟩ := Option.ne_none_iff_exists'.mp hleft
      rw [orderly, hcaptured, hrow] at horderly
      simpa using horderly
    · subst hleft
      rw [orderly, hsuperseded] at horderly
      exact outlived_spec horderly
  | migrateOrphan serial left => exact hsound.migrateOrphan h
  | reclaimOrphan serial => exact hsound.reclaimOrphan h

theorem sound_start {base : ℕ → List UInt8} : Sound blake3 (start base) where
  gens := by
    refine ⟨Nat.zero_lt_one, ?_, ?_, ?_, ?_, ?_, ?_, ?_, ?_⟩
    · intro g h
      cases h
    · intro g h
      cases h
    · intro serial g row h
      cases h
    · intro reader h
      cases h
    · intro serial g row h
      cases h
    · intro g serial h
      cases h
    · intro serial orphan h
      cases h
    · intro serial g h
      cases h
  core := by
    have hlatest : ∀ serial, (start base : Overlay Digest).latest serial = none :=
      fun serial => newest_eq_none.mpr fun _ _ _ => rfl
    refine ⟨fun _ _ => none, ⟨?_, ?_, ?_, ?_, ?_, ?_, ?_⟩⟩
    · intro serial q bytes h
      cases h
    · intro serial bytes h
      cases h
    · intro serial g row _ h
      cases h
    · intro serial g row h
      rw [hlatest] at h
      cases h
    · intro serial g row h
      rw [hlatest] at h
      cases h
    · intro serial pin h
      cases h
    · intro slot h
      cases h
  followed := by
    intro serial bytes h
    cases h

/-- The rule of the runs considered: the Workspace keeps its promises and steps are orderly. -/
def lawful (s : Overlay Digest) (action : Action) : Bool := s.promised action && s.orderly action

/-- **Every lawful run keeps the invariant.** -/
theorem sound_of_run {actions : List Action} (hsound : Sound blake3 s)
    (h : run blake3 lawful actions s = some s') : Sound blake3 s' := by
  induction actions generalizing s with
  | nil =>
    obtain rfl := Option.some.inj h
    exact hsound
  | cons action rest ih =>
    rw [run] at h
    split_ifs at h with hlawful
    obtain ⟨next, hnext, hrest⟩ := Option.bind_eq_some_iff.mp h
    rw [lawful, Bool.and_eq_true] at hlawful
    exact ih (hsound.step hlawful.1 hlawful.2 hnext) hrest

theorem sound_of_reaches {base : ℕ → List UInt8} (h : Reaches blake3 lawful base s) :
    Sound blake3 s := by
  obtain ⟨actions, hrun⟩ := h
  exact sound_of_run sound_start hrun

/-! ## Captured digests -/

/-- Every digest that `captured_digests` returns describes its captured row: its length is the
row's size and, where the file can be read, it is the hash of exactly the captured bytes. -/
def DigestsExact (blake3 : List UInt8 → Digest) (s : Overlay Digest) : Prop :=
  ∀ reader serials found, s.capturedDigests reader serials = some found →
    ∀ serial captured, (serial, some captured) ∈ serials.zip found →
      ∃ row, s.row serial reader.generation = some row ∧ captured.length = row.size ∧
        ∀ bytes, s.readCaptured reader serial = some bytes →
          captured.digest = blake3 bytes ∧ captured.length = bytes.length

theorem capturedDigest_spec {reader : Reader} {serial : ℕ} {captured : CapturedDigest Digest}
    (h : s.capturedDigest reader serial = some captured) :
    ∃ row pin, s.row serial reader.generation = some row ∧ s.pins serial = some pin ∧
      pin.sequence = row.sequence ∧ pin.length = row.size ∧
      captured = ⟨pin.digest, pin.length⟩ := by
  rw [capturedDigest] at h
  split_ifs at h
  obtain ⟨row, hrow, h⟩ := Option.bind_eq_some_iff.mp h
  obtain ⟨pin, hpin, h⟩ := Option.bind_eq_some_iff.mp h
  split_ifs at h with hsame
  exact ⟨row, pin, hrow, hpin, hsame.1, hsame.2, (Option.some.inj h).symm⟩

theorem mem_zip_map {f : ℕ → Option (CapturedDigest Digest)} {serials : List ℕ} {serial : ℕ}
    {captured : Option (CapturedDigest Digest)}
    (h : (serial, captured) ∈ serials.zip (serials.map f)) : f serial = captured := by
  rw [List.zip_map_right, List.mem_map] at h
  obtain ⟨⟨a, b⟩, hpair, heq⟩ := h
  rw [Prod.map_apply, Prod.mk.injEq] at heq
  have hsame : a = b := by
    rw [List.zip_eq_zipWith, List.zipWith_self, List.mem_map] at hpair
    obtain ⟨c, _, hc⟩ := hpair
    rw [Prod.mk.injEq] at hc
    exact hc.1.symm.trans hc.2
  rw [← heq.1, hsame]
  exact heq.2

theorem Sound.digestsExact (hsound : Sound blake3 s) : DigestsExact blake3 s := by
  intro reader serials found hfound serial captured hmem
  rw [capturedDigests] at hfound
  split_ifs at hfound with hheld
  obtain rfl := Option.some.inj hfound
  obtain ⟨row, pin, hrow, hpin, hsequence, hlength, rfl⟩ :=
    capturedDigest_spec (mem_zip_map hmem)
  refine ⟨row, hrow, hlength, fun bytes hbytes => ?_⟩
  have htop : newest (s.row serial) reader.installed reader.generation =
      some (reader.generation, row) := newest_top (hsound.gens.readers reader hheld.1).1 hrow
  rw [readCaptured, htop, Option.bind_some] at hbytes
  split_ifs at hbytes with hfile
  obtain rfl := Option.some.inj hbytes
  obtain ⟨ledger, hcore⟩ := hsound.core
  -- the row is readable, so its number stands for its bytes; the pin's number stands for its hash
  have hlive := hcore.live serial reader.generation row (.inr (.inr ⟨reader, hheld.1, rfl⟩)) hrow
    hfile.2
  obtain ⟨pinned, hledger, hdigest, _⟩ := hcore.pins serial pin hpin
  rw [hsequence, hlive] at hledger
  obtain rfl := Option.some.inj hledger
  exact ⟨hdigest, hlength⟩

/-- **In every state of every lawful run, captured digests are exact.** -/
theorem captured_digest_exact {base : ℕ → List UInt8} (h : Reaches blake3 lawful base s) :
    DigestsExact blake3 s :=
  (sound_of_reaches h).digestsExact

/-! ## The number used twice -/

def blake3OfSamples (bytes : List UInt8) : List UInt8 :=
  if bytes = [] then
    [175, 19, 73, 185, 245, 249, 161, 166, 160, 64, 77, 234, 54, 220, 201, 73, 155, 203, 37, 201,
      173, 193, 18, 183, 204, 154, 147, 202, 228, 31, 50, 98]
  else if bytes = [65] then
    [50, 104, 75, 250, 40, 192, 200, 77, 111, 33, 5, 17, 170, 206, 14, 252, 81, 113, 199, 136,
      145, 72, 186, 137, 32, 141, 90, 162, 151, 5, 250, 152]
  else if bytes = [66] then
    [159, 149, 36, 202, 24, 192, 204, 3, 174, 241, 160, 184, 79, 174, 217, 55, 94, 93, 25, 87, 94,
      147, 40, 230, 95, 234, 114, 153, 31, 15, 88, 207]
  else []

def sampleFile (size : ℕ) : Inode := ⟨5, .regularFile, 1, size, 0, 1⟩

/-- A file is created and `A` written to it; its generation is captured. -/
def writtenOnce : List Action := [
  .job { inodes := [sampleFile 0], entries := 1, created := some 5 },
  .job { inodes := [sampleFile 1], write := some ⟨5, 0, [65]⟩ },
  .capture, .acquireReader]

theorem captured_digest_exact_writtenOnce :
    ∃ s : Overlay (List UInt8), Reaches blake3OfSamples lawful (fun _ => []) s ∧
      s.capturedDigests ⟨1, 0⟩ [5] = some [some ⟨blake3OfSamples [65], 1⟩] ∧
      DigestsExact blake3OfSamples s := by
  have hrun : (run blake3OfSamples lawful writtenOnce (start fun _ => [])).map
      (fun s => s.capturedDigests ⟨1, 0⟩ [5]) =
        some (some [some ⟨blake3OfSamples [65], 1⟩]) := by decide +kernel
  obtain ⟨s, hs, hfound⟩ := Option.map_eq_some_iff.mp hrun
  exact ⟨s, ⟨writtenOnce, hs⟩, hfound, captured_digest_exact ⟨writtenOnce, hs⟩⟩

/-- A file is created, opened and `A` written to it; the capture of its generation fails and is
folded, which puts a row under the next number; the last close pins the digest of `A` to it; then
`B` is written over `A` under the same number, and captured. -/
def writtenOverFold : List Action := [
  .job { inodes := [sampleFile 0], entries := 1, created := some 5 },
  .retain 5 .file,
  .job { inodes := [sampleFile 1], opened := some 5, write := some ⟨5, 0, [65]⟩ },
  .capture, .resolveFailedCapture, .fold 5 none, .foldFinish,
  .release 5 .file,
  .job { inodes := [sampleFile 1], write := some ⟨5, 0, [66]⟩ },
  .capture, .acquireReader]

/-- **A stale digest is served**: the Workspace keeps its promises, and the captured digest of the
file is that of `A` while its captured bytes are `B`. -/
theorem captured_digest_stale :
    ¬ ∀ s : Overlay (List UInt8), Reaches blake3OfSamples promised (fun _ => []) s →
      DigestsExact blake3OfSamples s := by
  intro h
  have hdigest : (run blake3OfSamples promised writtenOverFold (start fun _ => [])).map
      (fun s => s.capturedDigests ⟨2, 0⟩ [5]) =
        some (some [some ⟨blake3OfSamples [65], 1⟩]) := by decide +kernel
  have hread : (run blake3OfSamples promised writtenOverFold (start fun _ => [])).map
      (fun s => s.readCaptured ⟨2, 0⟩ 5) = some (some [66]) := by decide +kernel
  obtain ⟨s, hs, hfound⟩ := Option.map_eq_some_iff.mp hdigest
  rw [hs, Option.map_some] at hread
  obtain ⟨row, _, _, hexact⟩ := h s ⟨writtenOverFold, hs⟩ ⟨2, 0⟩ [5] _ hfound 5 _
    List.mem_cons_self
  have hsame := (hexact [66] (Option.some.inj hread)).1
  revert hsame
  decide +kernel

end Overlay

end Digests

end LayerFs
