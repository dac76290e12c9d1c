import LayerFs.Cdc.Zeros

/-!
# The chunks of an input

However an input is cut into windows, the chunker hands out the same chunks: they tile it, and each
but a shorter last one has a length between the minimum and the maximum. A hole is handed out as its
zeros would be.

* `scan_exact` — **the chunks of every input, under every cut into windows, and of every hole**.
-/

namespace LayerFs

open List

namespace Scanner

def consumeAll : Scanner → List (List UInt8) → Emission
  | scanner, [] => (scanner, [])
  | scanner, window :: rest =>
    after (consume scanner window).2 (consumeAll (consume scanner window).1 rest)

def scanAll (windows : List (List UInt8)) : List (List UInt8) :=
  (consumeAll new windows).2 ++ finish (consumeAll new windows).1

def held (scanner : Scanner) : List UInt8 := scanner.chunk ++ scanner.pending.toList

def Bounded (chunk : List UInt8) : Prop :=
  minimumChunkBytes ≤ chunk.length ∧ chunk.length ≤ maximumChunkBytes

/-! ## Tiling -/

theorem step_tiles {scanner : Scanner} {byte : UInt8} (h : Ready scanner) :
    (step scanner byte).2.flatten ++ held (step scanner byte).1 = held scanner ++ [byte] ∧
      ∀ chunk ∈ (step scanner byte).2, Bounded chunk := by
  obtain ⟨chunk, pending, hash⟩ := scanner
  have hbounded : chunk.length < maximumChunkBytes := h.bounded
  rcases pending with _ | first
  · rw [step]
    dsimp only
    split_ifs
    · simp [held]
    · simp [held]
  · have hlong : minimumChunkBytes ≤ chunk.length := h.pending rfl
    obtain ⟨-, hpair⟩ | ⟨-, -, hpair⟩ | ⟨-, -, hpair⟩ :=
      @processPendingPair_cases ⟨chunk, none, hash⟩ first byte rfl hlong
    all_goals
      rw [show step ⟨chunk, some first, hash⟩ byte =
        processPendingPair ⟨chunk, none, hash⟩ first byte from rfl, hpair]
    · refine ⟨by simp [held], fun out hout => ?_⟩
      rw [mem_singleton.mp hout]
      exact ⟨hlong, hbounded.le⟩
    · refine ⟨by simp [held], fun out hout => ?_⟩
      rw [mem_singleton.mp hout, Bounded, length_append, length_singleton]
      exact ⟨hlong.trans (Nat.le_succ _), hbounded⟩
    · dsimp only
      split_ifs with hfull
      · refine ⟨by simp [held, new], fun out hout => ?_⟩
        rw [mem_singleton.mp hout, Bounded, length_append]
        exact ⟨hlong.trans (Nat.le_add_right _ _), hfull.le⟩
      · simp [held]

/-- **What is handed out and what is held is what was fed.** -/
theorem feed_tiles {bytes : List UInt8} : ∀ {scanner : Scanner}, Ready scanner →
    (feed scanner bytes).2.flatten ++ held (feed scanner bytes).1 = held scanner ++ bytes ∧
      ∀ chunk ∈ (feed scanner bytes).2, Bounded chunk := by
  induction bytes with
  | nil =>
    intro scanner _
    simp [feed]
  | cons byte rest ih =>
    intro scanner h
    obtain ⟨htile, hbounds⟩ := @step_tiles scanner byte h
    obtain ⟨hrest, hlater⟩ := ih (@step_ready scanner byte h)
    rw [feed]
    refine ⟨?_, fun chunk hchunk => ?_⟩
    · rw [flatten_append, append_assoc, hrest, ← append_assoc, htile,
        append_assoc]
      rfl
    · rcases mem_append.mp hchunk with hchunk | hchunk
      · exact hbounds chunk hchunk
      · exact hlater chunk hchunk

/-- **Windows do not matter**: all of them are one. -/
theorem consumeAll_eq_feed {windows : List (List UInt8)} : ∀ {scanner : Scanner}, Ready scanner →
    consumeAll scanner windows = feed scanner windows.flatten := by
  induction windows with
  | nil =>
    intro scanner _
    rfl
  | cons window rest ih =>
    intro scanner h
    rw [consumeAll, ih (consume_ready h), consume_eq_feed h, flatten_cons, feed_append]
    rfl

theorem finish_eq (scanner : Scanner) :
    finish scanner = if held scanner = [] then [] else [held scanner] := by
  rw [finish, emit, held]
  dsimp only
  by_cases hempty : scanner.chunk ++ scanner.pending.toList = []
  · rw [if_pos hempty, if_pos (List.isEmpty_iff.mpr hempty)]
  · rw [if_neg hempty, if_neg (fun h => hempty (List.isEmpty_iff.mp h))]

theorem length_held_lt {scanner : Scanner} (h : Ready scanner) :
    (held scanner).length ≤ maximumChunkBytes := by
  have hbounded := h.bounded
  rw [held, length_append]
  rcases scanner.pending with _ | byte
  · exact hbounded.le
  · exact hbounded

/-! ## Every input -/

/-- The chunkers windows and holes lead to. -/
inductive Reached : Scanner → Prop
  | new : Reached new
  | consume {scanner : Scanner} (h : Reached scanner) {bytes : List UInt8} (hbytes : bytes ≠ []) :
      Reached (consume scanner bytes).1
  | zeros {scanner : Scanner} (h : Reached scanner) {length : ℕ} (hlength : 0 < length) :
      Reached (zeros scanner length).1

theorem Reached.ready {scanner : Scanner} (h : Reached scanner) : Ready scanner := by
  induction h with
  | new => exact new_ready
  | consume _ _ ih => exact consume_ready ih
  | @zeros scanner _ length _ ih =>
    have heq := congrArg Prod.fst (@zeros_eq_feed scanner length ih)
    exact heq ▸ feed_ready ih

/-- **The chunks of an input**: under every cut into windows they are the same, they tile it, and
each but a shorter last one has a length between the minimum and the maximum. **A hole** is handed
out as its zeros would be, and leaves the chunker where they would. -/
theorem scan_exact :
    (∀ windows others : List (List UInt8), (∀ window ∈ windows, window ≠ []) →
      (∀ window ∈ others, window ≠ []) → windows.flatten = others.flatten →
      scanAll windows = scanAll others) ∧
    (∀ windows : List (List UInt8), (∀ window ∈ windows, window ≠ []) →
      (scanAll windows).flatten = windows.flatten ∧
      (∀ chunk ∈ (scanAll windows).dropLast, Bounded chunk) ∧
      ∀ chunk ∈ scanAll windows, 0 < chunk.length ∧ chunk.length ≤ maximumChunkBytes) ∧
    ∀ scanner, Reached scanner → ∀ length,
      ((zeros scanner length).1, Repeated.expand (zeros scanner length).2) =
        consume scanner (zeroBytes length) := by
  refine ⟨fun windows others _ _ hsame => ?_, fun windows _ => ?_, fun scanner h length => ?_⟩
  · rw [scanAll, scanAll, consumeAll_eq_feed new_ready, consumeAll_eq_feed new_ready, hsame]
  · obtain ⟨htile, hbounds⟩ := @feed_tiles windows.flatten _ new_ready
    have hleft := length_held_lt (@feed_ready windows.flatten _ new_ready)
    rw [scanAll, consumeAll_eq_feed new_ready, finish_eq]
    generalize feed new windows.flatten = run at htile hbounds hleft ⊢
    have hpositive : 0 < minimumChunkBytes := by decide
    split_ifs with hnone
    · rw [hnone, append_nil] at htile
      rw [append_nil]
      refine ⟨htile, fun chunk hchunk => hbounds chunk (mem_of_mem_dropLast hchunk),
        fun chunk hchunk => ?_⟩
      obtain ⟨hlow, hhigh⟩ := hbounds chunk hchunk
      exact ⟨lt_of_lt_of_le hpositive hlow, hhigh⟩
    · rw [dropLast_concat]
      refine ⟨?_, hbounds, fun chunk hchunk => ?_⟩
      · rw [flatten_append, flatten_singleton]
        exact htile
      · rcases mem_append.mp hchunk with hchunk | hchunk
        · obtain ⟨hlow, hhigh⟩ := hbounds chunk hchunk
          exact ⟨lt_of_lt_of_le hpositive hlow, hhigh⟩
        · rw [mem_singleton.mp hchunk]
          exact ⟨length_pos_of_ne_nil hnone, hleft⟩
  · rw [zeros_eq_feed h.ready, consume_eq_feed h.ready]

/-- Two windows of a byte each, and one of both. -/
theorem scan_exact_pair : scanAll [[1], [2]] = scanAll [[1, 2]] ∧
    (zeros (consume new [1]).1 3).1 = (consume (consume new [1]).1 (zeroBytes 3)).1 := by
  obtain ⟨hwindows, -, hzeros⟩ := scan_exact
  refine ⟨hwindows _ _ (by decide) (by decide) rfl, ?_⟩
  have hreached : Reached (consume new [1]).1 := .consume .new (cons_ne_nil 1 [])
  exact congrArg Prod.fst (hzeros _ hreached 3)

end Scanner

end LayerFs
