import LayerFs.Cdc.Chunks

/-!
# Chunks of a common tail

Where a chunk ends, the chunker is a new one fed the bytes it holds. So the chunks behind a boundary
depend on no byte before it.

* `scanAll_local` — **two inputs have the same chunks in a common tail** both have a boundary before.
-/

namespace LayerFs

open List

namespace Scanner

variable {scanner : Scanner} {bytes chunk : List UInt8} {later before tail : List (List UInt8)}

/-- What a chunker hands out over some bytes up to their end. -/
def cut (scanner : Scanner) (bytes : List UInt8) : List (List UInt8) :=
  (feed scanner bytes).2 ++ finish (feed scanner bytes).1

theorem cut_append {a b : List UInt8} :
    cut scanner (a ++ b) = (feed scanner a).2 ++ cut (feed scanner a).1 b := by
  rw [cut, cut, feed_append, append_assoc]

/-- **The chunks of an input are its bytes**, and none is empty or too long. -/
theorem cut_exact : (cut new bytes).flatten = bytes ∧
    ∀ chunk ∈ cut new bytes, 0 < chunk.length ∧ chunk.length ≤ maximumChunkBytes := by
  obtain ⟨htile, hbounds⟩ := @feed_tiles bytes _ new_ready
  have hleft := length_held_lt (@feed_ready bytes _ new_ready)
  have hsized : ∀ chunk ∈ (feed new bytes).2, 0 < chunk.length ∧
      chunk.length ≤ maximumChunkBytes := fun chunk hchunk =>
    ⟨lt_of_lt_of_le (by decide) (hbounds chunk hchunk).1, (hbounds chunk hchunk).2⟩
  rw [cut, finish_eq, flatten_append]
  split_ifs with hnone
  · rw [hnone, append_nil] at htile
    rw [flatten_nil, append_nil]
    exact ⟨htile, forall_mem_append.mpr ⟨hsized, forall_mem_nil _⟩⟩
  · rw [flatten_singleton]
    exact ⟨htile, forall_mem_append.mpr ⟨hsized, forall_mem_singleton.mpr
      ⟨length_pos_of_ne_nil hnone, hleft⟩⟩⟩

/-- **A byte ends no chunk, or leaves a new chunker** fed what is held. -/
theorem step_restarts {byte : UInt8} (h : Ready scanner) : (step scanner byte).2 = [] ∨
    ∃ chunk, (step scanner byte).2 = [chunk] ∧
      feed new (held (step scanner byte).1) = ((step scanner byte).1, []) := by
  obtain ⟨chunk, pending, hash⟩ := scanner
  rcases pending with _ | first
  · rw [step]
    dsimp only
    split_ifs
    · exact .inl rfl
    · exact .inl rfl
  · obtain ⟨-, hpair⟩ | ⟨-, -, hpair⟩ | ⟨-, -, hpair⟩ :=
      @processPendingPair_cases ⟨chunk, none, hash⟩ first byte rfl (h.pending rfl)
    all_goals
      rw [show step ⟨chunk, some first, hash⟩ byte =
        processPendingPair ⟨chunk, none, hash⟩ first byte from rfl, hpair]
    · exact .inr ⟨_, rfl, rfl⟩
    · exact .inr ⟨_, rfl, rfl⟩
    · split_ifs
      · exact .inr ⟨_, rfl, rfl⟩
      · exact .inl rfl

theorem cut_restarts : ∀ {scanner : Scanner}, Ready scanner →
    cut scanner bytes = chunk :: later → later = cut new later.flatten := by
  induction bytes with
  | nil =>
    intro scanner _ hcut
    rw [cut, feed, finish_eq] at hcut
    split_ifs at hcut
    · cases hcut
    · cases hcut
      rfl
  | cons byte rest ih =>
    intro scanner h hcut
    rcases @step_restarts scanner byte h with hnone | ⟨out, hout, hheld⟩
    · rw [cut, feed, hnone] at hcut
      exact ih (step_ready h) hcut
    · have hlater : later = cut new (held (step scanner byte).1 ++ rest) := by
        rw [cut, feed, hout] at hcut
        rw [cut_append, hheld]
        exact (cons.inj hcut).2.symm
      rw [hlater, cut_exact.1]

theorem cut_tail : ∀ {bytes : List UInt8}, cut new bytes = before ++ tail →
    tail = cut new tail.flatten := by
  induction before with
  | nil =>
    rintro bytes rfl
    rw [cut_exact.1]
  | cons chunk rest ih => exact fun h => ih (cut_restarts new_ready h).symm

/-- **Two inputs have the same chunks in a common tail** both have a boundary before, whatever the
bytes before it and however they are read. -/
theorem scanAll_local {windows others before' tail' : List (List UInt8)}
    (h : scanAll windows = before ++ tail) (h' : scanAll others = before' ++ tail')
    (hsame : tail.flatten = tail'.flatten) : tail = tail' := by
  rw [scanAll, consumeAll_eq_feed new_ready] at h h'
  rw [cut_tail h, cut_tail h', hsame]

theorem scanAll_zeros (repeats : ℕ) (windows : List (List UInt8)) :
    scanAll (zeroBytes (maximumChunkBytes * repeats) :: windows) =
      replicate repeats (zeroBytes maximumChunkBytes) ++ scanAll windows := by
  rw [scanAll, scanAll, consumeAll_eq_feed new_ready, consumeAll_eq_feed new_ready, flatten_cons,
    feed_append, show new = zeroState 0 from rfl, feed_zeroState_periods (by decide), append_assoc]

/-- One zero chunk before the tail, and two of them. -/
theorem scanAll_local_pair : ∃ tail tail',
    scanAll [zeroBytes (maximumChunkBytes * 1), [1], [2, 3]] =
      replicate 1 (zeroBytes maximumChunkBytes) ++ tail ∧
    scanAll [zeroBytes (maximumChunkBytes * 2), [1, 2], [3]] =
      replicate 2 (zeroBytes maximumChunkBytes) ++ tail' ∧
    tail.flatten = [1, 2, 3] ∧ tail = tail' :=
  ⟨_, _, scanAll_zeros 1 _, scanAll_zeros 2 _, by decide,
    scanAll_local (scanAll_zeros 1 _) (scanAll_zeros 2 _) (by decide)⟩

end Scanner

end LayerFs
