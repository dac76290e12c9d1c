import LayerFs.Cdc.Gear

/-!
# Zero runs in the chunker

A hole of the input is not scanned byte by byte (`file/cdc/zeros.rs`): its first maximum chunk is,
the whole chunks behind it are handed out as one repeated zero chunk, and its last bytes are
scanned again.

* `feed_zeros_clean` — **one maximum chunk washes the past out**: behind it the chunker is in a zero
  state, whatever it was in before.
-/

namespace LayerFs

open List

variable {scanner : Scanner} {count length more pairs repeats : ℕ}

abbrev Repeated := List UInt8 × ℕ

namespace Repeated

def expand (out : List Repeated) : List (List UInt8) :=
  out.flatMap fun repeated => List.replicate repeated.2 repeated.1

def once (out : List (List UInt8)) : List Repeated := out.map fun chunk => (chunk, 1)

@[simp]
theorem expand_append {a b : List Repeated} : expand (a ++ b) = expand a ++ expand b :=
  flatMap_append

@[simp]
theorem expand_once {out : List (List UInt8)} : expand (once out) = out := by
  rw [expand, once, flatMap_map]
  exact flatMap_singleton' out

end Repeated

def zeroBytes (count : ℕ) : List UInt8 := List.replicate count 0

namespace Scanner

def zeroChunks (repeats : ℕ) : List Repeated :=
  if repeats = 0 then [] else [(zeroBytes maximumChunkBytes, repeats)]

/-- `zeros`: one hole of the input. -/
def zeros (scanner : Scanner) (length : ℕ) : Scanner × List Repeated :=
  let head := consume scanner (zeroBytes (min length maximumChunkBytes))
  let remaining := length - min length maximumChunkBytes
  let interior := zeroChunks (remaining / maximumChunkBytes)
  if remaining % maximumChunkBytes = 0 then (head.1, Repeated.once head.2 ++ interior)
  else
    let tail := consume head.1 (zeroBytes (remaining % maximumChunkBytes))
    (tail.1, Repeated.once head.2 ++ interior ++ Repeated.once tail.2)

/-! ## The zero orbit -/

def zeroHash : ℕ → UInt64
  | 0 => profileSeed
  | pairs + 1 => rollSecond (rollFirst (zeroHash pairs) 0) 0

def zeroState (count : ℕ) : Scanner :=
  if count ≤ minimumChunkBytes then ⟨zeroBytes count, none, profileSeed⟩
  else
    let pairs := (count - minimumChunkBytes) / 2
    if (count - minimumChunkBytes) % 2 = 0 then
      ⟨zeroBytes (minimumChunkBytes + 2 * pairs), none, zeroHash pairs⟩
    else ⟨zeroBytes (minimumChunkBytes + 2 * pairs), some 0, zeroHash pairs⟩

def Passes (masks : Masks) (hash : UInt64) : Prop :=
  rollFirst hash 0 &&& masks.shifted ≠ 0 ∧
    rollSecond (rollFirst hash 0) 0 &&& masks.plain ≠ 0

instance {masks : Masks} {hash : UInt64} : Decidable (Passes masks hash) :=
  inferInstanceAs (Decidable (_ ∧ _))

def settledHash : UInt64 := 0 - gear 0

theorem zeroHash_settled : zeroHash 32 = settledHash := by decide +kernel

theorem settledHash_fixed : rollSecond (rollFirst settledHash 0) 0 = settledHash := by
  decide +kernel

theorem zeroHash_of_le (h : 32 ≤ pairs) : zeroHash pairs = settledHash := by
  induction pairs, h using Nat.le_induction with
  | base => exact zeroHash_settled
  | succ pairs _ ih => rw [zeroHash, ih, settledHash_fixed]

theorem zeroHash_passes (pairs : ℕ) :
    Passes (masksAt (minimumChunkBytes + 2 * pairs)) (zeroHash pairs) := by
  rcases Nat.lt_or_ge pairs 32 with hfew | hmany
  · have hmasks : masksAt (minimumChunkBytes + 2 * pairs) = smallMasks :=
      if_pos (by rw [minimumChunkBytes, targetChunkBytes]; omega)
    rw [hmasks]
    have hall : ∀ i : Fin 32, Passes smallMasks (zeroHash i) := by decide +kernel
    exact hall ⟨pairs, hfew⟩
  · rw [zeroHash_of_le hmany, masksAt]
    split_ifs
    · decide +kernel
    · decide +kernel

@[simp]
theorem length_zeroBytes : (zeroBytes count).length = count := length_replicate

theorem zeroBytes_append {a b : ℕ} : zeroBytes a ++ zeroBytes b = zeroBytes (a + b) :=
  replicate_append_replicate

theorem zeroState_pairs : zeroState (minimumChunkBytes + 2 * pairs) =
    ⟨zeroBytes (minimumChunkBytes + 2 * pairs), none, zeroHash pairs⟩ := by
  rw [zeroState]
  split_ifs with hhead heven
  · obtain rfl : pairs = 0 := by omega
    rfl
  · rw [show (minimumChunkBytes + 2 * pairs - minimumChunkBytes) / 2 = pairs by omega]
  · exact absurd (by omega) heven

theorem zeroState_pairs_succ : zeroState (minimumChunkBytes + 2 * pairs + 1) =
    ⟨zeroBytes (minimumChunkBytes + 2 * pairs), some 0, zeroHash pairs⟩ := by
  rw [zeroState, if_neg (by omega)]
  dsimp only
  rw [if_neg (by omega), show (minimumChunkBytes + 2 * pairs + 1 - minimumChunkBytes) / 2 = pairs
    by omega]

/-- **A zero moves along the orbit**, which a full chunk closes. -/
theorem step_zeroState (h : count < maximumChunkBytes) : step (zeroState count) 0 =
    if count + 1 = maximumChunkBytes then (new, [zeroBytes maximumChunkBytes])
    else (zeroState (count + 1), []) := by
  have hmin := show minimumChunkBytes = 8192 from rfl
  have hmax := show maximumChunkBytes = 32768 from rfl
  rcases Nat.lt_or_ge count minimumChunkBytes with hhead | hlong
  · rw [if_neg (by omega), zeroState, if_pos (by omega), zeroState, if_pos (by omega), step]
    dsimp only
    rw [if_pos (by simpa using hhead), show ([0] : List UInt8) = zeroBytes 1 from rfl,
      zeroBytes_append]
  obtain ⟨pairs, rfl | rfl⟩ : ∃ pairs, count = minimumChunkBytes + 2 * pairs ∨
      count = minimumChunkBytes + 2 * pairs + 1 := ⟨(count - minimumChunkBytes) / 2, by omega⟩
  · rw [if_neg (by omega), zeroState_pairs, zeroState_pairs_succ, step]
    dsimp only
    rw [if_neg (by simp)]
  · rw [zeroState_pairs_succ, step]
    dsimp only
    obtain ⟨hfirst, hsecond⟩ := zeroHash_passes pairs
    have hpair := @processPendingPair_cases
      ⟨zeroBytes (minimumChunkBytes + 2 * pairs), none, zeroHash pairs⟩ 0 0 rfl (by simp)
    dsimp only at hpair
    rw [length_zeroBytes] at hpair
    rcases hpair with ⟨hzero, -⟩ | ⟨-, hzero, -⟩ | ⟨-, -, hpair⟩
    · exact absurd hzero hfirst
    · exact absurd hzero hsecond
    · rw [hpair, show ([0, 0] : List UInt8) = zeroBytes 2 from rfl, zeroBytes_append,
        show minimumChunkBytes + 2 * pairs + 1 + 1 = minimumChunkBytes + 2 * (pairs + 1) by omega,
        zeroState_pairs]
      split_ifs with hfull
      · rw [hfull]
      · rfl

theorem feed_zeroBytes_succ :
    feed scanner (zeroBytes (count + 1)) =
      after (step scanner 0).2 (feed (step scanner 0).1 (zeroBytes count)) := by
  rw [zeroBytes, replicate_succ, feed]
  rfl

theorem feed_zeroState : ∀ {count : ℕ}, count + more < maximumChunkBytes →
    feed (zeroState count) (zeroBytes more) = (zeroState (count + more), []) := by
  induction more with
  | zero => exact fun _ => rfl
  | succ more ih =>
    intro count h
    rw [feed_zeroBytes_succ, step_zeroState (by omega), if_neg (by omega), ih (by omega),
      show count + 1 + more = count + (more + 1) by omega]
    rfl

/-- **The orbit's period**: a maximum chunk of zeros hands out one full zero chunk and leaves the
chunker where it was. -/
theorem feed_zeroState_period (h : count < maximumChunkBytes) :
    feed (zeroState count) (zeroBytes maximumChunkBytes) =
      (zeroState count, [zeroBytes maximumChunkBytes]) := by
  obtain ⟨left, hleft⟩ : ∃ left, maximumChunkBytes = count + left + 1 :=
    ⟨maximumChunkBytes - count - 1, by omega⟩
  have hsplit : zeroBytes maximumChunkBytes = zeroBytes left ++ zeroBytes (count + 1) := by
    rw [zeroBytes_append, hleft]
    congr 1
    omega
  have hnew : new = zeroState 0 := rfl
  rw [hsplit, feed_append, feed_zeroState (by omega)]
  dsimp only
  rw [feed_zeroBytes_succ, step_zeroState (by omega), if_pos (by omega), hnew,
    feed_zeroState (by omega), Nat.zero_add, ← hsplit]
  rfl

theorem feed_zeroState_periods (h : count < maximumChunkBytes) :
    feed (zeroState count) (zeroBytes (maximumChunkBytes * repeats)) =
      (zeroState count, List.replicate repeats (zeroBytes maximumChunkBytes)) := by
  induction repeats with
  | zero => rfl
  | succ repeats ih =>
    rw [Nat.mul_succ, Nat.add_comm, ← zeroBytes_append, feed_append, feed_zeroState_period h]
    dsimp only
    rw [ih, replicate_succ]
    rfl

/-! ## What one maximum chunk washes out -/

def span (scanner : Scanner) : ℕ := scanner.chunk.length + scanner.pending.toList.length

/-- Behind a number of zeros: on the zero orbit, or still holding more bytes than these. -/
def Washed (count : ℕ) (scanner : Scanner) : Prop :=
  (∃ k < maximumChunkBytes, scanner = zeroState k) ∨
    count < span scanner ∧ (0 < count → ∀ byte ∈ scanner.pending, byte = 0)

theorem zeroState_washed {k : ℕ} (h : k < maximumChunkBytes) : Washed count (zeroState k) :=
  .inl ⟨k, h, rfl⟩

theorem step_washed (hready : Ready scanner) (h : Washed count scanner) :
    Washed (count + 1) (step scanner 0).1 := by
  have hmin := show minimumChunkBytes = 8192 from rfl
  have hmax := show maximumChunkBytes = 32768 from rfl
  rcases h with ⟨k, hk, rfl⟩ | ⟨hspan, hzero⟩
  · rw [step_zeroState hk]
    split_ifs with hfull
    · exact zeroState_washed (show 0 < maximumChunkBytes by omega)
    · exact zeroState_washed (by omega)
  obtain ⟨chunk, pending, hash⟩ := scanner
  rw [span] at hspan
  rcases pending with _ | first
  · rw [step]
    dsimp only at hspan ⊢
    split_ifs with hshort
    · refine .inr ⟨?_, fun _ byte hbyte => (by cases hbyte)⟩
      rw [span]
      simp only [length_append, length_singleton, Option.toList_none, length_nil]
        at hspan ⊢
      omega
    · refine .inr ⟨?_, fun _ byte hbyte => ?_⟩
      · rw [span]
        simp only [Option.toList_none, length_nil, Option.toList_some, length_singleton]
          at hspan ⊢
        omega
      · exact (Option.mem_some_iff.mp hbyte).symm
  · have hlong := hready.pending rfl
    rw [step]
    dsimp only at hspan hlong ⊢
    simp only [Option.toList_some, length_singleton] at hspan
    obtain ⟨-, hpair⟩ | ⟨-, -, hpair⟩ | ⟨-, -, hpair⟩ :=
      @processPendingPair_cases ⟨chunk, none, hash⟩ first 0 rfl hlong
    · rw [hpair]
      -- The pair starts a chunk: its first byte is a zero of the run, unless the run starts here.
      rcases Nat.eq_zero_or_pos count with rfl | hsome
      · exact .inr ⟨by rw [span]; simp, fun _ byte hbyte => (by cases hbyte)⟩
      · obtain rfl : first = 0 := hzero hsome first rfl
        exact zeroState_washed (show 2 < maximumChunkBytes by omega)
    · rw [hpair]
      exact zeroState_washed (show 1 < maximumChunkBytes by omega)
    · rw [hpair]
      split_ifs
      · exact zeroState_washed (show 0 < maximumChunkBytes by omega)
      · refine .inr ⟨?_, fun _ byte hbyte => (by cases hbyte)⟩
        rw [span]
        simp only [length_append, length_cons, length_nil, Option.toList_none]
        omega

theorem feed_washed : ∀ {count : ℕ} {scanner : Scanner}, Ready scanner →
    Washed count scanner → Washed (count + more) (feed scanner (zeroBytes more)).1 := by
  induction more with
  | zero => exact fun _ h => h
  | succ more ih =>
    intro count scanner hready h
    rw [feed_zeroBytes_succ, show count + (more + 1) = count + 1 + more by omega]
    exact ih (step_ready hready) (step_washed hready h)

/-- **One maximum chunk washes the past out.** -/
theorem feed_zeros_clean (h : Ready scanner) :
    ∃ k < maximumChunkBytes, (feed scanner (zeroBytes maximumChunkBytes)).1 = zeroState k := by
  have hmax := show maximumChunkBytes = 32768 from rfl
  have hstart : Washed 0 scanner := by
    by_cases hsome : 0 < span scanner
    · exact .inr ⟨hsome, fun h => absurd h (Nat.lt_irrefl 0)⟩
    · obtain ⟨chunk, pending, hash⟩ := scanner
      rw [span] at hsome
      dsimp only at hsome
      obtain rfl : chunk = [] := length_eq_zero_iff.mp (by omega)
      obtain rfl : pending = none := by
        cases pending with
        | none => rfl
        | some byte => simp at hsome
      obtain rfl : hash = profileSeed := h.seed (show 0 < 8192 by decide)
      exact zeroState_washed (show 0 < maximumChunkBytes by omega)
  have hend := @feed_washed maximumChunkBytes 0 scanner h hstart
  rw [Nat.zero_add] at hend
  rcases hend with hclean | ⟨hspan, -⟩
  · exact hclean
  · have hready := @feed_ready (zeroBytes maximumChunkBytes) scanner h
    generalize (feed scanner (zeroBytes maximumChunkBytes)).1 = last at hspan hready
    have hbounded := hready.bounded
    have heven := hready.even
    have hpending := hready.pending
    obtain ⟨chunk, pending, hash⟩ := last
    rw [span] at hspan
    dsimp only at hspan hbounded heven hpending
    rcases pending with _ | byte
    · simp only [Option.toList_none, length_nil] at hspan
      omega
    · have := heven (hpending rfl)
      simp only [Option.toList_some, length_singleton] at hspan
      omega

theorem expand_zeroChunks :
    Repeated.expand (zeroChunks repeats) = List.replicate repeats (zeroBytes maximumChunkBytes) := by
  rw [zeroChunks]
  split_ifs with hnone
  · rw [hnone, replicate_zero]
    rfl
  · rw [Repeated.expand, flatMap_cons, flatMap_nil, append_nil]

theorem zeros_eq {maximum : ℕ} (h : Ready scanner) (hmaximum : maximumChunkBytes = maximum) :
    ((zeros scanner length).1, Repeated.expand (zeros scanner length).2) =
      after ((feed scanner (zeroBytes (min length maximum))).2 ++
          List.replicate ((length - min length maximum) / maximum) (zeroBytes maximum))
        (feed (feed scanner (zeroBytes (min length maximum))).1
          (zeroBytes ((length - min length maximum) % maximum))) := by
  have hready : Ready (feed scanner (zeroBytes (min length maximum))).1 := feed_ready h
  rw [zeros, hmaximum, consume_eq_feed h]
  generalize feed scanner (zeroBytes (min length maximum)) = head at hready ⊢
  generalize length - min length maximum = remaining
  dsimp only
  by_cases hnone : remaining % maximum = 0
  · rw [if_pos hnone, hnone, Repeated.expand_append, Repeated.expand_once, expand_zeroChunks,
      hmaximum, show zeroBytes 0 = [] from rfl, feed, after, append_nil]
  · rw [if_neg hnone, consume_eq_feed hready, Repeated.expand_append, Repeated.expand_append,
      Repeated.expand_once, Repeated.expand_once, expand_zeroChunks, hmaximum, after]

/-- **A zero run is its zeros, one by one.** -/
theorem zeros_eq_feed (h : Ready scanner) :
    ((zeros scanner length).1, Repeated.expand (zeros scanner length).2) =
      feed scanner (zeroBytes length) := by
  obtain ⟨maximum, hmaximum⟩ : ∃ maximum, maximumChunkBytes = maximum := ⟨_, rfl⟩
  rw [zeros_eq h hmaximum]
  rcases le_or_gt length maximum with hshort | hlong
  · -- The run is its own head.
    rw [Nat.min_eq_left hshort, Nat.sub_self, Nat.zero_mod, Nat.zero_div, replicate_zero,
      append_nil, show zeroBytes 0 = [] from rfl, feed, after, append_nil]
  · obtain ⟨k, hk, hclean⟩ := feed_zeros_clean h
    have hperiods := @feed_zeroState_periods k ((length - maximum) / maximum) hk
    rw [hmaximum] at hclean hperiods
    have hsplit : zeroBytes length = zeroBytes maximum ++
        (zeroBytes (maximum * ((length - maximum) / maximum)) ++
          zeroBytes ((length - maximum) % maximum)) := by
      rw [zeroBytes_append, Nat.div_add_mod, zeroBytes_append, Nat.add_sub_cancel' hlong.le]
    rw [Nat.min_eq_right hlong.le, hsplit, feed_append, feed_append, hclean, hperiods, after,
      append_assoc]

end Scanner

end LayerFs
