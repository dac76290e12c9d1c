import LayerFs.Cdc.Chunks

/-!
# Candidate ends of chunks (`cut_candidates`)

A window of an input is searched for the places a chunk could end at, with a hash that starts at the
window and never again. The hash forgets a byte after 64 more, so behind 64 bytes it is the
chunker's own, and the masks it is tried with are part of those the chunker uses.

* `candidates_complete` — **every end the contents decide is reported**.
-/

namespace LayerFs

open List

variable {a b bytes : List UInt8} {n : ℕ}

/-! ## The hash behind pairs -/

def rollPairs : List UInt8 → UInt64 → UInt64
  | first :: second :: rest, hash => rollPairs rest (rollSecond (rollFirst hash first) second)
  | _, hash => hash

/-- The loop of `cut_candidates`. -/
def candidatesFrom : List UInt8 → UInt64 → ℕ → List ℕ
  | first :: second :: rest, hash, position =>
    let afterFirst := rollFirst hash first
    let afterSecond := rollSecond afterFirst second
    (if afterFirst &&& largeMasks.shifted = 0 then [position] else []) ++
      (if afterSecond &&& largeMasks.plain = 0 then [position + 1] else []) ++
        candidatesFrom rest afterSecond (position + 2)
  | _, _, _ => []

/-- `cut_candidates`: the positions of a window a chunk could end at. -/
def cutCandidates (bytes : List UInt8) : List ℕ := candidatesFrom bytes profileSeed 0

theorem shift_two (hash : UInt64) : hash <<< 2 = hash * 4 := by
  apply UInt64.toBitVec_inj.mp
  rw [UInt64.toBitVec_shiftLeft, UInt64.toBitVec_mul]
  exact BitVec.shiftLeft_eq_mul_twoPow _ 2

theorem rollPairs_append (ha : a.length = 2 * n) (hash : UInt64) :
    rollPairs (a ++ b) hash = rollPairs b (rollPairs a hash) := by
  induction n generalizing a hash with
  | zero =>
    cases length_eq_zero_iff.mp ha
    rfl
  | succ n ih =>
    rcases a with _ | ⟨first, _ | ⟨second, rest⟩⟩
    · simp at ha
    · simp only [length_cons, length_nil] at ha
      omega
    · simp only [length_cons] at ha
      exact @ih rest (by omega) _

theorem rollPairs_eq (hbytes : bytes.length = 2 * n) (hash : UInt64) :
    rollPairs bytes hash = hash * 4 ^ n + rollPairs bytes 0 := by
  induction n generalizing bytes hash with
  | zero =>
    cases length_eq_zero_iff.mp hbytes
    simp [rollPairs]
  | succ n ih =>
    rcases bytes with _ | ⟨first, _ | ⟨second, rest⟩⟩
    · simp at hbytes
    · simp only [length_cons, length_nil] at hbytes
      omega
    · simp only [length_cons] at hbytes
      rw [rollPairs, rollPairs, ih (by omega) (rollSecond (rollFirst hash first) second),
        ih (by omega) (rollSecond (rollFirst 0 first) second)]
      simp only [rollSecond, rollFirst, shift_two, UInt64.add_mul, UInt64.zero_mul,
        UInt64.zero_add, UInt64.pow_succ, UInt64.mul_assoc, UInt64.add_assoc]
      rw [UInt64.mul_comm 4]

/-- **A hash forgets what lies 64 bytes back.** -/
theorem rollPairs_forgets {a' : List UInt8} {n' m : ℕ} (ha : a.length = 2 * n)
    (ha' : a'.length = 2 * n') (hb : b.length = 2 * m) (hlong : 32 ≤ m) (hash hash' : UInt64) :
    rollPairs (a ++ b) hash = rollPairs (a' ++ b) hash' := by
  have hgone : (4 : UInt64) ^ m = 0 := by
    induction m, hlong using Nat.le_induction generalizing b with
    | base => decide
    | succ k _ ih =>
      rw [UInt64.pow_succ, @ih (b.take (2 * k)) (by rw [length_take]; omega), UInt64.zero_mul]
  rw [rollPairs_append ha, rollPairs_append ha', rollPairs_eq hb,
    rollPairs_eq hb (rollPairs a' hash'), hgone, UInt64.mul_zero, UInt64.mul_zero]

/-! ## Candidates -/

theorem mem_candidatesFrom {a rest : List UInt8} {first second : UInt8} {n : ℕ}
    (ha : a.length = 2 * n) (hash : UInt64) (position : ℕ) :
    (rollFirst (rollPairs a hash) first &&& largeMasks.shifted = 0 →
      position + a.length ∈ candidatesFrom (a ++ first :: second :: rest) hash position) ∧
    (rollSecond (rollFirst (rollPairs a hash) first) second &&& largeMasks.plain = 0 →
      position + a.length + 1 ∈ candidatesFrom (a ++ first :: second :: rest) hash position) := by
  induction n generalizing a hash position with
  | zero =>
    cases length_eq_zero_iff.mp ha
    refine ⟨fun h => ?_, fun h => ?_⟩
    · simp [candidatesFrom, rollPairs] at h ⊢
      simp [h]
    · simp [candidatesFrom, rollPairs] at h ⊢
      simp [h]
  | succ n ih =>
    rcases a with _ | ⟨x, _ | ⟨y, a⟩⟩
    · simp at ha
    · simp only [length_cons, length_nil] at ha
      omega
    · simp only [length_cons] at ha
      obtain ⟨hfirst, hsecond⟩ :=
        @ih a (by omega) (rollSecond (rollFirst hash x) y) (position + 2)
      have hlength : position + (x :: y :: a).length = position + 2 + a.length := by
        simp only [length_cons]
        omega
      rw [hlength]
      refine ⟨fun h => ?_, fun h => ?_⟩
      · exact mem_append_right _ (hfirst h)
      · exact mem_append_right _ (hsecond h)

theorem masks_subset {masks : Masks} (h : masks = smallMasks ∨ masks = largeMasks)
    {hash : UInt64} : (hash &&& masks.shifted = 0 → hash &&& largeMasks.shifted = 0) ∧
      (hash &&& masks.plain = 0 → hash &&& largeMasks.plain = 0) := by
  have hshifted : masks.shifted &&& largeMasks.shifted = largeMasks.shifted := by
    rcases h with rfl | rfl <;> decide
  have hplain : masks.plain &&& largeMasks.plain = largeMasks.plain := by
    rcases h with rfl | rfl <;> decide
  refine ⟨fun hzero => ?_, fun hzero => ?_⟩
  · rw [← hshifted, ← UInt64.and_assoc, hzero, UInt64.zero_and]
  · rw [← hplain, ← UInt64.and_assoc, hzero, UInt64.zero_and]

/-! ## Decided ends -/

/-- **How the contents end a chunk**: with what follows it, the hash behind its pairs and the first
byte of the next pair meets a mask, or that behind both bytes of a pair whose first byte is its
last. -/
def Decided (chunk rest : List UInt8) : Prop :=
  (chunk.length % 2 = 0 ∧ ∃ first second tail, rest = first :: second :: tail ∧
    rollFirst (rollPairs (chunk.drop minimumChunkBytes) profileSeed) first
      &&& (Scanner.masksAt chunk.length).shifted = 0) ∨
  ∃ front first second tail, chunk = front ++ [first] ∧ front.length % 2 = 0 ∧
    rest = second :: tail ∧
    rollSecond (rollFirst (rollPairs (front.drop minimumChunkBytes) profileSeed) first) second
      &&& (Scanner.masksAt front.length).plain = 0

namespace Scanner

/-- A chunker that holds some bytes of one chunk. -/
structure Holding (seen : List UInt8) (scanner : Scanner) : Prop where
  ready : Ready scanner
  held_eq : held scanner = seen
  hash_eq : scanner.hash = rollPairs (scanner.chunk.drop minimumChunkBytes) profileSeed

theorem holding_new : Holding [] new := ⟨new_ready, rfl, rfl⟩

theorem holding_short (hshort : bytes.length < minimumChunkBytes) :
    Holding bytes ⟨bytes, none, profileSeed⟩ := by
  have hmaximum : minimumChunkBytes ≤ maximumChunkBytes := by decide
  refine ⟨⟨lt_of_lt_of_le hshort hmaximum, fun h => absurd h (not_le.mpr hshort),
    fun h => absurd h (by simp), fun _ => rfl⟩, append_nil _, ?_⟩
  rw [show (Scanner.mk bytes none profileSeed).chunk = bytes from rfl,
    drop_eq_nil_of_le hshort.le]
  rfl

theorem step_holding {seen : List UInt8} {scanner : Scanner} {byte : UInt8}
    (h : Holding seen scanner) :
    (Holding (seen ++ [byte]) (step scanner byte).1 ∧ (step scanner byte).2 = []) ∨
    ∃ chunk seen', (step scanner byte).2 = [chunk] ∧ Holding seen' (step scanner byte).1 ∧
      chunk ++ seen' = seen ++ [byte] ∧ (chunk.length = maximumChunkBytes ∨
        ∀ rest, Decided chunk (seen' ++ rest)) := by
  obtain ⟨chunk, pending, hash⟩ := scanner
  have hready := h.ready
  have hhash : hash = rollPairs (chunk.drop minimumChunkBytes) profileSeed := h.hash_eq
  have hafter := @step_ready ⟨chunk, pending, hash⟩ byte hready
  have hseen := h.held_eq
  rcases pending with _ | first
  · have hseen : chunk = seen := by
      rw [← hseen]
      exact (append_nil chunk).symm
    subst hseen
    left
    rw [step] at hafter ⊢
    dsimp only at hafter ⊢
    split_ifs at hafter ⊢ with hshort
    · refine ⟨⟨hafter, append_nil _, ?_⟩, rfl⟩
      rw [hhash, drop_eq_nil_of_le (le_of_lt hshort)]
      dsimp only
      rw [drop_eq_nil_of_le]
      rw [length_append, length_singleton]
      exact hshort
    · exact ⟨⟨hafter, rfl, hhash⟩, rfl⟩
  · have hseen : chunk ++ [first] = seen := hseen
    subst hseen
    have hlong : minimumChunkBytes ≤ chunk.length := hready.pending rfl
    have heven : chunk.length % 2 = 0 := hready.even hlong
    have hstep : step ⟨chunk, some first, hash⟩ byte =
      processPendingPair ⟨chunk, none, hash⟩ first byte := rfl
    obtain ⟨hmask, hpair⟩ | ⟨-, hmask, hpair⟩ | ⟨-, -, hpair⟩ :=
      @processPendingPair_cases ⟨chunk, none, hash⟩ first byte rfl hlong
    · refine .inr ⟨chunk, [first, byte], ?_, ?_, ?_, .inr fun rest => .inl ?_⟩
      · rw [hstep, hpair]
      · rw [hstep, hpair]
        exact holding_short (show 2 < minimumChunkBytes by decide)
      · simp
      · exact ⟨heven, first, byte, rest, rfl, hhash ▸ hmask⟩
    · refine .inr ⟨chunk ++ [first], [byte], ?_, ?_, rfl, .inr fun rest => .inr ?_⟩
      · rw [hstep, hpair]
      · rw [hstep, hpair]
        exact holding_short (show 1 < minimumChunkBytes by decide)
      · exact ⟨chunk, first, byte, rest, rfl, heven, rfl, hhash ▸ hmask⟩
    · dsimp only at hpair
      rw [hstep] at hafter ⊢
      rw [hpair] at hafter ⊢
      split_ifs at hafter ⊢ with hfull
      · refine .inr ⟨chunk ++ [first, byte], [], rfl, holding_new, by simp, .inl ?_⟩
        rw [length_append]
        exact hfull
      · refine .inl ⟨⟨hafter, by simp [held], ?_⟩, rfl⟩
        have hpairs : (chunk.drop minimumChunkBytes).length =
            2 * ((chunk.length - minimumChunkBytes) / 2) := by
          rw [length_drop]
          have : minimumChunkBytes % 2 = 0 := by decide
          omega
        dsimp only
        rw [drop_append_of_le_length hlong, rollPairs_append hpairs, ← hhash]
        rfl

/-- **Each chunk that is handed out was ended by its contents, or is of the maximum length.** -/
theorem feed_decided {bytes : List UInt8} : ∀ {seen : List UInt8} {scanner : Scanner},
    Holding seen scanner → ∀ {before after : List (List UInt8)} {chunk : List UInt8},
      (feed scanner bytes).2 = before ++ chunk :: after → chunk.length < maximumChunkBytes →
      ∃ rest, seen ++ bytes = before.flatten ++ (chunk ++ rest) ∧ Decided chunk rest := by
  induction bytes with
  | nil =>
    intro seen scanner _ before after chunk hout _
    have hlength := congrArg List.length hout
    simp [feed] at hlength
  | cons byte bytes ih =>
    intro seen scanner h before after chunk hout hshort
    rw [feed] at hout
    dsimp only at hout
    rcases step_holding h with ⟨hholding, hnone⟩ | ⟨first, seen', hone, hholding, hsplit, hend⟩
    · rw [hnone, nil_append] at hout
      obtain ⟨rest, hrest, hdecided⟩ := ih hholding hout hshort
      exact ⟨rest, by rw [← hrest, append_assoc, singleton_append], hdecided⟩
    · rw [hone, singleton_append] at hout
      have htotal : seen ++ byte :: bytes = first ++ (seen' ++ bytes) := by
        rw [← append_assoc, hsplit, append_assoc, singleton_append]
      rcases before with _ | ⟨x, before⟩
      · obtain ⟨rfl, -⟩ := List.cons.inj hout
        refine ⟨seen' ++ bytes, htotal, ?_⟩
        rcases hend with hfull | hdecided
        · exact absurd hfull (Nat.ne_of_lt hshort)
        · exact hdecided bytes
      · obtain ⟨rfl, hlater⟩ := List.cons.inj hout
        obtain ⟨rest, hrest, hdecided⟩ := ih hholding hlater hshort
        refine ⟨rest, ?_, hdecided⟩
        rw [htotal, hrest, flatten_cons, append_assoc]

theorem feed_of_scanAll {windows before after : List (List UInt8)} {chunk : List UInt8}
    (hscan : scanAll windows = before ++ chunk :: after) (hafter : after ≠ []) :
    ∃ after', (feed new windows.flatten).2 = before ++ chunk :: after' := by
  rw [scanAll, consumeAll_eq_feed new_ready, finish_eq] at hscan
  split_ifs at hscan
  · rw [append_nil] at hscan
    exact ⟨after, hscan⟩
  · obtain rfl | ⟨front, last, rfl⟩ := eq_nil_or_concat after
    · exact absurd rfl hafter
    · have hcat : (feed new windows.flatten).2 ++ [held (feed new windows.flatten).1] =
          (before ++ chunk :: front) ++ [last] := by
        rw [hscan]
        simp
      exact ⟨front, (append_inj' hcat rfl).1⟩

end Scanner

/-! ## Completeness -/

theorem rollPairs_drop {bytes : List UInt8} {i j : ℕ} (hbytes : bytes.length % 2 = 0)
    (hi : i % 2 = 0) (hj : j % 2 = 0) (hilong : i + 64 ≤ bytes.length)
    (hjlong : j + 64 ≤ bytes.length) :
    rollPairs (bytes.drop i) profileSeed = rollPairs (bytes.drop j) profileSeed := by
  have hsplit : ∀ {k : ℕ}, k + 64 ≤ bytes.length → bytes.drop k =
      (bytes.drop k).take (bytes.length - 64 - k) ++ bytes.drop (bytes.length - 64) := by
    intro k hk
    have hdrop : bytes.drop (bytes.length - 64) =
        (bytes.drop k).drop (bytes.length - 64 - k) := by
      rw [drop_drop]
      congr 1
      omega
    rw [hdrop, take_append_drop]
  have hlength : ∀ {k : ℕ}, k % 2 = 0 → k + 64 ≤ bytes.length →
      ((bytes.drop k).take (bytes.length - 64 - k)).length =
        2 * ((bytes.length - 64 - k) / 2) := by
    intro k hk hlong
    rw [length_take, length_drop]
    omega
  have hlast : (bytes.drop (bytes.length - 64)).length = 2 * 32 := by
    rw [length_drop]
    omega
  rw [hsplit hilong, hsplit hjlong]
  exact rollPairs_forgets (hlength hi hilong) (hlength hj hjlong) hlast le_rfl _ _

theorem masksAt_cases (position : ℕ) :
    Scanner.masksAt position = smallMasks ∨ Scanner.masksAt position = largeMasks := by
  unfold Scanner.masksAt
  split_ifs
  · exact .inl rfl
  · exact .inr rfl

theorem window_eq {front tail : List UInt8} {first second : UInt8} {skip length : ℕ}
    (hskip : skip ≤ front.length) (hlength : front.length + 2 ≤ skip + length) :
    ((front ++ first :: second :: tail).drop skip).take length =
      front.drop skip ++ first :: second :: tail.take (length - (front.length - skip) - 2) := by
  rw [drop_append_of_le_length hskip, take_append, take_of_length_le]
  · congr 1
    rw [length_drop]
    obtain ⟨k, hk⟩ : ∃ k, length - (front.length - skip) = k + 2 :=
      ⟨length - (front.length - skip) - 2, by omega⟩
    rw [hk]
    rfl
  · rw [length_drop]
    omega

/-- **Every end the contents decide is reported**: for a chunk of any input that ends before the
maximum length and is not the last, and a window that starts an even number of bytes behind its
start, the place of its end in the window, when 64 bytes of the chunk lie before it in the window
and behind the chunk's unscanned head, and the pair that decides it lies in the window. -/
theorem candidates_complete {windows before after : List (List UInt8)} {chunk : List UInt8}
    {skip length : ℕ} (hscan : Scanner.scanAll windows = before ++ chunk :: after)
    (hafter : after ≠ []) (hshort : chunk.length < maximumChunkBytes) (hskip : skip % 2 = 0)
    (hwindow : skip + 64 ≤ chunk.length) (hhead : minimumChunkBytes + 64 ≤ chunk.length)
    (hpair : 2 * (chunk.length / 2 + 1) ≤ skip + length) :
    chunk.length - skip ∈
      cutCandidates ((windows.flatten.drop (before.flatten.length + skip)).take length) := by
  obtain ⟨after', hfeed⟩ := Scanner.feed_of_scanAll hscan hafter
  obtain ⟨rest, hinput, hdecided⟩ := Scanner.feed_decided Scanner.holding_new hfeed hshort
  have hminimum : minimumChunkBytes % 2 = 0 := by decide
  rw [nil_append] at hinput
  rw [hinput, ← drop_drop, drop_left]
  rcases hdecided with ⟨heven, first, second, tail, rfl, hmask⟩ |
    ⟨front, first, second, tail, rfl, heven, rfl, hmask⟩
  · have hpairs : (chunk.drop skip).length = 2 * ((chunk.length - skip) / 2) := by
      rw [length_drop]
      omega
    rw [window_eq (by omega) (by omega)]
    rw [rollPairs_drop heven hminimum hskip hhead hwindow] at hmask
    have hmem := (@mem_candidatesFrom (chunk.drop skip)
      (tail.take (length - (chunk.length - skip) - 2)) first second _ hpairs profileSeed 0).1
      ((masks_subset (masksAt_cases chunk.length)).1 hmask)
    rw [length_drop, Nat.zero_add] at hmem
    exact hmem
  · rw [length_append, length_singleton] at hshort hwindow hhead hpair ⊢
    have hpairs : (front.drop skip).length = 2 * ((front.length - skip) / 2) := by
      rw [length_drop]
      omega
    rw [append_assoc, singleton_append, window_eq (by omega) (by omega)]
    rw [rollPairs_drop heven hminimum hskip (by omega) (by omega)] at hmask
    have hmem := (@mem_candidatesFrom (front.drop skip)
      (tail.take (length - (front.length - skip) - 2)) first second _ hpairs profileSeed 0).2
      ((masks_subset (masksAt_cases front.length)).2 hmask)
    rw [length_drop, Nat.zero_add] at hmem
    rw [show front.length + 1 - skip = front.length - skip + 1 by omega]
    exact hmem

theorem scanAll_zeros_pair : Scanner.scanAll [zeroBytes 8256, [159, 254]] =
    [zeroBytes 8256 ++ [159], [254]] := by
  have hzeros : Scanner.feed Scanner.new (zeroBytes 8256) =
      (⟨zeroBytes 8256, none, Scanner.settledHash⟩, []) := by
    rw [show Scanner.new = Scanner.zeroState 0 from rfl, Scanner.feed_zeroState (by decide),
      show 0 + 8256 = minimumChunkBytes + 2 * 32 from rfl, Scanner.zeroState_pairs,
      Scanner.zeroHash_settled]
    rfl
  have hmasks : Scanner.masksAt (zeroBytes 8256).length = smallMasks := by
    rw [Scanner.length_zeroBytes]
    rfl
  have hpair := @Scanner.feed_pair_cases (zeroBytes 8256) Scanner.settledHash 159 254 []
    (by rw [Scanner.length_zeroBytes]; decide)
  dsimp only at hpair
  rw [hmasks, if_neg (by decide +kernel), if_pos (by decide +kernel)] at hpair
  rw [Scanner.scanAll, Scanner.consumeAll_eq_feed Scanner.new_ready, flatten_cons,
    flatten_singleton, Scanner.feed_append, hzeros]
  dsimp only
  rw [hpair]
  rfl

/-- The end behind 8256 zeros and a byte, in a window from inside the chunk. -/
theorem candidates_complete_zeros : 65 ∈ cutCandidates
    (([zeroBytes 8256, [159, 254]].flatten.drop 8192).take 66) := by
  have hlength : (zeroBytes 8256 ++ [159]).length = 8257 := by
    rw [length_append, Scanner.length_zeroBytes]
    rfl
  have h := @candidates_complete [zeroBytes 8256, [159, 254]] [] [[254]]
    (zeroBytes 8256 ++ [159]) 8192 66 scanAll_zeros_pair (cons_ne_nil _ _)
    (by rw [hlength]; decide) rfl (by rw [hlength]; decide) (by rw [hlength]; decide)
    (by rw [hlength])
  rw [hlength] at h
  exact h

end LayerFs
