import LayerFs.Service.Lines

/-!
# Blame's coarse comparison (`read/blame.rs`)

Two texts too large to be compared line by line are compared by the bytes they share at their
start and at their end. A line of the newer text is followed into the older one when it ends in
the common prefix, with its number, or starts in the common suffix, with its number counted from
the end. The edges give up a byte where only one of the texts has a line boundary there.

* `prefixLoop_spec`, `suffixLoop_spec` — **the windowed comparisons** find bytes the texts share.
* `coarse_exact` — **every kept line** has its bytes at its older number, the numbers increase
  strictly and no subtraction underflows.
-/

namespace LayerFs.Blame

open List

open Pieces Window

variable {ls : List (List ℕ)} {c newer older : List ℕ} {back count front i k m n number : ℕ}
  {tracked : ℕ → Bool}

def compareWindow : ℕ := 16384

/-- The shown bytes of a line and the lines of a text that are kept at once. -/
def shownBytes : ℕ := 48 * 1024

/-- A failure of the comparison. -/
inductive Failure where
  | lineMapping
  | outOfRange
  deriving DecidableEq, Repr

/-- `count` bytes of a file from `offset`. -/
def range (c : List ℕ) (offset count : ℕ) : List ℕ := (c.drop offset).take count

/-- Whether a line of the file starts at byte `i`: at its start, or after a newline. -/
def startsLine (c : List ℕ) (i : ℕ) : Bool := i == 0 || (range c (i - 1) 1).head? == some newline

def sameCount : List ℕ → List ℕ → ℕ
  | a :: x, b :: y => if a = b then sameCount x y + 1 else 0
  | _, _ => 0

/-- Forward: the shared bytes from the start, at most `limit`, a window at a time. -/
def prefixLoop (newer older : List ℕ) (limit : ℕ) : ℕ → ℕ → ℕ
  | 0, shared => shared
  | turns + 1, shared =>
    if shared < limit then
      let count := min compareWindow (limit - shared)
      let same := sameCount (range newer shared count) (range older shared count)
      if same < count then shared + same else prefixLoop newer older limit turns (shared + same)
    else shared

/-- Backward: the shared bytes from the end, at most `limit`, a window at a time. -/
def suffixLoop (newer older : List ℕ) (limit : ℕ) : ℕ → ℕ → ℕ
  | 0, shared => shared
  | turns + 1, shared =>
    if shared < limit then
      let count := min compareWindow (limit - shared)
      let same := sameCount (range newer (newer.length - shared - count) count).reverse
        (range older (older.length - shared - count) count).reverse
      if same < count then shared + same else suffixLoop newer older limit turns (shared + same)
    else shared

/-- The bytes the texts share at their start and at their end, less one where only one text has a
line boundary at the edge. -/
def equalEdges (newer older : List ℕ) : ℕ × ℕ :=
  let least := min newer.length older.length
  let front := prefixLoop newer older least least 0
  let back := suffixLoop newer older (least - front) (least - front) 0
  let back' := if 0 < back ∧ startsLine older (older.length - back) = false then back - 1 else back
  let front' := if front = newer.length ∧ newer.length < older.length
      ∧ startsLine newer newer.length = false then front - 1 else front
  (front', back')

def lineCount (c : List ℕ) : ℕ :=
  (linesOver (ε := Failure) (fun n _ => (.ok true, n + 1)) shownBytes 1 [c] 0).2

/-- The number, start and end of the lines of a text that are tracked. -/
def lineRanges (c : List ℕ) (tracked : ℕ → Bool) : List (ℕ × ℕ × ℕ) :=
  (linesOver (ε := Failure) (fun s l =>
    (.ok true, (s.1 + l.2.bytes, if tracked l.1 then s.2 ++ [(l.1, s.1, s.1 + l.2.bytes)] else s.2)))
    0 1 [c] ((0, []) : ℕ × List (ℕ × ℕ × ℕ))).2.2

/-- Where a tracked line of the newer text goes: to a number of the older text, or to the newer
text as its owner. -/
def coarseNumber (newer older : List ℕ) (tracked : ℕ → Bool) (number : ℕ) :
    Except Failure (Option ℕ) :=
  let edges := equalEdges newer older
  match (lineRanges newer tracked).find? (fun r => r.1 == number) with
  | none => .error .lineMapping
  | some (_, start, stop) =>
    if stop ≤ edges.1 then .ok (some number)
    else if newer.length - edges.2 ≤ start then
      let moved : ℤ := number + lineCount older - lineCount newer
      if moved < 0 then .error .outOfRange else .ok (some moved.toNat)
    else .ok none

/-! ## Shared bytes -/

theorem sameCount_spec : ∀ x y : List ℕ, sameCount x y ≤ x.length ∧ sameCount x y ≤ y.length ∧
    x.take (sameCount x y) = y.take (sameCount x y)
  | [], y => by simp [sameCount]
  | a :: x, [] => by simp [sameCount]
  | a :: x, b :: y => by
    rw [sameCount]
    split_ifs with h
    · obtain ⟨h₁, h₂, h₃⟩ := sameCount_spec x y
      exact ⟨by simpa using h₁, by simpa using h₂, by simp [h, h₃]⟩
    · simp

theorem take_add_of_range {x y : List ℕ} {same : ℕ} (h : x.take n = y.take n) (hsame : same ≤ count)
    (hrange : (range x n count).take same = (range y n count).take same) :
    x.take (n + same) = y.take (n + same) := by
  rw [range, range, take_take, take_take, min_eq_left hsame] at hrange
  rw [take_add, take_add, h, hrange]

/-- **The common prefix** the loop finds is one. -/
theorem prefixLoop_spec (newer older : List ℕ) (limit : ℕ) :
    ∀ turns shared, shared ≤ limit → newer.take shared = older.take shared →
      let front := prefixLoop newer older limit turns shared
      front ≤ limit ∧ newer.take front = older.take front := by
  intro turns
  induction turns with
  | zero => exact fun shared hle h => ⟨hle, h⟩
  | succ turns ih =>
    intro shared hle h
    rw [prefixLoop]
    split_ifs with hmore
    · obtain ⟨h₁, h₂, h₃⟩ := sameCount_spec (range newer shared (min compareWindow (limit - shared)))
        (range older shared (min compareWindow (limit - shared)))
      have hcount : sameCount (range newer shared (min compareWindow (limit - shared)))
          (range older shared (min compareWindow (limit - shared)))
          ≤ min compareWindow (limit - shared) := by
        apply h₁.trans
        rw [range, length_take]
        omega
      have hnext := take_add_of_range h hcount h₃
      simp only
      split_ifs
      · exact ⟨by omega, hnext⟩
      · exact ih _ (by omega) hnext
    · exact ⟨hle, h⟩

theorem reverse_range {shared : ℕ} (h : shared + count ≤ c.length) :
    (range c (c.length - shared - count) count).reverse = range c.reverse shared count := by
  have hlength : (c.take (c.length - shared)).length = c.length - shared := by
    rw [length_take]
    omega
  rw [range, range, drop_reverse, take_reverse, hlength, drop_take]
  congr 2
  omega

theorem suffixLoop_eq {limit : ℕ} (hn : limit ≤ newer.length) (ho : limit ≤ older.length)
    (turns shared : ℕ) :
    suffixLoop newer older limit turns shared
      = prefixLoop newer.reverse older.reverse limit turns shared := by
  induction turns generalizing shared with
  | zero => rfl
  | succ turns ih =>
    rw [suffixLoop, prefixLoop]
    by_cases hmore : shared < limit
    · rw [if_pos hmore, if_pos hmore]
      simp only
      rw [reverse_range (by omega), reverse_range (by omega), ih]
    · rw [if_neg hmore, if_neg hmore]

/-- **The common suffix** the loop finds is one. -/
theorem suffixLoop_spec {newer older : List ℕ} {limit : ℕ} (hn : limit ≤ newer.length)
    (ho : limit ≤ older.length) (turns : ℕ) :
    let back := suffixLoop newer older limit turns 0
    back ≤ limit ∧ newer.drop (newer.length - back) = older.drop (older.length - back) := by
  obtain ⟨hle, htake⟩ := prefixLoop_spec newer.reverse older.reverse limit turns 0
    (Nat.zero_le _) rfl
  simp only
  rw [suffixLoop_eq hn ho]
  rw [take_reverse, take_reverse] at htake
  exact ⟨hle, reverse_injective htake⟩

/-! ## Edges -/

theorem startsLine_iff {text : List ℕ} :
    startsLine text i = true ↔ i = 0 ∨ text[i - 1]? = some newline := by
  rw [startsLine, range]
  simp only [Bool.or_eq_true, beq_iff_eq, head?_take, head?_drop]
  simp

/-- What the edges of two different texts give: shared bytes, which do not overlap, and at each
edge a line boundary of both texts or of neither. -/
structure Edges (newer older : List ℕ) (front back : ℕ) : Prop where
  sameFront : newer.take front = older.take front
  sameBack : newer.drop (newer.length - back) = older.drop (older.length - back)
  room : front + back ≤ min newer.length older.length
  ends : front = newer.length → startsLine newer newer.length = true
  starts : ∀ start, start < newer.length → newer.length - back ≤ start →
    startsLine newer start = true →
    startsLine older (older.length - (newer.length - start)) = true

theorem getElem?_of_sameBack
    (h : newer.drop (newer.length - back) = older.drop (older.length - back))
    (hn : back ≤ newer.length) (ho : back ≤ older.length) (hi : newer.length - back ≤ i)
    (hlt : i < newer.length) : newer[i]? = older[older.length - (newer.length - i)]? := by
  have hbyte := congrArg (fun l => l[i - (newer.length - back)]?) h
  simp only [getElem?_drop] at hbyte
  have hleft : newer.length - back + (i - (newer.length - back)) = i := by omega
  have hright : older.length - back + (i - (newer.length - back))
      = older.length - (newer.length - i) := by omega
  rwa [hleft, hright] at hbyte

theorem equalEdges_spec (hne : newer ≠ older) :
    Edges newer older (equalEdges newer older).1 (equalEdges newer older).2 := by
  simp only [equalEdges]
  obtain ⟨hfront, hsameFront⟩ := prefixLoop_spec newer older (min newer.length older.length)
    (min newer.length older.length) 0 (Nat.zero_le _) rfl
  generalize prefixLoop newer older (min newer.length older.length)
    (min newer.length older.length) 0 = front at hfront hsameFront ⊢
  obtain ⟨hback, hsameBack⟩ := @suffixLoop_spec newer older
    (min newer.length older.length - front) (by omega) (by omega)
    (min newer.length older.length - front)
  generalize suffixLoop newer older (min newer.length older.length - front)
    (min newer.length older.length - front) 0 = back at hback hsameBack ⊢
  generalize hfront' : (if front = newer.length ∧ newer.length < older.length
    ∧ startsLine newer newer.length = false then front - 1 else front) = front'
  generalize hback' : (if 0 < back ∧ startsLine older (older.length - back) = false then back - 1
    else back) = back'
  have hfrontLe : front' ≤ front := by
    rw [← hfront']
    split_ifs <;> omega
  have hbackLe : back' ≤ back := by
    rw [← hback']
    split_ifs <;> omega
  refine ⟨?_, ?_, by omega, ?_, ?_⟩
  · rw [← min_eq_left hfrontLe, ← take_take, hsameFront, take_take]
  · have hn : newer.length - back' = (newer.length - back) + (back - back') := by omega
    have ho : older.length - back' = (older.length - back) + (back - back') := by omega
    rw [hn, ho, ← drop_drop, ← drop_drop, hsameBack]
  · -- the whole newer text is shared: it ends a line, or it is the older text
    intro hall
    by_contra hends
    rw [Bool.not_eq_true] at hends
    rw [← hfront'] at hall
    split_ifs at hall with hcut
    · have hzero : newer.length ≠ 0 := by
        intro hzero
        rw [hzero] at hends
        simp [startsLine] at hends
      omega
    · have hlength : newer.length = older.length := by
        have : ¬newer.length < older.length := fun hlt => hcut ⟨hall, hlt, hends⟩
        omega
      rw [hall, take_length, hlength, take_length] at hsameFront
      exact hne hsameFront
  · intro start hlt hge hstarts
    rcases Nat.lt_or_ge (newer.length - back) start with hin | hedge
    · -- the newline before the line is shared
      have hnl : newer[start - 1]? = some newline :=
        (startsLine_iff.1 hstarts).resolve_left (by omega)
      have hbyte := getElem?_of_sameBack hsameBack (by omega) (by omega)
        (by omega : newer.length - back ≤ start - 1) (by omega)
      rw [hnl] at hbyte
      apply startsLine_iff.2
      refine .inr ?_
      rw [hbyte]
      congr 1
      omega
    · -- the line starts at the edge, which was not moved
      have hkept : back' = back := by omega
      rw [← hback'] at hkept
      split_ifs at hkept with hcut
      · omega
      · have hstart : older.length - (newer.length - start) = older.length - back := by omega
        rw [hstart]
        by_contra hno
        exact hcut ⟨by omega, by simpa using hno⟩

/-! ## Lines and their ranges -/

theorem length_visits {width first : ℕ} (h : first ≤ number) :
    (visits width (fromLine first) number ls).length = ls.length := by
  induction ls generalizing number with
  | nil => rfl
  | cons l ls ih =>
    rw [visits, if_pos (by simpa [fromLine] using h), length_cons, length_cons, ih (by omega)]

theorem lineCount_eq (c : List ℕ) : lineCount c = (pieces newline c).length := by
  have hcount : ∀ (l : List (ℕ × Window.Line)) (n : ℕ),
      l.foldl (fun n _ => n + 1) n = n + l.length := by
    intro l
    induction l with
    | nil => simp
    | cons a l ih =>
      intro n
      rw [foldl_cons, ih, length_cons]
      omega
  rw [lineCount, linesOver_eq, deliver_eq_foldl (f := fun n _ => n + 1) (fun _ _ => rfl)]
  simp only [ended]
  rw [hcount, textVisits, length_visits le_rfl]
  simp

/-- The ranges of consecutive lines, the first with this number and start. -/
def rangesOf (tracked : ℕ → Bool) : ℕ → ℕ → List (List ℕ) → List (ℕ × ℕ × ℕ)
  | _, _, [] => []
  | n, start, l :: ls =>
    if tracked n then
      (n, start, start + l.length) :: rangesOf tracked (n + 1) (start + l.length) ls
    else rangesOf tracked (n + 1) (start + l.length) ls

theorem lineRanges_eq (c : List ℕ) (tracked : ℕ → Bool) :
    lineRanges c tracked = rangesOf tracked 1 0 (pieces newline c) := by
  have hfold : ∀ (ls : List (List ℕ)) (n start : ℕ) (acc : List (ℕ × ℕ × ℕ)), 1 ≤ n →
      ((visits 0 (fromLine 1) n ls).foldl (fun s l => (s.1 + l.2.bytes,
        if tracked l.1 then s.2 ++ [(l.1, s.1, s.1 + l.2.bytes)] else s.2)) (start, acc)).2
        = acc ++ rangesOf tracked n start ls := by
    intro ls
    induction ls with
    | nil =>
      intro n start acc _
      simp [visits, rangesOf]
    | cons l ls ih =>
      intro n start acc hn
      rw [visits, if_pos (by simpa [fromLine] using hn), foldl_cons, ih _ _ _ (by omega), rangesOf]
      simp only [shown, line]
      split_ifs
      · simp
      · rfl
  rw [lineRanges, linesOver_eq, deliver_eq_foldl (fun _ _ => rfl)]
  simp only [ended]
  rw [textVisits, hfold _ _ _ _ le_rfl, nil_append, flatten_singleton]

theorem find?_rangesOf :
    ∀ (ls : List (List ℕ)) (n start : ℕ) (r : ℕ × ℕ × ℕ),
      (rangesOf tracked n start ls).find? (fun r => r.1 == number) = some r →
      tracked number = true ∧ n ≤ number ∧ number < n + ls.length ∧
        r = (number, start + (ls.take (number - n)).flatten.length,
          start + (ls.take (number - n + 1)).flatten.length) := by
  intro ls
  induction ls with
  | nil =>
    intro n start r h
    simp [rangesOf] at h
  | cons l ls ih =>
    intro n start r h
    have hrest : (rangesOf tracked (n + 1) (start + l.length) ls).find? (fun r => r.1 == number)
        = some r → tracked number = true ∧ n ≤ number ∧ number < n + (l :: ls).length ∧
          r = (number, start + ((l :: ls).take (number - n)).flatten.length,
            start + ((l :: ls).take (number - n + 1)).flatten.length) := by
      intro hr
      obtain ⟨h₀, h₁, h₂, h₃⟩ := ih _ _ _ hr
      refine ⟨h₀, by omega, by rw [length_cons]; omega, ?_⟩
      have hindex : number - n = number - (n + 1) + 1 := by omega
      rw [h₃, hindex, take_succ_cons, take_succ_cons, flatten_cons,
        flatten_cons, length_append, length_append]
      simp only [Nat.add_assoc]
    rw [rangesOf] at h
    split_ifs at h with htracked
    · rw [find?_cons] at h
      by_cases hn : n = number
      · subst hn
        simp only [beq_self_eq_true] at h
        obtain rfl := Option.some.inj h
        simp [htracked]
      · have hno : (n == number) = false := by simpa using hn
        simp only [hno] at h
        exact hrest h
    · exact hrest h

theorem find?_rangesOf_isSome (htracked : tracked number = true) :
    ∀ (ls : List (List ℕ)) (n start : ℕ), n ≤ number → number < n + ls.length →
      ∃ r, (rangesOf tracked n start ls).find? (fun r => r.1 == number) = some r := by
  intro ls
  induction ls with
  | nil =>
    intro n start h₁ h₂
    simp at h₂
    omega
  | cons l ls ih =>
    intro n start h₁ h₂
    rw [length_cons] at h₂
    rw [rangesOf]
    by_cases hn : n = number
    · subst hn
      rw [if_pos htracked]
      exact ⟨_, find?_cons_of_pos (by simp)⟩
    · obtain ⟨r, hr⟩ := ih (n + 1) (start + l.length) (by omega) (by omega)
      split_ifs
      · rw [find?_cons_of_neg (by simpa using hn)]
        exact ⟨r, hr⟩
      · exact ⟨r, hr⟩

/-! ## Kept lines -/

theorem startsLine_iff_opened (hi : i ≤ c.length) :
    startsLine c i = true ↔ (split newline (c.take i)).opened = [] := by
  rw [startsLine_iff, opened_eq_nil_iff]
  rcases i with _ | i
  · simp
  · have htake := take_succ_eq_append_getElem (by omega : i < c.length)
    rw [htake, Nat.add_sub_cancel, getElem?_eq_getElem (by omega)]
    constructor
    · rintro (h | h)
      · omega
      · exact .inr ⟨c.take i, by rw [Option.some.inj h]⟩
    · rintro (h | ⟨body, h⟩)
      · exact absurd h (append_ne_nil_of_right_ne_nil _ (cons_ne_nil _ _))
      · have hlast := (append_inj' h rfl).2
        exact .inr (by simpa using hlast)

theorem take_pieces (hk : k < (pieces newline c).length) :
    k ≤ (split newline c).closed.length ∧
      (pieces newline c).take k = (split newline c).closed.take k := by
  have hle : k ≤ (split newline c).closed.length := by
    rw [pieces, length_append] at hk
    split_ifs at hk <;> simp at hk <;> omega
  refine ⟨hle, ?_⟩
  rw [pieces, take_append_of_le_length hle]

theorem take_length_flatten (c : List ℕ) (k : ℕ) :
    c.take ((split newline c).closed.take k).flatten.length
      = ((split newline c).closed.take k).flatten := by
  have hjoin := split_join newline c
  rw [← take_append_drop k (split newline c).closed, flatten_append,
    append_assoc] at hjoin
  exact (prefix_iff_eq_take.1 ⟨_, hjoin⟩).symm

theorem pieces_of_take (hsplit : split newline (c.take n) = ⟨ls, []⟩) :
    pieces newline c = ls ++ pieces newline (c.drop n) := by
  conv_lhs => rw [← take_append_drop n c]
  rw [pieces_append (by rw [hsplit]), pieces, hsplit]
  simp

/-- **A line that ends in the common prefix** is closed, and the older text starts with it and the
lines before it. -/
theorem kept_front (h : Edges newer older front back) (hk : k < (pieces newline newer).length)
    (hstop : ((pieces newline newer).take (k + 1)).flatten.length ≤ front) :
    (pieces newline newer).take (k + 1) = (split newline newer).closed.take (k + 1) ∧
      k < (split newline newer).closed.length ∧
      split newline (older.take ((pieces newline newer).take (k + 1)).flatten.length)
        = ⟨(pieces newline newer).take (k + 1), []⟩ := by
  have hroom := h.room
  have hclosed : k < (split newline newer).closed.length := by
    by_contra hopen
    have hlast : k = (split newline newer).closed.length :=
      le_antisymm (take_pieces hk).1 (by omega)
    -- the open line ends the text, which then ends a line
    have hall : (pieces newline newer).take (k + 1) = pieces newline newer := by
      apply take_of_length_le
      rw [pieces, length_append]
      split_ifs <;> simp <;> omega
    rw [hall, pieces_join] at hstop
    have hends := h.ends (by omega)
    rw [startsLine_iff_opened le_rfl, take_length] at hends
    rw [pieces, hends] at hk
    simp at hk
    omega
  have htake : (pieces newline newer).take (k + 1) = (split newline newer).closed.take (k + 1) := by
    rw [pieces, take_append_of_le_length (by omega)]
  refine ⟨htake, hclosed, ?_⟩
  rw [htake] at hstop ⊢
  have hsame : older.take ((split newline newer).closed.take (k + 1)).flatten.length
      = newer.take ((split newline newer).closed.take (k + 1)).flatten.length := by
    rw [← min_eq_left hstop, ← take_take, ← take_take, h.sameFront]
  rw [hsame, take_length_flatten, split_take_closed]

/-- **A line that starts in the common suffix** starts a line of the older text, as many lines
from the end. -/
theorem kept_back (h : Edges newer older front back) (hk : k < (pieces newline newer).length)
    (hstart : newer.length - back ≤ ((pieces newline newer).take k).flatten.length) :
    ∃ n, back ≤ older.length ∧ older.length - back ≤ n ∧ n ≤ older.length ∧
      (split newline (older.take n)).opened = [] ∧
      pieces newline older
        = pieces newline (older.take n) ++ (pieces newline newer).drop k := by
  have hroom := h.room
  obtain ⟨hle, htake⟩ := take_pieces hk
  generalize hs : ((pieces newline newer).take k).flatten.length = start at hstart
  have hlt : start < newer.length := by
    have hjoin := congrArg List.length (pieces_join newline newer)
    rw [← take_append_drop k (pieces newline newer), flatten_append,
      length_append, hs] at hjoin
    have hpos : 0 < ((pieces newline newer).drop k).flatten.length := by
      rw [drop_eq_getElem_cons hk, flatten_cons, length_append]
      have := length_pos_of_ne_nil
        (ne_nil_of_mem_pieces (getElem_mem hk))
      omega
    omega
  have hfirst : newer.take start = ((split newline newer).closed.take k).flatten := by
    rw [← hs, htake, take_length_flatten]
  have hsplit : split newline (newer.take start) = ⟨(split newline newer).closed.take k, []⟩ := by
    rw [hfirst, split_take_closed]
  have hline : startsLine newer start = true := by
    rw [startsLine_iff_opened hlt.le, hsplit]
  have holder := h.starts start hlt hstart hline
  rw [startsLine_iff_opened (by omega)] at holder
  have hrest : older.drop (older.length - (newer.length - start)) = newer.drop start := by
    have hn : start = (newer.length - back) + (start - (newer.length - back)) := by omega
    have ho : older.length - (newer.length - start)
        = (older.length - back) + (start - (newer.length - back)) := by omega
    rw [ho, ← drop_drop, ← h.sameBack, drop_drop, ← hn]
  have hpieces : pieces newline (newer.drop start) = (pieces newline newer).drop k := by
    have := pieces_of_take hsplit
    rw [← htake] at this
    conv_rhs => rw [this]
    rw [drop_left']
    rw [length_take]
    omega
  refine ⟨older.length - (newer.length - start), by omega, by omega, by omega, holder, ?_⟩
  conv_lhs => rw [← take_append_drop (older.length - (newer.length - start)) older]
  rw [pieces_append holder, hrest, hpieces]

/-! ## The mapping -/

/-- Where line `n` starts. -/
def lineStart (c : List ℕ) (n : ℕ) : ℕ := ((pieces newline c).take (n - 1)).flatten.length

/-- Where line `n` ends. -/
def lineStop (c : List ℕ) (n : ℕ) : ℕ := ((pieces newline c).take n).flatten.length

/-- Line `n` of the newer text ends in the common prefix or starts in the common suffix. -/
def Kept (newer older : List ℕ) (n : ℕ) : Prop :=
  (1 ≤ n ∧ n ≤ lineCount newer) ∧ (lineStop newer n ≤ (equalEdges newer older).1 ∨
    newer.length - (equalEdges newer older).2 ≤ lineStart newer n)

theorem find?_lineRanges (htracked : tracked n = true) (hn : 1 ≤ n ∧ n ≤ lineCount c) :
    (lineRanges c tracked).find? (fun r => r.1 == n) = some (n, lineStart c n, lineStop c n) := by
  rw [lineCount_eq] at hn
  rw [lineRanges_eq]
  obtain ⟨r, hr⟩ := find?_rangesOf_isSome htracked (pieces newline c) 1 0 hn.1 (by omega)
  obtain ⟨-, -, -, heq⟩ := find?_rangesOf _ _ _ _ hr
  have hindex : n - 1 + 1 = n := by omega
  rw [hr, heq, hindex, Nat.zero_add, Nat.zero_add]
  rfl

theorem of_find?_lineRanges {r : ℕ × ℕ × ℕ}
    (h : (lineRanges c tracked).find? (fun r => r.1 == n) = some r) :
    tracked n = true ∧ 1 ≤ n ∧ n ≤ lineCount c := by
  rw [lineRanges_eq] at h
  obtain ⟨h₀, h₁, h₂, -⟩ := find?_rangesOf _ _ _ _ h
  rw [lineCount_eq]
  exact ⟨h₀, h₁, by omega⟩

/-- Line `n` of the newer text is line `m` of the older one: by the common prefix with its own
number, or by the common suffix behind the lines of the older text before it. -/
def Maps (newer older : List ℕ) (n m : ℕ) : Prop :=
  (lineStop newer n ≤ (equalEdges newer older).1 ∧ m = n) ∨
    ((equalEdges newer older).1 < lineStop newer n ∧ ∃ i,
      older.length - (equalEdges newer older).2 ≤ i ∧ i ≤ older.length ∧
      (split newline (older.take i)).opened = [] ∧
      pieces newline older = pieces newline (older.take i) ++ (pieces newline newer).drop (n - 1) ∧
      m = (pieces newline (older.take i)).length + 1)

/-- **The comparison** of a tracked line of the newer text: no subtraction underflows, a kept line
is mapped and any other is the newer text's own. -/
theorem coarseNumber_eq (hne : newer ≠ older) (htracked : tracked n = true)
    (hn : 1 ≤ n ∧ n ≤ lineCount newer) :
    (Kept newer older n ∧ ∃ m, coarseNumber newer older tracked n = .ok (some m) ∧
      Maps newer older n m) ∨
    (¬Kept newer older n ∧ coarseNumber newer older tracked n = .ok none) := by
  have hedges := equalEdges_spec hne
  have hcount := lineCount_eq newer
  have hk : n - 1 < (pieces newline newer).length := by omega
  simp only [coarseNumber, find?_lineRanges htracked hn]
  by_cases hfront : lineStop newer n ≤ (equalEdges newer older).1
  · rw [if_pos hfront]
    exact .inl ⟨⟨hn, .inl hfront⟩, n, rfl, .inl ⟨hfront, rfl⟩⟩
  · rw [if_neg hfront]
    by_cases hback : newer.length - (equalEdges newer older).2 ≤ lineStart newer n
    · rw [if_pos hback]
      obtain ⟨i, -, hi₁, hi₂, hopened, hpieces⟩ := kept_back hedges hk hback
      have hlines := congrArg List.length hpieces
      rw [length_append, length_drop, ← lineCount_eq older, ← hcount] at hlines
      have hmoved : ((n : ℤ) + lineCount older - lineCount newer)
          = ((pieces newline (older.take i)).length + 1 : ℕ) := by omega
      rw [hmoved, if_neg (by omega), Int.toNat_natCast]
      exact .inl ⟨⟨hn, .inr hback⟩, _, rfl, .inr ⟨by omega, i, hi₁, hi₂, hopened, hpieces, rfl⟩⟩
    · rw [if_neg hback]
      exact .inr ⟨fun h => h.2.elim hfront hback, rfl⟩

theorem Maps.same_line (hne : newer ≠ older) (hn : 1 ≤ n ∧ n ≤ lineCount newer)
    (h : Maps newer older n m) :
    1 ≤ m ∧ m ≤ lineCount older ∧
      ∃ l, (pieces newline newer)[n - 1]? = some l ∧ (pieces newline older)[m - 1]? = some l := by
  have hedges := equalEdges_spec hne
  rw [lineCount_eq] at hn ⊢
  have hk : n - 1 < (pieces newline newer).length := by omega
  have hindex : n - 1 + 1 = n := by omega
  have hline : (pieces newline newer)[n - 1]? = some ((pieces newline newer)[n - 1]) :=
    getElem?_eq_getElem hk
  rcases h with ⟨hfront, rfl⟩ | ⟨-, i, -, -, -, hpieces, rfl⟩
  · rw [lineStop, ← hindex] at hfront
    obtain ⟨-, -, hsplit⟩ := kept_front hedges hk hfront
    have hpieces := pieces_of_take hsplit
    have hsame : (pieces newline older)[m - 1]? = (pieces newline newer)[m - 1]? := by
      rw [hpieces, getElem?_append_left (by rw [length_take]; omega),
        getElem?_take_of_lt (by omega)]
    have hlt := (List.getElem?_eq_some_iff.1 (hsame.trans hline)).1
    exact ⟨hn.1, by omega, _, hline, hsame.trans hline⟩
  · have hsame : (pieces newline older)[(pieces newline (older.take i)).length + 1 - 1]?
        = (pieces newline newer)[n - 1]? := by
      rw [hpieces, getElem?_append_right (by omega), getElem?_drop]
      congr 1
      omega
    have hlt := (List.getElem?_eq_some_iff.1 (hsame.trans hline)).1
    exact ⟨by omega, by omega, _, hline, hsame.trans hline⟩

theorem Maps.lt (hne : newer ≠ older) {n' m' : ℕ} (hn : 1 ≤ n ∧ n ≤ lineCount newer)
    (hn' : n' ≤ lineCount newer) (hlt : n < n') (h : Maps newer older n m)
    (h' : Maps newer older n' m') : m < m' := by
  have hedges := equalEdges_spec hne
  have hroom := hedges.room
  rw [lineCount_eq] at hn hn'
  have hindex : n - 1 + 1 = n := by omega
  have hmono : lineStop newer n ≤ lineStop newer n' := by
    rw [lineStop, lineStop, ← take_append_drop n ((pieces newline newer).take n'),
      take_take, min_eq_left hlt.le, flatten_append, length_append]
    omega
  rcases h with ⟨hfront, rfl⟩ | ⟨hfront, i, hi₁, hi₂, hopened, hpieces, rfl⟩
  · rcases h' with ⟨-, rfl⟩ | ⟨-, i, hi₁, hi₂, hopened, hpieces, rfl⟩
    · exact hlt
    · -- the lines of the common prefix lie before the line the suffix starts at
      rw [lineStop, ← hindex] at hfront
      obtain ⟨-, -, hsplit⟩ := kept_front hedges (by omega) hfront
      rw [hindex] at hsplit hfront
      have hcut : ((older.take i).take ((pieces newline newer).take m).flatten.length)
          = older.take ((pieces newline newer).take m).flatten.length := by
        rw [take_take, min_eq_left (by omega)]
      have hlines := congrArg List.length (pieces_of_take (c := older.take i) (hcut ▸ hsplit))
      rw [length_append, length_take] at hlines
      omega
  · rcases h' with ⟨hfront', -⟩ | ⟨-, i', -, -, -, hpieces', rfl⟩
    · omega
    · have h₁ := congrArg List.length hpieces
      have h₂ := congrArg List.length hpieces'
      rw [length_append, length_drop] at h₁ h₂
      omega

theorem maps_of_coarseNumber (hne : newer ≠ older)
    (h : coarseNumber newer older tracked n = .ok (some m)) :
    (1 ≤ n ∧ n ≤ lineCount newer) ∧ Maps newer older n m := by
  rcases hfind : (lineRanges newer tracked).find? (fun r => r.1 == n) with _ | r
  · simp [coarseNumber, hfind] at h
  · obtain ⟨htracked, hn⟩ := of_find?_lineRanges hfind
    rcases coarseNumber_eq hne htracked hn with ⟨-, m', hm', hmaps⟩ | ⟨-, hnone⟩
    · rw [hm'] at h
      obtain rfl : m' = m := by simpa using h
      exact ⟨hn, hmaps⟩
    · rw [hnone] at h
      simp at h

/-- **The coarse comparison** of two different texts. The common suffix fits the newer text, so
no subtraction underflows; every tracked line is decided; a kept line is mapped to a line of the
older text with the same bytes, LF included; and the numbers of mapped lines increase strictly. -/
theorem coarse_exact {newer older : List ℕ} (hne : newer ≠ older) (tracked : ℕ → Bool) :
    (equalEdges newer older).2 ≤ newer.length ∧
    (∀ n, tracked n = true → 1 ≤ n → n ≤ lineCount newer →
      ∃ r, coarseNumber newer older tracked n = .ok r) ∧
    (∀ n, tracked n = true → Kept newer older n →
      ∃ m l, coarseNumber newer older tracked n = .ok (some m) ∧ 1 ≤ m ∧ m ≤ lineCount older ∧
        (pieces newline newer)[n - 1]? = some l ∧ (pieces newline older)[m - 1]? = some l) ∧
    (∀ n n' m m', n < n' → coarseNumber newer older tracked n = .ok (some m) →
      coarseNumber newer older tracked n' = .ok (some m') → m < m') := by
  have hroom := (equalEdges_spec hne).room
  refine ⟨by omega, ?_, ?_, ?_⟩
  · intro n htracked h₁ h₂
    rcases coarseNumber_eq hne htracked ⟨h₁, h₂⟩ with ⟨-, m, hm, -⟩ | ⟨-, hnone⟩
    · exact ⟨_, hm⟩
    · exact ⟨_, hnone⟩
  · intro n htracked hkept
    rcases coarseNumber_eq hne htracked hkept.1 with ⟨-, m, hm, hmaps⟩ | ⟨hnot, -⟩
    · obtain ⟨h₁, h₂, l, hl, hl'⟩ := hmaps.same_line hne hkept.1
      exact ⟨m, l, hm, h₁, h₂, hl, hl'⟩
    · exact absurd hkept hnot
  · intro n n' m m' hlt h h'
    obtain ⟨hn, hmaps⟩ := maps_of_coarseNumber hne h
    obtain ⟨hn', hmaps'⟩ := maps_of_coarseNumber hne h'
    exact hmaps.lt hne hn hn'.2 hlt hmaps'

/-- The texts `a\nb\n` and `a\nx\nb\n`: the last line moves from number 2 to number 3. -/
theorem coarse_exact_inserted :
    coarseNumber [97, 10, 98, 10] [97, 10, 120, 10, 98, 10] (fun _ => true) 2 = .ok (some 3) ∧
      ∃ m l, coarseNumber [97, 10, 98, 10] [97, 10, 120, 10, 98, 10] (fun _ => true) 2
          = .ok (some m) ∧ 1 ≤ m ∧ m ≤ lineCount [97, 10, 120, 10, 98, 10] ∧
        (pieces newline [97, 10, 98, 10])[2 - 1]? = some l ∧
        (pieces newline [97, 10, 120, 10, 98, 10])[m - 1]? = some l :=
  ⟨by decide +kernel, (@coarse_exact [97, 10, 98, 10]
    [97, 10, 120, 10, 98, 10] (by decide) (fun _ => true)).2.2.1 2 rfl
    ⟨by decide +kernel, by decide +kernel⟩⟩

end LayerFs.Blame
