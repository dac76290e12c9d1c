import Mathlib.Data.Finset.Card

/-!
# Matching one pattern by its failure table

A pattern is found in a text element by element: the automaton's state is the length of the
longest prefix of the pattern that ends the text read so far, and a mismatch falls back to the
longest shorter one, read from the failure table. The table is the automaton's own run over the
pattern without its first element.

* `advance_eq` — **one element**: a correct table takes the state of `u` to that of `u ++ [b]`.
* `failure_table` — **the table** the loop builds is correct.
-/

namespace LayerFs.Matching

open List

variable {α : Type*} [DecidableEq α]
variable {p t u : List α} {table : List ℕ} {b : α} {i k : ℕ}

/-! ## The automaton -/

/-- The inner loop: fall back while the next pattern element is not `b`. The first argument
bounds the turns; a state is a bound for its own fall. -/
def fallBack (p : List α) (failure : List ℕ) (b : α) : ℕ → ℕ → ℕ
  | 0, j => j
  | fuel + 1, j =>
    if 0 < j ∧ p[j]? ≠ some b then fallBack p failure b fuel (failure.getD (j - 1) 0) else j

/-- One element: fall back, then take the element if it is the next of the pattern. -/
def advance (p : List α) (failure : List ℕ) (j : ℕ) (b : α) : ℕ :=
  let j := fallBack p failure b j j
  if p[j]? = some b then j + 1 else j

/-- One turn of the loop that builds the failure table: the last entry advanced by `b`, falling
back through the entries so far. -/
def addEntry (p : List α) (table : List ℕ) (b : α) : List ℕ :=
  table ++ [advance p table (table.getLastD 0) b]

/-- The failure table: the state the automaton is in behind each element of the pattern, the
first one left out. -/
def failure (p : List α) : List ℕ := p.tail.foldl (addEntry p) [0]

/-! ## What a state stands for -/

/-- The largest `k ≤ n` whose prefix of `p` ends `u`. -/
def longestUpTo (p u : List α) : ℕ → ℕ
  | 0 => 0
  | n + 1 => if p.take (n + 1) <:+ u then n + 1 else longestUpTo p u n

/-- Length of the longest prefix of `p` that ends `u`. -/
def longest (p u : List α) : ℕ := longestUpTo p u p.length

theorem longestUpTo_spec (p u : List α) (n : ℕ) :
    longestUpTo p u n ≤ n ∧ p.take (longestUpTo p u n) <:+ u ∧
      ∀ k ≤ n, p.take k <:+ u → k ≤ longestUpTo p u n := by
  induction n with
  | zero => simp [longestUpTo]
  | succ n ih =>
    obtain ⟨hle, hends, hmax⟩ := ih
    rw [longestUpTo]
    split_ifs with h
    · exact ⟨le_rfl, h, fun k hk _ => hk⟩
    · refine ⟨by omega, hends, fun k hk hu => ?_⟩
      have hne : k ≠ n + 1 := by
        rintro rfl
        exact h hu
      exact hmax k (by omega) hu

theorem longest_le (p u : List α) : longest p u ≤ p.length := (longestUpTo_spec p u _).1

theorem take_longest_suffix (p u : List α) : p.take (longest p u) <:+ u :=
  (longestUpTo_spec p u _).2.1

theorem le_longest (hk : k ≤ p.length) (h : p.take k <:+ u) :
    k ≤ longest p u := (longestUpTo_spec p u _).2.2 k hk h

theorem eq_longest (hk : k ≤ p.length) (h : p.take k <:+ u)
    (hmax : ∀ m ≤ p.length, p.take m <:+ u → m ≤ k) : k = longest p u :=
  le_antisymm (le_longest hk h) (hmax _ (longest_le p u) (take_longest_suffix p u))

theorem longest_le_length (p u : List α) : longest p u ≤ u.length := by
  have h := (take_longest_suffix p u).length_le
  rw [length_take] at h
  have := longest_le p u
  omega

@[simp]
theorem longest_nil (p : List α) : longest p [] = 0 := by
  have := longest_le_length p []
  simpa using this

theorem longest_eq_length_iff : longest p u = p.length ↔ p <:+ u := by
  constructor
  · intro h
    have := take_longest_suffix p u
    rwa [h, take_length] at this
  · intro h
    apply le_antisymm (longest_le p u)
    apply le_longest le_rfl
    rwa [take_length]

/-! ## One element -/

omit [DecidableEq α] in
/-- A prefix one longer ends the text one longer exactly where the prefix ended the text and the
element is the pattern's next. -/
theorem take_succ_suffix_concat (hk : k < p.length) :
    p.take (k + 1) <:+ u ++ [b] ↔ p.take k <:+ u ∧ p[k]? = some b := by
  rw [take_succ_eq_append_getElem hk, getElem?_eq_getElem hk, Option.some.injEq]
  constructor
  · rintro ⟨t, ht⟩
    rw [← append_assoc] at ht
    obtain ⟨h₁, h₂⟩ := append_inj' ht rfl
    exact ⟨⟨t, h₁⟩, by simpa using h₂⟩
  · rintro ⟨⟨t, ht⟩, hb⟩
    exact ⟨t, by rw [← append_assoc, ht, hb]⟩

omit [DecidableEq α] in
/-- Below a prefix that ends the text, the prefixes that end the text are those that end it: the
proper ones end the prefix without its first element. -/
theorem take_suffix_iff_tail {m : ℕ} (hm : m ≤ p.length) (h : p.take m <:+ u) (hk : k < m) :
    p.take k <:+ u ↔ p.take k <:+ p.tail.take (m - 1) := by
  have htail : p.tail.take (m - 1) = (p.take m).tail := by
    rw [← drop_one, ← drop_one, drop_take]
  have hlength : (p.take k).length = k := by rw [length_take]; omega
  have hshort : (p.take m).tail.length = m - 1 := by
    rw [length_tail, length_take]; omega
  rw [htail]
  constructor
  · intro hu
    apply suffix_of_suffix_length_le hu ((tail_suffix _).trans h)
    omega
  · intro ht
    exact (ht.trans (tail_suffix _)).trans h

/-- The first `n` entries of a failure table are right. -/
def Table (p : List α) (table : List ℕ) (n : ℕ) : Prop :=
  ∀ i < n, table.getD i 0 = longest p (p.tail.take i)

/-- **The fall** ends at an end of the text whose next element is `b`, or at zero, and passes
over no end whose next element is `b`. -/
theorem fallBack_spec {n : ℕ} (hn : n ≤ p.length) (htable : Table p table n) :
    ∀ fuel j, j ≤ fuel → j ≤ n → p.take j <:+ u →
      (∀ k < p.length, p.take k <:+ u → p[k]? = some b → k ≤ j) →
      let r := fallBack p table b fuel j
      r ≤ j ∧ p.take r <:+ u ∧ (r = 0 ∨ p[r]? = some b) ∧
        ∀ k < p.length, p.take k <:+ u → p[k]? = some b → k ≤ r := by
  intro fuel
  induction fuel with
  | zero =>
    intro j hj _ hu hmax
    exact ⟨le_rfl, hu, .inl (by simpa [fallBack] using hj), hmax⟩
  | succ fuel ih =>
    intro j hj hjn hu hmax
    rw [fallBack]
    by_cases hstay : 0 < j ∧ p[j]? ≠ some b
    · rw [if_pos hstay]
      obtain ⟨hpos, hne⟩ := hstay
      -- the table's entry is the longest end of the text below the current one
      have hentry := htable (j - 1) (by omega)
      have hle : longest p (p.tail.take (j - 1)) ≤ j - 1 := by
        have := longest_le_length p (p.tail.take (j - 1))
        rw [length_take] at this
        omega
      rw [hentry]
      obtain ⟨h₁, h₂, h₃, h₄⟩ := ih (longest p (p.tail.take (j - 1))) (by omega) (by omega)
        ((take_suffix_iff_tail (by omega) hu (by omega)).2 (take_longest_suffix _ _)) (by
          intro k hk hku hkb
          have hkj : k ≠ j := by
            rintro rfl
            exact hne hkb
          have hlt : k < j := by
            have := hmax k hk hku hkb
            omega
          exact le_longest hk.le ((take_suffix_iff_tail (by omega) hu hlt).1 hku))
      exact ⟨by omega, h₂, h₃, h₄⟩
    · rw [if_neg hstay]
      refine ⟨le_rfl, hu, ?_, hmax⟩
      by_cases hpos : 0 < j
      · exact .inr (by simpa [hpos] using hstay)
      · exact .inl (by omega)

/-- **One element.** With a correct table, the state of a text goes to the state of the text with
one more element. -/
theorem advance_eq (hlt : longest p u < p.length) (htable : Table p table (longest p u)) :
    advance p table (longest p u) b = longest p (u ++ [b]) := by
  obtain ⟨hle, hu, hstop, hmax⟩ := fallBack_spec (u := u) (b := b) hlt.le htable _ _ le_rfl le_rfl
    (take_longest_suffix p u) (fun k hk hku _ => le_longest hk.le hku)
  rw [advance]
  -- an end of the longer text is empty or one element longer than an end of the text
  by_cases hb : p[fallBack p table b (longest p u) (longest p u)]? = some b
  · simp only [hb, if_true]
    apply eq_longest (by omega)
    · exact (take_succ_suffix_concat (by omega)).2 ⟨hu, hb⟩
    · intro m hm hend
      rcases m with _ | m
      · omega
      · obtain ⟨hmu, hmb⟩ := (take_succ_suffix_concat (by omega)).1 hend
        have := hmax m (by omega) hmu hmb
        omega
  · simp only [hb, if_false]
    have hzero := hstop.resolve_right hb
    apply eq_longest (by omega)
    · rw [hzero, take_zero]
      exact nil_suffix
    · intro m hm hend
      rcases m with _ | m
      · omega
      · obtain ⟨hmu, hmb⟩ := (take_succ_suffix_concat (by omega)).1 hend
        have hm0 : m = 0 := by
          have := hmax m (by omega) hmu hmb
          omega
        rw [hzero] at hb
        exact absurd (hm0 ▸ hmb) hb

/-! ## The table -/

/-- The loop's state behind a piece of the pattern: one correct entry per element and the last
one the state of the whole piece. -/
theorem failure_loop {l : List α} (hl : l <+: p.tail) :
    let table := l.foldl (addEntry p) [0]
    table.length = l.length + 1 ∧ table.getLastD 0 = longest p l ∧ Table p table (l.length + 1) := by
  induction l using List.reverseRecOn with
  | nil =>
    refine ⟨rfl, by simp, fun i hi => ?_⟩
    obtain rfl : i = 0 := by simpa using hi
    simp
  | append_singleton l b ih =>
    obtain ⟨hlength, hlast, htable⟩ := ih ((prefix_append l [b]).trans hl)
    have hshort : l.length + 1 ≤ p.length - 1 := by
      have := hl.length_le
      rwa [length_append, length_singleton, length_tail] at this
    have hle := longest_le_length p l
    simp only [foldl_append, foldl_cons, foldl_nil]
    generalize l.foldl (addEntry p) [0] = table at hlength hlast htable ⊢
    have hnext := advance_eq (u := l) (b := b) (by omega) (fun i hi => htable i (by omega))
    rw [addEntry, hlast, hnext]
    refine ⟨by simp [hlength], by simp, fun i hi => ?_⟩
    rw [length_append, length_singleton] at hi
    rcases Nat.lt_succ_iff_lt_or_eq.1 hi with hold | rfl
    · rw [getD_eq_getElem?_getD, getElem?_append_left (by omega),
        ← getD_eq_getElem?_getD]
      exact htable i hold
    · rw [getD_eq_getElem?_getD, getElem?_append_right (by omega), hlength]
      have htake : p.tail.take (l.length + 1) = l ++ [b] := by
        have := prefix_iff_eq_take.1 hl
        rw [length_append, length_singleton] at this
        exact this.symm
      simp [htake]

/-- **The table** the loop builds is correct at every entry. -/
theorem failure_table (hp : p ≠ []) : Table p (failure p) p.length := by
  obtain ⟨-, -, htable⟩ := failure_loop (p := p) prefix_rfl
  have hlength : p.tail.length + 1 = p.length := by
    have := length_pos_of_ne_nil hp
    rw [length_tail]
    omega
  rw [hlength] at htable
  exact htable

/-! ## Occurrences -/

/-- The pattern lies in the text at element `i`. -/
def OccursAt (p t : List α) (i : ℕ) : Prop := p <+: t.drop i

instance (p t : List α) (i : ℕ) : Decidable (OccursAt p t i) :=
  inferInstanceAs (Decidable (p <+: t.drop i))

omit [DecidableEq α] in
theorem OccursAt.add_le (hp : p ≠ []) (h : OccursAt p t i) : i + p.length ≤ t.length := by
  have hlength := h.length_le
  have := length_pos_of_ne_nil hp
  rw [length_drop] at hlength
  omega

omit [DecidableEq α] in
theorem occursAt_append_iff {e : List α} (hi : i + p.length ≤ t.length) :
    OccursAt p (t ++ e) i ↔ OccursAt p t i := by
  rw [OccursAt, OccursAt, drop_append_of_le_length (by omega)]
  constructor
  · intro h
    apply prefix_of_prefix_length_le h (prefix_append _ _)
    rw [length_drop]
    omega
  · intro h
    exact h.trans (prefix_append _ _)

omit [DecidableEq α] in
theorem occursAt_end_iff (hi : i + p.length = t.length) : OccursAt p t i ↔ p <:+ t := by
  have hlength : (t.drop i).length = p.length := by rw [length_drop]; omega
  constructor
  · intro h
    rw [h.eq_of_length hlength.symm]
    exact drop_suffix i t
  · intro h
    have hdrop : t.drop i <:+ t := drop_suffix i t
    rw [OccursAt, (suffix_of_suffix_length_le h hdrop hlength.ge).eq_of_length hlength.symm]

omit [DecidableEq α] in
/-- **One element more**: an occurrence is an old one or ends the text. -/
theorem occursAt_concat (hp : p ≠ []) :
    OccursAt p (t ++ [b]) i ↔
      OccursAt p t i ∨ (i + p.length = t.length + 1 ∧ p <:+ t ++ [b]) := by
  have hend : (t ++ [b]).length = t.length + 1 := by simp
  constructor
  · intro h
    have hle := h.add_le hp
    rcases Nat.lt_or_ge (i + p.length) (t.length + 1) with hlt | hge
    · exact .inl ((occursAt_append_iff (by omega)).1 h)
    · exact .inr ⟨by omega, (occursAt_end_iff (by omega)).1 h⟩
  · rintro (h | ⟨hi, h⟩)
    · exact (occursAt_append_iff (h.add_le hp)).2 h
    · exact (occursAt_end_iff (by omega)).2 h

end LayerFs.Matching
