import LayerFs.Service.Lines
import LayerFs.Support.Matching

/-!
# Literal search over a text's parts (`read/search.rs`)

The pattern is searched over whole parts. Lines are counted over the gaps between matches, the
bounds of a line are found only around one, and a match that crosses into the next part is found
through the last bytes of the open line, which are kept cut at a character.

* `AtLine` — **the invariant** between two steps: the scanner stands in the open line, and it
  knows whether the line has matched or which matches can still start.
* `searchPart_follows` — **a part** visits the lines it closes that hold the pattern.
-/

namespace LayerFs.Window

open List

open Pieces Utf8 Matching

variable {bytes l p rest : List ℕ} {t : Split ℕ} {b i width : ℕ} (text : List ℕ)

/-! ## The scan -/

def findPattern (p : List ℕ) : List ℕ → Option ℕ
  | [] => if p.isPrefixOf [] then some 0 else none
  | c :: rest => if p.isPrefixOf (c :: rest) then some 0 else (findPattern p rest).map (· + 1)

def holds (p l : List ℕ) : Bool := (findPattern p l).isSome

/-- `str::is_char_boundary`. -/
def isCharBoundary (text : List ℕ) (i : ℕ) : Bool :=
  i == 0 || i == text.length || match text[i]? with
    | some b => !isContinuation b
    | none => false

def floorBoundary (text : List ℕ) : ℕ → ℕ
  | 0 => 0
  | i + 1 => if isCharBoundary text (i + 1) then i + 1 else floorBoundary text i

def ceilBoundary (text : List ℕ) : ℕ → ℕ → ℕ
  | 0, i => i
  | turns + 1, i => if isCharBoundary text i then i else ceilBoundary text turns (i + 1)

/-- The search between two parts: the line it is in, whether the line has matched, the line's last
bytes, whether the visitor stopped it, and the visitor's own state. -/
structure Search (σ : Type*) where
  cur : Open
  matched : Bool
  tail : List ℕ
  stopped : Bool
  user : σ

def Search.init {σ : Type*} (s : σ) : Search σ := ⟨Open.new, false, [], false, s⟩

def never (p : List ℕ) : Bool := p.dropLast.contains newline

variable {σ : Type*}

def crossing (p : List ℕ) (st : Search σ) (text : List ℕ) : Bool :=
  if st.matched = false ∧ st.tail ≠ [] then
    let stop := match find newline text with
      | some i => i + 1
      | none => text.length
    let reach := ceilBoundary text text.length (min stop (p.length - 1))
    holds p (st.tail ++ text.take reach)
  else st.matched

/-- The bytes of one part from where the search stands. A turn takes bytes or finds a match, which
the next turn takes. -/
def searchLoop (visit : σ → ℕ × Line → Except Refusal Bool × σ) (width : ℕ) (p : List ℕ) :
    ℕ → List ℕ → Search σ → Except Refusal Bool × Search σ
  | 0, _, st => (.ok true, st)
  | turns + 1, rest, st =>
    if st.matched then
      match find newline rest with
      | none => (.ok true, { st with cur := st.cur.take rest width })
      | some i =>
        let cur := st.cur.take (rest.take (i + 1)) width
        match visit st.user (cur.number, (cur.finish true).1) with
        | (.error e, s) => (.error e, { st with cur := (cur.finish true).2, user := s })
        | (.ok false, s) =>
          (.ok false, { st with cur := (cur.finish true).2, stopped := true, user := s })
        | (.ok true, s) =>
          searchLoop visit width p turns (rest.drop (i + 1))
            ⟨{ (cur.finish true).2 with number := cur.number + 1 }, false, [], st.stopped, s⟩
    else
      let found := findPattern p rest
      let stop := found.getD rest.length
      let gap := rest.take stop
      let start := (afterLastNewline gap).getD 0
      let cur := if (afterLastNewline gap).isSome then
        { st.cur.clear with number := st.cur.number + newlines gap } else st.cur
      let tail := if (afterLastNewline gap).isSome then [] else st.tail
      let cur := cur.take (gap.drop start) width
      match found with
      | some f => searchLoop visit width p turns (rest.drop f)
          { st with cur := cur, matched := true, tail := tail }
      | none =>
        let part := rest.drop start
        let tail := tail ++ part.drop (floorBoundary part (part.length - (p.length - 1)))
        (.ok true, { st with
          cur := cur
          tail := tail.drop (floorBoundary tail (tail.length - (p.length - 1))) })

def searchPart (visit : σ → ℕ × Line → Except Refusal Bool × σ) (width : ℕ) (p : List ℕ)
    (st : Search σ) (text : List ℕ) : Except Refusal Bool × Search σ :=
  if never p then
    (.ok true, { st with cur := { st.cur with number := st.cur.number + newlines text } })
  else
    searchLoop visit width p (2 * text.length + 2) text
      { st with matched := crossing p st text }

/-- Every line that holds the pattern, in order, until the visitor stops. A final line with no LF
is visited at the end. -/
def search (visit : σ → ℕ × Line → Except Refusal Bool × σ) (width : ℕ) (p : List ℕ)
    (parts : List (List ℕ)) (bad : Bool) (s : σ) : Except Refusal Unit × σ :=
  match textsOver (searchPart visit width p) parts bad (Search.init s) with
  | (.error e, st) => (.error e, st.user)
  | (.ok _, st) =>
    if st.stopped = false ∧ st.matched = true then
      ended (visit st.user (st.cur.number, (st.cur.finish true).1))
    else (.ok (), st.user)

/-! ## Occurrences -/

theorem findPattern_eq_some (h : findPattern p l = some i) :
    OccursAt p l i ∧ ∀ j < i, ¬OccursAt p l j := by
  induction l generalizing i with
  | nil =>
    rw [findPattern] at h
    split_ifs at h with hp
    obtain rfl := Option.some.inj h
    refine ⟨?_, fun j hj => absurd hj (by omega)⟩
    exact isPrefixOf_iff_prefix.1 hp
  | cons c rest ih =>
    rw [findPattern] at h
    split_ifs at h with hp
    · obtain rfl := Option.some.inj h
      exact ⟨ isPrefixOf_iff_prefix.1 hp, fun j hj => absurd hj (by omega)⟩
    · obtain ⟨k, hk, rfl⟩ := Option.map_eq_some_iff.1 h
      obtain ⟨hocc, hfirst⟩ := ih hk
      refine ⟨hocc, fun j hj => ?_⟩
      rcases j with _ | j
      · exact fun h0 => hp ( isPrefixOf_iff_prefix.2 h0)
      · exact hfirst j (by omega)

theorem findPattern_eq_none (h : findPattern p l = none) (i : ℕ) : ¬OccursAt p l i := by
  induction l generalizing i with
  | nil =>
    rw [findPattern] at h
    split_ifs at h with hp
    intro hocc
    rw [OccursAt, drop_nil] at hocc
    exact hp ( isPrefixOf_iff_prefix.2 hocc)
  | cons c rest ih =>
    rw [findPattern] at h
    split_ifs at h with hp
    rw [Option.map_eq_none_iff] at h
    rcases i with _ | i
    · exact fun h0 => hp ( isPrefixOf_iff_prefix.2 h0)
    · exact ih h i

theorem holds_iff : holds p l = true ↔ ∃ i, OccursAt p l i := by
  rw [holds]
  rcases h : findPattern p l with _ | i
  · refine iff_of_false (by simp) ?_
    rintro ⟨i, hi⟩
    exact findPattern_eq_none h i hi
  · exact iff_of_true rfl ⟨i, (findPattern_eq_some h).1⟩

theorem holds_eq_false_iff : holds p l = false ↔ ∀ i, ¬OccursAt p l i := by
  rw [← Bool.not_eq_true, holds_iff, not_exists]

theorem occurs_of_infix {g : List ℕ} (h : l <:+: g) (hp : p ≠ []) (hi : OccursAt p l i) :
    ∃ j, OccursAt p g j := by
  obtain ⟨a, b, rfl⟩ := h
  refine ⟨a.length + i, ?_⟩
  have hle := hi.add_le hp
  rw [append_assoc, OccursAt, ← drop_drop, drop_left,
    drop_append_of_le_length (by omega)]
  exact hi.trans (prefix_append _ _)

theorem occursAt_append_left {a b : List ℕ} {j : ℕ} :
    OccursAt p (a ++ b) (a.length + j) ↔ OccursAt p b j := by
  rw [OccursAt, OccursAt, ← drop_drop, drop_left]

/-! ## Lines and boundaries -/

/-- The rest of the line at the start of these bytes, its LF included. -/
def firstLine (rest : List ℕ) : List ℕ :=
  match find newline rest with
  | some i => rest.take (i + 1)
  | none => rest

theorem firstLine_isPrefix (rest : List ℕ) : firstLine rest <+: rest := by
  rw [firstLine]
  split
  · exact take_prefix _ _
  · exact prefix_rfl

theorem find_eq_none_of_not_mem (h : b ∉ l) : find b l = none := by
  rcases hf : find b l with _ | i
  · rfl
  · obtain ⟨hlt, htake, -⟩ := find_eq_some hf
    have hmem : b ∈ l.take (i + 1) := by
      rw [htake]
      simp
    exact absurd (mem_of_mem_take hmem) h

theorem firstLine_of_not_mem (h : newline ∉ rest) : firstLine rest = rest := by
  rw [firstLine, find_eq_none_of_not_mem h]

theorem prefix_firstLine (hnever : never p = false) (h : p <+: rest) : p <+: firstLine rest := by
  rw [firstLine]
  rcases hf : find newline rest with _ | i
  · exact h
  · obtain ⟨hlt, htake, -⟩ := find_eq_some hf
    have hshort : p.length ≤ i + 1 := by
      by_contra hlong
      -- the LF at `i` would stand inside the pattern
      have hfront : rest.take (i + 1) <+: p.dropLast := by
        apply prefix_of_prefix_length_le ( take_prefix _ _)
          (( dropLast_prefix p).trans h)
        rw [length_take, length_dropLast]
        omega
      have hmem : newline ∈ p.dropLast := by
        apply hfront.subset
        rw [htake]
        simp
      rw [never, contains_eq_mem] at hnever
      simp [hmem] at hnever
    apply prefix_of_prefix_length_le h ( take_prefix _ _)
    rw [length_take]
    omega

theorem afterLastNewline_none (h : afterLastNewline bytes = none) : newline ∉ bytes := by
  rw [afterLastNewline, Option.map_eq_none_iff] at h
  simpa using find_eq_none h

theorem afterLastNewline_some {after : ℕ} (h : afterLastNewline bytes = some after) :
    (∃ body, bytes.take after = body ++ [newline]) ∧ newline ∉ bytes.drop after := by
  rw [afterLastNewline, Option.map_eq_some_iff] at h
  obtain ⟨i, hi, rfl⟩ := h
  obtain ⟨hlt, htake, hnot⟩ := find_eq_some hi
  rw [length_reverse] at hlt
  have hdrop : bytes.drop (bytes.length - i) = (bytes.reverse.take i).reverse := by
    rw [take_reverse, reverse_reverse]
  have hlong : bytes.drop (bytes.length - (i + 1)) = newline :: bytes.drop (bytes.length - i) := by
    have := congrArg List.reverse htake
    rw [take_reverse, reverse_reverse] at this
    rw [this, hdrop]
    simp
  refine ⟨⟨bytes.take (bytes.length - (i + 1)), ?_⟩, ?_⟩
  · have hcut : bytes.length - i = (bytes.length - (i + 1)) + 1 := by omega
    rw [hcut, take_add, hlong]
    rfl
  · rw [hdrop]
    simpa using hnot

theorem pushAll_gap (t : Split ℕ) (gap : List ℕ) :
    (pushAll newline t gap).opened
      = (if (afterLastNewline gap).isSome then [] else t.opened) ++
        gap.drop ((afterLastNewline gap).getD 0) := by
  rcases h : afterLastNewline gap with _ | after
  · rw [pushAll_of_not_mem (afterLastNewline_none h)]
    simp
  · obtain ⟨⟨body, hbody⟩, hnot⟩ := afterLastNewline_some h
    have hcut : gap = body ++ [newline] ++ gap.drop after := by
      rw [← hbody, take_append_drop]
    conv_lhs => rw [hcut]
    rw [pushAll_append, pushAll_of_not_mem hnot, pushAll_concat_opened]
    simp

theorem isCharBoundary_zero : isCharBoundary text 0 = true := by
  simp [isCharBoundary]

theorem floorBoundary_le (i : ℕ) : floorBoundary text i ≤ i := by
  induction i with
  | zero => exact le_rfl
  | succ i ih =>
    rw [floorBoundary]
    split_ifs
    · exact le_rfl
    · omega

theorem floorBoundary_spec (i : ℕ) :
    isCharBoundary text (floorBoundary text i) = true ∧
      ∀ b ≤ i, isCharBoundary text b = true → b ≤ floorBoundary text i := by
  induction i with
  | zero =>
    refine ⟨isCharBoundary_zero text, fun b hb _ => hb⟩
  | succ i ih =>
    rw [floorBoundary]
    split_ifs with h
    · exact ⟨h, fun b hb _ => hb⟩
    · refine ⟨ih.1, fun b hb hbound => ?_⟩
      have hne : b ≠ i + 1 := by
        rintro rfl
        exact h hbound
      exact ih.2 b (by omega) hbound

theorem ceilBoundary_bounds {text : List ℕ} (hb : isCharBoundary text b = true) :
    ∀ turns i, i ≤ b → i ≤ ceilBoundary text turns i ∧ ceilBoundary text turns i ≤ b := by
  intro turns
  induction turns with
  | zero => exact fun i hi => ⟨le_rfl, hi⟩
  | succ turns ih =>
    intro i hi
    rw [ceilBoundary]
    split_ifs with h
    · exact ⟨le_rfl, hi⟩
    · have hne : i ≠ b := by
        rintro rfl
        exact h hb
      obtain ⟨h₁, h₂⟩ := ih (i + 1) (by omega)
      exact ⟨by omega, h₂⟩

theorem isCharBoundary_firstLine {text : List ℕ} (h : utf8Valid text = true) :
    isCharBoundary text (firstLine text).length = true := by
  rw [firstLine]
  rcases hf : find newline text with _ | i
  · simp [isCharBoundary]
  · obtain ⟨hlt, htake, -⟩ := find_eq_some hf
    have hlength : (text.take (i + 1)).length = i + 1 := by
      rw [length_take]
      omega
    obtain ⟨-, hnext⟩ := run_take_ascii ((utf8Valid_iff_run text).1 h) htake (by decide)
    simp only [hlength, isCharBoundary]
    rcases hc : text[i + 1]? with _ | c
    · rw [List.getElem?_eq_none_iff] at hc
      simp
      omega
    · simp [hnext c hc]

/-! ## One part -/

/-- The search in the open line of the text `t`, with `rest` of the part to come: a line that has
matched holds the pattern with what is visible of it; in one that has not, matches start only in
what is to come, and its last bytes are kept for a match that crosses into the next part. -/
structure AtLine (width : ℕ) (p : List ℕ) (t : Split ℕ) (rest : List ℕ) (st : Search σ) : Prop where
  cur : st.cur = ⟨t.closed.length + 1, t.opened.take width, t.opened.length⟩
  hit : st.matched = true → ∃ i, OccursAt p (t.opened ++ firstLine rest) i
  miss : st.matched = false → ∀ i, OccursAt p (t.opened ++ firstLine rest) i → t.opened.length ≤ i
  tail : st.matched = false → st.tail <:+ t.opened ∧
    (st.tail = t.opened ∨ p.length - 1 ≤ st.tail.length)
  running : st.stopped = false

variable {st : Search σ}

/-- **The start of a part**: a match that crosses into it is found through the kept bytes. -/
theorem AtLine.cross {text : List ℕ} (hp : p ≠ []) (htext : utf8Valid text = true)
    (h : AtLine width p t [] st) :
    AtLine width p t text { st with matched := crossing p st text } := by
  have hpos := length_pos_of_ne_nil hp
  have hempty : t.opened ++ firstLine [] = t.opened := by simp [firstLine, find]
  by_cases hmatched : st.matched = true
  · have hcross : crossing p st text = true := by simp [crossing, hmatched]
    refine ⟨h.cur, fun _ => ?_, fun hno => ?_, fun hno => ?_, h.running⟩
    · obtain ⟨i, hi⟩ := h.hit hmatched
      rw [hempty] at hi
      exact occurs_of_infix (prefix_append _ _).isInfix hp hi
    · simp [hcross] at hno
    · simp [hcross] at hno
  rw [Bool.not_eq_true] at hmatched
  have hnone : ∀ i, ¬OccursAt p t.opened i := by
    intro i hi
    have hle := h.miss hmatched i (by rwa [hempty])
    have := hi.add_le hp
    omega
  obtain ⟨⟨front, hfront⟩, hlong⟩ := h.tail hmatched
  have hlength := congrArg List.length hfront
  rw [length_append] at hlength
  by_cases htail : st.tail = []
  · have hcross : crossing p st text = false := by simp [crossing, hmatched, htail]
    refine ⟨h.cur, fun hyes => ?_, fun _ i hi => ?_, fun _ => h.tail hmatched, h.running⟩
    · simp [hcross] at hyes
    · by_contra hlt
      rw [htail] at hlong
      rcases hlong with hopened | hshort
      · rw [← hopened] at hlt
        simp at hlt
      · rw [length_nil] at hshort
        exact hnone i ((occursAt_append_iff (by omega)).1 hi)
  · have hcross : crossing p st text = holds p (st.tail ++ text.take
        (ceilBoundary text text.length (min (firstLine text).length (p.length - 1)))) := by
      have hstop : (match find newline text with
          | some i => i + 1
          | none => text.length) = (firstLine text).length := by
        rw [firstLine]
        rcases hf : find newline text with _ | i
        · rfl
        · obtain ⟨hlt, -, -⟩ := find_eq_some hf
          simp only [length_take]
          omega
      simp only [crossing, hmatched, htail, ne_eq, not_false_eq_true, and_self, if_true, hstop]
    obtain ⟨hreach, hbound⟩ := ceilBoundary_bounds (isCharBoundary_firstLine htext) text.length
      (min (firstLine text).length (p.length - 1)) (min_le_left _ _)
    generalize ceilBoundary text text.length (min (firstLine text).length (p.length - 1)) = reach
      at hcross hreach hbound
    have htake : text.take reach <+: firstLine text := by
      apply prefix_of_prefix_length_le ( take_prefix _ _) (firstLine_isPrefix text)
      rw [length_take]
      omega
    refine ⟨h.cur, fun hyes => ?_, fun hno i hi => ?_, fun _ => h.tail hmatched, h.running⟩
    · rw [hcross, holds_iff] at hyes
      obtain ⟨i, hi⟩ := hyes
      obtain ⟨e, he⟩ := htake
      exact occurs_of_infix ⟨front, e, by rw [← hfront, ← he]; simp⟩ hp hi
    · by_contra hlt
      rw [hcross, holds_eq_false_iff] at hno
      have hcross : t.opened.length < i + p.length := by
        by_contra hin
        exact hnone i ((occursAt_append_iff (by omega)).1 hi)
      have hend := hi.add_le hp
      rw [length_append] at hend
      have hlen : (text.take reach).length = reach := by
        have := (firstLine_isPrefix text).length_le
        rw [length_take]
        omega
      have hcut : OccursAt p (t.opened ++ text.take reach) i := by
        obtain ⟨e, he⟩ := htake
        rw [← he, ← append_assoc] at hi
        refine (occursAt_append_iff ?_).1 hi
        rw [length_append, hlen]
        omega
      have hin : front.length ≤ i := by
        rcases hlong with hopened | hshort
        · rw [hopened] at hlength
          omega
        · omega
      obtain ⟨j, rfl⟩ : ∃ j, i = front.length + j := ⟨i - front.length, by omega⟩
      rw [← hfront, append_assoc, occursAt_append_left] at hcut
      exact hno j hcut

def wanted (p : List ℕ) : ℕ → List ℕ → Bool := fun _ l => holds p l

theorem not_occursAt_gap (hp : p ≠ []) (rest : List ℕ) (j : ℕ) :
    ¬OccursAt p (rest.take ((findPattern p rest).getD rest.length)) j := by
  intro hj
  have hend := hj.add_le hp
  have hpos := length_pos_of_ne_nil hp
  have hrest : OccursAt p rest j := by
    rw [← take_append_drop ((findPattern p rest).getD rest.length) rest]
    exact (occursAt_append_iff hend).2 hj
  rw [length_take] at hend
  rcases hf : findPattern p rest with _ | f
  · exact findPattern_eq_none hf j hrest
  · rw [hf, Option.getD_some] at hend
    exact (findPattern_eq_some hf).2 j (by omega) hrest

theorem find_append_of_some (e : List ℕ) (h : find b l = some i) : find b (l ++ e) = some i := by
  induction l generalizing i with
  | nil => simp [find] at h
  | cons c l ih =>
    rw [find] at h
    rw [cons_append, find]
    split_ifs at h ⊢ with hc
    · exact h
    · obtain ⟨j, hj, rfl⟩ := Option.map_eq_some_iff.1 h
      rw [ih hj]
      rfl

theorem partVisits_gap {gap e : List ℕ} (hp : p ≠ [])
    (hmiss : ∀ i, OccursAt p (t.opened ++ firstLine (gap ++ e)) i → t.opened.length ≤ i)
    (hgap : ∀ j, ¬OccursAt p gap j) : partVisits width (wanted p) t gap = [] := by
  apply visits_eq_nil
  intro n _ l hl
  rw [wanted, holds_eq_false_iff]
  intro i hi
  rcases hf : find newline gap with _ | k
  · rw [pushAll_of_not_mem (find_eq_none hf)] at hl
    cases hl
  · obtain ⟨hlt, htake, hnot⟩ := find_eq_some hf
    rw [← take_append_drop (k + 1) gap, pushAll_append_closed, htake, pushAll_line hnot] at hl
    rcases mem_append.1 hl with hfirst | hlater
    · -- the line that was open: matches start behind what was open of it
      obtain rfl : l = t.opened ++ (gap.take k ++ [newline]) := by simpa using hfirst
      have hline : firstLine (gap ++ e) = gap.take (k + 1) := by
        rw [firstLine, find_append_of_some e hf]
        exact take_append_of_le_length (by omega)
      rw [hline, htake] at hmiss
      obtain ⟨j, rfl⟩ : ∃ j, i = t.opened.length + j :=
        ⟨i - t.opened.length, by have := hmiss i hi; omega⟩
      rw [occursAt_append_left, ← htake] at hi
      obtain ⟨j', hj'⟩ := occurs_of_infix ( take_prefix _ _).isInfix hp hi
      exact hgap j' hj'
    · have hpiece : l <:+: gap.drop (k + 1) := by
        have hjoin := split_join newline (gap.drop (k + 1))
        have hmem : l <:+: (split newline (gap.drop (k + 1))).closed.flatten :=
          infix_of_mem_flatten hlater
        rw [← hjoin]
        exact hmem.trans (prefix_append _ _).isInfix
      obtain ⟨j, hj⟩ := occurs_of_infix (hpiece.trans (drop_suffix _ _).isInfix) hp hi
      exact hgap j hj

/-- **The kept bytes** behind a part: the end of the open line, all of it or as long as a match
that crosses needs. Both cuts go down to a character, so a cut part leaves nothing of the bytes
kept before. -/
theorem keptTail_spec {opened tail part : List ℕ} {keep : ℕ}
    (htail : tail <:+ opened ∧ (tail = opened ∨ keep ≤ tail.length)) :
    let tail₁ := tail ++ part.drop (floorBoundary part (part.length - keep))
    let tail₂ := tail₁.drop (floorBoundary tail₁ (tail₁.length - keep))
    tail₂ <:+ opened ++ part ∧ (tail₂ = opened ++ part ∨ keep ≤ tail₂.length) := by
  obtain ⟨⟨front, hfront⟩, hlong⟩ := htail
  have hcut₁ := floorBoundary_le part (part.length - keep)
  have hbound := (floorBoundary_spec part (part.length - keep)).1
  generalize floorBoundary part (part.length - keep) = cut₁ at hcut₁ hbound
  intro tail₁ tail₂
  have hcut₂ := floorBoundary_le tail₁ (tail₁.length - keep)
  have hlast := (floorBoundary_spec tail₁ (tail₁.length - keep)).2
  have htail₂ : tail₂ = tail₁.drop (floorBoundary tail₁ (tail₁.length - keep)) := rfl
  generalize floorBoundary tail₁ (tail₁.length - keep) = cut₂ at hcut₂ hlast htail₂
  have hlength₂ : tail₂.length = tail₁.length - cut₂ := by rw [htail₂, length_drop]
  rcases Nat.eq_zero_or_pos cut₁ with hzero | hpos
  · have htail₁ : tail₁ = tail ++ part := by
      simp only [tail₁, hzero, drop_zero]
    have hsuffix : tail₁ <:+ opened ++ part := ⟨front, by rw [htail₁, ← append_assoc, hfront]⟩
    refine ⟨htail₂ ▸ (drop_suffix _ _).trans hsuffix, ?_⟩
    rcases Nat.lt_or_ge tail₁.length keep with hshort | henough
    · have hopened : tail = opened := by
        rcases hlong with hopened | hkeep
        · exact hopened
        · rw [htail₁, length_append] at hshort
          omega
      have hnone : cut₂ = 0 := by omega
      exact .inl (by rw [htail₂, hnone, drop_zero, htail₁, hopened])
    · exact .inr (by omega)
  · -- the part was cut, so its end alone is long enough
    have htail₁ : tail₁.length = tail.length + (part.length - cut₁) := by
      simp only [tail₁, length_append, length_drop]
    have hmid : isCharBoundary tail₁ tail.length = true := by
      have hbyte : tail₁[tail.length]? = part[cut₁]? := by
        simp only [tail₁]
        rw [getElem?_append_right le_rfl, Nat.sub_self, getElem?_drop, Nat.add_zero]
      simp only [isCharBoundary, Bool.or_eq_true, beq_iff_eq] at hbound ⊢
      rcases hbound with (h | h) | h
      · omega
      · exact .inl (.inr (by omega))
      · exact .inr (by rw [hbyte]; exact h)
    have hge : tail.length ≤ cut₂ := hlast tail.length (by omega) hmid
    have hsuffix : tail₂ <:+ part := by
      have hsplit : tail₂ = (part.drop cut₁).drop (cut₂ - tail.length) := by
        rw [htail₂]
        simp only [tail₁]
        rw [drop_append, drop_of_length_le hge, nil_append]
      rw [hsplit]
      exact (drop_suffix _ _).trans (drop_suffix _ _)
    exact ⟨hsuffix.trans (suffix_append _ _), .inr (by omega)⟩

/-- The search of a part does what giving the visitor its matching lines does. -/
structure SearchFollows (r : Except Refusal Bool × σ) (r' : Except Refusal Bool × Search σ)
    (inv : Search σ → Prop) : Prop where
  answer : r'.1 = r.1
  user : r'.2.user = r.2
  cur : r.1 = .ok true → inv r'.2
  stopped : r.1 = .ok false → r'.2.stopped = true

theorem SearchFollows.refl {inv : Search σ → Prop} (h : inv st) :
    SearchFollows (.ok true, st.user) (.ok true, st) inv where
  answer := rfl
  user := rfl
  cur _ := h
  stopped h := by cases h

theorem AtLine.gapCur (h : AtLine width p t rest st) (gap : List ℕ) :
    (if (afterLastNewline gap).isSome then
        { st.cur.clear with number := st.cur.number + newlines gap } else st.cur).take
        (gap.drop ((afterLastNewline gap).getD 0)) width
      = ⟨(pushAll newline t gap).closed.length + 1, (pushAll newline t gap).opened.take width,
          (pushAll newline t gap).opened.length⟩ := by
  have hclosed : (pushAll newline t gap).closed.length = t.closed.length + newlines gap :=
    length_pushAll t gap
  rw [pushAll_gap, hclosed, h.cur]
  rcases hlast : afterLastNewline gap with _ | after
  · have hnone : newlines gap = 0 := count_eq_zero.2 (afterLastNewline_none hlast)
    simp only [Option.isSome_none, Bool.false_eq_true, if_false, Option.getD_none, drop_zero,
      Open.take_eq, hnone, Nat.add_zero]
  · have htake := Open.take_eq (t.closed.length + newlines gap + 1) width [] (gap.drop after)
    rw [take_nil, length_nil] at htake
    have hnumber : t.closed.length + 1 + newlines gap = t.closed.length + newlines gap + 1 := by
      omega
    simp only [Option.isSome_some, if_true, Option.getD_some, Open.clear, hnumber, htake]

variable (visit : σ → ℕ × Line → Except Refusal Bool × σ)

/-- **A part** from where the search stands. -/
theorem searchLoop_follows (width : ℕ) (hp : p ≠ []) (hnever : never p = false) :
    ∀ (turns : ℕ) (rest : List ℕ) (t : Split ℕ) (st : Search σ),
      2 * rest.length + (if st.matched then 1 else 2) ≤ turns → AtLine width p t rest st →
      SearchFollows (Pieces.deliver visit (partVisits width (wanted p) t rest) st.user)
        (searchLoop visit width p turns rest st)
        (AtLine width p (pushAll newline t rest) []) := by
  intro turns
  induction turns with
  | zero =>
    intro rest t st hturns _
    split_ifs at hturns <;> omega
  | succ turns ih =>
    intro rest t st hturns h
    have hempty : firstLine [] = [] := rfl
    rw [searchLoop]
    by_cases hmatched : st.matched = true
    · rw [if_pos hmatched] at hturns ⊢
      obtain ⟨i₀, hi₀⟩ := h.hit hmatched
      rcases hf : find newline rest with _ | i
      · -- the line goes on behind the part
        have hnot := find_eq_none hf
        rw [partVisits_of_not_mem hnot]
        refine @SearchFollows.refl σ { st with cur := st.cur.take rest width } _ ?_
        rw [pushAll_of_not_mem hnot]
        refine ⟨?_, fun _ => ⟨i₀, ?_⟩, fun hno => ?_, fun hno => ?_, h.running⟩
        · rw [h.cur, Open.take_eq]
        · rwa [hempty, append_nil, ← firstLine_of_not_mem hnot]
        · exact absurd hmatched (by simpa using hno)
        · exact absurd hmatched (by simpa using hno)
      · obtain ⟨hlt, htake, hnot⟩ := find_eq_some hf
        have hline : firstLine rest = rest.take (i + 1) := by rw [firstLine, hf]
        rw [hline] at hi₀
        have hstep := pushAll_line (s := t) hnot
        rw [← htake] at hstep
        have hone : partVisits width (wanted p) t (rest.take (i + 1))
            = [(t.closed.length + 1, shown width (t.opened ++ rest.take (i + 1)))] := by
          have hwanted : wanted p (t.closed.length + 1) (t.opened ++ rest.take (i + 1)) = true :=
            holds_iff.2 ⟨i₀, hi₀⟩
          rw [partVisits, htake, pushAll_line hnot, ← htake]
          simp [visits, hwanted]
        have hvisits := partVisits_append width (wanted p) t (rest.take (i + 1)) (rest.drop (i + 1))
        rw [take_append_drop, hone, singleton_append] at hvisits
        rw [hvisits, deliver_cons]
        simp only [h.cur, Open.take_eq, Open.finish, Open.clear]
        change SearchFollows (thenDeliver (visit st.user (t.closed.length + 1,
          line ((t.opened ++ rest.take (i + 1)).take width)
            (t.opened ++ rest.take (i + 1)).length true)) _) _ _
        rcases visit st.user (t.closed.length + 1, line ((t.opened ++ rest.take (i + 1)).take width)
            (t.opened ++ rest.take (i + 1)).length true) with ⟨e | _ | _, s'⟩
        · exact ⟨rfl, rfl, fun h => (by cases h), fun h => (by cases h)⟩
        · exact ⟨rfl, rfl, fun h => (by cases h), fun _ => rfl⟩
        · have hgo := ih (rest.drop (i + 1)) (pushAll newline t (rest.take (i + 1)))
            ⟨⟨t.closed.length + 1 + 1, [], 0⟩, false, [], st.stopped, s'⟩
            (by simp only [Bool.false_eq_true, if_false, length_drop]; omega)
            (by
              rw [hstep]
              refine ⟨by simp, fun h => (by cases h), fun _ i _ => by simp, fun _ => ?_, h.running⟩
              exact ⟨suffix_rfl, .inl rfl⟩)
          rw [← pushAll_append, take_append_drop] at hgo
          exact hgo
    · rw [Bool.not_eq_true] at hmatched
      rw [hmatched] at hturns
      rw [if_neg (by simp)] at hturns
      rw [if_neg (by simp [hmatched])]
      have hgap := not_occursAt_gap hp rest
      have hcut := take_append_drop ((findPattern p rest).getD rest.length) rest
      have hcur := h.gapCur (rest.take ((findPattern p rest).getD rest.length))
      have hopened := pushAll_gap t (rest.take ((findPattern p rest).getD rest.length))
      have hnone : partVisits width (wanted p) t
          (rest.take ((findPattern p rest).getD rest.length)) = [] :=
        partVisits_gap hp (by rw [hcut]; exact h.miss hmatched) hgap
      simp only [hcur]
      rcases hf : findPattern p rest with _ | f
      · -- no match to come: the rest of the part is a gap
        rw [hf, Option.getD_none, take_length] at hgap hnone hopened
        simp only [Option.getD_none, take_length]
        rw [hnone]
        have hmiss : ∀ i, ¬OccursAt p (pushAll newline t rest).opened i := by
          intro i hi
          rw [hopened] at hi
          rcases hlast : afterLastNewline rest with _ | after
          · rw [hlast] at hi
            simp only [Option.isSome_none, Bool.false_eq_true, if_false, Option.getD_none,
              drop_zero] at hi
            have hle := h.miss hmatched i
              (by rwa [firstLine_of_not_mem (afterLastNewline_none hlast)])
            obtain ⟨j, rfl⟩ : ∃ j, i = t.opened.length + j := ⟨i - t.opened.length, by omega⟩
            rw [occursAt_append_left] at hi
            exact hgap j hi
          · rw [hlast] at hi
            simp only [Option.isSome_some, if_true, Option.getD_some, nil_append] at hi
            obtain ⟨j, hj⟩ := occurs_of_infix (drop_suffix _ _).isInfix hp hi
            exact hgap j hj
        have htail := @keptTail_spec (if (afterLastNewline rest).isSome then [] else t.opened)
          (if (afterLastNewline rest).isSome then [] else st.tail)
          (rest.drop ((afterLastNewline rest).getD 0)) (p.length - 1) (by
            split_ifs
            · exact ⟨suffix_rfl, .inl rfl⟩
            · exact h.tail hmatched)
        rw [← hopened] at htail
        refine ⟨rfl, rfl, fun _ => ⟨rfl, fun hyes => ?_, fun _ i hi => ?_, fun _ => htail, h.running⟩,
          fun h => (by cases h)⟩
        · exact absurd hyes (by simp [hmatched])
        · rw [hempty, append_nil] at hi
          exact absurd hi (hmiss i)
      · obtain ⟨hocc, -⟩ := findPattern_eq_some hf
        rw [hf, Option.getD_some] at hcut hnone hcur
        have hvisits := partVisits_append width (wanted p) t (rest.take f) (rest.drop f)
        rw [hcut, hnone, nil_append] at hvisits
        rw [hvisits]
        have hgo := ih (rest.drop f) (pushAll newline t (rest.take f))
          { st with
            cur := ⟨(pushAll newline t (rest.take f)).closed.length + 1,
              (pushAll newline t (rest.take f)).opened.take width,
              (pushAll newline t (rest.take f)).opened.length⟩
            matched := true
            tail := if (afterLastNewline (rest.take f)).isSome then [] else st.tail }
          (by simp only [if_true, length_drop]; omega)
          (by
            refine ⟨rfl, fun _ => ⟨(pushAll newline t (rest.take f)).opened.length + 0, ?_⟩,
              fun hno => (by simp at hno), fun hno => (by simp at hno), h.running⟩
            rw [occursAt_append_left]
            exact prefix_firstLine hnever hocc)
        rw [← pushAll_append, hcut] at hgo
        exact hgo

/-! ## A whole text -/

theorem searchParts_follows (width : ℕ) (hp : p ≠ []) (hnever : never p = false)
    (parts : List (List ℕ)) :
    ∀ (t : Split ℕ) (st : Search σ), (∀ part ∈ parts, utf8Valid part = true) →
      AtLine width p t [] st →
      SearchFollows (Pieces.deliver visit (partVisits width (wanted p) t parts.flatten) st.user)
        (Pieces.deliver (searchPart visit width p) parts st)
        (AtLine width p (pushAll newline t parts.flatten) []) := by
  induction parts with
  | nil => exact fun t st _ h => SearchFollows.refl h
  | cons part parts ih =>
    intro t st hvalid h
    have hcross := h.cross hp (hvalid part mem_cons_self)
    have hpart := searchLoop_follows visit width hp hnever (2 * part.length + 2) part t _
      (by split_ifs <;> omega) hcross
    rw [flatten_cons, partVisits_append, deliver_append, deliver_cons, pushAll_append,
      searchPart, hnever, if_neg (by simp)]
    generalize searchLoop visit width p (2 * part.length + 2) part
      { st with matched := crossing p st part } = r' at hpart ⊢
    change SearchFollows (Pieces.deliver visit (partVisits width (wanted p) t part) st.user) r' _ at hpart
    generalize Pieces.deliver visit (partVisits width (wanted p) t part) st.user = r at hpart ⊢
    obtain ⟨answer, st'⟩ := r'
    obtain ⟨e | _ | _, s'⟩ := r
    · obtain rfl : answer = .error e := hpart.answer
      exact ⟨rfl, hpart.user, fun h => (by cases h), fun h => (by cases h)⟩
    · obtain rfl : answer = .ok false := hpart.answer
      exact ⟨rfl, hpart.user, fun h => (by cases h), fun _ => hpart.stopped rfl⟩
    · obtain rfl : answer = .ok true := hpart.answer
      obtain rfl : st'.user = s' := hpart.user
      exact ih _ st' (fun part hmem => hvalid part (mem_cons_of_mem _ hmem)) (hpart.cur rfl)

/-- The lines a search visits: those of the text that hold the pattern, the open one only where
the text is whole. -/
def searchLines (width : ℕ) (p t : List ℕ) (bad : Bool) : List (ℕ × Line) :=
  if bad then partVisits width (wanted p) ⟨[], []⟩ t else textVisits width (wanted p) t

theorem AtLine.matched_eq (hp : p ≠ []) (h : AtLine width p t [] st) :
    st.matched = holds p t.opened := by
  have hempty : t.opened ++ firstLine [] = t.opened := by simp [firstLine, find]
  rcases hm : st.matched with _ | _
  · symm
    rw [holds_eq_false_iff]
    intro i hi
    have hle := h.miss hm i (by rwa [hempty])
    have hend := hi.add_le hp
    have := length_pos_of_ne_nil hp
    omega
  · symm
    rw [holds_iff]
    obtain ⟨i, hi⟩ := h.hit hm
    exact ⟨i, by rwa [hempty] at hi⟩

theorem AtLine.finish (hp : p ≠ []) (h : AtLine width p t [] st) :
    (if st.stopped = false ∧ st.matched = true then
        ended (visit st.user (st.cur.number, (st.cur.finish true).1)) else (.ok (), st.user))
      = ended (Pieces.deliver visit (visits width (wanted p) (t.closed.length + 1)
          (if t.opened = [] then [] else [t.opened])) st.user) := by
  have hmatched := h.matched_eq hp
  by_cases hopened : t.opened = []
  · have hno : st.matched = false := by
      rw [hmatched, hopened, holds_eq_false_iff]
      intro i hi
      have := hi.add_le hp
      have := length_pos_of_ne_nil hp
      rw [length_nil] at *
      omega
    rw [if_neg (by simp [hno]), if_pos hopened]
    rfl
  · rw [if_neg hopened, visits, wanted, ← hmatched, visits]
    rcases st.matched with _ | _
    · rw [if_neg (by simp), if_neg (by simp)]
      rfl
    · rw [if_pos ⟨h.running, rfl⟩, if_pos rfl, deliver_cons, h.cur]
      change ended (visit st.user (t.closed.length + 1,
        line (t.opened.take width) t.opened.length true)) = ended (thenDeliver (visit st.user
          (t.closed.length + 1, line (t.opened.take width) t.opened.length true)) _)
      rcases visit st.user (t.closed.length + 1, line (t.opened.take width) t.opened.length true)
        with ⟨e | _ | _, s'⟩
      · rfl
      · rfl
      · rfl

theorem holds_of_never {t : List ℕ} (hnever : never p = true) (hl : l ∈ pieces newline t) :
    holds p l = false := by
  rw [holds_eq_false_iff]
  intro i hi
  have hmem : newline ∈ p.dropLast := by simpa [never] using hnever
  have hlast : newline ∉ l.dropLast := by
    rw [pieces, mem_append] at hl
    rcases hl with hclosed | hopened
    · obtain ⟨body, rfl, hbody⟩ := closed_line hclosed
      simpa using hbody
    · split_ifs at hopened with ho
      · cases hopened
      · rw [mem_singleton.1 hopened]
        exact fun h => not_mem_opened t (dropLast_subset _ h)
  obtain ⟨k, hk⟩ := mem_iff_getElem?.1 hmem
  rw [getElem?_dropLast] at hk
  split_ifs at hk with hkp
  have hend := List.IsPrefix.length_le hi
  rw [length_drop] at hend
  have hbyte : l[i + k]? = some newline := by
    rw [← getElem?_drop, ← hk]
    obtain ⟨e, he⟩ := hi
    rw [← he, getElem?_append_left (by omega)]
  apply hlast
  rw [mem_iff_getElem?]
  refine ⟨i + k, ?_⟩
  rw [getElem?_dropLast, if_pos (by omega), hbyte]

theorem searchPart_never (width : ℕ) (hnever : never p = true) (parts : List (List ℕ))
    (st : Search σ) :
    ∃ number, Pieces.deliver (searchPart visit width p) parts st
      = (.ok true, { st with cur := { st.cur with number := number } }) := by
  induction parts generalizing st with
  | nil => exact ⟨st.cur.number, rfl⟩
  | cons part parts ih =>
    rw [deliver_cons, searchPart, if_pos hnever]
    exact ih _

/-- **The search** of a text, whatever its parts, is the delivery of its lines that hold the
pattern. -/
theorem search_eq (width : ℕ) (hp : p ≠ []) {parts : List (List ℕ)}
    (hvalid : ∀ part ∈ parts, utf8Valid part = true) (bad : Bool) (s : σ) :
    search visit width p parts bad s
      = textsOver visit (searchLines width p parts.flatten bad) bad s := by
  rw [search, textsOver, textsOver]
  by_cases hnever : never p = true
  · -- no line holds the pattern
    have hnone : textVisits width (wanted p) parts.flatten = [] := by
      apply visits_eq_nil
      intro n _ l hl
      exact holds_of_never hnever hl
    have hlines : searchLines width p parts.flatten bad = [] := by
      rw [searchLines]
      split_ifs
      · rw [textVisits_eq] at hnone
        exact (append_eq_nil_iff.1 hnone).1
      · exact hnone
    obtain ⟨number, hdeliver⟩ := searchPart_never visit width hnever parts (Search.init s)
    rw [hlines, hdeliver]
    rcases bad with _ | _
    · simp [Search.init, Pieces.deliver]
    · rfl
  · rw [Bool.not_eq_true] at hnever
    have hstart : AtLine width p ⟨[], []⟩ [] (Search.init s) := by
      refine ⟨by simp [Search.init, Open.new], fun h => (by cases h), fun _ i _ => Nat.zero_le _,
        fun _ => ⟨suffix_rfl, .inl rfl⟩, rfl⟩
    have h := searchParts_follows visit width hp hnever parts ⟨[], []⟩ (Search.init s) hvalid hstart
    generalize Pieces.deliver (searchPart visit width p) parts (Search.init s) = r' at h ⊢
    change SearchFollows (Pieces.deliver visit (partVisits width (wanted p) ⟨[], []⟩ parts.flatten) s) _ _ at h
    obtain ⟨answer, st⟩ := r'
    have hsplit : Pieces.deliver visit (searchLines width p parts.flatten bad) s
        = thenDeliver (Pieces.deliver visit (partVisits width (wanted p) ⟨[], []⟩ parts.flatten) s)
          (Pieces.deliver visit (if bad then [] else visits width (wanted p)
            ((split newline parts.flatten).closed.length + 1)
            (if (split newline parts.flatten).opened = [] then []
              else [(split newline parts.flatten).opened]))) := by
      rw [← deliver_append, searchLines]
      rcases bad with _ | _
      · rw [if_neg (by simp), if_neg (by simp), textVisits_eq]
      · rw [if_pos rfl, if_pos rfl, append_nil]
    rw [hsplit]
    generalize Pieces.deliver visit (partVisits width (wanted p) ⟨[], []⟩ parts.flatten) s = r at h ⊢
    obtain ⟨e | _ | _, s'⟩ := r
    · obtain rfl : answer = .error e := h.answer
      obtain rfl : st.user = s' := h.user
      rfl
    · obtain rfl : answer = .ok false := h.answer
      obtain rfl : st.user = s' := h.user
      have hstopped : st.stopped = true := h.stopped rfl
      simp [hstopped, thenDeliver]
    · obtain rfl : answer = .ok true := h.answer
      obtain rfl : st.user = s' := h.user
      have hat : AtLine width p (split newline parts.flatten) [] st := h.cur rfl
      rcases bad with _ | _
      · simp only [Bool.false_eq_true, if_false, thenDeliver]
        rw [hat.finish visit hp]
        generalize Pieces.deliver visit (visits width (wanted p)
          ((split newline parts.flatten).closed.length + 1)
          (if (split newline parts.flatten).opened = [] then []
            else [(split newline parts.flatten).opened])) st.user = r
        obtain ⟨e | _ | _, s'⟩ := r <;> rfl
      · rfl

end LayerFs.Window
