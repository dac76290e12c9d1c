import LayerFs.Service.Shift
import LayerFs.Service.Text

/-!
# Exact text edits (`write/edit.rs`)

An edit scans the whole file first, window by window: the bytes must be text, and the old text is
counted by the failure-table automaton, which starts afresh behind every match. Only a count of
one goes on to the shift.

* `Counted` — **the invariant** of the automaton: what the count says of the text read so far.
* `scan_spec` — **the scan**, for every windowing: binary exactly for a file that is not text,
  else the count of the whole file.
* `edit_promised_iff` — **when an edit keeps its promise**: unless all the occurrences of a text
  that has several overlap the first, or the new text is too large to write.
-/

namespace LayerFs.Edit

open List

open Matching Utf8

variable {c old p t utf8 : List ℕ} {offset q : ℕ}

/-- How many bytes a read at an offset gives; a read before the end gives at least one. -/
structure Windowing where
  count : ℕ → ℕ
  pos : ∀ offset, 0 < count offset

/-- The automaton of a scan: its state, the matches so far and where the last one starts. -/
structure Matcher where
  state : ℕ
  count : ℕ
  found : ℕ
  deriving DecidableEq, Repr

def Matcher.init : Matcher := ⟨0, 0, 0⟩

/-- The byte at position `i` of the file. A full match counts and starts the automaton afresh. -/
def feed (p : List ℕ) (failure : List ℕ) (i : ℕ) (m : Matcher) (b : ℕ) : Matcher :=
  let state := advance p failure m.state b
  if state = p.length then ⟨0, m.count + 1, i + 1 - p.length⟩ else { m with state := state }

/-- A window, whose first byte is at position `i`. -/
def feedWindow (p failure : List ℕ) : ℕ → Matcher → List ℕ → Matcher
  | _, m, [] => m
  | i, m, b :: rest => feedWindow p failure (i + 1) (feed p failure i m b) rest

/-- Length of the valid text of the pending bytes; `none` where they are not text. Bytes that end
inside a character wait for the next window while there is one. -/
def validPart (pending : List ℕ) (more : Bool) : Option ℕ :=
  match fromUtf8 pending with
  | .ok _ => some pending.length
  | .error e => if e.errorLen = none ∧ more then some e.validUpTo else none

/-- The scan from `offset`: the automaton and the bytes of a character the last window left
incomplete. Every turn takes at least one byte, so the file's length bounds the turns. -/
def scan (w : Windowing) (path : String) (p failure c : List ℕ) :
    ℕ → ℕ → Matcher → List ℕ → Except Refusal Matcher
  | 0, _, m, _ => .ok m
  | turns + 1, offset, m, utf8 =>
    if offset < c.length then
      let bytes := read c offset (min editWindow (w.count offset))
      if bytes.isEmpty then .error ⟨.failed, "edit shortened", none⟩
      else
        match validPart (utf8 ++ bytes) (offset + bytes.length < c.length) with
        | none => .error ⟨.binary, path, none⟩
        | some valid =>
          if (utf8 ++ bytes).contains 0 then .error ⟨.binary, path, none⟩
          else
            scan w path p failure c turns (offset + bytes.length)
              (feedWindow p failure offset m bytes) ((utf8 ++ bytes).drop valid)
    else .ok m

/-- One exact edit of the entry of `kind` with the bytes `c`: one occurrence of `old` becomes
`new`. -/
def edit (w : Windowing) (kind : InodeKind) (path : String) (old new c : List ℕ) : Outcome :=
  if old.isEmpty then (.error ⟨.invalidInput, "oldText is empty", none⟩, c)
  else if kind ≠ .regularFile then (.error ⟨.notFile, path, none⟩, c)
  else
    match scan w path old (failure old) c c.length 0 .init [] with
    | .error e => (.error e, c)
    | .ok m =>
      if m.count ≠ 1 then
        (.error ⟨if m.count = 0 then .noMatch else .ambiguousMatch, path, some m.count⟩, c)
      else if old = new then (.ok (), c)
      else shift m.found old new c

/-! ## Counting -/

/-- What the automaton knows of the text `t` read so far, having started afresh at `q`: it stands
at the longest end of the text from there, no occurrence starts from there, and the count tells
how the occurrences before lie. -/
structure Counted (p t : List ℕ) (m : Matcher) (q : ℕ) : Prop where
  le : q ≤ t.length
  state : m.state = longest p (t.drop q)
  lt : m.state < p.length
  past : ∀ i, q ≤ i → ¬OccursAt p t i
  none : m.count = 0 → q = 0
  one : m.count = 1 → q = m.found + p.length ∧ OccursAt p t m.found ∧
    ∀ i < m.found, ¬OccursAt p t i
  several : 2 ≤ m.count → ∃ first second, OccursAt p t first ∧ OccursAt p t second ∧
    first + p.length ≤ second

theorem Counted.init (hp : p ≠ []) : Counted p [] .init 0 where
  le := le_rfl
  state := by simp [Matcher.init]
  lt := length_pos_of_ne_nil hp
  past i _ h := by
    have hle := h.add_le hp
    have := length_pos_of_ne_nil hp
    rw [length_nil] at hle
    omega
  none _ := rfl
  one h := by simp [Matcher.init] at h
  several h := by simp [Matcher.init] at h

variable {m : Matcher}

/-- **One byte** keeps the invariant. -/
theorem Counted.feed (hp : p ≠ []) (h : Counted p t m q) (b : ℕ) :
    ∃ q', Counted p (t ++ [b]) (Edit.feed p (failure p) t.length m b) q' := by
  have hpos := length_pos_of_ne_nil hp
  have hdrop : (t ++ [b]).drop q = t.drop q ++ [b] := drop_append_of_le_length h.le
  have hstate : advance p (failure p) m.state b = longest p ((t ++ [b]).drop q) := by
    have hlt := h.lt
    rw [h.state] at hlt
    rw [hdrop, h.state]
    exact advance_eq hlt (fun i hi => failure_table hp i (hi.trans hlt))
  have hle := h.le
  have hend : (t ++ [b]).length = t.length + 1 := by simp
  have hold : ∀ {i}, OccursAt p t i → OccursAt p (t ++ [b]) i :=
    fun hi => (occursAt_concat hp).2 (.inl hi)
  simp only [Edit.feed]
  by_cases hfull : advance p (failure p) m.state b = p.length
  · -- the pattern ends here, behind the last start
    rw [if_pos hfull]
    have hsuffix : p <:+ (t ++ [b]).drop q := longest_eq_length_iff.1 (hstate ▸ hfull)
    have hroom : q + p.length ≤ t.length + 1 := by
      have := hsuffix.length_le
      rw [length_drop] at this
      omega
    have hhere : OccursAt p (t ++ [b]) (t.length + 1 - p.length) :=
      (occursAt_end_iff (by omega)).2 (hsuffix.trans (drop_suffix _ _))
    have hbefore : ∀ i, q ≤ i → i < t.length + 1 - p.length → ¬OccursAt p (t ++ [b]) i := by
      intro i hi hlt hocc
      rcases (occursAt_concat hp).1 hocc with hocc | ⟨heq, -⟩
      · exact h.past i hi hocc
      · omega
    refine ⟨t.length + 1, ⟨by omega, ?_, hpos, ?_, ?_, ?_, ?_⟩⟩
    · rw [drop_of_length_le (by omega), longest_nil]
    · intro i hi hocc
      have := hocc.add_le hp
      omega
    · intro hzero
      simp at hzero
    · intro hone
      have hzero : m.count = 0 := by simpa using hone
      refine ⟨by simp only; omega, hhere, fun i hi => hbefore i (by have := h.none hzero; omega) hi⟩
    · intro htwo
      rcases Nat.lt_or_ge m.count 2 with hone | hmany
      · obtain ⟨hq, hfirst, -⟩ := h.one (by simp only at htwo; omega)
        exact ⟨m.found, _, hold hfirst, hhere, by omega⟩
      · obtain ⟨first, second, h₁, h₂, hfar⟩ := h.several hmany
        exact ⟨first, second, hold h₁, hold h₂, hfar⟩
  · rw [if_neg hfull]
    have hpast : ∀ i, q ≤ i → ¬OccursAt p (t ++ [b]) i := by
      intro i hi hocc
      rcases (occursAt_concat hp).1 hocc with hocc | ⟨heq, hsuffix⟩
      · exact h.past i hi hocc
      · apply hfull
        rw [hstate, longest_eq_length_iff]
        apply suffix_of_suffix_length_le hsuffix (drop_suffix _ _)
        rw [length_drop]
        omega
    refine ⟨q, ⟨by omega, hstate, ?_, hpast, h.none, ?_, ?_⟩⟩
    · have := longest_le p ((t ++ [b]).drop q)
      rw [hstate] at hfull ⊢
      simp only
      omega
    · intro hone
      obtain ⟨hq, hfirst, hleast⟩ := h.one hone
      refine ⟨hq, hold hfirst, fun i (hi : i < m.found) hocc => ?_⟩
      rcases (occursAt_concat hp).1 hocc with hocc | ⟨heq, -⟩
      · exact hleast i hi hocc
      · have := hfirst.add_le hp
        omega
    · intro htwo
      obtain ⟨first, second, h₁, h₂, hfar⟩ := h.several htwo
      exact ⟨first, second, hold h₁, hold h₂, hfar⟩

/-- **A window** keeps the invariant. -/
theorem Counted.feedWindow (hp : p ≠ []) (bytes : List ℕ) :
    ∀ {t : List ℕ} {m : Matcher} {q : ℕ}, Counted p t m q →
      ∃ q', Counted p (t ++ bytes) (Edit.feedWindow p (failure p) t.length m bytes) q' := by
  induction bytes with
  | nil =>
    intro t m q h
    exact ⟨q, by simpa [Edit.feedWindow] using h⟩
  | cons b bytes ih =>
    intro t m q h
    obtain ⟨q₁, h₁⟩ := h.feed hp b
    obtain ⟨q₂, h₂⟩ := ih h₁
    refine ⟨q₂, ?_⟩
    simpa [Edit.feedWindow] using h₂

/-! ## The scan -/

/-- The scan before `offset`: everything read so far may be the start of a text, the pending bytes
leave the machine where the text so far does, and the automaton has counted it. -/
structure Scanned (p c : List ℕ) (offset : ℕ) (m : Matcher) (utf8 : List ℕ) : Prop where
  le : offset ≤ c.length
  valid : ∃ s, run .start (c.take offset) = some s ∧ run .start utf8 = some s ∧
    (offset = c.length → s = .start)
  clean : 0 ∉ c.take offset ∧ 0 ∉ utf8
  counted : ∃ q, Counted p (c.take offset) m q

theorem isText_iff_run : IsText c ↔ run .start c = some .start ∧ 0 ∉ c := by
  rw [IsText, utf8Valid_iff_run]

theorem not_isText_of_take {n : ℕ} (h : run .start (c.take n) = none ∨ 0 ∈ c.take n) :
    ¬IsText c := by
  rw [isText_iff_run]
  rintro ⟨hrun, hclean⟩
  rcases h with h | h
  · obtain ⟨s, hs, -⟩ := run_take hrun n
    rw [h] at hs
    cases hs
  · exact hclean (mem_of_mem_take h)

/-- What a scan gives: binary for a file that is not text, else the count of the file. -/
def ScanAnswer (path : String) (p c : List ℕ) (r : Except Refusal Matcher) : Prop :=
  (IsText c ∧ ∃ m q, r = .ok m ∧ Counted p c m q) ∨
    (¬IsText c ∧ r = .error ⟨.binary, path, none⟩)

theorem Scanned.finish {path : String} (h : Scanned p c offset m utf8) (hend : c.length ≤ offset) :
    ScanAnswer path p c (.ok m) := by
  obtain rfl : offset = c.length := le_antisymm h.le hend
  obtain ⟨s, hs, -, hstart⟩ := h.valid
  obtain ⟨q, hq⟩ := h.counted
  have hclean := h.clean.1
  rw [take_length] at hs hq hclean
  exact .inl ⟨isText_iff_run.2 ⟨hstart rfl ▸ hs, hclean⟩, m, q, rfl, hq⟩

/-- **The pending bytes** of a window decide: they are not text and neither is the file, or what
is left of them behind the valid part stands for all that was read. -/
theorem validPart_spec {bytes : List ℕ} (h : Scanned p c offset m utf8)
    (hbytes : c.take (offset + bytes.length) = c.take offset ++ bytes)
    (hle : offset + bytes.length ≤ c.length) :
    match validPart (utf8 ++ bytes) (offset + bytes.length < c.length) with
    | none => ¬IsText c
    | some valid => ∃ s, run .start (c.take (offset + bytes.length)) = some s ∧
        run .start ((utf8 ++ bytes).drop valid) = some s ∧
        (offset + bytes.length = c.length → s = .start) := by
  obtain ⟨s, hs, hutf8, -⟩ := h.valid
  have hsame : run .start (utf8 ++ bytes) = run .start (c.take (offset + bytes.length)) := by
    rw [hbytes, run_append, run_append, hs, hutf8]
  have hanswers := fromUtf8_answers (utf8 ++ bytes)
  simp only [validPart]
  rcases hf : fromUtf8 (utf8 ++ bytes) with ⟨valid, _ | n⟩ | ⟨⟩
  · rw [hf] at hanswers
    obtain ⟨-, hwhole, ⟨s', hne, hs'⟩, -⟩ := hanswers
    by_cases hmore : offset + bytes.length < c.length
    · simp only [hmore, decide_true, and_self, if_true]
      refine ⟨s', hsame ▸ hs', ?_, fun heq => absurd heq hmore.ne⟩
      rw [← hs', ← take_append_drop valid (utf8 ++ bytes), run_append_of_start hwhole,
        take_append_drop]
    · simp only [hmore, decide_false, Bool.false_eq_true, and_false, if_false]
      have hall : c.take (offset + bytes.length) = c := take_of_length_le (by omega)
      rw [isText_iff_run, ← hall, ← hsame, hs']
      rintro ⟨hstart, -⟩
      exact hne (Option.some.inj hstart)
  · rw [hf] at hanswers
    obtain ⟨-, -, hnone, -⟩ := hanswers
    simp only [reduceCtorEq, false_and, if_false]
    exact not_isText_of_take (.inl (hsame ▸ hnone))
  · rw [hf] at hanswers
    have hstart : run .start (utf8 ++ bytes) = some .start := hanswers
    refine ⟨.start, hsame ▸ hstart, ?_, fun _ => rfl⟩
    rw [drop_length]
    rfl

theorem take_add_read (c : List ℕ) (offset n : ℕ) :
    c.take (offset + (read c offset n).length) = c.take offset ++ read c offset n := by
  rw [take_add, read, length_take]
  congr 1
  rw [take_eq_take_iff]
  omega

/-- **The scan** of a file answers for the whole file, however its reads are windowed. -/
theorem scan_spec (w : Windowing) (path : String) (hp : p ≠ []) :
    ∀ turns offset m utf8, c.length - offset ≤ turns → Scanned p c offset m utf8 →
      ScanAnswer path p c (scan w path p (failure p) c turns offset m utf8) := by
  intro turns
  induction turns with
  | zero =>
    intro offset m utf8 hturns h
    exact h.finish (by omega)
  | succ turns ih =>
    intro offset m utf8 hturns h
    rw [scan]
    by_cases hmore : offset < c.length
    · rw [if_pos hmore]
      have hpos := w.pos offset
      have hwindow : 0 < editWindow := by decide
      have hbytes := take_add_read c offset (min editWindow (w.count offset))
      have hlength : (read c offset (min editWindow (w.count offset))).length
          = min (min editWindow (w.count offset)) (c.length - offset) := by
        rw [read, length_take, length_drop]
      generalize read c offset (min editWindow (w.count offset)) = bytes at hbytes hlength
      have hne : bytes.isEmpty = false := by
        rw [isEmpty_eq_false_iff, ← length_pos_iff]
        omega
      have hdecide := validPart_spec h hbytes (by omega)
      simp only [hne, Bool.false_eq_true, if_false]
      rcases hv : validPart (utf8 ++ bytes) (offset + bytes.length < c.length) with _ | valid
      · rw [hv] at hdecide
        exact .inr ⟨hdecide, rfl⟩
      · rw [hv] at hdecide
        by_cases hnul : 0 ∈ utf8 ++ bytes
        · simp only [contains_eq_mem, hnul, decide_true, if_true]
          have hread : 0 ∈ c.take (offset + bytes.length) := by
            rw [hbytes, mem_append]
            exact .inr ((mem_append.1 hnul).resolve_left h.clean.2)
          exact .inr ⟨not_isText_of_take (.inr hread), rfl⟩
        · simp only [contains_eq_mem, hnul, decide_false, Bool.false_eq_true, if_false]
          obtain ⟨q, hq⟩ := h.counted
          obtain ⟨q', hq'⟩ := hq.feedWindow hp bytes
          rw [length_take, min_eq_left h.le, ← hbytes] at hq'
          apply ih _ _ _ (by omega)
          refine ⟨by omega, hdecide, ⟨?_, ?_⟩, q', hq'⟩
          · rw [hbytes, mem_append]
            rw [mem_append] at hnul
            exact fun h0 => h0.elim h.clean.1 (fun h0 => hnul (.inr h0))
          · exact fun h0 => hnul (mem_of_mem_drop h0)
    · rw [if_neg hmore]
      exact h.finish (by omega)

theorem scan_answer (w : Windowing) (path : String) {p : List ℕ} (c : List ℕ) (hp : p ≠ []) :
    ScanAnswer path p c (scan w path p (failure p) c c.length 0 .init []) := by
  apply scan_spec w path hp _ _ _ _ (by omega)
  refine ⟨Nat.zero_le _, ⟨.start, rfl, rfl, fun _ => rfl⟩, ⟨by simp, by simp⟩, 0, ?_⟩
  exact Counted.init hp

/-! ## The promise -/

def RefusedWith (code : Code) (r : Outcome) : Prop := ∃ message n, r.1 = .error ⟨code, message, n⟩

/-- What an edit promises of its outcome: binary exactly for a file that is not text; else success
exactly for one occurrence, no match for none, an ambiguous match for several; and a refusal
leaves the file as it was. -/
structure Promised (old c : List ℕ) (r : Outcome) : Prop where
  binary : RefusedWith .binary r ↔ ¬IsText c
  success : IsText c → (r.1 = .ok () ↔ ∃! i, OccursAt old c i)
  noMatch : IsText c → (RefusedWith .noMatch r ↔ ∀ i, ¬OccursAt old c i)
  ambiguous : IsText c → (RefusedWith .ambiguousMatch r ↔
    ∃ i j, i < j ∧ OccursAt old c i ∧ OccursAt old c j)
  unchanged : r.1 ≠ .ok () → r.2 = c

def Tangled (old c : List ℕ) : Prop :=
  ∃ first, OccursAt old c first ∧ (∃ i, first < i ∧ OccursAt old c i) ∧
    ∀ i, OccursAt old c i → first ≤ i ∧ i < first + old.length

/-- The new text is one write and the edited file is no larger than a file may be. -/
def Fits (old new c : List ℕ) : Prop :=
  new.length ≤ writeWindow ∧ c.length + new.length - old.length ≤ maximumSize

def Breaks (old new c : List ℕ) : Prop :=
  IsText c ∧ (Tangled old c ∨ ((∃! i, OccursAt old c i) ∧ new ≠ old ∧ ¬Fits old new c))

theorem Counted.bounds (h : Counted p t m q) (hone : m.count = 1) {i : ℕ} (hi : OccursAt p t i) :
    m.found ≤ i ∧ i < m.found + p.length := by
  obtain ⟨hq, -, hleast⟩ := h.one hone
  refine ⟨?_, ?_⟩
  · by_contra hlt
    exact hleast i (by omega) hi
  · by_contra hge
    exact h.past i (by omega) hi

theorem Counted.unique_or_tangled (h : Counted p t m q) (hone : m.count = 1) :
    (∃! i, OccursAt p t i) ∨ Tangled p t := by
  obtain ⟨-, hfound, -⟩ := h.one hone
  by_cases hmore : ∃ i, m.found < i ∧ OccursAt p t i
  · exact .inr ⟨m.found, hfound, hmore, fun i hi => h.bounds hone hi⟩
  · refine .inl ⟨m.found, hfound, fun i hi => ?_⟩
    by_contra hne
    have := (h.bounds hone hi).1
    exact hmore ⟨i, by omega, hi⟩

theorem Tangled.several (h : Tangled p t) : ∃ i j, i < j ∧ OccursAt p t i ∧ OccursAt p t j := by
  obtain ⟨first, hfirst, ⟨i, hlt, hi⟩, -⟩ := h
  exact ⟨first, i, hlt, hfirst, hi⟩

theorem not_unique_of_several (h : ∃ i j, i < j ∧ OccursAt p t i ∧ OccursAt p t j) :
    ¬∃! i, OccursAt p t i := by
  rintro ⟨k, -, hk⟩
  obtain ⟨i, j, hlt, hi, hj⟩ := h
  have := hk i hi
  have := hk j hj
  omega

theorem not_tangled_of_far {first second : ℕ} (h₁ : OccursAt p t first) (h₂ : OccursAt p t second)
    (hfar : first + p.length ≤ second) : ¬Tangled p t := by
  rintro ⟨f, -, -, hall⟩
  have := hall first h₁
  have := hall second h₂
  omega

theorem edit_of_not_isText (w : Windowing) (path : String) {old new c : List ℕ} (hold : old ≠ [])
    (hc : ¬IsText c) :
    edit w .regularFile path old new c = (.error ⟨.binary, path, none⟩, c) := by
  rcases scan_answer w path c hold with ⟨htext, -⟩ | ⟨-, hscan⟩
  · exact absurd htext hc
  · rw [edit, if_neg (by simpa using hold), if_neg (by simp), hscan]

theorem edit_of_isText (w : Windowing) (path : String) {old c : List ℕ} (new : List ℕ)
    (hold : old ≠ []) (hc : IsText c) :
    ∃ m q, Counted old c m q ∧ edit w .regularFile path old new c =
      if m.count ≠ 1 then
        (.error ⟨if m.count = 0 then .noMatch else .ambiguousMatch, path, some m.count⟩, c)
      else if old = new then (.ok (), c)
      else shift m.found old new c := by
  rcases scan_answer w path c hold with ⟨-, m, q, hscan, hm⟩ | ⟨htext, -⟩
  · refine ⟨m, q, hm, ?_⟩
    rw [edit, if_neg (by simpa using hold), if_neg (by simp), hscan]
  · exact absurd hc htext

theorem promised_of_refused {code : Code} {message : String} {n : Option ℕ}
    (hbinary : code = .binary ↔ ¬IsText c) (hsuccess : IsText c → ¬∃! i, OccursAt old c i)
    (hnone : IsText c → (code = .noMatch ↔ ∀ i, ¬OccursAt old c i))
    (hseveral : IsText c → (code = .ambiguousMatch ↔
      ∃ i j, i < j ∧ OccursAt old c i ∧ OccursAt old c j)) :
    Promised old c (.error ⟨code, message, n⟩, c) := by
  have hwith : ∀ k, RefusedWith k (.error ⟨code, message, n⟩, c) ↔ code = k := by
    intro k
    constructor
    · rintro ⟨message', n', h⟩
      simpa using congrArg (fun r => match r with | .error e => e.code | .ok _ => k) h
    · rintro rfl
      exact ⟨message, n, rfl⟩
  refine ⟨(hwith _).trans hbinary, fun h => ?_, fun h => (hwith _).trans (hnone h),
    fun h => (hwith _).trans (hseveral h), fun _ => rfl⟩
  exact iff_of_false (by simp) (hsuccess h)

theorem promised_of_ok {x : List ℕ} (hc : IsText c) (hone : ∃! i, OccursAt old c i) :
    Promised old c (.ok (), x) := by
  have hwith : ∀ k, ¬RefusedWith k (.ok (), x) := by
    rintro k ⟨message, n, h⟩
    cases h
  refine ⟨iff_of_false (hwith _) (not_not.2 hc), fun _ => iff_of_true rfl hone,
    fun _ => iff_of_false (hwith _) ?_, fun _ => iff_of_false (hwith _) ?_, fun h => absurd rfl h⟩
  · obtain ⟨i, hi, -⟩ := hone
    exact fun h => h i hi
  · exact fun h => not_unique_of_several h hone

theorem promised_of_not_breaks (w : Windowing) (path : String) {old new c : List ℕ}
    (hold : old ≠ []) (h : ¬Breaks old new c) :
    Promised old c (edit w .regularFile path old new c) := by
  by_cases hc : IsText c
  · have hgood := fun hbad => h ⟨hc, hbad⟩
    obtain ⟨m, q, hm, hedit⟩ := edit_of_isText w path new hold hc
    rw [hedit]
    by_cases hone : m.count = 1
    · rw [if_neg (by simpa using hone)]
      obtain hunique | htangled := hm.unique_or_tangled hone
      · obtain ⟨-, hfound, -⟩ := hm.one hone
        by_cases hsame : old = new
        · rw [if_pos hsame]
          exact promised_of_ok hc hunique
        · rw [if_neg hsame]
          have hfits : Fits old new c := by
            by_contra hlarge
            exact hgood (.inr ⟨hunique, Ne.symm hsame, hlarge⟩)
          rw [shift_eq_replaced (hfound.add_le hold) hfits.1 hfits.2]
          exact promised_of_ok hc hunique
      · exact absurd (.inl htangled) hgood
    · rw [if_pos hone]
      rcases Nat.eq_zero_or_pos m.count with hzero | hpos
      · have hnone : ∀ i, ¬OccursAt old c i :=
          fun i => hm.past i (by have := hm.none hzero; omega)
        rw [if_pos hzero]
        apply promised_of_refused
        · simp [hc]
        · rintro - ⟨i, hi, -⟩
          exact hnone i hi
        · exact fun _ => iff_of_true rfl hnone
        · refine fun _ => iff_of_false (by simp) ?_
          rintro ⟨i, -, -, hi, -⟩
          exact hnone i hi
      · rw [if_neg (by omega)]
        obtain ⟨first, second, h₁, h₂, hfar⟩ := hm.several (by omega)
        have hlength := length_pos_of_ne_nil hold
        have hseveral : ∃ i j, i < j ∧ OccursAt old c i ∧ OccursAt old c j :=
          ⟨first, second, by omega, h₁, h₂⟩
        apply promised_of_refused
        · simp [hc]
        · exact fun _ => not_unique_of_several hseveral
        · exact fun _ => iff_of_false (by simp) (fun hnone => hnone first h₁)
        · exact fun _ => iff_of_true rfl hseveral
  · rw [edit_of_not_isText w path hold hc]
    apply promised_of_refused
    · exact iff_of_true rfl hc
    · exact fun htext => absurd htext hc
    · exact fun htext => absurd htext hc
    · exact fun htext => absurd htext hc

theorem not_promised_of_breaks (w : Windowing) (path : String) {old new c : List ℕ}
    (hold : old ≠ []) (h : Breaks old new c) :
    ¬Promised old c (edit w .regularFile path old new c) := by
  obtain ⟨hc, hbad⟩ := h
  obtain ⟨m, q, hm, hedit⟩ := edit_of_isText w path new hold hc
  intro hp
  have hone : m.count = 1 := by
    rcases Nat.lt_trichotomy m.count 1 with hzero | hone | hmany
    · have hnone : ∀ i, ¬OccursAt old c i :=
        fun i => hm.past i (by have := hm.none (by omega); omega)
      rcases hbad with ⟨first, hfirst, -⟩ | ⟨⟨i, hi, -⟩, -⟩
      · exact absurd hfirst (hnone first)
      · exact absurd hi (hnone i)
    · exact hone
    · obtain ⟨first, second, h₁, h₂, hfar⟩ := hm.several (by omega)
      have hlength := length_pos_of_ne_nil hold
      rcases hbad with htangled | ⟨hunique, -⟩
      · exact absurd htangled (not_tangled_of_far h₁ h₂ hfar)
      · exact absurd hunique (not_unique_of_several ⟨first, second, by omega, h₁, h₂⟩)
  rw [hedit, if_neg (by simpa using hone)] at hp
  rcases hbad with htangled | ⟨hunique, hne, hlarge⟩
  · -- several occurrences, and nothing says that the match is ambiguous
    obtain ⟨message, n, hrefused⟩ := (hp.ambiguous hc).2 htangled.several
    by_cases hsame : old = new
    · rw [if_pos hsame] at hrefused
      cases hrefused
    · rw [if_neg hsame] at hrefused
      rcases shift_limitOnly _ _ _ _ _ hrefused with h | h <;> cases h
  · -- one occurrence, and the new text is not written
    have hok := (hp.success hc).2 hunique
    obtain ⟨-, hfound, -⟩ := hm.one hone
    rw [if_neg (Ne.symm hne)] at hok
    exact hlarge (shift_ok_bounds (x := (shift m.found old new c).2) (hfound.add_le hold)
      (Prod.ext hok rfl))

/-- **When an edit keeps its promise**: for every file, every old text but the empty one, every new
text and every windowing of the reads, unless the file is a text in which the old text lies
several times and always over its first occurrence, or once while the new text cannot be
written. -/
theorem edit_promised_iff (w : Windowing) (path : String) {old : List ℕ} (new c : List ℕ)
    (hold : old ≠ []) :
    Promised old c (edit w .regularFile path old new c) ↔ ¬Breaks old new c := by
  constructor
  · intro hp hbad
    exact not_promised_of_breaks w path hold hbad hp
  · exact promised_of_not_breaks w path hold

def Windowing.bytewise : Windowing := ⟨fun _ => 1, fun _ => Nat.one_pos⟩

/-- The text `ab` with `b` replaced, read one byte at a time. -/
theorem edit_promised_iff_ab :
    Promised [98] [97, 98] (edit .bytewise .regularFile "/f" [98] [99] [97, 98]) := by
  apply (edit_promised_iff .bytewise "/f" [99] [97, 98] (by simp)).2
  rintro ⟨-, ⟨first, -, ⟨i, hlt, hi⟩, hall⟩ | ⟨-, -, hlarge⟩⟩
  · have := hall i hi
    simp only [length_singleton] at this
    omega
  · exact hlarge ⟨by decide, by decide⟩

/-- The text `aaa` holds `aa` twice, at 0 and at 1, and the edit takes the first: it succeeds
where it promises an ambiguous match. -/
theorem edit_overlapping :
    OccursAt [97, 97] [97, 97, 97] 0 ∧ OccursAt [97, 97] [97, 97, 97] 1 ∧
      edit .bytewise .regularFile "/f" [97, 97] [98] [97, 97, 97] = (.ok (), [98, 97]) ∧
      ¬Promised [97, 97] [97, 97, 97]
        (edit .bytewise .regularFile "/f" [97, 97] [98] [97, 97, 97]) := by
  have hedit : edit .bytewise .regularFile "/f" [97, 97] [98] [97, 97, 97] = (.ok (), [98, 97]) := by
    decide +kernel
  have h₀ : OccursAt [97, 97] [97, 97, 97] 0 := by decide
  have h₁ : OccursAt [97, 97] [97, 97, 97] 1 := by decide
  refine ⟨h₀, h₁, hedit, fun hp => ?_⟩
  rw [hedit] at hp
  obtain ⟨message, n, h⟩ := (hp.ambiguous (by decide)).2 ⟨0, 1, Nat.one_pos, h₀, h₁⟩
  cases h

end LayerFs.Edit
