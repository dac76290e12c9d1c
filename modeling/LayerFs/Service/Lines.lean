import LayerFs.Compare.Text
import LayerFs.Service.Text
import LayerFs.Support.Pieces

/-!
# Lines of a text that arrives in parts (`read/window.rs`)

A line is its bytes up to and including its LF; a final line may have none. The scanner keeps the
number of the line it is in, the first bytes of it that are shown and its length so far, so a line
may arrive over any number of parts and be of any length.

* `atText` — **the scanner's state** is a function of the text before it.
* `linesPart_follows`, `linesParts_follows` — **the visits** of a part, and of any parts, are the
  lines the text closes there.
-/

namespace LayerFs.Window

open List

open Pieces Utf8

variable {ls : List (List ℕ)} {bytes l : List ℕ} {b count first number width : ℕ}
  {wanted : ℕ → List ℕ → Bool} (a : List ℕ)

/-- A refused call. -/
structure Refusal where
  code : String
  message : String
  deriving DecidableEq, Repr

def binary : Refusal := ⟨"Binary", "text contains NUL or invalid UTF-8"⟩

/-- Items of a text delivered to a visitor; `bad` when a NUL or invalid UTF-8 ends the text, which
is refused unless the visitor stopped before. -/
def textsOver {τ β : Type*} (visit : τ → β → Except Refusal Bool × τ) (parts : List β)
    (bad : Bool) (s : τ) : Except Refusal Unit × τ :=
  match Pieces.deliver visit parts s with
  | (.error e, s) => (.error e, s)
  | (.ok false, s) => (.ok (), s)
  | (.ok true, s) => if bad then (.error binary, s) else (.ok (), s)

/-! ## The scanner -/

/-- One line as it is reported: its shown text, its length, and whether the shown text is shorter. -/
structure Line where
  text : List ℕ
  bytes : ℕ
  truncated : Bool
  matched : Bool
  deriving DecidableEq, Repr

/-- The line being scanned: its number, shown bytes and length so far. -/
structure Open where
  number : ℕ
  head : List ℕ
  length : ℕ
  deriving DecidableEq, Repr

namespace Open

def new : Open := ⟨1, [], 0⟩

/-- Appends a part of the line, keeping its first `width` bytes. -/
def take (o : Open) (part : List ℕ) (width : ℕ) : Open :=
  let room := min (width - o.head.length) part.length
  { o with head := o.head ++ part.take room, length := o.length + part.length }

def clear (o : Open) : Open := { o with head := [], length := 0 }

end Open

def line (head : List ℕ) (length : ℕ) (matched : Bool) : Line :=
  ⟨head.take (validLength head), length, validLength head < length, matched⟩

def Open.finish (o : Open) (matched : Bool) : Line × Open := (line o.head o.length matched, o.clear)

/-- Position of the first `b`. -/
def find (b : ℕ) : List ℕ → Option ℕ
  | [] => none
  | c :: rest => if c = b then some 0 else (find b rest).map (· + 1)

def newlines (bytes : List ℕ) : ℕ := bytes.count newline

def afterLastNewline (bytes : List ℕ) : Option ℕ :=
  (find newline bytes.reverse).map (bytes.length - ·)

def skipChunk : ℕ := 4096

/-- Byte by byte through one chunk: the position after the `count`th LF, or the LFs seen. -/
def skipPart (count : ℕ) : ℕ → ℕ → List ℕ → Except ℕ ℕ
  | seen, _, [] => .error seen
  | seen, i, b :: rest =>
    if b = newline then
      if seen + 1 = count then .ok (i + 1) else skipPart count (seen + 1) (i + 1) rest
    else skipPart count seen (i + 1) rest

def skipChunks (count : ℕ) : ℕ → ℕ → ℕ → List ℕ → Except ℕ ℕ
  | 0, seen, _, _ => .error seen
  | turns + 1, seen, done, bytes =>
    if bytes.isEmpty then .error seen
    else
      let part := bytes.take skipChunk
      if seen + newlines part < count then
        skipChunks count turns (seen + newlines part) (done + part.length) (bytes.drop skipChunk)
      else
        match skipPart count seen done part with
        | .ok next => .ok next
        | .error seen => skipChunks count turns seen done (bytes.drop skipChunk)

/-- The position after the `count`th LF, or the LFs the bytes hold when they hold fewer. -/
def skip (bytes : List ℕ) (count : ℕ) : Except ℕ ℕ := skipChunks count bytes.length 0 0 bytes

/-- The scan of lines between two parts: the line it is in, whether the visitor stopped it, and
the visitor's own state. -/
structure LineScan (σ : Type*) where
  cur : Open
  stopped : Bool
  user : σ

variable {σ ε : Type*}

/-- The bytes of one part, from line `first` on to the visitor; earlier lines are only counted.
Every turn takes at least one byte. -/
def linesLoop (visit : σ → ℕ × Line → Except ε Bool × σ) (width first : ℕ) :
    ℕ → List ℕ → LineScan σ → Except ε Bool × LineScan σ
  | 0, _, st => (.ok true, st)
  | turns + 1, bytes, st =>
    if bytes.isEmpty then (.ok true, st)
    else if st.cur.number < first then
      match skip bytes (first - st.cur.number) with
      | .ok next =>
        linesLoop visit width first turns (bytes.drop next)
          { st with cur := { st.cur with number := first } }
      | .error seen =>
        (.ok true, { st with cur := { st.cur with number := st.cur.number + seen } })
    else
      match find newline bytes with
      | some i =>
        let cur := st.cur.take (bytes.take (i + 1)) width
        match visit st.user (cur.number, (cur.finish true).1) with
        | (.error e, s) => (.error e, ⟨(cur.finish true).2, st.stopped, s⟩)
        | (.ok false, s) => (.ok false, ⟨(cur.finish true).2, true, s⟩)
        | (.ok true, s) =>
          linesLoop visit width first turns (bytes.drop (i + 1))
            ⟨{ (cur.finish true).2 with number := cur.number + 1 }, st.stopped, s⟩
      | none => (.ok true, { st with cur := st.cur.take bytes width })

def linesPart (visit : σ → ℕ × Line → Except ε Bool × σ) (width first : ℕ) (st : LineScan σ)
    (bytes : List ℕ) : Except ε Bool × LineScan σ :=
  linesLoop visit width first bytes.length bytes st

/-- The end of a text that was delivered without a refusal: a final line with no LF. -/
def linesEnd (visit : σ → ℕ × Line → Except ε Bool × σ) (st : LineScan σ) : Except ε Unit × σ :=
  if st.stopped = false ∧ 0 < st.cur.length then
    match visit st.user (st.cur.number, (st.cur.finish true).1) with
    | (.error e, s) => (.error e, s)
    | (.ok _, s) => (.ok (), s)
  else (.ok (), st.user)

def linesOver (visit : σ → ℕ × Line → Except ε Bool × σ) (width first : ℕ)
    (parts : List (List ℕ)) (s : σ) : Except ε Unit × σ :=
  match Pieces.deliver (linesPart visit width first) parts ⟨Open.new, false, s⟩ with
  | (.error e, st) => (.error e, st.user)
  | (.ok _, st) => linesEnd visit st

/-! ## Finding -/

theorem find_eq_none (h : find b l = none) : b ∉ l := by
  induction l with
  | nil => simp
  | cons c rest ih =>
    rw [find] at h
    split_ifs at h with hc
    rw [Option.map_eq_none_iff] at h
    simp [ih h, Ne.symm hc]

theorem find_eq_some {i : ℕ} (h : find b l = some i) :
    i < l.length ∧ l.take (i + 1) = l.take i ++ [b] ∧ b ∉ l.take i := by
  induction l generalizing i with
  | nil => simp [find] at h
  | cons c rest ih =>
    rw [find] at h
    split_ifs at h with hc
    · obtain rfl := Option.some.inj h
      simp [hc]
    · obtain ⟨j, hj, rfl⟩ := Option.map_eq_some_iff.1 h
      obtain ⟨hlt, htake, hnot⟩ := ih hj
      refine ⟨by simpa using hlt, ?_, ?_⟩
      · rw [take_succ_cons, htake]
        simp
      · simp [hnot, Ne.symm hc]

/-! ## Skipping -/

/-- Where a count of LFs ends: behind the last of them, or with all that there are. -/
def Skipped (bytes : List ℕ) (count : ℕ) : Except ℕ ℕ → Prop
  | .ok next => next ≤ bytes.length ∧ 0 < next ∧ newlines (bytes.take next) = count ∧
      ∃ body, bytes.take next = body ++ [newline]
  | .error seen => newlines bytes = seen ∧ seen < count

theorem newlines_append (b : List ℕ) : newlines (a ++ b) = newlines a + newlines b :=
  count_append

theorem newlines_concat : newlines (a ++ [newline]) = newlines a + 1 := by
  rw [newlines_append]
  rfl

theorem skipPart_spec (count : ℕ) (whole : List ℕ) :
    ∀ (part done : List ℕ), newlines done < count → done ++ part <+: whole →
      match skipPart count (newlines done) done.length part with
      | .ok next => Skipped whole count (.ok next)
      | .error seen => seen = newlines (done ++ part) ∧ seen < count := by
  intro part
  induction part with
  | nil =>
    intro done hseen _
    simpa [skipPart] using hseen
  | cons b part ih =>
    intro done hseen hfront
    have hstep : done ++ b :: part = (done ++ [b]) ++ part := by simp
    rw [skipPart]
    by_cases hb : b = newline
    · subst hb
      rw [if_pos rfl]
      have hmore := newlines_concat done
      by_cases hlast : newlines done + 1 = count
      · rw [if_pos hlast]
        have htake : whole.take (done.length + 1) = done ++ [newline] := by
          rw [hstep] at hfront
          have := prefix_iff_eq_take.1 ((prefix_append _ _).trans hfront)
          simpa using this.symm
        have hle : done.length + 1 ≤ whole.length := by
          have := hfront.length_le
          simp at this
          omega
        exact ⟨hle, Nat.succ_pos _, by rw [htake, hmore, hlast], done, htake⟩
      · rw [if_neg hlast]
        have := ih (done ++ [newline]) (by omega) (hstep ▸ hfront)
        rw [hmore, length_append, length_singleton] at this
        rw [hstep]
        exact this
    · rw [if_neg hb]
      have hsame : newlines (done ++ [b]) = newlines done := by
        rw [newlines_append]
        simp [newlines, hb]
      have := ih (done ++ [b]) (by omega) (hstep ▸ hfront)
      rw [hsame, length_append, length_singleton] at this
      rw [hstep]
      exact this

theorem skipChunks_spec {whole : List ℕ} :
    ∀ (turns : ℕ) (bytes done : List ℕ), bytes.length ≤ turns → newlines done < count →
      done ++ bytes = whole →
      Skipped whole count (skipChunks count turns (newlines done) done.length bytes) := by
  intro turns
  induction turns with
  | zero =>
    intro bytes done hle hseen hwhole
    obtain rfl := eq_nil_of_length_eq_zero (Nat.le_zero.1 hle)
    rw [append_nil] at hwhole
    exact ⟨by rw [hwhole], hseen⟩
  | succ turns ih =>
    intro bytes done hle hseen hwhole
    rw [skipChunks]
    by_cases hempty : bytes = []
    · subst hempty
      rw [append_nil] at hwhole
      exact ⟨by rw [hwhole], hseen⟩
    · have hpos := length_pos_of_ne_nil hempty
      have hchunk : 0 < skipChunk := by decide
      have hcut : (done ++ bytes.take skipChunk) ++ bytes.drop skipChunk = whole := by
        rw [append_assoc, take_append_drop, hwhole]
      rw [if_neg (by simpa using hempty)]
      simp only
      have hcountAll := newlines_append done (bytes.take skipChunk)
      by_cases hfew : newlines done + newlines (bytes.take skipChunk) < count
      · rw [if_pos hfew]
        have := ih (bytes.drop skipChunk) (done ++ bytes.take skipChunk)
          (by rw [length_drop]; omega) (by omega) hcut
        rwa [hcountAll, length_append] at this
      · rw [if_neg hfew]
        have hpart := skipPart_spec count whole (bytes.take skipChunk) done hseen
          ⟨_, hcut⟩
        rcases hr : skipPart count (newlines done) done.length (bytes.take skipChunk) with seen | next
        · rw [hr] at hpart
          obtain ⟨hall, hlt⟩ := hpart
          omega
        · rw [hr] at hpart
          exact hpart

/-- **Skipping** stops right behind the line it counts to, or has counted every line. -/
theorem skip_spec (bytes : List ℕ) (hcount : 0 < count) : Skipped bytes count (skip bytes count) :=
  skipChunks_spec bytes.length bytes [] le_rfl (by simpa [newlines] using hcount) rfl

/-! ## Visits -/

def shown (width : ℕ) (l : List ℕ) : Line := line (l.take width) l.length true

/-- The visits of consecutive lines, the first of which has this number: those that are wanted. -/
def visits (width : ℕ) (wanted : ℕ → List ℕ → Bool) : ℕ → List (List ℕ) → List (ℕ × Line)
  | _, [] => []
  | number, l :: ls =>
    if wanted number l then (number, shown width l) :: visits width wanted (number + 1) ls
    else visits width wanted (number + 1) ls

/-- The lines from line `first` on. -/
def fromLine (first : ℕ) : ℕ → List ℕ → Bool := fun number _ => first ≤ number

def atText (width first : ℕ) (t : Split ℕ) : Open :=
  if t.closed.length + 1 < first then ⟨t.closed.length + 1, [], 0⟩
  else ⟨t.closed.length + 1, t.opened.take width, t.opened.length⟩

theorem visits_append (a b : List (List ℕ)) :
    visits width wanted number (a ++ b)
      = visits width wanted number a ++ visits width wanted (number + a.length) b := by
  induction a generalizing number with
  | nil => rfl
  | cons l a ih =>
    rw [cons_append, visits, visits, ih, length_cons]
    have hnumber : number + 1 + a.length = number + (a.length + 1) := by omega
    rw [hnumber]
    split_ifs
    · rfl
    · rfl

theorem visits_eq_nil (h : ∀ n, n < number + ls.length → ∀ l ∈ ls, wanted n l = false) :
    visits width wanted number ls = [] := by
  induction ls generalizing number with
  | nil => rfl
  | cons l ls ih =>
    rw [length_cons] at h
    rw [visits, h number (by omega) l mem_cons_self]
    exact ih (fun n hn l' hl' => h n (by omega) l' (mem_cons_of_mem l hl'))

theorem visits_before (h : number + ls.length ≤ first) :
    visits width (fromLine first) number ls = [] := by
  apply visits_eq_nil
  intro n hn l _
  simp only [fromLine, decide_eq_false_iff_not]
  omega

theorem Open.take_eq (n width : ℕ) (o part : List ℕ) :
    Open.take ⟨n, o.take width, o.length⟩ part width
      = ⟨n, (o ++ part).take width, (o ++ part).length⟩ := by
  have hhead : o.take width ++ part.take (min (width - (o.take width).length) part.length)
      = (o ++ part).take width := by
    rw [take_append, length_take]
    congr 1
    rw [take_eq_take_iff]
    omega
  simp only [Open.take, hhead, length_append]

def partVisits (width : ℕ) (wanted : ℕ → List ℕ → Bool) (t : Split ℕ) (bytes : List ℕ) :
    List (ℕ × Line) :=
  visits width wanted (t.closed.length + 1) (pushAll newline ⟨[], t.opened⟩ bytes).closed

theorem partVisits_append (width : ℕ) (wanted : ℕ → List ℕ → Bool) (t : Split ℕ)
    (a b : List ℕ) :
    partVisits width wanted t (a ++ b)
      = partVisits width wanted t a ++ partVisits width wanted (pushAll newline t a) b := by
  have ht := pushAll_closed newline t.closed t.opened a
  rw [partVisits, pushAll_append_closed, visits_append, partVisits, partVisits]
  change pushAll newline t a = _ at ht
  rw [ht, length_append, Nat.add_right_comm]

theorem partVisits_of_not_mem {t : Split ℕ} (h : newline ∉ bytes) :
    partVisits width wanted t bytes = [] := by
  rw [partVisits, pushAll_of_not_mem h]
  rfl

theorem partVisits_before {t : Split ℕ} (h : t.closed.length + 1 + newlines bytes ≤ first) :
    partVisits width (fromLine first) t bytes = [] := by
  apply visits_before
  rw [length_pushAll]
  simpa [newlines] using h

/-- The scan of a part does what giving the visitor its lines does: it answers the same, leaves
the visitor the same and, where it goes on, stands behind the part. -/
structure Follows (r : Except ε Bool × σ) (r' : Except ε Bool × LineScan σ) (o : Open) : Prop where
  answer : r'.1 = r.1
  user : r'.2.user = r.2
  cur : r.1 = .ok true → r'.2.cur = o ∧ r'.2.stopped = false
  stopped : r.1 = .ok false → r'.2.stopped = true

theorem Follows.refl (o : Open) (s : σ) :
    Follows ((.ok true, s) : Except ε Bool × σ) (.ok true, ⟨o, false, s⟩) o where
  answer := rfl
  user := rfl
  cur _ := ⟨rfl, rfl⟩
  stopped h := by cases h

variable (visit : σ → ℕ × Line → Except ε Bool × σ)

/-- **A part.** -/
theorem linesLoop_follows (width first : ℕ) :
    ∀ (turns : ℕ) (bytes : List ℕ) (t : Split ℕ) (s : σ), bytes.length ≤ turns →
      Follows (Pieces.deliver visit (partVisits width (fromLine first) t bytes) s)
        (linesLoop visit width first turns bytes ⟨atText width first t, false, s⟩)
        (atText width first (pushAll newline t bytes)) := by
  intro turns
  induction turns with
  | zero =>
    intro bytes t s hle
    obtain rfl := eq_nil_of_length_eq_zero (Nat.le_zero.1 hle)
    exact Follows.refl _ s
  | succ turns ih =>
    intro bytes t s hle
    rw [linesLoop]
    by_cases hempty : bytes = []
    · subst hempty
      exact Follows.refl _ s
    rw [if_neg (by simpa using hempty)]
    by_cases hearly : t.closed.length + 1 < first
    · -- lines before the first wanted one are counted, not taken
      have hcur : atText width first t = ⟨t.closed.length + 1, [], 0⟩ := if_pos hearly
      rw [hcur, if_pos hearly]
      have hskip := skip_spec bytes (by omega : 0 < first - (t.closed.length + 1))
      rcases hs : skip bytes (first - (t.closed.length + 1)) with seen | next
      · rw [hs] at hskip
        obtain ⟨hseen, hlt⟩ := hskip
        have hcount : newlines bytes = bytes.count newline := rfl
        rw [partVisits_before (by omega)]
        have hstate : atText width first (pushAll newline t bytes)
            = ⟨t.closed.length + 1 + seen, [], 0⟩ := by
          rw [atText, length_pushAll, if_pos (by omega)]
          congr 1
          omega
        rw [hstate]
        exact Follows.refl _ s
      · rw [hs] at hskip
        obtain ⟨hnext, hpos, hcount, body, hbody⟩ := hskip
        have hclosed : (pushAll newline t (bytes.take next)).closed.length + 1 = first := by
          rw [length_pushAll, ← newlines, hcount]
          omega
        have hopened : (pushAll newline t (bytes.take next)).opened = [] := by
          rw [hbody]
          exact pushAll_concat_opened t body
        have hstate : atText width first (pushAll newline t (bytes.take next)) = ⟨first, [], 0⟩ := by
          rw [atText, if_neg (by omega), hopened, hclosed, take_nil, length_nil]
        have hgo := ih (bytes.drop next) (pushAll newline t (bytes.take next)) s
          (by rw [length_drop]; omega)
        rw [hstate, ← pushAll_append, take_append_drop] at hgo
        have hvisits := partVisits_append width (fromLine first) t (bytes.take next) (bytes.drop next)
        have hnone : partVisits width (fromLine first) t (bytes.take next) = [] :=
          partVisits_before (by omega)
        rw [take_append_drop, hnone, nil_append] at hvisits
        rw [hvisits]
        exact hgo
    · have hcur : atText width first t
          = ⟨t.closed.length + 1, t.opened.take width, t.opened.length⟩ := if_neg hearly
      rw [hcur, if_neg hearly]
      rcases hfind : find newline bytes with _ | i
      · have hnot := find_eq_none hfind
        rw [partVisits_of_not_mem hnot]
        have hstate : atText width first (pushAll newline t bytes)
            = ⟨t.closed.length + 1, (t.opened ++ bytes).take width, (t.opened ++ bytes).length⟩ := by
          rw [pushAll_of_not_mem hnot, atText, if_neg hearly]
        rw [hstate]
        simp only [Open.take_eq]
        exact Follows.refl _ s
      · obtain ⟨hlt, htake, hnot⟩ := find_eq_some hfind
        have hline := pushAll_line (s := t) hnot
        have hstate : atText width first (pushAll newline t (bytes.take (i + 1)))
            = ⟨t.closed.length + 1 + 1, [], 0⟩ := by
          rw [htake, hline, atText, if_neg (by simp; omega)]
          simp
        have hvisits := partVisits_append width (fromLine first) t (bytes.take (i + 1)) (bytes.drop (i + 1))
        have hone : partVisits width (fromLine first) t (bytes.take (i + 1))
            = [(t.closed.length + 1, shown width (t.opened ++ bytes.take (i + 1)))] := by
          rw [partVisits, htake, pushAll_line hnot]
          simp [visits, fromLine, (by omega : first ≤ t.closed.length + 1)]
        rw [take_append_drop, hone] at hvisits
        rw [hvisits, singleton_append, deliver_cons]
        simp only [Open.take_eq, Open.finish, Open.clear]
        change Follows (thenDeliver (visit s (t.closed.length + 1,
          line ((t.opened ++ bytes.take (i + 1)).take width)
            (t.opened ++ bytes.take (i + 1)).length true)) _) _ _
        rcases visit s (t.closed.length + 1, line ((t.opened ++ bytes.take (i + 1)).take width)
            (t.opened ++ bytes.take (i + 1)).length true) with ⟨e | _ | _, s'⟩
        · exact ⟨rfl, rfl, fun h => (by cases h), fun h => (by cases h)⟩
        · exact ⟨rfl, rfl, fun h => (by cases h), fun _ => rfl⟩
        · have hgo := ih (bytes.drop (i + 1)) (pushAll newline t (bytes.take (i + 1))) s'
            (by rw [length_drop]; omega)
          rw [hstate, ← pushAll_append, take_append_drop] at hgo
          exact hgo

/-- **Any parts** of a text are visited as the lines they close, in order. -/
theorem linesParts_follows (visit : σ → ℕ × Line → Except ε Bool × σ) (width first : ℕ)
    (parts : List (List ℕ)) :
    ∀ (t : Split ℕ) (s : σ),
      Follows (Pieces.deliver visit (partVisits width (fromLine first) t parts.flatten) s)
        (Pieces.deliver (linesPart visit width first) parts ⟨atText width first t, false, s⟩)
        (atText width first (pushAll newline t parts.flatten)) := by
  induction parts with
  | nil => exact fun t s => Follows.refl _ s
  | cons part parts ih =>
    intro t s
    have hpart := linesLoop_follows visit width first part.length part t s le_rfl
    rw [flatten_cons, partVisits_append, deliver_append, deliver_cons, pushAll_append]
    rw [← linesPart] at hpart
    generalize linesPart visit width first ⟨atText width first t, false, s⟩ part = r' at hpart
    generalize Pieces.deliver visit (partVisits width (fromLine first) t part) s = r at hpart
    obtain ⟨answer, o, stopped, user⟩ := r'
    obtain ⟨e | _ | _, s'⟩ := r
    · obtain rfl : answer = .error e := hpart.answer
      exact ⟨rfl, hpart.user, fun h => (by cases h), fun h => (by cases h)⟩
    · obtain rfl : answer = .ok false := hpart.answer
      exact ⟨rfl, hpart.user, fun h => (by cases h), fun _ => hpart.stopped rfl⟩
    · obtain rfl : answer = .ok true := hpart.answer
      obtain rfl : user = s' := hpart.user
      obtain ⟨rfl, rfl⟩ : o = atText width first (pushAll newline t part) ∧ stopped = false :=
        hpart.cur rfl
      exact ih (pushAll newline t part) user

/-- The result of a scan whose visitor was given these lines: a visitor that stops it ends it
without a refusal. -/
def ended (r : Except ε Bool × σ) : Except ε Unit × σ :=
  match r with
  | (.error e, s) => (.error e, s)
  | (.ok _, s) => (.ok (), s)

def textVisits (width : ℕ) (wanted : ℕ → List ℕ → Bool) (t : List ℕ) : List (ℕ × Line) :=
  visits width wanted 1 (pieces newline t)

theorem textVisits_eq (width : ℕ) (wanted : ℕ → List ℕ → Bool) (t : List ℕ) :
    textVisits width wanted t = partVisits width wanted ⟨[], []⟩ t ++
      visits width wanted ((split newline t).closed.length + 1)
        (if (split newline t).opened = [] then [] else [(split newline t).opened]) := by
  rw [textVisits, pieces, visits_append, Nat.add_comm 1]
  rfl

theorem linesEnd_eq (width first : ℕ) (t : Split ℕ) (s : σ) :
    linesEnd visit ⟨atText width first t, false, s⟩
      = ended (Pieces.deliver visit (visits width (fromLine first) (t.closed.length + 1)
          (if t.opened = [] then [] else [t.opened])) s) := by
  rw [linesEnd, atText]
  by_cases hearly : t.closed.length + 1 < first
  · rw [if_pos hearly, if_neg (by simp), visits_before (by split_ifs <;> simp <;> omega)]
    rfl
  · rw [if_neg hearly]
    by_cases hopened : t.opened = []
    · simp [hopened, visits, Pieces.deliver, ended]
    · have hpos := length_pos_of_ne_nil hopened
      have hwanted : fromLine first (t.closed.length + 1) t.opened = true := by
        simpa [fromLine] using hearly
      rw [if_pos ⟨rfl, hpos⟩, if_neg hopened, visits, if_pos hwanted, visits, deliver_cons]
      change _ = ended (thenDeliver (visit s (t.closed.length + 1,
        line (t.opened.take width) t.opened.length true)) _)
      simp only [Open.finish]
      rcases visit s (t.closed.length + 1, line (t.opened.take width) t.opened.length true)
        with ⟨e | _ | _, s'⟩
      · rfl
      · rfl
      · rfl

theorem ended_thenDeliver (r : Except ε Bool × σ) (next : σ → Except ε Bool × σ) :
    ended (thenDeliver r next) = match r with
      | (.error e, s) => (.error e, s)
      | (.ok false, s) => (.ok (), s)
      | (.ok true, s) => ended (next s) := by
  obtain ⟨_ | _ | _, s⟩ := r <;> rfl

/-- **The lines of a text** are visited with their numbers whatever its parts, up to the one the
visitor stops at. -/
theorem linesOver_eq (visit : σ → ℕ × Line → Except ε Bool × σ) (width first : ℕ)
    (parts : List (List ℕ)) (s : σ) :
    linesOver visit width first parts s
      = ended (Pieces.deliver visit (textVisits width (fromLine first) parts.flatten) s) := by
  have hstart : atText width first ⟨[], []⟩ = Open.new := by
    rw [atText]
    split_ifs <;> simp [Open.new]
  have h := linesParts_follows visit width first parts ⟨[], []⟩ s
  rw [hstart] at h
  rw [linesOver, textVisits_eq, deliver_append, ended_thenDeliver]
  generalize Pieces.deliver (linesPart visit width first) parts ⟨Open.new, false, s⟩ = r' at h
  generalize Pieces.deliver visit (partVisits width (fromLine first) ⟨[], []⟩ parts.flatten) s = r at h
  obtain ⟨answer, o, stopped, user⟩ := r'
  obtain ⟨e | _ | _, s'⟩ := r
  · obtain rfl : answer = .error e := h.answer
    obtain rfl : user = s' := h.user
    rfl
  · obtain rfl : answer = .ok false := h.answer
    obtain rfl : user = s' := h.user
    obtain rfl : stopped = true := h.stopped rfl
    simp [linesEnd]
  · obtain rfl : answer = .ok true := h.answer
    obtain rfl : user = s' := h.user
    obtain ⟨rfl, rfl⟩ := h.cur rfl
    exact linesEnd_eq visit width first (split newline parts.flatten) user

end LayerFs.Window
