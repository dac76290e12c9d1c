import LayerFs.Content.Basic

/-!
# Line difference of two bounded texts (`compare/text.rs`)

A text is its bytes; the lines are its newline-separated pieces, so a trailing newline yields a
final empty line. The difference is a longest common subsequence with removals before additions
on ties, over a table bounded by `maximumDiffCells`.

* `join_lines` — the lines of a text join to the text.
-/

namespace LayerFs

open List

/-- Largest `(lines + 1) * (lines + 1)` table one difference may hold. -/
def maximumDiffCells : ℕ := 2 ^ 20
def newline : ℕ := 0x0A

abbrev Line := List ℕ

def lines : List ℕ → List Line
  | [] => [[]]
  | b :: rest => if b = newline then [] :: lines rest else (lines rest).modifyHead (b :: ·)

def joinLines (ls : List Line) : List ℕ := [newline].intercalate ls

/-! ## Differences -/

/-- One line of a difference. -/
inductive LineOp where
  | same
  | removed
  | added
  deriving DecidableEq, Repr

/-- One line with its operation. -/
structure DiffLine where
  op : LineOp
  text : Line
  deriving DecidableEq, Repr

/-- One row of the longest-common-subsequence table, from the row below it. -/
def tableRow (a : Line) : List Line → List ℕ → List ℕ
  | [], _ => [0]
  | b :: y, below =>
    let row := tableRow a y below.tail
    (if a = b then below.tail.headD 0 + 1 else max (below.headD 0) (row.headD 0)) :: row

/-- The table of two texts, one row per line of the first and a last row of zeros. -/
def table : List Line → List Line → List (List ℕ)
  | [], y => [List.replicate (y.length + 1) 0]
  | a :: x, y => tableRow a y ((table x y).headD []) :: table x y

/-- The walk over the table. `rows` are the cells at and past the current position, and every
turn takes a line from one side, so `x.length + y.length` turns are enough. -/
def tableWalk : ℕ → List Line → List Line → List (List ℕ) → List DiffLine
  | fuel + 1, a :: x, b :: y, rows =>
    if a = b then ⟨.same, a⟩ :: tableWalk fuel x y (rows.tail.map List.tail)
    else if (rows.headD []).tail.headD 0 ≤ (rows.tail.headD []).headD 0 then
      ⟨.removed, a⟩ :: tableWalk fuel x (b :: y) rows.tail
    else ⟨.added, b⟩ :: tableWalk fuel (a :: x) y (rows.map List.tail)
  | _, x, y, _ => x.map (⟨.removed, ·⟩) ++ y.map (⟨.added, ·⟩)

def tableDiff (x y : List Line) : List DiffLine :=
  tableWalk (x.length + y.length) x y (table x y)

def cells (m n : ℕ) : ℕ := (m + 1) * (n + 1)

def commonPrefix : List Line → List Line → ℕ
  | a :: x, b :: y => if a = b then commonPrefix x y + 1 else 0
  | _, _ => 0

def diffLines (x y : List Line) : List DiffLine :=
  if cells x.length y.length ≤ maximumDiffCells then tableDiff x y
  else
    let front := commonPrefix x y
    let back := commonPrefix (x.drop front).reverse (y.drop front).reverse
    let mx := (x.take (x.length - back)).drop front
    let my := (y.take (y.length - back)).drop front
    (x.take front).map (⟨.same, ·⟩)
      ++ (if cells mx.length my.length ≤ maximumDiffCells then tableDiff mx my
          else mx.map (⟨.removed, ·⟩) ++ my.map (⟨.added, ·⟩))
      ++ (x.drop (x.length - back)).map (⟨.same, ·⟩)

/-- Index of the matching line for each line the difference takes from the left. -/
def matchFrom : ℕ → List DiffLine → List (Option ℕ)
  | _, [] => []
  | j, line :: rest =>
    match line.op with
    | .same => some j :: matchFrom (j + 1) rest
    | .removed => none :: matchFrom j rest
    | .added => matchFrom (j + 1) rest

/-- For each line of `a`, the index of its matching line of `b`. -/
def matchLines (a b : List Line) : List (Option ℕ) := matchFrom 0 (diffLines a b)

/-! ## Splitting and joining -/

theorem lines_ne_nil : ∀ text : List ℕ, lines text ≠ []
  | [] => by simp [lines]
  | b :: rest => by
    rw [lines]
    split_ifs
    · simp
    · obtain ⟨l, ls, h⟩ := exists_cons_of_ne_nil (lines_ne_nil rest)
      simp [h]

theorem lines_append_newline (a b : List ℕ) :
    lines (a ++ newline :: b) = lines a ++ lines b := by
  induction a with
  | nil => simp [lines]
  | cons c rest ih =>
    rw [cons_append, lines, lines, ih]
    split_ifs
    · rfl
    · obtain ⟨l, ls, h⟩ := exists_cons_of_ne_nil (lines_ne_nil rest)
      simp [h]

theorem joinLines_cons (l : Line) {ls : List Line} (h : ls ≠ []) :
    joinLines (l :: ls) = l ++ newline :: joinLines ls := by
  obtain ⟨l', ls, rfl⟩ := exists_cons_of_ne_nil h
  simp [joinLines, List.intercalate]

theorem lines_join : ∀ {ls : List Line}, ls ≠ [] → lines (joinLines ls) = ls.flatMap lines
  | [], h => absurd rfl h
  | [l], _ => by simp [joinLines, List.intercalate]
  | l :: l' :: ls, _ => by
    rw [joinLines_cons l (by simp), lines_append_newline, lines_join (by simp), flatMap_cons,
      flatMap_cons, flatMap_cons]

theorem join_lines (text : List ℕ) : joinLines (lines text) = text := by
  induction text with
  | nil => simp [lines, joinLines]
  | cons b rest ih =>
    rw [lines]
    obtain ⟨l, ls, h⟩ := exists_cons_of_ne_nil (lines_ne_nil rest)
    split_ifs with hb
    · rw [joinLines_cons _ (lines_ne_nil rest), ih, hb, nil_append]
    · rw [h, modifyHead_cons]
      rw [h] at ih
      rcases ls with _ | ⟨l', ls⟩
      · simpa [joinLines, List.intercalate] using ih
      · rw [joinLines_cons _ (by simp)] at ih ⊢
        rw [cons_append, ih]

end LayerFs
