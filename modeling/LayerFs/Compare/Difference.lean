import LayerFs.Compare.Text
import LayerFs.Support.Subsequence

/-!
# What a line difference keeps (`compare/text.rs`)

Every branch of the difference, the table, the trimmed table and the fallback, aligns the two
texts; the table in addition leaves no common line out that it could keep.

* `diffLines_exact` — **both sides come back, and with a table the difference is the shortest**.
-/

namespace LayerFs

open List

/-! ## Alignments -/

/-- A difference that takes both texts line by line. -/
inductive Alignment : List Line → List Line → List DiffLine → Prop
  | nil : Alignment [] [] []
  | same (a : Line) {x y : List Line} {ds : List DiffLine} (h : Alignment x y ds) :
    Alignment (a :: x) (a :: y) (⟨.same, a⟩ :: ds)
  | removed (a : Line) {x y : List Line} {ds : List DiffLine} (h : Alignment x y ds) :
    Alignment (a :: x) y (⟨.removed, a⟩ :: ds)
  | added (b : Line) {x y : List Line} {ds : List DiffLine} (h : Alignment x y ds) :
    Alignment x (b :: y) (⟨.added, b⟩ :: ds)

def leftLines (ds : List DiffLine) : List Line := (ds.filter (·.op != .added)).map DiffLine.text

def rightLines (ds : List DiffLine) : List Line := (ds.filter (·.op != .removed)).map DiffLine.text

def sameLines (ds : List DiffLine) : List DiffLine := ds.filter (·.op == .same)

namespace Alignment

variable {x y x' y' : List Line} {ds ds' : List DiffLine}

theorem leftLines (h : Alignment x y ds) : leftLines ds = x := by
  induction h with
  | nil => rfl
  | same a _ ih => exact congrArg (a :: ·) ih
  | removed a _ ih => exact congrArg (a :: ·) ih
  | added b _ ih => exact ih

theorem rightLines (h : Alignment x y ds) : rightLines ds = y := by
  induction h with
  | nil => rfl
  | same a _ ih => exact congrArg (a :: ·) ih
  | removed a _ ih => exact ih
  | added b _ ih => exact congrArg (b :: ·) ih

theorem append (h : Alignment x y ds) (h' : Alignment x' y' ds') :
    Alignment (x ++ x') (y ++ y') (ds ++ ds') := by
  induction h with
  | nil => exact h'
  | same a _ ih => exact ih.same a
  | removed a _ ih => exact ih.removed a
  | added b _ ih => exact ih.added b

theorem kept : ∀ ls : List Line, Alignment ls ls (ls.map (⟨.same, ·⟩))
  | [] => .nil
  | l :: ls => (kept ls).same l

theorem block : ∀ x y : List Line,
    Alignment x y (x.map (⟨.removed, ·⟩) ++ y.map (⟨.added, ·⟩))
  | [], [] => .nil
  | [], b :: y => (block [] y).added b
  | a :: x, y => (block x y).removed a

end Alignment

theorem tableWalk_alignment (fuel : ℕ) : ∀ (x y : List Line) (rows : List (List ℕ)),
    Alignment x y (tableWalk fuel x y rows) := by
  induction fuel with
  | zero => exact fun x y rows => .block x y
  | succ fuel ih =>
    intro x y rows
    rcases x with _ | ⟨a, x⟩
    · exact .block [] y
    · rcases y with _ | ⟨b, y⟩
      · exact .block (a :: x) []
      · rw [tableWalk]
        split_ifs with hab
        · subst hab
          exact (ih _ _ _).same a
        · exact (ih _ _ _).removed a
        · exact (ih _ _ _).added b

/-! ## Shared ends -/

theorem commonPrefix_take : ∀ x y : List Line,
    x.take (commonPrefix x y) = y.take (commonPrefix x y)
  | [], y => by simp [commonPrefix]
  | a :: x, [] => by simp [commonPrefix]
  | a :: x, b :: y => by
    rw [commonPrefix]
    split_ifs with hab
    · rw [take_succ_cons, take_succ_cons, hab, commonPrefix_take x y]
    · rfl

theorem commonPrefix_le : ∀ x y : List Line,
    commonPrefix x y ≤ x.length ∧ commonPrefix x y ≤ y.length
  | [], y => by simp [commonPrefix]
  | a :: x, [] => by simp [commonPrefix]
  | a :: x, b :: y => by
    rw [commonPrefix]
    have hle := commonPrefix_le x y
    split_ifs
    · simpa using hle
    · simp

def middles (x y : List Line) : List Line × List Line :=
  let front := commonPrefix x y
  let back := commonPrefix (x.drop front).reverse (y.drop front).reverse
  ((x.take (x.length - back)).drop front, (y.take (y.length - back)).drop front)

theorem pieces_eq {l : List Line} {front back : ℕ} (h : front + back ≤ l.length) :
    l = l.take front ++ ((l.take (l.length - back)).drop front ++ l.drop (l.length - back)) := by
  have hfront : l.take front = (l.take (l.length - back)).take front := by
    rw [take_take, Nat.min_eq_left (by omega)]
  rw [hfront, ← append_assoc, take_append_drop, take_append_drop]

theorem drop_of_reverse_take {x y : List Line} {back : ℕ}
    (h : x.reverse.take back = y.reverse.take back) :
    x.drop (x.length - back) = y.drop (y.length - back) := by
  rw [take_reverse, take_reverse] at h
  exact reverse_injective h

/-- **The trimmed difference**: what both texts share at the ends is kept around the middles. -/
theorem diffLines_trimmed (x y : List Line) :
    ∃ front back : List Line, x = front ++ ((middles x y).1 ++ back) ∧
      y = front ++ ((middles x y).2 ++ back) ∧
      (¬cells x.length y.length ≤ maximumDiffCells →
        diffLines x y = front.map (⟨.same, ·⟩) ++
          (if cells (middles x y).1.length (middles x y).2.length ≤ maximumDiffCells then
            tableDiff (middles x y).1 (middles x y).2
          else (middles x y).1.map (⟨.removed, ·⟩) ++ (middles x y).2.map (⟨.added, ·⟩)) ++
          back.map (⟨.same, ·⟩)) := by
  have hfront := commonPrefix_le x y
  have hback := commonPrefix_le (x.drop (commonPrefix x y)).reverse
    (y.drop (commonPrefix x y)).reverse
  have hdrop := drop_of_reverse_take (commonPrefix_take (x.drop (commonPrefix x y)).reverse
    (y.drop (commonPrefix x y)).reverse)
  generalize hk : commonPrefix (x.drop (commonPrefix x y)).reverse
    (y.drop (commonPrefix x y)).reverse = back at hback hdrop
  simp only [length_reverse, length_drop] at hback
  have hends : x.drop (x.length - back) = y.drop (y.length - back) := by
    rw [drop_drop, drop_drop, length_drop, length_drop] at hdrop
    rwa [show commonPrefix x y + (x.length - commonPrefix x y - back) = x.length - back by omega,
      show commonPrefix x y + (y.length - commonPrefix x y - back) = y.length - back by omega]
      at hdrop
  refine ⟨x.take (commonPrefix x y), x.drop (x.length - back), ?_, ?_, fun hlarge => ?_⟩
  · rw [middles, hk]
    exact pieces_eq (by omega)
  · rw [middles, hk, hends, commonPrefix_take]
    exact pieces_eq (by omega)
  · rw [diffLines, if_neg hlarge]
    simp only [middles, hk]

/-- **Every branch aligns the two texts.** -/
theorem diffLines_alignment (x y : List Line) : Alignment x y (diffLines x y) := by
  by_cases hcells : cells x.length y.length ≤ maximumDiffCells
  · rw [diffLines, if_pos hcells]
    exact tableWalk_alignment _ x y _
  · obtain ⟨front, back, hx, hy, heq⟩ := diffLines_trimmed x y
    rw [heq hcells]
    generalize (middles x y).1 = mx at *
    generalize (middles x y).2 = my at *
    subst hx hy
    rw [append_assoc]
    refine (Alignment.kept front).append (Alignment.append ?_ (.kept back))
    split_ifs
    · exact tableWalk_alignment _ mx my _
    · exact .block mx my

/-! ## Matched lines -/

/-- Pairs of equal lines, in the order of both texts. -/
structure Paired (x y : List Line) (m : List (Option ℕ)) : Prop where
  length : m.length = x.length
  equal : ∀ {i j : ℕ}, m[i]? = some (some j) → ∃ l, x[i]? = some l ∧ y[j]? = some l
  increasing : ∀ {i i' j j' : ℕ}, i < i' → m[i]? = some (some j) → m[i']? = some (some j') →
    j < j'

theorem matchFrom_length {x y : List Line} {ds : List DiffLine} (h : Alignment x y ds) (k : ℕ) :
    (matchFrom k ds).length = x.length := by
  induction h generalizing k with
  | nil => rfl
  | same a _ ih => exact congrArg (· + 1) (ih (k + 1))
  | removed a _ ih => exact congrArg (· + 1) (ih k)
  | added b _ ih => exact ih (k + 1)

theorem matchFrom_equal {x y : List Line} {ds : List DiffLine} (h : Alignment x y ds) {k i j : ℕ}
    (hj : (matchFrom k ds)[i]? = some (some j)) :
    k ≤ j ∧ ∃ l, x[i]? = some l ∧ y[j - k]? = some l := by
  induction h generalizing k i with
  | nil => simp [matchFrom] at hj
  | same a _ ih =>
    rcases i with _ | i
    · obtain rfl : k = j := by simpa [matchFrom] using hj
      exact ⟨le_rfl, a, rfl, by simp⟩
    · obtain ⟨hk, l, hx, hy⟩ := ih (k := k + 1) (i := i) (by simpa [matchFrom] using hj)
      refine ⟨by omega, l, hx, ?_⟩
      rwa [show j - k = j - (k + 1) + 1 by omega]
  | removed a _ ih =>
    rcases i with _ | i
    · simp [matchFrom] at hj
    · exact ih (k := k) (i := i) (by simpa [matchFrom] using hj)
  | added b _ ih =>
    obtain ⟨hk, l, hx, hy⟩ := ih (k := k + 1) (i := i) (by simpa [matchFrom] using hj)
    refine ⟨by omega, l, hx, ?_⟩
    rwa [show j - k = j - (k + 1) + 1 by omega]

theorem matchFrom_increasing {x y : List Line} {ds : List DiffLine} (h : Alignment x y ds)
    {k i i' j j' : ℕ} (hi : i < i') (hj : (matchFrom k ds)[i]? = some (some j))
    (hj' : (matchFrom k ds)[i']? = some (some j')) : j < j' := by
  induction h generalizing k i i' with
  | nil => simp [matchFrom] at hj
  | same a h ih =>
    obtain ⟨i', rfl⟩ : ∃ n, i' = n + 1 := ⟨i' - 1, by omega⟩
    simp only [matchFrom, getElem?_cons_succ] at hj'
    rcases i with _ | i
    · obtain rfl : k = j := by simpa [matchFrom] using hj
      exact (matchFrom_equal h hj').1
    · simp only [matchFrom, getElem?_cons_succ] at hj
      exact ih (by omega) hj hj'
  | removed a _ ih =>
    obtain ⟨i', rfl⟩ : ∃ n, i' = n + 1 := ⟨i' - 1, by omega⟩
    simp only [matchFrom, getElem?_cons_succ] at hj'
    rcases i with _ | i
    · simp [matchFrom] at hj
    · simp only [matchFrom, getElem?_cons_succ] at hj
      exact ih (by omega) hj hj'
  | added b _ ih =>
    simp only [matchFrom] at hj hj'
    exact ih hi hj hj'

/-- **Matched lines are equal and in order.** -/
theorem matchLines_paired (x y : List Line) : Paired x y (matchLines x y) where
  length := matchFrom_length (diffLines_alignment x y) 0
  equal := fun hj => (matchFrom_equal (diffLines_alignment x y) hj).2
  increasing := fun hi hj hj' => matchFrom_increasing (diffLines_alignment x y) hi hj hj'

/-! ## The table -/

def lengthRow (x y : List Line) : List ℕ := y.tails.map (lcsLength x)

theorem tableRow_eq (a : Line) (x : List Line) : ∀ y : List Line,
    tableRow a y (lengthRow x y) = lengthRow (a :: x) y
  | [] => by simp [tableRow, lengthRow, lcsLength_nil_right]
  | b :: y => by
    have hbelow : (lengthRow x (b :: y)).tail = lengthRow x y := by simp [lengthRow]
    have hhead : ∀ x y : List Line, (lengthRow x y).headD 0 = lcsLength x y := by
      intro x y
      cases y <;> simp [lengthRow]
    rw [tableRow, hbelow, tableRow_eq a x y, hhead, hhead, hhead]
    rw [show lengthRow (a :: x) (b :: y) = lcsLength (a :: x) (b :: y) :: lengthRow (a :: x) y by
      simp [lengthRow], lcsLength]

/-- **The table holds the common length of every two rests.** -/
theorem table_eq : ∀ x y : List Line, table x y = x.tails.map (lengthRow · y)
  | [], y => by
    rw [table, List.tails, map_singleton, lengthRow]
    refine congrArg ([·]) (eq_replicate_iff.mpr ⟨by simp, ?_⟩).symm
    intro n hn
    obtain ⟨y', -, rfl⟩ := mem_map.mp hn
    exact lcsLength_nil_left y'
  | a :: x, y => by
    rw [table, table_eq x y, List.tails, map_cons]
    congr 1
    rw [show (x.tails.map (lengthRow · y)).headD [] = lengthRow x y by cases x <;> simp]
    exact tableRow_eq a x y

theorem sameLines_block (x y : List Line) :
    sameLines (x.map (⟨.removed, ·⟩) ++ y.map (⟨.added, ·⟩)) = [] := by
  simp [sameLines, filter_eq_nil_iff]

theorem tableWalk_same (fuel : ℕ) : ∀ x y : List Line, x.length + y.length ≤ fuel →
    (sameLines (tableWalk fuel x y (x.tails.map (lengthRow · y)))).length = lcsLength x y := by
  induction fuel with
  | zero =>
    intro x y hfuel
    obtain rfl : x = [] := eq_nil_of_length_eq_zero (by omega)
    rw [lcsLength_nil_left]
    exact congrArg List.length (sameLines_block [] y)
  | succ fuel ih =>
    intro x y hfuel
    rcases x with _ | ⟨a, x⟩
    · rw [lcsLength_nil_left]
      exact congrArg List.length (sameLines_block [] y)
    rcases y with _ | ⟨b, y⟩
    · rw [lcsLength_nil_right]
      exact congrArg List.length (sameLines_block (a :: x) [])
    simp only [length_cons] at hfuel
    have hdown : ((a :: x).tails.map (lengthRow · (b :: y))).tail
        = x.tails.map (lengthRow · (b :: y)) := by simp
    have hright : ∀ xs : List (List Line), (xs.map (lengthRow · (b :: y))).map List.tail
        = xs.map (lengthRow · y) := by
      intro xs
      rw [map_map]
      exact map_congr_left fun z _ => by simp [lengthRow]
    rw [tableWalk, lcsLength]
    by_cases hab : a = b
    · rw [if_pos hab, if_pos hab, hdown, hright]
      exact congrArg (· + 1) (ih x y (by omega))
    · -- the cells below and to the right are the lengths of the two rests
      have hbelow : ((((a :: x).tails.map (lengthRow · (b :: y))).tail.headD []).headD 0)
          = lcsLength x (b :: y) := by
        rw [hdown]
        cases x <;> simp [lengthRow]
      have hbeside : ((((a :: x).tails.map (lengthRow · (b :: y))).headD []).tail.headD 0)
          = lcsLength (a :: x) y := by
        cases y <;> simp [lengthRow]
      rw [if_neg hab, if_neg hab, hbelow, hbeside]
      split_ifs with hle
      · rw [max_eq_left hle, hdown]
        exact ih x (b :: y) (by simp only [length_cons]; omega)
      · rw [max_eq_right (by omega), hright]
        exact ih (a :: x) y (by simp only [length_cons]; omega)

theorem tableDiff_same (x y : List Line) :
    (sameLines (tableDiff x y)).length = lcsLength x y := by
  rw [tableDiff, table_eq]
  exact tableWalk_same _ x y le_rfl

/-! ## The difference -/

/-- The difference is found by a table, of the texts or of their middles. -/
def TableUsed (x y : List Line) : Prop :=
  cells x.length y.length ≤ maximumDiffCells ∨
    cells (middles x y).1.length (middles x y).2.length ≤ maximumDiffCells

theorem diffLines_greatest {x y : List Line} (h : TableUsed x y) :
    IsGreatest (commonLengths x y) (sameLines (diffLines x y)).length := by
  by_cases hcells : cells x.length y.length ≤ maximumDiffCells
  · rw [diffLines, if_pos hcells, tableDiff_same]
    exact lcsLength_greatest x y
  · obtain ⟨front, back, hx, hy, heq⟩ := diffLines_trimmed x y
    have hmiddles := h.resolve_left hcells
    rw [heq hcells, if_pos hmiddles]
    have hkept : ∀ ls : List Line, sameLines (ls.map (⟨.same, ·⟩)) = ls.map (⟨.same, ·⟩) := by
      intro ls
      simp [sameLines]
    have happend : ∀ ds es : List DiffLine, sameLines (ds ++ es) = sameLines ds ++ sameLines es :=
      fun ds es => filter_append ..
    rw [happend, happend, hkept, hkept, length_append, length_append, tableDiff_same,
      length_map, length_map, Nat.add_assoc]
    have hgreatest := greatest_append_left front
      (greatest_append_right back (lcsLength_greatest (middles x y).1 (middles x y).2))
    rwa [← hx, ← hy] at hgreatest

/-- **The difference of every two texts**: its same and removed lines are the left text, its same
and added lines the right one; the matched lines are equal and in the order of both; and where a
table is used it keeps as many lines as the longest common subsequence has. -/
theorem diffLines_exact (x y : List Line) :
    leftLines (diffLines x y) = x ∧ rightLines (diffLines x y) = y ∧
      Paired x y (matchLines x y) ∧
      (TableUsed x y → IsGreatest (commonLengths x y) (sameLines (diffLines x y)).length) :=
  ⟨(diffLines_alignment x y).leftLines, (diffLines_alignment x y).rightLines,
    matchLines_paired x y, diffLines_greatest⟩

/-- `a b` and `b a` keep one line, the removal before the addition. -/
theorem diffLines_exact_swapped :
    IsGreatest (commonLengths [[0x61], [0x62]] [[0x62], [0x61]])
      (sameLines (diffLines [[0x61], [0x62]] [[0x62], [0x61]])).length :=
  (diffLines_exact [[0x61], [0x62]] [[0x62], [0x61]]).2.2.2 (.inl (by decide))

end LayerFs
