import Mathlib.Algebra.Order.Ring.Int

/-!
# Longest common subsequences

The lengths of the common sublists of two lists, and the greatest of them.

* `greatest_append_left`, `greatest_append_right` — **shared ends count in full**, so they may be
  cut off before a search.
-/

namespace LayerFs

open List

variable {α : Type}
variable {n : ℕ} (x y : List α)

def commonLengths (x y : List α) : Set ℕ := 
  {n | ∃ l : List α, l.Sublist x ∧ l.Sublist y ∧ l.length = n}

/-! ## One step -/

theorem greatest_nil_left : IsGreatest (commonLengths [] y) 0 := by
  refine ⟨⟨[], nil_sublist _, nil_sublist _, rfl⟩, ?_⟩
  rintro n ⟨l, hx, -, rfl⟩
  simp [sublist_nil.mp hx]

theorem commonLengths_comm : commonLengths x y = commonLengths y x := by
  ext n
  exact exists_congr fun l => and_left_comm

theorem greatest_nil_right : IsGreatest (commonLengths x []) 0 :=
  commonLengths_comm [] x ▸ greatest_nil_left x

theorem greatest_cons_same (a : α) {x y : List α} (h : IsGreatest (commonLengths x y) n) :
    IsGreatest (commonLengths (a :: x) (a :: y)) (n + 1) := by
  obtain ⟨⟨l, hx, hy, hl⟩, hbound⟩ := h
  refine ⟨⟨a :: l, hx.cons_cons a, hy.cons_cons a, by simp [hl]⟩, ?_⟩
  rintro m ⟨l, hx, hy, rfl⟩
  have hm := hbound ⟨l.tail, hx.tail, hy.tail, rfl⟩
  rw [length_tail] at hm
  omega

theorem greatest_cons_ne {a b : α} (hab : a ≠ b) {x y : List α} {m : ℕ}
    (hleft : IsGreatest (commonLengths x (b :: y)) n)
    (hright : IsGreatest (commonLengths (a :: x) y) m) :
    IsGreatest (commonLengths (a :: x) (b :: y)) (max n m) := by
  refine ⟨?_, ?_⟩
  · rcases max_choice n m with h | h
    · obtain ⟨l, hx, hy, hl⟩ := hleft.1
      exact ⟨l, hx.cons a, hy, hl.trans h.symm⟩
    · obtain ⟨l, hx, hy, hl⟩ := hright.1
      exact ⟨l, hx, hy.cons b, hl.trans h.symm⟩
  · rintro k ⟨l, hx, hy, rfl⟩
    rcases sublist_cons_iff.mp hx with hx' | ⟨r, rfl, -⟩
    · exact le_max_of_le_left (hleft.2 ⟨l, hx', hy, rfl⟩)
    · rcases sublist_cons_iff.mp hy with hy' | ⟨s, hs, -⟩
      · exact le_max_of_le_right (hright.2 ⟨_, hx, hy', rfl⟩)
      · exact absurd (List.cons.inj hs).1 hab

/-! ## Shared ends -/

theorem commonLengths_reverse : commonLengths x.reverse y.reverse = commonLengths x y := by
  ext n
  refine ⟨?_, ?_⟩
  · rintro ⟨l, hx, hy, rfl⟩
    exact ⟨l.reverse, by simpa using hx.reverse, by simpa using hy.reverse, length_reverse⟩
  · rintro ⟨l, hx, hy, rfl⟩
    exact ⟨l.reverse, hx.reverse, hy.reverse, length_reverse⟩

/-- **A shared front counts in full.** -/
theorem greatest_append_left (p : List α) {x y : List α} (h : IsGreatest (commonLengths x y) n) :
    IsGreatest (commonLengths (p ++ x) (p ++ y)) (p.length + n) := by
  induction p with
  | nil => simpa using h
  | cons a p ih =>
    have hcons := greatest_cons_same a ih
    rwa [show (a :: p).length + n = p.length + n + 1 by rw [length_cons]; omega]

/-- **A shared back counts in full.** -/
theorem greatest_append_right (s : List α) {x y : List α} (h : IsGreatest (commonLengths x y) n) :
    IsGreatest (commonLengths (x ++ s) (y ++ s)) (n + s.length) := by
  rw [← commonLengths_reverse] at h
  rw [← commonLengths_reverse, reverse_append, reverse_append, Nat.add_comm,
    ← length_reverse]
  exact greatest_append_left s.reverse h

/-! ## The recursion -/

variable [DecidableEq α]

def lcsLength : List α → List α → ℕ
  | a :: x, b :: y =>
    if a = b then lcsLength x y + 1 else max (lcsLength x (b :: y)) (lcsLength (a :: x) y)
  | _, _ => 0
  termination_by x y => x.length + y.length

theorem lcsLength_nil_left : lcsLength [] y = 0 := by
  rw [lcsLength]
  simp

theorem lcsLength_nil_right : lcsLength x [] = 0 := by
  rw [lcsLength]
  simp

/-- **The recursion finds the greatest common length.** -/
theorem lcsLength_greatest : IsGreatest (commonLengths x y) (lcsLength x y) := by
  induction x, y using lcsLength.induct with
  | case1 x b y ih =>
    rw [lcsLength, if_pos rfl]
    exact greatest_cons_same b ih
  | case2 a x b y hab ihleft ihright =>
    rw [lcsLength, if_neg hab]
    exact greatest_cons_ne hab ihleft ihright
  | case3 x y hne =>
    rcases x with _ | ⟨a, x⟩
    · rw [lcsLength_nil_left]
      exact greatest_nil_left y
    · rcases y with _ | ⟨b, y⟩
      · rw [lcsLength_nil_right]
        exact greatest_nil_right _
      · exact (hne a x b y rfl rfl).elim

end LayerFs
