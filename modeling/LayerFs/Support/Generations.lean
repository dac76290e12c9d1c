import Mathlib.Data.List.Chain

/-!
# Values written per generation

A value may be written anew in each generation; readers see the newest one of a window of
generations.

* `newest` — the newest value with a generation in `(floor, top]`.
-/

namespace LayerFs

variable {α : Type} {values other : ℕ → Option α} {floor top g : ℕ} {a : α}

/-- The newest value with a generation in `(floor, top]`, and its generation. -/
def newest (values : ℕ → Option α) (floor : ℕ) : ℕ → Option (ℕ × α)
  | 0 => none
  | g + 1 =>
    if g + 1 ≤ floor then none
    else match values (g + 1) with
      | some a => some (g + 1, a)
      | none => newest values floor g

theorem newest_eq_none :
    newest values floor top = none ↔ ∀ g, floor < g → g ≤ top → values g = none := by
  induction top with
  | zero =>
    refine ⟨fun _ g hfloor htop => ?_, fun _ => rfl⟩
    omega
  | succ top ih =>
    rw [newest]
    split_ifs with hfloor
    · refine ⟨fun _ g _ _ => ?_, fun _ => rfl⟩
      omega
    rcases hvalue : values (top + 1) with _ | a
    · refine ih.trans ⟨fun h g hg htop => ?_, fun h g hg htop => h g hg (by omega)⟩
      rcases Nat.lt_or_ge top g with hlt | hle
      · rw [show g = top + 1 by omega, hvalue]
      · exact h g hg hle
    · refine ⟨fun h => (by cases h), fun h => ?_⟩
      have := h (top + 1) (by omega) le_rfl
      rw [hvalue] at this
      cases this

/-- **The newest value** is in the window and has none above it there. -/
theorem newest_eq_some :
    newest values floor top = some (g, a) ↔
      floor < g ∧ g ≤ top ∧ values g = some a ∧ ∀ k, g < k → k ≤ top → values k = none := by
  induction top with
  | zero =>
    refine ⟨fun h => (by cases h), fun h => ?_⟩
    have := h.1
    have := h.2.1
    omega
  | succ top ih =>
    rw [newest]
    split_ifs with hfloor
    · refine ⟨fun h => (by cases h), fun h => ?_⟩
      have := h.1
      have := h.2.1
      omega
    rcases hvalue : values (top + 1) with _ | b
    · rw [ih]
      refine and_congr_right fun hg => ⟨fun h => ?_, fun h => ?_⟩
      · refine ⟨by omega, h.2.1, fun k hk htop => ?_⟩
        rcases Nat.lt_or_ge top k with hlt | hle
        · rw [show k = top + 1 by omega, hvalue]
        · exact h.2.2 k hk hle
      · refine ⟨?_, h.2.1, fun k hk htop => h.2.2 k hk (by omega)⟩
        by_contra hlt
        rw [show g = top + 1 by omega, hvalue] at h
        cases h.2.1
    · constructor
      · intro h
        cases h
        exact ⟨by omega, le_rfl, hvalue, fun k hk htop => by omega⟩
      · rintro ⟨hg, htop, ha, habove⟩
        rcases Nat.lt_or_ge g (top + 1) with hlt | hge
        · rw [habove (top + 1) hlt le_rfl] at hvalue
          cases hvalue
        · obtain rfl : g = top + 1 := by omega
          rw [hvalue] at ha
          cases ha
          rfl

theorem newest_congr (h : ∀ g, floor < g → g ≤ top → values g = other g) :
    newest values floor top = newest other floor top := by
  rcases hother : newest other floor top with _ | ⟨g, a⟩
  · rw [newest_eq_none] at hother ⊢
    exact fun g hfloor htop => (h g hfloor htop).trans (hother g hfloor htop)
  · rw [newest_eq_some] at hother ⊢
    obtain ⟨hfloor, htop, ha, habove⟩ := hother
    refine ⟨hfloor, htop, (h g hfloor htop).trans ha, fun k hk hktop => ?_⟩
    exact (h k (hfloor.trans hk) hktop).trans (habove k hk hktop)

theorem newest_top (hfloor : floor < top) (h : values top = some a) :
    newest values floor top = some (top, a) :=
  newest_eq_some.mpr ⟨hfloor, le_rfl, h, fun k hk htop => by omega⟩

theorem newest_succ (h : values (top + 1) = none) :
    newest values floor (top + 1) = newest values floor top := by
  rw [newest, h]
  split_ifs with hfloor
  · exact (newest_eq_none.mpr fun g hg htop => by omega).symm
  · rfl

theorem newest_of_le {lower : ℕ} (hle : lower ≤ floor)
    (h : newest values floor top = some (g, a)) : newest values lower top = some (g, a) := by
  rw [newest_eq_some] at h ⊢
  exact ⟨hle.trans_lt h.1, h.2⟩

theorem newest_change {k : ℕ} (hsame : ∀ g, g ≠ k → other g = values g)
    (h : k ≤ floor ∨ ∃ g, k < g ∧ g ≤ top ∧ (values g).isSome) :
    newest other floor top = newest values floor top := by
  rcases Nat.lt_or_ge floor k with hlt | hle
  · obtain ⟨j, hkj, hj, hsome⟩ := h.resolve_left (by omega)
    rcases hvalues : newest values floor top with _ | ⟨g, a⟩
    · rw [newest_eq_none] at hvalues
      rw [hvalues j (by omega) hj] at hsome
      cases hsome
    · rw [newest_eq_some] at hvalues ⊢
      obtain ⟨hfloor, htop, ha, habove⟩ := hvalues
      have hjg : j ≤ g := by
        by_contra hlt'
        rw [habove j (by omega) hj] at hsome
        cases hsome
      refine ⟨hfloor, htop, (hsame g (by omega)).trans ha, fun i hi hitop => ?_⟩
      exact (hsame i (by omega)).trans (habove i hi hitop)
  · exact newest_congr fun g hg _ => hsame g (by omega)

theorem newest_replace {k : ℕ} {b : α} (hsame : ∀ g, g ≠ k → other g = values g)
    (hsome : (values k).isSome) (hk : other k = some b) :
    newest other floor top =
      (newest values floor top).map fun found => if found.1 = k then (k, b) else found := by
  rcases hvalues : newest values floor top with _ | ⟨g, a⟩
  · rw [newest_eq_none] at hvalues
    refine newest_eq_none.mpr fun g hfloor htop => ?_
    have hg : g ≠ k := by
      rintro rfl
      rw [hvalues g hfloor htop] at hsome
      cases hsome
    exact (hsame g hg).trans (hvalues g hfloor htop)
  · rw [newest_eq_some] at hvalues
    obtain ⟨hfloor, htop, ha, habove⟩ := hvalues
    have hempty : ∀ i, g < i → i ≤ top → other i = none := by
      intro i hi hitop
      have hik : i ≠ k := by
        rintro rfl
        rw [habove i hi hitop] at hsome
        cases hsome
      exact (hsame i hik).trans (habove i hi hitop)
    rw [Option.map_some]
    by_cases hg : g = k
    · subst hg
      rw [if_pos rfl]
      exact newest_eq_some.mpr ⟨hfloor, htop, hk, hempty⟩
    · rw [if_neg hg]
      exact newest_eq_some.mpr ⟨hfloor, htop, (hsame g hg).trans ha, hempty⟩

end LayerFs
