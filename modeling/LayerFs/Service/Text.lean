import LayerFs.Content.Basic
import LayerFs.Support.Utf8

/-!
# Text of a file

A file is text when its bytes are valid UTF-8 with no NUL. The scans of the service meet a file
window by window, so they validate it with the machine of `Support.Utf8`.

* `utf8Valid_iff_run` — the machine accepts exactly the valid bytes.
-/

namespace LayerFs

open Utf8

def IsText (c : List ℕ) : Prop := utf8Valid c = true ∧ 0 ∉ c

instance (c : List ℕ) : Decidable (IsText c) := inferInstanceAs (Decidable (_ ∧ _))

/-! ## The first byte -/

theorem lead_one {b : ℕ} (h : b < 0x80) : lead b = some .start := by
  rw [lead, if_pos h]

theorem lead_two {b : ℕ} (h : 0xC2 ≤ b ∧ b ≤ 0xDF) : lead b = some (.owes 0 0x80 0xBF) := by
  rw [lead, if_neg (by omega), if_pos h]

theorem lead_three {b : ℕ} (h : 0xE0 ≤ b ∧ b ≤ 0xEF) :
    lead b = some (.owes 1 (if b = 0xE0 then 0xA0 else 0x80) (if b = 0xED then 0x9F else 0xBF)) := by
  rw [lead, if_neg (by omega), if_neg (by omega)]
  by_cases h₁ : b = 0xE0
  · simp [h₁]
  · by_cases h₂ : b = 0xED
    · simp [h₂]
    · simp [h₁, h₂, (by omega : 0xE1 ≤ b ∧ b ≤ 0xEF)]

theorem lead_four {b : ℕ} (h : 0xF0 ≤ b ∧ b ≤ 0xF4) :
    lead b = some (.owes 2 (if b = 0xF0 then 0x90 else 0x80) (if b = 0xF4 then 0x8F else 0xBF)) := by
  rw [lead, if_neg (by omega), if_neg (by omega), if_neg (by omega), if_neg (by omega),
    if_neg (by omega)]
  by_cases h₁ : b = 0xF0
  · simp [h₁]
  · by_cases h₂ : b = 0xF4
    · simp [h₂]
    · simp [h₁, h₂, (by omega : 0xF1 ≤ b ∧ b ≤ 0xF3)]

theorem lead_none {b : ℕ} (h₁ : 0x80 ≤ b) (h₂ : b < 0xC2 ∨ 0xF4 < b) : lead b = none := by
  rw [lead, if_neg (by omega), if_neg (by omega), if_neg (by omega), if_neg (by omega),
    if_neg (by omega), if_neg (by omega), if_neg (by omega), if_neg (by omega)]

theorem run_owes_cons {more low high b : ℕ} {rest : List ℕ} {t : State} :
    run (.owes more low high) (b :: rest) = some t ↔
      (low ≤ b ∧ b ≤ high) ∧ run (paid more) rest = some t := by
  rw [run_cons, step]
  split_ifs with h <;> simp [h]

/-! ## Validity -/

theorem isContinuation_iff {b : ℕ} : isContinuation b = true ↔ 0x80 ≤ b ∧ b ≤ 0xBF := by
  simp [isContinuation]

/-- **Validity** is the machine ending between characters. -/
theorem utf8Valid_iff_run (c : List ℕ) : utf8Valid c = true ↔ run .start c = some .start := by
  induction hn : c.length using Nat.strongRecOn generalizing c with
  | ind n ih =>
    subst hn
    rcases c with _ | ⟨b₀, t₀⟩
    · exact iff_of_true rfl rfl
    rw [utf8Valid.eq_def, run_cons, step]
    dsimp only
    by_cases h₀ : b₀ < 0x80
    · rw [if_pos h₀, lead_one h₀]
      exact ih _ (by simp) _ rfl
    rw [if_neg h₀]
    by_cases hbad : b₀ < 0xC2 ∨ 0xF4 < b₀
    · -- no character starts with this byte, however many bytes follow
      rw [lead_none (by omega) hbad]
      have h₁ : ¬(0xC2 ≤ b₀ ∧ b₀ ≤ 0xDF) := by omega
      have h₂ : ¬(0xE0 ≤ b₀ ∧ b₀ ≤ 0xEF) := by omega
      have h₃ : ¬(0xF0 ≤ b₀ ∧ b₀ ≤ 0xF4) := by omega
      rcases t₀ with _ | ⟨b₁, _ | ⟨b₂, _ | ⟨b₃, t₃⟩⟩⟩
      · simp
      · simp [h₁]
      · simp [h₁, h₂]
      · simp [h₁, h₂, h₃]
    rcases t₀ with _ | ⟨b₁, t₁⟩
    · by_cases h₁ : 0xC2 ≤ b₀ ∧ b₀ ≤ 0xDF
      · simp [lead_two h₁]
      · by_cases h₂ : 0xE0 ≤ b₀ ∧ b₀ ≤ 0xEF
        · simp [lead_three h₂]
        · simp [lead_four (by omega : 0xF0 ≤ b₀ ∧ b₀ ≤ 0xF4)]
    dsimp only
    by_cases h₁ : 0xC2 ≤ b₀ ∧ b₀ ≤ 0xDF
    · rw [lead_two h₁, Option.bind_some, run_owes_cons, paid]
      rw [if_pos (by simpa using h₁), Bool.and_eq_true, isContinuation_iff,
        ih _ (by simp only [List.length_cons]; omega) t₁ rfl]
    rw [if_neg (by simpa using h₁)]
    rcases t₁ with _ | ⟨b₂, t₂⟩
    · by_cases h₂ : 0xE0 ≤ b₀ ∧ b₀ ≤ 0xEF
      · simp [lead_three h₂, step, paid]
      · simp [lead_four (by omega : 0xF0 ≤ b₀ ∧ b₀ ≤ 0xF4), step, paid]
    dsimp only
    by_cases h₂ : 0xE0 ≤ b₀ ∧ b₀ ≤ 0xEF
    · rw [lead_three h₂, Option.bind_some, run_owes_cons, paid, run_owes_cons, paid]
      rw [if_pos (by simpa using h₂), Bool.and_eq_true,
        ih _ (by simp only [List.length_cons]; omega) t₂ rfl]
      simp only [Bool.and_eq_true, isContinuation_iff, Bool.or_eq_true, bne_iff_ne,
        decide_eq_true_eq]
      by_cases hrest : run .start t₂ = some .start
      · simp only [hrest, and_true]
        split_ifs <;> omega
      · simp only [hrest, and_false]
    rw [if_neg (by simpa using h₂)]
    rcases t₂ with _ | ⟨b₃, t₃⟩
    · simp [lead_four (by omega : 0xF0 ≤ b₀ ∧ b₀ ≤ 0xF4), step, paid]
      split_ifs <;> simp
    dsimp only
    have h₃ : 0xF0 ≤ b₀ ∧ b₀ ≤ 0xF4 := by omega
    rw [lead_four h₃, Option.bind_some, run_owes_cons, paid, run_owes_cons, paid, run_owes_cons,
      paid]
    rw [Bool.and_eq_true, ih _ (by simp only [List.length_cons]; omega) t₃ rfl]
    simp only [Bool.and_eq_true, isContinuation_iff, Bool.or_eq_true, bne_iff_ne,
      decide_eq_true_eq]
    by_cases hrest : run .start t₃ = some .start
    · simp only [hrest, and_true]
      split_ifs <;> omega
    · simp only [hrest, and_false]

theorem isContinuation_of_lead {b : ℕ} {s : State} (h : lead b = some s) :
    isContinuation b = false := by
  rw [← Bool.not_eq_true, isContinuation_iff]
  rintro ⟨h₁, h₂⟩
  rw [lead_none h₁ (by omega)] at h
  cases h

theorem run_take_ascii {text : List ℕ} {i b : ℕ} {t : State} (htext : run .start text = some t)
    (hi : text.take (i + 1) = text.take i ++ [b]) (hb : b < 0x80) :
    run .start (text.take (i + 1)) = some .start ∧
      ∀ c, text[i + 1]? = some c → isContinuation c = false := by
  obtain ⟨m, hm, -⟩ := run_take htext i
  obtain ⟨m', hm', hrest⟩ := run_take htext (i + 1)
  have hstep : step m b = some m' := by
    rw [hi, run_append, hm, Option.bind_some, run_cons] at hm'
    rcases hs : step m b with _ | s
    · rw [hs] at hm'
      cases hm'
    · rw [hs] at hm'
      exact hm'
  obtain ⟨-, rfl⟩ := step_ascii (run_high (s := .start) trivial hm) hb hstep
  refine ⟨hm', fun c hc => ?_⟩
  obtain ⟨hlt, rfl⟩ := List.getElem?_eq_some_iff.1 hc
  rw [List.drop_eq_getElem_cons hlt, run_cons, Option.bind_eq_some_iff] at hrest
  obtain ⟨s, hs, -⟩ := hrest
  exact isContinuation_of_lead hs

end LayerFs
