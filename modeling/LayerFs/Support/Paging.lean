import Mathlib.Data.List.Chain

/-!
# Paging a sequence

Entries arrive one by one behind a buffer; whenever the buffer passes a bound, its first `full`
entries leave as a page.

* `paginate_replicate` — **a uniform buffer counts its pages**: equal entries behind equal entries
  leave as many equal pages as arithmetic says.
-/

namespace LayerFs

open List

variable {α : Type}

/-- The full pages that leave a buffer as entries arrive, and what stays. -/
def paginate (bound full : ℕ) : List α → List α → List (List α) × List α
  | here, [] => ([], here)
  | here, entry :: rest =>
    if (here ++ [entry]).length ≤ bound then paginate bound full (here ++ [entry]) rest
    else
      let later := paginate bound full ((here ++ [entry]).drop full) rest
      ((here ++ [entry]).take full :: later.1, later.2)

section Paginate

variable {bound full : ℕ}

theorem paginate_append {b : List α} : ∀ {a here : List α},
    paginate bound full here (a ++ b) =
      ((paginate bound full here a).1 ++
          (paginate bound full (paginate bound full here a).2 b).1,
        (paginate bound full (paginate bound full here a).2 b).2) := by
  intro a
  induction a with
  | nil => exact fun {here} => rfl
  | cons entry rest ih =>
    intro here
    rw [cons_append, paginate, paginate]
    split_ifs
    · exact ih
    · rw [ih]
      rfl

theorem paginate_flatten : ∀ {incoming here : List α},
    (paginate bound full here incoming).1.flatten ++ (paginate bound full here incoming).2 =
      here ++ incoming := by
  intro incoming
  induction incoming with
  | nil => exact fun {here} => (append_nil here).symm
  | cons entry rest ih =>
    intro here
    rw [paginate]
    split_ifs
    · rw [ih, append_assoc, singleton_append]
    · rw [flatten_cons, append_assoc, ih, ← append_assoc, take_append_drop,
        append_assoc, singleton_append]

theorem paginate_pages (hfull : full ≤ bound) : ∀ {incoming here : List α},
    ∀ page ∈ (paginate bound full here incoming).1, page.length = full := by
  intro incoming
  induction incoming with
  | nil => exact fun _ hpage => absurd hpage not_mem_nil
  | cons entry rest ih =>
    intro here page hpage
    rw [paginate] at hpage
    split_ifs at hpage with hroom
    · exact ih page hpage
    · rcases mem_cons.mp hpage with rfl | hpage
      · rw [length_take]
        omega
      · exact ih page hpage

theorem paginate_rest (hpos : 0 < full) : ∀ {incoming here : List α}, here.length ≤ bound →
    (paginate bound full here incoming).2.length ≤ bound := by
  intro incoming
  induction incoming with
  | nil => exact fun h => h
  | cons entry rest ih =>
    intro here h
    rw [paginate]
    split_ifs with hroom
    · exact ih hroom
    · refine ih ?_
      rw [length_drop, length_append, length_singleton]
      omega

theorem paginate_rest_of_page (hfull : full ≤ bound) : ∀ {incoming here : List α},
    (paginate bound full here incoming).1 ≠ [] →
    bound < (paginate bound full here incoming).2.length + full := by
  intro incoming
  -- Once entries only arrive, the buffer grows until the next page leaves.
  have hgrow : ∀ {incoming here : List α}, bound < here.length + full →
      bound < (paginate bound full here incoming).2.length + full := by
    intro incoming
    induction incoming with
    | nil => exact fun h => h
    | cons entry rest ih =>
      intro here h
      rw [paginate]
      split_ifs with hroom
      · refine ih ?_
        rw [length_append]
        omega
      · refine ih ?_
        rw [length_drop]
        omega
  induction incoming with
  | nil => exact fun h => absurd rfl h
  | cons entry rest ih =>
    intro here h
    rw [paginate] at h ⊢
    split_ifs at h ⊢ with hroom
    · exact ih h
    · refine hgrow ?_
      rw [length_drop]
      omega

theorem paginate_of_fits : ∀ {incoming here : List α}, here.length + incoming.length ≤ bound →
    paginate bound full here incoming = ([], here ++ incoming) := by
  intro incoming
  induction incoming with
  | nil =>
    intro here _
    rw [paginate, append_nil]
  | cons entry rest ih =>
    intro here h
    rw [length_cons] at h
    have hroom : (here ++ [entry]).length ≤ bound := by
      rw [length_append, length_singleton]
      omega
    rw [paginate, if_pos hroom, ih (by rw [length_append, length_singleton]; omega),
      append_assoc, singleton_append]

theorem paginate_of_passes {incoming here : List α} (hhere : here.length ≤ bound)
    (h : here.length + incoming.length = bound + 1) :
    paginate bound full here incoming =
      ([(here ++ incoming).take full], (here ++ incoming).drop full) := by
  rcases eq_nil_or_concat incoming with rfl | ⟨first, last, rfl⟩
  · rw [length_nil] at h
    omega
  · rw [concat_eq_append, length_append, length_singleton] at h
    have hfull : ¬(here ++ first ++ [last]).length ≤ bound := by
      rw [length_append, length_append, length_singleton]
      omega
    rw [concat_eq_append, paginate_append, paginate_of_fits (by omega)]
    dsimp only
    rw [paginate, if_neg hfull, paginate, append_assoc]
    rfl

def pagesOf (bound full total : ℕ) : ℕ := (total - bound + (full - 1)) / full

theorem pagesOf_eq {pages rest total : ℕ} (hpos : 0 < full) (htotal : total = pages * full + rest)
    (hrest : rest ≤ bound) (hpage : pages ≠ 0 → bound < rest + full) :
    pagesOf bound full total = pages := by
  rw [pagesOf]
  rcases Nat.eq_zero_or_pos pages with rfl | hpages
  · rw [Nat.div_eq_of_lt]
    omega
  · have hlow := hpage (by omega)
    obtain ⟨left, rfl⟩ : ∃ left, bound = rest + left := ⟨bound - rest, by omega⟩
    obtain ⟨fewer, rfl⟩ : ∃ fewer, pages = fewer + 1 := ⟨pages - 1, by omega⟩
    rw [htotal, Nat.succ_mul]
    have : fewer * full + full + rest - (rest + left) + (full - 1) =
        (2 * full - 1 - left - full) + full * (fewer + 1) := by
      rw [Nat.mul_succ, Nat.mul_comm full fewer]
      omega
    rw [this, Nat.add_mul_div_left _ _ hpos, Nat.div_eq_of_lt (by omega), Nat.zero_add]

/-- **A uniform buffer counts its pages.** -/
theorem paginate_replicate {entry : α} {held count : ℕ} (hpos : 0 < full) (hfull : full ≤ bound)
    (hheld : held ≤ bound) :
    paginate bound full (List.replicate held entry) (List.replicate count entry) =
      (List.replicate (pagesOf bound full (held + count)) (List.replicate full entry),
        List.replicate (held + count - pagesOf bound full (held + count) * full) entry) := by
  have hflat := @paginate_flatten α bound full (List.replicate count entry)
    (List.replicate held entry)
  have hpages := @paginate_pages α bound full hfull (List.replicate count entry)
    (List.replicate held entry)
  have hrest := @paginate_rest α bound full hpos (List.replicate count entry)
    (List.replicate held entry) (by rwa [length_replicate])
  have hlow := @paginate_rest_of_page α bound full hfull (List.replicate count entry)
    (List.replicate held entry)
  generalize paginate bound full (List.replicate held entry) (List.replicate count entry) = out
    at hflat hpages hrest hlow ⊢
  obtain ⟨pages, rest⟩ := out
  dsimp only at hflat hpages hrest hlow
  rw [replicate_append_replicate] at hflat
  have hlength : held + count = pages.length * full + rest.length := by
    have := congrArg List.length hflat
    rw [length_append, length_replicate, length_flatten,
      map_congr_left hpages, map_const', sum_replicate_nat] at this
    exact this.symm
  have hcount : pagesOf bound full (held + count) = pages.length :=
    pagesOf_eq hpos hlength hrest fun hne => hlow (by rwa [← length_eq_zero_iff.ne])
  have hall : ∀ x ∈ pages.flatten ++ rest, x = entry := by
    rw [hflat]
    exact fun x hx => eq_of_mem_replicate hx
  rw [hcount]
  refine Prod.ext ?_ ?_
  · refine eq_replicate_iff.mpr ⟨rfl, fun page hpage => ?_⟩
    refine eq_replicate_iff.mpr ⟨hpages page hpage, fun x hx => ?_⟩
    exact hall x (mem_append_left _ (mem_flatten.mpr ⟨page, hpage, hx⟩))
  · refine eq_replicate_iff.mpr ⟨?_, fun x hx => hall x (mem_append_right _ hx)⟩
    dsimp only
    omega

end Paginate

end LayerFs
