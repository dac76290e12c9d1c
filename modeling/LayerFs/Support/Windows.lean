import LayerFs.Support.SortedMap

/-!
# Windows of an ascending list

A list of keys in strictly ascending order is read a window of its smallest keys at a time, or
joined from the windows of two parts of it.

* `take_eq_of_cover` — **what decides a window**: every key left out has a windowful before it.
-/

namespace LayerFs.Windows

open List

variable {K : Type} [LinearOrder K]

def behind : Option K → K → Bool
  | none, _ => true
  | some after, key => decide (after < key)

def rest (keys : List K) (after : Option K) : List K := keys.filter (behind after)

/-! ## One window -/

/-- **What decides a window**: keys of a list such that every key left out has at least a
windowful of them before it. -/
theorem take_eq_of_cover {all : List K} (hall : all.Pairwise (· < ·)) :
    ∀ {held : List K} {n : ℕ}, held.Pairwise (· < ·) → held ⊆ all →
      (∀ k ∈ all, k ∈ held ∨ ∃ before : List K, before.Nodup ∧ n ≤ before.length ∧
        ∀ b ∈ before, b ∈ held ∧ b < k) →
      held.take n = all.take n := by
  induction all with
  | nil =>
    intro held n _ hsub _
    rw [subset_nil.mp hsub]
  | cons a all ih =>
    intro held n hheld hsub hcover
    rcases n with _ | n
    · rfl
    rw [pairwise_cons] at hall
    -- nothing held is smaller than the head
    have hle : ∀ k ∈ held, a ≤ k := by
      intro k hk
      rcases mem_cons.mp (hsub hk) with rfl | hk
      · exact le_rfl
      · exact (hall.1 k hk).le
    rcases hcover a mem_cons_self with hmem | ⟨before, -, hlong, hbefore⟩
    · rcases held with _ | ⟨b, held⟩
      · cases hmem
      rw [pairwise_cons] at hheld
      obtain rfl : a = b := by
        rcases mem_cons.mp hmem with h | h
        · exact h
        · exact absurd (hheld.1 a h) (not_lt_of_ge (hle b mem_cons_self))
      rw [take_succ_cons, take_succ_cons]
      refine congrArg (a :: ·) (ih hall.2 hheld.2 (fun k hk => ?_) fun k hk => ?_)
      · rcases mem_cons.mp (hsub (mem_cons_of_mem _ hk)) with rfl | h
        · exact absurd (hheld.1 k hk) (lt_irrefl k)
        · exact h
      · rcases hcover k (mem_cons_of_mem _ hk) with h | ⟨before, hnodup, hlong, hbefore⟩
        · rcases mem_cons.mp h with rfl | h
          · exact absurd (hall.1 k hk) (lt_irrefl k)
          · exact .inl h
        · refine .inr ⟨before.erase a, hnodup.erase a, ?_, fun b hb => ?_⟩
          · have hlength := @le_length_erase K _ _ a before
            omega
          · obtain ⟨hne, hb⟩ := hnodup.mem_erase_iff.mp hb
            obtain ⟨hheldb, hlt⟩ := hbefore b hb
            exact ⟨(mem_cons.mp hheldb).resolve_left hne, hlt⟩
    · obtain ⟨b, before, rfl⟩ : ∃ b rest, before = b :: rest :=
        exists_cons_of_ne_nil (ne_nil_of_length_pos (by omega))
      obtain ⟨hb, hlt⟩ := hbefore b mem_cons_self
      exact absurd hlt (not_lt_of_ge (hle b hb))

def fullBound (n : ℕ) (window : List K) : Option K :=
  if window.length = n then window.getLast? else none

theorem ascending_getLast {keys : List K} (h : keys.Pairwise (· < ·)) {last k : K}
    (hlast : keys.getLast? = some last) (hk : k ∈ keys) : k ≤ last := by
  obtain ⟨front, rfl⟩ := getLast?_eq_some_iff.mp hlast
  rcases mem_append.mp hk with hk | hk
  · exact ((pairwise_append.mp h).2.2 k hk last (mem_singleton_self _)).le
  · exact (mem_singleton.mp hk).le

theorem window_before {keys : List K} (h : keys.Pairwise (· < ·)) {n : ℕ} {k : K} (hk : k ∈ keys)
    (hout : k ∉ keys.take n) : (keys.take n).length = n ∧ ∀ b ∈ keys.take n, b < k := by
  have hdrop : k ∈ keys.drop n := by
    rw [← take_append_drop n keys, mem_append] at hk
    exact hk.resolve_left hout
  rw [← take_append_drop n keys] at h
  refine ⟨?_, fun b hb => (pairwise_append.mp h).2.2 b hb k hdrop⟩
  have hlength := length_pos_of_mem hdrop
  rw [length_drop] at hlength
  rw [length_take]
  omega

/-- **A window from the windows of two parts.** Where the second part's window is full, the keys
of the first behind its last are left for the next window. -/
theorem window_of_parts {all left right : List K} (hall : all.Pairwise (· < ·))
    (hleft : left.Pairwise (· < ·)) (hright : right.Pairwise (· < ·))
    (hmem : ∀ k, k ∈ all ↔ k ∈ left ∨ k ∈ right) (n : ℕ) :
    (sortDedup ((left.take n).filter
      (fun k => (fullBound n (right.take n)).all fun bound => decide (k ≤ bound)) ++
        right.take n)).take n = all.take n := by
  have htakeLeft := hleft.sublist (take_sublist n left)
  have htakeRight := hright.sublist (take_sublist n right)
  refine take_eq_of_cover hall (sortDedup_ascending _) (fun k hk => ?_) fun k hk => ?_
  · rw [mem_sortDedup, mem_append, mem_filter] at hk
    rcases hk with ⟨hk, -⟩ | hk
    · exact (hmem k).mpr (.inl (mem_of_mem_take hk))
    · exact (hmem k).mpr (.inr (mem_of_mem_take hk))
  · simp only [mem_sortDedup, mem_append, mem_filter]
    rw [or_iff_not_imp_left]
    intro hout
    rw [not_or, not_and] at hout
    -- a full window of the right part lies before `k`
    have hfull : (right.take n).length = n → (∀ b ∈ right.take n, b < k) →
        ∃ before : List K, before.Nodup ∧ n ≤ before.length ∧
          ∀ b ∈ before, ((b ∈ left.take n ∧
            ((fullBound n (right.take n)).all fun bound => decide (b ≤ bound)) = true) ∨
              b ∈ right.take n) ∧ b < k :=
      fun hlength hlt => ⟨right.take n, htakeRight.imp ne_of_lt, hlength.ge,
        fun b hb => ⟨.inr hb, hlt b hb⟩⟩
    rcases (hmem k).mp hk with hk | hk
    · by_cases hbound : ((fullBound n (right.take n)).all fun bound => decide (k ≤ bound)) = true
      · -- the left window lies before `k`, and so below the bound
        obtain ⟨hlength, hlt⟩ := window_before hleft hk fun h => hout.1 h hbound
        refine ⟨left.take n, htakeLeft.imp ne_of_lt, hlength.ge, fun b hb => ⟨.inl ⟨hb, ?_⟩,
          hlt b hb⟩⟩
        rw [Option.all_eq_true] at hbound ⊢
        exact fun bound h => decide_eq_true
          ((hlt b hb).le.trans (of_decide_eq_true (hbound bound h)))
      · rw [fullBound] at hbound
        split_ifs at hbound with hlength
        · rcases hlast : (right.take n).getLast? with _ | last
          · rw [hlast] at hbound
            exact absurd rfl hbound
          · rw [hlast] at hbound
            have hlt : last < k := by simpa using hbound
            exact hfull hlength fun b hb =>
              (ascending_getLast htakeRight hlast hb).trans_lt hlt
        · exact absurd rfl hbound
    · obtain ⟨hlength, hlt⟩ := window_before hright hk hout.2
      exact hfull hlength hlt

/-! ## Windows behind each other -/

theorem rest_of_window {keys : List K} (h : keys.Pairwise (· < ·)) {after : Option K} {n : ℕ}
    {last : K} (hlast : ((rest keys after).take n).getLast? = some last) :
    (rest keys after).take n ++ rest keys (some last) = rest keys after := by
  have hrest : (rest keys after).Pairwise (· < ·) := h.sublist filter_sublist
  have hbehind : behind after last = true :=
    (mem_filter.mp (mem_of_mem_take (mem_of_getLast? hlast))).2
  have hdrop : rest keys (some last) = (rest keys after).drop n := by
    have htwice : rest keys (some last) = (rest keys after).filter (behind (some last)) := by
      rw [rest, rest, filter_filter]
      refine filter_congr fun k _ => ?_
      rcases after with _ | after
      · simp [behind]
      · have hlt : after < last := of_decide_eq_true hbehind
        by_cases hk : last < k
        · simp [behind, hk, hlt.trans hk]
        · simp [behind, hk]
    rw [htwice]
    conv_lhs => rw [← take_append_drop n (rest keys after)]
    rw [filter_append]
    have hsplit := hrest
    rw [← take_append_drop n (rest keys after), pairwise_append] at hsplit
    have hfront : ((rest keys after).take n).filter (behind (some last)) = [] := by
      rw [filter_eq_nil_iff]
      intro k hk
      simpa [behind] using ascending_getLast hsplit.1 hlast hk
    have hback : ((rest keys after).drop n).filter (behind (some last))
        = (rest keys after).drop n := by
      rw [filter_eq_self]
      intro k hk
      exact decide_eq_true (hsplit.2.2 last (mem_of_getLast? hlast) k hk)
    rw [hfront, hback, nil_append]
  rw [hdrop, take_append_drop]

end LayerFs.Windows
