import Mathlib.Data.Finset.Card

/-!
# Releasing a counted graph

A finite graph is given by its holders and the list of what each holder holds. Every element
has a tally, which starts as the number of times it is held. A holder whose tally is zero may be
released, and everything it held then loses one reference, one at a time.

* `Orderly` — a list of releases, newest first, in which every holder of a released element was
  released before it. No element of a cycle occurs in such a list.
-/

namespace LayerFs

open List

section Release

variable {α : Type} (holders : List α) (held : α → List α)

def RefersTo (d s : α) : Prop := d ∈ holders ∧ s ∈ held d

/-- Releases, newest first, each after all its holders. -/
inductive Orderly : List α → Prop where
  | nil : Orderly []
  | cons {d : α} {rest : List α} (before : ∀ p, RefersTo holders held p d → p ∈ rest)
      (orderly : Orderly rest) : Orderly (d :: rest)

variable {holders held} {d s x : α} {released waiting open_ rest : List α}

/-- **A cycle is never released**: its first released element would have a holder on the cycle
that was released before. -/
theorem Orderly.not_mem_of_cycle (h : Orderly holders held released) :
    ∀ {d}, Relation.TransGen (RefersTo holders held) d d → d ∉ released := by
  induction h with
  | nil => exact fun _ => not_mem_nil
  | @cons r rest hbefore _ ih =>
    intro d hcycle hmem
    rcases mem_cons.mp hmem with rfl | hmem
    · obtain ⟨p, hdp, hpd⟩ := Relation.TransGen.tail'_iff.mp hcycle
      exact ih (Relation.TransGen.head' hpd hdp) (hbefore p hpd)
    · exact ih hcycle hmem

theorem Orderly.holder_mem (h : Orderly holders held released) {p : α} (hd : d ∈ released)
    (hp : RefersTo holders held p d) : p ∈ released := by
  induction h with
  | nil => simp at hd
  | @cons r rest hbefore _ ih =>
    rcases mem_cons.mp hd with rfl | hd
    · exact mem_cons_of_mem _ (hbefore p hp)
    · exact mem_cons_of_mem _ (ih hd)

variable [DecidableEq α]

def heldCount (held : α → List α) (ds : List α) (s : α) : ℕ := (ds.flatMap held).count s

@[simp] theorem heldCount_nil : heldCount held [] s = 0 := rfl

@[simp] theorem heldCount_cons :
    heldCount held (d :: rest) s = (held d).count s + heldCount held rest s := by
  rw [heldCount, flatMap_cons, count_append, heldCount]

theorem heldCount_perm {a b : List α} (h : a.Perm b) : heldCount held a s = heldCount held b s :=
  (h.flatMap_right held).count_eq s

theorem heldCount_append {a b : List α} :
    heldCount held (a ++ b) s = heldCount held a s + heldCount held b s := by
  rw [heldCount, flatMap_append, count_append]
  rfl

def survivors (holders released : List α) : List α := holders.filter fun d => d ∉ released

theorem mem_survivors : d ∈ survivors holders released ↔ d ∈ holders ∧ d ∉ released := by
  simp [survivors]

theorem heldCount_split (held : α → List α) (hnodup : holders.Nodup) (hr : released.Nodup)
    (hsub : released ⊆ holders) (s : α) :
    heldCount held released s + heldCount held (survivors holders released) s
      = heldCount held holders s := by
  have hpart : released.Perm (holders.filter fun d => d ∈ released) := by
    refine (perm_ext_iff_of_nodup hr (hnodup.filter _)).mpr fun d => ?_
    simp only [mem_filter, decide_eq_true_eq]
    exact ⟨fun hd => ⟨hsub hd, hd⟩, fun hd => hd.2⟩
  have hall := filter_append_perm (fun d => decide (d ∈ released)) holders
  rw [heldCount_perm hpart, ← heldCount_append, ← heldCount_perm hall]
  simp [survivors]

/-! ## The invariant -/

/-- Releases under way: `released` holders, newest first, `waiting` elements whose tally is
zero, and the references `open_` that released holders still have to drop. Exempt holders stay,
whatever their tally. -/
structure Releasing (holders : List α) (held : α → List α) (exempt : α → Prop)
    (released waiting open_ : List α) (tally : α → ℤ) : Prop where
  nodup : released.Nodup
  subset : released ⊆ holders
  orderly : Orderly holders held released
  /-- every dropped reference left the tally -/
  tally_eq : ∀ s, tally s + heldCount held released s = heldCount held holders s + open_.count s
  /-- open references are those of released holders -/
  open_le : ∀ s, open_.count s ≤ heldCount held released s
  released_zero : ∀ s ∈ released, tally s = 0 ∧ ¬ exempt s
  waiting_nodup : waiting.Nodup
  waiting_zero : ∀ s ∈ waiting, tally s = 0 ∧ s ∉ released ∧ ¬ exempt s
  complete : ∀ d ∈ holders, ¬ exempt d → tally d = 0 → d ∈ released ∨ d ∈ waiting

namespace Releasing

variable {exempt : α → Prop} {tally : α → ℤ}

theorem init (hnodup : waiting.Nodup)
    (htally : ∀ s, tally s = heldCount held holders s)
    (hzero : ∀ s ∈ waiting, tally s = 0 ∧ ¬ exempt s)
    (hall : ∀ d ∈ holders, ¬ exempt d → tally d = 0 → d ∈ waiting) :
    Releasing holders held exempt [] waiting [] tally where
  nodup := nodup_nil
  subset := nil_subset _
  orderly := .nil
  tally_eq := by simpa using htally
  open_le _ := Nat.le_refl 0
  released_zero := nofun
  waiting_nodup := hnodup
  waiting_zero s hs := ⟨(hzero s hs).1, not_mem_nil, (hzero s hs).2⟩
  complete d hd hkeep hd0 := .inr (hall d hd hkeep hd0)

theorem heldCount_le (h : Releasing holders held exempt released waiting open_ tally)
    (hnodup : holders.Nodup) (s : α) : heldCount held released s ≤ heldCount held holders s := by
  have := heldCount_split held hnodup h.nodup h.subset s
  omega

theorem tally_ge (h : Releasing holders held exempt released waiting open_ tally)
    (hnodup : holders.Nodup) (s : α) : (open_.count s : ℤ) ≤ tally s := by
  have := h.tally_eq s
  have := h.heldCount_le hnodup s
  omega

theorem skip (h : Releasing holders held exempt released (x :: waiting) open_ tally)
    (hx : x ∉ holders) : Releasing holders held exempt released waiting open_ tally where
  nodup := h.nodup
  subset := h.subset
  orderly := h.orderly
  tally_eq := h.tally_eq
  open_le := h.open_le
  released_zero := h.released_zero
  waiting_nodup := (nodup_cons.mp h.waiting_nodup).2
  waiting_zero s hs := h.waiting_zero s (mem_cons_of_mem _ hs)
  complete d hd hkeep hd0 := by
    rcases h.complete d hd hkeep hd0 with hr | hw
    · exact .inl hr
    · rcases mem_cons.mp hw with rfl | hw
      · exact absurd hd hx
      · exact .inr hw

theorem «open» (h : Releasing holders held exempt released (x :: waiting) open_ tally)
    (hnodup : holders.Nodup) (hx : x ∈ holders) :
    Releasing holders held exempt (x :: released) waiting (held x ++ open_) tally := by
  obtain ⟨hzero, hnew, hfree⟩ := h.waiting_zero x mem_cons_self
  have hwaiting := nodup_cons.mp h.waiting_nodup
  have hsplit := heldCount_split held hnodup h.nodup h.subset x
  -- a zero tally leaves no reference to `x` among the survivors
  have hnone : heldCount held (survivors holders released) x = 0 := by
    have := h.tally_eq x
    omega
  have hbefore : ∀ p, RefersTo holders held p x → p ∈ released := by
    intro p hp
    by_contra hsurvives
    rw [heldCount, count_eq_zero, mem_flatMap] at hnone
    exact hnone ⟨p, mem_survivors.mpr ⟨hp.1, hsurvives⟩, hp.2⟩
  refine ⟨nodup_cons.mpr ⟨hnew, h.nodup⟩, cons_subset.mpr ⟨hx, h.subset⟩,
    .cons hbefore h.orderly, fun s => ?_, fun s => ?_, ?_, hwaiting.2, fun s hs => ?_,
    fun d hd hkeep hd0 => ?_⟩
  · have := h.tally_eq s
    rw [heldCount_cons, count_append]
    omega
  · have := h.open_le s
    rw [heldCount_cons, count_append]
    omega
  · rintro s (_ | ⟨_, hs⟩)
    · exact ⟨hzero, hfree⟩
    · exact h.released_zero s hs
  · obtain ⟨hs0, hsnew, hsfree⟩ := h.waiting_zero s (mem_cons_of_mem _ hs)
    refine ⟨hs0, fun hmem => ?_, hsfree⟩
    rcases mem_cons.mp hmem with rfl | hmem
    · exact hwaiting.1 hs
    · exact hsnew hmem
  · rcases h.complete d hd hkeep hd0 with hr | hw
    · exact .inl (mem_cons_of_mem _ hr)
    · rcases mem_cons.mp hw with rfl | hw
      · exact .inl mem_cons_self
      · exact .inr hw

theorem drop (h : Releasing holders held exempt released waiting (x :: open_) tally)
    (hnodup : holders.Nodup) (hexempt : ∀ s, exempt s → heldCount held holders s = 0)
    {tally' : α → ℤ} (hx : tally' x = tally x - 1)
    (hother : ∀ s, s ≠ x → tally' s = tally s) {waiting' : List α}
    (hwaiting : waiting' = if tally' x = 0 ∧ x ∈ holders then waiting ++ [x] else waiting) :
    Releasing holders held exempt released waiting' open_ tally' := by
  -- the reference being dropped shows that `x` was not at zero
  have hpos : tally x ≠ 0 := by
    have := h.tally_ge hnodup x
    rw [count_cons_self] at this
    omega
  have hout : x ∉ waiting := fun hmem => hpos (h.waiting_zero x hmem).1
  have hsurvives : x ∉ released := fun hmem => hpos (h.released_zero x hmem).1
  have hfree : ¬ exempt x := by
    intro hx
    have := h.open_le x
    have := h.heldCount_le hnodup x
    rw [hexempt x hx] at this
    rw [count_cons_self] at *
    omega
  have hsame : ∀ s, tally s = 0 → tally' s = 0 := by
    intro s hs
    rw [hother s fun hsx => hpos (hsx ▸ hs), hs]
  have hsub : waiting ⊆ waiting' := by
    rw [hwaiting]
    split_ifs
    · exact subset_append_left _ _
    · exact List.Subset.refl _
  have hmem : ∀ s ∈ waiting', s ∈ waiting ∨ s = x ∧ tally' x = 0 := by
    intro s hs
    rw [hwaiting] at hs
    split_ifs at hs with hcase
    · rcases mem_append.mp hs with hs | hs
      · exact .inl hs
      · exact .inr ⟨mem_singleton.mp hs, hcase.1⟩
    · exact .inl hs
  refine ⟨h.nodup, h.subset, h.orderly, fun s => ?_, fun s => ?_, fun s hs =>
    ⟨hsame s (h.released_zero s hs).1, (h.released_zero s hs).2⟩, ?_, fun s hs => ?_,
    fun d hd hkeep hd0 => ?_⟩
  · have := h.tally_eq s
    rw [count_cons] at this
    by_cases hs : s = x
    · subst hs
      rw [beq_self_eq_true, if_pos rfl] at this
      omega
    · rw [if_neg (by simpa using Ne.symm hs)] at this
      rw [hother s hs]
      omega
  · exact (count_le_count_cons).trans (h.open_le s)
  · rw [hwaiting]
    split_ifs
    · exact nodup_append.mpr ⟨h.waiting_nodup, nodup_singleton x,
        fun a ha b hb hab => hout (mem_singleton.mp hb ▸ hab ▸ ha)⟩
    · exact h.waiting_nodup
  · rcases hmem s hs with hs | ⟨rfl, hs0⟩
    · exact ⟨hsame s (h.waiting_zero s hs).1, (h.waiting_zero s hs).2⟩
    · exact ⟨hs0, hsurvives, hfree⟩
  · by_cases hdx : d = x
    · subst hdx
      rw [hwaiting, if_pos ⟨hd0, hd⟩]
      exact .inr (mem_append_right _ (mem_singleton.mpr rfl))
    · rw [hother d hdx] at hd0
      exact (h.complete d hd hkeep hd0).imp_right (@hsub d)

/-! ## When nothing waits -/

/-- **What a finished release leaves**: the tally of an element counts the surviving holders. -/
theorem tally_survivors (h : Releasing holders held exempt released waiting [] tally)
    (hnodup : holders.Nodup) (s : α) :
    tally s = heldCount held (survivors holders released) s := by
  have := h.tally_eq s
  have := heldCount_split held hnodup h.nodup h.subset s
  rw [count_nil] at *
  omega

theorem mem_released (h : Releasing holders held exempt released [] [] tally) (hd : d ∈ holders)
    (hkeep : ¬ exempt d) : d ∈ released ↔ tally d = 0 := by
  refine ⟨fun hmem => (h.released_zero d hmem).1, fun hzero => ?_⟩
  exact (h.complete d hd hkeep hzero).resolve_right not_mem_nil

theorem survives (h : Releasing holders held exempt released waiting open_ tally) {p : α}
    (hp : RefersTo holders held p s) (hsurvives : p ∉ released) : s ∉ released :=
  fun hs => hsurvives (h.orderly.holder_mem hs hp)

end Releasing

/-! ## Hanging from the root -/

omit [DecidableEq α] in
/-- **In a finite graph without cycles going up ends at the root**, when every other element of
a closed part has a holder in the part. -/
theorem reached_of_acyclic {root : α} {P : α → Prop}
    (hacyclic : ∀ s, ¬ Relation.TransGen (RefersTo holders held) s s)
    (hup : ∀ s, P s → s ≠ root → ∃ p, P p ∧ RefersTo holders held p s) :
    ∀ s, P s → Relation.ReflTransGen (fun a b => P a ∧ RefersTo holders held a b) root s := by
  classical
  -- a holder of `s` has fewer holders above it than `s` has
  have hfewer : ∀ {p s}, RefersTo holders held p s →
      (holders.toFinset.filter fun a => Relation.TransGen (RefersTo holders held) a p).card
        < (holders.toFinset.filter fun a => Relation.TransGen (RefersTo holders held) a s).card := by
    intro p s hps
    refine Finset.card_lt_card (Finset.ssubset_iff_subset_ne.mpr ⟨fun a ha => ?_, fun heq => ?_⟩)
    · rw [Finset.mem_filter] at ha ⊢
      exact ⟨ha.1, ha.2.tail hps⟩
    · have hp : p ∈ holders.toFinset.filter
          fun a => Relation.TransGen (RefersTo holders held) a s :=
        Finset.mem_filter.mpr ⟨mem_toFinset.mpr hps.1, .single hps⟩
      rw [← heq] at hp
      exact hacyclic p (Finset.mem_filter.mp hp).2
  intro s
  induction hn : (holders.toFinset.filter
    fun a => Relation.TransGen (RefersTo holders held) a s).card using Nat.strong_induction_on
    generalizing s with
  | _ n ih =>
    intro hs
    by_cases hroot : s = root
    · exact hroot ▸ .refl
    · obtain ⟨p, hp, hps⟩ := hup s hs hroot
      exact (ih _ (hn ▸ hfewer hps) p rfl hp).tail ⟨hp, hps⟩

end Release

end LayerFs
