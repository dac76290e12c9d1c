import LayerFs.Support.SortedMap

/-!
# The difference of two ordered tables

Two tables in key order are compared by walking both at once. What the walk meets is, key by key,
what the two tables hold there, and rows both begin with may be left out together.

* `Differs.append_same` — **rows both sides begin with** change nothing.
* `Differs.ascending`, `Differs.mem_iff` — **what is met**: every key the tables disagree on, once,
  in key order, with what each holds there; `Differs.unique`.
-/

namespace LayerFs

open List

variable {K V : Type} [LinearOrder K]

abbrev Change (K V : Type) := K × Option V × Option V

/-- **The walk of two tables**: the smaller key first, and a key of both once. -/
inductive Differs : List (K × V) → List (K × V) → List (Change K V) → Prop
  | nil : Differs [] [] []
  | left {k : K} {x : V} {L R : List (K × V)} {out : List (Change K V)}
    (hk : ∀ row ∈ R, k < row.1) (h : Differs L R out) :
    Differs ((k, x) :: L) R ((k, some x, none) :: out)
  | right {k : K} {y : V} {L R : List (K × V)} {out : List (Change K V)}
    (hk : ∀ row ∈ L, k < row.1) (h : Differs L R out) :
    Differs L ((k, y) :: R) ((k, none, some y) :: out)
  | same {k : K} {x : V} {L R : List (K × V)} {out : List (Change K V)} (h : Differs L R out) :
    Differs ((k, x) :: L) ((k, x) :: R) out
  | changed {k : K} {x y : V} {L R : List (K × V)} {out : List (Change K V)} (hxy : x ≠ y)
    (h : Differs L R out) :
    Differs ((k, x) :: L) ((k, y) :: R) ((k, some x, some y) :: out)

namespace Differs

variable {L R : List (K × V)} {out : List (Change K V)}

/-- **Rows both sides begin with** change nothing. -/
theorem append_same (shared : List (K × V)) (h : Differs L R out) :
    Differs (shared ++ L) (shared ++ R) out := by
  induction shared with
  | nil => exact h
  | cons row shared ih => exact ih.same

theorem lookup_front {k : K} {rows : List (K × V)} (h : ∀ row ∈ rows, k < row.1) :
    rows.lookup k = none := by
  induction rows with
  | nil => rfl
  | cons row rows ih =>
    obtain ⟨hrow, hrows⟩ := forall_mem_cons.mp h
    rw [lookup_cons_eq, if_neg (ne_of_lt hrow), ih hrows]

theorem behind (h : Differs L R out) {k : K} (hL : ∀ row ∈ L, k < row.1)
    (hR : ∀ row ∈ R, k < row.1) : ∀ c ∈ out, k < c.1 := by
  induction h with
  | nil => exact fun c hc => absurd hc not_mem_nil
  | left _ _ ih =>
    obtain ⟨hfirst, hrest⟩ := forall_mem_cons.mp hL
    exact forall_mem_cons.mpr ⟨hfirst, ih hrest hR⟩
  | right _ _ ih =>
    obtain ⟨hfirst, hrest⟩ := forall_mem_cons.mp hR
    exact forall_mem_cons.mpr ⟨hfirst, ih hL hrest⟩
  | same _ ih =>
    exact ih (forall_mem_cons.mp hL).2 (forall_mem_cons.mp hR).2
  | changed _ _ ih =>
    obtain ⟨hfirst, hrest⟩ := forall_mem_cons.mp hL
    exact forall_mem_cons.mpr ⟨hfirst, ih hrest (forall_mem_cons.mp hR).2⟩

/-- **What is met is in key order**, each key once. -/
theorem ascending (h : Differs L R out) (hL : Ascending L) (hR : Ascending R) :
    Ascending out := by
  induction h with
  | nil => exact ascending_nil
  | left hk h ih =>
    obtain ⟨hfirst, hrest⟩ := ascending_cons.mp hL
    exact ascending_cons.mpr ⟨h.behind hfirst hk, ih hrest hR⟩
  | right hk h ih =>
    obtain ⟨hfirst, hrest⟩ := ascending_cons.mp hR
    exact ascending_cons.mpr ⟨h.behind hk hfirst, ih hL hrest⟩
  | same h ih => exact ih (ascending_cons.mp hL).2 (ascending_cons.mp hR).2
  | changed _ h ih =>
    obtain ⟨hfirst, hrest⟩ := ascending_cons.mp hL
    obtain ⟨hfirst', hrest'⟩ := ascending_cons.mp hR
    exact ascending_cons.mpr ⟨h.behind hfirst hfirst', ih hrest hrest'⟩

def Tells (L R : List (K × V)) (c : Change K V) : Prop :=
  c.2.1 = L.lookup c.1 ∧ c.2.2 = R.lookup c.1 ∧ L.lookup c.1 ≠ R.lookup c.1

theorem tells_rest {L R L' R' : List (K × V)} {c : Change K V}
    (hL : L.lookup c.1 = L'.lookup c.1) (hR : R.lookup c.1 = R'.lookup c.1) :
    Tells L R c ↔ Tells L' R' c := by
  rw [Tells, Tells, hL, hR]

theorem mem_cons_tells {k : K} {a b : Option V} {L R L' R' : List (K × V)}
    (hout : ∀ c ∈ out, k < c.1) (ha : L.lookup k = a) (hb : R.lookup k = b) (hab : a ≠ b)
    (hL : ∀ k', k' ≠ k → L.lookup k' = L'.lookup k')
    (hR : ∀ k', k' ≠ k → R.lookup k' = R'.lookup k')
    (ih : ∀ c, c ∈ out ↔ Tells L' R' c) (c : Change K V) :
    c ∈ (k, a, b) :: out ↔ Tells L R c := by
  obtain ⟨k', a', b'⟩ := c
  rw [mem_cons]
  by_cases hk : k' = k
  · subst hk
    rw [Tells, ha, hb]
    constructor
    · rintro (heq | hmem)
      · cases heq
        exact ⟨rfl, rfl, hab⟩
      · exact absurd (hout _ hmem) (lt_irrefl _)
    · rintro ⟨rfl, rfl, -⟩
      exact .inl rfl
  · rw [tells_rest (hL k' hk) (hR k' hk), ← ih]
    constructor
    · rintro (heq | hmem)
      · cases heq
        exact absurd rfl hk
      · exact hmem
    · exact .inr

/-- **What is met**: every key the tables disagree on, with what each holds there. -/
theorem mem_iff (h : Differs L R out) (hL : Ascending L) (hR : Ascending R) (c : Change K V) :
    c ∈ out ↔ Tells L R c := by
  induction h generalizing c with
  | nil => exact iff_of_false not_mem_nil fun htells => htells.2.2 rfl
  | @left k x L R out hk h ih =>
    obtain ⟨hfirst, hrest⟩ := ascending_cons.mp hL
    refine mem_cons_tells (h.behind hfirst hk) ?_ (lookup_front hk) (by simp) (fun k' hk' => ?_)
      (fun _ _ => rfl) (ih hrest hR) c
    · rw [lookup_cons_eq, if_pos rfl]
    · rw [lookup_cons_eq, if_neg hk']
  | @right k y L R out hk h ih =>
    obtain ⟨hfirst, hrest⟩ := ascending_cons.mp hR
    refine mem_cons_tells (h.behind hk hfirst) (lookup_front hk) ?_ (by simp) (fun _ _ => rfl)
      (fun k' hk' => ?_) (ih hL hrest) c
    · rw [lookup_cons_eq, if_pos rfl]
    · rw [lookup_cons_eq, if_neg hk']
  | @same k x L R out h ih =>
    obtain ⟨hfirst, hrest⟩ := ascending_cons.mp hL
    obtain ⟨hfirst', hrest'⟩ := ascending_cons.mp hR
    rw [ih hrest hrest']
    -- the shared key is met by neither side
    by_cases hk : c.1 = k
    · refine iff_of_false (fun htells => htells.2.2 ?_) (fun htells => htells.2.2 ?_)
      · rw [hk, lookup_front hfirst, lookup_front hfirst']
      · rw [lookup_cons_eq, lookup_cons_eq, if_pos hk, if_pos hk]
    · refine (tells_rest ?_ ?_).symm
      · rw [lookup_cons_eq, if_neg hk]
      · rw [lookup_cons_eq, if_neg hk]
  | @changed k x y L R out hxy h ih =>
    obtain ⟨hfirst, hrest⟩ := ascending_cons.mp hL
    obtain ⟨hfirst', hrest'⟩ := ascending_cons.mp hR
    refine mem_cons_tells (h.behind hfirst hfirst') ?_ ?_ (by simpa using hxy) (fun k' hk' => ?_)
      (fun k' hk' => ?_) (ih hrest hrest') c
    · rw [lookup_cons_eq, if_pos rfl]
    · rw [lookup_cons_eq, if_pos rfl]
    · rw [lookup_cons_eq, if_neg hk']
    · rw [lookup_cons_eq, if_neg hk']

/-- **What is met is told by the tables alone.** -/
theorem unique {out' : List (Change K V)} (h : Differs L R out) (h' : Differs L R out')
    (hL : Ascending L) (hR : Ascending R) : out = out' := by
  have hout := h.ascending hL hR
  have hout' := h'.ascending hL hR
  have hperm : out.Perm out' := by
    refine (perm_ext_iff_of_nodup hout.keys_nodup.of_map hout'.keys_nodup.of_map).mpr ?_
    intro c
    rw [h.mem_iff hL hR, h'.mem_iff hL hR]
  exact hperm.eq_of_pairwise (fun a b _ _ hab hba => absurd (hab.trans hba) (lt_irrefl _))
    hout hout'

end Differs

end LayerFs
