import Mathlib.Data.List.Chain

/-!
# What a path pattern means

Patterns over any alphabet with a slash, a star and a question mark, as a relation between a
pattern and the runs of characters it stands for.

* `Symbols.Boundary` — nothing, or a text that ends in a slash; `exists_names_iff`.
-/

namespace LayerFs

variable {α : Type}

/-- The characters that stand for more than themselves, and the one that parts names. -/
structure Symbols (α : Type) where
  slash : α
  star : α
  question : α
  star_ne : star ≠ slash
  question_ne : question ≠ slash
  ne : question ≠ star

/-! ## Names -/

namespace Symbols

variable (s : Symbols α)

def Boundary (text : List α) : Prop := text = [] ∨ text.getLast? = some s.slash

def wholeNames (names : List (List α)) : List α := names.flatMap (· ++ [s.slash])

variable {s}

theorem boundary_concat {text : List α} {c : α} : s.Boundary (text ++ [c]) ↔ c = s.slash := by
  simp [Boundary]

theorem Boundary.append {a b : List α} (ha : s.Boundary a) (hb : s.Boundary b) :
    s.Boundary (a ++ b) := by
  rcases hb with rfl | hb
  · rwa [List.append_nil]
  · exact .inr (by rw [List.getLast?_append, hb, Option.some_or])

theorem wholeNames_boundary (names : List (List α)) : s.Boundary (s.wholeNames names) := by
  induction names with
  | nil => exact .inl rfl
  | cons name names ih =>
    rw [wholeNames, List.flatMap_cons]
    exact (boundary_concat.mpr rfl).append ih

/-- **Whole names are the texts that end at a boundary.** -/
theorem exists_names_iff {text : List α} :
    (∃ names, (∀ name ∈ names, s.slash ∉ name) ∧ s.wholeNames names = text) ↔
      s.Boundary text := by
  refine ⟨?_, fun h => ?_⟩
  · rintro ⟨names, -, rfl⟩
    exact wholeNames_boundary names
  · induction text with
    | nil => exact ⟨[], by simp, rfl⟩
    | cons c text ih =>
      rcases text with _ | ⟨d, text⟩
      · obtain rfl : c = s.slash := by simpa [Boundary] using h
        exact ⟨[[]], by simp, rfl⟩
      · obtain ⟨names, hnames, htext⟩ := ih (.inr (by simpa [Boundary] using h))
        rcases names with _ | ⟨name, names⟩
        · cases htext
        by_cases hc : c = s.slash
        · refine ⟨[] :: name :: names, by simpa using hnames, ?_⟩
          rw [wholeNames, List.flatMap_cons, hc, ← htext]
          rfl
        · rw [List.forall_mem_cons] at hnames
          refine ⟨(c :: name) :: names, ?_, ?_⟩
          · rw [List.forall_mem_cons, List.mem_cons, not_or]
            exact ⟨⟨Ne.symm hc, hnames.1⟩, hnames.2⟩
          · rw [← htext, wholeNames, wholeNames, List.flatMap_cons, List.flatMap_cons]
            rfl

end Symbols

/-! ## Patterns -/

variable {s : Symbols α}

/-- The runs a pattern stands for behind `before`, `seen` being the pattern read so far. -/
inductive GlobRun (s : Symbols α) : List α → List α → List α → List α → Prop
  | nil {seen before : List α} : GlobRun s seen before [] []
  /-- any other character stands for itself -/
  | literal {seen before rest run : List α} {c : α} (hstar : c ≠ s.star)
    (hquestion : c ≠ s.question) (h : GlobRun s (seen ++ [c]) (before ++ [c]) rest run) :
    GlobRun s seen before (c :: rest) (c :: run)
  /-- `?`: one character other than `/` -/
  | question {seen before rest run : List α} {c x : α} (hc : c = s.question) (hx : x ≠ s.slash)
    (h : GlobRun s (seen ++ [c]) (before ++ [x]) rest run) :
    GlobRun s seen before (c :: rest) (x :: run)
  /-- `*`: any run without `/` -/
  | name {seen before rest run r : List α} {c : α} (hc : c = s.star)
    (hrest : rest.head? ≠ some s.star) (hr : s.slash ∉ r)
    (h : GlobRun s (seen ++ [c]) (before ++ r) rest run) :
    GlobRun s seen before (c :: rest) (r ++ run)
  /-- `**`: any run -/
  | any {seen before rest run r : List α} {c : α} (hc : c = s.star)
    (hrest : ¬(s.Boundary seen ∧ rest.head? = some s.slash))
    (h : GlobRun s (seen ++ [c, c]) (before ++ r) rest run) :
    GlobRun s seen before (c :: c :: rest) (r ++ run)
  /-- `**/` where a name begins: zero or more whole names -/
  | directories {seen before rest run : List α} {names : List (List α)} {c d : α}
    (hc : c = s.star) (hd : d = s.slash) (hseen : s.Boundary seen) (hbefore : s.Boundary before)
    (hnames : ∀ name ∈ names, s.slash ∉ name)
    (h : GlobRun s (seen ++ [c, c, d]) (before ++ s.wholeNames names) rest run) :
    GlobRun s seen before (c :: c :: d :: rest) (s.wholeNames names ++ run)

namespace GlobRun

variable {seen before rest run : List α}

theorem nil_iff : GlobRun s seen before [] run ↔ run = [] := by
  refine ⟨fun h => ?_, ?_⟩
  · cases h
    rfl
  · rintro rfl
    exact .nil

theorem literal_iff {c : α} (hstar : c ≠ s.star) (hquestion : c ≠ s.question) :
    GlobRun s seen before (c :: rest) run ↔
      ∃ run', run = c :: run' ∧ GlobRun s (seen ++ [c]) (before ++ [c]) rest run' := by
  refine ⟨fun h => ?_, ?_⟩
  · cases h with
    | literal _ _ h => exact ⟨_, rfl, h⟩
    | question hc => exact absurd hc hquestion
    | name hc => exact absurd hc hstar
    | any hc => exact absurd hc hstar
    | directories hc => exact absurd hc hstar
  · rintro ⟨run', rfl, h⟩
    exact .literal hstar hquestion h

theorem question_iff :
    GlobRun s seen before (s.question :: rest) run ↔
      ∃ x run', x ≠ s.slash ∧ run = x :: run' ∧
        GlobRun s (seen ++ [s.question]) (before ++ [x]) rest run' := by
  refine ⟨fun h => ?_, ?_⟩
  · generalize hq : s.question = q at h
    cases h with
    | literal _ hquestion => exact absurd hq.symm hquestion
    | question _ hx h => exact ⟨_, _, hx, rfl, h⟩
    | name hc => exact absurd (hq.trans hc) s.ne
    | any hc => exact absurd (hq.trans hc) s.ne
    | directories hc => exact absurd (hq.trans hc) s.ne
  · rintro ⟨x, run', hx, rfl, h⟩
    exact .question rfl hx h

theorem name_iff (hrest : rest.head? ≠ some s.star) :
    GlobRun s seen before (s.star :: rest) run ↔
      ∃ r run', s.slash ∉ r ∧ run = r ++ run' ∧
        GlobRun s (seen ++ [s.star]) (before ++ r) rest run' := by
  refine ⟨fun h => ?_, ?_⟩
  · generalize hstar : s.star = c at h
    cases h with
    | literal hne => exact absurd hstar.symm hne
    | question hc => exact absurd (hstar.trans hc).symm s.ne
    | name _ _ hr h => exact ⟨_, _, hr, rfl, h⟩
    | any hc => exact absurd (congrArg some hc) hrest
    | directories hc => exact absurd (congrArg some hc) hrest
  · rintro ⟨r, run', hr, rfl, h⟩
    exact .name rfl hrest hr h

theorem any_iff (hrest : ¬(s.Boundary seen ∧ rest.head? = some s.slash)) :
    GlobRun s seen before (s.star :: s.star :: rest) run ↔
      ∃ r run', run = r ++ run' ∧
        GlobRun s (seen ++ [s.star, s.star]) (before ++ r) rest run' := by
  refine ⟨fun h => ?_, ?_⟩
  · generalize hstar : s.star = c at h
    cases h with
    | literal hne => exact absurd hstar.symm hne
    | question hc => exact absurd (hstar.trans hc).symm s.ne
    | name hc hhead => exact absurd (congrArg some hc) hhead
    | any _ _ h => exact ⟨_, _, rfl, h⟩
    | directories _ hd hseen => exact absurd ⟨hseen, congrArg some hd⟩ hrest
  · rintro ⟨r, run', rfl, h⟩
    exact .any rfl hrest h

theorem directories_iff (hseen : s.Boundary seen) (hbefore : s.Boundary before) :
    GlobRun s seen before (s.star :: s.star :: s.slash :: rest) run ↔
      ∃ r run', s.Boundary r ∧ run = r ++ run' ∧
        GlobRun s (seen ++ [s.star, s.star, s.slash]) (before ++ r) rest run' := by
  refine ⟨fun h => ?_, ?_⟩
  · generalize hstar : s.star = c at h
    generalize hslash : s.slash = d at h
    cases h with
    | literal hne => exact absurd hstar.symm hne
    | question hc => exact absurd (hstar.trans hc).symm s.ne
    | name hc hhead => exact absurd (congrArg some hc) hhead
    | any _ hrest => exact absurd ⟨hseen, congrArg some hslash.symm⟩ hrest
    | directories _ _ _ _ _ h => exact ⟨_, _, Symbols.wholeNames_boundary _, rfl, h⟩
  · rintro ⟨r, run', hr, rfl, h⟩
    obtain ⟨names, hnames, rfl⟩ := Symbols.exists_names_iff.mpr hr
    exact .directories rfl rfl hseen hbefore hnames h

end GlobRun

/-- A pattern covers a path: from its start or, unless anchored, from where any name begins, to
its end or, unless the whole path is asked for, to where a name ends. -/
def Symbols.Covers (s : Symbols α) (anchored whole : Prop) (pattern path : List α) : Prop :=
  ∃ before run after, path = before ++ (run ++ after) ∧
    (before = [] ∨ (¬anchored ∧ before.getLast? = some s.slash)) ∧
    GlobRun s [] before pattern run ∧
    (after = [] ∨ (¬whole ∧ after.head? = some s.slash))

end LayerFs
