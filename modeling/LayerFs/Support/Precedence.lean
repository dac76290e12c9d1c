import LayerFs.Support.SortedMap

/-!
# Release in order of prerequisites

Every key waits for the keys it needs; a key is released when it waits for nothing any more, and
then releases what waited for it alone. The counts, the waiting lists and the frontier are kept as
the loop keeps them.

* `Waiting.Sound` — **the invariant**: a count is the number of needs not released yet, a waiting
  list has an entry for each of them, and the frontier is what waits for nothing.
-/

namespace LayerFs

open List

variable {K : Type} [LinearOrder K]
variable {key : K} {rows : List (K × List K)}

/-- A release in progress. -/
structure Waiting (K : Type) [LinearOrder K] where
  counts : SortedMap K ℕ
  dependents : SortedMap K (List K)
  frontier : SortedMap K Unit
  order : List K

def needsOf (rows : List (K × List K)) (key : K) : List K := (rows.lookup key).getD []

namespace Waiting

def enter (waiting : Waiting K) (row : K × List K) : Waiting K where
  counts := waiting.counts.insert row.1 row.2.length
  dependents := row.2.foldl
    (fun lists need => lists.insert need ((lists.get? need).getD [] ++ [row.1])) waiting.dependents
  frontier := if row.2.isEmpty then waiting.frontier.insert row.1 () else waiting.frontier
  order := waiting.order

def start (rows : List (K × List K)) : Waiting K :=
  rows.foldl enter ⟨.empty, .empty, .empty, []⟩

/-- One need of a key was released; a key without a count is refused. -/
def settle (waiting : Waiting K) (child : K) : Option (Waiting K) := do
  let count ← waiting.counts.get? child
  return { waiting with
    counts := waiting.counts.insert child (count - 1)
    frontier := if count - 1 = 0 then waiting.frontier.insert child () else waiting.frontier }

/-- Releases the first key of the frontier and settles what waited for it. -/
def pop (waiting : Waiting K) (key : K) : Option (Waiting K) :=
  ((waiting.dependents.get? key).getD []).foldlM settle
    { waiting with
      frontier := waiting.frontier.erase key
      dependents := waiting.dependents.erase key
      order := waiting.order ++ [key] }

/-- Releases keys while any waits for nothing; at most `fuel` of them. -/
def drain : ℕ → Waiting K → Option (Waiting K)
  | 0, waiting => some waiting
  | fuel + 1, waiting =>
    match waiting.frontier.entries with
    | [] => some waiting
    | (key, _) :: _ => do
      let waiting ← waiting.pop key
      drain fuel waiting

/-! ## Settling -/

/-- Settling lowers each count by the number of times its key is settled, and a key whose count
becomes zero joins the frontier. -/
theorem foldlM_settle {children : List K} : ∀ {waiting : Waiting K},
    (∀ key ∈ children, ∃ count, waiting.counts.get? key = some count ∧
      children.count key ≤ count) →
    ∃ waiting', children.foldlM settle waiting = some waiting' ∧
      waiting'.order = waiting.order ∧ waiting'.dependents = waiting.dependents ∧
      (∀ key, waiting'.counts.get? key =
        (waiting.counts.get? key).map fun count => count - children.count key) ∧
      (∀ key, waiting'.frontier.get? key = some () ↔ waiting.frontier.get? key = some () ∨
        (key ∈ children ∧ waiting.counts.get? key = some (children.count key))) := by
  induction children with
  | nil =>
    intro waiting _
    refine ⟨waiting, rfl, rfl, rfl, fun key => ?_, fun key => ?_⟩
    · cases waiting.counts.get? key <;> rfl
    · simp
  | cons child rest ih =>
    intro waiting hcounts
    obtain ⟨count, hcount, hle⟩ := hcounts child mem_cons_self
    rw [count_cons_self] at hle
    obtain ⟨waiting', hrun, horder, hdependents, hcounts', hfrontier⟩ := @ih
      { waiting with
        counts := waiting.counts.insert child (count - 1)
        frontier := if count - 1 = 0 then waiting.frontier.insert child () else waiting.frontier }
      (by
        intro key hkey
        obtain ⟨n, hn, hle'⟩ := hcounts key (mem_cons_of_mem _ hkey)
        rw [SortedMap.get?_insert]
        by_cases hsame : key = child
        · subst hsame
          refine ⟨count - 1, if_pos rfl, by omega⟩
        · rw [count_cons_of_ne (Ne.symm hsame)] at hle'
          exact ⟨n, by rw [if_neg hsame, hn], hle'⟩)
    refine ⟨waiting', ?_, horder, hdependents, fun key => ?_, fun key => ?_⟩
    · rw [List.foldlM_cons, settle, hcount]
      exact hrun
    · rw [hcounts', SortedMap.get?_insert]
      by_cases hsame : key = child
      · subst hsame
        rw [if_pos rfl, hcount, count_cons_self, Option.map_some, Option.map_some,
          Nat.sub_sub, Nat.add_comm]
      · rw [if_neg hsame, count_cons_of_ne (Ne.symm hsame)]
    · rw [hfrontier, SortedMap.get?_insert]
      by_cases hsame : key = child
      · subst hsame
        rw [if_pos rfl, hcount, count_cons_self, Option.some.injEq, Option.some.injEq]
        have hmem : key ∈ rest ↔ 0 < rest.count key := count_pos_iff.symm
        split_ifs with hzero
        · simp only [SortedMap.get?_insert, if_true, true_or, mem_cons, true_and, true_iff]
          exact .inr (by omega)
        · simp only [mem_cons, true_or, true_and, hmem]
          refine or_congr_right ?_
          omega
      · rw [if_neg hsame, count_cons_of_ne (Ne.symm hsame), mem_cons,
          or_iff_right hsame]
        split_ifs
        · rw [SortedMap.get?_insert, if_neg hsame]
        · rfl

/-! ## The invariant -/

/-- **The invariant** of a release over a table of needs. -/
structure Sound (rows : List (K × List K)) (waiting : Waiting K) : Prop where
  nodup : waiting.order.Nodup
  known : ∀ key ∈ waiting.order, key ∈ rows.map Prod.fst
  counted : ∀ key ∈ rows.map Prod.fst, waiting.counts.get? key =
    some ((needsOf rows key).countP fun need => need ∉ waiting.order)
  listed : ∀ need ∉ waiting.order, ∀ key,
    ((waiting.dependents.get? need).getD []).count key = (needsOf rows key).count need
  free : ∀ key, waiting.frontier.get? key = some () ↔ key ∈ rows.map Prod.fst ∧
    key ∉ waiting.order ∧ ∀ need ∈ needsOf rows key, need ∈ waiting.order
  precedes : ∀ before key after, waiting.order = before ++ key :: after →
    ∀ need ∈ needsOf rows key, need ∈ before

theorem needsOf_eq_nil (h : key ∉ rows.map Prod.fst) : needsOf rows key = [] := by
  rw [needsOf, lookup_eq_none_iff.mpr h]
  rfl

theorem countP_released {needs order : List K} {key : K} (h : key ∉ order) :
    (needs.countP fun need => need ∉ order) - needs.count key =
      needs.countP fun need => need ∉ order ++ [key] := by
  have hsplit : (needs.countP fun need => need ∉ order) =
      (needs.countP fun need => need ∉ order ++ [key]) + needs.count key := by
    induction needs with
    | nil => rfl
    | cons need rest ih =>
      rw [countP_cons, countP_cons, count_cons, ih]
      by_cases hkey : need = key
      · subst hkey
        simp [h]
        omega
      · simp [hkey]
        omega
  omega

/-- **One release** keeps the invariant. -/
theorem Sound.pop {waiting : Waiting K} (h : Sound rows waiting)
    (hfree : waiting.frontier.get? key = some ()) :
    ∃ waiting', waiting.pop key = some waiting' ∧ Sound rows waiting' ∧
      waiting'.order = waiting.order ++ [key] := by
  obtain ⟨hknown, hnew, hneeds⟩ := (h.free key).mp hfree
  have hlisted := h.listed key hnew
  have hmem : ∀ child ∈ (waiting.dependents.get? key).getD [], child ∈ rows.map Prod.fst := by
    intro child hchild
    by_contra hunknown
    have hcount := hlisted child
    rw [needsOf_eq_nil hunknown, count_nil, count_eq_zero] at hcount
    exact hcount hchild
  have hle : ∀ child, (needsOf rows child).count key ≤
      (needsOf rows child).countP fun need => need ∉ waiting.order := by
    intro child
    rw [List.count]
    refine countP_mono_left fun need _ hneed => ?_
    rw [beq_iff_eq] at hneed
    rw [hneed]
    simpa using hnew
  obtain ⟨waiting', hrun, horder, hdependents, hcounts, hfrontier⟩ := @foldlM_settle _ _
    ((waiting.dependents.get? key).getD [])
    { waiting with
      frontier := waiting.frontier.erase key
      dependents := waiting.dependents.erase key
      order := waiting.order ++ [key] }
    (by
      intro child hchild
      exact ⟨_, h.counted child (hmem child hchild), by rw [hlisted]; exact hle child⟩)
  dsimp only at horder hdependents hcounts hfrontier
  have hrest : ∀ need, need ∈ waiting.order ++ [key] ↔ need ∈ waiting.order ∨ need = key := by
    intro need
    simp
  refine ⟨waiting', hrun, ⟨?_, ?_, ?_, ?_, ?_, ?_⟩, horder⟩
  · rw [horder, nodup_append]
    refine ⟨h.nodup, nodup_singleton _, ?_⟩
    rintro a ha b hb rfl
    exact hnew (mem_singleton.mp hb ▸ ha)
  · intro k hk
    rw [horder, hrest] at hk
    rcases hk with hk | rfl
    · exact h.known k hk
    · exact hknown
  · intro k hk
    rw [hcounts, h.counted k hk, hlisted, Option.map_some, horder, countP_released hnew]
  · intro need hneed k
    rw [horder, hrest, not_or] at hneed
    rw [hdependents, SortedMap.get?_erase, if_neg hneed.2]
    exact h.listed need hneed.1 k
  · intro k
    rw [hfrontier, SortedMap.get?_erase, horder]
    by_cases hsame : k = key
    · subst hsame
      have hself : k ∉ (waiting.dependents.get? k).getD [] := by
        rw [← count_eq_zero, hlisted, count_eq_zero]
        exact fun hk => hnew (hneeds k hk)
      simp [hself]
    · rw [if_neg hsame, h.free k, hlisted]
      have hcount : k ∈ (waiting.dependents.get? key).getD [] ↔ key ∈ needsOf rows k := by
        rw [← count_pos_iff, hlisted, count_pos_iff]
      rw [hcount]
      have hin : k ∉ waiting.order ++ [key] ↔ k ∉ waiting.order := by simp [hsame]
      rw [hin]
      constructor
      · rintro (⟨hk, hfresh, hall⟩ | ⟨hneed, hall⟩)
        · exact ⟨hk, hfresh, fun need hn => mem_append_left _ (hall need hn)⟩
        · have hk : k ∈ rows.map Prod.fst := by
            by_contra hunknown
            rw [needsOf_eq_nil hunknown] at hneed
            cases hneed
          rw [h.counted k hk, Option.some.injEq] at hall
          have hzero := @countP_released _ _ (needsOf rows k) _ _ hnew
          rw [hall, Nat.sub_self, eq_comm, countP_eq_zero] at hzero
          refine ⟨hk, fun hreleased => ?_, fun need hn => ?_⟩
          · obtain ⟨before, after, hsplit⟩ := append_of_mem hreleased
            have := h.precedes before k after hsplit key hneed
            exact hnew (hsplit ▸ mem_append_left _ this)
          · have hdone := hzero need hn
            rwa [decide_eq_true_eq, not_not] at hdone
      · rintro ⟨hk, hfresh, hall⟩
        by_cases hneed : key ∈ needsOf rows k
        · refine .inr ⟨hneed, ?_⟩
          have hzero : ((needsOf rows k).countP fun need => need ∉ waiting.order ++ [key]) = 0 := by
            rw [countP_eq_zero]
            intro need hn
            rw [decide_eq_true_eq, not_not]
            exact hall need hn
          rw [← countP_released hnew] at hzero
          have := hle k
          rw [h.counted k hk, Option.some.injEq]
          omega
        · refine .inl ⟨hk, hfresh, fun need hn => ?_⟩
          rcases (hrest need).mp (hall need hn) with hold | rfl
          · exact hold
          · exact absurd hn hneed
  · intro before k after heq need hn
    rw [horder] at heq
    rcases append_eq_append_iff.mp heq with ⟨mid, hb, hs⟩ | ⟨mid, ha, hs⟩
    · -- the key released now
      rcases singleton_eq_append_iff.mp hs with ⟨rfl, htail⟩ | ⟨rfl, htail⟩
      · obtain ⟨rfl, -⟩ := List.cons.inj htail
        rw [hb, append_nil]
        exact hneeds need hn
      · cases htail
    · rcases mid with _ | ⟨first, mid⟩
      · rw [nil_append] at hs
        obtain ⟨rfl, -⟩ := List.cons.inj hs
        rw [append_nil] at ha
        exact ha ▸ hneeds need hn
      · obtain ⟨rfl, hs⟩ := List.cons.inj hs
        exact h.precedes before k mid ha need hn

theorem Sound.drain : ∀ {fuel : ℕ} {waiting : Waiting K},
    Sound rows waiting → rows.length ≤ waiting.order.length + fuel →
    ∃ waiting', waiting.drain fuel = some waiting' ∧ Sound rows waiting' ∧
      waiting'.frontier.entries = [] := by
  intro fuel
  induction fuel with
  | zero =>
    intro waiting h hfuel
    refine ⟨waiting, rfl, h, eq_nil_iff_forall_not_mem.mpr ?_⟩
    rintro ⟨key, u⟩ hentry
    obtain ⟨hknown, hnew, -⟩ := (h.free key).mp (SortedMap.mem_entries_iff.mp hentry)
    have hsub : (key :: waiting.order).Subperm (rows.map Prod.fst) := by
      refine subperm_of_subset (nodup_cons.mpr ⟨hnew, h.nodup⟩) ?_
      rintro k (_ | ⟨_, hk⟩)
      · exact hknown
      · exact h.known k hk
    have hlength := hsub.length_le
    rw [length_cons, length_map] at hlength
    omega
  | succ fuel ih =>
    intro waiting h hfuel
    rcases hentries : waiting.frontier.entries with _ | ⟨⟨key, u⟩, rest⟩
    · refine ⟨waiting, ?_, h, hentries⟩
      rw [Waiting.drain, hentries]
    · have hfree : waiting.frontier.get? key = some () :=
        SortedMap.mem_entries_iff.mp (hentries ▸ mem_cons_self)
      obtain ⟨next, hpop, hnext, horder⟩ := h.pop hfree
      obtain ⟨waiting', hrun, hsound, hempty⟩ := ih hnext (by
        rw [horder, length_append]
        exact hfuel.trans (by simp; omega))
      refine ⟨waiting', ?_, hsound, hempty⟩
      rw [Waiting.drain, hentries]
      exact Option.bind_eq_some_iff.mpr ⟨next, hpop, hrun⟩

end Waiting

def release (rows : List (K × List K)) : Option (List K) :=
  ((Waiting.start rows).drain rows.length).map Waiting.order

end LayerFs
