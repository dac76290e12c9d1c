import LayerFs.Validate.InPlace

/-!
# Territories

A stored directory that moved takes the stored directories below it along: those still reached
from it over base bindings without crossing another displaced directory.

* `Holds` — a base binding of a stored directory that was not displaced; `Under` is its
  transitive closure.
-/

namespace LayerFs

open List

open FilesystemInput

variable {Id : Type} {inp : FilesystemInput Id} {backed : Bool} {start records : TopologyRecords}
  {p x y o : ℕ}

def Holds (inp : FilesystemInput Id) (records : TopologyRecords) (p x : ℕ) : Prop :=
  inp.BaseEdge p x ∧ inp.inside records x = true

/-- `x` lies below `o` over base bindings of directories that were not displaced. -/
def Under (inp : FilesystemInput Id) (records : TopologyRecords) : ℕ → ℕ → Prop :=
  Relation.TransGen (Holds inp records)

def Moved (records : TopologyRecords) (o : ℕ) : Prop :=
  ∃ placement, records.placed.get? o = some placement ∧ placement.stored = true ∧
    placement.inPlace = false

theorem inside_iff (hb : inp.BaseValid) : inp.inside records x = true ↔
    x ∈ inp.storedDirectories ∧ records.displaced x = false := by
  rw [inside, mem_storedDirectories hb, Bool.and_eq_true, Bool.not_eq_true']
  rcases inp.stored x with _ | value <;> simp

theorem Moved.displaced (h : Moved records o) : records.displaced o = true := by
  obtain ⟨placement, hplaced, -, hflag⟩ := h
  exact Settled.displaced_iff.mpr ⟨placement, hplaced, hflag⟩

theorem Under.inside (h : Under inp records o x) : inp.inside records x = true := by
  cases h with
  | single h => exact h.2
  | tail _ h => exact h.2

theorem not_under_of_displaced (hb : inp.BaseValid) (hx : records.displaced x = true) :
    ¬ Under inp records o x := by
  intro h
  have := ((inside_iff hb).mp h.inside).2
  rw [hx] at this
  cases this

/-- **The owner of a territory is unique**: the base has one way up, and it meets one displaced
directory first. -/
theorem under_unique (hb : inp.BaseValid) {o' : ℕ} (ho : records.displaced o = true)
    (ho' : records.displaced o' = true) (h : Under inp records o x)
    (h' : Under inp records o' x) : o = o' := by
  induction h with
  | single hstep =>
    cases h' with
    | single hstep' => exact hstep.1.unique hb ((inside_iff hb).mp hstep.2).1 hstep'.1
    | tail hunder hstep' =>
      rw [← hstep.1.unique hb ((inside_iff hb).mp hstep.2).1 hstep'.1] at hunder
      exact absurd hunder (not_under_of_displaced hb ho)
  | tail hunder hstep ih =>
    cases h' with
    | single hstep' =>
      rw [hstep.1.unique hb ((inside_iff hb).mp hstep.2).1 hstep'.1] at hunder
      exact absurd hunder (not_under_of_displaced hb ho')
    | tail hunder' hstep' =>
      rw [← hstep.1.unique hb ((inside_iff hb).mp hstep.2).1 hstep'.1] at hunder'
      exact ih hunder'

theorem Classified.not_baseEdge_root (hc : Classified inp backed start) (hb : inp.BaseValid) :
    ¬ inp.BaseEdge p inp.rootSerial := by
  rintro ⟨base, hbase, hedge⟩
  rw [← hc.base_root base hbase] at hedge
  have := Namespace.edge_iff_bound.mp ⟨p, hedge⟩
  have := (hb base hbase).root_unbound
  omega

theorem Classified.not_edge_root (hc : Classified inp backed start) (hb : inp.BaseValid) :
    ¬ inp.effective.Edge p inp.rootSerial := by
  intro hedge
  rcases hc.edge_cases hb (hc.root_directory hb) hedge with ⟨name, hstates, -⟩ | hedge
  · exact (hc.bindings hstates).1 rfl
  · exact hc.not_baseEdge_root hb hedge

section Listing

variable (hc : Classified inp backed start) (hb : inp.BaseValid) (hs : Settled inp records)
  (hone : inp.SingleBound)

include hc hb hs hone

theorem mem_inside_children (hp : p ∈ inp.storedDirectories) :
    x ∈ (inp.effective.children p).filter (inp.inside records) ↔ Holds inp records p x := by
  rw [mem_filter, Holds]
  refine and_congr_left fun hin => ?_
  obtain ⟨hx, hkept⟩ := (inside_iff hb).mp hin
  have hdir := storedDirectories_effective hb hc.shaped hp
  have hroot : inp.effective.Edge p x ∨ inp.BaseEdge p x → x ≠ inp.rootSerial := by
    rintro (hedge | hedge) rfl
    · exact hc.not_edge_root hb hedge
    · exact hc.not_baseEdge_root hb hedge
  refine ⟨fun hmem => ?_, fun hbase => ?_⟩
  · exact (hs.edge_iff hc hb hone hx (hroot (.inl ⟨hdir, hmem⟩)) hkept).mp ⟨hdir, hmem⟩
  · exact ((hs.edge_iff hc hb hone hx (hroot (.inr hbase)) hkept).mpr hbase).2

omit hs in
theorem inside_children_nodup (hp : p ∈ inp.storedDirectories) :
    ((inp.effective.children p).filter (inp.inside records)).Nodup := by
  rw [nodup_iff_count_le_one]
  intro x
  by_cases hin : inp.inside records x = true
  · have hdir : ∀ {d}, d ∈ inp.storedDirectories → d ∈ inp.effective.directories :=
      storedDirectories_effective hb hc.shaped
    have hsub : [p] ⊆ inp.effective.directories := by simpa using hdir hp
    have hle := inp.effective.count_boundBy_le (by simp) hsub x
    rw [Namespace.boundBy_cons, Namespace.boundBy_nil, append_nil] at hle
    rw [count_filter hin]
    exact hle.trans (hone.new_once x (hdir ((inside_iff hb).mp hin).1))
  · rw [count_eq_zero_of_not_mem fun hmem => hin (mem_filter.mp hmem).2]
    omega

end Listing

/-! ## The queue walk -/

def marked (inp : FilesystemInput Id) (owner directory : ℕ) : Prop :=
  directory ≠ owner ∧ (inp.directoryFor directory).isSome

instance (owner directory : ℕ) : Decidable (marked inp owner directory) := by
  unfold marked
  infer_instance

theorem push_yields {pages : List ℕ} (hkept : Kept inp backed records)
    (hnodup : (records.queue ++ pages).Nodup)
    (hdir : records.queue ++ pages ⊆ inp.effective.directories) :
    Yields (Refused inp backed) (· = { records with queue := records.queue ++ pages })
      (records.push pages) := by
  rw [TopologyRecords.push]
  split_ifs with hempty
  · rw [List.isEmpty_iff.mp hempty, append_nil]
    exact rfl
  · exact Yields.bind (TopologyRecords.held_yields hkept hnodup hdir) fun _ _ => rfl

theorem listTerritory_yields (hkept : Kept inp backed records)
    (hfresh : marked inp o x → records.territory.get? x = none)
    (hmarks : ∀ d, (records.territory.get? d).isSome ∨ d = x → d ∈ inp.effective.directories)
    (hnodup : (records.queue ++ (inp.effective.children x).filter (inp.inside records)).Nodup)
    (hdir : records.queue ++ (inp.effective.children x).filter (inp.inside records)
      ⊆ inp.effective.directories) :
    Yields (Refused inp backed)
      (· = { records with
        territory := if marked inp o x then records.territory.insert x o else records.territory
        queue := records.queue ++ (inp.effective.children x).filter (inp.inside records) })
      (inp.listTerritory o x records) := by
  rw [listTerritory]
  refine Yields.bind (P := (· = { records with
    territory := if marked inp o x then records.territory.insert x o else records.territory }))
    ?_ fun listed hlisted => ?_
  · rw [markListed]
    by_cases hmark : marked inp o x
    · rw [if_pos hmark, if_pos (show x ≠ o ∧ _ from hmark), TopologyRecords.markTerritory]
      refine Yields.bind (TopologyRecords.guarded_yields ?_) fun _ _ => ?_
      · simp [hfresh hmark]
      · refine Yields.bind (TopologyRecords.held_keys hkept fun d hd => hmarks d ?_) fun _ _ => rfl
        rw [SortedMap.get?_insert] at hd
        split_ifs at hd with heq
        · exact .inr heq
        · exact .inl hd
    · rw [if_neg hmark, if_neg (show ¬ (x ≠ o ∧ _ = true) from hmark)]
      exact rfl
  · have hflat : (windows recordWindow [] (inp.effective.children x)).flatten
        = inp.effective.children x := flatten_windows
    subst hlisted
    refine Yields.mono (Yields.foldlM (fun done r => r = { records with
        territory := if marked inp o x then records.territory.insert x o else records.territory
        queue := records.queue ++ done.flatten.filter (inp.inside records) }) ?_ ?_) ?_
    · simp
    · rintro done page rest r hpages rfl
      -- what the queue holds so far is the front of what it will hold
      have hfront : records.queue ++ done.flatten.filter (inp.inside records)
            ++ page.filter (inp.inside records)
          <+: records.queue ++ (inp.effective.children x).filter (inp.inside records) := by
        have hall : done.flatten ++ (page ++ rest.flatten) = inp.effective.children x := by
          rw [← hflat, ← flatten_cons, ← flatten_append]
          exact congrArg flatten hpages.symm
        rw [← hall, filter_append, filter_append, append_assoc]
        exact (prefix_append_right_inj _).mpr
          ((prefix_append_right_inj _).mpr (prefix_append _ _))
      have hpushed := @push_yields _ _ _ { records with
        territory := if marked inp o x then records.territory.insert x o else records.territory
        queue := records.queue ++ done.flatten.filter (inp.inside records) } _ hkept
        (hfront.sublist.nodup hnodup) fun d hd => hdir (hfront.subset hd)
      refine hpushed.mono fun r hr => ?_
      rw [hr]
      simp only [flatten_append, flatten_singleton, filter_append, append_assoc]
    · intro r hr
      rw [hr, ← hflat]
      rfl

section Walk

variable (hc : Classified inp backed start) (hb : inp.BaseValid) (hs : Settled inp records)
  (hone : inp.SingleBound)

theorem Moved.stored (hc : Classified inp backed start) (hb : inp.BaseValid)
    (hs : Settled inp records) (ho : Moved records o) : o ∈ inp.storedDirectories := by
  obtain ⟨placement, hplaced, hstored, -⟩ := ho
  exact (hs.stored_iff hc hb hplaced).mp hstored

include hc hb hs hone

/-- **One territory**: whatever marks `T` other owners left, the walk from a moved directory adds
exactly the headers under it. -/
theorem territory_yields (hkept : Kept inp backed records) (ho : Moved records o)
    {T : ℕ → ℕ → Prop} (hbefore : ∀ x q, T x q → ¬ Under inp records o x)
    (hold : ∀ x q, T x q → x ∈ inp.storedDirectories) :
    ∀ (fuel : ℕ) (visited queue : List ℕ) (marks : SortedMap ℕ ℕ),
      Frontier (Holds inp records) [o] visited queue →
      inp.storedDirectories.length < fuel + visited.length →
      (∀ x q, marks.get? x = some q ↔ T x q ∨ q = o ∧ x ∈ visited ∧ marked inp o x) →
      Yields (Refused inp backed) (fun r => ∃ marks, r = { records with
          territory := marks, queue := [] } ∧ ∀ x q, marks.get? x = some q ↔
            T x q ∨ q = o ∧ Under inp records o x ∧ (inp.directoryFor x).isSome)
        (inp.territory o fuel { records with territory := marks, queue := queue }) := by
  -- everything the walk lists is a stored directory: the owner, or one it holds
  have hstored : ∀ x, Relation.ReflTransGen (Holds inp records) o x →
      x ∈ inp.storedDirectories := by
    intro x hx
    rcases Relation.ReflTransGen.cases_tail hx with rfl | ⟨y, -, hy⟩
    · exact ho.stored hc hb hs
    · exact ((inside_iff hb).mp hy.2).1
  have hunder : ∀ x, marked inp o x → Relation.ReflTransGen (Holds inp records) o x →
      Under inp records o x := fun x hx h => by
    rcases Relation.reflTransGen_iff_eq_or_transGen.mp h with rfl | h
    · exact absurd rfl hx.1
    · exact h
  intro fuel
  induction fuel with
  | zero =>
    intro visited queue marks hf hfuel _
    have hle := length_le_of_nodup_subset (nodup_append.mp hf.nodup).1
      (b := inp.storedDirectories) fun x hx => by
        obtain ⟨s, hs, hx⟩ := hf.below x (mem_append_left _ hx)
        exact hstored x (mem_singleton.mp hs ▸ hx)
    omega
  | succ fuel ih =>
    intro visited queue marks hf hfuel hmarks
    rw [territory]
    rcases queue with _ | ⟨d, queue⟩
    · refine ⟨marks, rfl, fun x q => ?_⟩
      rw [hmarks]
      refine or_congr_right (and_congr_right fun _ => ⟨fun ⟨hx, hmark⟩ => ?_, fun ⟨hx, hh⟩ => ?_⟩)
      · obtain ⟨s, hs, hx⟩ := hf.below x (mem_append_left _ hx)
        exact ⟨hunder x hmark (mem_singleton.mp hs ▸ hx), hmark.2⟩
      · refine ⟨hf.visits (by simp) hx.to_reflTransGen, ?_, hh⟩
        rintro rfl
        exact not_under_of_displaced hb ho.displaced hx
    · obtain ⟨s, hstart, hd⟩ := hf.below d (by simp)
      rw [mem_singleton.mp hstart] at hd
      have hdstored := hstored d hd
      have hdnew : d ∉ visited := fun hin =>
        (nodup_append.mp hf.nodup).2.2 d hin d (by simp) rfl
      have hchildren := fun x => mem_inside_children (x := x) hc hb hs hone hdstored
      have hpopped := hf.pop (inside_children_nodup hc hb hone hdstored) hchildren
        (fun e x hx he => hx.1.unique hb ((inside_iff hb).mp hx.2).1 he.1) fun x hx hheld => by
          rw [mem_singleton.mp hx] at hheld
          have := ((inside_iff hb).mp hheld.2).2
          rw [ho.displaced] at this
          cases this
      refine Yields.bind (listTerritory_yields hkept (fun hmark => ?_) (fun y hy => ?_)
        (nodup_append.mp hpopped.nodup).2.1 fun y hy => ?_) fun r hr => ?_
      · rcases hget : marks.get? d with _ | q
        · rfl
        · rcases (hmarks d q).mp hget with hq | ⟨-, hin, -⟩
          · exact absurd (hunder d hmark hd) (hbefore d q hq)
          · exact absurd hin hdnew
      · refine storedDirectories_effective hb hc.shaped ?_
        rcases hy with hy | rfl
        · obtain ⟨q, hq⟩ := Option.isSome_iff_exists.mp hy
          rcases (hmarks y q).mp hq with hq | ⟨-, hin, -⟩
          · exact hold y q hq
          · obtain ⟨s, hs, hy⟩ := hf.below y (mem_append_left _ hin)
            exact hstored y (mem_singleton.mp hs ▸ hy)
        · exact hdstored
      · obtain ⟨s, hs, hy⟩ := hpopped.below y (mem_append_right _ hy)
        exact storedDirectories_effective hb hc.shaped (hstored y (mem_singleton.mp hs ▸ hy))
      · subst hr
        refine ih (visited ++ [d]) _ _ hpopped ?_ ?_
        · rw [length_append, length_singleton]
          omega
        · intro x q
          by_cases hmark : marked inp o d
          · rw [if_pos hmark, SortedMap.get?_insert]
            split_ifs with hxd
            · subst hxd
              simp only [Option.some.injEq, mem_append, mem_singleton, or_true, hmark,
                and_true]
              refine ⟨fun h => .inr h.symm, ?_⟩
              rintro (hq | rfl)
              · exact absurd (hunder x hmark hd) (hbefore x q hq)
              · rfl
            · rw [hmarks]
              simp [hxd]
          · rw [if_neg hmark, hmarks]
            refine or_congr_right (and_congr_right fun _ => ⟨fun ⟨hx, hm⟩ => ⟨by simp [hx], hm⟩, ?_⟩)
            rintro ⟨hx, hm⟩
            rcases mem_append.mp hx with hx | hx
            · exact ⟨hx, hm⟩
            · exact absurd (mem_singleton.mp hx ▸ hm) hmark

/-- **Territories**: the walks mark exactly the headers under moved directories, each with the
directory it lies under. -/
theorem markTerritories_yields (hkept : Kept inp backed records) (hqueue : records.queue = [])
    (hempty : records.territory = .empty) :
    Yields (Refused inp backed) (fun r => ∃ marks, r = { records with territory := marks } ∧
        ∀ x q, marks.get? x = some q ↔
          Moved records q ∧ Under inp records q x ∧ (inp.directoryFor x).isSome)
      (inp.markTerritories records) := by
  refine Yields.mono (Yields.foldlM (fun done r => ∃ marks, r = { records with
      territory := marks } ∧ ∀ x q, marks.get? x = some q ↔
        q ∈ done.map Prod.fst ∧ Moved records q ∧ Under inp records q x ∧
          (inp.directoryFor x).isSome) ?_ ?_) ?_
  · refine ⟨.empty, ?_, by simp⟩
    rw [← hempty]
  · rintro done ⟨o, placement⟩ rest r hentries ⟨marks, rfl, hmarks⟩
    have hplaced : records.placed.get? o = some placement :=
      SortedMap.mem_entries_iff.mp (by simp [hentries])
    have hnew : o ∉ done.map Prod.fst := by
      have := records.placed.sorted.keys_nodup
      rw [hentries, map_append, nodup_append] at this
      exact fun hin => this.2.2 o hin o (by simp) rfl
    rw [markTerritory]
    split_ifs with hmoved
    · simp only [Bool.and_eq_true, Bool.not_eq_true'] at hmoved
      have ho : Moved records o := ⟨placement, hplaced, hmoved⟩
      obtain ⟨value, hvalue, -⟩ := (mem_storedDirectories hb).mp (ho.stored hc hb hs)
      refine Yields.bind (P := fun _ => True)
        (Yields.mono (Yields.orError (by simp [hvalue])) fun _ _ => trivial) fun _ _ => ?_
      refine Yields.bind (@push_yields _ _ _ { records with territory := marks } _ hkept ?_ ?_)
        fun r hr => ?_
      · rw [hqueue]
        exact nodup_singleton o
      · rw [hqueue]
        exact cons_subset.mpr ⟨storedDirectories_effective hb hc.shaped (ho.stored hc hb hs),
          nil_subset _⟩
      subst hr
      rw [hqueue, nil_append]
      refine Yields.mono (territory_yields hc hb hs hone hkept ho (T := fun x q =>
        q ∈ done.map Prod.fst ∧ Moved records q ∧ Under inp records q x ∧
          (inp.directoryFor x).isSome) ?_
        (fun x q h => ((inside_iff hb).mp h.2.2.1.inside).1) _ [] [o] marks
        (Frontier.init (by simp)) (by simp) ?_) ?_
      · rintro x q ⟨hq, hqmoved, hqx, -⟩ hox
        exact hnew (under_unique hb ho.displaced hqmoved.displaced hox hqx ▸ hq)
      · simpa using hmarks
      · rintro r ⟨marks', rfl, hmarks'⟩
        refine ⟨marks', by rw [← hqueue], fun x q => ?_⟩
        rw [hmarks', map_append, mem_append]
        refine ⟨?_, ?_⟩
        · rintro (⟨hq, hrest⟩ | ⟨rfl, hrest⟩)
          · exact ⟨.inl hq, hrest⟩
          · exact ⟨.inr (by simp), ho, hrest⟩
        · rintro ⟨hq | hq, hrest⟩
          · exact .inl ⟨hq, hrest⟩
          · obtain rfl : q = o := by simpa using hq
            exact .inr ⟨rfl, hrest.2⟩
    · refine ⟨marks, rfl, fun x q => ?_⟩
      rw [hmarks, map_append, mem_append]
      refine and_congr_left fun ⟨hq, _⟩ => ⟨.inl, ?_⟩
      rintro (hin | hin)
      · exact hin
      · obtain rfl : q = o := by simpa using hin
        obtain ⟨placement', hplaced', hstored, hflag⟩ := hq
        cases hplaced.symm.trans hplaced'
        simp [hstored, hflag] at hmoved
  · rintro r ⟨marks, hr, hmarks⟩
    refine ⟨marks, hr, fun x q => ?_⟩
    rw [hmarks, and_iff_right_of_imp]
    rintro ⟨⟨placement, hplaced, -⟩, -⟩
    exact mem_map.mpr ⟨_, SortedMap.mem_entries_iff.mpr hplaced, rfl⟩

end Walk

end LayerFs
