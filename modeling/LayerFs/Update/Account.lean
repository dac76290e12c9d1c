import LayerFs.Update.Effects

/-!
# The ledger of an operation about to release

* `passes_yields` — **after every pass** the tallies are the effective counts and the values the
  noted ones.
-/

namespace LayerFs

open List

open FilesystemInput

variable {Id Table σ : Type} {inp : FilesystemInput Id} {trees : Trees Id Table}
  {root : RootRecord Id Table} {backed : Bool} {records : TopologyRecords}
  {view : σ → Ledger Id} {route : ReducerRoute Id σ}

theorem foldlM_valued {α : Type} (view : σ → Ledger Id) (stored : ℕ → ℕ)
    {f : σ → α → ContentResult σ} (value : List α → ℕ → Option (InodeValue Id)) {l : List α}
    {start : σ}
    (hinit : ∀ s, ((view start).newest s).value = value [] s)
    (h : ∀ done a rest st, l = done ++ a :: rest →
      Valued stored (view start) (view st) (value done) →
      Yields (fun _ => True)
        (fun st' => Valued stored (view start) (view st') (value (done ++ [a]))) (f st a)) :
    Yields (fun _ => True) (fun st => Valued stored (view start) (view st) (value l))
      (l.foldlM f start) :=
  Yields.foldlM (fun done st => Valued stored (view start) (view st) (value done))
    (Valued.refl.congr hinit) h

/-- The ledger behind the registration pass. -/
structure Registered (inp : FilesystemInput Id) (ledger : Ledger Id) : Prop where
  declared : ∀ s, ledger.declared s = (inp.isNew s && !inp.dropped s)
  typed : ledger.Typed
  tally : ∀ s, ledger.tally inp.storedCount s = inp.storedCount s
  value : ∀ s, (ledger.newest s).value = if inp.dropped s then none else inp.valueFor s

theorem declare_yields (hroute : route.Reduces view) (st : σ) (hst : view st = .empty)
    (l : List ℕ) :
    Yields (fun _ => True) (fun st => (∀ s, (view st).declared s = decide (s ∈ l)) ∧
      ∀ s, (view st).row? s = none) (l.foldlM route.declareNew st) := by
  refine Yields.foldlM (fun done st => (∀ s, (view st).declared s = decide (s ∈ done)) ∧
    ∀ s, (view st).row? s = none) ?_ ?_
  · rw [hst]
    exact ⟨fun s => by simp [Ledger.empty], fun _ => rfl⟩
  · intro done x rest st _ hdone
    refine Yields.weaken (Yields.mono (hroute.declareNew st x) fun st' hst' => ?_) fun _ _ => trivial
    rw [hst']
    refine ⟨fun s => ?_, hdone.2⟩
    by_cases hs : s = x
    · simp [Ledger.declare, hs]
    · simp [Ledger.declare, hs, hdone.1]

theorem find?_filter_serial {s : ℕ} :
    ((inp.inodes.filter fun update => !inp.dropped update.serial).find?
      fun update => update.serial == s).map InodeUpdate.value
      = if inp.dropped s then none else inp.valueFor s := by
  rw [find?_filter, valueFor]
  split_ifs with hdropped
  · rw [Option.map_eq_none_iff, find?_eq_none]
    intro update _ hboth
    simp only [Bool.not_eq_true', decide_eq_true_eq, beq_iff_eq] at hboth
    rw [hboth.2, hdropped] at hboth
    cases hboth.1
  · congr 2
    funext update
    by_cases hs : update.serial = s
    · simp [hs, hdropped]
    · simp [hs]

/-- **Registration** declares the new serials and notes the supplied values. -/
theorem registerValues_yields (hroute : route.Reduces view) (hc : Classified inp backed records)
    (st : σ) (hst : view st = .empty) :
    Yields (fun _ => True) (fun st => Registered inp (view st)) (registerValues route inp st) := by
  rw [registerValues]
  refine (declare_yields hroute st hst _).bind fun st₁ ⟨hdeclared, hnone⟩ => ?_
  have hfresh : ∀ s, (view st₁).newest s = freshRow ((view st₁).declared s) := by
    intro s
    rw [Ledger.newest, hnone]
    rfl
  have hdecl : ∀ s, (view st₁).declared s = (inp.isNew s && !inp.dropped s) := by
    intro s
    rw [hdeclared, Bool.eq_iff_iff]
    simp [isNew]
  refine Yields.mono (foldlM_valued view inp.storedCount
    (fun done s => (done.find? fun update => update.serial == s).map InodeUpdate.value)
    ?_ ?_) fun st₂ h₂ => ?_
  · intro s
    rw [hfresh, freshRow]
    split_ifs <;> rfl
  · intro done update rest st hall hdone
    refine Yields.weaken (Yields.mono (hroute.noteValue st update.serial update.value) ?_)
      fun _ _ => trivial
    intro st' hst'
    rw [hst']
    refine (hdone.note _ _).congr fun s => ?_
    rw [Function.update_apply, find?_append]
    split_ifs with hs
    · -- the serials of supplied values do not repeat
      have hpast : done.find? (fun u => u.serial == s) = none := by
        rw [find?_eq_none]
        intro u hu heq
        have hpair := (hc.shaped.values_ascending.filter fun u => !inp.dropped u.serial)
        rw [hall, pairwise_append] at hpair
        have := hpair.2.2 u hu update mem_cons_self
        rw [beq_iff_eq] at heq
        omega
      rw [hpast, Option.none_or]
      simp [hs]
    · simp [Ne.symm hs]
  · refine ⟨fun s => by rw [h₂.declared, hdecl], fun s => ?_, fun s => ?_, fun s => ?_⟩
    · rw [h₂.isCount, h₂.declared, hfresh, freshRow]
      split_ifs with hd
      · simp [Row.isCount, hd]
      · simpa [Row.isCount] using hd
    · rw [h₂.tally, Ledger.tally, hfresh, freshRow]
      split_ifs with hd
      · rw [hdecl, Bool.and_eq_true] at hd
        simp [Row.tally, storedCount_new (hc.new_absent s hd.1)]
      · simp [Row.tally]
    · rw [h₂.value, find?_filter_serial]

/-! ## Rebuilt and supplied values -/

def notedValue (inp : FilesystemInput Id) (contents : List (ℕ × Id)) (s : ℕ) :
    Option (InodeValue Id) :=
  match contents.lookup s with
  | some content => ((inp.valueFor s).or (inp.stored s)).map ({ · with contentRoot := content })
  | none => if inp.dropped s then none else inp.valueFor s

theorem noteContents_yields (hroute : route.Reduces view) (st : σ) {contents : List (ℕ × Id)}
    (hkeys : (contents.map Prod.fst).Nodup)
    (hbefore : ∀ s, ((view st).newest s).value = if inp.dropped s then none else inp.valueFor s) :
    Yields (fun _ => True)
      (fun st' => Valued inp.storedCount (view st) (view st') (notedValue inp contents))
      (contents.foldlM (noteContents route inp) st) := by
  refine foldlM_valued view inp.storedCount (notedValue inp) hbefore ?_
  rintro done ⟨x, content⟩ rest st₁ hall hdone
  rw [noteContents]
  refine Yields.bind (Yields.orError fun _ => trivial) fun value hvalue => ?_
  refine Yields.weaken (Yields.mono (hroute.noteValue st₁ x _) ?_) fun _ _ => trivial
  intro st₂ hst₂
  rw [hst₂]
  refine (hdone.note _ _).congr fun s => ?_
  have hpast : done.lookup x = none := by
    rw [lookup_eq_none_iff]
    intro hmem
    rw [hall, map_append, map_cons, nodup_append] at hkeys
    exact hkeys.2.2 x hmem x mem_cons_self rfl
  simp only at hvalue
  by_cases hs : s = x
  · subst hs
    simp [notedValue, lookup_append, hpast, hvalue]
  · rw [Function.update_of_ne hs, notedValue, notedValue, lookup_append]
    rcases done.lookup s with _ | c
    · simp [lookup_cons_eq, hs]
    · simp

theorem noteSupplied_yields (hroute : route.Reduces view) (hshaped : inp.Shaped) (st : σ)
    {contents : List (ℕ × Id)}
    (hbefore : ∀ s, ((view st).newest s).value = notedValue inp contents s) :
    Yields (fun _ => True)
      (fun st' => Valued inp.storedCount (view st) (view st') (notedValue inp contents))
      (inp.inodes.foldlM (noteSupplied route inp contents) st) := by
  refine foldlM_valued view inp.storedCount (fun _ => notedValue inp contents) hbefore ?_
  intro done update rest st₁ hall hdone
  rw [noteSupplied]
  split_ifs with hskip
  · exact hdone
  · rw [Bool.or_eq_true, not_or, Bool.not_eq_true, Bool.not_eq_true, Option.isSome_eq_false_iff,
      Option.isNone_iff_eq_none] at hskip
    refine Yields.bind (Yields.ensure fun _ => trivial) fun _ _ => ?_
    refine Yields.weaken (Yields.mono (hroute.noteValue st₁ update.serial update.value) ?_)
      fun _ _ => trivial
    intro st₂ hst₂
    rw [hst₂]
    refine (hdone.note _ _).congr fun s => ?_
    rw [Function.update_apply]
    split_ifs with hs
    · have hvalue : inp.valueFor update.serial = some update.value :=
        (valueFor_eq_some_iff hshaped).mpr (by rw [hall]; simp)
      rw [hs, notedValue, hskip.1, hskip.2, hvalue]
      rfl
    · rfl

/-! ## All passes -/

/-- The ledger of an operation that is about to release. -/
structure Accounted (inp : FilesystemInput Id) (trees : Trees Id Table)
    (contents : List (ℕ × Id)) (ledger : Ledger Id) : Prop where
  declared : ∀ s, ledger.declared s = (inp.isNew s && !inp.dropped s)
  typed : ledger.Typed
  tally : ∀ s, ledger.tally inp.storedCount s = inp.effective.bindingCount s
  value : ∀ s, (ledger.newest s).value = notedValue inp contents s
  rebuilt : Rebuilt inp trees inp.directories contents

def accountPasses (trees : Trees Id Table) (route : ReducerRoute Id σ) (inp : FilesystemInput Id) :
    ContentResult (σ × List (ℕ × Id)) := do
  let st ← route.start
  let st ← registerValues route inp st
  let (st, contents) ← inp.directories.foldlM (directoryStep trees route inp) (st, [])
  let st ← contents.foldlM (noteContents route inp) st
  let st ← inp.inodes.foldlM (noteSupplied route inp contents) st
  .ok (st, contents)

theorem Rebuilt.keys_nodup {contents : List (ℕ × Id)} (h : Rebuilt inp trees inp.directories contents)
    (hshaped : inp.Shaped) : (contents.map Prod.fst).Nodup := by
  rw [h.keys]
  apply List.Pairwise.imp ne_of_lt
  rw [pairwise_map]
  exact hshaped.parents_ascending.filter _

/-- **After every pass** the tallies are the effective counts. -/
theorem accountPasses_yields (hroute : route.Reduces view) (hc : Classified inp backed records)
    (hb : inp.BaseValid) (hbase : inp.base = some (trees.openRoot root)) :
    Yields (fun _ => True) (fun out => Accounted inp trees out.2 (view out.1))
      (accountPasses trees route inp) := by
  rw [accountPasses]
  refine Yields.bind (Yields.weaken hroute.start fun _ _ => trivial) fun st₀ h₀ => ?_
  refine (registerValues_yields hroute hc st₀ h₀).bind fun st₁ h₁ => ?_
  refine (directories_yields hroute hc hb hbase st₁).bind ?_
  rintro ⟨st₂, contents⟩ ⟨h₂, hrebuilt⟩
  refine (noteContents_yields hroute st₂ (hrebuilt.keys_nodup hc.shaped) fun s => ?_).bind
    fun st₃ h₃ => ?_
  · rw [h₂.value, h₁.value]
  refine (noteSupplied_yields hroute hc.shaped st₃ h₃.value).bind fun st₄ h₄ => ?_
  refine ⟨fun s => ?_, fun s => ?_, fun s => ?_, h₄.value, hrebuilt⟩
  · rw [h₄.declared, h₃.declared, h₂.declared, h₁.declared]
  · rw [h₄.isCount, h₃.isCount, h₂.isCount, h₄.declared, h₃.declared, h₂.declared]
    exact h₁.typed s
  · rw [h₄.tally, h₃.tally, h₂.tally, h₁.tally]
    exact effective_count hc hb hbase s

end LayerFs
