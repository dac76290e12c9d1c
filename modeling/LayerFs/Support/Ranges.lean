import Mathlib.Data.Finset.Card

/-!
# Pages of a range

A range is read page by page: a page holds the next records, and a cursor to ask for the rest with
where more remain. What lies behind a page may change before the next is asked for.

* `follow_fixed` — **a range that stays as it is arrives whole, in order**.
* `follow_growing` — **a range that grows arrives in order, each record once**, and with every record
  it had at the first page.
-/

namespace LayerFs.Ranges

open List

variable {count : ℕ}

/-- One page: its records, and the cursor of the next where one remains. -/
structure PageResult (α γ : Type) where
  records : List α
  continuation : Option γ

variable {σ α γ ε : Type}

def follow (page : σ → Option γ → Except ε (PageResult α γ)) :
    List σ → Option γ → Except ε (List (PageResult α γ))
  | [], _ => .ok []
  | turn :: turns, cursor => do
    let result ← page turn cursor
    match result.continuation with
    | none => return [result]
    | some next => do
      let later ← follow page turns (some next)
      return result :: later

def delivered (pages : List (PageResult α γ)) : List α := pages.flatMap PageResult.records

def Ended (pages : List (PageResult α γ)) : Prop :=
  ∃ last ∈ pages.getLast?, last.continuation = none

/-- What one page does to the records ahead of it: some arrive, and where others remain it says with
`resumes` how to go on behind the last. -/
def Cuts (result : PageResult α γ) (ahead : List α) (resumes : γ → List α → List α → Prop) : Prop :=
  ∃ count, 0 < count ∧ result.records = ahead.take count ∧
    (result.continuation = none ∧ ahead.length ≤ count ∨
      ∃ next, result.continuation = some next ∧ count < ahead.length ∧
        resumes next (ahead.take count) (ahead.drop count))

section Follow

variable {page : σ → Option γ → Except ε (PageResult α γ)}

variable {turns : List σ} {cursor : Option γ} {result : PageResult α γ} {turn : σ}
theorem follow_none (hpage : page turn cursor = .ok result) (hnone : result.continuation = none) :
    follow page (turn :: turns) cursor = .ok [result] := by
  rw [follow, hpage]
  show (match result.continuation with
    | none => _
    | some next => _) = _
  rw [hnone]
  rfl

variable {later : List (PageResult α γ)} {next : γ}

theorem follow_some (hpage : page turn cursor = .ok result)
    (hnext : result.continuation = some next) (hlater : follow page turns (some next) = .ok later) :
    follow page (turn :: turns) cursor = .ok (result :: later) := by
  rw [follow, hpage]
  show (match result.continuation with
    | none => _
    | some next => _) = _
  rw [hnext]
  show (follow page turns (some next) >>= _) = _
  rw [hlater]
  rfl

theorem ended_single : Ended [result] ↔ result.continuation = none := by
  simp [Ended]

theorem ended_cons (hnext : result.continuation = some next) :
    Ended (result :: later) ↔ Ended later := by
  rcases later with _ | ⟨second, later⟩
  · simp [Ended, hnext]
  · rw [Ended, getLast?_cons_cons]
    exact Iff.rfl

/-! ## Ranges that stay as they are -/

/-- **A range that stays as it is arrives whole, in order.** -/
theorem follow_fixed {Later : σ → σ → Prop} {Ahead : σ → Option γ → List α → Prop}
    (hlater : ∀ {turn turn' next ahead}, Later turn turn' → Ahead turn (some next) ahead →
      Ahead turn' (some next) ahead)
    (hpage : ∀ {turn cursor ahead}, Ahead turn cursor ahead → ∃ result,
      page turn cursor = .ok result ∧
        Cuts result ahead fun next _ rest => Ahead turn (some next) rest) :
    ∀ {turns : List σ} {turn : σ} {cursor : Option γ} {ahead : List α},
    List.IsChain Later (turn :: turns) → Ahead turn cursor ahead → ∃ pages,
      follow page (turn :: turns) cursor = .ok pages ∧ delivered pages <+: ahead ∧
      (Ended pages → delivered pages = ahead) ∧ (ahead.length ≤ turns.length + 1 → Ended pages) := by
  intro turns
  induction turns with
  | nil =>
    intro turn cursor ahead _ hahead
    obtain ⟨result, hresult, count, hpos, hrecords, ⟨hnone, hall⟩ | ⟨next, hnext, hmore, -⟩⟩ :=
      hpage hahead
    · have hwhole : delivered [result] = ahead := by
        rw [delivered, flatMap_singleton, hrecords, take_of_length_le hall]
      exact ⟨[result], follow_none hresult hnone, hwhole ▸ prefix_refl _, fun _ => hwhole,
        fun _ => ended_single.mpr hnone⟩
    · refine ⟨[result], follow_some hresult hnext rfl, ?_, fun hended => ?_, fun hshort => ?_⟩
      · rw [delivered, flatMap_singleton, hrecords]
        exact take_prefix count ahead
      · rw [ended_single.mp hended] at hnext
        cases hnext
      · rw [length_nil] at hshort
        omega
  | cons turn' turns ih =>
    intro turn cursor ahead hchain hahead
    obtain ⟨hstep, hchain⟩ := isChain_cons_cons.mp hchain
    obtain ⟨result, hresult, count, hpos, hrecords, ⟨hnone, hall⟩ | ⟨next, hnext, hmore, hrest⟩⟩ :=
      hpage hahead
    · have hwhole : delivered [result] = ahead := by
        rw [delivered, flatMap_singleton, hrecords, take_of_length_le hall]
      exact ⟨[result], follow_none hresult hnone, hwhole ▸ prefix_refl _, fun _ => hwhole,
        fun _ => ended_single.mpr hnone⟩
    · obtain ⟨pages, hpages, hfront, hended, hends⟩ := ih hchain (hlater hstep hrest)
      have hdelivered : delivered (result :: pages) = ahead.take count ++ delivered pages := by
        rw [delivered, flatMap_cons, hrecords]
        rfl
      refine ⟨result :: pages, follow_some hresult hnext hpages, ?_, fun hlast => ?_,
        fun hshort => ?_⟩
      · rw [hdelivered]
        nth_rewrite 2 [← take_append_drop count ahead]
        exact prefix_append_right_inj _ |>.mpr hfront
      · rw [hdelivered, hended ((ended_cons hnext).mp hlast), take_append_drop]
      · refine (ended_cons hnext).mpr (hends ?_)
        rw [length_cons] at hshort
        rw [length_drop]
        omega

/-! ## Ranges that grow -/

section Growing

variable {ν κ : Type} [LinearOrder ν]

def above (name : α → ν) (bound : Option ν) (rows : List α) : List α :=
  rows.filter fun row => bound.all fun least => decide (least < name row)

variable {bound : Option ν} {row : α}

theorem mem_above {name : α → ν} {rows : List α} :
    row ∈ above name bound rows ↔ row ∈ rows ∧ ∀ least ∈ bound, least < name row := by
  cases bound with
  | none => simp [above]
  | some least => simp [above]

/-- **What a run over a growing range delivers** above a name. -/
structure Delivers (name : α → ν) (key : α → κ) (rows : σ → List α) (bound : Option ν)
    (turn : σ) (turns : List σ) (pages : List (PageResult α γ)) : Prop where
  sorted : (delivered pages).Pairwise fun a b => name a < name b
  above : ∀ record ∈ delivered pages, ∀ least ∈ bound, least < name record
  /-- every record is one of the range at its turn -/
  known : ∀ record ∈ delivered pages, ∃ state ∈ turn :: turns, record ∈ rows state
  /-- at the end every record the range had arrived -/
  complete : Ended pages → ∀ row ∈ rows turn, (∀ least ∈ bound, least < name row) →
    ∃ record ∈ delivered pages, key record = key row
  /-- until then every page brings a record -/
  grows : ¬Ended pages → turns.length + 1 ≤ (delivered pages).length

variable {page : σ → Option γ → Except ε (PageResult α γ)} {name : α → ν} {key : α → κ}
  {rows : σ → List α}

omit [LinearOrder ν] in
theorem lt_of_cut [LT ν] {ahead : List α} (hsorted : ahead.Pairwise fun a b => name a < name b)
    {last : α} (hlast : (ahead.take count).getLast? = some last) (hrow : row ∈ ahead.drop count) :
    name last < name row := by
  rw [← take_append_drop count ahead, pairwise_append] at hsorted
  exact hsorted.2.2 last (mem_of_getLast? hlast) row hrow

theorem Delivers.single (hsorted : (rows turn).Pairwise fun a b => name a < name b)
    (hnone : result.continuation = none)
    (hrecords : result.records = Ranges.above name bound (rows turn)) :
    Delivers name key rows bound turn turns [result] := by
  have hwhole : delivered [result] = Ranges.above name bound (rows turn) := by
    rw [delivered, flatMap_singleton, hrecords]
  refine ⟨?_, ?_, ?_, ?_, fun h => absurd (ended_single.mpr hnone) h⟩
  · rw [hwhole]
    exact hsorted.filter _
  · intro record hrecord
    rw [hwhole] at hrecord
    exact (mem_above.mp hrecord).2
  · intro record hrecord
    rw [hwhole] at hrecord
    exact ⟨turn, mem_cons_self, (mem_above.mp hrecord).1⟩
  · intro _ row hrow hleast
    rw [hwhole]
    exact ⟨row, mem_above.mpr ⟨hrow, hleast⟩, rfl⟩

theorem page_facts (hsorted : (rows turn).Pairwise fun a b => name a < name b) (hpos : 0 < count)
    (hmore : count < (Ranges.above name bound (rows turn)).length) :
    ((Ranges.above name bound (rows turn)).take count).Pairwise (fun a b => name a < name b) ∧
      (∀ record ∈ (Ranges.above name bound (rows turn)).take count,
        record ∈ rows turn ∧ ∀ least ∈ bound, least < name record) ∧
      1 ≤ ((Ranges.above name bound (rows turn)).take count).length := by
  refine ⟨(hsorted.filter _).take, fun record hrecord => ?_, ?_⟩
  · exact mem_above.mp (mem_of_mem_take hrecord)
  · rw [length_take]
    omega

theorem Delivers.unfinished (hsorted : (rows turn).Pairwise fun a b => name a < name b)
    (hpos : 0 < count) (hmore : count < (Ranges.above name bound (rows turn)).length)
    (hnext : result.continuation = some next)
    (hrecords : result.records = (Ranges.above name bound (rows turn)).take count) :
    Delivers name key rows bound turn [] [result] := by
  obtain ⟨horder, hrecord, hone⟩ := page_facts hsorted hpos hmore
  have hwhole : delivered [result] = (Ranges.above name bound (rows turn)).take count := by
    rw [delivered, flatMap_singleton, hrecords]
  rw [← hwhole] at horder hrecord hone
  refine ⟨horder, fun record h => (hrecord record h).2,
    fun record h => ⟨turn, mem_cons_self, (hrecord record h).1⟩, fun hended => ?_, fun _ => hone⟩
  rw [ended_single.mp hended] at hnext
  cases hnext

theorem Delivers.cons {bound : Option ν} {turn turn' : σ} {turns : List σ}
    {result : PageResult α γ} {pages : List (PageResult α γ)} {next : γ} {count : ℕ} {last : α}
    (hrows : ∀ {row}, row ∈ rows turn → ∃ row' ∈ rows turn', key row' = key row ∧ name row' = name row)
    (hsorted : (rows turn).Pairwise fun a b => name a < name b) (hpos : 0 < count)
    (hmore : count < (Ranges.above name bound (rows turn)).length)
    (hnext : result.continuation = some next)
    (hrecords : result.records = (Ranges.above name bound (rows turn)).take count)
    (hlast : ((Ranges.above name bound (rows turn)).take count).getLast? = some last)
    (h : Delivers name key rows (some (name last)) turn' turns pages) :
    Delivers name key rows bound turn (turn' :: turns) (result :: pages) := by
  obtain ⟨horder, hrecord, hone⟩ := page_facts hsorted hpos hmore
  have hwhole : delivered (result :: pages) =
      (Ranges.above name bound (rows turn)).take count ++ delivered pages := by
    rw [delivered, flatMap_cons, hrecords]
    rfl
  have hbehind : ∀ record ∈ delivered pages, name last < name record :=
    fun record hmem => h.above record hmem (name last) rfl
  have hmost : ∀ record ∈ (Ranges.above name bound (rows turn)).take count,
      name record ≤ name last := by
    obtain ⟨front, hfront⟩ := getLast?_eq_some_iff.mp hlast
    intro record hmem
    rw [hfront] at hmem horder
    rcases mem_append.mp hmem with hmem | hmem
    · exact ((pairwise_append.mp horder).2.2 record hmem last mem_cons_self).le
    · rw [mem_singleton.mp hmem]
  refine ⟨?_, ?_, ?_, fun hended row hrow hleast => ?_, fun hended => ?_⟩
  · rw [hwhole, pairwise_append]
    exact ⟨horder, h.sorted, fun a ha b hb => lt_of_le_of_lt (hmost a ha) (hbehind b hb)⟩
  · intro record hmem least hbound
    rw [hwhole] at hmem
    rcases mem_append.mp hmem with hmem | hmem
    · exact (hrecord record hmem).2 least hbound
    · have hown := (hrecord last (mem_of_getLast? hlast)).2 least hbound
      exact lt_trans hown (hbehind record hmem)
  · intro record hmem
    rw [hwhole] at hmem
    rcases mem_append.mp hmem with hmem | hmem
    · exact ⟨turn, mem_cons_self, (hrecord record hmem).1⟩
    · obtain ⟨state, hstate, hknown⟩ := h.known record hmem
      exact ⟨state, mem_cons_of_mem _ hstate, hknown⟩
  · rw [hwhole]
    have hrow' := mem_above.mpr ⟨hrow, hleast⟩
    rw [← take_append_drop count (Ranges.above name bound (rows turn))] at hrow'
    rcases mem_append.mp hrow' with hnow | hthen
    · exact ⟨row, mem_append_left _ hnow, rfl⟩
    · -- the row is still there at the next turn, behind the last record
      have hlater := lt_of_cut (hsorted.filter _) hlast hthen
      obtain ⟨row', hmem', hkey, hname⟩ := hrows hrow
      obtain ⟨record, hmem, hsame⟩ := h.complete ((ended_cons hnext).mp hended) row' hmem'
        fun least hbound => by
          obtain rfl := Option.some.inj hbound
          rw [hname]
          exact hlater
      exact ⟨record, mem_append_right _ hmem, hsame.trans hkey⟩
  · have hthen := h.grows fun hlater => hended ((ended_cons hnext).mpr hlater)
    rw [hwhole, length_append, length_cons]
    omega

/-- **A range that grows arrives in order, each record once**, and with every record it had at the
first page. -/
theorem follow_growing {Later : σ → σ → Prop} {Denotes : σ → Option γ → Option ν → Prop}
    (hlater : ∀ {turn turn' next bound}, Later turn turn' → Denotes turn (some next) bound →
      Denotes turn' (some next) bound)
    (hrows : ∀ {turn turn' cursor bound row}, Denotes turn cursor bound → Later turn turn' →
      row ∈ rows turn → ∃ row' ∈ rows turn', key row' = key row ∧ name row' = name row)
    (hsorted : ∀ {turn cursor bound}, Denotes turn cursor bound →
      (rows turn).Pairwise fun a b => name a < name b)
    (hpage : ∀ {turn cursor bound}, Denotes turn cursor bound → ∃ result,
      page turn cursor = .ok result ∧
        Cuts result (above name bound (rows turn)) fun next here _ =>
          ∀ last ∈ here.getLast?, Denotes turn (some next) (some (name last))) :
    ∀ {turns : List σ} {turn : σ} {cursor : Option γ} {bound : Option ν},
    List.IsChain Later (turn :: turns) → Denotes turn cursor bound → ∃ pages,
      follow page (turn :: turns) cursor = .ok pages ∧
        Delivers name key rows bound turn turns pages := by
  intro turns
  induction turns with
  | nil =>
    intro turn cursor bound _ hdenotes
    obtain ⟨result, hresult, count, hpos, hrecords, ⟨hnone, hall⟩ | ⟨next, hnext, hmore, -⟩⟩ :=
      hpage hdenotes
    · rw [take_of_length_le hall] at hrecords
      exact ⟨[result], follow_none hresult hnone, .single (hsorted hdenotes) hnone hrecords⟩
    · exact ⟨[result], follow_some hresult hnext rfl,
        .unfinished (hsorted hdenotes) hpos hmore hnext hrecords⟩
  | cons turn' turns ih =>
    intro turn cursor bound hchain hdenotes
    obtain ⟨hstep, hchain⟩ := isChain_cons_cons.mp hchain
    obtain ⟨result, hresult, count, hpos, hrecords, ⟨hnone, hall⟩ | ⟨next, hnext, hmore, hrest⟩⟩ :=
      hpage hdenotes
    · rw [take_of_length_le hall] at hrecords
      exact ⟨[result], follow_none hresult hnone, .single (hsorted hdenotes) hnone hrecords⟩
    · obtain ⟨last, hlast⟩ : ∃ last,
          ((above name bound (rows turn)).take count).getLast? = some last := by
        refine Option.isSome_iff_exists.mp (getLast?_isSome.mpr ?_)
        exact ne_nil_of_length_pos (page_facts (hsorted hdenotes) hpos hmore).2.2
      obtain ⟨pages, hpages, hthen⟩ := ih hchain (hlater hstep (hrest last hlast))
      exact ⟨result :: pages, follow_some hresult hnext hpages,
        .cons (hrows hdenotes hstep) (hsorted hdenotes) hpos hmore hnext hrecords hlast hthen⟩

variable {pages : List (PageResult α γ)} {final : List α}

theorem Delivers.ended (h : Delivers name key rows bound turn turns pages)
    (hfinal : ∀ state ∈ turn :: turns, ∀ row ∈ rows state, ∃ row' ∈ final, name row' = name row)
    (hcount : final.length < turns.length + 1) : Ended pages := by
  by_contra hopen
  have hmany := h.grows hopen
  have hnodup : ((delivered pages).map name).Nodup := by
    rw [List.Nodup, pairwise_map]
    exact h.sorted.imp fun hlt => hlt.ne
  have hsubset : (delivered pages).map name ⊆ final.map name := by
    intro value hvalue
    obtain ⟨record, hrecord, rfl⟩ := mem_map.mp hvalue
    obtain ⟨state, hstate, hknown⟩ := h.known record hrecord
    obtain ⟨row', hrow', hname⟩ := hfinal state hstate record hknown
    exact mem_map.mpr ⟨row', hrow', hname⟩
  have hlength := (subperm_of_subset hnodup hsubset).length_le
  rw [length_map, length_map] at hlength
  omega

theorem Delivers.nodup (h : Delivers name key rows bound turn turns pages)
    (hfinal : ∀ state ∈ turn :: turns, ∀ row ∈ rows state,
      ∃ row' ∈ final, key row' = key row ∧ name row' = name row) (hkeys : (final.map key).Nodup) :
    ((delivered pages).map key).Nodup := by
  rw [List.Nodup, pairwise_map]
  refine h.sorted.imp_of_mem fun {a b} ha hb hlt hsame => ?_
  obtain ⟨state, hstate, hknown⟩ := h.known a ha
  obtain ⟨other, hother, hknown'⟩ := h.known b hb
  obtain ⟨a', ha', hkey, hname⟩ := hfinal state hstate a hknown
  obtain ⟨b', hb', hkey', hname'⟩ := hfinal other hother b hknown'
  have hone : a' = b' :=
    inj_on_of_nodup_map hkeys ha' hb' (hkey.trans (hsame.trans hkey'.symm))
  rw [← hname, ← hname', hone] at hlt
  exact lt_irrefl _ hlt

end Growing

end Follow

end LayerFs.Ranges
