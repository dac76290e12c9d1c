import LayerFs.History.Chain
import LayerFs.History.Tables
import Mathlib.Data.List.Sort
import Mathlib.Data.String.Basic

/-!
# Paged ranges

The four ranges of a catalog that are read page by page
(`layerfs-persistence/src/history/{layerstack,branch,commit}.rs`): stacks and the Branches of one in
name order, the ancestry of a Commit and of a Layer.

* `pages_exact` — **every range arrives in order, each record once and none left out**, whatever
  happens between the pages, and a cursor is accepted only where it was issued.
-/

namespace LayerFs.History

open List hiding Cursor

open Query Ranges Parents

variable {row : BranchRecord Bytes} {branch owner stack : Bytes}
  {anchor cursor start : Option Bytes} {limit : ℕ}

/-! ## Requests -/

/-- What a serving catalog binds its cursors to. -/
structure Provider where
  catalogId : Bytes
  incarnation : ℕ
  cursorKey : Bytes
  catalogId_width : catalogId.length = 32
  incarnation_lt : incarnation < 256 ^ 8

def Provider.context (p : Provider) (range : Range) (subject : Bytes) : Context :=
  ⟨p.cursorKey, p.catalogId, p.incarnation, range, subject, p.catalogId_width, p.incarnation_lt⟩

/-- `Page`. -/
structure Page where
  limit : ℕ
  cursor : Option Bytes

/-- `Page::check`. -/
def Page.check (page : Page) : HistoryResult Bytes Unit := do
  require (decide (page.limit ≠ 0 ∧ page.limit ≤ maximumPageRecords)) (.invalidInput "page limit")
  require (page.cursor.all fun cursor => decide (cursor.length ≤ cursorBytes))
    (.invalidInput "page cursor")

/-- `CommitHistoryRequest`. -/
structure CommitHistoryRequest where
  branch : Bytes
  start : Option Bytes
  page : Page

/-- `LayerHistoryRequest`. -/
structure LayerHistoryRequest where
  stack : Bytes
  start : Option Bytes
  page : Page

/-- `from_slice` of a tagged identity. -/
def fromSlice (kind : String) (width tag : ℕ) (bytes : Bytes) : HistoryResult Bytes Bytes := do
  require (decide (bytes.length = width)) (.integrity (kind ++ " width"))
  require (decide (bytes.head? = some tag)) (.integrity (kind ++ " tag"))
  return bytes

/-! ## Name ranges -/

section Names

variable {α : Type} (keyed : Bytes → Bytes → Bytes)

def byName (name : α → String) (rows : List α) : List α :=
  rows.insertionSort fun a b => name a ≤ name b

/-- The name a cursor resumes after; `last` reads the record it names. -/
def nameAfter (context : Context) (last : Bytes → HistoryResult Bytes α) (name : α → String) :
    Option Bytes → HistoryResult Bytes (Option String)
  | none => return none
  | some bytes => do
    let cursor ← decode keyed context bytes
    require cursor.anchor.isEmpty (.invalidInput "page cursor anchor")
    let record ← last cursor.position
    return some (name record)

def namePage (context : Context) (room : ℕ) (cursor : Option Bytes)
    (last : Bytes → HistoryResult Bytes α) (name : α → String) (id : α → Bytes) (rows : List α) :
    HistoryResult Bytes (PageResult α Bytes) := do
  let after ← nameAfter keyed context last name cursor
  let records := (Ranges.above name after (byName name rows)).take (room + 1)
  page records room (decide (room < records.length)) fun record => do
    let bytes ← encode keyed context ⟨[], id record⟩
    return some bytes

/-! ## Ancestries -/

/-- The loop of an ancestry: records up to a count, each the parent of the one before. -/
def walkParents (look : Bytes → Option α) (parent : α → Option Bytes) (stack : α → Bytes)
    (owner : Bytes) (missing foreign : HistoryError Bytes) :
    ℕ → Option Bytes → HistoryResult Bytes (List α)
  | 0, _ => return []
  | _ + 1, none => return []
  | count + 1, some id => do
    let record ← found (look id) missing
    require (decide (stack record = owner)) foreign
    let rest ← walkParents look parent stack owner missing foreign count (parent record)
    return record :: rest

/-- One page of an ancestry from a record on, with the anchor its cursors name. -/
def ancestryPage (context : Context) (room : ℕ) (look : Bytes → Option α)
    (parent : α → Option Bytes) (stack id : α → Bytes) (owner : Bytes)
    (missing foreign : HistoryError Bytes) (start : Bytes) (current : Option Bytes) :
    HistoryResult Bytes (PageResult α Bytes) := do
  let records ← walkParents look parent stack owner missing foreign (room + 1) current
  page records room (decide (room < records.length)) fun record => do
    let bytes ← encode keyed context ⟨start, id record⟩
    return some bytes

end Names

namespace Catalog

variable {ρ : Type} (keyed : Bytes → Bytes → Bytes) (s : Catalog Bytes ρ) (p : Provider)

/-- `layer_stacks`. -/
def layerStackPage (page : Page) :
    HistoryResult Bytes (PageResult (LayerStackRecord Bytes) Bytes) := do
  page.check
  let room ← capacity page.limit 179
  namePage keyed (p.context .stackNames []) room page.cursor
    (fun position => do
      let id ← fromSlice "LayerStackId" 17 stackTag position
      found (s.layerStack id) (.integrity "page cursor position"))
    LayerStackRecord.name LayerStackRecord.id s.layerStacks

/-- `branches`. -/
def branchPage (stack : Bytes) (page : Page) :
    HistoryResult Bytes (PageResult (BranchRecord Bytes) Bytes) := do
  page.check
  require (s.layerStack stack).isSome (.missing .layerStack)
  let room ← capacity page.limit 200
  namePage keyed (p.context .branchNames stack) room page.cursor
    (fun position => do
      let id ← fromSlice "BranchId" 17 branchTag position
      let record ← found (s.branch id) (.integrity "page cursor position")
      require (decide (record.stack = stack)) (.integrity "page cursor ownership")
      return record)
    BranchRecord.name BranchRecord.id (s.branches.filter fun row => row.stack = stack)

/-- Where `commit_history` starts, and the first record of this page. -/
def commitStart (branch : BranchRecord Bytes) (context : Context) (request : CommitHistoryRequest) :
    HistoryResult Bytes (Option Bytes × Option Bytes) :=
  match request.page.cursor with
  | some bytes => do
    let cursor ← decode keyed context bytes
    let anchor ← fromSlice "CommitId" 33 commitTag cursor.anchor
    require (request.start.all fun start => decide (start = anchor))
      (.invalidInput "page cursor anchor")
    let position ← fromSlice "CommitId" 33 commitTag cursor.position
    let anchorRecord ← found (s.commit anchor) (.integrity "Commit anchor")
    let last ← found (s.commit position) (.integrity "Commit chain")
    require (decide (anchorRecord.stack = branch.stack ∧ last.stack = branch.stack))
      (.integrity "page cursor ancestry")
    return (some anchor, last.parent)
  | none => do
    let start ← s.historyStart branch request.start
    return (start, start)

/-- `commit_history`. -/
def commitHistory (request : CommitHistoryRequest) :
    HistoryResult Bytes (PageResult (CommitRecord Bytes ρ) Bytes) := do
  let branch ← found (s.branch request.branch) (.missing .branch)
  let room ← capacity request.page.limit 4510
  let context := p.context .commitAncestry request.branch
  let (start, current) ← s.commitStart keyed branch context request
  match start with
  | none => return ⟨[], none⟩
  | some start =>
    ancestryPage keyed context room s.commit CommitRecord.parent CommitRecord.stack CommitRecord.id
      branch.stack (.integrity "Commit chain") (.integrity "Commit ownership") start current

/-- Where `layer_history` starts, and the first record of this page. -/
def layerStart (stack : LayerStackRecord Bytes) (context : Context) (request : LayerHistoryRequest) :
    HistoryResult Bytes (Bytes × Option Bytes) :=
  match request.page.cursor with
  | some bytes => do
    let cursor ← decode keyed context bytes
    let anchor ← fromSlice "LayerId" 33 layerTag cursor.anchor
    require (request.start.all fun start => decide (start = anchor))
      (.invalidInput "page cursor anchor")
    let position ← fromSlice "LayerId" 33 layerTag cursor.position
    let last ← found (s.layer position) (.integrity "Layer chain")
    require (decide (last.stack = request.stack)) (.integrity "Layer ownership")
    return (anchor, last.parent)
  | none => return (request.start.getD stack.headLayer, some (request.start.getD stack.headLayer))

/-- `layer_history`. -/
def layerHistory (request : LayerHistoryRequest) :
    HistoryResult Bytes (PageResult (LayerRecord Bytes) Bytes) := do
  let stack ← found (s.layerStack request.stack) (.missing .layerStack)
  let room ← capacity request.page.limit 176
  let context := p.context .layerChain request.stack
  let (start, current) ← s.layerStart keyed stack context request
  let first ← found (s.layer start) (.missing .layer)
  require (decide (first.stack = request.stack)) (.integrity "Layer ownership")
  ancestryPage keyed context room s.layer LayerRecord.parent LayerRecord.stack LayerRecord.id
    request.stack (.integrity "Layer chain") (.integrity "Layer ownership") start current

end Catalog

/-! ## One page -/

theorem fromSlice_eq_ok {kind : String} {width tag : ℕ} {bytes : Bytes}
    (hwidth : bytes.length = width) (htag : bytes.head? = some tag) :
    fromSlice kind width tag bytes = .ok bytes :=
  history_bind_eq_ok.mpr ⟨(), require_eq_ok.mpr (decide_eq_true hwidth),
    history_bind_eq_ok.mpr ⟨(), require_eq_ok.mpr (decide_eq_true htag), rfl⟩⟩

section Page

variable {α : Type} {name : α → String} {rows : List α}

theorem mem_byName {row : α} : row ∈ byName name rows ↔ row ∈ rows := mem_insertionSort _

theorem byName_sorted (hnodup : (rows.map name).Nodup) :
    (byName name rows).Pairwise fun a b => name a < name b := by
  have htotal : Std.Total fun a b : α => name a ≤ name b := ⟨fun a b => le_total _ _⟩
  have htrans : IsTrans α fun a b : α => name a ≤ name b := ⟨fun a b c => le_trans⟩
  have hle : (byName name rows).Pairwise fun a b => name a ≤ name b :=
    pairwise_insertionSort _ rows
  have hperm : ((byName name rows).map name).Perm (rows.map name) :=
    (perm_insertionSort _ rows).map name
  have hne := pairwise_map.mp (hperm.nodup_iff.mpr hnodup)
  exact (hle.and hne).imp fun h => lt_of_le_of_ne h.1 h.2

variable {keyed : Bytes → Bytes → Bytes} {context : Context} {room : ℕ}

/-- **One page in name order.** -/
theorem namePage_cuts {id : α → Bytes} {last : Bytes → HistoryResult Bytes α}
    {after : Option String} (hroom : 0 < room)
    (hafter : nameAfter keyed context last name cursor = .ok after)
    (hsubject : context.subject.length ≤ fieldBytes)
    (hids : ∀ row ∈ rows, (id row).length ≤ fieldBytes) :
    ∃ result, namePage keyed context room cursor last name id rows = .ok result ∧
      Ranges.Cuts result (Ranges.above name after (byName name rows)) fun next here _ =>
        ∀ record ∈ here.getLast?, record ∈ rows ∧ encode keyed context ⟨[], id record⟩ = .ok next := by
  have hcut := @page_cuts α (Ranges.above name after (byName name rows)) room (fun record => do
    let bytes ← encode keyed context ⟨[], id record⟩
    return some bytes) (fun next here _ => ∀ record ∈ here.getLast?, record ∈ rows ∧
      encode keyed context ⟨[], id record⟩ = .ok next) hroom ?_
  · obtain ⟨result, hresult, hcuts⟩ := hcut
    exact ⟨result, history_bind_eq_ok.mpr ⟨after, hafter, hresult⟩, hcuts⟩
  · intro record hrecord _
    have hmem : record ∈ rows :=
      mem_byName.mp (mem_above.mp (mem_of_mem_take (mem_of_getLast? hrecord))).1
    obtain ⟨bytes, hencode⟩ := @exists_encode keyed context ⟨[], id record⟩
      ⟨hsubject, Nat.zero_le _, hids record hmem⟩
    refine ⟨_, history_bind_eq_ok.mpr ⟨_, hencode, rfl⟩, fun other hother => ?_⟩
    obtain rfl := Option.some.inj (hrecord.symm.trans hother)
    exact ⟨hmem, hencode⟩

theorem walkParents_chain {look : Bytes → Option α} {parent : α → Option Bytes} {stack : α → Bytes}
    {missing foreign : HistoryError Bytes} {chain : List α}
    (h : ParentChain look parent start chain) :
    (∀ record ∈ chain, stack record = owner) → ∀ count,
      walkParents look parent stack owner missing foreign count start = .ok (chain.take count) := by
  induction h with
  | nil =>
    rintro - (_ | count)
    · rfl
    · rfl
  | @cons id record chain hrecord _ ih =>
    rintro howner (_ | count)
    · rfl
    · obtain ⟨hown, hrest⟩ := forall_mem_cons.mp howner
      refine history_bind_eq_ok.mpr ⟨record, found_eq_ok.mpr hrecord,
        history_bind_eq_ok.mpr ⟨(), require_eq_ok.mpr (decide_eq_true hown),
          history_bind_eq_ok.mpr ⟨_, ih hrest count, rfl⟩⟩⟩

/-- **One page of an ancestry.** -/
theorem ancestryPage_cuts {look : Bytes → Option α} {parent : α → Option Bytes}
    {stack id : α → Bytes} {owner start : Bytes} {missing foreign : HistoryError Bytes}
    {current : Option Bytes} {chain : List α} (hroom : 0 < room)
    (h : ParentChain look parent current chain) (howner : ∀ record ∈ chain, stack record = owner)
    (hsubject : context.subject.length ≤ fieldBytes) (hstart : start.length ≤ fieldBytes)
    (hids : ∀ record ∈ chain, (id record).length ≤ fieldBytes) :
    ∃ result, ancestryPage keyed context room look parent stack id owner missing foreign start
        current = .ok result ∧
      Ranges.Cuts result chain fun next _ rest => ∃ last, last ∈ chain ∧
        encode keyed context ⟨start, id last⟩ = .ok next ∧
        ParentChain look parent (parent last) rest := by
  have hcut := @page_cuts α chain room (fun record => do
    let bytes ← encode keyed context ⟨start, id record⟩
    return some bytes) (fun next _ rest => ∃ last, last ∈ chain ∧
      encode keyed context ⟨start, id last⟩ = .ok next ∧
      ParentChain look parent (parent last) rest) hroom ?_
  · obtain ⟨result, hresult, hcuts⟩ := hcut
    exact ⟨result, history_bind_eq_ok.mpr ⟨_, walkParents_chain h howner (room + 1), hresult⟩,
      hcuts⟩
  · intro record hrecord _
    have hmem := mem_of_mem_take (mem_of_getLast? hrecord)
    obtain ⟨bytes, hencode⟩ := @exists_encode keyed context ⟨start, id record⟩
      ⟨hsubject, hstart, hids record hmem⟩
    exact ⟨_, history_bind_eq_ok.mpr ⟨_, hencode, rfl⟩, record, hmem, hencode, h.drop hrecord⟩

end Page

/-! ## Runs of pages -/

/-- One page of a run: the catalog it is served from, and the limit of its request. -/
structure Turn (ρ : Type) where
  catalog : Catalog Bytes ρ
  limit : ℕ
  limit_pos : 0 < limit
  limit_le : limit ≤ maximumPageRecords

theorem page_check {ρ : Type} (turn : Turn ρ)
    (hwidth : ∀ bytes ∈ cursor, bytes.length = cursorBytes) :
    (⟨turn.limit, cursor⟩ : Page).check = .ok () := by
  refine history_bind_eq_ok.mpr ⟨(), require_eq_ok.mpr (decide_eq_true ?_), require_eq_ok.mpr ?_⟩
  · exact ⟨Nat.pos_iff_ne_zero.mp turn.limit_pos, turn.limit_le⟩
  · rcases cursor with _ | bytes
    · rfl
    · exact decide_eq_true (hwidth bytes rfl).le

section Runs

variable {ρ : Type} [DecidableEq ρ] {codec : Codec Bytes ρ}
variable {id : Bytes}

def Later (codec : Codec Bytes ρ) (a b : Turn ρ) : Prop := Evolves codec a.catalog b.catalog

variable {rest : List (Turn ρ)}

theorem later_final : ∀ {first final : Turn ρ},
    List.IsChain (Later codec) (first :: rest) → (first :: rest).getLast? = some final →
    ∀ turn ∈ first :: rest, Later codec turn final := by
  induction rest with
  | nil =>
    intro first final _ hfinal turn hturn
    obtain rfl := Option.some.inj hfinal
    rw [mem_singleton.mp hturn]
    exact .refl
  | cons second rest ih =>
    intro first final hchain hfinal turn hturn
    obtain ⟨hstep, hthen⟩ := isChain_cons_cons.mp hchain
    rw [getLast?_cons_cons] at hfinal
    rcases mem_cons.mp hturn with rfl | hturn
    · exact hstep.trans (ih hthen hfinal second mem_cons_self)
    · exact ih hthen hfinal turn hturn

theorem ready_of_chain {Ready : Turn ρ → Prop}
    (hkeeps : ∀ {a b}, Later codec a b → Ready a → Ready b) :
    ∀ {first : Turn ρ}, List.IsChain (Later codec) (first :: rest) → Ready first →
    ∀ turn ∈ first :: rest, Ready turn := by
  induction rest with
  | nil =>
    intro first _ hfirst turn hturn
    rw [mem_singleton.mp hturn]
    exact hfirst
  | cons second rest ih =>
    intro first hchain hfirst turn hturn
    obtain ⟨hstep, hthen⟩ := isChain_cons_cons.mp hchain
    rcases mem_cons.mp hturn with rfl | hturn
    · exact hfirst
    · exact ih hthen (hkeeps hstep hfirst) turn hturn

/-- **A range in name order arrives in order, each record once**, with every record it had at the
first page. -/
theorem names_exact {α : Type} {keyed : Bytes → Bytes → Bytes} {context : Context}
    {name : α → String} {id : α → Bytes} {rows : Turn ρ → List α}
    {last : Turn ρ → Bytes → HistoryResult Bytes α} {Ready : Turn ρ → Prop}
    {pageOf : Turn ρ → Option Bytes → HistoryResult Bytes (PageResult α Bytes)}
    (hkeyed : ∀ key bytes, (keyed key bytes).length = 32)
    (hsubject : context.subject.length ≤ fieldBytes)
    (hlater : ∀ {a b}, Later codec a b → Ready a → Ready b ∧
      ∀ row ∈ rows a, ∃ row' ∈ rows b, id row' = id row ∧ name row' = name row)
    (hready : ∀ {turn}, Ready turn → ((rows turn).map name).Nodup ∧ ((rows turn).map id).Nodup ∧
      ∀ row ∈ rows turn, (id row).length ≤ fieldBytes ∧ last turn (id row) = .ok row)
    (hpage : ∀ {turn cursor}, Ready turn → (∀ bytes ∈ cursor, bytes.length = cursorBytes) →
      ∃ room, 0 < room ∧ pageOf turn cursor =
        namePage keyed context room cursor (last turn) name id (rows turn))
    {first : Turn ρ} {rest : List (Turn ρ)} (hchain : List.IsChain (Later codec) (first :: rest))
    (hfirst : Ready first) :
    ∃ pages, follow pageOf (first :: rest) none = .ok pages ∧
      Ranges.Delivers name id rows none first rest pages ∧ ((delivered pages).map id).Nodup ∧
      ∀ final ∈ (first :: rest).getLast?, (rows final).length < rest.length + 1 → Ended pages := by
  -- what a cursor of the run denotes
  let Denotes := fun (turn : Turn ρ) (cursor : Option Bytes) (bound : Option String) =>
    Ready turn ∧ match cursor with
      | none => bound = none
      | some bytes => ∃ record ∈ rows turn, encode keyed context ⟨[], id record⟩ = .ok bytes ∧
          bound = some (name record)
  have hready' : ∀ {turn}, turn ∈ first :: rest → Ready turn := fun hturn =>
    ready_of_chain (fun hstep hthis => (hlater hstep hthis).1) hchain hfirst _ hturn
  have hrun := @follow_growing (Turn ρ) α Bytes (HistoryError Bytes) String Bytes _ pageOf name id
    (fun turn => byName name (rows turn)) (Later codec) Denotes
    ?_ ?_ ?_ ?_ rest first none none hchain ⟨hfirst, rfl⟩
  · obtain ⟨pages, hpages, hdelivers⟩ := hrun
    have hdelivers' : Ranges.Delivers name id rows none first rest pages := by
      refine ⟨hdelivers.sorted, hdelivers.above, fun record hrecord => ?_, fun hended row hrow => ?_,
        hdelivers.grows⟩
      · obtain ⟨state, hstate, hknown⟩ := hdelivers.known record hrecord
        exact ⟨state, hstate, mem_byName.mp hknown⟩
      · exact hdelivers.complete hended row (mem_byName.mpr hrow)
    -- every turn's rows are still there at the last
    have hfinal : ∀ final ∈ (first :: rest).getLast?, ∀ state ∈ first :: rest, ∀ row ∈ rows state,
        ∃ row' ∈ rows final, id row' = id row ∧ name row' = name row :=
      fun final hlast state hstate row hrow =>
        (hlater (later_final hchain hlast state hstate) (hready' hstate)).2 row hrow
    refine ⟨pages, hpages, hdelivers', ?_, fun final hlast hcount => ?_⟩
    · obtain ⟨final, hlast⟩ : ∃ final, (first :: rest).getLast? = some final :=
        Option.isSome_iff_exists.mp (getLast?_isSome.mpr (cons_ne_nil _ _))
      exact hdelivers'.nodup (hfinal final hlast)
        (hready (hready' (mem_of_getLast? hlast))).2.1
    · refine hdelivers'.ended (fun state hstate row hrow => ?_) hcount
      obtain ⟨row', hrow', -, hname⟩ := hfinal final hlast state hstate row hrow
      exact ⟨row', hrow', hname⟩
  · rintro a b bytes bound hstep ⟨hthis, record, hrecord, hencode, hbound⟩
    obtain ⟨hthat, hkept⟩ := hlater hstep hthis
    obtain ⟨record', hrecord', hid, hname⟩ := hkept record hrecord
    exact ⟨hthat, record', hrecord', by rw [hid]; exact hencode, by rw [hname]; exact hbound⟩
  · rintro a b cursor bound row ⟨hthis, -⟩ hstep hrow
    obtain ⟨row', hrow', hid, hname⟩ := (hlater hstep hthis).2 row (mem_byName.mp hrow)
    exact ⟨row', mem_byName.mpr hrow', hid, hname⟩
  · rintro turn cursor bound ⟨hthis, -⟩
    exact byName_sorted (hready hthis).1
  · rintro turn cursor bound ⟨hthis, hcursor⟩
    obtain ⟨-, -, hfound⟩ := hready hthis
    have hwidth : ∀ bytes ∈ cursor, bytes.length = cursorBytes := by
      rintro bytes rfl
      obtain ⟨record, -, hencode, -⟩ := hcursor
      exact length_encode hkeyed hencode
    have hafter : nameAfter keyed context (last turn) name cursor = .ok bound := by
      rcases cursor with _ | bytes
      · exact congrArg (fun bound => Except.ok bound) hcursor.symm
      · obtain ⟨record, hrecord, hencode, rfl⟩ := hcursor
        exact history_bind_eq_ok.mpr ⟨_, decode_encode hkeyed hencode,
          history_bind_eq_ok.mpr ⟨(), rfl,
            history_bind_eq_ok.mpr ⟨record, (hfound record hrecord).2, rfl⟩⟩⟩
    obtain ⟨room, hroom, hserve⟩ := hpage hthis hwidth
    obtain ⟨result, hresult, count, hpos, hrecords, hcases⟩ := namePage_cuts hroom hafter hsubject
      fun row hrow => (hfound row hrow).1
    refine ⟨result, hserve.trans hresult, count, hpos, hrecords, hcases.imp_right ?_⟩
    rintro ⟨next, hnext, hmore, hresumes⟩
    refine ⟨next, hnext, hmore, fun record hrecord => ⟨hthis, record, ?_, ?_, rfl⟩⟩
    · exact (hresumes record hrecord).1
    · exact (hresumes record hrecord).2

variable {keyed : Bytes → Bytes → Bytes}

/-! ## The name ranges -/

variable {first : Turn ρ}

/-- **Stacks arrive in name order**, each once, with every one there was at the first page. -/
theorem layerStackPage_exact (hkeyed : ∀ key bytes, (keyed key bytes).length = 32)
    (htagged : codec.Tagged) (p : Provider) (hchain : List.IsChain (Later codec) (first :: rest))
    (hfirst : first.catalog.tables.Sound) :
    ∃ pages, follow (fun turn cursor => turn.catalog.layerStackPage keyed p ⟨turn.limit, cursor⟩)
        (first :: rest) none = .ok pages ∧
      Ranges.Delivers LayerStackRecord.name LayerStackRecord.id (fun turn => turn.catalog.layerStacks) none
        first rest pages ∧
      ((delivered pages).map LayerStackRecord.id).Nodup ∧
      ∀ final ∈ (first :: rest).getLast?, final.catalog.layerStacks.length < rest.length + 1 →
        Ended pages := by
  refine @names_exact ρ _ codec _ keyed (p.context .stackNames []) _ _
    (fun turn => turn.catalog.layerStacks) (fun turn position => do
      let id ← fromSlice "LayerStackId" 17 stackTag position
      found (turn.catalog.layerStack id) (.integrity "page cursor position"))
    (fun turn => turn.catalog.tables.Sound) _ hkeyed (Nat.zero_le _) ?_ ?_ ?_ first rest hchain
    hfirst
  · intro a b hstep hthis
    obtain ⟨hthat, hextends⟩ := Evolves.run htagged hstep hthis
    exact ⟨hthat, hextends.stack⟩
  · intro turn hthis
    refine ⟨hthis.stack_names, hthis.stack_ids, fun row hrow => ?_⟩
    obtain ⟨hwidth, htag⟩ := hthis.stack_id row hrow
    refine ⟨by rw [hwidth]; decide, history_bind_eq_ok.mpr ⟨row.id, fromSlice_eq_ok hwidth htag,
      found_eq_ok.mpr (find?_of_mem hthis.stack_ids hrow)⟩⟩
  · intro turn cursor hthis hwidth
    obtain ⟨room, hroom, hpos⟩ := @capacity_eq_ok turn.limit 179 turn.limit_pos turn.limit_le
    refine ⟨room, hpos, ?_⟩
    rw [Catalog.layerStackPage, page_check turn hwidth]
    show (capacity turn.limit 179 >>= _) = _
    rw [hroom]
    rfl

variable {s' : Catalog Bytes ρ}

omit [DecidableEq ρ] in
theorem branch_later {s : Catalog Bytes ρ} (hsound : s'.tables.Sound)
    (hextends : s.tables.Extends s'.tables) (hrow : s.branch id = some row) :
    ∃ row', s'.branch id = some row' ∧ row'.stack = row.stack := by
  obtain ⟨row', hrow', hid, hstack, -⟩ := hextends.branch row (mem_of_find?_eq_some hrow)
  have hkey : row.id = id := by simpa using find?_some hrow
  have hfind := find?_of_mem hsound.branch_ids hrow'
  rw [hid, hkey] at hfind
  exact ⟨row', hfind, hstack⟩

omit [DecidableEq ρ] in
theorem layerStack_later {s : Catalog Bytes ρ} (hsound : s'.tables.Sound)
    (hextends : s.tables.Extends s'.tables) (hrow : (s.layerStack id).isSome) :
    (s'.layerStack id).isSome := by
  obtain ⟨row, hrow⟩ := Option.isSome_iff_exists.mp hrow
  obtain ⟨row', hrow', hid, -⟩ := hextends.stack row (mem_of_find?_eq_some hrow)
  have hkey : row.id = id := by simpa using find?_some hrow
  have hfind := find?_of_mem hsound.stack_ids hrow'
  rw [hid, hkey] at hfind
  exact Option.isSome_iff_exists.mpr ⟨row', hfind⟩

/-- **The Branches of a stack arrive in name order**, each once, with every one there was at the first
page. -/
theorem branchPage_exact (hkeyed : ∀ key bytes, (keyed key bytes).length = 32)
    (htagged : codec.Tagged) (p : Provider) (hchain : List.IsChain (Later codec) (first :: rest))
    (hfirst : first.catalog.tables.Sound) (hstack : (first.catalog.layerStack stack).isSome) :
    ∃ pages,
      follow (fun turn cursor => turn.catalog.branchPage keyed p stack ⟨turn.limit, cursor⟩)
        (first :: rest) none = .ok pages ∧
      Ranges.Delivers BranchRecord.name BranchRecord.id
        (fun turn => turn.catalog.branches.filter fun row => row.stack = stack) none first rest
        pages ∧
      ((delivered pages).map BranchRecord.id).Nodup ∧
      ∀ final ∈ (first :: rest).getLast?,
        (final.catalog.branches.filter fun row => row.stack = stack).length < rest.length + 1 →
          Ended pages := by
  have hwidth : stack.length ≤ fieldBytes := by
    obtain ⟨row, hrow⟩ := Option.isSome_iff_exists.mp hstack
    have hkey : row.id = stack := by simpa using find?_some hrow
    rw [← hkey, (hfirst.stack_id row (mem_of_find?_eq_some hrow)).1]
    decide
  refine @names_exact ρ _ codec _ keyed (p.context .branchNames stack) _ _
    (fun turn => turn.catalog.branches.filter fun row => row.stack = stack)
    (fun turn position => do
      let id ← fromSlice "BranchId" 17 branchTag position
      let record ← found (turn.catalog.branch id) (.integrity "page cursor position")
      require (decide (record.stack = stack)) (.integrity "page cursor ownership")
      return record)
    (fun turn => turn.catalog.tables.Sound ∧ (turn.catalog.layerStack stack).isSome) _ hkeyed hwidth
    ?_ ?_ ?_ first rest hchain ⟨hfirst, hstack⟩
  · rintro a b hstep ⟨hthis, hknown⟩
    obtain ⟨hthat, hextends⟩ := Evolves.run htagged hstep hthis
    refine ⟨⟨hthat, layerStack_later hthat hextends hknown⟩, fun row hrow => ?_⟩
    obtain ⟨hmem, hown⟩ := mem_filter.mp hrow
    obtain ⟨row', hrow', hid, hsame, hname⟩ := hextends.branch row hmem
    exact ⟨row', mem_filter.mpr ⟨hrow', by rw [hsame]; exact hown⟩, hid, hname⟩
  · rintro turn ⟨hthis, -⟩
    refine ⟨?_, hthis.branch_ids.sublist (filter_sublist.map _), fun row hrow => ?_⟩
    · -- names are unique in one stack
      refine pairwise_map.mpr (List.Pairwise.imp_of_mem ?_
        ((pairwise_map.mp hthis.branch_names).filter _))
      intro a b ha hb hne hname
      have hown := of_decide_eq_true (mem_filter.mp ha).2
      have hown' := of_decide_eq_true (mem_filter.mp hb).2
      exact hne (Prod.ext (hown.trans hown'.symm) hname)
    · obtain ⟨hmem, hown⟩ := mem_filter.mp hrow
      obtain ⟨hwidth, htag⟩ := hthis.branch_id row hmem
      refine ⟨by rw [hwidth]; decide, history_bind_eq_ok.mpr ⟨row.id, fromSlice_eq_ok hwidth htag,
        history_bind_eq_ok.mpr ⟨row, found_eq_ok.mpr (find?_of_mem hthis.branch_ids hmem),
          history_bind_eq_ok.mpr ⟨(), require_eq_ok.mpr hown, rfl⟩⟩⟩⟩
  · rintro turn cursor ⟨hthis, hknown⟩ hwidth
    obtain ⟨room, hroom, hpos⟩ := @capacity_eq_ok turn.limit 200 turn.limit_pos turn.limit_le
    refine ⟨room, hpos, ?_⟩
    rw [Catalog.branchPage, page_check turn hwidth]
    show (require (turn.catalog.layerStack stack).isSome _ >>= _) = _
    rw [hknown]
    show (capacity turn.limit 200 >>= _) = _
    rw [hroom]
    rfl

/-! ## The ancestries -/

omit [DecidableEq ρ] in
theorem historyStart_eq_ok {s : Catalog Bytes ρ} {branch : BranchRecord Bytes}
    (h : s.historyStart branch start = .ok anchor) :
    anchor = start.or branch.headCommit ∧
      ∀ id ∈ anchor, s.tables.commitStack id = some branch.stack := by
  rcases hor : start.or branch.headCommit with _ | id
  · simp only [Catalog.historyStart, hor] at h
    cases h
    exact ⟨rfl, fun id hid => absurd hid (Option.not_mem_none id)⟩
  · simp only [Catalog.historyStart, hor, history_bind_eq_ok, found_eq_ok, require_eq_ok,
      decide_eq_true_eq] at h
    obtain ⟨record, hrecord, -, hown, h⟩ := h
    have hanchor : some id = anchor := by
      split_ifs at h
      · simp only [history_bind_eq_ok] at h
        obtain ⟨-, -, -, -, h⟩ := h
        exact Except.ok.inj h
      · exact Except.ok.inj h
    subst hanchor
    refine ⟨rfl, fun other hother => ?_⟩
    obtain rfl := Option.some.inj hother
    exact Option.map_eq_some_iff.mpr ⟨record, hrecord, hown⟩

theorem exists_ancestry {α : Type} {rows : List α} {key : α → Bytes} {parent : α → Option Bytes}
    {owner : α → Bytes} (h : Grounded key parent owner rows) {stack : Bytes} {start : Option Bytes}
    (hstart : ∀ id ∈ start,
      (rows.find? fun row => decide (key row = id)).map owner = some stack) :
    ∃ chain, ParentChain (fun id => rows.find? fun row => decide (key row = id)) parent start chain ∧
      (chain.map key).Nodup ∧ ∀ record ∈ chain, record ∈ rows ∧ owner record = stack := by
  rcases start with _ | id
  · exact ⟨[], .nil, nodup_nil, fun record hrecord => absurd hrecord not_mem_nil⟩
  · obtain ⟨row, hrow, hown⟩ := Option.map_eq_some_iff.mp (hstart id rfl)
    obtain ⟨chain, hchain, hsub, howners⟩ := h.exists_chain (mem_of_find?_eq_some hrow)
    have hkey : key row = id := by simpa using find?_some hrow
    rw [hkey] at hchain
    exact ⟨chain, hchain, h.nodup.sublist (hsub.map key), fun record hrecord =>
      ⟨hsub.subset hrecord, (howners record hrecord).trans hown⟩⟩

/-- What lies ahead of a cursor of one ancestry of Commits. -/
structure CommitsAhead (keyed : Bytes → Bytes → Bytes) (p : Provider) (branch owner : Bytes)
    (start anchor : Option Bytes) (s : Catalog Bytes ρ) (cursor : Option Bytes)
    (ahead : List (CommitRecord Bytes ρ)) : Prop where
  sound : s.tables.Sound
  known : ∃ row, s.branch branch = some row ∧ row.stack = owner ∧
    (cursor = none → s.historyStart row start = .ok anchor)
  owned : ∀ record ∈ ahead, s.commit record.id = some record ∧ record.stack = owner
  first : cursor = none → ParentChain s.commit CommitRecord.parent anchor ahead
  later : ∀ bytes ∈ cursor, ∃ id last, anchor = some id ∧ (∀ other ∈ start, other = id) ∧
    s.tables.commitStack id = some owner ∧ s.commit last.id = some last ∧ last.stack = owner ∧
    encode keyed (p.context .commitAncestry branch) ⟨id, last.id⟩ = .ok bytes ∧
    ParentChain s.commit CommitRecord.parent last.parent ahead

variable {turn : Turn ρ}

omit [DecidableEq ρ] in
/-- **One page of the ancestry of a Commit.** -/
theorem commitHistory_cuts (hkeyed : ∀ key bytes, (keyed key bytes).length = 32) {p : Provider}
    {ahead : List (CommitRecord Bytes ρ)}
    (h : CommitsAhead keyed p branch owner start anchor turn.catalog cursor ahead) :
    ∃ result, turn.catalog.commitHistory keyed p ⟨branch, start, ⟨turn.limit, cursor⟩⟩ =
        .ok result ∧
      Ranges.Cuts result ahead fun next _ rest =>
        CommitsAhead keyed p branch owner start anchor turn.catalog (some next) rest := by
  obtain ⟨row, hrow, rfl, hbegin⟩ := h.known
  obtain ⟨room, hroom, hpos⟩ := @capacity_eq_ok turn.limit 4510 turn.limit_pos turn.limit_le
  have hbranch : branch.length ≤ fieldBytes := by
    have hkey : row.id = branch := by simpa using find?_some hrow
    rw [← hkey, (h.sound.branch_id row (mem_of_find?_eq_some hrow)).1]
    decide
  have hwidth : ∀ {id}, turn.catalog.tables.commitStack id = some row.stack → IsCommitId id := by
    intro id hid
    obtain ⟨record, hrecord, -⟩ := Option.map_eq_some_iff.mp hid
    have hkey : record.id = id := by simpa using find?_some hrecord
    exact hkey ▸ h.sound.commit_id record (mem_of_find?_eq_some hrecord)
  -- where this page starts, and the anchor of its cursors
  obtain ⟨current, hcurrent, hahead, hown⟩ : ∃ current,
      turn.catalog.commitStart keyed row (p.context .commitAncestry branch)
        ⟨branch, start, ⟨turn.limit, cursor⟩⟩ = .ok (anchor, current) ∧
      ParentChain turn.catalog.commit CommitRecord.parent current ahead ∧
      (∀ id ∈ anchor, turn.catalog.tables.commitStack id = some row.stack) ∧
      (∀ id ∈ anchor, ∀ other ∈ start, other = id) ∧ (anchor = none → current = none) := by
    rcases cursor with _ | bytes
    · have hhistory := hbegin rfl
      obtain ⟨hor, hown⟩ := historyStart_eq_ok hhistory
      refine ⟨anchor, history_bind_eq_ok.mpr ⟨anchor, hhistory, rfl⟩, h.first rfl, hown, ?_, id⟩
      rintro id rfl other rfl
      exact (Option.some.inj hor).symm
    · obtain ⟨id, last, rfl, hstart, hown, hlast, hlastOwn, hencode, hrest⟩ := h.later bytes rfl
      obtain ⟨record, hrecord, hrecordOwn⟩ := Option.map_eq_some_iff.mp hown
      obtain ⟨hidWidth, hidTag⟩ := hwidth hown
      obtain ⟨hlastWidth, hlastTag⟩ := h.sound.commit_id last (mem_of_find?_eq_some hlast)
      refine ⟨last.parent, ?_, hrest, ?_, ?_, fun hnone => by cases hnone⟩
      · have hsame : (start.all fun other => decide (other = id)) = true := by
          rcases start with _ | other
          · rfl
          · exact decide_eq_true (hstart other rfl)
        exact history_bind_eq_ok.mpr ⟨_, decode_encode hkeyed hencode,
          history_bind_eq_ok.mpr ⟨id, fromSlice_eq_ok hidWidth hidTag,
          history_bind_eq_ok.mpr ⟨(), require_eq_ok.mpr hsame,
          history_bind_eq_ok.mpr ⟨last.id, fromSlice_eq_ok hlastWidth hlastTag,
          history_bind_eq_ok.mpr ⟨record, found_eq_ok.mpr hrecord,
          history_bind_eq_ok.mpr ⟨last, found_eq_ok.mpr hlast,
          history_bind_eq_ok.mpr ⟨(), require_eq_ok.mpr (decide_eq_true ⟨hrecordOwn, hlastOwn⟩),
            rfl⟩⟩⟩⟩⟩⟩⟩
      · rintro other hother
        obtain rfl := Option.some.inj hother
        exact hown
      · rintro other hother
        obtain rfl := Option.some.inj hother
        exact hstart
  obtain ⟨hown, hstart, hnone⟩ := hown
  have hserve : ∀ result, (match anchor with
      | none => pure ⟨[], none⟩
      | some start =>
        ancestryPage keyed (p.context .commitAncestry branch) room turn.catalog.commit
          CommitRecord.parent CommitRecord.stack CommitRecord.id row.stack
          (.integrity "Commit chain") (.integrity "Commit ownership") start current) =
        (Except.ok result : HistoryResult Bytes _) →
      turn.catalog.commitHistory keyed p ⟨branch, start, ⟨turn.limit, cursor⟩⟩ = .ok result := by
    intro result hresult
    exact history_bind_eq_ok.mpr ⟨row, found_eq_ok.mpr hrow,
      history_bind_eq_ok.mpr ⟨room, hroom, history_bind_eq_ok.mpr ⟨_, hcurrent, hresult⟩⟩⟩
  rcases anchor with _ | id
  · -- a Branch without a head has no ancestry
    rw [hnone rfl] at hahead
    cases hahead
    exact ⟨⟨[], none⟩, hserve _ rfl, 1, Nat.one_pos, rfl, .inl ⟨rfl, Nat.zero_le 1⟩⟩
  · have hid : id.length ≤ fieldBytes := by
      rw [(hwidth (hown id rfl)).1]
      decide
    obtain ⟨result, hresult, count, hcount, hrecords, hcases⟩ :=
      @ancestryPage_cuts _ keyed (p.context .commitAncestry branch) room turn.catalog.commit
        CommitRecord.parent CommitRecord.stack CommitRecord.id row.stack id
        (.integrity "Commit chain") (.integrity "Commit ownership") current ahead hpos hahead
        (fun record hrecord => (h.owned record hrecord).2) hbranch hid fun record hrecord => by
          rw [(h.sound.commit_id record
            (mem_of_find?_eq_some (h.owned record hrecord).1)).1]
          decide
    refine ⟨result, hserve _ hresult, count, hcount, hrecords, hcases.imp_right ?_⟩
    rintro ⟨next, hnext, hmore, last, hlast, hencode, hrest⟩
    obtain ⟨hlastFound, hlastOwn⟩ := h.owned last hlast
    refine ⟨next, hnext, hmore, h.sound, ⟨row, hrow, rfl, fun hcursor => by cases hcursor⟩,
      fun record hrecord => h.owned record (mem_of_mem_drop hrecord),
      fun hcursor => (by cases hcursor), fun bytes hbytes => ?_⟩
    obtain rfl := Option.some.inj hbytes
    exact ⟨id, last, rfl, hstart id rfl, hown id rfl, hlastFound, hlastOwn, hencode, hrest⟩

/-- **The ancestry of a Commit arrives whole, in order**, as the first page fixed it. -/
theorem commitHistory_exact (hkeyed : ∀ key bytes, (keyed key bytes).length = 32)
    (htagged : codec.Tagged) (p : Provider) (hchain : List.IsChain (Later codec) (first :: rest))
    (hfirst : first.catalog.tables.Sound) (hrow : first.catalog.branch branch = some row)
    (hstart : first.catalog.historyStart row start = .ok anchor) :
    ∃ chain pages, ParentChain first.catalog.commit CommitRecord.parent anchor chain ∧
      (chain.map CommitRecord.id).Nodup ∧
      follow (fun turn cursor =>
          turn.catalog.commitHistory keyed p ⟨branch, start, ⟨turn.limit, cursor⟩⟩)
        (first :: rest) none = .ok pages ∧
      delivered pages <+: chain ∧ (Ended pages → delivered pages = chain) ∧
      (chain.length ≤ rest.length + 1 → Ended pages) := by
  obtain ⟨-, hown⟩ := historyStart_eq_ok hstart
  obtain ⟨chain, hparents, hnodup, hrecords⟩ := exists_ancestry hfirst.commits hown
  have hahead : CommitsAhead keyed p branch row.stack start anchor first.catalog none chain := by
    refine ⟨hfirst, ⟨row, hrow, rfl, fun _ => hstart⟩, fun record hrecord => ?_, fun _ => hparents,
      fun bytes hbytes => by cases hbytes⟩
    obtain ⟨hmem, hstack⟩ := hrecords record hrecord
    exact ⟨find?_of_mem hfirst.commits.nodup hmem, hstack⟩
  -- operations leave what a cursor names
  have hstays : ∀ {a b : Turn ρ} {next : Bytes} {ahead : List (CommitRecord Bytes ρ)},
      Later codec a b →
      CommitsAhead keyed p branch row.stack start anchor a.catalog (some next) ahead →
      CommitsAhead keyed p branch row.stack start anchor b.catalog (some next) ahead := by
    intro a b next ahead hstep h
    obtain ⟨hthat, hextends⟩ := Evolves.run htagged hstep h.sound
    obtain ⟨row', hrow', hstack', -⟩ := h.known
    obtain ⟨row'', hrow'', hstack''⟩ := branch_later hthat hextends hrow'
    refine ⟨hthat, ⟨row'', hrow'', hstack''.trans hstack', fun hcursor => by cases hcursor⟩,
      fun record hrecord => ⟨hextends.commit (h.owned record hrecord).1, (h.owned record hrecord).2⟩,
      fun hcursor => (by cases hcursor), fun bytes hbytes => ?_⟩
    obtain ⟨id, last, hid, hsame, hidOwn, hlast, hlastOwn, hencode, hrest⟩ := h.later bytes hbytes
    exact ⟨id, last, hid, hsame, hextends.commitStack hidOwn, hextends.commit hlast, hlastOwn,
      hencode, hrest.mono hextends.commit⟩
  obtain ⟨pages, hpages, hfront, hended, hends⟩ := @follow_fixed _ _ _ _
    (fun turn cursor => turn.catalog.commitHistory keyed p ⟨branch, start, ⟨turn.limit, cursor⟩⟩)
    (Later codec) (fun (turn : Turn ρ) cursor ahead =>
      CommitsAhead keyed p branch row.stack start anchor turn.catalog cursor ahead)
    hstays (fun h => commitHistory_cuts hkeyed h) rest first none chain hchain hahead
  exact ⟨chain, pages, hparents, hnodup, hpages, hfront, hended, hends⟩

/-- What lies ahead of a cursor of one ancestry of Layers. -/
structure LayersAhead (keyed : Bytes → Bytes → Bytes) (p : Provider) (stack : Bytes)
    (start : Option Bytes) (anchor : Bytes) (s : Catalog Bytes ρ) (cursor : Option Bytes)
    (ahead : List (LayerRecord Bytes)) : Prop where
  sound : s.tables.Sound
  known : ∃ row, s.layerStack stack = some row ∧ (cursor = none → anchor = start.getD row.headLayer)
  anchored : s.tables.layerStackOf anchor = some stack
  owned : ∀ record ∈ ahead, s.layer record.id = some record ∧ record.stack = stack
  first : cursor = none → ParentChain s.layer LayerRecord.parent (some anchor) ahead
  later : ∀ bytes ∈ cursor, ∃ last, (∀ other ∈ start, other = anchor) ∧
    s.layer last.id = some last ∧ last.stack = stack ∧
    encode keyed (p.context .layerChain stack) ⟨anchor, last.id⟩ = .ok bytes ∧
    ParentChain s.layer LayerRecord.parent last.parent ahead

omit [DecidableEq ρ] in
/-- **One page of the ancestry of a Layer.** -/
theorem layerHistory_cuts (hkeyed : ∀ key bytes, (keyed key bytes).length = 32) {p : Provider}
    {anchor : Bytes} {ahead : List (LayerRecord Bytes)}
    (h : LayersAhead keyed p stack start anchor turn.catalog cursor ahead) :
    ∃ result, turn.catalog.layerHistory keyed p ⟨stack, start, ⟨turn.limit, cursor⟩⟩ =
        .ok result ∧
      Ranges.Cuts result ahead fun next _ rest =>
        LayersAhead keyed p stack start anchor turn.catalog (some next) rest := by
  obtain ⟨row, hrow, hbegin⟩ := h.known
  obtain ⟨room, hroom, hpos⟩ := @capacity_eq_ok turn.limit 176 turn.limit_pos turn.limit_le
  have hstack : stack.length ≤ fieldBytes := by
    have hkey : row.id = stack := by simpa using find?_some hrow
    rw [← hkey, (h.sound.stack_id row (mem_of_find?_eq_some hrow)).1]
    decide
  obtain ⟨record, hrecord, hrecordOwn⟩ := Option.map_eq_some_iff.mp h.anchored
  obtain ⟨hwidth, htag⟩ : IsLayerId anchor := by
    have hkey : record.id = anchor := by simpa using find?_some hrecord
    exact hkey ▸ h.sound.layer_id record (mem_of_find?_eq_some hrecord)
  obtain ⟨current, hcurrent, hahead, hstart⟩ : ∃ current,
      turn.catalog.layerStart keyed row (p.context .layerChain stack)
        ⟨stack, start, ⟨turn.limit, cursor⟩⟩ = .ok (anchor, current) ∧
      ParentChain turn.catalog.layer LayerRecord.parent current ahead ∧
      ∀ other ∈ start, other = anchor := by
    rcases cursor with _ | bytes
    · obtain rfl := hbegin rfl
      refine ⟨_, rfl, h.first rfl, ?_⟩
      rintro other rfl
      rfl
    · obtain ⟨last, hstart, hlast, hlastOwn, hencode, hrest⟩ := h.later bytes rfl
      obtain ⟨hlastWidth, hlastTag⟩ := h.sound.layer_id last (mem_of_find?_eq_some hlast)
      have hsame : (start.all fun other => decide (other = anchor)) = true := by
        rcases start with _ | other
        · rfl
        · exact decide_eq_true (hstart other rfl)
      exact ⟨last.parent, history_bind_eq_ok.mpr ⟨_, decode_encode hkeyed hencode,
        history_bind_eq_ok.mpr ⟨anchor, fromSlice_eq_ok hwidth htag,
        history_bind_eq_ok.mpr ⟨(), require_eq_ok.mpr hsame,
        history_bind_eq_ok.mpr ⟨last.id, fromSlice_eq_ok hlastWidth hlastTag,
        history_bind_eq_ok.mpr ⟨last, found_eq_ok.mpr hlast,
        history_bind_eq_ok.mpr ⟨(), require_eq_ok.mpr (decide_eq_true hlastOwn), rfl⟩⟩⟩⟩⟩⟩, hrest,
        hstart⟩
  have hanchor : anchor.length ≤ fieldBytes := by
    rw [hwidth]
    decide
  obtain ⟨result, hresult, count, hcount, hrecords, hcases⟩ :=
    @ancestryPage_cuts _ keyed (p.context .layerChain stack) room turn.catalog.layer
      LayerRecord.parent LayerRecord.stack LayerRecord.id stack anchor (.integrity "Layer chain")
      (.integrity "Layer ownership") current ahead hpos hahead
      (fun record hrecord => (h.owned record hrecord).2) hstack hanchor fun record hrecord => by
        rw [(h.sound.layer_id record (mem_of_find?_eq_some (h.owned record hrecord).1)).1]
        decide
  refine ⟨result, history_bind_eq_ok.mpr ⟨row, found_eq_ok.mpr hrow,
    history_bind_eq_ok.mpr ⟨room, hroom, history_bind_eq_ok.mpr ⟨_, hcurrent,
      history_bind_eq_ok.mpr ⟨record, found_eq_ok.mpr hrecord,
        history_bind_eq_ok.mpr ⟨(), require_eq_ok.mpr (decide_eq_true hrecordOwn), hresult⟩⟩⟩⟩⟩,
    count, hcount, hrecords, hcases.imp_right ?_⟩
  rintro ⟨next, hnext, hmore, last, hlast, hencode, hrest⟩
  obtain ⟨hlastFound, hlastOwn⟩ := h.owned last hlast
  refine ⟨next, hnext, hmore, h.sound, ⟨row, hrow, fun hcursor => by cases hcursor⟩, h.anchored,
    fun record hrecord => h.owned record (mem_of_mem_drop hrecord),
    fun hcursor => (by cases hcursor), fun bytes hbytes => ?_⟩
  obtain rfl := Option.some.inj hbytes
  exact ⟨last, hstart, hlastFound, hlastOwn, hencode, hrest⟩

/-- **The ancestry of a Layer arrives whole, in order**, as the first page fixed it. -/
theorem layerHistory_exact (hkeyed : ∀ key bytes, (keyed key bytes).length = 32)
    (htagged : codec.Tagged) (p : Provider) {row : LayerStackRecord Bytes}
    (hchain : List.IsChain (Later codec) (first :: rest)) (hfirst : first.catalog.tables.Sound)
    (hrow : first.catalog.layerStack stack = some row)
    (hstart : ∀ id ∈ start, first.catalog.stackOf (.layer id) = some stack) :
    ∃ chain pages,
      ParentChain first.catalog.layer LayerRecord.parent (some (start.getD row.headLayer)) chain ∧
      (chain.map LayerRecord.id).Nodup ∧
      follow (fun turn cursor =>
          turn.catalog.layerHistory keyed p ⟨stack, start, ⟨turn.limit, cursor⟩⟩)
        (first :: rest) none = .ok pages ∧
      delivered pages <+: chain ∧ (Ended pages → delivered pages = chain) ∧
      (chain.length ≤ rest.length + 1 → Ended pages) := by
  have hown : first.catalog.tables.layerStackOf (start.getD row.headLayer) = some stack := by
    have hkey : row.id = stack := by simpa using find?_some hrow
    rcases start with _ | id
    · rw [← hkey]
      exact hfirst.stack_head row (mem_of_find?_eq_some hrow)
    · exact hstart id rfl
  obtain ⟨chain, hparents, hnodup, hrecords⟩ := @exists_ancestry _ _ LayerRecord.id
    LayerRecord.parent LayerRecord.stack hfirst.layers stack (some (start.getD row.headLayer))
    fun id hid => by
      obtain rfl := Option.some.inj hid
      exact hown
  have hahead : LayersAhead keyed p stack start (start.getD row.headLayer) first.catalog none
      chain := by
    refine ⟨hfirst, ⟨row, hrow, fun _ => rfl⟩, hown, fun record hrecord => ?_, fun _ => hparents,
      fun bytes hbytes => by cases hbytes⟩
    obtain ⟨hmem, hstack⟩ := hrecords record hrecord
    exact ⟨find?_of_mem hfirst.layers.nodup hmem, hstack⟩
  have hstays : ∀ {a b : Turn ρ} {next : Bytes} {ahead : List (LayerRecord Bytes)},
      Later codec a b →
      LayersAhead keyed p stack start (start.getD row.headLayer) a.catalog (some next) ahead →
      LayersAhead keyed p stack start (start.getD row.headLayer) b.catalog (some next) ahead := by
    intro a b next ahead hstep h
    obtain ⟨hthat, hextends⟩ := Evolves.run htagged hstep h.sound
    obtain ⟨row', hrow', -⟩ := h.known
    obtain ⟨row'', hrow''⟩ := Option.isSome_iff_exists.mp
      (layerStack_later hthat hextends (Option.isSome_iff_exists.mpr ⟨row', hrow'⟩))
    refine ⟨hthat, ⟨row'', hrow'', fun hcursor => by cases hcursor⟩,
      hextends.layerStackOf h.anchored,
      fun record hrecord => ⟨hextends.layer (h.owned record hrecord).1, (h.owned record hrecord).2⟩,
      fun hcursor => (by cases hcursor), fun bytes hbytes => ?_⟩
    obtain ⟨last, hsame, hlast, hlastOwn, hencode, hrest⟩ := h.later bytes hbytes
    exact ⟨last, hsame, hextends.layer hlast, hlastOwn, hencode, hrest.mono hextends.layer⟩
  obtain ⟨pages, hpages, hfront, hended, hends⟩ := @follow_fixed _ _ _ _
    (fun turn cursor => turn.catalog.layerHistory keyed p ⟨stack, start, ⟨turn.limit, cursor⟩⟩)
    (Later codec) (fun (turn : Turn ρ) cursor ahead =>
      LayersAhead keyed p stack start (start.getD row.headLayer) turn.catalog cursor ahead)
    hstays (fun h => layerHistory_cuts hkeyed h) rest first none chain hchain hahead
  exact ⟨chain, pages, hparents, hnodup, hpages, hfront, hended, hends⟩

end Runs

/-! ## Where a cursor is accepted -/

section Accepted

variable {ρ : Type} {keyed : Bytes → Bytes → Bytes} {p : Provider} {bytes : Bytes}

def IssuedFor (issued : List (Context × Cursor)) (p : Provider) (range : Range) (subject : Bytes) :
    Prop :=
  ∃ issue ∈ issued, issue.1.catalog = p.catalogId ∧ issue.1.incarnation = p.incarnation ∧
    issue.1.range = range ∧ issue.1.subject = subject

theorem issuedFor_of_decode (hkeyed : ∀ key bytes, (keyed key bytes).length = 32)
    {issued : List (Context × Cursor)}
    (hunforged : Signed keyed p.cursorKey bytes →
      ∃ issue ∈ issued, encode keyed issue.1 issue.2 = .ok bytes)
    {range : Range} {subject : Bytes} {cursor : Cursor}
    (h : decode keyed (p.context range subject) bytes = .ok cursor) :
    IssuedFor issued p range subject := by
  obtain ⟨issuer, hissue, hrange, hcatalog, hincarnation, hsubject⟩ :=
    @decode_issued keyed (p.context range subject) cursor bytes hkeyed issued hunforged h
  exact ⟨(issuer, cursor), hissue, hcatalog, hincarnation, hrange, hsubject⟩

theorem namePage_decodes {α : Type} {context : Context} {room : ℕ}
    {last : Bytes → HistoryResult Bytes α} {name : α → String} {id : α → Bytes} {rows : List α}
    {result : PageResult α Bytes}
    (h : namePage keyed context room (some bytes) last name id rows = .ok result) :
    ∃ cursor, decode keyed context bytes = .ok cursor := by
  simp only [namePage, nameAfter, history_bind_eq_ok] at h
  obtain ⟨_, ⟨cursor, hcursor, -⟩, -⟩ := h
  exact ⟨cursor, hcursor⟩

variable {s : Catalog Bytes ρ}

theorem layerStackPage_decodes {result : PageResult (LayerStackRecord Bytes) Bytes}
    (h : s.layerStackPage keyed p ⟨limit, some bytes⟩ = .ok result) :
    ∃ cursor, decode keyed (p.context .stackNames []) bytes = .ok cursor := by
  obtain ⟨_, -, h⟩ := history_bind_eq_ok.mp h
  obtain ⟨room, -, h⟩ := history_bind_eq_ok.mp h
  exact namePage_decodes h

theorem branchPage_decodes {result : PageResult (BranchRecord Bytes) Bytes}
    (h : s.branchPage keyed p stack ⟨limit, some bytes⟩ = .ok result) :
    ∃ cursor, decode keyed (p.context .branchNames stack) bytes = .ok cursor := by
  obtain ⟨_, -, h⟩ := history_bind_eq_ok.mp h
  obtain ⟨_, -, h⟩ := history_bind_eq_ok.mp h
  obtain ⟨room, -, h⟩ := history_bind_eq_ok.mp h
  exact namePage_decodes h

theorem commitHistory_decodes {result : PageResult (CommitRecord Bytes ρ) Bytes}
    (h : s.commitHistory keyed p ⟨branch, start, ⟨limit, some bytes⟩⟩ = .ok result) :
    ∃ cursor, decode keyed (p.context .commitAncestry branch) bytes = .ok cursor := by
  obtain ⟨row, -, h⟩ := history_bind_eq_ok.mp h
  obtain ⟨room, -, h⟩ := history_bind_eq_ok.mp h
  obtain ⟨_, hstart, -⟩ := history_bind_eq_ok.mp h
  obtain ⟨cursor, hcursor, -⟩ := history_bind_eq_ok.mp hstart
  exact ⟨cursor, hcursor⟩

theorem layerHistory_decodes {result : PageResult (LayerRecord Bytes) Bytes}
    (h : s.layerHistory keyed p ⟨stack, start, ⟨limit, some bytes⟩⟩ = .ok result) :
    ∃ cursor, decode keyed (p.context .layerChain stack) bytes = .ok cursor := by
  obtain ⟨row, -, h⟩ := history_bind_eq_ok.mp h
  obtain ⟨room, -, h⟩ := history_bind_eq_ok.mp h
  obtain ⟨_, hstart, -⟩ := history_bind_eq_ok.mp h
  obtain ⟨cursor, hcursor, -⟩ := history_bind_eq_ok.mp hstart
  exact ⟨cursor, hcursor⟩

theorem historyStart_none (hsound : s.tables.Sound) (hrow : row ∈ s.branches) :
    s.historyStart row none = .ok row.headCommit := by
  rcases hhead : row.headCommit with _ | head
  · simp only [Catalog.historyStart, hhead]
    rfl
  · obtain ⟨record, hrecord, hown⟩ :=
      Option.map_eq_some_iff.mp (hsound.branch_head row hrow head hhead)
    have hfound : s.commit head = some record := hrecord
    simp only [Catalog.historyStart, hhead, Option.none_or]
    refine history_bind_eq_ok.mpr ⟨record, found_eq_ok.mpr hfound,
      history_bind_eq_ok.mpr ⟨(), require_eq_ok.mpr (decide_eq_true hown), rfl⟩⟩

end Accepted

/-- **Every paged range arrives in order, each record once and none left out.** Whatever operations
happen between the pages and whatever their limits, stacks and Branches arrive in name order, with
every one there was at the first page, and an ancestry arrives exactly as the first page fixed its
start; a run of enough pages ends. And a cursor is accepted only by the catalog, incarnation, range
and subject it was issued for, when whoever presents it cannot make the digest of one that was not. -/
theorem pages_exact {hash : Bytes → Bytes} (hhash : ∀ bytes, (hash bytes).length = 32)
    {keyed : Bytes → Bytes → Bytes} (hkeyed : ∀ key bytes, (keyed key bytes).length = 32)
    (p : Provider) {first : Turn CommitFacts} {rest : List (Turn CommitFacts)}
    (hreach : Evolves (blake hash) .empty first.catalog)
    (hchain : List.IsChain (Later (blake hash)) (first :: rest)) :
    (∃ pages, follow (fun turn cursor => turn.catalog.layerStackPage keyed p ⟨turn.limit, cursor⟩)
        (first :: rest) none = .ok pages ∧
      Ranges.Delivers LayerStackRecord.name LayerStackRecord.id (fun turn => turn.catalog.layerStacks) none
        first rest pages ∧
      ((delivered pages).map LayerStackRecord.id).Nodup ∧
      ∀ final ∈ (first :: rest).getLast?, final.catalog.layerStacks.length < rest.length + 1 →
        Ended pages) ∧
    (∀ stack, (first.catalog.layerStack stack).isSome → ∃ pages,
      follow (fun turn cursor => turn.catalog.branchPage keyed p stack ⟨turn.limit, cursor⟩)
        (first :: rest) none = .ok pages ∧
      Ranges.Delivers BranchRecord.name BranchRecord.id
        (fun turn => turn.catalog.branches.filter fun row => row.stack = stack) none first rest
        pages ∧
      ((delivered pages).map BranchRecord.id).Nodup ∧
      ∀ final ∈ (first :: rest).getLast?,
        (final.catalog.branches.filter fun row => row.stack = stack).length < rest.length + 1 →
          Ended pages) ∧
    (∀ branch row, first.catalog.branch branch = some row →
      first.catalog.historyStart row none = .ok row.headCommit ∧
      ∀ start anchor, first.catalog.historyStart row start = .ok anchor → ∃ chain pages,
        ParentChain first.catalog.commit CommitRecord.parent anchor chain ∧
        (chain.map CommitRecord.id).Nodup ∧
        follow (fun turn cursor =>
            turn.catalog.commitHistory keyed p ⟨branch, start, ⟨turn.limit, cursor⟩⟩)
          (first :: rest) none = .ok pages ∧
        delivered pages <+: chain ∧ (Ended pages → delivered pages = chain) ∧
        (chain.length ≤ rest.length + 1 → Ended pages)) ∧
    (∀ stack row start, first.catalog.layerStack stack = some row →
      (∀ id ∈ start, first.catalog.stackOf (.layer id) = some stack) → ∃ chain pages,
        ParentChain first.catalog.layer LayerRecord.parent (some (start.getD row.headLayer)) chain ∧
        (chain.map LayerRecord.id).Nodup ∧
        follow (fun turn cursor =>
            turn.catalog.layerHistory keyed p ⟨stack, start, ⟨turn.limit, cursor⟩⟩)
          (first :: rest) none = .ok pages ∧
        delivered pages <+: chain ∧ (Ended pages → delivered pages = chain) ∧
        (chain.length ≤ rest.length + 1 → Ended pages)) ∧
    ∀ (issued : List (Context × Cursor)) (bytes : Bytes),
      (Signed keyed p.cursorKey bytes →
        ∃ issue ∈ issued, encode keyed issue.1 issue.2 = .ok bytes) →
      ∀ (s : Catalog Bytes CommitFacts) (limit : ℕ),
        (∀ result, s.layerStackPage keyed p ⟨limit, some bytes⟩ = .ok result →
          IssuedFor issued p .stackNames []) ∧
        (∀ stack result, s.branchPage keyed p stack ⟨limit, some bytes⟩ = .ok result →
          IssuedFor issued p .branchNames stack) ∧
        (∀ branch start result,
          s.commitHistory keyed p ⟨branch, start, ⟨limit, some bytes⟩⟩ = .ok result →
          IssuedFor issued p .commitAncestry branch) ∧
        ∀ stack start result,
          s.layerHistory keyed p ⟨stack, start, ⟨limit, some bytes⟩⟩ = .ok result →
          IssuedFor issued p .layerChain stack := by
  have htagged := blake_tagged hhash
  have hfirst := (Evolves.run htagged hreach Tables.sound_empty).1
  refine ⟨layerStackPage_exact hkeyed htagged p hchain hfirst, fun stack hstack =>
    branchPage_exact hkeyed htagged p hchain hfirst hstack, fun branch row hrow =>
    ⟨historyStart_none hfirst (mem_of_find?_eq_some hrow), fun start anchor hstart =>
      commitHistory_exact hkeyed htagged p hchain hfirst hrow hstart⟩,
    fun stack row start hrow hstart =>
      layerHistory_exact hkeyed htagged p hchain hfirst hrow hstart,
    fun issued bytes hunforged s limit => ⟨fun result h => ?_, fun stack result h => ?_,
      fun branch start result h => ?_, fun stack start result h => ?_⟩⟩
  · obtain ⟨cursor, hcursor⟩ := layerStackPage_decodes h
    exact issuedFor_of_decode hkeyed hunforged hcursor
  · obtain ⟨cursor, hcursor⟩ := branchPage_decodes h
    exact issuedFor_of_decode hkeyed hunforged hcursor
  · obtain ⟨cursor, hcursor⟩ := commitHistory_decodes h
    exact issuedFor_of_decode hkeyed hunforged hcursor
  · obtain ⟨cursor, hcursor⟩ := layerHistory_decodes h
    exact issuedFor_of_decode hkeyed hunforged hcursor

/-! ## A run of two pages -/

def sumDigest (bytes : Bytes) : Bytes := List.replicate 31 0 ++ [bytes.sum]

def sampleStack (name : String) (body : ℕ) : StackInitialization Bytes :=
  ⟨stackTag :: List.replicate 16 body, name, [], [], [], 0⟩

def sampleNext (s : Catalog Bytes CommitFacts) (name : String) (body : ℕ) :
    Catalog Bytes CommitFacts :=
  (s.initializeLayerstack (blake sumDigest) (sampleStack name body)).toOption.getD .empty

def sampleTwo : Catalog Bytes CommitFacts := sampleNext (sampleNext .empty "b" 1) "c" 2

def sampleProvider : Provider := ⟨List.replicate 32 0, 1, [], rfl, by decide⟩

/-- A page of one stack, and a page after a stack with an earlier name came in between. -/
def samplePages := follow (fun turn cursor => turn.catalog.layerStackPage (fun _ => sumDigest)
    sampleProvider ⟨turn.limit, cursor⟩)
  [(⟨sampleTwo, 1, Nat.one_pos, by decide⟩ : Turn CommitFacts),
    ⟨sampleNext sampleTwo "a" 3, 128, by decide, by decide⟩] none

theorem pages_exact_between : ∃ pages, samplePages = .ok pages ∧
    (delivered pages).map LayerStackRecord.name = ["b", "c"] ∧
    ((delivered pages).map LayerStackRecord.id).Nodup := by
  have hdigest : ∀ bytes, (sumDigest bytes).length = 32 := fun _ => rfl
  have hstep : ∀ {s name body}, s.initializeLayerstack (blake sumDigest) (sampleStack name body) =
      .ok (sampleNext s name body) → Evolves (blake sumDigest) s (sampleNext s name body) :=
    fun {_ name body} h => .single ⟨.initializeLayerstack (sampleStack name body), ⟨rfl, rfl⟩, h⟩
  have hfirst : Evolves (blake sumDigest) .empty sampleTwo := (hstep rfl).trans (hstep rfl)
  have hsecond : Evolves (blake sumDigest) sampleTwo (sampleNext sampleTwo "a" 3) := hstep rfl
  obtain ⟨⟨pages, hpages, -, hnodup, -⟩, -⟩ := @pages_exact sumDigest hdigest (fun _ => sumDigest)
    (fun _ => hdigest) sampleProvider ⟨sampleTwo, 1, Nat.one_pos, by decide⟩
    [⟨sampleNext sampleTwo "a" 3, 128, by decide, by decide⟩] hfirst
    (.cons_cons hsecond (.singleton _))
  have hnames : samplePages.toOption.map (fun pages =>
      (delivered pages).map LayerStackRecord.name) = some ["b", "c"] := by decide +kernel
  have hpages : samplePages = .ok pages := hpages
  rw [hpages] at hnames
  exact ⟨pages, hpages, Option.some.inj hnames, hnodup⟩

end LayerFs.History
