import LayerFs.Merge.Written

/-!
# Reading a merge's plan rows (`merge/rows.rs`)

The update reads the plan while it runs. Point lookups keep one header, one chunk and one window of
fresh serials; a pass over a directory's names holds one chunk.

* `Falls`, `lookup_flatten` — **the chunk a name falls in decides it**.
* `Asking.run_answers` — **every query answers as the plain lists**, in any order.
-/

namespace LayerFs.Merge

open List

open Windows Wire

variable {R : Type}
variable {change : Change} {groups : List (List Change)} {group : List Change} {name : PathName}
  {i n parent : ℕ}

/-! ## The code -/

/-- What a plan says of a name (`DirectoryChangeLookup`). -/
inductive DirectoryChangeLookup where
  | unchanged
  | removed
  | bound (serial : ℕ)
  deriving DecidableEq, Repr

/-- A window of consecutive fresh serials and their ranks. -/
structure FreshWindow where
  start : Option ℕ := none
  serials : List (ℕ × Option ℕ) := []
  complete : Bool := false
  loaded : Bool := false

def FreshWindow.covers (w : FreshWindow) (serial : ℕ) : Bool :=
  w.loaded && w.start.all (fun start => decide (start < serial)) &&
    (w.complete || w.serials.getLast?.any fun last => decide (serial ≤ last.1))

/-- The plan rows of one merge: what its reader keeps. -/
structure PlanRows where
  /-- the chunk last read by a point lookup: parent, chunk and its names -/
  memo : Option (ℕ × ℕ × List Change) := none
  /-- the last header asked for, absence included -/
  header : Option (ℕ × Option (ℕ × ℕ)) := none
  /-- fresh serials after the start up to the last held -/
  fresh : FreshWindow := {}

/-- What a list of changes says of a name: a binary search of names in order. -/
def lookupChange (changes : List Change) (name : PathName) : DirectoryChangeLookup :=
  match changes.find? fun change => change.1 == name with
  | none => .unchanged
  | some (_, none) => .removed
  | some (_, some serial) => .bound serial

def chunkAt (b : Backing R Identity) (s : Spill R Identity) (parent chunk : ℕ) :
    ContentResult (List Change × Spill R Identity) := do
  let (bytes, s) ← s.get b changesKind (pair parent chunk)
  let bytes ← orError bytes malformedRow
  let changes ← decodeChanges bytes
  return (changes, s)

def firstName (b : Backing R Identity) (s : Spill R Identity) (parent chunk : ℕ) :
    ContentResult (Bytes × Spill R Identity) := do
  let (bytes, s) ← s.get b firstKind (pair parent chunk)
  let bytes ← orError bytes malformedRow
  return (bytes, s)

def readHeader (bytes : Bytes) : ContentResult (ℕ × ℕ) := do
  let (count, rest) ← Cursor.number.run bytes
  let (chunks, rest) ← Cursor.number.run rest
  let _ ← Cursor.finished.run rest
  return (count, chunks)

def readRank (bytes : Bytes) : ContentResult ℕ := do
  let (rank, rest) ← Cursor.number.run bytes
  let _ ← Cursor.finished.run rest
  return rank

/-- The last chunk whose first name is not after `name`, between two chunks. -/
def searchChunk (b : Backing R Identity) (parent : ℕ) (name : PathName) (low high : ℕ)
    (s : Spill R Identity) : ContentResult (ℕ × Spill R Identity) :=
  if 1 < high - low then do
    let (found, s) ← firstName b s parent (low + (high - low) / 2)
    if found ≤ name.bytes then searchChunk b parent name (low + (high - low) / 2) high s
    else searchChunk b parent name low (low + (high - low) / 2) s
  else .ok (low, s)
  termination_by high - low

namespace PlanRows

/-- The window that decides a serial, read when the held one does not. -/
def window (b : Backing R Identity) (r : PlanRows) (s : Spill R Identity) (serial : ℕ) :
    ContentResult (FreshWindow × Spill R Identity) :=
  if r.fresh.covers serial then .ok (r.fresh, s)
  else do
    let start := if serial = 0 then none else some (serial - 1)
    let (keys, s) ← s.keysAfter b freshKind (start.map single)
    return ({
      start
      serials := keys.map fun key => (Merge.first key, none)
      complete := decide (keys.length < windowKeys)
      loaded := true }, s)

def rank (b : Backing R Identity) (r : PlanRows) (s : Spill R Identity) (serial : ℕ) :
    ContentResult (Option ℕ × PlanRows × Spill R Identity) := do
  let (window, s) ← r.window b s serial
  match window.serials.find? fun row => row.1 == serial with
  | none => return (none, { r with fresh := window }, s)
  | some (_, some rank) => return (some rank, { r with fresh := window }, s)
  | some (_, none) => do
    let (bytes, s) ← s.get b freshKind (single serial)
    let bytes ← orError bytes malformedRow
    let rank ← readRank bytes
    let serials := window.serials.map fun row => if row.1 = serial then (row.1, some rank) else row
    return (some rank, { r with fresh := { window with serials } }, s)

def decided (b : Backing R Identity) (r : PlanRows) (s : Spill R Identity) (serial : ℕ) :
    ContentResult (PlanRows × Spill R Identity) :=
  if r.fresh.covers serial then .ok (r, s)
  else do
    let (_, r, s) ← r.rank b s serial
    return (r, s)

def isNew (b : Backing R Identity) (r : PlanRows) (s : Spill R Identity) (serial : ℕ) :
    ContentResult (Bool × PlanRows × Spill R Identity) := do
  let (r, s) ← r.decided b s serial
  return (r.fresh.serials.any fun row => row.1 == serial, r, s)

def loadHeader (b : Backing R Identity) (r : PlanRows) (s : Spill R Identity) (parent : ℕ) :
    ContentResult (Option (ℕ × ℕ) × PlanRows × Spill R Identity) := do
  let (bytes, s) ← s.get b headerKind (single parent)
  match bytes with
  | none => return (none, { r with header := some (parent, none) }, s)
  | some bytes => do
    let header ← readHeader bytes
    return (some header, { r with header := some (parent, some header) }, s)

def headerOf (b : Backing R Identity) (r : PlanRows) (s : Spill R Identity) (parent : ℕ) :
    ContentResult (Option (ℕ × ℕ) × PlanRows × Spill R Identity) :=
  match r.header with
  | some (held, header) =>
    if held = parent then .ok (header, r, s) else r.loadHeader b s parent
  | none => r.loadHeader b s parent

def heldChunk (b : Backing R Identity) (r : PlanRows) (s : Spill R Identity) (parent chunks : ℕ)
    (name : PathName) : ContentResult (Option ℕ × Spill R Identity) :=
  match r.memo with
  | some (held, chunk, changes) =>
    if held = parent ∧ changes.head?.any (fun low => decide (low.1 ≤ name)) then
      if changes.getLast?.any (fun high => decide (name ≤ high.1)) ∨ chunk + 1 = chunks then
        .ok (some chunk, s)
      else do
        let (next, s) ← firstName b s parent (chunk + 1)
        return (if name.bytes < next then some chunk else none, s)
    else .ok (none, s)
  | none => .ok (none, s)

/-- The chunk of a parent's names that would hold `name`. -/
def chunkFor (b : Backing R Identity) (r : PlanRows) (s : Spill R Identity) (parent chunks : ℕ)
    (name : PathName) : ContentResult (ℕ × Spill R Identity) := do
  let (held, s) ← r.heldChunk b s parent chunks name
  match held with
  | some chunk => return (chunk, s)
  | none => searchChunk b parent name 0 chunks s

def keepChunk (b : Backing R Identity) (r : PlanRows) (s : Spill R Identity) (parent chunk : ℕ) :
    ContentResult (List Change × PlanRows × Spill R Identity) := do
  let read : ContentResult (List Change × PlanRows × Spill R Identity) := do
    let (changes, s) ← chunkAt b s parent chunk
    return (changes, { r with memo := some (parent, chunk, changes) }, s)
  match r.memo with
  | some (held, kept, changes) =>
    if held = parent ∧ kept = chunk then return (changes, r, s) else read
  | none => read

/-- `directory_change`. -/
def directoryChange (b : Backing R Identity) (r : PlanRows) (s : Spill R Identity) (parent : ℕ)
    (name : PathName) : ContentResult (DirectoryChangeLookup × PlanRows × Spill R Identity) := do
  let (header, r, s) ← r.headerOf b s parent
  match header with
  | none => return (.unchanged, r, s)
  | some (_, chunks) =>
    if chunks = 0 then return (.unchanged, r, s)
    else do
      let (low, s) ← r.chunkFor b s parent chunks name
      let (changes, r, s) ← r.keepChunk b s parent low
      return (lookupChange changes name, r, s)

end PlanRows

/-- A pass over one directory's changes. -/
structure Changes where
  parent : ℕ
  chunks : ℕ
  read : ℕ := 0
  window : List Change := []

/-- `directory_changes`. -/
def PlanRows.directoryChanges (b : Backing R Identity) (r : PlanRows) (s : Spill R Identity)
    (parent : ℕ) : ContentResult (Changes × PlanRows × Spill R Identity) := do
  let (header, r, s) ← r.headerOf b s parent
  return ({ parent, chunks := (header.map Prod.snd).getD 0 }, r, s)

def Changes.next (b : Backing R Identity) (c : Changes) (s : Spill R Identity) :
    ContentResult (Option Change × Changes × Spill R Identity) :=
  match c.window with
  | change :: window => .ok (some change, { c with window }, s)
  | [] =>
    -- the chunks read never pass the chunks there are
    if c.read < c.chunks then do
      let (window, s) ← chunkAt b s c.parent c.read
      Changes.next b { c with read := c.read + 1, window } s
    else .ok (none, c, s)
  termination_by c.chunks - c.read

/-! ## Queries -/

/-- One query of the update, or another piece of work between two. -/
inductive PlanQuery (R : Type) where
  | change (parent : ℕ) (name : PathName)
  | header (parent : ℕ)
  | changes (parent : ℕ)
  | next (pass : ℕ)
  | rank (serial : ℕ)
  | isNew (serial : ℕ)
  | other (work : Spill R Identity → ContentResult (Spill R Identity))

/-- What a query answers. -/
inductive PlanAnswer where
  | change (found : DirectoryChangeLookup)
  | header (count : Option ℕ)
  | next (change : Option Change)
  | rank (rank : Option ℕ)
  | isNew (new : Bool)
  | done

/-- A reader with the passes made so far. -/
structure Asking (R : Type) where
  spill : Spill R Identity
  rows : PlanRows := {}
  passes : List Changes := []

def Asking.step (b : Backing R Identity) (a : Asking R) :
    PlanQuery R → ContentResult (PlanAnswer × Asking R)
  | .change parent name => do
    let (found, rows, spill) ← a.rows.directoryChange b a.spill parent name
    return (.change found, { a with rows, spill })
  | .header parent => do
    let (header, rows, spill) ← a.rows.headerOf b a.spill parent
    return (.header (header.map Prod.fst), { a with rows, spill })
  | .changes parent => do
    let (pass, rows, spill) ← a.rows.directoryChanges b a.spill parent
    return (.done, { rows, spill, passes := a.passes ++ [pass] })
  | .next pass =>
    match a.passes[pass]? with
    | some changes => do
      let (change, changes, spill) ← changes.next b a.spill
      return (.next change, { a with spill, passes := a.passes.set pass changes })
    | none => .ok (.done, a)
  | .rank serial => do
    let (rank, rows, spill) ← a.rows.rank b a.spill serial
    return (.rank rank, { a with rows, spill })
  | .isNew serial => do
    let (new, rows, spill) ← a.rows.isNew b a.spill serial
    return (.isNew new, { a with rows, spill })
  | .other work => do
    let spill ← work a.spill
    return (.done, { a with spill })

def Asking.run (b : Backing R Identity) : Asking R → List (PlanQuery R) →
    ContentResult (List PlanAnswer)
  | _, [] => .ok []
  | a, query :: queries => do
    let (answer, a) ← a.step b query
    let answers ← Asking.run b a queries
    return answer :: answers

/-! ## Plain answers -/

def Planned.changeOf (p : Planned) (parent : ℕ) (name : PathName) : DirectoryChangeLookup :=
  lookupChange ((p.changesFor parent).getD []) name

def Planned.rankOf (p : Planned) (serial : ℕ) : Option ℕ :=
  if serial ∈ p.fresh then some ((sortDedup p.fresh).idxOf serial) else none

/-- One query of the plain lists, with what is left of the passes made so far. -/
def Planned.answer (p : Planned) (passes : List (List Change)) :
    PlanQuery R → PlanAnswer × List (List Change)
  | .change parent name => (.change (p.changeOf parent name), passes)
  | .header parent => (.header ((p.changesFor parent).map List.length), passes)
  | .changes parent => (.done, passes ++ [(p.changesFor parent).getD []])
  | .next pass =>
    match passes[pass]? with
    | some changes => (.next changes.head?, passes.set pass changes.tail)
    | none => (.done, passes)
  | .rank serial => (.rank (p.rankOf serial), passes)
  | .isNew serial => (.isNew (decide (serial ∈ p.fresh)), passes)
  | .other _ => (.done, passes)

def Planned.answers (p : Planned) : List (List Change) → List (PlanQuery R) → List PlanAnswer
  | _, [] => []
  | passes, query :: queries =>
    (p.answer passes query).1 :: p.answers (p.answer passes query).2 queries

/-! ## The chunk a name falls in -/

variable {b : Backing R Identity} {view : R → SortedMap (RecordKey Identity) Bytes}
  {m : SortedMap (RecordKey Identity) Bytes} {s : Spill R Identity}
  {rows : ℕ → List (List Change)} {p : Planned}

/-- A name falls in a group: not before its first name, save in the first group, and before the
first name of the next. -/
structure Falls (groups : List (List Change)) (i : ℕ) (name : PathName) : Prop where
  lt : i < groups.length
  low : 0 < i → ∀ group, groups[i]? = some group → firstOf group ≤ name.bytes
  high : ∀ group, groups[i + 1]? = some group → name.bytes < firstOf group

def InOrder (changes : List Change) : Prop := changes.Pairwise fun a c => a.1 < c.1

theorem firstOf_le {later : List Change} (h : InOrder (group ++ later)) (hne : group ≠ [])
    (hmem : change ∈ group ++ later) : firstOf group ≤ change.1.bytes := by
  obtain ⟨head, tail, rfl⟩ := exists_cons_of_ne_nil hne
  rw [cons_append, mem_cons] at hmem
  rcases hmem with rfl | hmem
  · exact le_rfl
  · exact ((pairwise_cons.mp h).1 change hmem).le

theorem flatten_split (hgroup : groups[i]? = some group) :
    groups.flatten = (groups.take i).flatten ++ (group ++ (groups.drop (i + 1)).flatten) := by
  obtain ⟨hlt, rfl⟩ := List.getElem?_eq_some_iff.mp hgroup
  conv_lhs => rw [← take_append_drop i groups, drop_eq_getElem_cons hlt]
  rw [flatten_append, flatten_cons]

/-- **The chunk a name falls in decides it.** -/
theorem lookup_flatten (hfull : ∀ group ∈ groups, group ≠ []) (horder : InOrder groups.flatten)
    (h : Falls groups i name) (hgroup : groups[i]? = some group) :
    lookupChange groups.flatten name = lookupChange group name := by
  have hne : group ≠ [] := hfull group (mem_of_getElem? hgroup)
  rw [flatten_split hgroup] at horder ⊢
  obtain ⟨-, hback, hsplit⟩ := pairwise_append.mp horder
  have hbefore : (groups.take i).flatten.find? (fun change => change.1 == name) = none := by
    refine find?_eq_none.mpr fun change hchange => ?_
    rw [beq_iff_eq]
    rintro rfl
    have hpos : 0 < i := by
      rcases Nat.eq_zero_or_pos i with rfl | hpos
      · cases hchange
      · exact hpos
    obtain ⟨head, tail, rfl⟩ := exists_cons_of_ne_nil hne
    exact (hsplit change hchange head mem_cons_self).not_ge (h.low hpos _ hgroup)
  have hbehind : ((groups.drop (i + 1)).flatten).find? (fun change => change.1 == name)
      = none := by
    refine find?_eq_none.mpr fun change hchange => ?_
    rw [beq_iff_eq]
    rintro rfl
    rcases hdrop : groups.drop (i + 1) with _ | ⟨next, later⟩
    · rw [hdrop] at hchange
      cases hchange
    · have hnext : groups[i + 1]? = some next := by
        rw [← head?_drop, hdrop]
        rfl
      rw [hdrop, flatten_cons] at hchange hback
      have hle := firstOf_le (pairwise_append.mp hback).2.1
        (hfull next (mem_of_getElem? hnext)) hchange
      exact (h.high next hnext).not_ge hle
  rw [lookupChange, lookupChange, find?_append, find?_append, hbefore, hbehind,
    Option.none_or, Option.or_none]

theorem lt_firstOf (hfull : ∀ group ∈ groups, group ≠ []) (horder : InOrder groups.flatten)
    {next : List Change} (hgroup : groups[i]? = some group) (hnext : groups[i + 1]? = some next)
    (hmem : change ∈ group) : change.1.bytes < firstOf next := by
  rw [flatten_split hgroup] at horder
  have hback := (pairwise_append.mp horder).2.1
  obtain ⟨head, tail, rfl⟩ := exists_cons_of_ne_nil
    (hfull next (mem_of_getElem? hnext))
  obtain ⟨hlt, hget⟩ := List.getElem?_eq_some_iff.mp hnext
  refine (pairwise_append.mp hback).2.2 change hmem head ?_
  rw [drop_eq_getElem_cons hlt, hget]
  exact mem_cons_self

theorem falls_low {chunk : ℕ} {changes : List Change} (hgroup : groups[chunk]? = some changes)
    (hfirst : changes.head?.any (fun low => decide (low.1 ≤ name)) = true) :
    ∀ group, groups[chunk]? = some group → firstOf group ≤ name.bytes := by
  intro group hat
  rw [hgroup] at hat
  obtain rfl := Option.some.inj hat
  obtain ⟨low, hhead, hle⟩ := (Option.any_eq_true _ _).mp hfirst
  rw [firstOf, hhead]
  exact of_decide_eq_true hle

/-! ## What the records and the reader tell -/

/-- What the records tell of a written plan. -/
structure Complete (m : SortedMap (RecordKey Identity) Bytes) (rows : ℕ → List (List Change))
    (p : Planned) : Prop where
  chunked : Chunked m rows
  header : ∀ parent, m.get? (recordKey headerKind (single parent))
    = (p.changesFor parent).map fun changes =>
        be 8 changes.length ++ be 8 (rows parent).length
  whole : ∀ {parent : ℕ} {changes : List Change}, p.changesFor parent = some changes →
    changes = (rows parent).flatten ∧ changes.length < u64Bound ∧
      (rows parent).length < u64Bound
  ordered : ∀ {parent : ℕ} {changes : List Change}, p.changesFor parent = some changes →
    InOrder changes ∧ ∀ change ∈ changes, Narrow change
  ranked : Ranked m ((sortDedup p.fresh).map single) (sortDedup p.fresh).length
  narrow : ∀ serial ∈ p.fresh, serial < u64Bound

/-- A window of fresh serials is what it says. -/
structure FreshWindow.Right (p : Planned) (w : FreshWindow) : Prop where
  serials : w.loaded = true →
    w.serials.map Prod.fst = (rest (sortDedup p.fresh) w.start).take windowKeys ∧
      w.complete = decide (w.serials.length < windowKeys)
  ranks : ∀ row ∈ w.serials, ∀ rank, row.2 = some rank → p.rankOf row.1 = some rank

def headerFor (rows : ℕ → List (List Change)) (p : Planned) (parent : ℕ) : Option (ℕ × ℕ) :=
  (p.changesFor parent).map fun changes => (changes.length, (rows parent).length)

/-- **What the reader keeps is right.** -/
structure PlanRows.Right (rows : ℕ → List (List Change)) (p : Planned) (r : PlanRows) : Prop where
  memo : ∀ {parent chunk : ℕ} {changes : List Change}, r.memo = some (parent, chunk, changes) →
    (rows parent)[chunk]? = some changes
  header : ∀ {parent : ℕ} {header : Option (ℕ × ℕ)}, r.header = some (parent, header) →
    header = headerFor rows p parent
  fresh : r.fresh.Right p

theorem PlanRows.Right.new : PlanRows.Right rows p {} where
  memo := fun h => by cases h
  header := fun h => by cases h
  fresh := ⟨fun h => absurd h Bool.false_ne_true, fun _ hrow => absurd hrow not_mem_nil⟩

/-! ## Headers and chunks -/

theorem readHeader_header {count chunks : ℕ} (hcount : count < u64Bound)
    (hchunks : chunks < u64Bound) :
    readHeader (be 8 count ++ be 8 chunks) = .ok (count, chunks) := by
  have hlast := Cursor.reads_number hchunks []
  rw [append_nil] at hlast
  rw [readHeader, Cursor.reads_number hcount, ok_bind]
  dsimp only
  rw [hlast]
  rfl

theorem readRank_rank {rank : ℕ} (hrank : rank < u64Bound) : readRank (be 8 rank) = .ok rank := by
  have hlast := Cursor.reads_number hrank []
  rw [append_nil] at hlast
  rw [readRank, hlast]
  rfl

variable {r : PlanRows}

theorem PlanRows.Right.headerOf (hb : b.Lawful view) (hs : Refines view PlanKind s m)
    (hm : Complete m rows p) (hr : r.Right rows p) (parent : ℕ) :
    Yields b.Fails (fun o => o.1 = headerFor rows p parent ∧ o.2.1.Right rows p ∧
        Refines view PlanKind o.2.2 m)
      (r.headerOf b s parent) := by
  have hload : Yields b.Fails (fun o => o.1 = headerFor rows p parent ∧ o.2.1.Right rows p ∧
      Refines view PlanKind o.2.2 m) (r.loadHeader b s parent) := by
    have hkeep : ∀ header, header = headerFor rows p parent →
        PlanRows.Right rows p { r with header := some (parent, header) } := by
      refine fun header hheader => ⟨hr.memo, fun heq => ?_, hr.fresh⟩
      cases heq
      exact hheader
    rw [PlanRows.loadHeader]
    refine (hs.get hb (.inl rfl)).bind fun o ho => ?_
    obtain ⟨bytes, s'⟩ := o
    obtain ⟨rfl, h'⟩ := ho
    dsimp only at h' ⊢
    rw [hm.header]
    rcases hchanges : p.changesFor parent with _ | changes
    · have hnone : none = headerFor rows p parent := by
        rw [headerFor, hchanges]
        rfl
      exact ⟨hnone, hkeep _ hnone, h'⟩
    · obtain ⟨-, hmany, hfew⟩ := hm.whole hchanges
      have hsome : some (changes.length, (rows parent).length) = headerFor rows p parent := by
        rw [headerFor, hchanges]
        rfl
      dsimp only [Option.map_some]
      rw [readHeader_header hmany hfew, ok_bind]
      exact ⟨hsome, hkeep _ hsome, h'⟩
  rw [PlanRows.headerOf]
  rcases hheld : r.header with _ | ⟨held, header⟩
  · exact hload
  · dsimp only
    split_ifs with heq
    · exact ⟨heq ▸ hr.header hheld, hr, hs⟩
    · exact hload

theorem chunkAt_group (hb : b.Lawful view) (hs : Refines view PlanKind s m) (hm : Chunked m rows)
    (hgroup : (rows parent)[i]? = some group) (hnarrow : ∀ change ∈ group, Narrow change) :
    Yields b.Fails (fun o => o.1 = group ∧ Refines view PlanKind o.2 m)
      (chunkAt b s parent i) := by
  rw [chunkAt]
  refine (hs.get hb (.inr (.inl rfl))).bind fun o ho => ?_
  obtain ⟨bytes, s'⟩ := o
  obtain ⟨rfl, h'⟩ := ho
  dsimp only at h' ⊢
  rw [hm.changes, hgroup, Option.map_some, orError, ok_bind, decodeChanges_changesOf hnarrow,
    ok_bind]
  exact ⟨rfl, h'⟩

theorem firstName_group (hb : b.Lawful view) (hs : Refines view PlanKind s m) (hm : Chunked m rows)
    (hgroup : (rows parent)[i]? = some group) :
    Yields b.Fails (fun o => o.1 = firstOf group ∧ Refines view PlanKind o.2 m)
      (firstName b s parent i) := by
  rw [firstName]
  refine (hs.get hb (.inr (.inr (.inl rfl)))).bind fun o ho => ?_
  obtain ⟨bytes, s'⟩ := o
  obtain ⟨rfl, h'⟩ := ho
  dsimp only at h' ⊢
  rw [hm.first, hgroup, Option.map_some, orError, ok_bind]
  exact ⟨rfl, h'⟩

/-- **The search ends where the name falls.** -/
theorem searchChunk_falls (hb : b.Lawful view) (hm : Chunked m rows) :
    ∀ {low high : ℕ} {s : Spill R Identity}, high - low = n → Refines view PlanKind s m →
      low < high → high ≤ (rows parent).length →
      (0 < low → ∀ group, (rows parent)[low]? = some group → firstOf group ≤ name.bytes) →
      (∀ group, (rows parent)[high]? = some group → name.bytes < firstOf group) →
      Yields b.Fails (fun o => Falls (rows parent) o.1 name ∧ Refines view PlanKind o.2 m)
        (searchChunk b parent name low high s) := by
  induction n using Nat.strong_induction_on with
  | _ n ih =>
    intro low high s hn hs hlt hle hlow hhigh
    rw [searchChunk]
    split_ifs with hmore
    · have hmid : low + (high - low) / 2 < (rows parent).length := by omega
      have hgroup := getElem?_eq_getElem hmid
      refine (firstName_group hb hs hm hgroup).bind fun o ho => ?_
      obtain ⟨found, s'⟩ := o
      obtain ⟨rfl, h'⟩ := ho
      dsimp only at h' ⊢
      split_ifs with hfound
      · refine ih _ ?_ rfl h' (by omega) hle (fun _ group hat => ?_) hhigh
        · omega
        · rw [hgroup] at hat
          exact Option.some.inj hat ▸ hfound
      · refine ih _ ?_ rfl h' (by omega) (by omega) hlow fun group hat => ?_
        · omega
        · rw [hgroup] at hat
          exact Option.some.inj hat ▸ lt_of_not_ge hfound
    · obtain rfl : high = low + 1 := by omega
      exact ⟨⟨by omega, hlow, hhigh⟩, hs⟩

theorem PlanRows.Right.heldChunk (hb : b.Lawful view) (hs : Refines view PlanKind s m)
    (hm : Chunked m rows) (hr : r.Right rows p) (horder : InOrder (rows parent).flatten)
    (name : PathName) :
    Yields b.Fails (fun o => (∀ i ∈ o.1, Falls (rows parent) i name) ∧
        Refines view PlanKind o.2 m)
      (r.heldChunk b s parent (rows parent).length name) := by
  have hnone : ∀ i ∈ (none : Option ℕ), Falls (rows parent) i name := fun i hi => by cases hi
  rw [PlanRows.heldChunk]
  rcases hmemo : r.memo with _ | ⟨held, chunk, changes⟩
  · exact ⟨hnone, hs⟩
  dsimp only
  split_ifs with hheld hlast
  · obtain ⟨rfl, hfirst⟩ := hheld
    have hgroup := hr.memo hmemo
    have hlt := (List.getElem?_eq_some_iff.mp hgroup).1
    have hlow := falls_low hgroup hfirst
    refine ⟨fun i hi => ?_, hs⟩
    cases hi
    refine ⟨hlt, fun _ => hlow, fun next hnext => ?_⟩
    rcases hlast with hlast | hlast
    · obtain ⟨high, hhigh, hle⟩ := (Option.any_eq_true _ _).mp hlast
      have hbefore := lt_firstOf (hm.full held) horder hgroup hnext (mem_of_getLast? hhigh)
      exact lt_of_le_of_lt (of_decide_eq_true hle) hbefore
    · rw [hlast, getElem?_eq_none le_rfl] at hnext
      cases hnext
  · obtain ⟨rfl, hfirst⟩ := hheld
    have hgroup := hr.memo hmemo
    have hlt := (List.getElem?_eq_some_iff.mp hgroup).1
    have hlow := falls_low hgroup hfirst
    have hne : chunk + 1 ≠ (rows held).length := fun heq => hlast (.inr heq)
    have hmore : chunk + 1 < (rows held).length := by omega
    have hnext := getElem?_eq_getElem hmore
    refine (firstName_group hb hs hm hnext).bind fun o ho => ?_
    obtain ⟨found, s'⟩ := o
    obtain ⟨rfl, h'⟩ := ho
    dsimp only at h' ⊢
    refine ⟨fun i hi => ?_, h'⟩
    split_ifs at hi with hbefore
    · cases hi
      refine ⟨hlt, fun _ => hlow, fun next hat => ?_⟩
      rw [hnext] at hat
      exact Option.some.inj hat ▸ hbefore
    · cases hi
  · exact ⟨hnone, hs⟩

/-- **The chunk a lookup reads is the one the name falls in.** -/
theorem PlanRows.Right.chunkFor (hb : b.Lawful view) (hs : Refines view PlanKind s m)
    (hm : Chunked m rows) (hr : r.Right rows p) (horder : InOrder (rows parent).flatten)
    (hpos : 0 < (rows parent).length) (name : PathName) :
    Yields b.Fails (fun o => Falls (rows parent) o.1 name ∧ Refines view PlanKind o.2 m)
      (r.chunkFor b s parent (rows parent).length name) := by
  rw [PlanRows.chunkFor]
  refine (hr.heldChunk hb hs hm horder name).bind fun o ho => ?_
  obtain ⟨held, s'⟩ := o
  obtain ⟨hfalls, h'⟩ := ho
  dsimp only at hfalls h' ⊢
  rcases held with _ | chunk
  · refine searchChunk_falls hb hm rfl h' hpos le_rfl (fun h => absurd h (lt_irrefl _)) ?_
    intro group hat
    rw [getElem?_eq_none le_rfl] at hat
    cases hat
  · exact ⟨hfalls chunk rfl, h'⟩

theorem PlanRows.Right.keepChunk (hb : b.Lawful view) (hs : Refines view PlanKind s m)
    (hm : Chunked m rows) (hr : r.Right rows p) (hgroup : (rows parent)[i]? = some group)
    (hnarrow : ∀ change ∈ group, Narrow change) :
    Yields b.Fails (fun o => o.1 = group ∧ o.2.1.Right rows p ∧ Refines view PlanKind o.2.2 m)
      (r.keepChunk b s parent i) := by
  have hread : Yields b.Fails
      (fun o => o.1 = group ∧ o.2.1.Right rows p ∧ Refines view PlanKind o.2.2 m) (do
        let (changes, s) ← chunkAt b s parent i
        return (changes, { r with memo := some (parent, i, changes) }, s)) := by
    refine (chunkAt_group hb hs hm hgroup hnarrow).bind fun o ho => ?_
    obtain ⟨changes, s'⟩ := o
    obtain ⟨rfl, h'⟩ := ho
    refine ⟨rfl, ⟨fun heq => ?_, hr.header, hr.fresh⟩, h'⟩
    cases heq
    exact hgroup
  rw [PlanRows.keepChunk]
  rcases hmemo : r.memo with _ | ⟨held, chunk, changes⟩
  · exact hread
  · dsimp only
    split_ifs with hheld
    · obtain ⟨rfl, rfl⟩ := hheld
      have hsame := hr.memo hmemo
      rw [hgroup] at hsame
      exact ⟨(Option.some.inj hsame).symm, hr, hs⟩
    · exact hread

/-- **A point lookup answers as the plain list.** -/
theorem PlanRows.Right.directoryChange (hb : b.Lawful view) (hs : Refines view PlanKind s m)
    (hm : Complete m rows p) (hr : r.Right rows p) (parent : ℕ) (name : PathName) :
    Yields b.Fails (fun o => o.1 = p.changeOf parent name ∧ o.2.1.Right rows p ∧
        Refines view PlanKind o.2.2 m)
      (r.directoryChange b s parent name) := by
  rw [PlanRows.directoryChange]
  refine (hr.headerOf hb hs hm parent).bind fun o ho => ?_
  obtain ⟨header, r', s'⟩ := o
  obtain ⟨rfl, hr', h'⟩ := ho
  dsimp only at hr' h' ⊢
  rw [headerFor, Planned.changeOf]
  rcases hchanges : p.changesFor parent with _ | changes
  · exact ⟨rfl, hr', h'⟩
  obtain ⟨horder, hnarrow⟩ := hm.ordered hchanges
  obtain ⟨rfl, -, -⟩ := hm.whole hchanges
  dsimp only [Option.map_some, Option.getD_some]
  split_ifs with hempty
  · rw [eq_nil_of_length_eq_zero hempty]
    exact ⟨rfl, hr', h'⟩
  · refine (hr'.chunkFor hb h' hm.chunked horder (Nat.pos_of_ne_zero hempty) name).bind
      fun o ho => ?_
    obtain ⟨low, s₁⟩ := o
    obtain ⟨hfalls, h₁⟩ := ho
    have hgroup := getElem?_eq_getElem hfalls.lt
    refine (hr'.keepChunk hb h₁ hm.chunked hgroup fun change hchange => ?_).bind fun o ho => ?_
    · exact hnarrow change (mem_flatten.mpr ⟨_, getElem_mem hfalls.lt, hchange⟩)
    · obtain ⟨found, r₂, s₂⟩ := o
      obtain ⟨rfl, hr₂, h₂⟩ := ho
      exact ⟨(lookup_flatten (hm.chunked.full parent) horder hfalls hgroup).symm, hr₂, h₂⟩

/-! ## Passes over a directory -/

def Changes.Ahead (rows : ℕ → List (List Change)) (c : Changes) (left : List Change) : Prop :=
  ∃ groups : List (List Change), c.chunks = c.read + groups.length ∧
    (∀ i group, groups[i]? = some group → (rows c.parent)[c.read + i]? = some group) ∧
    left = c.window ++ groups.flatten ∧ ∀ change ∈ left, Narrow change

/-- **A pass gives the next change**, or nothing at the end. -/
theorem Changes.Ahead.next (hb : b.Lawful view) (hm : Chunked m rows) :
    ∀ {c : Changes} {left : List Change} {s : Spill R Identity}, c.chunks - c.read = n →
      Refines view PlanKind s m → c.Ahead rows left →
      Yields b.Fails (fun o => o.1 = left.head? ∧ o.2.1.Ahead rows left.tail ∧
          Refines view PlanKind o.2.2 m)
        (c.next b s) := by
  induction n with
  | zero =>
    intro c left s hn hs h
    obtain ⟨groups, hchunks, hrows, rfl, hnarrow⟩ := h
    obtain rfl : groups = [] := eq_nil_of_length_eq_zero (by omega)
    rw [Changes.next]
    rcases hwindow : c.window with _ | ⟨change, window⟩
    · dsimp only
      rw [if_neg (by omega)]
      exact ⟨rfl, ⟨[], hchunks, hrows, by rw [hwindow]; rfl, fun _ h => absurd h not_mem_nil⟩,
        hs⟩
    · rw [hwindow] at hnarrow
      refine ⟨rfl, ⟨[], hchunks, hrows, rfl, fun change hchange => ?_⟩, hs⟩
      exact hnarrow change (mem_cons_of_mem _ hchange)
  | succ n ih =>
    intro c left s hn hs h
    obtain ⟨groups, hchunks, hrows, rfl, hnarrow⟩ := h
    rw [Changes.next]
    rcases hwindow : c.window with _ | ⟨change, window⟩
    · rw [hwindow, nil_append] at hnarrow
      obtain ⟨group, groups, rfl⟩ : ∃ group rest, groups = group :: rest :=
        exists_cons_of_ne_nil (ne_nil_of_length_pos (by omega))
      rw [length_cons] at hchunks
      dsimp only
      rw [if_pos (by omega)]
      have hrow := hrows 0 group rfl
      rw [Nat.add_zero] at hrow
      refine (chunkAt_group hb hs hm hrow fun change hchange => ?_).bind fun o ho => ?_
      · exact hnarrow change (mem_append_left _ hchange)
      obtain ⟨changes, s'⟩ := o
      obtain ⟨rfl, h'⟩ := ho
      have hahead : Changes.Ahead rows { c with read := c.read + 1, window := changes }
          ([] ++ (changes :: groups).flatten) := by
        refine ⟨groups, ?_, fun i g hg => ?_, rfl, hnarrow⟩
        · dsimp only
          omega
        · dsimp only
          rw [Nat.add_assoc, Nat.add_comm 1]
          exact hrows (i + 1) g hg
      refine ih ?_ h' hahead
      dsimp only
      omega
    · rw [hwindow] at hnarrow
      refine ⟨rfl, ⟨groups, hchunks, hrows, rfl, fun change hchange => ?_⟩, hs⟩
      exact hnarrow change (mem_cons_of_mem _ hchange)

/-- **A pass has its parent's whole list ahead of it.** -/
theorem PlanRows.Right.directoryChanges (hb : b.Lawful view) (hs : Refines view PlanKind s m)
    (hm : Complete m rows p) (hr : r.Right rows p) (parent : ℕ) :
    Yields b.Fails (fun o => o.1.Ahead rows ((p.changesFor parent).getD []) ∧
        o.2.1.Right rows p ∧ Refines view PlanKind o.2.2 m)
      (r.directoryChanges b s parent) := by
  rw [PlanRows.directoryChanges]
  refine (hr.headerOf hb hs hm parent).bind fun o ho => ?_
  obtain ⟨header, r', s'⟩ := o
  obtain ⟨rfl, hr', h'⟩ := ho
  refine ⟨?_, hr', h'⟩
  rw [headerFor]
  rcases hchanges : p.changesFor parent with _ | changes
  · refine ⟨[], rfl, fun i group hgroup => ?_, rfl, fun _ h => absurd h not_mem_nil⟩
    cases hgroup
  · obtain ⟨-, hnarrow⟩ := hm.ordered hchanges
    obtain ⟨rfl, -, -⟩ := hm.whole hchanges
    refine ⟨rows parent, (Nat.zero_add _).symm, fun i group hgroup => ?_, rfl, hnarrow⟩
    rwa [Nat.zero_add]

/-! ## Fresh serials -/

theorem single_lt {a c : ℕ} : single a < single c ↔ a < c := by
  rw [single, single, pair, pair, Prod.Lex.toLex_lt_toLex]
  simp

theorem rest_map_single (serials : List ℕ) (start : Option ℕ) :
    rest (serials.map single) (start.map single) = (rest serials start).map single := by
  rw [rest, rest, filter_map]
  refine congrArg (List.map single) (filter_congr fun serial _ => ?_)
  rcases start with _ | start
  · rfl
  · exact decide_eq_decide.mpr single_lt

/-- **A window that covers a serial decides it.** -/
theorem FreshWindow.Right.decides {w : FreshWindow} (h : w.Right p) {serial : ℕ}
    (hcovers : w.covers serial = true) : serial ∈ w.serials.map Prod.fst ↔ serial ∈ p.fresh := by
  rw [FreshWindow.covers, Bool.and_eq_true, Bool.and_eq_true, Bool.or_eq_true] at hcovers
  obtain ⟨⟨hloaded, hstart⟩, hend⟩ := hcovers
  obtain ⟨hserials, hcomplete⟩ := h.serials hloaded
  have hascending : (rest (sortDedup p.fresh) w.start).Pairwise (· < ·) :=
    (sortDedup_ascending p.fresh).sublist filter_sublist
  rw [hserials]
  refine ⟨fun hmem => mem_sortDedup.mp (mem_filter.mp (mem_of_mem_take hmem)).1,
    fun hmem => ?_⟩
  have hrest : serial ∈ rest (sortDedup p.fresh) w.start := by
    refine mem_filter.mpr ⟨mem_sortDedup.mpr hmem, ?_⟩
    rcases hw : w.start with _ | start
    · rfl
    · rw [hw] at hstart
      exact hstart
  by_contra hout
  obtain ⟨hfull, hbefore⟩ := window_before hascending hrest hout
  rcases hend with hend | hend
  · rw [hcomplete, decide_eq_true_eq, ← length_map (f := Prod.fst), hserials, hfull] at hend
    exact lt_irrefl _ hend
  · obtain ⟨last, hlast, hle⟩ := (Option.any_eq_true _ _).mp hend
    have hmem' : last.1 ∈ (rest (sortDedup p.fresh) w.start).take windowKeys := by
      rw [← hserials]
      exact mem_map_of_mem (mem_of_getLast? hlast)
    exact (hbefore last.1 hmem').not_ge (of_decide_eq_true hle)

theorem PlanRows.Right.window (hb : b.Lawful view) (hs : Refines view PlanKind s m)
    (hm : Complete m rows p) (hr : r.Right rows p) (serial : ℕ) :
    Yields b.Fails (fun o => o.1.Right p ∧ o.1.covers serial = true ∧
        Refines view PlanKind o.2 m)
      (r.window b s serial) := by
  rw [PlanRows.window]
  by_cases hcovers : r.fresh.covers serial = true
  · rw [if_pos hcovers]
    exact ⟨hr.fresh, hcovers, hs⟩
  rw [if_neg hcovers]
  dsimp only
  generalize hstart : (if serial = 0 then none else some (serial - 1) : Option ℕ) = start
  have hbehind : ∀ key, Windows.behind start key = true ↔ serial ≤ key := by
    intro key
    rw [← hstart]
    split_ifs with hzero
    · simp [Windows.behind, hzero]
    · rw [Windows.behind, decide_eq_true_eq]
      omega
  refine (hs.keysAfter hb (.inr (.inr (.inr rfl))) _).bind fun o ho => ?_
  obtain ⟨keys, s'⟩ := o
  obtain ⟨rfl, h'⟩ := ho
  dsimp only at h' ⊢
  rw [hm.ranked.known, rest_map_single, ← map_take, map_map]
  have hserials : (((rest (sortDedup p.fresh) start).take windowKeys).map
      ((fun key : Identity => (Merge.first key, (none : Option ℕ))) ∘ single)).map Prod.fst
      = (rest (sortDedup p.fresh) start).take windowKeys := by
    rw [map_map]
    exact map_id _
  refine ⟨⟨fun _ => ⟨hserials, ?_⟩, fun row hrow rank hrank => ?_⟩, ?_, h'⟩
  · simp only [length_map]
  · obtain ⟨key, -, rfl⟩ := mem_map.mp hrow
    cases hrank
  · rw [FreshWindow.covers]
    simp only [Bool.true_and, Bool.and_eq_true, Bool.or_eq_true, length_map,
      decide_eq_true_eq]
    refine ⟨?_, ?_⟩
    · rw [← hstart]
      split_ifs with hzero
      · rfl
      · exact decide_eq_true (by omega)
    · rcases Nat.lt_or_ge ((rest (sortDedup p.fresh) start).take windowKeys).length windowKeys with
        hshort | hfull
      · exact .inl hshort
      · refine .inr ?_
        have hne : (rest (sortDedup p.fresh) start).take windowKeys ≠ [] :=
          ne_nil_of_length_pos (lt_of_lt_of_le (by decide) hfull)
        rw [getLast?_map, getLast?_eq_some_getLast hne]
        have hlast := getLast_mem hne
        exact decide_eq_true ((hbehind _).mp
          (mem_filter.mp (mem_of_mem_take hlast)).2)

theorem length_le_of_nodup {l : List ℕ} (hnodup : l.Nodup) (h : ∀ x ∈ l, x < n) : l.length ≤ n := by
  rw [← toFinset_card_of_nodup hnodup, ← Finset.card_range n]
  exact Finset.card_le_card fun x hx => Finset.mem_range.mpr (h x (mem_toFinset.mp hx))

theorem Complete.rankOf (hm : Complete m rows p) {serial : ℕ} (hserial : serial ∈ p.fresh) :
    ∃ rank, p.rankOf serial = some rank ∧ rank < u64Bound ∧
      m.get? (recordKey freshKind (single serial)) = some (be 8 rank) := by
  have hmem : serial ∈ sortDedup p.fresh := mem_sortDedup.mpr hserial
  have hnodup : (sortDedup p.fresh).Nodup := (sortDedup_ascending p.fresh).imp ne_of_lt
  have hlt := idxOf_lt_length_of_mem hmem
  have hidx : ((sortDedup p.fresh).map single).idxOf (single serial)
      = (sortDedup p.fresh).idxOf serial := by
    have hlt' : (sortDedup p.fresh).idxOf serial < ((sortDedup p.fresh).map single).length := by
      rwa [length_map]
    have hat : ((sortDedup p.fresh).map single)[(sortDedup p.fresh).idxOf serial]
        = single serial := by
      rw [getElem_map, getElem_idxOf]
    have hnodup' : ((sortDedup p.fresh).map single).Nodup := hm.ranked.ascending.imp ne_of_lt
    conv_lhs => rw [← hat]
    exact hnodup'.idxOf_getElem _ _
  refine ⟨(sortDedup p.fresh).idxOf serial, ?_, ?_, ?_⟩
  · rw [Planned.rankOf, if_pos hserial]
  · refine hlt.trans_le (length_le_of_nodup hnodup fun x hx => ?_)
    exact hm.narrow x (mem_sortDedup.mp hx)
  · rw [hm.ranked.rank _ (mem_map_of_mem hmem), hidx, if_pos hlt]

/-- **A rank lookup answers as the plain list**, and leaves a window that decides the serial. -/
theorem PlanRows.Right.rank (hb : b.Lawful view) (hs : Refines view PlanKind s m)
    (hm : Complete m rows p) (hr : r.Right rows p) (serial : ℕ) :
    Yields b.Fails (fun o => o.1 = p.rankOf serial ∧
        (serial ∈ o.2.1.fresh.serials.map Prod.fst ↔ serial ∈ p.fresh) ∧
        o.2.1.Right rows p ∧ Refines view PlanKind o.2.2 m)
      (r.rank b s serial) := by
  rw [PlanRows.rank]
  refine (hr.window hb hs hm serial).bind fun o ho => ?_
  obtain ⟨window, s'⟩ := o
  obtain ⟨hwindow, hcovers, h'⟩ := ho
  have hdecides := hwindow.decides hcovers
  have hright : PlanRows.Right rows p { r with fresh := window } :=
    ⟨hr.memo, hr.header, hwindow⟩
  dsimp only at hwindow hdecides hright h' ⊢
  rcases hfind : window.serials.find? (fun row => row.1 == serial) with _ | ⟨held, rank⟩
  · have hout : serial ∉ p.fresh := by
      rw [← hdecides]
      rintro hmem
      obtain ⟨row, hrow, rfl⟩ := mem_map.mp hmem
      exact find?_eq_none.mp hfind row hrow (beq_self_eq_true _)
    rw [hfind]
    exact ⟨by rw [Planned.rankOf, if_neg hout], hdecides, hright, h'⟩
  · have hmem := mem_of_find?_eq_some hfind
    have hheld := find?_some hfind
    rw [beq_iff_eq] at hheld
    rw [hfind]
    obtain rfl : held = serial := hheld
    rcases rank with _ | rank
    · obtain ⟨rank, hrank, hnarrow, hrow⟩ :=
        hm.rankOf (hdecides.mp (mem_map_of_mem hmem))
      refine (h'.get hb (.inr (.inr (.inr rfl)))).bind fun o ho => ?_
      obtain ⟨bytes, s₁⟩ := o
      obtain ⟨rfl, h₁⟩ := ho
      dsimp only at h₁ ⊢
      rw [hrow, orError, ok_bind, readRank_rank hnarrow, ok_bind]
      have hserials : (window.serials.map fun row =>
          if row.1 = held then (row.1, some rank) else row).map Prod.fst
            = window.serials.map Prod.fst := by
        rw [map_map]
        refine map_congr_left fun row _ => ?_
        rw [Function.comp_apply]
        split_ifs <;> rfl
      refine ⟨hrank.symm, ?_, ⟨hr.memo, hr.header, fun hloaded => ?_, fun row hmem' rank' h => ?_⟩,
        h₁⟩
      · dsimp only
        rw [hserials, hdecides]
      · dsimp only at hloaded ⊢
        rw [hserials, length_map]
        exact hwindow.serials hloaded
      · obtain ⟨row', hrow', rfl⟩ := mem_map.mp hmem'
        split_ifs at h ⊢ with heq
        · obtain rfl := Option.some.inj h
          rw [heq]
          exact hrank
        · exact hwindow.ranks row' hrow' rank' h
    · exact ⟨(hwindow.ranks _ hmem rank rfl).symm, hdecides, hright, h'⟩

/-- **A freshness lookup answers as the plain list.** -/
theorem PlanRows.Right.isNew (hb : b.Lawful view) (hs : Refines view PlanKind s m)
    (hm : Complete m rows p) (hr : r.Right rows p) (serial : ℕ) :
    Yields b.Fails (fun o => o.1 = decide (serial ∈ p.fresh) ∧ o.2.1.Right rows p ∧
        Refines view PlanKind o.2.2 m)
      (r.isNew b s serial) := by
  have hdecided : Yields b.Fails (fun o : PlanRows × Spill R Identity =>
      (serial ∈ o.1.fresh.serials.map Prod.fst ↔ serial ∈ p.fresh) ∧ o.1.Right rows p ∧
        Refines view PlanKind o.2 m)
      (r.decided b s serial) := by
    rw [PlanRows.decided]
    split_ifs with hcovers
    · exact ⟨hr.fresh.decides hcovers, hr, hs⟩
    · refine (hr.rank hb hs hm serial).bind fun o ho => ?_
      obtain ⟨-, hdecides, hright, h'⟩ := ho
      exact ⟨hdecides, hright, h'⟩
  rw [PlanRows.isNew]
  refine hdecided.bind fun o ho => ?_
  obtain ⟨r', s'⟩ := o
  obtain ⟨hdecides, hright, h'⟩ := ho
  refine ⟨?_, hright, h'⟩
  dsimp only at hdecides ⊢
  rw [← decide_eq_decide.mpr hdecides, Bool.eq_iff_iff, any_eq_true, decide_eq_true_eq,
    mem_map]
  exact exists_congr fun row => and_congr_right fun _ => beq_iff_eq

/-! ## Runs of queries -/

/-- A query that keeps to the rules: other work leaves the plan's rows alone. -/
def PlanQuery.Minds (b : Backing R Identity) (view : R → SortedMap (RecordKey Identity) Bytes) :
    PlanQuery R → Prop
  | .other work => LeavesPlan b view work
  | _ => True

/-- What a reader and its passes tell, against what is left of the plain passes. -/
structure Asking.Right (view : R → SortedMap (RecordKey Identity) Bytes)
    (m : SortedMap (RecordKey Identity) Bytes) (rows : ℕ → List (List Change)) (p : Planned)
    (a : Asking R) (passes : List (List Change)) : Prop where
  spill : Refines view PlanKind a.spill m
  kept : a.rows.Right rows p
  length : a.passes.length = passes.length
  ahead : ∀ {i : ℕ} {c : Changes} {left : List Change}, a.passes[i]? = some c →
    passes[i]? = some left → c.Ahead rows left

/-- **One query answers as the plain lists.** -/
theorem Asking.Right.step (hb : b.Lawful view) (hm : Complete m rows p) {a : Asking R}
    {passes : List (List Change)} (h : a.Right view m rows p passes) {query : PlanQuery R}
    (hmind : query.Minds b view) :
    Yields b.Fails (fun o => o.1 = (p.answer passes query).1 ∧
        o.2.Right view m rows p (p.answer passes query).2)
      (a.step b query) := by
  obtain ⟨hs, hr, hlength, hahead⟩ := h
  cases query with
  | change parent name =>
    refine (hr.directoryChange hb hs hm parent name).bind fun o ho => ?_
    obtain ⟨hanswer, hr', h'⟩ := ho
    exact ⟨congrArg PlanAnswer.change hanswer, h', hr', hlength, hahead⟩
  | header parent =>
    refine (hr.headerOf hb hs hm parent).bind fun o ho => ?_
    obtain ⟨hanswer, hr', h'⟩ := ho
    refine ⟨?_, h', hr', hlength, hahead⟩
    dsimp only [Planned.answer]
    rw [hanswer, headerFor, Option.map_map]
    rfl
  | changes parent =>
    refine (hr.directoryChanges hb hs hm parent).bind fun o ho => ?_
    obtain ⟨hnew, hr', h'⟩ := ho
    refine ⟨rfl, h', hr', ?_, fun hc hleft => ?_⟩
    · dsimp only [Planned.answer]
      rw [length_append, length_append, hlength]
      rfl
    · rcases concat_cases hlength.symm hc with ⟨hold, heq⟩ | ⟨rfl, heq⟩
      · exact hahead hold (heq.symm.trans hleft)
      · cases heq.symm.trans hleft
        exact hnew
  | next pass =>
    rw [Asking.step, Planned.answer]
    rcases hc : a.passes[pass]? with _ | c
    · have hnone : passes[pass]? = none := by
        rw [List.getElem?_eq_none_iff] at hc ⊢
        exact hlength.symm.trans_le hc
      rw [hnone]
      exact ⟨rfl, hs, hr, hlength, hahead⟩
    · obtain ⟨hlt, -⟩ := List.getElem?_eq_some_iff.mp hc
      rw [hlength] at hlt
      have hleft := getElem?_eq_getElem hlt
      rw [hleft]
      refine ((hahead hc hleft).next hb hm.chunked rfl hs).bind fun o ho => ?_
      obtain ⟨hanswer, hnext, h'⟩ := ho
      refine ⟨congrArg PlanAnswer.next hanswer, h', hr, ?_, fun {i c' left'} hc' hleft' => ?_⟩
      · dsimp only
        rw [length_set, length_set, hlength]
      · dsimp only at hc' hleft'
        by_cases hi : pass = i
        · subst hi
          rw [getElem?_set_self (hlength.symm ▸ hlt)] at hc'
          rw [getElem?_set_self hlt] at hleft'
          cases hc'
          cases hleft'
          exact hnext
        · rw [getElem?_set_ne hi] at hc' hleft'
          exact hahead hc' hleft'
  | rank serial =>
    refine (hr.rank hb hs hm serial).bind fun o ho => ?_
    obtain ⟨hanswer, -, hr', h'⟩ := ho
    exact ⟨congrArg PlanAnswer.rank hanswer, h', hr', hlength, hahead⟩
  | isNew serial =>
    refine (hr.isNew hb hs hm serial).bind fun o ho => ?_
    obtain ⟨hanswer, hr', h'⟩ := ho
    exact ⟨congrArg PlanAnswer.isNew hanswer, h', hr', hlength, hahead⟩
  | other work =>
    refine (hmind PlanKind (fun _ => id) _ m hs).bind fun s' h' => ?_
    exact ⟨rfl, h', hr, hlength, hahead⟩

/-- **Every query answers as the plain lists**, in any order. -/
theorem Asking.run_answers (hb : b.Lawful view) (hm : Complete m rows p)
    {queries : List (PlanQuery R)} :
    ∀ {a : Asking R} {passes : List (List Change)}, a.Right view m rows p passes →
      (∀ query ∈ queries, query.Minds b view) →
      Yields b.Fails (fun answers => answers = p.answers passes queries) (a.run b queries) := by
  induction queries with
  | nil => exact fun _ _ => rfl
  | cons query queries ih =>
    intro a passes h hmind
    rw [forall_mem_cons] at hmind
    rw [Asking.run]
    refine (h.step hb hm hmind.1).bind fun o ho => ?_
    obtain ⟨answer, a'⟩ := o
    obtain ⟨rfl, h'⟩ := ho
    refine (ih h' hmind.2).bind fun answers hanswers => ?_
    rw [hanswers]
    rfl

/-! ## A plan from its first row to its last answer -/

theorem Kept.ranked {writers : List (Option ChangeWriter)} (h : Kept m rows p writers) :
    Ranked m ((sortDedup p.fresh).map single) 0 := by
  have hascending : ((sortDedup p.fresh).map single).Pairwise (· < ·) :=
    pairwise_map.mpr ((sortDedup_ascending p.fresh).imp single_lt.mpr)
  have hmem : ∀ key, key ∈ (sortDedup p.fresh).map single ↔ key ∈ p.fresh.map single := by
    intro key
    simp only [mem_map, mem_sortDedup]
  refine ⟨?_, fun key hkey => ?_⟩
  · refine List.Perm.eq_of_pairwise (fun a c _ _ hac hca => absurd hac hca.asymm)
      (kindKeys_ascending m freshKind) hascending ?_
    refine (perm_ext_iff_of_nodup ((kindKeys_ascending m freshKind).imp ne_of_lt)
      (hascending.imp ne_of_lt)).mpr fun key => ?_
    rw [mem_kindKeys, h.fresh, hmem]
    split_ifs with hkey
    · simp [hkey]
    · simp [hkey]
  · rw [h.fresh, if_pos ((hmem key).mp hkey), if_neg (Nat.not_lt_zero _)]

theorem Kept.complete {writers : List (Option ChangeWriter)} (h : Kept m rows p writers)
    {m' : SortedMap (RecordKey Identity) Bytes} (hfresh : FreshAlone m m')
    (hranked : Ranked m' ((sortDedup p.fresh).map single) (sortDedup p.fresh).length)
    (hapart : p.Apart) (horder : ∀ l ∈ p.lists, InOrder l.changes)
    (hwide : ∀ l ∈ p.lists, ∀ change ∈ l.changes, Narrow change)
    (hnarrow : ∀ serial ∈ p.fresh, serial < u64Bound) : Complete m' rows p := by
  have hlist : ∀ {parent : ℕ} {changes : List Change}, p.changesFor parent = some changes →
      ∃ (i : ℕ) (l : PlannedList), p.lists[i]? = some l ∧ l.finished = true ∧
        l.parent = parent ∧ l.changes = changes := by
    intro parent changes hchanges
    obtain ⟨l, hfind, rfl⟩ := Option.map_eq_some_iff.mp hchanges
    obtain ⟨i, hi⟩ := getElem?_of_mem (mem_of_find?_eq_some hfind)
    have hfound := find?_some hfind
    rw [Bool.and_eq_true, beq_iff_eq] at hfound
    exact ⟨i, l, hi, hfound.1, hfound.2, rfl⟩
  refine ⟨⟨fun parent i => ?_, fun parent i => ?_, h.chunked.full⟩, fun parent => ?_,
    fun hchanges => ?_, fun hchanges => ?_, hranked, hnarrow⟩
  · rw [hfresh _ _ (by decide), h.chunked.first]
  · rw [hfresh _ _ (by decide), h.chunked.changes]
  · rw [hfresh _ _ (by decide)]
    rcases hchanges : p.changesFor parent with _ | changes
    · refine h.absent parent fun i l hl hfinished hparent => ?_
      rw [← hparent, Planned.changesFor_eq hapart (mem_of_getElem? hl) hfinished] at hchanges
      cases hchanges
    · obtain ⟨i, l, hl, hfinished, rfl, rfl⟩ := hlist hchanges
      exact (h.header hl hfinished).1
  · obtain ⟨i, l, hl, hfinished, rfl, rfl⟩ := hlist hchanges
    exact (h.header hl hfinished).2
  · obtain ⟨i, l, hl, -, -, rfl⟩ := hlist hchanges
    have hmem := mem_of_getElem? hl
    exact ⟨horder l hmem, hwide l hmem⟩

def passPlan (b : Backing R Identity) (steps : List (PlanStep R)) (turns : ℕ)
    (queries : List (PlanQuery R)) (s : Spill R Identity) :
    ContentResult (Bool × List PlanAnswer) := do
  let w ← Writing.run b { spill := s } steps
  let (ended, spill) ← Merge.rank b turns none 0 w.spill
  let answers ← Asking.run b { spill } queries
  return (ended, answers)

/-- **A plan's rows answer as the pushed lists.** Rows pushed in any order across directories and
among other work, wherever chunks end and records spill, and queries in any order afterwards: point
lookups, passes over a directory, ranks and freshness answer as the plain lists. What fails is a
call of the records, or a directory given 2^64 names or written twice. -/
theorem plan_exact (hb : b.Lawful view) (hs : Refines view PlanKind s .empty)
    {steps : List (PlanStep R)} {queries : List (PlanQuery R)} {turns : ℕ}
    (hsteps : ∀ step ∈ steps, step.Minds b view)
    (hqueries : ∀ query ∈ queries, query.Minds b view)
    (hfinished : (planned {} steps).Finished)
    (horder : ∀ l ∈ (planned {} steps).lists, InOrder l.changes)
    (hwide : ∀ l ∈ (planned {} steps).lists, ∀ change ∈ l.changes, Narrow change)
    (hnarrow : ∀ serial ∈ (planned {} steps).fresh, serial < u64Bound)
    (hturns : (planned {} steps).fresh.length < turns) :
    Yields (fun e => Stops b (planned {} steps) e ∨
        ¬(planned {} steps).Apart ∧ StopsTwice b (planned {} steps) e)
      (fun o => (planned {} steps).Apart ∧ o = (true, (planned {} steps).answers [] queries))
      (passPlan b steps turns queries s) := by
  rw [passPlan]
  by_cases hapart : (planned {} steps).Apart
  · have hstart : Kept .empty (fun _ => []) {} ([] : List (Option ChangeWriter)) := by
      refine ⟨⟨fun _ _ => rfl, fun _ _ => rfl, fun _ _ h => absurd h not_mem_nil⟩,
        fun _ h => absurd rfl h, rfl, fun h => ?_, fun h => ?_, fun h => ?_, fun _ _ => rfl,
        fun _ => rfl⟩ <;> cases h
    refine ((Kept.run hb (w := { spill := s }) hs hstart hsteps hapart).weaken
      fun e => Or.inl).bind fun w hw => ?_
    obtain ⟨m₁, rows, h₁, hkept⟩ := hw
    have hall : ∀ keys : List Identity, rest keys none = keys := fun keys => filter_true keys
    have hkeys : (sortDedup (planned {} steps).fresh).map single
        = [] ++ rest ((sortDedup (planned {} steps).fresh).map single) none := by
      rw [hall]
      rfl
    refine ((rank_ranked hb hkeys h₁ hkept.ranked).weaken fun e he => .inl (.inl he)).bind
      fun o ho => ?_
    obtain ⟨ended, s₂⟩ := o
    obtain ⟨m₂, h₂, hdone, hmany, hfresh⟩ := ho
    have hended : ended = true := by
      refine hmany (lt_of_le_of_lt ?_ hturns)
      rw [hall, length_map]
      have hnodup : (sortDedup (planned {} steps).fresh).Nodup :=
        (sortDedup_ascending _).imp ne_of_lt
      exact hnodup.length_le_of_subset fun _ => mem_sortDedup.mp
    have hcomplete : Complete m₂ rows (planned {} steps) := by
      refine hkept.complete hfresh ?_ hapart horder hwide hnarrow
      have hranked := hdone hended
      rwa [length_map] at hranked
    have hright : Asking.Right view m₂ rows (planned {} steps)
        ({ spill := s₂ } : Asking R) [] := by
      refine ⟨h₂, PlanRows.Right.new, rfl, fun h => ?_⟩
      cases h
    refine ((Asking.run_answers hb hcomplete hright hqueries).weaken
      fun e he => .inl (.inl he)).bind fun answers hanswers => ?_
    exact ⟨hapart, by rw [hended, hanswers]⟩
  · have hstart : Headed .empty {} ([] : List (Option ChangeWriter)) := by
      refine ⟨rfl, fun h => ?_, fun h => ?_, fun h => ?_, fun h => ?_⟩ <;> cases h
    have hheaders : Refines view HeaderKind s .empty :=
      ⟨fun hown => hs.lookup (.inl hown), fun hown => hs.apart (.inl hown),
        fun hown => hs.spilled (.inl hown)⟩
    refine ((Headed.run hb (w := { spill := s }) hheaders hstart hsteps).weaken
      fun e he => .inr ⟨hapart, he⟩).bind fun w hw => ?_
    obtain ⟨m', hheaded⟩ := hw
    exact absurd (hheaded.apart hfinished) hapart

/-- Two directories written beside each other, and two fresh serials. -/
def planSteps : List (PlanStep (SortedMap (RecordKey Identity) Bytes)) :=
  [.start 7, .start 3, .push 0 (letter 0) (some 9), .push 1 (letter 1) none,
    .other fun s => .ok s.allocate.2, .push 0 (letter 2) none, .finish 0, .finish 1,
    .fresh 9, .fresh 4]

def planQueries : List (PlanQuery (SortedMap (RecordKey Identity) Bytes)) :=
  [.change 7 (letter 2), .change 3 (letter 1), .change 7 (letter 0),
    .other fun s => .ok s.allocate.2, .rank 9, .isNew 5, .changes 3, .next 0, .next 0]

/-- A small plan over records in memory, and every answer of it. -/
theorem plan_exact_resident :
    passPlan (resident Identity) planSteps 3 planQueries (Spill.new .empty)
      = .ok (true, [.change .removed, .change .removed, .change (.bound 9), .done,
        .rank (some 1), .isNew false, .done, .next (some (letter 1, none)),
        .next none]) := by
  have hfresh : Refines (fun r => r) PlanKind
      (Spill.new (.empty : SortedMap (RecordKey Identity) Bytes)) .empty :=
    Refines.new fun _ _ _ => rfl
  have hother : LeavesPlan (resident Identity) (fun r => r) fun s => .ok s.allocate.2 :=
    fun _ _ _ _ h => ⟨h.lookup, h.apart, h.spilled⟩
  have hlists : (planned {} planSteps).lists
      = [⟨7, [(letter 0, some 9), (letter 2, none)], true⟩,
        ⟨3, [(letter 1, none)], true⟩] := rfl
  have hfinished : ∀ l ∈ (planned {} planSteps).lists, l.finished = true := by
    rw [hlists]
    simp
  have hapart : (planned {} planSteps).Apart := by
    intro i j l l' hi hj _ _ hparent
    rw [hlists] at hi hj
    rcases i with _ | _ | i <;> rcases j with _ | _ | j <;> simp_all
    all_goals
      subst hi hj
      cases hparent
  have hturns : (planned {} planSteps).fresh.length < 3 := by decide
  have hall : Yields
      (fun e => Stops (resident Identity) (planned {} planSteps) e ∨
        ¬(planned {} planSteps).Apart ∧ StopsTwice (resident Identity) (planned {} planSteps) e)
      (fun o => (planned {} planSteps).Apart ∧
        o = (true, (planned {} planSteps).answers [] planQueries))
      (passPlan (resident Identity) planSteps 3 planQueries (Spill.new .empty)) := by
    refine plan_exact (resident_lawful Identity) hfresh ?_ ?_ (fun l hl _ => hfinished l hl) ?_ ?_
      ?_ hturns
    · simp only [planSteps, forall_mem_cons, not_mem_nil, false_imp_iff, implies_true,
        and_true, PlanStep.Minds, true_and]
      exact hother
    · simp only [planQueries, forall_mem_cons, not_mem_nil, false_imp_iff,
        implies_true, and_true, PlanQuery.Minds, true_and]
      exact hother
    · rw [hlists]
      simp only [forall_mem_cons, not_mem_nil, false_imp_iff, implies_true, and_true]
      exact ⟨pairwise_pair.mpr (by decide), pairwise_singleton _ _⟩
    · rw [hlists]
      simp only [forall_mem_cons, not_mem_nil, false_imp_iff, implies_true, and_true,
        Narrow]
      simp [u64Bound]
    · change ∀ serial ∈ [9, 4], serial < u64Bound
      simp [u64Bound]
  have hrank : (planned {} planSteps).rankOf 9 = some 1 := by
    change (if 9 ∈ [9, 4] then some ((sortDedup [9, 4]).idxOf 9) else none) = some 1
    have hsorted : sortDedup [9, 4] = [4, 9] := rfl
    rw [hsorted]
    rfl
  have hlong : ¬(planned {} planSteps).Long := by
    rintro ⟨l, hl, hlong⟩
    rw [hlists] at hl
    have hfew : l.changes.length ≤ 2 := by
      rcases mem_pair.mp hl with rfl | rfl <;> decide
    exact absurd (hlong.trans hfew) (by decide)
  have hanswers : Yields (resident Identity).Fails
      (fun o => o = (true, (planned {} planSteps).answers [] planQueries))
      (passPlan (resident Identity) planSteps 3 planQueries (Spill.new .empty)) := by
    refine (hall.mono fun o ho => ho.2).weaken fun e he => ?_
    exact (he.resolve_right fun h => h.1 hapart).resolve_right fun h => hlong h.2
  obtain ⟨o, hpass, rfl⟩ := resident_answers hanswers
  rw [hpass]
  simp only [planQueries, Planned.answers, Planned.answer, hrank]
  rfl

end LayerFs.Merge
