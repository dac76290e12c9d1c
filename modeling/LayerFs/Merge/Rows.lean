import LayerFs.Merge.Runs

/-!
# Writing a merge's plan rows (`merge/rows.rs`, `merge/build.rs`)

The plan keeps each changed directory's names in chunks under its serial, a header with their
count, and the fresh serials with their ranks. A directory's writer is fed name by name while
others are open, and the merge does other work in between.

* `Kept.replace` — **one list changes, the others keep their rows**.
-/

namespace LayerFs.Merge

open List

open Windows Wire

variable {i kind : ℕ} (name : PathName)

/-! ## Records -/

def headerKind : ℕ := 0x4D470004
def changesKind : ℕ := 0x4D470005
def firstKind : ℕ := 0x4D470006
def freshKind : ℕ := 0x4D470008

def PlanKind (kind : ℕ) : Prop :=
  kind = headerKind ∨ kind = changesKind ∨ kind = firstKind ∨ kind = freshKind

def single (a : ℕ) : Identity := pair a 0

def first (key : Identity) : ℕ := (ofLex key).1

/-- `malformed` of the plan's rows. -/
def malformedRow : ContentError := .invalidRecord "merge plan record"
def writtenTwice : ContentError := .invalidRecord "merge directory written twice"

/-! ## Reading bytes -/

namespace Cursor

/-- `Cursor::take`. -/
def take (count : ℕ) : Reading ContentError Bytes := fun bytes =>
  if bytes.length < count then .error (.invalidRecord "merge spill entry")
  else .ok (bytes.take count, bytes.drop count)

/-- `Cursor::byte`. -/
def byte : Reading ContentError ℕ := do
  let bytes ← take 1
  return bytes.headD 0

/-- `Cursor::number`. -/
def number : Reading ContentError ℕ := do
  let bytes ← take 8
  return ofBe bytes

/-- Nothing may follow (`Cursor::end`). -/
def finished : Reading ContentError Unit := fun bytes =>
  if bytes = [] then .ok ((), []) else .error (.invalidRecord "merge spill entry")

theorem reads_take (bytes : Bytes) : Reads (take bytes.length) bytes bytes := by
  intro rest
  change take bytes.length (bytes ++ rest) = _
  rw [take, if_neg (by rw [length_append]; omega), take_left, drop_left]

theorem reads_byte (b : ℕ) : Reads byte [b] b :=
  (reads_take [b]).bind (c := []) (Reads.pure _)

theorem reads_number {n : ℕ} (hn : n < u64Bound) : Reads number (be 8 n) n := by
  have htake := reads_take (be 8 n)
  rw [length_be] at htake
  have hvalue : ofBe (be 8 n) = n := by
    rw [ofBe_be]
    exact Nat.mod_eq_of_lt (hn.trans_le (by decide))
  have hread := htake.bind (f := fun bytes => Pure.pure (ofBe bytes)) (c := []) (Reads.pure _)
  rwa [append_nil, hvalue] at hread

end Cursor

/-! ## Chunks of changed names -/

/-- One changed name and the serial it binds, or none where it is removed. -/
abbrev Change := PathName × Option ℕ

def bindingBytes : Option ℕ → Bytes
  | none => [0]
  | some serial => 1 :: be 8 serial

def changeBytes (change : Change) : Bytes :=
  be 2 change.1.bytes.length ++ (change.1.bytes ++ bindingBytes change.2)

def changesOf (changes : List Change) : Bytes := changes.flatMap changeBytes

def readBinding : Reading ContentError (Option ℕ) := do
  let flag ← Cursor.byte
  if flag = 0 then return none
  else if flag = 1 then do
    let serial ← Cursor.number
    return some serial
  else throw malformedRow

def readName (bytes : Bytes) : Reading ContentError PathName := fun rest =>
  match PathName.fromBytes bytes with
  | .ok name => .ok (name, rest)
  | .error e => .error e

def readChange : Reading ContentError Change := do
  let length ← Cursor.take 2
  let name ← Cursor.take (ofBe length)
  if utf8Valid name then do
    let binding ← readBinding
    let name ← readName name
    return (name, binding)
  else throw malformedRow

/-- Changes until the bytes end: each takes bytes, so as many turns as bytes are enough. -/
def decodeFrom : ℕ → Bytes → ContentResult (List Change)
  | _, [] => .ok []
  | 0, _ :: _ => .error malformedRow
  | turns + 1, b :: bytes => do
    let (change, rest) ← readChange.run (b :: bytes)
    let changes ← decodeFrom turns rest
    return change :: changes

/-- `decode_changes`. -/
def decodeChanges (bytes : Bytes) : ContentResult (List Change) := decodeFrom bytes.length bytes

def Narrow (change : Change) : Prop := ∀ serial ∈ change.2, serial < u64Bound

theorem changesOf_append (a c : List Change) : changesOf (a ++ c) = changesOf a ++ changesOf c :=
  flatMap_append

variable {changes : List Change}

theorem changesOf_eq_nil (h : changesOf changes = []) : changes = [] := by
  rcases changes with _ | ⟨change, changes⟩
  · rfl
  · have hlength := congrArg List.length h
    rw [changesOf, flatMap_cons, length_append, changeBytes, length_append,
      length_be, length_nil] at hlength
    omega

theorem reads_binding {binding : Option ℕ} (h : ∀ serial ∈ binding, serial < u64Bound) :
    Reads readBinding (bindingBytes binding) binding := by
  rcases binding with _ | serial
  · exact (Cursor.reads_byte 0).bind (c := []) (Reads.pure _)
  · have hnumber := Cursor.reads_number (h serial rfl)
    have hrest := hnumber.bind (f := fun serial => Pure.pure (some serial)) (c := [])
      (Reads.pure _)
    rw [append_nil] at hrest
    exact (Cursor.reads_byte 1).bind hrest

theorem fromBytes_bytes : PathName.fromBytes name.bytes = .ok name := by
  rw [PathName.fromBytes]
  split
  · rfl
  · rename_i e he
    rw [name.valid] at he
    cases he

theorem utf8Valid_bytes : utf8Valid name.bytes = true := by
  have h := name.valid
  simp only [validateName, check_bind_eq_ok, ensure_eq_ok] at h
  exact h.2.2.1

theorem reads_change {change : Change} (h : Narrow change) :
    Reads readChange (changeBytes change) change := by
  obtain ⟨name, binding⟩ := change
  have hlength : ofBe (be 2 name.bytes.length) = name.bytes.length := by
    rw [ofBe_be]
    exact Nat.mod_eq_of_lt (name.length_le.trans_lt (by decide))
  have hshort := Cursor.reads_take (be 2 name.bytes.length)
  rw [length_be] at hshort
  refine hshort.bind ?_
  rw [hlength]
  refine (Cursor.reads_take name.bytes).bind ?_
  rw [if_pos (utf8Valid_bytes name)]
  have hname : Reads (readName name.bytes) [] name := by
    intro rest
    change readName name.bytes rest = _
    rw [readName, fromBytes_bytes]
  have hrest : Reads (do
      let name ← readName name.bytes
      return (name, binding)) [] (name, binding) := hname.bind (c := []) (Reads.pure _)
  have hall := (reads_binding h).bind (f := fun binding => do
    let name ← readName name.bytes
    return (name, binding)) hrest
  rwa [append_nil] at hall

/-- **A chunk gives back its names**, each with its binding. -/
theorem decodeChanges_changesOf (h : ∀ change ∈ changes, Narrow change) :
    decodeChanges (changesOf changes) = .ok changes := by
  have hturns : ∀ turns changes, (∀ change ∈ changes, Narrow change) →
      (changesOf changes).length ≤ turns → decodeFrom turns (changesOf changes) = .ok changes := by
    intro turns
    induction turns with
    | zero =>
      intro changes _ hlength
      rw [changesOf_eq_nil (eq_nil_of_length_eq_zero (Nat.le_zero.mp hlength))]
      rfl
    | succ turns ih =>
      intro changes hnarrow hlength
      rcases changes with _ | ⟨change, changes⟩
      · rfl
      rw [forall_mem_cons] at hnarrow
      have hread := reads_change hnarrow.1 (changesOf changes)
      have hcons : changesOf (change :: changes) = changeBytes change ++ changesOf changes := rfl
      rw [hcons, length_append, changeBytes, length_append, length_be] at hlength
      rw [hcons]
      rcases hbytes : changeBytes change ++ changesOf changes with _ | ⟨b, bytes⟩
      · rw [← hcons] at hbytes
        exact absurd (changesOf_eq_nil hbytes) (cons_ne_nil _ _)
      · rw [decodeFrom, ← hbytes, hread, ok_bind]
        dsimp only
        rw [ih changes hnarrow.2 (by omega)]
        rfl
  exact hturns _ changes h le_rfl

/-! ## Writers -/

variable {R : Type}

/-- Writes one directory's changed names, in name order, as chunks. -/
structure ChangeWriter where
  parent : ℕ
  count : ℕ := 0
  chunks : ℕ := 0
  chunk : Bytes := []
  first : Bytes := []

namespace ChangeWriter

/-- `ChangeWriter::new`. -/
def new (parent : ℕ) : ChangeWriter := { parent }

def flush (b : Backing R Identity) (w : ChangeWriter) (s : Spill R Identity) :
    ContentResult (ChangeWriter × Spill R Identity) :=
  if w.chunk = [] then .ok (w, s)
  else do
    let s ← s.insert b firstKind (pair w.parent w.chunks) w.first
    let s ← s.insert b changesKind (pair w.parent w.chunks) w.chunk
    -- a 64-bit counter past its end stops the program
    let chunks ← checkedAdd w.chunks 1
    return ({ w with chunks, chunk := [], first := [] }, s)

def room (b : Backing R Identity) (w : ChangeWriter) (s : Spill R Identity) (name : PathName) :
    ContentResult (ChangeWriter × Spill R Identity) :=
  if chunkBytes < w.chunk.length + name.bytes.length + 11 then w.flush b s else .ok (w, s)

def push (b : Backing R Identity) (w : ChangeWriter) (s : Spill R Identity) (name : PathName)
    (binding : Option ℕ) : ContentResult (ChangeWriter × Spill R Identity) := do
  let (w, s) ← w.room b s name
  if 2 ^ 16 ≤ name.bytes.length then throw malformedRow
  else do
    let count ← checkedAdd w.count 1
    return ({ w with
      first := if w.chunk = [] then name.bytes else w.first
      chunk := w.chunk ++ changeBytes (name, binding)
      count }, s)

/-- Writes the last chunk and the header; a parent written twice is refused. -/
def finish (b : Backing R Identity) (w : ChangeWriter) (s : Spill R Identity) :
    ContentResult (Spill R Identity) := do
  let (w, s) ← w.flush b s
  let (held, s) ← s.get b headerKind (single w.parent)
  if held.isSome then throw writtenTwice
  else s.insert b headerKind (single w.parent) (be 8 w.count ++ be 8 w.chunks)

end ChangeWriter

/-! ## The plan being written -/

/-- A plan being written: the merge's records and the writers made so far, none where one is
finished. -/
structure Writing (R : Type) where
  spill : Spill R Identity
  writers : List (Option ChangeWriter) := []

/-- One step of writing a plan. -/
inductive PlanStep (R : Type) where
  | start (parent : ℕ)
  | push (writer : ℕ) (name : PathName) (binding : Option ℕ)
  | finish (writer : ℕ)
  | fresh (serial : ℕ)
  | other (work : Spill R Identity → ContentResult (Spill R Identity))

/-- A serial new to the `into` side (`Plan::fresh`). -/
def freshSerial (b : Backing R Identity) (s : Spill R Identity) (serial : ℕ) :
    ContentResult (Spill R Identity) := do
  let (held, s) ← s.get b freshKind (single serial)
  if held.isNone then s.insert b freshKind (single serial) [] else return s

def Writing.step (b : Backing R Identity) (p : Writing R) : PlanStep R → ContentResult (Writing R)
  | .start parent => .ok { p with writers := p.writers ++ [some (.new parent)] }
  | .push writer name binding =>
    match p.writers[writer]? with
    | some (some w) => do
      let (w, spill) ← w.push b p.spill name binding
      return { spill, writers := p.writers.set writer (some w) }
    | _ => .ok p
  | .finish writer =>
    match p.writers[writer]? with
    | some (some w) => do
      let spill ← w.finish b p.spill
      return { spill, writers := p.writers.set writer none }
    | _ => .ok p
  | .fresh serial => do
    let spill ← freshSerial b p.spill serial
    return { p with spill }
  | .other work => do
    let spill ← work p.spill
    return { p with spill }

def Writing.run (b : Backing R Identity) : Writing R → List (PlanStep R) →
    ContentResult (Writing R)
  | p, [] => .ok p
  | p, step :: steps => do
    let p ← p.step b step
    Writing.run b p steps

def rankKeys (b : Backing R Identity) : List Identity → ℕ → Spill R Identity →
    ContentResult (Spill R Identity)
  | [], _, s => .ok s
  | key :: keys, rank, s => do
    let s ← s.replace b freshKind key [] (be 8 rank)
    rankKeys b keys (rank + 1) s

/-- Writes each fresh serial's rank in serial order, a window a turn (`Plan::rank`); and whether an
empty window ended the pass. -/
def rank (b : Backing R Identity) : ℕ → Option Identity → ℕ → Spill R Identity →
    ContentResult (Bool × Spill R Identity)
  | 0, _, _, s => .ok (false, s)
  | turns + 1, after, next, s => do
    let (keys, s) ← s.keysAfter b freshKind after
    match keys.getLast? with
    | none => return (true, s)
    | some last => do
      let s ← rankKeys b keys next s
      rank b turns (some last) (next + keys.length) s

/-! ## The pushed lists -/

/-- One directory's plain list. -/
structure PlannedList where
  parent : ℕ
  changes : List Change := []
  finished : Bool := false

def PlannedList.new (parent : ℕ) : PlannedList := { parent }

def PlannedList.Touched (l : PlannedList) : Prop := l.changes ≠ [] ∨ l.finished = true

/-- The plain lists that were pushed. -/
structure Planned where
  lists : List PlannedList := []
  fresh : List ℕ := []

def PlannedList.push (l : PlannedList) (change : Change) : PlannedList :=
  if l.finished then l else { l with changes := l.changes ++ [change] }

def Planned.step (p : Planned) : PlanStep R → Planned
  | .start parent => { p with lists := p.lists ++ [.new parent] }
  | .push writer name binding => { p with lists := p.lists.modify writer (·.push (name, binding)) }
  | .finish writer => { p with lists := p.lists.modify writer ({ · with finished := true }) }
  | .fresh serial => { p with fresh := p.fresh ++ [serial] }
  | .other _ => p

def planned (p : Planned) (steps : List (PlanStep R)) : Planned := steps.foldl Planned.step p

def Planned.changesFor (p : Planned) (parent : ℕ) : Option (List Change) :=
  (p.lists.find? fun l => l.finished && l.parent == parent).map (·.changes)

def Planned.Apart (p : Planned) : Prop :=
  ∀ (i j : ℕ) (l l' : PlannedList), p.lists[i]? = some l → p.lists[j]? = some l' →
    l.Touched → l'.Touched → l.parent = l'.parent → i = j

def Planned.Finished (p : Planned) : Prop := ∀ l ∈ p.lists, l.Touched → l.finished = true

@[simp]
theorem PlannedList.push_parent (l : PlannedList) (change : Change) :
    (l.push change).parent = l.parent := by
  rw [PlannedList.push]
  split_ifs <;> rfl

@[simp]
theorem PlannedList.push_finished (l : PlannedList) (change : Change) :
    (l.push change).finished = l.finished := by
  rw [PlannedList.push]
  split_ifs <;> rfl

theorem PlannedList.push_touched (l : PlannedList) (change : Change) : (l.push change).Touched := by
  rw [PlannedList.push]
  split_ifs with hfinished
  · exact .inr hfinished
  · exact .inl (concat_ne_nil _ _)

theorem PlannedList.push_changes (l : PlannedList) (change : Change) :
    l.changes.length ≤ (l.push change).changes.length := by
  rw [PlannedList.push]
  split_ifs
  · exact le_rfl
  · rw [length_append]
    exact Nat.le_add_right _ _

variable {l : PlannedList}

/-- **A step only adds to a list.** -/
theorem Planned.step_list {p : Planned} (step : PlanStep R) (h : p.lists[i]? = some l) :
    ∃ l', (p.step step).lists[i]? = some l' ∧ l'.parent = l.parent ∧
      (l.Touched → l'.Touched) ∧ l.changes.length ≤ l'.changes.length := by
  cases step with
  | start parent =>
    refine ⟨l, ?_, rfl, id, le_rfl⟩
    rw [Planned.step, getElem?_append_left (List.getElem?_eq_some_iff.mp h).1, h]
  | push writer name binding =>
    rw [Planned.step, getElem?_modify, h]
    refine ⟨_, rfl, ?_⟩
    split_ifs
    · exact ⟨l.push_parent _, fun _ => l.push_touched _, l.push_changes _⟩
    · exact ⟨rfl, id, le_rfl⟩
  | finish writer =>
    rw [Planned.step, getElem?_modify, h]
    refine ⟨_, rfl, ?_⟩
    split_ifs
    · exact ⟨rfl, fun _ => .inr rfl, le_rfl⟩
    · exact ⟨rfl, id, le_rfl⟩
  | fresh serial => exact ⟨l, h, rfl, id, le_rfl⟩
  | other work => exact ⟨l, h, rfl, id, le_rfl⟩

variable {step : PlanStep R}

theorem Planned.Apart.of_step {p : Planned} (h : (p.step step).Apart) : p.Apart := by
  intro i j l l' hi hj hl hl' hparent
  obtain ⟨m, hm, hmparent, hmtouched, -⟩ := Planned.step_list step hi
  obtain ⟨m', hm', hmparent', hmtouched', -⟩ := Planned.step_list step hj
  exact h i j m m' hm hm' (hmtouched hl) (hmtouched' hl')
    (hmparent.trans (hparent.trans hmparent'.symm))

theorem Planned.Apart.of_planned {p : Planned} {steps : List (PlanStep R)} :
    (planned p steps).Apart → p.Apart := by
  induction steps generalizing p with
  | nil => exact id
  | cons step steps ih => exact fun h => (ih h).of_step

/-- Some directory is given 2^64 names: one more than its writer counts. -/
def Planned.Long (p : Planned) : Prop := ∃ l ∈ p.lists, u64Bound ≤ l.changes.length

theorem Planned.Long.after {p : Planned} (h : p.Long) : (p.step step).Long := by
  obtain ⟨l, hl, hlong⟩ := h
  obtain ⟨i, hi⟩ := getElem?_of_mem hl
  obtain ⟨l', hl', -, -, hle⟩ := Planned.step_list step hi
  exact ⟨l', mem_of_getElem? hl', hlong.trans hle⟩

theorem Planned.Long.planned {p : Planned} {steps : List (PlanStep R)} (h : p.Long) :
    (planned p steps).Long := by
  induction steps generalizing p with
  | nil => exact h
  | cons step steps ih => exact ih h.after

theorem Planned.changesFor_eq {p : Planned} (hapart : p.Apart) (hl : l ∈ p.lists)
    (hfinished : l.finished = true) : p.changesFor l.parent = some l.changes := by
  rw [Planned.changesFor]
  rcases hfind : p.lists.find? (fun l' => l'.finished && l'.parent == l.parent) with _ | found
  · have hnone := find?_eq_none.mp hfind l hl
    rw [hfinished, beq_self_eq_true] at hnone
    exact absurd rfl hnone
  · have hfound := find?_some hfind
    rw [Bool.and_eq_true, beq_iff_eq] at hfound
    obtain ⟨i, hi⟩ := getElem?_of_mem hl
    obtain ⟨j, hj⟩ := getElem?_of_mem (mem_of_find?_eq_some hfind)
    have hij := hapart i j l found hi hj (.inr hfinished) (.inr hfound.1) hfound.2.symm
    rw [hij, hj] at hi
    cases hi
    rw [hfind]
    rfl

/-! ## One writer's records -/

variable {b : Backing R Identity} {view : R → SortedMap (RecordKey Identity) Bytes}
  {m m' : SortedMap (RecordKey Identity) Bytes} {s : Spill R Identity}

def firstOf (group : List Change) : Bytes := (group.head?.map fun change => change.1.bytes).getD []

/-- Each parent's chunks are these groups of its names. -/
structure Chunked (m : SortedMap (RecordKey Identity) Bytes) (rows : ℕ → List (List Change)) :
    Prop where
  first : ∀ parent i,
    m.get? (recordKey firstKind (pair parent i)) = ((rows parent)[i]?).map firstOf
  changes : ∀ parent i,
    m.get? (recordKey changesKind (pair parent i)) = ((rows parent)[i]?).map changesOf
  full : ∀ parent, ∀ group ∈ rows parent, group ≠ []

/-- A writer holds the end of a list behind the groups it has written. -/
structure ChangeWriter.Holds (w : ChangeWriter) (l : PlannedList) (groups : List (List Change))
    (last : List Change) : Prop where
  parent : w.parent = l.parent
  count : w.count = l.changes.length
  narrow : w.count < u64Bound
  chunks : w.chunks = groups.length
  few : w.chunks < u64Bound
  full : ∀ group ∈ groups, group ≠ []
  chunk : w.chunk = changesOf last
  first : w.first = firstOf last
  split : l.changes = groups.flatten ++ last

/-- Records of a kind that is not one of a directory's chunks stay. -/
def ChunksAlone (m m' : SortedMap (RecordKey Identity) Bytes) : Prop :=
  ∀ kind key, kind ≠ firstKind → kind ≠ changesKind →
    m'.get? (recordKey kind key) = m.get? (recordKey kind key)

/-- What ends the writing of a plan: a call of the records, or a name past the 2^64 that a
directory's counter holds. -/
def Stops (b : Backing R Identity) (p : Planned) (e : ContentError) : Prop :=
  b.Fails e ∨ e = .lengthOverflow ∧ p.Long

theorem get?_insert_kind {kind' : ℕ} {key key' : Identity} {value : Bytes} (h : kind' ≠ kind) :
    (m.insert (recordKey kind key) value).get? (recordKey kind' key')
      = m.get? (recordKey kind' key') := by
  rw [SortedMap.get?_insert, if_neg fun heq => h (recordKey_inj.mp heq).1]

variable {last : List Change}

theorem getElem?_concat_group {rows : ℕ → List (List Change)} {parent : ℕ} {f : List Change → Bytes}
    (h : ∀ p i, m.get? (recordKey kind (pair p i)) = ((rows p)[i]?).map f)
    (hm' : ∀ p i, m'.get? (recordKey kind (pair p i))
      = (m.insert (recordKey kind (pair parent (rows parent).length)) (f last)).get?
        (recordKey kind (pair p i))) (p i : ℕ) :
    m'.get? (recordKey kind (pair p i))
      = ((Function.update rows parent (rows parent ++ [last]) p)[i]?).map f := by
  rw [hm', SortedMap.get?_insert]
  by_cases hp : p = parent
  · subst hp
    rw [Function.update_self]
    by_cases hi : i = (rows p).length
    · rw [hi, if_pos rfl, getElem?_concat_length]
      rfl
    · rw [if_neg fun heq => hi (pair_inj.mp (recordKey_inj.mp heq).2).2, h]
      rcases Nat.lt_or_ge i (rows p).length with hlt | hge
      · rw [getElem?_append_left hlt]
      · rw [getElem?_eq_none hge, getElem?_eq_none (by
          rw [length_append, length_singleton]
          omega)]
  · rw [if_neg fun heq => hp (pair_inj.mp (recordKey_inj.mp heq).2).1, h,
      Function.update_of_ne hp]

variable {w : ChangeWriter}

/-- **Chunks are no more than names**, so their counter does not pass its end. -/
theorem ChangeWriter.Holds.chunks_lt {groups : List (List Change)} (hw : w.Holds l groups last)
    (hlast : last ≠ []) : w.chunks + 1 < u64Bound := by
  have hgroups : groups.length ≤ groups.flatten.length := by
    rw [length_flatten]
    refine (length_map _).symm.le.trans (length_le_sum_of_one_le _ fun n hn => ?_)
    obtain ⟨group, hgroup, rfl⟩ := mem_map.mp hn
    exact length_pos_iff.mpr (hw.full group hgroup)
  have hpos := length_pos_iff.mpr hlast
  have hnarrow := hw.narrow
  rw [hw.count, hw.split, length_append] at hnarrow
  rw [hw.chunks]
  omega

/-- **A flushed chunk is one more group.** -/
theorem ChangeWriter.flush_chunked (hb : b.Lawful view) {rows : ℕ → List (List Change)}
    (h : Refines view PlanKind s m) (hm : Chunked m rows) (hw : w.Holds l (rows l.parent) last) :
    Yields b.Fails (fun r => ∃ m' groups, Refines view PlanKind r.2 m' ∧
        Chunked m' (Function.update rows l.parent groups) ∧ r.1.Holds l groups [] ∧
        ChunksAlone m m')
      (w.flush b s) := by
  rw [ChangeWriter.flush]
  split_ifs with hempty
  · obtain rfl := changesOf_eq_nil (hw.chunk.symm.trans hempty)
    refine ⟨m, rows l.parent, h, ?_, hw, fun _ _ _ _ => rfl⟩
    rwa [Function.update_eq_self]
  · have hne : last ≠ [] := by
      rintro rfl
      exact hempty hw.chunk
    have hfirst : m.get? (recordKey firstKind (pair w.parent w.chunks)) = none := by
      rw [hw.parent, hw.chunks, hm.first, getElem?_eq_none le_rfl, Option.map_none]
    have hchanges : (m.insert (recordKey firstKind (pair w.parent w.chunks)) w.first).get?
        (recordKey changesKind (pair w.parent w.chunks)) = none := by
      rw [get?_insert_kind (by decide), hw.parent, hw.chunks, hm.changes,
        getElem?_eq_none le_rfl, Option.map_none]
    refine (h.insert hb (.inr (.inr (.inl rfl))) w.first hfirst).bind fun s₁ h₁ => ?_
    refine (h₁.insert hb (.inr (.inl rfl)) w.chunk hchanges).bind fun s₂ h₂ => ?_
    have hfew := hw.chunks_lt hne
    rw [checkedAdd_eq_ok.mpr ⟨hfew, rfl⟩]
    refine ⟨_, rows l.parent ++ [last], h₂, ⟨?_, ?_, ?_⟩, ?_, ?_⟩
    · refine getElem?_concat_group hm.first fun p i => ?_
      rw [get?_insert_kind (by decide), hw.parent, hw.chunks, hw.first]
    · refine getElem?_concat_group hm.changes fun p i => ?_
      have hkinds : recordKey changesKind (pair p i)
          ≠ recordKey firstKind (pair l.parent (rows l.parent).length) :=
        fun heq => absurd (recordKey_inj.mp heq).1 (by decide)
      rw [hw.parent, hw.chunks, hw.chunk, SortedMap.get?_insert, SortedMap.get?_insert,
        SortedMap.get?_insert, if_neg hkinds]
    · intro parent group hgroup
      by_cases hp : parent = l.parent
      · subst hp
        rw [Function.update_self, mem_append, mem_singleton] at hgroup
        rcases hgroup with hgroup | rfl
        · exact hm.full _ group hgroup
        · exact hne
      · rw [Function.update_of_ne hp] at hgroup
        exact hm.full parent group hgroup
    · refine ⟨hw.parent, hw.count, hw.narrow, ?_, hfew, ?_, rfl, rfl, ?_⟩
      · rw [length_append, length_singleton]
        exact congrArg (· + 1) hw.chunks
      · intro group hgroup
        rcases mem_append.mp hgroup with hgroup | hgroup
        · exact hw.full group hgroup
        · rw [mem_singleton.mp hgroup]
          exact hne
      · rw [flatten_append, flatten_singleton, append_nil, hw.split]
    · intro kind key hne₁ hne₂
      rw [get?_insert_kind hne₂, get?_insert_kind hne₁]

/-- **A name joins its list.** -/
theorem ChangeWriter.push_chunked (hb : b.Lawful view) {rows : ℕ → List (List Change)}
    (h : Refines view PlanKind s m) (hm : Chunked m rows) (hw : w.Holds l (rows l.parent) last)
    (hopen : l.finished = false) (name : PathName) (binding : Option ℕ) :
    Yields (fun e => b.Fails e ∨
        e = .lengthOverflow ∧ u64Bound ≤ (l.push (name, binding)).changes.length)
      (fun r => ∃ m' groups last', Refines view PlanKind r.2 m' ∧
        Chunked m' (Function.update rows l.parent groups) ∧
        r.1.Holds (l.push (name, binding)) groups last' ∧ ChunksAlone m m')
      (w.push b s name binding) := by
  have hroom : Yields b.Fails (fun r => ∃ m' groups last', Refines view PlanKind r.2 m' ∧
      Chunked m' (Function.update rows l.parent groups) ∧ r.1.Holds l groups last' ∧
      ChunksAlone m m') (w.room b s name) := by
    rw [ChangeWriter.room]
    split_ifs
    · refine (ChangeWriter.flush_chunked hb h hm hw).mono fun r hr => ?_
      obtain ⟨m', groups, hm', hchunked, hholds, halone⟩ := hr
      exact ⟨m', groups, [], hm', hchunked, hholds, halone⟩
    · refine ⟨m, rows l.parent, last, h, ?_, hw, fun _ _ _ _ => rfl⟩
      rwa [Function.update_eq_self]
  have hpush : (l.push (name, binding)).changes = l.changes ++ [(name, binding)] := by
    rw [PlannedList.push, hopen]
    rfl
  rw [ChangeWriter.push]
  refine (hroom.weaken fun e => Or.inl).bind fun r hr => ?_
  obtain ⟨w', s'⟩ := r
  obtain ⟨m', groups, last', hm', hchunked, hholds, halone⟩ := hr
  dsimp only at hholds hm' ⊢
  rw [if_neg (not_le_of_gt (name.length_le.trans_lt (by decide)))]
  rcases hadd : checkedAdd w'.count 1 with e | count
  · rw [checkedAdd] at hadd
    split_ifs at hadd with hlong
    cases hadd
    rw [hholds.count] at hlong
    exact .inr ⟨rfl, by rw [hpush, length_append]; exact not_lt.mp hlong⟩
  obtain ⟨hnarrow, rfl⟩ := checkedAdd_eq_ok.mp hadd
  refine ⟨m', groups, last' ++ [(name, binding)], hm', hchunked, ?_, halone⟩
  refine ⟨hholds.parent.trans (l.push_parent _).symm, ?_, hnarrow, hholds.chunks, hholds.few,
    hholds.full, ?_, ?_, ?_⟩
  · rw [hpush, length_append, length_singleton]
    exact congrArg (· + 1) hholds.count
  · rw [changesOf_append, hholds.chunk]
    exact congrArg _ (append_nil _).symm
  · dsimp only
    rcases last' with _ | ⟨change, last'⟩
    · have hnil : w'.chunk = [] := hholds.chunk
      rw [if_pos hnil]
      rfl
    · rw [if_neg fun hnil => ?_, hholds.first]
      · rfl
      · exact cons_ne_nil _ _ (changesOf_eq_nil (hholds.chunk.symm.trans hnil))
  · rw [hpush, hholds.split, append_assoc]

/-- **A finished list has its header.** -/
theorem ChangeWriter.finish_chunked (hb : b.Lawful view) {rows : ℕ → List (List Change)}
    (h : Refines view PlanKind s m) (hm : Chunked m rows) (hw : w.Holds l (rows l.parent) last)
    (habsent : m.get? (recordKey headerKind (single l.parent)) = none) :
    Yields b.Fails (fun s' => ∃ m' groups, Refines view PlanKind s' (m'.insert
        (recordKey headerKind (single l.parent)) (be 8 l.changes.length ++ be 8 groups.length)) ∧
        Chunked m' (Function.update rows l.parent groups) ∧ l.changes = groups.flatten ∧
        l.changes.length < u64Bound ∧ groups.length < u64Bound ∧ ChunksAlone m m')
      (w.finish b s) := by
  rw [ChangeWriter.finish]
  refine (ChangeWriter.flush_chunked hb h hm hw).bind fun r hr => ?_
  obtain ⟨w', s'⟩ := r
  obtain ⟨m', groups, hm', hchunked, hholds, halone⟩ := hr
  dsimp only at hholds hm' ⊢
  have hheader : PlanKind headerKind := .inl rfl
  have hnone : m'.get? (recordKey headerKind (single w'.parent)) = none := by
    rw [halone headerKind _ (by decide) (by decide), hholds.parent, habsent]
  refine (hm'.get hb hheader).bind fun r hr => ?_
  obtain ⟨held, s₁⟩ := r
  obtain ⟨rfl, h₁⟩ := hr
  dsimp only at h₁ ⊢
  rw [if_neg (by rw [hnone]; exact Bool.false_ne_true)]
  refine (h₁.insert hb hheader _ hnone).mono fun s₂ h₂ => ?_
  rw [hholds.parent, hholds.count, hholds.chunks] at h₂
  refine ⟨m', groups, h₂, hchunked, ?_, ?_, ?_, halone⟩
  · rw [hholds.split, append_nil]
  · rw [← hholds.count]
    exact hholds.narrow
  · rw [← hholds.chunks]
    exact hholds.few

/-! ## All the lists -/

/-- A piece of the merge that leaves the plan's rows alone; its errors are those of the records. -/
def LeavesPlan (b : Backing R Identity) (view : R → SortedMap (RecordKey Identity) Bytes)
    (work : Spill R Identity → ContentResult (Spill R Identity)) : Prop :=
  ∀ own : ℕ → Prop, (∀ kind, own kind → PlanKind kind) → ∀ s m, Refines view own s m →
    Yields b.Fails (fun s' => Refines view own s' m) (work s)

/-- **What the records tell of the lists** while they are written. -/
structure Kept (m : SortedMap (RecordKey Identity) Bytes) (rows : ℕ → List (List Change))
    (p : Planned) (writers : List (Option ChangeWriter)) : Prop where
  chunked : Chunked m rows
  owner : ∀ parent, rows parent ≠ [] →
    ∃ (i : ℕ) (l : PlannedList), p.lists[i]? = some l ∧ l.parent = parent ∧ l.Touched
  length : writers.length = p.lists.length
  unfinished : ∀ {i : ℕ} {l : PlannedList}, p.lists[i]? = some l → l.finished = false →
    ∃ w groups last, writers[i]? = some (some w) ∧ w.Holds l groups last ∧
      (l.changes ≠ [] → rows l.parent = groups)
  gone : ∀ {i : ℕ} {l : PlannedList}, p.lists[i]? = some l → l.finished = true →
    writers[i]? = some none
  header : ∀ {i : ℕ} {l : PlannedList}, p.lists[i]? = some l → l.finished = true →
    m.get? (recordKey headerKind (single l.parent))
        = some (be 8 l.changes.length ++ be 8 (rows l.parent).length) ∧
      l.changes = (rows l.parent).flatten ∧ l.changes.length < u64Bound ∧
      (rows l.parent).length < u64Bound
  absent : ∀ parent, (∀ (i : ℕ) (l : PlannedList), p.lists[i]? = some l → l.finished = true →
    l.parent ≠ parent) → m.get? (recordKey headerKind (single parent)) = none
  fresh : ∀ key, m.get? (recordKey freshKind key)
    = if key ∈ p.fresh.map single then some [] else none

variable {rows : ℕ → List (List Change)} {p : Planned} {writers : List (Option ChangeWriter)}

def Planned.Sole (p : Planned) (i : ℕ) (l : PlannedList) : Prop :=
  ∀ (j : ℕ) (l' : PlannedList), p.lists[j]? = some l' → l'.Touched → l'.parent = l.parent → j = i

variable {l' : PlannedList}

theorem Planned.Apart.sole (h : (p.step step).Apart) (hl : p.lists[i]? = some l)
    (hl' : (p.step step).lists[i]? = some l') (htouched : l'.Touched) : p.Sole i l := by
  intro j k hk hktouched hparent
  obtain ⟨k', hk', hkparent, hktouched', -⟩ := Planned.step_list step hk
  obtain ⟨l'', hl'', hlparent, -, -⟩ := Planned.step_list step hl
  rw [hl'] at hl''
  cases hl''
  exact h j i k' l' hk' hl' (hktouched' hktouched) htouched
    (hkparent.trans (hparent.trans hlparent.symm))

theorem Kept.writer (h : Kept m rows p writers) (hl : p.lists[i]? = some l)
    (hfinished : l.finished = false) (hsole : p.Sole i l) :
    ∃ w last, writers[i]? = some (some w) ∧ w.Holds l (rows l.parent) last := by
  obtain ⟨w, groups, last, hw, hholds, hrows⟩ := h.unfinished hl hfinished
  refine ⟨w, last, hw, ?_⟩
  by_cases hchanges : l.changes = []
  · have hgroups : groups = [] := by
      rcases groups with _ | ⟨group, groups⟩
      · rfl
      · have hsplit := hholds.split
        rw [hchanges, flatten_cons, append_assoc] at hsplit
        exact absurd (append_eq_nil_iff.mp hsplit.symm).1
          (hholds.full group mem_cons_self)
    have hnone : rows l.parent = [] := by
      by_contra hne
      obtain ⟨j, l', hl', hparent, htouched⟩ := h.owner _ hne
      have hj := hsole j l' hl' htouched hparent
      rw [hj, hl] at hl'
      cases hl'
      rcases htouched with htouched | htouched
      · exact htouched hchanges
      · rw [hfinished] at htouched
        cases htouched
    rw [hnone, ← hgroups]
    exact hholds
  · rw [hrows hchanges]
    exact hholds

theorem Kept.no_list (h : Kept m rows p writers) (hl : p.lists[i]? = none) :
    writers[i]? = none := by
  rw [List.getElem?_eq_none_iff] at hl ⊢
  exact h.length.trans_le hl

/-- **One list changes**: the others keep their writers, chunks and headers. -/
theorem Kept.replace (h : Kept m rows p writers) {groups : List (List Change)}
    {writer : Option ChangeWriter} (hl : p.lists[i]? = some l) (hopen : l.finished = false)
    (hsole : p.Sole i l) (hparent : l'.parent = l.parent) (htouched : l'.Touched)
    (hchunked : Chunked m' (Function.update rows l.parent groups))
    (hstill : l'.finished = false → ∃ w last, writer = some w ∧ w.Holds l' groups last)
    (hdone : l'.finished = true → writer = none ∧
      m'.get? (recordKey headerKind (single l.parent))
        = some (be 8 l'.changes.length ++ be 8 groups.length) ∧
      l'.changes = groups.flatten ∧ l'.changes.length < u64Bound ∧ groups.length < u64Bound)
    (hother : ∀ kind key, kind ≠ firstKind → kind ≠ changesKind →
      (l'.finished = true → recordKey kind key ≠ recordKey headerKind (single l.parent)) →
      m'.get? (recordKey kind key) = m.get? (recordKey kind key)) :
    Kept m' (Function.update rows l.parent groups) { p with lists := p.lists.set i l' }
      (writers.set i writer) := by
  have hi := (List.getElem?_eq_some_iff.mp hl).1
  have hself : (p.lists.set i l')[i]? = some l' := getElem?_set_self hi
  have hwriter : (writers.set i writer)[i]? = some writer :=
    getElem?_set_self (h.length.symm ▸ hi)
  -- a touched list elsewhere has another parent
  have hapart : ∀ {j : ℕ} {k : PlannedList}, j ≠ i → p.lists[j]? = some k → k.Touched →
      k.parent ≠ l.parent := fun hj hk hktouched heq => hj (hsole _ _ hk hktouched heq)
  refine ⟨hchunked, fun parent hne => ?_, ?_, ?_, ?_, ?_, ?_, fun key => ?_⟩
  · by_cases hp : parent = l.parent
    · exact ⟨i, l', hself, hparent.trans hp.symm, htouched⟩
    · rw [Function.update_of_ne hp] at hne
      obtain ⟨j, k, hk, hkparent, hktouched⟩ := h.owner parent hne
      have hj : i ≠ j := by
        rintro rfl
        rw [hl] at hk
        cases hk
        exact hp hkparent.symm
      exact ⟨j, k, (getElem?_set_ne hj).trans hk, hkparent, hktouched⟩
  · rw [length_set, length_set, h.length]
  · intro j k hk hfinished
    by_cases hj : j = i
    · subst hj
      rw [hself] at hk
      cases hk
      obtain ⟨w, last, rfl, hholds⟩ := hstill hfinished
      refine ⟨w, groups, last, hwriter, hholds, fun _ => ?_⟩
      rw [hparent, Function.update_self]
    · rw [getElem?_set_ne (Ne.symm hj)] at hk
      obtain ⟨w, groups', last, hw, hholds, hrows⟩ := h.unfinished hk hfinished
      refine ⟨w, groups', last, (getElem?_set_ne (Ne.symm hj)).trans hw, hholds,
        fun hne => ?_⟩
      rw [Function.update_of_ne (hapart hj hk (.inl hne)), hrows hne]
  · intro j k hk hfinished
    by_cases hj : j = i
    · subst hj
      rw [hself] at hk
      cases hk
      rw [hwriter, (hdone hfinished).1]
    · rw [getElem?_set_ne (Ne.symm hj)] at hk
      rw [getElem?_set_ne (Ne.symm hj), h.gone hk hfinished]
  · intro j k hk hfinished
    by_cases hj : j = i
    · subst hj
      rw [hself] at hk
      cases hk
      rw [hparent, Function.update_self]
      exact (hdone hfinished).2
    · rw [getElem?_set_ne (Ne.symm hj)] at hk
      have hne := hapart hj hk (.inr hfinished)
      rw [Function.update_of_ne hne, hother headerKind _ (by decide) (by decide)]
      · exact h.header hk hfinished
      · exact fun _ heq => hne (pair_inj.mp (recordKey_inj.mp heq).2).1
  · intro parent hnone
    have hp : l'.finished = true → parent ≠ l.parent := fun hfinished heq =>
      hnone i l' hself hfinished (hparent.trans heq.symm)
    rw [hother headerKind _ (by decide) (by decide)]
    · refine h.absent parent fun j k hk hfinished => ?_
      by_cases hj : j = i
      · subst hj
        rw [hl] at hk
        cases hk
        rw [hopen] at hfinished
        cases hfinished
      · exact hnone j k ((getElem?_set_ne (Ne.symm hj)).trans hk) hfinished
    · exact fun hfinished heq => hp hfinished (pair_inj.mp (recordKey_inj.mp heq).2).1
  · rw [hother freshKind key (by decide) (by decide), h.fresh]
    exact fun _ heq => absurd (recordKey_inj.mp heq).1 (by decide)

end LayerFs.Merge
