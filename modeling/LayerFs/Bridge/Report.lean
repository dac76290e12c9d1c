import LayerFs.Bridge.Record

/-!
# Conflict reports on the control wire (`control_merge.rs`)

A report is bounded by its record: conflicts and lines are written while they fit, and a flag says
that some were left out. How many conflicts are kept is decided from their paths before any hunk
is written; a conflict's hunks are all written once 64 bytes are left before it.

* `putReport_appends` — **what is written** of a report.
-/

namespace LayerFs.Bridge

open List

open Wire

/-- One conflicting chunk. -/
structure Hunk where
  /-- output line (1-based) of the block's opening marker -/
  line : ℕ
  ours : List Text
  theirs : List Text
  deriving DecidableEq

/-- Kind of one conflicting path. -/
inductive ConflictKind where
  | content
  | addAdd
  | modifyDelete
  | deleteModify
  | type
  | binary
  | markers
  | mode
  deriving DecidableEq, Repr

/-- One conflicting path. -/
structure Conflict where
  path : Text
  kind : ConflictKind
  /-- marker blocks written into the file, in order -/
  hunks : List Hunk
  deriving DecidableEq

/-- One path a last-writer-wins rule decided. -/
structure LwwDecision where
  path : Text
  keptOurs : Bool
  /-- the kept side had deleted the path -/
  deleted : Bool
  rule : Text
  deriving DecidableEq

/-- A refused Commit: the merge conflicted, or marker blocks remain. -/
structure ConflictReport where
  head : Option CommitId
  /-- head the Workspace was bound to before the merge -/
  base : Option CommitId
  /-- files still hold marker blocks (no merge ran) -/
  markers : Bool
  conflicts : List Conflict
  lww : List LwwDecision
  /-- paths the merge changed in the Workspace -/
  written : List Text
  truncated : Bool

/-! ## Writing -/

def decisionSize (value : LwwDecision) : ℕ :=
  min value.path.length textFieldLimit + min value.rule.length textFieldLimit + 5

def putDecision (value : LwwDecision) : Writer Unit := do
  putText (clip value.path.bytes)
  putText (clip value.rule.bytes)
  putByte (value.keptOurs.toNat + 2 * value.deleted.toNat)

def putLww (values : List LwwDecision) : Writer Bool := putItems decisionSize putDecision values

def kinds : List ConflictKind :=
  [.content, .addAdd, .modifyDelete, .deleteModify, .type, .binary, .markers, .mode]

def kindByte (kind : ConflictKind) : ℕ := (kinds.findIdx? (· == kind)).elim 0 (· + 1)

def putHunks : List Hunk → Writer Bool
  | [] => pure false
  | hunk :: hunks => do
    put (be 4 hunk.line)
    let ours ← putLines hunk.ours
    let theirs ← putLines hunk.theirs
    let rest ← putHunks hunks
    pure (ours || theirs || rest)

def putConflicts : List Conflict → Writer Bool
  | [] => pure false
  | conflict :: conflicts => do
    putText (clip conflict.path.bytes)
    putByte (kindByte conflict.kind)
    let out ← get
    let n := (conflict.hunks.takeWhile fun _ => fits out.length 64).length
    put (be 2 n)
    let hunks ← putHunks (conflict.hunks.take n)
    let rest ← putConflicts conflicts
    pure (n < conflict.hunks.length || hunks || rest)

def pathSize (conflict : Conflict) : ℕ := min conflict.path.length textFieldLimit + 8

def putReport (value : ConflictReport) : Writer Unit := do
  putHead value.head
  putHead value.base
  putBoolean value.markers
  let out ← get
  let n := kept out.length pathSize 0 value.conflicts
  put (be 2 n)
  let conflicts ← putConflicts (value.conflicts.take n)
  let lww ← putLww value.lww
  -- the written paths are written as lines are
  let written ← putLines value.written
  putBoolean (value.truncated || n < value.conflicts.length || conflicts || lww || written)

/-! ## Reading -/

def decision : Reader LwwDecision := do
  let path ← text textFieldLimit
  let rule ← text textFieldLimit
  let flags ← byte
  if 3 < flags then throw ⟨"lww flags"⟩
  else pure ⟨path, flags % 2 == 1, flags / 2 == 1, rule⟩

def lww : Reader (List LwwDecision) := items decision

def kind : Reader ConflictKind := do
  let index ← byte
  if index = 0 then throw ⟨"conflict kind"⟩
  else
    match kinds[index - 1]? with
    | some kind => pure kind
    | none => throw ⟨"conflict kind"⟩

def hunk : Reader Hunk := do
  let line ← number 4
  let ours ← lines
  let theirs ← lines
  pure ⟨line, ours, theirs⟩

def conflict : Reader Conflict := do
  let path ← text textFieldLimit
  let kind ← kind
  let hunks ← items hunk
  pure ⟨path, kind, hunks⟩

def report : Reader ConflictReport := do
  let head ← head
  let base ← Bridge.head
  let markers ← boolean
  let conflicts ← items conflict
  let lww ← lww
  let written ← lines
  let truncated ← boolean
  pure ⟨head, base, markers, conflicts, lww, written, truncated⟩

/-- A fresh Answer record that holds a conflict report: magic, correlation and tag. -/
def record (id : ℕ) : List ℕ := [0x4C, 0x46, 0x53, 0x41, 0x02] ++ be 8 id ++ [19]

/-! ## Reports within the field limit -/

def Hunk.Within (h : Hunk) : Prop :=
  (∀ line ∈ h.ours, line.length ≤ textFieldLimit) ∧
    ∀ line ∈ h.theirs, line.length ≤ textFieldLimit

def Conflict.Within (c : Conflict) : Prop :=
  c.path.length ≤ textFieldLimit ∧ ∀ h ∈ c.hunks, h.Within

def LwwDecision.Within (v : LwwDecision) : Prop :=
  v.path.length ≤ textFieldLimit ∧ v.rule.length ≤ textFieldLimit

/-- Every text of the report is within the field limit. -/
structure ConflictReport.Within (r : ConflictReport) : Prop where
  conflicts : ∀ c ∈ r.conflicts, c.Within
  lww : ∀ v ∈ r.lww, v.Within
  written : ∀ line ∈ r.written, line.length ≤ textFieldLimit

/-! ## What is written of a hunk -/

def lineBytes (line : Text) : List ℕ := textBytes line.bytes

/-- Where a hunk ends that starts behind `n` bytes. -/
def hunkEnd (n : ℕ) (h : Hunk) : ℕ := itemsEnd (itemsEnd (n + 4) lineSize h.ours) lineSize h.theirs

/-- Where hunks end that start behind `n` bytes. -/
def hunksEnd (n : ℕ) (hs : List Hunk) : ℕ := hs.foldl hunkEnd n

/-- The bytes of hunks behind `n` bytes. -/
def hunksBytes : ℕ → List Hunk → List ℕ
  | _, [] => []
  | n, h :: hs =>
    be 4 h.line ++ (itemsBytes (n + 4) lineSize lineBytes h.ours ++
      (itemsBytes (itemsEnd (n + 4) lineSize h.ours) lineSize lineBytes h.theirs ++
        hunksBytes (hunkEnd n h) hs))

def hunkKept (n : ℕ) (h : Hunk) : Hunk where
  line := h.line % 256 ^ 4
  ours := h.ours.take (kept (n + 4) lineSize 0 h.ours)
  theirs := h.theirs.take (kept (itemsEnd (n + 4) lineSize h.ours) lineSize 0 h.theirs)

def hunksKept : ℕ → List Hunk → List Hunk
  | _, [] => []
  | n, h :: hs => hunkKept n h :: hunksKept (hunkEnd n h) hs

def hunksCut : ℕ → List Hunk → Bool
  | _, [] => false
  | n, h :: hs =>
    decide (kept (n + 4) lineSize 0 h.ours < h.ours.length) ||
      decide (kept (itemsEnd (n + 4) lineSize h.ours) lineSize 0 h.theirs < h.theirs.length) ||
      hunksCut (hunkEnd n h) hs

theorem length_lines {l : List Text} (h : ∀ line ∈ l, line.length ≤ textFieldLimit) (n : ℕ) :
    n + (itemsBytes n lineSize lineBytes l).length = itemsEnd n lineSize l :=
  length_itemsBytes (fun line hline => length_lineBytes (h line hline)) n

theorem length_hunksBytes {hs : List Hunk} (hwithin : ∀ h ∈ hs, h.Within) (n : ℕ) :
    n + (hunksBytes n hs).length = hunksEnd n hs := by
  induction hs generalizing n with
  | nil => rfl
  | cons h hs ih =>
    obtain ⟨hours, htheirs⟩ := hwithin h mem_cons_self
    have hrest := ih (fun h' hh' => hwithin h' (mem_cons_of_mem h hh')) (hunkEnd n h)
    have h₁ := length_lines hours (n + 4)
    have h₂ := length_lines htheirs (itemsEnd (n + 4) lineSize h.ours)
    rw [hunksBytes, hunksEnd, foldl_cons, ← hunksEnd, ← hrest, length_append,
      length_append, length_append, length_be, hunkEnd, ← h₂, ← h₁]
    omega

theorem putLines_behind {l : List Text} (h : ∀ line ∈ l, line.length ≤ textFieldLimit)
    {out : List ℕ} {n : ℕ} (hn : out.length = n) :
    Appends (putLines l) out (itemsBytes n lineSize lineBytes l)
      (decide (kept n lineSize 0 l < l.length)) := by
  subst hn
  exact putLines_appends h out

theorem putHunks_appends {hs : List Hunk} (hwithin : ∀ h ∈ hs, h.Within) {out : List ℕ} {n : ℕ}
    (hn : out.length = n) (hout : out.length ≤ recordLimit) :
    Appends (putHunks hs) out (hunksBytes n hs) (hunksCut n hs) := by
  induction hs generalizing out n with
  | nil => exact Writes.pure hout false
  | cons h hs ih =>
    obtain ⟨hours, htheirs⟩ := hwithin h mem_cons_self
    have h₁ := length_lines hours (n + 4)
    have h₂ := length_lines htheirs (itemsEnd (n + 4) lineSize h.ours)
    rw [putHunks, hunksBytes, hunksCut, ← append_nil (hunksBytes _ hs)]
    apply (put_appends out _).bind
    intro _
    apply (putLines_behind hours (by rw [length_append, length_be, hn])).bind
    intro _
    apply (putLines_behind htheirs (by
      rw [length_append, length_append, length_be, hn, h₁])).bind
    intro hfits
    apply (ih (fun h' hh' => hwithin h' (mem_cons_of_mem h hh')) _ hfits).bind
    · intro hfits
      exact Writes.pure hfits _
    · rw [length_append, length_append, length_append, length_be, hn, h₁, h₂,
        hunkEnd]

/-! ## What is written of the conflicts -/

/-- How many hunks of a conflict are written: all of them when 64 bytes are left behind its path
and kind. -/
def hunksWritten (n : ℕ) (c : Conflict) : ℕ :=
  if fits (n + c.path.length + 3) 64 then c.hunks.length else 0

/-- Where a conflict ends that starts behind `n` bytes. -/
def conflictEnd (n : ℕ) (c : Conflict) : ℕ :=
  hunksEnd (n + c.path.length + 5) (c.hunks.take (hunksWritten n c))

/-- Where conflicts end that start behind `n` bytes. -/
def conflictsEnd (n : ℕ) (cs : List Conflict) : ℕ := cs.foldl conflictEnd n

/-- The bytes of a conflict behind `n` bytes. -/
def conflictBytes (n : ℕ) (c : Conflict) : List ℕ :=
  textBytes c.path.bytes ++ ([kindByte c.kind] ++ (be 2 (hunksWritten n c) ++
    hunksBytes (n + c.path.length + 5) (c.hunks.take (hunksWritten n c))))

def conflictsBytes : ℕ → List Conflict → List ℕ
  | _, [] => []
  | n, c :: cs => conflictBytes n c ++ conflictsBytes (conflictEnd n c) cs

def conflictKept (n : ℕ) (c : Conflict) : Conflict where
  path := c.path
  kind := c.kind
  hunks := hunksKept (n + c.path.length + 5) (c.hunks.take (hunksWritten n c))

def conflictsKept : ℕ → List Conflict → List Conflict
  | _, [] => []
  | n, c :: cs => conflictKept n c :: conflictsKept (conflictEnd n c) cs

def conflictsCut : ℕ → List Conflict → Bool
  | _, [] => false
  | n, c :: cs =>
    decide (hunksWritten n c < c.hunks.length) ||
      hunksCut (n + c.path.length + 5) (c.hunks.take (hunksWritten n c)) ||
      conflictsCut (conflictEnd n c) cs

theorem length_conflictBytes {c : Conflict} (hwithin : c.Within) (n : ℕ) :
    n + (conflictBytes n c).length = conflictEnd n c := by
  have hwritten : ∀ h ∈ c.hunks.take (hunksWritten n c), h.Within :=
    fun h hh => hwithin.2 h (mem_of_mem_take hh)
  have h := length_hunksBytes hwritten (n + c.path.length + 5)
  rw [conflictBytes, conflictEnd, ← h, length_append, length_append, length_append,
    length_textBytes, length_be, length_singleton, Text.length]
  omega

theorem length_conflictsBytes {cs : List Conflict} (hwithin : ∀ c ∈ cs, c.Within) (n : ℕ) :
    n + (conflictsBytes n cs).length = conflictsEnd n cs := by
  induction cs generalizing n with
  | nil => rfl
  | cons c cs ih =>
    have hc := length_conflictBytes (hwithin c mem_cons_self) n
    have hrest := ih (fun c' hc' => hwithin c' (mem_cons_of_mem c hc')) (conflictEnd n c)
    rw [conflictsBytes, conflictsEnd, foldl_cons, ← conflictsEnd, ← hrest,
      length_append, ← hc, Nat.add_assoc]

theorem takeWhile_const (b : Bool) (l : List Hunk) :
    (l.takeWhile fun _ => b).length = if b then l.length else 0 := by
  cases b
  · rcases l with _ | ⟨h, l⟩ <;> rfl
  · rw [if_pos rfl]
    induction l with
    | nil => rfl
    | cons h l ih => rw [takeWhile_cons_of_pos rfl, length_cons, length_cons, ih]

theorem putConflicts_appends {cs : List Conflict} (hwithin : ∀ c ∈ cs, c.Within) {out : List ℕ}
    {n : ℕ} (hn : out.length = n) (hout : out.length ≤ recordLimit) :
    Appends (putConflicts cs) out (conflictsBytes n cs) (conflictsCut n cs) := by
  induction cs generalizing out n with
  | nil => exact Writes.pure hout false
  | cons c cs ih =>
    have hc := hwithin c mem_cons_self
    rw [putConflicts, conflictsBytes, conflictsCut, conflictBytes, clip_eq hc.1,
      ← append_nil (conflictsBytes _ cs)]
    simp only [append_assoc]
    apply (putText_appends hc.1 out).bind
    intro _
    apply (put_appends _ [kindByte c.kind]).bind
    intro _
    apply Writes.get
    have hlength : (out ++ textBytes c.path.bytes ++ [kindByte c.kind]).length
        = n + c.path.length + 3 := by
      rw [length_append, length_append, length_textBytes, length_singleton, hn,
        Text.length]
      omega
    rw [takeWhile_const, hlength, ← hunksWritten]
    apply (put_appends _ _).bind
    intro hfits
    apply (putHunks_appends (fun h hh => hc.2 h (mem_of_mem_take hh)) _ hfits).bind
    · intro hfits
      apply (ih (fun c' hc' => hwithin c' (mem_cons_of_mem c hc')) _ hfits).bind
      · intro hfits
        exact Writes.pure hfits _
      · have := length_conflictBytes hc n
        rw [← this, conflictBytes, length_append, length_append, length_append,
          length_append, hn]
        simp only [length_append]
        omega
    · rw [length_append, length_be, hlength]

/-! ## What is written of a report -/

def decisionBytes (v : LwwDecision) : List ℕ :=
  textBytes v.path.bytes ++ (textBytes v.rule.bytes ++ [v.keptOurs.toNat + 2 * v.deleted.toNat])

theorem length_decisionBytes {v : LwwDecision} (h : v.Within) :
    (decisionBytes v).length = decisionSize v := by
  rw [decisionBytes, decisionSize, min_eq_left h.1, min_eq_left h.2, length_append,
    length_append, length_textBytes, length_textBytes, length_singleton, Text.length,
    Text.length]
  omega

theorem putLww_behind {l : List LwwDecision} (h : ∀ v ∈ l, v.Within) {out : List ℕ} {n : ℕ}
    (hn : out.length = n) :
    Appends (putLww l) out (itemsBytes n decisionSize decisionBytes l)
      (decide (kept n decisionSize 0 l < l.length)) := by
  subst hn
  apply putItems_appends
  intro v hv out
  rw [putDecision, clip_eq (h v hv).1, clip_eq (h v hv).2]
  apply (putText_appends (h v hv).1 out).bind
  intro _
  apply (putText_appends (h v hv).2 _).bind
  intro _
  exact put_appends _ _

namespace ConflictReport

variable (r : ConflictReport)

def start : ℕ := 14 + (headBytes r.head).length + (headBytes r.base).length + 1

def carried : List Conflict := r.conflicts.take (Bridge.kept r.start pathSize 0 r.conflicts)

def conflictsStop : ℕ := conflictsEnd (r.start + 2) r.carried

def lwwStop : ℕ := itemsEnd r.conflictsStop decisionSize r.lww

def cut : Bool :=
  r.truncated || decide (Bridge.kept r.start pathSize 0 r.conflicts < r.conflicts.length) ||
    conflictsCut (r.start + 2) r.carried ||
    decide (Bridge.kept r.conflictsStop decisionSize 0 r.lww < r.lww.length) ||
    decide (Bridge.kept r.lwwStop lineSize 0 r.written < r.written.length)

def bytes : List ℕ :=
  headBytes r.head ++ (headBytes r.base ++ ([r.markers.toNat] ++
    (be 2 (Bridge.kept r.start pathSize 0 r.conflicts) ++ (conflictsBytes (r.start + 2) r.carried ++
      (itemsBytes r.conflictsStop decisionSize decisionBytes r.lww ++
        (itemsBytes r.lwwStop lineSize lineBytes r.written ++ [r.cut.toNat]))))))

def readBack : ConflictReport where
  head := r.head
  base := r.base
  markers := r.markers
  conflicts := conflictsKept (r.start + 2) r.carried
  lww := r.lww.take (Bridge.kept r.conflictsStop decisionSize 0 r.lww)
  written := r.written.take (Bridge.kept r.lwwStop lineSize 0 r.written)
  truncated := r.cut

end ConflictReport

theorem length_record (id : ℕ) : (record id).length = 14 := by
  rw [record, length_append, length_append, length_be]
  rfl

theorem length_headBytes (value : Option CommitId) : (headBytes value).length ≤ 34 := by
  rcases value with _ | id
  · exact Nat.le_of_ble_eq_true rfl
  · rw [headBytes, length_cons, id.tagged.1]

theorem ConflictReport.Within.carried {r : ConflictReport} (h : r.Within) :
    ∀ c ∈ r.carried, c.Within :=
  fun c hc => h.conflicts c (mem_of_mem_take hc)

/-- **What is written** of a report, when it fits the record. -/
theorem putReport_appends {r : ConflictReport} (h : r.Within) (id : ℕ) :
    Appends (putReport r) (record id) r.bytes () := by
  have hrecord := length_record id
  have hhead := length_headBytes r.head
  have hlimit := recordLimit_eq
  rw [putReport, ConflictReport.bytes]
  apply (putHead_appends (by
    rw [length_append, hrecord, length_singleton]; omega) r.head).bind
  intro _
  apply (putHead_appends (by
    rw [length_append, length_append, hrecord, length_singleton]; omega) r.base).bind
  intro _
  apply (put_appends _ [r.markers.toNat]).bind
  intro _
  apply Writes.get
  have hstart : (record id ++ headBytes r.head ++ headBytes r.base ++ [r.markers.toNat]).length
      = r.start := by
    rw [length_append, length_append, length_append, hrecord, length_singleton,
      ConflictReport.start]
  rw [hstart]
  generalize record id ++ headBytes r.head ++ headBytes r.base ++ [r.markers.toNat] = out at *
  apply (put_appends out _).bind
  intro hfits
  have hcount : (out ++ be 2 (kept r.start pathSize 0 r.conflicts)).length = r.start + 2 := by
    rw [length_append, length_be, hstart]
  apply (putConflicts_appends h.carried hcount hfits).bind
  intro _
  have hconflicts := length_conflictsBytes h.carried (r.start + 2)
  have hlww := length_itemsBytes (fun v hv => length_decisionBytes (h.lww v hv)) r.conflictsStop
  apply (putLww_behind h.lww (by
    rw [length_append, hcount, hconflicts, ConflictReport.conflictsStop])).bind
  intro _
  apply (putLines_behind h.written (by
    rw [length_append, length_append, hcount, hconflicts, ← ConflictReport.conflictsStop,
      hlww, ConflictReport.lwwStop])).bind
  intro _
  exact put_appends _ _

end LayerFs.Bridge
