import LayerFs.Merge.Spill
import LayerFs.Support.Wire

/-!
# Runs and stacks of a merge (`merge/spill.rs`)

A run is written once and read once, in order; a stack keeps its older entries in chunks. Both keep
their chunks among the merge's records, each under a number of its own, while the rest of the merge
does what it does with the other records.

* `passRun_fifo` — **a run gives back every entry in the order written**.
* `SpillStack.steps_lifo` — **a stack gives back the last entry first**.
-/

namespace LayerFs.Merge

open List

open Windows Wire

variable (entry : Bytes)

abbrev Identity := ℕ ×ₗ ℕ

def pair (a c : ℕ) : Identity := toLex (a, c)

def runKind : ℕ := 0x4D470001
def stackKind : ℕ := 0x4D470002
def chunkBytes : ℕ := 60 * 1024

instance : OrderBot Identity where
  bot := pair 0 0
  bot_le := fun key => Prod.Lex.le_iff.mpr (by
    rcases Nat.eq_zero_or_pos (ofLex key).1 with h | h
    · exact .inr ⟨h.symm, Nat.zero_le _⟩
    · exact .inl h)

variable {R : Type}

/-! ## Chunks -/

def entryBytes (entry : Bytes) : Bytes := be 4 entry.length ++ entry

def chunkOf (entries : List Bytes) : Bytes := entries.flatMap entryBytes

def decodeChunk (bytes : Bytes) : ContentResult (List Bytes) :=
  if bytes = [] then .ok []
  else if bytes.length < 4 then .error malformed
  else
    let length := ofBe (bytes.take 4)
    if bytes.length < 4 + length then .error malformed
    else do
      let rest ← decodeChunk (bytes.drop (4 + length))
      return (bytes.drop 4).take length :: rest
  termination_by bytes.length
  decreasing_by
    rw [length_drop]
    omega

def Fits (entry : Bytes) : Prop := 4 + entry.length ≤ chunkBytes

theorem length_entryBytes : (entryBytes entry).length = 4 + entry.length := by
  rw [entryBytes, length_append, length_be]

theorem chunkOf_append (a c : List Bytes) : chunkOf (a ++ c) = chunkOf a ++ chunkOf c :=
  flatMap_append

theorem chunkOf_singleton : chunkOf [entry] = entryBytes entry :=
  append_nil _

/-- **A chunk gives back its entries.** -/
theorem decodeChunk_chunkOf : ∀ {entries : List Bytes}, (∀ entry ∈ entries, Fits entry) →
    decodeChunk (chunkOf entries) = .ok entries
  | [], _ => by
    rw [decodeChunk]
    rfl
  | entry :: entries, h => by
    rw [forall_mem_cons] at h
    have hchunk : chunkOf (entry :: entries) = be 4 entry.length ++ (entry ++ chunkOf entries) := by
      rw [chunkOf, flatMap_cons, entryBytes, append_assoc]
      rfl
    have hlength : ofBe (be 4 entry.length) = entry.length := by
      rw [ofBe_be]
      refine Nat.mod_eq_of_lt (lt_of_le_of_lt (Nat.le_add_left _ 4) (h.1.trans_lt ?_))
      decide
    have htake : (chunkOf (entry :: entries)).take 4 = be 4 entry.length := by
      rw [hchunk, take_append_of_le_length (by rw [length_be]), take_of_length_le
        (by rw [length_be])]
    have hdrop : (chunkOf (entry :: entries)).drop 4 = entry ++ chunkOf entries := by
      rw [hchunk]
      exact drop_left' (length_be 4 _)
    have hall : (chunkOf (entry :: entries)).length
        = 4 + entry.length + (chunkOf entries).length := by
      rw [hchunk, length_append, length_be, length_append, Nat.add_assoc]
    rw [decodeChunk, if_neg (ne_nil_of_length_pos (by omega)), if_neg (by omega)]
    dsimp only
    rw [htake, hlength, if_neg (by omega), ← drop_drop, hdrop, drop_left, take_left,
      decodeChunk_chunkOf h.2]
    rfl

/-! ## The code -/

/-- One written run: its number and chunk count. -/
structure Run where
  id : ℕ
  chunks : ℕ

/-- Writes entries, in the caller's order, as one run. -/
structure RunWriter where
  id : ℕ
  chunks : ℕ := 0
  chunk : Bytes := []

namespace RunWriter

/-- `RunWriter::new`. -/
def new (s : Spill R Identity) : RunWriter × Spill R Identity :=
  ({ id := s.allocate.1 }, s.allocate.2)

def flush (b : Backing R Identity) (w : RunWriter) (s : Spill R Identity) :
    ContentResult (RunWriter × Spill R Identity) :=
  if w.chunk = [] then .ok (w, s)
  else do
    let s ← s.insert b runKind (pair w.id w.chunks) w.chunk
    return ({ w with chunks := w.chunks + 1, chunk := [] }, s)

def room (b : Backing R Identity) (w : RunWriter) (s : Spill R Identity) (entry : Bytes) :
    ContentResult (RunWriter × Spill R Identity) :=
  if chunkBytes < w.chunk.length + 4 + entry.length then w.flush b s else .ok (w, s)

def push (b : Backing R Identity) (w : RunWriter) (s : Spill R Identity) (entry : Bytes) :
    ContentResult (RunWriter × Spill R Identity) :=
  if chunkBytes < 4 + entry.length then .error malformed
  else do
    let (w, s) ← w.room b s entry
    return ({ w with chunk := w.chunk ++ entryBytes entry }, s)

def finish (b : Backing R Identity) (w : RunWriter) (s : Spill R Identity) :
    ContentResult (Run × Spill R Identity) := do
  let (w, s) ← w.flush b s
  return (⟨w.id, w.chunks⟩, s)

end RunWriter

/-- Reads one run in order. -/
structure RunReader where
  run : Run
  read : ℕ := 0
  entries : List Bytes := []

def RunReader.next (b : Backing R Identity) (r : RunReader) (s : Spill R Identity) :
    ContentResult (Option Bytes × RunReader × Spill R Identity) :=
  match r.entries with
  | entry :: rest => .ok (some entry, { r with entries := rest }, s)
  | [] =>
    -- the chunks read never pass the chunks written
    if r.read < r.run.chunks then do
      let (bytes, s) ← s.take b runKind (pair r.run.id r.read)
      let bytes ← orError bytes malformed
      let entries ← decodeChunk bytes
      RunReader.next b { r with read := r.read + 1, entries } s
    else .ok (none, r, s)
  termination_by r.run.chunks - r.read

/-- A last-in first-out stack whose older entries spill to chunks. -/
structure SpillStack where
  id : ℕ
  top : List Bytes := []
  bytes : ℕ := 0
  /-- slots of the chunks below `top`, last on top; a slot is never reused -/
  slots : List ℕ := []
  next : ℕ := 0

namespace SpillStack

/-- `SpillStack::new`. -/
def new (s : Spill R Identity) : SpillStack × Spill R Identity :=
  ({ id := s.allocate.1 }, s.allocate.2)

def room (b : Backing R Identity) (st : SpillStack) (s : Spill R Identity) (entry : Bytes) :
    ContentResult (SpillStack × Spill R Identity) :=
  if chunkBytes < st.bytes + 4 + entry.length then do
    let s ← s.insert b stackKind (pair st.id st.next) (chunkOf st.top)
    return (⟨st.id, [], 0, st.slots ++ [st.next], st.next + 1⟩, s)
  else .ok (st, s)

def push (b : Backing R Identity) (st : SpillStack) (s : Spill R Identity) (entry : Bytes) :
    ContentResult (SpillStack × Spill R Identity) := do
  let (st, s) ← st.room b s entry
  return ({ st with bytes := st.bytes + (4 + entry.length), top := st.top ++ [entry] }, s)

def refill (b : Backing R Identity) (st : SpillStack) (s : Spill R Identity) :
    ContentResult (SpillStack × Spill R Identity) :=
  if st.top = [] then
    match st.slots.getLast? with
    | some slot => do
      let (bytes, s) ← s.take b stackKind (pair st.id slot)
      let bytes ← orError bytes malformed
      let top ← decodeChunk bytes
      return (⟨st.id, top, (top.map fun entry => 4 + entry.length).sum, st.slots.dropLast,
        st.next⟩, s)
    | none => .ok (st, s)
  else .ok (st, s)

def pop (b : Backing R Identity) (st : SpillStack) (s : Spill R Identity) :
    ContentResult (Option Bytes × SpillStack × Spill R Identity) := do
  let (st, s) ← st.refill b s
  match st.top.getLast? with
  | some entry =>
    return (some entry,
      { st with top := st.top.dropLast, bytes := st.bytes - (4 + entry.length) }, s)
  | none => return (none, st, s)

end SpillStack

/-! ## The rest of the merge -/

section

variable {b : Backing R Identity} {view : R → SortedMap (RecordKey Identity) Bytes}
  {own : ℕ → Prop}

/-- **A piece of the merge that leaves one number's records alone**, whatever it does with the
others; its errors are those of the records. -/
def Leaves (b : Backing R Identity) (view : R → SortedMap (RecordKey Identity) Bytes)
    (own : ℕ → Prop) (kind id : ℕ) (other : Spill R Identity → ContentResult (Spill R Identity)) :
    Prop :=
  ∀ s m, Refines view own s m → Yields b.Fails (fun s' => ∃ m', Refines view own s' m' ∧
    ∀ i, m'.get? (recordKey kind (pair id i)) = m.get? (recordKey kind (pair id i))) (other s)

theorem pair_inj {a c a' c' : ℕ} : pair a c = pair a' c' ↔ a = a' ∧ c = c' := by
  rw [pair, pair, toLex_inj, Prod.mk.injEq]

theorem Leaves.take (hb : b.Lawful view) {kind id : ℕ} {kind' : ℕ} {key : Identity}
    (hown : own kind') (hother : ∀ i, recordKey kind (pair id i) ≠ recordKey kind' key) :
    Leaves b view own kind id fun s => do
      let (_, s) ← s.take b kind' key
      return s := by
  intro s m h
  refine (h.take hb hown).bind fun r hr => ?_
  obtain ⟨-, m', hm', hrest⟩ := hr
  exact ⟨m', hm', fun i => hrest _ (hother i)⟩

/-! ## Runs -/

/-- What a writer has written: whole chunks among the records, the last entries in its own. -/
def RunWriter.Holds (m : SortedMap (RecordKey Identity) Bytes) (w : RunWriter)
    (entries : List Bytes) : Prop :=
  ∃ (groups : List (List Bytes)) (last : List Bytes), w.chunks = groups.length ∧
    (∀ i, m.get? (recordKey runKind (pair w.id i)) = (groups[i]?).map chunkOf) ∧
    w.chunk = chunkOf last ∧ entries = groups.flatten ++ last ∧ ∀ entry ∈ entries, Fits entry

def RunReader.Holds (m : SortedMap (RecordKey Identity) Bytes) (r : RunReader)
    (entries : List Bytes) : Prop :=
  ∃ groups : List (List Bytes), r.run.chunks = r.read + groups.length ∧
    (∀ i group, groups[i]? = some group →
      m.get? (recordKey runKind (pair r.run.id (r.read + i))) = some (chunkOf group)) ∧
    entries = r.entries ++ groups.flatten ∧ ∀ entry ∈ entries, Fits entry

variable {m m' : SortedMap (RecordKey Identity) Bytes} {s : Spill R Identity}
  {entries : List Bytes}

variable {w : RunWriter}
theorem RunWriter.Holds.congr (h : w.Holds m entries)
    (heq : ∀ i, m'.get? (recordKey runKind (pair w.id i))
      = m.get? (recordKey runKind (pair w.id i))) : w.Holds m' entries := by
  obtain ⟨groups, last, hchunks, hrows, hlast⟩ := h
  exact ⟨groups, last, hchunks, fun i => (heq i).trans (hrows i), hlast⟩

theorem RunReader.Holds.congr {r : RunReader} (h : r.Holds m entries)
    (heq : ∀ i, m'.get? (recordKey runKind (pair r.run.id i))
      = m.get? (recordKey runKind (pair r.run.id i))) : r.Holds m' entries := by
  obtain ⟨groups, hchunks, hrows, hentries⟩ := h
  exact ⟨groups, hchunks, fun i group hgroup => (heq _).trans (hrows i group hgroup), hentries⟩

theorem chunkOf_eq_nil {last : List Bytes} (h : chunkOf last = []) : last = [] := by
  rcases last with _ | ⟨entry, last⟩
  · rfl
  · have hlength := congrArg List.length h
    rw [chunkOf, flatMap_cons, length_append, length_entryBytes,
      length_nil] at hlength
    omega

theorem RunWriter.flush_holds (hb : b.Lawful view) (hrun : own runKind) (h : Refines view own s m)
    (hw : w.Holds m entries) :
    Yields b.Fails (fun r => ∃ m', Refines view own r.2 m' ∧ r.1.Holds m' entries ∧
      r.1.id = w.id ∧ r.1.chunk = []) (w.flush b s) := by
  obtain ⟨groups, last, hchunks, hrows, hlast, hentries, hfits⟩ := hw
  rw [RunWriter.flush]
  split_ifs with hempty
  · exact ⟨m, h, ⟨groups, last, hchunks, hrows, hlast, hentries, hfits⟩, rfl, hempty⟩
  · have habsent : m.get? (recordKey runKind (pair w.id w.chunks)) = none := by
      rw [hrows, hchunks, getElem?_eq_none le_rfl, Option.map_none]
    refine (h.insert hb hrun w.chunk habsent).bind fun s' hs' => ?_
    refine ⟨_, hs', ⟨groups ++ [last], [], ?_, fun i => ?_, rfl, ?_, hfits⟩, rfl, rfl⟩
    · rw [length_append, hchunks, length_singleton]
    · rw [SortedMap.get?_insert, hchunks]
      by_cases hi : i = groups.length
      · rw [if_pos (by rw [hi]), hi, getElem?_concat_length, hlast]
        rfl
      · rw [if_neg fun heq => hi (pair_inj.mp (recordKey_inj.mp heq).2).2, hrows]
        rcases Nat.lt_or_ge i groups.length with hlt | hge
        · rw [getElem?_append_left hlt]
        · rw [getElem?_eq_none hge, getElem?_eq_none (by
            rw [length_append, length_singleton]
            omega)]
    · rw [hentries, flatten_append, flatten_singleton, append_nil]

/-- **An entry joins the run.** -/
theorem RunWriter.push_holds (hb : b.Lawful view) (hrun : own runKind) (h : Refines view own s m)
    (hw : w.Holds m entries) (entry : Bytes) :
    Yields (fun e => b.Fails e ∨ e = malformed ∧ ¬Fits entry)
      (fun r => ∃ m', Refines view own r.2 m' ∧ r.1.Holds m' (entries ++ [entry]) ∧
        r.1.id = w.id) (w.push b s entry) := by
  have hroom : Yields b.Fails (fun r => ∃ m', Refines view own r.2 m' ∧ r.1.Holds m' entries ∧
      r.1.id = w.id) (w.room b s entry) := by
    rw [RunWriter.room]
    split_ifs
    · refine (w.flush_holds hb hrun h hw).mono fun r hr => ?_
      obtain ⟨m', hm', hholds, hid, -⟩ := hr
      exact ⟨m', hm', hholds, hid⟩
    · exact ⟨m, h, hw, rfl⟩
  rw [RunWriter.push]
  split_ifs with hlong
  · exact .inr ⟨rfl, not_le_of_gt hlong⟩
  · refine (hroom.weaken fun e => Or.inl).bind fun r hr => ?_
    obtain ⟨m', hm', ⟨groups, last, hchunks, hrows, hlast, hentries, hfits⟩, hid⟩ := hr
    refine ⟨m', hm', ⟨groups, last ++ [entry], hchunks, hrows, ?_, ?_, ?_⟩, hid⟩
    · rw [chunkOf_append, chunkOf_singleton, ← hlast]
    · rw [hentries, append_assoc]
    · intro e he
      rcases mem_append.mp he with he | he
      · exact hfits e he
      · rw [mem_singleton.mp he]
        exact not_lt.mp hlong

/-- **A finished run is ahead of its reader.** -/
theorem RunWriter.finish_holds (hb : b.Lawful view) (hrun : own runKind) (h : Refines view own s m)
    (hw : w.Holds m entries) :
    Yields b.Fails (fun r => ∃ m', Refines view own r.2 m' ∧
      RunReader.Holds m' { run := r.1 } entries ∧ r.1.id = w.id) (w.finish b s) := by
  rw [RunWriter.finish]
  refine (w.flush_holds hb hrun h hw).bind fun r hr => ?_
  obtain ⟨m', hm', ⟨groups, last, hchunks, hrows, hlast, hentries, hfits⟩, hid, hempty⟩ := hr
  obtain rfl := chunkOf_eq_nil (hlast.symm.trans hempty)
  refine ⟨m', hm', ⟨groups, ?_, fun i group hgroup => ?_, ?_, hfits⟩, hid⟩
  · exact hchunks.trans (Nat.zero_add _).symm
  · have hrow := hrows i
    rw [hgroup] at hrow
    rwa [Nat.zero_add]
  · rw [hentries, append_nil]
    rfl

/-- **A reader gives the next entry**, or nothing at the end. -/
theorem RunReader.next_holds (hb : b.Lawful view) (hrun : own runKind) :
    ∀ {n : ℕ} {r : RunReader} {s : Spill R Identity} {m : SortedMap (RecordKey Identity) Bytes},
      r.run.chunks - r.read = n → Refines view own s m → r.Holds m entries →
      Yields b.Fails (fun o => o.1 = entries.head? ∧ ∃ m', Refines view own o.2.2 m' ∧
        o.2.1.Holds m' entries.tail ∧ o.2.1.run = r.run) (r.next b s) := by
  intro n
  induction n with
  | zero =>
    intro r s m hn h hr
    obtain ⟨groups, hchunks, hrows, hentries, hfits⟩ := hr
    obtain rfl : groups = [] := eq_nil_of_length_eq_zero (by omega)
    rw [RunReader.next]
    rw [flatten_nil, append_nil] at hentries
    rcases hheld : r.entries with _ | ⟨entry, rest⟩
    · dsimp only
      rw [if_neg (by omega)]
      rw [hheld] at hentries
      subst hentries
      exact ⟨rfl, m, h, ⟨[], hchunks, hrows, by rw [hheld]; rfl, hfits⟩, rfl⟩
    · rw [hheld] at hentries
      subst hentries
      refine ⟨rfl, m, h, ⟨[], hchunks, hrows, by simp, ?_⟩, rfl⟩
      exact fun e he => hfits e (mem_cons_of_mem _ he)
  | succ n ih =>
    intro r s m hn h hr
    obtain ⟨groups, hchunks, hrows, hentries, hfits⟩ := hr
    rw [RunReader.next]
    rcases hheld : r.entries with _ | ⟨entry, rest⟩
    · -- the next chunk is read, and its record released
      rw [hheld, nil_append] at hentries
      subst hentries
      obtain ⟨group, groups, rfl⟩ : ∃ group rest, groups = group :: rest :=
        exists_cons_of_ne_nil (ne_nil_of_length_pos (by omega))
      rw [length_cons] at hchunks
      dsimp only
      rw [if_pos (by omega)]
      have hrow := hrows 0 group rfl
      rw [Nat.add_zero] at hrow
      have hgroup : ∀ entry ∈ group, Fits entry := by
        intro entry hentry
        exact hfits entry (mem_append_left _ hentry)
      refine (h.take hb hrun).bind fun o ho => ?_
      obtain ⟨bytes, s₁⟩ := o
      obtain ⟨rfl, m', hm', hrest⟩ := ho
      dsimp only
      rw [hrow, orError]
      refine Yields.bind (P := fun bytes => bytes = chunkOf group) rfl fun bytes hbytes => ?_
      rw [hbytes, decodeChunk_chunkOf hgroup]
      refine Yields.bind (P := fun found => found = group) rfl fun found hfound => ?_
      rw [hfound]
      have hholds : RunReader.Holds m' { r with read := r.read + 1, entries := group }
          (group :: groups).flatten := by
        refine ⟨groups, ?_, fun i g hg => ?_, rfl, hfits⟩
        · dsimp only
          omega
        · have hrow' := hrows (i + 1) g hg
          dsimp only
          rw [hrest _ fun heq => ?_, Nat.add_assoc, Nat.add_comm 1]
          · exact hrow'
          · obtain ⟨-, heq⟩ := recordKey_inj.mp heq
            have hi := (pair_inj.mp heq).2
            omega
      have hmeasure : ({ r with read := r.read + 1, entries := group } : RunReader).run.chunks
          - ({ r with read := r.read + 1, entries := group } : RunReader).read = n := by
        dsimp only
        omega
      exact ih hmeasure hm' hholds
    · rw [hheld] at hentries
      subst hentries
      refine ⟨rfl, m, h, ⟨groups, hchunks, hrows, rfl, ?_⟩, rfl⟩
      exact fun e he => hfits e (mem_cons_of_mem _ he)

def RunWriter.pushAll (b : Backing R Identity) :
    List ((Spill R Identity → ContentResult (Spill R Identity)) × Bytes) → RunWriter →
      Spill R Identity → ContentResult (RunWriter × Spill R Identity)
  | [], w, s => .ok (w, s)
  | (other, entry) :: later, w, s => do
    let s ← other s
    let (w, s) ← w.push b s entry
    RunWriter.pushAll b later w s

def RunReader.nextAll (b : Backing R Identity) :
    List (Spill R Identity → ContentResult (Spill R Identity)) → RunReader →
      Spill R Identity → ContentResult (List (Option Bytes))
  | [], _, _ => .ok []
  | other :: later, r, s => do
    let s ← other s
    let (entry, r, s) ← r.next b s
    let entries ← RunReader.nextAll b later r s
    return entry :: entries

def passRun (b : Backing R Identity)
    (writes : List ((Spill R Identity → ContentResult (Spill R Identity)) × Bytes))
    (reads : List (Spill R Identity → ContentResult (Spill R Identity))) (s : Spill R Identity) :
    ContentResult (List (Option Bytes)) := do
  let (w, s) := RunWriter.new s
  let (w, s) ← w.pushAll b writes s
  let (run, s) ← w.finish b s
  RunReader.nextAll b reads { run } s

variable {writes : List ((Spill R Identity → ContentResult (Spill R Identity)) × Bytes)}

theorem RunWriter.pushAll_holds (hb : b.Lawful view) (hrun : own runKind) :
    ∀ {w : RunWriter} {s : Spill R Identity} {m : SortedMap (RecordKey Identity) Bytes}
      {entries : List Bytes}, (∀ write ∈ writes, Leaves b view own runKind w.id write.1) →
      Refines view own s m → w.Holds m entries →
      Yields (fun e => b.Fails e ∨ e = malformed ∧ ∃ write ∈ writes, ¬Fits write.2)
        (fun r => ∃ m', Refines view own r.2 m' ∧
          r.1.Holds m' (entries ++ writes.map Prod.snd) ∧ r.1.id = w.id)
        (w.pushAll b writes s) := by
  induction writes with
  | nil =>
    intro w s m entries _ h hw
    exact ⟨m, h, by rwa [map_nil, append_nil], rfl⟩
  | cons write writes ih =>
    intro w s m entries hothers h hw
    rw [forall_mem_cons] at hothers
    obtain ⟨other, entry⟩ := write
    rw [RunWriter.pushAll]
    refine ((hothers.1 s m h).weaken fun e => Or.inl).bind fun s₁ hs₁ => ?_
    obtain ⟨m₁, h₁, heq⟩ := hs₁
    refine ((RunWriter.push_holds hb hrun h₁ (hw.congr heq) entry).weaken fun e he =>
      he.imp_right fun he => ⟨he.1, _, mem_cons_self, he.2⟩).bind fun r hr => ?_
    obtain ⟨m₂, h₂, hholds, hid⟩ := hr
    have hlater : ∀ write ∈ writes, Leaves b view own runKind r.1.id write.1 := by
      rw [hid]
      exact hothers.2
    refine ((ih hlater h₂ hholds).weaken fun e he => ?_).mono fun r' hr' => ?_
    · refine he.imp_right fun ⟨he, write, hwrite, hlong⟩ => ⟨he, write, ?_, hlong⟩
      exact mem_cons_of_mem _ hwrite
    · obtain ⟨m₃, h₃, hholds', hid'⟩ := hr'
      rw [append_assoc] at hholds'
      exact ⟨m₃, h₃, hholds', hid'.trans hid⟩

def drained (entries : List Bytes) (n : ℕ) : List (Option Bytes) :=
  (List.range n).map fun i => entries[i]?

theorem drained_succ (entries : List Bytes) (n : ℕ) :
    drained entries (n + 1) = entries.head? :: drained entries.tail n := by
  rw [drained, range_succ_eq_map, map_cons, map_map, head?_eq_getElem?]
  refine congrArg (entries[0]? :: ·) (map_congr_left fun i _ => ?_)
  rw [getElem?_tail]
  rfl

variable {reads : List (Spill R Identity → ContentResult (Spill R Identity))}

theorem RunReader.nextAll_holds (hb : b.Lawful view) (hrun : own runKind) :
    ∀ {r : RunReader} {s : Spill R Identity} {m : SortedMap (RecordKey Identity) Bytes}
      {entries : List Bytes}, (∀ other ∈ reads, Leaves b view own runKind r.run.id other) →
      Refines view own s m → r.Holds m entries →
      Yields b.Fails (fun answers => answers = drained entries reads.length)
        (r.nextAll b reads s) := by
  induction reads with
  | nil => exact fun _ _ _ => rfl
  | cons other reads ih =>
    intro r s m entries hothers h hr
    rw [forall_mem_cons] at hothers
    rw [RunReader.nextAll]
    refine (hothers.1 s m h).bind fun s₁ hs₁ => ?_
    obtain ⟨m₁, h₁, heq⟩ := hs₁
    refine (RunReader.next_holds hb hrun rfl h₁ (hr.congr heq)).bind fun o ho => ?_
    obtain ⟨entry, r', s₂⟩ := o
    obtain ⟨rfl, m₂, h₂, hholds, hid⟩ := ho
    have hlater : ∀ other ∈ reads, Leaves b view own runKind r'.run.id other := by
      rw [hid]
      exact hothers.2
    refine (ih hlater h₂ hholds).bind fun answers hanswers => ?_
    rw [hanswers, length_cons, drained_succ]
    rfl

/-- **A run gives back every entry in the order written**, and nothing behind the last, whatever the
rest of the merge does in between; only an entry longer than a chunk is refused. -/
theorem passRun_fifo (hb : b.Lawful view) (hrun : own runKind) (h : Refines view own s m)
    (hfresh : ∀ i, m.get? (recordKey runKind (pair s.next i)) = none)
    (hwrites : ∀ write ∈ writes, Leaves b view own runKind s.next write.1)
    (hreads : ∀ other ∈ reads, Leaves b view own runKind s.next other) :
    Yields (fun e => b.Fails e ∨ e = malformed ∧ ∃ write ∈ writes, ¬Fits write.2)
      (fun answers => answers = drained (writes.map Prod.snd) reads.length)
      (passRun b writes reads s) := by
  have hnew : (RunWriter.new s).1.Holds m [] :=
    ⟨[], [], rfl, fun i => hfresh i, rfl, rfl, by simp⟩
  have hstart : Refines view own (RunWriter.new s).2 m := ⟨h.lookup, h.apart, h.spilled⟩
  rw [passRun]
  refine (RunWriter.pushAll_holds hb hrun hwrites hstart hnew).bind fun r hr => ?_
  obtain ⟨m₁, h₁, hholds, hid⟩ := hr
  refine ((RunWriter.finish_holds hb hrun h₁ hholds).weaken fun e => Or.inl).bind fun r' hr' => ?_
  obtain ⟨m₂, h₂, hreader, hid'⟩ := hr'
  have hothers : ∀ other ∈ reads, Leaves b view own runKind r'.1.id other := by
    rw [hid', hid]
    exact hreads
  exact (RunReader.nextAll_holds hb hrun hothers h₂ hreader).weaken fun e => Or.inl

/-! ## Stacks -/

/-- What a stack holds, the last entry first: whole chunks among the records, the last in memory. -/
def SpillStack.Holds (m : SortedMap (RecordKey Identity) Bytes) (st : SpillStack)
    (entries : List Bytes) : Prop :=
  ∃ groups : List (List Bytes),
    List.Forall₂ (fun slot group => group ≠ [] ∧ slot < st.next ∧
      m.get? (recordKey stackKind (pair st.id slot)) = some (chunkOf group)) st.slots groups ∧
    st.slots.Nodup ∧
    (∀ slot, st.next ≤ slot → m.get? (recordKey stackKind (pair st.id slot)) = none) ∧
    st.bytes = (chunkOf st.top).length ∧ entries = (groups.flatten ++ st.top).reverse ∧
    ∀ entry ∈ entries, Fits entry

variable {st : SpillStack}

theorem SpillStack.Holds.congr (h : st.Holds m entries)
    (heq : ∀ i, m'.get? (recordKey stackKind (pair st.id i))
      = m.get? (recordKey stackKind (pair st.id i))) : st.Holds m' entries := by
  obtain ⟨groups, hrows, hnodup, hfree, hrest⟩ := h
  refine ⟨groups, hrows.imp fun slot group ⟨hne, hlt, hrow⟩ => ⟨hne, hlt, ?_⟩, hnodup,
    fun slot hslot => (heq slot).trans (hfree slot hslot), hrest⟩
  rw [heq, hrow]

theorem slots_lt {next : ℕ} {row : ℕ → List Bytes → Prop} {slots : List ℕ}
    {groups : List (List Bytes)}
    (h : List.Forall₂ (fun slot group => group ≠ [] ∧ slot < next ∧ row slot group) slots groups) :
    ∀ slot ∈ slots, slot < next := by
  induction h with
  | nil => exact fun slot hslot => absurd hslot not_mem_nil
  | cons hrow _ ih => exact forall_mem_cons.mpr ⟨hrow.2.1, ih⟩

/-- **An entry goes on top.** -/
theorem SpillStack.push_holds (hb : b.Lawful view) (hstack : own stackKind)
    (h : Refines view own s m) (hst : st.Holds m entries) {entry : Bytes} (hfits : Fits entry) :
    Yields b.Fails (fun r => ∃ m', Refines view own r.2 m' ∧ r.1.Holds m' (entry :: entries) ∧
      r.1.id = st.id) (st.push b s entry) := by
  have hroom : Yields b.Fails (fun r => ∃ m', Refines view own r.2 m' ∧ r.1.Holds m' entries ∧
      r.1.id = st.id) (st.room b s entry) := by
    rw [SpillStack.room]
    split_ifs with hfull
    · obtain ⟨groups, hrows, hnodup, hfree, hbytes, hentries, hall⟩ := hst
      have hne : st.top ≠ [] := by
        intro hnil
        rw [Fits] at hfits
        rw [hbytes, hnil] at hfull
        exact absurd hfull (not_lt_of_ge (by simpa [chunkOf] using hfits))
      refine (h.insert hb hstack (chunkOf st.top) (hfree st.next le_rfl)).bind fun s' hs' => ?_
      have hother : ∀ slot, slot ≠ st.next →
          (m.insert (recordKey stackKind (pair st.id st.next)) (chunkOf st.top)).get?
            (recordKey stackKind (pair st.id slot))
          = m.get? (recordKey stackKind (pair st.id slot)) := by
        intro slot hslot
        rw [SortedMap.get?_insert, if_neg fun heq => hslot (pair_inj.mp (recordKey_inj.mp heq).2).2]
      have hlast : (m.insert (recordKey stackKind (pair st.id st.next)) (chunkOf st.top)).get?
          (recordKey stackKind (pair st.id st.next)) = some (chunkOf st.top) := by
        rw [SortedMap.get?_insert, if_pos rfl]
      refine ⟨_, hs', ⟨groups ++ [st.top], ?_, ?_, fun slot hslot => ?_, rfl, ?_, hall⟩, rfl⟩
      · refine rel_append ?_ (.cons ⟨hne, Nat.lt_succ_self _, hlast⟩ .nil)
        refine hrows.imp fun slot group ⟨hgroup, hlt, hrow⟩ => ?_
        exact ⟨hgroup, Nat.lt_succ_of_lt hlt, by rw [hother slot hlt.ne, hrow]⟩
      · refine nodup_append.mpr ⟨hnodup, nodup_singleton _, fun slot hslot _ hnext => ?_⟩
        rw [mem_singleton.mp hnext]
        exact (slots_lt hrows slot hslot).ne
      · have hlt : st.next < slot := hslot
        rw [hother slot hlt.ne']
        exact hfree slot hlt.le
      · rw [hentries, flatten_append, flatten_singleton, append_nil]
    · exact ⟨m, h, hst, rfl⟩
  rw [SpillStack.push]
  refine hroom.bind fun r hr => ?_
  obtain ⟨m', hm', ⟨groups, hrows, hnodup, hfree, hbytes, hentries, hall⟩, hid⟩ := hr
  refine ⟨m', hm', ⟨groups, hrows, hnodup, hfree, ?_, ?_, ?_⟩, hid⟩
  · rw [chunkOf_append, length_append, chunkOf_singleton, length_entryBytes, hbytes]
  · rw [hentries, ← append_assoc, reverse_concat]
  · exact forall_mem_cons.mpr ⟨hfits, hall⟩

theorem forall₂_concat {α β : Type} {rel : α → β → Prop} {front : List α} {last : α} :
    ∀ {groups : List β}, List.Forall₂ rel (front ++ [last]) groups →
      ∃ before group, groups = before ++ [group] ∧ List.Forall₂ rel front before ∧
        rel last group := by
  induction front with
  | nil =>
    intro groups h
    cases h with
    | cons hlast hnil =>
      cases hnil
      exact ⟨[], _, rfl, .nil, hlast⟩
  | cons a front ih =>
    intro groups h
    cases h with
    | cons ha h =>
      obtain ⟨before, group, rfl, hfront, hlast⟩ := ih h
      exact ⟨_ :: before, group, rfl, .cons ha hfront, hlast⟩

theorem length_chunkOf (group : List Bytes) :
    (chunkOf group).length = (group.map fun entry => 4 + entry.length).sum := by
  rw [chunkOf, length_flatMap]
  exact congrArg List.sum (map_congr_left fun entry _ => length_entryBytes entry)

theorem SpillStack.refill_holds (hb : b.Lawful view) (hstack : own stackKind)
    (h : Refines view own s m) (hst : st.Holds m entries) :
    Yields b.Fails (fun r => ∃ m', Refines view own r.2 m' ∧ r.1.Holds m' entries ∧
      r.1.id = st.id ∧ (r.1.top = [] → entries = [])) (st.refill b s) := by
  rw [SpillStack.refill]
  split_ifs with htop
  · have hheld := hst
    obtain ⟨groups, hrows, hnodup, hfree, -, hentries, hall⟩ := hheld
    rcases hlast : st.slots.getLast? with _ | slot
    · refine ⟨m, h, hst, rfl, fun _ => ?_⟩
      rw [getLast?_eq_none_iff.mp hlast] at hrows
      cases hrows
      rw [hentries, htop]
      rfl
    · obtain ⟨front, hslots⟩ := getLast?_eq_some_iff.mp hlast
      rw [hslots] at hrows hnodup
      obtain ⟨before, group, rfl, hfront, hne, hlt, hrow⟩ := forall₂_concat hrows
      have hnotin : slot ∉ front := fun hin =>
        (nodup_append.mp hnodup).2.2 slot hin slot (mem_singleton_self _) rfl
      rw [htop, append_nil, flatten_append, flatten_singleton] at hentries
      have hgroup : ∀ entry ∈ group, Fits entry := by
        intro entry hentry
        refine hall entry ?_
        rw [hentries, mem_reverse]
        exact mem_append_right _ hentry
      refine (h.take hb hstack).bind fun o ho => ?_
      obtain ⟨bytes, s₁⟩ := o
      obtain ⟨rfl, m', hm', hrest⟩ := ho
      have hother : ∀ slot', slot' ≠ slot → m'.get? (recordKey stackKind (pair st.id slot'))
          = m.get? (recordKey stackKind (pair st.id slot')) :=
        fun slot' hslot' => hrest _ fun heq => hslot' (pair_inj.mp (recordKey_inj.mp heq).2).2
      dsimp only
      rw [hrow, orError]
      refine Yields.bind (P := fun bytes => bytes = chunkOf group) rfl fun bytes hchunk => ?_
      rw [hchunk, decodeChunk_chunkOf hgroup]
      refine Yields.bind (P := fun top => top = group) rfl fun top hread => ?_
      rw [hread, hslots, dropLast_concat]
      refine ⟨m', hm', ⟨before, ?_, ?_, fun slot' hslot' => ?_, ?_, hentries, hall⟩, rfl,
        fun hnil => absurd hnil hne⟩
      · have hmem := (forall₂_and_left (p := (· ∈ front)) front before).mpr
          ⟨fun _ h => h, hfront⟩
        refine hmem.imp fun slot' group' hboth => ?_
        obtain ⟨hin, hne', hlt', hrow'⟩ := hboth
        refine ⟨hne', hlt', ?_⟩
        rw [hother slot' fun heq => hnotin (heq ▸ hin), hrow']
      · exact (nodup_append.mp hnodup).1
      · rw [hother slot' (hlt.trans_le hslot').ne']
        exact hfree slot' hslot'
      · exact (length_chunkOf group).symm
  · exact ⟨m, h, hst, rfl, fun hnil => absurd hnil htop⟩

/-- **The top entry comes off.** -/
theorem SpillStack.pop_holds (hb : b.Lawful view) (hstack : own stackKind)
    (h : Refines view own s m) (hst : st.Holds m entries) :
    Yields b.Fails (fun o => o.1 = entries.head? ∧ ∃ m', Refines view own o.2.2 m' ∧
      o.2.1.Holds m' entries.tail ∧ o.2.1.id = st.id) (st.pop b s) := by
  rw [SpillStack.pop]
  refine (st.refill_holds hb hstack h hst).bind fun r hr => ?_
  obtain ⟨st', s'⟩ := r
  obtain ⟨m', hm', ⟨groups, hrows, hnodup, hfree, hbytes, hentries, hall⟩, hid, hempty⟩ := hr
  dsimp only at hempty hbytes hentries hid ⊢
  rcases hlast : st'.top.getLast? with _ | entry
  · have hnil := hempty (getLast?_eq_none_iff.mp hlast)
    subst hnil
    exact ⟨rfl, m', hm', ⟨groups, hrows, hnodup, hfree, hbytes, hentries, hall⟩, hid⟩
  · obtain ⟨below, htop⟩ := getLast?_eq_some_iff.mp hlast
    rw [htop, ← append_assoc, reverse_concat] at hentries
    subst hentries
    refine ⟨rfl, m', hm', ⟨groups, hrows, hnodup, hfree, ?_, ?_, ?_⟩, hid⟩
    · dsimp only
      rw [hbytes, htop, dropLast_concat, chunkOf_append, length_append, chunkOf_singleton,
        length_entryBytes, Nat.add_sub_cancel]
    · dsimp only
      rw [htop, dropLast_concat]
      rfl
    · exact fun e he => hall e (mem_cons_of_mem _ he)

/-- One step on a stack. -/
inductive StackOp where
  | push (entry : Bytes)
  | pop

/-- Steps on a stack, each behind another piece of the merge: the answers of its pops. -/
def SpillStack.steps (b : Backing R Identity) :
    List ((Spill R Identity → ContentResult (Spill R Identity)) × StackOp) → SpillStack →
      Spill R Identity → ContentResult (List (Option Bytes))
  | [], _, _ => .ok []
  | (other, .push entry) :: later, st, s => do
    let s ← other s
    let (st, s) ← st.push b s entry
    SpillStack.steps b later st s
  | (other, .pop) :: later, st, s => do
    let s ← other s
    let (entry, st, s) ← st.pop b s
    let entries ← SpillStack.steps b later st s
    return entry :: entries

def popped : List Bytes → List StackOp → List (Option Bytes)
  | _, [] => []
  | entries, .push entry :: later => popped (entry :: entries) later
  | entries, .pop :: later => entries.head? :: popped entries.tail later

variable {steps : List ((Spill R Identity → ContentResult (Spill R Identity)) × StackOp)}

theorem SpillStack.steps_holds (hb : b.Lawful view) (hstack : own stackKind) :
    ∀ {st : SpillStack} {s : Spill R Identity} {m : SortedMap (RecordKey Identity) Bytes}
      {entries : List Bytes}, (∀ step ∈ steps, Leaves b view own stackKind st.id step.1) →
      (∀ step ∈ steps, ∀ entry, step.2 = .push entry → Fits entry) →
      Refines view own s m → st.Holds m entries →
      Yields b.Fails (fun answers => answers = popped entries (steps.map Prod.snd))
        (SpillStack.steps b steps st s) := by
  induction steps with
  | nil => exact fun _ _ _ _ => rfl
  | cons step steps ih =>
    intro st s m entries hothers hfits h hst
    rw [forall_mem_cons] at hothers hfits
    obtain ⟨other, op⟩ := step
    have hother := hothers.1 s m h
    cases op with
    | push entry =>
      rw [SpillStack.steps]
      refine hother.bind fun s₁ hs₁ => ?_
      obtain ⟨m₁, h₁, heq⟩ := hs₁
      refine (st.push_holds hb hstack h₁ (hst.congr heq) (hfits.1 entry rfl)).bind fun r hr => ?_
      obtain ⟨m₂, h₂, hholds, hid⟩ := hr
      have hlater : ∀ step ∈ steps, Leaves b view own stackKind r.1.id step.1 := by
        rw [hid]
        exact hothers.2
      exact ih hlater hfits.2 h₂ hholds
    | pop =>
      rw [SpillStack.steps]
      refine hother.bind fun s₁ hs₁ => ?_
      obtain ⟨m₁, h₁, heq⟩ := hs₁
      refine (st.pop_holds hb hstack h₁ (hst.congr heq)).bind fun o ho => ?_
      obtain ⟨answer, st', s₂⟩ := o
      obtain ⟨rfl, m₂, h₂, hholds, hid⟩ := ho
      have hlater : ∀ step ∈ steps, Leaves b view own stackKind st'.id step.1 := by
        rw [hid]
        exact hothers.2
      refine (ih hlater hfits.2 h₂ hholds).bind fun answers hanswers => ?_
      rw [hanswers]
      rfl

def passStack (b : Backing R Identity)
    (steps : List ((Spill R Identity → ContentResult (Spill R Identity)) × StackOp))
    (s : Spill R Identity) : ContentResult (List (Option Bytes)) :=
  SpillStack.steps b steps (SpillStack.new s).1 (SpillStack.new s).2

/-- **A stack gives back the last entry first**, wherever its chunks spill and whatever the rest of
the merge does in between. -/
theorem passStack_lifo (hb : b.Lawful view) (hstack : own stackKind) (h : Refines view own s m)
    (hfresh : ∀ i, m.get? (recordKey stackKind (pair s.next i)) = none)
    (hothers : ∀ step ∈ steps, Leaves b view own stackKind s.next step.1)
    (hfits : ∀ step ∈ steps, ∀ entry, step.2 = .push entry → Fits entry) :
    Yields b.Fails (fun answers => answers = popped [] (steps.map Prod.snd))
      (passStack b steps s) := by
  have hnew : (SpillStack.new s).1.Holds m [] :=
    ⟨[], .nil, nodup_nil, fun slot _ => hfresh slot, rfl, rfl, by simp⟩
  exact SpillStack.steps_holds hb hstack hothers hfits ⟨h.lookup, h.apart, h.spilled⟩ hnew

end

/-! ## The merge's records -/

/-- **The merge's spilled state.** A fresh merge holds the empty map. While it holds a map, every
run of operations answers as the map, windows list every key once and in order, a run gives back its
entries in order and a stack in reverse; what fails is a call of the records, or what the map or the
bound of an entry refuses. -/
theorem spill_exact {K R : Type} [LinearOrder K] [OrderBot K] {own : ℕ → Prop}
    {b : Backing R K} {view : R → SortedMap (RecordKey K) Bytes} (hb : b.Lawful view)
    {c : Backing R Identity} {viewed : R → SortedMap (RecordKey Identity) Bytes}
    (hc : c.Lawful viewed) (hrun : own runKind) (hstack : own stackKind) :
    (∀ records : R, (∀ kind key, own kind → (view records).get? (recordKey kind key) = none) →
      Refines view own (Spill.new records) .empty) ∧
    (∀ s m, Refines view own s m →
      (∀ ops, (∀ op ∈ ops, own op.recordKind) → InsertsAbsent m ops →
        Yields (fun e => b.Fails e ∨ e = malformed ∧ mapRun m ops = none)
          (fun r => ∃ m', mapRun m ops = some (r.1, m') ∧ Refines view own r.2 m')
          (s.run b ops)) ∧
      ∀ kind turns, own kind → Between own kind turns m →
        Yields b.Fails (fun r => r.1.1 <+: kindKeys m kind ∧
            ((kindKeys m kind).length < turns.length → r.1.2 = true) ∧
            (r.1.2 = true → r.1.1 = kindKeys m kind))
          (Spill.eachKey b kind turns none s)) ∧
    ∀ s m, Refines viewed own s m →
      (∀ writes reads, (∀ i, m.get? (recordKey runKind (pair s.next i)) = none) →
        (∀ write ∈ writes, Leaves c viewed own runKind s.next write.1) →
        (∀ other ∈ reads, Leaves c viewed own runKind s.next other) →
        Yields (fun e => c.Fails e ∨ e = malformed ∧ ∃ write ∈ writes, ¬Fits write.2)
          (fun answers => answers = drained (writes.map Prod.snd) reads.length)
          (passRun c writes reads s)) ∧
      ∀ steps, (∀ i, m.get? (recordKey stackKind (pair s.next i)) = none) →
        (∀ step ∈ steps, Leaves c viewed own stackKind s.next step.1) →
        (∀ step ∈ steps, ∀ entry, step.2 = .push entry → Fits entry) →
        Yields c.Fails (fun answers => answers = popped [] (steps.map Prod.snd))
          (passStack c steps s) := by
  have hall : ∀ keys : List K, rest keys none = keys := fun keys => filter_true keys
  refine ⟨fun records hfresh => Refines.new hfresh, fun s m h => ⟨fun ops hown habsent =>
    h.run hb hown habsent, fun kind turns hown hbetween => ?_⟩, fun s m h => ⟨?_, ?_⟩⟩
  · have heach := Refines.eachKey hb hown none h hbetween
    rwa [hall] at heach
  · exact fun writes reads hfresh hwrites hreads => passRun_fifo hc hrun h hfresh hwrites hreads
  · exact fun steps hfresh hothers hfits => passStack_lifo hc hstack h hfresh hothers hfits

/-- `Resident`: records kept in memory. -/
def resident (K : Type) [LinearOrder K] : Backing (SortedMap (RecordKey K) Bytes) K where
  get := fun r key => .ok (r.get? key, r)
  apply := fun r key expected value =>
    .ok (expected.holds (r.get? key),
      if expected.holds (r.get? key) then r.insert key value else r)
  keysAfter := fun r kind after => .ok ((rest (kindKeys r kind) after).take windowKeys, r)

theorem resident_lawful (K : Type) [LinearOrder K] : (resident K).Lawful fun r => r where
  get := fun h => by
    cases h
    exact ⟨rfl, rfl⟩
  apply := fun h => by
    cases h
    exact ⟨rfl, rfl⟩
  keysAfter := fun h => by
    cases h
    exact ⟨rfl, rfl⟩

theorem resident_never {e : ContentError} : ¬(resident Identity).Fails e := by
  rintro (⟨_, _, h⟩ | ⟨_, _, _, _, h⟩ | ⟨_, _, _, h⟩) <;> cases h

/-- Records in memory answer. -/
theorem resident_answers {α : Type} {P : α → Prop} {r : ContentResult α}
    (h : Yields (resident Identity).Fails P r) : ∃ a, r = .ok a ∧ P a := by
  rcases r with e | a
  · exact absurd h resident_never
  · exact ⟨a, rfl, h⟩

def releaseChunk (s : Spill (SortedMap (RecordKey Identity) Bytes) Identity) :
    ContentResult (Spill (SortedMap (RecordKey Identity) Bytes) Identity) := do
  let (_, s) ← s.take (resident Identity) runKind (pair 7 0)
  return s

/-- Two entries pushed and three pops, over records in memory, between which another run's chunk is
released. -/
theorem spill_exact_resident :
    passStack (resident Identity) [(releaseChunk, .push [1]), (releaseChunk, .push [2]),
      (releaseChunk, .pop), (releaseChunk, .pop), (releaseChunk, .pop)] (Spill.new .empty)
        = .ok [some [2], some [1], none] := by
  have hleaves : Leaves (resident Identity) (fun r => r) (fun _ => True) stackKind 0 releaseChunk :=
    Leaves.take (resident_lawful Identity) trivial fun i heq =>
      absurd (recordKey_inj.mp heq).1 (by decide)
  have hfresh : Refines (fun r => r) (fun _ => True)
      (Spill.new (.empty : SortedMap (RecordKey Identity) Bytes)) .empty :=
    Refines.new fun _ _ _ => rfl
  refine (resident_answers (((@spill_exact Identity _ _ _ (fun _ => True) _ _
    (resident_lawful Identity) _ _ (resident_lawful Identity) trivial trivial).2.2 _ _ hfresh).2
      [(releaseChunk, .push [1]), (releaseChunk, .push [2]), (releaseChunk, .pop),
        (releaseChunk, .pop), (releaseChunk, .pop)]
      (fun _ => rfl) ?_ ?_)).elim fun answers hanswers => hanswers.1.trans ?_
  · intro step hstep
    simp only [mem_cons, not_mem_nil, or_false] at hstep
    rcases hstep with rfl | rfl | rfl | rfl | rfl <;> exact hleaves
  · simp [Fits, chunkBytes]
  · rw [hanswers.2]
    rfl

/-- **What does not fit in a chunk loses an entry**: behind a pop, its push spills a chunk of no
entries, and the pop that takes that chunk up answers nothing, with the first entry below it. -/
theorem passStack_drops {entry : Bytes} (hlong : ¬Fits entry) :
    passStack (resident Identity) [(.ok, .push []), (.ok, .push entry), (.ok, .pop),
      (.ok, .push entry), (.ok, .pop), (.ok, .pop)] (Spill.new .empty) =
        .ok [some entry, some entry, none] := by
  have hlong : chunkBytes < 4 + entry.length := not_le.mp hlong
  have hshort : ¬chunkBytes < 4 := by decide
  have hbehind : chunkBytes < 8 + entry.length := by omega
  have hapart : recordKey stackKind (pair 0 1) ≠ recordKey stackKind (pair 0 0) := by decide
  simp [passStack, SpillStack.steps, SpillStack.new, SpillStack.push, SpillStack.room,
    SpillStack.pop, SpillStack.refill, Spill.allocate, Spill.new, Spill.insert, Spill.take, chunkOf,
    entryBytes, decodeChunk, heldEntry, heldBytes, bind, Except.bind, pure, Except.pure, orError,
    hshort, hlong, hbehind, hapart, SortedMap.get?_insert, SortedMap.get?_empty]

/-- An entry pushed first is not given back: two longer ones were pushed and popped above it. -/
theorem passStack_loses_first : ∃ steps : List StackOp,
    steps = [.push [], .push (replicate chunkBytes 0), .pop, .push (replicate chunkBytes 0), .pop,
      .pop] ∧
    ∃ answers, passStack (resident Identity) (steps.map fun step => (.ok, step)) (Spill.new .empty) =
      .ok answers ∧ answers.getLast? = some none ∧ (popped [] steps).getLast? = some (some []) := by
  have hlong : ¬Fits (replicate chunkBytes 0) := by
    rw [Fits, length_replicate]
    decide
  exact ⟨_, rfl, _, passStack_drops hlong, rfl, rfl⟩

end LayerFs.Merge
