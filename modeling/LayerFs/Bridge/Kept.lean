import LayerFs.Bridge.Report

/-!
# What a conflict report keeps (`control_merge.rs`)

A report read back keeps the front of each list and says whether something was left out, whenever
it could be written. It could when its conflicts, with the hunks and lines they keep, leave five
bytes of the record; the lists behind them stop before the reserve.

* `report_reads` — **what is read back** from what was written.
-/

namespace LayerFs.Bridge

open List

open Wire

variable {r : ConflictReport} {count path : ℕ} (n : ℕ) (c : Conflict) (cs : List Conflict)
  (hs : List Hunk)

/-! ## Reading back -/

theorem kind_reads (k : ConflictKind) : Reads kind [kindByte k] k := by
  rw [← append_nil [kindByte k]]
  apply (byte_reads (kindByte k)).bind
  cases k <;> exact Reads.pure _

theorem decision_reads {v : LwwDecision} (h : v.Within) : Reads decision (decisionBytes v) v := by
  have hflags : ¬3 < v.keptOurs.toNat + 2 * v.deleted.toNat := by
    cases v.keptOurs <;> cases v.deleted <;> decide
  have hback : (⟨v.path, (v.keptOurs.toNat + 2 * v.deleted.toNat) % 2 == 1,
      (v.keptOurs.toNat + 2 * v.deleted.toNat) / 2 == 1, v.rule⟩ : LwwDecision) = v := by
    rcases v with ⟨path, _ | _, _ | _, rule⟩ <;> simp
  apply (text_reads h.1).bind
  apply (text_reads h.2).bind
  rw [← append_nil [_]]
  apply (byte_reads _).bind
  rw [if_neg hflags, hback]
  exact Reads.pure v

theorem le_hunkEnd (h : Hunk) : n + 8 ≤ hunkEnd n h := by
  have h₁ := le_itemsEnd (n + 4) lineSize h.ours
  have h₂ := le_itemsEnd (itemsEnd (n + 4) lineSize h.ours) lineSize h.theirs
  rw [hunkEnd]
  omega

theorem le_hunksEnd : n + 8 * hs.length ≤ hunksEnd n hs := by
  induction hs generalizing n with
  | nil => exact le_rfl
  | cons h hs ih =>
    have h₁ := le_hunkEnd n h
    have h₂ := ih (hunkEnd n h)
    rw [hunksEnd, foldl_cons, ← hunksEnd, length_cons]
    omega

theorem le_conflictEnd : n + 8 * hunksWritten n c ≤ conflictEnd n c := by
  have h := le_hunksEnd (n + c.path.length + 5) (c.hunks.take (hunksWritten n c))
  have hlength : (c.hunks.take (hunksWritten n c)).length = hunksWritten n c := by
    rw [length_take, hunksWritten]
    split_ifs <;> simp
  rw [conflictEnd]
  omega

theorem le_conflictsEnd : n ≤ conflictsEnd n cs := by
  induction cs generalizing n with
  | nil => exact le_rfl
  | cons c cs ih =>
    have h₁ := le_conflictEnd n c
    have h₂ := ih (conflictEnd n c)
    rw [conflictsEnd, foldl_cons, ← conflictsEnd]
    omega

theorem hunks_reads {hs : List Hunk} (hwithin : ∀ h ∈ hs, h.Within) (n : ℕ) :
    Reads (readMany hunk hs.length) (hunksBytes n hs) (hunksKept n hs) := by
  induction hs generalizing n with
  | nil => exact Reads.pure []
  | cons h hs ih =>
    obtain ⟨hours, htheirs⟩ := hwithin h mem_cons_self
    have hrest := ih (fun h' hh' => hwithin h' (mem_cons_of_mem h hh')) (hunkEnd n h)
    rw [hunksBytes, hunksKept, ← append_nil (hunksBytes _ hs)]
    have hone : Reads hunk (be 4 h.line ++ (itemsBytes (n + 4) lineSize lineBytes h.ours ++
        (itemsBytes (itemsEnd (n + 4) lineSize h.ours) lineSize lineBytes h.theirs ++ [])))
        (hunkKept n h) := by
      apply (number_reads 4 h.line).bind
      apply (lines_reads hours (n + 4)).bind
      apply (lines_reads htheirs _).bind
      exact Reads.pure _
    have hall := hone.bind (f := fun x => do
      let xs ← readMany hunk hs.length
      pure (x :: xs)) (hrest.bind (Reads.pure _))
    simp only [append_assoc, nil_append] at hall
    exact hall

theorem conflict_reads {c : Conflict} (hwithin : c.Within) {n : ℕ}
    (hcount : hunksWritten n c < 256 ^ 2) :
    Reads conflict (conflictBytes n c) (conflictKept n c) := by
  have hwritten : ∀ h ∈ c.hunks.take (hunksWritten n c), h.Within :=
    fun h hh => hwithin.2 h (mem_of_mem_take hh)
  have hhunks := hunks_reads hwritten (n + c.path.length + 5)
  have hlength : (c.hunks.take (hunksWritten n c)).length = hunksWritten n c := by
    rw [length_take, hunksWritten]
    split_ifs <;> simp
  rw [hlength] at hhunks
  have hitems : Reads (items hunk) (be 2 (hunksWritten n c) ++
      hunksBytes (n + c.path.length + 5) (c.hunks.take (hunksWritten n c)))
      (hunksKept (n + c.path.length + 5) (c.hunks.take (hunksWritten n c))) := by
    apply (number_reads 2 _).bind
    rw [Nat.mod_eq_of_lt hcount]
    exact hhunks
  rw [conflictBytes]
  apply (text_reads hwithin.1).bind
  apply (kind_reads c.kind).bind
  rw [← append_nil (be 2 _ ++ _)]
  apply hitems.bind
  exact Reads.pure _

theorem conflicts_reads {cs : List Conflict} (hwithin : ∀ c ∈ cs, c.Within) {n : ℕ}
    (hfits : conflictsEnd n cs ≤ recordLimit) :
    Reads (readMany conflict cs.length) (conflictsBytes n cs) (conflictsKept n cs) := by
  induction cs generalizing n with
  | nil => exact Reads.pure []
  | cons c cs ih =>
    rw [conflictsEnd, foldl_cons, ← conflictsEnd] at hfits
    have hend := le_conflictEnd n c
    have hle := le_conflictsEnd (conflictEnd n c) cs
    have hlimit := recordLimit_eq
    have hone := conflict_reads (hwithin c mem_cons_self) (n := n) (by omega)
    have hrest := ih (fun c' hc' => hwithin c' (mem_cons_of_mem c hc')) hfits
    rw [conflictsBytes, conflictsKept, ← append_nil (conflictsBytes _ cs)]
    exact hone.bind (hrest.bind (Reads.pure _))

/-- **What is read back** from a report whose conflicts fit the record. -/
theorem report_reads (h : r.Within) (hfits : r.conflictsStop ≤ recordLimit) :
    Reads report r.bytes r.readBack := by
  have hsize : ∀ c : Conflict, 2 ≤ pathSize c := fun c => Nat.le_add_left 2 (_ + 6)
  have hdecision : ∀ v : LwwDecision, 2 ≤ decisionSize v := fun v => Nat.le_add_left 2 (_ + 3)
  have hcount : kept r.start pathSize 0 r.conflicts % 256 ^ 2
      = kept r.start pathSize 0 r.conflicts := Nat.mod_eq_of_lt (kept_lt hsize r.conflicts)
  have hcarried : r.carried.length = kept r.start pathSize 0 r.conflicts := by
    rw [ConflictReport.carried, length_take]
    exact min_eq_left (kept_le 0 r.conflicts)
  have hconflicts : Reads (items conflict)
      (be 2 (kept r.start pathSize 0 r.conflicts) ++ conflictsBytes (r.start + 2) r.carried)
      (conflictsKept (r.start + 2) r.carried) := by
    apply (number_reads 2 _).bind
    rw [hcount, ← hcarried]
    exact conflicts_reads h.carried hfits
  rw [ConflictReport.bytes, ← append_assoc (be 2 _)]
  apply (head_reads r.head).bind
  apply (head_reads r.base).bind
  apply (boolean_reads r.markers).bind
  apply hconflicts.bind
  apply (items_reads (fun v hv => decision_reads (h.lww v hv)) hdecision _).bind
  apply (lines_reads h.written _).bind
  rw [← append_nil [r.cut.toNat]]
  apply (boolean_reads r.cut).bind
  exact Reads.pure _

/-! ## When a report can be written -/

theorem length_bytes (h : r.Within) (id : ℕ) :
    (record id).length + r.bytes.length = itemsEnd r.lwwStop lineSize r.written + 1 := by
  have hconflicts : r.start + 2 + (conflictsBytes (r.start + 2) r.carried).length
      = r.conflictsStop := length_conflictsBytes h.carried (r.start + 2)
  have hlww : r.conflictsStop + (itemsBytes r.conflictsStop decisionSize decisionBytes r.lww).length
      = r.lwwStop :=
    length_itemsBytes (fun v hv => length_decisionBytes (h.lww v hv)) r.conflictsStop
  have hwritten := length_lines h.written r.lwwStop
  have hstart : r.start = 14 + (headBytes r.head).length + (headBytes r.base).length + 1 := rfl
  rw [ConflictReport.bytes]
  simp only [length_append, length_record, length_be, length_singleton]
  omega

/-- **The lists behind the conflicts** stop before the reserve: with five bytes left, for their
counts and the flag, the report fits. -/
theorem bytes_fit_iff (h : r.Within) (id : ℕ) :
    (record id).length + r.bytes.length ≤ recordLimit ↔ r.conflictsStop + 5 ≤ recordLimit := by
  have hlww := itemsEnd_le r.conflictsStop decisionSize r.lww
  have hwritten := itemsEnd_le r.lwwStop lineSize r.written
  have hlww' := le_itemsEnd r.conflictsStop decisionSize r.lww
  have hwritten' := le_itemsEnd r.lwwStop lineSize r.written
  have hlimit := recordLimit_eq
  have hreserve : reserve = 1024 := rfl
  rw [length_bytes h id]
  rw [← ConflictReport.lwwStop] at hlww hlww'
  omega

/-! ## What is kept -/

/-- A hunk of which lines may be left out at the end of each side. -/
structure KeepsHunk (h' h : Hunk) : Prop where
  line : h'.line = h.line
  ours : h'.ours <+: h.ours
  theirs : h'.theirs <+: h.theirs

/-- A conflict of which hunks may be left out at the end. -/
structure KeepsConflict (c' c : Conflict) : Prop where
  path : c'.path = c.path
  kind : c'.kind = c.kind
  hunks : List.Forall₂ KeepsHunk c'.hunks (c.hunks.take c'.hunks.length)

/-- **What a report keeps** of another: its heads and marker flag, the fronts of its lists, and
`truncated` exactly when it was set or something was left out. -/
structure Keeps (r' r : ConflictReport) : Prop where
  head : r'.head = r.head
  base : r'.base = r.base
  markers : r'.markers = r.markers
  conflicts : List.Forall₂ KeepsConflict r'.conflicts (r.conflicts.take r'.conflicts.length)
  lww : r'.lww <+: r.lww
  written : r'.written <+: r.written
  truncated : r'.truncated = true ↔ r.truncated = true ∨ r'.conflicts ≠ r.conflicts ∨
    r'.lww ≠ r.lww ∨ r'.written ≠ r.written

def Numbered : ℕ → List Conflict → Prop
  | _, [] => True
  | n, c :: cs =>
    (∀ h ∈ c.hunks.take (hunksWritten n c), h.line < 2 ^ 32) ∧ Numbered (conflictEnd n c) cs

theorem numbered_of_all {cs : List Conflict} (h : ∀ c ∈ cs, ∀ k ∈ c.hunks, k.line < 2 ^ 32)
    (n : ℕ) : Numbered n cs := by
  induction cs generalizing n with
  | nil => trivial
  | cons c cs ih =>
    rw [forall_mem_cons] at h
    exact ⟨fun k hk => h.1 k (mem_of_mem_take hk), ih h.2 _⟩

theorem length_hunksKept : (hunksKept n hs).length = hs.length := by
  induction hs generalizing n with
  | nil => rfl
  | cons h hs ih => rw [hunksKept, length_cons, length_cons, ih]

theorem length_conflictsKept : (conflictsKept n cs).length = cs.length := by
  induction cs generalizing n with
  | nil => rfl
  | cons c cs ih => rw [conflictsKept, length_cons, length_cons, ih]

theorem line_mod_iff {n : ℕ} : n % 256 ^ 4 = n ↔ n < 2 ^ 32 := by
  have hwidth : (256 : ℕ) ^ 4 = 2 ^ 32 := by decide
  rw [hwidth]
  exact ⟨fun h => h ▸ Nat.mod_lt n (by decide), Nat.mod_eq_of_lt⟩

theorem hunksKept_keeps :
    List.Forall₂ KeepsHunk (hunksKept n hs) hs ↔ ∀ h ∈ hs, h.line < 2 ^ 32 := by
  induction hs generalizing n with
  | nil => simp [hunksKept]
  | cons h hs ih =>
    rw [hunksKept, forall₂_cons, ih, forall_mem_cons]
    refine and_congr ?_ Iff.rfl
    rw [← line_mod_iff]
    constructor
    · exact fun hkeeps => hkeeps.line
    · exact fun hline => ⟨hline, take_prefix _ _, take_prefix _ _⟩

theorem conflictKept_hunks : (conflictKept n c).hunks
    = hunksKept (n + c.path.length + 5) (c.hunks.take (hunksWritten n c)) := rfl

theorem take_conflictKept :
    c.hunks.take (conflictKept n c).hunks.length = c.hunks.take (hunksWritten n c) := by
  rw [conflictKept_hunks, length_hunksKept, length_take, ← take_eq_take_min]

theorem conflictsKept_keeps :
    List.Forall₂ KeepsConflict (conflictsKept n cs) cs ↔ Numbered n cs := by
  induction cs generalizing n with
  | nil => simp [conflictsKept, Numbered]
  | cons c cs ih =>
    rw [conflictsKept, forall₂_cons, ih, Numbered]
    refine and_congr ?_ Iff.rfl
    rw [← hunksKept_keeps (n + c.path.length + 5)]
    constructor
    · intro hkeeps
      have := hkeeps.hunks
      rw [take_conflictKept, conflictKept_hunks] at this
      exact this
    · intro hkeeps
      refine ⟨rfl, rfl, ?_⟩
      rw [take_conflictKept, conflictKept_hunks]
      exact hkeeps

/-! ## What is left out -/

theorem take_eq_iff {α : Type} {l : List α} {k : ℕ} (hk : k ≤ l.length) :
    l.take k = l ↔ ¬k < l.length := by
  rw [take_eq_self_iff]
  omega

theorem hunksCut_iff {n : ℕ} {hs : List Hunk} (hlines : ∀ h ∈ hs, h.line < 2 ^ 32) :
    hunksCut n hs = false ↔ hunksKept n hs = hs := by
  induction hs generalizing n with
  | nil => simp [hunksCut, hunksKept]
  | cons h hs ih =>
    rw [forall_mem_cons] at hlines
    rw [hunksCut, hunksKept, Bool.or_eq_false_iff, Bool.or_eq_false_iff, decide_eq_false_iff_not,
      decide_eq_false_iff_not, ih hlines.2, cons_eq_cons, ← take_eq_iff (kept_le 0 _),
      ← take_eq_iff (kept_le 0 _)]
    refine and_congr ?_ Iff.rfl
    have hline : h.line % 256 ^ 4 = h.line := line_mod_iff.2 hlines.1
    rw [hunkKept, hline]
    constructor
    · rintro ⟨hours, htheirs⟩
      rw [hours, htheirs]
    · intro heq
      exact ⟨congrArg Hunk.ours heq, congrArg Hunk.theirs heq⟩

theorem conflictsCut_iff {n : ℕ} {cs : List Conflict} (hlines : Numbered n cs) :
    conflictsCut n cs = false ↔ conflictsKept n cs = cs := by
  induction cs generalizing n with
  | nil => simp [conflictsCut, conflictsKept]
  | cons c cs ih =>
    obtain ⟨hhunks, hrest⟩ := hlines
    have hle : hunksWritten n c ≤ c.hunks.length := by
      rw [hunksWritten]
      split_ifs <;> omega
    rw [conflictsCut, conflictsKept, Bool.or_eq_false_iff, Bool.or_eq_false_iff,
      decide_eq_false_iff_not, ih hrest, cons_eq_cons, ← take_eq_iff hle,
      hunksCut_iff hhunks]
    refine and_congr ?_ Iff.rfl
    constructor
    · rintro ⟨hall, hkept⟩
      rw [conflictKept, hkept, hall]
    · intro heq
      have hhunks := congrArg Conflict.hunks heq
      rw [conflictKept_hunks] at hhunks
      have hlength := congrArg List.length hhunks
      rw [length_hunksKept, length_take, min_eq_left hle] at hlength
      have hall : c.hunks.take (hunksWritten n c) = c.hunks := (take_eq_iff hle).2 (by omega)
      rw [hall] at hhunks ⊢
      exact ⟨rfl, hhunks⟩

theorem conflicts_eq_iff (hlines : Numbered (r.start + 2) r.carried) :
    conflictsKept (r.start + 2) r.carried = r.conflicts ↔
      ¬kept r.start pathSize 0 r.conflicts < r.conflicts.length ∧
        conflictsCut (r.start + 2) r.carried = false := by
  rw [← take_eq_iff (kept_le 0 _), conflictsCut_iff hlines]
  change _ ↔ r.carried = r.conflicts ∧ _
  constructor
  · intro heq
    have hlength := congrArg List.length heq
    have hle : kept r.start pathSize 0 r.conflicts ≤ r.conflicts.length := kept_le 0 r.conflicts
    have hcarried : r.carried = r.conflicts := by
      rw [length_conflictsKept, ConflictReport.carried, length_take, min_eq_left hle]
        at hlength
      rw [ConflictReport.carried, hlength, take_length]
    exact ⟨hcarried, heq.trans hcarried.symm⟩
  · rintro ⟨hcarried, heq⟩
    exact heq.trans hcarried

/-- **The report read back** keeps the report written exactly when the line numbers of the hunks
written have four bytes. -/
theorem readBack_keeps (r : ConflictReport) :
    Keeps r.readBack r ↔ Numbered (r.start + 2) r.carried := by
  have hcarried : r.conflicts.take r.readBack.conflicts.length = r.carried := by
    change r.conflicts.take (conflictsKept (r.start + 2) r.carried).length = _
    rw [length_conflictsKept, ConflictReport.carried, length_take, ← take_eq_take_min]
  constructor
  · intro h
    have := h.conflicts
    rw [hcarried] at this
    exact (conflictsKept_keeps _ _).1 this
  · intro hlines
    refine ⟨rfl, rfl, rfl, ?_, take_prefix _ _, take_prefix _ _, ?_⟩
    · rw [hcarried]
      exact (conflictsKept_keeps _ _).2 hlines
    · change r.cut = true ↔ _ ∨ conflictsKept (r.start + 2) r.carried ≠ r.conflicts ∨
        r.lww.take (kept r.conflictsStop decisionSize 0 r.lww) ≠ r.lww ∨
        r.written.take (kept r.lwwStop lineSize 0 r.written) ≠ r.written
      rw [ne_eq, conflicts_eq_iff hlines, ne_eq, take_eq_iff (kept_le 0 _), ne_eq,
        take_eq_iff (kept_le 0 _), ConflictReport.cut]
      simp only [Bool.or_eq_true, decide_eq_true_eq, not_and_or, Bool.not_eq_false, not_not,
        or_assoc]

/-! ## The report -/

/-- **What the record promises** of a report: it can be written, and what is read back keeps it. -/
def Promised (id : ℕ) (r : ConflictReport) : Prop :=
  ∃ body, (putReport r).run (record id) = .ok ((), record id ++ body) ∧
    (record id ++ body).length ≤ recordLimit ∧
    ∃ r', report.run body = .ok (r', []) ∧ Keeps r' r

/-- The conflicts carried, with the hunks and lines they keep, leave five bytes of the record, and
the line numbers of their hunks have four bytes. -/
def ConflictReport.Fits (r : ConflictReport) : Prop :=
  r.conflictsStop + 5 ≤ recordLimit ∧ Numbered (r.start + 2) r.carried

theorem not_promised (h : r.Within) {id : ℕ} (hstop : ¬r.conflictsStop + 5 ≤ recordLimit) :
    ¬Promised id r := by
  rintro ⟨body, hput, -⟩
  have hwrites := putReport_appends h id
  rw [Appends, Writes, if_neg ((bytes_fit_iff h id).not.2 hstop), hput] at hwrites
  cases hwrites

/-- **A report within the field limit** is written into a fresh record and read back with what
was kept of it, exactly when its conflicts leave five bytes of the record and the line numbers of
the hunks they keep have four bytes. -/
theorem report_promised_iff {r : ConflictReport} (h : r.Within) (id : ℕ) :
    Promised id r ↔ r.Fits := by
  by_cases hstop : r.conflictsStop + 5 ≤ recordLimit
  · have hfit := (bytes_fit_iff h id).2 hstop
    have hwrites := putReport_appends h id
    rw [Appends, Writes, if_pos hfit] at hwrites
    have hreads := report_reads h (by omega : r.conflictsStop ≤ recordLimit) []
    rw [append_nil] at hreads
    constructor
    · rintro ⟨body, hput, -, r', hread, hkeeps⟩
      rw [hwrites] at hput
      obtain rfl : r.bytes = body := by
        have := congrArg Prod.snd (Except.ok.inj hput)
        exact append_cancel_left this
      rw [hreads] at hread
      obtain rfl : r.readBack = r' := congrArg Prod.fst (Except.ok.inj hread)
      exact ⟨hstop, (readBack_keeps r).1 hkeeps⟩
    · rintro ⟨-, hlines⟩
      refine ⟨r.bytes, hwrites, ?_, r.readBack, hreads, (readBack_keeps r).2 hlines⟩
      rw [length_append]
      exact hfit
  · constructor
    · intro hpromised
      exact absurd hpromised (not_promised h hstop)
    · rintro ⟨hfits, -⟩
      exact absurd hfits hstop

def letters (n : ℕ) : Text :=
  ⟨List.replicate n 97, (utf8Valid_iff_run _).2 (Window.run_letters n)⟩

theorem length_letters : (letters n).length = n := length_replicate

/-- Two conflicts: a hunk of lines of 4000 bytes in the first, a path of `path` bytes for the
second. -/
def longReport (count path : ℕ) : ConflictReport where
  head := none
  base := none
  markers := false
  conflicts := [⟨letters 2, .content, [⟨1, List.replicate count (letters 4000), []⟩]⟩,
    ⟨letters path, .addAdd, []⟩]
  lww := []
  written := []
  truncated := false

theorem longReport_within (h : path ≤ textFieldLimit) : (longReport count path).Within := by
  have hlimit : textFieldLimit = 4096 := rfl
  refine ⟨?_, by simp [longReport], by simp [longReport]⟩
  simp only [longReport, forall_mem_cons, not_mem_nil, false_implies, implies_true,
    and_true, Conflict.Within, Hunk.Within, length_letters, mem_replicate]
  refine ⟨⟨by omega, ?_⟩, h⟩
  rintro line ⟨-, rfl⟩
  rw [length_letters]
  omega

/-- Of equal items the first `k` are kept, when so many fit. -/
theorem kept_replicate {α : Type} {size : α → ℕ} {a : α} {written : ℕ} : ∀ {count total k : ℕ},
    written + (total + k * size a) + reserve ≤ recordLimit →
    recordLimit < written + (total + (k + 1) * size a) + reserve →
      kept written size total (List.replicate count a) = min count k := by
  intro count
  induction count with
  | zero => exact fun _ _ => (Nat.zero_min _).symm
  | succ count ih =>
    intro total k hfit hover
    rw [replicate_succ, kept]
    cases k with
    | zero => rw [if_neg (mt fits_iff.1 (by omega)), Nat.min_zero]
    | succ k =>
      have hk : (k + 1) * size a = k * size a + size a := Nat.succ_mul k _
      have hnext : (k + 1 + 1) * size a = (k + 1) * size a + size a := Nat.succ_mul _ _
      rw [if_pos (fits_iff.2 (by omega)), ih (k := k) (by omega) (by omega), Nat.succ_min_succ]

theorem longReport_stop (hpath : path ≤ textFieldLimit) :
    (longReport count path).conflictsStop = 4002 * min count 16 + path + 39 := by
  have hlimit : textFieldLimit = 4096 := rfl
  have hrecord := recordLimit_eq
  have hreserve : reserve = 1024 := rfl
  have hsize : lineSize (letters 4000) = 4002 := by
    rw [lineSize, length_letters]
    rfl
  have hpaths : kept 17 pathSize 0 (longReport count path).conflicts = 2 := by
    apply kept_all
    simp only [longReport, map_cons, map_nil, sum_cons, sum_nil, pathSize,
      length_letters]
    omega
  have hours : itemsEnd 30 lineSize (List.replicate count (letters 4000)) =
      32 + 4002 * min count 16 := by
    rw [itemsEnd, kept_replicate (k := 16) (by rw [hsize]; omega) (by rw [hsize]; omega),
      take_replicate, map_replicate, hsize, sum_replicate_nat, Nat.mul_comm]
    omega
  have hfirst : conflictEnd 19 ⟨letters 2, .content,
      [⟨1, List.replicate count (letters 4000), []⟩]⟩ = 34 + 4002 * min count 16 := by
    have hall : hunksWritten 19 ⟨letters 2, .content,
        [⟨1, List.replicate count (letters 4000), []⟩]⟩ = 1 := by
      rw [hunksWritten, if_pos (fits_iff.2 (by simp only [length_letters]; omega))]
      rfl
    rw [conflictEnd, hall, length_letters]
    change itemsEnd (itemsEnd 30 lineSize (List.replicate count (letters 4000))) lineSize [] = _
    rw [hours, itemsEnd, take_nil, map_nil, sum_nil]
    omega
  rw [ConflictReport.conflictsStop, ConflictReport.carried]
  change conflictsEnd 19 ((longReport count path).conflicts.take
    (kept 17 pathSize 0 (longReport count path).conflicts)) = _
  rw [hpaths]
  change conflictEnd (conflictEnd 19 ⟨letters 2, .content,
    [⟨1, List.replicate count (letters 4000), []⟩]⟩) ⟨letters path, .addAdd, []⟩ = _
  rw [hfirst, conflictEnd, take_nil, length_letters]
  change 34 + 4002 * min count 16 + path + 5 = _
  omega

/-- A hunk of seventeen lines: the last is left out, and the report is read back without it. -/
theorem report_promised_short :
    (longReport 17 3).cut = true ∧ Promised 1 (longReport 17 3) := by
  have hlimit : textFieldLimit = 4096 := rfl
  have hrecord := recordLimit_eq
  refine ⟨by decide +kernel, (report_promised_iff (longReport_within (by omega)) 1).2 ⟨?_, ?_⟩⟩
  · rw [longReport_stop (by omega)]
    omega
  · apply numbered_of_all
    intro c hc
    have hc := mem_of_mem_take hc
    simp only [longReport, mem_cons, not_mem_nil, or_false] at hc
    obtain rfl | rfl := hc <;> simp

/-- Sixteen lines fill the record up to the reserve, and the second conflict's path, counted
before, no longer fits. -/
theorem report_refused : (longReport 16 1500).Within ∧ ¬Promised 1 (longReport 16 1500) := by
  have hlimit : textFieldLimit = 4096 := rfl
  have hrecord := recordLimit_eq
  have hwithin : (longReport 16 1500).Within := longReport_within (by omega)
  refine ⟨hwithin, not_promised hwithin ?_⟩
  rw [longReport_stop (by omega)]
  omega

end LayerFs.Bridge
