import LayerFs.Service.Search

/-!
# Text of a file as its read pass delivers it (`read/window.rs`)

A file's text is handed on in parts. A payload in memory is one part; a chunked file is read in
one pass of writes, and what is pending is handed on when a block of it has arrived. A NUL or
invalid UTF-8 ends the text at the start of the window it is found in.

* `badWindow_last`, `badWindow_so_far` — **the window a call finds** is the first that fails the
  file, or the first the bytes received so far decide.
* `parts_scanned` — **a pass** hands on the text of the window-at-a-time scan;
-/

namespace LayerFs.Window

open Pieces Utf8

variable {text : List ℕ} {o : Option ℕ} {d i k w : ℕ} {P Q : ℕ → Prop}

def windowBytes : ℕ := 16 * 1024

/-- Bytes of text handed on at once from a chunked file's read pass. -/
def blockBytes : ℕ := 16 * windowBytes

/-! ## One part -/

/-- The window of byte `i` of bytes that start at file offset `start`. -/
def windowOf (start i : ℕ) : ℕ := (start + i) / windowBytes

/-- Where a window starts in bytes that start at file offset `start`. -/
def startOf (start w : ℕ) : ℕ := w * windowBytes - start

/-- The window that fails for invalid UTF-8: the one that decides it, or the file's last for a
character left incomplete. -/
def invalidWindow (bytes : List ℕ) (start size : ℕ) (last : Bool) (e : Utf8Error) : Option ℕ :=
  match e.errorLen with
  | none => if last then some ((size - 1) / windowBytes) else none
  | some _ =>
    -- decided in the window holding the sequence's start, or else by its next byte, the first of
    -- the next window
    let w := windowOf start e.validUpTo
    let stop := min (startOf start (w + 1)) bytes.length
    match fromUtf8 ((bytes.take stop).drop e.validUpTo) with
    | .error ⟨_, some _⟩ => some w
    | _ => some (w + 1)

def badWindow (bytes : List ℕ) (start size : ℕ) (last : Bool) : Option ℕ :=
  let nul := (find 0 bytes).map (windowOf start)
  match fromUtf8 bytes with
  | .ok _ => nul
  | .error e =>
    match invalidWindow bytes start size last e with
    | none => nul
    | some found => some (nul.elim found (min · found))

/-- Where the text handed on ends, before it is cut back to whole characters. -/
def textEnd (bytes : List ℕ) (start size : ℕ) (last : Bool) : ℕ :=
  match badWindow bytes start size last with
  | some w => startOf start w
  | none => if last then bytes.length else startOf start (windowOf start bytes.length)

/-- The text of `bytes`, which start at file offset `start` on a character boundary, that may be
handed on, and whether a NUL or invalid UTF-8 ends the scan after it. `last` when they reach the
file's end. -/
def checked (bytes : List ℕ) (start size : ℕ) (last : Bool) : List ℕ × Bool :=
  let stop := textEnd bytes start size last
  let text := match fromUtf8 bytes with
    | .ok _ => bytes.take (floorBoundary bytes (min stop bytes.length))
    | .error e => bytes.take (validLength (bytes.take (min stop e.validUpTo)))
  (text, (badWindow bytes start size last).isSome)

/-! ## The pass -/

section Pass

variable {σ : Type*}

/-- The sink of a file's single read pass: bytes not yet handed on, from file offset `start`, how
the scan ended when it ended early, and the visitor's own state. -/
structure Feed (σ : Type*) where
  pending : List ℕ
  start : ℕ
  size : ℕ
  ended : Option (Except Refusal Unit)
  user : σ

/-- Hands on the checked text; false, with `ended` set, when the scan ends. -/
def Feed.deliver (visit : σ → List ℕ → Except Refusal Bool × σ) (last : Bool) (f : Feed σ) :
    Bool × Feed σ :=
  let (text, bad) := checked f.pending f.start f.size last
  match visit f.user text with
  | (.error e, s) => (false, { f with ended := some (.error e), user := s })
  | (.ok false, s) => (false, { f with ended := some (.ok ()), user := s })
  | (.ok true, s) =>
    if bad then (false, { f with ended := some (.error binary), user := s })
    else
      (true, { f with
        pending := f.pending.drop text.length
        start := f.start + text.length
        user := s })

def Feed.write (visit : σ → List ℕ → Except Refusal Bool × σ) (bytes : List ℕ) (f : Feed σ) :
    Bool × Feed σ :=
  let f := { f with pending := f.pending ++ bytes }
  if blockBytes ≤ f.pending.length then f.deliver visit false else (true, f)

def Feed.pass (visit : σ → List ℕ → Except Refusal Bool × σ) : List (List ℕ) → Feed σ → Feed σ
  | [], f => f
  | bytes :: writes, f =>
    match f.write visit bytes with
    | (true, f) => pass visit writes f
    | (false, f) => f

/-- How a file's content arrives: a payload already in memory, or the writes of a read pass. -/
inductive Delivery where
  | whole (payload : List ℕ)
  | pass (writes : List (List ℕ))

def Delivery.content : Delivery → List ℕ
  | .whole payload => payload
  | .pass writes => writes.flatten

/-- Calls `visit` with the file's text, in order. -/
def texts (visit : σ → List ℕ → Except Refusal Bool × σ) (d : Delivery) (s : σ) :
    Except Refusal Unit × σ :=
  match d with
  | .whole payload =>
    let (text, bad) := checked payload 0 payload.length true
    match visit s text with
    | (.error e, s) => (.error e, s)
    | (.ok go, s) => if !go || !bad then (.ok (), s) else (.error binary, s)
  | .pass writes =>
    let f := Feed.pass visit writes ⟨[], 0, writes.flatten.length, none, s⟩
    match f.ended with
    | some result => (result, f.user)
    | none =>
      let f := (f.deliver visit true).2
      (f.ended.getD (.ok ()), f.user)

/-- Every line from line `first` on, in order, until `visit` stops. -/
def lines (visit : σ → ℕ × Line → Except Refusal Bool × σ) (width first : ℕ) (d : Delivery)
    (s : σ) : Except Refusal Unit × σ :=
  match texts (linesPart visit width first) d ⟨Open.new, false, s⟩ with
  | (.error e, st) => (.error e, st.user)
  | (.ok _, st) => linesEnd visit st

end Pass

/-! ## The window-at-a-time scan -/

/-- The file's bytes up to the end of window `w` hold a NUL or are refused. -/
def Decided (b : List ℕ) (w : ℕ) : Prop :=
  0 ∈ b.take ((w + 1) * windowBytes) ∨ run .start (b.take ((w + 1) * windowBytes)) = none

/-- **The window `w` fails the file**: it decides it, or it is the last of a file that does not
end between characters. -/
def Fails (b : List ℕ) (w : ℕ) : Prop :=
  Decided b w ∨ (b.length ≤ (w + 1) * windowBytes ∧ run .start b ≠ some .start)

/-- **What the scan of a file hands on**: all of a text, and otherwise the whole characters before
the first failing window. -/
def Scanned (b text : List ℕ) (bad : Bool) : Prop :=
  (IsText b ∧ text = b ∧ bad = false) ∨
    (¬IsText b ∧ bad = true ∧ ∃ w, IsLeast {w | Fails b w} w ∧
      text = b.take (validLength (b.take (w * windowBytes))))

def Finds (P : ℕ → Prop) : Option ℕ → Prop
  | some w => IsLeast {w | P w} w
  | none => ∀ w, ¬P w

/-! ## The window a call finds -/

theorem windowBytes_pos : 0 < windowBytes := by decide

theorem lt_window_end_iff : i < (w + 1) * windowBytes ↔ i / windowBytes ≤ w := by
  rw [← Nat.div_lt_iff_lt_mul windowBytes_pos, Nat.lt_succ_iff]

theorem mem_take_iff {b : ℕ} {l : List ℕ} (htake : l.take (i + 1) = l.take i ++ [b])
    (hnot : b ∉ l.take i) (n : ℕ) : b ∈ l.take n ↔ i < n := by
  constructor
  · intro hmem
    by_contra hle
    apply hnot
    have hfront : l.take n = (l.take i).take n := by
      rw [List.take_take, min_eq_left (by omega)]
    rw [hfront] at hmem
    exact List.mem_of_mem_take hmem
  · intro hlt
    have hfront : l.take (i + 1) = (l.take n).take (i + 1) := by
      rw [List.take_take, min_eq_left hlt]
    apply List.mem_of_mem_take (i := i + 1)
    rw [← hfront, htake]
    simp

theorem nul_finds {p : List ℕ} {v : ℕ} (hnul : 0 ∉ p.take v) :
    Finds (fun w => 0 ∈ p.take ((w + 1) * windowBytes))
      ((find 0 (p.drop v)).map (windowOf v)) := by
  rcases hf : find 0 (p.drop v) with _ | k
  · intro w hmem
    have hmem := List.mem_of_mem_take hmem
    rw [← List.take_append_drop v p, List.mem_append] at hmem
    rcases hmem with hmem | hmem
    · exact hnul hmem
    · exact find_eq_none hf hmem
  · obtain ⟨hlt, htake, hnot⟩ := find_eq_some hf
    rw [List.length_drop] at hlt
    have hfirst := mem_take_iff (b := 0) (l := p) (i := v + k)
      (by rw [Nat.add_assoc, List.take_add, htake, List.take_add, List.append_assoc])
      (by rw [List.take_add, List.mem_append]; exact not_or.2 ⟨hnul, hnot⟩)
    constructor
    · rw [Set.mem_ofPred_eq, hfirst, lt_window_end_iff]
      exact le_rfl
    · intro w hw
      rw [Set.mem_ofPred_eq, hfirst, lt_window_end_iff] at hw
      exact hw

/-- The window that decides an invalid sequence: the one holding its start when the bytes up to
that window's end are refused, and else the next. -/
theorem invalid_finds {p : List ℕ} (h : run .start p = none) :
    IsLeast {w | run .start (p.take ((w + 1) * windowBytes)) = none}
      (if run .start (p.take ((validLength p / windowBytes + 1) * windowBytes)) = none
        then validLength p / windowBytes else validLength p / windowBytes + 1) := by
  have hlow : ∀ w, run .start (p.take ((w + 1) * windowBytes)) = none →
      validLength p / windowBytes ≤ w := by
    intro w hw
    rw [← lt_window_end_iff]
    by_contra hle
    obtain ⟨m, hm, -⟩ := run_take (run_validLength p) ((w + 1) * windowBytes)
    rw [List.take_take, min_eq_left (by omega), hw] at hm
    cases hm
  split_ifs with hhere
  · exact ⟨hhere, hlow⟩
  · constructor
    · have hend := lt_window_end_iff.2 (le_refl (validLength p / windowBytes))
      apply run_take_none (run_take_near h)
      rw [Nat.add_mul, one_mul]
      have : 4 ≤ windowBytes := by decide
      omega
    · intro w hw
      have hle := hlow w hw
      rcases Nat.lt_or_eq_of_le hle with hlt | rfl
      · exact hlt
      · exact absurd hw hhere

theorem last_window {n : ℕ} (hn : 0 < n) :
    IsLeast {w | n ≤ (w + 1) * windowBytes} ((n - 1) / windowBytes) := by
  have hiff : ∀ w, n ≤ (w + 1) * windowBytes ↔ (n - 1) / windowBytes ≤ w := by
    intro w
    rw [← lt_window_end_iff]
    omega
  constructor
  · rw [Set.mem_ofPred_eq, hiff]
  · intro w hw
    rw [Set.mem_ofPred_eq, hiff] at hw
    exact hw

theorem Finds.or (hP : Finds P o) (hQ : IsLeast {w | Q w} w) :
    Finds (fun w => P w ∨ Q w) (some (o.elim w (min · w))) := by
  rcases o with _ | u
  · constructor
    · exact Or.inr hQ.1
    · rintro k (hk | hk)
      · exact absurd hk (hP k)
      · exact hQ.2 hk
  · change IsLeast _ (min u w)
    constructor
    · rcases Nat.le_total u w with hle | hle
      · exact Or.inl (by rw [min_eq_left hle]; exact hP.1)
      · exact Or.inr (by rw [min_eq_right hle]; exact hQ.1)
    · rintro k (hk | hk)
      · exact (min_le_left u w).trans (hP.2 hk)
      · exact (min_le_right u w).trans (hQ.2 hk)

theorem Finds.congr (h : Finds P o) (hiff : ∀ w, P w ↔ Q w) : Finds Q o := by
  have : P = Q := funext fun w => propext (hiff w)
  exact this ▸ h

theorem run_take_ne_none {p : List ℕ} {s : State} (h : run .start p = some s) (n : ℕ) :
    run .start (p.take n) ≠ none := by
  obtain ⟨m, hm, -⟩ := run_take h n
  rw [hm]
  exact Option.some_ne_none m

theorem run_drop {p : List ℕ} {v : ℕ} (hrun : run .start (p.take v) = some .start) :
    run .start (p.drop v) = run .start p := by
  conv_rhs => rw [← List.take_append_drop v p, run_append_of_start hrun]

section Checked

variable {p : List ℕ} {v : ℕ} (hv : v ≤ p.length) (hrun : run .start (p.take v) = some .start)
include hv hrun

theorem validLength_drop : validLength p = v + validLength (p.drop v) := by
  conv_lhs => rw [← List.take_append_drop v p, validLength_append hrun, List.length_take,
    min_eq_left hv]

theorem invalidWindow_eq {size n : ℕ} {last : Bool} :
    invalidWindow (p.drop v) v size last ⟨validLength (p.drop v), some n⟩
      = some (if run .start (p.take ((validLength p / windowBytes + 1) * windowBytes)) = none
          then validLength p / windowBytes else validLength p / windowBytes + 1) := by
  have hlength := validLength_drop hv hrun
  have hw : windowOf v (validLength (p.drop v)) = validLength p / windowBytes := by
    rw [windowOf, hlength]
  have hend := lt_window_end_iff.2 (le_refl (validLength p / windowBytes))
  simp only [invalidWindow, hw, startOf]
  generalize (validLength p / windowBytes + 1) * windowBytes = stop at *
  -- the sequence up to the end of the window, from its start
  have hslice : ((p.drop v).take (min (stop - v) (p.drop v).length)).drop (validLength (p.drop v))
      = (p.take stop).drop (validLength p) := by
    rw [← List.take_eq_take_min, ← List.drop_take, List.drop_drop, ← hlength]
  have hfront : run .start ((p.take stop).take (validLength p)) = some .start := by
    rw [List.take_take, min_eq_left hend.le]
    exact run_validLength p
  rw [hslice, ← run_drop hfront]
  rcases fromUtf8_cases ((p.take stop).drop (validLength p)) with
    ⟨hr, hf⟩ | ⟨⟨s, -, hr⟩, hf⟩ | ⟨hr, k, hf⟩
  · simp [hf, hr]
  · simp [hf, hr]
  · simp [hf, hr]

variable (hnul : 0 ∉ p.take v)
include hnul

/-- **Before the end of the file** a call finds the first window that the bytes received decide. -/
theorem badWindow_so_far (size : ℕ) : Finds (Decided p) (badWindow (p.drop v) v size false) := by
  have hfinds := nul_finds hnul
  rw [badWindow]
  rcases fromUtf8_cases (p.drop v) with ⟨hr, hf⟩ | ⟨⟨s, hs, hr⟩, hf⟩ | ⟨hr, k, hf⟩
  · rw [run_drop hrun] at hr
    simp only [hf]
    exact hfinds.congr fun w => ⟨Or.inl, fun h => h.resolve_right (run_take_ne_none hr _)⟩
  · rw [run_drop hrun] at hr
    simp only [hf, invalidWindow]
    exact hfinds.congr fun w => ⟨Or.inl, fun h => h.resolve_right (run_take_ne_none hr _)⟩
  · rw [run_drop hrun] at hr
    simp only [hf, invalidWindow_eq hv hrun]
    exact hfinds.or (invalid_finds hr)

/-- **At the end of the file** a call finds the first window that fails it. -/
theorem badWindow_last : Finds (Fails p) (badWindow (p.drop v) v p.length true) := by
  have hfinds := nul_finds hnul
  rw [badWindow]
  rcases fromUtf8_cases (p.drop v) with ⟨hr, hf⟩ | ⟨⟨s, hs, hr⟩, hf⟩ | ⟨hr, k, hf⟩
  · rw [run_drop hrun] at hr
    simp only [hf]
    apply hfinds.congr
    intro w
    simp [Fails, Decided, hr, run_take_ne_none hr]
  · rw [run_drop hrun] at hr
    have hpos : 0 < p.length := by
      rcases p with _ | ⟨c, p⟩
      · exact absurd (Option.some.inj hr).symm hs
      · simp
    simp only [hf, invalidWindow]
    apply (hfinds.or (last_window hpos)).congr
    intro w
    simp [Fails, Decided, hr, hs, run_take_ne_none hr]
  · rw [run_drop hrun] at hr
    simp only [hf, invalidWindow_eq hv hrun]
    apply (hfinds.or (invalid_finds hr)).congr
    intro w
    constructor
    · exact Or.inl
    · rintro (h | ⟨hle, -⟩)
      · exact h
      · -- the last window ends with the file, which is refused
        exact Or.inr (by rw [List.take_of_length_le hle]; exact hr)

end Checked

/-! ## The text a call hands on -/

theorem isCharBoundary_iff (h : run .start text = some .start) (hi : i ≤ text.length) :
    isCharBoundary text i = true ↔ run .start (text.take i) = some .start := by
  obtain ⟨m, hm, hrest⟩ := run_take h i
  rcases Nat.lt_or_eq_of_le hi with hlt | rfl
  · rw [List.drop_eq_getElem_cons hlt, run_cons, Option.bind_eq_some_iff] at hrest
    obtain ⟨t, ht, -⟩ := hrest
    have hget : text[i]? = some text[i] := List.getElem?_eq_getElem hlt
    rw [hm, Option.some.injEq]
    rcases m with _ | ⟨more, low, high⟩
    · simp [isCharBoundary, hget, isContinuation_of_lead ht]
    · -- inside a character, so the byte is a continuation byte
      obtain ⟨hlow, hhigh⟩ := run_continues (s := .start) trivial hm
      have hcont : isContinuation text[i] = true := by
        rw [step] at ht
        split_ifs at ht with hb
        exact isContinuation_iff.2 ⟨by omega, by omega⟩
      have hne : i ≠ 0 := by
        rintro rfl
        simp at hm
      simp only [reduceCtorEq, iff_false, isCharBoundary, hget, hcont]
      simp [hne, hlt.ne]
  · simp [isCharBoundary, h]

theorem floorBoundary_eq (h : run .start text = some .start) (hi : i ≤ text.length) :
    floorBoundary text i = validLength (text.take i) := by
  obtain ⟨hbound, hmost⟩ := floorBoundary_spec text i
  have hle := floorBoundary_le text i
  rw [isCharBoundary_iff h (hle.trans hi)] at hbound
  refine (validLength_eq ?_ ?_ ?_).symm
  · rw [List.length_take]
    omega
  · rw [List.take_take, min_eq_left hle]
    exact hbound
  · intro k hk hrun
    rw [List.length_take] at hk
    rw [List.take_take, min_eq_left (by omega)] at hrun
    exact hmost k (by omega) ((isCharBoundary_iff h (by omega)).2 hrun)

def reach (n v : ℕ) (last : Bool) : Option ℕ → ℕ
  | some w => max v (w * windowBytes)
  | none => if last then n else max v (n / windowBytes * windowBytes)

/-- **The text handed on** is whole characters up to where the call may reach. -/
theorem checked_eq {p : List ℕ} {v : ℕ} (hv : v ≤ p.length)
    (hrun : run .start (p.take v) = some .start) (size : ℕ) (last : Bool) :
    checked (p.drop v) v size last
      = ((p.take (validLength (p.take
          (reach p.length v last (badWindow (p.drop v) v size last))))).drop v,
        (badWindow (p.drop v) v size last).isSome) := by
  have hend : v + textEnd (p.drop v) v size last
      = reach p.length v last (badWindow (p.drop v) v size last) := by
    have hlen : v + (p.drop v).length = p.length := by
      rw [List.length_drop]
      omega
    rw [textEnd]
    rcases badWindow (p.drop v) v size last with _ | w
    · simp only [reach, windowOf, startOf, hlen]
      split_ifs <;> omega
    · simp only [reach, startOf]
      omega
  have htext : (p.drop v).take (validLength ((p.drop v).take
        (min (textEnd (p.drop v) v size last) (validLength (p.drop v)))))
      = (p.take (validLength (p.take
          (reach p.length v last (badWindow (p.drop v) v size last))))).drop v := by
    rw [validLength_take, ← hend, List.take_add, validLength_append hrun, List.length_take,
      min_eq_left hv, List.drop_take, Nat.add_sub_cancel_left]
  rw [← htext, checked]
  rcases fromUtf8_cases (p.drop v) with ⟨hr, hf⟩ | ⟨⟨s, hs, hr⟩, hf⟩ | ⟨hr, k, hf⟩
  · simp only [hf, floorBoundary_eq hr (min_le_right _ _), validLength_of_run hr]
  · simp only [hf]
  · simp only [hf]

/-! ## The parts of a pass -/

/-- The parts a pass hands on to a visitor that does not stop it, and whether a NUL or invalid
UTF-8 ends it. -/
def parts (size : ℕ) : List (List ℕ) → List ℕ → ℕ → List (List ℕ) × Bool
  | [], pending, start =>
    let (text, bad) := checked pending start size true
    ([text], bad)
  | bytes :: writes, pending, start =>
    let pending := pending ++ bytes
    if blockBytes ≤ pending.length then
      let (text, bad) := checked pending start size false
      if bad then ([text], true)
      else
        let (rest, bad) := parts size writes (pending.drop text.length) (start + text.length)
        (text :: rest, bad)
    else parts size writes pending start

section Pass

variable {σ : Type*}

variable (visit : σ → List ℕ → Except Refusal Bool × σ)
theorem textsOver_cons (part : List ℕ) (rest : List (List ℕ)) (bad : Bool) (s : σ) :
    textsOver visit (part :: rest) bad s = match visit s part with
      | (.error e, s) => (.error e, s)
      | (.ok false, s) => (.ok (), s)
      | (.ok true, s) => textsOver visit rest bad s := by
  rw [textsOver, deliver_cons]
  rcases visit s part with ⟨e | _ | _, s'⟩ <;> rfl

/-- A pass that has not ended goes on to the end of the file, and its result is that of giving the
visitor its parts. -/
theorem pass_eq (size : ℕ) :
    ∀ (writes : List (List ℕ)) (pending : List ℕ) (start : ℕ) (s : σ),
      (match (Feed.pass visit writes ⟨pending, start, size, none, s⟩).ended with
        | some result =>
          (result, (Feed.pass visit writes ⟨pending, start, size, none, s⟩).user)
        | none =>
          let f := ((Feed.pass visit writes ⟨pending, start, size, none, s⟩).deliver visit true).2
          (f.ended.getD (.ok ()), f.user))
        = textsOver visit (parts size writes pending start).1 (parts size writes pending start).2
          s := by
  intro writes
  induction writes with
  | nil =>
    intro pending start s
    rcases hc : checked pending start size true with ⟨text, bad⟩
    simp only [Feed.pass, parts, Feed.deliver, textsOver_cons, hc]
    rcases visit s text with ⟨e | _ | _, s'⟩
    · rfl
    · rfl
    · cases bad <;> rfl
  | cons bytes writes ih =>
    intro pending start s
    simp only [Feed.pass, Feed.write, parts]
    by_cases hblock : blockBytes ≤ (pending ++ bytes).length
    · rcases hc : checked (pending ++ bytes) start size false with ⟨text, bad⟩
      simp only [hblock, if_true, Feed.deliver, hc]
      cases bad
      · -- the visitor ends the pass here, or it goes on behind the text
        simp only [Bool.false_eq_true, if_false, textsOver_cons]
        rcases visit s text with ⟨e | _ | _, s'⟩
        · rfl
        · rfl
        · exact ih _ _ s'
      · simp only [if_true, textsOver_cons]
        rcases visit s text with ⟨e | _ | _, s'⟩ <;> rfl
    · simp only [hblock, if_false]
      exact ih _ _ s

def Delivery.parts : Delivery → List (List ℕ) × Bool
  | .whole payload => Window.parts payload.length [] payload 0
  | .pass writes => Window.parts writes.flatten.length writes [] 0

/-- **Every visitor** is given the same parts. -/
theorem texts_eq (visit : σ → List ℕ → Except Refusal Bool × σ) (d : Delivery) (s : σ) :
    texts visit d s = textsOver visit d.parts.1 d.parts.2 s := by
  rcases d with payload | writes
  · rcases hc : checked payload 0 payload.length true with ⟨text, bad⟩
    simp only [texts, Delivery.parts, Window.parts, textsOver_cons, hc]
    rcases visit s text with ⟨e | _ | _, s'⟩
    · rfl
    · cases bad <;> rfl
    · cases bad <;> rfl
  · exact pass_eq visit writes.flatten.length writes [] 0 s

end Pass

/-! ## What a pass hands on -/

/-- Where a pass stands: `n` bytes of the file have arrived, the windows before `X` have passed
and the whole characters of them, `v` bytes, are handed on. -/
structure Handed (b : List ℕ) (n v X : ℕ) : Prop where
  received : n ≤ b.length
  windows : X * windowBytes ≤ n
  handed : v = validLength (b.take (X * windowBytes))
  clean : ∀ w < X, ¬Fails b w

namespace Handed

variable {b : List ℕ} {n v X : ℕ} (h : Handed b n v X)
include h

theorem le_window : v ≤ X * windowBytes := by
  have := validLength_le (b.take (X * windowBytes))
  rw [List.length_take] at this
  rw [h.handed]
  omega

theorem run_handed : run .start (b.take v) = some .start := by
  have := run_validLength (b.take (X * windowBytes))
  rw [← h.handed, List.take_take, min_eq_left h.le_window] at this
  exact this

theorem nul_handed : 0 ∉ b.take v := by
  rcases X with _ | X
  · have := h.le_window
    obtain rfl : v = 0 := by omega
    simp
  · intro hmem
    apply h.clean X (Nat.lt_succ_self X)
    refine Or.inl (Or.inl ?_)
    have hfront : b.take v = (b.take ((X + 1) * windowBytes)).take v := by
      rw [List.take_take, min_eq_left h.le_window]
    rw [hfront] at hmem
    exact List.mem_of_mem_take hmem

theorem le_received : v ≤ (b.take n).length := by
  have := h.le_window
  have := h.windows
  have := h.received
  rw [List.length_take]
  omega

theorem take_received : (b.take n).take v = b.take v := by
  have := h.le_window
  have := h.windows
  rw [List.take_take, min_eq_left (by omega)]

theorem more {m : ℕ} (hm : n ≤ m) (hle : m ≤ b.length) : Handed b m v X :=
  ⟨hle, h.windows.trans hm, h.handed, h.clean⟩

end Handed

theorem Handed.zero (b : List ℕ) : Handed b 0 0 0 where
  received := Nat.zero_le _
  windows := by simp
  handed := by
    rw [Nat.zero_mul, List.take_zero]
    rfl
  clean w hw := absurd hw (Nat.not_lt_zero w)

theorem Decided.of_take {b : List ℕ} {n w : ℕ} (h : Decided (b.take n) w) : Decided b w := by
  rw [Decided, List.take_take, min_comm, ← List.take_take] at h
  rcases h with hnul | hrefused
  · exact Or.inl (List.mem_of_mem_take hnul)
  · right
    rcases hr : run .start (b.take ((w + 1) * windowBytes)) with _ | s
    · rfl
    · exact absurd hrefused (run_take_ne_none hr n)

theorem decided_take_iff {b : List ℕ} {n w : ℕ} (hw : (w + 1) * windowBytes ≤ n) :
    Decided (b.take n) w ↔ Decided b w := by
  rw [Decided, Decided, List.take_take, min_eq_left hw]

/-- **The first window the received bytes decide** is the first that fails the file. -/
theorem first_so_far {b : List ℕ} {n : ℕ} (hn : n ≤ b.length)
    (h : IsLeast {w | Decided (b.take n) w} d) :
    d * windowBytes < n ∧ IsLeast {w | Fails b w} d := by
  have hlt : d * windowBytes < n := by
    by_contra hle
    -- all that has arrived stands before the window
    have hall : ∀ w, n ≤ (w + 1) * windowBytes → (Decided (b.take n) w ↔ 0 ∈ b.take n ∨
        run .start (b.take n) = none) := by
      intro w hw
      rw [Decided, List.take_take, min_eq_right hw]
    have hnext : n ≤ (d + 1) * windowBytes := by
      rw [Nat.add_mul]
      omega
    have hd := (hall d hnext).1 h.1
    rcases d with _ | d
    · obtain rfl : n = 0 := by omega
      simp at hd
    · have := h.2 ((hall d (by omega)).2 hd)
      omega
  refine ⟨hlt, Or.inl h.1.of_take, ?_⟩
  intro w hw
  by_contra hwd
  have hend : (w + 1) * windowBytes ≤ d * windowBytes :=
    Nat.mul_le_mul_right _ (by omega)
  rcases hw with hdecided | ⟨hlast, -⟩
  · exact hwd (h.2 ((decided_take_iff (by omega)).2 hdecided))
  · omega

def EndsInside (b : List ℕ) : Prop := 0 ∉ b ∧ ∃ s, s ≠ .start ∧ run .start b = some s

theorem isText_iff {b : List ℕ} : IsText b ↔ run .start b = some .start ∧ 0 ∉ b := by
  rw [IsText, utf8Valid_iff_run]

theorem Fails.not_isText {b : List ℕ} (h : Fails b w) : ¬IsText b := by
  rw [isText_iff]
  rintro ⟨hrun, hnul⟩
  rcases h with (hmem | hnone) | ⟨-, hne⟩
  · exact hnul (List.mem_of_mem_take hmem)
  · exact run_take_ne_none hrun _ hnone
  · exact hne hrun

theorem isText_of_clean {b : List ℕ} (h : ∀ w, ¬Fails b w) : IsText b := by
  have hlong : b.length ≤ (b.length + 1) * windowBytes :=
    (Nat.le_succ _).trans (Nat.le_mul_of_pos_right _ windowBytes_pos)
  have hlast := h b.length
  rw [Fails, Decided, List.take_of_length_le hlong] at hlast
  rw [isText_iff]
  refine ⟨?_, fun hmem => hlast (Or.inl (Or.inl hmem))⟩
  by_contra hne
  exact hlast (Or.inr ⟨hlong, hne⟩)

/-- Whether the pass hands text on when the whole file has arrived, before it knows that the file
ends there. -/
def handsOnAtEnd (b : List ℕ) : List (List ℕ) → ℕ → ℕ → Bool
  | [], _, _ => false
  | bytes :: writes, v, n =>
    let n := n + bytes.length
    if blockBytes ≤ n - v then
      let v := validLength (b.take (n / windowBytes * windowBytes))
      n == b.length || handsOnAtEnd b writes v n
    else handsOnAtEnd b writes v n

section Calls

variable {b : List ℕ} {n v X : ℕ} (h : Handed b n v X)
include h

theorem take_window (hX : X ≤ d) (hd : d * windowBytes ≤ n) :
    v ≤ validLength (b.take (d * windowBytes)) ∧
      (b.take n).take (validLength ((b.take n).take (max v (d * windowBytes))))
        = b.take (validLength (b.take (d * windowBytes))) := by
  have hle := h.le_window
  have hmono : X * windowBytes ≤ d * windowBytes := Nat.mul_le_mul_right _ hX
  have hn := h.received
  have hcut : (b.take n).take (d * windowBytes) = b.take (d * windowBytes) := by
    rw [List.take_take, min_eq_left hd]
  rw [max_eq_right (by omega), hcut, List.take_take]
  have hvalid := validLength_le (b.take (d * windowBytes))
  rw [List.length_take] at hvalid
  rw [min_eq_left (by omega)]
  exact ⟨le_validLength_take (by omega) (by omega) h.run_handed, rfl⟩

theorem checked_bad (hbad : badWindow ((b.take n).drop v) v b.length false = some d) :
    IsLeast {w | Fails b w} d ∧
      checked ((b.take n).drop v) v b.length false
        = ((b.take (validLength (b.take (d * windowBytes)))).drop v, true) := by
  have hrun : run .start ((b.take n).take v) = some .start := h.take_received ▸ h.run_handed
  have hfinds := badWindow_so_far h.le_received hrun (h.take_received ▸ h.nul_handed) b.length
  rw [hbad] at hfinds
  obtain ⟨hlt, hleast⟩ := first_so_far h.received hfinds
  have hX : X ≤ d := by
    by_contra hd
    exact h.clean d (by omega) hleast.1
  refine ⟨hleast, ?_⟩
  rw [checked_eq h.le_received hrun, hbad, reach, (take_window h hX hlt.le).2]
  rfl

/-- A call before the end of the file that finds none hands on the windows that have arrived, and
none of these is decided. -/
theorem checked_clean (hbad : badWindow ((b.take n).drop v) v b.length false = none) :
    (∀ w, (w + 1) * windowBytes ≤ n → ¬Decided b w) ∧
      v ≤ validLength (b.take (n / windowBytes * windowBytes)) ∧
      checked ((b.take n).drop v) v b.length false
        = ((b.take (validLength (b.take (n / windowBytes * windowBytes)))).drop v, false) := by
  have hrun : run .start ((b.take n).take v) = some .start := h.take_received ▸ h.run_handed
  have hfinds := badWindow_so_far h.le_received hrun (h.take_received ▸ h.nul_handed) b.length
  rw [hbad] at hfinds
  have hX : X ≤ n / windowBytes := (Nat.le_div_iff_mul_le windowBytes_pos).2 h.windows
  obtain ⟨hle, htake⟩ := take_window h hX (Nat.div_mul_le_self n windowBytes)
  refine ⟨fun w hw hdecided => hfinds w ((decided_take_iff hw).2 hdecided), hle, ?_⟩
  have hlength : (b.take n).length = n := by
    rw [List.length_take]
    exact min_eq_left h.received
  rw [checked_eq h.le_received hrun, hbad, hlength, reach, if_neg (by simp), htake]
  rfl

theorem checked_end (hn : n = b.length) :
    Scanned b (b.take v ++ (checked ((b.take n).drop v) v b.length true).1)
      (checked ((b.take n).drop v) v b.length true).2 := by
  have hall : b.take n = b := List.take_of_length_le hn.ge
  have hv : v ≤ b.length := by
    have := h.le_received
    rwa [hall] at this
  have hjoin : ∀ k, v ≤ k → b.take v ++ (b.take k).drop v = b.take k := by
    intro k hk
    have := List.take_append_drop v (b.take k)
    rwa [List.take_take, min_eq_left hk] at this
  have hfinds := badWindow_last hv h.run_handed h.nul_handed
  rw [hall, checked_eq hv h.run_handed]
  rcases hbad : badWindow (b.drop v) v b.length true with _ | d
  · rw [hbad] at hfinds
    have htext := isText_of_clean hfinds
    have hrun := (isText_iff.1 htext).1
    refine Or.inl ⟨htext, ?_, rfl⟩
    simp only [reach, if_true, List.take_length, validLength_of_run hrun]
    exact List.take_append_drop v b
  · rw [hbad] at hfinds
    have hX : X ≤ d := by
      by_contra hd
      exact h.clean d (by omega) hfinds.1
    have hle := h.le_window
    have hmono : X * windowBytes ≤ d * windowBytes := Nat.mul_le_mul_right _ hX
    refine Or.inr ⟨hfinds.1.not_isText, rfl, d, hfinds, ?_⟩
    simp only [reach]
    rw [max_eq_right (by omega)]
    exact hjoin _ (le_validLength_take hv (by omega) h.run_handed)

end Calls

theorem take_join {b : List ℕ} {v : ℕ} (hk : v ≤ k) : b.take v ++ (b.take k).drop v = b.take k := by
  have := List.take_append_drop v (b.take k)
  rwa [List.take_take, min_eq_left hk] at this

theorem Handed.write {b bytes rest : List ℕ} {n v X : ℕ} (h : Handed b n v X)
    (hrest : b.drop n = bytes ++ rest) :
    Handed b (n + bytes.length) v X ∧ b.drop (n + bytes.length) = rest ∧
      (b.take n).drop v ++ bytes = (b.take (n + bytes.length)).drop v ∧
      ((b.take (n + bytes.length)).drop v).length = n + bytes.length - v := by
  have hn : n + bytes.length ≤ b.length := by
    have := congrArg List.length hrest
    have hle := h.received
    rw [List.length_drop, List.length_append] at this
    omega
  refine ⟨h.more (Nat.le_add_right n bytes.length) hn, ?_, ?_, ?_⟩
  · rw [← List.drop_drop, hrest, List.drop_left]
  · rw [List.take_add, hrest, List.take_left, List.drop_append_of_le_length h.le_received]
  · rw [List.length_drop, List.length_take, min_eq_left hn]

theorem pending_drop {b : List ℕ} {n v : ℕ} (hv : v ≤ k) (hk : k ≤ b.length) :
    ((b.take n).drop v).drop ((b.take k).drop v).length = (b.take n).drop k ∧
      v + ((b.take k).drop v).length = k := by
  have hlength : v + ((b.take k).drop v).length = k := by
    rw [List.length_drop, List.length_take]
    omega
  refine ⟨?_, hlength⟩
  rw [List.drop_drop, hlength]

/-- **A pass** hands on what the scan of the file does, unless it hands on the last window of a
file that ends inside a character. By induction on the writes still to come. -/
theorem parts_scanned {b : List ℕ} :
    ∀ (writes : List (List ℕ)) (n v X : ℕ), Handed b n v X → b.drop n = writes.flatten →
      ¬(EndsInside b ∧ windowBytes ∣ b.length ∧ handsOnAtEnd b writes v n = true) →
      Scanned b (b.take v ++ (parts b.length writes ((b.take n).drop v) v).1.flatten)
        (parts b.length writes ((b.take n).drop v) v).2 := by
  intro writes
  induction writes with
  | nil =>
    intro n v X h hrest _
    have hn : n = b.length := by
      rw [List.flatten_nil, List.drop_eq_nil_iff] at hrest
      exact le_antisymm h.received hrest
    have hend := checked_end h hn
    simpa only [parts, List.flatten_cons, List.flatten_nil, List.append_nil] using hend
  | cons bytes writes ih =>
    intro n v X h hrest hcut
    rw [List.flatten_cons] at hrest
    obtain ⟨hmore, hrest', hpending, hlength⟩ := h.write hrest
    rw [handsOnAtEnd] at hcut
    simp only [parts, hpending, hlength]
    generalize n + bytes.length = m at *
    by_cases hblock : blockBytes ≤ m - v
    · simp only [hblock, if_true] at hcut ⊢
      rcases hbad : badWindow ((b.take m).drop v) v b.length false with _ | d
      · obtain ⟨hnot, hle, hchecked⟩ := checked_clean hmore hbad
        have hvalid : validLength (b.take (m / windowBytes * windowBytes)) ≤ b.length :=
          (validLength_le _).trans (by rw [List.length_take]; exact min_le_right _ _)
        obtain ⟨hdrop, hstart⟩ := pending_drop (n := m) hle hvalid
        have hnext : Handed b m (validLength (b.take (m / windowBytes * windowBytes)))
            (m / windowBytes) := by
          refine ⟨hmore.received, Nat.div_mul_le_self m windowBytes, rfl, ?_⟩
          rintro w hw (hdecided | ⟨hlast, hne⟩)
          · exact hnot w ((Nat.le_div_iff_mul_le windowBytes_pos).1 hw) hdecided
          · -- the whole file has arrived, and its last window with it
            have hwm : (w + 1) * windowBytes ≤ m :=
              (Nat.le_div_iff_mul_le windowBytes_pos).1 hw
            have hn := hmore.received
            have hlen : b.length = (w + 1) * windowBytes := by omega
            have hwhole := hnot w (by omega)
            rw [Decided, ← hlen, List.take_length] at hwhole
            apply hcut
            refine ⟨⟨fun hmem => hwhole (Or.inl hmem), ?_⟩, ⟨w + 1, by rw [hlen, mul_comm]⟩, ?_⟩
            · rcases hr : run .start b with _ | s
              · exact absurd (Or.inr hr) hwhole
              · refine ⟨s, ?_, rfl⟩
                rintro rfl
                exact hne hr
            · rw [Bool.or_eq_true, beq_iff_eq]
              exact Or.inl (by omega)
        simp only [hchecked, Bool.false_eq_true, if_false, hdrop, hstart, List.flatten_cons]
        rw [← List.append_assoc, take_join hle]
        apply ih m _ _ hnext hrest'
        rintro ⟨hinside, hdvd, hends⟩
        apply hcut
        exact ⟨hinside, hdvd, by rw [hends, Bool.or_true]⟩
      · obtain ⟨hleast, hchecked⟩ := checked_bad hmore hbad
        have hX : X ≤ d := by
          by_contra hd
          exact h.clean d (by omega) hleast.1
        simp only [hchecked, if_true]
        refine Or.inr ⟨hleast.1.not_isText, rfl, d, hleast, ?_⟩
        rw [List.flatten_singleton]
        apply take_join
        have hwindow := h.le_window
        have hmono : X * windowBytes ≤ d * windowBytes := Nat.mul_le_mul_right _ hX
        have hv := h.le_received
        rw [List.length_take] at hv
        exact le_validLength_take (by omega) (by omega) h.run_handed
    · simp only [hblock, if_false] at hcut ⊢
      exact ih m v X hmore hrest' hcut

/-! ## A pass that hands on the last window -/

theorem EndsInside.not_decided {b : List ℕ} (h : EndsInside b) (w : ℕ) : ¬Decided b w := by
  obtain ⟨hnul, s, -, hr⟩ := h
  rintro (hmem | hnone)
  · exact hnul (List.mem_of_mem_take hmem)
  · exact run_take_ne_none hr _ hnone

theorem EndsInside.not_isText {b : List ℕ} (h : EndsInside b) : ¬IsText b := by
  obtain ⟨-, s, hs, hr⟩ := h
  rw [isText_iff, hr]
  rintro ⟨hstart, -⟩
  exact hs (Option.some.inj hstart)

theorem EndsInside.badWindow_eq {b : List ℕ} (h : EndsInside b) {n v X : ℕ}
    (hh : Handed b n v X) : badWindow ((b.take n).drop v) v b.length false = none := by
  rcases hbad : badWindow ((b.take n).drop v) v b.length false with _ | d
  · rfl
  · have hfinds := badWindow_so_far hh.le_received (hh.take_received ▸ hh.run_handed)
      (hh.take_received ▸ hh.nul_handed) b.length
    rw [hbad] at hfinds
    exact absurd hfinds.1.of_take (h.not_decided d)

theorem parts_behind {b : List ℕ} (h : EndsInside b) :
    ∀ writes : List (List ℕ), writes.flatten = [] →
      (parts b.length writes (b.drop (validLength b)) (validLength b)).1.flatten = [] := by
  intro writes
  induction writes with
  | nil =>
    intro _
    have hfinds := badWindow_last (validLength_le b) (run_validLength b)
      (fun hmem => h.1 (List.mem_of_mem_take hmem))
    simp only [parts, checked_eq (validLength_le b) (run_validLength b)]
    rcases hbad : badWindow (b.drop (validLength b)) (validLength b) b.length true with _ | d
    · rw [hbad] at hfinds
      exact absurd (isText_of_clean hfinds) h.not_isText
    · rw [List.flatten_singleton, List.drop_eq_nil_iff, List.length_take]
      obtain ⟨hvalid, hrun, -⟩ := validLength_spec
        (b.take (reach b.length (validLength b) true (some d)))
      rw [List.length_take] at hvalid
      rw [List.take_take, min_eq_left (by omega)] at hrun
      exact (min_le_left _ _).trans ((validLength_spec b).2.2 _ (by omega) hrun)
  | cons bytes writes ih =>
    intro hempty
    rw [List.flatten_cons, List.append_eq_nil_iff] at hempty
    obtain ⟨rfl, hempty⟩ := hempty
    obtain ⟨-, s, -, hr⟩ := h
    -- at most three bytes are pending
    have hshort := length_le_validLength hr
    have hblock : ¬blockBytes ≤ (b.drop (validLength b) ++ []).length := by
      rw [List.append_nil, List.length_drop]
      have : 3 < blockBytes := by decide
      omega
    rw [parts, if_neg hblock, List.append_nil]
    exact ih hempty

/-- **A pass that hands on the last window** of a file that ends inside a character hands on all
of the file's whole characters. -/
theorem parts_cut {b : List ℕ} (hinside : EndsInside b) (hdvd : windowBytes ∣ b.length) :
    ∀ (writes : List (List ℕ)) (n v X : ℕ), Handed b n v X → b.drop n = writes.flatten →
      handsOnAtEnd b writes v n = true →
      b.take v ++ (parts b.length writes ((b.take n).drop v) v).1.flatten
        = b.take (validLength b) := by
  intro writes
  induction writes with
  | nil =>
    intro n v X _ _ hends
    cases hends
  | cons bytes writes ih =>
    intro n v X h hrest hends
    rw [List.flatten_cons] at hrest
    obtain ⟨hmore, hrest', hpending, hlength⟩ := h.write hrest
    rw [handsOnAtEnd] at hends
    simp only [parts, hpending, hlength]
    generalize n + bytes.length = m at *
    by_cases hblock : blockBytes ≤ m - v
    · simp only [hblock, if_true] at hends ⊢
      obtain ⟨-, hle, hchecked⟩ := checked_clean hmore (hinside.badWindow_eq hmore)
      have hvalid : validLength (b.take (m / windowBytes * windowBytes)) ≤ b.length :=
        (validLength_le _).trans (by rw [List.length_take]; exact min_le_right _ _)
      obtain ⟨hdrop, hstart⟩ := pending_drop (n := m) hle hvalid
      simp only [hchecked, Bool.false_eq_true, if_false, hdrop, hstart, List.flatten_cons]
      rw [← List.append_assoc, take_join hle]
      by_cases hm : m = b.length
      · -- here the last window is handed on
        subst hm
        rw [Nat.div_mul_cancel hdvd, List.take_length]
        rw [List.drop_length] at hrest'
        rw [parts_behind hinside writes hrest'.symm, List.append_nil]
      · rw [Bool.or_eq_true, beq_iff_eq] at hends
        have hends := hends.resolve_left hm
        apply ih m _ (m / windowBytes) _ hrest' hends
        refine ⟨hmore.received, Nat.div_mul_le_self m windowBytes, rfl, ?_⟩
        rintro w hw (hdecided | ⟨hlast, -⟩)
        · exact hinside.not_decided w hdecided
        · have hwm : (w + 1) * windowBytes ≤ m :=
            (Nat.le_div_iff_mul_le windowBytes_pos).1 hw
          have hn := hmore.received
          omega
    · simp only [hblock, if_false] at hends ⊢
      exact ih m v X hmore hrest' hends

theorem EndsInside.not_scanned {b : List ℕ} (h : EndsInside b) (hdvd : windowBytes ∣ b.length)
    (bad : Bool) : ¬Scanned b (b.take (validLength b)) bad := by
  rintro (⟨htext, -⟩ | ⟨-, -, w, hleast, heq⟩)
  · exact h.not_isText htext
  obtain ⟨-, s, hs, hr⟩ := id h
  have hshort := length_le_validLength hr
  have hvalid := validLength_le b
  have hlength := congrArg List.length heq
  have hcut := validLength_le (b.take (w * windowBytes))
  rw [List.length_take] at hcut
  rw [List.length_take, List.length_take] at hlength
  obtain ⟨k, hk⟩ := hdvd
  have hfour : 4 ≤ windowBytes := by decide
  rcases k with _ | k
  · have hnil : b = [] := List.eq_nil_of_length_eq_zero (by omega)
    subst hnil
    exact hs (Option.some.inj hr).symm
  · have hlast : Fails b k := by
      refine Or.inr ⟨by rw [hk, mul_comm], ?_⟩
      rw [hr]
      exact fun hstart => hs (Option.some.inj hstart)
    have hwk := Nat.mul_le_mul_right windowBytes (hleast.2 hlast)
    rw [mul_comm, Nat.add_mul, one_mul] at hk
    omega

/-! ## The file -/

/-- The lines a scan visits: the lines of a text, and of a file that is none the lines its text
closes. -/
def lineVisits (width first : ℕ) (text : List ℕ) (bad : Bool) : List (ℕ × Line) :=
  if bad then partVisits width (fromLine first) ⟨[], []⟩ text
  else textVisits width (fromLine first) text

theorem textsOver_whole {τ β : Type*} (visit : τ → β → Except Refusal Bool × τ) (l : List β)
    (s : τ) : textsOver visit l false s = ended (Pieces.deliver visit l s) := by
  rw [textsOver]
  rcases Pieces.deliver visit l s with ⟨e | _ | _, s'⟩ <;> rfl

/-- **The lines of a file** are visited with their numbers whatever its parts. -/
theorem lines_eq {σ : Type*} (visit : σ → ℕ × Line → Except Refusal Bool × σ) (width first : ℕ)
    (d : Delivery) (s : σ) :
    lines visit width first d s
      = textsOver visit (lineVisits width first d.parts.1.flatten d.parts.2) d.parts.2 s := by
  rw [lines, texts_eq]
  generalize d.parts.1 = P
  rcases d.parts.2 with _ | _
  · rw [lineVisits, if_neg (by simp), textsOver_whole, textsOver_whole, ← linesOver_eq, linesOver]
    rcases Pieces.deliver (linesPart visit width first) P ⟨Open.new, false, s⟩ with ⟨e | _, st⟩ <;> rfl
  · have hstart : atText width first ⟨[], []⟩ = Open.new := by
      rw [atText]
      split_ifs <;> simp [Open.new]
    have h := linesParts_follows visit width first P ⟨[], []⟩ s
    rw [hstart] at h
    rw [lineVisits, if_pos rfl, textsOver, textsOver]
    generalize Pieces.deliver (linesPart visit width first) P ⟨Open.new, false, s⟩ = r' at h
    generalize Pieces.deliver visit (partVisits width (fromLine first) ⟨[], []⟩ P.flatten) s = r at h
    obtain ⟨answer, o, stopped, user⟩ := r'
    obtain ⟨e | _ | _, s'⟩ := r
    · obtain rfl : answer = .error e := h.answer
      obtain rfl : user = s' := h.user
      rfl
    · obtain rfl : answer = .ok false := h.answer
      obtain rfl : user = s' := h.user
      obtain rfl : stopped = true := h.stopped rfl
      simp [linesEnd]
    · obtain rfl : answer = .ok true := h.answer
      obtain rfl : user = s' := h.user
      rfl

def collect (seen text : List ℕ) : Except Refusal Bool × List ℕ := (.ok true, seen ++ text)

theorem texts_collect (d : Delivery) :
    texts collect d [] = (if d.parts.2 then .error binary else .ok (), d.parts.1.flatten) := by
  have hfold : ∀ (l : List (List ℕ)) (s : List ℕ), l.foldl (· ++ ·) s = s ++ l.flatten := by
    intro l
    induction l with
    | nil => simp
    | cons t l ih => simp [ih]
  have hgiven : ∀ s t, collect s t = (.ok true, s ++ t) := fun _ _ => rfl
  rw [texts_eq, textsOver, deliver_eq_foldl hgiven, hfold]
  rcases d.parts.2 with _ | _ <;> rfl

/-- **What a file's scan promises** of one delivery of it: the text handed on and the outcome are
those of the content alone, and so are the visits of its lines and what a visitor is answered,
wherever it stops. -/
structure Promised (d : Delivery) (text : List ℕ) (bad : Bool) : Prop where
  scanned : Scanned d.content text bad
  texts : texts collect d [] = (if bad then .error binary else .ok (), text)
  lines : ∀ {σ : Type} (visit : σ → ℕ × Line → Except Refusal Bool × σ) (width first : ℕ) (s : σ),
    Window.lines visit width first d s
      = textsOver visit (lineVisits width first text bad) bad s

/-- A pass of a file that ends inside a character, its length whole windows, that hands text on
once all of it has arrived. -/
def Delivery.Cut : Delivery → Prop
  | .whole _ => False
  | .pass writes => EndsInside writes.flatten ∧ windowBytes ∣ writes.flatten.length ∧
      handsOnAtEnd writes.flatten writes 0 0 = true

theorem Delivery.scanned {d : Delivery} (h : ¬d.Cut) :
    Scanned d.content d.parts.1.flatten d.parts.2 := by
  rcases d with payload | writes
  · have := parts_scanned (b := payload) [] payload.length 0 0
      ((Handed.zero payload).more (Nat.zero_le _) le_rfl) (by simp) (by simp [handsOnAtEnd])
    rwa [List.take_length] at this
  · exact parts_scanned writes 0 0 0 (Handed.zero _) rfl h

theorem Delivery.Cut.not_scanned {d : Delivery} (h : d.Cut) (bad : Bool) :
    ¬Scanned d.content d.parts.1.flatten bad := by
  rcases d with payload | writes
  · exact h.elim
  · obtain ⟨hinside, hdvd, hends⟩ := h
    have htext : (Window.parts writes.flatten.length writes [] 0).1.flatten
        = writes.flatten.take (validLength writes.flatten) :=
      parts_cut hinside hdvd writes 0 0 0 (Handed.zero _) rfl hends
    rw [Delivery.content, Delivery.parts, htext]
    exact hinside.not_scanned hdvd bad

/-- **The text of a file and the visits of its lines depend on its content alone** exactly when no
pass hands on the last window of a file that ends inside a character before the pass has ended. -/
theorem texts_promised_iff (d : Delivery) : (∃ text bad, Promised d text bad) ↔ ¬d.Cut := by
  constructor
  · rintro ⟨text, bad, h⟩ hcut
    have hparts := texts_collect d
    rw [h.texts, Prod.mk.injEq] at hparts
    apply hcut.not_scanned bad
    rw [← hparts.2]
    exact h.scanned
  · intro hcut
    exact ⟨_, _, Delivery.scanned hcut, texts_collect d, fun visit width first s =>
      lines_eq visit width first d s⟩

/-- A file of 256 KiB of ASCII letters whose last byte starts a character of two bytes, read in
writes of 32 KiB. -/
def incompleteWrites : List (List ℕ) :=
  List.replicate 7 (List.replicate 32768 97) ++ [List.replicate 32767 97 ++ [0xC3]]

theorem run_letters (n : ℕ) : run .start (List.replicate n 97) = some .start := by
  induction n with
  | zero => rfl
  | succ n ih =>
    rw [List.replicate_succ, run_cons]
    exact ih

theorem incompleteWrites_flatten :
    incompleteWrites.flatten = List.replicate 262143 97 ++ [0xC3] := by
  rw [incompleteWrites, List.flatten_append, List.flatten_replicate_replicate,
    List.flatten_singleton, ← List.append_assoc, List.replicate_append_replicate]

theorem incompleteWrites_cut : (Delivery.pass incompleteWrites).Cut := by
  rw [Delivery.Cut, incompleteWrites_flatten]
  have hlength : (List.replicate 262143 97 ++ [0xC3]).length = 262144 := by
    rw [List.length_append, List.length_replicate, List.length_singleton]
  refine ⟨⟨?_, .owes 0 0x80 0xBF, by simp, ?_⟩, ?_, ?_⟩
  · rw [List.mem_append, List.mem_replicate]
    simp
  · rw [run_append_of_start (run_letters _)]
    rfl
  · rw [hlength]
    decide
  · have hwrite : (List.replicate 32768 97).length = 32768 := List.length_replicate
    have hlast : (List.replicate 32767 97 ++ [0xC3]).length = 32768 := by
      rw [List.length_append, List.length_replicate, List.length_singleton]
    have hblock : blockBytes = 262144 := rfl
    -- only the lengths of the writes count
    rw [incompleteWrites]
    generalize List.replicate 262143 97 ++ [0xC3] = b at *
    generalize List.replicate 32767 97 ++ [0xC3] = l at *
    generalize List.replicate 32768 97 = w at *
    simp [List.replicate_succ, handsOnAtEnd, hwrite, hlast, hblock, hlength]

/-- That file: the text handed on reaches into the file's last window. -/
theorem texts_incomplete : ¬∃ text bad, Promised (.pass incompleteWrites) text bad := by
  rintro ⟨text, bad, h⟩
  have hparts := texts_collect (.pass incompleteWrites)
  rw [h.texts, Prod.mk.injEq] at hparts
  apply incompleteWrites_cut.not_scanned bad
  rw [← hparts.2]
  exact h.scanned

end LayerFs.Window
