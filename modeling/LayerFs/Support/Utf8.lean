import Mathlib.Data.List.Chain

/-!
# UTF-8, one byte at a time

The machine that validates UTF-8: between two bytes it is at the start of a character or owes
continuation bytes, the next of them in a range. `fromUtf8` is the standard library's validation:
where it fails it gives the length of the valid text before the failure, and the length of the
failing sequence unless the bytes merely end inside a character.

* `fromUtf8_answers` — **the three answers**, by where the machine ends; `fromUtf8_ok_iff`,
  `fromUtf8_incomplete` and `fromUtf8_invalid` read one each.
-/

namespace LayerFs.Utf8

open List

variable {a bytes done l : List ℕ} {b k n valid : ℕ}

/-! ## The machine -/

/-- Between two bytes: at the start of a character, or owing a byte from `low` to `high` and
`more` continuation bytes behind it. -/
inductive State where
  | start
  | owes (more low high : ℕ)
  deriving DecidableEq, Repr

def lead (b : ℕ) : Option State :=
  if b < 0x80 then some .start
  else if 0xC2 ≤ b ∧ b ≤ 0xDF then some (.owes 0 0x80 0xBF)
  else if b = 0xE0 then some (.owes 1 0xA0 0xBF)
  else if b = 0xED then some (.owes 1 0x80 0x9F)
  else if 0xE1 ≤ b ∧ b ≤ 0xEF then some (.owes 1 0x80 0xBF)
  else if b = 0xF0 then some (.owes 2 0x90 0xBF)
  else if b = 0xF4 then some (.owes 2 0x80 0x8F)
  else if 0xF1 ≤ b ∧ b ≤ 0xF3 then some (.owes 2 0x80 0xBF)
  else none

def paid : ℕ → State
  | 0 => .start
  | more + 1 => .owes more 0x80 0xBF

def step : State → ℕ → Option State
  | .start, b => lead b
  | .owes more low high, b => if low ≤ b ∧ b ≤ high then some (paid more) else none

def run : State → List ℕ → Option State
  | s, [] => some s
  | s, b :: rest => (step s b).bind (run · rest)

/-- What a failed validation gives. -/
structure Utf8Error where
  /-- length of the valid text before the failure -/
  validUpTo : ℕ
  /-- length of the failing sequence, absent when the bytes end inside a character -/
  errorLen : Option ℕ
  deriving DecidableEq, Repr

/-- The validation loop: the state, the valid length so far, the position and the bytes. -/
def validate : State → ℕ → ℕ → List ℕ → Except Utf8Error Unit
  | .start, _, _, [] => .ok ()
  | .owes .., valid, _, [] => .error ⟨valid, none⟩
  | s, valid, i, b :: rest =>
    match step s b with
    | none => .error ⟨valid, some (max 1 (i - valid))⟩
    | some s => validate s (if s = .start then i + 1 else valid) (i + 1) rest

/-- `std::str::from_utf8`. -/
def fromUtf8 (bytes : List ℕ) : Except Utf8Error Unit := validate .start 0 0 bytes

/-! ## Running -/

@[simp]
theorem run_nil (s : State) : run s [] = some s := rfl

@[simp]
theorem run_cons (s : State) (b : ℕ) (rest : List ℕ) :
    run s (b :: rest) = (step s b).bind (run · rest) := rfl

theorem run_append (s : State) (a b : List ℕ) : run s (a ++ b) = (run s a).bind (run · b) := by
  induction a generalizing s with
  | nil => rfl
  | cons c a ih =>
    rw [cons_append, run_cons, run_cons]
    rcases step s c with _ | s'
    · rfl
    · exact ih s'

variable {s t : State}

theorem run_take (h : run s l = some t) (n : ℕ) :
    ∃ m, run s (l.take n) = some m ∧ run m (l.drop n) = some t := by
  rw [← take_append_drop n l, run_append] at h
  exact Option.bind_eq_some_iff.1 h

theorem run_append_of_start {b : List ℕ} (h : run .start a = some .start) :
    run .start (a ++ b) = run .start b := by
  rw [run_append, h]
  rfl

def State.High : State → Prop
  | .start => True
  | .owes _ low _ => 0x80 ≤ low

theorem step_high (h : step s b = some t) : t.High := by
  rcases s with _ | ⟨more, low, high⟩
  · rw [step, lead] at h
    split_ifs at h <;> cases h <;> simp [State.High]
  · rw [step] at h
    split_ifs at h
    cases h
    rcases more with _ | more <;> simp [paid, State.High]

theorem run_high (hs : s.High) (h : run s l = some t) : t.High := by
  induction l generalizing s with
  | nil =>
    obtain rfl := Option.some.inj h
    exact hs
  | cons b l ih =>
    rw [run_cons, Option.bind_eq_some_iff] at h
    obtain ⟨s', hs', h⟩ := h
    exact ih (step_high hs') h

theorem step_ascii (hs : s.High) (hb : b < 0x80) (h : step s b = some t) :
    s = .start ∧ t = .start := by
  rcases s with _ | ⟨more, low, high⟩
  · rw [step, lead, if_pos hb] at h
    exact ⟨rfl, (Option.some.inj h).symm⟩
  · rw [step, if_neg] at h
    · cases h
    · simp only [State.High] at hs
      omega

/-! ## Validation -/

/-- Validation goes on where the machine stands, and its valid length is the last position at
which the machine was between characters. -/
structure Reached (done : List ℕ) (s : State) (valid : ℕ) : Prop where
  state : run .start done = some s
  le : valid ≤ done.length
  whole : run .start (done.take valid) = some .start
  last : ∀ k, valid < k → k ≤ done.length → run .start (done.take k) ≠ some .start

theorem Reached.nil : Reached [] .start 0 where
  state := rfl
  le := le_rfl
  whole := rfl
  last k hk hle := by simp at hle; omega

theorem Reached.step {s' : State} (h : Reached done s valid) (hb : Utf8.step s b = some s') :
    Reached (done ++ [b]) s' (if s' = .start then done.length + 1 else valid) := by
  have hstate : run .start (done ++ [b]) = some s' := by
    rw [run_append, h.state, Option.bind_some, run_cons, hb]
    rfl
  by_cases hs : s' = .start
  · rw [if_pos hs]
    refine ⟨hstate, by simp, ?_, ?_⟩
    · rw [take_of_length_le (by simp), hstate, hs]
    · intro k hk hle
      rw [length_append, length_singleton] at hle
      omega
  · rw [if_neg hs]
    refine ⟨hstate, by simpa using h.le.trans (Nat.le_succ _), ?_, ?_⟩
    · rw [take_append_of_le_length h.le]
      exact h.whole
    · intro k hk hle
      rw [length_append, length_singleton] at hle
      rcases Nat.lt_or_eq_of_le hle with hlt | rfl
      · rw [take_append_of_le_length (by omega)]
        exact h.last k hk (by omega)
      · rw [take_of_length_le (by simp), hstate]
        simpa using hs

def Answers (text : List ℕ) : Except Utf8Error Unit → Prop
  | .ok _ => run .start text = some .start
  | .error e =>
    e.validUpTo ≤ text.length ∧ run .start (text.take e.validUpTo) = some .start ∧
      match e.errorLen with
      | none => (∃ s, s ≠ .start ∧ run .start text = some s) ∧
          ∀ k, e.validUpTo < k → k ≤ text.length → run .start (text.take k) ≠ some .start
      | some n => run .start text = none ∧ 0 < n ∧
          ∃ i, e.validUpTo ≤ i ∧ i < text.length ∧ n = max 1 (i - e.validUpTo) ∧
            (∃ s, run .start (text.take i) = some s) ∧ run .start (text.take (i + 1)) = none ∧
            ∀ k, e.validUpTo < k → k ≤ i → run .start (text.take k) ≠ some .start

theorem validate_answers (rest : List ℕ) (h : Reached done s valid) :
    Answers (done ++ rest) (validate s valid done.length rest) := by
  induction rest generalizing done s valid with
  | nil =>
    rw [append_nil]
    rcases s with _ | ⟨more, low, high⟩
    · exact h.state
    · exact ⟨h.le, h.whole, ⟨_, by simp, h.state⟩, h.last⟩
  | cons b rest ih =>
    have hrun : run .start (done ++ [b]) = step s b := by
      rw [run_append, h.state, Option.bind_some, run_cons]
      rcases step s b with _ | s' <;> rfl
    rw [validate.eq_def]
    rcases hb : step s b with _ | s'
    · have htake : (done ++ b :: rest).take (done.length + 1) = done ++ [b] := by
        rw [take_append, take_of_length_le (by omega)]
        simp
      have htext : run .start (done ++ b :: rest) = none := by
        rw [← take_append_drop (done.length + 1) (done ++ b :: rest), htake, run_append, hrun,
          hb]
        rfl
      have hbefore : ∀ k ≤ done.length, (done ++ b :: rest).take k = done.take k :=
        fun k hk => take_append_of_le_length hk
      have hle := h.le
      simp only [hb]
      refine ⟨by simp only [length_append]; omega, ?_, htext, by omega, done.length, h.le,
        by simp, rfl, ⟨s, ?_⟩, ?_, ?_⟩
      · exact hbefore _ hle ▸ h.whole
      · rw [hbefore _ le_rfl, take_length]
        exact h.state
      · rw [htake, hrun, hb]
      · intro k hk hkle
        rw [hbefore k hkle]
        exact h.last k hk hkle
    · have := ih (h.step hb)
      simp only [hb]
      simpa using this

/-- **The answer** of `fromUtf8` says where the machine ends. -/
theorem fromUtf8_answers (bytes : List ℕ) : Answers bytes (fromUtf8 bytes) := by
  exact validate_answers bytes Reached.nil

theorem fromUtf8_ok_iff : fromUtf8 bytes = .ok () ↔ run .start bytes = some .start := by
  have h := fromUtf8_answers bytes
  rcases hf : fromUtf8 bytes with ⟨v, _ | n⟩ | ⟨⟩
  · rw [hf] at h
    obtain ⟨-, -, ⟨s, hs, hrun⟩, -⟩ := h
    simp [hrun, hs]
  · rw [hf] at h
    obtain ⟨-, -, hrun, -⟩ := h
    simp [hrun]
  · rw [hf] at h
    exact iff_of_true rfl h

/-- Bytes that merely end inside a character: the machine stops owing, and behind the valid text
it has only the bytes of that character. -/
theorem fromUtf8_incomplete (h : fromUtf8 bytes = .error ⟨valid, none⟩) :
    valid ≤ bytes.length ∧ run .start (bytes.take valid) = some .start ∧
      (∃ s, s ≠ .start ∧ run .start bytes = some s) ∧
      ∀ k, valid < k → k ≤ bytes.length → run .start (bytes.take k) ≠ some .start := by
  have hanswers := fromUtf8_answers bytes
  rw [h] at hanswers
  exact hanswers

theorem fromUtf8_invalid (h : fromUtf8 bytes = .error ⟨valid, some n⟩) :
    run .start bytes = none := by
  have hanswers := fromUtf8_answers bytes
  rw [h] at hanswers
  exact hanswers.2.2.1

/-- Length of the whole characters in front of a text: all of it, or up to the failure. -/
def validLength (bytes : List ℕ) : ℕ :=
  match fromUtf8 bytes with
  | .ok _ => bytes.length
  | .error e => e.validUpTo

/-- **The valid length** is whole characters, and no longer front is. -/
theorem validLength_spec (bytes : List ℕ) :
    validLength bytes ≤ bytes.length ∧
      run .start (bytes.take (validLength bytes)) = some .start ∧
      ∀ k ≤ bytes.length, run .start (bytes.take k) = some .start → k ≤ validLength bytes := by
  have h := fromUtf8_answers bytes
  rw [validLength]
  rcases hf : fromUtf8 bytes with ⟨valid, _ | n⟩ | ⟨⟩
  · rw [hf] at h
    obtain ⟨hle, hwhole, -, hlast⟩ := h
    refine ⟨hle, hwhole, fun k hk hrun => ?_⟩
    by_contra hlt
    exact hlast k (by simpa using hlt) hk hrun
  · rw [hf] at h
    obtain ⟨hle, hwhole, -, -, i, -, -, -, -, hnone, hlast⟩ := h
    refine ⟨hle, hwhole, fun k hk hrun => ?_⟩
    by_contra hlt
    rcases Nat.lt_or_ge i k with hik | hki
    · -- the machine has stopped before
      obtain ⟨m, hm, -⟩ := run_take hrun (i + 1)
      rw [take_take, min_eq_left (by omega), hnone] at hm
      cases hm
    · exact hlast k (by simpa using hlt) hki hrun
  · rw [hf] at h
    refine ⟨le_rfl, ?_, fun k hk _ => hk⟩
    rw [take_length]
    exact h

theorem validLength_le (bytes : List ℕ) : validLength bytes ≤ bytes.length :=
  (validLength_spec bytes).1

theorem run_validLength (bytes : List ℕ) :
    run .start (bytes.take (validLength bytes)) = some .start :=
  (validLength_spec bytes).2.1

theorem validLength_eq (hle : n ≤ bytes.length) (hwhole : run .start (bytes.take n) = some .start)
    (hlast : ∀ k ≤ bytes.length, run .start (bytes.take k) = some .start → k ≤ n) :
    validLength bytes = n := by
  obtain ⟨hvalid, hrun, hmost⟩ := validLength_spec bytes
  exact le_antisymm (hlast _ hvalid hrun) (hmost n hle hwhole)

theorem validLength_of_run (h : run .start bytes = some .start) :
    validLength bytes = bytes.length := by
  refine validLength_eq le_rfl ?_ (fun k hk _ => hk)
  rw [take_length]
  exact h

theorem validLength_append {c : List ℕ} (h : run .start a = some .start) :
    validLength (a ++ c) = a.length + validLength c := by
  obtain ⟨hvalid, hrun, hmost⟩ := validLength_spec c
  apply validLength_eq
  · rw [length_append]
    omega
  · rw [take_length_add_append, run_append_of_start h]
    exact hrun
  · intro k hk hboundary
    rcases Nat.le_total k a.length with hle | hle
    · omega
    · obtain ⟨j, rfl⟩ := Nat.exists_eq_add_of_le hle
      rw [take_length_add_append, run_append_of_start h] at hboundary
      rw [length_append] at hk
      have := hmost j (by omega) hboundary
      omega

theorem le_validLength_take (hn : n ≤ bytes.length) (hk : n ≤ k)
    (h : run .start (bytes.take n) = some .start) : n ≤ validLength (bytes.take k) := by
  apply (validLength_spec (bytes.take k)).2.2
  · rw [length_take]
    omega
  · rw [take_take, min_eq_left hk]
    exact h

theorem validLength_take (bytes : List ℕ) (k : ℕ) :
    validLength (bytes.take (min k (validLength bytes))) = validLength (bytes.take k) := by
  rcases Nat.le_total k (validLength bytes) with hle | hle
  · rw [min_eq_left hle]
  · rw [min_eq_right hle, validLength_of_run (run_validLength bytes), length_take,
      min_eq_left (validLength_le bytes)]
    refine le_antisymm (le_validLength_take (validLength_le bytes) hle (run_validLength bytes)) ?_
    obtain ⟨hvalid, hrun, -⟩ := validLength_spec (bytes.take k)
    rw [length_take] at hvalid
    rw [take_take, min_eq_left (by omega)] at hrun
    exact (validLength_spec bytes).2.2 _ (by omega) hrun

theorem fromUtf8_cases (bytes : List ℕ) :
    (run .start bytes = some .start ∧ fromUtf8 bytes = .ok ()) ∨
      ((∃ s, s ≠ .start ∧ run .start bytes = some s) ∧
        fromUtf8 bytes = .error ⟨validLength bytes, none⟩) ∨
      (run .start bytes = none ∧ ∃ n, fromUtf8 bytes = .error ⟨validLength bytes, some n⟩) := by
  have hanswers := fromUtf8_answers bytes
  rw [validLength]
  rcases hf : fromUtf8 bytes with ⟨valid, _ | n⟩ | ⟨⟩
  · exact Or.inr (Or.inl ⟨(fromUtf8_incomplete hf).2.2.1, rfl⟩)
  · exact Or.inr (Or.inr ⟨fromUtf8_invalid hf, n, rfl⟩)
  · exact Or.inl ⟨fromUtf8_ok_iff.1 hf, rfl⟩

/-! ## Where a text is refused -/

theorem run_take_none (h : run s (l.take n) = none) (hk : n ≤ k) : run s (l.take k) = none := by
  rcases hrun : run s (l.take k) with _ | t
  · rfl
  · obtain ⟨m, hm, -⟩ := run_take hrun n
    rw [take_take, min_eq_left hk, h] at hm
    cases hm

def State.owed : State → ℕ
  | .start => 0
  | .owes more _ _ => more + 1

@[simp]
theorem owed_paid (more : ℕ) : (paid more).owed = more := by
  rcases more with _ | more <;> rfl

theorem lead_owed (h : lead b = some s) : s.owed ≤ 3 := by
  rw [lead] at h
  split_ifs at h <;> cases h <;> simp [State.owed]

theorem run_owed (s : State) (l : List ℕ) :
    (∃ k ≤ s.owed, k ≤ l.length ∧ run s (l.take k) = some .start) ∨
      run s (l.take s.owed) = none ∨ l.length < s.owed := by
  induction l generalizing s with
  | nil =>
    rcases s with _ | ⟨more, low, high⟩
    · exact Or.inl ⟨0, le_rfl, le_rfl, rfl⟩
    · exact Or.inr (Or.inr (by simp [State.owed]))
  | cons b l ih =>
    rcases s with _ | ⟨more, low, high⟩
    · exact Or.inl ⟨0, le_rfl, Nat.zero_le _, rfl⟩
    · by_cases hb : low ≤ b ∧ b ≤ high
      · have hstep : ∀ k, run (.owes more low high) ((b :: l).take (k + 1))
            = run (paid more) (l.take k) := by
          intro k
          rw [take_succ_cons, run_cons, step, if_pos hb]
          rfl
        rcases ih (paid more) with ⟨k, hk, hlen, hrun⟩ | hnone | hshort
        · rw [owed_paid] at hk
          refine Or.inl ⟨k + 1, ?_, by simpa using hlen, by rw [hstep]; exact hrun⟩
          simpa [State.owed] using hk
        · rw [owed_paid] at hnone
          exact Or.inr (Or.inl (by rw [State.owed, hstep]; exact hnone))
        · rw [owed_paid] at hshort
          exact Or.inr (Or.inr (by simpa [State.owed] using hshort))
      · refine Or.inr (Or.inl ?_)
        rw [State.owed, take_succ_cons, run_cons, step, if_neg hb]
        rfl

theorem run_take_four (h : run .start l = none) (hvalid : validLength l = 0) :
    run .start (l.take 4) = none := by
  rcases l with _ | ⟨b, l⟩
  · cases h
  rcases hb : lead b with _ | s
  · rw [take_succ_cons, run_cons, step, hb]
    rfl
  have hstep : ∀ k, run .start ((b :: l).take (k + 1)) = run s (l.take k) := by
    intro k
    rw [take_succ_cons, run_cons, step, hb]
    rfl
  rcases run_owed s l with ⟨k, -, hlen, hrun⟩ | hnone | hshort
  · -- a whole character after all
    have := (validLength_spec (b :: l)).2.2 (k + 1) (by simpa using hlen) (by rw [hstep]; exact hrun)
    omega
  · rw [hstep]
    exact run_take_none hnone (lead_owed hb)
  · have := lead_owed hb
    rw [take_of_length_le (by rw [length_cons]; omega)]
    exact h

theorem drop_validLength (bytes : List ℕ) :
    validLength (bytes.drop (validLength bytes)) = 0 ∧
      run .start (bytes.drop (validLength bytes)) = run .start bytes := by
  have hrun := run_validLength bytes
  have hcut := take_append_drop (validLength bytes) bytes
  constructor
  · have := validLength_append (c := bytes.drop (validLength bytes)) hrun
    rw [hcut, length_take, min_eq_left (validLength_le bytes)] at this
    omega
  · conv_rhs => rw [← hcut, run_append_of_start hrun]

/-- **A refused text** is refused within four bytes of its valid length. -/
theorem run_take_near (h : run .start bytes = none) :
    run .start (bytes.take (validLength bytes + 4)) = none := by
  obtain ⟨hzero, hrest⟩ := drop_validLength bytes
  rw [take_add, run_append_of_start (run_validLength bytes)]
  exact run_take_four (hrest.trans h) hzero

theorem length_le_three (h : run .start l = some s) (hvalid : validLength l = 0) :
    l.length ≤ 3 := by
  rcases l with _ | ⟨b, l⟩
  · exact Nat.zero_le _
  rw [run_cons, step, Option.bind_eq_some_iff] at h
  obtain ⟨t, ht, hrun⟩ := h
  rcases run_owed t l with ⟨k, -, hlen, hwhole⟩ | hnone | hshort
  · have hfront : run .start ((b :: l).take (k + 1)) = some .start := by
      rw [take_succ_cons, run_cons, step, ht]
      exact hwhole
    have := (validLength_spec (b :: l)).2.2 (k + 1) (by simpa using hlen) hfront
    omega
  · obtain ⟨m, hm, -⟩ := run_take hrun t.owed
    rw [hnone] at hm
    cases hm
  · have := lead_owed ht
    rw [length_cons]
    omega

/-- **A text that is not refused** has at most three bytes behind its whole characters. -/
theorem length_le_validLength (h : run .start bytes = some s) :
    bytes.length ≤ validLength bytes + 3 := by
  obtain ⟨hzero, hrest⟩ := drop_validLength bytes
  have := length_le_three (hrest.trans h) hzero
  rw [length_drop] at this
  omega

/-! ## Bytes inside a character -/

def State.Continues : State → Prop
  | .start => True
  | .owes _ low high => 0x80 ≤ low ∧ high ≤ 0xBF

theorem step_continues (h : step s b = some t) : t.Continues := by
  rcases s with _ | ⟨more, low, high⟩
  · rw [step, lead] at h
    split_ifs at h <;> cases h <;> simp [State.Continues]
  · rw [step] at h
    split_ifs at h
    cases h
    rcases more with _ | more <;> simp [paid, State.Continues]

theorem run_continues (hs : s.Continues) (h : run s l = some t) : t.Continues := by
  induction l generalizing s with
  | nil =>
    obtain rfl := Option.some.inj h
    exact hs
  | cons b l ih =>
    rw [run_cons, Option.bind_eq_some_iff] at h
    obtain ⟨s', hs', h⟩ := h
    exact ih (step_continues hs') h

end LayerFs.Utf8
