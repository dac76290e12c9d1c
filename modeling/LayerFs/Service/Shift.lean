import LayerFs.Content.Basic
import LayerFs.Support.Matching

/-!
# Moving a file's tail in place (`write/edit.rs`, second half)

An exact edit keeps the bytes before the match, replaces the matched text and moves the tail
behind it through windows of 32 KiB: back to front where the text grows, front to back where it
shrinks. Every window is read from the file the earlier windows were written to.

* `Shifted` — **the invariant**: what a file holds once its tail lies at its new place.
* `growTail_spec`, `shrinkTail_spec` — **both loops** move the tail and lose nothing before it.
* `shift_exact` — **the result**: the edited text, exactly when the new text fits one write and
  the edited file the largest file.
-/

namespace LayerFs.Edit

open List

open Matching

variable {cs data new old x : List ℕ} {found i offset : ℕ}

def editWindow : ℕ := 32768
/-- Largest byte window of one write job; larger requests arrive as several. -/
def writeWindow : ℕ := 128 * 1024
def maximumSize : ℕ := 2 ^ 63 - 1

/-- Stable codes of the refusals an edit gives. -/
inductive Code where
  | invalidInput
  | notFile
  | binary
  | failed
  | noMatch
  | ambiguousMatch
  deriving DecidableEq, Repr

/-- A refused call: its code, its message and the count of matches where that is the detail. -/
structure Refusal where
  code : Code
  message : String
  found : Option ℕ
  deriving DecidableEq, Repr

/-- What one step leaves: its result, and the file's bytes whether or not it was refused. -/
abbrev Outcome := Except Refusal Unit × List ℕ

/-- The next step, on the bytes the last one left; a refusal ends the call. -/
def Outcome.andThen (r : Outcome) (next : List ℕ → Outcome) : Outcome :=
  match r with
  | (.ok _, cs) => next cs
  | (.error e, cs) => (.error e, cs)

/-! ## The file -/

/-- The bytes from `offset`, short at the end of the file. An edit never asks for more than one
window, which is below the largest read. -/
def read (cs : List ℕ) (offset length : ℕ) : List ℕ := (cs.drop offset).take length

/-- The bytes with `data` over those from `offset`; bytes between the end and `offset` are zero. -/
def overwrite (cs : List ℕ) (offset : ℕ) (data : List ℕ) : List ℕ :=
  cs.take offset ++ List.replicate (offset - cs.length) 0 ++ data ++ cs.drop (offset + data.length)

/-- One write: at most one window, nothing for no data, and never past the largest offset. -/
def writeAt (offset : ℕ) (data cs : List ℕ) : Outcome :=
  if writeWindow < data.length then (.error ⟨.invalidInput, "Refused(Invalid)", none⟩, cs)
  else if data.isEmpty then (.ok (), cs)
  else if maximumSize < offset + data.length then
    (.error ⟨.invalidInput, "Refused(TooLarge)", none⟩, cs)
  else (.ok (), overwrite cs offset data)

def setSize (size : ℕ) (cs : List ℕ) : Outcome :=
  if maximumSize < size then (.error ⟨.invalidInput, "Refused(TooLarge)", none⟩, cs)
  else (.ok (), cs.take size ++ List.replicate (size - cs.length) 0)

/-! ## The move -/

/-- Back to front: the window that ends at `stop` goes `delta` further. Every turn takes at least
one byte, so the tail's length bounds the turns. -/
def growTail (tail : ℕ) (delta : ℤ) : ℕ → ℕ → List ℕ → Outcome
  | 0, _, cs => (.ok (), cs)
  | turns + 1, stop, cs =>
    if tail < stop then
      let start := max tail (stop - editWindow)
      (writeAt ((start : ℤ) + delta).toNat (read cs start (stop - start)) cs).andThen
        (growTail tail delta turns start)
    else (.ok (), cs)

/-- Front to back: the window that starts at `start` goes `-delta` nearer. -/
def shrinkTail (length : ℕ) (delta : ℤ) : ℕ → ℕ → List ℕ → Outcome
  | 0, _, cs => (.ok (), cs)
  | turns + 1, start, cs =>
    if start < length then
      let count := min editWindow (length - start)
      (writeAt ((start : ℤ) + delta).toNat (read cs start count) cs).andThen
        (shrinkTail length delta turns (start + count))
    else (.ok (), cs)

def moveTail (length tail : ℕ) (delta : ℤ) (cs : List ℕ) : Outcome :=
  if 0 < delta then growTail tail delta (length - tail) length cs
  else if delta < 0 then shrinkTail length delta (length - tail) tail cs
  else (.ok (), cs)

/-- The edit of a found match: the tail, then the new text, then the size. -/
def shift (found : ℕ) (old new cs : List ℕ) : Outcome :=
  let tail := found + old.length
  let length : ℤ := cs.length + new.length - old.length
  if length < 0 then (.error ⟨.failed, "out of range integral type conversion attempted", none⟩, cs)
  else
    ((moveTail cs.length tail ((new.length : ℤ) - old.length) cs).andThen
      (writeAt found new)).andThen (setSize length.toNat)

/-- What an edit of a found match is for: the match replaced, everything else kept. -/
def replaced (found : ℕ) (old new cs : List ℕ) : List ℕ :=
  cs.take found ++ new ++ cs.drop (found + old.length)

/-! ## Reading what was written -/

theorem getElem?_read (cs : List ℕ) (offset length k : ℕ) :
    (read cs offset length)[k]? = if k < length then cs[offset + k]? else none := by
  rw [read, getElem?_take, getElem?_drop]

theorem lt_length_of_agree (h : x[i]? = cs[i]?) (hi : i < cs.length) : i < x.length := by
  rw [getElem?_eq_getElem hi] at h
  exact (List.getElem?_eq_some_iff.1 h).1

theorem read_congr {length : ℕ} (h : ∀ i, offset ≤ i → i < offset + length → x[i]? = cs[i]?) :
    read x offset length = read cs offset length := by
  apply ext_getElem?
  intro k
  rw [getElem?_read, getElem?_read]
  split_ifs with hk
  · exact h _ (by omega) (by omega)
  · rfl

theorem length_read {length : ℕ} (h : offset + length ≤ cs.length) :
    (read cs offset length).length = length := by
  rw [read, length_take, length_drop]
  omega

theorem getElem?_overwrite_lt (hi : i < offset) (hc : i < cs.length) :
    (overwrite cs offset data)[i]? = cs[i]? := by
  rw [overwrite, append_assoc, append_assoc,
    getElem?_append_left (by rw [length_take]; omega), getElem?_take_of_lt hi]

theorem length_overwrite_front (cs : List ℕ) (offset : ℕ) :
    (cs.take offset ++ List.replicate (offset - cs.length) 0).length = offset := by
  rw [length_append, length_take, length_replicate]
  omega

theorem getElem?_overwrite_mem {k : ℕ} (hk : k < data.length) :
    (overwrite cs offset data)[offset + k]? = data[k]? := by
  have hfront := length_overwrite_front cs offset
  rw [overwrite, getElem?_append_left (by rw [length_append, hfront]; omega),
    getElem?_append_right (by omega), hfront, Nat.add_sub_cancel_left]

theorem getElem?_overwrite_ge (hi : offset + data.length ≤ i) :
    (overwrite cs offset data)[i]? = cs[i]? := by
  have hfront := length_overwrite_front cs offset
  have hlength : (cs.take offset ++ List.replicate (offset - cs.length) 0 ++ data).length
      = offset + data.length := by
    rw [length_append, hfront]
  rw [overwrite, getElem?_append_right (by omega), hlength, getElem?_drop]
  congr 1
  omega

theorem writeAt_eq (hwindow : data.length ≤ writeWindow)
    (hsize : offset + data.length ≤ maximumSize) (hdata : data ≠ []) :
    writeAt offset data cs = (.ok (), overwrite cs offset data) := by
  rw [writeAt, if_neg (by omega), if_neg (by simpa using hdata), if_neg (by omega)]

theorem writeAt_window {start count : ℕ} (hcount : count ≤ editWindow) (hpos : 0 < count)
    (hin : start + count ≤ cs.length) (hsize : offset + count ≤ maximumSize)
    (h : ∀ i, start ≤ i → i < start + count → x[i]? = cs[i]?) :
    writeAt offset (read x start count) x
      = (.ok (), overwrite x offset (read cs start count)) := by
  have hlength := length_read hin
  have hwindow : editWindow ≤ writeWindow := by decide
  rw [read_congr h, writeAt_eq (by omega) (by omega)]
  intro hnil
  rw [hnil, length_nil] at hlength
  omega

/-! ## Both loops -/

/-- A file whose tail lies at its new place: the bytes before the match are the old ones, and
every byte of the old tail stands `delta` further. -/
structure Shifted (cs : List ℕ) (found tail : ℕ) (delta : ℤ) (x : List ℕ) : Prop where
  kept : ∀ i < found, x[i]? = cs[i]?
  moved : ∀ i, tail ≤ i → i < cs.length → x[((i : ℤ) + delta).toNat]? = cs[i]?

/-- **Growing**: from a file whose bytes before `stop` are old and whose bytes from `stop` are
moved, the loop moves the rest of the tail. -/
theorem growTail_spec {cs : List ℕ} {tail d : ℕ} (hd : 0 < d)
    (hsize : cs.length + d ≤ maximumSize) :
    ∀ turns stop x, tail ≤ stop → stop ≤ cs.length → stop - tail ≤ turns →
      (∀ i < stop, x[i]? = cs[i]?) →
      (∀ i, stop ≤ i → i < cs.length → x[((i : ℤ) + d).toNat]? = cs[i]?) →
      ∃ y, growTail tail d turns stop x = (.ok (), y) ∧ Shifted cs tail tail d y := by
  intro turns
  induction turns with
  | zero =>
    intro stop x htail hstop hturns hkept hmoved
    obtain rfl : stop = tail := by omega
    exact ⟨x, rfl, hkept, hmoved⟩
  | succ turns ih =>
    intro stop x htail hstop hturns hkept hmoved
    rw [growTail]
    by_cases hmore : tail < stop
    · rw [if_pos hmore]
      have hwindow : 0 < editWindow := by decide
      have hoffset : (((max tail (stop - editWindow) : ℕ) : ℤ) + d).toNat
          = max tail (stop - editWindow) + d := by omega
      have hlength : stop ≤ x.length := by
        have := lt_length_of_agree (hkept (stop - 1) (by omega)) (by omega)
        omega
      simp only [hoffset]
      generalize hstart : max tail (stop - editWindow) = start
      have hcount : start + (stop - start) = stop := by omega
      rw [writeAt_window (by omega) (by omega) (by omega) (by omega)
        (fun i _ hi => hkept i (by omega))]
      have hread : (read cs start (stop - start)).length = stop - start := length_read (by omega)
      apply ih start _ (by omega) (by omega) (by omega)
      · intro i hi
        rw [getElem?_overwrite_lt (by omega) (by omega)]
        exact hkept i (by omega)
      · intro i hi hc
        by_cases hin : i < stop
        · have hplace : ((i : ℤ) + d).toNat = start + d + (i - start) := by omega
          rw [hplace, getElem?_overwrite_mem (by omega), getElem?_read, if_pos (by omega)]
          congr 1
          omega
        · rw [getElem?_overwrite_ge (by omega)]
          exact hmoved i (by omega) hc
    · rw [if_neg hmore]
      obtain rfl : stop = tail := by omega
      exact ⟨x, rfl, hkept, hmoved⟩

/-- **Shrinking**: from a file whose bytes before the match and from `start` are old and whose
bytes between are moved, the loop moves the rest of the tail. -/
theorem shrinkTail_spec {tail d : ℕ} (hd : 0 < d) (hfound : found + d ≤ tail)
    (hsize : cs.length ≤ maximumSize + d) :
    ∀ turns start x, tail ≤ start → start ≤ cs.length → cs.length - start ≤ turns →
      (∀ i < found, x[i]? = cs[i]?) →
      (∀ i, tail ≤ i → i < start → x[((i : ℤ) + -(d : ℤ)).toNat]? = cs[i]?) →
      (∀ i, start ≤ i → i < cs.length → x[i]? = cs[i]?) →
      ∃ y, shrinkTail cs.length (-(d : ℤ)) turns start x = (.ok (), y) ∧
        Shifted cs found tail (-(d : ℤ)) y := by
  intro turns
  induction turns with
  | zero =>
    intro start x htail hstart hturns hkept hmoved hrest
    exact ⟨x, rfl, hkept, fun i hi hc => hmoved i hi (by omega)⟩
  | succ turns ih =>
    intro start x htail hstart hturns hkept hmoved hrest
    rw [shrinkTail]
    by_cases hmore : start < cs.length
    · rw [if_pos hmore]
      have hwindow : 0 < editWindow := by decide
      have hoffset : ((start : ℤ) + -(d : ℤ)).toNat = start - d := by omega
      have hlength : cs.length ≤ x.length := by
        have := lt_length_of_agree (hrest (cs.length - 1) (by omega) (by omega)) (by omega)
        omega
      simp only [hoffset]
      generalize hcount : min editWindow (cs.length - start) = count
      rw [writeAt_window (by omega) (by omega) (by omega) (by omega)
        (fun i h₁ h₂ => hrest i h₁ (by omega))]
      have hread : (read cs start count).length = count := length_read (by omega)
      apply ih (start + count) _ (by omega) (by omega) (by omega)
      · intro i hi
        rw [getElem?_overwrite_lt (by omega) (by omega)]
        exact hkept i hi
      · intro i hi hc
        by_cases hin : i < start
        · rw [getElem?_overwrite_lt (by omega) (by omega)]
          exact hmoved i hi hin
        · have hplace : ((i : ℤ) + -(d : ℤ)).toNat = start - d + (i - start) := by omega
          rw [hplace, getElem?_overwrite_mem (by omega), getElem?_read, if_pos (by omega)]
          congr 1
          omega
      · intro i hi hc
        rw [getElem?_overwrite_ge (by omega)]
        exact hrest i (by omega) hc
    · rw [if_neg hmore]
      exact ⟨x, rfl, hkept, fun i hi hc => hmoved i hi (by omega)⟩

theorem moveTail_spec {cs old new : List ℕ} {found : ℕ} (hfound : found + old.length ≤ cs.length)
    (hsize : cs.length + new.length ≤ maximumSize + old.length) :
    ∃ x, moveTail cs.length (found + old.length) ((new.length : ℤ) - old.length) cs = (.ok (), x) ∧
      Shifted cs found (found + old.length) ((new.length : ℤ) - old.length) x := by
  rw [moveTail]
  rcases lt_trichotomy new.length old.length with hlt | heq | hgt
  · obtain ⟨d, hd⟩ : ∃ d, old.length = new.length + d := ⟨old.length - new.length, by omega⟩
    have hdelta : (new.length : ℤ) - old.length = -(d : ℤ) := by omega
    rw [if_neg (by omega), if_pos (by omega), hdelta]
    apply shrinkTail_spec (by omega) (by omega) (by omega) _ _ _ le_rfl hfound le_rfl
    · exact fun i _ => rfl
    · exact fun i h₁ h₂ => absurd h₂ (by omega)
    · exact fun i _ _ => rfl
  · rw [if_neg (by omega), if_neg (by omega)]
    refine ⟨cs, rfl, fun i _ => rfl, fun i _ _ => ?_⟩
    congr 1
    omega
  · obtain ⟨d, hd⟩ : ∃ d, new.length = old.length + d := ⟨new.length - old.length, by omega⟩
    have hdelta : (new.length : ℤ) - old.length = (d : ℤ) := by omega
    rw [if_pos (by omega), hdelta]
    obtain ⟨x, hx, hshifted⟩ := @growTail_spec cs (found + old.length) d
      (by omega) (by omega) _ cs.length cs hfound le_rfl le_rfl (fun i _ => rfl)
      (fun i h₁ h₂ => absurd h₂ (by omega))
    exact ⟨x, hx, fun i hi => hshifted.kept i (by omega), hshifted.moved⟩

/-! ## The edited file -/

/-- The new text over a shifted file: the bytes before the match, the new text and the moved tail
all stand. -/
theorem getElem?_replaced (hfound : found + old.length ≤ cs.length)
    (hx : Shifted cs found (found + old.length) ((new.length : ℤ) - old.length) x)
    (hi : i < cs.length + new.length - old.length) :
    (overwrite x found new)[i]? = (replaced found old new cs)[i]? := by
  have hfront : (cs.take found).length = found := by rw [length_take]; omega
  have hboth : (cs.take found ++ new).length = found + new.length := by
    rw [length_append, hfront]
  rw [replaced]
  rcases Nat.lt_or_ge i found with hlt | hge
  · have hlength := lt_length_of_agree (hx.kept i hlt) (by omega)
    rw [getElem?_overwrite_lt hlt hlength, hx.kept i hlt, append_assoc,
      getElem?_append_left (by omega), getElem?_take_of_lt hlt]
  · rcases Nat.lt_or_ge i (found + new.length) with hmid | hpast
    · obtain ⟨k, rfl⟩ : ∃ k, i = found + k := ⟨i - found, by omega⟩
      rw [getElem?_overwrite_mem (by omega), getElem?_append_left (by omega),
        getElem?_append_right (by omega), hfront, Nat.add_sub_cancel_left]
    · -- a byte of the tail: it came from as far behind the old text
      obtain ⟨k, rfl⟩ : ∃ k, i = found + new.length + k := ⟨i - (found + new.length), by omega⟩
      have hmoved := hx.moved (found + old.length + k) (by omega) (by omega)
      have hplace : (((found + old.length + k : ℕ) : ℤ) + ((new.length : ℤ) - old.length)).toNat
          = found + new.length + k := by omega
      rw [getElem?_overwrite_ge (by omega), ← hplace, hmoved, hplace,
        getElem?_append_right (by omega), hboth, getElem?_drop, Nat.add_sub_cancel_left]

theorem length_replaced (hfound : found + old.length ≤ cs.length) :
    (replaced found old new cs).length = cs.length + new.length - old.length := by
  rw [replaced, length_append, length_append, length_take, length_drop]
  omega

theorem setSize_overwrite (hfound : found + old.length ≤ cs.length)
    (hsize : cs.length + new.length - old.length ≤ maximumSize)
    (hx : Shifted cs found (found + old.length) ((new.length : ℤ) - old.length) x) :
    setSize (cs.length + new.length - old.length) (overwrite x found new)
      = (.ok (), replaced found old new cs) := by
  have hlong : cs.length + new.length - old.length ≤ (overwrite x found new).length := by
    rcases Nat.eq_zero_or_pos (cs.length + new.length - old.length) with hzero | hpos
    · omega
    · have := lt_length_of_agree (getElem?_replaced hfound hx
        (by omega : cs.length + new.length - old.length - 1 < _)) (by
          rw [length_replaced hfound]
          omega)
      omega
  rw [setSize, if_neg (by omega), Nat.sub_eq_zero_of_le hlong, replicate_zero,
    append_nil]
  congr 1
  apply ext_getElem?
  intro i
  rw [getElem?_take]
  split_ifs with hi
  · exact getElem?_replaced hfound hx hi
  · rw [getElem?_eq_none]
    rw [length_replaced hfound]
    omega

theorem writeAt_spec (hwindow : data.length ≤ writeWindow)
    (hsize : offset + data.length ≤ maximumSize) (hoffset : offset ≤ cs.length) :
    writeAt offset data cs = (.ok (), overwrite cs offset data) := by
  rcases data with _ | ⟨b, data⟩
  · have hsame : overwrite cs offset [] = cs := by
      rw [overwrite, Nat.sub_eq_zero_of_le hoffset]
      simp
    rw [hsame, writeAt, if_neg (by simp [writeWindow])]
    rfl
  · exact writeAt_eq hwindow hsize (by simp)

@[simp]
theorem andThen_ok (cs : List ℕ) (next : List ℕ → Outcome) :
    Outcome.andThen (.ok (), cs) next = next cs := rfl

variable {next : List ℕ → Outcome} {r : Outcome}

theorem andThen_eq_ok (h : r.andThen next = (.ok (), cs)) :
    ∃ x, r = (.ok (), x) ∧ next x = (.ok (), cs) := by
  obtain ⟨e | ⟨⟩, x⟩ := r
  · simp [Outcome.andThen] at h
  · exact ⟨x, rfl, h⟩

/-- Every refusal of a step names a limit of the file, none of the scan's reasons. -/
def LimitOnly (r : Outcome) : Prop :=
  ∀ e, r.1 = .error e → e.code = .invalidInput ∨ e.code = .failed

theorem LimitOnly.andThen (h : LimitOnly r) (hnext : ∀ cs, LimitOnly (next cs)) :
    LimitOnly (r.andThen next) := by
  obtain ⟨e | ⟨⟩, cs⟩ := r
  · exact h
  · exact hnext cs

theorem writeAt_limitOnly (offset : ℕ) (data cs : List ℕ) : LimitOnly (writeAt offset data cs) := by
  intro e he
  rw [writeAt] at he
  split_ifs at he <;> cases he <;> exact .inl rfl

theorem setSize_limitOnly (size : ℕ) (cs : List ℕ) : LimitOnly (setSize size cs) := by
  intro e he
  rw [setSize] at he
  split_ifs at he
  cases he
  exact .inl rfl

theorem limitOnly_ok (cs : List ℕ) : LimitOnly (.ok (), cs) := by
  intro e he
  cases he

theorem growTail_limitOnly (tail : ℕ) (delta : ℤ) :
    ∀ turns stop cs, LimitOnly (growTail tail delta turns stop cs) := by
  intro turns
  induction turns with
  | zero => exact fun stop cs => limitOnly_ok cs
  | succ turns ih =>
    intro stop cs
    rw [growTail]
    split_ifs
    · exact (writeAt_limitOnly _ _ _).andThen (ih _)
    · exact limitOnly_ok cs

theorem shrinkTail_limitOnly (length : ℕ) (delta : ℤ) :
    ∀ turns start cs, LimitOnly (shrinkTail length delta turns start cs) := by
  intro turns
  induction turns with
  | zero => exact fun start cs => limitOnly_ok cs
  | succ turns ih =>
    intro start cs
    rw [shrinkTail]
    split_ifs
    · exact (writeAt_limitOnly _ _ _).andThen (ih _)
    · exact limitOnly_ok cs

theorem shift_limitOnly (found : ℕ) (old new cs : List ℕ) : LimitOnly (shift found old new cs) := by
  simp only [shift]
  split_ifs
  · intro e he
    cases he
    exact .inr rfl
  · apply LimitOnly.andThen _ (setSize_limitOnly _)
    apply LimitOnly.andThen _ (writeAt_limitOnly _ _)
    rw [moveTail]
    split_ifs
    · exact growTail_limitOnly _ _ _ _ _
    · exact shrinkTail_limitOnly _ _ _ _ _
    · exact limitOnly_ok cs

theorem shift_ok_bounds (hin : found + old.length ≤ cs.length)
    (h : shift found old new cs = (.ok (), x)) :
    new.length ≤ writeWindow ∧ cs.length + new.length - old.length ≤ maximumSize := by
  simp only [shift] at h
  rw [if_neg (by omega)] at h
  obtain ⟨y, hy, hsize⟩ := andThen_eq_ok h
  obtain ⟨z, -, hwrite⟩ := andThen_eq_ok hy
  refine ⟨?_, ?_⟩
  · by_contra hlarge
    rw [writeAt, if_pos (by omega)] at hwrite
    simp at hwrite
  · by_contra hlarge
    rw [setSize, if_pos (by omega)] at hsize
    simp at hsize

/-- A new text of one window at most and a file that stays representable: the edit goes through
and leaves the edited text. -/
theorem shift_eq_replaced (hin : found + old.length ≤ cs.length)
    (hwindow : new.length ≤ writeWindow) (hsize : cs.length + new.length - old.length ≤ maximumSize)
    :
    shift found old new cs = (.ok (), replaced found old new cs) := by
  have hlength : ((cs.length : ℤ) + new.length - old.length).toNat
      = cs.length + new.length - old.length := by omega
  simp only [shift]
  rw [if_neg (by omega), hlength]
  obtain ⟨x, hx, hshifted⟩ := @moveTail_spec cs old new found hin (by omega)
  have hlong : found ≤ x.length := by
    rcases Nat.eq_zero_or_pos found with hzero | hpos
    · omega
    · have := lt_length_of_agree (hshifted.kept (found - 1) (by omega)) (by omega)
      omega
  rw [hx, andThen_ok, writeAt_spec hwindow (by omega) hlong, andThen_ok]
  exact setSize_overwrite hin hsize hshifted

theorem OccursAt.add_length_le (hfound : found ≤ cs.length) (hold : OccursAt old cs found) :
    found + old.length ≤ cs.length := by
  have := List.IsPrefix.length_le hold
  rw [length_drop] at this
  omega

/-- **The tail moved in place.** Where the old text lies at `found`, the moves, the write of the
new text and the new size leave the edited text, exactly when the new text fits one write window
and the edited file the largest file. -/
theorem shift_exact {cs old new : List ℕ} {found : ℕ} (hfound : found ≤ cs.length)
    (hold : OccursAt old cs found) :
    shift found old new cs = (.ok (), replaced found old new cs) ↔
      new.length ≤ writeWindow ∧ cs.length + new.length - old.length ≤ maximumSize := by
  have hin := OccursAt.add_length_le hfound hold
  constructor
  · exact shift_ok_bounds hin
  · rintro ⟨hwindow, hsize⟩
    exact shift_eq_replaced hin hwindow hsize

/-- The text `abc` with `b` replaced by `xy`. -/
theorem shift_exact_abc :
    shift 1 [98] [120, 121] [97, 98, 99] = (.ok (), [97, 120, 121, 99]) :=
  (@shift_exact [97, 98, 99] [98] [120, 121] 1 (by decide) (by decide)).2 (by decide)

/-- A new text one byte longer than a write window is refused, where a whole-file write would
have split it, although the old text lies in the file. -/
theorem shift_refuses_large :
    OccursAt [98] [98] 0 ∧ List.replicate 131073 97 ≠ [98] ∧
      shift 0 [98] (List.replicate 131073 97) [98]
        = (.error ⟨.invalidInput, "Refused(Invalid)", none⟩, [98]) ∧
      shift 0 [98] (List.replicate 131073 97) [98]
        ≠ (.ok (), replaced 0 [98] (List.replicate 131073 97) [98]) := by
  have hlarge : writeWindow < (List.replicate 131073 97).length := by
    rw [length_replicate]
    decide
  have hrefused : shift 0 [98] (List.replicate 131073 97) [98]
      = (.error ⟨.invalidInput, "Refused(Invalid)", none⟩, [98]) := by
    simp only [shift, length_replicate]
    rw [if_neg (by decide)]
    have hmove : moveTail [98].length (0 + [98].length) (((131073 : ℕ) : ℤ) - ([98] : List ℕ).length)
        [98] = (.ok (), [98]) := by decide
    rw [hmove, andThen_ok, writeAt, if_pos hlarge]
    rfl
  refine ⟨by decide, ?_, hrefused, ?_⟩
  · intro h
    have := congrArg List.length h
    rw [length_replicate] at this
    simp at this
  · rw [hrefused]
    intro h
    cases congrArg Prod.fst h

end LayerFs.Edit
