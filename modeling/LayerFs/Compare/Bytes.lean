import LayerFs.Mapping.Extents

/-!
# Whether two file roots hold the same bytes (`compare/bytes.rs`)

Two files are read side by side. Where both take an extent from the same chunk at the same offset
nothing is read; everything else is compared in windows, in order, up to the first one that differs.

* `Sides.Reads` — **what a comparison asks of the reader**: every window up to the first one that
  differs is read on both sides.
-/

namespace LayerFs.Compare

open List

variable {Id : Type}
variable {shared : Bool} {extent : Extent Id} {left right : List (Extent Id)} {since turns : ℕ}

/-- `WINDOW`: bytes read from each side per comparison. -/
def byteWindow : ℕ := 256 * 1024

/-! ## Files -/

/-- `FileContent`, with the payload a view of a whole file holds. -/
inductive FileContent (Id : Type) where
  /-- a whole-file object -/
  | wholeFile (payload : List UInt8)
  /-- a chunked file state -/
  | chunked (state : FileState Id)

/-- A provider as a file view sees it. -/
structure FileProvider (Id : Type) where
  /-- a root, read and classified: `FileView::open` -/
  classify : Id → ContentResult (FileContent Id)
  mapping : Id → Option (MappingObject Id)

namespace FileContent

/-- `FileView::logical_len`. -/
def logicalLen : FileContent Id → ℕ
  | wholeFile payload => payload.length
  | chunked state => state.logicalLen

/-- `FileView::extents`: a whole-file base has none. -/
def extents : FileContent Id → Option (ExtentCursor Id)
  | wholeFile _ => none
  | chunked state => some (.new state)

variable [DecidableEq Id]

/-- `FileView::read_range`. -/
def readRange (mapping : Id → Option (MappingObject Id)) (content : FileContent Id)
    (range : ByteRange) (sink : List UInt8) : ContentResult (List UInt8) := do
  ensure (decide (range.start ≤ range.stop) && decide (range.stop ≤ content.logicalLen))
    (.invalidRange range.start range.stop content.logicalLen)
  if range.start = range.stop then return sink else
    match content with
    | wholeFile payload => do
      ensure (decide (range.stop ≤ payload.length)) (.invalidRecord "whole-file range")
      return sink ++ (payload.drop range.start).take (range.stop - range.start)
    | chunked state => do
      let read ← LayerFs.readRange mapping range state sink
      return read.1

end FileContent

/-! ## The comparison -/

/-- `Sides`. -/
structure Sides (Id : Type) where
  mapping : Id → Option (MappingObject Id)
  a : FileContent Id
  b : FileContent Id

def extentBound (length here : ℕ) : Option (Extent Id) → ℕ
  | none => length
  | some extent => if here < extent.offset then extent.offset else extent.offset + extent.length

namespace Sides

variable [DecidableEq Id] (sides : Sides Id)

/-- `Sides::step`. -/
def step : Option (ExtentCursor Id) → ContentResult (Option (Extent Id) × Option (ExtentCursor Id))
  | none => .ok (none, none)
  | some cursor => do
    let found ← cursor.next sides.mapping
    return (found.1, some found.2)

/-- The loop of `Sides::same`. A window's end is a `u64` sum. -/
def sameLoop (stop : ℕ) : ℕ → ℕ → ContentResult Bool
  | 0, _ => .error .lengthOverflow
  | turns + 1, start =>
    if start < stop then do
      let next := min stop ((start + byteWindow) % u64Bound)
      let left ← sides.a.readRange sides.mapping ⟨start, next⟩ []
      let right ← sides.b.readRange sides.mapping ⟨start, next⟩ []
      if left = right then sameLoop stop turns next else return false
    else return true

/-- `Sides::same`: every turn is at least one byte further. -/
def same (start stop : ℕ) : ContentResult Bool := sides.sameLoop stop (stop - start + 1) start

/-- What is compared before `stop`, where both sides stand next: the new `from`, or none when the
bytes differ. -/
def settle (shared : Bool) (since here stop : ℕ) : ContentResult (Option ℕ) :=
  if shared then
    if since < here then do
      let equal ← sides.same since here
      return if equal then some stop else none
    else return some stop
  else if byteWindow ≤ stop - since then do
    let equal ← sides.same since stop
    return if equal then some stop else none
  else return some since

/-- The next extent of a side, when the current one ends at or before `stop`. -/
def advance (cursor : Option (ExtentCursor Id)) (extent : Option (Extent Id)) (stop : ℕ) :
    ContentResult (Option (Extent Id) × Option (ExtentCursor Id)) :=
  if extent.any fun e => decide (e.offset + e.length ≤ stop) then sides.step cursor
  else .ok (extent, cursor)

/-- The loop of `same_file_bytes_within`: `since..here` is read but not yet compared, `here` is
where both sides stand. -/
def loop (length : ℕ) (x y : Option (ExtentCursor Id)) (p q : Option (Extent Id))
    (since here : ℕ) : ContentResult Bool :=
  if here < length then
    if _ : min (min (extentBound length here p) (extentBound length here q)) length ≤ here then
      .error (.invalidRecord "file extents out of order")
    else do
      let stop := min (min (extentBound length here p) (extentBound length here q)) length
      let shared := decide (p = q) && p.any fun e => decide (e.offset = here)
      match ← sides.settle shared since here stop with
      | none => return false
      | some since => do
        let left ← sides.advance x p stop
        let right ← sides.advance y q stop
        loop length left.2 right.2 left.1 right.1 since stop
  else if length ≤ since then return true else sides.same since length
termination_by length - here
decreasing_by omega

end Sides

section Answers

variable [DecidableEq Id] (provider : FileProvider Id)

/-- `same_file_bytes_within`. -/
def sameFileBytesWithin (left right : Id) (limit : ℕ) : ContentResult Bool :=
  if left = right then .ok true else do
    let a ← provider.classify left
    let b ← provider.classify right
    if a.logicalLen ≠ b.logicalLen ∨ limit < a.logicalLen then return false else do
      let sides : Sides Id := ⟨provider.mapping, a, b⟩
      let p ← sides.step a.extents
      let q ← sides.step b.extents
      sides.loop a.logicalLen p.2 q.2 p.1 q.1 0 0

/-- `same_file_bytes`: no limit but that of `u64`. -/
def sameFileBytes (left right : Id) : ContentResult Bool :=
  sameFileBytesWithin provider left right (u64Bound - 1)

end Answers

/-! ## Deciding a computation -/

/-- A computation answers with `P` when a condition holds, and is refused otherwise. -/
def AnswersIf {α : Type} (condition : Prop) (P : α → Prop) (x : ContentResult α) : Prop :=
  (condition → ∃ a, x = .ok a ∧ P a) ∧ (¬ condition → ∃ e, x = .error e)

namespace AnswersIf

variable {α β : Type} {c d : Prop} {P : α → Prop} {Q : β → Prop}

variable {x : ContentResult α}
theorem of_holds {a : α} (hc : c) (hx : x = .ok a) (ha : P a) : AnswersIf c P x :=
  ⟨fun _ => ⟨a, hx, ha⟩, fun h => absurd hc h⟩

theorem of_ok {a : α} (hx : x = .ok a) (ha : P a) : AnswersIf True P x :=
  of_holds trivial hx ha

theorem of_servedIf (h : ServedIf c P x) : AnswersIf c P x :=
  ⟨h.1, fun hc => ⟨_, h.2 hc⟩⟩

theorem bind {f : α → ContentResult β} (hx : AnswersIf c P x) (hf : ∀ a, P a → AnswersIf d Q (f a)) :
    AnswersIf (c ∧ d) Q (x >>= f) := by
  refine ⟨?_, fun hnot => ?_⟩
  · rintro ⟨hc, hd⟩
    obtain ⟨a, rfl, ha⟩ := hx.1 hc
    exact (hf a ha).1 hd
  · by_cases hc : c
    · obtain ⟨a, rfl, ha⟩ := hx.1 hc
      exact (hf a ha).2 fun hd => hnot ⟨hc, hd⟩
    · obtain ⟨e, rfl⟩ := hx.2 hc
      exact ⟨e, rfl⟩

theorem congr {P' : α → Prop} (h : AnswersIf c P x) (hcd : d ↔ c) (hP : ∀ a, P a → P' a) :
    AnswersIf d P' x := by
  refine ⟨fun hd => ?_, fun hd => h.2 (mt hcd.mpr hd)⟩
  obtain ⟨a, hx, ha⟩ := h.1 (hcd.mp hd)
  exact ⟨a, hx, hP a ha⟩

theorem eq_ok_iff {a : α} (h : AnswersIf c (fun b => b = a) x) : x = .ok a ↔ c := by
  refine ⟨fun hx => ?_, fun hc => ?_⟩
  · by_contra hc
    obtain ⟨e, he⟩ := h.2 hc
    rw [hx] at he
    cases he
  · obtain ⟨b, hx, rfl⟩ := h.1 hc
    exact hx

end AnswersIf

/-! ## What a file is -/

/-- Two byte strings have the same bytes from `start` on and before `stop`. -/
def SameOn (a b : List UInt8) (start stop : ℕ) : Prop :=
  ∀ i, start ≤ i → i < stop → a[i]? = b[i]?

namespace SameOn

variable {a b : List UInt8} {start middle stop : ℕ}

theorem of_empty (h : stop ≤ start) : SameOn a b start stop :=
  fun _ hstart hstop => absurd (hstart.trans_lt hstop) (not_lt.mpr h)

theorem append_iff (hstart : start ≤ middle) (hstop : middle ≤ stop) :
    SameOn a b start stop ↔ SameOn a b start middle ∧ SameOn a b middle stop := by
  refine ⟨fun h => ⟨fun i hi hlt => h i hi (by omega), fun i hi hlt => h i (by omega) hlt⟩, ?_⟩
  rintro ⟨hleft, hright⟩ i hi hlt
  by_cases hmiddle : i < middle
  · exact hleft i hi hmiddle
  · exact hright i (not_lt.mp hmiddle) hlt

theorem iff_take_drop :
    SameOn a b start stop ↔
      (a.drop start).take (stop - start) = (b.drop start).take (stop - start) := by
  refine ⟨fun h => ext_getElem? fun i => ?_, fun h i hi hlt => ?_⟩
  · rw [getElem?_take, getElem?_take]
    split_ifs with hin
    · rw [getElem?_drop, getElem?_drop]
      exact h (start + i) (Nat.le_add_right ..) (by omega)
    · rfl
  · have hget := congrArg (fun l : List UInt8 => l[i - start]?) h
    rw [getElem?_take, getElem?_take, if_pos (by omega), if_pos (by omega),
      getElem?_drop, getElem?_drop, Nat.add_sub_cancel' hi] at hget
    exact hget

theorem iff_eq (hlength : a.length = b.length) : SameOn a b 0 a.length ↔ a = b := by
  rw [iff_take_drop, drop_zero, drop_zero, Nat.sub_zero, take_length, hlength,
    take_length]

end SameOn

section Files

variable [DecidableEq Id] (mapping : Id → Option (MappingObject Id))

namespace FileContent

def slices : FileContent Id → List (ExtentSlice Id)
  | wholeFile _ => []
  | chunked state => slicesBelow mapping state.treeLevel state.mappingRoot

/-- **The bytes of a file.** -/
def bytes : FileContent Id → List UInt8
  | wholeFile payload => payload
  | chunked state => bytesOf mapping (slices mapping (.chunked state))

def layout (content : FileContent Id) : List (Extent Id) :=
  (placedFrom 0 (content.slices mapping)).map Placed.extent

/-- **A valid file**: its length is a `u64`, and a chunked one opens a valid mapping tree over
stored chunks. -/
def Valid : FileContent Id → Prop
  | wholeFile payload => payload.length < u64Bound
  | chunked state => ChunkedFile mapping state (slices mapping (.chunked state))

/-- A window of a file is served: the pages of its navigation fit a page cache of its own. -/
def Serves (window : ByteRange) : FileContent Id → Prop
  | wholeFile _ => True
  | chunked state => Fits readNavigationCachePages ∅ (navigation mapping state window)

variable {mapping} {content : FileContent Id}

theorem Valid.length_bytes (h : content.Valid mapping) :
    (content.bytes mapping).length = content.logicalLen := by
  cases content with
  | wholeFile payload => rfl
  | chunked state => exact (length_bytesOf h.inChunk).trans h.logicalLen_eq.symm

theorem Valid.logicalLen_lt (h : content.Valid mapping) : content.logicalLen < u64Bound := by
  cases content with
  | wholeFile payload => exact h
  | chunked state => exact ChunkedFile.logicalLen_lt h

theorem readRange_of_reversed {range : ByteRange} (h : range.stop < range.start)
    {sink : List UInt8} : content.readRange mapping range sink =
      .error (.invalidRange range.start range.stop content.logicalLen) := by
  rw [readRange.eq_def, decide_eq_false (not_le.mpr h)]
  rfl

/-- **One window** of a valid file. -/
theorem Valid.readRange_servedIf (h : content.Valid mapping) {range : ByteRange}
    (hrange : range.start ≤ range.stop) (hstop : range.stop ≤ content.logicalLen) :
    ServedIf (content.Serves mapping range)
      (fun read => read =
        ((content.bytes mapping).drop range.start).take (range.stop - range.start))
      (content.readRange mapping range []) := by
  have hcheck : (decide (range.start ≤ range.stop) && decide (range.stop ≤ content.logicalLen)) =
      true := by simp [hrange, hstop]
  rw [readRange.eq_def, hcheck]
  change ServedIf _ _ (ite _ _ _)
  cases content with
  | wholeFile payload =>
    have hinside : (decide (range.stop ≤ payload.length)) = true := decide_eq_true hstop
    dsimp only
    rw [hinside]
    split_ifs with hempty
    · refine .of_ok rfl ?_
      rw [hempty, Nat.sub_self, take_zero]
    · exact .of_ok rfl rfl
  | chunked state =>
    have hread := LayerFs.readRange_servedIf h hrange hstop []
    split_ifs with hempty
    · refine (ServedIf.of_ok rfl ?_).congr ?_ fun _ h => h
      · rw [hempty, Nat.sub_self, take_zero]
      · rw [Serves, navigation, if_pos hempty]
        exact ⟨fun _ => trivial, fun _ => trivial⟩
    · refine (hread.bind (d := True) fun read hwritten => ?_).congr
        (iff_of_eq (and_true _)).symm fun _ h => h
      exact .of_ok rfl hwritten

end FileContent

/-! ## Windows -/

/-- A stretch cut into windows; `turns` bounds their number. -/
def cutWindows (stop : ℕ) : ℕ → ℕ → List ByteRange
  | 0, _ => []
  | turns + 1, start =>
    if start < stop then
      ⟨start, min stop (start + byteWindow)⟩ :: cutWindows stop turns (min stop (start + byteWindow))
    else []

def windowsOf (start stop : ℕ) : List ByteRange := cutWindows stop (stop - start) start

namespace Sides

variable (sides : Sides Id)

def Agree (window : ByteRange) : Prop :=
  SameOn (sides.a.bytes sides.mapping) (sides.b.bytes sides.mapping) window.start window.stop

/-- A window is read: a whole window from its start still is in `u64`, and it is served on both
sides. -/
def Readable (window : ByteRange) : Prop :=
  window.start + byteWindow < u64Bound ∧ sides.a.Serves sides.mapping window ∧
    sides.b.Serves sides.mapping window

/-- **What a comparison asks of the reader**: every window is read, up to the first one that
differs. -/
def Reads : List ByteRange → Prop
  | [] => True
  | window :: later => sides.Readable window ∧ (sides.Agree window → Reads later)

variable {sides}

theorem reads_append {first later : List ByteRange} :
    sides.Reads (first ++ later) ↔
      sides.Reads first ∧ ((∀ window ∈ first, sides.Agree window) → sides.Reads later) := by
  induction first with
  | nil => simp [Reads]
  | cons window first ih =>
    rw [cons_append, Reads, Reads, ih, forall_mem_cons]
    tauto

omit [DecidableEq Id] in
theorem agree_cutWindows {stop : ℕ} : ∀ {start : ℕ}, stop - start ≤ turns →
    ((∀ window ∈ cutWindows stop turns start, sides.Agree window) ↔
      SameOn (sides.a.bytes sides.mapping) (sides.b.bytes sides.mapping) start stop) := by
  induction turns with
  | zero =>
    intro start hturns
    exact ⟨fun _ => .of_empty (by omega), fun _ _ h => absurd h not_mem_nil⟩
  | succ turns ih =>
    intro start hturns
    rw [cutWindows]
    split_ifs with hstart
    · have hwindow : 0 < byteWindow := by decide
      rw [forall_mem_cons, ih (by omega), Agree,
        SameOn.append_iff (by omega : start ≤ min stop (start + byteWindow)) (min_le_left _ _)]
    · exact ⟨fun _ => .of_empty (by omega), fun _ _ h => absurd h not_mem_nil⟩

omit [DecidableEq Id] in
theorem agree_windowsOf {start stop : ℕ} :
    (∀ window ∈ windowsOf start stop, sides.Agree window) ↔
      SameOn (sides.a.bytes sides.mapping) (sides.b.bytes sides.mapping) start stop :=
  agree_cutWindows (le_refl _)

/-- Two valid files of one length. -/
structure Valid (sides : Sides Id) (length : ℕ) : Prop where
  a : sides.a.Valid sides.mapping
  b : sides.b.Valid sides.mapping
  length_a : sides.a.logicalLen = length
  length_b : sides.b.logicalLen = length

/-- **The loop over windows** answers whether the bytes are the same, as far as its windows are
read. -/
theorem sameLoop_answersIf {length : ℕ} (hvalid : sides.Valid length) {stop : ℕ}
    (hstop : stop ≤ length) : ∀ {start : ℕ}, stop - start ≤ turns →
      AnswersIf (sides.Reads (cutWindows stop turns start))
        (fun same => same = true ↔
          SameOn (sides.a.bytes sides.mapping) (sides.b.bytes sides.mapping) start stop)
        (sides.sameLoop stop (turns + 1) start) := by
  induction turns with
  | zero =>
    intro start hturns
    rw [sameLoop, if_neg (by omega)]
    exact .of_ok rfl ⟨fun _ => .of_empty (by omega), fun _ => rfl⟩
  | succ turns ih =>
    intro start hturns
    rw [sameLoop, cutWindows]
    split_ifs with hstart
    · have hwindow : 0 < byteWindow := by decide
      by_cases hfits : start + byteWindow < u64Bound
      · rw [Nat.mod_eq_of_lt hfits]
        obtain ⟨next, hnext⟩ : ∃ next, min stop (start + byteWindow) = next := ⟨_, rfl⟩
        rw [hnext]
        have hleft := @FileContent.Valid.readRange_servedIf _ _ _ _ hvalid.a ⟨start, next⟩
          (by dsimp only; omega) (by rw [hvalid.length_a]; dsimp only; omega)
        have hright := @FileContent.Valid.readRange_servedIf _ _ _ _ hvalid.b ⟨start, next⟩
          (by dsimp only; omega) (by rw [hvalid.length_b]; dsimp only; omega)
        have hlater := @ih next (by omega)
        have hmeet := @SameOn.append_iff (sides.a.bytes sides.mapping)
          (sides.b.bytes sides.mapping) start next stop (by omega) (by omega)
        refine ((AnswersIf.of_servedIf hleft).bind fun left hl =>
          (AnswersIf.of_servedIf hright).bind
            (d := sides.Agree ⟨start, next⟩ → sides.Reads (cutWindows stop turns next))
            fun right hr => ?_).congr ?_ fun _ h => h
        · subst hl hr
          dsimp only
          by_cases hagree : sides.Agree ⟨start, next⟩
          · rw [if_pos (SameOn.iff_take_drop.mp hagree)]
            refine hlater.congr ⟨fun h => h hagree, fun h _ => h⟩ fun same hsame => ?_
            rw [hsame, hmeet]
            exact ⟨fun h => ⟨hagree, h⟩, And.right⟩
          · rw [if_neg (mt SameOn.iff_take_drop.mpr hagree)]
            refine .of_holds (fun h => absurd h hagree) rfl ?_
            exact ⟨fun h => absurd h Bool.false_ne_true, fun h => absurd (hmeet.mp h).1 hagree⟩
        · rw [Reads, Readable, and_assoc, and_assoc]
          exact ⟨fun h => h.2, fun h => ⟨hfits, h⟩⟩
      · -- the end of the window wraps, and the reader refuses the range
        refine ⟨fun h => absurd h.1.1 hfits, fun _ => ?_⟩
        have hwrap : (start + byteWindow) % u64Bound < start := by
          have hlt : start < u64Bound := by
            have := hvalid.a.logicalLen_lt
            rw [hvalid.length_a] at this
            omega
          rw [Nat.mod_eq_sub_mod (not_lt.mp hfits), Nat.mod_eq_of_lt]
          · have : byteWindow < u64Bound := by decide
            omega
          · have : byteWindow < u64Bound := by decide
            omega
        dsimp only
        rw [FileContent.readRange_of_reversed (by dsimp only; omega)]
        exact ⟨_, rfl⟩
    · exact .of_ok rfl ⟨fun _ => .of_empty (by omega), fun _ => rfl⟩

/-- **One stretch**, a window at a time. -/
theorem same_answersIf {length : ℕ} (hvalid : sides.Valid length) {start stop : ℕ}
    (hstop : stop ≤ length) :
    AnswersIf (sides.Reads (windowsOf start stop))
      (fun same => same = true ↔
        SameOn (sides.a.bytes sides.mapping) (sides.b.bytes sides.mapping) start stop)
      (sides.same start stop) :=
  sameLoop_answersIf hvalid hstop (le_refl _)

end Sides

/-! ## Layouts -/

variable {mapping}

/-- Extents one behind the other, the first of which holds the byte at `here`. -/
def Covers : ℕ → List (Extent Id) → Prop
  | _, [] => True
  | here, extent :: later => extent.offset ≤ here ∧ here < extent.offset + extent.length ∧
      Covers (extent.offset + extent.length) later

/-- The extents without the first when it ends at or before `stop`. -/
def passed (stop : ℕ) : List (Extent Id) → List (Extent Id)
  | [] => []
  | extent :: later =>
    if extent.offset + extent.length ≤ stop then later else extent :: later

omit [DecidableEq Id] in
theorem mem_of_mem_passed {stop : ℕ} {extents : List (Extent Id)} (h : extent ∈ passed stop extents) :
    extent ∈ extents := by
  cases extents with
  | nil => exact h
  | cons first later =>
    rw [passed] at h
    split_ifs at h
    · exact mem_cons_of_mem first h
    · exact h

namespace Covers

variable {here stop length : ℕ} {extents : List (Extent Id)}

omit [DecidableEq Id] in
theorem lt_bound (h : Covers here extents) (hlength : here < length) :
    here < extentBound length here extents.head? := by
  cases extents with
  | nil => exact hlength
  | cons extent later =>
    obtain ⟨hstart, hstop, -⟩ := h
    rw [head?_cons, extentBound, if_neg (not_lt.mpr hstart)]
    exact hstop

omit [DecidableEq Id] in
/-- **The extents from the next stand on.** -/
theorem passed (h : Covers here extents) (hhere : here ≤ stop)
    (hstop : stop ≤ extentBound length here extents.head?) :
    Covers stop (Compare.passed stop extents) := by
  cases extents with
  | nil => trivial
  | cons extent later =>
    obtain ⟨hstart, hend, hlater⟩ := h
    rw [head?_cons, extentBound, if_neg (not_lt.mpr hstart)] at hstop
    rw [Compare.passed]
    split_ifs with hpast
    · rw [le_antisymm hstop hpast]
      exact hlater
    · exact ⟨hstart.trans hhere, not_le.mp hpast, hlater⟩

omit [DecidableEq Id] in
theorem of_placed (slices : List (ExtentSlice Id)) : ∀ position : ℕ,
    Covers position ((placedFrom position slices).map Placed.extent) := by
  induction slices with
  | nil => exact fun _ => trivial
  | cons slice rest ih =>
    intro position
    have := slice.nonempty
    exact ⟨le_refl _, Nat.lt_add_of_pos_right slice.nonempty, ih _⟩

end Covers

omit [DecidableEq Id] in
theorem le_start_of_mem_placedFrom {extents : List (ExtentSlice Id)} : ∀ {position : ℕ}
    {placed : Placed Id}, placed ∈ placedFrom position extents → position ≤ placed.start := by
  induction extents with
  | nil => exact fun h => absurd h not_mem_nil
  | cons slice rest ih =>
    intro position placed h
    rcases mem_cons.mp h with rfl | h
    · exact le_refl _
    · exact (Nat.le_add_right ..).trans (ih h)

omit [DecidableEq Id] in
theorem getElem_bytesOf {extents : List (ExtentSlice Id)} : ∀ {position : ℕ} {placed : Placed Id},
    (∀ slice ∈ extents, InChunk mapping slice) → placed ∈ placedFrom position extents →
    ∀ i, i < placed.slice.logicalLength →
      (bytesOf mapping extents)[placed.start + i - position]? =
        (payloadOf mapping placed.slice.payloadObjectId)[placed.slice.sourceOffset + i]? := by
  induction extents with
  | nil => exact fun _ h => absurd h not_mem_nil
  | cons slice rest ih =>
    intro position placed hinside hplaced i hi
    have hslice := length_sliceBytes (hinside slice mem_cons_self)
    rw [bytesOf_cons]
    rcases mem_cons.mp hplaced with rfl | hplaced
    · dsimp only at hi ⊢
      rw [Nat.add_sub_cancel_left, getElem?_append_left (by omega), sliceBytes,
        getElem?_take, if_pos hi, getElem?_drop]
    · have hstart := le_start_of_mem_placedFrom hplaced
      rw [getElem?_append_right (by omega), hslice, Nat.sub_sub]
      exact ih (fun x hx => hinside x (mem_cons_of_mem slice hx)) hplaced i hi

namespace FileContent

variable {content : FileContent Id}

omit [DecidableEq Id] in
theorem covers_layout (content : FileContent Id) : Covers 0 (content.layout mapping) :=
  .of_placed _ 0

theorem Valid.getElem_bytes (h : content.Valid mapping) (hextent : extent ∈ content.layout mapping)
    {i : ℕ} (hi : i < extent.length) :
    (content.bytes mapping)[extent.offset + i]? =
      (payloadOf mapping extent.chunk)[extent.chunkOffset + i]? := by
  obtain ⟨placed, hplaced, rfl⟩ := mem_map.mp hextent
  cases content with
  | wholeFile payload => exact absurd hplaced not_mem_nil
  | chunked state =>
    have hget := getElem_bytesOf h.inChunk hplaced i hi
    rw [Nat.sub_zero] at hget
    exact hget

/-- **An extent of both files** is the same bytes in both. -/
theorem Valid.same_of_shared {other : FileContent Id} (h : content.Valid mapping)
    (hother : other.Valid mapping) (hextent : extent ∈ content.layout mapping)
    (hshared : extent ∈ other.layout mapping) :
    SameOn (content.bytes mapping) (other.bytes mapping) extent.offset
      (extent.offset + extent.length) := by
  intro i hi hlt
  obtain ⟨j, rfl⟩ := Nat.exists_eq_add_of_le hi
  rw [h.getElem_bytes hextent (by omega), hother.getElem_bytes hshared (by omega)]

/-! ## Where a side stands -/

/-- **A side** that has the extents `rest` of a file before it, the first of them in hand. -/
def Stands (mapping : Id → Option (MappingObject Id)) (content : FileContent Id)
    (cursor : Option (ExtentCursor Id)) (extent : Option (Extent Id)) (rest : List (Extent Id)) :
    Prop :=
  extent = rest.head? ∧ match content with
    | wholeFile _ => cursor = none ∧ rest = []
    | chunked state => ∃ walk index, cursor = some walk ∧
        walk.At mapping state (slices mapping (.chunked state)) (index + 1) ∧
        rest = (layout mapping (.chunked state)).drop index

variable {sides : Sides Id}

theorem Valid.stands_first (h : content.Valid sides.mapping) :
    ∃ found, sides.step content.extents = .ok found ∧
      Stands sides.mapping content found.2 found.1 (content.layout sides.mapping) := by
  cases content with
  | wholeFile payload => exact ⟨_, rfl, rfl, rfl, rfl⟩
  | chunked state =>
    have hopens : Opens sides.mapping state (slices sides.mapping (.chunked state)) :=
      ⟨h.mapped, h.logicalLen_eq, h.extentCount_eq, h.logicalLen_lt⟩
    obtain ⟨walk, hnext, hat⟩ := hopens.next_at hopens.new_at
    refine ⟨(extentAt (slices sides.mapping (.chunked state)) 0, some walk), ?_, ?_, walk, 0, rfl,
      hat, rfl⟩
    · rw [extents, Sides.step, hnext]
      rfl
    · rw [layout, head?_eq_getElem?, getElem?_map, extentAt_eq]

/-- **The next stand** has the extents that end behind `stop` before it. -/
theorem Valid.stands_passed (h : content.Valid sides.mapping) {cursor : Option (ExtentCursor Id)}
    {extent : Option (Extent Id)} {rest : List (Extent Id)}
    (hstands : Stands sides.mapping content cursor extent rest) (stop : ℕ) :
    ∃ found, sides.advance cursor extent stop = .ok found ∧
      Stands sides.mapping content found.2 found.1 (passed stop rest) := by
  obtain ⟨rfl, hside⟩ := hstands
  rw [Sides.advance]
  cases rest with
  | nil => exact ⟨_, rfl, rfl, hside⟩
  | cons first later =>
    rw [passed, head?_cons, Option.any_some]
    by_cases hpast : first.offset + first.length ≤ stop
    · rw [if_pos (decide_eq_true hpast), if_pos hpast]
      cases content with
      | wholeFile payload => cases hside.2
      | chunked state =>
        obtain ⟨walk, index, rfl, hat, hrest⟩ := hside
        have hopens : Opens sides.mapping state (slices sides.mapping (.chunked state)) :=
          ⟨h.mapped, h.logicalLen_eq, h.extentCount_eq, h.logicalLen_lt⟩
        have hlater : later = (layout sides.mapping (.chunked state)).drop (index + 1) := by
          rw [← tail_drop, ← hrest, tail_cons]
        obtain ⟨next, hnext, hat'⟩ := hopens.next_at hat
        refine ⟨(extentAt (slices sides.mapping (.chunked state)) (index + 1), some next), ?_, ?_,
          next, index + 1, rfl, hat', hlater⟩
        · rw [Sides.step, hnext]
          rfl
        · rw [hlater, head?_drop, layout, getElem?_map, extentAt_eq]
    · rw [if_neg (by simpa using hpast), if_neg hpast]
      exact ⟨_, rfl, rfl, hside⟩

end FileContent

/-! ## What is compared -/

/-- The windows compared before `stop`, where both sides stand next, and the new `from`. -/
def settled (shared : Bool) (since here stop : ℕ) : List ByteRange × ℕ :=
  if shared then (windowsOf since here, stop)
  else if byteWindow ≤ stop - since then (windowsOf since stop, stop)
  else ([], since)

def sharedNext (here : ℕ) (left right : List (Extent Id)) : Bool :=
  decide (left.head? = right.head?) && left.head?.any fun e => decide (e.offset = here)

/-- **The windows two layouts leave to be compared**, in order: both are walked from one change of
an extent to the next, an extent both have is left out, and what lies between such extents is cut
into windows whenever it is long enough. -/
def compared (length : ℕ) (left right : List (Extent Id)) (since here : ℕ) : List ByteRange :=
  if here < length then
    if _ : min (min (extentBound length here left.head?) (extentBound length here right.head?))
        length ≤ here then []
    else
      let stop :=
        min (min (extentBound length here left.head?) (extentBound length here right.head?)) length
      let next := settled (sharedNext here left right) since here stop
      next.1 ++ compared length (passed stop left) (passed stop right) next.2 stop
  else windowsOf since length
termination_by length - here
decreasing_by omega

namespace Sides

variable {sides : Sides Id} {length : ℕ}

/-- **What is settled before a stand**: the bytes up to the new `from` are the same, or the
comparison ends. -/
theorem settle_answersIf (hvalid : sides.Valid length) {here stop : ℕ} (hsince : since ≤ here)
    (hhere : here ≤ stop) (hstop : stop ≤ length)
    (hshared : shared = true → SameOn (sides.a.bytes sides.mapping) (sides.b.bytes sides.mapping)
      here stop) :
    AnswersIf (sides.Reads (settled shared since here stop).1)
      (fun next =>
        (next = some (settled shared since here stop).2 ∧
          SameOn (sides.a.bytes sides.mapping) (sides.b.bytes sides.mapping) since
            (settled shared since here stop).2) ∨
        next = none ∧ ¬ SameOn (sides.a.bytes sides.mapping) (sides.b.bytes sides.mapping) since
          (settled shared since here stop).2)
      (sides.settle shared since here stop) := by
  have hmeet := @SameOn.append_iff (sides.a.bytes sides.mapping) (sides.b.bytes sides.mapping)
    since here stop hsince hhere
  rw [settle, settled]
  split_ifs with hsame hread hlong
  · refine ((same_answersIf hvalid (hhere.trans hstop)).bind (d := True) fun equal hequal =>
      ?_).congr (iff_of_eq (and_true _)).symm fun _ h => h
    refine .of_ok rfl ?_
    cases equal with
    | true => exact .inl ⟨rfl, hmeet.mpr ⟨hequal.mp rfl, hshared hsame⟩⟩
    | false => exact .inr ⟨rfl, fun h => Bool.false_ne_true (hequal.mpr (hmeet.mp h).1)⟩
  · have hnone : windowsOf since here = [] := by
      rw [windowsOf, Nat.sub_eq_zero_of_le (not_lt.mp hread)]
      rfl
    rw [hnone]
    exact .of_ok rfl (.inl ⟨rfl, hmeet.mpr ⟨.of_empty (not_lt.mp hread), hshared hsame⟩⟩)
  · refine ((same_answersIf hvalid hstop).bind (d := True) fun equal hequal =>
      ?_).congr (iff_of_eq (and_true _)).symm fun _ h => h
    refine .of_ok rfl ?_
    cases equal with
    | true => exact .inl ⟨rfl, hequal.mp rfl⟩
    | false => exact .inr ⟨rfl, fun h => Bool.false_ne_true (hequal.mpr h)⟩
  · exact .of_ok rfl (.inl ⟨rfl, .of_empty (le_refl _)⟩)

theorem settled_le {shared : Bool} {since here stop : ℕ} (hsince : since ≤ here)
    (hhere : here ≤ stop) :
    since ≤ (settled shared since here stop).2 ∧ (settled shared since here stop).2 ≤ stop := by
  rw [settled]
  split_ifs
  · exact ⟨hsince.trans hhere, le_refl _⟩
  · exact ⟨hsince.trans hhere, le_refl _⟩
  · exact ⟨le_refl _, hsince.trans hhere⟩

omit [DecidableEq Id] in
theorem agree_settled {here stop : ℕ} (hsince : since ≤ here) (hhere : here ≤ stop)
    (hshared : shared = true → SameOn (sides.a.bytes sides.mapping) (sides.b.bytes sides.mapping)
      here stop) :
    (∀ window ∈ (settled shared since here stop).1, sides.Agree window) ↔
      SameOn (sides.a.bytes sides.mapping) (sides.b.bytes sides.mapping) since
        (settled shared since here stop).2 := by
  rw [settled]
  split_ifs with hsame
  · rw [agree_windowsOf, SameOn.append_iff hsince hhere]
    exact ⟨fun h => ⟨h, hshared hsame⟩, And.left⟩
  · exact agree_windowsOf
  · exact ⟨fun _ => .of_empty (le_refl _), fun _ _ h => absurd h not_mem_nil⟩

/-- **The loop** over both sequences of extents answers whether the bytes from `since` on are the
same, as far as the windows the layouts leave are read. -/
theorem loop_answersIf (hvalid : sides.Valid length) {x y : Option (ExtentCursor Id)}
    {p q : Option (Extent Id)} {here : ℕ} (hx : sides.a.Stands sides.mapping x p left)
    (hy : sides.b.Stands sides.mapping y q right) (hleft : Covers here left)
    (hright : Covers here right) (hin : ∀ e ∈ left, e ∈ sides.a.layout sides.mapping)
    (hin' : ∀ e ∈ right, e ∈ sides.b.layout sides.mapping) (hsince : since ≤ here)
    (hhere : here ≤ length) :
    AnswersIf (sides.Reads (compared length left right since here))
      (fun same => same = true ↔
        SameOn (sides.a.bytes sides.mapping) (sides.b.bytes sides.mapping) since length)
      (sides.loop length x y p q since here) := by
  induction hn : length - here using Nat.strong_induction_on generalizing x y p q left right since
    here with
  | _ n ih =>
    subst hn
    obtain rfl := hx.1
    obtain rfl := hy.1
    rw [loop, compared]
    split_ifs with hlt hlate hdone
    · have := hleft.lt_bound hlt
      have := hright.lt_bound hlt
      omega
    · obtain ⟨stop, hstop⟩ : ∃ stop, min (min (extentBound length here left.head?)
        (extentBound length here right.head?)) length = stop := ⟨_, rfl⟩
      have hshared : sharedNext here left right = true →
          SameOn (sides.a.bytes sides.mapping) (sides.b.bytes sides.mapping) here stop := by
        intro h
        rw [sharedNext, Bool.and_eq_true, decide_eq_true_eq] at h
        obtain ⟨hheads, hany⟩ := h
        cases left with
        | nil => cases hany
        | cons e later =>
          have hoffset : e.offset = here := of_decide_eq_true hany
          have hmem : e ∈ right := mem_of_mem_head? hheads.symm
          have hsame := hvalid.a.same_of_shared hvalid.b (hin e mem_cons_self) (hin' e hmem)
          rw [head?_cons, extentBound, if_neg (by omega)] at hstop
          intro i hi hlt
          exact hsame i (by omega) (by omega)
      rw [hstop] at hlate
      simp only [hstop]
      have hge : here ≤ stop := (not_le.mp hlate).le
      have hend : stop ≤ length := by omega
      obtain ⟨hlow, hhigh⟩ := @settled_le (sharedNext here left right) _ _ _ hsince hge
      have hmeet := @SameOn.append_iff (sides.a.bytes sides.mapping) (sides.b.bytes sides.mapping)
        since _ length hlow (hhigh.trans hend)
      rw [reads_append, agree_settled hsince hge hshared]
      refine (settle_answersIf hvalid hsince hge hend hshared).bind fun next hnext => ?_
      rcases hnext with ⟨rfl, hsame⟩ | ⟨rfl, hdiffers⟩
      · obtain ⟨found, hfound, hx'⟩ := hvalid.a.stands_passed hx stop
        obtain ⟨found', hfound', hy'⟩ := hvalid.b.stands_passed hy stop
        have hcovers := @Covers.passed _ _ stop length _ hleft hge (by omega)
        have hcovers' := @Covers.passed _ _ stop length _ hright hge (by omega)
        dsimp only
        rw [hfound, ok_bind, hfound', ok_bind]
        have hless : length - stop < length - here := by omega
        refine (ih _ hless hx' hy' hcovers hcovers' (fun e he => hin e (mem_of_mem_passed he))
          (fun e he => hin' e (mem_of_mem_passed he)) hhigh hend rfl).congr
          ⟨fun h => h hsame, fun h _ => h⟩ fun same h => ?_
        rw [h, hmeet]
        exact ⟨fun h => ⟨hsame, h⟩, And.right⟩
      · refine .of_holds (fun h => absurd h hdiffers) rfl ?_
        exact ⟨fun h => absurd h Bool.false_ne_true, fun h => absurd (hmeet.mp h).1 hdiffers⟩
    · have hnone : windowsOf since length = [] := by
        rw [windowsOf, Nat.sub_eq_zero_of_le hdone]
        rfl
      rw [hnone]
      exact .of_ok rfl ⟨fun _ => .of_empty hdone, fun _ => rfl⟩
    · exact same_answersIf hvalid (le_refl _)

end Sides

/-- The windows of two valid files that `same_file_bytes_within` compares. -/
def Sides.windows (sides : Sides Id) : List ByteRange :=
  compared sides.a.logicalLen (sides.a.layout sides.mapping) (sides.b.layout sides.mapping) 0 0

/-- **When a comparison is answered**: the roots or the lengths answer it, or every window the
layouts leave is read, up to the first one that differs. -/
def Sides.Answered (sides : Sides Id) (left right : Id) (limit : ℕ) : Prop :=
  left = right ∨ sides.a.logicalLen ≠ sides.b.logicalLen ∨ limit < sides.a.logicalLen ∨
    sides.Reads sides.windows

theorem sameFileBytesWithin_answersIf {provider : FileProvider Id} {left right : Id}
    {a b : FileContent Id} (hleft : provider.classify left = .ok a)
    (hright : provider.classify right = .ok b) (ha : a.Valid provider.mapping)
    (hb : b.Valid provider.mapping) (limit : ℕ) :
    AnswersIf (Sides.Answered ⟨provider.mapping, a, b⟩ left right limit)
      (fun same => same = decide (left = right ∨
        a.bytes provider.mapping = b.bytes provider.mapping ∧
          (a.bytes provider.mapping).length ≤ limit))
      (sameFileBytesWithin provider left right limit) := by
  rw [sameFileBytesWithin]
  by_cases hroots : left = right
  · rw [if_pos hroots]
    exact .of_holds (.inl hroots) rfl (decide_eq_true (Or.inl hroots)).symm
  rw [if_neg hroots, hleft, ok_bind, hright, ok_bind, ha.length_bytes]
  by_cases hlengths : a.logicalLen ≠ b.logicalLen ∨ limit < a.logicalLen
  · rw [if_pos hlengths]
    refine .of_holds (.inr (hlengths.imp_right .inl)) rfl (Eq.symm (decide_eq_false ?_))
    rintro (h | ⟨hbytes, hlimit⟩)
    · exact hroots h
    · rcases hlengths with h | h
      · exact h (by rw [← ha.length_bytes, hbytes, hb.length_bytes])
      · omega
  rw [if_neg hlengths]
  rw [not_or, not_not, not_lt] at hlengths
  have hvalid : Sides.Valid ⟨provider.mapping, a, b⟩ a.logicalLen :=
    ⟨ha, hb, rfl, hlengths.1.symm⟩
  obtain ⟨p, hp, hx⟩ := @FileContent.Valid.stands_first _ _ _ ⟨provider.mapping, a, b⟩ ha
  obtain ⟨q, hq, hy⟩ := @FileContent.Valid.stands_first _ _ _ ⟨provider.mapping, a, b⟩ hb
  have hlengthEq : (a.bytes provider.mapping).length = (b.bytes provider.mapping).length := by
    rw [ha.length_bytes, hb.length_bytes, hlengths.1]
  have hall := SameOn.iff_eq hlengthEq
  rw [ha.length_bytes] at hall
  dsimp only
  rw [hp, ok_bind, hq, ok_bind]
  refine (Sides.loop_answersIf hvalid hx hy (FileContent.covers_layout a)
    (FileContent.covers_layout b) (fun e he => he) (fun e he => he) (le_refl 0)
    (Nat.zero_le _)).congr ⟨fun h => ?_, fun h => .inr (.inr (.inr h))⟩ fun same hsame => ?_
  · rcases h with h | h | h | h
    · exact absurd h hroots
    · exact absurd hlengths.1 h
    · exact absurd hlengths.2 (not_le.mpr h)
    · exact h
  · rw [Bool.eq_iff_iff, hsame, decide_eq_true_eq]
    exact hall.trans ⟨fun h => .inr ⟨h, hlengths.2⟩, fun h => (h.resolve_left hroots).1⟩

/-- **The answer is the equality of the bytes** of two valid files of any layouts, within the limit
or with equal roots, exactly when the comparison is answered. -/
theorem sameFileBytes_exact_iff {provider : FileProvider Id} {left right : Id}
    {a b : FileContent Id} (hleft : provider.classify left = .ok a)
    (hright : provider.classify right = .ok b) (ha : a.Valid provider.mapping)
    (hb : b.Valid provider.mapping) :
    (∀ limit, sameFileBytesWithin provider left right limit =
        .ok (decide (left = right ∨ a.bytes provider.mapping = b.bytes provider.mapping ∧
          (a.bytes provider.mapping).length ≤ limit)) ↔
      Sides.Answered ⟨provider.mapping, a, b⟩ left right limit) ∧
    (sameFileBytes provider left right =
        .ok (decide (a.bytes provider.mapping = b.bytes provider.mapping)) ↔
      Sides.Answered ⟨provider.mapping, a, b⟩ left right (u64Bound - 1)) := by
  refine ⟨fun limit => (sameFileBytesWithin_answersIf hleft hright ha hb limit).eq_ok_iff, ?_⟩
  have hwhole := (sameFileBytesWithin_answersIf hleft hright ha hb (u64Bound - 1)).eq_ok_iff
  have hequal : (left = right ∨ a.bytes provider.mapping = b.bytes provider.mapping ∧
      (a.bytes provider.mapping).length ≤ u64Bound - 1) ↔
      a.bytes provider.mapping = b.bytes provider.mapping := by
    refine ⟨?_, fun h => .inr ⟨h, ?_⟩⟩
    · rintro (rfl | h)
      · rw [hleft] at hright
        rw [Except.ok.inj hright]
      · exact h.1
    · have := ha.logicalLen_lt
      rw [ha.length_bytes]
      omega
  rw [decide_eq_decide.mpr hequal] at hwhole
  exact hwhole

omit [DecidableEq Id] in
theorem mem_slices_of_placed {extents : List (ExtentSlice Id)} : ∀ {position : ℕ}
    {placed : Placed Id}, placed ∈ placedFrom position extents → placed.slice ∈ extents := by
  induction extents with
  | nil => exact fun h => absurd h not_mem_nil
  | cons slice rest ih =>
    intro position placed h
    rcases mem_cons.mp h with rfl | h
    · exact mem_cons_self
    · exact mem_cons_of_mem slice (ih h)

/-- **Short files without a common extent** are compared as a whole. -/
theorem compared_of_short {length : ℕ} {here : ℕ} (hleft : Covers here left)
    (hright : Covers here right) (hnone : ∀ e ∈ left, e ∉ right)
    (hshort : length < since + byteWindow) (hhere : here ≤ length) :
    compared length left right since here = windowsOf since length := by
  induction hn : length - here using Nat.strong_induction_on generalizing left right here with
  | _ n ih =>
    subst hn
    rw [compared]
    split_ifs with hlt hlate
    · have := hleft.lt_bound hlt
      have := hright.lt_bound hlt
      omega
    · have hapart : sharedNext here left right = false := by
        rw [sharedNext, Bool.and_eq_false_iff, decide_eq_false_iff_not]
        cases left with
        | nil => exact .inr rfl
        | cons e later =>
          refine .inl fun heads => hnone e mem_cons_self ?_
          exact mem_of_mem_head? heads.symm
      obtain ⟨stop, hstop⟩ : ∃ stop, min (min (extentBound length here left.head?)
        (extentBound length here right.head?)) length = stop := ⟨_, rfl⟩
      rw [hstop] at hlate
      have hcovers := @Covers.passed _ _ stop length _ hleft (by omega) (by omega)
      have hcovers' := @Covers.passed _ _ stop length _ hright (by omega) (by omega)
      rw [hapart]
      simp only [hstop, settled, Bool.false_eq_true, if_false]
      have hwindow : 0 < byteWindow := by decide
      rw [if_neg (by omega), nil_append]
      exact ih _ (by omega) hcovers hcovers'
        (fun e he he' => hnone e (mem_of_mem_passed he) (mem_of_mem_passed he')) (by omega) rfl
    · rfl

end Files

/-! ## A pair of leaves and a whole file -/

def pairProvider : FileProvider ℕ where
  classify
    | 10 => .ok (.chunked pairState)
    | 11 => .ok (.wholeFile (List.replicate 64 0x61 ++ List.replicate 64 0x62))
    | _ => .error .missingObject
  mapping := pairStore

theorem pairSlices : (FileContent.chunked pairState).slices pairStore = pairLeaf 3 ++ pairLeaf 4 :=
  pairFile.mapped.slicesBelow_eq

theorem pairBytes : (FileContent.chunked pairState).bytes pairStore =
    List.replicate 64 0x61 ++ List.replicate 64 0x62 := by
  rw [FileContent.bytes, pairSlices]
  decide +kernel

/-- The two files are read in one window, and they are the same. -/
theorem sameFileBytes_pair : sameFileBytes pairProvider 10 11 = .ok true := by
  have hvalid : (FileContent.chunked pairState).Valid pairStore := by
    rw [FileContent.Valid, pairSlices]
    exact pairFile
  have hwhole : (FileContent.wholeFile (List.replicate 64 0x61 ++ List.replicate 64 0x62)).Valid
      pairStore := by
    rw [FileContent.Valid, length_append, length_replicate, length_replicate]
    decide
  have hanswered : Sides.Answered ⟨pairStore, .chunked pairState,
      .wholeFile (List.replicate 64 0x61 ++ List.replicate 64 0x62)⟩ 10 11 (u64Bound - 1) := by
    refine .inr (.inr (.inr ?_))
    rw [Sides.windows, compared_of_short (FileContent.covers_layout _)
      (FileContent.covers_layout _) (fun e _ => not_mem_nil) (by decide) (Nat.zero_le _)]
    have hfits : Fits readNavigationCachePages ∅ (navigation pairStore pairState ⟨0, 128⟩) := by
      decide +kernel
    exact ⟨⟨by decide, hfits, trivial⟩, fun _ => trivial⟩
  have hexact := (@sameFileBytes_exact_iff _ _ pairProvider 10 11 _ _ rfl rfl hvalid
    hwhole).2.mpr hanswered
  rw [hexact]
  exact congrArg _ (decide_eq_true pairBytes)

/-! ## A window that is refused -/

/-- Bytes of one chunk of zeros, from another offset for every leaf. -/
def zeroSlice (leaf : ℕ) : ExtentSlice ℕ :=
  ⟨0, leaf % 64, 62, by decide, by rw [maximumChunkBytes]; omega⟩

def zeroLeaf (leaf : ℕ) : List (ExtentSlice ℕ) := List.replicate 64 (zeroSlice leaf)

/-- The leaves of a file: the first one again as the first of the second and third wave. -/
def evictingLeaves : List ℕ := List.range 32 ++ (0 :: List.range' 32 31) ++ [0, 63]

def evictingChildren : List (ChildDescriptor ℕ) :=
  (evictingLeaves.zipIdx).map fun leaf => ⟨(leaf.2 + 1) * 3968, (leaf.2 + 1) * 64, 100 + leaf.1⟩

def wideSlices : List (ExtentSlice ℕ) :=
  List.replicate 8 ⟨0, 0, 32736, by decide, by decide⟩

/-- The chunk, the root over the leaves, the single page of the other file, and the leaves. -/
def evictingStore : ℕ → Option (MappingObject ℕ)
  | 0 => some (.chunk (List.replicate 32768 0))
  | 1 => some (.page (.branch 1 261888 4224 evictingChildren))
  | 2 => some (.page (.leaf 261888 wideSlices))
  | id => if 100 ≤ id then some (.page (.leaf 3968 (zeroLeaf (id - 100)))) else none

def evictingState : FileState ℕ := ⟨261888, 4224, 1, 1⟩
def wideState : FileState ℕ := ⟨261888, 8, 0, 2⟩

def evictingProvider : FileProvider ℕ where
  classify
    | 10 => .ok (.chunked evictingState)
    | 11 => .ok (.chunked wideState)
    | _ => .error .missingObject
  mapping := evictingStore

theorem checkExtents_replicate {slice : ExtentSlice ℕ} (hapart : ¬ slice.Touches slice)
    {count : ℕ} : ∀ {previous : Option (ExtentSlice ℕ)} {total : ℕ},
      (∀ prior ∈ previous, prior = slice) → total + count * slice.logicalLength < u64Bound →
      ExtentNode.checkExtents previous total (List.replicate count slice) =
        .ok (total + count * slice.logicalLength) := by
  induction count with
  | zero =>
    intro previous total _ _
    rw [Nat.zero_mul]
    rfl
  | succ count ih =>
    intro previous total hprevious hbound
    rw [Nat.succ_mul] at hbound
    have hnone : (previous.any fun prior => decide (prior.Touches slice)) = false := by
      cases previous with
      | none => rfl
      | some prior =>
        rw [hprevious prior rfl]
        exact decide_eq_false hapart
    have hadd : checkedAdd total slice.logicalLength = .ok (total + slice.logicalLength) :=
      checkedAdd_eq_ok.mpr ⟨by omega, rfl⟩
    rw [replicate_succ, ExtentNode.checkExtents, hnone, hadd]
    refine (ih (fun prior h => (Option.some.inj h).symm) (by omega)).trans ?_
    rw [Nat.succ_mul, Nat.add_assoc, Nat.add_comm slice.logicalLength]

theorem totalBytes_replicate (slice : ExtentSlice ℕ) (count : ℕ) :
    totalBytes (List.replicate count slice) = count * slice.logicalLength := by
  rw [totalBytes, map_replicate, sum_replicate, nsmul_eq_mul,
    Nat.cast_id]

theorem zeroLeaf_mapped (leaf : ℕ) : Mapped evictingStore 0 false (100 + leaf) (zeroLeaf leaf) := by
  have htotal : totalBytes (zeroLeaf leaf) = 3968 := totalBytes_replicate _ _
  have hapart : ¬ (zeroSlice leaf).Touches (zeroSlice leaf) := by
    rintro ⟨-, h⟩
    have : leaf % 64 + 62 = leaf % 64 := h
    omega
  rw [Mapped, htotal]
  refine ⟨?_, ?_⟩
  · have hid : evictingStore (100 + leaf) =
        if 100 ≤ 100 + leaf then some (.page (.leaf 3968 (zeroLeaf (100 + leaf - 100)))) else
          none := by
      rw [evictingStore.eq_def]
      split <;> first | omega | rfl
    rw [hid, if_pos (Nat.le_add_right ..), Nat.add_sub_cancel_left]
  · have hcheck := @checkExtents_replicate _ hapart 64 none 0 (fun _ h => by cases h)
      (show 0 + 64 * 62 < u64Bound by decide)
    rw [ExtentNode.validate]
    refine check_bind_eq_ok.mpr ⟨?_, bind_eq_ok.mpr ⟨_, hcheck, ?_⟩⟩
    · simp [ExtentNode.entryCount, zeroLeaf, minimumEntries, maximumEntries]
    · rfl

def evictingSlices : List (ExtentSlice ℕ) := (evictingLeaves.map zeroLeaf).flatten

theorem totalBytes_evictingLeaves :
    (evictingLeaves.map zeroLeaf).map totalBytes = List.replicate 66 3968 := by
  have hleaf : totalBytes ∘ zeroLeaf = fun _ => 3968 := funext fun _ => totalBytes_replicate _ _
  rw [map_map, hleaf, map_const']
  rfl

theorem length_evictingLeaves :
    (evictingLeaves.map zeroLeaf).map List.length = List.replicate 66 64 := by
  have hleaf : List.length ∘ zeroLeaf = fun _ => 64 := funext fun _ => length_replicate
  rw [map_map, hleaf, map_const']
  rfl

theorem zeros_inChunk {slice : ExtentSlice ℕ} (h : slice.payloadObjectId = 0) :
    InChunk evictingStore slice := by
  refine ⟨List.replicate 32768 0, ?_, ?_, ?_⟩
  · rw [h]
    rfl
  · rw [length_replicate]
    exact slice.inside
  · rw [length_replicate]
    exact le_refl _

theorem totalBytes_flatten (parts : List (List (ExtentSlice ℕ))) :
    totalBytes parts.flatten = (parts.map totalBytes).sum := by
  induction parts with
  | nil => rfl
  | cons part parts ih => rw [flatten_cons, totalBytes_append, ih, map_cons, sum_cons]

theorem evictingFile : ChunkedFile evictingStore evictingState evictingSlices := by
  have hbytes : totalBytes evictingSlices = 261888 := by
    rw [evictingSlices, totalBytes_flatten, totalBytes_evictingLeaves]
    rfl
  have hcount : evictingSlices.length = 4224 := by
    rw [evictingSlices, length_flatten, length_evictingLeaves]
    rfl
  refine ⟨⟨evictingChildren, evictingLeaves.map zeroLeaf, rfl, ?_, ?_, ?_, ?_, ?_⟩,
    hbytes.symm, hcount.symm, by decide, fun slice hslice => ?_⟩
  · rw [hbytes, hcount]
    rfl
  · rw [hbytes, hcount]
    rfl
  · rw [totalBytes_evictingLeaves]
    rfl
  · rw [length_evictingLeaves]
    rfl
  · have hids : evictingChildren.map ChildDescriptor.childObjectId =
        evictingLeaves.map (100 + ·) := by rfl
    rw [← forall₂_map_left_iff, hids, forall₂_map_left_iff, forall₂_map_right_iff,
      forall₂_same]
    exact fun leaf _ => zeroLeaf_mapped leaf
  · obtain ⟨part, hpart, hslice⟩ := mem_flatten.mp hslice
    obtain ⟨leaf, -, rfl⟩ := mem_map.mp hpart
    rw [eq_of_mem_replicate hslice]
    exact zeros_inChunk rfl

theorem wideFile : ChunkedFile evictingStore wideState wideSlices := by
  have hbytes : totalBytes wideSlices = 261888 := totalBytes_replicate _ _
  refine ⟨⟨?_, ?_⟩, hbytes.symm, rfl, by decide, fun slice hslice => ?_⟩
  · rw [hbytes]
    rfl
  · rw [hbytes]
    rfl
  · rw [eq_of_mem_replicate hslice]
    exact zeros_inChunk rfl

theorem bytesOf_zeros {slices : List (ExtentSlice ℕ)}
    (h : ∀ slice ∈ slices, slice.payloadObjectId = 0) :
    bytesOf evictingStore slices = List.replicate (totalBytes slices) 0 := by
  induction slices with
  | nil => rfl
  | cons slice rest ih =>
    have hzeros : payloadOf evictingStore slice.payloadObjectId = List.replicate 32768 0 := by
      rw [h slice mem_cons_self]
      rfl
    have hinside : slice.sourceOffset + slice.logicalLength ≤ 32768 := slice.inside
    rw [bytesOf_cons, ih fun x hx => h x (mem_cons_of_mem slice hx), sliceBytes, hzeros,
      drop_replicate, take_replicate, min_eq_left (by omega), totalBytes_cons,
      replicate_add]

theorem evictingFile_slices :
    (FileContent.chunked evictingState).slices evictingStore = evictingSlices :=
  evictingFile.mapped.slicesBelow_eq

theorem wideFile_slices : (FileContent.chunked wideState).slices evictingStore = wideSlices :=
  wideFile.mapped.slicesBelow_eq

/-- **A comparison that is refused**: two chunked files of 261888 zeros each. One has its first leaf
again in the second and third wave of the window; the third wave finds it retained, empties the
cache for its other leaf and loses it. -/
theorem sameFileBytes_evicts_hit :
    (FileContent.chunked evictingState).Valid evictingStore ∧
    (FileContent.chunked wideState).Valid evictingStore ∧
    (FileContent.chunked evictingState).bytes evictingStore =
      (FileContent.chunked wideState).bytes evictingStore ∧
    ¬ ∃ same, sameFileBytes evictingProvider 10 11 = .ok same := by
  have hnarrow : (FileContent.chunked evictingState).Valid evictingStore := by
    rw [FileContent.Valid, evictingFile_slices]
    exact evictingFile
  have hwide : (FileContent.chunked wideState).Valid evictingStore := by
    rw [FileContent.Valid, wideFile_slices]
    exact wideFile
  refine ⟨hnarrow, hwide, ?_, ?_⟩
  · rw [FileContent.bytes, evictingFile_slices, FileContent.bytes, wideFile_slices, bytesOf_zeros,
      bytesOf_zeros, ← evictingFile.logicalLen_eq, ← wideFile.logicalLen_eq]
    · rfl
    · exact fun slice h => by rw [eq_of_mem_replicate h]
    · intro slice h
      obtain ⟨part, hpart, hslice⟩ := mem_flatten.mp h
      obtain ⟨leaf, -, rfl⟩ := mem_map.mp hpart
      rw [eq_of_mem_replicate hslice]
      rfl
  · rintro ⟨same, hsame⟩
    have hnone : ∀ e ∈ (FileContent.chunked evictingState).layout evictingStore,
        e ∉ (FileContent.chunked wideState).layout evictingStore := by
      intro e he he'
      have hlength : e.length = 62 := by
        obtain ⟨placed, hplaced, rfl⟩ := mem_map.mp he
        have hslice := mem_slices_of_placed hplaced
        rw [evictingFile_slices] at hslice
        obtain ⟨part, hpart, hslice⟩ := mem_flatten.mp hslice
        obtain ⟨leaf, -, rfl⟩ := mem_map.mp hpart
        exact congrArg ExtentSlice.logicalLength (eq_of_mem_replicate hslice)
      have hlength' : e.length = 32736 := by
        obtain ⟨placed, hplaced, rfl⟩ := mem_map.mp he'
        have hslice := mem_slices_of_placed hplaced
        rw [wideFile_slices] at hslice
        exact congrArg ExtentSlice.logicalLength (eq_of_mem_replicate hslice)
      omega
    have hwindows : Sides.windows ⟨evictingStore, .chunked evictingState, .chunked wideState⟩ =
        [⟨0, 261888⟩] :=
      compared_of_short (FileContent.covers_layout _) (FileContent.covers_layout _) hnone
        (by decide) (Nat.zero_le _)
    have hanswers := @sameFileBytesWithin_answersIf _ _ evictingProvider 10 11 _ _ rfl rfl hnarrow
      hwide (u64Bound - 1)
    have hunfit : ¬ Fits readNavigationCachePages ∅
        (navigation evictingStore evictingState ⟨0, 261888⟩) := by decide +kernel
    obtain ⟨e, he⟩ := hanswers.2 fun h => by
      rcases h with h | h | h | h
      · exact absurd h (by decide)
      · exact h rfl
      · exact absurd h (by decide)
      · have hread : Sides.Reads ⟨evictingStore, .chunked evictingState, .chunked wideState⟩
          [⟨0, 261888⟩] := hwindows ▸ h
        exact hunfit hread.1.2.1
    rw [sameFileBytes, he] at hsame
    cases hsame

end LayerFs.Compare
