import LayerFs.Service.Search

/-!
# What a search visits, and its reuse (`read/search.rs`)

One call searches each content once: the lines of a complete scan are kept, up to a budget, and
answer the later files with the same content.

* `Sound` — **the invariant** of the kept results; `Reached.sound` holds it over every run of calls.
* `search_exact` — **both routes**: the scan of any parts visits the lines of `grepLines`, and a
  kept result visits and ends as the scan does.
-/

namespace LayerFs.Window

open Pieces Utf8 Matching

/-! ## What is visited -/

/-- The largest `k ≤ width` such that the first `k` bytes are whole characters. -/
def longestValid (l : List ℕ) : ℕ → ℕ
  | 0 => 0
  | k + 1 => if k + 1 ≤ l.length ∧ utf8Valid (l.take (k + 1)) = true then k + 1
      else longestValid l k

/-- The longest front of a line that is valid text of at most `width` bytes. -/
def validFront (width : ℕ) (l : List ℕ) : List ℕ := l.take (longestValid l width)

/-- A numbered line that holds the pattern, with its length and shown front. -/
def grepLine (width : ℕ) (p : List ℕ) (x : List ℕ × ℕ) : Option (ℕ × Line) :=
  if ∃ i < x.1.length + 1, OccursAt p x.1 i then
    some (x.2, ⟨validFront width x.1, x.1.length,
      decide ((validFront width x.1).length < x.1.length), true⟩)
  else none

def grepLines (width : ℕ) (p t : List ℕ) : List (ℕ × Line) :=
  ((pieces newline t).zipIdx 1).filterMap (grepLine width p)

theorem longestValid_eq {l : List ℕ} {k : ℕ} (hk : k ≤ l.length)
    (hvalid : utf8Valid (l.take k) = true) :
    ∀ width, k ≤ width → (∀ j ≤ width, j ≤ l.length → utf8Valid (l.take j) = true → j ≤ k) →
      longestValid l width = k := by
  intro width
  induction width with
  | zero =>
    intro hle _
    rw [longestValid]
    omega
  | succ width ih =>
    intro hle hmax
    rw [longestValid]
    split_ifs with h
    · exact le_antisymm (hmax _ le_rfl h.1 h.2) (by omega)
    · have hne : k ≠ width + 1 := by
        rintro rfl
        exact h ⟨hk, hvalid⟩
      exact ih (by omega) (fun j hj => hmax j (by omega))

theorem shown_eq (width : ℕ) (l : List ℕ) :
    shown width l = ⟨validFront width l, l.length,
      decide ((validFront width l).length < l.length), true⟩ := by
  obtain ⟨hle, hwhole, hmax⟩ := validLength_spec (l.take width)
  have hcut : ∀ {k}, k ≤ (l.take width).length → (l.take width).take k = l.take k := by
    intro k hk
    rw [List.length_take] at hk
    rw [List.take_take, min_eq_left (by omega)]
  have hlength : (l.take width).length = min width l.length := List.length_take
  have hlongest : longestValid l width = validLength (l.take width) := by
    apply longestValid_eq (by omega)
    · rw [utf8Valid_iff_run, ← hcut hle]
      exact hwhole
    · omega
    · intro j hj hjl hvalid
      apply hmax j (by omega)
      rw [hcut (by omega), ← utf8Valid_iff_run]
      exact hvalid
  have hfront : validFront width l = (l.take width).take (validLength (l.take width)) := by
    rw [validFront, hlongest, hcut hle]
  rw [shown, line, hfront, List.length_take, min_eq_left hle]

theorem textVisits_wanted (width : ℕ) (p t : List ℕ) :
    textVisits width (wanted p) t = grepLines width p t := by
  rw [textVisits, grepLines]
  generalize pieces newline t = ls
  generalize 1 = number
  induction ls generalizing number with
  | nil => rfl
  | cons l ls ih =>
    rw [visits, List.zipIdx_cons, List.filterMap_cons, ih, shown_eq]
    have hwanted : wanted p number l = true ↔ ∃ i < l.length + 1, OccursAt p l i := by
      rw [wanted, holds_iff]
      constructor
      · rintro ⟨i, hi⟩
        rcases Nat.lt_or_ge i (l.length + 1) with hlt | hge
        · exact ⟨i, hlt, hi⟩
        · -- past the end only the empty pattern lies, which lies everywhere
          rw [OccursAt, List.drop_of_length_le (by omega), List.prefix_nil] at hi
          exact ⟨0, by omega, by rw [hi]; exact List.nil_prefix⟩
      · rintro ⟨i, -, hi⟩
        exact ⟨i, hi⟩
    by_cases h : ∃ i < l.length + 1, OccursAt p l i
    · rw [if_pos (hwanted.2 h), grepLine, if_pos h]
    · rw [if_neg (fun hw => h (hwanted.1 hw)), grepLine, if_neg h]

/-! ## Reuse -/

/-- What one content's complete scan reported: its lines, then whether it was refused as binary. -/
structure Found where
  lines : List (ℕ × Line)
  binary : Bool

def keptBytes : ℕ := 48 * 1024
def entryBytes : ℕ := 64

/-- One call's kept results by content, and the bytes they cost. -/
structure Reuse (ι : Type*) where
  found : ι → Option Found
  spent : ℕ

def Reuse.init {ι : Type*} : Reuse ι := ⟨fun _ => none, 0⟩

variable {σ : Type*}

/-- A scan's record of what it visits: the lines within the budget, their cost, and whether the
visitor has wanted more every time. -/
structure Recorder (σ : Type*) where
  lines : List (ℕ × Line)
  cost : ℕ
  complete : Bool
  user : σ

def record (visit : σ → ℕ × Line → Except Refusal Bool × σ) (spent : ℕ) (r : Recorder σ)
    (l : ℕ × Line) : Except Refusal Bool × Recorder σ :=
  let cost := r.cost + (l.2.text.length + entryBytes)
  let lines := if spent + cost ≤ keptBytes then r.lines ++ [l] else r.lines
  match visit r.user l with
  | (.error e, s) => (.error e, ⟨lines, cost, r.complete, s⟩)
  | (.ok more, s) => (.ok more, ⟨lines, cost, r.complete && more, s⟩)

/-- The search of a file by its content: from a kept result when the content was scanned before,
else a scan, kept whole or not at all. -/
def Reuse.search {ι : Type*} [DecidableEq ι] (reuse : Reuse ι) (id : ι)
    (visit : σ → ℕ × Line → Except Refusal Bool × σ) (width : ℕ) (p : List ℕ)
    (parts : List (List ℕ)) (bad : Bool) (s : σ) : (Except Refusal Unit × σ) × Reuse ι :=
  match reuse.found id with
  | some found => (textsOver visit found.lines found.binary s, reuse)
  | none =>
    let r := Window.search (record visit reuse.spent) width p parts bad ⟨[], entryBytes, true, s⟩
    let refused := match r.1 with
      | .ok _ => some false
      | .error e => if e.code = "Binary" then some true else none
    match refused with
    | none => ((r.1, r.2.user), reuse)
    | some isBinary =>
      if r.2.complete = true ∧ reuse.spent + r.2.cost ≤ keptBytes then
        ((r.1, r.2.user), ⟨fun i => if i = id then some ⟨r.2.lines, isBinary⟩ else reuse.found i,
          reuse.spent + r.2.cost⟩)
      else ((r.1, r.2.user), reuse)

/-- The record of a delivery: the visitor sees what it would see alone, and a record that wanted
every line and kept within the budget has them all. -/
structure Recorded (lines : List (ℕ × Line)) (spent : ℕ) (r : Except Refusal Bool × σ)
    (r₀ : Recorder σ) (r' : Except Refusal Bool × Recorder σ) : Prop where
  answer : r'.1 = r.1
  user : r'.2.user = r.2
  cost : r₀.cost ≤ r'.2.cost
  all : r.1 = .ok true → r'.2.complete = r₀.complete ∧
    (spent + r'.2.cost ≤ keptBytes → r'.2.lines = r₀.lines ++ lines)
  stopped : r.1 = .ok false → r'.2.complete = false

theorem deliver_record (visit : σ → ℕ × Line → Except Refusal Bool × σ) (spent : ℕ)
    (lines : List (ℕ × Line)) :
    ∀ r₀ : Recorder σ, Recorded lines spent (Pieces.deliver visit lines r₀.user) r₀
      (Pieces.deliver (record visit spent) lines r₀) := by
  induction lines with
  | nil =>
    intro r₀
    exact ⟨rfl, rfl, le_rfl, fun _ => ⟨rfl, fun _ => by simp [Pieces.deliver]⟩, fun h => (by cases h)⟩
  | cons l lines ih =>
    intro r₀
    rw [deliver_cons, deliver_cons, record]
    rcases visit r₀.user l with ⟨e | _ | _, s⟩
    · exact ⟨rfl, rfl, Nat.le_add_right _ _, fun h => (by cases h), fun h => (by cases h)⟩
    · exact ⟨rfl, rfl, Nat.le_add_right _ _, fun h => (by cases h),
        fun _ => by simp [thenDeliver]⟩
    · have h := ih ⟨if spent + (r₀.cost + (l.2.text.length + entryBytes)) ≤ keptBytes
          then r₀.lines ++ [l] else r₀.lines, r₀.cost + (l.2.text.length + entryBytes),
        r₀.complete && true, s⟩
      refine ⟨h.answer, h.user, (Nat.le_add_right _ _).trans h.cost, fun hok => ?_, h.stopped⟩
      obtain ⟨hcomplete, hlines⟩ := h.all hok
      refine ⟨hcomplete.trans (Bool.and_true _), fun hbudget => ?_⟩
      have hcost := h.cost
      have hthen : spent + (r₀.cost + (l.2.text.length + entryBytes)) ≤ keptBytes := by
        simp only at hcost
        exact (Nat.add_le_add_left hcost spent).trans hbudget
      refine (hlines hbudget).trans ?_
      simp only [if_pos hthen]
      simp

/-! ## Every run of calls -/

def Sound {ι : Type*} (content : ι → List ℕ × Bool) (width : ℕ) (p : List ℕ) (reuse : Reuse ι) :
    Prop :=
  ∀ id found, reuse.found id = some found →
    found = ⟨searchLines width p (content id).1 (content id).2, (content id).2⟩

def Plain (visit : σ → ℕ × Line → Except Refusal Bool × σ) : Prop :=
  ∀ s l e, (visit s l).1 = .error e → e.code ≠ "Binary"

theorem deliver_plain {visit : σ → ℕ × Line → Except Refusal Bool × σ} (hplain : Plain visit)
    (lines : List (ℕ × Line)) (s : σ) (e : Refusal) (h : (Pieces.deliver visit lines s).1 = .error e) :
    e.code ≠ "Binary" := by
  induction lines generalizing s with
  | nil => cases h
  | cons l lines ih =>
    rw [deliver_cons] at h
    rcases hv : visit s l with ⟨e' | _ | _, s'⟩
    · rw [hv] at h
      obtain rfl : e' = e := Except.error.inj h
      exact hplain s l e' (by rw [hv])
    · rw [hv] at h
      cases h
    · rw [hv] at h
      exact ih s' h

/-- **One call** by content: it answers as the scan does, and keeps the results sound. -/
theorem Reuse.search_spec {ι : Type*} [DecidableEq ι] {content : ι → List ℕ × Bool} {width : ℕ}
    {p : List ℕ} (hp : p ≠ []) {reuse : Reuse ι} (hsound : Sound content width p reuse) {id : ι}
    {visit : σ → ℕ × Line → Except Refusal Bool × σ} {parts : List (List ℕ)} (s : σ)
    (hvalid : ∀ part ∈ parts, utf8Valid part = true) (htext : parts.flatten = (content id).1)
    (hplain : Plain visit) :
    (reuse.search id visit width p parts (content id).2 s).1
        = Window.search visit width p parts (content id).2 s ∧
      Sound content width p (reuse.search id visit width p parts (content id).2 s).2 := by
  rw [Reuse.search]
  rcases hfound : reuse.found id with _ | found
  · rw [search_eq _ width hp hvalid, search_eq _ width hp hvalid, htext, textsOver, textsOver]
    have h := deliver_record visit reuse.spent (searchLines width p (content id).1 (content id).2)
      ⟨[], entryBytes, true, s⟩
    have hrefused := deliver_plain hplain (searchLines width p (content id).1 (content id).2) s
    change Recorded _ _ (Pieces.deliver visit (searchLines width p (content id).1 (content id).2) s) _ _ at h
    generalize Pieces.deliver (record visit reuse.spent)
      (searchLines width p (content id).1 (content id).2) ⟨[], entryBytes, true, s⟩ = r' at h ⊢
    generalize Pieces.deliver visit (searchLines width p (content id).1 (content id).2) s = r at h hrefused ⊢
    obtain ⟨answer, lines, cost, complete, user⟩ := r'
    obtain ⟨e | _ | _, s'⟩ := r
    · -- the visitor refused: nothing is kept
      obtain rfl : answer = .error e := h.answer
      obtain rfl : user = s' := h.user
      have hcode : e.code ≠ "Binary" := hrefused e rfl
      simp only [hcode, if_false]
      exact ⟨trivial, hsound⟩
    · obtain rfl : answer = .ok false := h.answer
      obtain rfl : user = s' := h.user
      obtain rfl : complete = false := h.stopped rfl
      simp only [Bool.false_eq_true, false_and, if_false]
      exact ⟨trivial, hsound⟩
    · obtain rfl : answer = .ok true := h.answer
      obtain rfl : user = s' := h.user
      obtain ⟨hcomplete, hlines⟩ := h.all rfl
      obtain rfl : complete = true := hcomplete
      have hcode : binary.code = "Binary" := rfl
      have hinsert : reuse.spent + cost ≤ keptBytes → Sound content width p
          ⟨fun i => if i = id then some ⟨lines, (content id).2⟩ else reuse.found i,
            reuse.spent + cost⟩ := by
        intro hfits i found hi
        by_cases hid : i = id
        · subst hid
          simp only [if_true, Option.some.injEq] at hi
          rw [← hi]
          exact congrArg (Found.mk · _) (hlines hfits)
        · simp only [hid, if_false] at hi
          exact hsound i found hi
      rcases hbad : (content id).2 with _ | _
      · rw [hbad] at hinsert
        simp only [Bool.false_eq_true, if_false, true_and]
        split_ifs with hfits
        · exact ⟨rfl, hinsert hfits⟩
        · exact ⟨rfl, hsound⟩
      · rw [hbad] at hinsert
        simp only [if_true, hcode, true_and]
        split_ifs with hfits
        · exact ⟨rfl, hinsert hfits⟩
        · exact ⟨rfl, hsound⟩
  · have hkept := hsound id found hfound
    simp only [hkept, search_eq _ width hp hvalid, htext]
    exact ⟨trivial, hsound⟩

/-- The kept results a run of calls can reach, each call over a file with its content's text, in
any parts, and with a visitor that never itself refuses as binary. -/
inductive Reached {ι : Type} [DecidableEq ι] (content : ι → List ℕ × Bool) (width : ℕ)
    (p : List ℕ) : Reuse ι → Prop
  | init : Reached content width p Reuse.init
  | call {reuse : Reuse ι} {σ : Type} (id : ι) (visit : σ → ℕ × Line → Except Refusal Bool × σ)
      (parts : List (List ℕ)) (s : σ) : Reached content width p reuse →
      (∀ part ∈ parts, utf8Valid part = true) → parts.flatten = (content id).1 → Plain visit →
      Reached content width p (reuse.search id visit width p parts (content id).2 s).2

/-- **Over every run** of calls the kept results are sound. -/
theorem Reached.sound {ι : Type} [DecidableEq ι] {content : ι → List ℕ × Bool} {width : ℕ}
    {p : List ℕ} (hp : p ≠ []) {reuse : Reuse ι} (h : Reached content width p reuse) :
    Sound content width p reuse := by
  induction h with
  | init => exact fun id found hfound => (by cases hfound)
  | call id visit parts s _ hvalid htext hplain ih =>
    exact (Reuse.search_spec hp ih s hvalid htext hplain).2

/-- **A search is exact.** Every cut of a text into parts of whole characters visits, in order and
until the visitor stops, the lines that hold the pattern, with their numbers, lengths and longest
valid shown fronts. And whatever calls went before, a call by content visits the same lines as the
scan of its parts and ends the same way. -/
theorem search_exact {p : List ℕ} (hp : p ≠ []) (width : ℕ) :
    (∀ {σ : Type} (visit : σ → ℕ × Line → Except Refusal Bool × σ) (parts : List (List ℕ)) (s : σ),
      (∀ part ∈ parts, utf8Valid part = true) →
      search visit width p parts false s
        = ended (Pieces.deliver visit (grepLines width p parts.flatten) s)) ∧
    (∀ {ι : Type} [DecidableEq ι] {content : ι → List ℕ × Bool} {reuse : Reuse ι},
      Reached content width p reuse →
      ∀ {σ : Type} (id : ι) (visit : σ → ℕ × Line → Except Refusal Bool × σ)
        (parts : List (List ℕ)) (s : σ), (∀ part ∈ parts, utf8Valid part = true) →
        parts.flatten = (content id).1 → Plain visit →
        (reuse.search id visit width p parts (content id).2 s).1
          = search visit width p parts (content id).2 s) := by
  constructor
  · intro σ visit parts s hvalid
    rw [search_eq visit width hp hvalid, textsOver, searchLines, if_neg (by simp),
      textVisits_wanted]
    rcases Pieces.deliver visit (grepLines width p parts.flatten) s with ⟨e | _ | _, s'⟩ <;> rfl
  · intro ι _ content reuse hreached σ id visit parts s hvalid htext hplain
    exact (Reuse.search_spec hp (hreached.sound hp) s hvalid htext hplain).1

/-- The text `x\nab\n` in the parts `x\na` and `b\n`: the pattern `ab` crosses them, and its line
is the second. -/
theorem search_exact_crossing :
    search (fun s l => (.ok true, s ++ [l])) 16 [97, 98] [[120, 10, 97], [98, 10]] false []
        = (.ok (), [(2, ⟨[97, 98, 10], 3, false, true⟩)]) ∧
      (Reuse.search (Reuse.init : Reuse ℕ) 7 (fun s l => (.ok true, s ++ [l])) 16 [97, 98]
        [[120, 10, 97], [98, 10]] false []).1
        = (.ok (), [(2, ⟨[97, 98, 10], 3, false, true⟩)]) := by
  have hvalid : ∀ part ∈ [[120, 10, 97], [98, 10]], utf8Valid part = true := by decide
  have hscan : search (fun s l => (.ok true, s ++ [l])) 16 [97, 98] [[120, 10, 97], [98, 10]] false []
      = (.ok (), [(2, ⟨[97, 98, 10], 3, false, true⟩)]) := by
    rw [(search_exact (p := [97, 98]) (by simp) 16).1 _ _ _ hvalid]
    decide +kernel
  refine ⟨hscan, ?_⟩
  have hreached : Reached (fun _ : ℕ => ([120, 10, 97, 98, 10], false)) 16 [97, 98] Reuse.init :=
    Reached.init
  have hreuse := (search_exact (p := [97, 98]) (by simp) 16).2 hreached 7
    (fun s l => (.ok true, s ++ [l])) [[120, 10, 97], [98, 10]] [] hvalid rfl
    (fun s l e h => (by cases h))
  exact hreuse.trans hscan

end LayerFs.Window
