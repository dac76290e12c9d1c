import LayerFs.Content.Basic
import LayerFs.Support.SortedMap
import LayerFs.Support.Windows
import Mathlib.Data.Prod.Lex

/-!
# A merge's working state outside memory (`merge/spill.rs`)

Records stay in memory up to `heldBytes`; what is past it goes to the caller's indexed records.
The records are a parameter: every call of theirs may fail, and one that answers answers as a
map does, a window of keys being the at most 64 smallest.

* `run_answers` — **every run answers as the map**, wherever it spills.
* `eachKey_all` — **windows list every key once, in order**.
-/

namespace LayerFs.Merge

open List

open Windows

variable {K R : Type} [LinearOrder K]

abbrev Bytes := List ℕ

/-- `EditRecordKey`: a record domain, then the record identity. -/
abbrev RecordKey (K : Type) := ℕ ×ₗ K

def recordKey (kind : ℕ) (key : K) : RecordKey K := toLex (kind, key)

/-- Bytes of chunks and points a merge holds in memory before the records take the rest. -/
def heldBytes : ℕ := 8 * 2 ^ 20
def heldEntry : ℕ := 64
def windowKeys : ℕ := 64

/-- `malformed`. -/
def malformed : ContentError := .invalidRecord "merge spill record"

/-! ## The caller's records -/

/-- Exact guarded pre-state of one record (`EditRecordExpected`). -/
inductive Expected where
  | missing
  | exactBytes (bytes : Bytes)

def Expected.holds : Expected → Option Bytes → Bool
  | .missing, current => current.isNone
  | .exactBytes bytes, current => current == some bytes

/-- `IndexedEditBacking`, as far as a merge's own records use it: each call may fail. A batch is
one change, which writes a value; `apply` says whether it was applied. -/
structure Backing (R K : Type) where
  get : R → RecordKey K → ContentResult (Option Bytes × R)
  apply : R → RecordKey K → Expected → Bytes → ContentResult (Bool × R)
  keysAfter : R → ℕ → Option K → ContentResult (List K × R)

def kindKeys (m : SortedMap (RecordKey K) Bytes) (kind : ℕ) : List K :=
  ((m.entries.map Prod.fst).filter fun k => (ofLex k).1 == kind).map fun k => (ofLex k).2

/-- **What the records promise**: a call that answers answers as a map does, and a window holds
the at most 64 smallest keys of a kind behind a cursor, in order. -/
structure Backing.Lawful (b : Backing R K) (view : R → SortedMap (RecordKey K) Bytes) : Prop where
  get : ∀ {r r' key found}, b.get r key = .ok (found, r') →
    found = (view r).get? key ∧ view r' = view r
  apply : ∀ {r r' key expected value applied}, b.apply r key expected value = .ok (applied, r') →
    applied = expected.holds ((view r).get? key) ∧
      view r' = if applied then (view r).insert key value else view r
  keysAfter : ∀ {r r' kind after keys}, b.keysAfter r kind after = .ok (keys, r') →
    keys = (rest (kindKeys (view r) kind) after).take windowKeys ∧ view r' = view r

def Backing.Fails (b : Backing R K) (e : ContentError) : Prop :=
  (∃ r key, b.get r key = .error e) ∨
    (∃ r key expected value, b.apply r key expected value = .error e) ∨
    ∃ r kind after, b.keysAfter r kind after = .error e

/-! ## The merge's records -/

/-- `Spill`: the records, what is held in memory, and the next number. -/
structure Spill (R K : Type) [LinearOrder K] where
  records : R
  next : ℕ := 0
  rows : SortedMap (RecordKey K) Bytes := .empty
  bytes : ℕ := 0
  /-- kinds with a record in the records: only these are read there -/
  spilled : List ℕ := []

namespace Spill

/-- `Spill::new`. -/
def new (records : R) : Spill R K := { records }

def allocate (s : Spill R K) : ℕ × Spill R K := (s.next, { s with next := s.next + 1 })

/-- Reads a record where it may be: in memory, else in the records of a spilled kind. -/
def get (b : Backing R K) (s : Spill R K) (kind : ℕ) (key : K) :
    ContentResult (Option Bytes × Spill R K) :=
  match s.rows.get? (recordKey kind key) with
  | some value => .ok (some value, s)
  | none =>
    if kind ∈ s.spilled then do
      let (found, records) ← b.get s.records (recordKey kind key)
      return (found, { s with records })
    else .ok (none, s)

def take (b : Backing R K) (s : Spill R K) (kind : ℕ) (key : K) :
    ContentResult (Option Bytes × Spill R K) :=
  match s.rows.get? (recordKey kind key) with
  | some value =>
    .ok (some value, { s with
      rows := s.rows.erase (recordKey kind key)
      bytes := s.bytes - (heldEntry + value.length) })
  | none =>
    if kind ∈ s.spilled then do
      let (found, records) ← b.get s.records (recordKey kind key)
      return (found, { s with records })
    else .ok (none, s)

def change (b : Backing R K) (s : Spill R K) (key : RecordKey K) (expected : Expected)
    (value : Bytes) : ContentResult (Spill R K) := do
  let (applied, records) ← b.apply s.records key expected value
  if applied then return { s with records } else throw malformed

/-- Writes a record the caller knows does not exist yet in either place. -/
def insert (b : Backing R K) (s : Spill R K) (kind : ℕ) (key : K) (value : Bytes) :
    ContentResult (Spill R K) :=
  if s.bytes + heldEntry + value.length ≤ heldBytes then
    if (s.rows.get? (recordKey kind key)).isSome then .error malformed
    else .ok { s with
      rows := s.rows.insert (recordKey kind key) value
      bytes := s.bytes + (heldEntry + value.length) }
  else change b { s with spilled := kind :: s.spilled } (recordKey kind key) .missing value

/-- Replaces a record whose current bytes are `old`. -/
def replace (b : Backing R K) (s : Spill R K) (kind : ℕ) (key : K) (old value : Bytes) :
    ContentResult (Spill R K) :=
  match s.rows.get? (recordKey kind key) with
  | some current =>
    if current ≠ old then .error malformed
    else .ok { s with
      rows := s.rows.insert (recordKey kind key) value
      bytes := s.bytes + value.length - current.length }
  | none => change b s (recordKey kind key) (.exactBytes old) value

end Spill

/-! ## One ordered map -/

variable {m m' : SortedMap (RecordKey K) Bytes} {kind : ℕ} {key : K}

theorem kindKeys_ascending (m : SortedMap (RecordKey K) Bytes) (kind : ℕ) :
    (kindKeys m kind).Pairwise (· < ·) := by
  rw [kindKeys, pairwise_map]
  have hkeys : (m.entries.map Prod.fst).Pairwise (· < ·) := pairwise_map.mpr m.sorted
  refine (pairwise_filter.mpr (hkeys.imp fun hlt ha hb => ?_))
  rcases Prod.Lex.lt_iff.mp hlt with h | h
  · exact absurd ((beq_iff_eq.mp ha).trans (beq_iff_eq.mp hb).symm) h.ne
  · exact h.2

theorem mem_kindKeys :
    key ∈ kindKeys m kind ↔ (m.get? (recordKey kind key)).isSome = true := by
  rw [← SortedMap.mem_keys_iff, kindKeys]
  simp only [mem_map (f := fun k : RecordKey K => (ofLex k).2), mem_filter, beq_iff_eq]
  refine ⟨?_, fun h => ⟨recordKey kind key, ⟨h, rfl⟩, rfl⟩⟩
  rintro ⟨k, ⟨hk, rfl⟩, rfl⟩
  exact hk

theorem kindKeys_congr (h : ∀ key, (m.get? (recordKey kind key)).isSome
    = (m'.get? (recordKey kind key)).isSome) : kindKeys m kind = kindKeys m' kind := by
  refine List.Perm.eq_of_pairwise (fun a b _ _ hab hba => absurd hab hba.asymm)
    (kindKeys_ascending m kind) (kindKeys_ascending m' kind) ?_
  refine (perm_ext_iff_of_nodup ((kindKeys_ascending m kind).imp ne_of_lt)
    ((kindKeys_ascending m' kind).imp ne_of_lt)).mpr fun key => ?_
  rw [mem_kindKeys, mem_kindKeys, h]

/-- **Held and spilled records are one ordered map**, for the kinds that are the merge's own: a row
is in one of the two places, and in the records only once its kind has spilled. -/
structure Refines (view : R → SortedMap (RecordKey K) Bytes) (own : ℕ → Prop) (s : Spill R K)
    (m : SortedMap (RecordKey K) Bytes) : Prop where
  lookup : ∀ {kind key}, own kind → m.get? (recordKey kind key)
    = (s.rows.get? (recordKey kind key)).or ((view s.records).get? (recordKey kind key))
  apart : ∀ {kind key value}, own kind → s.rows.get? (recordKey kind key) = some value →
    (view s.records).get? (recordKey kind key) = none
  spilled : ∀ {kind key value}, own kind → (view s.records).get? (recordKey kind key) = some value →
    kind ∈ s.spilled

variable {b : Backing R K} {view : R → SortedMap (RecordKey K) Bytes} {own : ℕ → Prop}
  {s : Spill R K}

theorem Refines.new {records : R}
    (h : ∀ kind key, own kind → (view records).get? (recordKey kind key) = none) :
    Refines view own (Spill.new records) .empty where
  lookup := fun hown => (h _ _ hown).symm
  apart := fun hown _ => h _ _ hown
  spilled := fun {kind key value} hown hget => by
    have hnone := h kind key hown
    rw [Spill.new, hnone] at hget
    cases hget

omit [LinearOrder K] in
theorem recordKey_inj {kind' : ℕ} {key' : K} :
    recordKey kind key = recordKey kind' key' ↔ kind = kind' ∧ key = key' := by
  rw [recordKey, recordKey, toLex_inj, Prod.mk.injEq]

namespace Refines

theorem records (h : Refines view own s m) {records : R} (hview : view records = view s.records) :
    Refines view own { s with records } m where
  lookup := fun hown => by rw [hview]; exact h.lookup hown
  apart := fun hown hget => by rw [hview]; exact h.apart hown hget
  spilled := fun hown hget => by rw [hview] at hget; exact h.spilled hown hget

theorem lookup_records (h : Refines view own s m) (hown : own kind)
    (hheld : s.rows.get? (recordKey kind key) = none) :
    m.get? (recordKey kind key) = (view s.records).get? (recordKey kind key) := by
  rw [h.lookup hown, hheld, Option.none_or]

theorem read (hb : b.Lawful view) (h : Refines view own s m) (hown : own kind)
    (hheld : s.rows.get? (recordKey kind key) = none) :
    Yields b.Fails (fun r => r.1 = m.get? (recordKey kind key) ∧ Refines view own r.2 m)
      (if kind ∈ s.spilled then do
        let (found, records) ← b.get s.records (recordKey kind key)
        return (found, { s with records })
      else .ok (none, s)) := by
  split_ifs with hspilled
  · rcases hget : b.get s.records (recordKey kind key) with e | ⟨found, records⟩
    · exact .inl ⟨_, _, hget⟩
    · obtain ⟨hfound, hview⟩ := hb.get hget
      exact ⟨hfound.trans (h.lookup_records hown hheld).symm, h.records hview⟩
  · refine ⟨?_, h⟩
    rcases hrow : (view s.records).get? (recordKey kind key) with _ | value
    · rw [h.lookup_records hown hheld, hrow]
    · exact absurd (h.spilled hown hrow) hspilled

/-- **A lookup answers as the map.** -/
theorem get (hb : b.Lawful view) (h : Refines view own s m) (hown : own kind) :
    Yields b.Fails (fun r => r.1 = m.get? (recordKey kind key) ∧ Refines view own r.2 m)
      (s.get b kind key) := by
  rw [Spill.get]
  rcases hheld : s.rows.get? (recordKey kind key) with _ | value
  · exact read hb h hown hheld
  · exact ⟨by rw [h.lookup hown, hheld, Option.some_or], h⟩

theorem hold (h : Refines view own s m) (value : Bytes) {bytes : ℕ}
    (hrecords : (view s.records).get? (recordKey kind key) = none) :
    Refines view own { s with rows := s.rows.insert (recordKey kind key) value, bytes }
      (m.insert (recordKey kind key) value) where
  lookup := fun {kind' key'} hown' => by
    rw [SortedMap.get?_insert, SortedMap.get?_insert]
    split_ifs with heq
    · rfl
    · exact h.lookup hown'
  apart := fun {kind' key' value'} hown' hget => by
    rw [SortedMap.get?_insert] at hget
    split_ifs at hget with heq
    · rwa [heq]
    · exact h.apart hown' hget
  spilled := h.spilled

theorem store (h : Refines view own s m) (value : Bytes)
    {records : R} {kinds : List ℕ} (hkind : kind ∈ kinds) (hkinds : s.spilled ⊆ kinds)
    (hview : view records = (view s.records).insert (recordKey kind key) value)
    (hheld : s.rows.get? (recordKey kind key) = none) :
    Refines view own { s with records, spilled := kinds }
      (m.insert (recordKey kind key) value) where
  lookup := fun {kind' key'} hown' => by
    rw [hview, SortedMap.get?_insert, SortedMap.get?_insert]
    split_ifs with heq
    · rw [heq, hheld, Option.none_or]
    · exact h.lookup hown'
  apart := fun {kind' key' value'} hown' hget => by
    rw [hview, SortedMap.get?_insert]
    split_ifs with heq
    · dsimp only at hget
      rw [heq, hheld] at hget
      cases hget
    · exact h.apart hown' hget
  spilled := fun {kind' key' value'} hown' hget => by
    rw [hview, SortedMap.get?_insert] at hget
    split_ifs at hget with heq
    · rw [(recordKey_inj.mp heq).1]
      exact hkind
    · exact hkinds (h.spilled hown' hget)

/-- **A new record joins the map**, in memory or in the records. -/
theorem insert (hb : b.Lawful view) (h : Refines view own s m) (hown : own kind) (value : Bytes)
    (habsent : m.get? (recordKey kind key) = none) :
    Yields b.Fails (fun s' => Refines view own s' (m.insert (recordKey kind key) value))
      (s.insert b kind key value) := by
  have hboth : m.get? (recordKey kind key) = (s.rows.get? (recordKey kind key)).or
      ((view s.records).get? (recordKey kind key)) := h.lookup hown
  rw [habsent] at hboth
  obtain ⟨hheld, hrecords⟩ := Option.or_eq_none_iff.mp hboth.symm
  rw [Spill.insert, hheld]
  split_ifs with hfits
  · contradiction
  · exact h.hold value hrecords
  · rw [Spill.change]
    rcases happly : b.apply s.records (recordKey kind key) .missing value with
      e | ⟨applied, records⟩
    · exact .inr (.inl ⟨_, _, _, _, happly⟩)
    · obtain ⟨happlied, hview⟩ := hb.apply happly
      rw [Expected.holds, hrecords] at happlied
      subst happlied
      exact h.store value mem_cons_self (subset_cons_self _ _) hview hheld

/-- **A replaced record changes in the map**, wherever it is. -/
theorem replace (hb : b.Lawful view) (h : Refines view own s m) (hown : own kind)
    {old : Bytes} (value : Bytes) (hold : m.get? (recordKey kind key) = some old) :
    Yields b.Fails (fun s' => Refines view own s' (m.insert (recordKey kind key) value))
      (s.replace b kind key old value) := by
  rw [Spill.replace]
  rcases hheld : s.rows.get? (recordKey kind key) with _ | current
  · rw [h.lookup_records hown hheld] at hold
    rw [Spill.change]
    rcases happly : b.apply s.records (recordKey kind key) (.exactBytes old) value with
      e | ⟨applied, records⟩
    · exact .inr (.inl ⟨_, _, _, _, happly⟩)
    · obtain ⟨happlied, hview⟩ := hb.apply happly
      rw [Expected.holds, hold, beq_self_eq_true] at happlied
      subst happlied
      exact h.store value (h.spilled hown hold) (List.Subset.refl _) hview hheld
  · rw [h.lookup hown, hheld, Option.some_or] at hold
    obtain rfl := Option.some.inj hold
    dsimp only
    rw [if_neg (not_not.mpr rfl)]
    exact h.hold value (h.apart hown hheld)

theorem replace_refused (hb : b.Lawful view) (h : Refines view own s m) (hown : own kind)
    {old : Bytes} (value : Bytes) (hold : m.get? (recordKey kind key) ≠ some old) :
    Yields (fun e => b.Fails e ∨ e = malformed) (fun _ => False)
      (s.replace b kind key old value) := by
  rw [Spill.replace]
  rcases hheld : s.rows.get? (recordKey kind key) with _ | current
  · rw [h.lookup_records hown hheld] at hold
    rw [Spill.change]
    rcases happly : b.apply s.records (recordKey kind key) (.exactBytes old) value with
      e | ⟨applied, records⟩
    · exact .inl (.inr (.inl ⟨_, _, _, _, happly⟩))
    · obtain ⟨happlied, -⟩ := hb.apply happly
      rw [Expected.holds, beq_eq_false_iff_ne.mpr hold] at happlied
      subst happlied
      exact .inr rfl
  · rw [h.lookup hown, hheld, Option.some_or] at hold
    dsimp only
    rw [if_pos fun heq => hold (congrArg some heq)]
    exact .inr rfl

/-- **A record read to be released** answers as the map; at most its own row is gone. -/
theorem take (hb : b.Lawful view) (h : Refines view own s m) (hown : own kind) :
    Yields b.Fails (fun r => r.1 = m.get? (recordKey kind key) ∧
        ∃ m', Refines view own r.2 m' ∧
          ∀ k, k ≠ recordKey kind key → m'.get? k = m.get? k)
      (s.take b kind key) := by
  rw [Spill.take]
  rcases hheld : s.rows.get? (recordKey kind key) with _ | value
  · exact (read hb h hown hheld).mono fun r hr => ⟨hr.1, m, hr.2, fun _ _ => rfl⟩
  · refine ⟨by rw [h.lookup hown, hheld, Option.some_or], m.erase (recordKey kind key), ?_,
      fun k hk => by rw [SortedMap.get?_erase, if_neg hk]⟩
    refine ⟨fun {kind' key'} hown' => ?_, fun {kind' key' value'} hown' hget => ?_, h.spilled⟩
    · rw [SortedMap.get?_erase, SortedMap.get?_erase]
      split_ifs with heq
      · rw [heq, h.apart hown hheld, Option.or_none]
      · exact h.lookup hown'
    · rw [SortedMap.get?_erase] at hget
      split_ifs at hget with heq
      exact h.apart hown' hget

theorem of_rows (h : Refines view own s m) {s' : Spill R K}
    (hrows : ∀ kind key, own kind → s'.rows.get? (recordKey kind key)
      = s.rows.get? (recordKey kind key))
    (hrecords : ∀ kind key, own kind → (view s'.records).get? (recordKey kind key)
      = (view s.records).get? (recordKey kind key))
    (hspilled : s.spilled ⊆ s'.spilled) : Refines view own s' m where
  lookup := fun hown => by rw [hrows _ _ hown, hrecords _ _ hown]; exact h.lookup hown
  apart := fun hown hget => by
    rw [hrows _ _ hown] at hget
    rw [hrecords _ _ hown]
    exact h.apart hown hget
  spilled := fun hown hget => by
    rw [hrecords _ _ hown] at hget
    exact hspilled (h.spilled hown hget)

theorem get_other (hb : b.Lawful view) (h : Refines view own s m) (kind : ℕ) (key : K) :
    Yields b.Fails (fun r => Refines view own r.2 m) (s.get b kind key) := by
  rw [Spill.get]
  rcases s.rows.get? (recordKey kind key) with _ | value
  · dsimp only
    split_ifs
    · rcases hget : b.get s.records (recordKey kind key) with e | ⟨found, records⟩
      · exact .inl ⟨_, _, hget⟩
      · exact h.records (hb.get hget).2
    · exact h
  · exact h

theorem insert_other (hb : b.Lawful view) (h : Refines view own s m) (hown : ¬own kind)
    (key : K) (value : Bytes) :
    Yields (fun e => b.Fails e ∨ e = malformed) (fun s' => Refines view own s' m)
      (s.insert b kind key value) := by
  have hother : ∀ (rows : SortedMap (RecordKey K) Bytes) kind' key', own kind' →
      (rows.insert (recordKey kind key) value).get? (recordKey kind' key')
        = rows.get? (recordKey kind' key') := by
    intro rows kind' key' hown'
    rw [SortedMap.get?_insert, if_neg]
    intro heq
    exact hown ((recordKey_inj.mp heq).1 ▸ hown')
  rw [Spill.insert]
  split_ifs
  · exact .inr rfl
  · exact h.of_rows (hother s.rows) (fun _ _ _ => rfl) (List.Subset.refl _)
  · rw [Spill.change]
    rcases happly : b.apply s.records (recordKey kind key) .missing value with
      e | ⟨applied, records⟩
    · exact .inl (.inr (.inl ⟨_, _, _, _, happly⟩))
    · obtain ⟨-, hview⟩ := hb.apply happly
      cases applied with
      | false => exact .inr rfl
      | true =>
        refine h.of_rows (fun _ _ _ => rfl) (fun kind' key' hown' => ?_)
          (subset_cons_self _ _)
        dsimp only
        rw [hview, if_pos rfl, hother _ _ _ hown']

end Refines

/-! ## Windows -/

variable [OrderBot K]

/-- The held keys of one kind behind a cursor, at most a window of them. -/
def Spill.heldAfter (s : Spill R K) (kind : ℕ) (after : Option K) : List K :=
  (((((s.rows.entries.map Prod.fst).dropWhile
    fun k => decide (k < recordKey kind (after.getD ⊥))).takeWhile
      fun k => (ofLex k).1 == kind).filter
        fun k => some (ofLex k).2 != after).take windowKeys).map fun k => (ofLex k).2

/-- The window of the records, which hold keys of a spilled kind alone. -/
def Spill.spilledAfter (b : Backing R K) (s : Spill R K) (kind : ℕ) (after : Option K) :
    ContentResult (List K × R) :=
  if kind ∈ s.spilled then b.keysAfter s.records kind after else pure ([], s.records)

/-- At most 64 keys of one kind after `after`, held and spilled together. -/
def Spill.keysAfter (b : Backing R K) (s : Spill R K) (kind : ℕ) (after : Option K) :
    ContentResult (List K × Spill R K) := do
  let (spilled, records) ← s.spilledAfter b kind after
  -- a full spilled window ends before keys it did not return
  let held := (s.heldAfter kind after).filter
    fun k => (fullBound windowKeys spilled).all fun bound => decide (k ≤ bound)
  return ((sortDedup (held ++ spilled)).take windowKeys, { s with records })

theorem dropWhile_lt {α : Type} [LinearOrder α] {l : List α} (h : l.Pairwise (· < ·)) (start : α) :
    l.dropWhile (fun k => decide (k < start)) = l.filter fun k => decide (start ≤ k) := by
  induction l with
  | nil => rfl
  | cons a l ih =>
    rw [pairwise_cons] at h
    rw [dropWhile_cons, filter_cons]
    by_cases ha : a < start
    · simp [ha, not_le_of_gt ha, ih h.2]
    · have hle := not_lt.mp ha
      have hall : l.filter (fun k => decide (start ≤ k)) = l :=
        filter_eq_self.mpr fun k hk => decide_eq_true (hle.trans (h.1 k hk).le)
      simp [ha, hle, hall]

theorem takeWhile_eq_filter {α : Type} {p : α → Bool} {l : List α}
    (h : l.Pairwise fun a b => p b = true → p a = true) : l.takeWhile p = l.filter p := by
  induction l with
  | nil => rfl
  | cons a l ih =>
    rw [pairwise_cons] at h
    rw [takeWhile_cons, filter_cons]
    by_cases ha : p a = true
    · rw [if_pos ha, if_pos ha, ih h.2]
    · rw [if_neg ha, if_neg ha]
      exact (filter_eq_nil_iff.mpr fun k hk hp => ha (h.1 k hk hp)).symm

/-- **The held window** is the first keys of the kind behind the cursor. -/
theorem heldAfter_eq (s : Spill R K) (kind : ℕ) (after : Option K) :
    s.heldAfter kind after = (rest (kindKeys s.rows kind) after).take windowKeys := by
  have hkeys : (s.rows.entries.map Prod.fst).Pairwise (· < ·) := pairwise_map.mpr s.rows.sorted
  rw [Spill.heldAfter, dropWhile_lt hkeys, kindKeys]
  generalize s.rows.entries.map Prod.fst = keys at hkeys
  have hfirst : (keys.filter fun k => decide (recordKey kind (after.getD ⊥) ≤ k)).Pairwise
      fun a b => ((ofLex b).1 == kind) = true → ((ofLex a).1 == kind) = true := by
    have hsorted := hkeys.sublist
      (filter_sublist (p := fun k => decide (recordKey kind (after.getD ⊥) ≤ k)))
    refine hsorted.imp_of_mem fun {x y} hx _ hlt heq => ?_
    -- a key between the start and a key of the kind is of the kind
    have hstart := of_decide_eq_true (mem_filter.mp hx).2
    rw [beq_iff_eq] at heq ⊢
    have hge : kind ≤ (ofLex x).1 := Prod.Lex.monotone_fst_ofLex hstart
    have hle : (ofLex x).1 ≤ (ofLex y).1 := Prod.Lex.monotone_fst_ofLex hlt.le
    omega
  rw [takeWhile_eq_filter hfirst, rest, filter_map, map_take, filter_filter,
    filter_filter, filter_filter]
  refine congrArg (List.take windowKeys) (congrArg (List.map _) (filter_congr fun k _ => ?_))
  rw [Function.comp_apply, Bool.eq_iff_iff]
  simp only [Bool.and_eq_true, beq_iff_eq, bne_iff_ne, decide_eq_true_eq, and_assoc]
  rcases after with _ | after
  · refine ⟨fun h => ⟨rfl, h.2.1⟩, fun h => ⟨by simp, h.2, ?_⟩⟩
    exact Prod.Lex.le_iff.mpr (.inr ⟨h.2.symm, bot_le⟩)
  · rw [Windows.behind, decide_eq_true_eq]
    constructor
    · rintro ⟨hne, hkind, hstart⟩
      refine ⟨?_, hkind⟩
      rcases Prod.Lex.le_iff.mp hstart with h | h
      · exact absurd hkind h.ne'
      · exact lt_of_le_of_ne h.2 fun heq => hne (congrArg some heq.symm)
    · rintro ⟨hlt, hkind⟩
      exact ⟨fun heq => hlt.ne (Option.some.inj heq).symm, hkind,
        Prod.Lex.le_iff.mpr (.inr ⟨hkind.symm, hlt.le⟩)⟩

/-- **A window answers as the map**: the at most 64 smallest keys of the kind behind the cursor,
wherever they are. -/
theorem Refines.keysAfter (hb : b.Lawful view) (h : Refines view own s m) (hown : own kind)
    (after : Option K) :
    Yields b.Fails (fun r => r.1 = (rest (kindKeys m kind) after).take windowKeys ∧
        Refines view own r.2 m)
      (s.keysAfter b kind after) := by
  have hread : Yields b.Fails
      (fun r => r.1 = (rest (kindKeys (view s.records) kind) after).take windowKeys ∧
        view r.2 = view s.records)
      (s.spilledAfter b kind after) := by
    rw [Spill.spilledAfter]
    split_ifs with hspilled
    · rcases hkeys : b.keysAfter s.records kind after with e | ⟨keys, records⟩
      · exact .inr (.inr ⟨_, _, _, hkeys⟩)
      · exact hb.keysAfter hkeys
    · refine ⟨?_, rfl⟩
      have hnone : kindKeys (view s.records) kind = [] := by
        refine eq_nil_iff_forall_not_mem.mpr fun key hkey => ?_
        obtain ⟨value, hvalue⟩ := Option.isSome_iff_exists.mp (mem_kindKeys.mp hkey)
        exact hspilled (h.spilled hown hvalue)
      rw [hnone]
      rfl
  rw [Spill.keysAfter]
  refine hread.bind fun r hr => ?_
  obtain ⟨spilled, records⟩ := r
  obtain ⟨rfl, hview⟩ := hr
  refine ⟨?_, h.records hview⟩
  have hascending : ∀ m : SortedMap (RecordKey K) Bytes,
      (rest (kindKeys m kind) after).Pairwise (· < ·) :=
    fun m => (kindKeys_ascending m kind).sublist filter_sublist
  dsimp only
  rw [heldAfter_eq]
  refine window_of_parts (hascending m) (hascending s.rows) (hascending _) (fun key => ?_)
    windowKeys
  simp only [rest, mem_filter, mem_kindKeys, h.lookup hown, Option.isSome_or, Bool.or_eq_true]
  exact or_and_right

/-! ## Runs of operations -/

/-- One operation on the maps. -/
inductive SpillOp (K : Type) where
  | get (kind : ℕ) (key : K)
  | insert (kind : ℕ) (key : K) (value : Bytes)
  | replace (kind : ℕ) (key : K) (old value : Bytes)
  | keysAfter (kind : ℕ) (after : Option K)

def SpillOp.recordKind : SpillOp K → ℕ
  | .get kind _ => kind
  | .insert kind _ _ => kind
  | .replace kind _ _ _ => kind
  | .keysAfter kind _ => kind

/-- What an operation answers. -/
inductive Answer (K : Type) where
  | found (value : Option Bytes)
  | done
  | keys (keys : List K)

def Spill.step (b : Backing R K) (s : Spill R K) :
    SpillOp K → ContentResult (Answer K × Spill R K)
  | .get kind key => do
    let (found, s) ← s.get b kind key
    return (.found found, s)
  | .insert kind key value => do
    let s ← s.insert b kind key value
    return (.done, s)
  | .replace kind key old value => do
    let s ← s.replace b kind key old value
    return (.done, s)
  | .keysAfter kind after => do
    let (keys, s) ← s.keysAfter b kind after
    return (.keys keys, s)

def Spill.run (b : Backing R K) : Spill R K → List (SpillOp K) →
    ContentResult (List (Answer K) × Spill R K)
  | s, [] => .ok ([], s)
  | s, op :: ops => do
    let (answer, s) ← s.step b op
    let (answers, s) ← Spill.run b s ops
    return (answer :: answers, s)

/-- One operation on one ordered map; a replacement of other bytes is refused. -/
def mapStep (m : SortedMap (RecordKey K) Bytes) :
    SpillOp K → Option (Answer K × SortedMap (RecordKey K) Bytes)
  | .get kind key => some (.found (m.get? (recordKey kind key)), m)
  | .insert kind key value => some (.done, m.insert (recordKey kind key) value)
  | .replace kind key old value =>
    if m.get? (recordKey kind key) = some old then
      some (.done, m.insert (recordKey kind key) value)
    else none
  | .keysAfter kind after => some (.keys ((rest (kindKeys m kind) after).take windowKeys), m)

def mapRun : SortedMap (RecordKey K) Bytes → List (SpillOp K) →
    Option (List (Answer K) × SortedMap (RecordKey K) Bytes)
  | m, [] => some ([], m)
  | m, op :: ops => do
    let (answer, m) ← mapStep m op
    let (answers, m) ← mapRun m ops
    return (answer :: answers, m)

def InsertsAbsent (m : SortedMap (RecordKey K) Bytes) (ops : List (SpillOp K)) : Prop :=
  ∀ earlier kind key value later answers m', ops = earlier ++ .insert kind key value :: later →
    mapRun m earlier = some (answers, m') → m'.get? (recordKey kind key) = none

/-- **One operation answers as on the map.** -/
theorem Refines.step (hb : b.Lawful view) (h : Refines view own s m) {op : SpillOp K}
    (hown : own op.recordKind)
    (habsent : ∀ kind key value, op = .insert kind key value →
      m.get? (recordKey kind key) = none) :
    Yields (fun e => b.Fails e ∨ e = malformed ∧ mapStep m op = none)
      (fun r => ∃ m', mapStep m op = some (r.1, m') ∧ Refines view own r.2 m')
      (s.step b op) := by
  cases op with
  | get kind key =>
    refine ((h.get hb hown).weaken fun e => Or.inl).bind fun r hr => ?_
    exact ⟨m, by rw [hr.1]; rfl, hr.2⟩
  | insert kind key value =>
    refine ((h.insert hb hown value (habsent kind key value rfl)).weaken fun e => Or.inl).bind
      fun s' hs' => ?_
    exact ⟨_, rfl, hs'⟩
  | replace kind key old value =>
    by_cases hold : m.get? (recordKey kind key) = some old
    · refine ((h.replace hb hown value hold).weaken fun e => Or.inl).bind fun s' hs' => ?_
      exact ⟨_, if_pos hold, hs'⟩
    · refine ((h.replace_refused hb hown value hold).weaken fun e he => ?_).bind
        fun s' hs' => hs'.elim
      exact he.imp_right fun he => ⟨he, if_neg hold⟩
  | keysAfter kind after =>
    refine ((h.keysAfter hb hown after).weaken fun e => Or.inl).bind fun r hr => ?_
    exact ⟨m, by rw [hr.1]; rfl, hr.2⟩

/-- **Every run answers as the map**, wherever its records spill: an error is one of the records, or
the refusal of a replacement that the map refuses too. -/
theorem Refines.run (hb : b.Lawful view) {ops : List (SpillOp K)} :
    ∀ {s : Spill R K} {m : SortedMap (RecordKey K) Bytes}, Refines view own s m →
      (∀ op ∈ ops, own op.recordKind) → InsertsAbsent m ops →
      Yields (fun e => b.Fails e ∨ e = malformed ∧ mapRun m ops = none)
        (fun r => ∃ m', mapRun m ops = some (r.1, m') ∧ Refines view own r.2 m')
        (s.run b ops) := by
  induction ops with
  | nil => exact fun h _ _ => ⟨_, rfl, h⟩
  | cons op ops ih =>
    intro s m h hown habsent
    rw [forall_mem_cons] at hown
    have hstep := h.step hb hown.1 fun kind key value heq =>
      habsent [] kind key value ops [] m (by rw [heq]; rfl) rfl
    have hrefused : ∀ e, b.Fails e ∨ e = malformed ∧ mapStep m op = none →
        b.Fails e ∨ e = malformed ∧ mapRun m (op :: ops) = none := by
      refine fun e he => he.imp_right fun he => ⟨he.1, ?_⟩
      rw [mapRun, he.2]
      rfl
    rw [Spill.run]
    refine (hstep.weaken hrefused).bind fun r hr => ?_
    obtain ⟨m', hm', hr'⟩ := hr
    have hlater : InsertsAbsent m' ops := by
      intro earlier kind key value later answers m'' heq hrun
      refine habsent (op :: earlier) kind key value later (r.1 :: answers) m'' (by rw [heq]; rfl) ?_
      rw [mapRun, hm']
      simp [hrun]
    have hrefusedLater : ∀ e, b.Fails e ∨ e = malformed ∧ mapRun m' ops = none →
        b.Fails e ∨ e = malformed ∧ mapRun m (op :: ops) = none := by
      refine fun e he => he.imp_right fun he => ⟨he.1, ?_⟩
      rw [mapRun, hm']
      simp [he.2]
    refine ((ih hr' hown.2 hlater).weaken hrefusedLater).bind fun r' hr'' => ?_
    obtain ⟨m'', hm'', hs''⟩ := hr''
    refine ⟨m'', ?_, hs''⟩
    rw [mapRun, hm']
    simp [hm'']

/-! ## Every key once -/

/-- `each_key`: every key of one record kind, a window at a time, with other operations behind each
window. One turn is one window; the keys, and whether an empty window ended them. -/
def Spill.eachKey (b : Backing R K) (kind : ℕ) : List (List (SpillOp K)) → Option K → Spill R K →
    ContentResult ((List K × Bool) × Spill R K)
  | [], _, s => .ok (([], false), s)
  | ops :: turns, after, s => do
    let (keys, s) ← s.keysAfter b kind after
    match keys.getLast? with
    | none => return (([], true), s)
    | some last => do
      let (_, s) ← s.run b ops
      let ((later, ended), s) ← Spill.eachKey b kind turns (some last) s
      return ((keys ++ later, ended), s)

def SpillOp.NoInsert (kind : ℕ) (op : SpillOp K) : Prop :=
  ∀ key value, op ≠ .insert kind key value

omit [OrderBot K] in
theorem mapStep_kindKeys {op : SpillOp K} {answer : Answer K} (hop : op.NoInsert kind)
    (h : mapStep m op = some (answer, m')) : kindKeys m' kind = kindKeys m kind := by
  refine kindKeys_congr fun key => ?_
  cases op with
  | get _ _ =>
    cases h
    rfl
  | insert kind' key' value =>
    cases h
    rw [SortedMap.get?_insert, if_neg]
    rintro heq
    obtain ⟨rfl, -⟩ := recordKey_inj.mp heq
    exact hop key' value rfl
  | replace kind' key' old value =>
    rw [mapStep] at h
    split_ifs at h with hold
    cases h
    rw [SortedMap.get?_insert]
    split_ifs with heq
    · rw [heq, hold]
      rfl
    · rfl
  | keysAfter _ _ =>
    cases h
    rfl

omit [OrderBot K] in
theorem mapRun_kindKeys {ops : List (SpillOp K)} : ∀ {m m' : SortedMap (RecordKey K) Bytes}
    {answers : List (Answer K)}, (∀ op ∈ ops, op.NoInsert kind) →
      mapRun m ops = some (answers, m') → kindKeys m' kind = kindKeys m kind := by
  induction ops with
  | nil =>
    intro m m' answers _ h
    cases h
    rfl
  | cons op ops ih =>
    intro m m' answers hops h
    rw [forall_mem_cons] at hops
    rw [mapRun, Option.bind_eq_bind, Option.bind_eq_some_iff] at h
    obtain ⟨⟨answer, m₁⟩, hstep, h⟩ := h
    obtain ⟨⟨rest, m₂⟩, hrun, h⟩ := Option.bind_eq_some_iff.mp h
    cases h
    rw [ih hops.2 hrun, mapStep_kindKeys hops.1 hstep]

def Accepted (own : ℕ → Prop) (m : SortedMap (RecordKey K) Bytes) (ops : List (SpillOp K)) :
    Prop :=
  (∀ op ∈ ops, own op.recordKind) ∧ InsertsAbsent m ops ∧ (mapRun m ops).isSome

/-- The operations between the windows are accepted and insert no key of the kind. -/
def Between (own : ℕ → Prop) (kind : ℕ) : List (List (SpillOp K)) →
    SortedMap (RecordKey K) Bytes → Prop
  | [], _ => True
  | ops :: turns, m => Accepted own m ops ∧ (∀ op ∈ ops, op.NoInsert kind) ∧
    ∀ answers m', mapRun m ops = some (answers, m') → Between own kind turns m'

/-- **Windows list every key once, in order**: whatever is done between them to other kinds, or to
the values of this one; and more turns than keys are enough. -/
theorem Refines.eachKey (hb : b.Lawful view) (hown : own kind) {turns : List (List (SpillOp K))} :
    ∀ {s : Spill R K} {m : SortedMap (RecordKey K) Bytes} (after : Option K),
      Refines view own s m → Between own kind turns m →
      Yields b.Fails
        (fun r => r.1.1 <+: rest (kindKeys m kind) after ∧
          ((rest (kindKeys m kind) after).length < turns.length → r.1.2 = true) ∧
          (r.1.2 = true → r.1.1 = rest (kindKeys m kind) after))
        (Spill.eachKey b kind turns after s) := by
  induction turns with
  | nil => exact fun after _ _ => ⟨ nil_prefix, fun h => absurd h (Nat.not_lt_zero _),
      fun h => absurd h Bool.false_ne_true⟩
  | cons ops turns ih =>
    intro s m after h hbetween
    obtain ⟨⟨hops, habsent, hsome⟩, hnoInsert, hlater⟩ := hbetween
    rw [Spill.eachKey]
    refine (h.keysAfter hb hown after).bind fun r hr => ?_
    obtain ⟨keys, s₁⟩ := r
    obtain ⟨rfl, h₁⟩ := hr
    dsimp only
    rcases hlast : ((rest (kindKeys m kind) after).take windowKeys).getLast? with _ | last
    · have hnil : rest (kindKeys m kind) after = [] := by
        rw [getLast?_eq_none_iff, take_eq_nil_iff] at hlast
        exact hlast.resolve_left (by decide)
      exact ⟨ nil_prefix, fun _ => rfl, fun _ => hnil.symm⟩
    · have hsplit := rest_of_window (kindKeys_ascending m kind) hlast
      have hpos : 0 < ((rest (kindKeys m kind) after).take windowKeys).length :=
        length_pos_of_mem (mem_of_getLast? hlast)
      refine ((h₁.run hb hops habsent).weaken fun e he => ?_).bind fun r hr => ?_
      · rcases he with he | ⟨-, hnone⟩
        · exact he
        · rw [hnone] at hsome
          cases hsome
      · obtain ⟨m₂, hrun, h₂⟩ := hr
        have hkeys := mapRun_kindKeys hnoInsert hrun
        refine (ih (some last) h₂ (hlater _ _ hrun)).bind fun r' hr' => ?_
        rw [hkeys] at hr'
        obtain ⟨hfront, hturns, hall⟩ := hr'
        have hlength := congrArg List.length hsplit
        rw [length_append] at hlength
        refine ⟨?_, fun hlong => hturns ?_, fun hended => ?_⟩
        · have hjoined := (prefix_append_right_inj
            ((rest (kindKeys m kind) after).take windowKeys)).mpr hfront
          rwa [hsplit] at hjoined
        · rw [length_cons] at hlong
          omega
        · exact (congrArg (_ ++ ·) (hall hended)).trans hsplit

end LayerFs.Merge
