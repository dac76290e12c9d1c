import LayerFs.Content.Basic
import LayerFs.Support.SortedMap

/-!
# One meaning for reference rows (`references/meaning.rs`, `references/record.rs`)

Reduction keeps one row per touched inode: a new inode counts its retained bindings, an existing
inode carries the signed effect of the operation on its stored count. Every reducer, whatever it
keeps its rows in, changes a row through the functions below.

* `Row.retained`, `Row.removed`, `Row.noteValue` — the three effects on one row.
-/

namespace LayerFs

variable {Id : Type}
variable {v : InodeValue Id} {serial x : ℕ} {d : ℤ}

/-- One pending inode state. The serial it addresses is the key it is held under. -/
inductive Row (Id : Type) where
  /-- a newly allocated inode: its typed value and its retained bindings -/
  | count (value : Option (InodeValue Id)) (count : ℕ)
  /-- an existing inode: any supplied typed value and its signed effect total -/
  | effect (value : Option (InodeValue Id)) (delta : ℤ)
  deriving DecidableEq, Repr

/-- A checked `i64`. -/
def checkedDelta (delta : ℤ) : ContentResult ℤ :=
  if -2 ^ 63 ≤ delta ∧ delta < 2 ^ 63 then .ok delta else .error .lengthOverflow

def derivedCount (base : ℕ) (delta : ℤ) : ContentResult ℕ :=
  if max ((base : ℤ) + delta) 0 < u64Bound then .ok (max ((base : ℤ) + delta) 0).toNat
  else .error .lengthOverflow

namespace Row

variable {row row' : Row Id}

def retained : Row Id → ContentResult (Row Id)
  | count value n => do
    let n ← checkedAdd n 1
    .ok (.count value n)
  | effect value delta => do
    let delta ← checkedDelta (delta + 1)
    .ok (.effect value delta)

/-- One binding of the inode is gone. A new inode had none to lose. -/
def removed : Row Id → ContentResult (Row Id)
  | count _ _ => .error (.invalidRecord "new inode loses a binding")
  | effect value delta => do
    let delta ← checkedDelta (delta - 1)
    .ok (.effect value delta)

def noteValue (value : InodeValue Id) : Row Id → Row Id
  | count _ n => .count (some value) n
  | effect _ delta => .effect (some value) delta

def value : Row Id → Option (InodeValue Id)
  | count value _ => value
  | effect value _ => value

/-- Completes an effect row with its base record. Only the base is trusted for the count. -/
def withBase (base : Option (InodeValue Id)) : Row Id → ContentResult (Row Id)
  | count value n => .ok (.count value n)
  | effect value delta => do
    let base ← orError base (.invalidRecord "effect inode record")
    .ok (.effect (some { value.getD base with namespaceRefCount := base.namespaceRefCount }) delta)

/-- The final typed value of one inode under a completed row; `none` when it leaves the table. -/
def finalValue (serial root : ℕ) : Row Id → ContentResult (Option (InodeValue Id))
  | count value n => do
    ensure (n != 0 || serial == root) (.invalidRecord "new inode without binding")
    let value ← orError value (.invalidRecord "new inode value")
    .ok (some { value with namespaceRefCount := n })
  | effect value delta => do
    let base ← orError value (.invalidRecord "effect inode record")
    let n ← derivedCount base.namespaceRefCount delta
    if n = 0 ∧ serial ≠ root then .ok none
    else .ok (some { base with namespaceRefCount := n })

/-- One final change. A directory or a symlink has exactly one binding, so a second parent is
refused where the value is produced. -/
def finish (serial root : ℕ) (row : Row Id) : ContentResult (ℕ × Option (InodeValue Id)) := do
  let value ← row.finalValue serial root
  ensure (!value.any fun value => value.kind != .regularFile && 1 < value.namespaceRefCount)
    (.invalidRecord "multiple parents")
  .ok (serial, value)

/-! ## Tallies -/

def tally (stored : ℕ) : Row Id → ℤ
  | count _ n => n
  | effect _ delta => stored + delta

def isCount : Row Id → Bool
  | count _ _ => true
  | effect _ _ => false

theorem checkedDelta_eq_ok {e : ℤ} (h : checkedDelta d = .ok e) : e = d := by
  rw [checkedDelta] at h
  split_ifs at h
  cases h
  rfl

theorem retained_eq_ok (h : row.retained = .ok row') (stored : ℕ) :
    row'.tally stored = row.tally stored + 1 ∧ row'.value = row.value ∧
      row'.isCount = row.isCount := by
  cases row with
  | count value n =>
    rw [retained, bind_eq_ok] at h
    obtain ⟨m, hm, h⟩ := h
    obtain ⟨-, rfl⟩ := checkedAdd_eq_ok.mp hm
    cases h
    simp [tally, Row.value, isCount]
  | effect value delta =>
    rw [retained, bind_eq_ok] at h
    obtain ⟨e, he, h⟩ := h
    cases h
    simp only [tally, Row.value, isCount, checkedDelta_eq_ok he, and_self, and_true]
    omega

theorem removed_eq_ok (h : row.removed = .ok row') (stored : ℕ) :
    row'.tally stored = row.tally stored - 1 ∧ row'.value = row.value ∧
      row.isCount = false ∧ row'.isCount = false := by
  cases row with
  | count value n => cases h
  | effect value delta =>
    rw [removed, bind_eq_ok] at h
    obtain ⟨e, he, h⟩ := h
    cases h
    simp only [tally, Row.value, isCount, checkedDelta_eq_ok he, and_self, and_true]
    omega

@[simp] theorem tally_noteValue {stored : ℕ} :
    (row.noteValue v).tally stored = row.tally stored := by
  cases row <;> rfl

@[simp] theorem value_noteValue : (row.noteValue v).value = some v := by
  cases row <;> rfl

@[simp] theorem isCount_noteValue : (row.noteValue v).isCount = row.isCount := by
  cases row <;> rfl

end Row

/-! ## Ledgers -/

def freshRow (isNew : Bool) : Row Id := if isNew then .count none 0 else .effect none 0

/-- The rows of a reducer, as a function of the serial. -/
structure Ledger (Id : Type) where
  declared : ℕ → Bool
  /-- the newest row of a touched serial -/
  row? : ℕ → Option (Row Id)

namespace Ledger

variable (ledger : Ledger Id)
variable {row : Row Id}

def empty : Ledger Id := ⟨fun _ => false, fun _ => none⟩

def newest (serial : ℕ) : Row Id := (ledger.row? serial).getD (freshRow (ledger.declared serial))

def set (serial : ℕ) (row : Row Id) : Ledger Id :=
  { ledger with row? := Function.update ledger.row? serial (some row) }

def declare (serial : ℕ) : Ledger Id :=
  { ledger with declared := Function.update ledger.declared serial true }

@[simp] theorem row?_set :
    (ledger.set serial row).row? x = if x = serial then some row else ledger.row? x := by
  simp [set, Function.update_apply]

@[simp] theorem declared_set :
    (ledger.set serial row).declared = ledger.declared := rfl

theorem newest_set :
    (ledger.set serial row).newest x = if x = serial then row else ledger.newest x := by
  rw [newest, row?_set, declared_set]
  split_ifs <;> rfl

def tally (stored : ℕ → ℕ) (serial : ℕ) : ℤ := (ledger.newest serial).tally (stored serial)

def Typed : Prop := ∀ serial, (ledger.newest serial).isCount = ledger.declared serial

end Ledger

/-! ## Sequences of effects -/

/-- Effects on bindings lead from one ledger to the next: tallies move, and nothing is
revalued. -/
structure Moves (stored : ℕ → ℕ) (before after : Ledger Id) (change : ℕ → ℤ) : Prop where
  declared : after.declared = before.declared
  tally : ∀ s, after.tally stored s = before.tally stored s + change s
  value : ∀ s, (after.newest s).value = (before.newest s).value
  isCount : ∀ s, (after.newest s).isCount = (before.newest s).isCount

namespace Moves

variable {stored : ℕ → ℕ} {a b c : Ledger Id} {f g : ℕ → ℤ}
variable {row : Row Id}

theorem refl : Moves stored a a 0 :=
  ⟨rfl, fun s => by simp, fun _ => rfl, fun _ => rfl⟩

theorem trans (hf : Moves stored a b f) (hg : Moves stored b c g) :
    Moves stored a c (f + g) where
  declared := hg.declared.trans hf.declared
  tally s := by
    rw [hg.tally, hf.tally, Pi.add_apply]
    omega
  value s := (hg.value s).trans (hf.value s)
  isCount s := (hg.isCount s).trans (hf.isCount s)

theorem congr (hf : Moves stored a b f) (h : ∀ s, f s = g s) : Moves stored a b g :=
  (funext h : f = g) ▸ hf

theorem single (hb : b = a.set x row)
    (htally : row.tally (stored x) = (a.newest x).tally (stored x) + d)
    (hvalue : row.value = (a.newest x).value) (hcount : row.isCount = (a.newest x).isCount) :
    Moves stored a b (Pi.single x d) := by
  subst hb
  refine ⟨rfl, fun s => ?_, fun s => ?_, fun s => ?_⟩
  · rw [Ledger.tally, Ledger.tally, Ledger.newest_set]
    by_cases hs : s = x
    · subst hs
      simp [htally]
    · simp [hs]
  · rw [Ledger.newest_set]
    split_ifs with hs
    · rw [hs, hvalue]
    · rfl
  · rw [Ledger.newest_set]
    split_ifs with hs
    · rw [hs, hcount]
    · rfl

theorem retained (hrow : (a.newest x).retained = .ok row) (hb : b = a.set x row) :
    Moves stored a b (Pi.single x 1) :=
  have h := Row.retained_eq_ok hrow (stored x)
  single hb h.1 h.2.1 h.2.2

theorem removed (hrow : (a.newest x).removed = .ok row) (hb : b = a.set x row) :
    Moves stored a b (Pi.single x (-1)) :=
  have h := Row.removed_eq_ok hrow (stored x)
  single hb (by rw [h.1]; omega) h.2.1 (h.2.2.2.trans h.2.2.1.symm)

end Moves

/-! ## Sequences of values -/

/-- Noted values lead from one ledger to the next: no tally moves. -/
structure Valued (stored : ℕ → ℕ) (before after : Ledger Id)
    (value : ℕ → Option (InodeValue Id)) : Prop where
  declared : after.declared = before.declared
  tally : ∀ s, after.tally stored s = before.tally stored s
  isCount : ∀ s, (after.newest s).isCount = (before.newest s).isCount
  value : ∀ s, (after.newest s).value = value s

namespace Valued

variable {stored : ℕ → ℕ} {a b : Ledger Id} {f g : ℕ → Option (InodeValue Id)}

theorem refl : Valued stored a a fun s => (a.newest s).value :=
  ⟨rfl, fun _ => rfl, fun _ => rfl, fun _ => rfl⟩

theorem congr (hf : Valued stored a b f) (h : ∀ s, f s = g s) : Valued stored a b g :=
  (funext h : f = g) ▸ hf

theorem note (hf : Valued stored a b f) (x : ℕ) (v : InodeValue Id) :
    Valued stored a (b.set x ((b.newest x).noteValue v)) (Function.update f x (some v)) where
  declared := hf.declared
  tally s := by
    rw [← hf.tally, Ledger.tally, Ledger.tally, Ledger.newest_set]
    split_ifs with hs
    · rw [hs, Row.tally_noteValue]
    · rfl
  isCount s := by
    rw [← hf.isCount, Ledger.newest_set]
    split_ifs with hs
    · rw [hs, Row.isCount_noteValue]
    · rfl
  value s := by
    rw [Ledger.newest_set, Function.update_apply]
    split_ifs with hs
    · rw [Row.value_noteValue]
    · exact hf.value s

end Valued

namespace Ledger

variable {ledger : Ledger Id} {s : ℕ}

theorem row?_isSome_of_value (h : (ledger.newest s).value.isSome) : (ledger.row? s).isSome := by
  rw [newest] at h
  rcases hrow : ledger.row? s with _ | row
  · rw [hrow, Option.getD_none, freshRow] at h
    split_ifs at h <;> simp [Row.value] at h
  · rfl

end Ledger

end LayerFs
