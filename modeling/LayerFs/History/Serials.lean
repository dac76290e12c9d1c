import LayerFs.History.Catalog

/-!
# Inode serials

A scope's serials are consumed behind a high-water mark, one transaction for a range
(`layerfs-persistence/src/history/allocation.rs`). A Store keeps the rest of a larger reservation as
a pool for file calls that want a few (`layerfs-store-service/src/store/{ports,open}.rs`). A call
finds its pool short under the pool's lock, reserves a block without it, and then replaces the pool:
other calls take their steps in between.

* `Keeps` — **who holds which serials**: the free ones, the callers', the pools' and those of a call
  on its way are apart.
* `serials_exact` — **no serial is handed out twice**, and no addition overflows, in every run.
-/

namespace LayerFs.History

open List

variable {ι : Type} {serial : ℕ}

/-! ## Numbers -/

/-- `i64::MAX`. -/
def serialLimit : ℕ := 2 ^ 63 - 1

/-- What a call fails with: an error of the catalog, a refusal of its port, or an arithmetic fault of
the program itself. -/
inductive Fault (κ : Type) where
  | history (error : HistoryError κ)
  | refused
  | overflow
  deriving DecidableEq

variable {σ κ τ : Type}

/-- `u64::checked_add`. -/
def checkedAdd (a b : ℕ) : Option ℕ := if a + b < 2 ^ 64 then some (a + b) else none

def plainAdd (a b : ℕ) : Except (Fault κ) ℕ :=
  if a + b < 2 ^ 64 then .ok (a + b) else .error .overflow

def plainSub (a b : ℕ) : Except (Fault κ) ℕ := if b ≤ a then .ok (a - b) else .error .overflow

/-! ## The catalog -/

/-- A row of `scope_allocator`. -/
structure ScopeRow (κ : Type) where
  highwater : ℕ
  authority : κ

/-- The rows of `scope_allocator`. -/
abbrev Allocator (σ κ : Type) := σ → Option (ScopeRow κ)

/-- One consumed half-open inode reservation. -/
structure Reservation (σ : Type) where
  scope : σ
  start : ℕ
  count : ℕ

/-- `Reservation::end`. -/
def Reservation.endSerial (range : Reservation σ) : HistoryResult κ ℕ :=
  found ((checkedAdd range.start range.count).filter (· ≤ serialLimit))
    (.capacity "inode reservation")

variable [DecidableEq σ] [DecidableEq κ]

/-- `allocation_insert_scope`. -/
def insertScope (rows : Allocator σ κ) (scope : σ) (catalog : κ) : Allocator σ κ :=
  Function.update rows scope (some ⟨0, catalog⟩)

/-- `allocation_advance_scope`: the rows, and how many of them it changed. -/
def advanceScope (rows : Allocator σ κ) (mark : ℕ) (scope : σ) (highwater : ℕ) :
    Allocator σ κ × ℕ :=
  match rows scope with
  | some row =>
    if row.highwater = highwater then
      (Function.update rows scope (some { row with highwater := mark }), 1)
    else (rows, 0)
  | none => (rows, 0)

def scopeMark (rows : Allocator σ κ) (catalog : κ) (scope : σ) :
    Except (Fault κ) (Allocator σ κ × ℕ) :=
  match rows scope with
  | none => .ok (insertScope rows scope catalog, 0)
  | some row =>
    if row.authority ≠ catalog then .error (.history (.integrity "scope authority"))
    else .ok (rows, row.highwater)

/-- `reserve_inodes`: one transaction, whose rows are kept when it succeeds. The new mark is below
`i64::MAX`, so both marks fit their column. -/
def reserveInodes (rows : Allocator σ κ) (catalog : κ) (scope : σ) (count : ℕ) :
    Except (Fault κ) (Allocator σ κ × Reservation σ) := do
  if count = 0 then throw (.history (.invalidInput "inode reservation"))
  let found ← scopeMark rows catalog scope
  match (checkedAdd found.2 count).filter (· < serialLimit) with
  | none => throw (.history (.capacity "inode serials"))
  | some mark =>
    let advanced := advanceScope found.1 mark scope found.2
    if advanced.2 ≠ 1 then throw (.history (.integrity "scope high-water"))
    let start ← plainAdd found.2 1
    return (advanced.1, ⟨scope, start, count⟩)

/-! ## The Store's pool -/

abbrev SerialPool (σ : Type) := σ → Option (ℕ × ℕ)

/-- `Store::pooled_serials`, with the lock held; without it there is no range. -/
def pooledSerials (pool : SerialPool σ) (locked : Bool) (scope : σ) (count : ℕ) :
    Except (Fault κ) (SerialPool σ × Option (ℕ × ℕ)) :=
  if locked then
    match pool scope with
    | none => .ok (pool, none)
    | some (next, stop) => do
      let left ← plainSub stop next
      if left < count then return (pool, none)
      else
        let after ← plainAdd next count
        return (Function.update pool scope (some (after, stop)), some (next, count))
  else .ok (pool, none)

/-- `Store::pool_serials`. -/
def poolSerials (pool : SerialPool σ) (locked : Bool) (scope : σ) (next stop : ℕ) :
    SerialPool σ :=
  if locked then Function.update pool scope (some (next, stop)) else pool

/-- `POOL_BLOCK`. -/
def poolBlock : ℕ := 4096

/-! ## Calls -/

/-- Where a call on the Store's ports is: at the attempt of `reserve_block`, or behind its
reservation, with the rest of it to become the pool. -/
inductive Stage (σ : Type) where
  | idle
  | attempting (scope : σ) (count block : ℕ)
  | pooling (count : ℕ) (range : Reservation σ) (stop : ℕ)

/-- The catalog, the Store's pool and its calls, the ranges handed out so far and the failures. -/
structure Serials (σ κ τ : Type) where
  rows : Allocator σ κ
  pool : SerialPool σ
  calls : τ → Stage σ
  handed : List (Reservation σ)
  faults : List (Fault κ)

/-- One atomic step. -/
inductive SerialAction (σ κ τ : Type) where
  /-- `reserve_inodes` of any process. -/
  | direct (catalog : κ) (scope : σ) (count : ℕ)
  /-- `StorePorts::reserve` begins. -/
  | reserve (call : τ) (scope : σ) (count : ℕ)
  /-- `StorePorts::reserve_pooled` looks at the pool. -/
  | reservePooled (call : τ) (scope : σ) (count : ℕ) (locked : Bool)
  /-- `reserve_block` is refused at its attempt. -/
  | refuse (call : τ)
  /-- The catalog transaction of `reserve_block`, and the checks of what it gave. -/
  | transact (call : τ) (catalog : κ)
  /-- The rest of the block becomes the pool, and the call returns. -/
  | pool (call : τ) (locked : Bool)

variable [DecidableEq τ]

def Serials.finish (st : Serials σ κ τ) (call : τ) :
    Except (Fault κ) (Reservation σ) → Serials σ κ τ
  | .ok range => { st with
      calls := Function.update st.calls call .idle, handed := st.handed ++ [range] }
  | .error fault => { st with
      calls := Function.update st.calls call .idle, faults := st.faults ++ [fault] }

/-- What `reserve_block` does with its reservation: it checks it, and takes its end. -/
def checkBlock (scope : σ) (block : ℕ) (range : Reservation σ) : Except (Fault κ) ℕ :=
  if range.scope ≠ scope ∨ range.count ≠ block then
    .error (.history (.integrity "inode reservation identity"))
  else
    match (range.endSerial : HistoryResult κ ℕ) with
    | .ok stop => .ok stop
    | .error e => .error (.history e)

/-- **One step.** An action that does not fit its call's stage does nothing. -/
def Serials.apply (st : Serials σ κ τ) : SerialAction σ κ τ → Serials σ κ τ
  | .direct catalog scope count =>
    match reserveInodes st.rows catalog scope count with
    | .ok (rows, range) => { st with rows, handed := st.handed ++ [range] }
    | .error fault => { st with faults := st.faults ++ [fault] }
  | .reserve call scope count =>
    match st.calls call with
    | .idle => { st with calls := Function.update st.calls call (.attempting scope count count) }
    | _ => st
  | .reservePooled call scope count locked =>
    match st.calls call with
    | .idle =>
      match pooledSerials st.pool locked scope count with
      | .ok (pool, some (start, count)) => finish { st with pool } call (.ok ⟨scope, start, count⟩)
      | .ok (pool, none) => { st with
          pool, calls := Function.update st.calls call
            (.attempting scope count (max count poolBlock)) }
      | .error fault => st.finish call (.error fault)
    | _ => st
  | .refuse call =>
    match st.calls call with
    | .attempting _ _ _ => st.finish call (.error .refused)
    | _ => st
  | .transact call catalog =>
    match st.calls call with
    | .attempting scope count block =>
      match reserveInodes st.rows catalog scope block with
      | .error fault => st.finish call (.error fault)
      | .ok (rows, range) =>
        match checkBlock scope block range with
        | .error fault => finish { st with rows } call (.error fault)
        | .ok stop =>
          if block > count then
            { st with rows, calls := Function.update st.calls call (.pooling count range stop) }
          else finish { st with rows } call (.ok ⟨scope, range.start, count⟩)
    | _ => st
  | .pool call locked =>
    match st.calls call with
    | .pooling count range stop =>
      match plainAdd range.start count with
      | .ok next => finish { st with pool := poolSerials st.pool locked range.scope next stop } call
          (.ok ⟨range.scope, range.start, count⟩)
      | .error fault => st.finish call (.error fault)
    | _ => st

def Serials.run (st : Serials σ κ τ) (actions : List (SerialAction σ κ τ)) : Serials σ κ τ :=
  actions.foldl Serials.apply st

/-- **Where a run begins**: at any marks, with no pool, no call and nothing handed out. -/
structure Serials.Fresh (st : Serials σ κ τ) : Prop where
  pool : ∀ scope, st.pool scope = none
  calls : ∀ call, st.calls call = .idle
  handed : st.handed = []
  faults : st.faults = []

/-! ## What the operations do -/

def markOf (rows : Allocator σ κ) (scope : σ) : ℕ := (rows scope).elim 0 ScopeRow.highwater

theorem scopeMark_cases (rows : Allocator σ κ) (catalog : κ) (scope : σ) :
    (∃ e, scopeMark rows catalog scope = .error (.history e)) ∨
    ∃ rows' row, scopeMark rows catalog scope = .ok (rows', markOf rows scope) ∧
      rows' scope = some row ∧ row.highwater = markOf rows scope ∧
      ∀ other, other ≠ scope → rows' other = rows other := by
  rw [scopeMark, markOf]
  rcases hrow : rows scope with _ | row
  · refine .inr ⟨_, ⟨0, catalog⟩, rfl, Function.update_self .., rfl, fun other hother => ?_⟩
    exact Function.update_of_ne hother ..
  · dsimp only
    split_ifs
    · exact .inl ⟨_, rfl⟩
    · exact .inr ⟨rows, row, rfl, hrow, rfl, fun _ _ => rfl⟩

/-- **What a reservation does**: it fails with an error of the catalog, or it is the range behind the
mark, below the limit, and advances the mark of its scope alone. -/
theorem reserveInodes_cases (rows : Allocator σ κ) (catalog : κ) (scope : σ) (count : ℕ) :
    (∃ e, reserveInodes rows catalog scope count = .error (.history e)) ∨
    ∃ rows', reserveInodes rows catalog scope count =
        .ok (rows', ⟨scope, markOf rows scope + 1, count⟩) ∧
      markOf rows scope + count < serialLimit ∧
      ∀ other, markOf rows' other =
        if other = scope then markOf rows scope + count else markOf rows other := by
  have hlimit : serialLimit + 1 < 2 ^ 64 := by decide
  rw [reserveInodes]
  split_ifs with hzero
  · exact .inl ⟨_, rfl⟩
  · obtain ⟨e, he⟩ | ⟨rows', row, hmark, hrow, hwater, hothers⟩ := scopeMark_cases rows catalog scope
    · rw [he]
      exact .inl ⟨e, rfl⟩
    · rw [hmark]
      simp only [Except.bind, bind]
      by_cases hfits : markOf rows scope + count < serialLimit
      · have hadd : (checkedAdd (markOf rows scope) count).filter (· < serialLimit) =
            some (markOf rows scope + count) := by
          rw [checkedAdd, if_pos (by omega), Option.filter_some, if_pos (by simpa using hfits)]
        have hadvance : advanceScope rows' (markOf rows scope + count) scope (markOf rows scope) =
            (Function.update rows' scope
              (some { row with highwater := markOf rows scope + count }), 1) := by
          rw [advanceScope, hrow]
          exact if_pos hwater
        rw [hadd]
        simp only [hadvance, plainAdd, if_pos (show markOf rows scope + 1 < 2 ^ 64 by omega)]
        refine .inr ⟨_, rfl, hfits, fun other => ?_⟩
        split_ifs with hother
        · rw [hother, markOf, Function.update_self]
          rfl
        · rw [markOf, Function.update_of_ne hother, hothers other hother]
          rfl
      · have hadd : (checkedAdd (markOf rows scope) count).filter (· < serialLimit) = none := by
          rw [checkedAdd]
          split_ifs
          · rw [Option.filter_some, if_neg (by simpa using hfits)]
          · rfl
        rw [hadd]
        exact .inl ⟨_, rfl⟩

def PoolOk (pool : SerialPool σ) : Prop :=
  ∀ scope next stop, pool scope = some (next, stop) → 1 ≤ next ∧ next ≤ stop ∧ stop ≤ serialLimit

omit [DecidableEq κ] in
/-- **What the pool gives**: nothing, or its first serials, which it then begins behind. -/
theorem pooledSerials_cases {pool : SerialPool σ} (hpool : PoolOk pool) (locked : Bool) (scope : σ)
    (count : ℕ) :
    (pooledSerials pool locked scope count : Except (Fault κ) _) = .ok (pool, none) ∨
    ∃ next stop, pool scope = some (next, stop) ∧ next + count ≤ stop ∧
      (pooledSerials pool locked scope count : Except (Fault κ) _) =
        .ok (Function.update pool scope (some (next + count, stop)), some (next, count)) := by
  have hlimit : serialLimit < 2 ^ 64 := by decide
  rw [pooledSerials]
  split_ifs
  · rcases hscope : pool scope with _ | ⟨next, stop⟩
    · exact .inl rfl
    · obtain ⟨-, horder, hstop⟩ := hpool scope next stop hscope
      simp only [plainSub, if_pos horder, Except.bind, bind]
      split_ifs with hshort
      · exact .inl rfl
      · refine .inr ⟨next, stop, rfl, by omega, ?_⟩
        rw [plainAdd, if_pos (by omega)]
        rfl
  · exact .inl rfl

omit [DecidableEq κ] in
theorem checkBlock_ok {scope : σ} {start block : ℕ} (h : start + block ≤ serialLimit) :
    (checkBlock scope block ⟨scope, start, block⟩ : Except (Fault κ) ℕ) = .ok (start + block) := by
  have hlimit : serialLimit < 2 ^ 64 := by decide
  rw [checkBlock, if_neg (by simp), Reservation.endSerial, checkedAdd]
  dsimp only
  rw [if_pos (by omega), Option.filter_some, if_pos (by simpa using h)]
  rfl

/-! ## Who holds a serial -/

/-- Who holds serials: nobody yet, the caller of the range at an index, the pool of a scope, or a
call on its way. -/
inductive Holder (σ τ : Type) where
  | free
  | given (index : ℕ)
  | pooled (scope : σ)
  | call (call : τ)

def Reservation.Has (range : Reservation σ) (scope : σ) (serial : ℕ) : Prop :=
  range.scope = scope ∧ range.start ≤ serial ∧ serial < range.start + range.count

/-- **Who holds a serial of a scope.** -/
def Serials.Holds (st : Serials σ κ τ) (scope : σ) (serial : ℕ) : Holder σ τ → Prop
  | .free => markOf st.rows scope < serial
  | .given index => ∃ range, st.handed[index]? = some range ∧ range.Has scope serial
  | .pooled other => other = scope ∧
      ∃ next stop, st.pool scope = some (next, stop) ∧ next ≤ serial ∧ serial < stop
  | .call call => ∃ count range stop, st.calls call = .pooling count range stop ∧
      range.Has scope serial

def Sole {ι : Type} (holds : ι → Prop) : Prop := ∀ i j, holds i → holds j → i = j

/-- **What one holder had is shared out**: some get parts of it, the others keep to what was
theirs. -/
theorem Sole.move {holds holds' : ι → Prop} (h : Sole holds) (source : ι) (targets : ι → Prop)
    (htargets : ∀ i, targets i → holds' i → holds source)
    (hothers : ∀ i, ¬targets i → holds' i → holds i)
    (happart : ∀ i j, targets i → targets j ∨ j = source → holds' i → holds' j → i = j) :
    Sole holds' := by
  intro i j hi hj
  by_cases hti : targets i
  · by_cases htj : targets j
    · exact happart i j hti (.inl htj) hi hj
    · obtain rfl := h _ _ (htargets i hti hi) (hothers j htj hj)
      exact happart i source hti (.inr rfl) hi hj
  · by_cases htj : targets j
    · obtain rfl := h _ _ (hothers i hti hi) (htargets j htj hj)
      exact (happart j i htj (.inr rfl) hj hi).symm
    · exact h i j (hothers i hti hi) (hothers j htj hj)

/-- **The state between two steps**: every serial has one holder, and the ranges are below the
limit. -/
structure Serials.Keeps (st : Serials σ κ τ) : Prop where
  sole : ∀ scope serial, Sole (st.Holds scope serial)
  handed : ∀ range ∈ st.handed, 1 ≤ range.start ∧ range.start + range.count ≤ serialLimit
  pool : PoolOk st.pool
  calls : ∀ call count range stop, st.calls call = .pooling count range stop →
    1 ≤ range.start ∧ count < range.count ∧ range.start + range.count = stop ∧ stop ≤ serialLimit
  attempts : ∀ call scope count block, st.calls call = .attempting scope count block →
    count ≤ block
  faults : .overflow ∉ st.faults

omit [DecidableEq σ] [DecidableEq κ] [DecidableEq τ] in
theorem Serials.Fresh.keeps {st : Serials σ κ τ} (h : st.Fresh) : st.Keeps where
  sole := by
    have honly : ∀ scope serial holder, st.Holds scope serial holder → holder = .free := by
      intro scope serial holder hholds
      cases holder with
      | free => rfl
      | given index =>
        obtain ⟨range, hrange, -⟩ := hholds
        rw [h.handed] at hrange
        cases hrange
      | pooled other =>
        obtain ⟨-, next, stop, hpool, -⟩ := hholds
        rw [h.pool scope] at hpool
        cases hpool
      | call call =>
        obtain ⟨count, range, stop, hcall, -⟩ := hholds
        rw [h.calls call] at hcall
        cases hcall
    exact fun scope serial i j hi hj =>
      (honly scope serial i hi).trans (honly scope serial j hj).symm
  handed := by
    rw [h.handed]
    exact fun range hrange => absurd hrange not_mem_nil
  pool := fun scope next stop hpool => by
    rw [h.pool scope] at hpool
    cases hpool
  calls := fun call count range stop hcall => by
    rw [h.calls call] at hcall
    cases hcall
  attempts := fun call scope count block hcall => by
    rw [h.calls call] at hcall
    cases hcall
  faults := by
    rw [h.faults]
    exact not_mem_nil

namespace Serials

variable {st : Serials σ κ τ}

/-! ## Steps -/

theorem update_cases {α : Type} [DecidableEq ι] {f : ι → α} {i j : ι} {a b : α}
    (h : Function.update f i a j = b) : j = i ∧ a = b ∨ j ≠ i ∧ f j = b := by
  by_cases hj : j = i
  · rw [hj, Function.update_self] at h
    exact .inl ⟨hj, h⟩
  · rw [Function.update_of_ne hj] at h
    exact .inr ⟨hj, h⟩

omit [DecidableEq σ] [DecidableEq κ] in
theorem Keeps.leave (h : st.Keeps) (call : τ) {stage : Stage σ}
    (hstage : ∀ count range stop, stage ≠ .pooling count range stop)
    (hattempt : ∀ scope count block, stage = .attempting scope count block → count ≤ block) :
    Keeps { st with calls := Function.update st.calls call stage } where
  sole := by
    have hless : ∀ scope serial holder,
        Holds { st with calls := Function.update st.calls call stage } scope serial holder →
          st.Holds scope serial holder := by
      intro scope serial holder hholds
      cases holder with
      | free => exact hholds
      | given index => exact hholds
      | pooled other => exact hholds
      | call other =>
        obtain ⟨count, range, stop, hcall, hhas⟩ := hholds
        obtain ⟨-, hcall⟩ | ⟨-, hcall⟩ := update_cases hcall
        · exact absurd hcall (hstage count range stop)
        · exact ⟨count, range, stop, hcall, hhas⟩
    exact fun scope serial i j hi hj =>
      h.sole scope serial i j (hless scope serial i hi) (hless scope serial j hj)
  handed := h.handed
  pool := h.pool
  calls := fun other count range stop hcall => by
    obtain ⟨-, hcall⟩ | ⟨-, hcall⟩ := update_cases hcall
    · exact absurd hcall (hstage count range stop)
    · exact h.calls other count range stop hcall
  attempts := fun other scope count block hcall => by
    obtain ⟨-, hcall⟩ | ⟨-, hcall⟩ := update_cases hcall
    · exact hattempt scope count block hcall
    · exact h.attempts other scope count block hcall
  faults := h.faults

omit [DecidableEq σ] [DecidableEq κ] [DecidableEq τ] in
theorem Keeps.fail (h : st.Keeps) {fault : Fault κ} (hfault : fault ≠ .overflow) :
    Keeps { st with faults := st.faults ++ [fault] } where
  sole := h.sole
  handed := h.handed
  pool := h.pool
  calls := h.calls
  attempts := h.attempts
  faults := fun hmem => (mem_append.mp hmem).elim h.faults
    fun hlast => hfault (mem_singleton.mp hlast).symm

variable {rows : Allocator σ κ} {faults : List (Fault κ)} {range : Reservation σ}
  {pool : SerialPool σ} {scope : σ} {calls : τ → Stage σ}

omit [DecidableEq σ] [DecidableEq κ] [DecidableEq τ] in
theorem holds_last
    (h : Holds ⟨rows, pool, calls, st.handed ++ [range], faults⟩ scope serial
      (.given st.handed.length)) : range.Has scope serial := by
  obtain ⟨found, hfound, hhas⟩ := h
  rw [getElem?_concat_length] at hfound
  rw [Option.some.inj hfound]
  exact hhas

omit [DecidableEq σ] [DecidableEq κ] [DecidableEq τ] in
theorem holds_earlier {index : ℕ}
    (hindex : Holder.given index ≠ (.given st.handed.length : Holder σ τ))
    (h : Holds ⟨rows, pool, calls, st.handed ++ [range], faults⟩ scope serial (.given index)) :
    st.Holds scope serial (.given index) := by
  obtain ⟨found, hfound, hhas⟩ := h
  rcases Nat.lt_trichotomy index st.handed.length with hlt | rfl | hgt
  · rw [getElem?_append_left hlt] at hfound
    exact ⟨found, hfound, hhas⟩
  · exact absurd rfl hindex
  · rw [getElem?_eq_none (by rw [length_append, length_singleton]; omega)] at hfound
    cases hfound

omit [DecidableEq σ] [DecidableEq κ] [DecidableEq τ] in
theorem Keeps.handed_append (h : st.Keeps)
    (hrange : 1 ≤ range.start ∧ range.start + range.count ≤ serialLimit) :
    ∀ found ∈ st.handed ++ [range],
      1 ≤ found.start ∧ found.start + found.count ≤ serialLimit := by
  intro found hfound
  rcases mem_append.mp hfound with hfound | hfound
  · exact h.handed found hfound
  · rw [mem_singleton.mp hfound]
    exact hrange

omit [DecidableEq κ] [DecidableEq τ] in
theorem lt_mark {other : σ} {count : ℕ}
    (hmarks : ∀ other, markOf rows other =
      if other = scope then markOf st.rows scope + count else markOf st.rows other)
    (h : markOf rows other < serial) :
    markOf st.rows other < serial ∧
      ¬(⟨scope, markOf st.rows scope + 1, count⟩ : Reservation σ).Has other serial := by
  rw [hmarks] at h
  split_ifs at h with hother
  · rw [hother]
    refine ⟨by omega, fun hhas => ?_⟩
    obtain ⟨-, -, hlt⟩ := hhas
    dsimp only at hlt
    omega
  · exact ⟨h, fun hhas => hother hhas.1.symm⟩

omit [DecidableEq κ] [DecidableEq τ] in
/-- **Free serials are handed out.** -/
theorem Keeps.take (h : st.Keeps) {rows : Allocator σ κ} {scope : σ} {count : ℕ}
    (hfits : markOf st.rows scope + count < serialLimit)
    (hmarks : ∀ other, markOf rows other =
      if other = scope then markOf st.rows scope + count else markOf st.rows other) :
    Keeps { st with rows, handed := st.handed ++ [⟨scope, markOf st.rows scope + 1, count⟩] } where
  sole := by
    intro other serial
    refine (h.sole other serial).move .free (fun i => i = .given st.handed.length) ?_ ?_ ?_
    · rintro _ rfl hholds
      obtain ⟨rfl, hstart, -⟩ := holds_last hholds
      exact hstart
    · intro holder hholder hholds
      cases holder with
      | free => exact (lt_mark hmarks hholds).1
      | given index => exact holds_earlier hholder hholds
      | pooled scope => exact hholds
      | call call => exact hholds
    · rintro _ _ rfl (rfl | rfl) hholds hfree
      · rfl
      · exact absurd (holds_last hholds) (lt_mark hmarks hfree).2
  handed := h.handed_append ⟨Nat.le_add_left .., by dsimp only; omega⟩
  pool := h.pool
  calls := h.calls
  attempts := h.attempts
  faults := h.faults

omit [DecidableEq κ] in
/-- **A call reserves a block.** -/
theorem Keeps.block (h : st.Keeps) {rows : Allocator σ κ} {scope : σ} {count block : ℕ} {call : τ}
    (hcount : count < block) (hfits : markOf st.rows scope + block < serialLimit)
    (hmarks : ∀ other, markOf rows other =
      if other = scope then markOf st.rows scope + block else markOf st.rows other) :
    Keeps { st with
      rows, calls := Function.update st.calls call (.pooling count
        ⟨scope, markOf st.rows scope + 1, block⟩ (markOf st.rows scope + 1 + block)) } where
  sole := by
    intro other serial
    refine (h.sole other serial).move .free (fun i => i = .call call) ?_ ?_ ?_
    · rintro _ rfl ⟨count', range, stop, hcall, hhas⟩
      obtain ⟨-, hcall⟩ | ⟨hne, -⟩ := update_cases hcall
      · cases hcall
        obtain ⟨rfl, hstart, -⟩ := hhas
        exact hstart
      · exact absurd rfl hne
    · intro holder hholder hholds
      cases holder with
      | free => exact (lt_mark hmarks hholds).1
      | given index => exact hholds
      | pooled scope => exact hholds
      | call other =>
        obtain ⟨count', range, stop, hcall, hhas⟩ := hholds
        obtain ⟨rfl, -⟩ | ⟨-, hcall⟩ := update_cases hcall
        · exact absurd rfl hholder
        · exact ⟨count', range, stop, hcall, hhas⟩
    · rintro _ _ rfl (rfl | rfl) hholds hfree
      · rfl
      · obtain ⟨count', range, stop, hcall, hhas⟩ := hholds
        obtain ⟨-, hcall⟩ | ⟨hne, -⟩ := update_cases hcall
        · cases hcall
          exact absurd hhas (lt_mark hmarks hfree).2
        · exact absurd rfl hne
  handed := h.handed
  pool := h.pool
  calls := fun other count' range stop hcall => by
    obtain ⟨-, hcall⟩ | ⟨-, hcall⟩ := update_cases hcall
    · cases hcall
      exact ⟨Nat.le_add_left .., hcount, rfl, by omega⟩
    · exact h.calls other count' range stop hcall
  attempts := fun other scope' count' block' hcall => by
    obtain ⟨-, hcall⟩ | ⟨-, hcall⟩ := update_cases hcall
    · cases hcall
    · exact h.attempts other scope' count' block' hcall
  faults := h.faults

omit [DecidableEq κ] [DecidableEq τ] in
/-- **The pool hands out its first serials.** -/
theorem Keeps.draw (h : st.Keeps) {scope : σ} {next stop count : ℕ}
    (hpool : st.pool scope = some (next, stop)) (hcount : next + count ≤ stop) :
    Keeps { st with
      pool := Function.update st.pool scope (some (next + count, stop))
      handed := st.handed ++ [⟨scope, next, count⟩] } where
  sole := by
    have hbehind : ∀ other serial, Holds { st with
        pool := Function.update st.pool scope (some (next + count, stop))
        handed := st.handed ++ [⟨scope, next, count⟩] } other serial (.pooled other) →
        st.Holds other serial (.pooled other) ∧
          ¬(⟨scope, next, count⟩ : Reservation σ).Has other serial := by
      rintro other serial ⟨-, next', stop', hfound, hstart, hstop⟩
      obtain ⟨rfl, hsame⟩ | ⟨hne, hfound⟩ := update_cases hfound
      · cases hsame
        refine ⟨⟨rfl, next, stop, hpool, by omega, hstop⟩, fun hhas => ?_⟩
        obtain ⟨-, -, hlt⟩ := hhas
        dsimp only at hlt
        omega
      · exact ⟨⟨rfl, next', stop', hfound, hstart, hstop⟩, fun hhas => hne hhas.1.symm⟩
    intro other serial
    refine (h.sole other serial).move (.pooled scope) (fun i => i = .given st.handed.length)
      ?_ ?_ ?_
    · rintro _ rfl hholds
      obtain ⟨rfl, hstart, hlt⟩ := holds_last hholds
      dsimp only at hstart hlt
      exact ⟨rfl, next, stop, hpool, hstart, by omega⟩
    · intro holder hholder hholds
      cases holder with
      | free => exact hholds
      | given index => exact holds_earlier hholder hholds
      | pooled scope =>
        obtain rfl : scope = other := hholds.1
        exact (hbehind _ _ hholds).1
      | call call => exact hholds
    · rintro _ _ rfl (rfl | rfl) hholds hkept
      · rfl
      · obtain rfl : scope = other := hkept.1
        exact absurd (holds_last hholds) (hbehind _ _ hkept).2
  handed := by
    obtain ⟨hone, -, hlimit⟩ := h.pool scope next stop hpool
    exact h.handed_append ⟨hone, by dsimp only; omega⟩
  pool := fun other next' stop' hfound => by
    obtain ⟨hone, -, hlimit⟩ := h.pool scope next stop hpool
    obtain ⟨-, hfound⟩ | ⟨-, hfound⟩ := update_cases hfound
    · cases hfound
      omega
    · exact h.pool other next' stop' hfound
  calls := h.calls
  attempts := h.attempts
  faults := h.faults

omit [DecidableEq κ] in
/-- **A block is shared out**: its first serials to the caller, the others to the pool, whose former
serials are lost. -/
theorem Keeps.share (h : st.Keeps) {call : τ} {count stop : ℕ} {range : Reservation σ}
    {locked : Bool} (hcall : st.calls call = .pooling count range stop) :
    Keeps { st with
      pool := poolSerials st.pool locked range.scope (range.start + count) stop
      calls := Function.update st.calls call .idle
      handed := st.handed ++ [⟨range.scope, range.start, count⟩] } where
  sole := by
    obtain ⟨-, hcount, hstop, -⟩ := h.calls call count range stop hcall
    have hrest : ∀ other serial, Holds { st with
        pool := poolSerials st.pool true range.scope (range.start + count) stop
        calls := Function.update st.calls call .idle
        handed := st.handed ++ [⟨range.scope, range.start, count⟩] } other serial
          (.pooled range.scope) →
        range.scope = other ∧ range.start + count ≤ serial ∧ serial < stop := by
      rintro other serial ⟨rfl, next', stop', hfound, hstart, hlt⟩
      obtain ⟨-, hsame⟩ | ⟨hne, -⟩ := update_cases hfound
      · cases hsame
        exact ⟨rfl, hstart, hlt⟩
      · exact absurd rfl hne
    have hgone : ∀ other serial, ¬Holds { st with
        pool := poolSerials st.pool locked range.scope (range.start + count) stop
        calls := Function.update st.calls call .idle
        handed := st.handed ++ [⟨range.scope, range.start, count⟩] } other serial (.call call) := by
      rintro other serial ⟨count', range', stop', hfound, -⟩
      obtain ⟨-, hsame⟩ | ⟨hne, -⟩ := update_cases hfound
      · cases hsame
      · exact absurd rfl hne
    intro other serial
    -- the serials of the block go to the caller and, under the lock, to the pool of its scope
    refine (h.sole other serial).move (.call call)
      (fun i => i = .given st.handed.length ∨ i = .pooled range.scope ∧ locked = true) ?_ ?_ ?_
    · rintro _ (rfl | ⟨rfl, rfl⟩) hholds
      · obtain ⟨hscope, hstart, hlt⟩ := holds_last hholds
        dsimp only at hlt
        exact ⟨count, range, stop, hcall, hscope, hstart, by omega⟩
      · obtain ⟨hscope, hstart, hlt⟩ := hrest other serial hholds
        exact ⟨count, range, stop, hcall, hscope, by omega, by omega⟩
    · intro holder hholder hholds
      rw [not_or] at hholder
      cases holder with
      | free => exact hholds
      | given index => exact holds_earlier hholder.1 hholds
      | pooled scope =>
        obtain ⟨rfl, next', stop', hfound, hbounds⟩ := hholds
        cases locked with
        | false => exact ⟨rfl, next', stop', hfound, hbounds⟩
        | true =>
          obtain ⟨rfl, -⟩ | ⟨-, hfound⟩ := update_cases hfound
          · exact absurd ⟨rfl, rfl⟩ hholder.2
          · exact ⟨rfl, next', stop', hfound, hbounds⟩
      | call other =>
        obtain ⟨count', range', stop', hfound, hhas⟩ := hholds
        obtain ⟨-, hfound⟩ | ⟨-, hfound⟩ := update_cases hfound
        · cases hfound
        · exact ⟨count', range', stop', hfound, hhas⟩
    · rintro i j (rfl | ⟨rfl, rfl⟩) hj hheldi hheldj
      · obtain (rfl | ⟨rfl, rfl⟩) | rfl := hj
        · rfl
        · have hbefore := (holds_last hheldi).2.2
          have hbehind := (hrest other serial hheldj).2.1
          dsimp only at hbefore
          omega
        · exact absurd hheldj (hgone other serial)
      · obtain (rfl | ⟨rfl, -⟩) | rfl := hj
        · have hbefore := (holds_last hheldj).2.2
          have hbehind := (hrest other serial hheldi).2.1
          dsimp only at hbefore
          omega
        · rfl
        · exact absurd hheldj (hgone other serial)
  handed := by
    obtain ⟨hone, hcount, hstop, hlimit⟩ := h.calls call count range stop hcall
    exact h.handed_append ⟨hone, by dsimp only; omega⟩
  pool := fun other next' stop' hfound => by
    obtain ⟨hone, hcount, hstop, hlimit⟩ := h.calls call count range stop hcall
    cases locked with
    | false => exact h.pool other next' stop' hfound
    | true =>
      obtain ⟨-, hfound⟩ | ⟨-, hfound⟩ := update_cases hfound
      · cases hfound
        omega
      · exact h.pool other next' stop' hfound
  calls := fun other count' range' stop' hfound => by
    obtain ⟨-, hfound⟩ | ⟨-, hfound⟩ := update_cases hfound
    · cases hfound
    · exact h.calls other count' range' stop' hfound
  attempts := fun other scope' count' block' hfound => by
    obtain ⟨-, hfound⟩ | ⟨-, hfound⟩ := update_cases hfound
    · cases hfound
    · exact h.attempts other scope' count' block' hfound
  faults := h.faults

/-- **A step keeps the state.** -/
theorem Keeps.apply (h : st.Keeps) (action : SerialAction σ κ τ) : (st.apply action).Keeps := by
  have hidle : ∀ {call : τ} {st : Serials σ κ τ}, st.Keeps →
      Keeps { st with calls := Function.update st.calls call .idle } := fun h =>
    h.leave _ (fun _ _ _ hstage => by cases hstage) (fun _ _ _ hstage => by cases hstage)
  have hattempt : ∀ {call : τ} {scope : σ} {count block : ℕ}, count ≤ block →
      Keeps { st with calls := Function.update st.calls call (.attempting scope count block) } :=
    fun hcount => h.leave _ (fun _ _ _ hstage => by cases hstage)
      (fun _ _ _ hstage => by cases hstage; exact hcount)
  cases action with
  | direct catalog scope count =>
    rw [Serials.apply]
    obtain ⟨e, he⟩ | ⟨rows, hreserve, hfits, hmarks⟩ :=
      reserveInodes_cases st.rows catalog scope count
    · rw [he]
      exact h.fail (by simp)
    · rw [hreserve]
      exact h.take hfits hmarks
  | reserve call scope count =>
    rw [Serials.apply]
    split
    · exact hattempt le_rfl
    · exact h
  | reservePooled call scope count locked =>
    rw [Serials.apply]
    split
    · obtain hnone | ⟨next, stop, hpool, hcount, hsome⟩ :=
        @pooledSerials_cases σ κ _ _ h.pool locked scope count
      · rw [hnone]
        exact hattempt (le_max_left ..)
      · rw [hsome]
        exact hidle (h.draw hpool hcount)
    · exact h
  | refuse call =>
    rw [Serials.apply]
    split
    · exact hidle (h.fail (by simp))
    · exact h
  | transact call catalog =>
    rw [Serials.apply]
    split
    · rename_i scope count block hcall
      obtain ⟨e, he⟩ | ⟨rows, hreserve, hfits, hmarks⟩ :=
        reserveInodes_cases st.rows catalog scope block
      · rw [he]
        exact hidle (h.fail (by simp))
      · rw [hreserve]
        dsimp only
        rw [checkBlock_ok (by omega)]
        dsimp only
        split_ifs with hblock
        · exact h.block hblock hfits hmarks
        · obtain rfl : count = block := le_antisymm (h.attempts call scope count block hcall)
            (not_lt.mp hblock)
          exact hidle (h.take hfits hmarks)
    · exact h
  | pool call locked =>
    rw [Serials.apply]
    split
    · rename_i count range stop hcall
      obtain ⟨-, hcount, hstop, hlimit⟩ := h.calls call count range stop hcall
      have hsmall : serialLimit < 2 ^ 64 := by decide
      rw [plainAdd, if_pos (by omega)]
      exact h.share hcall
    · exact h

/-- **Every run keeps the state.** -/
theorem Keeps.run (h : st.Keeps) (actions : List (SerialAction σ κ τ)) :
    (st.run actions).Keeps := by
  induction actions generalizing st with
  | nil => exact h
  | cons action actions ih => exact ih (h.apply action)

end Serials

/-- **No serial is handed out twice.** In every run of any callers over one catalog and one Store,
the ranges of one scope are apart, hold serials from 1 to below `i64::MAX` only, and no addition or
subtraction on a range overflows. -/
theorem serials_exact {st : Serials σ κ τ} (hfresh : st.Fresh)
    (actions : List (SerialAction σ κ τ)) :
    (st.run actions).handed.Pairwise (fun a b => a.scope = b.scope →
      ∀ serial, a.start ≤ serial ∧ serial < a.start + a.count →
        ¬(b.start ≤ serial ∧ serial < b.start + b.count)) ∧
    (∀ range ∈ (st.run actions).handed, ∀ serial,
      range.start ≤ serial ∧ serial < range.start + range.count →
        1 ≤ serial ∧ serial ≤ serialLimit - 1) ∧
    .overflow ∉ (st.run actions).faults := by
  have h := hfresh.keeps.run actions
  refine ⟨pairwise_iff_getElem.mpr fun i j hi hj hlt hscope serial ha hb => ?_,
    fun range hrange serial hserial => ?_, h.faults⟩
  · have hheld := h.sole _ serial (.given i) (.given j)
      ⟨_, getElem?_eq_getElem hi, hscope, ha⟩ ⟨_, getElem?_eq_getElem hj, rfl, hb⟩
    cases hheld
    exact lt_irrefl _ hlt
  · have hrange := h.handed range hrange
    omega

def emptySerials : Serials ℕ ℕ ℕ := ⟨fun _ => none, fun _ => none, fun _ => .idle, [], []⟩

/-- Two calls find the pool short and both replace it; a third is served by it. -/
def crossedCalls : List (SerialAction ℕ ℕ ℕ) :=
  [.reservePooled 1 7 64 true, .reservePooled 2 7 64 true, .transact 1 0, .transact 2 0,
    .pool 2 true, .pool 1 true, .reservePooled 3 7 64 true]

theorem serials_exact_crossed :
    ((emptySerials.run crossedCalls).handed.map fun range => (range.start, range.count)) =
      [(4097, 64), (1, 64), (65, 64)] ∧
    .overflow ∉ (emptySerials.run crossedCalls).faults := by
  have hfresh : emptySerials.Fresh := ⟨fun _ => rfl, fun _ => rfl, rfl, rfl⟩
  exact ⟨rfl, (serials_exact hfresh crossedCalls).2.2⟩

end LayerFs.History
