import Mathlib.Data.List.Chain

/-!
# Rows with parents

Rows of a table that only grows, newest first: each names a parent among the older rows of its owner,
or none.

* `Grounded.exists_chain` — **every row has its chain**, of one owner and without a repetition.
-/

namespace LayerFs.Parents

open List

variable {α κ σ : Type} {key : α → κ} {parent : α → Option κ} {owner : α → σ}

/-- Every parent is an older row of the same owner, and no key is used twice. -/
def Grounded (key : α → κ) (parent : α → Option κ) (owner : α → σ) : List α → Prop
  | [] => True
  | row :: rest => (∀ other ∈ rest, key other ≠ key row) ∧
    (∀ p ∈ parent row, ∃ other ∈ rest, key other = p ∧ owner other = owner row) ∧
    Grounded key parent owner rest

theorem Grounded.nodup {rows : List α} (h : Grounded key parent owner rows) :
    (rows.map key).Nodup := by
  induction rows with
  | nil => exact nodup_nil
  | cons row rest ih =>
    rw [map_cons, nodup_cons]
    refine ⟨fun hmem => ?_, ih h.2.2⟩
    obtain ⟨other, hother, hkey⟩ := mem_map.mp hmem
    exact h.1 other hother hkey

/-- A row and the rows above it: a lookup and the parents it follows. -/
inductive ParentChain (look : κ → Option α) (parent : α → Option κ) : Option κ → List α → Prop where
  | nil : ParentChain look parent none []
  | cons {id : κ} {row : α} {chain : List α} (hrow : look id = some row)
      (hrest : ParentChain look parent (parent row) chain) :
      ParentChain look parent (some id) (row :: chain)

theorem ParentChain.mono {look look' : κ → Option α} {start : Option κ} {chain : List α}
    (h : ParentChain look parent start chain)
    (hlook : ∀ {id row}, look id = some row → look' id = some row) :
    ParentChain look' parent start chain := by
  induction h with
  | nil => exact .nil
  | cons hrow _ ih => exact .cons (hlook hrow) ih

theorem ParentChain.drop {look : κ → Option α} : ∀ {chain : List α} {start : Option κ} {count : ℕ}
    {last : α}, ParentChain look parent start chain → (chain.take count).getLast? = some last →
    ParentChain look parent (parent last) (chain.drop count) := by
  intro chain
  induction chain with
  | nil =>
    intro start count last _ hlast
    rw [take_nil] at hlast
    cases hlast
  | cons row rest ih =>
    intro start count last h hlast
    cases h with
    | cons hrow hrest =>
      cases count with
      | zero => cases hlast
      | succ count =>
        rw [take_succ_cons, getLast?_cons] at hlast
        rw [drop_succ_cons]
        rcases htake : (rest.take count).getLast? with _ | inner
        · rw [htake] at hlast
          obtain rfl := Option.some.inj hlast
          have hempty := getLast?_eq_none_iff.mp htake
          rcases take_eq_nil_iff.mp hempty with rfl | rfl
          · exact hrest
          · rw [drop_nil]
            exact hrest
        · rw [htake] at hlast
          obtain rfl := Option.some.inj hlast
          exact ih hrest htake

section Look

variable [DecidableEq κ]

theorem find?_of_mem {rows : List α} (hnodup : (rows.map key).Nodup) {row : α} (hrow : row ∈ rows) :
    rows.find? (fun other => decide (key other = key row)) = some row := by
  induction rows with
  | nil => cases hrow
  | cons first rest ih =>
    rw [map_cons, nodup_cons] at hnodup
    rcases mem_cons.mp hrow with rfl | hrow
    · rw [find?_cons_of_pos (by simp)]
    · have hother : key first ≠ key row := fun hsame =>
        hnodup.1 (hsame ▸ mem_map_of_mem hrow)
      rw [find?_cons_of_neg (by simpa using hother)]
      exact ih hnodup.2 hrow

theorem find?_cons_of_fresh {rows : List α} {first found : α} {id : κ}
    (hfresh : ∀ other ∈ rows, key other ≠ key first)
    (hfound : (rows.find? fun other => decide (key other = id)) = some found) :
    ((first :: rows).find? fun other => decide (key other = id)) = some found := by
  have hkey : key found = id := by simpa using find?_some hfound
  have hother : key first ≠ id := fun hsame =>
    hfresh found (mem_of_find?_eq_some hfound) (hkey.trans hsame.symm)
  rw [find?_cons_of_neg (by simpa using hother)]
  exact hfound

/-- **Every row has its chain**, of one owner and without a repetition. -/
theorem Grounded.exists_chain {rows : List α} (h : Grounded key parent owner rows) {row : α}
    (hrow : row ∈ rows) : ∃ chain,
      ParentChain (fun id => rows.find? fun other => decide (key other = id)) parent
        (some (key row)) chain ∧
      chain.Sublist rows ∧ ∀ other ∈ chain, owner other = owner row := by
  induction rows generalizing row with
  | nil => cases hrow
  | cons first rest ih =>
    have hold : ∀ {id found}, (rest.find? fun other => decide (key other = id)) = some found →
        ((first :: rest).find? fun other => decide (key other = id)) = some found :=
      find?_cons_of_fresh h.1
    rcases mem_cons.mp hrow with rfl | hrow
    · have hself : ((row :: rest).find? fun other => decide (key other = key row)) = some row := by
        rw [find?_cons_of_pos (by simp)]
      rcases hparent : parent row with _ | p
      · refine ⟨[row], .cons hself (hparent ▸ .nil), ?_, ?_⟩
        · exact (nil_sublist rest).cons_cons row
        · intro other hother
          rw [mem_singleton.mp hother]
      · obtain ⟨above, habove, hkey, howner⟩ := h.2.1 p hparent
        obtain ⟨chain, hchain, hsub, howners⟩ := ih h.2.2 habove
        refine ⟨row :: chain, .cons hself ?_, hsub.cons_cons row, ?_⟩
        · rw [hparent, ← hkey]
          exact hchain.mono hold
        · intro other hother
          rcases mem_cons.mp hother with rfl | hother
          · rfl
          · exact (howners other hother).trans howner
    · obtain ⟨chain, hchain, hsub, howners⟩ := ih h.2.2 hrow
      exact ⟨chain, hchain.mono hold, hsub.cons first, howners⟩

end Look

end LayerFs.Parents
