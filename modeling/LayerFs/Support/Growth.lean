import Mathlib.Algebra.Order.BigOperators.Group.List
import Mathlib.Algebra.Order.Group.Nat
import Mathlib.Algebra.Order.Ring.Int
import Mathlib.Data.Finset.Card
import Mathlib.Data.List.Chain
import Mathlib.Data.List.Flatten

/-!
# Graphs that grow by fresh nodes

A history only ever gains a node whose edges lead to nodes it already has.

* `GrownBy.acyclic` — **no cycle appears**.
-/

namespace LayerFs

open Relation

variable {α : Type}

/-- `grown` is `edge` with one fresh node, which has an edge to each target. -/
structure GrownBy (edge grown : α → α → Prop) (fresh : α) (target : α → Prop) : Prop where
  edge_iff : ∀ a b, grown a b ↔ edge a b ∨ a = fresh ∧ target b
  not_left : ∀ b, ¬edge fresh b
  not_right : ∀ a, ¬edge a fresh
  not_target : ¬target fresh

def Acyclic (edge : α → α → Prop) : Prop := ∀ a, ¬TransGen edge a a

theorem Acyclic.antisymm {edge : α → α → Prop} (h : Acyclic edge) {a b : α}
    (hab : ReflTransGen edge a b) (hba : ReflTransGen edge b a) : a = b := by
  rcases hab.cases_head with rfl | ⟨c, hac, hcb⟩
  · rfl
  · exact absurd (TransGen.head' hac (hcb.trans hba)) (h a)

theorem Acyclic.exists_top {edge : α → α → Prop} (h : Acyclic edge) :
    ∀ {l : List α}, l ≠ [] → ∃ a ∈ l, ∀ b ∈ l, ReflTransGen edge b a → b = a
  | [], hne => absurd rfl hne
  | [a], _ => ⟨a, List.mem_cons_self, by simp⟩
  | a :: b :: l, _ => by
    obtain ⟨top, htop, hmax⟩ := h.exists_top (l := b :: l) (by simp)
    by_cases hreach : ReflTransGen edge a top
    · -- whatever reaches the first node reaches the top of the rest
      refine ⟨a, List.mem_cons_self, fun c hc hca => ?_⟩
      rcases List.mem_cons.mp hc with rfl | hc
      · rfl
      · have heq := hmax c hc (hca.trans hreach)
        exact h.antisymm hca (heq ▸ hreach)
    · refine ⟨top, List.mem_cons_of_mem a htop, fun c hc hctop => ?_⟩
      rcases List.mem_cons.mp hc with rfl | hc
      · exact absurd hctop hreach
      · exact hmax c hc hctop

namespace GrownBy

variable {edge grown : α → α → Prop} {fresh : α} {target : α → Prop}

theorem ne_of_reach (h : GrownBy edge grown fresh target) {a b : α} (ha : a ≠ fresh)
    (hab : ReflTransGen grown a b) : ReflTransGen edge a b ∧ b ≠ fresh := by
  induction hab with
  | refl => exact ⟨.refl, ha⟩
  | tail _ hbc ih =>
    obtain ⟨hreach, hb⟩ := ih
    rcases (h.edge_iff _ _).mp hbc with hbc | ⟨rfl, -⟩
    · refine ⟨hreach.tail hbc, ?_⟩
      rintro rfl
      exact h.not_right _ hbc
    · exact absurd rfl hb

theorem mono (h : GrownBy edge grown fresh target) {a b : α} (hab : ReflTransGen edge a b) :
    ReflTransGen grown a b :=
  ReflTransGen.mono (fun a b hedge => (h.edge_iff a b).mpr (.inl hedge)) a b hab

theorem reach_old (h : GrownBy edge grown fresh target) {a b : α} (ha : a ≠ fresh) :
    ReflTransGen grown a b ↔ ReflTransGen edge a b :=
  ⟨fun hab => (h.ne_of_reach ha hab).1, h.mono⟩

theorem reach_new (h : GrownBy edge grown fresh target) {b : α} :
    ReflTransGen grown fresh b ↔ b = fresh ∨ ∃ m, target m ∧ ReflTransGen edge m b := by
  constructor
  · intro hreach
    rcases hreach.cases_head with rfl | ⟨m, hm, hmb⟩
    · exact .inl rfl
    · rcases (h.edge_iff _ _).mp hm with hold | ⟨-, htarget⟩
      · exact absurd hold (h.not_left m)
      · refine .inr ⟨m, htarget, (h.ne_of_reach ?_ hmb).1⟩
        rintro rfl
        exact h.not_target htarget
  · rintro (rfl | ⟨m, hm, hmb⟩)
    · exact .refl
    · exact .head ((h.edge_iff _ _).mpr (.inr ⟨rfl, hm⟩)) (h.mono hmb)

/-- **No cycle appears.** -/
theorem acyclic (h : GrownBy edge grown fresh target) (hold : Acyclic edge) : Acyclic grown := by
  intro a hcycle
  obtain ⟨c, hac, hca⟩ := TransGen.head'_iff.mp hcycle
  rcases (h.edge_iff _ _).mp hac with hac | ⟨rfl, hc⟩
  · have hne : c ≠ fresh := by
      rintro rfl
      exact h.not_right _ hac
    exact hold a (TransGen.head' hac (h.ne_of_reach hne hca).1)
  · have hne : c ≠ a := by
      rintro rfl
      exact h.not_target hc
    exact (h.ne_of_reach hne hca).2 rfl

end GrownBy

end LayerFs
