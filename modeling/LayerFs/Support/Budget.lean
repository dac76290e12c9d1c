import Mathlib.Data.List.Chain

/-!
# Trials with a budget

A trial spends a budget as it goes. It fails, gives up without a value, or returns one; when the
budget does not cover a cost, it gives up and the rest of the budget is gone.

* `Trial` — a trial, as a monad; `charge`, `abandon`, `lift`.
-/

namespace LayerFs

abbrev Trial (ε α : Type) := OptionT (StateT ℕ (Except ε)) α

namespace Trial

variable {ε α β : Type}

/-- Spends `cost`, or gives up with nothing left. -/
def charge (cost : ℕ) : Trial ε Unit := fun budget =>
  if budget < cost then .ok (none, 0) else .ok (some (), budget - cost)

def abandon : Trial ε α := fun budget => .ok (none, budget)

def lift (x : Except ε α) : Trial ε α := fun budget => x.map fun a => (some a, budget)

variable {m : Trial ε α} {f : α → Trial ε β} {b : β}

theorem bind_eq_some {budget after : ℕ} :
    (m >>= f) budget = .ok (some b, after) ↔
      ∃ a between, m budget = .ok (some a, between) ∧ f a between = .ok (some b, after) := by
  simp only [bind, OptionT.bind, OptionT.mk, StateT.bind, Except.bind]
  rcases m budget with e | ⟨_ | a, between⟩
  · simp
  · constructor
    · intro h
      cases h
    · rintro ⟨_, _, h, _⟩
      cases h
  · simp

/-! ## What a trial returns -/

def Yields (m : Trial ε α) (P : α → Prop) : Prop :=
  ∀ budget a after, m budget = .ok (some a, after) → P a

variable {a : α} {P : α → Prop}

theorem Yields.pure (h : P a) : Yields (pure a : Trial ε α) P := by
  intro budget b after hb
  cases hb
  exact h

theorem Yields.bind {Q : β → Prop} (hm : Yields m P) (hf : ∀ a, P a → Yields (f a) Q) :
    Yields (m >>= f) Q := by
  intro budget b after hb
  obtain ⟨a, between, ha, hb⟩ := bind_eq_some.mp hb
  exact hf a (hm _ _ _ ha) _ _ _ hb

theorem Yields.imp {Q : α → Prop} (hm : Yields m P) (h : ∀ a, P a → Q a) : Yields m Q :=
  fun budget a after ha => h a (hm budget a after ha)

theorem Yields.any (m : Trial ε α) : Yields m fun _ => True := fun _ _ _ _ => trivial

theorem Yields.abandon : Yields (abandon : Trial ε α) P := by
  intro budget b after hb
  cases hb

variable {x : Except ε α}

theorem Yields.lift (h : ∀ a, x = .ok a → P a) : Yields (lift x) P := by
  intro budget a after ha
  cases x with
  | error e => cases ha
  | ok b =>
    cases ha
    exact h _ rfl

/-! ## Trials that complete -/

/-- The trial returns `a` at every budget that covers its cost. -/
def Completes (m : Trial ε α) (a : α) : Prop :=
  ∃ cost, ∀ budget, m (budget + cost) = .ok (some a, budget)

theorem Completes.pure (a : α) : Completes (pure a : Trial ε α) a := ⟨0, fun _ => rfl⟩

theorem Completes.charge (cost : ℕ) : Completes (charge cost : Trial ε Unit) () := by
  refine ⟨cost, fun budget => ?_⟩
  rw [Trial.charge, if_neg (Nat.not_lt.mpr (Nat.le_add_left _ _)), Nat.add_sub_cancel]

theorem Completes.lift (h : x = .ok a) : Completes (lift x) a :=
  ⟨0, fun budget => by rw [h]; rfl⟩

theorem Completes.bind (hm : Completes m a) (hf : Completes (f a) b) : Completes (m >>= f) b := by
  obtain ⟨first, hfirst⟩ := hm
  obtain ⟨second, hsecond⟩ := hf
  refine ⟨second + first, fun budget => bind_eq_some.mpr ⟨a, budget + second, ?_, hsecond budget⟩⟩
  rw [← Nat.add_assoc, hfirst]

theorem Completes.foldlM_cons {σ : Type} {f : σ → α → Trial ε σ} {l : List α} {s next last : σ}
    (hstep : Completes (f s a) next) (hrest : Completes (l.foldlM f next) last) :
    Completes ((a :: l).foldlM f s) last := by
  rw [List.foldlM_cons]
  exact hstep.bind hrest

end Trial

end LayerFs
