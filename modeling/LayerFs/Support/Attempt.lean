import Mathlib.Data.List.Chain

/-!
# Steps that may fail half-way

A step on a state that stays behind as it is when the step fails: what was done before the failure
is not taken back.

* `Attempt` — the steps, in sequence, on a part of a state, and with a last act.
-/

namespace LayerFs

variable {σ τ ε α β : Type}
variable {Q' : α → σ → Prop} {e : ε} {E' : ε → σ → Prop} {put : σ → τ → σ} (a : α)

def Attempt (σ ε α : Type) : Type := σ → Except ε α × σ

namespace Attempt

instance : Monad (Attempt σ ε) where
  pure a := fun s => (.ok a, s)
  bind m f := fun s =>
    match m s with
    | (.ok a, s) => f a s
    | (.error e, s) => (.error e, s)

def fail (e : ε) : Attempt σ ε α := fun s => (.error e, s)

def lift (x : Except ε α) : Attempt σ ε α := fun s => (x, s)

/-- Refuses with `e` unless the check holds. -/
def check (condition : Bool) (e : ε) : Attempt σ ε Unit :=
  if condition then pure () else fail e

/-- The value of an option, or the refusal `e`. -/
def demand (o : Option α) (e : ε) : Attempt σ ε α :=
  match o with
  | some a => pure a
  | none => fail e

def get : Attempt σ ε σ := fun s => (.ok s, s)

def modify (f : σ → σ) : Attempt σ ε Unit := fun s => (.ok (), f s)

def on (part : σ → τ) (put : σ → τ → σ) (m : Attempt τ ε α) : Attempt σ ε α := fun s =>
  ((m (part s)).1, put s (m (part s)).2)

def closing (last : σ → σ) (m : Attempt σ ε α) : Attempt σ ε α := fun s => ((m s).1, last (m s).2)

theorem bind_assoc {γ : Type} (m : Attempt σ ε α) (f : α → Attempt σ ε β)
    (g : β → Attempt σ ε γ) : m >>= f >>= g = m >>= fun a => f a >>= g := by
  funext s
  have hbind : ∀ {α β : Type} (m : Attempt σ ε α) (f : α → Attempt σ ε β), (m >>= f) s =
      match m s with
      | (.ok a, s) => f a s
      | (.error e, s) => (.error e, s) := fun _ _ => rfl
  rw [hbind, hbind, hbind]
  rcases m s with ⟨e | a, later⟩
  · rfl
  · rfl

theorem pure_bind (f : α → Attempt σ ε β) : (pure a : Attempt σ ε α) >>= f = f a := rfl

/-! ## What a step ensures -/

variable {m : Attempt σ ε α} {s : σ} {Q : α → σ → Prop} {E : ε → σ → Prop}

/-- `Q` holds after a success and `E` after a failure. -/
def Ensures (m : Attempt σ ε α) (s : σ) (Q : α → σ → Prop) (E : ε → σ → Prop) : Prop :=
  match m s with
  | (.ok a, later) => Q a later
  | (.error e, later) => E e later

theorem Ensures.of_ok (h : Ensures m s Q E) {a : α} {later : σ} (hm : m s = (.ok a, later)) :
    Q a later := by
  rwa [Ensures, hm] at h

theorem Ensures.of_error (h : Ensures m s Q E) {later : σ} (hm : m s = (.error e, later)) :
    E e later := by
  rwa [Ensures, hm] at h

theorem Ensures.later {P : σ → Prop} (h : Ensures m s (fun _ => P) fun _ => P) : P (m s).2 := by
  rw [Ensures] at h
  generalize m s = out at h ⊢
  obtain ⟨e | a, later⟩ := out
  · exact h
  · exact h

theorem ensures_of_forall (hok : ∀ a later, m s = (.ok a, later) → Q a later)
    (herror : ∀ e later, m s = (.error e, later) → E e later) : Ensures m s Q E := by
  rw [Ensures]
  rcases hm : m s with ⟨e | a, later⟩
  · exact herror e later hm
  · exact hok a later hm

theorem Ensures.mono (h : Ensures m s Q E) (hQ : ∀ a later, Q a later → Q' a later)
    (hE : ∀ e later, E e later → E' e later) : Ensures m s Q' E' :=
  ensures_of_forall (fun a later hm => hQ a later (h.of_ok hm)) fun e later hm =>
    hE e later (h.of_error hm)

theorem Ensures.mono_ok (h : Ensures m s Q E) (hQ : ∀ a later, Q a later → Q' a later) :
    Ensures m s Q' E :=
  h.mono hQ fun _ _ he => he

theorem Ensures.and (h : Ensures m s Q E) (h' : Ensures m s Q' E') :
    Ensures m s (fun a later => Q a later ∧ Q' a later) fun e later => E e later ∧ E' e later :=
  ensures_of_forall (fun _ _ hm => ⟨h.of_ok hm, h'.of_ok hm⟩) fun _ _ hm =>
    ⟨h.of_error hm, h'.of_error hm⟩

theorem ensures_self : Ensures m s (fun a later => m s = (.ok a, later))
    fun e later => m s = (.error e, later) :=
  ensures_of_forall (fun _ _ hm => hm) fun _ _ hm => hm

variable {f : α → Attempt σ ε β}

theorem ensures_bind_iff {Q : β → σ → Prop} :
    Ensures (m >>= f) s Q E ↔ Ensures m s (fun a later => Ensures (f a) later Q E) E := by
  have hbind : (m >>= f) s = match m s with
      | (.ok a, s) => f a s
      | (.error e, s) => (.error e, s) := rfl
  rw [Ensures, Ensures, hbind]
  rcases m s with ⟨e | a, later⟩
  · exact Iff.rfl
  · exact Iff.rfl

theorem Ensures.bind {Q' : β → σ → Prop} (h : Ensures m s Q E)
    (hf : ∀ a later, Q a later → Ensures (f a) later Q' E) : Ensures (m >>= f) s Q' E :=
  ensures_bind_iff.mpr (h.mono_ok hf)

theorem ensures_pure_iff {a : α} : Ensures (Pure.pure a : Attempt σ ε α) s Q E ↔ Q a s := Iff.rfl

theorem ensures_get_iff {Q : σ → σ → Prop} : Ensures (get : Attempt σ ε σ) s Q E ↔ Q s s := Iff.rfl

theorem ensures_modify_iff {f : σ → σ} {Q : Unit → σ → Prop} :
    Ensures (modify f : Attempt σ ε Unit) s Q E ↔ Q () (f s) := Iff.rfl

theorem Ensures.lift {x : Except ε α} (hok : ∀ a, x = .ok a → Q a s)
    (herror : ∀ e, x = .error e → E e s) : Ensures (lift x : Attempt σ ε α) s Q E := by
  cases x with
  | ok a => exact hok a rfl
  | error e => exact herror e rfl

theorem Ensures.check {condition : Bool} {Q : Unit → σ → Prop} (hok : condition = true → Q () s)
    (herror : condition = false → E e s) :
    Ensures (check condition e : Attempt σ ε Unit) s Q E := by
  cases condition with
  | true => exact hok rfl
  | false => exact herror rfl

theorem Ensures.demand {o : Option α} (hok : ∀ a, o = some a → Q a s) (herror : o = none → E e s) :
    Ensures (demand o e : Attempt σ ε α) s Q E := by
  cases o with
  | some a => exact hok a rfl
  | none => exact herror rfl

theorem ensures_on_iff {part : σ → τ} {m : Attempt τ ε α} :
    Ensures (on part put m) s Q E ↔
      Ensures m (part s) (fun a t => Q a (put s t)) fun e t => E e (put s t) := by
  rw [Ensures, Ensures, on]
  rcases m (part s) with ⟨e | a, later⟩
  · exact Iff.rfl
  · exact Iff.rfl

theorem ensures_closing_iff {last : σ → σ} :
    Ensures (closing last m) s Q E ↔
      Ensures m s (fun a later => Q a (last later)) fun e later => E e (last later) := by
  rw [Ensures, Ensures, closing]
  rcases m s with ⟨e | a, later⟩
  · exact Iff.rfl
  · exact Iff.rfl

/-! ## What a step leaves as it is -/

/-- The step leaves a part of the state as it is, whether it fails or not. -/
def Keeps {ρ : Type} (part : σ → ρ) (m : Attempt σ ε α) : Prop := ∀ s, part (m s).2 = part s

variable {ρ : Type} {part : σ → ρ}

theorem keeps_pure : Keeps part (Pure.pure a : Attempt σ ε α) := fun _ => rfl

theorem keeps_get : Keeps part (get : Attempt σ ε σ) := fun _ => rfl

theorem keeps_lift (x : Except ε α) : Keeps part (lift x : Attempt σ ε α) := fun _ => rfl

theorem keeps_check (condition : Bool) (e : ε) :
    Keeps part (check condition e : Attempt σ ε Unit) := by
  cases condition with
  | true => exact fun _ => rfl
  | false => exact fun _ => rfl

theorem keeps_demand (o : Option α) (e : ε) : Keeps part (demand o e : Attempt σ ε α) := by
  cases o with
  | some a => exact fun _ => rfl
  | none => exact fun _ => rfl

theorem keeps_modify {f : σ → σ} (h : ∀ s, part (f s) = part s) :
    Keeps part (modify f : Attempt σ ε Unit) := h

theorem Keeps.bind (h : Keeps part m) (hf : ∀ a, Keeps part (f a)) : Keeps part (m >>= f) := by
  intro s
  have hbind : (m >>= f) s = match m s with
      | (.ok a, s) => f a s
      | (.error e, s) => (.error e, s) := rfl
  have hfirst := h s
  rw [hbind]
  generalize m s = out at hfirst ⊢
  obtain ⟨e | a, later⟩ := out
  · exact hfirst
  · exact (hf a later).trans hfirst

/-- A step on a part of the state leaves what is read off another part as it is, when it leaves its
own part so far as it is. -/
theorem Keeps.on {ι : Type} (inner : τ → ι) {own : σ → τ} {m : Attempt τ ε α} (h : Keeps inner m)
    (hput : ∀ s t, inner t = inner (own s) → part (put s t) = part s) :
    Keeps part (on own put m) := fun s => hput s _ (h (own s))

end Attempt

end LayerFs
