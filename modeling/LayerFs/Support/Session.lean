import Mathlib.Data.List.Chain

/-!
# Sessions over a shared store

A client talks to a shared store through a port, one atomic call at a time; between two of its
calls any number of other clients may have made theirs.

* `Session.Safe` — **rely and guarantee**: whatever the others did in between, every call of the
  session keeps the store's invariant and only extends the store, and the calls made keep a
  property of their own.
-/

namespace LayerFs

variable {σ : Type}

/-- The port of a shared store: calls, their replies, and the answers each may get. -/
structure Port (σ : Type) where
  /-- what a client may ask -/
  Call : Type
  /-- what it is told -/
  Reply : Call → Type
  /-- one atomic answer, from the store before to the store after -/
  Answers : σ → (call : Call) → σ → Reply call → Prop

/-- A client as the tree of its calls. -/
inductive Session (port : Port σ) (α : Type) : Type
  /-- the session has ended -/
  | done (value : α)
  /-- one call; the reply selects what follows -/
  | ask (call : port.Call) (next : port.Reply call → Session port α)

namespace Session

variable {port : Port σ} {α β : Type}
variable {session : Session port α} {a : α} {f : α → Session port β}

def bind : Session port α → (α → Session port β) → Session port β
  | .done value, f => f value
  | .ask call next, f => .ask call fun reply => (next reply).bind f

def Follows (later now : Session port α) : Prop :=
  ∃ call next reply, now = .ask call next ∧ later = next reply

/-- **Every session ends**: no sequence of replies keeps one going for ever. -/
theorem ends : WellFounded (Follows : Session port α → Session port α → Prop) := by
  refine ⟨fun session => ?_⟩
  induction session with
  | done value =>
    refine ⟨_, ?_⟩
    rintro later ⟨call, next, reply, hnow, -⟩
    cases hnow
  | ask call next ih =>
    refine ⟨_, ?_⟩
    rintro later ⟨call', next', reply, hnow, rfl⟩
    cases hnow
    exact ih reply

/-! ## Rely and guarantee -/

section Safe

variable [Preorder σ] {I : σ → Prop} {T : List port.Call → Prop}

/-- **A safe session**: from any later store that keeps the invariant `I`, each call is one that
the property `T` of the calls made allows, keeps `I` and extends the store; at the end `Q`
holds. -/
def Safe (I : σ → Prop) (T : List port.Call → Prop) (Q : α → List port.Call → σ → Prop) :
    Session port α → List port.Call → σ → Prop
  | .done value, made, s => Q value made s
  | .ask call next, made, s => ∀ s', s ≤ s' → I s' → T (made ++ [call]) ∧
      ∀ s'' reply, port.Answers s' call s'' reply →
        I s'' ∧ s' ≤ s'' ∧ (next reply).Safe I T Q (made ++ [call]) s''

theorem Safe.mono {Q Q' : α → List port.Call → σ → Prop} :
    ∀ {made : List port.Call} {s : σ}, session.Safe I T Q made s →
      (∀ value made s, Q value made s → Q' value made s) → session.Safe I T Q' made s := by
  induction session with
  | done value => exact fun h hQ => hQ _ _ _ h
  | ask call next ih =>
    intro made s h hQ s' hs hI
    obtain ⟨hT, hnext⟩ := h s' hs hI
    refine ⟨hT, fun s'' reply hanswer => ?_⟩
    obtain ⟨hI', hs', hsafe⟩ := hnext s'' reply hanswer
    exact ⟨hI', hs', ih reply hsafe hQ⟩

theorem Safe.bind {Q : β → List port.Call → σ → Prop} : ∀ {made : List port.Call} {s : σ},
      session.Safe I T (fun value made s => (f value).Safe I T Q made s) made s →
      (session.bind f).Safe I T Q made s := by
  induction session with
  | done value => exact fun h => h
  | ask call next ih =>
    intro made s h s' hs hI
    obtain ⟨hT, hnext⟩ := h s' hs hI
    refine ⟨hT, fun s'' reply hanswer => ?_⟩
    obtain ⟨hI', hs', hsafe⟩ := hnext s'' reply hanswer
    exact ⟨hI', hs', ih reply hsafe⟩

theorem Safe.later {Q : α → List port.Call → σ → Prop}
    (hQ : ∀ value made s s', s ≤ s' → Q value made s → Q value made s') {made : List port.Call}
    {s s' : σ} (h : session.Safe I T Q made s) (hs : s ≤ s') : session.Safe I T Q made s' := by
  cases session with
  | done value => exact hQ value made s s' hs h
  | ask call next => exact fun t ht hI => h t (hs.trans ht) hI

end Safe

/-! ## Replies of a kind -/

section Every

variable {good : port.Call → Prop} {may : (call : port.Call) → port.Reply call → Prop}
  {Q : α → Prop}

/-- Every call is a good one, whatever replies of the kind came before, and `Q` holds at the end. -/
def Every (good : port.Call → Prop) (may : (call : port.Call) → port.Reply call → Prop)
    (Q : α → Prop) : Session port α → Prop
  | .done value => Q value
  | .ask call next => good call ∧ ∀ reply, may call reply → (next reply).Every good may Q

theorem Every.mono {Q' : α → Prop} (h : session.Every good may Q) (hQ : ∀ value, Q value → Q' value) :
    session.Every good may Q' := by
  induction session with
  | done value => exact hQ value h
  | ask call next ih => exact ⟨h.1, fun reply hreply => ih reply (h.2 reply hreply)⟩

theorem every_bind_iff {Q : β → Prop} :
    (session.bind f).Every good may Q ↔
      session.Every good may fun value => (f value).Every good may Q := by
  induction session with
  | done value => exact Iff.rfl
  | ask call next ih => exact and_congr_right fun _ => forall₂_congr fun reply _ => ih reply

/-- A value some replies of the kind lead to. -/
inductive MayEnd (may : (call : port.Call) → port.Reply call → Prop) :
    Session port α → α → Prop
  | done (value : α) : MayEnd may (.done value) value
  | ask {call : port.Call} {next : port.Reply call → Session port α} {reply : port.Reply call}
      {value : α} (hreply : may call reply) (h : MayEnd may (next reply) value) :
      MayEnd may (.ask call next) value

theorem MayEnd.bind {b : β} (h : MayEnd may session a) (hf : MayEnd may (f a) b) :
    MayEnd may (session.bind f) b := by
  induction h with
  | done value => exact hf
  | ask hreply _ ih => exact .ask hreply (ih hf)

theorem Every.of_mayEnd (h : session.Every good may Q) (hends : MayEnd may session a) : Q a := by
  induction hends with
  | done value => exact h
  | ask hreply _ ih => exact ih (h.2 _ hreply)

end Every

end Session

/-! ## Systems of sessions -/

/-- Any number of sessions over one store, with the calls each has made. -/
structure System (port : Port σ) (ι α : Type) where
  store : σ
  session : ι → Session port α
  made : ι → List port.Call

namespace System

variable {port : Port σ} {ι α : Type} [DecidableEq ι]

/-- One call of one session. -/
inductive Step : System port ι α → System port ι α → Prop
  | answer {system : System port ι α} {i : ι} {call : port.Call}
      {next : port.Reply call → Session port α} {store : σ} {reply : port.Reply call}
      (hcall : system.session i = .ask call next)
      (hanswer : port.Answers system.store call store reply) :
      Step system ⟨store, Function.update system.session i (next reply),
        Function.update system.made i (system.made i ++ [call])⟩

def Reaches (start system : System port ι α) : Prop := Relation.ReflTransGen Step start system

/-- All sessions are safe, and so are the calls they have made. -/
structure AllSafe [Preorder σ] (I : σ → Prop) (T : List port.Call → Prop)
    (Q : ι → α → List port.Call → σ → Prop) (system : System port ι α) : Prop where
  invariant : I system.store
  made : ∀ i, T (system.made i)
  session : ∀ i, (system.session i).Safe I T (Q i) (system.made i) system.store

variable [Preorder σ] {I : σ → Prop} {T : List port.Call → Prop}
  {Q : ι → α → List port.Call → σ → Prop} {start system system' : System port ι α}

theorem AllSafe.step (hQ : ∀ i value made s s', s ≤ s' → Q i value made s → Q i value made s')
    (h : AllSafe I T Q system) (hstep : Step system system') : AllSafe I T Q system' := by
  cases hstep with
  | @answer i call next store reply hcall hanswer =>
    have hsafe := h.session i
    rw [hcall] at hsafe
    obtain ⟨hT, hnext⟩ := hsafe system.store (le_refl _) h.invariant
    obtain ⟨hI, hle, hafter⟩ := hnext _ _ hanswer
    refine ⟨hI, fun j => ?_, fun j => ?_⟩ <;> dsimp only
    · by_cases hj : j = i
      · subst hj
        rw [Function.update_self]
        exact hT
      · rw [Function.update_of_ne hj]
        exact h.made j
    · by_cases hj : j = i
      · subst hj
        rw [Function.update_self, Function.update_self]
        exact hafter
      · rw [Function.update_of_ne hj, Function.update_of_ne hj]
        exact (h.session j).later (hQ j) hle

/-- **Safe sessions stay safe together**, in every interleaving. -/
theorem AllSafe.reaches (hQ : ∀ i value made s s', s ≤ s' → Q i value made s → Q i value made s')
    (h : AllSafe I T Q start) (hreaches : Reaches start system) : AllSafe I T Q system := by
  induction hreaches with
  | refl => exact h
  | tail _ hstep ih => exact ih.step hQ hstep

end System

end LayerFs
