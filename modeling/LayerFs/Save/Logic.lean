import LayerFs.Save.Operation

/-!
# Reasoning about a save

* `SaveM.Runs` — **weakest preconditions**: however the store grows in between, a step of the save
  is safe and ends, if it succeeds, at a moment with the stated property.
-/

namespace LayerFs

open List hiding modify

namespace Save

variable {Id Value : Type} [LinearOrder Id] {encoder : Encoder Id Value}
variable {capacities : Capacities} {id x : Id} {ids : List Id}
  {members : SortedMap Id (StoredObject Id Value)}

def sentIds (made : List (Call Id Value)) : List Id :=
  made.flatMap fun call =>
    match call with
    | .publish batch => batch.ids
    | _ => []

/-- One point of the run of a save. -/
structure Moment (encoder : Encoder Id Value) where
  state : State encoder
  made : List (Call Id Value)
  store : Store Id Value

def Moment.sent (now : Moment encoder) : List Id := sentIds now.made

namespace SaveM

variable {α β : Type} {m : SaveM encoder α} {now : Moment encoder}
variable {e : StorageError Id}
  {post : α → Moment encoder → Prop}

/-- **However the store grows in between**, the step keeps it closed, publishes nothing twice, and
ends with `post` if it succeeds. -/
def Runs (m : SaveM encoder α) (now : Moment encoder) (post : α → Moment encoder → Prop) : Prop :=
  Session.Safe Store.Closed (fun made => (sentIds made).Nodup)
    (fun result made store => ∀ a state, result = .ok (a, state) → post a ⟨state, made, store⟩)
    (m now.state) now.made now.store

theorem Runs.mono {post' : α → Moment encoder → Prop} (h : m.Runs now post)
    (hpost : ∀ a later, post a later → post' a later) : m.Runs now post' :=
  Session.Safe.mono h fun _ _ _ hresult a state heq => hpost a _ (hresult a state heq)

theorem Runs.bind {f : α → SaveM encoder β} {post : β → Moment encoder → Prop}
    (h : m.Runs now fun a later => (f a).Runs later post) : (m >>= f).Runs now post := by
  refine Session.Safe.bind (Session.Safe.mono h fun result made store hresult => ?_)
  rcases result with e | ⟨a, state⟩
  · exact fun a state heq => by cases heq
  · exact hresult a state rfl

theorem Runs.pure {a : α} (h : post a now) : (Pure.pure a : SaveM encoder α).Runs now post := by
  intro a' state heq
  cases heq
  exact h

theorem Runs.fail : (SaveM.fail e : SaveM encoder α).Runs now post := by
  intro a state heq
  cases heq

theorem Runs.lift {x : StorageResult Id α} (h : ∀ a, x = .ok a → post a now) :
    (SaveM.lift x : SaveM encoder α).Runs now post := by
  intro a state heq
  rcases x with e | value
  · cases heq
  · cases heq
    exact h _ rfl

theorem Runs.check {condition : Bool} {post : Unit → Moment encoder → Prop}
    (h : condition = true → post () now) :
    (SaveM.check condition e : SaveM encoder Unit).Runs now post :=
  Runs.lift fun _ heq => h (ensure_eq_ok.mp heq)

theorem Runs.get {post : State encoder → Moment encoder → Prop} (h : post now.state now) :
    (SaveM.get : SaveM encoder (State encoder)).Runs now post := by
  intro a state heq
  cases heq
  exact h

theorem Runs.modify {f : State encoder → State encoder} {post : Unit → Moment encoder → Prop}
    (h : post () { now with state := f now.state }) :
    (SaveM.modify f : SaveM encoder Unit).Runs now post := by
  intro a state heq
  cases heq
  exact h

theorem Runs.answer {reply : Except PersistenceError α} (h : ∀ a, reply = .ok a → post a now) :
    (SaveM.answer reply : SaveM encoder α).Runs now post := by
  refine Runs.lift fun a heq => ?_
  rcases reply with e | value
  · cases heq
  · cases heq
    exact h _ rfl

theorem Runs.onPacker {step : Packer Value encoder.framing → ℤ → ℤ →
    StorageResult Id (Packer Value encoder.framing × ℤ)} {post : Unit → Moment encoder → Prop}
    (h : ∀ packer next, step now.state.packer now.state.nextPack now.state.packEnd =
      .ok (packer, next) →
      post () { now with state := { now.state with packer := packer, nextPack := next } }) :
    (SaveM.onPacker step : SaveM encoder Unit).Runs now post := by
  refine Runs.bind (Runs.get (Runs.bind (Runs.lift ?_)))
  rintro ⟨packer, next⟩ heq
  exact Runs.modify (h packer next heq)

theorem Runs.ask {call : Call Id Value} (hquiet : ∀ batch, call ≠ .publish batch)
    (hnodup : now.sent.Nodup) {post : Reply call → Moment encoder → Prop}
    (h : ∀ store reply, now.store ≤ store → store.Closed → Answers store call store reply →
      post reply { now with made := now.made ++ [call], store := store }) :
    (SaveM.ask call : SaveM encoder (Reply call)).Runs now post := by
  have hsent : sentIds (now.made ++ [call]) = sentIds now.made := by
    rw [sentIds, List.flatMap_append, flatMap_singleton]
    cases call with
    | publish batch => exact absurd rfl (hquiet batch)
    | _ => exact append_nil _
  intro store hle hclosed
  refine ⟨?_, fun store' reply hanswer => ?_⟩
  · change (sentIds (now.made ++ [call])).Nodup
    rw [hsent]
    exact hnodup
  · have hsame : store' = store := by
      cases hanswer with
      | publish => exact absurd rfl (hquiet _)
      | unacknowledged => exact absurd rfl (hquiet _)
      | _ => rfl
    subst hsame
    refine ⟨hclosed, le_refl _, fun a state heq => ?_⟩
    cases heq
    exact h _ _ hle hclosed hanswer

/-- **One batch**: its members are supported once it is published, and none was sent before. -/
theorem Runs.publish {batch : Publication Id Value} (hnodup : (now.sent ++ batch.ids).Nodup)
    (hsupports : ∀ store, now.store ≤ store →
      ∀ row ∈ batch.objects, (store.publish batch).Supports row.member)
    {post : Except PersistenceError (List Id) → Moment encoder → Prop}
    (hfailed : ∀ e later, post (.error e) later)
    (h : ∀ store lost, now.store ≤ store → (store.publish batch).Closed →
      post (.ok lost) ⟨now.state, now.made ++ [.publish batch], store.publish batch⟩) :
    (SaveM.ask (.publish batch) : SaveM encoder _).Runs now post := by
  intro store hle hclosed
  have hafter := hclosed.publish (hsupports store hle)
  refine ⟨?_, fun store' reply hanswer => ?_⟩
  · change (sentIds (now.made ++ [.publish batch])).Nodup
    rw [sentIds, List.flatMap_append, flatMap_singleton]
    exact hnodup
  · cases hanswer with
    | publish =>
      refine ⟨hafter, Store.le_publish _ _, fun a state heq => ?_⟩
      cases heq
      exact h store _ hle hafter
    | failed =>
      refine ⟨hclosed, le_refl _, fun a state heq => ?_⟩
      cases heq
      exact hfailed _ _
    | unacknowledged =>
      refine ⟨hafter, Store.le_publish _ _, fun a state heq => ?_⟩
      cases heq
      exact hfailed _ _

-- from here on only the rules are used
attribute [irreducible] Runs

end SaveM

/-! ## Reading -/

/-- **What a read can do**: absence marks are added for objects the store did not hold, and caches
of selection change. -/
structure Reading (now later : Moment encoder) : Prop where
  sent : later.sent = now.sent
  le : now.store ≤ later.store
  closed : now.store.Closed → later.store.Closed
  state : later.state =
    { now.state with absent := later.state.absent, ring := later.state.ring }
  absent : ∀ id ∈ later.state.absent, id ∈ now.state.absent ∨ ¬ now.store.Has id

namespace Reading

variable {now later last : Moment encoder}

theorem refl (now : Moment encoder) : Reading now now :=
  ⟨rfl, le_refl _, fun h => h, rfl, fun _ h => .inl h⟩

theorem trans (h : Reading now later) (h' : Reading later last) : Reading now last := by
  refine ⟨h'.sent.trans h.sent, h.le.trans h'.le, fun hc => h'.closed (h.closed hc), ?_, ?_⟩
  · rw [h'.state, h.state]
  · intro id hid
    rcases h'.absent id hid with hid | hid
    · exact h.absent id hid
    · exact .inr fun hhas => hid (hhas.mono h.le)

theorem packer (h : Reading now later) : later.state.packer = now.state.packer := by
  rw [h.state]

theorem values (h : Reading now later) : later.state.values = now.state.values := by
  rw [h.state]

theorem nodup (h : Reading now later) (hnodup : now.sent.Nodup) : later.sent.Nodup := by
  rw [h.sent]
  exact hnodup

theorem modify {absent : List Id} {ring : encoder.Ring} (h : ∀ id ∈ absent, id ∈ now.state.absent) :
    Reading now { now with state := { now.state with absent := absent, ring := ring } } :=
  ⟨rfl, le_refl _, fun h => h, rfl, fun id hid => .inl (h id hid)⟩

end Reading

open SaveM

variable {now : Moment encoder}

def Moment.Knows (now : Moment encoder) (ordinal : ℕ) : Prop :=
  (now.state.values.get? ordinal).isSome ∨ now.store.HasValue ordinal

theorem Reading.knows {later : Moment encoder} (h : Reading now later) {ordinal : ℕ}
    (hknows : now.Knows ordinal) : later.Knows ordinal := by
  rw [Moment.Knows, h.values]
  exact hknows.imp id fun hvalue => hvalue.mono h.le

end Save

end LayerFs
