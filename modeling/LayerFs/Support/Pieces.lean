import Mathlib.Data.List.Chain

/-!
# Sequences cut behind every separator, and callbacks that may stop

A sequence is read as pieces that each end with the separator, and an open piece behind the last
one. A callback is given items in order until it stops or refuses.

* `pieces_append` — **a cut at a piece's end** splits the pieces.
-/

namespace LayerFs.Pieces

open List

variable {α : Type*} [DecidableEq α]
variable {l : List α} (t : List α)

/-! ## Pieces -/

/-- The pieces so far and the open one. -/
structure Split (α : Type*) where
  closed : List (List α)
  opened : List α

def push (sep : α) (s : Split α) (b : α) : Split α :=
  if b = sep then ⟨s.closed ++ [s.opened ++ [b]], []⟩ else ⟨s.closed, s.opened ++ [b]⟩

def pushAll (sep : α) (s : Split α) (t : List α) : Split α := t.foldl (push sep) s

def split (sep : α) (t : List α) : Split α := pushAll sep ⟨[], []⟩ t

/-- The pieces of a sequence, the open one last unless it is empty. -/
def pieces (sep : α) (t : List α) : List (List α) :=
  (split sep t).closed ++ if (split sep t).opened = [] then [] else [(split sep t).opened]

variable {sep : α}

theorem pushAll_append (s : Split α) (a b : List α) :
    pushAll sep s (a ++ b) = pushAll sep (pushAll sep s a) b := foldl_append

theorem split_append (a b : List α) : split sep (a ++ b) = pushAll sep (split sep a) b :=
  pushAll_append _ a b

theorem pushAll_of_not_mem {s : Split α} {t : List α} (h : sep ∉ t) :
    pushAll sep s t = ⟨s.closed, s.opened ++ t⟩ := by
  induction t generalizing s with
  | nil => simp [pushAll]
  | cons b t ih =>
    obtain ⟨hb, ht⟩ : sep ≠ b ∧ sep ∉ t := by simpa using h
    have hstep : pushAll sep s (b :: t) = pushAll sep (push sep s b) t := rfl
    rw [hstep, ih ht, push, if_neg (Ne.symm hb)]
    simp

theorem pushAll_line {s : Split α} {t : List α} (h : sep ∉ t) :
    pushAll sep s (t ++ [sep]) = ⟨s.closed ++ [s.opened ++ (t ++ [sep])], []⟩ := by
  rw [pushAll_append, pushAll_of_not_mem h]
  have hstep : pushAll sep ⟨s.closed, s.opened ++ t⟩ [sep]
      = push sep ⟨s.closed, s.opened ++ t⟩ sep := rfl
  rw [hstep, push, if_pos rfl]
  simp

theorem pushAll_closed (sep : α) (C : List (List α)) (o t : List α) :
    pushAll sep ⟨C, o⟩ t =
      ⟨C ++ (pushAll sep ⟨[], o⟩ t).closed, (pushAll sep ⟨[], o⟩ t).opened⟩ := by
  induction t using List.reverseRecOn with
  | nil => simp [pushAll]
  | append_singleton t b ih =>
    rw [pushAll_append, pushAll_append, ih]
    generalize pushAll sep ⟨[], o⟩ t = r
    change push sep _ b = ⟨C ++ (push sep r b).closed, (push sep r b).opened⟩
    by_cases hb : b = sep
    · simp [push, hb]
    · simp [push, hb]

theorem pushAll_append_closed (o a b : List α) :
    (pushAll sep ⟨[], o⟩ (a ++ b)).closed = (pushAll sep ⟨[], o⟩ a).closed ++
      (pushAll sep ⟨[], (pushAll sep ⟨[], o⟩ a).opened⟩ b).closed := by
  rw [pushAll_append, pushAll_closed sep (pushAll sep ⟨[], o⟩ a).closed]

theorem length_pushAll (s : Split α) (t : List α) :
    (pushAll sep s t).closed.length = s.closed.length + t.count sep := by
  induction t generalizing s with
  | nil => rfl
  | cons b t ih =>
    change (pushAll sep (push sep s b) t).closed.length = _
    rw [ih, push]
    split_ifs with hb
    · simp [hb]
      omega
    · simp [hb]

theorem pushAll_concat_opened (s : Split α) (t : List α) :
    (pushAll sep s (t ++ [sep])).opened = [] := by
  rw [pushAll_append]
  change (push sep _ sep).opened = []
  rw [push, if_pos rfl]

theorem opened_eq_nil_iff {t : List α} :
    (split sep t).opened = [] ↔ t = [] ∨ ∃ body, t = body ++ [sep] := by
  constructor
  · intro h
    rcases eq_nil_or_concat t with rfl | ⟨body, b, rfl⟩
    · exact .inl rfl
    · rw [concat_eq_append] at h ⊢
      rw [split_append] at h
      change (push sep _ b).opened = [] at h
      rw [push] at h
      split_ifs at h with hb
      · exact .inr ⟨body, by rw [hb]⟩
      · simp at h
  · rintro (rfl | ⟨body, rfl⟩)
    · rfl
    · exact pushAll_concat_opened _ body

/-- **A cut at a piece's end** splits the pieces. -/
theorem split_append_of_closed {a : List α} (h : (split sep a).opened = []) (b : List α) :
    split sep (a ++ b) = ⟨(split sep a).closed ++ (split sep b).closed, (split sep b).opened⟩ := by
  have hsplit : split sep a = ⟨(split sep a).closed, []⟩ := by rw [← h]
  rw [split_append, hsplit, pushAll_closed]
  rfl

theorem pieces_append {a : List α} (h : (split sep a).opened = []) (b : List α) :
    pieces sep (a ++ b) = pieces sep a ++ pieces sep b := by
  rw [pieces, split_append_of_closed h, pieces, pieces, h]
  simp [append_assoc]

theorem split_join (sep : α) (t : List α) : (split sep t).closed.flatten ++ (split sep t).opened = t := by
  induction t using List.reverseRecOn with
  | nil => rfl
  | append_singleton t b ih =>
    rw [split_append]
    change (push sep _ b).closed.flatten ++ (push sep _ b).opened = _
    rw [push]
    split_ifs
    · rw [flatten_append, append_nil, flatten_singleton, ← append_assoc, ih]
    · rw [← append_assoc, ih]

theorem not_mem_opened : sep ∉ (split sep t).opened := by
  induction t using List.reverseRecOn with
  | nil => simp [split, pushAll]
  | append_singleton t b ih =>
    rw [split_append]
    change sep ∉ (push sep _ b).opened
    rw [push]
    split_ifs with hb
    · simp
    · simp [ih, Ne.symm hb]

theorem closed_line {t : List α} (h : l ∈ (split sep t).closed) :
    ∃ body, l = body ++ [sep] ∧ sep ∉ body := by
  induction t using List.reverseRecOn with
  | nil => simp [split, pushAll] at h
  | append_singleton t b ih =>
    rw [split_append] at h
    change l ∈ (push sep _ b).closed at h
    rw [push] at h
    split_ifs at h with hb
    · rcases mem_append.1 h with h | h
      · exact ih h
      · obtain rfl := mem_singleton.1 h
        exact ⟨_, by rw [hb], not_mem_opened t⟩
    · exact ih h

theorem ne_nil_of_mem_pieces {t : List α} (h : l ∈ pieces sep t) : l ≠ [] := by
  rw [pieces, mem_append] at h
  rcases h with h | h
  · obtain ⟨body, rfl, -⟩ := closed_line h
    simp
  · split_ifs at h with ho
    · cases h
    · rw [mem_singleton.1 h]
      exact ho

theorem split_flatten {ls : List (List α)} {o : List α}
    (hls : ∀ l ∈ ls, ∃ body, l = body ++ [sep] ∧ sep ∉ body) (ho : sep ∉ o) :
    split sep (ls.flatten ++ o) = ⟨ls, o⟩ := by
  induction ls with
  | nil => exact pushAll_of_not_mem ho
  | cons l ls ih =>
    obtain ⟨body, rfl, hbody⟩ := hls l mem_cons_self
    have hline : split sep (body ++ [sep]) = ⟨[body ++ [sep]], []⟩ := by
      rw [split, pushAll_line hbody]
      simp
    rw [flatten_cons, append_assoc, split_append_of_closed (by rw [hline]), hline,
      ih (fun l hl => hls l (mem_cons_of_mem _ hl))]
    rfl

theorem split_take_closed (k : ℕ) :
    split sep ((split sep t).closed.take k).flatten = ⟨(split sep t).closed.take k, []⟩ := by
  have h : split sep (((split sep t).closed.take k).flatten ++ []) = _ :=
    split_flatten (fun l hl => closed_line (mem_of_mem_take hl)) (by simp)
  rwa [append_nil] at h

theorem pieces_join (sep : α) (t : List α) : (pieces sep t).flatten = t := by
  rw [pieces]
  split_ifs with ho
  · have := split_join sep t
    rwa [ho, append_nil, ← append_nil (split sep t).closed] at this
  · rw [flatten_append]
    simpa using split_join sep t

/-! ## Callbacks -/

variable {β τ ε : Type*}

def deliver (visit : τ → β → Except ε Bool × τ) : List β → τ → Except ε Bool × τ
  | [], s => (.ok true, s)
  | b :: rest, s =>
    match visit s b with
    | (.ok true, s) => deliver visit rest s
    | r => r

def thenDeliver (r : Except ε Bool × τ) (next : τ → Except ε Bool × τ) : Except ε Bool × τ :=
  match r with
  | (.ok true, s) => next s
  | r => r

variable (visit : τ → β → Except ε Bool × τ)

omit [DecidableEq α] in
theorem deliver_cons (b : β) (rest : List β) (s : τ) :
    deliver visit (b :: rest) s = thenDeliver (visit s b) (deliver visit rest) := rfl

omit [DecidableEq α] in
theorem thenDeliver_assoc (r : Except ε Bool × τ) (f g : τ → Except ε Bool × τ) :
    thenDeliver (thenDeliver r f) g = thenDeliver r (fun s => thenDeliver (f s) g) := by
  obtain ⟨_ | _ | _, s⟩ := r <;> rfl

omit [DecidableEq α] in
theorem deliver_eq_foldl {visit : τ → β → Except ε Bool × τ} {f : τ → β → τ}
    (h : ∀ s b, visit s b = (.ok true, f s b)) (l : List β) (s : τ) :
    deliver visit l s = (.ok true, l.foldl f s) := by
  induction l generalizing s with
  | nil => rfl
  | cons b l ih =>
    rw [deliver_cons, h]
    exact ih (f s b)

omit [DecidableEq α] in
theorem deliver_append (a b : List β) (s : τ) :
    deliver visit (a ++ b) s = thenDeliver (deliver visit a s) (deliver visit b) := by
  induction a generalizing s with
  | nil => rfl
  | cons c a ih =>
    rw [cons_append, deliver_cons, deliver_cons, thenDeliver_assoc]
    congr 1
    funext s
    exact ih s

end LayerFs.Pieces
