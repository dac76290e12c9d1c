import Mathlib.Data.Finset.Card

/-!
# Walks: windows, queue walks and upward climbs

* `windows` — a pass that buffers rows and hands them on when the buffer is full.
-/

namespace LayerFs

open List

variable {α : Type}

/-! ## Windows -/

/-- Buffers rows behind `buffer`; a buffer of `n` rows is a window, and so is a last shorter
one. -/
def windows (n : ℕ) : List α → List α → List (List α)
  | [], [] => []
  | buffer, [] => [buffer]
  | buffer, a :: rest =>
    if buffer.length + 1 = n then (buffer ++ [a]) :: windows n [] rest
    else windows n (buffer ++ [a]) rest

theorem flatten_windows {n : ℕ} {l : List α} :
    ∀ {buffer : List α}, (windows n buffer l).flatten = buffer ++ l := by
  induction l with
  | nil =>
    intro buffer
    cases buffer <;> simp [windows]
  | cons a rest ih =>
    intro buffer
    have hstep : windows n buffer (a :: rest)
        = if buffer.length + 1 = n then (buffer ++ [a]) :: windows n [] rest
          else windows n (buffer ++ [a]) rest := by
      cases buffer <;> rfl
    rw [hstep]
    split_ifs
    · simp [ih]
    · simp [ih]

/-! ## Queue walks over a forest -/

/-- What a queue walk from `start` has visited, and what waits. -/
structure Frontier (child : α → α → Prop) (start visited queue : List α) : Prop where
  nodup : (visited ++ queue).Nodup
  /-- everything listed is a start or a child of a visited node -/
  origin : ∀ x ∈ visited ++ queue, x ∈ start ∨ ∃ d ∈ visited, child d x
  starts : ∀ x ∈ start, x ∈ visited ++ queue
  /-- no child of a visited node is missing -/
  closed : ∀ d ∈ visited, ∀ x, child d x → x ∈ visited ++ queue
  /-- everything listed lies below a start -/
  below : ∀ x ∈ visited ++ queue, ∃ s ∈ start, Relation.ReflTransGen child s x

namespace Frontier

variable {child : α → α → Prop} {start visited queue : List α} {d : α}

theorem init (h : start.Nodup) : Frontier child start [] start where
  nodup := by simpa using h
  origin := fun x hx => .inl (by simpa using hx)
  starts := fun x hx => by simpa using hx
  closed := fun d hd => by simp at hd
  below := fun x hx => ⟨x, by simpa using hx, .refl⟩

/-- **One turn of the queue.** In a forest the children of the next node are new: none is a
start, and the only node they are children of is this one. -/
theorem pop (h : Frontier child start visited (d :: queue)) {children : List α}
    (hnodup : children.Nodup) (hmem : ∀ x, x ∈ children ↔ child d x)
    (hparent : ∀ e x, child d x → child e x → d = e) (hstart : ∀ x ∈ start, ¬ child d x) :
    Frontier child start (visited ++ [d]) (queue ++ children) := by
  have hd : d ∉ visited := by
    intro hin
    have := h.nodup
    rw [nodup_append] at this
    exact this.2.2 d hin d (by simp) rfl
  have hnew : ∀ x ∈ children, x ∉ visited ++ d :: queue := by
    intro x hx hin
    have hchild := (hmem x).mp hx
    rcases h.origin x hin with hs | ⟨e, he, hex⟩
    · exact hstart x hs hchild
    · exact hd (hparent e x hchild hex ▸ he)
  have hlist : visited ++ [d] ++ (queue ++ children) = (visited ++ d :: queue) ++ children := by
    simp
  refine ⟨?_, ?_, ?_, ?_, ?_⟩
  · rw [hlist, nodup_append]
    exact ⟨h.nodup, hnodup, fun a ha b hb hab => hnew b hb (hab ▸ ha)⟩
  · intro x hx
    rw [hlist, mem_append] at hx
    rcases hx with hx | hx
    · rcases h.origin x hx with hs | ⟨e, he, hex⟩
      · exact .inl hs
      · exact .inr ⟨e, by simp [he], hex⟩
    · exact .inr ⟨d, by simp, (hmem x).mp hx⟩
  · intro x hx
    rw [hlist]
    exact mem_append_left _ (h.starts x hx)
  · intro e he x hex
    rw [hlist]
    rcases mem_append.mp he with he | he
    · exact mem_append_left _ (h.closed e he x hex)
    · rw [mem_singleton.mp he] at hex
      exact mem_append_right _ ((hmem x).mpr hex)
  · intro x hx
    rw [hlist, mem_append] at hx
    rcases hx with hx | hx
    · exact h.below x hx
    · obtain ⟨s, hs, hsd⟩ := h.below d (by simp)
      exact ⟨s, hs, hsd.tail ((hmem x).mp hx)⟩

/-- **A finished walk visited everything below its starts.** -/
theorem visits (h : Frontier child start visited []) {s x : α} (hs : s ∈ start)
    (hx : Relation.ReflTransGen child s x) : x ∈ visited := by
  induction hx with
  | refl => simpa using h.starts s hs
  | tail _ hstep ih => simpa using h.closed _ ih _ hstep

end Frontier

theorem length_le_of_nodup_subset {a b : List α} (ha : a.Nodup) (h : a ⊆ b) :
    a.length ≤ b.length :=
  (subperm_of_subset ha h).length_le

/-! ## Upward climbs -/

/-- One step of an upward walk. -/
inductive Step (α : Type) where
  /-- continue here -/
  | up (parent : α)
  /-- the walk is proven -/
  | rooted
  /-- nothing holds the walk -/
  | dropped
  deriving DecidableEq, Repr

variable {step : α → Step α} {a b : α} {n m : ℕ}

/-- The walk from `a` is proven after exactly `n` upward steps. -/
def ClimbsIn (step : α → Step α) : ℕ → α → Prop
  | 0, a => step a = .rooted
  | n + 1, a => ∃ b, step a = .up b ∧ ClimbsIn step n b

/-- The walk from `a` is proven. -/
def Climbs (step : α → Step α) (a : α) : Prop := ∃ n, ClimbsIn step n a

theorem climbs_of_rooted (h : step a = .rooted) : Climbs step a := ⟨0, h⟩

theorem climbs_up (h : step a = .up b) : Climbs step a ↔ Climbs step b := by
  refine ⟨?_, fun ⟨n, hn⟩ => ⟨n + 1, b, h, hn⟩⟩
  rintro ⟨n, hn⟩
  cases n with
  | zero => exact absurd (h.symm.trans hn) (by simp)
  | succ n =>
    obtain ⟨c, hc, hn⟩ := hn
    cases h.symm.trans hc
    exact ⟨n, hn⟩

theorem not_climbs_of_dropped (h : step a = .dropped) : ¬ Climbs step a := by
  rintro ⟨n, hn⟩
  cases n with
  | zero => exact absurd (h.symm.trans hn) (by simp)
  | succ n =>
    obtain ⟨c, hc, -⟩ := hn
    exact absurd (h.symm.trans hc) (by simp)

theorem ClimbsIn.unique (h : ClimbsIn step n a) (h' : ClimbsIn step m a) : n = m := by
  induction n generalizing a m with
  | zero =>
    cases m with
    | zero => rfl
    | succ m =>
      obtain ⟨b, hb, -⟩ := h'
      exact absurd (hb.symm.trans h) (by simp)
  | succ n ih =>
    obtain ⟨b, hb, hn⟩ := h
    cases m with
    | zero => exact absurd (hb.symm.trans h') (by simp)
    | succ m =>
      obtain ⟨c, hc, hm⟩ := h'
      cases hb.symm.trans hc
      rw [ih hn hm]

/-- **The length of a proven walk.** When every stop that is not a hub is followed by a hub, a
proven walk makes at most two steps per hub, and one more. -/
theorem ClimbsIn.le_of_hubs {hubs : List α}
    (hhub : ∀ a b, step a = .up b → a ∉ hubs → b ∈ hubs) (h : ClimbsIn step n a) :
    n ≤ 2 * hubs.length + 1 := by
  -- the hubs met on the way are distinct: each has its own distance to the end
  have key : ∀ n a, ClimbsIn step n a → ∃ met : List α, met.Nodup ∧ met ⊆ hubs ∧
      (∀ x ∈ met, ∃ k ≤ n, ClimbsIn step k x) ∧ n ≤ 2 * met.length + 1 ∧
      (a ∈ hubs → n ≤ 2 * met.length) := by
    intro n
    induction n with
    | zero => exact fun a _ => ⟨[], by simp⟩
    | succ n ih =>
      rintro a ⟨b, hab, hn⟩
      obtain ⟨met, hnodup, hsub, hdist, hlen, hlenhub⟩ := ih b hn
      by_cases ha : a ∈ hubs
      · refine ⟨a :: met, nodup_cons.mpr ⟨fun hin => ?_, hnodup⟩, ?_, ?_, ?_, ?_⟩
        · obtain ⟨k, hk, hka⟩ := hdist a hin
          have hna : ClimbsIn step (n + 1) a := ⟨b, hab, hn⟩
          have := hka.unique hna
          omega
        · exact cons_subset.mpr ⟨ha, hsub⟩
        · rintro x (_ | ⟨_, hx⟩)
          · exact ⟨n + 1, Nat.le_refl _, b, hab, hn⟩
          · obtain ⟨k, hk, hkx⟩ := hdist x hx
            exact ⟨k, by omega, hkx⟩
        · simp only [length_cons]
          omega
        · simp only [length_cons]
          omega
      · have hb := hlenhub (hhub a b hab ha)
        refine ⟨met, hnodup, hsub, fun x hx => ?_, by omega, fun hin => absurd hin ha⟩
        obtain ⟨k, hk, hkx⟩ := hdist x hx
        exact ⟨k, by omega, hkx⟩
  obtain ⟨met, hnodup, hsub, -, hlen, -⟩ := key n a h
  have := length_le_of_nodup_subset hnodup hsub
  omega

def withMarks (mark : α → Bool) (step : α → Step α) (a : α) : Step α :=
  if mark a then .rooted else step a

theorem ClimbsIn.withMarks {mark : α → Bool} (h : ClimbsIn step n a) :
    ∃ k ≤ n, ClimbsIn (LayerFs.withMarks mark step) k a := by
  induction n generalizing a with
  | zero =>
    refine ⟨0, Nat.le_refl _, ?_⟩
    rw [ClimbsIn, LayerFs.withMarks]
    split_ifs
    · rfl
    · exact h
  | succ n ih =>
    obtain ⟨b, hb, hn⟩ := h
    by_cases hmark : mark a
    · exact ⟨0, by omega, by simp [ClimbsIn, LayerFs.withMarks, hmark]⟩
    · obtain ⟨k, hk, hkb⟩ := ih hn
      exact ⟨k + 1, by omega, b, by simp [LayerFs.withMarks, hmark, hb], hkb⟩

theorem climbs_of_withMarks {mark : α → Bool} (hmark : ∀ x, mark x → Climbs step x)
    (h : ClimbsIn (withMarks mark step) n a) : Climbs step a := by
  induction n generalizing a with
  | zero =>
    rw [ClimbsIn, withMarks] at h
    split_ifs at h with ha
    · exact hmark a ha
    · exact climbs_of_rooted h
  | succ n ih =>
    obtain ⟨b, hb, hn⟩ := h
    rw [withMarks] at hb
    split_ifs at hb
    exact (climbs_up hb).mpr (ih hn)

/-- The bounded walk: proven within `limit` steps. -/
def climb (step : α → Step α) : ℕ → α → Bool
  | 0, a => (step a matches .rooted)
  | limit + 1, a =>
    match step a with
    | .rooted => true
    | .dropped => false
    | .up b => climb step limit b

theorem climb_iff {limit : ℕ} : climb step limit a = true ↔ ∃ k ≤ limit, ClimbsIn step k a := by
  induction limit generalizing a with
  | zero =>
    rw [climb]
    cases h : step a <;> simp [ClimbsIn, h]
  | succ limit ih =>
    rw [climb]
    cases h : step a with
    | rooted => exact ⟨fun _ => ⟨0, by omega, h⟩, fun _ => rfl⟩
    | dropped =>
      refine ⟨by simp, ?_⟩
      rintro ⟨k, -, hk⟩
      exact absurd ⟨k, hk⟩ (not_climbs_of_dropped h)
    | up b =>
      rw [ih]
      refine ⟨fun ⟨k, hk, hb⟩ => ⟨k + 1, by omega, b, h, hb⟩, ?_⟩
      rintro ⟨_ | k, hk, ha⟩
      · exact absurd (h.symm.trans ha) (by simp)
      · obtain ⟨c, hc, hkc⟩ := ha
        cases h.symm.trans hc
        exact ⟨k, by omega, hkc⟩

end LayerFs
