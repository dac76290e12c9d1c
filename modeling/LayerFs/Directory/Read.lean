import LayerFs.Sorted.Order

/-!
# Bounded, resumable directory listing (`filesystem/directory/read.rs`)

`listAfter` is one bounded window of a listing: an in-order walk of the page graph that
skips every subtree whose recorded maximum is not past the cursor, and stops at the first
row that exceeds the entry or byte bound. The source's explicit stack pops children left to
right, so the walk here is the recursion over the graph; `Scan.full` is its early return.

* `listPage_spec` — one window delivers a prefix of the rows past its cursor.
-/

namespace LayerFs

open List

variable {root : Bool} {maximum : Option PathName}

abbrev DirectoryPage := Page PathName ℕ

/-- The checks a read applies to one decoded page where it found it. -/
def checkedDirectory (root : Bool) (expectedLevel : Option ℕ) (maximum : Option PathName)
    (p : DirectoryPage) : ContentResult Unit := do
  compactDirectory.decode p
  ensure ((root || compactDirectory.filled (compactDirectory.size p.keys p.level) p.keys.length
      p.level) && (p.level == 0 || 2 ≤ p.keys.length)) .nonCanonicalPagePartition
  ensure (expectedLevel.all (· == p.level)) (.invalidRecord "directory child summary")
  ensure (maximum.all fun m => p.keys.getLast? == some m) (.invalidRecord "directory child summary")

def listingWidth (name : PathName) : ℕ := 2 + 8 + name.bytes.length

/-- Accumulated state of one window. -/
structure Scan where
  entries : List (PathName × ℕ) := []
  bytes : ℕ := 0
  /-- the window returned at a row it could not take -/
  full : Bool := false

/-- The cursor skips a subtree recorded under `maximum`. -/
def skips (after maximum : Option PathName) : Bool :=
  after.any fun c => maximum.any (· ≤ c)

/-- One bounded listing page. -/
structure ListingPage where
  entries : List (PathName × ℕ)
  /-- name to resume after, when the page is not the end of the directory -/
  continuation : Option PathName

section Window

variable (after : Option PathName) (maxEntries maxBytes : ℕ)

def listRows : List (PathName × ℕ) → Scan → ContentResult Scan
  | [], scan => .ok scan
  | (name, serial) :: rest, scan =>
    if after.any (name ≤ ·) then listRows rest scan
    else if maxBytes < scan.bytes + listingWidth name then
      -- one row must fit: an empty page without continuation means an exhausted directory
      if scan.entries.isEmpty then
        .error (.objectLimitExceeded maxBytes (listingWidth name))
      else .ok { scan with full := true }
    else if scan.entries.length = maxEntries then .ok { scan with full := true }
    else listRows rest
      { scan with entries := scan.entries ++ [(name, serial)],
                  bytes := scan.bytes + listingWidth name }

mutual

/-- One popped page: skipped behind the cursor, else read, checked and walked. -/
def listPage (root : Bool) (maximum : Option PathName) (p : DirectoryPage) (scan : Scan) :
    ContentResult Scan :=
  if scan.full || skips after maximum then .ok scan
  else do
    checkedDirectory root none maximum p
    match p with
    | .absent error => .error error
    | .leaf rows => listRows after maxEntries maxBytes rows scan
    | .branch _ _ _ rows => listChildren rows scan

def listChildren : List (PathName × DirectoryPage) → Scan → ContentResult Scan
  | [], scan => .ok scan
  | (key, child) :: rest, scan => do
    let scan ← listPage false (some key) child scan
    listChildren rest scan

end

/-- Lists bindings strictly after `after`, bounded by count and bytes. -/
def listAfter (p : DirectoryPage) : ContentResult ListingPage := do
  ensure (maxEntries != 0 && maxBytes != 0) (.invalidRecord "listing limit")
  let scan ← listPage after maxEntries maxBytes true none p {}
  .ok { entries := scan.entries,
        continuation := if scan.full then scan.entries.getLast?.map Prod.fst else none }

end Window

/-! ## One window -/

def directoryCheck (expected : Option (ℕ × PathName)) (p : DirectoryPage) : Prop :=
  checkedDirectory expected.isNone none (expected.map Prod.snd) p = .ok ()

theorem directoryCheck_sound : Page.Sound directoryCheck where
  present := by
    intro expected e h
    simp only [directoryCheck, checkedDirectory, Format.decode, check_bind_eq_ok] at h
    cases h.1.2
  ordered := by
    intro expected p h
    simp only [directoryCheck, checkedDirectory, Format.decode, check_bind_eq_ok] at h
    have h := h.1.2
    cases p with
    | absent e => cases h
    | leaf rows =>
      simp only [compactDirectory, check_bind_eq_ok, ensure_eq_ok] at h
      exact (strictlyOrdered_iff _).mp h.2
    | branch l c b rows =>
      simp only [compactDirectory, check_bind_eq_ok, ensure_eq_ok] at h
      exact (strictlyOrdered_iff _).mp h.2
  last := by
    intro l k p h
    simp only [directoryCheck, checkedDirectory, check_bind_eq_ok, ensure_eq_ok] at h
    simpa using h.2.2.2

@[simp] theorem skips_root (after : Option PathName) : skips after none = false := by
  cases after <;> simp [skips]

theorem skips_some {after : Option PathName} {k : PathName} :
    skips after (some k) = false ↔ above after k := by
  cases after <;> simp [skips]

mutual

/-- The rows a walk behind `after` meets, in walk order. -/
def rowsPast (after maximum : Option PathName) (p : DirectoryPage) : List (PathName × ℕ) :=
  if skips after maximum then []
  else match p with
    | .absent _ => []
    | .leaf rows => rows.filter fun row => above after row.1
    | .branch _ _ _ rows => childRowsPast after rows

/-- The rows a walk behind `after` meets below a list of child rows. -/
def childRowsPast (after : Option PathName) : List (PathName × DirectoryPage) → List (PathName × ℕ)
  | [] => []
  | (key, child) :: rest => rowsPast after (some key) child ++ childRowsPast after rest

end

theorem childRowsPast_nil (after : Option PathName) : childRowsPast after [] = [] := by
  simp [childRowsPast]

theorem childRowsPast_cons (after : Option PathName) (k : PathName) (p : DirectoryPage)
    (rest : List (PathName × DirectoryPage)) :
    childRowsPast after ((k, p) :: rest) = rowsPast after (some k) p ++ childRowsPast after rest := by
  simp [childRowsPast]

def listingWidthBound : ℕ := 2 + 8 + maximumNameBytes

theorem listingWidth_le (name : PathName) : listingWidth name ≤ listingWidthBound := by
  have h := name.length_le
  unfold listingWidth listingWidthBound
  omega

/-- What a scan keeps: bounded entries and bytes, and fullness only at the entry bound. -/
structure Scan.Within (maxEntries : ℕ) (scan : Scan) : Prop where
  length_le : scan.entries.length ≤ maxEntries
  /-- every entry charged at most the widest row -/
  bytes_le : scan.bytes ≤ listingWidthBound * scan.entries.length
  /-- a full window delivered its whole bound -/
  full_eq : scan.full = true → scan.entries.length = maxEntries

/-- The scan `s'` delivered a prefix of `rows` on top of `s`, and is full exactly when a row
was left. -/
structure Scan.Delivers (maxEntries : ℕ) (s : Scan) (rows : List (PathName × ℕ)) (s' : Scan) :
    Prop where
  entries_eq : s'.entries = s.entries ++ rows.take (maxEntries - s.entries.length)
  full_iff : s'.full = true ↔ s.full = true ∨ maxEntries < s.entries.length + rows.length
  within : s'.Within maxEntries

namespace Scan

variable {E : ℕ} {s s₁ s₂ : Scan} {a b : List (PathName × ℕ)}

theorem Within.empty (E : ℕ) : ({} : Scan).Within E where
  length_le := by simp
  bytes_le := by simp
  full_eq := by simp

theorem Delivers.nil (h : s.Within E) : s.Delivers E [] s where
  entries_eq := by simp
  full_iff := by
    have hlen := h.length_le
    simp
    omega
  within := h

theorem Delivers.of_full (h : s.Within E) (hf : s.full = true) (rows : List (PathName × ℕ)) :
    s.Delivers E rows s where
  entries_eq := by simp [h.full_eq hf]
  full_iff := by simp [hf]
  within := h

theorem Delivers.append (ha : s.Delivers E a s₁) (hb : s₁.Delivers E b s₂) :
    s.Delivers E (a ++ b) s₂ where
  entries_eq := by
    rw [hb.entries_eq, ha.entries_eq, append_assoc, take_append]
    congr 2
    rw [length_append, length_take]
    by_cases hle : a.length ≤ E - s.entries.length
    · rw [min_eq_right hle]
      congr 1
      omega
    · have h0 : E - s.entries.length - a.length = 0 := by omega
      have h1 : E - (s.entries.length + min (E - s.entries.length) a.length) = 0 := by omega
      rw [h0, h1]
  full_iff := by
    have hlen := congrArg List.length ha.entries_eq
    rw [length_append, length_take] at hlen
    have hle := ha.within.length_le
    rw [hb.full_iff, ha.full_iff, length_append]
    constructor
    · rintro ((h | h) | h)
      · exact .inl h
      · right; omega
      · right; omega
    · rintro (h | h)
      · exact .inl (.inl h)
      · by_cases hc : E < s.entries.length + a.length
        · exact .inl (.inr hc)
        · right; omega
  within := hb.within

end Scan

section Spec

variable {after : Option PathName} {E B : ℕ}

theorem any_le_eq {after : Option PathName} {name : PathName} :
    after.any (name ≤ ·) = true ↔ ¬ above after name := by
  cases after <;> simp

theorem listRows_spec (hB : listingWidthBound * E ≤ B) (hE : 0 < E) (rows : List (PathName × ℕ)) :
    ∀ {s : Scan}, s.Within E → s.full = false →
      ∃ s', listRows after E B rows s = .ok s' ∧
        s.Delivers E (rows.filter fun row => above after row.1) s' := by
  induction rows with
  | nil => intro s hs _; exact ⟨s, rfl, Scan.Delivers.nil hs⟩
  | cons row rest ih =>
    intro s hs hf
    obtain ⟨name, serial⟩ := row
    unfold listRows
    by_cases habove : above after name
    · rw [if_neg (by rw [any_le_eq]; simpa using habove), filter_cons_of_pos (by simpa)]
      have hw := listingWidth_le name
      have hb := hs.bytes_le
      have hlen := hs.length_le
      by_cases hend : s.entries.length = E
      · -- a row is left and the window is at its bound: either check returns it
        have hne : s.entries.isEmpty = false := by
          cases hent : s.entries with
          | nil => rw [hent] at hend; simp at hend; omega
          | cons x xs => rfl
        have hd : s.Delivers E ((name, serial) :: rest.filter fun row => above after row.1)
            { s with full := true } := by
          refine ⟨by simp [hend], ?_, ⟨hs.length_le, hs.bytes_le, fun _ => hend⟩⟩
          simp [hend]
        split
        · simp only [hne, Bool.false_eq_true, if_false]
          exact ⟨_, rfl, hd⟩
        · exact ⟨_, rfl, hd⟩
      · have hroom : s.bytes + listingWidth name ≤ B := by
          have : listingWidthBound * (s.entries.length + 1) ≤ listingWidthBound * E :=
            Nat.mul_le_mul_left _ (by omega)
          rw [Nat.mul_add, Nat.mul_one] at this
          omega
        rw [if_neg (by omega), if_neg hend]
        have hs₁ : Scan.Within E { s with entries := s.entries ++ [(name, serial)],
                                          bytes := s.bytes + listingWidth name } := by
          refine ⟨by simp; omega, ?_, fun h => absurd h (by simp [hf])⟩
          simp only [length_append, length_singleton, Nat.mul_add, Nat.mul_one]
          omega
        obtain ⟨s', hrun, hd⟩ := ih hs₁ hf
        refine ⟨s', hrun, ?_⟩
        have hone : s.Delivers E [(name, serial)]
            { s with entries := s.entries ++ [(name, serial)],
                     bytes := s.bytes + listingWidth name } := by
          refine ⟨?_, ?_, hs₁⟩
          · rw [take_of_length_le (by simp; omega)]
          · simp [hf]; omega
        exact hone.append hd
    · rw [if_pos (by rw [any_le_eq]; exact habove), filter_cons_of_neg (by simpa)]
      exact ih hs hf

variable {p : DirectoryPage} {s' : Scan}

theorem listPage_cases {s : Scan} (h : listPage after E B root maximum p s = .ok s') :
    ((s.full = true ∨ skips after maximum = true) ∧ s' = s) ∨
    (s.full = false ∧ skips after maximum = false ∧
      checkedDirectory root none maximum p = .ok () ∧
      (match p with
        | .absent error => Except.error error
        | .leaf rows => listRows after E B rows s
        | .branch _ _ _ rows => listChildren after E B rows s) = .ok s') := by
  unfold listPage at h
  split at h
  · rename_i hskip
    cases h
    exact .inl ⟨by simpa using hskip, rfl⟩
  · rename_i hskip
    simp only [Bool.or_eq_true, not_or, Bool.not_eq_true] at hskip
    simp only [check_bind_eq_ok] at h
    exact .inr ⟨hskip.1, hskip.2, h⟩

theorem rowsPast_of_skips (h : skips after maximum = true) : rowsPast after maximum p = [] := by
  unfold rowsPast
  rw [if_pos h]

theorem rowsPast_leaf {rows : List (PathName × ℕ)} (h : skips after maximum = false) :
    rowsPast after maximum (.leaf rows) = rows.filter fun row => above after row.1 := by
  unfold rowsPast
  rw [if_neg (by simp [h])]

variable {rows : List (PathName × DirectoryPage)}

theorem rowsPast_branch {l c b : ℕ} (h : skips after maximum = false) :
    rowsPast after maximum (.branch l c b rows) = childRowsPast after rows := by
  unfold rowsPast
  rw [if_neg (by simp [h])]

theorem delivers_unread {s : Scan} (hs : s.Within E)
    (h : s.full = true ∨ skips after maximum = true) :
    s.Delivers E (rowsPast after maximum p) s := by
  rcases h with hf | hskip
  · exact .of_full hs hf _
  · rw [rowsPast_of_skips hskip]
    exact .nil hs

theorem list_spec (hB : listingWidthBound * E ≤ B) (hE : 0 < E) :
    (∀ (p : DirectoryPage) {root : Bool} {maximum : Option PathName} {s s' : Scan}, s.Within E →
      listPage after E B root maximum p s = .ok s' →
      s.Delivers E (rowsPast after maximum p) s') ∧
    ∀ (rows : List (PathName × DirectoryPage)) {s s' : Scan}, s.Within E →
      listChildren after E B rows s = .ok s' → s.Delivers E (childRowsPast after rows) s' := by
  refine Page.ind₂ ?_ ?_ ?_ ?_ ?_
  · intro e root maximum s s' hs h
    rcases listPage_cases h with ⟨hu, rfl⟩ | ⟨-, -, -, h⟩
    · exact delivers_unread hs hu
    · cases h
  · intro rows root maximum s s' hs h
    rcases listPage_cases h with ⟨hu, rfl⟩ | ⟨hf, hskip, -, h⟩
    · exact delivers_unread hs hu
    · obtain ⟨s'', hrun, hd⟩ := listRows_spec hB hE rows hs hf
      cases hrun.symm.trans h
      rw [rowsPast_leaf hskip]
      exact hd
  · intro l c b rows ih root maximum s s' hs h
    rcases listPage_cases h with ⟨hu, rfl⟩ | ⟨-, hskip, -, h⟩
    · exact delivers_unread hs hu
    · rw [rowsPast_branch hskip]
      exact ih hs h
  · intro s s' hs h
    unfold listChildren at h
    cases h
    rw [childRowsPast_nil]
    exact .nil hs
  · intro k p rest ihp ihrest s s' hs h
    unfold listChildren at h
    obtain ⟨s₁, hp, hrest⟩ := bind_eq_ok.mp h
    rw [childRowsPast_cons]
    have hd := ihp hs hp
    exact hd.append (ihrest hd.within hrest)

/-- **One window delivers a prefix of the rows past its cursor.** -/
theorem listPage_spec (hB : listingWidthBound * E ≤ B) (hE : 0 < E) {s : Scan} (hs : s.Within E)
    (h : listPage after E B root maximum p s = .ok s') :
    s.Delivers E (rowsPast after maximum p) s' :=
  (list_spec hB hE).1 p hs h

theorem listChildren_spec (hB : listingWidthBound * E ≤ B) (hE : 0 < E) {s : Scan} (hs : s.Within E)
    (h : listChildren after E B rows s = .ok s') : s.Delivers E (childRowsPast after rows) s' :=
  (list_spec hB hE).2 rows hs h

end Spec

end LayerFs
