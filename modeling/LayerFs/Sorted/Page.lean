import LayerFs.Content.Basic

/-!
# Stored page trees and the two page formats

The sorted trees of the filesystem (`filesystem/sorted/format.rs`) as a content-addressed
graph. Object identities are collision free, so an identity *is* the page it names and the
graph under one identity is a finite tree:

* `Page.leaf` holds the typed rows of a level-zero page;

A `Page` is what the canonical bytes *say*, before any check: every malformed partition,
order or summary is a value of the type, and `Format.decode` refuses what the source's
decoder refuses. The recorded totals of a leaf are not stored: the decoder accepts exactly
the ones its rows determine.
-/

namespace LayerFs

/-- A stored page and the graph of pages under it. -/
inductive Page (K V : Type) where
  /-- an identity whose authenticated read fails -/
  | absent (error : ContentError)
  /-- a level-zero page and its rows in stored order -/
  | leaf (rows : List (K × V))
  /-- a branch page: level, recorded subtree count and bytes, child rows -/
  | branch (level count bytes : ℕ) (rows : List (K × Page K V))

namespace Page

variable {K V : Type}

@[elab_as_elim, induction_eliminator]
theorem ind {P : Page K V → Prop} (absent : ∀ error, P (.absent error))
    (leaf : ∀ rows, P (.leaf rows))
    (branch : ∀ level count bytes rows, (∀ kp ∈ rows, P kp.2) → P (.branch level count bytes rows)) :
    ∀ p, P p := by
  intro p
  refine @Page.rec K V P (fun rows => ∀ kp ∈ rows, P kp.2) (fun kp => P kp.2) absent leaf
    (fun l c b rows ih => branch l c b rows ih) ?_ ?_ ?_ p
  · intro kp h
    cases h
  · intro head tail hhead htail kp hkp
    rcases List.mem_cons.mp hkp with rfl | h
    · exact hhead
    · exact htail kp h
  · intro _ _ h
    exact h

/-- Induction over a page graph and its lists of child rows at once, for a property of a walk
that threads state from one child to the next. -/
theorem ind₂ {P : Page K V → Prop} {Q : List (K × Page K V) → Prop}
    (absent : ∀ error, P (.absent error)) (leaf : ∀ rows, P (.leaf rows))
    (branch : ∀ level count bytes rows, Q rows → P (.branch level count bytes rows))
    (nil : Q []) (cons : ∀ k p rest, P p → Q rest → Q ((k, p) :: rest)) :
    (∀ p, P p) ∧ ∀ rows, Q rows := by
  have build : ∀ rows : List (K × Page K V), (∀ kp ∈ rows, P kp.2) → Q rows := by
    intro rows h
    induction rows with
    | nil => exact nil
    | cons kp rest ih =>
      exact cons kp.1 kp.2 rest (h kp (by simp)) (ih fun x hx => h x (List.mem_cons_of_mem _ hx))
  have hP : ∀ p, P p := fun p =>
    ind absent leaf (fun l c b rows ih => branch l c b rows (build rows ih)) p
  exact ⟨hP, fun rows => build rows fun kp _ => hP kp.2⟩

def level : Page K V → ℕ
  | .absent _ => 0
  | .leaf _ => 0
  | .branch level _ _ _ => level

def keys : Page K V → List K
  | .absent _ => []
  | .leaf rows => rows.map Prod.fst
  | .branch _ _ _ rows => rows.map Prod.fst

mutual

def rows : Page K V → List (K × V)
  | .absent _ => []
  | .leaf rows => rows
  | .branch _ _ _ children => childRows children

def childRows : List (K × Page K V) → List (K × V)
  | [] => []
  | (_, child) :: rest => child.rows ++ childRows rest

end

@[simp] theorem rows_absent (e : ContentError) : (Page.absent e : Page K V).rows = [] := by
  simp [rows]

@[simp] theorem rows_leaf (r : List (K × V)) : (Page.leaf r).rows = r := by
  simp [rows]

@[simp] theorem rows_branch (l c b : ℕ) (children : List (K × Page K V)) :
    (Page.branch l c b children).rows = childRows children := by
  simp [rows]

@[simp] theorem childRows_nil : childRows ([] : List (K × Page K V)) = [] := by
  simp [childRows]

@[simp] theorem childRows_cons (k : K) (p : Page K V) (rest : List (K × Page K V)) :
    childRows ((k, p) :: rest) = p.rows ++ childRows rest := by
  simp [childRows]

theorem mem_childRows {children : List (K × Page K V)} {row : K × V} :
    row ∈ childRows children ↔ ∃ kp ∈ children, row ∈ kp.2.rows := by
  induction children with
  | nil => simp
  | cons kp rest ih =>
    obtain ⟨k, p⟩ := kp
    simp [ih]

end Page

/-! ## Formats -/

/-- Keys strictly increase (`reject_unordered`). -/
def strictlyOrdered {K : Type} [LinearOrder K] : List K → Bool
  | [] => true
  | [_] => true
  | a :: b :: rest => decide (a < b) && strictlyOrdered (b :: rest)

theorem strictlyOrdered_iff {K : Type} [LinearOrder K] (keys : List K) :
    strictlyOrdered keys = true ↔ keys.Pairwise (· < ·) := by
  induction keys with
  | nil => simp [strictlyOrdered]
  | cons a rest ih =>
    cases rest with
    | nil => simp [strictlyOrdered]
    | cons b rest =>
      rw [strictlyOrdered, Bool.and_eq_true, ih, decide_eq_true_eq]
      constructor
      · rintro ⟨hab, hb⟩
        refine List.pairwise_cons.mpr ⟨fun x hx => ?_, hb⟩
        rcases List.mem_cons.mp hx with rfl | hx
        · exact hab
        · exact lt_trans hab ((List.pairwise_cons.mp hb).1 x hx)
      · intro h
        obtain ⟨ha, hb⟩ := List.pairwise_cons.mp h
        exact ⟨ha b (by simp), hb⟩

/-- The page grammar the tree readers and the sorted engine use. -/
structure Format (K V : Type) where
  /-- exact encoded width of one row at a level -/
  width : K → ℕ → ℕ
  /-- rows a page holds before the engine refuses another one -/
  pageItems : ℕ → ℕ
  /-- rows the canonical encoder accepts -/
  maxItems : ℕ → ℕ
  /-- fill rule of a non-root page: size, row count, level -/
  filled : ℕ → ℕ → ℕ → Bool
  /-- page ceiling: size, row count, level -/
  fits : ℕ → ℕ → ℕ → Bool
  /-- an empty page is a legal final representation -/
  emptyAllowed : Bool
  /-- what the decoder checks of a leaf's rows -/
  decodeLeaf : List (K × V) → ContentResult Unit
  /-- what the decoder checks of a branch: level, recorded count and bytes, keys -/
  decodeBranch : ℕ → ℕ → ℕ → List K → ContentResult Unit

namespace Format

variable {K V : Type} (F : Format K V)

/-- Exact canonical length of a page with these keys at this level. -/
def size (keys : List K) (level : ℕ) : ℕ :=
  emptyPageBytes + (keys.map (F.width · level)).sum

/-- Decodes one authenticated canonical page: the checks the page itself must pass. -/
def decode (p : Page K V) : ContentResult Unit := do
  ensure (F.size p.keys p.level ≤ maximumPageBytes)
    (.objectLimitExceeded maximumPageBytes (F.size p.keys p.level))
  match p with
  | .absent error => .error error
  | .leaf rows => F.decodeLeaf rows
  | .branch level count bytes rows => F.decodeBranch level count bytes (rows.map Prod.fst)

end Format

/-- The compact directory format: `name -> inode serial`. -/
def compactDirectory : Format PathName ℕ where
  width name level := 2 + name.bytes.length + if level = 0 then 8 else 32
  pageItems level := if level = 0 then maximumDirectoryLeafRows else defaultPageItems
  maxItems level := if level = 0 then maximumDirectoryLeafRows else defaultPageItems
  filled size _ _ := minimumFilledPageBytes ≤ size
  fits size _ _ := size ≤ maximumPageBytes
  emptyAllowed := true
  decodeLeaf rows := do
    ensure (rows.all fun row => row.2 != 0) (.invalidRecord "directory serial")
    ensure (strictlyOrdered (rows.map Prod.fst)) .nonCanonicalOrdering
  decodeBranch level _ _ keys := do
    ensure (0 < level && level ≤ maximumTreeLevel && 2 ≤ keys.length)
      (.invalidRecord "directory role/level")
    ensure (strictlyOrdered keys) .nonCanonicalOrdering

/-- Width of one inode leaf row: an 8-byte serial followed by the 73-byte value. -/
def leafRowBytes : ℕ := 81

/-- The compact inline inode format: `serial -> value`. -/
def compactInodes (V : Type) : Format ℕ V where
  width _ level := if level = 0 then leafRowBytes else 40
  pageItems _ := defaultPageItems
  maxItems level := if level = 0 then maximumInodeLeafRows else maximumInodeBranchChildren
  filled _ count level :=
    (if level = 0 then minimumInodeLeafRows else minimumInodeBranchChildren) ≤ count
  fits _ count level :=
    count ≤ if level = 0 then maximumInodeLeafRows else maximumInodeBranchChildren
  emptyAllowed := false
  decodeLeaf rows := do
    ensure (!rows.isEmpty && rows.length ≤ maximumInodeLeafRows) .nonCanonicalPagePartition
    ensure (rows.all fun row => row.1 != 0) (.invalidRecord "inode serial")
    ensure (strictlyOrdered (rows.map Prod.fst)) (.invalidRecord "inode key order")
  decodeBranch level count bytes keys := do
    ensure (0 < level && level ≤ maximumTreeLevel && 2 ≤ keys.length
      && keys.length ≤ maximumInodeBranchChildren) (.invalidRecord "inode role/level")
    ensure (keys.all (· != 0)) (.invalidRecord "inode serial")
    ensure (keys.length ≤ count) (.invalidRecord "inode subtree summary")
    ensure (count * leafRowBytes < u64Bound) .lengthOverflow
    ensure (bytes == count * leafRowBytes) (.lengthMismatch (count * leafRowBytes) bytes)
    ensure (strictlyOrdered keys) .nonCanonicalOrdering

end LayerFs
