import LayerFs.Sorted.Page

/-!
# Checked page graphs and their order

A read applies its checks to one page *where it found it*: at the root, or under the level
and largest key its parent recorded. This module says, for any such check, what it means
that every page of a graph passes it, and what the keys of such a graph look like.

* `Page.AllChecked chk` — every page of the graph passes `chk` at its position.
-/

namespace LayerFs

open List

variable {e : ContentError} {b c l : ℕ}

/-- `k` lies strictly past the floor, if there is one. -/
def above {K : Type} [LT K] (floor : Option K) (k : K) : Prop := ∀ f ∈ floor, f < k

section Above

variable {K : Type} [LinearOrder K] {floor : Option K} {k k' : K}

@[simp] theorem above_none : above none k := by
  simp [above]

@[simp] theorem above_some : above (some k) k' ↔ k < k' := by
  simp [above]

theorem above.trans_le (h : above floor k) (hk : k ≤ k') : above floor k' :=
  fun f hf => lt_of_lt_of_le (h f hf) hk

instance (floor : Option K) (k : K) : Decidable (above floor k) := by
  unfold above
  infer_instance

theorem filter_above_above {V : Type} (h : above floor k) (rows : List (K × V)) :
    (rows.filter fun row => above (some k) row.1)
      = (rows.filter fun row => above floor row.1).filter fun row => above (some k) row.1 := by
  rw [filter_filter]
  refine filter_congr fun row _ => ?_
  by_cases hrow : above (some k) row.1
  · simp [hrow, h.trans_le (le_of_lt (above_some.mp hrow))]
  · simp [hrow]

end Above

namespace Page

variable {K V : Type}
variable {rest rows : List (K × Page K V)} {p : Page K V}

/-! ## Every page passes its check -/

mutual

/-- Every page of the graph passes `chk` under the level and key its parent recorded
(`none` at the root). -/
def AllChecked (chk : Option (ℕ × K) → Page K V → Prop) : Option (ℕ × K) → Page K V → Prop
  | expected, .absent error => chk expected (.absent error)
  | expected, .leaf rows => chk expected (.leaf rows)
  | expected, .branch level count bytes rows =>
    chk expected (.branch level count bytes rows) ∧ ChildrenChecked chk (level - 1) rows

/-- Every child graph passes `chk`, one level below its parent. -/
def ChildrenChecked (chk : Option (ℕ × K) → Page K V → Prop) (level : ℕ) :
    List (K × Page K V) → Prop
  | [] => True
  | (key, child) :: rest =>
    AllChecked chk (some (level, key)) child ∧ ChildrenChecked chk level rest

end

section AllChecked

variable {chk : Option (ℕ × K) → Page K V → Prop} {expected : Option (ℕ × K)}

@[simp] theorem allChecked_absent :
    AllChecked chk expected (.absent e) ↔ chk expected (.absent e) := by
  simp [AllChecked]

@[simp] theorem allChecked_leaf {rows : List (K × V)} :
    AllChecked chk expected (.leaf rows) ↔ chk expected (.leaf rows) := by
  simp [AllChecked]

@[simp] theorem allChecked_branch :
    AllChecked chk expected (.branch l c b rows) ↔
      chk expected (.branch l c b rows) ∧ ChildrenChecked chk (l - 1) rows := by
  simp [AllChecked]

@[simp] theorem childrenChecked_nil : ChildrenChecked chk l [] := by
  simp [ChildrenChecked]

@[simp] theorem childrenChecked_cons {k : K} :
    ChildrenChecked chk l ((k, p) :: rest) ↔
      AllChecked chk (some (l, k)) p ∧ ChildrenChecked chk l rest := by
  simp [ChildrenChecked]

theorem childrenChecked_iff :
    ChildrenChecked chk l rows ↔ ∀ kp ∈ rows, AllChecked chk (some (l, kp.1)) kp.2 := by
  induction rows with
  | nil => simp
  | cons kp rest ih =>
    obtain ⟨k, p⟩ := kp
    simp [ih]

theorem AllChecked.self (h : AllChecked chk expected p) : chk expected p := by
  cases p with
  | absent e => exact allChecked_absent.mp h
  | leaf rows => exact allChecked_leaf.mp h
  | branch l c b rows => exact (allChecked_branch.mp h).1

theorem AllChecked.imp {weaker : Option (ℕ × K) → Page K V → Prop}
    (himp : ∀ {expected p}, chk expected p → weaker expected p) :
    ∀ {expected : Option (ℕ × K)}, AllChecked chk expected p → AllChecked weaker expected p := by
  induction p with
  | absent e => exact fun h => allChecked_absent.mpr (himp h.self)
  | leaf rows => exact fun h => allChecked_leaf.mpr (himp h.self)
  | branch level count bytes rows ih =>
    intro expected h
    obtain ⟨hself, hrows⟩ := allChecked_branch.mp h
    refine allChecked_branch.mpr ⟨himp hself, childrenChecked_iff.mpr fun kp hkp => ?_⟩
    exact ih kp hkp (childrenChecked_iff.mp hrows kp hkp)

end AllChecked

/-! ## Pages in order -/

section InOrder

variable [LinearOrder K]

mutual

/-- Every page starts past the key recorded for the sibling to its left. -/
def InOrder : Option K → Page K V → Prop
  | _, .absent _ => True
  | floor, .leaf rows => ∀ row ∈ rows, above floor row.1
  | floor, .branch _ _ _ rows => ChildrenInOrder floor rows

/-- The child graphs in order, the first one past `floor`. -/
def ChildrenInOrder : Option K → List (K × Page K V) → Prop
  | _, [] => True
  | floor, (key, child) :: rest =>
    above floor key ∧ InOrder floor child ∧ ChildrenInOrder (some key) rest

end

variable {floor : Option K}

@[simp] theorem inOrder_absent : InOrder floor (.absent e : Page K V) := by
  simp [InOrder]

@[simp] theorem inOrder_leaf {rows : List (K × V)} :
    InOrder floor (.leaf rows) ↔ ∀ row ∈ rows, above floor row.1 := by
  simp [InOrder]

@[simp] theorem inOrder_branch :
    InOrder floor (.branch l c b rows) ↔ ChildrenInOrder floor rows := by
  simp [InOrder]

@[simp] theorem childrenInOrder_nil : ChildrenInOrder floor ([] : List (K × Page K V)) := by
  simp [ChildrenInOrder]

@[simp] theorem childrenInOrder_cons {k : K} :
    ChildrenInOrder floor ((k, p) :: rest) ↔
      above floor k ∧ InOrder floor p ∧ ChildrenInOrder (some k) rest := by
  simp [ChildrenInOrder]

end InOrder

/-! ## Keys of a checked graph -/

/-- What every position check of the source establishes of a page: it is present, its keys
strictly increase and, below a parent, the last of them is the recorded maximum. -/
structure Sound [LinearOrder K] (chk : Option (ℕ × K) → Page K V → Prop) : Prop where
  present : ∀ {expected e}, ¬ chk expected (.absent e)
  ordered : ∀ {expected p}, chk expected p → p.keys.Pairwise (· < ·)
  last : ∀ {l k p}, chk (some (l, k)) p → p.keys.getLast? = some k

section Keys

variable [LinearOrder K] {chk : Option (ℕ × K) → Page K V → Prop}

theorem le_getLast {keys : List K} {k m : K} (h : keys.Pairwise (· < ·))
    (hm : keys.getLast? = some m) (hk : k ∈ keys) : k ≤ m := by
  obtain ⟨pre, rfl⟩ := getLast?_eq_some_iff.mp hm
  rcases mem_append.mp hk with hk | hk
  · exact le_of_lt ((pairwise_append.mp h).2.2 k hk m (by simp))
  · exact le_of_eq (mem_singleton.mp hk)

/-- **No row lies past the recorded maximum.** -/
theorem rows_le_maximum (hs : Sound chk) :
    ∀ {l k}, AllChecked chk (some (l, k)) p → ∀ row ∈ p.rows, row.1 ≤ k := by
  induction p with
  | absent e => intro l k h; exact absurd h.self hs.present
  | leaf rows =>
    intro l k h row hrow
    rw [rows_leaf] at hrow
    exact le_getLast (hs.ordered h.self) (hs.last h.self) (mem_map_of_mem hrow)
  | branch level c b children ih =>
    intro l k h row hrow
    rw [rows_branch, mem_childRows] at hrow
    obtain ⟨kp, hkp, hrow⟩ := hrow
    obtain ⟨hself, hchildren⟩ := allChecked_branch.mp h
    have hle : row.1 ≤ kp.1 := ih kp hkp (childrenChecked_iff.mp hchildren kp hkp) row hrow
    exact hle.trans (le_getLast (hs.ordered hself) (hs.last hself) (mem_map_of_mem hkp))

theorem InOrder.above_rows :
    ∀ {floor : Option K}, InOrder floor p → ∀ row ∈ p.rows, above floor row.1 := by
  induction p with
  | absent e => intro floor _ row hrow; simp at hrow
  | leaf rows => intro floor h; simpa using h
  | branch level c b children ih =>
    intro floor h
    rw [rows_branch]
    rw [inOrder_branch] at h
    induction children generalizing floor with
    | nil => simp
    | cons kp rest ihrest =>
      obtain ⟨k, child⟩ := kp
      obtain ⟨hk, hchild, hrest⟩ := childrenInOrder_cons.mp h
      intro row hrow
      rw [childRows_cons, mem_append] at hrow
      rcases hrow with hrow | hrow
      · exact ih (k, child) (by simp) hchild row hrow
      · have hlt : above (some k) row.1 :=
          ihrest (fun kp hkp => ih kp (mem_cons_of_mem _ hkp)) hrest row hrow
        exact hk.trans_le (le_of_lt (above_some.mp hlt))

/-- **A checked graph in order lists its rows in strictly increasing key order.** -/
theorem rows_pairwise (hs : Sound chk) :
    ∀ {expected : Option (ℕ × K)} {floor : Option K}, AllChecked chk expected p →
      InOrder floor p → (p.rows.map Prod.fst).Pairwise (· < ·) := by
  induction p with
  | absent e => intro _ _ h; exact absurd h.self hs.present
  | leaf rows => intro _ _ h _; exact hs.ordered h.self
  | branch level c b children ih =>
    intro expected floor h ho
    obtain ⟨-, hchildren⟩ := allChecked_branch.mp h
    rw [inOrder_branch] at ho
    rw [rows_branch]
    clear h
    induction children generalizing floor with
    | nil => simp
    | cons kp rest ihrest =>
      obtain ⟨k, child⟩ := kp
      obtain ⟨hchild, hrest⟩ := childrenChecked_cons.mp hchildren
      obtain ⟨-, hochild, horest⟩ := childrenInOrder_cons.mp ho
      rw [childRows_cons, map_append, pairwise_append]
      refine ⟨ih (k, child) (by simp) hchild hochild,
        ihrest (fun kp hkp => ih kp (mem_cons_of_mem _ hkp)) horest hrest, ?_⟩
      -- a row of the first child is at most `k`, a later one lies past it
      intro a ha b hb
      obtain ⟨ra, hra, rfl⟩ := mem_map.mp ha
      obtain ⟨rb, hrb, rfl⟩ := mem_map.mp hb
      have hle := rows_le_maximum hs hchild ra hra
      have hlt : above (some k) rb.1 :=
        InOrder.above_rows (p := .branch 0 0 0 rest) (inOrder_branch.mpr horest) rb
          (by simpa using hrb)
      exact lt_of_le_of_lt hle (above_some.mp hlt)

theorem maximum_mem_rows (hs : Sound chk) :
    ∀ {l k}, AllChecked chk (some (l, k)) p → ∃ row ∈ p.rows, row.1 = k := by
  induction p with
  | absent e => intro _ _ h; exact absurd h.self hs.present
  | leaf rows =>
    intro l k h
    have hmem : k ∈ (Page.leaf rows).keys := mem_of_getLast? (hs.last h.self)
    obtain ⟨row, hrow, hk⟩ := mem_map.mp hmem
    exact ⟨row, by simpa using hrow, hk⟩
  | branch level c b children ih =>
    intro l k h
    obtain ⟨hself, hchildren⟩ := allChecked_branch.mp h
    have hmem : k ∈ (Page.branch level c b children).keys := mem_of_getLast? (hs.last hself)
    obtain ⟨kp, hkp, rfl⟩ := mem_map.mp hmem
    obtain ⟨row, hrow, hk⟩ := ih kp hkp (childrenChecked_iff.mp hchildren kp hkp)
    exact ⟨row, by rw [rows_branch, mem_childRows]; exact ⟨kp, hkp, hrow⟩, hk⟩

/-- **The row order forces the page order** of a checked graph. -/
theorem inOrder_of_pairwise (hs : Sound chk) {p : Page K V} :
    ∀ {expected : Option (ℕ × K)} {floor : Option K}, AllChecked chk expected p →
      (p.rows.map Prod.fst).Pairwise (· < ·) → (∀ row ∈ p.rows, above floor row.1) →
      InOrder floor p := by
  induction p with
  | absent e => intro _ _ _ _ _; exact inOrder_absent
  | leaf rows => intro _ _ _ _ h; simpa using h
  | branch level c b children ih =>
    intro expected floor h hp hf
    obtain ⟨-, hchildren⟩ := allChecked_branch.mp h
    rw [inOrder_branch]
    rw [rows_branch] at hp hf
    clear h
    induction children generalizing floor with
    | nil => simp
    | cons kp rest ihrest =>
      obtain ⟨k, child⟩ := kp
      obtain ⟨hchild, hrest⟩ := childrenChecked_cons.mp hchildren
      rw [childRows_cons, map_append, pairwise_append] at hp
      obtain ⟨hpchild, hprest, hcross⟩ := hp
      rw [childRows_cons] at hf
      obtain ⟨row, hrow, rfl⟩ := maximum_mem_rows hs hchild
      refine childrenInOrder_cons.mpr ⟨hf row (by simp [hrow]), ?_, ?_⟩
      · exact ih (row.1, child) (by simp) hchild hpchild
          fun r hr => hf r (mem_append_left _ hr)
      · refine ihrest (fun kp hkp => ih kp (mem_cons_of_mem _ hkp)) hprest ?_ hrest
        intro r hr
        exact above_some.mpr (hcross _ (mem_map_of_mem hrow) _ (mem_map_of_mem hr))

end Keys

end Page

end LayerFs
