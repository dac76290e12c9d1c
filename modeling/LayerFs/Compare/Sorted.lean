import LayerFs.Content.Basic
import LayerFs.Support.Differs

/-!
# Difference of two sorted trees (`compare/sorted.rs`)

Two content-addressed trees are walked at once, each side keeping the pages and rows still to come
in key order. A page that faces itself is left out on both sides, unread; a page that faces another
is opened, the higher one first.

* `Stored` — **a stored tree** of some level and its rows: any page shapes, all leaves at one depth.
* `differenceLoop_differs` — **the walk meets what the rows differ in**, whatever is still to come
  on either side.
* `difference_exact` — **the difference of two trees** is that of their rows, and the walk ends.
-/

namespace LayerFs.Compare

open List

variable {Id K V σ : Type}
variable {id : Id} {L R here later rows' : List (K × V)} {x : V} {level level' n turns w wl wr : ℕ}

/-! ## Pages -/

/-- One decoded row of a page. -/
structure WireEntry (Id K V : Type) where
  key : K
  /-- child page identity; present only in a branch row -/
  child : Option Id
  /-- typed leaf value; present only in a leaf row -/
  value : Option V

/-- One decoded page. -/
structure Wire (Id K V : Type) where
  level : ℕ
  entries : List (WireEntry Id K V)

/-- Work one difference walk performed. -/
structure DifferenceWork where
  pagesRead : ℕ
  /-- pages skipped because both sides held the same identity -/
  pagesShared : ℕ
  rowsCompared : ℕ

/-- What is still to come on one side. -/
inductive Item (Id K V : Type) where
  /-- a page not yet opened, and the level it is taken for -/
  | page (id : Id) (level : ℕ)
  /-- a row -/
  | row (key : K) (value : V)

/-! ## The walk -/

section Walk

variable [DecidableEq Id] [LinearOrder K] [DecidableEq V]
variable (read : Id → ContentResult (Wire Id K V))
variable (visit : σ → K → Option V → Option V → ContentResult σ)

def itemOf (level : ℕ) (entry : WireEntry Id K V) : ContentResult (Item Id K V) :=
  match entry.child, entry.value with
  | some child, none =>
    if 0 < level then .ok (.page child (level - 1)) else .error (.invalidRecord "sorted page row")
  | none, some value =>
    if level = 0 then .ok (.row entry.key value) else .error (.invalidRecord "sorted page row")
  | _, _ => .error (.invalidRecord "sorted page row")

/-- `open`: the front page is replaced by its rows or child pages. -/
def openFront (side : List (Item Id K V)) (work : DifferenceWork) :
    ContentResult (List (Item Id K V) × DifferenceWork) :=
  match side with
  | .page id _ :: rest => do
    let wire ← read id
    let items ← wire.entries.mapM (itemOf wire.level)
    return (items ++ rest, { work with pagesRead := saturatingAdd work.pagesRead 1 })
  | _ => .error (.invalidRecord "difference frontier")

def openIf (expand : Bool) (side : List (Item Id K V)) (work : DifferenceWork) :
    ContentResult (List (Item Id K V) × DifferenceWork) :=
  if expand then openFront read side work else .ok (side, work)

/-- The loop of `difference`, once for each turn. -/
def differenceLoop : ℕ → List (Item Id K V) → List (Item Id K V) → σ → DifferenceWork →
    ContentResult (σ × DifferenceWork)
  | 0, _, _, _, _ => .error (.invalidRecord "difference walk")
  | turns + 1, l, r, s, work =>
    let expanded := fun (left right : Bool) => do
      let (l', work) ← openIf read left l work
      let (r', work) ← openIf read right r work
      differenceLoop turns l' r' s work
    match l, r with
    | [], [] => .ok (s, work)
    | .page a n :: l', .page b m :: r' =>
      if a = b then
        differenceLoop turns l' r' s { work with pagesShared := saturatingAdd work.pagesShared 1 }
      else expanded (decide (m ≤ n)) (decide (n ≤ m))
    | .page _ _ :: _, _ => expanded true false
    | _, .page _ _ :: _ => expanded false true
    | .row a x :: l', .row b y :: r' =>
      let work := { work with rowsCompared := saturatingAdd work.rowsCompared 1 }
      if a < b then do
        let s ← visit s a (some x) none
        differenceLoop turns l' (.row b y :: r') s work
      else if b < a then do
        let s ← visit s b none (some y)
        differenceLoop turns (.row a x :: l') r' s work
      else if x = y then differenceLoop turns l' r' s work
      else do
        let s ← visit s a (some x) (some y)
        differenceLoop turns l' r' s work
    | .row key value :: l', [] => do
      let s ← visit s key (some value) none
      differenceLoop turns l' [] s work
    | [], .row key value :: r' => do
      let s ← visit s key none (some value)
      differenceLoop turns [] r' s work

def start (root : Option Id) : List (Item Id K V) :=
  root.toList.map fun id => .page id maximumTreeLevel

/-- `difference`: visits every key whose value differs, in key order. An absent tree is empty. -/
def difference (turns : ℕ) (left right : Option Id) (s : σ) (work : DifferenceWork) :
    ContentResult (σ × DifferenceWork) :=
  differenceLoop read visit turns (start left) (start right) s work

end Walk

/-! ## Stored trees -/

section Trees

variable (read : Id → ContentResult (Wire Id K V))
variable {l : List (Item Id K V)}

def leafEntry (row : K × V) : WireEntry Id K V := ⟨row.1, none, some row.2⟩

def branchEntry (child : K × Id) : WireEntry Id K V := ⟨child.1, some child.2, none⟩

/-- **A stored tree** of a level under an identity, and its rows in page order. -/
def Stored : ℕ → Id → List (K × V) → Prop
  | 0, id, rows => read id = .ok ⟨0, rows.map leafEntry⟩
  | level + 1, id, rows => ∃ (children : List (K × Id)) (parts : List (List (K × V))),
    read id = .ok ⟨level + 1, children.map branchEntry⟩ ∧ rows = parts.flatten ∧
      List.Forall₂ (fun child part => Stored level child.2 part) children parts

def weight : ℕ → Id → ℕ
  | 0, id =>
    match read id with
    | .ok wire => wire.entries.length + 1
    | .error _ => 1
  | level + 1, id =>
    match read id with
    | .ok wire => ((wire.entries.filterMap WireEntry.child).map (weight level)).sum + 1
    | .error _ => 1

/-- **What is still to come** on one side: its rows, and how much there is of it. -/
inductive Frontier : List (Item Id K V) → List (K × V) → ℕ → Prop
  | nil : Frontier [] [] 0
  | row {l : List (Item Id K V)} {rows : List (K × V)} {w : ℕ} (key : K) (value : V)
    (h : Frontier l rows w) : Frontier (.row key value :: l) ((key, value) :: rows) (w + 1)
  | page {l : List (Item Id K V)} {here later : List (K × V)} {w level : ℕ} {id : Id} (n : ℕ)
    (hid : Stored read level id here) (h : Frontier l later w) :
    Frontier (.page id n :: l) (here ++ later) (weight read level id + w)

variable {read}

/-- **An identity names one tree**: the same level and the same rows, wherever it is met. -/
theorem Stored.unique {rows : List (K × V)} (h : Stored read level id rows)
    (h' : Stored read level' id rows') : rows = rows' := by
  induction level generalizing level' id rows rows' with
  | zero =>
    rcases level' with _ | level'
    · rw [Stored] at h h'
      rw [h, Except.ok.injEq, Wire.mk.injEq] at h'
      refine map_injective_iff.mpr (fun a b hab => ?_) h'.2
      rw [leafEntry, leafEntry, WireEntry.mk.injEq, Option.some.injEq] at hab
      exact Prod.ext hab.1 hab.2.2
    · obtain ⟨children, parts, hread, -⟩ := h'
      rw [Stored, hread, Except.ok.injEq, Wire.mk.injEq] at h
      exact absurd h.1 (Nat.succ_ne_zero level')
  | succ level ih =>
    obtain ⟨children, parts, hread, rfl, hparts⟩ := h
    rcases level' with _ | level'
    · rw [Stored, hread, Except.ok.injEq, Wire.mk.injEq] at h'
      exact absurd h'.1 (Nat.succ_ne_zero level)
    · obtain ⟨children', parts', hread', rfl, hparts'⟩ := h'
      rw [hread, Except.ok.injEq, Wire.mk.injEq] at hread'
      obtain ⟨hlevel, hentries⟩ := hread'
      cases hlevel
      have hchildren : children = children' := by
        refine map_injective_iff.mpr (fun a b hab => ?_) hentries
        rw [branchEntry, branchEntry, WireEntry.mk.injEq, Option.some.injEq] at hab
        exact Prod.ext hab.1 hab.2.1
      subst hchildren
      refine congrArg List.flatten ?_
      clear hread hentries
      induction hparts generalizing parts' with
      | nil =>
        cases hparts'
        rfl
      | cons hfirst _ ihrest =>
        cases hparts' with
        | cons hfirst' hrest' => rw [ih hfirst hfirst', ihrest _ hrest']

theorem Frontier.append {l' : List (Item Id K V)} {rows : List (K × V)} {w' : ℕ}
    (h : Frontier read l rows w) (h' : Frontier read l' rows' w') :
    Frontier read (l ++ l') (rows ++ rows') (w + w') := by
  induction h with
  | nil => simpa using h'
  | row key value _ ih =>
    rw [Nat.add_right_comm]
    exact ih.row key value
  | page n hid _ ih =>
    rw [append_assoc, Nat.add_assoc]
    exact ih.page n hid

theorem mapM_itemOf_leaf (rows : List (K × V)) :
    (rows.map leafEntry : List (WireEntry Id K V)).mapM (itemOf 0) =
      .ok (rows.map fun row => Item.row row.1 row.2) := by
  induction rows with
  | nil => rfl
  | cons row rows ih =>
    rw [map_cons, mapM_cons, ih]
    rfl

theorem mapM_itemOf_branch (level : ℕ) (children : List (K × Id)) :
    (children.map branchEntry : List (WireEntry Id K V)).mapM (itemOf (level + 1)) =
      .ok (children.map fun child => Item.page child.2 level) := by
  induction children with
  | nil => rfl
  | cons child children ih =>
    rw [map_cons, mapM_cons, ih]
    rfl

/-- **An opened page** is its rows or its children, and there is less of them than of the page. -/
theorem openFront_frontier (hid : Stored read level id here) (h : Frontier read l later w)
    (work : DifferenceWork) :
    ∃ l' work' w', openFront read (.page id n :: l) work = .ok (l', work') ∧
      Frontier read l' (here ++ later) w' ∧ w' < weight read level id + w := by
  rcases level with _ | level
  · rw [Stored] at hid
    have hrows : Frontier read (here.map fun row => Item.row row.1 row.2) here here.length := by
      clear hid
      induction here with
      | nil => exact .nil
      | cons row here ih => exact ih.row row.1 row.2
    refine ⟨_, { work with pagesRead := saturatingAdd work.pagesRead 1 }, _, ?_, hrows.append h, ?_⟩
    · rw [openFront, hid, ok_bind, mapM_itemOf_leaf, ok_bind]
      rfl
    · have hweight : weight read 0 id = here.length + 1 := by
        rw [weight, hid]
        exact congrArg Nat.succ (length_map _)
      omega
  · obtain ⟨children, parts, hread, rfl, hparts⟩ := hid
    have hpages : Frontier read (children.map fun child => Item.page child.2 level) parts.flatten
        ((children.map fun child => weight read level child.2).sum) := by
      clear hread
      induction hparts with
      | nil => exact .nil
      | cons hfirst _ ih => exact ih.page level hfirst
    refine ⟨_, { work with pagesRead := saturatingAdd work.pagesRead 1 }, _, ?_, hpages.append h,
      ?_⟩
    · rw [openFront, hread, ok_bind, mapM_itemOf_branch, ok_bind]
      rfl
    · have hweight : weight read (level + 1) id =
          (children.map fun child => weight read level child.2).sum + 1 := by
        rw [weight, hread]
        dsimp only
        rw [filterMap_map, show (WireEntry.child ∘ branchEntry : K × Id → Option Id) =
          some ∘ Prod.snd from rfl, filterMap_eq_map, map_map]
        rfl
      omega

end Trees

/-! ## What the walk meets -/

section Meets

variable {read : Id → ContentResult (Wire Id K V)}
variable {visit : σ → K → Option V → Option V → ContentResult σ}
variable {l r : List (Item Id K V)}

def visits (visit : σ → K → Option V → Option V → ContentResult σ) (s : σ)
    (changes : List (Change K V)) : ContentResult σ :=
  changes.foldlM (fun s c => visit s c.1 c.2.1 c.2.2) s

def Makes (visit : σ → K → Option V → Option V → ContentResult σ) (s : σ)
    (changes : List (Change K V)) (walk : ContentResult (σ × DifferenceWork)) : Prop :=
  walk.map Prod.fst = visits visit s changes

theorem Makes.cons {s : σ} {key : K} {a b : Option V} {changes : List (Change K V)}
    {walk : σ → ContentResult (σ × DifferenceWork)} (h : ∀ s', Makes visit s' changes (walk s')) :
    Makes visit s ((key, a, b) :: changes) (visit s key a b >>= walk) := by
  rw [Makes, visits, List.foldlM_cons]
  rcases hvisit : visit s key a b with e | s'
  · rfl
  · exact h s'

theorem forall_front_lt [LinearOrder K] {k : K} {rows : List (K × V)}
    (h : Ascending ((k, x) :: rows)) {k' : K} (hk : k' < k) : ∀ row ∈ (k, x) :: rows, k' < row.1 :=
  forall_mem_cons.mpr ⟨hk, fun row hrow => hk.trans ((ascending_cons.mp h).1 row hrow)⟩

theorem weight_pos (level : ℕ) (id : Id) : 0 < weight read level id := by
  rcases level with _ | level
  · rw [weight]
    split <;> exact Nat.succ_pos _
  · rw [weight]
    split <;> exact Nat.succ_pos _

theorem openIf_frontier (hid : Stored read level id here) (h : Frontier read l later w)
    (expand : Bool) (work : DifferenceWork) :
    ∃ l' work' w', openIf read expand (.page id n :: l) work = .ok (l', work') ∧
      Frontier read l' (here ++ later) w' ∧ w' ≤ weight read level id + w ∧
        (expand = true → w' < weight read level id + w) := by
  cases expand with
  | false => exact ⟨_, _, _, rfl, h.page n hid, le_refl _, fun h => absurd h Bool.false_ne_true⟩
  | true =>
    obtain ⟨l', work', w', hopen, hfront, hlt⟩ := openFront_frontier (n := n) hid h work
    exact ⟨l', work', w', hopen, hfront, hlt.le, fun _ => hlt⟩

def RowFirst (side : List (Item Id K V)) : Prop := ∀ id n rest, side ≠ .page id n :: rest

theorem rowFirst_nil : RowFirst ([] : List (Item Id K V)) := by
  intro id n rest h
  cases h

theorem rowFirst_row {key : K} {value : V} {side : List (Item Id K V)} :
    RowFirst (.row key value :: side) := by
  intro id n rest h
  cases h

variable [DecidableEq Id] [LinearOrder K] [DecidableEq V]

theorem differenceLoop_left (hr : RowFirst r) (s : σ) (work : DifferenceWork) :
    differenceLoop read visit (turns + 1) (.page id n :: l) r s work =
      openFront read (.page id n :: l) work >>= fun p =>
        differenceLoop read visit turns p.1 r s p.2 := by
  rcases r with _ | ⟨⟨id', m⟩ | ⟨key, value⟩, r⟩
  · rfl
  · exact absurd rfl (hr id' m r)
  · rfl

theorem differenceLoop_right (hl : RowFirst l) (s : σ) (work : DifferenceWork) :
    differenceLoop read visit (turns + 1) l (.page id n :: r) s work =
      openFront read (.page id n :: r) work >>= fun p =>
        differenceLoop read visit turns l p.1 s p.2 := by
  rcases l with _ | ⟨⟨id', m⟩ | ⟨key, value⟩, l⟩
  · rfl
  · exact absurd rfl (hl id' m l)
  · rfl

def Walks (read : Id → ContentResult (Wire Id K V))
    (visit : σ → K → Option V → Option V → ContentResult σ) (turns : ℕ) : Prop :=
  ∀ {l r : List (Item Id K V)} {L R : List (K × V)} {wl wr : ℕ}, Frontier read l L wl →
    Frontier read r R wr → Ascending L → Ascending R → wl + wr < turns → ∀ work : DifferenceWork,
      ∃ changes, Differs L R changes ∧
        ∀ s, Makes visit s changes (differenceLoop read visit turns l r s work)

theorem Walks.rows (h : Walks read visit turns) {a b : K} {y : V} (hl : Frontier read l L wl)
    (hr : Frontier read r R wr) (hL : Ascending ((a, x) :: L)) (hR : Ascending ((b, y) :: R))
    (hturns : wl + 1 + (wr + 1) < turns + 1) (work : DifferenceWork) :
    ∃ changes, Differs ((a, x) :: L) ((b, y) :: R) changes ∧ ∀ s, Makes visit s changes
      (differenceLoop read visit (turns + 1) (.row a x :: l) (.row b y :: r) s work) := by
  obtain ⟨hafter, hL'⟩ := ascending_cons.mp hL
  obtain ⟨hafter', hR'⟩ := ascending_cons.mp hR
  simp only [differenceLoop]
  rcases lt_trichotomy a b with hab | rfl | hba
  · obtain ⟨changes, hdiffers, hmakes⟩ := h hl (hr.row b y) hL' hR (by omega)
      { work with rowsCompared := saturatingAdd work.rowsCompared 1 }
    refine ⟨_, hdiffers.left (forall_front_lt hR hab), fun s => ?_⟩
    rw [if_pos hab]
    exact Makes.cons hmakes
  · obtain ⟨changes, hdiffers, hmakes⟩ := h hl hr hL' hR' (by omega)
      { work with rowsCompared := saturatingAdd work.rowsCompared 1 }
    simp only [lt_irrefl, if_false]
    by_cases hxy : x = y
    · subst hxy
      refine ⟨changes, hdiffers.same, fun s => ?_⟩
      rw [if_pos rfl]
      exact hmakes s
    · refine ⟨_, hdiffers.changed hxy, fun s => ?_⟩
      rw [if_neg hxy]
      exact Makes.cons hmakes
  · obtain ⟨changes, hdiffers, hmakes⟩ := h (hl.row a x) hr hL hR' (by omega)
      { work with rowsCompared := saturatingAdd work.rowsCompared 1 }
    refine ⟨_, hdiffers.right (forall_front_lt hL hba), fun s => ?_⟩
    rw [if_neg (lt_asymm hba), if_pos hba]
    exact Makes.cons hmakes

/-- The step of two pages: one and the same is left out on both sides, of two others one at least is
opened. -/
theorem Walks.pages (h : Walks read visit turns) {here' later' : List (K × V)} {m : ℕ} {a b : Id}
    (ha : Stored read level a here) (hb : Stored read level' b here')
    (hl : Frontier read l later wl) (hr : Frontier read r later' wr)
    (hL : Ascending (here ++ later)) (hR : Ascending (here' ++ later'))
    (hturns : weight read level a + wl + (weight read level' b + wr) < turns + 1)
    (work : DifferenceWork) :
    ∃ changes, Differs (here ++ later) (here' ++ later') changes ∧ ∀ s, Makes visit s changes
      (differenceLoop read visit (turns + 1) (.page a n :: l) (.page b m :: r) s work) := by
  simp only [differenceLoop]
  by_cases hab : a = b
  · subst hab
    rw [ha.unique hb] at hL ⊢
    have hpos : 0 < weight read level a := weight_pos level a
    obtain ⟨changes, hdiffers, hmakes⟩ := h hl hr (pairwise_append.mp hL).2.1
      (pairwise_append.mp hR).2.1 (by omega)
      { work with pagesShared := saturatingAdd work.pagesShared 1 }
    refine ⟨changes, hdiffers.append_same here', fun s => ?_⟩
    rw [if_pos rfl]
    exact hmakes s
  · simp only [if_neg hab]
    obtain ⟨l', work', wl', hopen, hfront, hle, hlt⟩ :=
      openIf_frontier (n := n) ha hl (decide (m ≤ n)) work
    obtain ⟨r', work'', wr', hopen', hfront', hle', hlt'⟩ :=
      openIf_frontier (n := m) hb hr (decide (n ≤ m)) work'
    have hless : wl' + wr' < turns := by
      rcases Nat.le_total m n with hmn | hnm
      · have := hlt (decide_eq_true hmn)
        omega
      · have := hlt' (decide_eq_true hnm)
        omega
    obtain ⟨changes, hdiffers, hmakes⟩ := h hfront hfront' hL hR hless work''
    refine ⟨changes, hdiffers, fun s => ?_⟩
    rw [hopen, ok_bind]
    dsimp only
    rw [hopen', ok_bind]
    exact hmakes s

/-- **The walk meets what the rows differ in**, whatever is still to come on either side, in no more
turns than there is to come. -/
theorem differenceLoop_differs (turns : ℕ) : Walks read visit turns := by
  induction turns with
  | zero =>
    intro l r L R wl wr _ _ _ _ hturns
    exact absurd hturns (Nat.not_lt_zero _)
  | succ turns ih =>
    intro l r L R wl wr hl hr hL hR hturns work
    cases hl with
    | nil =>
      cases hr with
      | nil => exact ⟨[], .nil, fun s => rfl⟩
      | row key value hr =>
        obtain ⟨changes, hdiffers, hmakes⟩ :=
          ih .nil hr hL (ascending_cons.mp hR).2 (by omega) work
        exact ⟨_, hdiffers.right fun row h => absurd h not_mem_nil, fun s =>
          Makes.cons hmakes⟩
      | page n hid hr =>
        obtain ⟨r', work', w', hopen, hfront, hlt⟩ := openFront_frontier (n := n) hid hr work
        obtain ⟨changes, hdiffers, hmakes⟩ := ih .nil hfront hL hR (by omega) work'
        refine ⟨changes, hdiffers, fun s => ?_⟩
        rw [differenceLoop_right rowFirst_nil, hopen]
        exact hmakes s
    | row key value hl =>
      cases hr with
      | nil =>
        obtain ⟨changes, hdiffers, hmakes⟩ :=
          ih hl .nil (ascending_cons.mp hL).2 hR (by omega) work
        exact ⟨_, hdiffers.left fun row h => absurd h not_mem_nil, fun s =>
          Makes.cons hmakes⟩
      | row key' value' hr => exact ih.rows hl hr hL hR hturns work
      | page n hid hr =>
        obtain ⟨r', work', w', hopen, hfront, hlt⟩ := openFront_frontier (n := n) hid hr work
        obtain ⟨changes, hdiffers, hmakes⟩ := ih (hl.row key value) hfront hL hR (by omega) work'
        refine ⟨changes, hdiffers, fun s => ?_⟩
        rw [differenceLoop_right rowFirst_row, hopen]
        exact hmakes s
    | page n hid hl =>
      cases hr with
      | nil =>
        obtain ⟨l', work', w', hopen, hfront, hlt⟩ := openFront_frontier (n := n) hid hl work
        obtain ⟨changes, hdiffers, hmakes⟩ := ih hfront .nil hL hR (by omega) work'
        refine ⟨changes, hdiffers, fun s => ?_⟩
        rw [differenceLoop_left rowFirst_nil, hopen]
        exact hmakes s
      | row key' value' hr =>
        obtain ⟨l', work', w', hopen, hfront, hlt⟩ := openFront_frontier (n := n) hid hl work
        obtain ⟨changes, hdiffers, hmakes⟩ := ih hfront (hr.row key' value') hL hR (by omega) work'
        refine ⟨changes, hdiffers, fun s => ?_⟩
        rw [differenceLoop_left rowFirst_row, hopen]
        exact hmakes s
      | page m hid' hr => exact ih.pages hid hid' hl hr hL hR hturns work

end Meets

/-! ## The difference of two trees -/

section Exact

variable {read : Id → ContentResult (Wire Id K V)}

def TreeRows (read : Id → ContentResult (Wire Id K V)) (root : Option Id) (rows : List (K × V)) :
    Prop :=
  match root with
  | none => rows = []
  | some id => ∃ level, Stored read level id rows

def collect (changes : List (Change K V)) (key : K) (left right : Option V) :
    ContentResult (List (Change K V)) := .ok (changes ++ [(key, left, right)])

theorem visits_collect (seen changes : List (Change K V)) :
    visits collect seen changes = .ok (seen ++ changes) := by
  induction changes generalizing seen with
  | nil =>
    rw [append_nil]
    rfl
  | cons c changes ih =>
    have hrest := ih (seen ++ [c])
    rw [append_assoc] at hrest
    exact hrest

theorem TreeRows.frontier {root : Option Id} {rows : List (K × V)} (h : TreeRows read root rows) :
    ∃ w, Frontier read (start root) rows w := by
  rcases root with _ | id
  · cases h
    exact ⟨0, .nil⟩
  · obtain ⟨level, hid⟩ := h
    have hpage : Frontier read [Item.page id maximumTreeLevel] (rows ++ []) _ := .page _ hid .nil
    rw [append_nil] at hpage
    exact ⟨_, hpage⟩

/-- **One list of changes** is shown to every visitor, in any walk of turns enough. -/
theorem exists_visits [DecidableEq Id] [LinearOrder K] [DecidableEq V] {left right : Option Id}
    (hleft : TreeRows read left L) (hright : TreeRows read right R) (hL : Ascending L)
    (hR : Ascending R) :
    ∃ changes, Differs L R changes ∧ ∃ turns, ∀ more, turns ≤ more →
      ∀ (work : DifferenceWork) {σ : Type}
        (visit : σ → K → Option V → Option V → ContentResult σ) (s : σ),
        (difference read visit more left right s work).map Prod.fst = visits visit s changes := by
  obtain ⟨wl, hl⟩ := hleft.frontier
  obtain ⟨wr, hr⟩ := hright.frontier
  have hkeeps : Walks read collect (wl + wr + 1) := differenceLoop_differs _
  obtain ⟨changes, hdiffers, -⟩ := hkeeps hl hr hL hR (Nat.lt_succ_self _) ⟨0, 0, 0⟩
  refine ⟨changes, hdiffers, wl + wr + 1, fun more hmore work σ visit s => ?_⟩
  have hwalks : Walks read visit more := differenceLoop_differs _
  obtain ⟨changes', hdiffers', hmakes⟩ := hwalks hl hr hL hR hmore work
  rw [hdiffers.unique hdiffers' hL hR]
  exact hmakes s

/-- **The difference of two trees**, of any heights and page shapes: the walk ends, and it meets
exactly the keys whose rows differ, each once, in key order, with the row each side holds; any
visitor is shown these and nothing else. -/
theorem difference_exact [DecidableEq Id] [LinearOrder K] [DecidableEq V]
    {left right : Option Id} {L R : List (K × V)}
    (hleft : TreeRows read left L) (hright : TreeRows read right R) (hL : Ascending L)
    (hR : Ascending R) :
    ∃ changes : List (Change K V), Ascending changes ∧
      (∀ (key : K) (a b : Option V), (key, a, b) ∈ changes ↔
        a = L.lookup key ∧ b = R.lookup key ∧ L.lookup key ≠ R.lookup key) ∧
      ∃ turns, ∀ more, turns ≤ more → ∀ work : DifferenceWork,
        (∃ work', difference read collect more left right [] work = .ok (changes, work')) ∧
        ∀ {σ : Type} (visit : σ → K → Option V → Option V → ContentResult σ) (s : σ),
          (difference read visit more left right s work).map Prod.fst =
            changes.foldlM (fun s c => visit s c.1 c.2.1 c.2.2) s := by
  obtain ⟨changes, hdiffers, turns, hall⟩ := exists_visits hleft hright hL hR
  refine ⟨changes, hdiffers.ascending hL hR, fun key a b => hdiffers.mem_iff hL hR (key, a, b),
    turns, fun more hmore work => ⟨?_, fun visit s => hall more hmore work visit s⟩⟩
  have hcollect := hall more hmore work collect []
  rw [visits_collect, nil_append] at hcollect
  rcases hrun : difference read collect more left right [] work with e | ⟨seen, work'⟩
  · rw [hrun] at hcollect
    cases hcollect
  · rw [hrun] at hcollect
    cases hcollect
    exact ⟨work', rfl⟩

def sharedLeaf (id : ℕ) : ContentResult (Wire ℕ ℕ ℕ) :=
  match id with
  | 1 => .ok ⟨1, [(2, 2), (5, 3)].map branchEntry⟩
  | 2 => .ok ⟨0, [(1, 10), (2, 20)].map leafEntry⟩
  | 3 => .ok ⟨0, [(5, 50)].map leafEntry⟩
  | 4 => .ok ⟨2, [(7, 5)].map branchEntry⟩
  | 5 => .ok ⟨1, [(2, 2), (7, 6)].map branchEntry⟩
  | 6 => .ok ⟨0, [(5, 51), (7, 70)].map leafEntry⟩
  | _ => .error .missingObject

/-- The shared leaf is met by neither side, a key of both and a key of one are. -/
theorem difference_exact_resident :
    (∃ changes : List (Change ℕ ℕ), Ascending changes ∧
      (∀ (key : ℕ) (a b : Option ℕ), (key, a, b) ∈ changes ↔
        a = [(1, 10), (2, 20), (5, 50)].lookup key ∧
          b = [(1, 10), (2, 20), (5, 51), (7, 70)].lookup key ∧
          [(1, 10), (2, 20), (5, 50)].lookup key ≠
            [(1, 10), (2, 20), (5, 51), (7, 70)].lookup key) ∧
      ∃ turns, ∀ more, turns ≤ more → ∀ work : DifferenceWork,
        (∃ work', difference sharedLeaf collect more (some 1) (some 4) [] work =
          .ok (changes, work')) ∧
        ∀ {σ : Type} (visit : σ → ℕ → Option ℕ → Option ℕ → ContentResult σ) (s : σ),
          (difference sharedLeaf visit more (some 1) (some 4) s work).map Prod.fst =
            changes.foldlM (fun s c => visit s c.1 c.2.1 c.2.2) s) ∧
    difference sharedLeaf collect 12 (some 1) (some 4) [] ⟨0, 0, 0⟩ =
      .ok ([(5, some 50, some 51), (7, none, some 70)], ⟨5, 1, 1⟩) := by
  have hleft : TreeRows sharedLeaf (some 1) [(1, 10), (2, 20), (5, 50)] :=
    ⟨1, [(2, 2), (5, 3)], [[(1, 10), (2, 20)], [(5, 50)]], rfl, rfl, .cons rfl (.cons rfl .nil)⟩
  have hright : TreeRows sharedLeaf (some 4) [(1, 10), (2, 20), (5, 51), (7, 70)] :=
    ⟨2, [(7, 5)], [[(1, 10), (2, 20), (5, 51), (7, 70)]], rfl, rfl,
      .cons ⟨[(2, 2), (7, 6)], [[(1, 10), (2, 20)], [(5, 51), (7, 70)]], rfl, rfl,
        .cons rfl (.cons rfl .nil)⟩ .nil⟩
  exact ⟨difference_exact hleft hright (by decide) (by decide), rfl⟩

end Exact

end LayerFs.Compare
