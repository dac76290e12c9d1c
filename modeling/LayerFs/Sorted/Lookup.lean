import LayerFs.Sorted.Order

/-!
# Lookups in a sorted tree

A lookup descends by the keys recorded for the children of a page. A batch of lookups descends one
level at a time: requests that go on in the same child share its read, and the answers keep the
order of the requests, with every repetition.

* `lookup_childRows` — **the rows of a key** lie below the first child recorded at or past it.
-/

namespace LayerFs

open List

variable {level : ℕ}

/-- `partition_point`: how many elements at the front satisfy the predicate. -/
def partitionPoint {α : Type} (p : α → Bool) (l : List α) : ℕ := (l.takeWhile p).length

namespace Page

variable {K V : Type} [LinearOrder K]

/-! ## One key -/

section Point

variable (check : Option (ℕ × K) → Option K → Page K V → ContentResult Unit)
variable (find : List (K × V) → K → Option V) (key : K)

mutual

/-- The descent through one page: `minimum` is the key recorded for the nearest sibling to the left
of the path. -/
def lookupPage (expected : Option (ℕ × K)) (minimum : Option K) (p : Page K V) :
    ContentResult (Option V) := do
  check expected minimum p
  match p with
  | .absent error => .error error
  | .leaf rows => return find rows key
  | .branch level _ _ rows => lookupChildren level minimum rows

def lookupChildren (level : ℕ) (minimum : Option K) :
    List (K × Page K V) → ContentResult (Option V)
  | [] => .ok none
  | (recorded, child) :: rest =>
    if recorded < key then lookupChildren level (some recorded) rest
    else do
      ensure (level != 0) .mappingDepthExceeded
      lookupPage (some (level - 1, recorded)) minimum child

end

end Point

/-! ## Many keys -/

/-- One page of a wave, where it was found, and the requests that reached it: their place among the
answers and their key. -/
structure Demand (K V : Type) where
  page : Page K V
  expected : Option (ℕ × K)
  requests : List (ℕ × K)

/-- The children of a branch that some request goes on in, with these requests. -/
def groupDemands (level : ℕ) (children : List (K × Page K V)) (requests : List (ℕ × K)) :
    List (Demand K V) :=
  children.zipIdx.filterMap fun child =>
    let group := requests.filter fun request =>
      partitionPoint (fun row => decide (row.1 < request.2)) children == child.2
    if group.isEmpty then none else some ⟨child.1.2, some (level - 1, child.1.1), group⟩

def answerRequests (rows : List (K × V)) (requests : List (ℕ × K)) (answers : List (Option V)) :
    List (Option V) :=
  requests.foldl (fun answers request => answers.set request.1 (rows.lookup request.2)) answers

section Batch

variable (decode : Page K V → ContentResult Unit)
variable (check : Option (ℕ × K) → Page K V → ContentResult Unit)

/-- One page of a wave: its answers, or the demands on the next level. -/
def visitDemand (demand : Demand K V) (answers : List (Option V)) :
    ContentResult (List (Demand K V) × List (Option V)) := do
  check demand.expected demand.page
  match demand.page with
  | .absent error => .error error
  | .leaf rows => return ([], answerRequests rows demand.requests answers)
  | .branch level _ _ rows => return (groupDemands level rows demand.requests, answers)

def visitWave : List (Demand K V) → List (Option V) →
    ContentResult (List (Demand K V) × List (Option V))
  | [], answers => .ok ([], answers)
  | demand :: rest, answers => do
    let (next, answers) ← visitDemand check demand answers
    let (later, answers) ← visitWave rest answers
    return (next ++ later, answers)

/-- The waves, one for each level; every page of a wave is decoded before any is visited. -/
def lookupWaves : ℕ → List (Demand K V) → List (Option V) → ContentResult (List (Option V))
  | 0, wave, answers => if wave.isEmpty then .ok answers else .error .mappingDepthExceeded
  | turns + 1, wave, answers =>
    if wave.isEmpty then .ok answers else do
      let _ ← wave.mapM fun demand => decode demand.page
      let (next, answers) ← visitWave check wave answers
      lookupWaves turns next answers

def lookupBatch (root : Page K V) (keys : List K) : ContentResult (List (Option V)) :=
  lookupWaves decode check (maximumTreeLevel + 1)
    [⟨root, none, keys.zipIdx.map Prod.swap⟩] (List.replicate keys.length none)

end Batch

/-! ## Where a key goes -/

variable {chk : Option (ℕ × K) → Page K V → Prop}

variable {children : List (K × Page K V)}
/-- **The rows of a key** lie below the first child recorded at or past it. -/
theorem lookup_childRows (hs : Sound chk) {k : K} :
    ∀ {floor : Option K}, ChildrenChecked chk level children → ChildrenInOrder floor children →
      (childRows children).lookup k =
        children[partitionPoint (fun row => decide (row.1 < k)) children]?.bind
          fun row => row.2.rows.lookup k := by
  induction children with
  | nil => exact fun _ _ => rfl
  | cons kp rest ih =>
    obtain ⟨key, child⟩ := kp
    intro floor hchecked hordered
    obtain ⟨hchild, hrest⟩ := childrenChecked_cons.mp hchecked
    obtain ⟨-, -, horest⟩ := childrenInOrder_cons.mp hordered
    rw [childRows_cons, lookup_append, partitionPoint, takeWhile_cons]
    by_cases hbefore : key < k
    · -- no row of the child is past its recorded key
      have hnone : child.rows.lookup k = none := by
        rw [List.lookup_eq_none_iff]
        intro row hrow
        have hle := rows_le_maximum hs hchild row hrow
        exact bne_iff_ne.mpr (hle.trans_lt hbefore).ne'
      rw [hnone, Option.none_or, ih hrest horest, if_pos (decide_eq_true hbefore)]
      rfl
    · have hnone : (childRows rest).lookup k = none := by
        rw [List.lookup_eq_none_iff]
        intro row hrow
        have hlt := above_some.mp (InOrder.above_rows (p := .branch 0 0 0 rest)
          (inOrder_branch.mpr horest) row (by rwa [rows_branch]))
        exact bne_iff_ne.mpr ((not_lt.mp hbefore).trans_lt hlt).ne
      rw [hnone, Option.or_none, if_neg (by simpa using hbefore)]
      rfl

def Branching (chk : Option (ℕ × K) → Page K V → Prop) : Prop :=
  ∀ {expected level count bytes rows}, chk expected (.branch level count bytes rows) → level ≠ 0

/-- **One lookup** of a checked tree in order answers with its rows. -/
theorem lookupPage_eq (hs : Sound chk) (hb : Branching chk)
    {check : Option (ℕ × K) → Option K → Page K V → ContentResult Unit}
    {find : List (K × V) → K → Option V} {key : K}
    (hcheck : ∀ {expected floor p}, AllChecked chk expected p → InOrder floor p →
      check expected floor p = .ok ())
    (hfind : ∀ {expected rows}, chk expected (.leaf rows) → find rows key = rows.lookup key) :
    (∀ (p : Page K V) {expected : Option (ℕ × K)} {floor : Option K},
      AllChecked chk expected p → InOrder floor p →
      lookupPage check find key expected floor p = .ok (p.rows.lookup key)) ∧
    ∀ (children : List (K × Page K V)) {level : ℕ} {floor : Option K}, level ≠ 0 →
      ChildrenChecked chk (level - 1) children → ChildrenInOrder floor children →
      lookupChildren check find key level floor children =
        .ok ((childRows children).lookup key) := by
  refine ind₂ ?_ ?_ ?_ ?_ ?_
  · exact fun e expected floor h _ => absurd h.self hs.present
  · intro rows expected floor h ho
    rw [lookupPage, hcheck h ho, ok_bind, rows_leaf]
    exact congrArg _ (hfind h.self)
  · intro level count bytes rows ih expected floor h ho
    obtain ⟨hself, hchildren⟩ := allChecked_branch.mp h
    rw [lookupPage, hcheck h ho, ok_bind, rows_branch]
    exact ih (hb hself) hchildren (inOrder_branch.mp ho)
  · intro level floor _ _ _
    rw [lookupChildren, childRows_nil]
    rfl
  · intro recorded child rest ihchild ihrest level floor hlevel hchecked hordered
    have hwhere := lookup_childRows hs hchecked hordered (k := key)
    obtain ⟨hchild, hrest⟩ := childrenChecked_cons.mp hchecked
    obtain ⟨-, hochild, horest⟩ := childrenInOrder_cons.mp hordered
    rw [partitionPoint, takeWhile_cons] at hwhere
    rw [lookupChildren]
    by_cases hbefore : recorded < key
    · rw [if_pos (decide_eq_true hbefore), length_cons, getElem?_cons_succ] at hwhere
      rw [if_pos hbefore, ihrest hlevel hrest horest, hwhere, lookup_childRows hs hrest horest]
      rfl
    · rw [if_neg (by simpa using hbefore)] at hwhere
      rw [if_neg hbefore, hwhere, ihchild hchild hochild]
      exact check_bind_eq_ok.mpr ⟨ensure_eq_ok.mpr (bne_iff_ne.mpr hlevel), rfl⟩

theorem ordered_child {key : K} {page : Page K V} :
    ∀ {floor : Option K}, ChildrenInOrder floor children → (key, page) ∈ children →
      ∃ floor, InOrder floor page := by
  induction children with
  | nil => exact fun _ h => by cases h
  | cons kp rest ih =>
    intro floor h hin
    obtain ⟨-, hpage, hrest⟩ := childrenInOrder_cons.mp h
    rcases mem_cons.mp hin with rfl | hin
    · exact ⟨floor, hpage⟩
    · exact ih hrest hin

/-! ## Where a batch stands -/

/-- **A demand of a batch**: a checked page in order, of a level that is still to come, whose rows
answer its requests. -/
structure Demand.Fine (chk : Option (ℕ × K) → Page K V → Prop) (root : Page K V) (keys : List K)
    (turns : ℕ) (demand : Demand K V) : Prop where
  checked : AllChecked chk demand.expected demand.page
  ordered : ∃ floor, InOrder floor demand.page
  level_lt : demand.page.level < turns
  known : ∀ request ∈ demand.requests, keys[request.1]? = some request.2
  answered : ∀ request ∈ demand.requests,
    demand.page.rows.lookup request.2 = root.rows.lookup request.2

def pendingOf (wave : List (Demand K V)) : List (ℕ × K) := wave.flatMap Demand.requests

/-- **The answers of a batch so far**: right, or still empty and pending. -/
structure Answers (root : Page K V) (keys : List K) (pending : List (ℕ × K))
    (answers : List (Option V)) : Prop where
  length_eq : answers.length = keys.length
  right : ∀ {i key}, keys[i]? = some key → answers[i]? = some (root.rows.lookup key) ∨
    answers[i]? = some none ∧ (i, key) ∈ pending

variable {rows : List (K × V)} {requests : List (ℕ × K)}

theorem length_answerRequests :
    ∀ {answers : List (Option V)}, (answerRequests rows requests answers).length =
      answers.length := by
  induction requests with
  | nil => exact rfl
  | cons request rest ih =>
    intro answers
    rw [answerRequests, foldl_cons]
    exact ih.trans length_set

theorem getElem_answerRequests {keys : List K} {i : ℕ} {key : K} (hkey : keys[i]? = some key) :
    ∀ {answers : List (Option V)}, (∀ request ∈ requests, keys[request.1]? = some request.2) →
      i < answers.length →
      (answerRequests rows requests answers)[i]? =
        if (i, key) ∈ requests then some (rows.lookup key) else answers[i]? := by
  induction requests with
  | nil => intro answers _ _; rfl
  | cons request rest ih =>
    obtain ⟨j, other⟩ := request
    intro answers hknown hi
    rw [answerRequests, foldl_cons]
    have hrest := @ih (answers.set j (rows.lookup other))
      (fun r hr => hknown r (mem_cons_of_mem _ hr)) (by rwa [length_set])
    rw [answerRequests] at hrest
    rw [hrest]
    by_cases hin : (i, key) ∈ rest
    · rw [if_pos hin, if_pos (mem_cons_of_mem _ hin)]
    · rw [if_neg hin]
      by_cases hsame : j = i
      · subst hsame
        have hother := hknown (j, other) mem_cons_self
        rw [hkey, Option.some.injEq] at hother
        subst hother
        rw [if_pos mem_cons_self, getElem?_set_self hi]
      · have hnot : (i, key) ∉ (j, other) :: rest := by
          rw [mem_cons, not_or, Prod.mk.injEq]
          exact ⟨fun h => hsame h.1.symm, hin⟩
        rw [if_neg hnot, getElem?_set_ne hsame]

theorem mem_pendingOf_groupDemands {request : ℕ × K} (h : request ∈ requests)
    (hchild : partitionPoint (fun row => decide (row.1 < request.2)) children < children.length) :
    request ∈ pendingOf (groupDemands level children requests) := by
  let place := partitionPoint (fun row => decide (row.1 < request.2)) children
  let group := requests.filter fun request =>
    partitionPoint (fun row => decide (row.1 < request.2)) children == place
  have hin : request ∈ group := mem_filter.mpr ⟨h, beq_self_eq_true _⟩
  have hsome : group.isEmpty = false := by
    rw [isEmpty_eq_false_iff]
    exact ne_nil_of_mem hin
  refine mem_flatMap.mpr ⟨⟨children[place].2, some (level - 1, children[place].1), group⟩,
    mem_filterMap.mpr ⟨(children[place], place), ?_, ?_⟩, hin⟩
  · exact mk_mem_zipIdx_iff_getElem?.mpr (getElem?_eq_getElem hchild)
  · exact if_neg (by rw [hsome]; exact Bool.false_ne_true)

variable {demand : Demand K V}

theorem of_mem_groupDemands (h : demand ∈ groupDemands level children requests) :
    ∃ key page, (key, page) ∈ children ∧ demand.page = page ∧
      demand.expected = some (level - 1, key) ∧ ∀ request ∈ demand.requests, request ∈ requests ∧
        children[partitionPoint (fun row => decide (row.1 < request.2)) children]? =
          some (key, page) := by
  obtain ⟨⟨⟨key, page⟩, place⟩, hplace, hmade⟩ := mem_filterMap.mp h
  have hget := mk_mem_zipIdx_iff_getElem?.mp hplace
  dsimp only at hmade
  split_ifs at hmade
  cases hmade
  refine ⟨key, page, mem_of_getElem? hget, rfl, rfl, fun request hrequest => ?_⟩
  obtain ⟨hin, hwhere⟩ := mem_filter.mp hrequest
  exact ⟨hin, by rw [beq_iff_eq.mp hwhere, hget]⟩

/-! ## What a batch answers -/

section Waves

variable {root : Page K V} {keys : List K} {pending : List (ℕ × K)} {turns : ℕ}
variable {check : Option (ℕ × K) → Page K V → ContentResult Unit}

variable {answers : List (Option V)}
theorem Answers.of_settled (h : Answers root keys (requests ++ pending) answers)
    {left : List (ℕ × K)}
    (hsettled : ∀ request ∈ requests, request ∈ left ∨ root.rows.lookup request.2 = none) :
    Answers root keys (left ++ pending) answers where
  length_eq := h.length_eq
  right := by
    intro i key hkey
    rcases h.right hkey with hright | ⟨hempty, hin⟩
    · exact .inl hright
    · rcases mem_append.mp hin with hin | hin
      · rcases hsettled _ hin with hleft | hnone
        · exact .inr ⟨hempty, mem_append_left _ hleft⟩
        · exact .inl (by rw [hempty, hnone])
      · exact .inr ⟨hempty, mem_append_right _ hin⟩

/-- **One page of a wave**: its requests are answered, or go on one level below. -/
theorem visitDemand_eq (hs : Sound chk) (hb : Branching chk)
    (hlevel : ∀ {l k p}, chk (some (l, k)) p → p.level = l)
    (hcheck : ∀ {expected p}, AllChecked chk expected p → check expected p = .ok ())
    (hfine : demand.Fine chk root keys (turns + 1))
    (hanswers : Answers root keys (demand.requests ++ pending) answers) :
    ∃ next answers', visitDemand check demand answers = .ok (next, answers') ∧
      (∀ child ∈ next, child.Fine chk root keys turns) ∧
      Answers root keys (pendingOf next ++ pending) answers' := by
  obtain ⟨page, expected, requests⟩ := demand
  obtain ⟨hchecked, ⟨floor, hordered⟩, hlt, hknown, hanswered⟩ := hfine
  dsimp only at hchecked hordered hlt hknown hanswered hanswers
  have hrun := hcheck hchecked
  rw [visitDemand]
  dsimp only
  rw [hrun, ok_bind]
  cases page with
  | absent e => exact absurd hchecked.self hs.present
  | leaf rows =>
    refine ⟨[], _, rfl, forall_mem_nil _, ?_, ?_⟩
    · exact length_answerRequests.trans hanswers.length_eq
    · intro i key hkey
      have hi : i < answers.length := by
        rw [hanswers.length_eq]
        exact (List.getElem?_eq_some_iff.mp hkey).1
      rw [getElem_answerRequests hkey hknown hi]
      by_cases hin : (i, key) ∈ requests
      · rw [if_pos hin]
        exact .inl (congrArg some (by rw [← hanswered _ hin, rows_leaf]))
      · rw [if_neg hin]
        rcases hanswers.right hkey with hright | ⟨hempty, hpending⟩
        · exact .inl hright
        · exact .inr ⟨hempty, (mem_append.mp hpending).resolve_left hin⟩
  | branch level count bytes children =>
    obtain ⟨hself, hchildren⟩ := allChecked_branch.mp hchecked
    rw [inOrder_branch] at hordered
    have hwhere : ∀ key, (childRows children).lookup key =
        children[partitionPoint (fun row => decide (row.1 < key)) children]?.bind
          fun row => row.2.rows.lookup key := fun key => lookup_childRows hs hchildren hordered
    refine ⟨groupDemands level children requests, answers, rfl, ?_, hanswers.of_settled ?_⟩
    · intro child hchild
      obtain ⟨key, page, hin, rfl, hexpected, hrequests⟩ := of_mem_groupDemands hchild
      have hpage : AllChecked chk (some (level - 1, key)) child.page :=
        childrenChecked_iff.mp hchildren _ hin
      have hpos : level ≠ 0 := hb hself
      refine ⟨by rw [hexpected]; exact hpage, ordered_child hordered hin, ?_, ?_, ?_⟩
      · have hl := hlevel hpage.self
        have hlt' : level < turns + 1 := hlt
        omega
      · exact fun request hrequest => hknown request (hrequests request hrequest).1
      · intro request hrequest
        obtain ⟨hfrom, hgoes⟩ := hrequests request hrequest
        rw [← hanswered request hfrom, rows_branch, hwhere, hgoes]
        rfl
    · intro request hrequest
      by_cases hgoes :
          partitionPoint (fun row => decide (row.1 < request.2)) children < children.length
      · exact .inl (mem_pendingOf_groupDemands hrequest hgoes)
      · right
        rw [← hanswered request hrequest, rows_branch, hwhere,
          getElem?_eq_none (not_lt.mp hgoes)]
        rfl

/-- **One wave**: every page of it, one after the other. -/
theorem visitWave_eq (hs : Sound chk) (hb : Branching chk)
    (hlevel : ∀ {l k p}, chk (some (l, k)) p → p.level = l)
    (hcheck : ∀ {expected p}, AllChecked chk expected p → check expected p = .ok ())
    {wave : List (Demand K V)} :
    ∀ {pending : List (ℕ × K)} {answers : List (Option V)},
      (∀ demand ∈ wave, demand.Fine chk root keys (turns + 1)) →
      Answers root keys (pendingOf wave ++ pending) answers →
      ∃ next answers', visitWave check wave answers = .ok (next, answers') ∧
        (∀ child ∈ next, child.Fine chk root keys turns) ∧
        Answers root keys (pendingOf next ++ pending) answers' := by
  induction wave with
  | nil =>
    intro pending answers _ hanswers
    exact ⟨[], answers, rfl, forall_mem_nil _, hanswers⟩
  | cons demand rest ih =>
    intro pending answers hfine hanswers
    have hsplit : pendingOf (demand :: rest) = demand.requests ++ pendingOf rest :=
      flatMap_cons
    rw [hsplit, append_assoc] at hanswers
    obtain ⟨next, first, hvisit, hnext, hfirst⟩ :=
      visitDemand_eq hs hb hlevel hcheck (hfine demand mem_cons_self) hanswers
    have hswap : Answers root keys (pendingOf rest ++ (pendingOf next ++ pending)) first :=
      ⟨hfirst.length_eq, fun hkey => (hfirst.right hkey).imp_right fun h => ⟨h.1, by
        have hin := h.2
        simp only [mem_append] at hin ⊢
        tauto⟩⟩
    obtain ⟨later, last, hwave, hlater, hlast⟩ :=
      ih (fun d hd => hfine d (mem_cons_of_mem _ hd)) hswap
    refine ⟨next ++ later, last, ?_, ?_, ?_⟩
    · rw [visitWave, hvisit, ok_bind]
      dsimp only
      rw [hwave]
      rfl
    · intro child hchild
      exact (mem_append.mp hchild).elim (hnext child) (hlater child)
    · have hall : pendingOf (next ++ later) = pendingOf next ++ pendingOf later :=
        flatMap_append
      refine ⟨hlast.length_eq, fun hkey => (hlast.right hkey).imp_right fun h => ⟨h.1, ?_⟩⟩
      have hin := h.2
      rw [hall]
      simp only [mem_append] at hin ⊢
      tauto

variable {decode : Page K V → ContentResult Unit}

theorem Answers.eq_of_none (h : Answers root keys [] answers) :
    answers = keys.map fun key => root.rows.lookup key := by
  refine ext_getElem? fun i => ?_
  rw [getElem?_map]
  rcases hkey : keys[i]? with _ | key
  · rw [List.getElem?_eq_none_iff] at hkey
    exact getElem?_eq_none (h.length_eq.trans_le hkey)
  · exact (h.right hkey).elim id fun h => absurd h.2 not_mem_nil

/-- **The waves** of a batch end with every request answered. -/
theorem lookupWaves_eq (hs : Sound chk) (hb : Branching chk)
    (hlevel : ∀ {l k p}, chk (some (l, k)) p → p.level = l)
    (hcheck : ∀ {expected p}, AllChecked chk expected p → check expected p = .ok ())
    (hdecode : ∀ {expected p}, AllChecked chk expected p → decode p = .ok ()) {turns : ℕ} :
    ∀ {wave : List (Demand K V)} {answers : List (Option V)},
      (∀ demand ∈ wave, demand.Fine chk root keys turns) →
      Answers root keys (pendingOf wave) answers →
      lookupWaves decode check turns wave answers =
        .ok (keys.map fun key => root.rows.lookup key) := by
  induction turns with
  | zero =>
    intro wave answers hfine hanswers
    cases wave with
    | nil => exact congrArg _ hanswers.eq_of_none
    | cons demand rest =>
      exact absurd (hfine demand mem_cons_self).level_lt (Nat.not_lt_zero _)
  | succ turns ih =>
    intro wave answers hfine hanswers
    rw [lookupWaves]
    cases hempty : wave.isEmpty with
    | true =>
      rw [List.isEmpty_iff.mp hempty] at hanswers
      exact congrArg _ hanswers.eq_of_none
    | false =>
      have hall : Answers root keys (pendingOf wave ++ []) answers := by rwa [append_nil]
      obtain ⟨next, later, hvisit, hnext, hlater⟩ := visitWave_eq hs hb hlevel hcheck hfine hall
      rw [append_nil] at hlater
      have hpages : ∃ units, (wave.mapM fun demand => decode demand.page) = .ok units :=
        mapM_ok_of_forall fun demand hdemand => ⟨(), hdecode (hfine demand hdemand).checked⟩
      obtain ⟨units, hpages⟩ := hpages
      rw [if_neg Bool.false_ne_true, hpages, ok_bind, hvisit, ok_bind]
      exact ih hnext hlater

/-- **A batch from the root** answers every key with its row, in the order of the keys. -/
theorem lookupBatch_eq (hs : Sound chk) (hb : Branching chk)
    (hlevel : ∀ {l k p}, chk (some (l, k)) p → p.level = l)
    (hcheck : ∀ {expected p}, AllChecked chk expected p → check expected p = .ok ())
    (hdecode : ∀ {expected p}, AllChecked chk expected p → decode p = .ok ())
    (hroot : AllChecked chk none root) (horder : InOrder none root)
    (hdeep : root.level ≤ maximumTreeLevel) :
    lookupBatch decode check root keys = .ok (keys.map fun key => root.rows.lookup key) := by
  have hplaces : ∀ request ∈ keys.zipIdx.map Prod.swap, keys[request.1]? = some request.2 := by
    intro request hrequest
    obtain ⟨⟨key, i⟩, hin, rfl⟩ := mem_map.mp hrequest
    exact mk_mem_zipIdx_iff_getElem?.mp hin
  refine lookupWaves_eq hs hb hlevel hcheck hdecode ?_ ⟨length_replicate, ?_⟩
  · intro demand hdemand
    cases mem_singleton.mp hdemand
    exact ⟨hroot, ⟨none, horder⟩, Nat.lt_succ_of_le hdeep, hplaces, fun _ _ => rfl⟩
  · intro i key hkey
    have hi := (List.getElem?_eq_some_iff.mp hkey).1
    refine .inr ⟨by rw [getElem?_replicate, if_pos hi], ?_⟩
    rw [pendingOf, flatMap_cons, flatMap_nil, append_nil]
    exact mem_map.mpr ⟨(key, i), mk_mem_zipIdx_iff_getElem?.mpr hkey, rfl⟩

end Waves

end Page

end LayerFs
