import LayerFs.Glob.Rule
import LayerFs.Listing.Base

/-!
# The namespace walk (`read/walk.rs`, `read/snapshot.rs`)

A depth-first walk of a snapshot in name order, from windows of bounded size. A glob's walk enters
only folders that agree with its leading folders, and starts at these when it is asked to start
above them.

* `collect_eq` — **every walk ends**, and yields the entries below its frames, less those behind a
  folder that does not agree.
-/

namespace LayerFs.Glob

open List

variable {Id : Type}
variable {e : List PathName × EntryFacts Id} {ns : Namespace Id} {row : PathName × ℕ} {d : ℕ}

/-! ## Snapshots -/

/-- A stored tree: its rows, and the pages every directory's content root leads to. -/
structure Tree (Id : Type) where
  ns : Namespace Id
  pages : Id → DirectoryPage
  valid : ns.ValidBase
  /-- a directory's pages pass the checks of a read -/
  checked : ∀ {d value}, (d, value) ∈ ns.inodes → value.kind = .directory →
    Page.AllChecked directoryCheck none (pages value.contentRoot)
  holds : ∀ {d value}, (d, value) ∈ ns.inodes → value.kind = .directory →
    (pages value.contentRoot).rows = ns.listing d

/-- `Snap`: a resolved snapshot, as the walks read it. -/
structure Snap (Id : Type) where
  label : List ℕ
  tree : Tree Id

/-- Refused reads (`SdkRefusal`). -/
inductive Refusal where
  /-- `InvalidInput`: the path is not valid -/
  | invalid (path : List ℕ)
  /-- `NoSuchPath`: the path does not exist at the snapshot's label -/
  | noSuchPath (path label : List ℕ)
  /-- a failed read of a page -/
  | content (error : ContentError)
  /-- `Failed`, with its description -/
  | failed (text : String)

/-! ## Lookups by path -/

/-- `find`: the entry at a path, if any. -/
def find (ns : Namespace Id) (path : List ℕ) : Except Refusal (Option (EntryFacts Id)) :=
  match ns.walk ns.root (pathNames path) with
  -- the only failure of a valid tree's lookups: a name the grammar refuses
  | .error _ => .error (.invalid path)
  | .ok none => .ok none
  | .ok (some serial) => .ok ((ns.lookup serial).map fun value => ⟨serial, value⟩)

/-- `existing`: the entry at a path, refused when absent. -/
def existing (snap : Snap Id) (path : List ℕ) : Except Refusal (EntryFacts Id) :=
  match find snap.tree.ns path with
  | .error e => .error e
  | .ok none => .error (.noSuchPath path snap.label)
  | .ok (some entry) => .ok entry

/-! ## The walker -/

/-- `join`: the path of a name in a folder. -/
def join (parent : List ℕ) (name : PathName) : List ℕ :=
  if parent = [slash] then slash :: name.bytes else parent ++ slash :: name.bytes

/-- `agrees`: some path below the folder can start with `folders`. -/
def agrees (folders path : List ℕ) : Bool :=
  let below := if (trim path).isEmpty then [] else trim path ++ [slash]
  below.isPrefixOf folders || folders.isPrefixOf below

/-- The limits of one window: its names and their bytes. -/
def directoryWindow : ℕ := 64

@[inherit_doc directoryWindow]
def directoryBytes : ℕ := 8192

/-- `Frame`: one directory, one window of it and the name to go on after. -/
structure Frame (Id : Type) where
  path : List ℕ
  entry : EntryFacts Id
  after : Option PathName := none
  pending : List (PathName × ℕ × Option (InodeValue Id)) := []
  exhausted : Bool := false

/-- `Walker`: its frames, the innermost first. -/
structure Walker (Id : Type) where
  stack : List (Frame Id)
  top : Option (List ℕ × EntryFacts Id)
  within : Option (List ℕ)

/-- `folders.trim_end_matches('/')` as an absolute path. -/
def deeper (folders : List ℕ) : List ℕ :=
  slash :: (folders.reverse.dropWhile (· == slash)).reverse

/-- Where a walk within `folders` starts: at `folders` when these are deeper than its path. -/
def startWithin (ns : Namespace Id) (path : List ℕ) (entry : EntryFacts Id) (folders : List ℕ) :
    Option (Frame Id) :=
  if agrees folders path then
    if path.length < (deeper folders).length then
      -- a name the lookup refuses cannot be walked into
      match find ns (deeper folders) with
      | .ok (some entry) =>
        if entry.value.kind = .directory then some { path := deeper folders, entry } else none
      | _ => none
    else some { path, entry }
  else none

/-- `Walker::within`. -/
def within (snap : Snap Id) (path : List ℕ) (folders : Option (List ℕ)) :
    Except Refusal (Walker Id) :=
  match existing snap path with
  | .error e => .error e
  | .ok entry =>
    if entry.value.kind = .directory then
      match folders with
      | none => .ok { stack := [{ path, entry }], top := none, within := none }
      | some text =>
        .ok { stack := (startWithin snap.tree.ns path entry text).toList, top := none,
              within := some text }
    else .ok { stack := [], top := some (path, entry), within := folders }

def Frame.refill (tree : Tree Id) (frame : Frame Id) : Except Refusal (Frame Id) :=
  if frame.pending.isEmpty && !frame.exhausted then
    match listAfter frame.after directoryWindow directoryBytes
        (tree.pages frame.entry.value.contentRoot) with
    | .error e => .error (.content e)
    | .ok page =>
      .ok { frame with
        exhausted := page.continuation.isNone
        after := page.continuation
        pending := page.entries.map fun row => (row.1, row.2, tree.ns.lookup row.2) }
  else .ok frame

def enters (folders : Option (List ℕ)) (path : List ℕ) (value : InodeValue Id) : Bool :=
  value.kind == .directory && folders.all (agrees · path)

/-- The loop of `Walker::next` over the frames: a frame with nothing left is popped. -/
def nextIn (tree : Tree Id) (folders : Option (List ℕ)) :
    List (Frame Id) → Except Refusal (Option (List ℕ × EntryFacts Id) × List (Frame Id))
  | [] => .ok (none, [])
  | frame :: stack =>
    match frame.refill tree with
    | .error e => .error e
    | .ok frame =>
      match frame.pending with
      | [] => nextIn tree folders stack
      | (name, serial, value) :: pending =>
        match value with
        | none => .error (.failed "missing bound inode")
        | some value =>
          let path := join frame.path name
          let entry : EntryFacts Id := ⟨serial, value⟩
          let stack := { frame with pending } :: stack
          .ok (some (path, entry),
            if enters folders path value then { path, entry } :: stack else stack)

/-- `Walker::next`. -/
def Walker.next (tree : Tree Id) (walker : Walker Id) :
    Except Refusal (Option (List ℕ × EntryFacts Id) × Walker Id) :=
  match walker.top with
  | some top => .ok (some top, { walker with top := none })
  | none =>
    match nextIn tree walker.within walker.stack with
    | .error e => .error e
    | .ok (entry, stack) => .ok (entry, { walker with stack })

/-- The loop of `walk_within` with a visitor that takes every entry; nothing when it runs out of
fuel. -/
def collect (tree : Tree Id) : ℕ → Walker Id →
    Option (Except Refusal (List (List ℕ × EntryFacts Id)))
  | 0, _ => none
  | fuel + 1, walker =>
    match walker.next tree with
    | .error e => some (.error e)
    | .ok (none, _) => some (.ok [])
    | .ok (some entry, walker) => (collect tree fuel walker).map (Except.map (entry :: ·))

/-- `walk_within`. -/
def walkWithin (fuel : ℕ) (snap : Snap Id) (path : List ℕ) (folders : Option (List ℕ)) :
    Option (Except Refusal (List (List ℕ × EntryFacts Id))) :=
  match within snap path folders with
  | .error e => some (.error e)
  | .ok walker => collect snap.tree fuel walker

/-! ## What lies below a directory -/

def rowEntries (ns : Namespace Id) (below : ℕ → List (List PathName × EntryFacts Id))
    (row : PathName × ℕ) : List (List PathName × EntryFacts Id) :=
  match ns.lookup row.2 with
  | none => []
  | some value =>
    ([row.1], ⟨row.2, value⟩) ::
      if value.kind = .directory then (below row.2).map fun e => (row.1 :: e.1, e.2) else []

def entriesTo (ns : Namespace Id) : ℕ → ℕ → List (List PathName × EntryFacts Id)
  | 0, _ => []
  | depth + 1, d => (ns.listing d).flatMap (rowEntries ns (entriesTo ns depth))

/-- The entries below a directory by the names that lead to them, each behind its folder. -/
def entriesBelow (ns : Namespace Id) (d : ℕ) : List (List PathName × EntryFacts Id) :=
  entriesTo ns (ns.serials.length + 1) d

open Classical in
/-- How many serials lie below a serial. -/
noncomputable def rank (ns : Namespace Id) (d : ℕ) : ℕ :=
  (ns.serials.toFinset.filter (Relation.TransGen ns.Edge d ·)).card

theorem rank_le (ns : Namespace Id) (d : ℕ) : rank ns d ≤ ns.serials.length := by
  classical
  exact (Finset.card_filter_le _ _).trans (toFinset_card_le _)

theorem rank_lt (h : ns.WellFormed) {s : ℕ} (hedge : ns.Edge d s) : rank ns s < rank ns d := by
  classical
  refine Finset.card_lt_card (Finset.ssubset_iff_of_subset ?_ |>.mpr ⟨s, ?_, ?_⟩)
  · intro x hx
    rw [Finset.mem_filter] at hx ⊢
    exact ⟨hx.1, hx.2.head hedge⟩
  · rw [Finset.mem_filter, mem_toFinset]
    exact ⟨h.bound_mem hedge, .single hedge⟩
  · rw [Finset.mem_filter]
    exact fun hx => h.acyclic s hx.2

theorem mem_directories_iff_lookup (h : ns.ValidBase) :
    d ∈ ns.directories ↔ ∃ value, ns.lookup d = some value ∧ value.kind = .directory := by
  rw [Namespace.mem_directories]
  exact exists_congr fun value => and_congr_left fun _ => h.mem_iff_lookup

theorem rowEntries_congr (h : ns.ValidBase) {f g : ℕ → List (List PathName × EntryFacts Id)}
    (hsame : row.2 ∈ ns.directories → f row.2 = g row.2) :
    rowEntries ns f row = rowEntries ns g row := by
  rw [rowEntries, rowEntries]
  rcases hvalue : ns.lookup row.2 with _ | value
  · rfl
  · dsimp only
    split_ifs with hkind
    · rw [hsame ((mem_directories_iff_lookup h).mpr ⟨value, hvalue, hkind⟩)]
    · rfl

theorem edge_of_mem_listing (hd : d ∈ ns.directories) (hrow : row ∈ ns.listing d) :
    ns.Edge d row.2 :=
  ⟨hd, mem_map_of_mem hrow⟩

theorem flatMap_congr_mem {α β : Type} {l : List α} {f g : α → List β}
    (h : ∀ a ∈ l, f a = g a) : l.flatMap f = l.flatMap g := by
  rw [flatMap_def, flatMap_def, map_congr_left h]

theorem entriesTo_stable (h : ns.ValidBase) {n : ℕ} :
    ∀ {m d : ℕ}, d ∈ ns.directories → rank ns d < n → rank ns d < m →
      entriesTo ns n d = entriesTo ns m d := by
  induction n with
  | zero => exact fun _ hn => absurd hn (Nat.not_lt_zero _)
  | succ n ih =>
    intro m d hd hn hm
    obtain ⟨m, rfl⟩ : ∃ k, m = k + 1 := ⟨m - 1, by omega⟩
    refine flatMap_congr_mem fun row hrow => rowEntries_congr h fun hchild => ?_
    have hlt := rank_lt h.toWellFormed (edge_of_mem_listing hd hrow)
    exact ih hchild (by omega) (by omega)

/-- **The entries below a directory** are its bindings, each with what lies below it. -/
theorem entriesBelow_eq (h : ns.ValidBase) (hd : d ∈ ns.directories) :
    entriesBelow ns d = (ns.listing d).flatMap (rowEntries ns (entriesBelow ns)) := by
  refine flatMap_congr_mem fun row hrow => rowEntries_congr h fun hchild => ?_
  have hlt := rank_lt h.toWellFormed (edge_of_mem_listing hd hrow)
  have hle := rank_le ns d
  exact entriesTo_stable h hchild (by omega) (by omega)

theorem ne_nil_of_mem_rowEntries {below : ℕ → List (List PathName × EntryFacts Id)}
    (he : e ∈ rowEntries ns below row) : e.1 ≠ [] := by
  rw [rowEntries] at he
  split at he
  · cases he
  · rcases mem_cons.mp he with rfl | he
    · exact cons_ne_nil _ _
    · split_ifs at he
      · obtain ⟨e', -, rfl⟩ := mem_map.mp he
        exact cons_ne_nil _ _
      · cases he

theorem ne_nil_of_mem_entriesBelow (he : e ∈ entriesBelow ns d) : e.1 ≠ [] := by
  obtain ⟨row, -, he⟩ := mem_flatMap.mp he
  exact ne_nil_of_mem_rowEntries he

/-! ## What a walk shows -/

def spell (path : List ℕ) (names : List PathName) : List ℕ := names.foldl join path

def admitted (folders : Option (List ℕ)) : List ℕ → List PathName → Bool
  | _, [] => true
  | path, name :: rest =>
    rest.isEmpty || (folders.all (agrees · (join path name)) && admitted folders (join path name) rest)

/-- What a walk shows below a directory: the entries no folder on the way hides. -/
def shown (ns : Namespace Id) (folders : Option (List ℕ)) (path : List ℕ) (d : ℕ) :
    List (List ℕ × EntryFacts Id) :=
  ((entriesBelow ns d).filter fun e => admitted folders path e.1).map fun e => (spell path e.1, e.2)

def shownRow (ns : Namespace Id) (folders : Option (List ℕ)) (path : List ℕ)
    (row : PathName × ℕ) : List (List ℕ × EntryFacts Id) :=
  match ns.lookup row.2 with
  | none => []
  | some value =>
    (join path row.1, ⟨row.2, value⟩) ::
      if enters folders (join path row.1) value then shown ns folders (join path row.1) row.2
      else []

/-- **One level of a walk.** -/
theorem shown_eq (h : ns.ValidBase) {folders : Option (List ℕ)} {path : List ℕ}
    (hd : d ∈ ns.directories) :
    shown ns folders path d = (ns.listing d).flatMap (shownRow ns folders path) := by
  rw [shown, entriesBelow_eq h hd, filter_flatMap, map_flatMap]
  refine flatMap_congr_mem fun row _ => ?_
  rw [rowEntries, shownRow]
  rcases ns.lookup row.2 with _ | value
  · rfl
  · dsimp only
    have hfirst : admitted folders path [row.1] = true := by simp [admitted]
    rw [filter_cons, if_pos hfirst, map_cons]
    refine congrArg _ ?_
    have hdeeper : ∀ e ∈ entriesBelow ns row.2, admitted folders path (row.1 :: e.1) =
        (folders.all (agrees · (join path row.1)) && admitted folders (join path row.1) e.1) := by
      intro e he
      rw [admitted, isEmpty_eq_false_iff.mpr (ne_nil_of_mem_entriesBelow he), Bool.false_or]
    by_cases hkind : value.kind = .directory
    · rw [if_pos hkind, filter_map, map_map]
      rw [filter_congr (q := fun e => folders.all (agrees · (join path row.1)) &&
        admitted folders (join path row.1) e.1) hdeeper]
      rcases hagrees : folders.all (agrees · (join path row.1)) with _ | _
      · rw [if_neg (by simp [enters, hagrees])]
        simp
      · rw [if_pos (by simp [enters, hkind, hagrees]), shown]
        simp only [Bool.true_and]
        rfl
    · rw [if_neg hkind, if_neg (by simp [enters, hkind])]
      rfl

/-! ## Frames -/

def Frame.rest (tree : Tree Id) (frame : Frame Id) : List (PathName × ℕ) :=
  (frame.pending.map fun child => (child.1, child.2.1)) ++
    if frame.exhausted then []
    else (tree.ns.listing frame.entry.serial).filter fun row => above frame.after row.1

/-- A frame of a directory of the tree, with bindings of it in its window. -/
structure Frame.Good (tree : Tree Id) (frame : Frame Id) : Prop where
  row : (frame.entry.serial, frame.entry.value) ∈ tree.ns.inodes
  kind : frame.entry.value.kind = .directory
  pending : ∀ child ∈ frame.pending,
    (child.1, child.2.1) ∈ tree.ns.listing frame.entry.serial ∧
      child.2.2 = tree.ns.lookup child.2.1

def ahead (tree : Tree Id) (folders : Option (List ℕ)) (stack : List (Frame Id)) :
    List (List ℕ × EntryFacts Id) :=
  stack.flatMap fun frame => (frame.rest tree).flatMap (shownRow tree.ns folders frame.path)

variable {frame : Frame Id} {tree : Tree Id}

theorem Frame.Good.directory (h : frame.Good tree) : frame.entry.serial ∈ tree.ns.directories :=
  Namespace.mem_directories.mpr ⟨_, h.row, h.kind⟩

theorem lookup_of_mem_listing (h : ns.ValidBase) (hd : d ∈ ns.directories)
    (hrow : row ∈ ns.listing d) : ∃ value, ns.lookup row.2 = some value := by
  obtain ⟨⟨s, value⟩, hmem, hs⟩ := mem_map.mp (h.bound_mem (edge_of_mem_listing hd hrow))
  exact ⟨value, hs ▸ h.mem_iff_lookup.mp hmem⟩

theorem ahead_fresh {tree : Tree Id} {folders : Option (List ℕ)} {path : List ℕ}
    {entry : EntryFacts Id} (hd : entry.serial ∈ tree.ns.directories) (stack : List (Frame Id)) :
    ahead tree folders ({ path, entry } :: stack) =
      shown tree.ns folders path entry.serial ++ ahead tree folders stack := by
  rw [ahead, flatMap_cons, shown_eq tree.valid hd]
  refine congrArg (· ++ _) (congrArg (List.flatMap _) ?_)
  simp [Frame.rest]

/-- **A refilled frame** has the same bindings ahead, the first of them in its window. -/
theorem Frame.Good.refill (h : frame.Good tree) :
    ∃ frame', frame.refill tree = .ok frame' ∧ frame'.Good tree ∧ frame'.path = frame.path ∧
      frame'.rest tree = frame.rest tree ∧ (frame'.pending = [] → frame'.rest tree = []) := by
  rw [Frame.refill]
  split_ifs with hempty
  · rw [Bool.and_eq_true, List.isEmpty_iff, Bool.not_eq_true'] at hempty
    obtain ⟨hpending, hopen⟩ := hempty
    generalize hrows : (tree.ns.listing frame.entry.serial).filter
      (fun row => above frame.after row.1) = rows
    have hrest : frame.rest tree = rows := by
      rw [Frame.rest, hpending, hopen, ← hrows]
      rfl
    have hheld : (tree.pages frame.entry.value.contentRoot).rows.filter
        (fun row => above frame.after row.1) = rows := by
      rw [tree.holds h.row h.kind, hrows]
    obtain ⟨n, page, hpage, hentries, hpos, hcont⟩ := listAfter_window
      (by decide : 0 < directoryWindow) (by decide : listingWidthBound ≤ directoryBytes)
      (tree.checked h.row h.kind) hheld
    have hsub : ∀ row ∈ page.entries, row ∈ tree.ns.listing frame.entry.serial := by
      intro row hrow
      rw [hentries, ← hrows] at hrow
      exact (mem_filter.mp (mem_of_mem_take hrow)).1
    rw [hpage]
    refine ⟨_, rfl, ⟨h.row, h.kind, ?_⟩, rfl, ?_, ?_⟩
    · intro child hchild
      obtain ⟨row, hrow, rfl⟩ := mem_map.mp hchild
      exact ⟨hsub row hrow, rfl⟩
    · -- the names past the last one of the window are those behind the window
      have hbehind : (if page.continuation.isNone then []
          else (tree.ns.listing frame.entry.serial).filter
            fun row => above page.continuation row.1) = rows.drop n := by
        rw [hcont]
        split_ifs with hmore hnone
        · rw [Option.isNone_iff_eq_none, Option.map_eq_none_iff, getLast?_eq_none_iff,
            take_eq_nil_iff] at hnone
          rcases hnone with hn | hn
          · exact absurd hn (Nat.pos_iff_ne_zero.mp (hpos fun h => by simp [h] at hmore))
          · rw [hn, drop_nil]
        · obtain ⟨last, hlast⟩ := Option.ne_none_iff_exists'.mp
            (fun h => hnone (Option.isNone_iff_eq_none.mpr h))
          have hsorted : (rows.map Prod.fst).Pairwise (· < ·) := by
            rw [← hrows]
            exact (pairwise_map.mpr (tree.valid.names_ascending _ h.directory)).sublist
              (filter_sublist.map _)
          have habove : above frame.after last := by
            obtain ⟨row, hrow, rfl⟩ := Option.map_eq_some_iff.mp hlast
            have hmem := mem_of_mem_take (mem_of_getLast? hrow)
            rw [← hrows] at hmem
            simpa using (mem_filter.mp hmem).2
          rw [hlast, ← filter_past_last hsorted hlast, ← hrows]
          exact filter_above_above habove _
        · simpa using hmore
        · exact absurd rfl ‹_›
      rw [hrest, Frame.rest]
      dsimp only
      rw [hbehind, hentries, map_map]
      refine Eq.trans (congrArg (· ++ _) ?_) (take_append_drop n rows)
      exact (map_congr_left fun _ _ => rfl).trans (map_id _)
    · intro hnil
      rw [map_eq_nil_iff, hentries, take_eq_nil_iff] at hnil
      have hnone : rows = [] := by
        by_contra hsome
        exact hnil.elim (Nat.pos_iff_ne_zero.mp (hpos hsome)) hsome
      rw [Frame.rest]
      dsimp only
      rw [hcont, hentries, hnone]
      simp
  · refine ⟨frame, rfl, h, rfl, rfl, fun hpending => ?_⟩
    rw [hpending, isEmpty_nil, Bool.true_and, Bool.not_eq_true, Bool.not_eq_false'] at hempty
    rw [Frame.rest, hpending, hempty]
    rfl

/-- **One entry of a walk** is the first of what its frames have ahead. -/
theorem nextIn_spec {tree : Tree Id} {folders : Option (List ℕ)} {stack : List (Frame Id)} :
    (∀ frame ∈ stack, frame.Good tree) →
      ∃ out stack', nextIn tree folders stack = .ok (out, stack') ∧
        (∀ frame ∈ stack', frame.Good tree) ∧
        ahead tree folders stack = out.toList ++ ahead tree folders stack' ∧
        (out = none → ahead tree folders stack = []) := by
  induction stack with
  | nil => exact fun _ => ⟨none, [], rfl, by simp, rfl, fun _ => rfl⟩
  | cons frame stack ih =>
    intro hgood
    obtain ⟨hframe, hstack⟩ := forall_mem_cons.mp hgood
    obtain ⟨frame', hrefill, hframe', hpath, hrest, hlast⟩ := hframe.refill
    have hahead : ahead tree folders (frame :: stack) =
        (frame'.rest tree).flatMap (shownRow tree.ns folders frame'.path) ++
          ahead tree folders stack := by
      rw [ahead, flatMap_cons, hrest, hpath]
      rfl
    rw [nextIn, hrefill]
    dsimp only
    rcases hpending : frame'.pending with _ | ⟨⟨name, serial, value⟩, pending⟩
    · rw [hahead, hlast hpending]
      exact ih hstack
    · obtain ⟨hmem, hvalue⟩ := hframe'.pending _ (hpending ▸ mem_cons_self)
      dsimp only at hmem hvalue
      obtain ⟨value, hlookup⟩ := lookup_of_mem_listing tree.valid hframe'.directory hmem
      rw [hvalue, hlookup]
      dsimp only
      have hkept : Frame.Good tree { frame' with pending } := by
        refine ⟨hframe'.row, hframe'.kind, fun child hchild => ?_⟩
        exact hframe'.pending child (hpending ▸ mem_cons_of_mem _ hchild)
      have hsplit : ahead tree folders (frame :: stack) =
          (join frame'.path name, ⟨serial, value⟩) ::
            ((if enters folders (join frame'.path name) value then
              shown tree.ns folders (join frame'.path name) serial else []) ++
              ahead tree folders ({ frame' with pending } :: stack)) := by
        rw [hahead, Frame.rest, hpending, map_cons, cons_append, flatMap_cons,
          shownRow, hlookup]
        simp only [cons_append, append_assoc]
        rfl
      refine ⟨_, _, rfl, ?_, ?_, fun h => absurd h (Option.some_ne_none _)⟩
      · split_ifs with henters
        · have hkind : value.kind = .directory := by
            rw [enters, Bool.and_eq_true, beq_iff_eq] at henters
            exact henters.1
          refine forall_mem_cons.mpr ⟨⟨?_, hkind, by simp⟩,
            forall_mem_cons.mpr ⟨hkept, hstack⟩⟩
          exact tree.valid.mem_iff_lookup.mpr hlookup
        · exact forall_mem_cons.mpr ⟨hkept, hstack⟩
      · rw [hsplit]
        refine congrArg (_ :: ·) ?_
        split_ifs with henters
        · have hkind : value.kind = .directory := by
            rw [enters, Bool.and_eq_true, beq_iff_eq] at henters
            exact henters.1
          have hchild : serial ∈ tree.ns.directories :=
            (mem_directories_iff_lookup tree.valid).mpr ⟨value, hlookup, hkind⟩
          exact (@ahead_fresh _ tree folders _ ⟨serial, value⟩ hchild _).symm
        · rfl

/-- **Every walk ends**, with what its frames have ahead. -/
theorem collect_eq {tree : Tree Id} {fuel : ℕ} :
    ∀ {walker : Walker Id}, (∀ frame ∈ walker.stack, frame.Good tree) →
      (walker.top.toList ++ ahead tree walker.within walker.stack).length < fuel →
      collect tree fuel walker =
        some (.ok (walker.top.toList ++ ahead tree walker.within walker.stack)) := by
  induction fuel with
  | zero => exact fun _ h => absurd h (Nat.not_lt_zero _)
  | succ fuel ih =>
    intro walker hgood hfuel
    rw [collect, Walker.next]
    rcases htop : walker.top with _ | top
    · obtain ⟨out, stack', hnext, hgood', hahead, hdone⟩ :=
        @nextIn_spec _ tree walker.within _ hgood
      rw [hnext]
      rw [htop, Option.toList_none, nil_append, hahead] at hfuel
      rw [Option.toList_none, nil_append]
      rcases out with _ | entry
      · rw [hdone rfl]
      · dsimp only
        rw [@ih ⟨stack', none, walker.within⟩ hgood' (by simpa using hfuel), hahead]
        rfl
    · rw [htop] at hfuel
      dsimp only
      rw [@ih ⟨walker.stack, none, walker.within⟩ hgood (by simpa using hfuel)]
      rfl

end LayerFs.Glob
