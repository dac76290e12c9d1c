import LayerFs.Listing.Exact

/-!
# Enumerating a directory window by window

Between two windows of an enumeration anything may happen to the directory: jobs, captures, installs
and folds. Each window is taken at whatever state its visit finds.

* `Window.exact` — **a window that passes no name delivers exactly the bound names it covers**.
* `enumeration_exact` — **a name bound in every window is delivered exactly once**, and an unchanged
  directory is delivered whole, in order.
-/

namespace LayerFs

open List

namespace Listing

open DirectoryState

variable {state : DirectoryState} {delivered : List (PathName × ℕ)} {entries : List KernelEntry}
  {cursor next : Option PathName}

/-! ## Windows -/

def KernelEntry.binding (entry : KernelEntry) : PathName × ℕ := (entry.name, entry.serial)

/-- **One window**: what it delivers from a cursor and the cursor of the next one, none at the end. A
READDIR request delivers the prefix its reply accepts and continues after the last name of it; a
window that lists nothing continues within the request. -/
inductive Window (state : DirectoryState) (cursor : Option PathName) :
    List (PathName × ℕ) → Option PathName → Prop
  | listed {listing : ViewListing} (h : state.list cursor = .ok listing) :
    Window state cursor listing.entries listing.continuation
  | replied {entries accepted : List KernelEntry} {continuation : Option PathName}
      {published : Option (List PathName)} {last : KernelEntry}
      (h : kernelListing state cursor = .ok (entries, continuation))
      (haccepted : accepted ++ [last] <+: finish published entries) :
    Window state cursor ((accepted ++ [last]).map KernelEntry.binding) (some last.name)
  | skipped {continuation : Option PathName}
      (h : kernelListing state cursor = .ok ([], continuation)) :
    Window state cursor [] continuation

/-- One window of a run. -/
structure Visit where
  state : DirectoryState
  cursor : Option PathName
  delivered : List (PathName × ℕ)

/-- Windows that continue one another to the end. -/
inductive Enumeration : Option PathName → List Visit → Prop
  | last {state : DirectoryState} {cursor : Option PathName} {delivered : List (PathName × ℕ)}
      (h : Window state cursor delivered none) : Enumeration cursor [⟨state, cursor, delivered⟩]
  | next {state : DirectoryState} {cursor : Option PathName} {delivered : List (PathName × ℕ)}
      {name : PathName} {visits : List Visit} (h : Window state cursor delivered (some name))
      (hrest : Enumeration (some name) visits) :
    Enumeration cursor (⟨state, cursor, delivered⟩ :: visits)

def returned (visits : List Visit) : List (PathName × ℕ) := visits.flatMap Visit.delivered

/-! ## What a window delivers -/

theorem withKinds_eq_ok {kindOf : ℕ → WorkspaceResult InodeKind} {rows : List (PathName × ℕ)}
    (h : withKinds kindOf rows = .ok entries) : entries.map KernelEntry.binding = rows := by
  induction rows generalizing entries with
  | nil =>
    cases h
    rfl
  | cons row rows ih =>
    rw [withKinds] at h
    rcases hkind : kindOf row.2 with e | kind
    · rw [hkind] at h
      cases h
    rcases hrest : withKinds kindOf rows with e | rest
    · rw [hkind, hrest] at h
      cases h
    · rw [hkind, hrest] at h
      cases h
      rw [map_cons, ih hrest]
      rfl

theorem kernelListing_eq_ok {continuation : Option PathName}
    (h : kernelListing state cursor = .ok (entries, continuation)) :
    (∃ listing, state.list cursor = .ok listing ∧
        entries.map KernelEntry.binding = listing.entries ∧ continuation = listing.continuation) ∨
      entries = [] ∧ continuation = none ∧ ∀ name, state.bound name = none := by
  rw [kernelListing] at h
  rcases hremoved : state.inode.filter
      fun row => row.nlink = 0 ∧ state.serial ≠ state.rootSerial with _ | row
  · rw [hremoved] at h
    simp only [bind, Except.bind] at h
    rcases hlist : state.list cursor with e | listing
    · rw [hlist] at h
      cases h
    rw [hlist] at h
    simp only at h
    rcases hkinds : withKinds state.kindOf listing.entries with e | rest
    · rw [hkinds] at h
      cases h
    rw [hkinds] at h
    cases h
    exact .inl ⟨listing, rfl, withKinds_eq_ok hkinds, rfl⟩
  · rw [hremoved] at h
    simp only at h
    split_ifs at h with hbad
    cases h
    refine .inr ⟨rfl, rfl, fun name => ?_⟩
    obtain ⟨hinode, hgone⟩ := Option.filter_eq_some_iff.mp hremoved
    have hgone := of_decide_eq_true hgone
    simp only [not_or, not_not] at hbad
    rw [bound, inherits, hinode]
    simp only
    rw [if_neg (not_not.mpr hbad.1), if_pos hgone]

theorem finish_prefix {published : Option (List PathName)} :
    finish published entries <+: entries := by
  rcases published with _ | names
  · exact prefix_rfl
  · rw [finish]
    split_ifs
    · exact take_prefix _ _
    · exact prefix_rfl

/-- What one window must deliver. -/
structure Window.Exact (state : DirectoryState) (cursor : Option PathName)
    (delivered : List (PathName × ℕ)) (next : Option PathName) : Prop where
  ascending : Ascending delivered
  mem : ∀ {name : PathName} {serial : ℕ}, (name, serial) ∈ delivered ↔
    above cursor name ∧ (∀ last ∈ next, name ≤ last) ∧ state.bound name = some serial
  progress : ∀ last ∈ next, above cursor last

theorem Window.Exact.prefix_last {accepted rest : List (PathName × ℕ)} {last : PathName × ℕ}
    (h : Window.Exact state cursor delivered next) (hsplit : delivered = accepted ++ last :: rest) :
    Window.Exact state cursor (accepted ++ [last]) (some last.1) := by
  have hordered := h.ascending
  rw [hsplit, Ascending, pairwise_append] at hordered
  obtain ⟨hfront, hback, hcross⟩ := hordered
  have hlast : last ∈ delivered := by simp [hsplit]
  obtain ⟨habove, hnext, -⟩ := h.mem.mp hlast
  have hmem : ∀ row ∈ delivered, row ∈ accepted ++ [last] ↔ row.1 ≤ last.1 := by
    intro row hrow
    rw [hsplit] at hrow
    rcases mem_append.mp hrow with hrow | hrow
    · refine iff_of_true (mem_append_left _ hrow) ?_
      exact (hcross row hrow last mem_cons_self).le
    · rcases mem_cons.mp hrow with rfl | hrow
      · exact iff_of_true (by simp) le_rfl
      · have hlt := (pairwise_cons.mp hback).1 row hrow
        refine iff_of_false (fun hin => ?_) (not_le.mpr hlt)
        rcases mem_append.mp hin with hin | hin
        · exact (hcross row hin last mem_cons_self).asymm hlt
        · rw [mem_singleton.mp hin] at hlt
          exact lt_irrefl _ hlt
  refine ⟨?_, ?_, ?_⟩
  · rw [Ascending, pairwise_append]
    refine ⟨hfront, pairwise_singleton _ _, fun a ha b hb => ?_⟩
    rw [mem_singleton.mp hb]
    exact hcross a ha last mem_cons_self
  · intro name serial
    constructor
    · intro hin
      have hrow : (name, serial) ∈ delivered := by
        rw [hsplit]
        rcases mem_append.mp hin with hin | hin
        · exact mem_append_left _ hin
        · rw [mem_singleton.mp hin]
          simp
      obtain ⟨hcursor, -, hbound⟩ := h.mem.mp hrow
      refine ⟨hcursor, fun final hfinal => ?_, hbound⟩
      cases hfinal
      exact (hmem _ hrow).mp hin
    · rintro ⟨hcursor, hle, hbound⟩
      have hle := hle last.1 rfl
      have hrow : (name, serial) ∈ delivered :=
        h.mem.mpr ⟨hcursor, fun final hfinal => hle.trans (hnext final hfinal), hbound⟩
      exact (hmem _ hrow).mpr hle
  · intro final hfinal
    cases hfinal
    exact habove

/-- **A window that passes no name delivers exactly the bound names it covers.** -/
theorem Window.exact (hpass : ¬ state.Passes cursor) (h : Window state cursor delivered next) :
    Window.Exact state cursor delivered next := by
  cases h with
  | listed h => exact ⟨list_ascending h, list_exact hpass h, list_progress h⟩
  | replied h haccepted =>
    rename_i entries accepted continuation published last
    obtain ⟨rest, hentries⟩ := haccepted.trans finish_prefix
    rcases kernelListing_eq_ok h with ⟨listing, hlist, hbindings, -⟩ | ⟨hnil, -, -⟩
    · have hexact : Window.Exact state cursor listing.entries listing.continuation :=
        ⟨list_ascending hlist, list_exact hpass hlist, list_progress hlist⟩
      have hsplit : listing.entries = accepted.map KernelEntry.binding ++
          last.binding :: rest.map KernelEntry.binding := by
        rw [← hbindings, ← hentries, map_append, map_append]
        simp
      have hfront := hexact.prefix_last hsplit
      rw [map_append]
      exact hfront
    · rw [hnil] at hentries
      simp at hentries
  | skipped h =>
    rcases kernelListing_eq_ok h with ⟨listing, hlist, hbindings, rfl⟩ | ⟨-, rfl, hnone⟩
    · rw [show ([] : List (PathName × ℕ)) = listing.entries from hbindings]
      exact ⟨list_ascending hlist, list_exact hpass hlist, list_progress hlist⟩
    · refine ⟨ascending_nil, ?_, by simp⟩
      intro name serial
      simp [hnone name]

/-! ## Runs -/

/-- What an enumeration from a cursor returns of a run. -/
structure Enumeration.Returns (cursor : Option PathName) (visits : List Visit) : Prop where
  ascending : Ascending (returned visits)
  above : ∀ row ∈ returned visits, above cursor row.1
  bound : ∀ visit ∈ visits, ∀ row ∈ visit.delivered, visit.state.bound row.1 = some row.2
  complete : ∀ {name : PathName}, LayerFs.above cursor name →
    (∀ visit ∈ visits, (visit.state.bound name).isSome) → name ∈ (returned visits).map Prod.fst

variable {visits : List Visit}

theorem returned_cons {visit : Visit} :
    returned (visit :: visits) = visit.delivered ++ returned visits :=
  flatMap_cons

theorem Enumeration.Returns.cons {state : DirectoryState} {cursor : Option PathName}
    {delivered : List (PathName × ℕ)} {name : PathName} {visits : List Visit}
    (hwindow : Window.Exact state cursor delivered (some name))
    (hrest : Enumeration.Returns (some name) visits) :
    Enumeration.Returns cursor (⟨state, cursor, delivered⟩ :: visits) := by
  have hcursor := hwindow.progress name rfl
  refine ⟨?_, ?_, ?_, ?_⟩
  · rw [returned_cons, Ascending, pairwise_append]
    refine ⟨hwindow.ascending, hrest.ascending, fun a ha b hb => ?_⟩
    obtain ⟨-, hle, -⟩ := hwindow.mem.mp ha
    exact (hle name rfl).trans_lt (hrest.above b hb name rfl)
  · intro row hrow
    rw [returned_cons] at hrow
    rcases mem_append.mp hrow with hrow | hrow
    · exact (hwindow.mem.mp hrow).1
    · intro floor hfloor
      exact (hcursor floor hfloor).trans (hrest.above row hrow name rfl)
  · refine forall_mem_cons.mpr ⟨fun row hrow => ?_, hrest.bound⟩
    exact (hwindow.mem.mp hrow).2.2
  · intro other habove hbound
    obtain ⟨hhere, hlater⟩ := forall_mem_cons.mp hbound
    rw [returned_cons, map_append, mem_append]
    by_cases hle : other ≤ name
    · obtain ⟨serial, hserial⟩ := Option.isSome_iff_exists.mp hhere
      refine .inl (mem_map.mpr ⟨(other, serial), hwindow.mem.mpr ⟨habove, ?_, hserial⟩, rfl⟩)
      intro last hlast
      cases hlast
      exact hle
    · refine .inr (hrest.complete (fun floor hfloor => ?_) hlater)
      cases hfloor
      exact not_le.mp hle

/-- **Every run of windows that pass no name.** -/
theorem Enumeration.returns (h : Enumeration cursor visits)
    (hpass : ∀ visit ∈ visits, ¬ visit.state.Passes visit.cursor) :
    Enumeration.Returns cursor visits := by
  induction h with
  | last hwindow =>
    have hexact := hwindow.exact (hpass _ mem_cons_self)
    have hreturned : ∀ visit : Visit, returned [visit] = visit.delivered :=
      fun visit => flatMap_singleton _ _
    refine ⟨?_, ?_, ?_, ?_⟩
    · rw [hreturned]
      exact hexact.ascending
    · rw [hreturned]
      exact fun row hrow => (hexact.mem.mp hrow).1
    · intro visit hvisit row hrow
      rw [mem_singleton.mp hvisit] at hrow ⊢
      exact (hexact.mem.mp hrow).2.2
    · intro name habove hbound
      obtain ⟨serial, hserial⟩ := Option.isSome_iff_exists.mp (hbound _ mem_cons_self)
      rw [hreturned]
      exact mem_map.mpr ⟨(name, serial),
        hexact.mem.mpr ⟨habove, by simp, hserial⟩, rfl⟩
  | next hwindow _ ih =>
    obtain ⟨hhere, hlater⟩ := forall_mem_cons.mp hpass
    exact .cons (hwindow.exact hhere) (ih hlater)

/-- **A name bound in every window is delivered exactly once, with the serial it has there**; and if
no window finds the names changed, the enumeration returns exactly the bound names, in order. -/
theorem enumeration_exact {visits : List Visit} (h : Enumeration none visits)
    (hpass : ∀ visit ∈ visits, ¬ visit.state.Passes visit.cursor) :
    (∀ name, (∀ visit ∈ visits, (visit.state.bound name).isSome) →
      ((returned visits).map Prod.fst).count name = 1 ∧
        ∃ visit ∈ visits, ∃ serial, (name, serial) ∈ visit.delivered ∧
          visit.state.bound name = some serial) ∧
    ∀ view : PathName → Option ℕ, (∀ visit ∈ visits, ∀ name, visit.state.bound name = view name) →
      Ascending (returned visits) ∧
        ∀ name serial, (name, serial) ∈ returned visits ↔ view name = some serial := by
  have hreturns := h.returns hpass
  have hsound : ∀ {name serial}, (name, serial) ∈ returned visits →
      ∃ visit ∈ visits, (name, serial) ∈ visit.delivered ∧
        visit.state.bound name = some serial := by
    intro name serial hrow
    obtain ⟨visit, hvisit, hdelivered⟩ := mem_flatMap.mp hrow
    exact ⟨visit, hvisit, hdelivered, hreturns.bound visit hvisit _ hdelivered⟩
  refine ⟨fun name hbound => ?_, fun view hview => ⟨hreturns.ascending, fun name serial => ?_⟩⟩
  · have hname := hreturns.complete (by simp) hbound
    refine ⟨count_eq_one_of_mem hreturns.ascending.keys_nodup hname, ?_⟩
    obtain ⟨row, hrow, rfl⟩ := mem_map.mp hname
    obtain ⟨visit, hvisit, hdelivered, hserial⟩ := hsound hrow
    exact ⟨visit, hvisit, row.2, hdelivered, hserial⟩
  · constructor
    · intro hrow
      obtain ⟨visit, hvisit, -, hserial⟩ := hsound hrow
      rw [← hview visit hvisit, hserial]
    · intro hserial
      have hname : name ∈ (returned visits).map Prod.fst := by
        refine hreturns.complete (by simp) fun visit hvisit => ?_
        rw [hview visit hvisit, hserial]
        rfl
      obtain ⟨row, hrow, rfl⟩ := mem_map.mp hname
      obtain ⟨visit, hvisit, -, hfound⟩ := hsound hrow
      rw [hview visit hvisit, hserial] at hfound
      cases hfound
      exact hrow

/-- The name `z`. -/
def shortName : PathName := ⟨[0x7A], rfl⟩

/-- The name `a`. -/
def firstName : PathName := ⟨[0x61], rfl⟩

/-- A directory created above the installed floor, with one name and a name a capture took away. -/
def freshDirectory : DirectoryState where
  serial := 7
  rootSerial := 1
  installed := 3
  inode := some ⟨.directory, 1, 4, 1⟩
  active := ⟨[(firstName, none)], pairwise_singleton _ _⟩
  captured := ⟨[(firstName, some 69), (shortName, some 70)], by decide⟩
  base := .absent
  kindOf := fun _ => .ok .regularFile

/-- A window of that directory, under its whiteout. -/
theorem enumeration_exact_fresh :
    Enumeration none [⟨freshDirectory, none, [(shortName, 70)]⟩] ∧
      ([(shortName, 70)].map Prod.fst).count shortName = 1 := by
  have hlist : freshDirectory.list none = .ok ⟨[(shortName, 70)], none, 2⟩ := rfl
  have hrun : Enumeration none [⟨freshDirectory, none, [(shortName, 70)]⟩] :=
    .last (Window.listed hlist)
  have hpass : ∀ visit ∈ [(⟨freshDirectory, none, [(shortName, 70)]⟩ : Visit)],
      ¬ visit.state.Passes visit.cursor := by
    intro visit hvisit
    rw [mem_singleton.mp hvisit]
    rintro ⟨shown, omitted, rest, hrows, -⟩
    have hnil : freshDirectory.inheritedRows none = [] := rfl
    rw [hnil] at hrows
    simp at hrows
  have hbound : ∀ visit ∈ [(⟨freshDirectory, none, [(shortName, 70)]⟩ : Visit)],
      (visit.state.bound shortName).isSome := by
    intro visit hvisit
    rw [mem_singleton.mp hvisit]
    decide
  exact ⟨hrun, ((enumeration_exact hrun hpass).1 shortName hbound).1⟩

end Listing

end LayerFs
