import LayerFs.Content.Basic

/-!
# What a namespace is

The meaning of a filesystem root, free of pages, windows and records: a finite table of inodes
and, for every directory of the table, its list of bindings.

* `Namespace.Edge` — a directory of the table binds a serial.
-/

namespace LayerFs

open List

/-- A table of inodes and the bindings of its directories. -/
structure Namespace (Id : Type) where
  root : ℕ
  inodes : List (ℕ × InodeValue Id)
  listing : ℕ → List (PathName × ℕ)

namespace Namespace

variable {Id : Type} (ns : Namespace Id)

def serials : List ℕ := ns.inodes.map Prod.fst

def directories : List ℕ := (ns.inodes.filter fun row => row.2.kind == .directory).map Prod.fst

def children (d : ℕ) : List ℕ := (ns.listing d).map Prod.snd

def boundBy (ds : List ℕ) : List ℕ := ds.flatMap ns.children

def bindingCount (s : ℕ) : ℕ := (ns.boundBy ns.directories).count s

def Edge (d s : ℕ) : Prop := d ∈ ns.directories ∧ s ∈ ns.children d

def Reached (s : ℕ) : Prop := Relation.ReflTransGen ns.Edge ns.root s

def resolve (s : ℕ) : List PathName → Option ℕ
  | [] => some s
  | name :: rest =>
    if s ∈ ns.directories then
      match (ns.listing s).lookup name with
      | some child => resolve child rest
      | none => none
    else none

/-- **A well-formed namespace**: a tree of directories over exactly the inodes of the table. -/
structure WellFormed : Prop where
  nodup : ns.serials.Nodup
  /-- the root is a directory of the table, recorded with no binding -/
  root_row : ∃ value, (ns.root, value) ∈ ns.inodes ∧ value.kind = .directory
  /-- every binding names an inode of the table -/
  bound_mem : ∀ {d s}, ns.Edge d s → s ∈ ns.serials
  root_unbound : ns.bindingCount ns.root = 0
  /-- every inode of the table is reached -/
  reached : ∀ s ∈ ns.serials, ns.Reached s
  /-- directories and symbolic links other than the root are bound exactly once -/
  bound_once : ∀ {s value}, (s, value) ∈ ns.inodes → s ≠ ns.root → value.kind ≠ .regularFile →
    ns.bindingCount s = 1
  /-- recorded counts are the numbers of bindings -/
  count_eq : ∀ {s value}, (s, value) ∈ ns.inodes → value.namespaceRefCount = ns.bindingCount s
  acyclic : ∀ s, ¬ Relation.TransGen ns.Edge s s

variable {ns} {d e s : ℕ}

theorem mem_directories :
    d ∈ ns.directories ↔ ∃ value, (d, value) ∈ ns.inodes ∧ value.kind = .directory := by
  simp [directories]

theorem resolve_append {a b : List PathName} : ∀ {s : ℕ},
    ns.resolve s (a ++ b) = (ns.resolve s a).bind fun d => ns.resolve d b := by
  induction a with
  | nil => exact fun {_} => rfl
  | cons name a ih =>
    intro s
    rw [cons_append, resolve.eq_def, resolve.eq_def ns s (name :: a)]
    dsimp only
    split_ifs
    · rcases (ns.listing s).lookup name with _ | child
      · rfl
      · exact ih
    · rfl

theorem resolve_singleton {name : PathName} {s : ℕ} (hs : s ∈ ns.directories) :
    ns.resolve s [name] = (ns.listing s).lookup name := by
  rw [resolve, if_pos hs]
  rcases (ns.listing s).lookup name with _ | child
  · rfl
  · rfl

theorem directories_subset (h : d ∈ ns.directories) : d ∈ ns.serials := by
  obtain ⟨value, hmem, -⟩ := mem_directories.mp h
  exact mem_map.mpr ⟨(d, value), hmem, rfl⟩

theorem directories_nodup (h : ns.serials.Nodup) : ns.directories.Nodup :=
  h.sublist (filter_sublist.map Prod.fst)

theorem row_unique (h : ns.serials.Nodup) {a b : InodeValue Id} (ha : (s, a) ∈ ns.inodes)
    (hb : (s, b) ∈ ns.inodes) : a = b := by
  have := inj_on_of_nodup_map (f := Prod.fst) h ha hb rfl
  exact congrArg Prod.snd this

@[simp] theorem boundBy_nil : ns.boundBy [] = [] := rfl

@[simp] theorem boundBy_cons (d : ℕ) (ds : List ℕ) :
    ns.boundBy (d :: ds) = ns.children d ++ ns.boundBy ds := rfl

theorem boundBy_append (a b : List ℕ) : ns.boundBy (a ++ b) = ns.boundBy a ++ ns.boundBy b := by
  simp [boundBy]

theorem mem_boundBy {ds : List ℕ} : s ∈ ns.boundBy ds ↔ ∃ d ∈ ds, s ∈ ns.children d := by
  simp [boundBy]

theorem count_boundBy_le {a b : List ℕ} (ha : a.Nodup) (h : a ⊆ b) (s : ℕ) :
    (ns.boundBy a).count s ≤ (ns.boundBy b).count s := by
  obtain ⟨c, hperm, hsub⟩ := subperm_of_subset ha h
  have hle : (ns.boundBy c).count s ≤ (ns.boundBy b).count s :=
    (hsub.flatMap ns.children).count_le s
  rwa [boundBy, (hperm.flatMap_right ns.children).count_eq] at hle

theorem parent_unique (h : ns.bindingCount s = 1) (hd : ns.Edge d s)
    (he : ns.Edge e s) : d = e := by
  by_contra hne
  have hsub : [d, e] ⊆ ns.directories := by
    intro x hx
    rcases mem_cons.mp hx with rfl | hx
    · exact hd.1
    · rw [mem_singleton.mp hx]
      exact he.1
  have hle := ns.count_boundBy_le (by simpa using hne) hsub s
  have hdpos : 0 < (ns.children d).count s := count_pos_iff.mpr hd.2
  have hepos : 0 < (ns.children e).count s := count_pos_iff.mpr he.2
  simp only [boundBy_cons, boundBy_nil, append_nil, count_append] at hle
  rw [bindingCount] at h
  omega

theorem edge_iff_bound : (∃ d, ns.Edge d s) ↔ 0 < ns.bindingCount s := by
  rw [bindingCount, count_pos_iff, mem_boundBy]
  rfl

/-- **Reached directories bound once form no cycle**: the only way up from a reached serial on
a cycle is along the path that reached it, back to the root, which nothing binds. -/
theorem acyclic_of_reached (hroot : ns.bindingCount ns.root = 0)
    (honce : ∀ {s}, s ∈ ns.directories → s ≠ ns.root → ns.bindingCount s = 1)
    (hreach : ∀ s ∈ ns.directories, ns.Reached s) (s : ℕ) : ¬ Relation.TransGen ns.Edge s s := by
  intro hcycle
  obtain ⟨next, hedge, -⟩ := Relation.TransGen.head'_iff.mp hcycle
  have hs := hreach s hedge.1
  clear hedge next
  induction hs with
  | refl =>
    obtain ⟨d, -, hd⟩ := Relation.TransGen.tail'_iff.mp hcycle
    have := edge_iff_bound.mp ⟨d, hd⟩
    omega
  | @tail y x hy hyx ih =>
    -- the predecessor of `x` on the cycle is `y`, so `y` lies on it too
    obtain ⟨z, hxz, hzx⟩ := Relation.TransGen.tail'_iff.mp hcycle
    obtain ⟨next, hnext, -⟩ := Relation.TransGen.head'_iff.mp hcycle
    have hxroot : x ≠ ns.root := by
      rintro rfl
      have := edge_iff_bound.mp ⟨y, hyx⟩
      omega
    have hzy : z = y := parent_unique (honce hnext.1 hxroot) hzx hyx
    subst hzy
    exact ih (Relation.TransGen.head' hzx hxz)

end Namespace

end LayerFs
