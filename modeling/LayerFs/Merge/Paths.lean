import LayerFs.Filesystem.Input

/-!
# Names by path (`merge/decide.rs`, `merge/markers.rs`)

An absolute path names its entry step by step from the root directory.
-/

namespace LayerFs

variable {Id : Type}

abbrev Path := List ℕ

def slash : ℕ := 0x2F

/-- One serial with its value. -/
structure EntryFacts (Id : Type) where
  serial : ℕ
  value : InodeValue Id

def Namespace.binding (ns : Namespace Id) (directory : ℕ) (name : PathName) : Option ℕ :=
  match ns.lookup directory with
  | some value => if value.kind = .directory then (ns.listing directory).lookup name else none
  | none => none

def pathNames (path : Path) : List (List ℕ) := (path.splitOn slash).filter (!·.isEmpty)

/-- Follows names down from a directory serial; each name is checked when it is reached. -/
def Namespace.walk (ns : Namespace Id) : ℕ → List (List ℕ) → ContentResult (Option ℕ)
  | serial, [] => .ok (some serial)
  | serial, name :: rest => do
    match ns.binding serial (← PathName.fromBytes name) with
    | some child => ns.walk child rest
    | none => .ok none

theorem PathName.fromBytes_ok {bytes : List ℕ} (h : validateName bytes = .ok ()) :
    PathName.fromBytes bytes = .ok ⟨bytes, h⟩ := by
  unfold PathName.fromBytes
  split
  · rfl
  · simp_all

end LayerFs
