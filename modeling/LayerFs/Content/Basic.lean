import Mathlib.Algebra.Order.BigOperators.Group.List
import Mathlib.Algebra.Order.Group.Nat
import Mathlib.Algebra.Order.Ring.Int
import Mathlib.Data.Finset.Card
import Mathlib.Data.List.Chain
import Mathlib.Data.List.Flatten

/-!
# Content values: errors, limits, names and inode values

The vocabulary every filesystem route of the content crate shares.

* `ContentError` — the typed failures. A failed check ends its operation, so every
  fallible definition of the model returns `Except ContentError`.

Bytes, counts and serials are natural numbers; a bound of the source's `u64` or `i64`
stands where the source checks it.
-/

namespace LayerFs

open List

variable {check : Bool}

/-! ## Errors -/

/-- The typed content failures the modelled routes return (`contract/error.rs`). -/
inductive ContentError where
  | lengthOverflow
  | unexpectedEof
  | trailingBytes
  | unsupportedFraming
  | wrongLogicalRole
  | invalidRecord (what : String)
  | objectLimitExceeded (limit actual : ℕ)
  | identityMismatch
  | missingObject
  | providerFailure (what : String)
  | nonCanonicalPagePartition
  | nonCanonicalOrdering
  | lengthMismatch (expected actual : ℕ)
  | batchCardinality (requested returned : ℕ)
  | invalidRange (start stop length : ℕ)
  | invalidEdit (what : String)
  | outputRejected
  | mappingDepthExceeded
  | boundedCapacityExceeded (what : String) (limit actual : ℕ)
  | invalidPath
  | pathLimitExceeded
  | invalidUtf8
  | unsupportedMappingVersion (version : ℕ)
  | invalidMappingTag (tag : ℕ)
  | unsupportedProfile (what : String)
  | scopeMismatch (what : String)
  | resourceUnavailable (what : String)
  deriving DecidableEq, Repr

abbrev ContentResult (α : Type) := Except ContentError α

theorem ok_bind {α β : Type} (a : α) (f : α → ContentResult β) :
    ((.ok a : ContentResult α) >>= f) = f a := rfl

theorem bind_eq_ok {α β : Type} {x : ContentResult α} {f : α → ContentResult β} {b : β} :
    x >>= f = .ok b ↔ ∃ a, x = .ok a ∧ f a = .ok b := by
  cases x with
  | error e => simp [bind, Except.bind]
  | ok a => simp [bind, Except.bind]

theorem check_bind_eq_ok {β : Type} {x : ContentResult Unit} {f : Unit → ContentResult β} {b : β} :
    x >>= f = .ok b ↔ x = .ok () ∧ f () = .ok b := by
  cases x with
  | error e => simp [bind, Except.bind]
  | ok a => simp [bind, Except.bind]

/-- Refuse with `e` unless the check holds. -/
def ensure (check : Bool) (e : ContentError) : ContentResult Unit :=
  if check then .ok () else .error e

variable {e : ContentError}

@[simp] theorem ensure_eq_ok {u : Unit} : ensure check e = .ok u ↔ check = true := by
  cases check <;> simp [ensure]

/-- The value of an option, or the refusal `e`. -/
def orError {α : Type} (o : Option α) (e : ContentError) : ContentResult α :=
  match o with
  | some a => .ok a
  | none => .error e

@[simp] theorem orError_eq_ok {α : Type} {o : Option α} {a : α} :
    orError o e = .ok a ↔ o = some a := by
  cases o <;> simp [orError]

theorem mapM_ok_mem {α β : Type} {f : α → ContentResult β} {l : List α} :
    ∀ {out : List β}, l.mapM f = .ok out → ∀ b, b ∈ out ↔ ∃ a ∈ l, f a = .ok b := by
  induction l with
  | nil =>
    intro out h b
    cases h
    simp
  | cons a rest ih =>
    intro out h b
    rw [mapM_cons, bind_eq_ok] at h
    obtain ⟨x, hx, h⟩ := h
    obtain ⟨xs, hxs, h⟩ := bind_eq_ok.mp h
    cases h
    simp [ih hxs, hx, eq_comm]

theorem mapM_ok_of_mem {α β : Type} {f : α → ContentResult β} {l : List α} :
    ∀ {out : List β}, l.mapM f = .ok out → ∀ a ∈ l, ∃ b ∈ out, f a = .ok b := by
  induction l with
  | nil => exact fun _ _ ha => nomatch ha
  | cons x rest ih =>
    intro out h a ha
    rw [mapM_cons, bind_eq_ok] at h
    obtain ⟨y, hy, h⟩ := h
    obtain ⟨ys, hys, h⟩ := bind_eq_ok.mp h
    cases h
    rcases mem_cons.mp ha with rfl | ha
    · exact ⟨y, mem_cons_self, hy⟩
    · obtain ⟨b, hb, hab⟩ := ih hys a ha
      exact ⟨b, mem_cons_of_mem _ hb, hab⟩

theorem mapM_ok_of_forall {α β : Type} {f : α → ContentResult β} {l : List α}
    (h : ∀ a ∈ l, ∃ b, f a = .ok b) : ∃ out, l.mapM f = .ok out := by
  induction l with
  | nil => exact ⟨[], rfl⟩
  | cons a rest ih =>
    obtain ⟨b, hb⟩ := h a (by simp)
    obtain ⟨out, hout⟩ := ih fun x hx => h x (mem_cons_of_mem _ hx)
    refine ⟨b :: out, ?_⟩
    rw [mapM_cons]
    exact bind_eq_ok.mpr ⟨b, hb, bind_eq_ok.mpr ⟨out, hout, rfl⟩⟩

theorem mapM_ok_keys {α β γ : Type} {f : α → ContentResult β} {ka : α → γ} {kb : β → γ}
    (hkey : ∀ {a b}, f a = .ok b → kb b = ka a) {l : List α} :
    ∀ {out : List β}, l.mapM f = .ok out → out.map kb = l.map ka := by
  induction l with
  | nil =>
    intro out h
    cases h
    rfl
  | cons a rest ih =>
    intro out h
    rw [mapM_cons, bind_eq_ok] at h
    obtain ⟨x, hx, h⟩ := h
    obtain ⟨xs, hxs, h⟩ := bind_eq_ok.mp h
    cases h
    rw [map_cons, map_cons, hkey hx, ih hxs]

/-! ## Outcomes

Rules for what a computation yields when the only refusals it may end in are known. With
`fun _ => True` they are rules of partial correctness. -/

/-- A success satisfies `P` and a failure is one of the expected refusals. -/
def Yields {α : Type} (refuses : ContentError → Prop) (P : α → Prop) : ContentResult α → Prop
  | .ok a => P a
  | .error e => refuses e

namespace Yields

variable {α β σ : Type} {refuses : ContentError → Prop} {P : α → Prop} {Q : β → Prop}

variable {a : α}
@[simp] theorem ok_iff : Yields refuses P (.ok a) ↔ P a := Iff.rfl

@[simp] theorem error_iff :
    Yields refuses P (.error e : ContentResult α) ↔ refuses e := Iff.rfl

variable {x : ContentResult α}

theorem of_ok (h : Yields refuses P x) (hx : x = .ok a) : P a := by
  rwa [hx] at h

theorem mono {P' : α → Prop} (h : Yields refuses P x) (hP : ∀ a, P a → P' a) :
    Yields refuses P' x := by
  cases x with
  | ok a => exact hP a h
  | error e => exact h

theorem weaken {refuses' : ContentError → Prop} (h : Yields refuses P x)
    (hr : ∀ e, refuses e → refuses' e) : Yields refuses' P x := by
  cases x with
  | ok a => exact h
  | error e => exact hr e h

theorem bind {f : α → ContentResult β} (h : Yields refuses P x)
    (hf : ∀ a, P a → Yields refuses Q (f a)) : Yields refuses Q (x >>= f) := by
  cases x with
  | ok a => exact hf a h
  | error e => exact h

theorem ensure (h : check = false → refuses e) :
    Yields refuses (fun _ => check = true) (ensure check e) := by
  cases check with
  | false => exact h rfl
  | true => rfl

theorem orError {o : Option α} (h : o = none → refuses e) :
    Yields refuses (fun a => o = some a) (orError o e) := by
  cases o with
  | none => exact h rfl
  | some a => rfl

theorem foldlM {f : σ → α → ContentResult σ} (I : List α → σ → Prop) {l : List α} {s : σ}
    (hinit : I [] s)
    (hstep : ∀ done a rest s, l = done ++ a :: rest → I done s →
      Yields refuses (I (done ++ [a])) (f s a)) :
    Yields refuses (I l) (l.foldlM f s) := by
  have key : ∀ rest done s, l = done ++ rest → I done s →
      Yields refuses (I l) (rest.foldlM f s) := by
    intro rest
    induction rest with
    | nil =>
      intro done s hl hI
      rw [append_nil] at hl
      exact hl ▸ hI
    | cons a rest ih =>
      intro done s hl hI
      rw [List.foldlM_cons]
      exact (hstep done a rest s hl hI).bind fun s' hs' => ih (done ++ [a]) s' (by simp [hl]) hs'
  exact key l [] s rfl hinit

end Yields

/-! ## Limits (`filesystem/limits.rs`, `filesystem/identity.rs`) -/

/-- Largest value of the source's `u64`, plus one. -/
def u64Bound : ℕ := 2 ^ 64
/-- Largest accepted inode serial, `i64::MAX`. -/
def maximumInodeSerial : ℕ := 2 ^ 63 - 1
def maximumNameBytes : ℕ := 255
/-- Largest canonical bytes of one tree page, including the object envelope. -/
def maximumPageBytes : ℕ := 8192
def minimumFilledPageBytes : ℕ := 3277
def maximumTreeLevel : ℕ := 31
def emptyPageBytes : ℕ := 44
def minimumInodeLeafRows : ℕ := 50
def maximumInodeLeafRows : ℕ := 100
def minimumInodeBranchChildren : ℕ := 64
def maximumInodeBranchChildren : ℕ := 127
def maximumDirectoryLeafRows : ℕ := (maximumPageBytes - emptyPageBytes) / (2 + 1 + 8)
def defaultPageItems : ℕ := 234

/-- Saturating `u64` addition. -/
def saturatingAdd (a b : ℕ) : ℕ := min (a + b) (u64Bound - 1)

/-- Checked `u64` addition. -/
def checkedAdd (a b : ℕ) : ContentResult ℕ :=
  if a + b < u64Bound then .ok (a + b) else .error .lengthOverflow

theorem checkedAdd_eq_ok {a b c : ℕ} :
    checkedAdd a b = .ok c ↔ a + b < u64Bound ∧ c = a + b := by
  unfold checkedAdd
  split
  · simp [*, eq_comm]
  · simp [*]

/-! ## Names (`filesystem/path.rs`) -/

def isContinuation (b : ℕ) : Bool := 0x80 ≤ b && b ≤ 0xBF

/-- `std::str::from_utf8`: shortest forms only, no surrogates, at most U+10FFFF. -/
def utf8Valid : List ℕ → Bool
  | [] => true
  | b₀ :: t₀ =>
    if b₀ < 0x80 then utf8Valid t₀
    else match t₀ with
      | [] => false
      | b₁ :: t₁ =>
        if 0xC2 ≤ b₀ && b₀ ≤ 0xDF then isContinuation b₁ && utf8Valid t₁
        else match t₁ with
          | [] => false
          | b₂ :: t₂ =>
            if 0xE0 ≤ b₀ && b₀ ≤ 0xEF then
              isContinuation b₁ && isContinuation b₂
                && (b₀ != 0xE0 || 0xA0 ≤ b₁) && (b₀ != 0xED || b₁ ≤ 0x9F) && utf8Valid t₂
            else match t₂ with
              | [] => false
              | b₃ :: t₃ =>
                0xF0 ≤ b₀ && b₀ ≤ 0xF4 && isContinuation b₁ && isContinuation b₂
                  && isContinuation b₃ && (b₀ != 0xF0 || 0x90 ≤ b₁)
                  && (b₀ != 0xF4 || b₁ ≤ 0x8F) && utf8Valid t₃

/-- The name grammar: nonempty, at most 255 bytes of UTF-8, never `.` or `..`, and no
NUL, `/` or `\`. -/
def validateName (bytes : List ℕ) : ContentResult Unit := do
  ensure (!bytes.isEmpty) .invalidPath
  ensure (bytes.length ≤ maximumNameBytes) .pathLimitExceeded
  ensure (utf8Valid bytes) .invalidUtf8
  ensure (bytes != [0x2E] && bytes != [0x2E, 0x2E] && !bytes.contains 0
    && !bytes.contains 0x2F && !bytes.contains 0x5C) .invalidPath

/-- One checked path component. -/
structure PathName where
  bytes : List ℕ
  /-- the bytes satisfy the name grammar -/
  valid : validateName bytes = .ok ()

theorem valid_letter (n : ℕ) : validateName [0x61 + n % 26] = .ok () :=
  (by decide : ∀ m < 26, validateName [0x61 + m] = .ok ()) _ (Nat.mod_lt n (by decide))

/-- The name of one letter, by its place in the alphabet: `letter 0` is `a`. -/
def letter (n : ℕ) : PathName := ⟨[0x61 + n % 26], valid_letter n⟩

namespace PathName

def fromBytes (bytes : List ℕ) : ContentResult PathName :=
  match h : validateName bytes with
  | .ok () => .ok ⟨bytes, h⟩
  | .error e => .error e

theorem bytes_injective : Function.Injective PathName.bytes := by
  rintro ⟨a, _⟩ ⟨b, _⟩ h
  cases h
  rfl

instance : LinearOrder PathName := LinearOrder.lift' PathName.bytes bytes_injective

theorem lt_iff {a b : PathName} : a < b ↔ a.bytes < b.bytes := Iff.rfl

theorem length_le (n : PathName) : n.bytes.length ≤ maximumNameBytes := by
  have h := n.valid
  simp only [validateName, check_bind_eq_ok, ensure_eq_ok, decide_eq_true_eq] at h
  exact h.2.1

end PathName

/-! ## Inode values (`object/inode_leaf.rs`) -/

/-- Inode kind, exactly as the compact grammar records it. -/
inductive InodeKind where
  | regularFile
  | directory
  | symlink
  deriving DecidableEq, Repr

/-- Portable mode and modification time. -/
structure PortableMetadata where
  mode : ℕ
  mtimeSeconds : ℤ
  mtimeNanoseconds : ℕ
  deriving DecidableEq, Repr

/-- The metadata of one inode value: an attribute-tree root, or the inline form. -/
inductive InodeMetadata (Id : Type) where
  | root (id : Id)
  | inline (metadata : PortableMetadata)
  deriving DecidableEq, Repr

/-- One decoded inode value. -/
structure InodeValue (Id : Type) where
  kind : InodeKind
  namespaceRefCount : ℕ
  contentRoot : Id
  metadataRoot : InodeMetadata Id
  deriving DecidableEq, Repr

namespace InodeValue

variable {Id : Type}

def validate (value : InodeValue Id) (isRoot : Bool) : ContentResult Unit :=
  ensure
    (if isRoot then value.kind == .directory && value.namespaceRefCount == 0
     else 1 ≤ value.namespaceRefCount
      && (value.kind == .regularFile || value.namespaceRefCount == 1))
    (.invalidRecord "inode value invariant")

end InodeValue

end LayerFs
