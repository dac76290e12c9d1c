import Mathlib.Algebra.Order.BigOperators.Group.List
import Mathlib.Algebra.Order.Group.Nat
import Mathlib.Algebra.Order.Ring.Int
import Mathlib.Data.Finset.Card
import Mathlib.Data.List.Chain
import Mathlib.Data.List.Flatten

/-!
# Fields of a bounded record

A record is written field by field into a buffer of bounded length and read back field by field.
A writer fails exactly when the buffer would pass its bound, so a sequence of writers fails
exactly when all its bytes together would; a reader gives back what was written and leaves what
follows.

* `Writes`, `Writes.bind` — **what a writer appends**, and the writers behind it.
* `Reads`, `Reads.bind`, `Reads.many` — **what a reader takes**, and the readers behind it.
* `Accepts`, `Accepts.bind`, `Accepts.many` — **what a reader accepts**: one frame for a value, and
  no other bytes.
* `readFold`, `Accepts.fold` — **a reader called a number of times**, each with what the ones before
  it left behind.
-/

namespace LayerFs.Wire

open List

variable {bytes : List ℕ} {width : ℕ}

/-! ## Numbers -/

/-- The big-endian bytes of a number, `width` of them. -/
def be : ℕ → ℕ → List ℕ
  | 0, _ => []
  | width + 1, n => n / 256 ^ width % 256 :: be width n

def ofBe (bytes : List ℕ) : ℕ := bytes.foldl (fun n b => n * 256 + b) 0

@[simp]
theorem length_be (width n : ℕ) : (be width n).length = width := by
  induction width with
  | zero => rfl
  | succ width ih => rw [be, length_cons, ih]

theorem foldl_be (width n m : ℕ) :
    (be width n).foldl (fun n b => n * 256 + b) m = m * 256 ^ width + n % 256 ^ width := by
  induction width generalizing m with
  | zero => simp [be, Nat.mod_one]
  | succ width ih =>
    rw [be, foldl_cons, ih, Nat.pow_succ, Nat.mod_mul, Nat.add_mul, Nat.mul_assoc,
      Nat.mul_comm 256, Nat.mul_comm (n / 256 ^ width % 256)]
    omega

/-- **A number is read back** from its bytes, modulo what they hold. -/
theorem ofBe_be (width n : ℕ) : ofBe (be width n) = n % 256 ^ width := by
  rw [ofBe, foldl_be, Nat.zero_mul, Nat.zero_add]

/-! ## Writing -/

variable {ε α β : Type}

abbrev Writing (ε : Type) := StateT (List ℕ) (Except ε)

/-- **What a writer appends** behind `out`: these bytes when they fit the bound, and else it fails
with `e`. -/
def Writes (limit : ℕ) (e : ε) (m : Writing ε α) (out bytes : List ℕ) (a : α) : Prop :=
  m.run out = if out.length + bytes.length ≤ limit then .ok (a, out ++ bytes) else .error e

namespace Writes

variable {limit : ℕ} {e : ε} {out b c : List ℕ} {a : α}

theorem pure (hout : out.length ≤ limit) (a : α) :
    Writes limit e (Pure.pure a) out [] a := by
  rw [Writes, length_nil, Nat.add_zero, if_pos hout, append_nil]
  rfl

/-- **One writer behind another**, which runs when the first one's bytes fit. -/
theorem bind {m : Writing ε α} {f : α → Writing ε β} {a' : β} (hm : Writes limit e m out b a)
    (hf : (out ++ b).length ≤ limit → Writes limit e (f a) (out ++ b) c a') :
    Writes limit e (m >>= f) out (b ++ c) a' := by
  rw [Writes] at hm ⊢
  rw [StateT.run_bind, hm]
  rw [length_append] at hf
  by_cases hb : out.length + b.length ≤ limit
  · have hf := hf hb
    rw [Writes, length_append] at hf
    rw [if_pos hb]
    change (f a).run (out ++ b) = _
    rw [hf, length_append, ← Nat.add_assoc, append_assoc]
  · rw [if_neg hb, if_neg (by rw [length_append]; omega)]
    rfl

theorem get {f : List ℕ → Writing ε α} (hf : Writes limit e (f out) out b a) :
    Writes limit e (MonadState.get >>= f) out b a := by
  rw [Writes, StateT.run_bind]
  exact hf

end Writes

def writeAll (f : α → Writing ε Unit) : List α → Writing ε Unit
  | [] => pure ()
  | x :: xs => do
    f x
    writeAll f xs

theorem Writes.all {limit : ℕ} {e : ε} {f : α → Writing ε Unit} {bytes : α → List ℕ} {l : List α}
    (hf : ∀ x ∈ l, ∀ out : List ℕ, Writes limit e (f x) out (bytes x) ()) {out : List ℕ}
    (hout : out.length ≤ limit) :
    Writes limit e (writeAll f l) out (l.map bytes).flatten () := by
  induction l generalizing out with
  | nil => exact Writes.pure hout ()
  | cons x l ih =>
    apply (hf x mem_cons_self out).bind
    intro hfits
    exact ih (fun y hy => hf y (mem_cons_of_mem x hy)) hfits

/-! ## Reading -/

abbrev Reading (ε : Type) := StateT (List ℕ) (Except ε)

/-- **What a reader takes**: it gives `a` for these bytes, whatever follows them. -/
def Reads (m : Reading ε α) (bytes : List ℕ) (a : α) : Prop :=
  ∀ rest, m.run (bytes ++ rest) = .ok (a, rest)

namespace Reads

variable {b c : List ℕ} {a : α}

theorem pure (a : α) : Reads (ε := ε) (Pure.pure a) [] a := fun _ => rfl

/-- **One reader behind another.** -/
theorem bind {m : Reading ε α} {f : α → Reading ε β} {a' : β} (hm : Reads m b a)
    (hf : Reads (f a) c a') : Reads (m >>= f) (b ++ c) a' := by
  intro rest
  rw [StateT.run_bind, append_assoc, hm]
  exact hf rest

end Reads

def readMany (m : Reading ε α) : ℕ → Reading ε (List α)
  | 0 => pure []
  | n + 1 => do
    let x ← m
    let xs ← readMany m n
    pure (x :: xs)

theorem Reads.many {m : Reading ε α} {bytes : β → List ℕ} {value : β → α} {l : List β}
    (h : ∀ x ∈ l, Reads m (bytes x) (value x)) :
    Reads (readMany m l.length) (l.map bytes).flatten (l.map value) := by
  induction l with
  | nil => exact Reads.pure []
  | cons x l ih =>
    have hrest := ih (fun y hy => h y (mem_cons_of_mem x hy))
    have hlast := hrest.bind (f := fun xs => Pure.pure (value x :: xs)) (Reads.pure _)
    rw [append_nil] at hlast
    exact (h x mem_cons_self).bind hlast

/-! ## Accepting -/

def IsBytes (bytes : List ℕ) : Prop := ∀ b ∈ bytes, b < 256

theorem IsBytes.of_append {b c : List ℕ} (h : IsBytes (b ++ c)) : IsBytes b ∧ IsBytes c :=
  ⟨fun x hx => h x (mem_append_left c hx), fun x hx => h x (mem_append_right b hx)⟩

theorem IsBytes.append {b c : List ℕ} (hb : IsBytes b) (hc : IsBytes c) : IsBytes (b ++ c) :=
  fun x hx => (mem_append.mp hx).elim (hb x) (hc x)

theorem isBytes_flatten {l : List (List ℕ)} (h : ∀ b ∈ l, IsBytes b) : IsBytes l.flatten := by
  intro x hx
  obtain ⟨b, hb, hx⟩ := mem_flatten.mp hx
  exact h b hb x hx

theorem isBytes_be (width n : ℕ) : IsBytes (be width n) := by
  induction width with
  | zero => exact fun x hx => absurd hx not_mem_nil
  | succ width ih => exact forall_mem_cons.mpr ⟨Nat.mod_lt _ (by decide), ih⟩

theorem isBytes_toNat (bytes : List UInt8) : IsBytes (bytes.map UInt8.toNat) := by
  intro b hb
  obtain ⟨byte, -, rfl⟩ := mem_map.mp hb
  exact byte.toNat_lt

theorem map_toNat_ofNat (h : IsBytes bytes) : (bytes.map UInt8.ofNat).map UInt8.toNat = bytes := by
  rw [map_map]
  refine (map_congr_left fun b hb => ?_).trans (map_id _)
  exact UInt8.toNat_ofNat_of_lt' (h b hb)

theorem ofBe_lt (h : IsBytes bytes) : ofBe bytes < 256 ^ bytes.length := by
  induction bytes using List.reverseRecOn with
  | nil => exact Nat.one_pos
  | append_singleton bytes b ih =>
    obtain ⟨hbytes, hb⟩ := h.of_append
    have hb := hb b mem_cons_self
    have hlow := ih hbytes
    rw [ofBe] at hlow ⊢
    rw [foldl_append, length_append, length_singleton, Nat.pow_succ]
    simp only [foldl_cons, foldl_nil]
    omega

theorem be_succ (width n : ℕ) : be (width + 1) n = be width (n / 256) ++ [n % 256] := by
  induction width with
  | zero => simp [be]
  | succ width ih =>
    rw [be, ih, be, Nat.div_div_eq_div_mul, ← Nat.pow_succ', cons_append]

/-- **Bytes are those of the number they spell.** -/
theorem be_ofBe (h : IsBytes bytes) : be bytes.length (ofBe bytes) = bytes := by
  induction bytes using List.reverseRecOn with
  | nil => rfl
  | append_singleton bytes b ih =>
    obtain ⟨hbytes, hb⟩ := h.of_append
    have hb := hb b mem_cons_self
    have hsplit : ofBe (bytes ++ [b]) = ofBe bytes * 256 + b := by
      rw [ofBe, foldl_append]
      rfl
    rw [length_append, length_singleton, be_succ, hsplit,
      show (ofBe bytes * 256 + b) / 256 = ofBe bytes by omega,
      show (ofBe bytes * 256 + b) % 256 = b by omega, ih hbytes]

/-- **What a reader accepts**: of bytes, exactly the frame of a value that fits, whatever follows
it. -/
def Accepts (m : Reading ε α) (frame : α → List ℕ) (fits : α → Prop) : Prop :=
  ∀ (bytes : List ℕ), IsBytes bytes → ∀ (a : α) (rest : List ℕ),
    m.run bytes = .ok (a, rest) ↔ fits a ∧ bytes = frame a ++ rest

namespace Accepts

variable {frame : α → List ℕ} {fits : α → Prop}
variable {m : Reading ε α} {f : α → Reading ε β} (part : β → α)

theorem pure (a : α) : Accepts (ε := ε) (Pure.pure a) (fun _ => []) (fun b => b = a) := by
  intro bytes _ b rest
  rw [StateT.run_pure]
  constructor
  · intro h
    cases h
    exact ⟨rfl, rfl⟩
  · rintro ⟨rfl, rfl⟩
    rfl

theorem of_iff {fits' : α → Prop} (h : Accepts m frame fits) (hfits : ∀ a, fits' a ↔ fits a) :
    Accepts m frame fits' := by
  intro bytes hbytes a rest
  rw [h bytes hbytes a rest, hfits]

/-- **One reader behind another**, when its value tells that of the first. -/
theorem bind_of {frame' : β → List ℕ} {fits' : β → Prop} (hm : Accepts m frame fits)
    (hf : ∀ a, fits a → Accepts (f a) frame' (fun b => part b = a ∧ fits' b)) :
    Accepts (m >>= f) (fun b => frame (part b) ++ frame' b)
      (fun b => fits (part b) ∧ fits' b) := by
  intro bytes hbytes b rest
  rw [StateT.run_bind]
  constructor
  · intro hrun
    rcases hfirst : m.run bytes with e | ⟨a, middle⟩
    · rw [hfirst] at hrun
      cases hrun
    · rw [hfirst] at hrun
      obtain ⟨hfits, rfl⟩ := (hm _ hbytes _ _).mp hfirst
      obtain ⟨⟨rfl, hfits'⟩, rfl⟩ := (hf a hfits _ hbytes.of_append.2 _ _).mp hrun
      exact ⟨⟨hfits, hfits'⟩, (append_assoc _ _ _).symm⟩
  · rintro ⟨⟨hfits, hfits'⟩, rfl⟩
    rw [append_assoc] at hbytes ⊢
    rw [(hm _ hbytes _ _).mpr ⟨hfits, rfl⟩]
    exact (hf _ hfits _ hbytes.of_append.2 _ _).mpr ⟨⟨rfl, hfits'⟩, rfl⟩

theorem bind {frame' : β → List ℕ} {fits' : β → Prop} (hm : Accepts m frame fits)
    (hf : ∀ a, Accepts (f a) frame' (fun b => part b = a ∧ fits' b)) :
    Accepts (m >>= f) (fun b => frame (part b) ++ frame' b)
      (fun b => fits (part b) ∧ fits' b) :=
  bind_of part hm fun a _ => hf a

/-- **A reader called a number of times.** -/
theorem many (h : Accepts m frame fits) (n : ℕ) :
    Accepts (readMany m n) (fun l => (l.map frame).flatten)
      (fun l => l.length = n ∧ ∀ a ∈ l, fits a) := by
  intro bytes hbytes l rest
  induction n generalizing bytes l with
  | zero =>
    rw [readMany, pure [] bytes hbytes]
    constructor
    · rintro ⟨rfl, rfl⟩
      exact ⟨⟨rfl, fun a ha => absurd ha not_mem_nil⟩, rfl⟩
    · rintro ⟨⟨hl, -⟩, rfl⟩
      cases length_eq_zero_iff.mp hl
      exact ⟨rfl, rfl⟩
  | succ n ih =>
    rw [readMany, StateT.run_bind]
    constructor
    · intro hrun
      rcases hfirst : m.run bytes with e | ⟨a, middle⟩
      · rw [hfirst] at hrun
        cases hrun
      · rw [hfirst] at hrun
        obtain ⟨hfits, rfl⟩ := (h _ hbytes _ _).mp hfirst
        replace hrun : ((readMany m n >>= fun xs => Pure.pure (a :: xs)) :
          Reading ε (List α)).run middle = .ok (l, rest) := hrun
        rw [StateT.run_bind] at hrun
        rcases hlater : (readMany m n).run middle with e | ⟨xs, last⟩
        · rw [hlater] at hrun
          cases hrun
        · rw [hlater] at hrun
          cases hrun
          obtain ⟨⟨hlength, hall⟩, rfl⟩ := (ih _ hbytes.of_append.2 _).mp hlater
          refine ⟨⟨by rw [length_cons, hlength], fun x hx => ?_⟩, ?_⟩
          · rcases mem_cons.mp hx with rfl | hx
            · exact hfits
            · exact hall x hx
          · dsimp only
            rw [map_cons, flatten_cons, append_assoc]
    · rintro ⟨⟨hlength, hall⟩, rfl⟩
      rcases l with _ | ⟨a, xs⟩
      · cases hlength
      · dsimp only at hbytes ⊢
        rw [map_cons, flatten_cons, append_assoc] at hbytes ⊢
        rw [(h _ hbytes _ _).mpr ⟨hall a mem_cons_self, rfl⟩]
        change StateT.run (readMany m n >>= fun xs => Pure.pure (a :: xs)) _ = _
        rw [StateT.run_bind, (ih _ hbytes.of_append.2 _).mpr
          ⟨⟨Nat.succ.inj hlength, fun x hx => hall x (mem_cons_of_mem a hx)⟩, rfl⟩]
        rfl

theorem of_eq {frame' : α → List ℕ} {fits' : α → Prop} (h : Accepts m frame fits)
    (hfits : ∀ a, fits' a ↔ fits a) (hframe : ∀ a, fits a → frame' a = frame a) :
    Accepts m frame' fits' := by
  intro bytes hbytes a rest
  rw [h bytes hbytes a rest, hfits]
  constructor
  · rintro ⟨hfit, heq⟩
    exact ⟨hfit, (hframe a hfit).symm ▸ heq⟩
  · rintro ⟨hfit, heq⟩
    exact ⟨hfit, hframe a hfit ▸ heq⟩

/-- **What is made of a value** tells the value again. -/
theorem map (h : Accepts m frame fits) (make : α → β) {frame' : β → List ℕ} {fits' : β → Prop}
    (hframe : ∀ a, fits a → frame' (make a) = frame a)
    (hfits : ∀ b, fits' b ↔ ∃ a, make a = b ∧ fits a) :
    Accepts (m >>= fun a => Pure.pure (make a)) frame' fits' := by
  intro bytes hbytes b rest
  rw [StateT.run_bind, hfits]
  constructor
  · intro hrun
    rcases hfirst : m.run bytes with e | ⟨a, middle⟩
    · rw [hfirst] at hrun
      cases hrun
    · rw [hfirst] at hrun
      cases hrun
      obtain ⟨hfit, heq⟩ := (h _ hbytes _ _).mp hfirst
      exact ⟨⟨a, rfl, hfit⟩, by rw [hframe a hfit, heq]⟩
  · rintro ⟨⟨a, rfl, hfit⟩, heq⟩
    rw [hframe a hfit] at heq
    rw [(h _ hbytes _ _).mpr ⟨hfit, heq⟩]
    rfl

end Accepts

/-! ## Results among readers -/

def result (x : Except ε α) : Reading ε α := fun bytes => x.map fun a => (a, bytes)

variable {x : Except ε α}

theorem run_result_eq_ok {rest : List ℕ} {a : α} :
    (result x).run bytes = .ok (a, rest) ↔ x = .ok a ∧ bytes = rest := by
  cases x with
  | error e => simp [result, StateT.run, Except.map]
  | ok b => simp [result, StateT.run, Except.map]

namespace Accepts

variable {frame : α → List ℕ} {fits : α → Prop}
variable {m : Reading ε α} {f : α → Reading ε β} (more : β → Prop) (part : β → α)

theorem result {x : Except ε α} (h : ∀ a, x = .ok a ↔ fits a) :
    Accepts (result x) (fun _ => []) fits := by
  intro bytes _ a rest
  rw [run_result_eq_ok, h, nil_append]

/-- **A check in front of a reader.** -/
theorem check {x : Except ε Unit} {c : Prop} (hx : x = .ok () ↔ c) (h : Accepts m frame fits) :
    Accepts (Wire.result x >>= fun _ => m) frame (fun a => c ∧ fits a) :=
  Accepts.bind (fun _ => ()) (Accepts.result fun _ => hx)
    (fun _ => h.of_iff fun _ => and_iff_right rfl)

/-! ### Records

A reader of a record takes its fields one by one, and what it gives at the end tells each of them.
`earlier` collects what is known of the fields in front. -/

variable {earlier : β → Prop} {frame' : β → List ℕ} {fits' : β → Prop}

/-- **One field of a record.** -/
theorem field_of (hm : Accepts m frame fits)
    (hf : ∀ a, fits a → Accepts (f a) frame' (fun b => (earlier b ∧ part b = a) ∧ fits' b)) :
    Accepts (m >>= f) (fun b => frame (part b) ++ frame' b)
      (fun b => earlier b ∧ fits (part b) ∧ fits' b) := by
  have hnext : ∀ a, fits a → Accepts (f a) frame' (fun b => part b = a ∧ earlier b ∧ fits' b) :=
    fun a ha => (hf a ha).of_iff fun b => by rw [← and_assoc, and_comm (a := part b = a)]
  exact (Accepts.bind_of part hm hnext).of_iff fun b => and_left_comm

theorem field (hm : Accepts m frame fits)
    (hf : ∀ a, Accepts (f a) frame' (fun b => (earlier b ∧ part b = a) ∧ fits' b)) :
    Accepts (m >>= f) (fun b => frame (part b) ++ frame' b)
      (fun b => earlier b ∧ fits (part b) ∧ fits' b) :=
  field_of part hm fun a _ => hf a

theorem test {m : Reading ε β} {x : Except ε Unit} {c : Prop} (holds : β → Prop)
    (hx : x = .ok () ↔ c) (hc : ∀ b, earlier b → (c ↔ holds b))
    (hm : Accepts m frame' (fun b => earlier b ∧ fits' b)) :
    Accepts (Wire.result x >>= fun _ => m) frame' (fun b => earlier b ∧ holds b ∧ fits' b) := by
  refine (Accepts.check hx hm).of_iff fun b => ?_
  constructor
  · rintro ⟨hearlier, hholds, hfits⟩
    exact ⟨(hc b hearlier).mpr hholds, hearlier, hfits⟩
  · rintro ⟨hyes, hearlier, hfits⟩
    exact ⟨hearlier, (hc b hearlier).mp hyes, hfits⟩

theorem done {b : β} (h : ∀ b', b' = b ↔ earlier b') :
    Accepts (ε := ε) (Pure.pure b) (fun _ => []) (fun b' => earlier b' ∧ True) :=
  (Accepts.pure b).of_iff fun b' => by rw [and_true, h]

theorem made {x : Except ε β} (h : ∀ b, x = .ok b ↔ earlier b ∧ more b) :
    Accepts (Wire.result x) (fun _ => []) (fun b => earlier b ∧ more b) :=
  Accepts.result h

theorem rest {m : Reading ε β} {fits : β → Prop} (hm : Accepts m frame' fits)
    (h : ∀ b, earlier b ∧ more b ↔ fits b) : Accepts m frame' (fun b => earlier b ∧ more b) :=
  hm.of_iff h

/-- **A record**, from the reader of its first field. -/
theorem record {m : Reading ε β} {frame : β → List ℕ} {fits : β → Prop}
    (h : Accepts m frame (fun b => True ∧ fits b)) {frame' : β → List ℕ} {fits' : β → Prop}
    (hfits : ∀ b, fits' b ↔ fits b) (hframe : ∀ b, frame' b = frame b) :
    Accepts m frame' fits' :=
  h.of_eq (fun b => (hfits b).trans (and_iff_right trivial).symm) fun b _ => hframe b

/-- **A field that is always the same**, in front of a reader. -/
theorem expect {k : Reading ε β} {x : α → Except ε Unit} {frame' : β → List ℕ} {fits' : β → Prop}
    (hm : Accepts m frame fits) {a : α} (ha : fits a) (hx : ∀ found, x found = .ok () ↔ found = a)
    (hk : Accepts k frame' fits') :
    Accepts (m >>= fun found => Wire.result (x found) >>= fun _ => k)
      (fun b => frame a ++ frame' b) fits' :=
  (Accepts.bind (fun _ => a) hm (fun found => Accepts.check ((hx found).trans eq_comm) hk)).of_iff
    fun _ => (and_iff_right ha).symm

theorem expect_last {x : α → Except ε Unit} (hm : Accepts m frame fits) {a : α} (ha : fits a)
    (hx : ∀ found, x found = .ok () ↔ found = a) :
    Accepts (m >>= fun found => Wire.result (x found)) (fun _ => frame a) (fun _ => True) := by
  have hlast : ∀ found, Accepts (Wire.result (x found)) (fun _ => [])
      (fun _ : Unit => a = found ∧ True) := fun found =>
    Accepts.result fun _ => by rw [hx, and_true, eq_comm]
  refine (Accepts.bind (fun _ => a) hm hlast).of_eq (fun _ => ?_)
    (fun _ _ => (append_nil _).symm)
  exact (and_iff_left trivial).trans (iff_true_intro ha) |>.symm

end Accepts

/-! ## Fields of a fixed width -/

/-- The next bytes, `width` of them, or the failure `e`. -/
def takeExactly (e : ε) (width : ℕ) : Reading ε (List ℕ) := fun bytes =>
  if width ≤ bytes.length then .ok (bytes.take width, bytes.drop width) else .error e

theorem takeExactly_accepts {e : ε} :
    Accepts (takeExactly e width) id (fun taken => taken.length = width ∧ IsBytes taken) := by
  intro bytes hbytes taken rest
  rw [StateT.run, takeExactly]
  constructor
  · intro h
    split_ifs at h with hwidth
    cases h
    have hsplit := (take_append_drop width bytes).symm
    refine ⟨⟨length_take_of_le hwidth, ?_⟩, hsplit⟩
    rw [hsplit] at hbytes
    exact hbytes.of_append.1
  · rintro ⟨⟨rfl, -⟩, rfl⟩
    rw [id_eq, if_pos (by simp), take_left, drop_left]

def number (e : ε) (width : ℕ) : Reading ε ℕ := do
  let bytes ← takeExactly e width
  return ofBe bytes

theorem number_accepts {e : ε} : Accepts (number e width) (be width) (· < 256 ^ width) := by
  intro bytes hbytes n rest
  rw [number, StateT.run_bind]
  constructor
  · intro h
    rcases htake : (takeExactly e width).run bytes with e' | ⟨taken, later⟩
    · rw [htake] at h
      cases h
    · rw [htake] at h
      cases h
      obtain ⟨⟨hlength, htaken⟩, rfl⟩ := (takeExactly_accepts _ hbytes _ _).mp htake
      have hlt := ofBe_lt htaken
      have hback := be_ofBe htaken
      rw [hlength] at hlt hback
      exact ⟨hlt, by rw [hback, id_eq]⟩
  · rintro ⟨hn, rfl⟩
    rw [(takeExactly_accepts _ hbytes (be width n) rest).mpr
      ⟨⟨length_be width n, isBytes_be width n⟩, rfl⟩]
    change Except.ok (ofBe (be width n), rest) = _
    rw [ofBe_be, Nat.mod_eq_of_lt hn]

/-- Bytes of a fixed width. -/
structure Block (width : ℕ) where
  bytes : List ℕ
  length_eq : bytes.length = width
  isBytes : IsBytes bytes

theorem Block.ext_bytes {a b : Block width} (h : a.bytes = b.bytes) : a = b := by
  cases a
  cases b
  cases h
  rfl

instance {width : ℕ} : DecidableEq (Block width) := fun a b =>
  decidable_of_iff (a.bytes = b.bytes) ⟨Block.ext_bytes, fun h => h ▸ rfl⟩

instance (bytes : List ℕ) : Decidable (IsBytes bytes) :=
  inferInstanceAs (Decidable (∀ b ∈ bytes, b < 256))

/-- The block of some bytes, or the failure `e`. -/
def Block.ofBytes (e : ε) (width : ℕ) (bytes : List ℕ) : Except ε (Block width) :=
  if h : bytes.length = width ∧ IsBytes bytes then .ok ⟨bytes, h.1, h.2⟩ else .error e

theorem Block.ofBytes_eq_ok {e : ε} {block : Block width} :
    Block.ofBytes e width bytes = .ok block ↔ block.bytes = bytes := by
  rw [Block.ofBytes]
  constructor
  · intro h
    split_ifs at h
    cases h
    rfl
  · rintro rfl
    rw [dif_pos ⟨block.length_eq, block.isBytes⟩]

def readBlock (e : ε) (width : ℕ) : Reading ε (Block width) := do
  let bytes ← takeExactly e width
  result (Block.ofBytes e width bytes)

theorem readBlock_accepts {e : ε} : Accepts (readBlock e width) Block.bytes (fun _ => True) := by
  have hlast : ∀ taken, Accepts (result (Block.ofBytes e width taken)) (fun _ => [])
      (fun block => block.bytes = taken ∧ True) := fun taken =>
    Accepts.result fun block => by rw [Block.ofBytes_eq_ok, and_true]
  refine (Accepts.bind Block.bytes takeExactly_accepts hlast).of_eq (fun block => ?_)
    (fun block _ => by rw [append_nil, id_eq])
  exact ⟨fun _ => ⟨⟨block.length_eq, block.isBytes⟩, trivial⟩, fun _ => trivial⟩

theorem result_reads {a : α} (h : x = .ok a) : Reads (result x) [] a := by
  intro rest
  rw [nil_append]
  exact run_result_eq_ok.mpr ⟨h, rfl⟩

theorem takeExactly_reads {e : ε} (h : bytes.length = width) :
    Reads (takeExactly e width) bytes bytes := by
  intro rest
  rw [StateT.run, takeExactly, if_pos (by rw [length_append]; omega), take_left' h,
    drop_left' h]

theorem number_reads {e : ε} {n : ℕ} (h : n < 256 ^ width) :
    Reads (number e width) (be width n) n := by
  have hread := (takeExactly_reads (e := e) (length_be width n)).bind
    (f := fun bytes => Pure.pure (ofBe bytes)) (Reads.pure _)
  rw [ofBe_be, Nat.mod_eq_of_lt h, append_nil] at hread
  exact hread

theorem readBlock_reads {e : ε} (block : Block width) :
    Reads (readBlock e width) block.bytes block := by
  have hread := (takeExactly_reads (e := e) block.length_eq).bind
    (f := fun bytes => result (Block.ofBytes e width bytes))
    (result_reads (Block.ofBytes_eq_ok.mpr rfl))
  rw [append_nil] at hread
  exact hread

theorem Reads.after {f : α → Reading ε β} {a : α} {b : List ℕ} {a' : β} (hx : x = .ok a)
    (hf : Reads (f a) b a') : Reads (result x >>= f) b a' :=
  (result_reads hx).bind hf

/-! ## Readers in a loop -/

variable {σ : Type}

/-- A reader called a number of times, each with what the ones before it left behind. -/
def readFold (m : σ → Reading ε α) (next : σ → α → σ) : ℕ → σ → Reading ε (List α × σ)
  | 0, s => pure ([], s)
  | n + 1, s => do
    let x ← m s
    let (xs, last) ← readFold m next n (next s x)
    pure (x :: xs, last)

def Threads (fits : σ → α → Prop) (next : σ → α → σ) : σ → List α → Prop
  | _, [] => True
  | s, x :: xs => fits s x ∧ Threads fits next (next s x) xs

/-- **What a reader called a number of times accepts.** -/
theorem Accepts.fold {m : σ → Reading ε α} {next : σ → α → σ} {frame : α → List ℕ}
    {fits : σ → α → Prop} (h : ∀ s, Accepts (m s) frame (fits s)) (n : ℕ) (s : σ) :
    Accepts (readFold m next n s) (fun r => (r.1.map frame).flatten)
      (fun r => r.1.length = n ∧ Threads fits next s r.1 ∧ r.2 = r.1.foldl next s) := by
  intro bytes hbytes r rest
  obtain ⟨l, last⟩ := r
  induction n generalizing bytes s l with
  | zero =>
    rw [readFold, pure ([], s) bytes hbytes]
    constructor
    · rintro ⟨heq, rfl⟩
      cases heq
      exact ⟨⟨rfl, trivial, rfl⟩, rfl⟩
    · rintro ⟨⟨hl, -, hlast⟩, rfl⟩
      cases length_eq_zero_iff.mp hl
      cases hlast
      exact ⟨rfl, rfl⟩
  | succ n ih =>
    rw [readFold, StateT.run_bind]
    constructor
    · intro hrun
      rcases hfirst : (m s).run bytes with e | ⟨x, middle⟩
      · rw [hfirst] at hrun
        cases hrun
      · rw [hfirst] at hrun
        obtain ⟨hfits, rfl⟩ := (h s _ hbytes _ _).mp hfirst
        replace hrun : ((readFold m next n (next s x) >>= fun p => Pure.pure (x :: p.1, p.2)) :
          Reading ε (List α × σ)).run middle = .ok ((l, last), rest) := hrun
        rw [StateT.run_bind] at hrun
        rcases hlater : (readFold m next n (next s x)).run middle with e | ⟨⟨xs, after⟩, left⟩
        · rw [hlater] at hrun
          cases hrun
        · rw [hlater] at hrun
          cases hrun
          obtain ⟨⟨hlength, hthreads, hlast⟩, rfl⟩ := (ih _ _ hbytes.of_append.2 _).mp hlater
          refine ⟨⟨congrArg Nat.succ hlength, ⟨hfits, hthreads⟩, hlast⟩, ?_⟩
          dsimp only
          rw [map_cons, flatten_cons, append_assoc]
    · rintro ⟨⟨hlength, hthreads, hlast⟩, rfl⟩
      rcases l with _ | ⟨x, xs⟩
      · cases hlength
      · dsimp only at hbytes hlast ⊢
        rw [map_cons, flatten_cons, append_assoc] at hbytes ⊢
        rw [(h s _ hbytes _ _).mpr ⟨hthreads.1, rfl⟩]
        change StateT.run
          (readFold m next n (next s x) >>= fun p => Pure.pure (x :: p.1, p.2)) _ = _
        rw [StateT.run_bind, (ih _ _ hbytes.of_append.2 xs).mpr
          ⟨⟨Nat.succ.inj hlength, hthreads.2, hlast⟩, rfl⟩]
        rfl

end LayerFs.Wire
