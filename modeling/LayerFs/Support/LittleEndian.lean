import Mathlib.Algebra.Order.BigOperators.Group.List
import Mathlib.Algebra.Order.Group.Nat
import Mathlib.Algebra.Order.Ring.Int
import Mathlib.Data.Finset.Card
import Mathlib.Data.List.Chain
import Mathlib.Data.List.Flatten

/-!
# Little-endian words in byte strings

Four-byte words and the slices fixed-width formats are read through.

* `range?_append` — **a part of a concatenation is read at the length of what comes before it**.
-/

namespace LayerFs

variable {bytes out : List UInt8} {n start stop : ℕ}

def le32 (n : ℕ) : List UInt8 :=
  [UInt8.ofNat n, UInt8.ofNat (n / 256), UInt8.ofNat (n / 65536), UInt8.ofNat (n / 16777216)]

def ofLe32 : List UInt8 → ℕ
  | [] => 0
  | byte :: rest => byte.toNat + 256 * ofLe32 rest

@[simp] theorem length_le32 : (le32 n).length = 4 := rfl

/-- **A word is read back.** -/
theorem ofLe32_le32 (h : n < 2 ^ 32) : ofLe32 (le32 n) = n := by
  simp only [le32, ofLe32, UInt8.toNat_ofNat']
  omega

theorem ofLe32_lt (h : bytes.length = 4) : ofLe32 bytes < 2 ^ 32 := by
  match bytes, h with
  | [a, b, c, d], _ =>
    have ha := a.toNat_lt
    have hb := b.toNat_lt
    have hc := c.toNat_lt
    have hd := d.toNat_lt
    simp only [ofLe32]
    omega

/-- **Four bytes are those of the word they spell.** -/
theorem le32_ofLe32 (h : bytes.length = 4) : le32 (ofLe32 bytes) = bytes := by
  match bytes, h with
  | [a, b, c, d], _ =>
    have ha := a.toNat_lt
    have hb := b.toNat_lt
    have hc := c.toNat_lt
    have hd := d.toNat_lt
    simp only [le32, ofLe32, List.cons.injEq, and_true, ← UInt8.toNat_inj, UInt8.toNat_ofNat']
    omega

def range? (bytes : List UInt8) (start stop : ℕ) : Option (List UInt8) :=
  if start ≤ stop ∧ stop ≤ bytes.length then some ((bytes.drop start).take (stop - start)) else none

theorem range?_eq_some :
    range? bytes start stop = some out ↔
      start ≤ stop ∧ stop ≤ bytes.length ∧ (bytes.drop start).take (stop - start) = out := by
  rw [range?]
  split_ifs with h
  · simp [h]
  · simp only [false_iff]
    rintro ⟨hle, hlen, -⟩
    exact h ⟨hle, hlen⟩

/-- **A part of a concatenation.** -/
theorem range?_append {before part after : List UInt8} (hstart : start = before.length)
    (hstop : stop = before.length + part.length) :
    range? (before ++ part ++ after) start stop = some part := by
  subst hstart hstop
  rw [range?_eq_some]
  refine ⟨by omega, by simp, ?_⟩
  rw [List.append_assoc, List.drop_left, Nat.add_sub_cancel_left, List.take_left]

theorem length_of_range? (h : range? bytes start stop = some out) : out.length = stop - start := by
  obtain ⟨hle, hlen, rfl⟩ := range?_eq_some.mp h
  rw [List.length_take, List.length_drop]
  omega

end LayerFs
