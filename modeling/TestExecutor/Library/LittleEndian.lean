import Mathlib.Data.List.Basic
import Mathlib.Tactic.Ring

/-!
# Little-endian words in byte strings

The fixed-width unsigned words that a binary format is made of, and a reader over a byte
string with an explicit position.

* `leBytes w n` — the `w` little-endian bytes of `n` (the high part is dropped);
* `leNat bs` — the number a byte list denotes;
* `leNat_leBytes` / `leBytes_leNat` — the two are inverse, up to the width;
* `readLE bs p w` — the word of width `w` at position `p`, `none` when it does not fit;
* `readLE_append` — reading a word back where it was written, whatever stands around it.

Nothing here knows what the words mean.
-/

namespace TestExecutor.Library

/-! ### Words and their bytes -/

/-- The `w` little-endian bytes of `n`. -/
def leBytes : ℕ → ℕ → List UInt8
  | 0, _ => []
  | w + 1, n => UInt8.ofNat n :: leBytes w (n / 256)

/-- The number denoted by a little-endian byte list. -/
def leNat : List UInt8 → ℕ
  | [] => 0
  | b :: bs => b.toNat + 256 * leNat bs

@[simp] theorem leBytes_length (w n : ℕ) : (leBytes w n).length = w := by
  induction w generalizing n with
  | zero => rfl
  | succ w ih => simp [leBytes, ih]

theorem leNat_lt (bs : List UInt8) : leNat bs < 256 ^ bs.length := by
  induction bs with
  | nil => simp [leNat]
  | cons b bs ih =>
      have hb : b.toNat < 256 := b.toNat_lt
      simp only [leNat, List.length_cons, pow_succ]
      omega

/-- Decoding the bytes of `n` gives `n` back, modulo the width. -/
theorem leNat_leBytes (w n : ℕ) : leNat (leBytes w n) = n % 256 ^ w := by
  induction w generalizing n with
  | zero => simp [leBytes, leNat, Nat.mod_one]
  | succ w ih =>
      have hb : (UInt8.ofNat n).toNat = n % 256 := by simp [UInt8.toNat_ofNat']
      rw [leBytes, leNat, ih, hb, pow_succ, Nat.mul_comm (256 ^ w) 256, Nat.mod_mul]

theorem leNat_leBytes_of_lt {w n : ℕ} (h : n < 256 ^ w) : leNat (leBytes w n) = n := by
  rw [leNat_leBytes, Nat.mod_eq_of_lt h]

/-- Encoding the number a byte list denotes gives the byte list back. -/
theorem leBytes_leNat (bs : List UInt8) : leBytes bs.length (leNat bs) = bs := by
  induction bs with
  | nil => rfl
  | cons b bs ih =>
      have hb : b.toNat < 256 := b.toNat_lt
      have hmod : UInt8.ofNat (b.toNat + 256 * leNat bs) = b := by
        apply UInt8.toNat_inj.mp
        rw [UInt8.toNat_ofNat']
        omega
      have hdiv : (b.toNat + 256 * leNat bs) / 256 = leNat bs := by omega
      simp only [List.length_cons, leBytes, leNat, hmod, hdiv, ih]

/-- Only the value modulo the width is encoded. -/
theorem leBytes_mod (w n : ℕ) : leBytes w (n % 256 ^ w) = leBytes w n := by
  have h := leBytes_leNat (leBytes w n)
  rwa [leNat_leBytes, leBytes_length] at h

theorem leBytes_zero (w : ℕ) : leBytes w 0 = List.replicate w 0 := by
  induction w with
  | zero => rfl
  | succ w ih => exact congrArg (List.cons 0) ih

/-! ### Reading at a position -/

/-- The little-endian word of width `w` at position `p`, if it lies inside the byte string. -/
def readLE (bs : List UInt8) (p w : ℕ) : Option ℕ :=
  if p + w ≤ bs.length then some (leNat ((bs.drop p).take w)) else none

theorem readLE_eq_some {bs : List UInt8} {p w : ℕ} (h : p + w ≤ bs.length) :
    readLE bs p w = some (leNat ((bs.drop p).take w)) := if_pos h

theorem readLE_eq_none {bs : List UInt8} {p w : ℕ} (h : bs.length < p + w) :
    readLE bs p w = none := if_neg (by omega)

theorem readLE_some_iff {bs : List UInt8} {p w v : ℕ} :
    readLE bs p w = some v ↔ p + w ≤ bs.length ∧ leNat ((bs.drop p).take w) = v := by
  unfold readLE
  split
  · rename_i h
    simp [h]
  · rename_i h
    simp [h]

/-- **Reading back a written word**, past an arbitrary prefix and before an arbitrary rest. -/
theorem readLE_append (pre post : List UInt8) (w n : ℕ) :
    readLE (pre ++ (leBytes w n ++ post)) pre.length w = some (n % 256 ^ w) := by
  rw [readLE_eq_some (by simp), List.drop_left, List.take_left' (leBytes_length w n),
    leNat_leBytes]

theorem readLE_append_of_lt (pre post : List UInt8) {w n : ℕ} (h : n < 256 ^ w) :
    readLE (pre ++ (leBytes w n ++ post)) pre.length w = some n := by
  rw [readLE_append, Nat.mod_eq_of_lt h]

end TestExecutor.Library
