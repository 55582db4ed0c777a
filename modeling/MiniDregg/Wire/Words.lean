import Mathlib.Algebra.Group.Nat.Defs
import Mathlib.Data.List.Basic

/-!
# Little-endian words

Fixed-width words as byte strings, least significant byte first, and the two
round trips between a word and the number it stands for.
-/

namespace MiniDregg

abbrev Bytes := List UInt8

namespace Wire

/-- The `w` low bytes of `n`. -/
def toLeBytes : Nat → Nat → List UInt8
  | 0, _ => []
  | w + 1, n => UInt8.ofNat n :: toLeBytes w (n / 256)

/-- The number a byte string stands for. -/
def fromLeBytes : List UInt8 → Nat
  | [] => 0
  | b :: rest => b.toNat + 256 * fromLeBytes rest

@[simp] theorem length_toLeBytes (w n : Nat) : (toLeBytes w n).length = w := by
  induction w generalizing n with
  | zero => rfl
  | succ w ih => simp [toLeBytes, ih]

theorem fromLeBytes_toLeBytes {w n : Nat} (h : n < 256 ^ w) : fromLeBytes (toLeBytes w n) = n := by
  induction w generalizing n with
  | zero => simp only [Nat.pow_zero, Nat.lt_one_iff] at h; simp [toLeBytes, fromLeBytes, h]
  | succ w ih =>
    have hdiv : n / 256 < 256 ^ w := by
      rw [Nat.div_lt_iff_lt_mul (by decide), ← Nat.pow_succ]
      exact h
    simp only [toLeBytes, fromLeBytes, ih hdiv, UInt8.toNat_ofNat']
    change n % 256 + 256 * (n / 256) = n
    omega

theorem toLeBytes_fromLeBytes (b : List UInt8) : toLeBytes b.length (fromLeBytes b) = b := by
  induction b with
  | nil => rfl
  | cons x rest ih =>
    have hx := x.toNat_lt
    have hdiv : (x.toNat + 256 * fromLeBytes rest) / 256 = fromLeBytes rest := by omega
    have hmod : UInt8.ofNat (x.toNat + 256 * fromLeBytes rest) = x := by
      apply UInt8.toNat_inj.1
      rw [UInt8.toNat_ofNat']
      change (x.toNat + 256 * fromLeBytes rest) % 256 = x.toNat
      omega
    simp only [List.length_cons, toLeBytes, fromLeBytes, hdiv, hmod, ih]

/-- Words of one width are told apart by their numbers. -/
theorem fromLeBytes_inj {a b : List UInt8} (hlen : a.length = b.length)
    (h : fromLeBytes a = fromLeBytes b) : a = b := by
  rw [← toLeBytes_fromLeBytes a, ← toLeBytes_fromLeBytes b, hlen, h]

end Wire

end MiniDregg
