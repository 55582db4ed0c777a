import Mathlib.Algebra.Ring.MinimalAxioms
import Mathlib.Tactic.Abel

/-!
# The ring of 128-bit words

Words of 128 bits as polynomials over two elements, reduced by
`x ^ 128 + x ^ 7 + x ^ 2 + x + 1`. Addition is exclusive or, and multiplication
is the shift-and-add loop that programs use.

## Implementation notes

The product of `a` and `b` is a sum of the words `x ^ i * a` over the bits of
`b`. Such sums are additive in `a` and commute with one another, and every word
is its own sum over `1`; the ring axioms follow from these facts without looking
at bits again.
-/

namespace MiniDregg.Arith

open Function

/-- A 128-bit word, bit `i` standing for the coefficient of `x ^ i`. -/
@[ext]
structure GF128 where
  bits : BitVec 128
deriving DecidableEq

namespace GF128

instance : Zero GF128 := ⟨⟨0⟩⟩

instance : One GF128 := ⟨⟨1⟩⟩

instance : Add GF128 := ⟨fun a b => ⟨a.bits ^^^ b.bits⟩⟩

/-- Multiplication by `x`: the bit that is shifted out comes back reduced. -/
def double (a : GF128) : GF128 :=
  ⟨if a.bits.msb then a.bits <<< 1 ^^^ 0x87#128 else a.bits <<< 1⟩

/-- The rounds of the multiplication: each looks at one more bit of `b`. -/
def mulLoop : ℕ → GF128 → BitVec 128 → GF128 → GF128
  | 0, _, _, z => z
  | k + 1, a, b, z => mulLoop k a.double (b >>> 1) (if b.getLsbD 0 then z + a else z)

/-- The product. It is never unfolded by accident: each use is 128 rounds. -/
@[irreducible] def mul (a b : GF128) : GF128 := mulLoop 128 a b.bits 0

instance : Mul GF128 := ⟨mul⟩

theorem mul_def (a b : GF128) : a * b = mulLoop 128 a b.bits 0 := by
  change mul a b = _
  rw [mul]

@[simp] theorem bits_zero : (0 : GF128).bits = 0 := rfl

@[simp] theorem bits_one : (1 : GF128).bits = 1 := rfl

@[simp] theorem bits_add (a b : GF128) : (a + b).bits = a.bits ^^^ b.bits := rfl

instance : Neg GF128 := ⟨id⟩

/-- Addition alone, used on the way to the ring. -/
abbrev addCommGroup : AddCommGroup GF128 where
  add_assoc a b c := GF128.ext (BitVec.xor_assoc ..)
  zero_add a := GF128.ext (BitVec.zero_xor ..)
  add_zero a := GF128.ext (BitVec.xor_zero ..)
  add_comm a b := GF128.ext (BitVec.xor_comm ..)
  neg_add_cancel a := GF128.ext (BitVec.xor_self ..)
  nsmul := nsmulRec
  zsmul := zsmulRec

theorem double_add (a b : GF128) : (a + b).double = a.double + b.double := by
  apply GF128.ext
  have hshift : (a.bits ^^^ b.bits) <<< 1 = a.bits <<< 1 ^^^ b.bits <<< 1 :=
    BitVec.shiftLeft_xor_distrib ..
  simp only [double, bits_add, BitVec.msb_xor, hshift]
  cases a.bits.msb <;> cases b.bits.msb
  · rfl
  · exact BitVec.xor_assoc ..
  · simp only [Bool.bne_false, Bool.false_eq_true, if_true, if_false]
    rw [BitVec.xor_assoc, BitVec.xor_comm (b.bits <<< 1), BitVec.xor_assoc]
  · simp only [bne_self_eq_false, Bool.false_eq_true, if_true, if_false]
    rw [BitVec.xor_assoc, BitVec.xor_comm (0x87#128), BitVec.xor_assoc, BitVec.xor_self,
      BitVec.xor_zero]

/-- The sum of `x ^ i * a` over the first `k` bits of `b`. -/
def bitSum (b : BitVec 128) (a : GF128) : ℕ → GF128
  | 0 => 0
  | k + 1 => bitSum b a k + if b.getLsbD k then double^[k] a else 0

section BitSums

attribute [local instance] addCommGroup

variable (b c : BitVec 128) (a d : GF128) (k l : ℕ)

theorem double_zero : double 0 = 0 := by decide

theorem iterate_double_zero : double^[k] 0 = 0 := iterate_fixed double_zero k

theorem iterate_double_add : double^[k] (a + d) = double^[k] a + double^[k] d := by
  induction k generalizing a d with
  | zero => rfl
  | succ k ih => rw [iterate_succ_apply, double_add, ih]; rfl

theorem bitSum_zero : bitSum b 0 k = 0 := by
  induction k with
  | zero => rfl
  | succ k ih => simp [bitSum, ih, iterate_double_zero]

theorem bitSum_add : bitSum b (a + d) k = bitSum b a k + bitSum b d k := by
  induction k with
  | zero => simp [bitSum]
  | succ k ih =>
    simp only [bitSum, ih, iterate_double_add]
    split_ifs
    · abel
    · abel

theorem double_bitSum : double (bitSum b a k) = bitSum b a.double k := by
  induction k with
  | zero => exact double_zero
  | succ k ih =>
    simp only [bitSum, double_add, ih]
    split_ifs
    · rw [← iterate_succ_apply' double k a, iterate_succ_apply]
    · rw [double_zero]

theorem iterate_double_bitSum : double^[l] (bitSum b a k) = bitSum b (double^[l] a) k := by
  induction l generalizing a with
  | zero => rfl
  | succ l ih => rw [iterate_succ_apply, double_bitSum, ih]; rfl

/-- Sums over the bits of two words can be taken in either order. -/
theorem bitSum_comm : bitSum b (bitSum c a l) k = bitSum c (bitSum b a k) l := by
  induction l with
  | zero => exact bitSum_zero b k
  | succ l ih =>
    simp only [bitSum, bitSum_add, ih, iterate_double_bitSum]
    split_ifs
    · rfl
    · rw [bitSum_zero]

/-- The lowest bit can be taken first. -/
theorem bitSum_succ' :
    bitSum b a (k + 1) = (if b.getLsbD 0 then a else 0) + bitSum (b >>> 1) a.double k := by
  induction k with
  | zero => simp [bitSum]
  | succ k ih =>
    rw [bitSum, ih, bitSum, BitVec.getLsbD_ushiftRight, Nat.add_comm 1 k, add_assoc,
      iterate_succ_apply]

theorem mulLoop_eq (z : GF128) : mulLoop k a b z = z + bitSum b a k := by
  induction k generalizing a b z with
  | zero => simp [mulLoop, bitSum]
  | succ k ih =>
    rw [mulLoop, ih, bitSum_succ']
    split_ifs
    · abel
    · abel

theorem mul_eq : a * d = bitSum d.bits a 128 := by
  rw [mul_def, mulLoop_eq, zero_add]

end BitSums

theorem double_twoPow {i : ℕ} (h : i < 127) :
    double ⟨BitVec.twoPow 128 i⟩ = ⟨BitVec.twoPow 128 (i + 1)⟩ := by
  have hmsb : (BitVec.twoPow 128 i).msb = false := by
    rw [BitVec.msb_twoPow]
    simp
    omega
  simp only [double, hmsb, Bool.false_eq_true, if_false]
  congr 1
  rw [BitVec.twoPow, BitVec.twoPow, BitVec.shiftLeft_add]

theorem iterate_double_one {i : ℕ} (h : i < 128) : double^[i] 1 = ⟨BitVec.twoPow 128 i⟩ := by
  induction i with
  | zero => decide
  | succ i ih => rw [iterate_succ_apply', ih (by omega), double_twoPow (by omega)]

/-- Every word is the sum over its own bits of the powers of `x`. -/
theorem bitSum_one (a : GF128) : bitSum a.bits 1 128 = a := by
  have hpart : ∀ k ≤ 128, ∀ j, (bitSum a.bits 1 k).bits.getLsbD j =
      (decide (j < k) && a.bits.getLsbD j) := by
    intro k hk
    induction k with
    | zero => simp [bitSum]
    | succ k ih =>
      intro j
      rw [bitSum, bits_add, BitVec.getLsbD_xor, ih (by omega), iterate_double_one (by omega)]
      rcases lt_trichotomy j k with hj | rfl | hj
      · have hne : k ≠ j := by omega
        have hlt : j < k + 1 := by omega
        split_ifs <;> simp [hj, hlt, hne, BitVec.getLsbD_twoPow]
      · have hlt : j < 128 := by omega
        split_ifs with hbit <;> simp_all
      · have hne : k ≠ j := by omega
        have hle : ¬ j < k := by omega
        have hle' : ¬ j < k + 1 := by omega
        split_ifs <;> simp [hle, hle', hne, BitVec.getLsbD_twoPow]
  apply GF128.ext
  apply BitVec.eq_of_getLsbD_eq
  intro j hj
  rw [hpart 128 le_rfl, decide_eq_true hj, Bool.true_and]

theorem mul_comm' (a b : GF128) : a * b = b * a := by
  calc a * b = bitSum b.bits (bitSum a.bits 1 128) 128 := by rw [bitSum_one, mul_eq]
    _ = bitSum a.bits (bitSum b.bits 1 128) 128 := bitSum_comm ..
    _ = b * a := by rw [bitSum_one, mul_eq]

theorem mul_assoc' (a b c : GF128) : a * b * c = a * (b * c) := by
  calc a * b * c = bitSum c.bits (bitSum b.bits a 128) 128 := by rw [mul_eq, mul_eq]
    _ = bitSum c.bits (bitSum a.bits b 128) 128 := by rw [← mul_eq a b, mul_comm', mul_eq]
    _ = bitSum a.bits (bitSum c.bits b 128) 128 := bitSum_comm ..
    _ = a * (b * c) := by rw [mul_comm' a, mul_eq (b * c), mul_eq b]

instance : CommRing GF128 :=
  CommRing.ofMinimalAxioms addCommGroup.add_assoc addCommGroup.zero_add
    addCommGroup.neg_add_cancel mul_assoc' mul_comm'
    (fun a => by rw [mul_eq, bitSum_one])
    (fun a b c => by rw [mul_comm', mul_eq, bitSum_add, ← mul_eq, ← mul_eq, mul_comm' b,
      mul_comm' c])

theorem add_self (a : GF128) : a + a = 0 := neg_add_cancel a

end GF128

end MiniDregg.Arith
