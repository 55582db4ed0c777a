import Mathlib.FieldTheory.Finite.Basic
import MiniDregg.Arith.BinaryField

/-!
# The field of 128-bit words

The ring of 128-bit words is a field, and the inverse of a word is its power
with exponent `2 ^ 128 - 2`.

## Implementation notes

The polynomial `x ^ 128 + x ^ 7 + x ^ 2 + x + 1` is irreducible by Rabin's
test, told here of the ring itself. Squaring fixes everything after 128 rounds,
because it fixes `x`. A residue field smaller than the ring would have
`2 ^ d` elements with `d` a proper divisor of 128, so squaring would fix
everything in it after 64 rounds; but `x ^ 2 ^ 64 + x` has an inverse. The two
powers of `x` and the inverse are evaluated.
-/

namespace MiniDregg.Arith.GF128

open Fintype CharTwo

instance : Nontrivial GF128 := ⟨⟨0, 1, by decide⟩⟩

instance : CharP GF128 2 :=
  of_one_ne_zero_of_two_eq_zero one_ne_zero (by
    rw [← one_add_one_eq_two]
    exact add_self 1)

/-- The word `x`. -/
def root : GF128 := ⟨2⟩

theorem double_eq_root_mul (a : GF128) : a.double = root * a := by
  have h : root = double 1 := by decide
  rw [mul_eq, h, ← double_bitSum, bitSum_one]

theorem iterate_double_one_eq_pow (k : ℕ) : double^[k] 1 = root ^ k := by
  induction k with
  | zero => rw [pow_zero]; rfl
  | succ k ih => rw [Function.iterate_succ_apply', ih, double_eq_root_mul, pow_succ']

/-- A homomorphism that fixes `x` fixes everything. -/
theorem map_eq_self_of_map_root (φ : GF128 →+* GF128) (h : φ root = root) (a : GF128) :
    φ a = a := by
  have hsum : ∀ k, φ (bitSum a.bits 1 k) = bitSum a.bits 1 k := by
    intro k
    induction k with
    | zero => exact map_zero φ
    | succ k ih =>
      rw [bitSum, map_add, ih, iterate_double_one_eq_pow]
      split_ifs
      · rw [map_pow, h]
      · rw [map_zero]
  rw [← bitSum_one a, hsum]

/-- The square as the multiplication loop computes it. -/
def square (a : GF128) : GF128 := mulLoop 128 a a.bits 0

theorem iterate_square (a : GF128) (k : ℕ) : square^[k] a = a ^ 2 ^ k := by
  induction k with
  | zero => rw [pow_zero, pow_one]; rfl
  | succ k ih => rw [Function.iterate_succ_apply', ih, square, ← mul_def, ← pow_add, pow_succ,
      mul_two]

/-- The power `x ^ 2 ^ 64`. -/
def halfway : GF128 := ⟨129460184901158119860735353079755610614⟩

theorem root_pow_half : root ^ 2 ^ 64 = halfway := by
  rw [← iterate_square]
  decide +kernel

theorem root_pow_card : root ^ 2 ^ 128 = root := by
  have h : square^[64] halfway = root := by decide +kernel
  rw [show 128 = 64 + 64 from rfl, pow_add, pow_mul, root_pow_half, ← iterate_square, h]

theorem pow_card (a : GF128) : a ^ 2 ^ 128 = a := by
  have h := map_eq_self_of_map_root (iterateFrobenius GF128 2 128)
    (by rw [iterateFrobenius_def, root_pow_card]) a
  rwa [iterateFrobenius_def] at h

theorem isUnit_half : IsUnit (root ^ 2 ^ 64 + root) := by
  have h : mulLoop 128 (halfway + root) 210407306859290181404817842025723703320 0 = 1 := by
    decide +kernel
  rw [root_pow_half]
  exact IsUnit.of_mul_eq_one ⟨210407306859290181404817842025723703320⟩ (by rw [mul_def, h])

theorem bits_injective : Function.Injective fun a : GF128 => a.bits.toFin := fun _ _ h =>
  GF128.ext (BitVec.toFin_inj.1 h)

instance : Finite GF128 := Finite.of_injective _ bits_injective

theorem natCard_le : Nat.card GF128 ≤ 2 ^ 128 := by
  simpa only [Nat.card_fin] using Nat.card_le_card_of_injective _ bits_injective

/-- The exponent of the size of a field that squaring fixes after `m` rounds divides `m`. -/
theorem dvd_of_pow_fixes {K : Type*} [Field K] [Fintype K] {d m : ℕ}
    (hcard : card K = 2 ^ d) (hfix : ∀ z : K, z ^ 2 ^ m = z) : d ∣ m := by
  obtain ⟨g, hg⟩ := IsCyclic.exists_generator (α := Kˣ)
  have horder : orderOf g = 2 ^ d - 1 := by
    rw [orderOf_eq_card_of_forall_mem_zpowers hg, Nat.card_units, Nat.card_eq_fintype_card, hcard]
  have hone : g ^ (2 ^ m - 1) = 1 := by
    have hpow : g ^ 2 ^ m = g := Units.ext (by rw [Units.val_pow_eq_pow_val, hfix])
    rw [pow_sub g Nat.one_le_two_pow, hpow, pow_one, mul_inv_cancel]
  have hdvd : 2 ^ d - 1 ∣ 2 ^ m - 1 := horder ▸ orderOf_dvd_of_pow_eq_one hone
  have hgcd : 2 ^ d - 1 = 2 ^ Nat.gcd d m - 1 := by
    rw [← Nat.pow_sub_one_gcd_pow_sub_one, Nat.gcd_eq_left hdvd]
  have heq : 2 ^ d = 2 ^ Nat.gcd d m := 
    Nat.sub_one_cancel (Nat.two_pow_pos d) (Nat.two_pow_pos _) hgcd
  rw [Nat.pow_right_injective le_rfl heq]
  exact Nat.gcd_dvd_right d m

/-- A field of fewer than `2 ^ 128` elements that squaring fixes after 128 rounds is fixed
after 64 rounds. -/
theorem pow_half_of_card_lt {K : Type*} [Field K] [Fintype K] [CharP K 2]
    (hcard : card K < 2 ^ 128) (hfix : ∀ z : K, z ^ 2 ^ 128 = z) (z : K) :
    z ^ 2 ^ 64 = z := by
  obtain ⟨d, -, hd⟩ := FiniteField.card K 2
  obtain ⟨k, hk, hdk⟩ := (Nat.dvd_prime_pow Nat.prime_two (m := 7)).1 (dvd_of_pow_fixes hd hfix)
  have hlt : (d : ℕ) < 2 ^ 7 := (Nat.pow_lt_pow_iff_right Nat.one_lt_two).1 (hd ▸ hcard)
  have hk : k < 7 := (Nat.pow_lt_pow_iff_right Nat.one_lt_two).1 (hdk ▸ hlt)
  obtain ⟨m, hm⟩ : (d : ℕ) ∣ 64 := by
    rw [hdk]
    exact pow_dvd_pow 2 (Nat.lt_succ_iff.1 hk : k ≤ 6)
  rw [hm, pow_mul, ← hd, FiniteField.pow_card_pow]

theorem isUnit_of_ne_zero {a : GF128} (ha : a ≠ 0) : IsUnit a := by
  by_contra hunit
  -- A non-unit lies in a maximal ideal, whose residue field is smaller than the ring.
  obtain ⟨M, hmax, hmem⟩ := exists_max_ideal_of_mem_nonunits hunit
  have hsurj : Function.Surjective (Ideal.Quotient.mk M) := Ideal.Quotient.mk_surjective
  let _ : Field (GF128 ⧸ M) := Ideal.Quotient.field M
  have _ : Finite (GF128 ⧸ M) := Finite.of_surjective _ hsurj
  let _ : Fintype (GF128 ⧸ M) := ofFinite _
  have _ : CharP (GF128 ⧸ M) 2 := of_one_ne_zero_of_two_eq_zero one_ne_zero (by
    rw [← map_ofNat (Ideal.Quotient.mk M) 2, two_eq_zero, map_zero])
  have hcard : card (GF128 ⧸ M) < 2 ^ 128 := by
    refine lt_of_lt_of_le ?_ natCard_le
    rw [← Nat.card_eq_fintype_card]
    refine lt_of_le_of_ne (Nat.card_le_card_of_surjective _ hsurj) fun heq => ?_
    have hinj := (Function.Surjective.bijective_of_nat_card_le hsurj heq.ge).injective
    refine ha (hinj ?_)
    rw [map_zero, Ideal.Quotient.eq_zero_iff_mem]
    exact hmem
  have hfix : ∀ z : GF128 ⧸ M, z ^ 2 ^ 128 = z := by
    intro z
    obtain ⟨b, rfl⟩ := hsurj z
    rw [← map_pow, pow_card]
  have hzero : Ideal.Quotient.mk M (root ^ 2 ^ 64 + root) = 0 := by
    rw [map_add, map_pow, pow_half_of_card_lt hcard hfix, CharTwo.add_self_eq_zero]
  exact (isUnit_half.map (Ideal.Quotient.mk M)).ne_zero hzero

theorem mul_pow_eq_one {a : GF128} (ha : a ≠ 0) : a * a ^ (2 ^ 128 - 2) = 1 := by
  have h : a * (a * a ^ (2 ^ 128 - 2)) = a * 1 := by
    rw [mul_one, ← pow_succ', ← pow_succ']
    exact pow_card a
  exact (isUnit_of_ne_zero ha).mul_left_cancel h

instance : Field GF128 where
  inv a := a ^ (2 ^ 128 - 2)
  mul_inv_cancel _ := mul_pow_eq_one
  inv_zero := zero_pow (by decide)
  nnqsmul := _
  nnqsmul_def := fun _ _ => rfl
  qsmul := _
  qsmul_def := fun _ _ => rfl

theorem inv_eq_pow (a : GF128) : a⁻¹ = a ^ (2 ^ 128 - 2) := rfl

end MiniDregg.Arith.GF128
