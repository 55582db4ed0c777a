import Mathlib.Data.List.GetD
import Mathlib.LinearAlgebra.Lagrange
import MiniDregg.Arith.BinaryInverse
import MiniDregg.Control.Fallible

/-!
# Reconstruction from shares

Evaluation and interpolation over the field of 128-bit words, as the protocols
use them: a polynomial is a list of coefficients, a share is its value at the
holder's number plus one, and a value at any point is a weighted sum of shares.

## Implementation notes

The source's `Field` is `GF128`, and its vectors of several components are lists.
Interpolation through distinct holders never fails, and its outcome is the value
of polynomials, the `interpolant`s, of degree below the number of points; what
the protocols need beyond that is uniqueness, which is Mathlib's.
-/

namespace MiniDregg.PrivateBackend.Reconstruction

open Arith Fallible Polynomial List Lagrange

/-- The square-and-multiply loop: `x` times `a` to the power `e`. -/
def powLoop (x a : GF128) (e : ℕ) : GF128 :=
  if e = 0 then x
  else powLoop (if e % 2 = 1 then x * a else x) (a * a) (e / 2)
termination_by e

theorem powLoop_eq (x a : GF128) (e : ℕ) : powLoop x a e = x * a ^ e := by
  fun_induction powLoop x a e with
  | case1 => rw [pow_zero, mul_one]
  | case2 x a e hzero ih =>
    rw [dite_eq_ite] at ih
    rw [ih, ← sq, ← pow_mul]
    split_ifs with hodd
    · rw [mul_assoc, ← pow_succ']
      congr 2
      omega
    · congr 2
      omega

/-- The inverse; zero has none. -/
def inv (a : GF128) : Result GF128 :=
  if a = 0 then .error "zero inverse" else .ok (powLoop 1 a (2 ^ 128 - 2))

theorem inv_ok {a : GF128} (h : a ≠ 0) : inv a = .ok a⁻¹ := by
  rw [inv, if_neg h, powLoop_eq, one_mul, GF128.inv_eq_pow]

/-- Horner's evaluation of a coefficient list, lowest degree first. -/
def eval (p : List GF128) (x : GF128) : GF128 :=
  p.reverse.foldl (fun a c => a * x + c) 0

/-- The polynomial with the coefficients. -/
noncomputable def ofCoefficients : List GF128 → GF128[X]
  | [] => 0
  | c :: p => ofCoefficients p * X + C c

theorem eval_eq (p : List GF128) (x : GF128) : eval p x = (ofCoefficients p).eval x := by
  rw [eval, foldl_reverse]
  induction p with
  | nil => simp [ofCoefficients]
  | cons c p ih => simp [ofCoefficients, ih]

theorem degree_ofCoefficients_lt (p : List GF128) : (ofCoefficients p).degree < p.length := by
  induction p with
  | nil => simp [ofCoefficients]
  | cons c p ih =>
    rw [ofCoefficients, length_cons]
    refine lt_of_le_of_lt (degree_add_le _ _) (max_lt ?_ ?_)
    · rw [degree_mul_X]
      push_cast
      exact WithBot.add_lt_add_right (by simp) ih
    · exact lt_of_le_of_lt degree_C_le (by exact_mod_cast Nat.succ_pos _)

/-- Numerator and denominator of the weight of node `k` at `t`. The field has
characteristic two, so sums stand for differences. -/
def lagrangeTerms (xs : List GF128) (k : ℕ) (t : GF128) : GF128 × GF128 :=
  xs.zipIdx.foldl (fun nd xj =>
    if xj.2 ≠ k then (nd.1 * (t + xj.1), nd.2 * (xs.getD k 0 + xj.1)) else nd) (1, 1)

/-- The weight of node `k` at `t`; a repeated node is refused. -/
def lagrange (xs : List GF128) (k : ℕ) (t : GF128) : Result GF128 := do
  let (num, den) := lagrangeTerms xs k t
  let weight ← inv den
  pure (num * weight)

/-- Where the share of a holder lies. -/
def node (holder : ℕ) : GF128 := ⟨BitVec.ofNat 128 (holder + 1)⟩

def nodes (points : List (ℕ × List GF128)) : List GF128 := points.map fun p => node p.1

/-- The interpolation at `t` of points with `count` components each. -/
def interpolateAt (points : List (ℕ × List GF128)) (t : GF128) (count : ℕ) :
    Result (List GF128) :=
  points.zipIdx.foldlM (fun out p => do
    refuseIf (p.1.2.length != count) "point vector"
    let weight ← lagrange (nodes points) p.2 t
    pure (zipWith (fun o v => o + weight * v) out p.1.2)) (replicate count 0)

section Weights
variable {xs : List GF128} {k : ℕ} {t : GF128}

theorem foldl_terms (l : List (GF128 × ℕ)) (a b y : GF128) :
    l.foldl (fun nd xj => if xj.2 ≠ k then (nd.1 * (t + xj.1), nd.2 * (y + xj.1)) else nd)
        (a, b) =
      (a * (l.map fun xj => if xj.2 ≠ k then t + xj.1 else 1).prod,
        b * (l.map fun xj => if xj.2 ≠ k then y + xj.1 else 1).prod) := by
  induction l generalizing a b with
  | nil => simp
  | cons xj l ih =>
    rw [foldl_cons, map_cons, prod_cons, map_cons, prod_cons]
    split_ifs with h
    · rw [ih, mul_assoc, mul_assoc]
    · rw [ih, one_mul, one_mul]

variable {m : ℕ}

theorem prod_zipIdx {M : Type*} [CommMonoid M] (v : Fin m → GF128) (g : GF128 → M)
    (k : Fin m) :
    ((ofFn v).zipIdx.map fun xj => if xj.2 ≠ k.1 then g xj.1 else 1).prod =
      ∏ j ∈ Finset.univ.erase k, g (v j) := by
  have hlist : ((ofFn v).zipIdx.map fun xj => if xj.2 ≠ k.1 then g xj.1 else 1) =
      ofFn fun j => if j ≠ k then g (v j) else 1 := by
    refine ext_getElem (by simp) fun i hi hi' => ?_
    simp [Fin.ext_iff]
  rw [hlist, prod_ofFn, Finset.prod_ite, Finset.prod_const_one, mul_one]
  congr 1
  ext j
  simp

variable {v : Fin m → GF128}

/-- The terms of a weight at the node of distinct ones, whose product has an inverse. -/
theorem prod_nodes_ne_zero (hv : Function.Injective v) (k : Fin m) :
    (ofFn v).getD k 0 = v k ∧ ∏ j ∈ Finset.univ.erase k, (v k + v j) ≠ 0 := by
  refine ⟨by simp [getD], Finset.prod_ne_zero_iff.2 fun j hj hzero => ?_⟩
  rw [CharTwo.add_eq_zero] at hzero
  exact (Finset.mem_erase.1 hj).1 (hv hzero).symm

/-- The weight is the value of Lagrange's basis polynomial. -/
theorem lagrange_ok (hv : Function.Injective v) (k : Fin m)
    (t : GF128) :
    lagrange (ofFn v) k t = .ok ((Lagrange.basis Finset.univ v k).eval t) := by
  obtain ⟨hget, hden⟩ := prod_nodes_ne_zero hv k
  have hterms : lagrangeTerms (ofFn v) k t =
      (∏ j ∈ Finset.univ.erase k, (t + v j), ∏ j ∈ Finset.univ.erase k, (v k + v j)) := by
    rw [lagrangeTerms, foldl_terms, one_mul, one_mul, hget, prod_zipIdx, prod_zipIdx]
  simp only [lagrange, hterms]
  rw [inv_ok hden, ok_bind, pure_eq_ok, Lagrange.basis, eval_prod]
  simp only [basisDivisor, eval_mul, eval_C, eval_add, eval_X, CharTwo.sub_eq_add]
  rw [Finset.prod_mul_distrib, Finset.prod_inv_distrib, mul_comm]

end Weights

theorem node_injOn {i j : ℕ} (hi : i + 1 < 2 ^ 128) (hj : j + 1 < 2 ^ 128) (h : node i = node j) :
    i = j := by
  have hbits := congrArg (fun a : GF128 => a.bits.toNat) h
  simp only [node, BitVec.toNat_ofNat, Nat.mod_eq_of_lt hi, Nat.mod_eq_of_lt hj] at hbits
  omega

/-- Shares of distinct holders, each with `count` components. -/
structure Shares (points : List (ℕ × List GF128)) (count : ℕ) : Prop where
  distinct : (points.map Prod.fst).Nodup
  small : ∀ p ∈ points, p.1 + 1 < 2 ^ 128
  length : ∀ p ∈ points, p.2.length = count

/-- The polynomial through component `c` of the points. -/
noncomputable def interpolant (points : List (ℕ × List GF128)) (c : ℕ) : GF128[X] :=
  interpolate Finset.univ (fun i : Fin points.length => node (points.get i).1)
    fun i => (points.get i).2.getD c 0

variable {points : List (ℕ × List GF128)} {count : ℕ}

namespace Shares

variable (h : Shares points count)
include h

theorem node_injective :
    Function.Injective fun i : Fin points.length => node (points.get i).1 := by
  intro i j hij
  have hp := h.small _ (points.get_mem i)
  have hq := h.small _ (points.get_mem j)
  have hfst : (points.map Prod.fst).get ⟨i, by simp⟩ = (points.map Prod.fst).get ⟨j, by simp⟩ := by
    simpa using node_injOn hp hq hij
  simpa [Fin.ext_iff] using h.distinct.injective_get hfst

theorem degree_interpolant_lt (c : ℕ) :
    (interpolant points c).degree < points.length := by
  have hlt := degree_interpolate_lt (s := Finset.univ)
    (fun i : Fin points.length => (points.get i).2.getD c 0) h.node_injective.injOn
  rwa [Finset.card_univ, Fintype.card_fin] at hlt

/-- A polynomial of degree below the number of points that goes through them is the
interpolant. -/
theorem eq_interpolant {c : ℕ} {P : GF128[X]}
    (hdegree : P.degree < points.length) (hP : ∀ p ∈ points, P.eval (node p.1) = p.2.getD c 0) :
    P = interpolant points c := by
  refine eq_interpolate_of_eval_eq _ h.node_injective.injOn ?_ fun i _ => ?_
  · rwa [Finset.card_univ, Fintype.card_fin]
  · exact hP _ (points.get_mem i)

end Shares

/-- A loop over the points that updates every component by itself. -/
theorem foldlM_columns {A O : Type} {l : List ((ℕ × List GF128) × ℕ)} {what : String}
    {weight : (ℕ × List GF128) × ℕ → Result A} {w : (ℕ × List GF128) × ℕ → A}
    (step : A → O → GF128 → O) (hlength : ∀ p ∈ l, p.1.2.length = count)
    (hweight : ∀ p ∈ l, weight p = .ok (w p)) (d : O) (out : List O) (hout : out.length = count) :
    ∃ r : List O, l.foldlM (fun out p => do
        refuseIf (p.1.2.length != count) what
        let a ← weight p
        pure (zipWith (step a) out p.1.2)) out = Except.ok r ∧ r.length = count ∧
      ∀ c < count, r.getD c d =
        l.foldl (fun o p => step (w p) o (p.1.2.getD c 0)) (out.getD c d) := by
  induction l generalizing out with
  | nil => exact ⟨out, rfl, hout, fun c _ => rfl⟩
  | cons p l ih =>
    have hp := hlength p mem_cons_self
    obtain ⟨r, hr, hlen, hcolumn⟩ := ih (fun q hq => hlength q (mem_cons_of_mem p hq))
      (fun q hq => hweight q (mem_cons_of_mem p hq)) (zipWith (step (w p)) out p.1.2)
      (by simp [hout, hp])
    refine ⟨r, ?_, hlen, fun c hc => ?_⟩
    · rw [foldlM_cons, hp, bne_self_eq_false, refuseIf_false, ok_bind,
        hweight p mem_cons_self, ok_bind, pure_eq_ok, ok_bind]
      exact hr
    · rw [hcolumn c hc, foldl_cons]
      congr 1
      simp [hout, hp, hc]

theorem foldl_add {α M : Type*} [AddMonoid M] (g : α → M) (l : List α) (o : M) :
    l.foldl (fun o p => o + g p) o = o + (l.map g).sum := by
  induction l generalizing o with
  | nil => simp
  | cons p l ih => rw [foldl_cons, ih, map_cons, sum_cons, add_assoc]

theorem sum_zipIdx {α M : Type*} [AddCommMonoid M] (l : List α) (g : α → ℕ → M) :
    (l.zipIdx.map fun p => g p.1 p.2).sum = ∑ i : Fin l.length, g (l.get i) i := by
  rw [← sum_ofFn]
  congr 1
  exact ext_getElem (by simp) fun i hi hi' => by simp

/-- Interpolation through distinct holders gives the values of the interpolants. -/
theorem interpolateAt_ok (h : Shares points count) (t : GF128) :
    interpolateAt points t count =
      .ok ((range count).map fun c => (interpolant points c).eval t) := by
  have hnodes : nodes points = ofFn fun i : Fin points.length => node (points.get i).1 :=
    ext_getElem (by simp [nodes]) fun i hi hi' => by simp [nodes]
  set basis := fun i : Fin points.length => (Lagrange.basis Finset.univ
    (fun i : Fin points.length => node (points.get i).1) i).eval t with hbasis
  have hlengths : ∀ p ∈ points.zipIdx, p.1.2.length = count := fun p hp =>
    h.length _ (fst_mem_of_mem_zipIdx hp)
  have hweights : ∀ p ∈ points.zipIdx, lagrange (nodes points) p.2 t =
      .ok (if hi : p.2 < points.length then basis ⟨p.2, hi⟩ else 0) := by
    intro p hp
    have hi : p.2 < points.length := snd_lt_of_mem_zipIdx hp
    rw [dif_pos hi, hnodes]
    exact lagrange_ok h.node_injective ⟨p.2, hi⟩ t
  obtain ⟨r, hr, hlength, hcolumn⟩ := foldlM_columns (fun a o v => o + a * v) hlengths hweights 0
    (replicate count 0) length_replicate
  rw [interpolateAt, hr]
  congr 1
  refine ext_getElem (by simp [hlength]) fun c hc hc' => ?_
  rw [hlength] at hc
  have hvalue := hcolumn c hc
  rw [foldl_add, sum_zipIdx points fun p i =>
    (if hi : i < points.length then basis ⟨i, hi⟩ else 0) * p.2.getD c 0] at hvalue
  rw [getD_eq_getElem _ _ (by omega)] at hvalue
  rw [hvalue, getElem_map, getElem_range, interpolant, interpolate_apply,
    eval_finsetSum]
  simp [hbasis, mul_comm, hc]

end MiniDregg.PrivateBackend.Reconstruction
