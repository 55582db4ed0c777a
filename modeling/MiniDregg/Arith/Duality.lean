import Mathlib.Algebra.BigOperators.Ring.List
import Mathlib.Algebra.Order.BigOperators.Group.List
import Mathlib.Algebra.Order.Ring.Defs
import Mathlib.Tactic.Abel

/-!
# Weak duality over a list of columns

A primal vector between zero and its capacities, a combination of the rows that
vanishes on it, and slacks that lift the combination over the weights: the
weighted primal value is at most the priced capacity.
-/

namespace MiniDregg.Arith

theorem sum_map_sub {ι M : Type*} [AddCommGroup M] (l : List ι) (f g : ι → M) :
    (l.map fun i => f i - g i).sum = (l.map f).sum - (l.map g).sum := by
  induction l with
  | nil => simp
  | cons a rest ih =>
    simp only [List.map_cons, List.sum_cons, ih]
    abel

variable {ι R : Type*} [CommRing R] [LinearOrder R] [IsOrderedRing R]

/-- `y` is the row combination of the dual potentials. -/
theorem weak_duality (l : List ι) {w f c s y : ι → R} (hdual : ∀ e ∈ l, w e ≤ y e + s e)
    (hslack : ∀ e ∈ l, 0 ≤ s e) (hnonneg : ∀ e ∈ l, 0 ≤ f e) (hcap : ∀ e ∈ l, f e ≤ c e)
    (hrows : (l.map fun e => y e * f e).sum = 0) :
    (l.map fun e => w e * f e).sum ≤ (l.map fun e => c e * s e).sum := by
  calc (l.map fun e => w e * f e).sum
      ≤ (l.map fun e => y e * f e + c e * s e).sum := by
        apply List.sum_le_sum
        intro e he
        calc w e * f e ≤ (y e + s e) * f e :=
              mul_le_mul_of_nonneg_right (hdual e he) (hnonneg e he)
          _ = y e * f e + s e * f e := add_mul ..
          _ ≤ y e * f e + s e * c e := by
              have := mul_le_mul_of_nonneg_left (hcap e he) (hslack e he)
              exact add_le_add_right this _
          _ = y e * f e + c e * s e := by rw [mul_comm (s e)]
    _ = (l.map fun e => c e * s e).sum := by
        rw [List.sum_map_add, hrows, zero_add]

end MiniDregg.Arith
