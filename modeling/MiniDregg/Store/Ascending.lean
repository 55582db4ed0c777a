import Mathlib.Data.Finset.Card
import Mathlib.Data.List.Sort

/-!
# Finite sets in ascending order

The members of a finite set as the ascending list in which an ordered set is
walked. The list is built by insertion, so it evaluates on concrete sets.
-/

namespace MiniDregg.Store

open Multiset List

variable {κ : Type*} [LinearOrder κ]

/-- The members in ascending order. -/
def ascending (s : Finset κ) : List κ :=
  Quot.liftOn s.1 (insertionSort (· ≤ ·)) fun a b h =>
    List.Perm.eq_of_pairwise (fun _ _ _ _ => le_antisymm) (pairwise_insertionSort _ a)
      (pairwise_insertionSort _ b)
      (((perm_insertionSort _ a).trans h).trans (perm_insertionSort _ b).symm)

theorem ascending_perm (s : Finset κ) : (ascending s : Multiset κ) = s.1 := by
  obtain ⟨⟨l⟩, hl⟩ := s
  exact coe_eq_coe.2 (perm_insertionSort _ l)

@[simp] theorem mem_ascending {s : Finset κ} {k : κ} : k ∈ ascending s ↔ k ∈ s := by
  rw [← mem_coe, ascending_perm, Finset.mem_val]

theorem ascending_nodup (s : Finset κ) : (ascending s).Nodup := by
  rw [← coe_nodup, ascending_perm]
  exact s.2

@[simp] theorem length_ascending (s : Finset κ) : (ascending s).length = s.card := by
  rw [← coe_card, ascending_perm, Finset.card_val]

/-- The first `q` members, as a set. -/
theorem card_take_ascending {s : Finset κ} {q : ℕ} (h : q ≤ s.card) :
    ((ascending s).take q).toFinset.card = q := by
  rw [toFinset_card_of_nodup ((ascending_nodup s).sublist (take_sublist q _)),
    length_take, length_ascending, min_eq_left h]

example : ascending ({3, 1, 2} : Finset ℕ) = [1, 2, 3] := by decide

end MiniDregg.Store
