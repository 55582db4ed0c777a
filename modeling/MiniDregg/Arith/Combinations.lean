import Mathlib.Algebra.Order.Ring.Nat
import Mathlib.Data.List.Basic

/-!
# Walking through the combinations

The increasing lists of one length below a bound, in the order of their digits.
`advance` goes to the next list: the last entry that can still move does, and
the entries behind it follow it. The walk starts at the first list and misses
none.
-/

namespace MiniDregg.Arith

open List Nat

/-- An increasing list of `k` numbers below `n`. -/
structure Combination (n k : ℕ) (l : List ℕ) : Prop where
  length : l.length = k
  increasing : l.Pairwise (· < ·)
  below : ∀ i ∈ l, i < n

/-- The list as a number with its entries for digits. -/
def rank (n : ℕ) : List ℕ → ℕ
  | [] => 0
  | a :: l => a * n ^ l.length + rank n l

/-- The next combination below `n`. -/
def advance (n : ℕ) : List ℕ → Option (List ℕ)
  | [] => none
  | a :: l =>
    match advance n l with
    | some l' => some (a :: l')
    | none => if a = n - (l.length + 1) then none else some (List.range' (a + 1) (l.length + 1))

variable {n a : ℕ}

section Rank
variable {l : List ℕ}

theorem rank_lt (h : ∀ i ∈ l, i < n) : rank n l < n ^ l.length := by
  induction l with
  | nil => exact one_pos
  | cons a l ih =>
    have ha : a + 1 ≤ n := h a mem_cons_self
    have hl := ih fun i hi => h i (mem_cons_of_mem a hi)
    calc rank n (a :: l) < a * n ^ l.length + n ^ l.length := Nat.add_lt_add_left hl _
      _ = (a + 1) * n ^ l.length := (succ_mul _ _).symm
      _ ≤ n * n ^ l.length := Nat.mul_le_mul_right _ ha
      _ = n ^ (a :: l).length := by rw [length_cons, pow_succ']

/-- A smaller leading digit decides. -/
theorem digit_lt {b s r M : ℕ} (hab : a < b) (hs : s < M) : a * M + s < b * M + r := by
  have hmul : (a + 1) * M ≤ b * M := Nat.mul_le_mul_right M hab
  rw [succ_mul] at hmul
  omega

/-- Nothing increasing from `a` on comes before the numbers from `a` on. -/
theorem rank_range'_le (hincreasing : l.Pairwise (· < ·)) (hfrom : ∀ i ∈ l, a ≤ i) :
    rank n (List.range' a l.length) ≤ rank n l := by
  induction l generalizing a with
  | nil => exact le_rfl
  | cons b l ih =>
    obtain ⟨hb, hl⟩ := pairwise_cons.1 hincreasing
    have hab := hfrom b mem_cons_self
    have htail := ih hl fun i hi => lt_of_le_of_lt hab (hb i hi)
    rw [length_cons, range'_succ, rank, rank, length_range']
    exact Nat.add_le_add (Nat.mul_le_mul_right _ hab) htail

end Rank

/-- A step keeps the lower bounds of the entries. -/
theorem lt_of_mem_advance {c : ℕ} {l l' : List ℕ} (hsome : advance n l = some l')
    (h : ∀ i ∈ l, c < i) : ∀ i ∈ l', c < i := by
  induction l generalizing l' with
  | nil => cases hsome
  | cons a l ih =>
    have ha := h a mem_cons_self
    rw [advance] at hsome
    split at hsome
    next rest hrest =>
      cases hsome
      exact forall_mem_cons.2 ⟨ha, ih hrest fun i hi => h i (mem_cons_of_mem a hi)⟩
    · split_ifs at hsome
      cases hsome
      intro i hi
      rw [mem_range'_1] at hi
      omega

namespace Combination

variable {k : ℕ} {l l' j : List ℕ}

theorem tail (h : Combination n (k + 1) (a :: l)) : Combination n k l where
  length := succ.inj h.length
  increasing := (pairwise_cons.1 h.increasing).2
  below i hi := h.below i (mem_cons_of_mem a hi)

/-- The head leaves room for the rest. -/
theorem head_le (h : Combination n k (a :: l)) : a + k ≤ n := by
  induction l generalizing a k with
  | nil =>
    have hlength := h.length
    have ha := h.below a mem_cons_self
    simp only [length_singleton] at hlength
    omega
  | cons b l ih =>
    obtain ⟨k, rfl⟩ : ∃ m, k = m + 1 := ⟨_, h.length.symm⟩
    have hb := ih h.tail
    have hab := (pairwise_cons.1 h.increasing).1 b mem_cons_self
    omega

variable (h : Combination n k l)
include h

/-- Combinations of one rank are the same. -/
theorem ext (h' : Combination n k l') (hrank : rank n l = rank n l') :
    l = l' := by
  induction k generalizing l l' with
  | zero => rw [length_eq_zero_iff.1 h.length, length_eq_zero_iff.1 h'.length]
  | succ k ih =>
    obtain ⟨a, l, rfl⟩ := exists_cons_of_length_eq_add_one h.length
    obtain ⟨b, l', rfl⟩ := exists_cons_of_length_eq_add_one h'.length
    have hl := rank_lt h.tail.below
    have hl' := rank_lt h'.tail.below
    simp only [rank, h.tail.length, h'.tail.length] at hl hl' hrank
    rcases lt_trichotomy a b with hab | rfl | hab
    · have := digit_lt (r := rank n l') hab hl
      omega
    · rw [ih h.tail h'.tail (by omega)]
    · have := digit_lt (r := rank n l) hab hl'
      omega

/-- The walk ends at the last combination. -/
theorem rank_le_of_advance_none (hnone : advance n l = none)
    (hj : Combination n k j) : rank n j ≤ rank n l := by
  induction l generalizing k j with
  | nil =>
    obtain rfl : j = [] := length_eq_zero_iff.1 (hj.length.trans h.length.symm)
    exact le_rfl
  | cons a l ih =>
    obtain ⟨k, rfl⟩ : ∃ m, k = m + 1 := ⟨_, h.length.symm⟩
    obtain ⟨b, j, rfl⟩ := exists_cons_of_length_eq_add_one hj.length
    have hb := hj.head_le
    rw [advance] at hnone
    split at hnone
    · cases hnone
    next hl =>
      split_ifs at hnone with ha
      have htail := ih h.tail hl hj.tail
      rw [rank, rank, hj.tail.length, h.tail.length]
      rw [h.tail.length] at ha
      exact Nat.add_le_add (Nat.mul_le_mul_right _ (by omega)) htail

theorem eq_of_advance_none (hnone : advance n l = none)
    (hj : Combination n k j) (hle : rank n l ≤ rank n j) : j = l :=
  hj.ext h (le_antisymm (h.rank_le_of_advance_none hnone hj) hle)

/-- One step of the walk goes to a later combination, with none between. -/
theorem advance_some (hsome : advance n l = some l') :
    Combination n k l' ∧ rank n l < rank n l' ∧
      ∀ j, Combination n k j → rank n l ≤ rank n j → j = l ∨ rank n l' ≤ rank n j := by
  induction l generalizing k l' with
  | nil => cases hsome
  | cons a l ih =>
    obtain ⟨k, rfl⟩ : ∃ m, k = m + 1 := ⟨_, h.length.symm⟩
    have hlength := h.tail.length
    have ha := h.head_le
    rw [advance] at hsome
    split at hsome
    · -- The rest moves and the head stays.
      rename_i rest hrest
      cases hsome
      obtain ⟨hcomb, hlt, hnext⟩ := ih h.tail hrest
      have habove := lt_of_mem_advance hrest (pairwise_cons.1 h.increasing).1
      refine ⟨⟨by rw [length_cons, hcomb.length], pairwise_cons.2 ⟨habove, hcomb.increasing⟩,
        forall_mem_cons.2 ⟨h.below a mem_cons_self, hcomb.below⟩⟩, ?_, ?_⟩
      · rw [rank, rank, hlength, hcomb.length]
        exact Nat.add_lt_add_left hlt _
      · intro j hj hrank
        obtain ⟨b, j, rfl⟩ := exists_cons_of_length_eq_add_one hj.length
        have hbound := rank_lt hj.tail.below
        have hbound' := rank_lt hcomb.below
        simp only [rank, hlength, hcomb.length, hj.tail.length] at hrank hbound hbound' ⊢
        rcases lt_trichotomy b a with hab | rfl | hab
        · exact absurd hrank (not_le.2 (digit_lt hab hbound))
        · exact (hnext j hj.tail (by omega)).imp (congrArg _) fun hle => by omega
        · exact .inr (digit_lt hab hbound').le
    · -- The rest is at its end, so the head moves.
      rename_i hrest
      split_ifs at hsome with hend
      cases hsome
      rw [hlength] at hend
      refine ⟨⟨by simp [hlength], pairwise_lt_range', fun i hi => ?_⟩, ?_, ?_⟩
      · rw [mem_range'_1] at hi
        omega
      · have hbound := rank_lt h.tail.below
        simp only [range'_succ, rank, length_range', hlength] at hbound ⊢
        exact digit_lt (lt_succ_self a) hbound
      · intro j hj hrank
        have hlater := rank_range'_le (n := n) (a := a + 1) hj.increasing
        obtain ⟨b, j, rfl⟩ := exists_cons_of_length_eq_add_one hj.length
        have hbound := rank_lt hj.tail.below
        rcases lt_trichotomy b a with hab | rfl | hab
        · simp only [rank, hlength, hj.tail.length] at hrank hbound
          exact absurd hrank (not_le.2 (digit_lt hab hbound))
        · simp only [rank, hlength, hj.tail.length] at hrank
          exact .inl (congrArg _ (h.tail.eq_of_advance_none hrest hj.tail (by omega)))
        · refine .inr (hlength ▸ hj.length ▸ hlater ?_)
          exact forall_mem_cons.2 ⟨hab, fun i hi =>
            hab.trans ((pairwise_cons.1 hj.increasing).1 i hi)⟩

end Combination

/-- The walk starts at the first combination. -/
theorem Combination.rank_range_le {k : ℕ} {j : List ℕ} (hj : Combination n k j) :
    rank n (List.range k) ≤ rank n j := by
  rw [range_eq_range', ← hj.length]
  exact rank_range'_le hj.increasing fun i _ => zero_le i

theorem combination_range {k : ℕ} (h : k ≤ n) : Combination n k (List.range k) where
  length := length_range
  increasing := pairwise_lt_range
  below _ hi := lt_of_lt_of_le (mem_range.1 hi) h

end MiniDregg.Arith
