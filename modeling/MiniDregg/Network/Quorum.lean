import Mathlib.Data.Finset.Card

/-!
# Quorums

The parties of a protocol that tolerates `f` faulty ones among `3 f + 1`. A
quorum is a set of at least `n - f` parties. All counting arguments of the
protocols go through the three intersection rules stated here.
-/

namespace MiniDregg.Network

open Finset

/-- The parties `0, …, n - 1` with `n = 3 f + 1`, of which at most `f` are faulty. -/
structure Roster where
  n : ℕ
  f : ℕ
  faulty : Finset ℕ
  size : n = 3 * f + 1
  faulty_subset : faulty ⊆ Finset.range n
  faulty_card : faulty.card ≤ f

namespace Roster

variable {R : Roster} {Q Q' : Finset ℕ}

/-- A party that follows the protocol. -/
def Honest (R : Roster) (p : ℕ) : Prop := p < R.n ∧ p ∉ R.faulty

instance (R : Roster) : DecidablePred R.Honest := fun p =>
  inferInstanceAs (Decidable (p < R.n ∧ p ∉ R.faulty))

/-- At least `n - f` parties. -/
structure Quorum (R : Roster) (Q : Finset ℕ) : Prop where
  subset : Q ⊆ Finset.range R.n
  card : R.n - R.f ≤ Q.card

/-- More than `f` parties include an honest one. -/
theorem exists_honest (hQ : Q ⊆ Finset.range R.n) (h : R.f < Q.card) : ∃ p ∈ Q, R.Honest p := by
  have hlt : R.faulty.card < Q.card := lt_of_le_of_lt R.faulty_card h
  obtain ⟨p, hp, hout⟩ := exists_mem_notMem_of_card_lt_card hlt
  exact ⟨p, hp, mem_range.1 (hQ hp), hout⟩

variable (hQ : R.Quorum Q)
include hQ

/-- More than `f` parties and a quorum have a party in common. -/
theorem Quorum.meets (hQ' : Q' ⊆ Finset.range R.n) (h : R.f < Q'.card) :
    ∃ p, p ∈ Q ∧ p ∈ Q' := by
  have hunion : (Q ∪ Q').card ≤ R.n := by
    simpa using card_le_card (union_subset hQ.subset hQ')
  have hsum := card_union_add_card_inter Q Q'
  have hcard := hQ.card
  have hsize := R.size
  have hpos : 0 < (Q ∩ Q').card := by omega
  obtain ⟨p, hp⟩ := card_pos.1 hpos
  exact ⟨p, mem_inter.1 hp⟩

/-- The honest members of a quorum outnumber the faults that are tolerated. -/
theorem Quorum.honest_card : R.f < (Q \ R.faulty).card := by
  have h := le_card_sdiff R.faulty Q
  have hcard := hQ.card
  have hfaulty := R.faulty_card
  have hsize := R.size
  omega

/-- Two quorums have an honest party in common. -/
theorem Quorum.inter (hQ' : R.Quorum Q') : ∃ p, p ∈ Q ∧ p ∈ Q' ∧ R.Honest p := by
  obtain ⟨p, hp, hp'⟩ :=
    hQ.meets (sdiff_subset.trans hQ'.subset) hQ'.honest_card
  obtain ⟨hmem, hout⟩ := mem_sdiff.1 hp'
  exact ⟨p, hp, hmem, mem_range.1 (hQ.subset hp), hout⟩

theorem Quorum.exists_honest : ∃ p ∈ Q, R.Honest p := by
  obtain ⟨p, hp, -, hhonest⟩ := hQ.inter hQ
  exact ⟨p, hp, hhonest⟩

end Roster

/-- Four parties, the last of them faulty. -/
def fourParties : Roster := ⟨4, 1, {3}, rfl, by decide, by decide⟩

end MiniDregg.Network
