import MiniDregg.Arith.Combinations
import MiniDregg.PrivateBackend.Coefficients

/-!
# Decoding with wrong points

`correct_polynomials` looks for polynomials of bounded degree that agree with
enough of the points: it interpolates through one choice of points after the
other and counts the agreement. Polynomials that agree with enough points are
found, because some choice lies inside the agreement; and if few points are
wrong there is only one such vector, because two share a whole choice.
-/

namespace MiniDregg.PrivateBackend.Reconstruction

open Arith Fallible Polynomial List

/-- Whether the polynomials have the point's values at its node. -/
def agrees (candidate : List (List GF128)) (p : ℕ × List GF128) : Bool :=
  candidate.zipIdx.all fun q => eval q.1 (node p.1) == p.2.getD q.2 0

/-- The holders whose points the polynomials go through. -/
def support (points : List (ℕ × List GF128)) (candidate : List (List GF128)) : List ℕ :=
  (points.filter (agrees candidate)).map Prod.fst

/-- The points at the indices. -/
def choice (points : List (ℕ × List GF128)) (indices : List ℕ) : List (ℕ × List GF128) :=
  indices.map fun i => points.getD i (0, [])

/-- The loop over the choices, for as many rounds as there can be. -/
def search (points : List (ℕ × List GF128)) (required count : ℕ) :
    ℕ → List ℕ → Result (Option (List (List GF128) × List ℕ))
  | 0, _ => .error "too many rounds"
  | fuel + 1, indices => do
    let candidate ← polynomial (choice points indices) count
    let support := support points candidate
    if required ≤ support.length then pure (some (candidate, support))
    else
      match advance points.length indices with
      | none => pure none
      | some next => search points required count fuel next

/-- `correct_polynomials`. -/
def correctPolynomials (points : List (ℕ × List GF128)) (degree required count : ℕ) :
    Result (Option (List (List GF128) × List ℕ)) :=
  if points.length < required ∨ points.length < degree + 1 then .ok none
  else search points required count (points.length ^ (degree + 1)) (List.range (degree + 1))

/-- Vectors of `count` polynomials of degree at most `degree`, as coefficient lists. -/
structure Fits (degree count : ℕ) (candidate : List (List GF128)) : Prop where
  length : candidate.length = count
  row : ∀ p ∈ candidate, p.length = degree + 1

variable {points : List (ℕ × List GF128)} {count degree required : ℕ}
  {candidate : List (List GF128)}

theorem agrees_iff {p : ℕ × List GF128} (hlength : candidate.length = count) :
    agrees candidate p = true ↔
      ∀ c < count, eval (candidate.getD c []) (node p.1) = p.2.getD c 0 := by
  simp only [agrees, all_eq_true, beq_iff_eq]
  constructor
  · intro h c hc
    have hmem : (candidate.getD c [], c) ∈ candidate.zipIdx := by
      rw [mk_mem_zipIdx_iff_getElem?, getElem?_eq_getElem (hlength ▸ hc),
        getD_eq_getElem _ _ (hlength ▸ hc)]
    exact h _ hmem
  · rintro h ⟨row, c⟩ hmem
    obtain ⟨hc, rfl⟩ := List.getElem?_eq_some_iff.1 (mk_mem_zipIdx_iff_getElem?.1 hmem)
    rw [← getD_eq_getElem _ [] hc]
    exact h c (hlength ▸ hc)

variable {chosen : List (ℕ × List GF128)} {W V : List (List GF128)}

/-- Two vectors that agree with a choice of enough points are the same. -/
theorem Fits.eq_of_choice (hV : Fits degree count candidate)
    (hW : Fits degree count W) (h : Shares chosen count)
    (hlength : chosen.length = degree + 1) (hagrees : ∀ p ∈ chosen, agrees candidate p = true)
    (hagrees' : ∀ p ∈ chosen, agrees W p = true) : W = candidate := by
  refine ext_getElem (hW.length.trans hV.length.symm) fun c hc hc' => ?_
  have hcount : c < count := hV.length ▸ hc'
  have hinterpolant : ∀ {U : List (List GF128)}, Fits degree count U → (hU : c < U.length) →
      (∀ p ∈ chosen, agrees U p = true) → ofCoefficients U[c] = interpolant chosen c := by
    intro U hfits hU hall
    refine h.eq_interpolant ?_ fun p hp => ?_
    · rw [hlength, ← hfits.row _ (getElem_mem hU)]
      exact degree_ofCoefficients_lt _
    · rw [← eval_eq, ← getD_eq_getElem _ [] hU]
      exact (agrees_iff hfits.length).1 (hall p hp) c hcount
  apply ofCoefficients_inj
  · rw [hV.row _ (getElem_mem hc'), hW.row _ (getElem_mem hc)]
  · rw [hinterpolant hW hc hagrees', hinterpolant hV hc' hagrees]

section Choices
variable {indices : List ℕ}

theorem choice_map_val (is : List (Fin points.length)) :
    choice points (is.map Fin.val) = is.map (points[·]) := by
  rw [choice, map_map]
  exact map_congr_left fun i _ => getD_eq_getElem _ _ i.2

theorem choice_sublist (hcomb : Combination points.length (degree + 1) indices) :
    (choice points indices).Sublist points := by
  obtain ⟨is, rfl⟩ : ∃ is : List (Fin points.length), indices = is.map Fin.val :=
    ⟨indices.pmap Fin.mk hcomb.below, by rw [map_pmap, pmap_eq_map, map_id']⟩
  rw [choice_map_val]
  exact map_getElem_sublist ((pairwise_map (f := Fin.val)).1 hcomb.increasing)

/-- Enough agreement contains a choice. -/
theorem exists_choice (h : degree < (support points V).length) :
    ∃ indices, Combination points.length (degree + 1) indices ∧
      ∀ p ∈ choice points indices, agrees V p = true := by
  rw [support, length_map] at h
  obtain ⟨is, his, hincreasing⟩ := sublist_eq_map_getElem
    ((take_sublist (degree + 1) _).trans (filter_sublist (p := agrees V) (l := points)))
  refine ⟨is.map Fin.val, ⟨?_, pairwise_map.2 hincreasing, ?_⟩, ?_⟩
  · have hlength := congrArg List.length his
    rw [length_take, length_map] at hlength
    rw [length_map]
    omega
  · intro i hi
    obtain ⟨j, -, rfl⟩ := mem_map.1 hi
    exact j.2
  · intro p hp
    rw [choice_map_val, ← his] at hp
    exact (mem_filter.1 (mem_of_mem_take hp)).2

variable (h : Shares points count)
include h

theorem Shares.sublist (hsub : chosen.Sublist points) :
    Shares chosen count where
  distinct := h.distinct.sublist (hsub.map Prod.fst)
  small p hp := h.small p (hsub.subset hp)
  length p hp := h.length p (hsub.subset hp)

/-- Every choice gives a vector that agrees with it. -/
theorem polynomial_choice (hcomb : Combination points.length (degree + 1) indices) :
    ∃ V, polynomial (choice points indices) count = .ok V ∧ Fits degree count V ∧
      ∀ p ∈ choice points indices, agrees V p = true := by
  have hshares := h.sublist (choice_sublist hcomb)
  have hlength : (choice points indices).length = degree + 1 := by
    rw [choice, length_map, hcomb.length]
  obtain ⟨V, hV, hcount, hrow⟩ := polynomial_ok hshares
  refine ⟨V, hV, ⟨hcount, fun p hp => ?_⟩, fun p hp => (agrees_iff hcount).2 fun c hc => ?_⟩
  · obtain ⟨c, hc, rfl⟩ := getElem_of_mem hp
    rw [← hlength, ← getD_eq_getElem _ [] hc]
    exact (hrow c (hcount ▸ hc)).1
  · rw [eval_eq, (hrow c hc).2, hshares.eval_interpolant hp]

/-- What the loop returns: a vector with enough support, or nothing when no choice from here
on gives one. -/
theorem search_ok {fuel : ℕ} (hcomb : Combination points.length (degree + 1) indices)
    (hfuel : points.length ^ (degree + 1) ≤ rank points.length indices + fuel) :
    (∃ V, search points required count fuel indices = .ok (some (V, support points V)) ∧
        Fits degree count V ∧ required ≤ (support points V).length) ∨
      search points required count fuel indices = .ok none ∧
        ∀ j V, Combination points.length (degree + 1) j →
          rank points.length indices ≤ rank points.length j →
          polynomial (choice points j) count = .ok V → (support points V).length < required := by
  induction fuel generalizing indices with
  | zero =>
    have hlt := rank_lt hcomb.below
    rw [hcomb.length] at hlt
    omega
  | succ fuel ih =>
    obtain ⟨V, hV, hfits, -⟩ := polynomial_choice h hcomb
    rw [search, hV, ok_bind]
    dsimp only
    by_cases henough : required ≤ (support points V).length
    · rw [if_pos henough]
      exact .inl ⟨V, rfl, hfits, henough⟩
    rw [if_neg henough]
    have hhere : ∀ W, polynomial (choice points indices) count = .ok W →
        (support points W).length < required := by
      intro W hW
      obtain rfl := Except.ok.inj (hV.symm.trans hW)
      exact not_le.1 henough
    cases hnext : advance points.length indices with
    | none =>
      refine .inr ⟨rfl, fun j W hj hrank => ?_⟩
      rw [hcomb.eq_of_advance_none hnext hj hrank]
      exact hhere W
    | some next =>
      obtain ⟨hcomb', hlt, hbetween⟩ := hcomb.advance_some hnext
      rcases ih hcomb' (by omega) with hfound | ⟨hnone, hrest⟩
      · exact .inl hfound
      · refine .inr ⟨hnone, fun j W hj hrank hW => ?_⟩
        obtain rfl | hafter := hbetween j hj hrank
        · exact hhere W hW
        · exact hrest j W hj hafter hW

end Choices

/-- Of two vectors with enough support one is the other, if few points are off the first. -/
theorem Fits.eq_of_support (h : Shares points count)
    (hV : Fits degree count V) (hW : Fits degree count W)
    (hwrong : points.length ≤ (support points V).length + degree)
    (henough : 2 * degree + 1 ≤ (support points W).length) : W = V := by
  -- Both agree with more than `degree` points, those off `V` taken away.
  have hboth : degree < (support (points.filter (agrees V)) W).length := by
    have hsplit := length_eq_length_filter_add (l := points.filter (agrees W)) (agrees V)
    have hoff := length_eq_length_filter_add (l := points) (agrees V)
    have hle := ((filter_sublist (p := agrees W) (l := points)).filter
      (fun p => !agrees V p)).length_le
    simp only [support, length_map] at hwrong henough ⊢
    rw [filter_comm]
    omega
  obtain ⟨indices, hcomb, hagrees⟩ := exists_choice hboth
  have hsub := choice_sublist hcomb
  have hchoice := (h.sublist filter_sublist).sublist hsub
  refine hV.eq_of_choice hW hchoice ?_ (fun p hp => ?_) hagrees
  · rw [choice, length_map, hcomb.length]
  · exact (mem_filter.1 (hsub.subset hp)).2

/-- Whatever the points are, polynomials that agree with enough of them and miss at most `f`
are the only ones with enough agreement and are returned; and where none agree with enough
points, nothing is returned. -/
theorem correctPolynomials_decodes {f : ℕ} (h : Shares points count)
    (hrequired : 2 * f + 1 ≤ required) :
    (∀ V, Fits f count V → required ≤ (support points V).length →
      points.length ≤ (support points V).length + f →
      correctPolynomials points f required count = .ok (some (V, support points V)) ∧
        ∀ W, Fits f count W → required ≤ (support points W).length → W = V) ∧
    ((∀ V, Fits f count V → (support points V).length < required) →
      correctPolynomials points f required count = .ok none) := by
  have hcases : (∃ V, correctPolynomials points f required count =
        .ok (some (V, support points V)) ∧ Fits f count V ∧
          required ≤ (support points V).length) ∨
      correctPolynomials points f required count = .ok none ∧
        ∀ V, Fits f count V → (support points V).length < required := by
    unfold correctPolynomials
    split_ifs with hfew
    · refine .inr ⟨rfl, fun V _ => ?_⟩
      have hle := (filter_sublist (p := agrees V) (l := points)).length_le
      rw [support, length_map]
      omega
    · have hfirst : Combination points.length (f + 1) (List.range (f + 1)) :=
        combination_range (by omega)
      rcases search_ok h hfirst (Nat.le_add_left _ _) with hfound | ⟨hnone, hrest⟩
      · exact .inl hfound
      · refine .inr ⟨hnone, fun V hV => ?_⟩
        by_contra hmany
        have hlarge : f < (support points V).length := by omega
        obtain ⟨j, hj, hagrees⟩ := exists_choice hlarge
        obtain ⟨W, hW, hfits, hagrees'⟩ := polynomial_choice h hj
        have hlength : (choice points j).length = f + 1 := by
          rw [choice, length_map, hj.length]
        have heq := hV.eq_of_choice hfits (h.sublist (choice_sublist hj)) hlength hagrees hagrees'
        exact hmany (heq ▸ hrest j W hj hj.rank_range_le hW)
  constructor
  · intro V hV henough hwrong
    have hunique : ∀ W, Fits f count W → required ≤ (support points W).length → W = V :=
      fun W hW hsupport => hV.eq_of_support h hW hwrong (hrequired.trans hsupport)
    refine ⟨?_, hunique⟩
    rcases hcases with ⟨W, hW, hfits, hsupport⟩ | ⟨-, hnone⟩
    · rw [hW, hunique W hfits hsupport]
    · exact absurd henough (not_le.2 (hnone V hV))
  · intro hnone
    rcases hcases with ⟨W, -, hfits, hsupport⟩ | ⟨hnothing, -⟩
    · exact absurd hsupport (not_le.2 (hnone W hfits))
    · exact hnothing

/-- One of four points is wrong, and the constant of the others is found. -/
theorem correctPolynomials_decodes_three_of_four :
    correctPolynomials [(0, [1]), (1, [1]), (2, [1]), (3, [0])] 1 3 1 =
      .ok (some ([[1, 0]], [0, 1, 2])) := by
  have hshares : Shares [(0, [1]), (1, [1]), (2, [1]), (3, [(0 : GF128)])] 1 := by
    constructor
    · decide
    · simp
    · simp
  have hfits : Fits 1 1 [[(1 : GF128), 0]] := ⟨rfl, by simp⟩
  have hsupport : support [(0, [1]), (1, [1]), (2, [1]), (3, [(0 : GF128)])] [[1, 0]] =
      [0, 1, 2] := by
    simp [support, agrees, eval]
  have h := (correctPolynomials_decodes hshares (by decide : 2 * 1 + 1 ≤ 3)).1 _ hfits
    (by rw [hsupport]; decide) (by rw [hsupport]; decide)
  rw [← hsupport]
  exact h.1

end MiniDregg.PrivateBackend.Reconstruction
