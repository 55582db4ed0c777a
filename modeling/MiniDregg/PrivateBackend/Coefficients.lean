import MiniDregg.PrivateBackend.Reconstruction

/-!
# Coefficients of interpolants

`polynomial` builds the coefficient lists of the polynomials through points of
several components: for every point it multiplies out the basis polynomial of
its node, one linear factor at a time, and adds it scaled to each component.
-/

namespace MiniDregg.PrivateBackend.Reconstruction

open Arith Fallible Polynomial List Lagrange

/-- The coefficients times `X + x`. -/
def timesLinear (basis : List GF128) (x : GF128) : List GF128 :=
  zipWith (fun a c => a + c * x) (0 :: basis) (basis ++ [0])

/-- Denominator and coefficients of the basis polynomial of node `i`. -/
def basisTerms (xs : List GF128) (i : ℕ) : GF128 × List GF128 :=
  xs.zipIdx.foldl (fun acc xj =>
    if i ≠ xj.2 then (acc.1 * (xs.getD i 0 + xj.1), timesLinear acc.2 xj.1) else acc) (1, [1])

/-- A coefficient list with the scaled basis added. -/
def addScaled (scale : GF128) (row basis : List GF128) : List GF128 :=
  zipWith (fun slot c => slot + c * scale) row basis

/-- The basis of node `i` with the inverse of its denominator. -/
def scaledBasis (xs : List GF128) (i : ℕ) : Result (List GF128 × GF128) := do
  let (denominator, basis) := basisTerms xs i
  let inverse ← inv denominator
  pure (basis, inverse)

/-- The coefficient lists, one for each component, of the polynomials through the points. -/
def polynomial (points : List (ℕ × List GF128)) (count : ℕ) : Result (List (List GF128)) :=
  points.zipIdx.foldlM (fun out p => do
    refuseIf (p.1.2.length != count) "polynomial vector"
    let scaled ← scaledBasis (nodes points) p.2
    pure (zipWith (fun row value => addScaled (value * scaled.2) row scaled.1) out p.1.2))
    (replicate count (replicate points.length 0))

theorem ofCoefficients_addScaled (s : GF128) {p q : List GF128} (h : p.length = q.length) :
    ofCoefficients (addScaled s p q) = ofCoefficients p + ofCoefficients q * C s := by
  induction p generalizing q with
  | nil =>
    obtain rfl := length_eq_zero_iff.1 h.symm
    simp [addScaled, ofCoefficients]
  | cons a p ih =>
    cases q with
    | nil => cases h
    | cons b q =>
      have htail := ih (Nat.succ.inj h)
      simp only [addScaled, zipWith_cons_cons, ofCoefficients] at htail ⊢
      rw [htail, C_add, C_mul]
      ring

theorem ofCoefficients_append_zero (p : List GF128) :
    ofCoefficients (p ++ [0]) = ofCoefficients p := by
  induction p with
  | nil => simp [ofCoefficients]
  | cons a p ih => rw [cons_append, ofCoefficients, ih, ofCoefficients]

theorem ofCoefficients_replicate (n : ℕ) : ofCoefficients (replicate n 0) = 0 := by
  induction n with
  | zero => rfl
  | succ n ih => rw [replicate_succ, ofCoefficients, ih, zero_mul, C_0, add_zero]

theorem ofCoefficients_timesLinear (p : List GF128) (x : GF128) :
    ofCoefficients (timesLinear p x) = ofCoefficients p * (X + C x) := by
  have hsum := ofCoefficients_addScaled x (p := 0 :: p) (q := p ++ [0]) (by simp)
  rw [addScaled, ofCoefficients_append_zero, ofCoefficients, C_0, add_zero] at hsum
  rw [timesLinear, hsum, mul_add]

/-- Lists of one length with the same polynomial are the same. -/
theorem ofCoefficients_inj {p q : List GF128} (hlength : p.length = q.length)
    (h : ofCoefficients p = ofCoefficients q) : p = q := by
  induction p generalizing q with
  | nil => exact (length_eq_zero_iff.1 hlength.symm).symm
  | cons a p ih =>
    cases q with
    | nil => cases hlength
    | cons b q =>
      have hcoeff := fun n => congrArg (fun P : GF128[X] => P.coeff n) h
      have hhead : a = b := by simpa [ofCoefficients] using hcoeff 0
      have htail : ofCoefficients p = ofCoefficients q := by
        refine Polynomial.ext fun n => ?_
        simpa [ofCoefficients, coeff_C] using hcoeff (n + 1)
      rw [hhead, ih (Nat.succ.inj hlength) htail]

theorem foldl_basis (y : GF128) (k : ℕ) (l : List (GF128 × ℕ)) (d : GF128) (b : List GF128) :
    ∃ b', l.foldl (fun acc xj => if k ≠ xj.2 then (acc.1 * (y + xj.1), timesLinear acc.2 xj.1)
          else acc) (d, b) =
        (d * (l.map fun xj => if xj.2 ≠ k then y + xj.1 else 1).prod, b') ∧
      ofCoefficients b' = ofCoefficients b *
        (l.map fun xj => if xj.2 ≠ k then X + C xj.1 else 1).prod ∧
      b'.length = b.length + l.countP fun xj => decide (xj.2 ≠ k) := by
  induction l generalizing d b with
  | nil => exact ⟨b, by simp, by simp, by simp⟩
  | cons xj l ih =>
    rw [foldl_cons]
    by_cases hk : k = xj.2
    · obtain ⟨b', hfold, hpoly, hlength⟩ := ih d b
      refine ⟨b', ?_, ?_, ?_⟩
      · rw [if_neg (not_not.2 hk), hfold]
        simp [hk]
      · rw [hpoly]
        simp [hk]
      · rw [hlength]
        simp [hk]
    · obtain ⟨b', hfold, hpoly, hlength⟩ := ih (d * (y + xj.1)) (timesLinear b xj.1)
      have hne : xj.2 ≠ k := fun h => hk h.symm
      refine ⟨b', ?_, ?_, ?_⟩
      · rw [if_pos hk, hfold, map_cons, prod_cons, if_pos hne, mul_assoc]
      · rw [hpoly, ofCoefficients_timesLinear, map_cons, prod_cons, if_pos hne, mul_assoc]
      · rw [hlength, countP_cons_of_pos (by simpa using hne)]
        simp only [timesLinear, length_zipWith, length_cons, length_append,
          length_nil]
        omega

theorem countP_zipIdx_ne {α : Type*} (xs : List α) {k : ℕ} (hk : k < xs.length) :
    xs.zipIdx.countP (fun xj => decide (xj.2 ≠ k)) + 1 = xs.length := by
  have hcount : xs.zipIdx.countP (fun xj => decide (xj.2 = k)) = 1 := by
    have hmap := countP_map (p := fun j => decide (j = k)) (f := Prod.snd) (l := xs.zipIdx)
    rw [zipIdx_map_snd] at hmap
    rw [show (fun xj : α × ℕ => decide (xj.2 = k)) = (fun j => decide (j = k)) ∘ Prod.snd from rfl,
      ← hmap]
    exact count_eq_one_of_mem nodup_range' (by simpa using hk)
  have hsplit := length_eq_countP_add_countP (fun xj : α × ℕ => decide (xj.2 = k))
    (l := xs.zipIdx)
  simp only [length_zipIdx, hcount, decide_eq_true_eq] at hsplit
  simp only [ne_eq]
  omega

/-- The scaled basis is Lagrange's basis polynomial. -/
theorem scaledBasis_ok {m : ℕ} {v : Fin m → GF128} (hv : Function.Injective v) (k : Fin m) :
    ∃ basis inverse, scaledBasis (ofFn v) k = .ok (basis, inverse) ∧ basis.length = m ∧
      ofCoefficients basis * C inverse = Lagrange.basis Finset.univ v k := by
  obtain ⟨hget, hden⟩ := prod_nodes_ne_zero hv k
  obtain ⟨basis, hfold, hpoly, hlength⟩ :=
    foldl_basis (v k) k.1 (ofFn v).zipIdx 1 [1]
  rw [prod_zipIdx v (fun x => v k + x), one_mul] at hfold
  rw [prod_zipIdx v (fun x => X + C x)] at hpoly
  refine ⟨basis, (∏ j ∈ Finset.univ.erase k, (v k + v j))⁻¹, ?_, ?_, ?_⟩
  · simp only [scaledBasis, basisTerms, hget, hfold]
    rw [inv_ok hden]
    rfl
  · have hcount := countP_zipIdx_ne (ofFn v) (k := k) (by simp)
    rw [length_ofFn] at hcount
    rw [hlength, length_singleton]
    omega
  · rw [hpoly, Lagrange.basis]
    simp only [basisDivisor, CharTwo.sub_eq_add, ofCoefficients]
    rw [Finset.prod_mul_distrib, ← map_prod, Finset.prod_inv_distrib]
    simp [mul_comm]

theorem foldl_addScaled {α : Type*} {n : ℕ} (g : α → List GF128) (s : α → GF128) (l : List α)
    (hg : ∀ p ∈ l, (g p).length = n) (row : List GF128) (hrow : row.length = n) :
    (l.foldl (fun row p => addScaled (s p) row (g p)) row).length = n ∧
      ofCoefficients (l.foldl (fun row p => addScaled (s p) row (g p)) row) =
        ofCoefficients row + (l.map fun p => ofCoefficients (g p) * C (s p)).sum := by
  induction l generalizing row with
  | nil => simp [hrow]
  | cons p l ih =>
    have hp := hg p mem_cons_self
    obtain ⟨hlength, hpoly⟩ := ih (fun q hq => hg q (mem_cons_of_mem p hq))
      (addScaled (s p) row (g p)) (by simp [addScaled, hrow, hp])
    refine ⟨hlength, ?_⟩
    rw [foldl_cons, hpoly, ofCoefficients_addScaled _ (hrow.trans hp.symm), map_cons,
      sum_cons, add_assoc]

section Points
variable {points : List (ℕ × List GF128)} {count : ℕ}

/-- The rows are the coefficients of the interpolants. -/
theorem polynomial_ok (h : Shares points count) :
    ∃ rows, polynomial points count = .ok rows ∧ rows.length = count ∧ ∀ c < count,
      (rows.getD c []).length = points.length ∧
        ofCoefficients (rows.getD c []) = interpolant points c := by
  have hnodes : nodes points = ofFn fun i : Fin points.length => node (points.get i).1 :=
    ext_getElem (by simp [nodes]) fun i hi hi' => by simp [nodes]
  have hterms : ∀ i, ∃ term : List GF128 × GF128, ∀ hi : i < points.length,
      scaledBasis (nodes points) i = .ok term ∧ term.1.length = points.length ∧
        ofCoefficients term.1 * C term.2 = Lagrange.basis Finset.univ
          (fun i : Fin points.length => node (points.get i).1) ⟨i, hi⟩ := by
    intro i
    by_cases hi : i < points.length
    · obtain ⟨basis, inverse, hterm⟩ := scaledBasis_ok h.node_injective ⟨i, hi⟩
      exact ⟨(basis, inverse), fun _ => hnodes ▸ hterm⟩
    · exact ⟨([], 0), fun h => absurd h hi⟩
  choose term hterm using hterms
  have hindex : ∀ p ∈ points.zipIdx, p.2 < points.length := fun p hp =>
    snd_lt_of_mem_zipIdx hp
  obtain ⟨rows, hrows, hcount, hcolumn⟩ := foldlM_columns
    (fun (a : List GF128 × GF128) row value => addScaled (value * a.2) row a.1)
    (fun p hp => h.length _ (fst_mem_of_mem_zipIdx hp))
    (fun p hp => (hterm p.2 (hindex p hp)).1) []
    (replicate count (replicate points.length 0)) length_replicate
  refine ⟨rows, hrows, hcount, fun c hc => ?_⟩
  obtain ⟨hlen, hpoly⟩ := foldl_addScaled (fun p : (ℕ × List GF128) × ℕ => (term p.2).1)
    (fun p => p.1.2.getD c 0 * (term p.2).2) points.zipIdx
    (fun p hp => (hterm p.2 (hindex p hp)).2.1)
    (replicate points.length 0) length_replicate
  rw [hcolumn c hc, getD_replicate _ hc]
  refine ⟨hlen, hpoly.trans ?_⟩
  rw [ofCoefficients_replicate, zero_add, sum_zipIdx points fun p i =>
    ofCoefficients (term i).1 * C (p.2.getD c 0 * (term i).2), interpolant,
    interpolate_apply]
  refine Finset.sum_congr rfl fun i _ => ?_
  rw [C_mul, mul_left_comm, (hterm i i.2).2.2]

/-- The interpolant goes through the points. -/
theorem Shares.eval_interpolant (h : Shares points count) {p : ℕ × List GF128} (hp : p ∈ points)
    (c : ℕ) : (interpolant points c).eval (node p.1) = p.2.getD c 0 := by
  obtain ⟨i, rfl⟩ := get_of_mem hp
  exact eval_interpolate_at_node _ h.node_injective.injOn (Finset.mem_univ i)

end Points

/-- The words with the loops of the source as operations are a field, and through points of
distinct holders there is one polynomial for each component of degree below their number:
`polynomial` gives its coefficients and `interpolateAt` its values. -/
theorem field_and_interpolation :
    (∃ F : Field GF128, (∀ a b, F.add a b = ⟨a.bits ^^^ b.bits⟩) ∧
      (∀ a b, F.mul a b = GF128.mulLoop 128 a b.bits ⟨0⟩) ∧ F.zero = ⟨0⟩ ∧ F.one = ⟨1⟩ ∧
      (∀ a, a ≠ ⟨0⟩ → inv a = .ok (F.inv a)) ∧ inv ⟨0⟩ = .error "zero inverse") ∧
    ∀ points count, Shares points count → ∃ rows, polynomial points count = .ok rows ∧
      rows.length = count ∧ (∀ row ∈ rows, row.length = points.length) ∧
      (∀ c < count, ∀ p ∈ points, eval (rows.getD c []) (node p.1) = p.2.getD c 0) ∧
      (∀ c < count, ∀ P : GF128[X], P.degree < points.length →
        (∀ p ∈ points, P.eval (node p.1) = p.2.getD c 0) → P = ofCoefficients (rows.getD c [])) ∧
      ∀ t, interpolateAt points t count = .ok (rows.map fun row => eval row t) := by
  refine ⟨⟨inferInstance, fun _ _ => rfl, GF128.mul_def, rfl, rfl, fun _ => inv_ok, rfl⟩, ?_⟩
  intro points count h
  obtain ⟨rows, hrows, hcount, hrow⟩ := polynomial_ok h
  have hget : ∀ c (hc : c < rows.length), rows.getD c [] = rows[c] := fun c hc =>
    getD_eq_getElem _ _ hc
  refine ⟨rows, hrows, hcount, ?_, ?_, ?_, ?_⟩
  · intro row hmem
    obtain ⟨c, hc, rfl⟩ := getElem_of_mem hmem
    rw [← hget c hc]
    exact (hrow c (hcount ▸ hc)).1
  · intro c hc p hp
    rw [eval_eq, (hrow c hc).2, h.eval_interpolant hp]
  · intro c hc P hdegree hP
    rw [(hrow c hc).2]
    exact h.eq_interpolant hdegree hP
  · intro t
    rw [interpolateAt_ok h t]
    congr 1
    refine ext_getElem (by simp [hcount]) fun c hc hc' => ?_
    rw [length_map] at hc'
    rw [getElem_map, getElem_map, getElem_range, ← hget c hc', eval_eq,
      (hrow c (hcount ▸ hc')).2]

end MiniDregg.PrivateBackend.Reconstruction
