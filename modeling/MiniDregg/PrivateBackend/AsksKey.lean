import MiniDregg.PrivateBackend.Asks

/-!
# The key that shares open

Any `f + 1` shares that match the commitments open the same key. If the
polynomial through one set of them meets all commitments, then every matching
share lies on it, because the hash binds, so every other set has the same
polynomial; if it does not, no set does, and the key is the default.
-/

namespace MiniDregg.PrivateBackend.Asks

open Arith Fallible Reconstruction List

variable {n f : ℕ} {sha : Wire.Digest} {inst : Bytes} {commitments : List Bytes}
  {points points' : List (ℕ × List GF128)}

/-- Under each index the hash is injective on share vectors. -/
def Binding (sha : Wire.Digest) (inst : Bytes) : Prop :=
  ∀ index v w, v.length = WORDS → w.length = WORDS →
    h sha inst index v = h sha inst index w → v = w

/-- As many shares of distinct parties as the key needs, all matching the commitments. -/
structure Opening (sha : Wire.Digest) (n f : ℕ) (inst : Bytes) (commitments : List Bytes)
    (points : List (ℕ × List GF128)) : Prop where
  count : points.length = f + 1
  distinct : (points.map Prod.fst).Nodup
  party : ∀ e ∈ points, e.1 < n
  words : ∀ e ∈ points, e.2.length = WORDS
  committed : ∀ e ∈ points, h sha inst (e.1 + 1) e.2 = commitments.getD e.1 []

theorem Opening.shares (ho : Opening sha n f inst commitments points) (hn : n ≤ 16) :
    Shares points WORDS :=
  ⟨ho.distinct, fun e he => by have := ho.party e he; omega, ho.words⟩

/-- The words at `t` of the polynomials through the points. -/
noncomputable def wordsAt (points : List (ℕ × List GF128)) (t : GF128) : List GF128 :=
  (range WORDS).map fun c => (interpolant points c).eval t

theorem foldlM_and {l : List ℕ} {words : ℕ → Result (List GF128)} {v : ℕ → List GF128}
    (test : ℕ → List GF128 → Bool) (hwords : ∀ i ∈ l, words i = .ok (v i)) (b : Bool) :
    l.foldlM (fun coherent i => do
        let w ← words i
        pure (coherent && test i w)) b = Except.ok (ε := String) (b && l.all fun i => test i (v i)) := by
  induction l generalizing b with
  | nil => simp
  | cons i l ih =>
    rw [foldlM_cons, hwords i mem_cons_self, ok_bind, pure_eq_ok, ok_bind,
      ih fun j hj => hwords j (mem_cons_of_mem i hj), all_cons, Bool.and_assoc]

/-- The polynomial through the points meets all commitments. -/
def Coherent (sha : Wire.Digest) (n : ℕ) (inst : Bytes) (commitments : List Bytes)
    (points : List (ℕ × List GF128)) : Prop :=
  ∀ i < n, h sha inst (i + 1) (wordsAt points (node i)) = commitments.getD i []

open Classical in
/-- Interpolation does not fail, so neither does the key. -/
theorem keyOf_ok (hs : Shares points WORDS) :
    keyOf sha n inst commitments points =
      .ok (if Coherent sha n inst commitments points then h sha inst 0 (wordsAt points 0)
        else replicate 32 0) := by
  have hwords : ∀ i ∈ range n, interpolateAt points (node i) WORDS =
      .ok (wordsAt points (node i)) := fun i _ => interpolateAt_ok hs (node i)
  have hfold := foldlM_and (fun i words => h sha inst (i + 1) words == commitments.getD i [])
    hwords true
  rw [keyOf, hfold, ok_bind, Bool.true_and]
  have hcoherent : ((range n).all fun i =>
      h sha inst (i + 1) (wordsAt points (node i)) == commitments.getD i []) = true ↔
        Coherent sha n inst commitments points := by
    simp [Coherent]
  by_cases hc : Coherent sha n inst commitments points
  · rw [if_pos (hcoherent.2 hc), if_pos hc, interpolateAt_ok hs, ok_bind, pure_eq_ok]
    rfl
  · rw [if_neg (mt hcoherent.1 hc), if_neg hc, pure_eq_ok]

theorem keyOf_of_coherent (hs : Shares points WORDS) (hc : Coherent sha n inst commitments points) :
    keyOf sha n inst commitments points = .ok (h sha inst 0 (wordsAt points 0)) := by
  rw [keyOf_ok hs, if_pos hc]

theorem keyOf_of_not_coherent (hs : Shares points WORDS)
    (hc : ¬ Coherent sha n inst commitments points) :
    keyOf sha n inst commitments points = .ok (replicate 32 0) := by
  rw [keyOf_ok hs, if_neg hc]

section
variable (ho : Opening sha n f inst commitments points)
include ho

/-- Polynomials of degree at most `f` whose values match the commitments are the ones
through any opening. -/
theorem Opening.wordsAt_eq (hn : n ≤ 16)
    (hbind : Binding sha inst) {P : ℕ → Polynomial GF128} (hdegree : ∀ c, (P c).degree < f + 1)
    (hmatch : ∀ i < n, h sha inst (i + 1) ((range WORDS).map fun c => (P c).eval (node i)) =
      commitments.getD i []) (t : GF128) :
    wordsAt points t = (range WORDS).map fun c => (P c).eval t := by
  have hvalue : ∀ e ∈ points, e.2 = (range WORDS).map fun c => (P c).eval (node e.1) := by
    intro e he
    refine hbind (e.1 + 1) _ _ (ho.words e he) (by simp) ?_
    rw [ho.committed e he, hmatch e.1 (ho.party e he)]
  refine map_congr_left fun c hc => ?_
  have heq : P c = interpolant points c := by
    refine (ho.shares hn).eq_interpolant ?_ fun e he => ?_
    · rw [ho.count]
      exact_mod_cast hdegree c
    · have hlt : c < WORDS := mem_range.1 hc
      rw [hvalue e he, getD_eq_getElem _ _ (by simpa using hlt), getElem_map,
        getElem_range]
  rw [heq]

section
variable (ho' : Opening sha n f inst commitments points') (hn : n ≤ 16) (hbind : Binding sha inst)
include ho' hn hbind

/-- If one opening is coherent, every other one has its polynomial. -/
theorem Opening.wordsAt_eq_of_coherent (hc : Coherent sha n inst commitments points') (t : GF128) :
    wordsAt points t = wordsAt points' t := by
  refine ho.wordsAt_eq hn hbind (P := fun c => interpolant points' c) (fun c => ?_) hc t
  have hlt := (ho'.shares hn).degree_interpolant_lt c
  rw [ho'.count] at hlt
  exact_mod_cast hlt

theorem Opening.coherent_of_coherent (hc : Coherent sha n inst commitments points') :
    Coherent sha n inst commitments points := by
  intro i hi
  rw [ho.wordsAt_eq_of_coherent ho' hn hbind hc, hc i hi]

/-- Any two openings of the same commitments open the same key. -/
theorem Opening.keyOf_eq :
    keyOf sha n inst commitments points = keyOf sha n inst commitments points' := by
  by_cases hc : Coherent sha n inst commitments points'
  · rw [keyOf_of_coherent (ho.shares hn) (ho.coherent_of_coherent ho' hn hbind hc),
      keyOf_of_coherent (ho'.shares hn) hc, ho.wordsAt_eq_of_coherent ho' hn hbind hc]
  · have hc' : ¬ Coherent sha n inst commitments points := fun h =>
      hc (ho'.coherent_of_coherent ho hn hbind h)
    rw [keyOf_of_not_coherent (ho.shares hn) hc', keyOf_of_not_coherent (ho'.shares hn) hc]

end

end

section Deal
variable {coefficients : List (List GF128)}

/-- A commitment of a deal, found again in the broadcast vector. -/
theorem chunksExact_commitmentsOf (sha : Wire.Digest) (n : ℕ) (inst : Bytes)
    (coefficients : List (List GF128)) :
    Wire.chunksExact 32 (commitmentsOf sha n inst coefficients) =
      (range n).map fun i => h sha inst (i + 1) (shareOf coefficients i) := by
  rw [commitmentsOf, flatMap_def]
  refine Wire.chunksExact_flatten (by decide) fun b hb => ?_
  obtain ⟨i, -, rfl⟩ := mem_map.1 hb
  exact sha.length_digest _

theorem eval_zero {p : List GF128} : eval p 0 = p.getD 0 0 := by
  rw [eval_eq]
  cases p with
  | nil | cons => simp [ofCoefficients]

/-- Matching shares of a deal open the deal's key. -/
theorem Opening.keyOf_deal (hdim : dimensions f coefficients = true)
    (ho : Opening sha n f inst
      ((range n).map fun i => h sha inst (i + 1) (shareOf coefficients i)) points)
    (hn : n ≤ 16) (hbind : Binding sha inst) :
    keyOf sha n inst ((range n).map fun i => h sha inst (i + 1) (shareOf coefficients i))
      points = .ok (h sha inst 0 (coefficients.map fun p => p.getD 0 0)) := by
  simp only [dimensions, Bool.and_eq_true, decide_eq_true_eq, all_eq_true] at hdim
  obtain ⟨hlength, hdegree⟩ := hdim
  have hcommit : ∀ i < n, ((range n).map fun i =>
      h sha inst (i + 1) (shareOf coefficients i)).getD i [] =
        h sha inst (i + 1) (shareOf coefficients i) := by
    intro i hi
    rw [getD_eq_getElem _ _ (by simpa using hi), getElem_map, getElem_range]
  have hwords : ∀ t, ((range WORDS).map fun c =>
      (ofCoefficients (coefficients.getD c [])).eval t) = coefficients.map fun p => eval p t := by
    intro t
    refine ext_getElem (by simp [hlength]) fun c hc hc' => ?_
    have hlt : c < coefficients.length := by simpa using hc'
    rw [getElem_map, getElem_map, getElem_range, getD_eq_getElem _ _ hlt,
      eval_eq]
  have hall : ∀ t, wordsAt points t = coefficients.map fun p => eval p t := by
    intro t
    rw [← hwords]
    refine ho.wordsAt_eq hn hbind (fun c => ?_) (fun i hi => ?_) t
    · refine lt_of_lt_of_le (degree_ofCoefficients_lt _) ?_
      by_cases hc : c < coefficients.length
      · rw [getD_eq_getElem _ _ hc, hdegree _ (getElem_mem hc)]
        exact_mod_cast le_rfl
      · rw [getD_eq_default _ _ (Nat.not_lt.1 hc)]
        exact_mod_cast Nat.zero_le _
    · rw [hwords, hcommit i hi]
      rfl
  have hc : Coherent sha n inst ((range n).map fun i =>
      h sha inst (i + 1) (shareOf coefficients i)) points := by
    intro i hi
    rw [hall, hcommit i hi]
    rfl
  rw [keyOf_of_coherent (ho.shares hn) hc, hall]
  simp only [eval_zero]

end Deal

end MiniDregg.PrivateBackend.Asks
