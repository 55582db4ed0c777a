import Mathlib.Algebra.BigOperators.Fin
import Mathlib.Data.Nat.Bitwise
import Mathlib.Tactic.Ring
import MiniDregg.Control.Fallible

/-!
# Multilinear kernels

A table lists the values of a multilinear function at the Boolean points, the
lowest index bit being the first coordinate. The Möbius transform of
`mle_kernels.rs` turns it in place into monomial coefficients, one index bit
after the other; evaluation halves the table with each coordinate.

## Implementation notes

The scalars are those of a commutative ring, whose operations do not fail. A
list is compared with others through its entries, zero behind its end.
-/

namespace MiniDregg.Prover

open Fallible List Nat

/-- What the kernels refuse. -/
inductive MleKernelError
  | emptyTable
  | nonPowerOfTwo (len : Nat)
  | cannotFoldSingleton
  | pointLength (expected actual : Nat)
deriving DecidableEq

/-- The trailing zeros of a power of two are its logarithm. -/
def tableDimension {α : Type} (table : List α) : Except MleKernelError Nat :=
  if table.isEmpty then .error .emptyTable
  else if table.length ≠ 2 ^ table.length.log2 then .error (.nonPowerOfTwo table.length)
  else .ok table.length.log2

theorem tableDimension_eq {α : Type} {k : Nat} {table : List α} (h : table.length = 2 ^ k) :
    tableDimension table = .ok k := by
  have hne : table.isEmpty = false := by
    cases table with
    | nil => exact absurd h.symm (Nat.two_pow_pos k).ne'
    | cons a table => rfl
  rw [tableDimension, hne, h, log2_two_pow]
  simp

variable {R : Type} [CommRing R]

/-- The entry of a table at an index. -/
def entries (table : List R) (i : Nat) : R := table[i]?.getD 0

/-- One step of the inner loop of the Möbius transform. -/
def mobiusStep (bit : Nat) (c : List R) (mask : Nat) : List R :=
  if mask &&& 1 <<< bit ≠ 0 then c.set mask (entries c mask - entries c (mask ^^^ 1 <<< bit)) else c

def booleanMobiusCoefficients (table : List R) : Except MleKernelError (List R) := do
  let count ← tableDimension table
  pure ((range count).foldl (fun c bit => (range table.length).foldl (mobiusStep bit) c) table)

/-- The pairs of neighbours, as `chunks_exact(2)` cuts them, combined. -/
def mapPairs (f : R → R → R) : List R → List R
  | a :: b :: rest => f a b :: mapPairs f rest
  | _ => []

/-- The checks of both folds in front of the pass over the pairs. -/
def foldPairs (f : R → R → R) (table : List R) : Except MleKernelError (List R) := do
  let _ ← tableDimension table
  if table.length = 1 then .error .cannotFoldSingleton else pure (mapPairs f table)

def foldMleTable (table : List R) (challenge : R) : Except MleKernelError (List R) :=
  foldPairs (fun low high => low + (high - low) * challenge) table

def foldMleCoefficients (coefficients : List R) (challenge : R) :
    Except MleKernelError (List R) :=
  foldPairs (fun low high => low + high * challenge) coefficients

def evaluateMle (table point : List R) : Except MleKernelError R := do
  let expected ← tableDimension table
  if point.length ≠ expected then .error (.pointLength expected point.length)
  else do
    let layer ← point.foldlM foldMleTable table
    pure (layer.headD 0)

/-- The entries after the inner loop for one bit, from those before it. -/
def pass (f : Nat → R) (bit mask : Nat) : R :=
  if mask.testBit bit then f mask - f (mask ^^^ 2 ^ bit) else f mask

variable {k n bit : Nat} {c table point : List R} {f : R → R → R} {r : R}

theorem mobiusStep_length (bit : Nat) (c : List R) (mask : Nat) :
    (mobiusStep bit c mask).length = c.length := by
  unfold mobiusStep
  split <;> simp

theorem entries_mobiusStep (hn : n < c.length) :
    entries (mobiusStep bit c n) = Function.update (entries c) n (pass (entries c) bit n) := by
  rw [mobiusStep, one_shiftLeft, and_two_pow]
  cases hbit : n.testBit bit with
  | false => simp [pass, hbit]
  | true =>
    funext mask
    obtain rfl | hne := eq_or_ne mask n
    · simp [entries, pass, hbit, hn]
    · simp [entries, hne, hne.symm]

/-- The inner loop reads entries without the bit, which it leaves as they are. -/
theorem foldl_mobiusStep (hn : n ≤ c.length) :
    ((range n).foldl (mobiusStep bit) c).length = c.length ∧
      entries ((range n).foldl (mobiusStep bit) c) =
        fun mask => if mask < n then pass (entries c) bit mask else entries c mask := by
  induction n with
  | zero => simp
  | succ n ih =>
    obtain ⟨hlength, hentries⟩ := ih (le_of_succ_le hn)
    rw [range_succ, foldl_append, foldl_cons, foldl_nil, mobiusStep_length,
      entries_mobiusStep (hlength ▸ hn), hentries]
    refine ⟨hlength, funext fun mask => ?_⟩
    obtain rfl | hne := eq_or_ne mask n
    · have hless (hbit : mask.testBit bit) : mask ^^^ 2 ^ bit < mask := by
        refine lt_of_testBit bit (by simp [hbit]) hbit fun j hj => ?_
        rw [testBit_xor, testBit_two_pow_of_ne hj.ne, Bool.xor_false]
      rw [Function.update_self, if_pos mask.lt_succ_self]
      unfold pass
      split_ifs with hbit <;> simp_all
    · rw [Function.update_of_ne hne]
      simp only [Nat.lt_succ_iff_lt_or_eq, hne, or_false]

/-- A round of the transform on a full table. -/
theorem entries_round (hc : c.length = 2 ^ k) (hbit : bit < k) :
    entries ((range c.length).foldl (mobiusStep bit) c) = pass (entries c) bit := by
  rw [(foldl_mobiusStep c.length.le_refl).2]
  funext mask
  split_ifs with hmask
  · rfl
  -- Behind the end of the table a flipped bit does not lead back into it.
  have hflip : ¬mask ^^^ 2 ^ bit < c.length := by
    rw [hc] at hmask ⊢
    intro hlt
    apply hmask
    simpa [Nat.xor_assoc] using xor_lt_two_pow hlt (Nat.pow_lt_pow_right one_lt_two hbit)
  rw [not_lt] at hmask hflip
  simp [pass, entries, hmask, hflip]

theorem entries_rounds (hc : c.length = 2 ^ k) (hn : n ≤ k) :
    ((range n).foldl (fun c bit => (range (2 ^ k)).foldl (mobiusStep bit) c) c).length = 2 ^ k ∧
      entries ((range n).foldl (fun c bit => (range (2 ^ k)).foldl (mobiusStep bit) c) c) =
        (range n).foldl pass (entries c) := by
  induction n with
  | zero => exact ⟨hc, rfl⟩
  | succ n ih =>
    obtain ⟨hlength, hentries⟩ := ih (le_of_succ_le hn)
    have hround := entries_round hlength hn
    rw [hlength, hentries] at hround
    rw [range_succ, foldl_append, foldl_append]
    exact ⟨(foldl_mobiusStep hlength.ge).1.trans hlength, hround⟩

section
variable (g : Nat → R)

/-- Folding after a round is a round of the next lower bit after folding. -/
theorem fold_pass_succ (bit : Nat) :
    (fun i => pass g (bit + 1) (2 * i) + pass g (bit + 1) (2 * i + 1) * r) =
      pass (fun i => g (2 * i) + g (2 * i + 1) * r) bit := by
  funext i
  have hflip : (2 * i) ^^^ 2 ^ (bit + 1) = 2 * (i ^^^ 2 ^ bit) ∧
      (2 * i + 1) ^^^ 2 ^ (bit + 1) = 2 * (i ^^^ 2 ^ bit) + 1 := by
    constructor
    · simpa [bit_val, pow_succ'] using xor_bit false i false (2 ^ bit)
    · simpa [bit_val, pow_succ'] using xor_bit true i false (2 ^ bit)
  have hbit : (2 * i).testBit (bit + 1) = i.testBit bit ∧
      (2 * i + 1).testBit (bit + 1) = i.testBit bit := by
    constructor <;> rw [testBit_succ] <;> congr 1 <;> omega
  simp only [pass, hflip, hbit]
  split <;> ring

theorem passes_succ (k : Nat) :
    (range (k + 1)).foldl pass g = pass ((range k).foldl pass g) k := by
  rw [range_succ, foldl_append]
  rfl

/-- Folding the coefficients of a table gives the coefficients of the folded table. -/
theorem fold_passes :
    (fun i => (range (k + 1)).foldl pass g (2 * i) + (range (k + 1)).foldl pass g (2 * i + 1) * r) =
      (range k).foldl pass fun i => g (2 * i) + (g (2 * i + 1) - g (2 * i)) * r := by
  induction k with
  | zero =>
    funext i
    have heven : (2 * i + 1) ^^^ 1 = 2 * i := by
      simpa [bit_val] using xor_bit true i true 0
    simp [pass, heven]
  | succ k ih =>
    rw [passes_succ _ k, ← ih, ← fold_pass_succ, passes_succ _ (k + 1)]

theorem mapPairs_spec (hf : f 0 0 = 0) (hc : c.length = 2 * n) :
    (mapPairs f c).length = n ∧
      entries (mapPairs f c) = fun i => f (entries c (2 * i)) (entries c (2 * i + 1)) := by
  induction n generalizing c with
  | zero =>
    obtain rfl := length_eq_zero_iff.1 hc
    exact ⟨rfl, funext fun i => hf.symm⟩
  | succ n ih =>
    match c, hc with
    | a :: b :: rest, hc =>
      obtain ⟨hlength, hentries⟩ := ih (c := rest) (by simp at hc; omega)
      refine ⟨by simp [mapPairs, hlength], funext fun i => ?_⟩
      cases i with
      | zero => rfl
      | succ i => exact congrFun hentries i

theorem foldPairs_spec (hf : f 0 0 = 0) (hc : c.length = 2 ^ (k + 1)) :
    ∃ folded, foldPairs f c = .ok folded ∧ folded.length = 2 ^ k ∧
      entries folded = fun i => f (entries c (2 * i)) (entries c (2 * i + 1)) := by
  have hne : c.length ≠ 1 := by
    rw [hc]
    exact (Nat.one_lt_two_pow k.succ_ne_zero).ne'
  refine ⟨mapPairs f c, ?_, mapPairs_spec hf (hc.trans (pow_succ' 2 k))⟩
  rw [foldPairs, tableDimension_eq hc, ok_bind, if_neg hne]
  rfl

/-- The coordinates that an index selects, multiplied. -/
def monomial (point : List R) (mask : Nat) : R :=
  ∏ i : Fin point.length, if mask.testBit i then point[i] else 1

theorem monomial_cons (r : R) (point : List R) (mask : Nat) :
    monomial (r :: point) mask = (if mask.testBit 0 then r else 1) * monomial point (mask / 2) := by
  simp [monomial, Fin.prod_univ_succ, testBit_succ]

/-- The sum over the indexes pairs up neighbours. -/
theorem sum_fold (point : List R) (n : Nat) :
    ∑ mask ∈ Finset.range (2 * n), g mask * monomial (r :: point) mask =
      ∑ i ∈ Finset.range n, (g (2 * i) + g (2 * i + 1) * r) * monomial point i := by
  induction n with
  | zero => rfl
  | succ n ih =>
    have hhalf : (2 * n + 1) / 2 = n := by omega
    rw [mul_add_one, Finset.sum_range_succ, Finset.sum_range_succ, ih, Finset.sum_range_succ,
      monomial_cons, monomial_cons, hhalf]
    simp
    ring

end

theorem fold_point (htable : table.length = 2 ^ point.length) (hc : c.length = 2 ^ point.length)
    (hentries : entries c = (range point.length).foldl pass (entries table)) :
    ∃ v, point.foldlM foldMleTable table = .ok [v] ∧
      point.foldlM foldMleCoefficients c = .ok [v] ∧
      v = ∑ mask ∈ Finset.range (2 ^ point.length), entries c mask * monomial point mask ∧
      ∀ index < 2 ^ point.length, (∀ i, (hi : i < point.length) →
        point[i] = if index.testBit i then 1 else 0) → v = entries table index := by
  induction point generalizing table c with
  | nil =>
    obtain ⟨v, rfl⟩ := length_eq_one_iff.1 htable
    obtain ⟨w, rfl⟩ := length_eq_one_iff.1 hc
    obtain rfl : w = v := congrFun hentries 0
    refine ⟨w, rfl, rfl, by simp [entries, monomial], fun index hindex _ => ?_⟩
    obtain rfl : index = 0 := by simpa using hindex
    rfl
  | cons r point ih =>
    obtain ⟨table', hround, hlength, hpairs⟩ :=
      foldPairs_spec (f := fun low high => low + (high - low) * r) (by simp) htable
    obtain ⟨c', hround', hlength', hpairs'⟩ :=
      foldPairs_spec (f := fun low high => low + high * r) (by simp) hc
    obtain ⟨v, heval, hfold, hsum, hpoint⟩ := ih hlength hlength' (by
      rw [hpairs', hpairs, hentries]
      exact fold_passes _)
    refine ⟨v, ?_, ?_, ?_, fun index hindex hbits => ?_⟩
    · rw [foldlM_cons, foldMleTable, hround, ok_bind, heval]
    · rw [foldlM_cons, foldMleCoefficients, hround', ok_bind, hfold]
    · rw [length_cons, pow_succ', sum_fold, hsum, hpairs']
    · rw [length_cons, pow_succ'] at hindex
      have hlow : r = if index.testBit 0 then 1 else 0 := hbits 0 (succ_pos _)
      have hhigh := hpoint (index / 2) (by omega) fun i hi => by
        simpa [testBit_succ] using hbits (i + 1) (succ_lt_succ hi)
      rw [hpairs, hlow] at hhigh
      obtain ⟨half, rfl | rfl⟩ := index.even_or_odd'
      · simpa using hhigh
      · simpa [show (2 * half + 1) / 2 = half by omega] using hhigh

/-- Folding the Möbius coefficients by the coordinates of a point evaluates the table there. -/
theorem mobius_evaluates (table point : List R) (h : table.length = 2 ^ point.length) :
    ∃ c v, booleanMobiusCoefficients table = .ok c ∧ evaluateMle table point = .ok v ∧
      point.foldlM foldMleCoefficients c = .ok [v] ∧
      v = ∑ mask ∈ Finset.range (2 ^ point.length), entries c mask * monomial point mask ∧
      ∀ index < 2 ^ point.length, (∀ i, (hi : i < point.length) →
        point[i] = if index.testBit i then 1 else 0) → v = entries table index := by
  obtain ⟨hlength, hentries⟩ := entries_rounds h point.length.le_refl
  obtain ⟨v, heval, hfold, hsum, hpoint⟩ := fold_point h hlength hentries
  refine ⟨_, v, ?_, ?_, hfold, hsum, hpoint⟩
  · rw [booleanMobiusCoefficients, tableDimension_eq h, ok_bind, h]
    rfl
  · rw [evaluateMle, tableDimension_eq h, ok_bind, if_neg (not_not.2 rfl), heval]
    rfl

theorem mobius_evaluates_square :
    ∃ v, evaluateMle [3, 1, 4, (1 : Int)] [1, 0] = .ok v ∧ v = 1 := by
  obtain ⟨_, v, -, heval, -, -, hpoint⟩ := mobius_evaluates [3, 1, 4, (1 : Int)] [1, 0] rfl
  exact ⟨v, heval, hpoint 1 (by decide) (by decide)⟩

end MiniDregg.Prover
