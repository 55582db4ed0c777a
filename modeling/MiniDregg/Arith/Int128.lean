import Mathlib.Algebra.Order.BigOperators.Group.List
import Mathlib.Tactic.Ring

/-!
# 128-bit machine integers

Unsigned and signed words carry their range. Plain operators wrap, as they do
in a release build; the `saturating` operators stop at the ends of the range.
The second half says when a saturating accumulation is the exact sum.
-/

namespace MiniDregg.Arith

open List

/-- An unsigned 128-bit word. -/
structure U128 where
  toNat : ℕ
  lt : toNat < 2 ^ 128
  deriving DecidableEq

/-- A signed 128-bit word. -/
structure I128 where
  toInt : ℤ
  lower : -2 ^ 127 ≤ toInt
  upper : toInt < 2 ^ 127
  deriving DecidableEq

namespace U128

variable {a b : U128}

theorem ext (h : a.toNat = b.toNat) : a = b := by
  cases a
  cases b
  simpa using h

theorem toNat_injective : Function.Injective toNat := fun _ _ h => ext h

/-- The low 128 bits of a number. -/
def ofNat (n : ℕ) : U128 := ⟨n % 2 ^ 128, Nat.mod_lt _ (by decide)⟩

instance (n : ℕ) : OfNat U128 n := ⟨ofNat n⟩

instance : LinearOrder U128 := LinearOrder.lift' toNat toNat_injective

theorem le_iff : a ≤ b ↔ a.toNat ≤ b.toNat := Iff.rfl

theorem lt_iff : a < b ↔ a.toNat < b.toNat := Iff.rfl

theorem ne_iff : a ≠ b ↔ a.toNat ≠ b.toNat :=
  toNat_injective.ne_iff.symm

/-- The largest word. -/
def maxValue : U128 := ⟨2 ^ 128 - 1, by decide⟩

section
variable (a b : U128)

def saturatingMul : U128 :=
  ⟨Nat.min (a.toNat * b.toNat) (2 ^ 128 - 1),
    lt_of_le_of_lt (Nat.min_le_right _ _) (by decide)⟩

/-- Wrapping addition. -/
def add : U128 := ofNat (a.toNat + b.toNat)

/-- Wrapping subtraction. -/
def sub : U128 := ofNat (a.toNat + 2 ^ 128 - b.toNat)

/-- The distance of two words. -/
def absDiff : U128 :=
  ⟨(a.toNat - b.toNat) + (b.toNat - a.toNat), by
    have ha := a.lt
    have hb := b.lt
    omega⟩

def div : U128 :=
  ⟨a.toNat / b.toNat, lt_of_le_of_lt (Nat.div_le_self _ _) a.lt⟩

def divCeil : U128 :=
  ofNat (a.toNat / b.toNat + if a.toNat % b.toNat = 0 then 0 else 1)

end

/-- A wrapping sum, as an iterator computes it. -/
def sum (l : List U128) : U128 := l.foldl add 0

@[simp] theorem toNat_ofNat (n : ℕ) : (ofNat n).toNat = n % 2 ^ 128 := rfl

@[simp] theorem toNat_zero : (0 : U128).toNat = 0 := rfl

theorem toNat_ofNat_of_lt {n : ℕ} (h : n < 2 ^ 128) : (ofNat n).toNat = n := Nat.mod_eq_of_lt h

theorem toNat_saturatingMul_of_lt (h : a.toNat * b.toNat < 2 ^ 128) :
    (a.saturatingMul b).toNat = a.toNat * b.toNat := by
  change Nat.min _ _ = _
  exact Nat.min_eq_left (by omega)

theorem toNat_min (a b : U128) : (min a b).toNat = min a.toNat b.toNat := by
  rcases le_total a b with h | h
  · rw [min_eq_left h, min_eq_left (le_iff.1 h)]
  · rw [min_eq_right h, min_eq_right (le_iff.1 h)]

theorem toNat_sub_of_le (h : b ≤ a) : (a.sub b).toNat = a.toNat - b.toNat := by
  have hle := le_iff.1 h
  have ha := a.lt
  rw [sub, toNat_ofNat]
  omega

private theorem toNat_foldl_add (l : List U128) (a : U128)
    (h : a.toNat + (l.map toNat).sum < 2 ^ 128) :
    (l.foldl add a).toNat = a.toNat + (l.map toNat).sum := by
  induction l generalizing a with
  | nil => simp
  | cons x rest ih =>
    simp only [map_cons, sum_cons] at h
    have hadd : (a.add x).toNat = a.toNat + x.toNat := toNat_ofNat_of_lt (by omega)
    rw [foldl_cons, ih (a.add x) (by omega), hadd, map_cons, sum_cons]
    omega

/-- A sum that fits is exact. -/
theorem toNat_sum {l : List U128} (h : (l.map toNat).sum < 2 ^ 128) :
    (sum l).toNat = (l.map toNat).sum := by
  have hfold := toNat_foldl_add l 0 (by simpa using h)
  simpa [sum] using hfold

end U128

namespace I128

variable {a b : I128}

theorem ext (h : a.toInt = b.toInt) : a = b := by
  cases a
  cases b
  simpa using h

theorem toInt_injective : Function.Injective toInt := fun _ _ h => ext h

/-- The signed word with the same low 128 bits. -/
def wrap (x : ℤ) : I128 :=
  ⟨(x + 2 ^ 127) % 2 ^ 128 - 2 ^ 127, by omega, by omega⟩

/-- The nearest signed word. -/
def clamp (x : ℤ) : I128 :=
  ⟨max (-2 ^ 127) (min x (2 ^ 127 - 1)), by omega, by omega⟩

instance (n : ℕ) : OfNat I128 n := ⟨wrap n⟩

instance : Neg I128 := ⟨fun a => wrap (-a.toInt)⟩

instance : Add I128 := ⟨fun a b => wrap (a.toInt + b.toInt)⟩

instance : Sub I128 := ⟨fun a b => wrap (a.toInt - b.toInt)⟩

instance : Mul I128 := ⟨fun a b => wrap (a.toInt * b.toInt)⟩

instance : LinearOrder I128 := LinearOrder.lift' toInt toInt_injective

theorem le_iff : a ≤ b ↔ a.toInt ≤ b.toInt := Iff.rfl

theorem eq_iff : a = b ↔ a.toInt = b.toInt := toInt_injective.eq_iff.symm

def saturatingAdd (a b : I128) : I128 := clamp (a.toInt + b.toInt)

def saturatingSub (a b : I128) : I128 := clamp (a.toInt - b.toInt)

def saturatingMul (a b : I128) : I128 := clamp (a.toInt * b.toInt)

theorem toInt_wrap (x : ℤ) : (wrap x).toInt = (x + 2 ^ 127) % 2 ^ 128 - 2 ^ 127 := rfl

theorem toInt_clamp (x : ℤ) : (clamp x).toInt = max (-2 ^ 127) (min x (2 ^ 127 - 1)) := rfl

theorem toInt_wrap_of_mem {x : ℤ} (hlow : -2 ^ 127 ≤ x) (hup : x < 2 ^ 127) :
    (wrap x).toInt = x := by
  rw [toInt_wrap]
  omega

theorem toInt_clamp_of_mem {x : ℤ} (hlow : -2 ^ 127 ≤ x) (hup : x < 2 ^ 127) :
    (clamp x).toInt = x := by
  rw [toInt_clamp]
  omega

theorem toInt_neg (a : I128) : (-a).toInt = (-a.toInt + 2 ^ 127) % 2 ^ 128 - 2 ^ 127 := rfl

@[simp] theorem toInt_zero : (0 : I128).toInt = 0 := rfl

@[simp] theorem toInt_one : (1 : I128).toInt = 1 := rfl

@[simp] theorem toInt_neg_one : (-1 : I128).toInt = -1 := rfl

end I128

/-- The cast of an unsigned word to a signed one keeps the bits. -/
def U128.toI128 (a : U128) : I128 := I128.wrap a.toNat

/-- The cast of a signed word to an unsigned one keeps the bits. -/
def I128.toU128 (a : I128) : U128 := U128.ofNat (a.toInt % 2 ^ 128).toNat

theorem U128.toInt_toI128_of_lt {a : U128} (h : a.toNat < 2 ^ 127) : a.toI128.toInt = a.toNat :=
  I128.toInt_wrap_of_mem (by omega) (by omega)

/-- A word in the upper half becomes negative. -/
theorem U128.toInt_toI128_of_le {a : U128} (h : 2 ^ 127 ≤ a.toNat) :
    a.toI128.toInt = a.toNat - 2 ^ 128 := by
  have ha := a.lt
  rw [U128.toI128, I128.toInt_wrap]
  omega

theorem U128.toInt_toI128_le (a : U128) : a.toI128.toInt ≤ a.toNat := by
  rcases Nat.lt_or_ge a.toNat (2 ^ 127) with h | h
  · exact (U128.toInt_toI128_of_lt h).le
  · have := U128.toInt_toI128_of_le h
    omega

/-! ## Saturating accumulations -/

namespace I128

/-- The loop `acc = acc.saturating_add(x)`. -/
def saturatingSum (a : I128) (l : List I128) : I128 := l.foldl saturatingAdd a

@[simp] theorem saturatingSum_nil (a : I128) : saturatingSum a [] = a := rfl

@[simp] theorem saturatingSum_cons (a x : I128) (l : List I128) :
    saturatingSum a (x :: l) = saturatingSum (a.saturatingAdd x) l := rfl

variable {l : List I128}

/-- Nonnegative terms saturate only at the top: the loop returns the exact sum,
cut at the largest word. -/
theorem toInt_saturatingSum_of_nonneg (hl : ∀ x ∈ l, 0 ≤ x.toInt) (a : I128) (ha : 0 ≤ a.toInt) :
    (saturatingSum a l).toInt = min (a.toInt + (l.map toInt).sum) (2 ^ 127 - 1) := by
  induction l generalizing a with
  | nil =>
    have := a.upper
    simp only [saturatingSum_nil, map_nil, sum_nil]
    omega
  | cons x rest ih =>
    have hx := hl x (by simp)
    have hrest : 0 ≤ (rest.map toInt).sum :=
      sum_nonneg (forall_mem_map.2 fun y hy => hl y (by simp [hy]))
    have hstep : (a.saturatingAdd x).toInt = min (a.toInt + x.toInt) (2 ^ 127 - 1) := by
      rw [saturatingAdd, toInt_clamp]
      omega
    rw [saturatingSum_cons, ih (fun y hy => hl y (by simp [hy])) _ (by omega), hstep]
    simp only [map_cons, sum_cons]
    omega

/-- Taking nonnegative terms away saturates only at the bottom. -/
theorem toInt_foldl_saturatingSub_of_nonneg (hl : ∀ x ∈ l, 0 ≤ x.toInt) (a : I128)
    (ha : a.toInt ≤ 0) :
    (l.foldl saturatingSub a).toInt = max (a.toInt - (l.map toInt).sum) (-2 ^ 127) := by
  induction l generalizing a with
  | nil =>
    have := a.lower
    simp only [foldl_nil, map_nil, sum_nil]
    omega
  | cons x rest ih =>
    have hx := hl x (by simp)
    have hrest : 0 ≤ (rest.map toInt).sum :=
      sum_nonneg (forall_mem_map.2 fun y hy => hl y (by simp [hy]))
    have hstep : (a.saturatingSub x).toInt = max (a.toInt - x.toInt) (-2 ^ 127) := by
      rw [saturatingSub, toInt_clamp]
      omega
    rw [foldl_cons, ih (fun y hy => hl y (by simp [hy])) _ (by omega), hstep]
    simp only [map_cons, sum_cons]
    omega

/-- Terms whose absolute values have a sum in range never saturate. -/
theorem toInt_saturatingSum_of_abs_lt (a : I128)
    (h : |a.toInt| + (l.map fun x => |x.toInt|).sum < 2 ^ 127) :
    (saturatingSum a l).toInt = a.toInt + (l.map toInt).sum := by
  induction l generalizing a with
  | nil => simp
  | cons x rest ih =>
    have hrest : 0 ≤ (rest.map fun y => |y.toInt|).sum :=
      sum_nonneg (forall_mem_map.2 fun _ _ => abs_nonneg _)
    simp only [map_cons, sum_cons] at h
    have hstep : (a.saturatingAdd x).toInt = a.toInt + x.toInt := by
      have habs := abs_add_le a.toInt x.toInt
      have hlow := neg_abs_le (a.toInt + x.toInt)
      have hup := le_abs_self (a.toInt + x.toInt)
      exact toInt_clamp_of_mem (by omega) (by omega)
    have habs := abs_add_le a.toInt x.toInt
    rw [saturatingSum_cons, ih _ (by rw [hstep]; omega), hstep, map_cons, sum_cons]
    omega

/-- A loop and its mirror image, which adds the negated terms, cannot both
return to zero after either of them has saturated. -/
theorem sum_eq_zero_of_mirrored {α : Type*} {f g : α → I128} {l : List α}
    (hfg : ∀ x ∈ l, (g x).toInt = -(f x).toInt) (hf : saturatingSum 0 (l.map f) = 0)
    (hg : saturatingSum 0 (l.map g) = 0) : (l.map fun x => (f x).toInt).sum = 0 := by
  suffices h : ∀ (a b : I128) (s : ℤ),
      (a.toInt = s ∧ b.toInt = -s) ∨ a.toInt + b.toInt = -1 →
      saturatingSum a (l.map f) = 0 → saturatingSum b (l.map g) = 0 →
      s + (l.map fun x => (f x).toInt).sum = 0 by
    simpa using h 0 0 0 (Or.inl ⟨rfl, rfl⟩) hf hg
  clear hf hg
  induction l with
  | nil =>
    rintro a b s hab ha hb
    have ha0 := congrArg toInt ha
    have hb0 := congrArg toInt hb
    simp only [map_nil, saturatingSum_nil, toInt_zero, sum_nil] at ha0 hb0 ⊢
    omega
  | cons x rest ih =>
    rintro a b s hab ha hb
    have hx := hfg x (by simp)
    simp only [map_cons, saturatingSum_cons, sum_cons] at ha hb ⊢
    have hstep : ((a.saturatingAdd (f x)).toInt = s + (f x).toInt ∧
          (b.saturatingAdd (g x)).toInt = -(s + (f x).toInt)) ∨
        (a.saturatingAdd (f x)).toInt + (b.saturatingAdd (g x)).toInt = -1 := by
      simp only [saturatingAdd, toInt_clamp, hx]
      omega
    have := ih (fun y hy => hfg y (by simp [hy])) _ _ _ hstep ha hb
    omega

end I128

end MiniDregg.Arith
