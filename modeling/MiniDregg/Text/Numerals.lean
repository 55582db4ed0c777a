import Mathlib.Data.Nat.Digits.Lemmas

/-!
# Decimal numerals

Integers as decimal text: the reader takes an optional sign and digits, the
canonical spelling has no leading zero and no negative zero, and the printer
writes the canonical spelling. A canonical numeral is what the printer writes
for the integer it reads as, so canonical numerals of one integer are equal.
-/

namespace MiniDregg

open List Char

/-- Text as its sequence of characters. -/
abbrev Text := List Char

/-- String literals stand for their texts. -/
instance : Coe String Text := ⟨String.toList⟩

namespace Text

/-- The value of an ASCII digit. -/
def digitValue (c : Char) : Nat := c.toNat - 48

/-- The ASCII digit of a value below ten. -/
def digitChar (d : Nat) : Char := ofNat (48 + d)

/-- The value of a sequence of digits, most significant first. -/
def digitsValue (ds : Text) : Nat := Nat.ofDigits 10 (ds.reverse.map digitValue)

/-- Read one or more digits. -/
def readNat (ds : Text) : Option Nat :=
  if ds ≠ [] ∧ ds.all isDigit then some (digitsValue ds) else none

/-- Read digits behind an optional sign, at any width. -/
def readInt : Text → Option Int
  | '-' :: ds => (readNat ds).map fun n => -(n : Int)
  | '+' :: ds => (readNat ds).map fun n => (n : Int)
  | ds => (readNat ds).map fun n => (n : Int)

/-- Print a natural number. -/
def natText (n : Nat) : Text :=
  if n = 0 then ['0'] else (Nat.digits 10 n).reverse.map digitChar

/-- Print an integer. -/
def decimal : Int → Text
  | .ofNat n => natText n
  | .negSucc n => '-' :: natText (n + 1)

/-- A numeral without its minus sign. -/
def magnitude : Text → Text
  | '-' :: ds => ds
  | ds => ds

/-- Digits with no leading zero, unless zero is all there is. -/
structure CanonicalNat (ds : Text) : Prop where
  nonempty : ds ≠ []
  digits : ∀ c ∈ ds, c.isDigit
  noLeadingZero : ∀ rest, ds = '0' :: rest → rest = []

/-- A canonical magnitude, with a minus sign on a nonzero one only. -/
structure Canonical (t : Text) : Prop where
  magnitude : CanonicalNat (magnitude t)
  noNegativeZero : t ≠ ['-', '0']

variable {c : Char} {ds t : Text}

theorem isDigit_iff : c.isDigit ↔ 48 ≤ c.toNat ∧ c.toNat ≤ 57 := by
  simp only [isDigit, Bool.and_eq_true, decide_eq_true_eq, Char.toNat]
  exact Iff.rfl

theorem digitValue_lt (h : c.isDigit) : digitValue c < 10 := by
  obtain ⟨hlo, hhi⟩ := isDigit_iff.1 h
  unfold digitValue
  omega

theorem digitChar_digitValue (h : c.isDigit) : digitChar (digitValue c) = c := by
  obtain ⟨hlo, -⟩ := isDigit_iff.1 h
  have hback : 48 + (c.toNat - 48) = c.toNat := by omega
  rw [digitChar, digitValue, hback, ofNat_toNat]

theorem digitChar_spec : ∀ d < 10, (digitChar d).isDigit ∧ digitValue (digitChar d) = d := by
  decide

theorem digitValue_eq_zero (h : c.isDigit) (hzero : digitValue c = 0) : c = '0' := by
  rw [← digitChar_digitValue h, hzero]
  rfl

theorem natText_ne_nil (n : Nat) : natText n ≠ [] := by
  unfold natText
  split
  · simp
  next hn =>
    simpa using Nat.digits_ne_nil_iff_ne_zero.2 hn

theorem natText_isDigit {n : Nat} (hc : c ∈ natText n) : c.isDigit := by
  unfold natText at hc
  split at hc
  · rw [mem_singleton.1 hc]
    decide
  · obtain ⟨d, hd, rfl⟩ := mem_map.1 hc
    exact (digitChar_spec d (Nat.digits_lt_base (by decide) (mem_reverse.1 hd))).1

theorem map_digitValue_digitChar {l : List Nat} (h : ∀ d ∈ l, d < 10) :
    (l.map digitChar).map digitValue = l := by
  rw [map_map]
  exact (map_congr_left fun d hd => (digitChar_spec d (h d hd)).2).trans (map_id l)

theorem map_digitChar_digitValue (h : ∀ c ∈ ds, c.isDigit) :
    (ds.map digitValue).map digitChar = ds := by
  rw [map_map]
  exact (map_congr_left fun c hc => digitChar_digitValue (h c hc)).trans (map_id ds)

theorem digitsValue_natText (n : Nat) : digitsValue (natText n) = n := by
  unfold natText digitsValue
  split
  next hn =>
    subst hn
    rfl
  · have hlt : ∀ d ∈ Nat.digits 10 n, d < 10 := fun d hd => Nat.digits_lt_base (by decide) hd
    rw [← map_reverse, reverse_reverse, map_digitValue_digitChar hlt,
      Nat.ofDigits_digits]

@[simp] theorem readNat_natText (n : Nat) : readNat (natText n) = some n := by
  have hdigits : (natText n).all isDigit := all_eq_true.2 fun _ => natText_isDigit
  rw [readNat, if_pos ⟨natText_ne_nil n, hdigits⟩, digitsValue_natText]

theorem canonicalNat_natText (n : Nat) : CanonicalNat (natText n) where
  nonempty := natText_ne_nil n
  digits _ := natText_isDigit
  noLeadingZero := by
    intro rest hrest
    unfold natText at hrest
    split at hrest
    · exact (List.cons.inj hrest).2.symm
    next hn =>
      -- The leading digit is the last one of `Nat.digits`, which is not zero.
      have hlast := Nat.getLast_digit_ne_zero 10 hn
      have hne : (Nat.digits 10 n).reverse ≠ [] := by
        simpa using Nat.digits_ne_nil_iff_ne_zero.2 hn
      obtain ⟨d, tail, hd⟩ := exists_cons_of_ne_nil hne
      have hval : (Nat.digits 10 n).getLast (Nat.digits_ne_nil_iff_ne_zero.2 hn) = d := by
        rw [← head_reverse hne]
        simp [hd]
      rw [hd, map_cons] at hrest
      have hmem : d ∈ Nat.digits 10 n := mem_reverse.1 (by simp [hd])
      have hspec := (digitChar_spec d (Nat.digits_lt_base (by decide) hmem)).2
      rw [(List.cons.inj hrest).1] at hspec
      exact absurd (hval.trans hspec.symm) hlast

section
variable (h : CanonicalNat ds)
include h

/-- A canonical magnitude is what the printer writes for its value. -/
theorem CanonicalNat.natText_digitsValue : natText (digitsValue ds) = ds := by
  by_cases hzero : ds = ['0']
  · subst hzero
    rfl
  · -- No digit string but `0` itself starts with a zero, so `Nat.digits` gives the digits back.
    have hdigits : Nat.digits 10 (digitsValue ds) = ds.reverse.map digitValue := by
      refine Nat.digits_ofDigits 10 (by decide) _ ?_ ?_
      · exact forall_mem_map.2 fun c hc => digitValue_lt (h.digits c (mem_reverse.1 hc))
      · intro hne hlast
        obtain ⟨c, rest, rfl⟩ := exists_cons_of_ne_nil h.nonempty
        have hc : digitValue c = 0 := by simpa using hlast
        obtain rfl := digitValue_eq_zero (h.digits c (by simp)) hc
        exact hzero (by rw [h.noLeadingZero rest rfl])
    have hpos : digitsValue ds ≠ 0 := by
      rw [← Nat.digits_ne_nil_iff_ne_zero (b := 10), hdigits]
      simpa using h.nonempty
    rw [natText, if_neg hpos, hdigits, ← map_reverse, reverse_reverse,
      map_digitChar_digitValue h.digits]

theorem CanonicalNat.readNat_eq : readNat ds = some (digitsValue ds) :=
  if_pos ⟨h.nonempty, all_eq_true.2 h.digits⟩

theorem readInt_of_digits : readInt ds = some (digitsValue ds : Int) := by
  obtain ⟨c, rest, rfl⟩ := exists_cons_of_ne_nil h.nonempty
  have hc := h.digits c (by simp)
  have hminus : c ≠ '-' := by rintro rfl; exact absurd hc (by decide)
  have hplus : c ≠ '+' := by rintro rfl; exact absurd hc (by decide)
  rw [readInt.eq_3 _ (by simpa using hminus) (by simpa using hplus), h.readNat_eq]
  rfl

theorem magnitude_of_digits : magnitude ds = ds := by
  obtain ⟨c, rest, rfl⟩ := exists_cons_of_ne_nil h.nonempty
  have hc := h.digits c (by simp)
  have hminus : c ≠ '-' := by rintro rfl; exact absurd hc (by decide)
  exact magnitude.eq_2 _ (by simpa using hminus)

theorem CanonicalNat.canonical : Canonical ds where
  magnitude := by rwa [magnitude_of_digits h]
  noNegativeZero := by
    rintro rfl
    exact absurd (h.digits '-' (by simp)) (by decide)

end

/-- A canonical numeral is a magnitude, or a minus sign and a nonzero magnitude. -/
theorem Canonical.cases (h : Canonical t) :
    CanonicalNat t ∨ ∃ ds, t = '-' :: ds ∧ CanonicalNat ds ∧ digitsValue ds ≠ 0 := by
  have hmag := h.magnitude
  unfold Text.magnitude at hmag
  split at hmag
  next ds =>
    refine .inr ⟨ds, rfl, hmag, fun hzero => h.noNegativeZero ?_⟩
    rw [← hmag.natText_digitsValue, hzero]
    rfl
  · exact .inl hmag

theorem Canonical.of_cons (h : Canonical (c :: ds)) :
    (c = '-' ∨ c.isDigit) ∧ ∀ d ∈ ds, d.isDigit := by
  rcases h.cases with hnat | ⟨ds', heq, hnat, -⟩
  · exact ⟨.inr (hnat.digits c (by simp)), fun d hd => hnat.digits d (mem_cons_of_mem _ hd)⟩
  · obtain ⟨rfl, rfl⟩ := List.cons.inj heq
    exact ⟨.inl rfl, hnat.digits⟩

theorem canonical_decimal (z : Int) : Canonical (decimal z) := by
  cases z with
  | ofNat n => exact (canonicalNat_natText n).canonical
  | negSucc n =>
    refine ⟨canonicalNat_natText (n + 1), fun hzero => ?_⟩
    have hdigits : natText (n + 1) = ['0'] := (List.cons.inj hzero).2
    have hval := digitsValue_natText (n + 1)
    rw [hdigits] at hval
    exact absurd hval (by simp [digitsValue, digitValue])

@[simp] theorem readInt_decimal (z : Int) : readInt (decimal z) = some z := by
  cases z with
  | ofNat n =>
    have h := readInt_of_digits (canonicalNat_natText n)
    rwa [digitsValue_natText] at h
  | negSucc n =>
    have hneg : -((n + 1 : Nat) : Int) = Int.negSucc n := (Int.negSucc_eq n).symm
    rw [decimal, readInt, readNat_natText, ← hneg]
    rfl

/-- A canonical numeral is the printed form of the integer it reads as. -/
theorem Canonical.exists_eq_decimal (h : Canonical t) : ∃ z, t = decimal z := by
  rcases h.cases with hnat | ⟨ds, rfl, hnat, hpos⟩
  · exact ⟨Int.ofNat (digitsValue t), hnat.natText_digitsValue.symm⟩
  · obtain ⟨n, hn⟩ := Nat.exists_eq_succ_of_ne_zero hpos
    refine ⟨Int.negSucc n, ?_⟩
    rw [decimal, ← Nat.succ_eq_add_one, ← hn, hnat.natText_digitsValue]

theorem Canonical.eq_decimal {z : Int} (h : Canonical t) (hz : readInt t = some z) :
    t = decimal z := by
  obtain ⟨z', rfl⟩ := h.exists_eq_decimal
  rw [readInt_decimal] at hz
  rw [Option.some.inj hz]

end Text

end MiniDregg
