import MiniDregg.Control.Fallible
import MiniDregg.Text.Json

/-!
# Lower case hexadecimal

The strict decoder of the client library: an even number of lower case digits,
two to a byte, and the spelling it accepts for a byte string.
-/

namespace MiniDregg.Text

open Fallible List

/-- The value of a lower case hexadecimal digit. -/
def hexDigit (c : Char) : Result Nat :=
  if c.isDigit then .ok (c.toNat - 48)
  else if 97 ≤ c.toNat ∧ c.toNat ≤ 102 then .ok (c.toNat - 87)
  else .error "hex must be canonical lowercase"

/-- Digits two by two. A last character without a partner stands behind one of
several bytes, which is no digit. -/
def hexPairs : Text → Result (List UInt8)
  | high :: low :: rest => do
    let h ← hexDigit high
    let l ← hexDigit low
    let bytes ← hexPairs rest
    pure (UInt8.ofNat (16 * h + l) :: bytes)
  | [_] => .error "hex must be canonical lowercase"
  | [] => .ok []

/-- `hex::decode`. -/
def hexDecode (text : String) : Result (List UInt8) := do
  refuseIf (decide (utf8Length text.toList % 2 ≠ 0)) "hex has odd length"
  hexPairs text.toList

/-- The two digits of a byte. -/
def hexByte (b : UInt8) : Text := [hexChar (b.toNat / 16), hexChar (b.toNat % 16)]

/-- `hex::encode`. -/
def hexEncode (b : List UInt8) : String := String.ofList (b.flatMap hexByte)

theorem hexDigit_hexChar : ∀ d < 16, hexDigit (hexChar d) = .ok d := by decide

theorem utf8Size_hexChar : ∀ d < 16, (hexChar d).utf8Size = 1 := by decide

theorem hexPairs_flatMap (b : List UInt8) : hexPairs (b.flatMap hexByte) = .ok b := by
  induction b with
  | nil => rfl
  | cons x b ih =>
    have hx := x.toNat_lt
    have hhigh := hexDigit_hexChar (x.toNat / 16) (by omega)
    have hlow := hexDigit_hexChar (x.toNat % 16) (by omega)
    have hbyte : UInt8.ofNat (16 * (x.toNat / 16) + x.toNat % 16) = x := by
      rw [Nat.div_add_mod, UInt8.ofNat_toNat]
    simp only [flatMap_cons, hexByte, cons_append, nil_append, hexPairs, hhigh,
      hlow, ih, ok_bind, hbyte, pure_eq_ok]

/-- A digit that is read is written the same way. -/
theorem hexChar_of_hexDigit {c : Char} {d : Nat} (h : hexDigit c = .ok d) :
    d < 16 ∧ hexChar d = c := by
  unfold hexDigit at h
  split_ifs at h with hdigit hletter
  · cases h
    have hrange : 48 ≤ c.toNat ∧ c.toNat ≤ 57 := by
      simpa [Char.isDigit, UInt32.le_iff_toNat_le] using hdigit
    refine ⟨by omega, ?_⟩
    rw [hexChar, if_pos (by omega), digitChar, Nat.add_sub_cancel' hrange.1, Char.ofNat_toNat]
  · cases h
    refine ⟨by omega, ?_⟩
    rw [hexChar, if_neg (by omega), Nat.add_sub_cancel' (by omega), Char.ofNat_toNat]

/-- The decoder accepts no other spelling than the encoder's. -/
theorem hexPairs_eq_ok {t : Text} {b : List UInt8} (h : hexPairs t = .ok b) :
    t = b.flatMap hexByte := by
  fun_induction hexPairs t generalizing b with
  | case1 high low rest ih =>
    obtain ⟨hi, hhigh, h⟩ := bind_eq_ok.1 h
    obtain ⟨lo, hlow, h⟩ := bind_eq_ok.1 h
    obtain ⟨bytes, hbytes, h⟩ := bind_eq_ok.1 h
    cases h
    obtain ⟨hhi, rfl⟩ := hexChar_of_hexDigit hhigh
    obtain ⟨hlo, rfl⟩ := hexChar_of_hexDigit hlow
    have hvalue : (UInt8.ofNat (16 * hi + lo)).toNat = 16 * hi + lo := by
      rw [UInt8.toNat_ofNat']
      omega
    have hdiv : (16 * hi + lo) / 16 = hi := by omega
    have hmod : (16 * hi + lo) % 16 = lo := by omega
    simp only [flatMap_cons, hexByte, hvalue, hdiv, hmod, ← ih hbytes, cons_append,
      nil_append]
  | case2 => cases h
  | case3 =>
    cases h
    rfl

theorem utf8Length_flatMap_hexByte (b : List UInt8) :
    utf8Length (b.flatMap hexByte) = 2 * b.length := by
  induction b with
  | nil => rfl
  | cons x b ih =>
    have hx := x.toNat_lt
    have hhigh := utf8Size_hexChar (x.toNat / 16) (by omega)
    have hlow := utf8Size_hexChar (x.toNat % 16) (by omega)
    simp only [flatMap_cons, hexByte, cons_append, nil_append, utf8Length_cons,
      hhigh, hlow, ih, length_cons]
    omega

/-- The decoder reads back every encoded byte string. -/
theorem hexDecode_hexEncode (b : List UInt8) : hexDecode (hexEncode b) = .ok b := by
  have heven : 2 * b.length % 2 = 0 := Nat.mul_mod_right 2 _
  simp only [hexDecode, hexEncode, String.toList_ofList, utf8Length_flatMap_hexByte, heven,
    hexPairs_flatMap, ne_eq, not_true_eq_false, decide_false, refuseIf_false, ok_bind]

end MiniDregg.Text
