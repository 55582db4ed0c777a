import MiniDregg.PrivateBackend.Correlations
import MiniDregg.Text.Hex
import MiniDregg.Text.JsonValue
import MiniDregg.Wire.Words

/-!
# Entry bytes of a store opening

The spellings of numbers, byte strings and displayed entries that the client
side of the salted store root compares and hashes, after `hiding.rs`.

## Implementation notes

The limb arithmetic of the source is that of natural numbers of any width, so
its naturals are `Nat`. The debug format of refused texts depends on tables of
unprintable characters, which are a parameter.
-/

namespace MiniDregg.Hiding

open Fallible
open PrivateBackend (CodecNat)
open Text (Value)

/-- `Nat::encode`: base-255 digits behind which the byte 255 stands. -/
def encodeNat (n : Nat) : Bytes := (CodecNat.new n).put

/-- `bytes_stream`. -/
def bytesStream (b : Bytes) : Bytes := encodeNat b.length ++ b

theorem bytesStream_delimited : Wire.Delimited bytesStream := PrivateBackend.Reader.bytes_delimited

/-- `nat_prefix`. -/
def natPrefix (b : Bytes) : Result (Nat × Bytes) :=
  match PrivateBackend.splitTerminator b with
  | none => .error "unterminated natural"
  | some (digits, rest) =>
    if digits.getLast? = some 0 then .error "noncanonical natural"
    else .ok (Nat.ofDigits 255 (digits.map UInt8.toNat), rest)

/-- `ok_or`. -/
def orElse {α : Type} (x : Option α) (e : String) : Result α :=
  match x with
  | some a => .ok a
  | none => .error e

@[simp] theorem orElse_eq_ok {α : Type} {x : Option α} {e : String} {a : α} :
    orElse x e = .ok a ↔ x = some a := by
  cases x <;> simp [orElse]

section Decimal
variable (unprintable : Char → Bool)

/-- `Nat::from_decimal`. -/
def fromDecimal (text : Text) : Result Nat :=
  orElse (Text.readNat text)
    ("not a decimal natural: " ++ String.ofList (Text.debug unprintable text))

/-- `decimal_bytes`. -/
def decimalBytes (text : Text) : Result Bytes := do
  let n ← fromDecimal unprintable text
  pure (encodeNat n)

/-- The zigzag code of a negative number, by its magnitude. -/
def negativeBytes (magnitude : Nat) : Result Bytes :=
  if magnitude = 0 then .error "-0 is not a canonical integer"
  else .ok (encodeNat (2 * magnitude - 1))

/-- `int_bytes`. -/
def intBytes : Text → Result Bytes
  | '-' :: rest => do
    let m ← fromDecimal unprintable rest
    negativeBytes m
  | text => do
    let m ← fromDecimal unprintable text
    pure (encodeNat (2 * m))

/-- The field `name` of a displayed key. -/
def keyText (key : Value) (name : String) : Result Text := do
  let s ← orElse ((key.get name).bind Value.asStr) ("declared key lacks " ++ name)
  pure s.toList

/-- A key of a resource and a field. -/
def fieldKeyBytes (tag : UInt8) (key : Value) : Result Bytes := do
  let resource ← keyText key "resource"
  let r ← decimalBytes unprintable resource
  let field ← keyText key "field"
  let f ← decimalBytes unprintable field
  pure (tag :: (r ++ f))

/-- The debug text of an optional string. -/
def debugOption : Option String → String
  | none => "None"
  | some s => "Some(" ++ String.ofList (Text.debug unprintable s.toList) ++ ")"

/-- The bytes of a displayed key. -/
def keyBytes (key : Value) : Result Bytes :=
  match (key.get "type").bind Value.asStr with
  | some "object" => fieldKeyBytes unprintable 0 key
  | some "account" => fieldKeyBytes unprintable 1 key
  | some "program" => do
    let resource ← keyText key "resource"
    let r ← decimalBytes unprintable resource
    pure (2 :: r)
  | other => .error ("declared entry of unknown key type " ++ debugOption unprintable other)

/-- `declared_entry_bytes`. -/
def declaredEntryBytes (entry : Value) : Result Bytes := do
  let key ← orElse (entry.get "key") "declared entry lacks key"
  let k ← keyBytes unprintable key
  let value ← orElse ((entry.get "value").bind Value.asStr) "declared entry lacks value"
  let v ← intBytes unprintable value.toList
  pure (k ++ v)

end Decimal

end MiniDregg.Hiding
