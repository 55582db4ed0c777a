import MiniDregg.Text.Json

/-!
# JSON values

Parsed JSON as the readers of the source see it: a tree with lookup by field
name and by pointer, and the projections that answer `none` on a value of
another kind.

## Implementation notes

An object is the list of its fields. The parser keeps one field of a name, and
lookups take the first. Only unsigned integers are ever read as numbers, so a
fractional number is kept as its text.
-/

namespace MiniDregg.Text

inductive Number
  | posInt (n : UInt64)
  | negInt (magnitude : Nat)
  | float (text : String)
  deriving DecidableEq

inductive Value
  | null
  | bool (b : Bool)
  | number (n : Number)
  | string (s : String)
  | array (items : List Value)
  | object (fields : List (String × Value))

namespace Value

def isNull : Value → Bool
  | null => true
  | _ => false

/-- `Value::get` with a field name. -/
def get (name : String) : Value → Option Value
  | object fields => fields.lookup name
  | _ => none

def asStr : Value → Option String
  | string s => some s
  | _ => none

/-- A field that holds a text. -/
def text (name : String) (v : Value) : Option String := (v.get name).bind asStr

def asU64 : Value → Option Nat
  | number (.posInt n) => some n.toNat
  | _ => none

def asArray : Value → Option (List Value)
  | array items => some items
  | _ => none

/-- A field that holds an array. -/
def items (name : String) (v : Value) : Option (List Value) := (v.get name).bind asArray

/-- A field is smaller than the object. -/
theorem sizeOf_get_lt {name : String} {v w : Value} (h : v.get name = some w) :
    sizeOf w < sizeOf v := by
  cases v with
  | object fields =>
    obtain ⟨first, rest, rfl, -⟩ := List.lookup_eq_some_iff.1 h
    have hfield : (name, w) ∈ first ++ (name, w) :: rest := by simp
    have hlt := List.sizeOf_lt_of_mem hfield
    simp only [object.sizeOf_spec, Prod.mk.sizeOf_spec] at hlt ⊢
    omega
  | _ => cases h

theorem sizeOf_items_lt {name : String} {v p : Value} (hp : p ∈ (v.items name).getD []) :
    sizeOf p < sizeOf v := by
  unfold items at hp
  cases hget : v.get name with
  | none => simp [hget] at hp
  | some w =>
    rw [hget] at hp
    cases w with
    | array items =>
      have hmem : p ∈ items := hp
      have hlt := List.sizeOf_lt_of_mem hmem
      have hfield := sizeOf_get_lt hget
      simp only [array.sizeOf_spec] at hfield
      omega
    | _ => cases hp

def asObject : Value → Option (List (String × Value))
  | object fields => some fields
  | _ => none

/-- The index a pointer token names in an array: no sign and no leading zero. -/
def parseIndex (token : String) : Option Nat :=
  match token.toList with
  | '0' :: _ :: _ => none
  | digits => readNat digits

/-- `Value::pointer`, the pointer given as its tokens. -/
def pointer : List String → Value → Option Value
  | [], v => some v
  | token :: rest, object fields => (fields.lookup token).bind (pointer rest)
  | token :: rest, array items =>
    ((parseIndex token).bind fun i => items[i]?).bind (pointer rest)
  | _ :: _, _ => none

end Value

end MiniDregg.Text
