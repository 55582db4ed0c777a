import Mathlib.Data.List.Lex

/-!
# The order of byte strings

Byte strings are compared at their first difference, and a beginning comes before the
whole.
-/

namespace MiniDregg.Wire

/-- Byte strings with their order. -/
def Octets := List UInt8

instance : LinearOrder Octets :=
  LinearOrder.lift' (List.map UInt8.toNat) (List.map_injective_iff.2 fun _ _ => UInt8.toNat_inj.1)

end MiniDregg.Wire
