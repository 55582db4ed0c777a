import MiniDregg.Wire.Fixed

/-!
# Big-endian words

Machine words as the bytes of a fixed length, most significant byte first.
-/

namespace MiniDregg.Wire

/-- The `w` low bytes of `n`, most significant first. -/
def toBeBytes (w n : Nat) : List UInt8 := (toLeBytes w n).reverse

@[simp] theorem length_toBeBytes (w n : Nat) : (toBeBytes w n).length = w := by
  simp [toBeBytes]

theorem toBeBytes_inj {w m n : Nat} (hm : m < 256 ^ w) (hn : n < 256 ^ w)
    (h : toBeBytes w m = toBeBytes w n) : m = n := by
  have hbytes := List.reverse_injective h
  rw [← fromLeBytes_toLeBytes hm, hbytes, fromLeBytes_toLeBytes hn]

/-- The bytes of a 32-bit word. -/
def be32 (n : UInt32) : List UInt8 := toBeBytes 4 n.toNat

/-- The bytes of a 64-bit word. -/
def be64 (n : UInt64) : List UInt8 := toBeBytes 8 n.toNat

@[simp] theorem length_be32 (n : UInt32) : (be32 n).length = 4 := length_toBeBytes 4 _

@[simp] theorem length_be64 (n : UInt64) : (be64 n).length = 8 := length_toBeBytes 8 _

theorem be32_injective : Function.Injective be32 := fun m n h =>
  UInt32.toNat_inj.1 (toBeBytes_inj (w := 4) m.toNat_lt n.toNat_lt h)

theorem be64_injective : Function.Injective be64 := fun m n h =>
  UInt64.toNat_inj.1 (toBeBytes_inj (w := 8) m.toNat_lt n.toNat_lt h)

end MiniDregg.Wire
