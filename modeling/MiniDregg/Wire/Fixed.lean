import Mathlib.Logic.Equiv.Defs
import MiniDregg.Wire.Delimited
import MiniDregg.Wire.Words

/-!
# Fields of fixed length

Byte strings of a known length carry that length in their type, so a field read from
the wire needs no later check. Machine words are such fields through their
little-endian bytes.
-/

namespace MiniDregg.Wire

variable {α β ε : Type*}

/-- A byte string of a fixed length. -/
abbrev Fixed (n : Nat) := {b : List UInt8 // b.length = n}

/-- The zero bytes of a length. -/
def Fixed.zeros (n : Nat) : Fixed n := ⟨List.replicate n 0, List.length_replicate⟩

/-- The first `n` bytes; an input that has fewer is refused. -/
def Reader.fixed (n : Nat) (short : ε) : Reader ε (Fixed n) := fun b =>
  if h : n ≤ b.length then .ok (⟨b.take n, by simp [h]⟩, b.drop n) else .error short

/-- A field of `n` bytes. -/
def Codec.fixed (n : Nat) (short : ε) : Codec ε (Fixed n) where
  put b := b.1
  get := Reader.fixed n short
  valid _ := True
  get_put := by
    rintro ⟨b, rfl⟩ rest _
    simp [Reader.fixed]
  put_get := by
    intro b a rest h
    unfold Reader.fixed at h
    split at h
    · cases h
      exact ⟨trivial, (List.take_append_drop n b).symm⟩
    · cases h

/-- A field read through a one-to-one translation. -/
def Codec.equiv (c : Codec ε α) (e : β ≃ α) : Codec ε β where
  put b := c.put (e b)
  get input :=
    match c.get input with
    | .ok (a, rest) => .ok (e.symm a, rest)
    | .error x => .error x
  valid b := c.valid (e b)
  get_put := by
    intro b rest hb
    simp only [c.get_put _ rest hb, Equiv.symm_apply_apply]
  put_get := by
    intro input b rest h
    split at h
    next a r hget =>
      cases h
      simpa using c.put_get _ _ _ hget
    · cases h

theorem fromLeBytes_lt (b : List UInt8) : fromLeBytes b < 256 ^ b.length := by
  induction b with
  | nil => simp [fromLeBytes]
  | cons x rest ih =>
    have hx := x.toNat_lt
    rw [fromLeBytes, List.length_cons, Nat.pow_succ]
    omega

/-- A 16-bit word and its two bytes. -/
def wordBytes16 : UInt16 ≃ Fixed 2 where
  toFun n := ⟨toLeBytes 2 n.toNat, length_toLeBytes 2 _⟩
  invFun b := UInt16.ofNat (fromLeBytes b.1)
  left_inv n := by
    simp only [fromLeBytes_toLeBytes (show n.toNat < 256 ^ 2 from n.toNat_lt), UInt16.ofNat_toNat]
  right_inv b := by
    obtain ⟨b, hb⟩ := b
    have hlt := fromLeBytes_lt b
    rw [hb] at hlt
    apply Subtype.ext
    simp only [UInt16.toNat_ofNat_of_lt' (show fromLeBytes b < UInt16.size from hlt)]
    rw [← hb, toLeBytes_fromLeBytes]

/-- A 64-bit word and its eight bytes. -/
def wordBytes64 : UInt64 ≃ Fixed 8 where
  toFun n := ⟨toLeBytes 8 n.toNat, length_toLeBytes 8 _⟩
  invFun b := UInt64.ofNat (fromLeBytes b.1)
  left_inv n := by
    simp only [fromLeBytes_toLeBytes (show n.toNat < 256 ^ 8 from n.toNat_lt), UInt64.ofNat_toNat]
  right_inv b := by
    obtain ⟨b, hb⟩ := b
    have hlt := fromLeBytes_lt b
    rw [hb] at hlt
    apply Subtype.ext
    simp only [UInt64.toNat_ofNat_of_lt' (show fromLeBytes b < UInt64.size from hlt)]
    rw [← hb, toLeBytes_fromLeBytes]

end MiniDregg.Wire
