import MiniDregg.PrivateBackend.Correlations
import MiniDregg.Wire.Fixed

/-!
# The fields of the wire cursor

The remaining readers of `Cursor`: single bytes, arrays, machine words and canonical
numbers. Each one is the reader of a codec, so that what it accepts is what the writer
would have put there.
-/

namespace MiniDregg.PrivateBackend

open Fallible

namespace Cursor

/-- `Cursor::byte`. -/
def byte : Wire.Reader String UInt8
  | [] => .error "short wire"
  | x :: rest => .ok (x, rest)

/-- `Cursor::take` of a fixed number of bytes, as an array. -/
def take (n : Nat) : Wire.Reader String (Wire.Fixed n) := Wire.Reader.fixed n "short wire"

def u16Codec : Wire.Codec String UInt16 := (Wire.Codec.fixed 2 "short wire").equiv Wire.wordBytes16

def u64Codec : Wire.Codec String UInt64 := (Wire.Codec.fixed 8 "short wire").equiv Wire.wordBytes64

/-- `Cursor::u16`. -/
def u16 : Wire.Reader String UInt16 := u16Codec.get

/-- `Cursor::u64`. -/
def u64 : Wire.Reader String UInt64 := u64Codec.get

/-- `Cursor::nat` cuts out the digits and reads them as a frame of their own. -/
def nat : Wire.Reader String CodecNat := fun b =>
  match splitTerminator b with
  | none => .error "short wire"
  | some (d, rest) => do
    let slice ← Reader.new (d ++ [255])
    let (n, tail) ← Reader.nat slice
    Reader.finish tail
    pure (n, rest)

end Cursor

/-- `to_le_bytes` of a 16-bit word. -/
def le16 (n : UInt16) : Bytes := Wire.toLeBytes 2 n.toNat

/-- `to_le_bytes` of a 64-bit word. -/
def le64 (n : UInt64) : Bytes := Wire.toLeBytes 8 n.toNat

theorem le16_delimited : Wire.Delimited le16 := Cursor.u16Codec.delimited fun _ => trivial

theorem le64_delimited : Wire.Delimited le64 := Cursor.u64Codec.delimited fun _ => trivial

theorem fixed_delimited (n : Nat) : Wire.Delimited fun b : Wire.Fixed n => b.1 :=
  (Wire.Codec.fixed n "short wire").delimited fun _ => trivial

namespace Cursor

variable {b rest : Bytes}

theorem byte_eq_ok {x : UInt8} (h : byte b = .ok (x, rest)) : b = x :: rest := by
  cases b with
  | nil => cases h
  | cons y b =>
    cases h
    rfl

theorem take_eq_ok {n : Nat} {a : Wire.Fixed n} (h : take n b = .ok (a, rest)) : b = a.1 ++ rest :=
  ((Wire.Codec.fixed n "short wire").put_get _ _ _ h).2

theorem u64_eq_ok {n : UInt64} (h : u64 b = .ok (n, rest)) : b = le64 n ++ rest :=
  (u64Codec.put_get _ _ _ h).2

theorem nat_eq_ok {n : CodecNat} (h : nat b = .ok (n, rest)) : b = n.put ++ rest := by
  unfold nat at h
  split at h
  · cases h
  next d r hsplit =>
    simp only [bind_eq_ok, Prod.exists, Reader.finish, refuseIf_eq_ok, pure_inj, Prod.mk.injEq,
      Reader.new] at h
    obtain ⟨slice, ⟨_, -, rfl⟩, m, tail, hm, _, htail, rfl, rfl⟩ := h
    have hnil : tail = [] := by simpa using htail
    have hd := Reader.put_nat hm
    rw [hnil, List.append_nil] at hd
    rw [← hd, List.append_assoc]
    exact (splitTerminator_eq_some hsplit).2

theorem bytes_eq_ok {x : Bytes} (h : bytes b = .ok (x, rest)) :
    b = PrivateBackend.bytes x ++ rest :=
  (bytesCodec.put_get _ _ _ h).2

end Cursor

end MiniDregg.PrivateBackend
