import Mathlib.Data.Nat.Digits.Lemmas
import MiniDregg.Control.Fallible
import MiniDregg.Wire.Codec
import MiniDregg.Wire.Words

/-!
# The canonical codec of the private backend

Numbers travel as little-endian digits in base 255 closed by the byte 255, byte
strings as their length followed by their content. Readers refuse a digit
string that ends in a zero digit, so every value has exactly one spelling.

## Implementation notes

A reader position is the unread suffix of its frame. `usize` is 64 bits wide
and no list here reaches `2^64` bytes, so positions and lengths are `Nat`.
-/

namespace MiniDregg.PrivateBackend

open Fallible List UInt8

/-- The bytes of an ASCII literal. -/
def ascii (s : String) : Bytes := s.toList.map fun c => UInt8.ofNat c.toNat

/-- `codec::MAX`, the bound of every frame and count. -/
def MAX : Nat := 16 * 1024 * 1024

/-- `codec::Nat`: base-255 digits, least significant first, with no trailing
zero digit and no digit equal to the terminator. -/
structure CodecNat where
  digits : Bytes
  digit_ne : ∀ d ∈ digits, d ≠ 255
  canonical : digits.getLast? ≠ some 0

namespace CodecNat

theorem ext_digits {a b : CodecNat} (h : a.digits = b.digits) : a = b := by
  cases a
  cases b
  simpa using h

instance : DecidableEq CodecNat := fun a b =>
  decidable_of_iff (a.digits = b.digits) ⟨ext_digits, congrArg digits⟩

section
variable (n : CodecNat)

/-- The number a digit string stands for. -/
def toNat : Nat := Nat.ofDigits 255 (n.digits.map UInt8.toNat)

private theorem digit_lt : ∀ d ∈ n.digits.map UInt8.toNat, d < 255 := by
  intro d hd
  obtain ⟨x, hx, rfl⟩ := mem_map.1 hd
  have hne : x.toNat ≠ 255 := by
    intro h
    exact n.digit_ne x hx (UInt8.toNat_inj.1 (by simpa using h))
  have hlt := x.toNat_lt
  omega

private theorem ofNat_ne_255 {d : Nat} (h : d < 255) : UInt8.ofNat d ≠ 255 := by
  intro heq
  have := congrArg UInt8.toNat heq
  simp only [toNat_ofNat'] at this
  change d % 256 = 255 at this
  omega

private theorem toNat_digits (m : Nat) :
    ((Nat.digits 255 m).map UInt8.ofNat).map UInt8.toNat = Nat.digits 255 m := by
  rw [map_map]
  refine (map_congr_left ?_).trans (map_id _)
  intro d hd
  have hlt := Nat.digits_lt_base (by decide : 1 < 255) hd
  simp only [Function.comp_apply, toNat_ofNat', id_eq]
  omega

/-- `Nat::new` divides by 255 until nothing is left. -/
def new (m : Nat) : CodecNat where
  digits := (Nat.digits 255 m).map UInt8.ofNat
  digit_ne := by
    intro d hd
    obtain ⟨x, hx, rfl⟩ := mem_map.1 hd
    exact ofNat_ne_255 (Nat.digits_lt_base (by decide : 1 < 255) hx)
  canonical := by
    intro h
    rw [getLast?_map, Option.map_eq_some_iff] at h
    obtain ⟨x, hx, hzero⟩ := h
    have hmem := mem_of_getLast? hx
    have hlt := Nat.digits_lt_base (by decide : 1 < 255) hmem
    have hx0 : x = 0 := by
      have := congrArg UInt8.toNat hzero
      simp only [toNat_ofNat'] at this
      change x % 256 = 0 at this
      omega
    have hm : m ≠ 0 := by
      rintro rfl
      simp at hmem
    have hlast := Nat.getLast_digit_ne_zero 255 hm
    rw [getLast?_eq_getLast_of_ne_nil (ne_nil_of_mem hmem)] at hx
    exact hlast ((Option.some.inj hx).trans hx0)

@[simp] theorem toNat_new (m : Nat) : (new m).toNat = m := by
  simp only [toNat, new, toNat_digits, Nat.ofDigits_digits]

/-- A canonical digit string is the one `Nat::new` writes for its value. -/
theorem new_toNat : new n.toNat = n := by
  apply ext_digits
  have hd : Nat.digits 255 n.toNat = n.digits.map UInt8.toNat := by
    apply Nat.digits_ofDigits 255 (by decide) _ n.digit_lt
    intro hne hlast
    apply n.canonical
    rw [getLast_map] at hlast
    rw [getLast?_eq_getLast_of_ne_nil (by simpa using hne)]
    exact congrArg some (UInt8.toNat_inj.1 hlast)
  simp only [new, hd, map_map]
  refine (map_congr_left ?_).trans (map_id _)
  intro d _
  simp

/-- One round of `Nat::from_be`: the digits times 256 plus a carry, the carry
left at the end being pushed digit by digit. -/
def shiftIn : Bytes → Nat → Bytes
  | [], carry => (Nat.digits 255 carry).map UInt8.ofNat
  | x :: rest, carry =>
    UInt8.ofNat ((x.toNat * 256 + carry) % 255) :: shiftIn rest ((x.toNat * 256 + carry) / 255)

private theorem shiftIn_digits (m carry : Nat) :
    shiftIn ((Nat.digits 255 m).map UInt8.ofNat) carry =
      (Nat.digits 255 (m * 256 + carry)).map UInt8.ofNat := by
  induction m using Nat.strong_induction_on generalizing carry with
  | _ m ih =>
    rcases Nat.eq_zero_or_pos m with rfl | hpos
    · simp [shiftIn]
    · have hlt : m % 255 < 255 := Nat.mod_lt _ (by decide)
      have hdigit : (UInt8.ofNat (m % 255)).toNat = m % 255 := by
        rw [toNat_ofNat']
        exact Nat.mod_eq_of_lt (hlt.trans (by decide))
      have hmod : (m % 255 * 256 + carry) % 255 = (m * 256 + carry) % 255 := by omega
      have hdiv : m / 255 * 256 + (m % 255 * 256 + carry) / 255 = (m * 256 + carry) / 255 := by
        omega
      rw [Nat.digits_def' (by decide : 1 < 255) hpos,
        Nat.digits_def' (by decide : 1 < 255) (by omega : 0 < m * 256 + carry)]
      simp only [map_cons, shiftIn, hdigit, hmod,
        ih (m / 255) (Nat.div_lt_self hpos (by decide)), hdiv]

private theorem shiftIn_eq_new (carry : Nat) :
    shiftIn n.digits carry = (new (n.toNat * 256 + carry)).digits := by
  have hn : n.digits = (new n.toNat).digits := by rw [new_toNat]
  rw [hn]
  exact shiftIn_digits n.toNat carry

/-- The round of `Nat::from_be` that takes in one more byte. -/
def push (v : UInt8) : CodecNat where
  digits := shiftIn n.digits v.toNat
  digit_ne := by
    rw [shiftIn_eq_new]
    exact (new _).digit_ne
  canonical := by
    rw [shiftIn_eq_new]
    exact (new _).canonical

/-- `Nat::from_be` reads big-endian bytes, leading zeros included. -/
def fromBe (b : Bytes) : CodecNat := b.foldl push (new 0)

/-- `Nat::put`: the digits and the terminator. -/
def put : Bytes := n.digits ++ [255]

/-- `Nat::value` folds from the most significant digit with checked `u64`
multiplication and addition. -/
def value : Result Nat :=
  n.digits.foldr (fun b acc => do
    let m ← acc
    if m * 255 + b.toNat < 2 ^ 64 then .ok (m * 255 + b.toNat)
    else .error "physical Nat bound") (.ok 0)

private theorem foldr_value (l : Bytes) :
    l.foldr (fun b acc => do
      let m ← acc
      if m * 255 + b.toNat < 2 ^ 64 then Except.ok (m * 255 + b.toNat)
      else Except.error "physical Nat bound") (.ok 0) =
    if Nat.ofDigits 255 (l.map UInt8.toNat) < 2 ^ 64 then
      .ok (Nat.ofDigits 255 (l.map UInt8.toNat))
    else .error "physical Nat bound" := by
  induction l with
  | nil => simp
  | cons b rest ih =>
    simp only [foldr_cons, ih, map_cons, Nat.ofDigits_cons]
    by_cases h : Nat.ofDigits 255 (rest.map UInt8.toNat) < 2 ^ 64
    · simp only [if_pos h, ok_bind]
      rw [show Nat.ofDigits 255 (rest.map UInt8.toNat) * 255 + b.toNat =
        b.toNat + 255 * Nat.ofDigits 255 (rest.map UInt8.toNat) by ring]
    · have hbig : ¬ b.toNat + 255 * Nat.ofDigits 255 (rest.map UInt8.toNat) < 2 ^ 64 := by
        omega
      simp only [if_neg h, error_bind, if_neg hbig]

theorem value_eq :
    n.value = if n.toNat < 2 ^ 64 then .ok n.toNat else .error "physical Nat bound" :=
  foldr_value n.digits

end

theorem length_put_new_mono {m n : Nat} (h : m ≤ n) :
    (new m).put.length ≤ (new n).put.length := by
  simp only [put, new, length_append, length_map]
  exact Nat.add_le_add_right (Nat.le_length_digits_le 255 m n h) 1

theorem value_eq_ok {n : CodecNat} {m : Nat} :
    n.value = .ok m ↔ n.toNat < 2 ^ 64 ∧ n.toNat = m := by
  rw [value_eq]
  split <;> simp_all

end CodecNat

/-- `codec::bytes`: the length, then the content. -/
def bytes (b : Bytes) : Bytes := (CodecNat.new b.length).put ++ b

/-- The scan for the first terminator: the digits in front of it, and the rest. -/
def splitTerminator : Bytes → Option (Bytes × Bytes)
  | [] => none
  | b :: rest =>
    if b = 255 then some ([], rest)
    else (splitTerminator rest).map fun p => (b :: p.1, p.2)

variable {d b rest : Bytes}

theorem splitTerminator_append (h : ∀ x ∈ d, x ≠ 255) (rest : Bytes) :
    splitTerminator (d ++ 255 :: rest) = some (d, rest) := by
  induction d with
  | nil => simp [splitTerminator]
  | cons b d ih =>
    have hb : b ≠ 255 := h b (by simp)
    have hd := ih fun x hx => h x (by simp [hx])
    simp [splitTerminator, hb, hd]

theorem splitTerminator_eq_some (h : splitTerminator b = some (d, rest)) :
    (∀ x ∈ d, x ≠ 255) ∧ b = d ++ 255 :: rest := by
  induction b generalizing d with
  | nil => simp [splitTerminator] at h
  | cons x b ih =>
    by_cases hx : x = 255
    · simp only [splitTerminator, if_pos hx, Option.some.injEq, Prod.mk.injEq] at h
      obtain ⟨rfl, rfl⟩ := h
      simp [hx]
    · simp only [splitTerminator, if_neg hx, Option.map_eq_some_iff, Prod.exists,
        Prod.mk.injEq] at h
      obtain ⟨d', rest', hs, rfl, rfl⟩ := h
      obtain ⟨hd, rfl⟩ := ih hs
      exact ⟨forall_mem_cons.2 ⟨hx, hd⟩, rfl⟩

namespace Reader

/-- `Reader::new`. -/
def new (b : Bytes) : Result Bytes := do
  refuseIf (decide (b.length > MAX)) "frame bound"
  pure b

/-- `Reader::nat`: a canonical number in front of the rest. -/
def nat : Wire.Reader String CodecNat := fun b =>
  match h : splitTerminator b with
  | none => .error "Nat terminator"
  | some (d, rest) =>
    if hz : d.getLast? = some 0 then .error "noncanonical Nat"
    else .ok (⟨d, (splitTerminator_eq_some h).1, hz⟩, rest)

/-- `Reader::count`: a number no larger than `MAX`. -/
def count : Wire.Reader String Nat := fun b => do
  let (n, rest) ← nat b
  let m ← n.value
  refuseIf (decide (m > MAX)) "count bound"
  pure (m, rest)

/-- `Reader::bytes`. -/
def bytes : Wire.Reader String Bytes := fun b => do
  let (n, rest) ← count b
  refuseIf (decide (n > rest.length)) "short bytes"
  pure (rest.take n, rest.drop n)

/-- `Reader::finish`. -/
def finish (b : Bytes) : Result Unit := refuseIf (!b.isEmpty) "trailing data"

theorem nat_put (n : CodecNat) (rest : Bytes) : nat (n.put ++ rest) = .ok (n, rest) := by
  have hs : splitTerminator (n.put ++ rest) = some (n.digits, rest) := by
    rw [CodecNat.put, append_assoc]
    exact splitTerminator_append n.digit_ne rest
  unfold nat
  split
  · next h => rw [hs] at h; cases h
  next d r h =>
    cases hs.symm.trans h
    rw [dif_neg n.canonical]

theorem put_nat {n : CodecNat} (h : nat b = .ok (n, rest)) :
    b = n.put ++ rest := by
  unfold nat at h
  split at h
  · cases h
  next d r hs =>
    split at h
    · cases h
    · cases h
      rw [CodecNat.put, append_assoc]
      exact (splitTerminator_eq_some hs).2

/-- Canonical numbers form a codec. -/
def natCodec : Wire.Codec String CodecNat where
  put := CodecNat.put
  get := nat
  valid _ := True
  get_put n rest _ := nat_put n rest
  put_get _ _ _ h := ⟨trivial, put_nat h⟩

/-- Counts up to `MAX` form a codec. -/
def countCodec : Wire.Codec String Nat where
  put n := (CodecNat.new n).put
  get := count
  valid n := n ≤ MAX
  get_put := by
    intro n rest hn
    have hv : (CodecNat.new n).value = .ok n := by
      rw [CodecNat.value_eq_ok, CodecNat.toNat_new]
      exact ⟨lt_of_le_of_lt hn (by decide), rfl⟩
    simp only [count, nat_put, ok_bind, hv]
    rw [show decide (n > MAX) = false by simpa using hn]
    rfl
  put_get := by
    intro b n rest h
    simp only [count, bind_eq_ok, Prod.exists, refuseIf_decide, pure_pair, not_lt] at h
    obtain ⟨m, r, hm, v, hv, _, hle, rfl, rfl⟩ := h
    refine ⟨hle, ?_⟩
    rw [CodecNat.value_eq_ok] at hv
    rw [← hv.2, CodecNat.new_toNat]
    exact put_nat hm

section
variable (c : Wire.Codec String Nat) (e : String) (hput : ∀ n, c.put n = (CodecNat.new n).put)
include c e hput

private theorem readBytes_put (b rest : Bytes) (hb : c.valid b.length) :
    (do
      let (n, r) ← c.get (PrivateBackend.bytes b ++ rest)
      refuseIf (decide (n > r.length)) e
      pure (r.take n, r.drop n) : Result (Bytes × Bytes)) = .ok (b, rest) := by
  rw [PrivateBackend.bytes, append_assoc, ← hput, c.get_put _ _ hb]
  simp

private theorem put_readBytes (b x rest : Bytes)
    (h : (do
      let (n, r) ← c.get b
      refuseIf (decide (n > r.length)) e
      pure (r.take n, r.drop n) : Result (Bytes × Bytes)) = .ok (x, rest)) :
    c.valid x.length ∧ b = PrivateBackend.bytes x ++ rest := by
  simp only [bind_eq_ok, Prod.exists, refuseIf_decide, pure_pair, not_lt] at h
  obtain ⟨n, r, hn, _, hle, rfl, rfl⟩ := h
  obtain ⟨hv, hb⟩ := c.put_get _ _ _ hn
  have hlen : (r.take n).length = n := by simpa using hle
  rw [hlen]
  refine ⟨hv, ?_⟩
  rw [PrivateBackend.bytes, hlen, append_assoc, take_append_drop, ← hput]
  exact hb

end

/-- Byte strings up to `MAX` form a codec. -/
def bytesCodec : Wire.Codec String Bytes where
  put := PrivateBackend.bytes
  get := bytes
  valid b := b.length ≤ MAX
  get_put b rest hb := readBytes_put countCodec "short bytes" (fun _ => rfl) b rest hb
  put_get b x rest h := put_readBytes countCodec "short bytes" (fun _ => rfl) b x rest h

end Reader

/-! ## The wire cursor -/

namespace Cursor

/-- `Cursor::new`. -/
def new (b : Bytes) : Result Bytes := do
  refuseIf (decide (b.length > MAX)) "wire capacity"
  pure b

/-- `Cursor::count` cuts out the digits and reads them as a frame of their own. -/
def count : Wire.Reader String Nat := fun b =>
  match splitTerminator b with
  | none => .error "short wire"
  | some (d, rest) => do
    let slice ← Reader.new (d ++ [255])
    let (n, tail) ← Reader.count slice
    Reader.finish tail
    pure (n, rest)

/-- `Cursor::bytes`. -/
def bytes : Wire.Reader String Bytes := fun b => do
  let (n, rest) ← count b
  refuseIf (decide (n > rest.length)) "short wire"
  pure (rest.take n, rest.drop n)

/-- `Cursor::finish`. -/
def finish (b : Bytes) : Result Unit := refuseIf (!b.isEmpty) "wire trailing bytes"

theorem digits_length_le {n : Nat} (h : n ≤ MAX) : (CodecNat.new n).digits.length ≤ 4 := by
  have hlt : n < 255 ^ 4 := lt_of_le_of_lt h (by decide)
  simpa [CodecNat.new] using (Nat.digits_length_le_iff (by decide : 1 < 255) n).2 hlt

/-- Counts read through the cursor form the same codec. -/
def countCodec : Wire.Codec String Nat where
  put n := (CodecNat.new n).put
  get := count
  valid n := n ≤ MAX
  get_put := by
    intro n rest hn
    have hs : splitTerminator ((CodecNat.new n).put ++ rest) =
        some ((CodecNat.new n).digits, rest) := by
      rw [CodecNat.put, append_assoc]
      exact splitTerminator_append (CodecNat.new n).digit_ne rest
    have hlen : ¬ ((CodecNat.new n).digits ++ [255]).length > MAX := by
      have := digits_length_le hn
      have hM : 5 ≤ MAX := by decide
      simp only [length_append, length_singleton]
      omega
    have hc := Reader.countCodec.get_put n [] hn
    rw [append_nil] at hc
    change Reader.count ((CodecNat.new n).digits ++ [255]) = _ at hc
    simp only [count, hs, Reader.new, hlen, decide_false, refuseIf_false, ok_bind,
      pure_eq_ok, hc, Reader.finish, isEmpty_nil, Bool.not_true]
  put_get := by
    intro b n rest h
    unfold count at h
    split at h
    · cases h
    next d r hs =>
      simp only [bind_eq_ok, Prod.exists, Reader.finish, refuseIf_eq_ok, pure_inj, Prod.mk.injEq,
        Reader.new] at h
      obtain ⟨slice, ⟨_, _, rfl⟩, m, tail, hm, _, htail, rfl, rfl⟩ := h
      obtain ⟨hv, hd⟩ := Reader.countCodec.put_get _ _ _ hm
      have hnil : tail = [] := by simpa using htail
      refine ⟨hv, ?_⟩
      rw [hnil, append_nil] at hd
      change d ++ [255] = (CodecNat.new m).put at hd
      rw [← hd, append_assoc]
      exact (splitTerminator_eq_some hs).2

/-- Byte strings read through the cursor form the same codec. -/
def bytesCodec : Wire.Codec String Bytes where
  put := PrivateBackend.bytes
  get := bytes
  valid b := b.length ≤ MAX
  get_put b rest hb := Reader.readBytes_put countCodec "short wire" (fun _ => rfl) b rest hb
  put_get b x rest h := Reader.put_readBytes countCodec "short wire" (fun _ => rfl) b x rest h

end Cursor

end MiniDregg.PrivateBackend
