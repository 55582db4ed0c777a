import MiniDregg.Wire.Fixed

/-!
# Digest functions and SHA-2

Developments that only need a fixed-length checksum take a `Digest` as a
parameter. The standard's own functions are one algorithm at two word widths;
words are natural numbers below `2^width`.
-/

namespace MiniDregg.Wire

/-- A function from byte strings to 32 bytes. -/
structure Digest where
  digest : List UInt8 → List UInt8
  length_digest : ∀ b, (digest b).length = 32

/-- The eight working words. -/
structure Words where
  a : Nat
  b : Nat
  c : Nat
  d : Nat
  e : Nat
  f : Nat
  g : Nat
  h : Nat

/-- One function of each of the eight words. -/
def Words.map (p : Nat → Nat) (s : Words) : Words :=
  ⟨p s.a, p s.b, p s.c, p s.d, p s.e, p s.f, p s.g, p s.h⟩

/-- What the members of the family differ in: the bytes of a word, the rounds after the
sixteen words of a block, and the rotations of the four mixing functions. The last number
of a small one is a shift. -/
structure Sha2 where
  bytes : Nat
  further : Nat
  small₀ : Nat × Nat × Nat
  small₁ : Nat × Nat × Nat
  big₀ : Nat × Nat × Nat
  big₁ : Nat × Nat × Nat

namespace Sha2

/-- The round constants at 64 bits; a narrower word keeps the high bits. -/
def roundConstants : List Nat :=
  [0x428a2f98d728ae22, 0x7137449123ef65cd, 0xb5c0fbcfec4d3b2f, 0xe9b5dba58189dbbc,
    0x3956c25bf348b538, 0x59f111f1b605d019, 0x923f82a4af194f9b, 0xab1c5ed5da6d8118,
    0xd807aa98a3030242, 0x12835b0145706fbe, 0x243185be4ee4b28c, 0x550c7dc3d5ffb4e2,
    0x72be5d74f27b896f, 0x80deb1fe3b1696b1, 0x9bdc06a725c71235, 0xc19bf174cf692694,
    0xe49b69c19ef14ad2, 0xefbe4786384f25e3, 0x0fc19dc68b8cd5b5, 0x240ca1cc77ac9c65,
    0x2de92c6f592b0275, 0x4a7484aa6ea6e483, 0x5cb0a9dcbd41fbd4, 0x76f988da831153b5,
    0x983e5152ee66dfab, 0xa831c66d2db43210, 0xb00327c898fb213f, 0xbf597fc7beef0ee4,
    0xc6e00bf33da88fc2, 0xd5a79147930aa725, 0x06ca6351e003826f, 0x142929670a0e6e70,
    0x27b70a8546d22ffc, 0x2e1b21385c26c926, 0x4d2c6dfc5ac42aed, 0x53380d139d95b3df,
    0x650a73548baf63de, 0x766a0abb3c77b2a8, 0x81c2c92e47edaee6, 0x92722c851482353b,
    0xa2bfe8a14cf10364, 0xa81a664bbc423001, 0xc24b8b70d0f89791, 0xc76c51a30654be30,
    0xd192e819d6ef5218, 0xd69906245565a910, 0xf40e35855771202a, 0x106aa07032bbd1b8,
    0x19a4c116b8d2d0c8, 0x1e376c085141ab53, 0x2748774cdf8eeb99, 0x34b0bcb5e19b48a8,
    0x391c0cb3c5c95a63, 0x4ed8aa4ae3418acb, 0x5b9cca4f7763e373, 0x682e6ff3d6b2b8a3,
    0x748f82ee5defb2fc, 0x78a5636f43172f60, 0x84c87814a1f0ab72, 0x8cc702081a6439ec,
    0x90befffa23631e28, 0xa4506cebde82bde9, 0xbef9a3f7b2c67915, 0xc67178f2e372532b,
    0xca273eceea26619c, 0xd186b8c721c0c207, 0xeada7dd6cde0eb1e, 0xf57d4f7fee6ed178,
    0x06f067aa72176fba, 0x0a637dc5a2c898a6, 0x113f9804bef90dae, 0x1b710b35131c471b,
    0x28db77f523047d84, 0x32caab7b40c72493, 0x3c9ebe0a15c9bebc, 0x431d67c49c100d4c,
    0x4cc5d4becb3e42b6, 0x597f299cfc657e2a, 0x5fcb6fab3ad6faec, 0x6c44198c4a475817]

/-- The initial chaining value at 64 bits. -/
def initial : Words :=
  ⟨0x6a09e667f3bcc908, 0xbb67ae8584caa73b, 0x3c6ef372fe94f82b, 0xa54ff53a5f1d36f1,
    0x510e527fade682d1, 0x9b05688c2b3e6c1f, 0x1f83d9abfb41bd6b, 0x5be0cd19137e2179⟩

variable (V : Sha2)

def high (x : Nat) : Nat := x >>> (64 - 8 * V.bytes)

def add (x y : Nat) : Nat := (x + y) % 2 ^ (8 * V.bytes)

def rotr (x n : Nat) : Nat := (x >>> n ||| x <<< (8 * V.bytes - n)) % 2 ^ (8 * V.bytes)

def smallSigma (r : Nat × Nat × Nat) (x : Nat) : Nat :=
  V.rotr x r.1 ^^^ V.rotr x r.2.1 ^^^ x >>> r.2.2

def bigSigma (r : Nat × Nat × Nat) (x : Nat) : Nat :=
  V.rotr x r.1 ^^^ V.rotr x r.2.1 ^^^ V.rotr x r.2.2

def choose (x y z : Nat) : Nat := x &&& y ^^^ (2 ^ (8 * V.bytes) - 1 - x) &&& z

def majority (x y z : Nat) : Nat := x &&& y ^^^ x &&& z ^^^ y &&& z

/-- Message padding: a one bit, zeros up to two words before the end of a block, the bit
length in these two words. -/
def pad (m : List UInt8) : List UInt8 :=
  m ++ 0x80 :: List.replicate ((30 * V.bytes - 1 - m.length % (16 * V.bytes)) % (16 * V.bytes)) 0 ++
    (toLeBytes (2 * V.bytes) (8 * m.length)).reverse

/-- The first `n` big-endian words of a block. -/
def blockWords : Nat → List UInt8 → List Nat
  | 0, _ => []
  | n + 1, b => fromLeBytes (b.take V.bytes).reverse :: blockWords n (b.drop V.bytes)

/-- Extend the schedule by `n` words; the newest word stands first. -/
def extend : Nat → List Nat → List Nat
  | 0, w => w
  | n + 1, w =>
    extend n (V.add (V.add (V.smallSigma V.small₁ (w.getD 1 0)) (w.getD 6 0))
      (V.add (V.smallSigma V.small₀ (w.getD 14 0)) (w.getD 15 0)) :: w)

def round (s : Words) (kw : Nat × Nat) : Words :=
  let t₁ := V.add (V.add s.h (V.bigSigma V.big₁ s.e))
    (V.add (V.choose s.e s.f s.g) (V.add (V.high kw.1) kw.2))
  let t₂ := V.add (V.bigSigma V.big₀ s.a) (majority s.a s.b s.c)
  ⟨V.add t₁ t₂, s.a, s.b, s.c, V.add s.d t₁, s.e, s.f, s.g⟩

/-- One compression of a block of sixteen words; there are as many rounds as words in the
extended schedule. -/
def compress (s : Words) (block : List UInt8) : Words :=
  let w := (V.extend V.further (V.blockWords 16 block).reverse).reverse
  let t := (roundConstants.zip w).foldl V.round s
  ⟨V.add s.a t.a, V.add s.b t.b, V.add s.c t.c, V.add s.d t.d, V.add s.e t.e, V.add s.f t.f,
    V.add s.g t.g, V.add s.h t.h⟩

/-- Compress the first `n` blocks. -/
def blocks : Nat → List UInt8 → Words → Words
  | 0, _, s => s
  | n + 1, m, s => blocks n (m.drop (16 * V.bytes)) (V.compress s (m.take (16 * V.bytes)))

/-- The big-endian bytes of the last chaining value. -/
def hash (m : List UInt8) : List UInt8 :=
  let p := V.pad m
  let ⟨a, b, c, d, e, f, g, h⟩ := V.blocks (p.length / (16 * V.bytes)) p (initial.map V.high)
  [a, b, c, d, e, f, g, h].flatMap fun w => (toLeBytes V.bytes w).reverse

theorem length_hash (m : List UInt8) : (V.hash m).length = 8 * V.bytes := by
  simp [hash]
  omega

end Sha2

/-- SHA-256 as a digest function. -/
def sha256 : Digest where
  digest := Sha2.hash ⟨4, 48, (7, 18, 3), (17, 19, 10), (2, 13, 22), (6, 11, 25)⟩
  length_digest := Sha2.length_hash _

def sha512 (m : List UInt8) : Fixed 64 :=
  ⟨Sha2.hash ⟨8, 64, (1, 8, 7), (19, 61, 6), (28, 34, 39), (14, 18, 41)⟩ m, Sha2.length_hash _ m⟩

example : sha256.digest [0x61, 0x62, 0x63] =
    [0xba, 0x78, 0x16, 0xbf, 0x8f, 0x01, 0xcf, 0xea, 0x41, 0x41, 0x40, 0xde, 0x5d, 0xae, 0x22,
      0x23, 0xb0, 0x03, 0x61, 0xa3, 0x96, 0x17, 0x7a, 0x9c, 0xb4, 0x10, 0xff, 0x61, 0xf2, 0x00,
      0x15, 0xad] := by
  decide +kernel

end MiniDregg.Wire
