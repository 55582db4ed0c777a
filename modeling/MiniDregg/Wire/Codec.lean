import Mathlib.Data.List.Basic

/-!
# Self-delimiting byte codecs

A codec pairs a writer with a reader that returns the unread suffix. The two
laws carried by the structure say that the reader recovers a written value in
front of any suffix, and that whatever it reads is exactly what the writer
would have put there. Prefix freedom, injectivity and the refusal of truncated
input follow from these two laws alone.
-/

namespace MiniDregg.Wire

open List

variable {α β ε : Type*}

/-- A reader consumes a front part of the input and returns the rest. -/
abbrev Reader (ε α : Type*) := List UInt8 → Except ε (α × List UInt8)

/-- A writer, a reader, and the values the reader can return. -/
structure Codec (ε α : Type*) where
  put : α → List UInt8
  get : Reader ε α
  valid : α → Prop
  get_put : ∀ a rest, valid a → get (put a ++ rest) = .ok (a, rest)
  put_get : ∀ b a rest, get b = .ok (a, rest) → valid a ∧ b = put a ++ rest

namespace Codec

variable (c : Codec ε α)

/-- Two written values with equal continuations start with the same value. -/
theorem put_append_inj {a a' : α} {r r' : List UInt8} (ha : c.valid a)
    (ha' : c.valid a') (h : c.put a ++ r = c.put a' ++ r') : a = a' ∧ r = r' := by
  have h₁ := c.get_put a r ha
  rw [h, c.get_put a' r' ha'] at h₁
  cases h₁
  exact ⟨rfl, rfl⟩

/-- A proper prefix of a written value is refused. -/
theorem get_of_truncated {a : α} (ha : c.valid a) {p q : List UInt8}
    (h : c.put a = p ++ q) (hq : q ≠ []) : ∃ e, c.get p = .error e := by
  cases hg : c.get p with
  | error e => exact ⟨e, rfl⟩
  | ok r =>
    obtain ⟨a', rest⟩ := r
    obtain ⟨ha', hp⟩ := c.put_get p a' rest hg
    have heq : c.put a ++ [] = c.put a' ++ (rest ++ q) := by
      rw [append_nil, h, hp, append_assoc]
    have hnil := (c.put_append_inj ha ha' heq).2
    exact absurd (append_eq_nil_iff.1 hnil.symm).2 hq

end Codec

/-- Reading one value after another. -/
def Reader.seq (r : Reader ε α) (s : Reader ε β) : Reader ε (α × β) := fun b =>
  match r b with
  | .error e => .error e
  | .ok (a, b') =>
    match s b' with
    | .error e => .error e
    | .ok (x, rest) => .ok ((a, x), rest)

/-- Two fields written one after the other. -/
def Codec.seq (c : Codec ε α) (d : Codec ε β) : Codec ε (α × β) where
  put p := c.put p.1 ++ d.put p.2
  get := c.get.seq d.get
  valid p := c.valid p.1 ∧ d.valid p.2
  get_put := by
    rintro ⟨a, x⟩ rest ⟨ha, hx⟩
    simp only [Reader.seq, append_assoc, c.get_put a _ ha, d.get_put x rest hx]
  put_get := by
    rintro b ⟨a, x⟩ rest h
    simp only [Reader.seq] at h
    cases hc : c.get b with
    | error e => simp [hc] at h
    | ok r =>
      obtain ⟨a₁, b₁⟩ := r
      simp only [hc] at h
      cases hd : d.get b₁ with
      | error e => simp [hd] at h
      | ok s =>
        obtain ⟨x₁, b₂⟩ := s
        simp only [hd, Except.ok.injEq, Prod.mk.injEq] at h
        obtain ⟨⟨rfl, rfl⟩, rfl⟩ := h
        obtain ⟨ha, hb⟩ := c.put_get _ _ _ hc
        obtain ⟨hx, hb'⟩ := d.put_get _ _ _ hd
        exact ⟨⟨ha, hx⟩, by rw [hb, hb', append_assoc]⟩

end MiniDregg.Wire
