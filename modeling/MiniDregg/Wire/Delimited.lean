import MiniDregg.Wire.Codec

/-!
# Self-delimiting writers and counted lists

A writer is delimited when a written value can be cut off the front of any
input in only one way. The notion needs no reader and no length bound, composes
along concatenation, and makes the writer injective. Counted lists are read by
repeating the reader of one entry.
-/

namespace MiniDregg.Wire

open List

variable {α β ε : Type*}

/-- Equal inputs that start with written values start with the same value. -/
def Delimited (put : α → List UInt8) : Prop :=
  ∀ a a' r r', put a ++ r = put a' ++ r' → a = a' ∧ r = r'

namespace Delimited

variable {put : α → List UInt8} {put' : β → List UInt8}

theorem injective (h : Delimited put) {a a' : α} (heq : put a = put a') : a = a' :=
  (h a a' [] [] (congrArg (· ++ []) heq)).1

/-- Lists of equal length are delimited when their entries are. -/
theorem flatMap_inj (h : Delimited put) {l l' : List α} {r r' : List UInt8}
    (hlen : l.length = l'.length) (heq : l.flatMap put ++ r = l'.flatMap put ++ r') :
    l = l' ∧ r = r' := by
  induction l generalizing l' with
  | nil =>
    obtain rfl := length_eq_zero_iff.1 hlen.symm
    exact ⟨rfl, heq⟩
  | cons a l ih =>
    cases l' with
    | nil => simp at hlen
    | cons a' l' =>
      simp only [flatMap_cons, append_assoc] at heq
      obtain ⟨rfl, htail⟩ := h _ _ _ _ heq
      obtain ⟨rfl, hr⟩ := ih (Nat.succ.inj hlen) htail
      exact ⟨rfl, hr⟩

/-- A list written behind its length is delimited. -/
theorem counted {count : Nat → List UInt8} (hcount : Delimited count) (h : Delimited put) :
    Delimited fun l : List α => count l.length ++ l.flatMap put := by
  intro l l' r r' heq
  simp only [append_assoc] at heq
  obtain ⟨hlen, hrows⟩ := hcount _ _ _ _ heq
  exact h.flatMap_inj hlen hrows

end Delimited

theorem Codec.delimited (c : Codec ε α) (h : ∀ a, c.valid a) : Delimited c.put :=
  fun a a' _ _ heq => c.put_append_inj (h a) (h a') heq

/-- Reading `n` values one after another. -/
def Reader.times (r : Reader ε α) : Nat → Reader ε (List α)
  | 0, b => .ok ([], b)
  | n + 1, b =>
    match r b with
    | .error e => .error e
    | .ok (a, b') =>
      match r.times n b' with
      | .error e => .error e
      | .ok (l, rest) => .ok (a :: l, rest)

namespace Codec

variable (c : Codec ε α)

theorem times_put (l : List α) (rest : List UInt8) (h : ∀ a ∈ l, c.valid a) :
    c.get.times l.length (l.flatMap c.put ++ rest) = .ok (l, rest) := by
  induction l with
  | nil => rfl
  | cons a l ih =>
    have ha := c.get_put a (l.flatMap c.put ++ rest) (h a (by simp))
    have hl := ih fun x hx => h x (by simp [hx])
    simp only [length_cons, Reader.times, flatMap_cons, append_assoc, ha, hl]

theorem put_times {n : Nat} {b rest : List UInt8} {l : List α}
    (h : c.get.times n b = .ok (l, rest)) :
    l.length = n ∧ (∀ a ∈ l, c.valid a) ∧ b = l.flatMap c.put ++ rest := by
  induction n generalizing b l with
  | zero =>
    cases h
    simp
  | succ n ih =>
    simp only [Reader.times] at h
    cases hg : c.get b with
    | error e => simp [hg] at h
    | ok p =>
      obtain ⟨a, b'⟩ := p
      simp only [hg] at h
      cases ht : c.get.times n b' with
      | error e => simp [ht] at h
      | ok q =>
        obtain ⟨l', rest'⟩ := q
        simp only [ht, Except.ok.injEq, Prod.mk.injEq] at h
        obtain ⟨rfl, rfl⟩ := h
        obtain ⟨ha, rfl⟩ := c.put_get _ _ _ hg
        obtain ⟨hlen, hl, rfl⟩ := ih ht
        exact ⟨by simp [hlen], forall_mem_cons.2 ⟨ha, hl⟩, by simp⟩

end Codec

end MiniDregg.Wire
