import Mathlib.Data.List.Basic

/-!
# Chains of records linked by a digest

Every record names the identity of its predecessor, and the first one names a root that is
no identity. Two such chains that meet in an identity have the same contents from there
down, as far as the identity tells contents apart on the records of the two chains.
-/

namespace MiniDregg.Store

open List

variable {α γ δ : Type*}

/-- A chain with its newest record first. -/
def Linked (identity parent : α → δ) (root : δ) : List α → Prop
  | [] => True
  | [a] => parent a = root
  | a :: b :: rest => parent a = identity b ∧ Linked identity parent root (b :: rest)

/-- The identity tells the contents of these records apart, and is never the root. -/
structure Separates (identity : α → δ) (content : α → γ) (root : δ) (records : List α) :
    Prop where
  inj : ∀ a ∈ records, ∀ b ∈ records, identity a = identity b → content a = content b
  ne_root : ∀ a ∈ records, identity a ≠ root

variable {content : α → γ} {l m : List α}

theorem Separates.mono {identity : α → δ} {root : δ}
    (h : Separates identity content root m) (hlm : l ⊆ m) : Separates identity content root l where
  inj := fun a ha b hb => h.inj a (hlm ha) b (hlm hb)
  ne_root := fun a ha => h.ne_root a (hlm ha)

namespace Linked

variable {identity parent : α → δ} {root : δ} {a : α}

theorem tail (h : Linked identity parent root (a :: l)) : Linked identity parent root l := by
  cases l with
  | nil => trivial
  | cons b rest => exact h.2

theorem drop (h : Linked identity parent root l) (n : Nat) :
    Linked identity parent root (l.drop n) := by
  induction n generalizing l with
  | zero => exact h
  | succ n ih =>
    cases l with
    | nil => exact h
    | cons a rest => exact ih h.tail

theorem cons {b : α} (h : Linked identity parent root (b :: l)) (ha : parent a = identity b) :
    Linked identity parent root (a :: b :: l) := ⟨ha, h⟩

/-- Chains whose newest records share an identity have the same contents. -/
theorem map_eq_of_head (hl : Linked identity parent root l) (hm : Linked identity parent root m)
    (hparent : ∀ x y, content x = content y → parent x = parent y)
    (hsep : Separates identity content root (l ++ m))
    (hhead : l.head?.map identity = m.head?.map identity) : l.map content = m.map content := by
  induction l generalizing m with
  | nil =>
    cases m with
    | nil => rfl
    | cons b m => cases hhead
  | cons a l ih =>
    cases m with
    | nil => cases hhead
    | cons b m =>
      have hcontent : content a = content b :=
        hsep.inj a (by simp) b (by simp) (Option.some.inj hhead)
      have hsep' : Separates identity content root (l ++ m) := by
        apply hsep.mono
        intro x hx
        simp only [mem_append, mem_cons] at hx ⊢
        tauto
      have htail : l.head?.map identity = m.head?.map identity := by
        have hpar := hparent a b hcontent
        -- Below a first record there is none in the other chain either.
        cases l with
        | nil =>
          cases m with
          | nil => rfl
          | cons d m =>
            have hroot : identity d = root := by
              rw [← hm.1, ← hpar]
              exact hl
            exact absurd hroot (hsep.ne_root d (by simp))
        | cons c l =>
          cases m with
          | nil =>
            have hroot : identity c = root := by
              rw [← hl.1, hpar]
              exact hm
            exact absurd hroot (hsep.ne_root c (by simp))
          | cons d m =>
            change some (identity c) = some (identity d)
            rw [← hl.1, ← hm.1, hpar]
      rw [map_cons, map_cons, hcontent, ih hl.tail hm.tail hsep' htail]

/-- A chain, oldest first, whose newest record is met by another chain is where the other
one starts. -/
theorem isPrefix_of_mem {b : α} (hl : Linked identity parent root l.reverse)
    (hm : Linked identity parent root m.reverse)
    (hparent : ∀ x y, content x = content y → parent x = parent y)
    (hsep : Separates identity content root (l ++ m)) (ha : l.getLast? = some a) (hb : b ∈ m)
    (hab : identity a = identity b) : l.map content <+: m.map content := by
  obtain ⟨older, newer, rfl⟩ := append_of_mem hb
  have hmet : Linked identity parent root (older ++ [b]).reverse := by
    have h := hm.drop newer.length
    simpa [reverse_append] using h
  have hmap : l.reverse.map content = (older ++ [b]).reverse.map content := by
    apply map_eq_of_head hl hmet hparent
    · apply hsep.mono
      intro x hx
      simp only [mem_append, mem_cons, mem_reverse] at hx ⊢
      tauto
    · simp [ha, hab]
  have hcontents : l.map content = (older ++ [b]).map content := by
    simpa using congrArg List.reverse hmap
  rw [hcontents]
  exact ⟨newer.map content, by simp⟩

end Linked

end MiniDregg.Store
