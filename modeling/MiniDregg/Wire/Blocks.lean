import Mathlib.Data.List.Basic

/-!
# Blocks of one width

Byte strings written one after the other without a separator are told apart
when all of them have the same positive width, and cut apart again.
-/

namespace MiniDregg.Wire

open List

variable {α β γ : Type*} {w : Nat} {l : List (List γ)}

/-- Equal concatenations of blocks of one positive width have equal blocks. -/
theorem map_eq_of_flatMap_eq (hw : 0 < w) {f : α → List γ} {g : β → List γ} {l : List α}
    {l' : List β} (hf : ∀ x ∈ l, (f x).length = w) (hg : ∀ y ∈ l', (g y).length = w)
    (h : l.flatMap f = l'.flatMap g) : l.map f = l'.map g := by
  induction l generalizing l' with
  | nil =>
    cases l' with
    | nil => rfl
    | cons y l' =>
      have hlen := congrArg List.length h
      have hy := hg y (by simp)
      simp only [flatMap_nil, length_nil, flatMap_cons, length_append] at hlen
      omega
  | cons x l ih =>
    cases l' with
    | nil =>
      have hlen := congrArg List.length h
      have hx := hf x (by simp)
      simp only [flatMap_nil, length_nil, flatMap_cons, length_append] at hlen
      omega
    | cons y l' =>
      have hxy : (f x).length = (g y).length := by
        rw [hf x (by simp), hg y (by simp)]
      simp only [flatMap_cons] at h
      obtain ⟨hhead, htail⟩ := append_inj h hxy
      have hrest := ih (fun z hz => hf z (by simp [hz])) (fun z hz => hg z (by simp [hz])) htail
      rw [map_cons, map_cons, hhead, hrest]

/-- The first `k` blocks of width `w`. -/
def blocks (w : Nat) : Nat → List γ → List (List γ)
  | 0, _ => []
  | k + 1, l => l.take w :: blocks w k (l.drop w)

/-- `chunks_exact`: the blocks of a list; a shorter remainder is dropped. -/
def chunksExact (w : Nat) (l : List γ) : List (List γ) := blocks w (l.length / w) l

/-- Cutting concatenated blocks gives the blocks back. -/
theorem blocks_flatten (h : ∀ b ∈ l, b.length = w) : blocks w l.length l.flatten = l := by
  induction l with
  | nil => rfl
  | cons b l ih =>
    have hb : b.length = w := h b mem_cons_self
    have hrest := ih fun x hx => h x (mem_cons_of_mem b hx)
    simp only [length_cons, flatten_cons, blocks, take_left' hb,
      drop_left' hb, hrest]

theorem length_flatten_of_blocks (h : ∀ b ∈ l, b.length = w) : l.flatten.length = l.length * w := by
  rw [length_flatten, eq_replicate_of_mem (forall_mem_map.2 h), sum_replicate_nat, length_map]

theorem chunksExact_flatten (hw : 0 < w) (h : ∀ b ∈ l, b.length = w) :
    chunksExact w l.flatten = l := by
  rw [chunksExact, length_flatten_of_blocks h, Nat.mul_div_cancel _ hw, blocks_flatten h]

end MiniDregg.Wire
