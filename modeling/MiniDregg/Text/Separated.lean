import MiniDregg.Control.Fallible

/-!
# Separated sequences

A recursive-descent parser reads one item and then, while a separator stands
next, another one. Here an item reader is any function that takes a value off
the front of a token list. What the sequence reader accepts is a nonempty list
of items joined by the separator, and every such list is read back when each of
its items is.
-/

namespace MiniDregg.Separated

open Fallible List

variable {τ ε α : Type}

section
variable (sep : τ)

/-- The tokens of items that stand with their values, joined by a separator. -/
def joined (items : List (List τ × α)) : List τ :=
  [sep].intercalate (items.map Prod.fst)

@[simp] theorem joined_singleton (item : List τ × α) : joined sep [item] = item.1 := by
  simp [joined]

@[simp] theorem joined_cons_cons (item next : List τ × α) (items : List (List τ × α)) :
    joined sep (item :: next :: items) = item.1 ++ sep :: joined sep (next :: items) := by
  simp [joined]

theorem joined_cons (item : List τ × α) (items : List (List τ × α)) :
    joined sep (item :: items) = item.1 ++ items.flatMap (fun i => sep :: i.1) := by
  induction items generalizing item with
  | nil => simp
  | cons next items ih => rw [joined_cons_cons, ih]; simp

theorem length_le_flatMap (items : List (List τ × α)) :
    items.length ≤ (items.flatMap fun i => sep :: i.1).length := by
  induction items with
  | nil => simp
  | cons item items ih =>
    rw [flatMap_cons, length_append, length_cons, length_cons]
    omega

end

variable {items : List (List τ × α)} {rest : List τ} {item : List τ × α}

theorem length_le_joined (sep : τ) (h : item ∈ items) :
    item.1.length ≤ (joined sep items).length := by
  induction items with
  | nil => simp at h
  | cons head tail ih =>
    cases tail with
    | nil => simp_all
    | cons next rest =>
      rw [joined_cons_cons, length_append, length_cons]
      rcases mem_cons.1 h with rfl | hmem
      · omega
      · have := ih hmem
        omega

theorem mem_joined {sep t : τ} (h : t ∈ joined sep items) : t = sep ∨ ∃ i ∈ items, t ∈ i.1 := by
  cases items with
  | nil => simp [joined] at h
  | cons item items =>
    rw [joined_cons, mem_append, mem_flatMap] at h
    rcases h with hmem | ⟨i, hi, hmem⟩
    · exact .inr ⟨item, by simp, hmem⟩
    · rcases mem_cons.1 hmem with rfl | htail
      · exact .inl rfl
      · exact .inr ⟨i, by simp [hi], htail⟩

theorem mem_joined_of_mem {sep t : τ} (h : item ∈ items) (ht : t ∈ item.1) :
    t ∈ joined sep items := by
  cases items with
  | nil => simp at h
  | cons first items =>
    rw [joined_cons, mem_append, mem_flatMap]
    rcases mem_cons.1 h with rfl | hmem
    · exact .inl ht
    · exact .inr ⟨item, hmem, mem_cons_of_mem _ ht⟩

variable [DecidableEq τ]

/-- Read items for as long as a separator stands next. One unit of `fuel` is
spent on each separator. -/
def more (sep : τ) (read : List τ → Except ε (α × List τ)) :
    Nat → List τ → Except ε (List α × List τ)
  | 0, toks => .ok ([], toks)
  | _ + 1, [] => .ok ([], [])
  | fuel + 1, t :: toks =>
    if t = sep then do
      let (a, rest) ← read toks
      let (as, rest) ← more sep read fuel rest
      pure (a :: as, rest)
    else .ok ([], t :: toks)

/-- Read one item and those that follow behind a separator. -/
def separated (sep : τ) (read : List τ → Except ε (α × List τ)) (toks : List τ) :
    Except ε (List α × List τ) := do
  let (a, rest) ← read toks
  let (as, rest) ← more sep read rest.length rest
  pure (a :: as, rest)

/-- The reader accepts only what spells the value it returns. -/
def Sound (read : List τ → Except ε (α × List τ)) (Spells : List τ → α → Prop) : Prop :=
  ∀ ⦃toks a rest⦄, read toks = .ok (a, rest) → ∃ used, toks = used ++ rest ∧ Spells used a

variable {sep : τ} {read : List τ → Except ε (α × List τ)} {Spells : List τ → α → Prop}

section
variable (hread : Sound read Spells)
include hread

variable {toks : List τ} {as : List α}

theorem more_sound {fuel : Nat} (h : more sep read fuel toks = .ok (as, rest)) :
    ∃ items : List (List τ × α), (∀ i ∈ items, Spells i.1 i.2) ∧ as = items.map Prod.snd ∧
      toks = items.flatMap (fun i => sep :: i.1) ++ rest := by
  induction fuel generalizing toks as with
  | zero =>
    cases h
    exact ⟨[], by simp⟩
  | succ fuel ih =>
    cases toks with
    | nil =>
      cases h
      exact ⟨[], by simp⟩
    | cons t toks =>
      rw [more] at h
      split at h
      next hsep =>
        obtain ⟨⟨a, next⟩, ha, hmore⟩ := bind_eq_ok.1 h
        obtain ⟨⟨as', rest'⟩, has, hret⟩ := bind_eq_ok.1 hmore
        cases hret
        obtain ⟨used, rfl, hused⟩ := hread ha
        obtain ⟨items, hitems, rfl, rfl⟩ := ih has
        exact ⟨(used, a) :: items, by simpa using ⟨hused, by simpa using hitems⟩, rfl,
          by simp [hsep]⟩
      · cases h
        exact ⟨[], by simp⟩

/-- What is read is a nonempty list of items joined by the separator. -/
theorem separated_sound (h : separated sep read toks = .ok (as, rest)) :
    ∃ items : List (List τ × α), items ≠ [] ∧ (∀ i ∈ items, Spells i.1 i.2) ∧
      as = items.map Prod.snd ∧ toks = joined sep items ++ rest := by
  obtain ⟨⟨a, next⟩, ha, hmore⟩ := bind_eq_ok.1 h
  obtain ⟨⟨as', rest'⟩, has, hret⟩ := bind_eq_ok.1 hmore
  cases hret
  obtain ⟨used, rfl, hused⟩ := hread ha
  obtain ⟨items, hitems, rfl, rfl⟩ := more_sound hread has
  refine ⟨(used, a) :: items, by simp, by simpa using ⟨hused, by simpa using hitems⟩, rfl, ?_⟩
  rw [joined_cons, append_assoc]

end

section
variable {Follow : List τ → Prop} (hsep : ∀ toks, Follow (sep :: toks)) (hrest : Follow rest)
include hsep hrest

omit [DecidableEq τ] in
theorem follow_flatMap (items : List (List τ × α)) :
    Follow (items.flatMap (fun i => sep :: i.1) ++ rest) := by
  cases items with
  | nil => exact hrest
  | cons next items => exact hsep _

variable (hstop : rest.head? ≠ some sep)
  (hread : ∀ i ∈ items, ∀ toks, Follow toks → read (i.1 ++ toks) = .ok (i.2, toks))
include hstop hread

theorem more_complete {fuel : Nat} (hfuel : items.length ≤ fuel) :
    more sep read fuel (items.flatMap (fun i => sep :: i.1) ++ rest) =
      .ok (items.map Prod.snd, rest) := by
  induction items generalizing fuel with
  | nil =>
    cases fuel with
    | zero => rfl
    | succ fuel =>
      cases rest with
      | nil => rfl
      | cons t rest => exact if_neg fun ht => hstop (by rw [ht]; rfl)
  | cons item items ih =>
    obtain ⟨fuel, rfl⟩ := Nat.exists_eq_add_of_le' (Nat.one_le_of_lt hfuel)
    have hitems := ih (fun i hi => hread i (mem_cons_of_mem _ hi)) (Nat.le_of_succ_le_succ hfuel)
    rw [flatMap_cons, append_assoc, cons_append, more, if_pos rfl,
      hread item (by simp) _ (follow_flatMap hsep hrest items), ok_bind]
    dsimp only
    rw [hitems]
    rfl

variable (Follow) in
/-- Items joined by the separator are read back, if each is read back in front
of a separator and in front of what follows. -/
theorem separated_complete (hne : items ≠ []) :
    separated sep read (joined sep items ++ rest) = .ok (items.map Prod.snd, rest) := by
  obtain ⟨item, items, rfl⟩ := exists_cons_of_ne_nil hne
  have hfuel : items.length ≤ (items.flatMap (fun i => sep :: i.1) ++ rest).length := by
    rw [length_append]
    exact Nat.le_add_right_of_le (length_le_flatMap sep items)
  have hmore := more_complete hsep hrest hstop
    (fun i hi => hread i (mem_cons_of_mem _ hi)) hfuel
  rw [joined_cons, append_assoc, separated,
    hread item (by simp) _ (follow_flatMap hsep hrest items), ok_bind]
  dsimp only
  rw [hmore]
  rfl

end

end MiniDregg.Separated
