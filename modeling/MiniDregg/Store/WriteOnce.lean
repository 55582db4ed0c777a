import MiniDregg.Store.OrderedMap

/-!
# Write-once directories

A directory maps file names to contents. Its files are created whole under a free
name and never replaced, so whatever such a directory holds, it keeps: creating
files, all of them or only the first few before a kill, leaves every earlier file as
it was.
-/

namespace MiniDregg.Store.OrderedMap

variable {κ α : Type*} [LinearOrder κ]

/-- Every entry of the first map is in the second, with the same value. -/
def Grows (m m' : OrderedMap κ α) : Prop := ∀ k v, m.get? k = some v → m'.get? k = some v

theorem Grows.refl (m : OrderedMap κ α) : m.Grows m := fun _ _ h => h

variable {a b c m' : OrderedMap κ α}

theorem Grows.trans (h : a.Grows b) (h' : b.Grows c) : a.Grows c :=
  fun k v hv => h' k v (h k v hv)

/-- Create an entry; a taken key keeps its value. -/
def create (m : OrderedMap κ α) (k : κ) (v : α) : OrderedMap κ α :=
  if m.contains k then m else m.insert k v

variable {m : OrderedMap κ α} {k : κ}

theorem contains_eq_false : m.contains k = false ↔ m.get? k = none := by
  rw [contains, Option.isSome_eq_false_iff, Option.isNone_iff_eq_none]

theorem Grows.contains (h : m.Grows m') (hk : m.contains k = true) : m'.contains k = true := by
  obtain ⟨v, hv⟩ := contains_iff.1 hk
  exact contains_iff.2 ⟨v, h k v hv⟩

/-- A created entry has the value it was created with. -/
theorem get?_create_self (h : m.get? k = none) (v : α) : (m.create k v).get? k = some v := by
  rw [create, contains_eq_false.2 h, if_neg Bool.false_ne_true, get?_insert_self]

variable (m : OrderedMap κ α)

/-- Creating an entry changes no other key. -/
theorem get?_create_of_ne {other : κ} (h : other ≠ k) (v : α) :
    (m.create k v).get? other = m.get? other := by
  unfold create
  split_ifs
  · rfl
  · exact get?_insert_ne h

theorem grows_create (k : κ) (v : α) : m.Grows (m.create k v) := by
  intro other w hw
  by_cases heq : other = k
  · subst heq
    have htaken : m.contains other = true := by rw [contains, hw, Option.isSome_some]
    rw [create, htaken, if_pos rfl]
    exact hw
  · rw [get?_create_of_ne m heq]
    exact hw

variable (writes : List (κ × α))

/-- Create entries one after the other. -/
def createAll : OrderedMap κ α :=
  writes.foldl (fun m w => m.create w.1 w.2) m

theorem grows_createAll :
    m.Grows (m.createAll writes) := by
  induction writes generalizing m with
  | nil => exact Grows.refl m
  | cons w writes ih => exact (grows_create m w.1 w.2).trans (ih _)

end MiniDregg.Store.OrderedMap
