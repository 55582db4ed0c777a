import Mathlib.Data.Char
import Mathlib.Data.List.Lex
import Mathlib.Data.List.Nodup
import Mathlib.Data.List.Perm.Subperm
import Mathlib.Order.Lattice

/-!
# Ordered maps

A finite map over a linear order, kept as the list of its entries in ascending
key order. Every map carries the proof that its keys ascend, so lookups are
unambiguous and two maps with the same entries are equal.

## Implementation notes

Counting is compared between two maps through lookups only: each lemma bounds
the number of entries with a property by what holds of the values under single
keys, so a proof about an update never unfolds the entry list.
-/

namespace MiniDregg.Store

open List

variable {κ α : Type*} [LinearOrder κ]

/-- A finite map with its entries in ascending key order. -/
structure OrderedMap (κ α : Type*) [LinearOrder κ] where
  entries : List (κ × α)
  ascending : entries.Pairwise fun a b => a.1 < b.1

namespace OrderedMap

@[ext]
theorem ext_entries {m m' : OrderedMap κ α} (h : m.entries = m'.entries) : m = m' := by
  cases m
  cases m'
  congr

instance [DecidableEq α] : DecidableEq (OrderedMap κ α) := fun _ _ =>
  decidable_of_iff _ OrderedMap.ext_entries_iff.symm

/-- The map without entries. -/
def empty : OrderedMap κ α := ⟨[], List.Pairwise.nil⟩

section
variable (m : OrderedMap κ α)

/-- The keys in ascending order. -/
def keys : List κ := m.entries.map Prod.fst

/-- The values in key order. -/
def values : List α := m.entries.map Prod.snd

/-- The value under a key. -/
def get? (k : κ) : Option α :=
  (m.entries.find? fun e => e.1 == k).map Prod.snd

/-- Whether a key is present. -/
def contains (k : κ) : Bool := (m.get? k).isSome

/-- The number of values with a property. -/
def count (p : α → Bool) : Nat := m.values.countP p

end

/-- The entry list with a value under a key added or replaced. -/
def insertEntry (k : κ) (v : α) : List (κ × α) → List (κ × α)
  | [] => [(k, v)]
  | e :: rest =>
    if k < e.1 then (k, v) :: e :: rest
    else if e.1 < k then e :: insertEntry k v rest
    else (k, v) :: rest

variable {k : κ} {e : κ × α} {l : List (κ × α)}

theorem mem_insertEntry {v : α} (h : e ∈ insertEntry k v l) : e = (k, v) ∨ e ∈ l := by
  induction l with
  | nil => exact .inl (by simpa [insertEntry] using h)
  | cons d rest ih =>
    simp only [insertEntry] at h
    split_ifs at h
    · simpa using h
    · rcases mem_cons.1 h with rfl | h
      · exact .inr (by simp)
      · exact (ih h).imp id (mem_cons_of_mem d)
    · rcases mem_cons.1 h with h | h
      · exact .inl h
      · exact .inr (mem_cons_of_mem d h)

theorem insertEntry_ascending (k : κ) (v : α) (h : l.Pairwise fun a b => a.1 < b.1) :
    (insertEntry k v l).Pairwise fun a b => a.1 < b.1 := by
  induction l with
  | nil => exact pairwise_singleton _ _
  | cons e rest ih =>
    obtain ⟨hhead, htail⟩ := pairwise_cons.1 h
    simp only [insertEntry]
    split_ifs with hlt hgt
    · refine pairwise_cons.2 ⟨fun d hd => ?_, h⟩
      rcases mem_cons.1 hd with rfl | hd
      · exact hlt
      · exact hlt.trans (hhead d hd)
    · refine pairwise_cons.2 ⟨fun d hd => ?_, ih htail⟩
      rcases mem_insertEntry hd with rfl | hd
      · exact hgt
      · exact hhead d hd
    · have hk : e.1 = k := le_antisymm (not_lt.1 hlt) (not_lt.1 hgt)
      exact pairwise_cons.2 ⟨fun d hd => hk ▸ hhead d hd, htail⟩

/-- A value put under a key, in place of the one there. -/
def insert (m : OrderedMap κ α) (k : κ) (v : α) : OrderedMap κ α :=
  ⟨insertEntry k v m.entries, insertEntry_ascending k v m.ascending⟩

/-- Every value rewritten in place. -/
def map {β : Type*} (m : OrderedMap κ α) (f : α → β) : OrderedMap κ β :=
  ⟨m.entries.map fun e => (e.1, f e.2), m.ascending.map _ fun _ _ h => h⟩

section
variable (m : OrderedMap κ α)

/-- The value under a key rewritten in place; nothing happens when the key is absent. -/
def modify (k : κ) (f : α → α) : OrderedMap κ α :=
  ⟨m.entries.map fun e => if e.1 = k then (e.1, f e.2) else e, by
    refine m.ascending.map _ fun a b h => ?_
    split_ifs <;> exact h⟩

/-- The map without a key. -/
def erase (k : κ) : OrderedMap κ α :=
  ⟨m.entries.filter fun e => e.1 ≠ k, m.ascending.filter _⟩

/-- The entries whose values have a property. -/
def filter (p : α → Bool) : OrderedMap κ α :=
  ⟨m.entries.filter fun e => p e.2, m.ascending.filter _⟩

end

variable {p : α → Bool}

section Lookup
variable {m m' : OrderedMap κ α} {k' : κ} {v v' : α}

theorem keys_nodup (m : OrderedMap κ α) : m.keys.Nodup :=
  List.Pairwise.map _ (fun _ _ h => ne_of_lt h) m.ascending

theorem entry_unique {d : κ × α} (he : e ∈ m.entries) (hd : d ∈ m.entries) (h : e.1 = d.1) :
    e = d :=
  inj_on_of_nodup_map m.keys_nodup he hd h

/-- A lookup finds exactly the entries. -/
theorem get?_eq_some : m.get? k = some v ↔ (k, v) ∈ m.entries := by
  constructor
  · intro h
    obtain ⟨⟨k₀, v₀⟩, hfind, rfl⟩ := Option.map_eq_some_iff.1 h
    have hk : k₀ = k := by simpa using find?_some hfind
    exact hk ▸ mem_of_find?_eq_some hfind
  · intro h
    obtain ⟨e, hfind⟩ : ∃ e, (m.entries.find? fun e => e.1 == k) = some e :=
      Option.isSome_iff_exists.1 (find?_isSome.2 ⟨(k, v), h, by simp⟩)
    have hk : e.1 = k := by simpa using find?_some hfind
    have he := entry_unique (mem_of_find?_eq_some hfind) h hk
    rw [get?, hfind, he]
    rfl

theorem get?_eq_none : m.get? k = none ↔ ∀ v, (k, v) ∉ m.entries := by
  rw [Option.eq_none_iff_forall_ne_some]
  exact forall_congr' fun v => not_congr get?_eq_some

@[simp] theorem get?_empty : (empty : OrderedMap κ α).get? k = none := rfl

theorem mem_values : v ∈ m.values ↔ ∃ k, m.get? k = some v := by
  simp [values, get?_eq_some]

theorem contains_iff : m.contains k = true ↔ ∃ v, m.get? k = some v :=
  Option.isSome_iff_exists

/-- An insertion replaces exactly the entries of its key. -/
theorem mem_insertEntry_iff (hl : l.Pairwise fun a b => a.1 < b.1) :
    e ∈ insertEntry k v l ↔ e = (k, v) ∨ e ∈ l ∧ e.1 ≠ k := by
  induction l with
  | nil => simp [insertEntry]
  | cons d rest ih =>
    obtain ⟨hhead, htail⟩ := pairwise_cons.1 hl
    simp only [insertEntry]
    split_ifs with hlt hgt
    · have hne : e ∈ d :: rest → e.1 ≠ k := by
        intro he
        rcases mem_cons.1 he with rfl | he
        · exact hlt.ne'
        · exact (hlt.trans (hhead e he)).ne'
      rw [mem_cons]
      exact or_congr_right ⟨fun he => ⟨he, hne he⟩, And.left⟩
    · have hne : e = d → e.1 ≠ k := fun h => h ▸ hgt.ne
      rw [mem_cons, ih htail, mem_cons]
      tauto
    · have hk : d.1 = k := le_antisymm (not_lt.1 hlt) (not_lt.1 hgt)
      have hne : e ∈ rest → e.1 ≠ k := fun he => (hk ▸ hhead e he).ne'
      have heq : e = d → e.1 = k := fun h => h ▸ hk
      rw [mem_cons, mem_cons]
      tauto

theorem get?_insert : (m.insert k v).get? k' = if k' = k then some v else m.get? k' := by
  apply Option.ext
  intro w
  rw [get?_eq_some, insert, mem_insertEntry_iff m.ascending]
  split_ifs with h
  · simp [h, eq_comm]
  · simp [h, get?_eq_some]

@[simp] theorem get?_insert_self : (m.insert k v).get? k = some v := by
  rw [get?_insert, if_pos rfl]

theorem of_get?_insert {w : α} (h : (m.insert k v).get? k' = some w) :
    k' = k ∧ w = v ∨ m.get? k' = some w := by
  rw [get?_insert] at h
  split_ifs at h with heq
  · exact .inl ⟨heq, (Option.some.inj h).symm⟩
  · exact .inr h

theorem get?_insert_ne (h : k' ≠ k) : (m.insert k v).get? k' = m.get? k' := by
  rw [get?_insert, if_neg h]

@[simp] theorem get?_map {β : Type*} {f : α → β} : (m.map f).get? k = (m.get? k).map f := by
  apply Option.ext
  intro w
  rw [get?_eq_some, Option.map_eq_some_iff]
  simp [map, get?_eq_some]

theorem get?_modify {f : α → α} :
    (m.modify k f).get? k' = if k' = k then (m.get? k').map f else m.get? k' := by
  apply Option.ext
  intro w
  rw [get?_eq_some, modify, List.mem_map]
  constructor
  · rintro ⟨⟨k₀, v₀⟩, he, h⟩
    split_ifs at h with hk <;> cases h
    · rw [if_pos hk, get?_eq_some.2 he]
      rfl
    · rw [if_neg hk, get?_eq_some.2 he]
  · intro h
    split_ifs at h with hk
    · obtain ⟨v₀, hv, rfl⟩ := Option.map_eq_some_iff.1 h
      exact ⟨(k', v₀), get?_eq_some.1 hv, if_pos hk⟩
    · exact ⟨(k', w), get?_eq_some.1 h, if_neg hk⟩

theorem get?_erase : (m.erase k).get? k' = if k' = k then none else m.get? k' := by
  apply Option.ext
  intro w
  rw [get?_eq_some, erase, mem_filter]
  split_ifs with h
  · simp [h]
  · simp [h, get?_eq_some]

theorem get?_filter : (m.filter p).get? k = (m.get? k).filter p := by
  apply Option.ext
  intro w
  rw [get?_eq_some, filter, mem_filter, Option.filter_eq_some_iff, get?_eq_some]

/-- Maps with the same lookups are equal. -/
theorem ext_get? (h : ∀ k, m.get? k = m'.get? k) : m = m' := by
  have hmem (e : κ × α) : e ∈ m.entries ↔ e ∈ m'.entries := by
    rw [← get?_eq_some, ← get?_eq_some, h]
  have hperm : m.entries.Perm m'.entries :=
    (perm_ext_iff_of_nodup m.keys_nodup.of_map m'.keys_nodup.of_map).2 hmem
  apply ext_entries
  apply hperm.eq_of_pairwise (fun a b _ _ hab hba => absurd hab (lt_asymm hba)) m.ascending
    m'.ascending

/-- An insertion of what is there changes nothing. -/
theorem insert_eq_self (h : m.get? k = some v) : m.insert k v = m := by
  apply ext_get?
  intro k'
  rw [get?_insert]
  split_ifs with hk
  · rw [hk, h]
  · rfl

/-- The entries of a map that another one extends are among its entries. -/
theorem entries_subperm (h : ∀ k v, m.get? k = some v → m'.get? k = some v) :
    m.entries.Subperm m'.entries := by
  apply m.keys_nodup.of_map.subperm
  intro e he
  exact get?_eq_some.1 (h e.1 e.2 (get?_eq_some.2 he))

end Lookup

section Counting
variable {β : Type*} {m : OrderedMap κ α} {m' : OrderedMap κ β} {q : β → Bool}

/-- The keys whose values have a property. -/
def keysWith (m : OrderedMap κ α) (p : α → Bool) : List κ :=
  (m.entries.filter fun e => p e.2).map Prod.fst

theorem mem_keysWith : k ∈ m.keysWith p ↔ ∃ v, m.get? k = some v ∧ p v = true := by
  simp [keysWith, get?_eq_some]

theorem keysWith_nodup (m : OrderedMap κ α) (p : α → Bool) : (m.keysWith p).Nodup :=
  m.keys_nodup.sublist (filter_sublist.map _)

theorem count_eq_length : m.count p = (m.keysWith p).length := by
  rw [count, values, keysWith, length_map, countP_map, countP_eq_length_filter]
  rfl

/-- When every counted value of one map stands on a counted value of another one under
the same key, the counts compare. -/
theorem count_le_count
    (h : ∀ k v, m.get? k = some v → p v = true → ∃ w, m'.get? k = some w ∧ q w = true) :
    m.count p ≤ m'.count q := by
  rw [count_eq_length, count_eq_length]
  refine (subperm_of_subset (m.keysWith_nodup p) fun k hk => ?_).length_le
  obtain ⟨v, hv, hp⟩ := mem_keysWith.1 hk
  exact mem_keysWith.2 (h k v hv hp)

/-- One further key adds at most one to the count. -/
theorem count_le_count_succ (k₀ : κ)
    (h : ∀ k v, k ≠ k₀ → m.get? k = some v → p v = true → ∃ w, m'.get? k = some w ∧ q w = true) :
    m.count p ≤ m'.count q + 1 := by
  rw [count_eq_length, count_eq_length]
  refine (subperm_of_subset (m.keysWith_nodup p)
    (show m.keysWith p ⊆ k₀ :: m'.keysWith q from fun k hk => ?_)).length_le
  obtain ⟨v, hv, hp⟩ := mem_keysWith.1 hk
  by_cases hne : k = k₀
  · exact hne ▸ mem_cons_self
  · exact mem_cons_of_mem _ (mem_keysWith.2 (h k v hne hv hp))

/-- A key that is counted in the second map only makes the count smaller. -/
theorem count_lt_count {k₀ : κ} (hk₀ : ∃ w, m'.get? k₀ = some w ∧ q w = true)
    (h : ∀ k v, m.get? k = some v → p v = true → k ≠ k₀ ∧ ∃ w, m'.get? k = some w ∧ q w = true) :
    m.count p < m'.count q := by
  have hout : k₀ ∉ m.keysWith p := fun hmem => by
    obtain ⟨v, hv, hp⟩ := mem_keysWith.1 hmem
    exact (h k₀ v hv hp).1 rfl
  have hsub : k₀ :: m.keysWith p ⊆ m'.keysWith q := by
    refine cons_subset.2 ⟨mem_keysWith.2 hk₀, fun k hk => ?_⟩
    obtain ⟨v, hv, hp⟩ := mem_keysWith.1 hk
    exact mem_keysWith.2 (h k v hv hp).2
  rw [count_eq_length, count_eq_length]
  exact (subperm_of_subset (nodup_cons.2 ⟨hout, keysWith_nodup _ _⟩) hsub).length_le

variable {v : α} {f : α → α}

theorem count_insert_le : (m.insert k v).count p ≤ m.count p + 1 := by
  refine count_le_count_succ k fun k' v' hne hget hp => ⟨v', ?_, hp⟩
  rwa [get?_insert_ne hne] at hget

/-- A value that is not counted can only displace one that is. -/
theorem count_insert_of_not (h : p v = false) : (m.insert k v).count p ≤ m.count p := by
  refine count_le_count fun k' v' hget hp => ⟨v', ?_, hp⟩
  obtain ⟨-, rfl⟩ | hget := of_get?_insert hget
  · cases h.symm.trans hp
  · exact hget

theorem count_modify_le : (m.modify k f).count p ≤ m.count p + 1 := by
  refine count_le_count_succ k fun k' v' hne hget hp => ⟨v', ?_, hp⟩
  rwa [get?_modify, if_neg hne] at hget

/-- A rewriting that makes no value counted does not raise the count. -/
theorem count_modify_of (h : ∀ w, m.get? k = some w → p (f w) = true → p w = true) :
    (m.modify k f).count p ≤ m.count p := by
  refine count_le_count fun k' v' hget hp => ?_
  rw [get?_modify] at hget
  split_ifs at hget with hk
  · obtain ⟨w, hw, rfl⟩ := Option.map_eq_some_iff.1 hget
    exact ⟨w, hw, h w (hk ▸ hw) hp⟩
  · exact ⟨v', hget, hp⟩

/-- A rewriting that takes a value out of the count lowers it. -/
theorem count_modify_lt {w : α} (hw : m.get? k = some w) (hp : p w = true) (hf : p (f w) = false) :
    (m.modify k f).count p < m.count p := by
  refine count_lt_count ⟨w, hw, hp⟩ fun k' v' hget hcounted => ?_
  rw [get?_modify] at hget
  split_ifs at hget with hk
  · rw [hk, hw] at hget
    cases hget
    exact absurd hcounted (by simp [hf])
  · exact ⟨hk, v', hget, hcounted⟩

theorem count_le_length : m.count p ≤ m.entries.length := by
  rw [count, values, ← length_map Prod.snd]
  exact countP_le_length

theorem count_erase_le : (m.erase k).count p ≤ m.count p := by
  refine count_le_count fun k' v' hget hp => ⟨v', ?_, hp⟩
  rw [get?_erase] at hget
  split_ifs at hget
  exact hget

/-- A fresh key adds its entry and moves no other. -/
theorem insert_perm (h : m.get? k = none) : (m.insert k v).entries.Perm ((k, v) :: m.entries) := by
  have hfresh : ∀ l : List (κ × α), (∀ w, (k, w) ∉ l) →
      (insertEntry k v l).Perm ((k, v) :: l) := by
    intro l hl
    induction l with
    | nil => exact List.Perm.refl _
    | cons e rest ih =>
      simp only [insertEntry]
      split_ifs with hlt hgt
      · exact List.Perm.refl _
      · have hrest := ih fun w hw => hl w (mem_cons_of_mem e hw)
        exact (hrest.cons e).trans (List.Perm.swap _ _ _)
      · have hk : k = e.1 := le_antisymm (not_lt.1 hgt) (not_lt.1 hlt)
        subst hk
        exact absurd mem_cons_self (hl e.2)
  exact hfresh m.entries (get?_eq_none.1 h)

/-- A value put in place of another one adds no entry. -/
theorem length_insert_le {w : α} (h : m.get? k = some w) :
    (m.insert k v).entries.length ≤ m.entries.length := by
  have hsub : (m.insert k v).keys ⊆ m.keys := by
    intro k' hk'
    obtain ⟨⟨k₀, v'⟩, hmem, rfl⟩ := mem_map.1 hk'
    rcases (mem_insertEntry_iff m.ascending).1 hmem with heq | ⟨hold, -⟩
    · cases heq
      exact mem_map.2 ⟨(k, w), get?_eq_some.1 h, rfl⟩
    · exact mem_map.2 ⟨(k₀, v'), hold, rfl⟩
  have hlen := (subperm_of_subset (keys_nodup _) hsub).length_le
  simpa only [keys, length_map] using hlen

end Counting

end OrderedMap

end MiniDregg.Store
