import Mathlib.Tactic.Linarith
import MiniDregg.Clearing.Ledger
import MiniDregg.Clearing.Solver

/-!
# The selected price is globally optimal

The crossing volume at a price is the smaller of the bid and the ask capacity.
Lowering a price to the largest ask threshold below it keeps every ask and can
only add bids, so the thresholds contain a maximizer over all prices.
-/

namespace MiniDregg.Clearing

open Arith List MiniDregg.Clearing.Order U128 Nat Best

variable {orders : List Order}

/-- The goods the crossing orders of a side can take at a price. -/
def sideCapacity (side : Side) (orders : List Order) (price : ℕ) : ℕ :=
  (orders.map fun o => if o.role = side then o.capacity price else 0).sum

/-- The volume that can be cleared at a price. -/
def crossVolume (orders : List Order) (price : ℕ) : ℕ :=
  min (sideCapacity .bid orders price) (sideCapacity .ask orders price)

/-! ## Candidates -/

variable {x a price vol imbalance : U128} {l bidLimits askLimits acc : List U128}

theorem mem_insertAscending :
    x ∈ insertAscending a l ↔ x = a ∨ x ∈ l := by
  induction l with
  | nil => simp [insertAscending]
  | cons b rest ih =>
    simp only [insertAscending]
    split
    · simp
    · split
      next heq =>
        subst heq
        simp
      · simp only [mem_cons, ih]
        tauto

theorem mem_withMidpoints (h : x ∈ acc) :
    x ∈ withMidpoints bidLimits askLimits acc := by
  refine List.foldlRecOn bidLimits _ h fun acc hacc b _ => ?_
  refine List.foldlRecOn askLimits _ hacc fun acc hacc a _ => ?_
  by_cases hab : a ≤ b
  · simp only [hab, if_true]
    exact mem_insertAscending.2 (Or.inr hacc)
  · simpa only [hab, if_false] using hacc

variable {o : Order} {q p : ℕ} {best : Best}

theorem ceilPrice_mem_thresholds (ho : o ∈ orders) : o.ceilPrice ∈ thresholds orders := by
  obtain ⟨before, after, rfl⟩ := append_of_mem ho
  rw [thresholds, foldl_append, foldl_cons]
  refine List.foldlRecOn (motive := fun acc => o.ceilPrice ∈ acc) after _
    (mem_insertAscending.2 (Or.inl rfl)) fun acc hacc p _ => ?_
  simp [mem_insertAscending, hacc]

theorem ceilPrice_mem_candidates (ho : o ∈ orders) : o.ceilPrice ∈ candidates orders := by
  have hmem : o.ceilPrice ∈ withMidpoints
      ((orders.filter fun o => o.role = .bid).map floorPrice)
      ((orders.filter fun o => o.role = .ask).map ceilPrice) (thresholds orders) :=
    mem_withMidpoints (ceilPrice_mem_thresholds ho)
  have hne := ne_nil_of_mem hmem
  rw [candidates, if_neg (by simpa using hne)]
  exact hmem

theorem candidates_ne_nil (orders : List Order) : candidates orders ≠ [] := by
  rw [candidates]
  split
  · exact ne_nil_of_mem (mem_insertAscending.2 (Or.inl rfl))
  · next h => simpa using h

/-! ## Thresholds -/

private theorem ceil_le_iff {total : ℕ} (hq : 0 < q) :
    total / q + (if total % q = 0 then 0 else 1) ≤ p ↔ total ≤ p * q := by
  have hdiv := div_add_mod total q
  have hlt := mod_lt total hq
  constructor
  · intro h
    have hmul := mul_le_mul_right q h
    split at hmul
    · nlinarith
    · nlinarith
  · intro h
    split
    · rw [add_zero]
      exact Nat.div_le_of_le_mul (by linarith)
    next hmod =>
      have : total / q < p := by
        rw [div_lt_iff_lt_mul hq]
        rcases lt_or_ge total (p * q) with hlt' | hge
        · exact hlt'
        · have heq : total = p * q := le_antisymm h hge
          rw [heq, mul_mod_left] at hmod
          exact absurd rfl hmod
      omega

theorem toNat_ceilPrice_le_iff (hpos : o.maxGoods ≠ 0) :
    o.ceilPrice.toNat ≤ p ↔ o.total.toNat ≤ p * o.maxGoods.toNat := by
  have hq : 0 < o.maxGoods.toNat := by
    rw [ne_iff, toNat_zero] at hpos
    omega
  have hfit : o.total.toNat / o.maxGoods.toNat +
      (if o.total.toNat % o.maxGoods.toNat = 0 then 0 else 1) < 2 ^ 128 :=
    lt_of_le_of_lt ((ceil_le_iff hq).2 (Nat.le_mul_of_pos_right _ hq)) o.total.lt
  rw [ceilPrice, divCeil, toNat_ofNat_of_lt hfit, ceil_le_iff hq]

theorem Order.crosses_ask_iff (hrole : o.role = .ask) (hpos : o.maxGoods ≠ 0) :
    o.Crosses p ↔ o.ceilPrice.toNat ≤ p := by
  rw [toNat_ceilPrice_le_iff hpos]
  simp only [Crosses, hrole]

/-- A bid that crosses keeps crossing at a lower price. -/
theorem Order.Crosses.of_le (hrole : o.role = .bid) (h : o.Crosses p) (hqp : q ≤ p) :
    o.Crosses q := by
  simp only [Crosses, hrole] at h ⊢
  exact (mul_le_mul_right _ hqp).trans h

/-- More crossing orders, more capacity. -/
theorem sideCapacity_le {side : Side}
    (h : ∀ o ∈ orders, o.role = side → o.Crosses p → o.Crosses q) :
    sideCapacity side orders p ≤ sideCapacity side orders q := by
  apply sum_le_sum
  intro o ho
  by_cases hrole : o.role = side
  · by_cases hcross : o.Crosses p
    · simp [hrole, capacity, hcross, h o ho hrole hcross]
    · simp [capacity, hcross]
  · simp [hrole]

theorem sideCapacity_eq_zero {side : Side} (h : ∀ o ∈ orders, o.role = side → ¬ o.Crosses p) :
    sideCapacity side orders p = 0 := by
  rw [sideCapacity, sum_eq_zero]
  intro x hx
  obtain ⟨o, ho, rfl⟩ := mem_map.1 hx
  by_cases hrole : o.role = side
  · simp [hrole, capacity, h o ho hrole]
  · simp [hrole]

/-- Some candidate clears at least what any price clears. -/
theorem exists_candidate_ge (hpos : ∀ o ∈ orders, o.maxGoods ≠ 0) (p : ℕ) :
    crossVolume orders p = 0 ∨
      ∃ c ∈ candidates orders, crossVolume orders p ≤ crossVolume orders c.toNat := by
  by_cases hask : ∃ o ∈ orders, o.role = .ask ∧ o.Crosses p
  · obtain ⟨o₀, ho₀, h₀⟩ := hask
    have hne : (orders.toFinset.filter fun o => o.role = .ask ∧ o.Crosses p).Nonempty :=
      ⟨o₀, by simpa using ⟨ho₀, h₀⟩⟩
    obtain ⟨o, ho, hmax⟩ := Finset.exists_max_image _ (fun o => o.ceilPrice.toNat) hne
    simp only [Finset.mem_filter, mem_toFinset] at ho hmax
    obtain ⟨homem, horole, hocross⟩ := ho
    have hle := (crosses_ask_iff horole (hpos o homem)).1 hocross
    refine Or.inr ⟨o.ceilPrice, ceilPrice_mem_candidates homem, ?_⟩
    apply min_le_min
    · exact sideCapacity_le fun q _ hrole hcross => hcross.of_le hrole hle
    · apply sideCapacity_le
      intro q hq hrole hcross
      rw [crosses_ask_iff hrole (hpos q hq)]
      exact hmax q ⟨hq, hrole, hcross⟩
  · left
    have hzero : sideCapacity .ask orders p = 0 := by
      apply sideCapacity_eq_zero
      intro o ho hrole hcross
      exact hask ⟨o, ho, hrole, hcross⟩
    simp [crossVolume, hzero]

/-! ## The price loop -/

/-- The words of the price loop are exact: notionals fit for every candidate and
the quantities of the book have a sum that fits. -/
structure SelectionFits (orders : List Order) : Prop where
  notional : ∀ p ∈ candidates orders, ∀ o ∈ orders, p.toNat * o.maxGoods.toNat < 2 ^ 128
  goods : (orders.map fun o => o.maxGoods.toNat).sum < 2 ^ 128

theorem sum_crossing (side : Side) {l : List Order}
    (hfit : ∀ o ∈ l, price.toNat * o.maxGoods.toNat < 2 ^ 128) :
    ((crossing side l price).map fun o => o.maxGoods.toNat).sum =
      sideCapacity side l price.toNat := by
  induction l with
  | nil => rfl
  | cons o rest ih =>
    have hrest := ih fun p hp => hfit p (mem_cons_of_mem o hp)
    have ho := crosses_iff (hfit o (mem_cons_self ..))
    simp only [crossing, sideCapacity, filter_cons, map_cons,
      sum_cons] at hrest ⊢
    rw [← hrest]
    by_cases hrole : o.role = side
    · by_cases hcross : o.Crosses price.toNat
      · simp [hrole, ho.2 hcross, capacity, hcross]
      · have hword : o.crosses price = false := by
          rw [← Bool.not_eq_true, ho]
          exact hcross
        simp [hword, capacity, hcross]
    · simp [hrole]

theorem sideCapacity_le_sum (orders : List Order) (side : Side) (p : ℕ) :
    sideCapacity side orders p ≤ (orders.map fun o => o.maxGoods.toNat).sum := by
  apply sum_le_sum
  intro o _
  by_cases hrole : o.role = side
  · simp only [hrole, if_true, capacity]
    split <;> omega
  · simp [hrole]

theorem toNat_crossingCapacity (side : Side)
    (hfit : ∀ o ∈ orders, price.toNat * o.maxGoods.toNat < 2 ^ 128)
    (hgoods : (orders.map fun o => o.maxGoods.toNat).sum < 2 ^ 128) :
    (crossingCapacity side orders price).toNat = sideCapacity side orders price.toNat := by
  have hsum := sum_crossing side hfit
  have hle := sideCapacity_le_sum orders side price.toNat
  rw [crossingCapacity, toNat_sum]
  · rw [map_map]
    exact hsum
  · rw [map_map]
    exact lt_of_le_of_lt (hsum.trans_le hle) hgoods

/-- The volume word of the price loop. -/
def volumeWord (orders : List Order) (p : U128) : U128 :=
  min (crossingCapacity .bid orders p) (crossingCapacity .ask orders p)

theorem SelectionFits.toNat_volumeWord (h : SelectionFits orders) {p : U128}
    (hp : p ∈ candidates orders) : (volumeWord orders p).toNat = crossVolume orders p.toNat := by
  rw [volumeWord, toNat_min, toNat_crossingCapacity .bid (h.notional p hp) h.goods,
    toNat_crossingCapacity .ask (h.notional p hp) h.goods, crossVolume]

theorem Best.le_of_beatenBy (h : best.beatenBy vol imbalance = true) : best.vol ≤ vol := by
  unfold beatenBy at h
  split at h
  · exact (of_decide_eq_true h).le
  · next heq => exact (not_not.1 heq).ge

theorem Best.le_of_not_beatenBy (h : ¬ best.beatenBy vol imbalance = true) : vol ≤ best.vol := by
  unfold beatenBy at h
  split at h
  · simpa using h
  · next heq => exact (not_not.1 heq).le

/-- One round keeps the recorded volume true and never lowers it. -/
theorem selectStep_spec (orders : List Order) (best : Best) (p : U128) :
    (selectStep orders best p = best ∧ volumeWord orders p ≤ best.vol) ∨
      ((selectStep orders best p).price = p ∧
        (selectStep orders best p).vol = volumeWord orders p ∧
        best.vol ≤ volumeWord orders p) := by
  simp only [selectStep]
  split
  · next h => exact Or.inr ⟨rfl, rfl, le_of_beatenBy h⟩
  · next h => exact Or.inl ⟨rfl, le_of_not_beatenBy h⟩

/-- The recorded best after a run of the price loop. -/
theorem foldl_selectStep (hbest : best.vol = volumeWord orders best.price) (l : List U128) :
    let final := l.foldl (selectStep orders) best
    final.vol = volumeWord orders final.price ∧ best.vol ≤ final.vol ∧
      (∀ p ∈ l, volumeWord orders p ≤ final.vol) ∧
      (final.price = best.price ∨ final.price ∈ l) := by
  induction l generalizing best with
  | nil => simp [hbest]
  | cons p rest ih =>
    simp only [foldl_cons]
    rcases selectStep_spec orders best p with ⟨hsame, hle⟩ | ⟨hprice, hvol, hle⟩
    · rw [hsame]
      obtain ⟨htrue, hmono, hall, hmem⟩ := ih hbest
      refine ⟨htrue, hmono, ?_, ?_⟩
      · exact forall_mem_cons.2 ⟨hle.trans hmono, hall⟩
      · exact hmem.imp id (mem_cons_of_mem p)
    · obtain ⟨htrue, hmono, hall, hmem⟩ := ih (hvol.trans (by rw [hprice]))
      refine ⟨htrue, hle.trans (hvol ▸ hmono), ?_, ?_⟩
      · exact forall_mem_cons.2 ⟨hvol ▸ hmono, hall⟩
      · rcases hmem with hmem | hmem
        · exact Or.inr (by rw [hmem, hprice]; simp)
        · exact Or.inr (mem_cons_of_mem p hmem)

/-- The selected price is a candidate, its volume is recorded, and no candidate
clears more. -/
theorem selectPrice_spec (orders : List Order) :
    (selectPrice orders).price ∈ candidates orders ∧
      (selectPrice orders).vol = volumeWord orders (selectPrice orders).price ∧
      ∀ p ∈ candidates orders, volumeWord orders p ≤ (selectPrice orders).vol := by
  obtain ⟨c, rest, hc⟩ := exists_cons_of_ne_nil (candidates_ne_nil orders)
  have hfirst : (selectStep orders ⟨c, 0, maxValue⟩ c).vol =
      volumeWord orders (selectStep orders ⟨c, 0, maxValue⟩ c).price ∧
      (selectStep orders ⟨c, 0, maxValue⟩ c).price = c := by
    rcases selectStep_spec orders ⟨c, 0, maxValue⟩ c with
      ⟨hsame, hle⟩ | ⟨hprice, hvol, _⟩
    · rw [hsame]
      refine ⟨?_, rfl⟩
      apply ext
      have := le_iff.1 hle
      simp only [toNat_zero] at this ⊢
      omega
    · exact ⟨hvol.trans (by rw [hprice]), hprice⟩
  have hrun : selectPrice orders =
      rest.foldl (selectStep orders) (selectStep orders ⟨c, 0, maxValue⟩ c) := by
    rw [selectPrice, hc]
    rfl
  obtain ⟨htrue, hmono, hall, hmem⟩ := foldl_selectStep hfirst.1 rest
  rw [← hrun] at htrue hmono hall hmem
  rw [hc]
  refine ⟨?_, htrue, ?_⟩
  · rcases hmem with hmem | hmem
    · rw [hmem, hfirst.2]
      simp
    · exact mem_cons_of_mem c hmem
  · intro p hp
    rcases mem_cons.1 hp with rfl | hp
    · rw [hfirst.1, hfirst.2] at hmono
      exact hmono
    · exact hall p hp

/-- The recorded volume is the largest over all prices. -/
theorem selectPrice_isGreatest (hpos : ∀ o ∈ orders, o.maxGoods ≠ 0)
    (hfits : SelectionFits orders) :
    (selectPrice orders).vol.toNat = crossVolume orders (selectPrice orders).price.toNat ∧
      IsGreatest (Set.range (crossVolume orders)) (selectPrice orders).vol.toNat := by
  obtain ⟨hmem, hvol, hall⟩ := selectPrice_spec orders
  have htrue : (selectPrice orders).vol.toNat =
      crossVolume orders (selectPrice orders).price.toNat := by
    rw [hvol, hfits.toNat_volumeWord hmem]
  refine ⟨htrue, ⟨_, htrue.symm⟩, ?_⟩
  rintro v ⟨p, rfl⟩
  rcases exists_candidate_ge hpos p with hzero | ⟨c, hc, hle⟩
  · rw [hzero]
    exact zero_le _
  · calc crossVolume orders p ≤ crossVolume orders c.toNat := hle
      _ = (volumeWord orders c).toNat := (hfits.toNat_volumeWord hc).symm
      _ ≤ (selectPrice orders).vol.toNat := le_iff.1 (hall c hc)

end MiniDregg.Clearing
