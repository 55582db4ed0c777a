import MiniDregg.Clearing.Ledger
import MiniDregg.Clearing.Solver

/-!
# What the routing loop moves

The loop matches lots until one side is used up. Every seat moves at most its
lots, every lot is paid at the uniform price, and the goods moved are the
smaller of the two sides.
-/

namespace MiniDregg.Clearing

open Arith U128

variable {market : Market} {orders : List Order} {price : U128}

/-- The lots of a seat in a list of orders with quantities. -/
def lots (l : List (Order × U128)) (seat : UInt64) : ℕ :=
  (l.map fun p => if p.1.seat = seat then p.2.toNat else 0).sum

/-- All lots of a list. -/
def totalLots (l : List (Order × U128)) : ℕ := (l.map fun p => p.2.toNat).sum

@[simp] theorem lots_cons (o : Order) (q : U128) (rest : List (Order × U128)) (seat : UInt64) :
    lots ((o, q) :: rest) seat = (if o.seat = seat then q.toNat else 0) + lots rest seat := by
  simp [lots]

@[simp] theorem totalLots_nil : totalLots [] = 0 := rfl

@[simp] theorem totalLots_cons (o : Order) (q : U128) (rest : List (Order × U128)) :
    totalLots ((o, q) :: rest) = q.toNat + totalLots rest := by
  simp [totalLots]

variable {o : Order} {q m : U128} {bids asks : List (Order × U128)}

/-- Taking `m` from the head lot leaves the other lots. -/
theorem lots_advance (hm : m ≤ q) (rest : List (Order × U128)) (seat : UInt64) :
    lots (advance o (q.sub m) rest) seat + (if o.seat = seat then m.toNat else 0) =
      lots ((o, q) :: rest) seat := by
  have hle := le_iff.1 hm
  have hsub := toNat_sub_of_le hm
  rw [lots_cons, advance]
  split
  next hzero =>
    rw [hzero, toNat_zero] at hsub
    split <;> omega
  · rw [lots_cons, hsub]
    split <;> omega

theorem totalLots_advance (hm : m ≤ q) (rest : List (Order × U128)) :
    totalLots (advance o (q.sub m) rest) + m.toNat = totalLots ((o, q) :: rest) := by
  have hle := le_iff.1 hm
  have hsub := toNat_sub_of_le hm
  rw [totalLots_cons, advance]
  split
  next hzero =>
    rw [hzero, toNat_zero] at hsub
    omega
  · rw [totalLots_cons, hsub]
    omega

variable {rest : List (Order × U128)} {p : Order × U128}

theorem mem_advance {left : U128} (h : p ∈ advance o left rest) : p = (o, left) ∨ p ∈ rest := by
  unfold advance at h
  split at h
  · exact Or.inr h
  · exact List.mem_cons.1 h

variable {t : Transfer}

section Lot
variable {b a : Order} {m : U128}

private theorem toNat_eq_zero_of_not_pos {x : U128} (h : ¬ 0 < x) : x.toNat = 0 := by
  rw [lt_iff, toNat_zero] at h
  omega

section
variable (hassets : market.currency ≠ market.goods)
include hassets

/-- The goods of one matched lot go from the ask to the bid. -/
theorem tally_lotMoves_goods (e : Transfer → UInt64) (seat : UInt64) :
    tally e (lotMoves market price b a m) seat market.goods =
      if e ⟨a.seat, b.seat, market.goods, m⟩ = seat then m.toNat else 0 := by
  by_cases hm : 0 < m
  · by_cases hc : 0 < price.saturatingMul m <;>
      simp [lotMoves, hm, hc, tally_cons, hassets]
  · simp [lotMoves, hm, toNat_eq_zero_of_not_pos hm]

theorem moved_lotMoves_goods :
    moved (lotMoves market price b a m) market.goods = m.toNat := by
  by_cases hm : 0 < m
  · by_cases hc : 0 < price.saturatingMul m <;>
      simp [lotMoves, hm, hc, moved_cons, hassets]
  · simp [lotMoves, hm, toNat_eq_zero_of_not_pos hm]

/-- The currency of one matched lot goes from the bid to the ask. -/
theorem tally_lotMoves_currency
    (hfit : price.toNat * m.toNat < 2 ^ 128) (e : Transfer → UInt64) (seat : UInt64) :
    tally e (lotMoves market price b a m) seat market.currency =
      if e ⟨b.seat, a.seat, market.currency, price.saturatingMul m⟩ = seat then
        price.toNat * m.toNat else 0 := by
  have hprod := toNat_saturatingMul_of_lt hfit
  by_cases hm : 0 < m
  · by_cases hc : 0 < price.saturatingMul m
    · simp [lotMoves, hm, hc, tally_cons, hassets.symm, hprod]
    · have hzero := toNat_eq_zero_of_not_pos hc
      rw [hprod] at hzero
      simp [lotMoves, hm, hc, tally_cons, hassets.symm, hzero]
  · simp [lotMoves, hm, toNat_eq_zero_of_not_pos hm]

end

/-- The transfers of a lot are positive and run between its two orders. -/
theorem mem_lotMoves (ht : t ∈ lotMoves market price b a m) :
    t.amount ≠ 0 ∧
      ((t.asset = market.goods ∧ t.source = a.seat ∧ t.destination = b.seat ∧ t.amount = m) ∨
        (t.asset = market.currency ∧ t.source = b.seat ∧ t.destination = a.seat ∧
          t.amount = price.saturatingMul m)) := by
  unfold lotMoves at ht
  split at ht
  next hm =>
    rcases List.mem_cons.1 ht with rfl | ht
    · exact ⟨hm.ne', Or.inl ⟨rfl, rfl, rfl, rfl⟩⟩
    · split at ht
      next hc =>
        rw [List.mem_singleton] at ht
        subst ht
        exact ⟨hc.ne', Or.inr ⟨rfl, rfl, rfl, rfl⟩⟩
      · cases ht
  · cases ht

end Lot

theorem route_eq_nil (h : bids = [] ∨ asks = []) : route market price bids asks = [] := by
  rcases h with rfl | rfl
  · simp [route]
  · cases bids <;> simp [route]

/-- The loop stops with one side used up. -/
theorem eq_nil_of_no_heads
    (h : ∀ b bq bids' a aq asks', bids = (b, bq) :: bids' → asks = (a, aq) :: asks' → False) :
    bids = [] ∨ asks = [] := by
  cases bids with
  | nil => exact Or.inl rfl
  | cons p bids =>
    cases asks with
    | nil => exact Or.inr rfl
    | cons q asks => exact (h p.1 p.2 bids q.1 q.2 asks rfl rfl).elim

private theorem exists_of_mem_advance (hm : m ≤ q) (h : p ∈ advance o (q.sub m) rest) :
    ∃ p' ∈ (o, q) :: rest, p'.1 = p.1 ∧ p.2 ≤ p'.2 := by
  rcases mem_advance h with rfl | h
  · refine ⟨(o, q), by simp, rfl, ?_⟩
    rw [le_iff, toNat_sub_of_le hm]
    exact Nat.sub_le _ _
  · exact ⟨p, by simp [h], rfl, le_rfl⟩

/-- A routed transfer belongs to a lot between a bid and an ask of the two
lists, no larger than either. -/
theorem mem_route (ht : t ∈ route market price bids asks) :
    ∃ b ∈ bids, ∃ a ∈ asks, ∃ m : U128, m ≤ b.2 ∧ m ≤ a.2 ∧
      t ∈ lotMoves market price b.1 a.1 m := by
  induction bids, asks using route.induct with
  | case1 b bq bids a aq asks matched ih =>
    rw [route, List.mem_append] at ht
    rcases ht with ht | ht
    · exact ⟨(b, bq), by simp, (a, aq), by simp, min bq aq, min_le_left _ _, min_le_right _ _,
        ht⟩
    · obtain ⟨b', hb', a', ha', m, hmb, hma, hm⟩ := ih ht
      obtain ⟨p, hp, hpb, hple⟩ := exists_of_mem_advance (min_le_left bq aq) hb'
      obtain ⟨q, hq, hqa, hqle⟩ := exists_of_mem_advance (min_le_right bq aq) ha'
      exact ⟨p, hp, q, hq, m, hmb.trans hple, hma.trans hqle, by rw [hpb, hqa]; exact hm⟩
  | case2 bids asks hne =>
    rw [route_eq_nil (eq_nil_of_no_heads hne)] at ht
    cases ht

section Route
variable (hassets : market.currency ≠ market.goods)
include hassets

variable (bids asks : List (Order × U128))

/-- The smaller side is moved completely. -/
theorem moved_route_goods :
    moved (route market price bids asks) market.goods =
      min (totalLots bids) (totalLots asks) := by
  induction bids, asks using route.induct with
  | case1 b bq bids a aq asks matched ih =>
    have hb := totalLots_advance (o := b) (min_le_left bq aq) bids
    have ha := totalLots_advance (o := a) (min_le_right bq aq) asks
    simp only [matched] at ih
    rw [route, moved_append, moved_lotMoves_goods hassets, ih]
    omega
  | case2 bids asks hne =>
    have hnil := eq_nil_of_no_heads hne
    rw [route_eq_nil hnil]
    rcases hnil with rfl | rfl <;> simp

/-- A seat receives at most the lots it has among the bids and sends at most those it has among
the asks. -/
theorem route_goods_le (seat : UInt64) :
    received (route market price bids asks) seat market.goods ≤ lots bids seat ∧
      sent (route market price bids asks) seat market.goods ≤ lots asks seat := by
  induction bids, asks using route.induct with
  | case1 b bq bids a aq asks matched ih =>
    have hb := lots_advance (o := b) (min_le_left bq aq) bids seat
    have ha := lots_advance (o := a) (min_le_right bq aq) asks seat
    rw [route, received, sent, tally_append, tally_append, tally_lotMoves_goods hassets,
      tally_lotMoves_goods hassets, ← hb, ← ha, add_comm, add_comm (ite _ _ _)]
    exact ⟨Nat.add_le_add_right ih.1 _, Nat.add_le_add_right ih.2 _⟩
  | case2 bids asks hne =>
    rw [route_eq_nil (eq_nil_of_no_heads hne)]
    exact ⟨Nat.zero_le _, Nat.zero_le _⟩

/-- Every lot is paid at the price, in the other direction. -/
theorem tally_route_currency
    (hfit : ∀ b ∈ bids, price.toNat * b.2.toNat < 2 ^ 128) (seat : UInt64) :
    sent (route market price bids asks) seat market.currency =
        price.toNat * received (route market price bids asks) seat market.goods ∧
      received (route market price bids asks) seat market.currency =
        price.toNat * sent (route market price bids asks) seat market.goods := by
  induction bids, asks using route.induct with
  | case1 b bq bids a aq asks matched ih =>
    have hmatched : price.toNat * (min bq aq).toNat < 2 ^ 128 :=
      lt_of_le_of_lt (Nat.mul_le_mul_left _ (le_iff.1 (min_le_left bq aq)))
        (hfit (b, bq) (by simp))
    have hrest : ∀ p ∈ advance b (bq.sub (min bq aq)) bids,
        price.toNat * p.2.toNat < 2 ^ 128 := by
      intro p hp
      obtain ⟨p', hp', _, hle⟩ := exists_of_mem_advance (min_le_left bq aq) hp
      exact lt_of_le_of_lt (Nat.mul_le_mul_left _ (le_iff.1 hle)) (hfit p' hp')
    obtain ⟨hsent, hreceived⟩ := ih hrest
    rw [route]
    simp only [sent, received, tally_append, tally_lotMoves_goods hassets,
      tally_lotMoves_currency hassets hmatched] at hsent hreceived ⊢
    rw [hsent, hreceived, Nat.mul_add, Nat.mul_add, mul_ite, mul_ite, mul_zero]
    exact ⟨rfl, rfl⟩
  | case2 bids asks hne =>
    rw [route_eq_nil (eq_nil_of_no_heads hne)]
    simp

end Route

end MiniDregg.Clearing
