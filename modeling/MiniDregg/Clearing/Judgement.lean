import Mathlib.Data.List.Nodup
import MiniDregg.Clearing.Certificate

/-!
# What the judge accepts

`verifyCertF` returns `Ok` exactly on the inputs described by `Accepted`. The
proofs about accepted certificates use this description and never unfold the
loops of the judge.
-/

namespace MiniDregg.Clearing

open Arith Fallible List I128

variable {market : Market} {orders : List Order} {moves : List Transfer} {cert : Certificate}

/-- The book both the judge and the solver ask for. -/
structure WellFormed (market : Market) (orders : List Order) : Prop where
  assets : market.currency ≠ market.goods
  positive : ∀ o ∈ orders, o.maxGoods ≠ 0
  seats : (orders.map Order.seat).Nodup

variable {idx j : ℕ}

theorem checkOrders_eq_ok {zeroGoods duplicate : ℕ → Order → String}
    {seen : List UInt64} {l : List Order} :
    checkOrders zeroGoods duplicate idx seen l = .ok () ↔
      (∀ o ∈ l, o.maxGoods ≠ 0) ∧ (l.map Order.seat).Nodup ∧ ∀ o ∈ l, o.seat ∉ seen := by
  induction l generalizing idx seen with
  | nil => simp [checkOrders]
  | cons o rest ih =>
    simp only [checkOrders, check_bind_eq_ok, refuseIf_decide, ih, mem_cons, map_cons, nodup_cons,
      mem_map, not_or, not_exists, not_and, forall_eq_or_imp]
    constructor
    · rintro ⟨hpos, hnew, hall, hnodup, hseen⟩
      exact ⟨⟨hpos, hall⟩, ⟨fun p hp heq => (hseen p hp).1 heq, hnodup⟩,
        hnew, fun p hp => (hseen p hp).2⟩
    · rintro ⟨⟨hpos, hall⟩, ⟨hfresh, hnodup⟩, hnew, hseen⟩
      exact ⟨hpos, hnew, hall, hnodup, fun p hp => ⟨hfresh p hp, hseen p hp⟩⟩

/-- The seat of an order names that order. -/
theorem find_seat_eq_some (hseats : (orders.map Order.seat).Nodup) {seat : UInt64} {o : Order} :
    (orders.find? fun p => p.seat = seat) = some o ↔ o ∈ orders ∧ o.seat = seat := by
  constructor
  · intro h
    exact ⟨mem_of_find?_eq_some h, by simpa using find?_some h⟩
  · rintro ⟨hmem, hseat⟩
    cases h : orders.find? fun p => p.seat = seat with
    | none =>
      have := find?_eq_none.1 h o hmem
      simp [hseat] at this
    | some p =>
      have hp := mem_of_find?_eq_some h
      have hps : p.seat = seat := by simpa using find?_some h
      rw [inj_on_of_nodup_map hseats hp hmem (hps.trans hseat.symm)]

def Side.other : Side → Side
  | .bid => .ask
  | .ask => .bid

/-- The ends of a transfer are orders, the sending one on the given side. -/
structure Transfer.RunsFrom (t : Transfer) (orders : List Order) (side : Side) : Prop where
  source : ∃ o ∈ orders, o.seat = t.source ∧ o.role = side
  destination : ∃ o ∈ orders, o.seat = t.destination ∧ o.role = side.other

/-- A transfer the judge lets through: goods run from asks, currency from bids. -/
structure Transfer.Legal (t : Transfer) (market : Market) (orders : List Order) : Prop where
  amount : t.amount ≠ 0
  ends : t.source ≠ t.destination
  runs : (t.asset = market.goods ∧ t.RunsFrom orders .ask) ∨
    (t.asset = market.currency ∧ t.RunsFrom orders .bid)

theorem checkMove_eq_ok (hwf : WellFormed market orders) {t : Transfer} :
    checkMove market orders idx t = .ok () ↔ t.Legal market orders := by
  simp only [checkMove, check_bind_eq_ok, refuseIf_decide]
  constructor
  · rintro ⟨hamount, hends, hasset, h⟩
    split at h
    · cases h
    next src hsrc =>
      split at h
      · cases h
      next dst hdst =>
        obtain ⟨hsmem, hsseat⟩ := (find_seat_eq_some hwf.seats).1 hsrc
        obtain ⟨hdmem, hdseat⟩ := (find_seat_eq_some hwf.seats).1 hdst
        simp only [check_bind_eq_ok, refuseIf_decide, not_and, not_or, not_not] at h
        refine ⟨hamount, hends, ?_⟩
        by_cases hgoods : t.asset = market.goods
        · obtain ⟨hs, hd⟩ := h.1 hgoods
          exact Or.inl ⟨hgoods, ⟨src, hsmem, hsseat, hs⟩, ⟨dst, hdmem, hdseat, hd⟩⟩
        · have hcurrency : t.asset = market.currency := by
            by_contra hne
            exact hasset ⟨hne, hgoods⟩
          obtain ⟨hs, hd⟩ := h.2 hcurrency
          exact Or.inr ⟨hcurrency, ⟨src, hsmem, hsseat, hs⟩, ⟨dst, hdmem, hdseat, hd⟩⟩
  · rintro ⟨hamount, hends, hruns⟩
    refine ⟨hamount, hends, ?_, ?_⟩
    · rintro ⟨hc, hg⟩
      rcases hruns with ⟨h, _⟩ | ⟨h, _⟩
      · exact hg h
      · exact hc h
    · have hassets := hwf.assets
      rcases hruns with ⟨hasset, ⟨src, hsmem, hsseat, hs⟩, ⟨dst, hdmem, hdseat, hd⟩⟩ |
        ⟨hasset, ⟨src, hsmem, hsseat, hs⟩, ⟨dst, hdmem, hdseat, hd⟩⟩
      all_goals
        rw [(find_seat_eq_some hwf.seats).2 ⟨hsmem, hsseat⟩,
          (find_seat_eq_some hwf.seats).2 ⟨hdmem, hdseat⟩]
        simp [hasset, hs, hd, hassets, hassets.symm, Side.other]

theorem checkMoves_eq_ok (hwf : WellFormed market orders) {l : List Transfer} :
    checkMoves market orders idx l = .ok () ↔ ∀ t ∈ l, t.Legal market orders := by
  induction l generalizing idx with
  | nil => simp [checkMoves]
  | cons t rest ih =>
    simp only [checkMoves, check_bind_eq_ok, ih, checkMove_eq_ok hwf, mem_cons,
      forall_eq_or_imp]

/-- One order passes the main loop: uniform price, box, and dual feasibility. -/
structure OrderPasses (market : Market) (moves : List Transfer) (cert : Certificate)
    (o : Order) (s : I128) : Prop where
  uniform : o.paid moves market = cert.price.toI128.saturatingMul (o.fill moves market)
  fill_nonneg : 0 ≤ o.fill moves market
  fill_le : o.fill moves market ≤ o.capacityAt cert.price
  slack : 0 ≤ s
  dual : 1 ≤ (cert.piA o.role).saturatingAdd s

/-- The accumulators after a list of orders with their slacks. -/
def totalsOf (market : Market) (moves : List Transfer) (cert : Certificate) (acc : Totals)
    (l : List (Order × I128)) : Totals where
  row0Flow := saturatingSum acc.row0Flow
    (l.map fun p => p.1.role.out.saturatingMul (p.1.fill moves market))
  row1Flow := saturatingSum acc.row1Flow
    (l.map fun p => (-p.1.role.out).saturatingMul (p.1.fill moves market))
  wDotF := saturatingSum acc.wDotF (l.map fun p => p.1.fill moves market)
  cDotS := saturatingSum acc.cDotS
    (l.map fun p => (p.1.capacityAt cert.price).saturatingMul p.2)

theorem judgeOrder_eq_ok {acc next : Totals} {o : Order} {s : I128} :
    judgeOrder market moves cert j acc o s = .ok next ↔
      OrderPasses market moves cert o s ∧ next = totalsOf market moves cert acc [(o, s)] := by
  simp only [judgeOrder, check_bind_eq_ok, refuseIf_decide, not_not, not_or, not_lt, pure_inj,
    totalsOf, map_cons, map_nil, saturatingSum_cons, saturatingSum_nil]
  constructor
  · rintro ⟨huniform, ⟨hnonneg, hle⟩, hslack, hdual, rfl⟩
    exact ⟨⟨huniform, hnonneg, hle, hslack, hdual⟩, rfl⟩
  · rintro ⟨⟨huniform, hnonneg, hle, hslack, hdual⟩, rfl⟩
    exact ⟨huniform, ⟨hnonneg, hle⟩, hslack, hdual, rfl⟩

theorem judgeOrders_eq_ok {acc totals : Totals} {l : List (Order × I128)} :
    judgeOrders market moves cert j acc l = .ok totals ↔
      (∀ p ∈ l, OrderPasses market moves cert p.1 p.2) ∧
        totals = totalsOf market moves cert acc l := by
  induction l generalizing j acc with
  | nil => simp [judgeOrders, totalsOf, eq_comm]
  | cons p rest ih =>
    obtain ⟨o, s⟩ := p
    simp only [judgeOrders, bind_eq_ok, judgeOrder_eq_ok, ih, mem_cons, forall_eq_or_imp]
    constructor
    · rintro ⟨next, ⟨ho, rfl⟩, hrest, rfl⟩
      exact ⟨⟨ho, hrest⟩, rfl⟩
    · rintro ⟨⟨ho, hrest⟩, rfl⟩
      exact ⟨_, ⟨ho, rfl⟩, hrest, rfl⟩

/-- Everything the judge has checked when it accepts. -/
structure Accepted (market : Market) (orders : List Order) (moves : List Transfer)
    (cert : Certificate) : Prop where
  wellFormed : WellFormed market orders
  slackCount : cert.slacks.length = orders.length
  legal : ∀ t ∈ moves, t.Legal market orders
  passes : ∀ p ∈ orders.zip cert.slacks, OrderPasses market moves cert p.1 p.2
  row0 : (totalsOf market moves cert ⟨0, 0, 0, 0⟩ (orders.zip cert.slacks)).row0Flow = 0
  row1 : (totalsOf market moves cert ⟨0, 0, 0, 0⟩ (orders.zip cert.slacks)).row1Flow = 0
  gap : (totalsOf market moves cert ⟨0, 0, 0, 0⟩ (orders.zip cert.slacks)).cDotS.saturatingSub
      (totalsOf market moves cert ⟨0, 0, 0, 0⟩ (orders.zip cert.slacks)).wDotF ≤
    market.epsilon.toI128

/-- The judge accepts exactly these inputs. -/
theorem verifyCertF_eq_ok :
    verifyCertF market orders moves cert = .ok () ↔ Accepted market orders moves cert := by
  simp only [verifyCertF, check_bind_eq_ok, checkOrders_eq_ok, refuseIf_decide, not_not]
  rw [bind_eq_ok]
  simp only [judgeOrders_eq_ok, check_bind_eq_ok, refuseIf_decide, not_or, not_not, not_lt]
  constructor
  · rintro ⟨hassets, ⟨hpos, hseats, _⟩, hcount, hmoves, totals, ⟨hpass, rfl⟩,
      ⟨hrow0, hrow1⟩, hgap⟩
    have hwf : WellFormed market orders := ⟨hassets, hpos, hseats⟩
    exact ⟨hwf, hcount, (checkMoves_eq_ok hwf).1 hmoves, hpass, hrow0, hrow1, hgap⟩
  · rintro ⟨hwf, hcount, hmoves, hpass, hrow0, hrow1, hgap⟩
    exact ⟨hwf.assets, ⟨hwf.positive, hwf.seats, by simp⟩, hcount,
      (checkMoves_eq_ok hwf).2 hmoves, _, ⟨hpass, rfl⟩, ⟨hrow0, hrow1⟩, hgap⟩

end MiniDregg.Clearing
