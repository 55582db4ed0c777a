import MiniDregg.Clearing.Exactness

/-!
# What an accepted certificate promises

An accepted settlement respects every budget and reserve pro rata, fills only
orders that cross, conserves both assets, and is optimal up to the market's
tolerance among all settlements at its price. The last part is weak duality;
it needs the dual objective to be added up without saturation.
-/

namespace MiniDregg.Clearing

open Arith Fallible List I128 MiniDregg.Clearing.Order

variable {market : Market} {orders : List Order} {moves : List Transfer} {cert : Certificate}

/-- The primal checks at a price, in unbounded numbers: legal transfers, the
uniform price at every seat, and fills within the crossing capacities. -/
structure PrimalFeasible (market : Market) (orders : List Order) (price : ℕ)
    (moves : List Transfer) : Prop where
  legal : ∀ t ∈ moves, t.Legal market orders
  uniform : ∀ o ∈ orders, o.exactPaid moves market = price * o.exactFill moves market
  box : ∀ o ∈ orders, 0 ≤ o.exactFill moves market ∧
    o.exactFill moves market ≤ o.capacity price

/-- The goods filled over all orders, bids and asks together. -/
def totalFill (market : Market) (orders : List Order) (moves : List Transfer) : ℤ :=
  (orders.map fun o => o.exactFill moves market).sum

/-- The promises of a certificate. -/
structure Sound (market : Market) (orders : List Order) (moves : List Transfer)
    (cert : Certificate) : Prop where
  bid_pays : ∀ o ∈ orders, o.role = .bid →
    o.exactPaid moves market * o.maxGoods.toNat ≤ o.total.toNat * o.exactFill moves market
  ask_receives : ∀ o ∈ orders, o.role = .ask →
    o.total.toNat * o.exactFill moves market ≤ o.exactPaid moves market * o.maxGoods.toNat
  crosses : ∀ o ∈ orders, o.exactFill moves market ≠ 0 → o.Crosses cert.price.toNat
  box : ∀ o ∈ orders, 0 ≤ o.exactFill moves market ∧
    o.exactFill moves market ≤ o.maxGoods.toNat
  goods : (orders.map fun o => netFlowExact moves o.seat market.goods).sum = 0
  currency : (orders.map fun o => netFlowExact moves o.seat market.currency).sum = 0
  optimal : ∀ moves', PrimalFeasible market orders cert.price.toNat moves' →
    totalFill market orders moves' ≤ 2 * moved moves market.goods + market.epsilon.toNat

/-- The amounts of an input and the products the judge forms from them are
below `2^126`. -/
structure Below126 (market : Market) (orders : List Order) (moves : List Transfer)
    (cert : Certificate) : Prop where
  epsilon : market.epsilon.toNat < 2 ^ 126
  price : cert.price.toNat < 2 ^ 126
  amounts : ∀ t ∈ moves, t.amount.toNat < 2 ^ 126
  goods : ∀ o ∈ orders, o.maxGoods.toNat < 2 ^ 126 ∧ o.total.toNat < 2 ^ 126
  notionals : ∀ o ∈ orders, cert.price.toNat * o.maxGoods.toNat < 2 ^ 126
  potentials : |cert.bidPotential.toInt| < 2 ^ 126 ∧ |cert.askPotential.toInt| < 2 ^ 126
  slacks : ∀ p ∈ orders.zip cert.slacks,
    |p.2.toInt| < 2 ^ 126 ∧ |(p.1.maxGoods.toNat : ℤ) * p.2.toInt| < 2 ^ 126

section Conservation
variable {asset : UInt64} {side : Side}

section
variable (hseats : (orders.map Order.seat).Nodup) (hruns : RunsFrom moves orders asset side)
include hseats hruns

theorem sum_netFlowExact : (orders.map fun o => netFlowExact moves o.seat asset).sum = 0 := by
  have hsum := sum_exactCarried hseats hruns
  calc (orders.map fun o => netFlowExact moves o.seat asset).sum
      = (orders.map fun o => (0 : ℤ) - if o.role = side then exactCarried o moves asset side
          else -exactCarried o moves asset side).sum := by
        refine congrArg List.sum (map_congr_left fun o _ => ?_)
        by_cases hrole : o.role = side <;> simp [exactCarried, hrole]
    _ = 0 := by
        rw [sum_map_sub, hsum]
        simp

/-- Senders and receivers together carry every amount twice. -/
theorem sum_exactCarried_eq :
    (orders.map fun o => exactCarried o moves asset side).sum = 2 * moved moves asset := by
  calc (orders.map fun o => exactCarried o moves asset side).sum
      = (orders.map fun o =>
          ((sent moves o.seat asset + received moves o.seat asset : ℕ) : ℤ)).sum := by
        refine congrArg List.sum (map_congr_left fun o ho => ?_)
        rcases side.eq_or_eq_other o.role with hrole | hrole
        · have hzero : received moves o.seat asset = 0 :=
            tally_eq_zero (destination_ne hseats hruns ho hrole)
          rw [exactCarried_sender hseats hruns ho hrole, hzero, add_zero]
        · have hzero : sent moves o.seat asset = 0 :=
            tally_eq_zero (source_ne hseats hruns ho hrole)
          rw [exactCarried_receiver hseats hruns ho hrole, hzero, zero_add]
    _ = ((orders.map fun o =>
          sent moves o.seat asset + received moves o.seat asset).sum : ℕ) := by
        rw [Nat.cast_list_sum, map_map]
        rfl
    _ = 2 * moved moves asset := by
        rw [sum_map_add, sum_sent hseats hruns, sum_received hseats hruns]
        push_cast
        ring

end

end Conservation

/-- The dual value of a side's column, in unbounded numbers. -/
def exactPiA (cert : Certificate) : Side → ℤ
  | .bid => cert.askPotential.toInt - cert.bidPotential.toInt
  | .ask => cert.bidPotential.toInt - cert.askPotential.toInt

/-- Saturation never helps a dual constraint. -/
theorem OrderPasses.dual_exact {o : Order} {s : I128} (h : OrderPasses market moves cert o s) :
    1 ≤ exactPiA cert o.role + s.toInt := by
  have hdual := le_iff.1 h.dual
  have hbid := cert.bidPotential.lower
  have hbid' := cert.bidPotential.upper
  have hask := cert.askPotential.lower
  have hask' := cert.askPotential.upper
  have hs := s.upper
  cases hrole : o.role with
  | bid =>
    have hone : (-Side.bid.out).toInt = 1 := rfl
    have hneg : Side.bid.out.toInt = -1 := rfl
    simp only [hrole, Certificate.piA, saturatingAdd, saturatingMul, hone, hneg,
      toInt_clamp, toInt_one] at hdual
    simp only [exactPiA]
    omega
  | ask =>
    have hone : Side.ask.out.toInt = 1 := rfl
    have hneg : (-Side.ask.out).toInt = -1 := rfl
    simp only [hrole, Certificate.piA, saturatingAdd, saturatingMul, hone, hneg,
      toInt_clamp, toInt_one] at hdual
    simp only [exactPiA]
    omega

/-- Weak duality: no settlement at the certificate's price fills more than the
dual objective. -/
theorem Accepted.totalFill_le (h : Accepted market orders moves cert) {moves' : List Transfer}
    (hfeasible : PrimalFeasible market orders cert.price.toNat moves') :
    totalFill market orders moves' ≤ dualObjective orders cert := by
  have hmem : ∀ p ∈ orders.zip cert.slacks, p.1 ∈ orders := fun p hp => (of_mem_zip hp).1
  have hrows : ((orders.zip cert.slacks).map fun p =>
      exactPiA cert p.1.role * p.1.exactFill moves' market).sum = 0 := by
    calc ((orders.zip cert.slacks).map fun p =>
          exactPiA cert p.1.role * p.1.exactFill moves' market).sum
        = (orders.map fun o => exactPiA cert o.role * o.exactFill moves' market).sum := by
          rw [h.map_zip fun o => exactPiA cert o.role * o.exactFill moves' market]
      _ = (orders.map fun o => exactPiA cert .ask * if o.role = .ask then
            o.exactFill moves' market else -o.exactFill moves' market).sum := by
          refine congrArg List.sum (map_congr_left fun o _ => ?_)
          cases o.role <;> simp only [exactPiA, reduceCtorEq, if_false, if_true]
          ring
      _ = 0 := by
          rw [sum_map_mul_left]
          have hsum := sum_exactCarried h.wellFormed.seats
            (Clearing.goods_runsFrom h.wellFormed hfeasible.legal)
          simp only [exactFill, hsum, mul_zero]
  have hweak := weak_duality (orders.zip cert.slacks) (w := fun _ => (1 : ℤ))
    (f := fun p => p.1.exactFill moves' market) (c := fun p => (p.1.units cert.price : ℤ))
    (s := fun p => p.2.toInt) (y := fun p => exactPiA cert p.1.role)
    (fun p hp => (h.passes p hp).dual_exact)
    (fun p hp => le_iff.1 (h.passes p hp).slack)
    (fun p hp => (hfeasible.box p.1 (hmem p hp)).1)
    (fun p hp => (hfeasible.box p.1 (hmem p hp)).2.trans
      (by exact_mod_cast p.1.capacity_le_units cert.price)) hrows
  simp only [one_mul] at hweak
  rw [h.map_zip fun o => o.exactFill moves' market] at hweak
  exact hweak

/-- Bounded inputs with a dual objective below `2^127` keep every promise. -/
theorem Accepted.sound (h : Accepted market orders moves cert)
    (hsmall : Below126 market orders moves cert)
    (hdual : dualObjective orders cert < 2 ^ 127) : Sound market orders moves cert := by
  have hamount : ∀ t ∈ moves, t.amount.toNat < 2 ^ 127 := fun t ht =>
    lt_trans (hsmall.amounts t ht) (by decide)
  have hunits : ∀ o ∈ orders, o.units cert.price = o.capacity cert.price.toNat := fun o ho =>
    units_eq_capacity (lt_trans (hsmall.notionals o ho) (by decide))
  have hcapacity : ∀ o : Order, o.capacity cert.price.toNat ≤ o.maxGoods.toNat := by
    intro o
    unfold capacity
    split <;> omega
  have hfill := h.toInt_fill hamount
  have hbox : ∀ o ∈ orders, 0 ≤ o.exactFill moves market ∧
      o.exactFill moves market ≤ o.capacity cert.price.toNat := by
    intro o ho
    rw [← hfill o ho, ← hunits o ho]
    exact ⟨h.fill_nonneg ho, h.fill_le_units ho⟩
  have hpaid : ∀ o ∈ orders,
      o.exactPaid moves market = cert.price.toNat * o.exactFill moves market := by
    intro o ho
    rw [← hfill o ho]
    refine (h.exactPaid_eq hamount (lt_trans hsmall.price (by decide)) ?_ o ho).symm
    intro p hp
    have hle : p.exactFill moves market ≤ p.maxGoods.toNat :=
      (hbox p hp).2.trans (by exact_mod_cast hcapacity p)
    calc (cert.price.toNat : ℤ) * p.exactFill moves market
        ≤ cert.price.toNat * p.maxGoods.toNat :=
          mul_le_mul_of_nonneg_left hle (Int.natCast_nonneg _)
      _ < 2 ^ 127 := by exact_mod_cast lt_trans (hsmall.notionals p hp) (by decide)
  have hcrosses : ∀ o ∈ orders, o.exactFill moves market ≠ 0 →
      o.Crosses cert.price.toNat := by
    intro o ho hne
    by_contra hno
    have := hbox o ho
    simp only [capacity, if_neg hno] at this
    omega
  have hprorata : ∀ o ∈ orders, o.exactPaid moves market * o.maxGoods.toNat =
      (cert.price.toNat * o.maxGoods.toNat : ℕ) * o.exactFill moves market := by
    intro o ho
    rw [hpaid o ho]
    push_cast
    ring
  have hvolume : (orders.map fun o => (o.fill moves market).toInt).sum =
      2 * moved moves market.goods := by
    rw [map_congr_left hfill]
    exact sum_exactCarried_eq h.wellFormed.seats h.goods_runsFrom
  refine ⟨?_, ?_, hcrosses, ?_, sum_netFlowExact h.wellFormed.seats h.goods_runsFrom,
    sum_netFlowExact h.wellFormed.seats h.currency_runsFrom, ?_⟩
  · intro o ho hrole
    rw [hprorata o ho]
    rcases eq_or_ne (o.exactFill moves market) 0 with hzero | hne
    · simp [hzero]
    · have hcross := hcrosses o ho hne
      simp only [Crosses, hrole] at hcross
      exact mul_le_mul_of_nonneg_right (by exact_mod_cast hcross) (hbox o ho).1
  · intro o ho hrole
    rw [hprorata o ho]
    rcases eq_or_ne (o.exactFill moves market) 0 with hzero | hne
    · simp [hzero]
    · have hcross := hcrosses o ho hne
      simp only [Crosses, hrole] at hcross
      exact mul_le_mul_of_nonneg_right (by exact_mod_cast hcross) (hbox o ho).1
  · intro o ho
    have hle := hcapacity o
    have := hbox o ho
    omega
  · intro moves' hfeasible
    have hle := h.totalFill_le hfeasible
    have hgap := h.gap_le hdual
    rw [hvolume] at hgap
    omega

/-! ## The dual objective must fit -/

/-- Two bids and two asks of `2^125` units each, at price 0. -/
def evenBook : List Order :=
  [⟨1, .bid, 0, U128.ofNat (2 ^ 125), 0⟩, ⟨2, .ask, 0, U128.ofNat (2 ^ 125), 0⟩,
    ⟨3, .bid, 0, U128.ofNat (2 ^ 125), 0⟩, ⟨4, .ask, 0, U128.ofNat (2 ^ 125), 0⟩]

def evenMarket : Market := ⟨1, 2, 1⟩

/-- The second pair trades one unit less than it could. -/
def evenMoves : List Transfer :=
  [⟨2, 1, 2, U128.ofNat (2 ^ 125)⟩, ⟨4, 3, 2, U128.ofNat (2 ^ 125 - 1)⟩]

def fullMoves : List Transfer :=
  [⟨2, 1, 2, U128.ofNat (2 ^ 125)⟩, ⟨4, 3, 2, U128.ofNat (2 ^ 125)⟩]

/-- No potentials, one unit of slack for every order: the dual objective is `2^127`. -/
def evenCertificate : Certificate := ⟨0, 0, 0, [1, 1, 1, 1]⟩

theorem evenMoves_accepted :
    verifyCertF evenMarket evenBook evenMoves evenCertificate = .ok () := by
  decide

theorem evenMoves_below : Below126 evenMarket evenBook evenMoves evenCertificate :=
  ⟨by decide, by decide, by decide, by decide,
    by decide, by decide, by decide⟩

theorem evenMoves_dual : dualObjective evenBook evenCertificate = 2 ^ 127 := by
  decide

theorem fullMoves_feasible : PrimalFeasible evenMarket evenBook 0 fullMoves := by
  have hwf : WellFormed evenMarket evenBook :=
    ⟨by decide, by decide, by decide⟩
  refine ⟨?_, by decide, by decide⟩
  have hmoves : checkMoves evenMarket evenBook 0 fullMoves = .ok () := by decide
  exact (checkMoves_eq_ok hwf).1 hmoves

theorem evenMoves_not_sound : ¬ Sound evenMarket evenBook evenMoves evenCertificate := by
  intro h
  have hopt := h.optimal fullMoves fullMoves_feasible
  revert hopt
  decide

/-- On inputs below `2^126` an accepted certificate keeps its promises as long
as its dual objective stays below `2^127`, and no larger bound will do. -/
theorem verifyCertF_sound_iff (dual : ℕ) :
    (∀ market orders moves cert, Below126 market orders moves cert →
        dualObjective orders cert ≤ dual →
        verifyCertF market orders moves cert = .ok () → Sound market orders moves cert) ↔
      dual < 2 ^ 127 := by
  constructor
  · intro hsound
    by_contra hbig
    apply evenMoves_not_sound
    apply hsound _ _ _ _ evenMoves_below _ evenMoves_accepted
    rw [evenMoves_dual]
    exact_mod_cast not_lt.1 hbig
  · intro hdual market orders moves cert hsmall hle hok
    exact (verifyCertF_eq_ok.1 hok).sound hsmall (by omega)

/-- The judge accepts a settlement that another one beats by more than the
tolerance, with every amount and product below `2^126`. -/
theorem saturated_dual_accepts_suboptimal :
    Below126 evenMarket evenBook evenMoves evenCertificate ∧
      verifyCertF evenMarket evenBook evenMoves evenCertificate = .ok () ∧
      PrimalFeasible evenMarket evenBook evenCertificate.price.toNat fullMoves ∧
      ¬ totalFill evenMarket evenBook fullMoves ≤
        2 * moved evenMoves evenMarket.goods + evenMarket.epsilon.toNat :=
  ⟨evenMoves_below, evenMoves_accepted, fullMoves_feasible, by decide⟩

end MiniDregg.Clearing
