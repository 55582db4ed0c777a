import Mathlib.Algebra.Order.Ring.Int
import MiniDregg.Clearing.Ledger

/-!
# When the judge's words are exact

The judge computes with casts and saturating words. Three bounds make an
accepted settlement exact: the transfer amounts, the notional of every fill, and
the dual objective stay below `2^127`. None of them can be
raised, not even alone.
-/

namespace MiniDregg.Clearing

open Arith Fallible List I128

variable {market : Market} {orders : List Order} {moves : List Transfer} {cert : Certificate}

/-- The settlement in unbounded numbers: every fill is in its box, every seat
pays the uniform price, and the duality gap is within the market's tolerance. -/
structure ExactlySettled (market : Market) (orders : List Order) (moves : List Transfer)
    (cert : Certificate) : Prop where
  fill : ∀ o ∈ orders, 0 ≤ o.exactFill moves market ∧
    o.exactFill moves market ≤ o.maxGoods.toNat
  paid : ∀ o ∈ orders,
    o.exactPaid moves market = cert.price.toNat * o.exactFill moves market
  gap : ((orders.zip cert.slacks).map fun p =>
      (p.1.capacity cert.price.toNat : ℤ) * p.2.toInt).sum -
    (orders.map fun o => o.exactFill moves market).sum ≤ market.epsilon.toNat

/-- The dual objective the judge adds up, in unbounded numbers. -/
def dualObjective (orders : List Order) (cert : Certificate) : ℤ :=
  ((orders.zip cert.slacks).map fun p => (p.1.units cert.price : ℤ) * p.2.toInt).sum

/-- The amounts, the notionals of the fills and the dual objective of an input
are at most the given numbers. -/
structure WithinBounds (market : Market) (orders : List Order) (moves : List Transfer)
    (cert : Certificate) (amount notional dual : ℕ) : Prop where
  amounts : ∀ t ∈ moves, t.amount.toNat ≤ amount
  notionals : ∀ o ∈ orders, cert.price.toNat * o.exactFill moves market ≤ notional
  dual : dualObjective orders cert ≤ dual

namespace Accepted

theorem map_fst_zip (h : Accepted market orders moves cert) :
    (orders.zip cert.slacks).map Prod.fst = orders :=
  List.map_fst_zip h.slackCount.ge

/-- A sum over orders and slacks that reads the order only. -/
theorem map_zip {α : Type*} (h : Accepted market orders moves cert) (f : Order → α) :
    ((orders.zip cert.slacks).map fun p => f p.1) = orders.map f := by
  conv_rhs => rw [← h.map_fst_zip, map_map]
  rfl

variable {o : Order}

section
variable (h : Accepted market orders moves cert)
include h

theorem exists_passes (ho : o ∈ orders) :
    ∃ s, (o, s) ∈ orders.zip cert.slacks ∧ OrderPasses market moves cert o s := by
  rw [← h.map_fst_zip] at ho
  obtain ⟨⟨p, s⟩, hp, rfl⟩ := mem_map.1 ho
  exact ⟨s, hp, h.passes _ hp⟩

theorem goods_runsFrom : RunsFrom moves orders market.goods .ask :=
  Clearing.goods_runsFrom h.wellFormed h.legal

theorem currency_runsFrom : RunsFrom moves orders market.currency .bid :=
  Clearing.currency_runsFrom h.wellFormed h.legal

theorem fill_nonneg (ho : o ∈ orders) : 0 ≤ (o.fill moves market).toInt := by
  obtain ⟨s, _, hp⟩ := h.exists_passes ho
  exact le_iff.1 hp.fill_nonneg

theorem toInt_capacityAt (ho : o ∈ orders) :
    (o.capacityAt cert.price).toInt = o.units cert.price := by
  obtain ⟨s, _, hp⟩ := h.exists_passes ho
  exact Order.toInt_capacityAt (hp.fill_nonneg.trans hp.fill_le)

theorem fill_le_units (ho : o ∈ orders) : (o.fill moves market).toInt ≤ o.units cert.price := by
  obtain ⟨s, _, hp⟩ := h.exists_passes ho
  rw [← h.toInt_capacityAt ho]
  exact le_iff.1 hp.fill_le

/-- The two rows cannot both vanish after a saturation, so the fills balance. -/
theorem sum_fill :
    (orders.map fun o => if o.role = .ask then (o.fill moves market).toInt
      else -(o.fill moves market).toInt).sum = 0 := by
  have hterm := fun p (hp : p ∈ orders.zip cert.slacks) =>
    p.1.role.toInt_out_mul (h.fill_nonneg (of_mem_zip hp).1)
  have hsum := sum_eq_zero_of_mirrored
    (fun p hp => (hterm p hp).2.trans (congrArg Neg.neg (hterm p hp).1.symm)) h.row0 h.row1
  rw [← h.map_zip, ← hsum]
  exact congrArg List.sum (map_congr_left fun p hp => (hterm p hp).1.symm)

end

section Bounded
variable (h : Accepted market orders moves cert)
  (hamount : ∀ t ∈ moves, t.amount.toNat < 2 ^ 127)
include h hamount

/-- Asks that send too much are refused, and then the bids have nowhere to
hide an excess. -/
theorem toInt_fill : ∀ o ∈ orders, (o.fill moves market).toInt = o.exactFill moves market := by
  apply eq_exactCarried_of_balanced h.wellFormed.seats h.goods_runsFrom _ _ h.sum_fill
  · intro o ho hrole
    have hnonneg := h.fill_nonneg ho
    rw [Order.fill_eq_carried,
      toInt_carried_sender h.wellFormed.seats h.goods_runsFrom ho hrole hamount] at hnonneg ⊢
    split at hnonneg
    · next hlt => exact if_pos hlt
    · omega
  · intro o ho hrole
    rw [Order.fill_eq_carried,
      toInt_carried_receiver h.wellFormed.seats h.goods_runsFrom ho hrole hamount]
    exact min_le_left _ _

/-- A price in the upper half is read as negative, and then nothing is filled. -/
theorem fill_eq_zero_of_price (hprice : 2 ^ 127 ≤ cert.price.toNat) :
    ∀ o ∈ orders, (o.fill moves market).toInt = 0 := by
  have hneg : cert.price.toI128.toInt < 0 := by
    have := U128.toInt_toI128_of_le hprice
    have := cert.price.lt
    omega
  have hask : ∀ o ∈ orders, o.role = .ask → (o.fill moves market).toInt = 0 := by
    intro o ho hrole
    obtain ⟨s, _, hp⟩ := h.exists_passes ho
    have hnonneg := h.fill_nonneg ho
    have hpaid := congrArg toInt hp.uniform
    have hexact := exactCarried_nonneg h.wellFormed.seats h.currency_runsFrom ho
    rw [Order.paid_eq_carried, toInt_carried_receiver h.wellFormed.seats h.currency_runsFrom ho
      hrole hamount, saturatingMul, toInt_clamp] at hpaid
    by_contra hne
    have hprod : cert.price.toI128.toInt * (o.fill moves market).toInt < 0 :=
      mul_neg_of_neg_of_pos hneg (lt_of_le_of_ne hnonneg (Ne.symm hne))
    omega
  have hsum : (orders.map fun o => (o.fill moves market).toInt).sum = 0 := by
    calc (orders.map fun o => (o.fill moves market).toInt).sum
        = (orders.map fun o => (0 : ℤ) - if o.role = .ask then (o.fill moves market).toInt
            else -(o.fill moves market).toInt).sum := by
          congr 1
          apply map_congr_left
          intro o ho
          cases hrole : o.role with
          | bid => simp
          | ask => simp [hask o ho hrole]
      _ = 0 := by rw [sum_map_sub, h.sum_fill]; simp
  intro o ho
  refine all_zero_of_le_zero_le_of_sum_eq_zero ?_ hsum (mem_map_of_mem ho)
  intro x hx
  obtain ⟨p, hp, rfl⟩ := mem_map.1 hx
  exact h.fill_nonneg hp

/-- At a price in the upper half nothing is paid either. -/
theorem exactPaid_of_price (hprice : 2 ^ 127 ≤ cert.price.toNat) :
    ∀ o ∈ orders, o.exactPaid moves market = 0 := by
  intro o ho
  obtain ⟨s, _, hp⟩ := h.exists_passes ho
  have hpaid : (o.paid moves market).toInt = 0 := by
    rw [hp.uniform, saturatingMul, h.fill_eq_zero_of_price hamount hprice o ho]
    simp [toInt_clamp]
  have hexact := exactCarried_nonneg h.wellFormed.seats h.currency_runsFrom ho
  rw [Order.paid_eq_carried] at hpaid
  rcases Side.eq_or_eq_other .bid o.role with hrole | hrole
  · rw [toInt_carried_sender h.wellFormed.seats h.currency_runsFrom ho hrole hamount] at hpaid
    split at hpaid
    · exact hpaid
    · omega
  · rw [toInt_carried_receiver h.wellFormed.seats h.currency_runsFrom ho hrole hamount] at hpaid
    change exactCarried o moves market.currency .bid = 0
    omega

/-- Below that, bids that pay too much are refused, and then the asks cannot
have received more. -/
theorem exactPaid_eq (hprice : cert.price.toNat < 2 ^ 127)
    (hnotional : ∀ o ∈ orders, cert.price.toNat * o.exactFill moves market < 2 ^ 127) :
    ∀ o ∈ orders,
      cert.price.toNat * (o.fill moves market).toInt = o.exactPaid moves market := by
  have hword := U128.toInt_toI128_of_lt hprice
  have hpaid : ∀ o ∈ orders, (o.paid moves market).toInt =
      cert.price.toNat * (o.fill moves market).toInt ∧
      0 ≤ cert.price.toNat * (o.fill moves market).toInt := by
    intro o ho
    obtain ⟨s, _, hp⟩ := h.exists_passes ho
    have hnonneg : 0 ≤ (cert.price.toNat : ℤ) * (o.fill moves market).toInt :=
      mul_nonneg (Int.natCast_nonneg _) (h.fill_nonneg ho)
    have hlt := hnotional o ho
    rw [← h.toInt_fill hamount o ho] at hlt
    refine ⟨?_, hnonneg⟩
    rw [hp.uniform, saturatingMul, hword]
    exact toInt_clamp_of_mem (by omega) (by omega)
  apply eq_exactCarried_of_balanced h.wellFormed.seats h.currency_runsFrom
  · intro o ho hrole
    obtain ⟨heq, hnonneg⟩ := hpaid o ho
    rw [← heq] at hnonneg ⊢
    rw [Order.paid_eq_carried, toInt_carried_sender h.wellFormed.seats h.currency_runsFrom ho
      hrole hamount] at hnonneg ⊢
    split at hnonneg
    · next hlt => exact if_pos hlt
    · omega
  · intro o ho hrole
    rw [← (hpaid o ho).1, Order.paid_eq_carried,
      toInt_carried_receiver h.wellFormed.seats h.currency_runsFrom ho hrole hamount]
    exact min_le_left _ _
  · calc (orders.map fun o => if o.role = .bid then
          (cert.price.toNat : ℤ) * (o.fill moves market).toInt
          else -((cert.price.toNat : ℤ) * (o.fill moves market).toInt)).sum
        = (orders.map fun o => -(cert.price.toNat : ℤ) * if o.role = .ask then
            (o.fill moves market).toInt else -(o.fill moves market).toInt).sum := by
          refine congrArg List.sum (map_congr_left fun o _ => ?_)
          cases o.role <;> simp
      _ = 0 := by rw [sum_map_mul_left, h.sum_fill, mul_zero]

end Bounded

variable (h : Accepted market orders moves cert)
include h

/-- A dual objective that fits is added up exactly; the fills can only be
undercounted, which makes the computed gap larger. -/
theorem gap_le (hdual : dualObjective orders cert < 2 ^ 127) :
    dualObjective orders cert - (orders.map fun o => (o.fill moves market).toInt).sum ≤
      market.epsilon.toNat := by
  have hproduct : ∀ p ∈ orders.zip cert.slacks, 0 ≤ (p.1.units cert.price : ℤ) * p.2.toInt :=
    fun p hp => mul_nonneg (Int.natCast_nonneg _) (le_iff.1 (h.passes p hp).slack)
  have hterm : ∀ p ∈ orders.zip cert.slacks,
      ((p.1.capacityAt cert.price).saturatingMul p.2).toInt =
        (p.1.units cert.price : ℤ) * p.2.toInt := by
    intro p hp
    have hle : (p.1.units cert.price : ℤ) * p.2.toInt ≤ dualObjective orders cert :=
      single_le_sum (by
        intro x hx
        obtain ⟨q, hq, rfl⟩ := mem_map.1 hx
        exact hproduct q hq) _ (mem_map_of_mem hp)
    have hnonneg := hproduct p hp
    rw [saturatingMul, h.toInt_capacityAt (of_mem_zip hp).1]
    exact toInt_clamp_of_mem (by omega) (by omega)
  have hcs : (totalsOf market moves cert ⟨0, 0, 0, 0⟩ (orders.zip cert.slacks)).cDotS.toInt =
      dualObjective orders cert := by
    have hmap : ((orders.zip cert.slacks).map fun p =>
        (p.1.capacityAt cert.price).saturatingMul p.2).map toInt =
        (orders.zip cert.slacks).map fun p => (p.1.units cert.price : ℤ) * p.2.toInt := by
      rw [map_map]
      exact map_congr_left hterm
    change (saturatingSum 0 _).toInt = _
    rw [toInt_saturatingSum_of_nonneg _ 0 le_rfl, hmap, toInt_zero, zero_add]
    · exact min_eq_left (by change dualObjective orders cert ≤ _; omega)
    · intro x hx
      obtain ⟨p, hp, rfl⟩ := mem_map.1 hx
      rw [hterm p hp]
      exact hproduct p hp
  have hwf : (totalsOf market moves cert ⟨0, 0, 0, 0⟩ (orders.zip cert.slacks)).wDotF.toInt =
      min (orders.map fun o => (o.fill moves market).toInt).sum (2 ^ 127 - 1) := by
    change (saturatingSum 0 _).toInt = _
    rw [h.map_zip fun o => o.fill moves market,
      toInt_saturatingSum_of_nonneg _ 0 le_rfl, map_map, toInt_zero, zero_add]
    · rfl
    · intro x hx
      obtain ⟨o, ho, rfl⟩ := mem_map.1 hx
      exact h.fill_nonneg ho
  have hgap := le_iff.1 h.gap
  have hepsilon := market.epsilon.toInt_toI128_le
  have hfills : 0 ≤ (orders.map fun o => (o.fill moves market).toInt).sum :=
    sum_nonneg (forall_mem_map.2 fun o ho => h.fill_nonneg ho)
  rw [saturatingSub, toInt_clamp, hcs, hwf] at hgap
  omega

/-- Within the three bounds an accepted settlement is exact. -/
theorem exactlySettled
    (hbounds : WithinBounds market orders moves cert (2 ^ 127 - 1) (2 ^ 127 - 1) (2 ^ 127 - 1)) :
    ExactlySettled market orders moves cert := by
  have hamount : ∀ t ∈ moves, t.amount.toNat < 2 ^ 127 := fun t ht =>
    lt_of_le_of_lt (hbounds.amounts t ht) (by decide)
  have hnotional : ∀ o ∈ orders, cert.price.toNat * o.exactFill moves market < 2 ^ 127 :=
    fun o ho => lt_of_le_of_lt (hbounds.notionals o ho) (by decide)
  have hfill := h.toInt_fill hamount
  refine ⟨?_, ?_, ?_⟩
  · intro o ho
    rw [← hfill o ho]
    have hunits : o.units cert.price ≤ o.maxGoods.toNat := by
      unfold Order.units
      split <;> omega
    have := h.fill_le_units ho
    exact ⟨h.fill_nonneg ho, by omega⟩
  · intro o ho
    rw [← hfill o ho]
    rcases Nat.lt_or_ge cert.price.toNat (2 ^ 127) with hprice | hprice
    · exact (h.exactPaid_eq hamount hprice hnotional o ho).symm
    · rw [h.exactPaid_of_price hamount hprice o ho, h.fill_eq_zero_of_price hamount hprice o ho,
        mul_zero]
  · have hsum : (orders.map fun o => o.exactFill moves market) =
        orders.map fun o => (o.fill moves market).toInt :=
      map_congr_left fun o ho => (hfill o ho).symm
    have hcap : ((orders.zip cert.slacks).map fun p =>
        (p.1.capacity cert.price.toNat : ℤ) * p.2.toInt).sum ≤ dualObjective orders cert := by
      apply sum_le_sum
      intro p hp
      apply mul_le_mul_of_nonneg_right _ (le_iff.1 (h.passes p hp).slack)
      exact_mod_cast p.1.capacity_le_units cert.price
    have hdual := hbounds.dual
    have hgap := h.gap_le (by omega)
    rw [hsum]
    omega

end Accepted

theorem WithinBounds.mono {a n d a' n' d' : ℕ} (h : WithinBounds market orders moves cert a n d)
    (ha : a ≤ a') (hn : n ≤ n') (hd : d ≤ d') :
    WithinBounds market orders moves cert a' n' d' :=
  ⟨fun t ht => (h.amounts t ht).trans ha,
    fun o ho => (h.notionals o ho).trans (by exact_mod_cast hn),
      h.dual.trans (by exact_mod_cast hd)⟩

/-! ## The bounds are sharp -/

/-- The potentials and slacks for a bid and an ask when the asks are the bottleneck. -/
def askCertificate (price : U128) : Certificate := ⟨price, 0, 1, [0, 2]⟩

/-- A bid and an ask that do not meet at price 0. -/
def apartBook : List Order := [⟨1, .bid, 0, 1, 0⟩, ⟨2, .ask, 1, 1, 1⟩]

/-- Three transfers of goods whose words add up to nothing. -/
def wrappingMoves : List Transfer :=
  [⟨2, 1, 2, 1⟩, ⟨2, 1, 2, U128.ofNat (2 ^ 127)⟩, ⟨2, 1, 2, U128.ofNat (2 ^ 127 - 1)⟩]

theorem wrappingMoves_accepted :
    verifyCertF ⟨1, 2, 0⟩ apartBook wrappingMoves (askCertificate 0) = .ok () := by
  decide

theorem wrappingMoves_within :
    WithinBounds ⟨1, 2, 0⟩ apartBook wrappingMoves (askCertificate 0) (2 ^ 127) 0 0 :=
  ⟨by decide, by decide, by decide⟩

theorem wrappingMoves_not_exact :
    ¬ ExactlySettled ⟨1, 2, 0⟩ apartBook wrappingMoves (askCertificate 0) := by
  intro h
  have hfill := (h.fill ⟨1, .bid, 0, 1, 0⟩ (by decide)).2
  revert hfill
  decide

/-- A bid and an ask that meet at price `2^126` with a notional of `2^127`. -/
def steepBook : List Order :=
  [⟨1, .bid, U128.ofNat (2 ^ 126), 2, U128.ofNat (2 ^ 127)⟩, ⟨2, .ask, 0, 2, 0⟩]

/-- The goods are exchanged for one unit of currency less than the notional. -/
def shortMoves : List Transfer :=
  [⟨2, 1, 2, 2⟩, ⟨1, 2, 1, U128.ofNat (2 ^ 127 - 1)⟩]

theorem shortMoves_accepted :
    verifyCertF ⟨1, 2, 0⟩ steepBook shortMoves (askCertificate (U128.ofNat (2 ^ 126))) =
      .ok () := by
  decide

theorem shortMoves_within :
    WithinBounds ⟨1, 2, 0⟩ steepBook shortMoves (askCertificate (U128.ofNat (2 ^ 126)))
      (2 ^ 127 - 1) (2 ^ 127) 4 :=
  ⟨by decide, by decide, by decide⟩

theorem shortMoves_not_exact :
    ¬ ExactlySettled ⟨1, 2, 0⟩ steepBook shortMoves
      (askCertificate (U128.ofNat (2 ^ 126))) := by
  intro h
  have hpaid := h.paid ⟨2, .ask, 0, 2, 0⟩ (by decide)
  revert hpaid
  decide

/-- One unfilled bid whose priced capacity is `2^127`. -/
def idleBook : List Order := [⟨1, .bid, 0, U128.ofNat (2 ^ 126), 0⟩]

def idleMarket : Market := ⟨1, 2, U128.ofNat (2 ^ 127 - 1)⟩

theorem idleBook_accepted : verifyCertF idleMarket idleBook [] ⟨0, 0, 0, [2]⟩ = .ok () := by
  decide

theorem idleBook_within : WithinBounds idleMarket idleBook [] ⟨0, 0, 0, [2]⟩ 0 0 (2 ^ 127) :=
  ⟨by decide, by decide, by decide⟩

theorem idleBook_not_exact : ¬ ExactlySettled idleMarket idleBook [] ⟨0, 0, 0, [2]⟩ := by
  intro h
  have hgap := h.gap
  revert hgap
  decide

/-- Bounds under which every accepted settlement is exact are bounds below
`2^127`: the amounts must not wrap, the notionals and the dual objective must
not saturate. -/
theorem verifyCertF_exact_iff {amount notional dual : ℕ} (hamount : 2 ^ 127 - 1 ≤ amount)
    (hnotional : 2 ^ 127 - 1 ≤ notional) (hdual : 2 ^ 127 - 1 ≤ dual) :
    (∀ market orders moves cert, WithinBounds market orders moves cert amount notional dual →
        verifyCertF market orders moves cert = .ok () →
        ExactlySettled market orders moves cert) ↔
      amount < 2 ^ 127 ∧ notional < 2 ^ 127 ∧ dual < 2 ^ 127 := by
  constructor
  · intro hexact
    refine ⟨?_, ?_, ?_⟩
    · by_contra hbig
      exact wrappingMoves_not_exact (hexact _ _ _ _
        (wrappingMoves_within.mono (not_lt.1 hbig) (Nat.zero_le _) (Nat.zero_le _))
        wrappingMoves_accepted)
    · by_contra hbig
      exact shortMoves_not_exact (hexact _ _ _ _
        (shortMoves_within.mono hamount (not_lt.1 hbig) (le_trans (by decide) hdual))
        shortMoves_accepted)
    · by_contra hbig
      exact idleBook_not_exact (hexact _ _ _ _
        (idleBook_within.mono (Nat.zero_le _) (Nat.zero_le _) (not_lt.1 hbig)) idleBook_accepted)
  · rintro ⟨hamount', hnotional', hdual'⟩ market orders moves cert hbounds hok
    apply (verifyCertF_eq_ok.1 hok).exactlySettled
    exact hbounds.mono (by omega) (by omega) (by omega)

/-- Two units change hands at price 3. -/
theorem small_trade_exactlySettled :
    ExactlySettled ⟨1, 2, 0⟩ [⟨1, .bid, 3, 2, 6⟩, ⟨2, .ask, 3, 2, 6⟩]
      [⟨2, 1, 2, 2⟩, ⟨1, 2, 1, 6⟩] (askCertificate 3) :=
  (verifyCertF_exact_iff le_rfl le_rfl le_rfl).2 (by decide) _ _ _ _
    ⟨by decide, by decide, by decide⟩ (by decide)

/-- The judge accepts transfers of `2^128` goods to a bid for one unit. -/
theorem wrapping_amounts_accepted_inexactly :
    verifyCertF ⟨1, 2, 0⟩ apartBook wrappingMoves (askCertificate 0) = .ok () ∧
      ¬ ExactlySettled ⟨1, 2, 0⟩ apartBook wrappingMoves (askCertificate 0) :=
  ⟨wrappingMoves_accepted, wrappingMoves_not_exact⟩

end MiniDregg.Clearing
