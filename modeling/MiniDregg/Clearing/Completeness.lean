import MiniDregg.Clearing.Price
import MiniDregg.Clearing.Routing
import MiniDregg.Clearing.Soundness

/-!
# The solver's settlement passes the judge

At the selected price the routed transfers fill the bottleneck side completely,
and the synthesized certificate prices exactly that side. The duality gap is
zero, so the judge accepts every tolerance it does not read as negative.
-/

namespace MiniDregg.Clearing

open Arith Fallible List I128 Function Clearing.Order

variable {market : Market} {orders : List Order} {price : U128}

/-- No product, sum or cast of the solver leaves its word: the notionals of all
candidates and the sum of the quantities fit unsigned words; at the selected
price twice the volume, the crossing quantities and what any order pays fit
signed words. -/
structure NoOverflow (orders : List Order) : Prop where
  notional : ∀ p ∈ candidates orders, ∀ o ∈ orders, p.toNat * o.maxGoods.toNat < 2 ^ 128
  goods : (orders.map fun o => o.maxGoods.toNat).sum < 2 ^ 128
  volume : 2 * (selectPrice orders).vol.toNat < 2 ^ 127
  quantity : ∀ o ∈ orders, o.Crosses (selectPrice orders).price.toNat →
    o.maxGoods.toNat < 2 ^ 127
  currency : ∀ o ∈ orders, o.Crosses (selectPrice orders).price.toNat →
    (selectPrice orders).price.toNat *
      min o.maxGoods.toNat (selectPrice orders).vol.toNat < 2 ^ 127

theorem NoOverflow.selectionFits (h : NoOverflow orders) : SelectionFits orders :=
  ⟨h.notional, h.goods⟩

/-! ## The crossing lots -/

/-- The crossing orders of a side with their quantities. -/
def crossingLots (side : Side) (orders : List Order) (price : U128) : List (Order × U128) :=
  (crossing side orders price).map fun o => (o, o.maxGoods)

variable {side : Side}

private theorem lots_crossing {seat : UInt64} {l : List Order}
    (hl : ∀ o ∈ l, price.toNat * o.maxGoods.toNat < 2 ^ 128) :
    lots (crossingLots side l price) seat =
      (l.map fun p => if p.seat = seat then
        (if p.role = side then p.capacity price.toNat else 0) else 0).sum := by
  induction l with
  | nil => rfl
  | cons o rest ih =>
    have hrest := ih fun p hp => hl p (mem_cons_of_mem o hp)
    have ho := crosses_iff (hl o (mem_cons_self ..))
    rw [map_cons, sum_cons, ← hrest]
    by_cases hcross : o.Crosses price.toNat
    · by_cases hrole : o.role = side <;>
        simp [crossingLots, crossing, hrole, ho.2 hcross, Order.capacity, hcross]
    · have hword : o.crosses price = false := by
        rw [← Bool.not_eq_true, ho]
        exact hcross
      simp [crossingLots, crossing, hword, Order.capacity, hcross]

variable {o : Order}

section Lots
variable (hfit : ∀ o ∈ orders, price.toNat * o.maxGoods.toNat < 2 ^ 128)
include hfit

theorem mem_crossingLots {p : Order × U128} (hp : p ∈ crossingLots side orders price) :
    p.1 ∈ orders ∧ p.1.role = side ∧ p.1.Crosses price.toNat ∧ p.2 = p.1.maxGoods := by
  obtain ⟨o, ho, rfl⟩ := mem_map.1 hp
  simp only [crossing, mem_filter, Bool.and_eq_true, decide_eq_true_eq] at ho
  exact ⟨ho.1, ho.2.1, (crosses_iff (hfit o ho.1)).1 ho.2.2, rfl⟩

theorem totalLots_crossingLots (side : Side) :
    totalLots (crossingLots side orders price) = sideCapacity side orders price.toNat := by
  rw [totalLots, crossingLots, map_map]
  exact sum_crossing side hfit

/-- The lots of a seat are the capacity of its order. -/
theorem lots_crossingLots (hseats : (orders.map seat).Nodup) (ho : o ∈ orders) :
    lots (crossingLots side orders price) o.seat =
      if o.role = side then o.capacity price.toNat else 0 := by
  rw [lots_crossing hfit]
  exact sum_ite_seat hseats ho fun p => if p.role = side then p.capacity price.toNat else 0

end Lots

/-! ## The routed settlement -/

/-- The words of a settlement at a price are exact. -/
structure PriceFits (orders : List Order) (price : U128) : Prop where
  notional : ∀ o ∈ orders, price.toNat * o.maxGoods.toNat < 2 ^ 128
  goods : (orders.map fun o => o.maxGoods.toNat).sum < 2 ^ 128
  volume : 2 * crossVolume orders price.toNat < 2 ^ 127
  quantity : ∀ o ∈ orders, o.Crosses price.toNat → o.maxGoods.toNat < 2 ^ 127
  currency : ∀ o ∈ orders, o.Crosses price.toNat →
    price.toNat * min o.maxGoods.toNat (crossVolume orders price.toNat) < 2 ^ 127

theorem NoOverflow.priceFits (h : NoOverflow orders) (hpos : ∀ o ∈ orders, o.maxGoods ≠ 0) :
    PriceFits orders (selectPrice orders).price := by
  have hvol := (selectPrice_isGreatest hpos h.selectionFits).1
  refine ⟨h.notional _ (selectPrice_spec orders).1, h.goods, ?_, h.quantity, ?_⟩
  · rw [← hvol]
    exact h.volume
  · rw [← hvol]
    exact h.currency

theorem routeAll_eq :
    routeAll market orders price =
      route market price (crossingLots .bid orders price) (crossingLots .ask orders price) := rfl

section Routed
variable (hwf : WellFormed market orders) (hfits : PriceFits orders price)
include hwf hfits

theorem moved_routeAll : moved (routeAll market orders price) market.goods =
    crossVolume orders price.toNat := by
  rw [routeAll_eq, moved_route_goods hwf.assets,
    totalLots_crossingLots hfits.notional, totalLots_crossingLots hfits.notional, crossVolume]

omit hwf in
/-- A routed transfer is a lot between a crossing bid and a crossing ask. -/
theorem mem_routeAll {t : Transfer} (ht : t ∈ routeAll market orders price) :
    ∃ b ∈ orders, ∃ a ∈ orders, ∃ m : U128, b.role = .bid ∧ a.role = .ask ∧
      b.Crosses price.toNat ∧ m.toNat ≤ min b.maxGoods.toNat (crossVolume orders price.toNat) ∧
      t ∈ lotMoves market price b a m := by
  rw [routeAll_eq] at ht
  obtain ⟨b, hb, a, ha, m, hmb, hma, hm⟩ := mem_route ht
  obtain ⟨hbmem, hbrole, hbcross, hbq⟩ := mem_crossingLots hfits.notional hb
  obtain ⟨hamem, harole, _, _⟩ := mem_crossingLots hfits.notional ha
  have hbtotal : b.2.toNat ≤ totalLots (crossingLots .bid orders price) :=
    single_le_sum (fun _ _ => Nat.zero_le _) _ (mem_map_of_mem hb)
  have hatotal : a.2.toNat ≤ totalLots (crossingLots .ask orders price) :=
    single_le_sum (fun _ _ => Nat.zero_le _) _ (mem_map_of_mem ha)
  rw [totalLots_crossingLots hfits.notional] at hbtotal hatotal
  refine ⟨b.1, hbmem, a.1, hamem, m, hbrole, harole, hbcross, ?_, hm⟩
  have hmb' := U128.le_iff.1 hmb
  have hma' := U128.le_iff.1 hma
  rw [← hbq]
  unfold crossVolume
  omega

theorem routeAll_legal : ∀ t ∈ routeAll market orders price, t.Legal market orders := by
  intro t ht
  obtain ⟨b, hb, a, ha, m, hbrole, harole, _, _, hm⟩ := mem_routeAll hfits ht
  obtain ⟨hamount, hkind⟩ := mem_lotMoves hm
  have hseat : b.seat ≠ a.seat := by
    intro heq
    have hba := inj_on_of_nodup_map hwf.seats hb ha heq
    rw [hba, harole] at hbrole
    cases hbrole
  rcases hkind with ⟨hasset, hsource, hdest, _⟩ | ⟨hasset, hsource, hdest, _⟩
  · refine ⟨hamount, by rw [hsource, hdest]; exact hseat.symm, Or.inl ⟨hasset, ?_, ?_⟩⟩
    · exact ⟨a, ha, hsource.symm, harole⟩
    · exact ⟨b, hb, hdest.symm, hbrole⟩
  · refine ⟨hamount, by rw [hsource, hdest]; exact hseat, Or.inr ⟨hasset, ?_, ?_⟩⟩
    · exact ⟨b, hb, hsource.symm, hbrole⟩
    · exact ⟨a, ha, hdest.symm, harole⟩

omit hwf in
theorem routeAll_amount_lt (market : Market) :
    ∀ t ∈ routeAll market orders price, t.amount.toNat < 2 ^ 127 := by
  intro t ht
  obtain ⟨b, hb, a, ha, m, _, _, hcross, hle, hm⟩ := mem_routeAll hfits ht
  have hbgoods := hfits.quantity b hb hcross
  rcases (mem_lotMoves hm).2 with ⟨_, _, _, hamount⟩ | ⟨_, _, _, hamount⟩
  · rw [hamount]
    omega
  · have hpaid : price.toNat * m.toNat < 2 ^ 127 :=
      lt_of_le_of_lt (Nat.mul_le_mul_left _ hle) (hfits.currency b hb hcross)
    rw [hamount, U128.toNat_saturatingMul_of_lt (lt_trans hpaid (by decide))]
    exact hpaid

section
variable (ho : o ∈ orders)
include ho

/-- The exact fill of an order is within its capacity and within the volume. -/
theorem exactFill_routeAll :
    0 ≤ o.exactFill (routeAll market orders price) market ∧
      o.exactFill (routeAll market orders price) market ≤ o.capacity price.toNat ∧
      o.exactFill (routeAll market orders price) market ≤ crossVolume orders price.toNat := by
  have hruns := goods_runsFrom hwf (routeAll_legal hwf hfits)
  have hmoved := moved_routeAll hwf hfits
  refine ⟨exactCarried_nonneg hwf.seats hruns ho, ?_⟩
  unfold exactFill
  rcases Side.eq_or_eq_other .ask o.role with hrole | hrole
  · rw [exactCarried_sender hwf.seats hruns ho hrole]
    have hle : sent (routeAll market orders price) o.seat market.goods ≤
        lots (crossingLots .ask orders price) o.seat :=
      (route_goods_le hwf.assets _ _ _).2
    rw [lots_crossingLots hfits.notional hwf.seats ho, if_pos hrole] at hle
    exact ⟨by exact_mod_cast hle, by exact_mod_cast tally_le_moved.trans_eq hmoved⟩
  · rw [exactCarried_receiver hwf.seats hruns ho hrole]
    have hle : received (routeAll market orders price) o.seat market.goods ≤
        lots (crossingLots .bid orders price) o.seat :=
      (route_goods_le hwf.assets _ _ _).1
    rw [lots_crossingLots hfits.notional hwf.seats ho,
      if_pos (show o.role = .bid from hrole)] at hle
    exact ⟨by exact_mod_cast hle, by exact_mod_cast tally_le_moved.trans_eq hmoved⟩

theorem exactPaid_routeAll :
    o.exactPaid (routeAll market orders price) market =
      price.toNat * o.exactFill (routeAll market orders price) market := by
  have hgoods := goods_runsFrom hwf (routeAll_legal hwf hfits)
  have hcurrency := currency_runsFrom hwf (routeAll_legal hwf hfits)
  have hbids : ∀ b ∈ crossingLots .bid orders price, price.toNat * b.2.toNat < 2 ^ 128 := by
    intro b hb
    obtain ⟨hmem, _, _, hq⟩ := mem_crossingLots hfits.notional hb
    rw [hq]
    exact hfits.notional b.1 hmem
  obtain ⟨hsent, hreceived⟩ := tally_route_currency hwf.assets (crossingLots .bid orders price)
    (crossingLots .ask orders price) hbids o.seat
  rw [← routeAll_eq] at hsent hreceived
  unfold exactPaid exactFill
  rcases Side.eq_or_eq_other .bid o.role with hrole | hrole
  · rw [exactCarried_sender hwf.seats hcurrency ho hrole,
      exactCarried_receiver hwf.seats hgoods ho hrole]
    exact_mod_cast hsent
  · rw [exactCarried_receiver hwf.seats hcurrency ho hrole,
      exactCarried_sender hwf.seats hgoods ho hrole]
    exact_mod_cast hreceived

theorem toInt_fill_routeAll :
    (o.fill (routeAll market orders price) market).toInt =
      o.exactFill (routeAll market orders price) market := by
  have hruns := goods_runsFrom hwf (routeAll_legal hwf hfits)
  have hamount := routeAll_amount_lt hfits market
  obtain ⟨_, _, hle⟩ := exactFill_routeAll hwf hfits ho
  have hvol := hfits.volume
  rw [fill_eq_carried]
  unfold exactFill at hle ⊢
  rcases Side.eq_or_eq_other .ask o.role with hrole | hrole
  · rw [toInt_carried_sender hwf.seats hruns ho hrole hamount]
    exact if_pos (by omega)
  · rw [toInt_carried_receiver hwf.seats hruns ho hrole hamount]
    exact min_eq_left (by omega)

/-- What an order pays fits a signed word. -/
theorem exactPaid_lt :
    0 ≤ o.exactPaid (routeAll market orders price) market ∧
      o.exactPaid (routeAll market orders price) market < 2 ^ 127 := by
  obtain ⟨hnonneg, hcap, hvol⟩ := exactFill_routeAll hwf hfits ho
  rw [exactPaid_routeAll hwf hfits ho]
  refine ⟨mul_nonneg (Int.natCast_nonneg _) hnonneg, ?_⟩
  by_cases hcross : o.Crosses price.toNat
  · rw [Order.capacity, if_pos hcross] at hcap
    have hlt := hfits.currency o ho hcross
    calc (price.toNat : ℤ) * o.exactFill (routeAll market orders price) market
        ≤ price.toNat * (min o.maxGoods.toNat (crossVolume orders price.toNat) : ℕ) :=
          mul_le_mul_of_nonneg_left (by omega) (Int.natCast_nonneg _)
      _ < 2 ^ 127 := by exact_mod_cast hlt
  · rw [Order.capacity, if_neg hcross] at hcap
    have hzero : o.exactFill (routeAll market orders price) market = 0 := by omega
    rw [hzero, mul_zero]
    decide

theorem toInt_paid_routeAll :
    (o.paid (routeAll market orders price) market).toInt =
      o.exactPaid (routeAll market orders price) market := by
  have hruns := currency_runsFrom hwf (routeAll_legal hwf hfits)
  have hamount := routeAll_amount_lt hfits market
  obtain ⟨_, hlt⟩ := exactPaid_lt hwf hfits ho
  rw [paid_eq_carried]
  unfold exactPaid at hlt ⊢
  rcases Side.eq_or_eq_other .bid o.role with hrole | hrole
  · rw [toInt_carried_sender hwf.seats hruns ho hrole hamount]
    exact if_pos hlt
  · rw [toInt_carried_receiver hwf.seats hruns ho hrole hamount]
    exact min_eq_left (by omega)

end

end Routed

/-! ## The synthesized certificate -/

/-- The side that is filled completely. -/
def bottleneck (orders : List Order) (price : U128) : Side :=
  if crossingCapacity .ask orders price ≤ crossingCapacity .bid orders price then .ask else .bid

theorem synthesize_eq (orders : List Order) (price : U128) :
    synthesize orders price =
      ⟨price, if bottleneck orders price = .ask then 0 else 1,
        if bottleneck orders price = .ask then 1 else 0,
        orders.map fun o => if o.role = bottleneck orders price then 2 else 0⟩ := by
  have hslack : ∀ side role : Side,
      max (1 - ((if side = .ask then (0 : I128) else 1) * role.out +
        (if side = .ask then (1 : I128) else 0) * (-role.out))) 0 =
        if role = side then 2 else 0 := by
    rintro (_ | _) (_ | _) <;> decide
  unfold synthesize bottleneck
  by_cases h : crossingCapacity .ask orders price ≤ crossingCapacity .bid orders price
  · simp only [h, if_true, Certificate.mk.injEq, true_and]
    exact map_congr_left fun o _ => hslack .ask o.role
  · simp only [h, if_false, reduceCtorEq, Certificate.mk.injEq, true_and]
    exact map_congr_left fun o _ => hslack .bid o.role

variable {g : Order → I128}

theorem zip_slacks (l : List Order) : l.zip (l.map g) = l.map fun o => (o, g o) := by
  induction l with
  | nil => rfl
  | cons o rest ih => simp [ih]

theorem sideCapacity_bottleneck (hfits : PriceFits orders price) :
    sideCapacity (bottleneck orders price) orders price.toNat =
      crossVolume orders price.toNat := by
  have hbid := toNat_crossingCapacity .bid hfits.notional hfits.goods
  have hask := toNat_crossingCapacity .ask hfits.notional hfits.goods
  unfold bottleneck crossVolume
  rw [← hbid, ← hask]
  split
  next h =>
    rw [hask]
    exact (min_eq_right (hask ▸ U128.le_iff.1 h)).symm
  next h =>
    have hle := U128.le_iff.1 (not_le.1 h).le
    rw [hbid]
    exact (min_eq_left (hbid ▸ hle)).symm

theorem PriceFits.toInt_capacityAt (hfits : PriceFits orders price) (ho : o ∈ orders) :
    (o.capacityAt price).toInt = o.capacity price.toNat := by
  rw [← units_eq_capacity (hfits.notional o ho)]
  apply Order.toInt_capacityAt
  rw [le_iff, toInt_zero, Order.capacityAt]
  split
  next hcross =>
    have hlt := hfits.quantity o ho ((crosses_iff (hfits.notional o ho)).1 hcross)
    rw [U128.toInt_toI128_of_lt hlt]
    exact Int.natCast_nonneg _
  · exact le_rfl

section Judged
variable (hwf : WellFormed market orders) (hfits : PriceFits orders price)
include hwf hfits

/-- The judge's product of price and fill is exact, also when it reads the price
as negative: then nothing is filled. -/
theorem toInt_price_mul_fill (ho : o ∈ orders) :
    (price.toI128.saturatingMul (o.fill (routeAll market orders price) market)).toInt =
      price.toNat * o.exactFill (routeAll market orders price) market := by
  obtain ⟨hnonneg, hlt⟩ := exactPaid_lt hwf hfits ho
  rw [exactPaid_routeAll hwf hfits ho] at hnonneg hlt
  rw [saturatingMul, toInt_fill_routeAll hwf hfits ho]
  rcases Nat.lt_or_ge price.toNat (2 ^ 127) with hprice | hprice
  · rw [U128.toInt_toI128_of_lt hprice]
    exact toInt_clamp_of_mem (by omega) hlt
  · have hzero : o.exactFill (routeAll market orders price) market = 0 := by
      by_contra hne
      have hone : 1 ≤ o.exactFill (routeAll market orders price) market := by
        have := (exactFill_routeAll hwf hfits ho).1
        omega
      have hle : (price.toNat : ℤ) * 1 ≤
          price.toNat * o.exactFill (routeAll market orders price) market :=
        mul_le_mul_of_nonneg_left hone (Int.natCast_nonneg _)
      omega
    rw [hzero, mul_zero, mul_zero]
    rfl

theorem orderPasses_routeAll (ho : o ∈ orders) :
    OrderPasses market (routeAll market orders price) (synthesize orders price) o
      (if o.role = bottleneck orders price then 2 else 0) := by
  obtain ⟨hnonneg, hcap, _⟩ := exactFill_routeAll hwf hfits ho
  have hfill := toInt_fill_routeAll hwf hfits ho
  rw [synthesize_eq]
  refine ⟨?_, ?_, ?_, ?_, ?_⟩
  · rw [eq_iff, toInt_paid_routeAll hwf hfits ho, toInt_price_mul_fill hwf hfits ho]
    exact exactPaid_routeAll hwf hfits ho
  · rw [le_iff, hfill]
    exact hnonneg
  · rw [le_iff, hfill, hfits.toInt_capacityAt ho]
    exact hcap
  · split <;> exact of_decide_eq_true rfl
  · -- The synthesized potentials and slacks are dual feasible with equality.
    cases bottleneck orders price <;> cases o.role <;> exact of_decide_eq_true rfl

/-- Both sides together are filled with twice the volume. -/
theorem sum_exactFill_routeAll :
    (orders.map fun o => o.exactFill (routeAll market orders price) market).sum =
      2 * crossVolume orders price.toNat := by
  have hsum := sum_exactCarried_eq hwf.seats (goods_runsFrom hwf (routeAll_legal hwf hfits))
  rw [moved_routeAll hwf hfits] at hsum
  exact hsum

/-- A row of signed fills is added up without saturation, to zero. -/
theorem row_routeAll {c : ℤ} (hc : c = 1 ∨ c = -1)
    (hg : ∀ o ∈ orders, (g o).toInt = c * if o.role = .ask then
      o.exactFill (routeAll market orders price) market
      else -o.exactFill (routeAll market orders price) market) :
    saturatingSum 0 (orders.map g) = 0 := by
  have habs : ((orders.map g).map fun x => |x.toInt|).sum =
      2 * crossVolume orders price.toNat := by
    rw [← sum_exactFill_routeAll hwf hfits, map_map]
    refine congrArg List.sum (map_congr_left fun o ho => ?_)
    have hnonneg := (exactFill_routeAll hwf hfits ho).1
    rw [comp_apply, hg o ho]
    rcases hc with rfl | rfl <;> split <;> simp [abs_of_nonneg hnonneg]
  have hvol := hfits.volume
  rw [eq_iff, toInt_saturatingSum_of_abs_lt 0 (by rw [habs, toInt_zero]; simp; omega),
    map_map, map_congr_left (g := fun o => c * if o.role = .ask then
      o.exactFill (routeAll market orders price) market
      else -o.exactFill (routeAll market orders price) market) hg, sum_map_mul_left]
  have hsum := sum_exactCarried hwf.seats (goods_runsFrom hwf (routeAll_legal hwf hfits))
  simp only [exactFill, hsum, mul_zero, toInt_zero, add_zero]

/-- The fills add up to twice the volume. -/
theorem primal_routeAll :
    (saturatingSum 0 (orders.map fun o =>
      o.fill (routeAll market orders price) market)).toInt =
      2 * crossVolume orders price.toNat := by
  have hvol := hfits.volume
  have hmap : (orders.map fun o => o.fill (routeAll market orders price) market).map toInt =
      orders.map fun o => o.exactFill (routeAll market orders price) market := by
    rw [map_map]
    exact map_congr_left fun o ho => toInt_fill_routeAll hwf hfits ho
  rw [toInt_saturatingSum_of_nonneg _ 0 le_rfl, hmap, sum_exactFill_routeAll hwf hfits,
    toInt_zero, zero_add]
  · exact min_eq_left (by omega)
  · intro x hx
    obtain ⟨o, ho, rfl⟩ := mem_map.1 hx
    rw [toInt_fill_routeAll hwf hfits ho]
    exact (exactFill_routeAll hwf hfits ho).1

omit hwf in
/-- The priced capacities add up to twice the volume: only the bottleneck side
has slack. -/
theorem dual_routeAll :
    (saturatingSum 0 (orders.map fun o => (o.capacityAt price).saturatingMul
      (if o.role = bottleneck orders price then 2 else 0))).toInt =
      2 * crossVolume orders price.toNat := by
  have hvol := hfits.volume
  have hterm : ∀ o ∈ orders, ((o.capacityAt price).saturatingMul
      (if o.role = bottleneck orders price then 2 else 0)).toInt =
      2 * ((if o.role = bottleneck orders price then o.capacity price.toNat else 0 : ℕ) : ℤ) := by
    intro o ho
    have hle : o.role = bottleneck orders price →
        o.capacity price.toNat ≤ crossVolume orders price.toNat := by
      intro hrole
      rw [← sideCapacity_bottleneck hfits]
      apply single_le_sum (fun _ _ => Nat.zero_le _)
      exact mem_map.2 ⟨o, ho, if_pos hrole⟩
    rw [saturatingMul, hfits.toInt_capacityAt ho]
    by_cases hrole : o.role = bottleneck orders price
    · have hle := hle hrole
      have htwo : (2 : I128).toInt = 2 := rfl
      simp only [hrole, if_true, htwo]
      rw [toInt_clamp_of_mem (by omega) (by omega)]
      omega
    · simp [hrole, toInt_clamp]
  have hmap : (orders.map fun o => (o.capacityAt price).saturatingMul
      (if o.role = bottleneck orders price then 2 else 0)).map toInt =
      orders.map fun o =>
        2 * ((if o.role = bottleneck orders price then o.capacity price.toNat else 0 : ℕ) : ℤ) := by
    rw [map_map]
    exact map_congr_left hterm
  have hsum : (orders.map fun o =>
      2 * ((if o.role = bottleneck orders price then o.capacity price.toNat else 0 : ℕ) : ℤ)).sum =
      2 * crossVolume orders price.toNat := by
    rw [sum_map_mul_left, ← sideCapacity_bottleneck hfits, sideCapacity, Nat.cast_list_sum,
      map_map]
    rfl
  rw [toInt_saturatingSum_of_nonneg _ 0 le_rfl, hmap, hsum, toInt_zero, zero_add]
  · exact min_eq_left (by omega)
  · intro x hx
    obtain ⟨o, ho, rfl⟩ := mem_map.1 hx
    rw [hterm o ho]
    omega

/-- The settlement the solver synthesizes at a price passes the judge exactly
when the tolerance is not read as negative. -/
theorem accepted_routeAll_iff :
    Accepted market orders (routeAll market orders price) (synthesize orders price) ↔
      market.epsilon.toNat < 2 ^ 127 := by
  have hzip : orders.zip (synthesize orders price).slacks =
      orders.map fun o => (o, if o.role = bottleneck orders price then 2 else 0) := by
    rw [synthesize_eq]
    exact zip_slacks orders
  have hprice : (synthesize orders price).price = price := rfl
  have hgap : (totalsOf market (routeAll market orders price) (synthesize orders price)
        ⟨0, 0, 0, 0⟩ (orders.zip (synthesize orders price).slacks)).cDotS.saturatingSub
      (totalsOf market (routeAll market orders price) (synthesize orders price)
        ⟨0, 0, 0, 0⟩ (orders.zip (synthesize orders price).slacks)).wDotF = 0 := by
    have hprimal := primal_routeAll hwf hfits
    have hdual := dual_routeAll hfits
    rw [hzip, eq_iff, saturatingSub]
    simp only [totalsOf, map_map, comp_def, hprice, hprimal, hdual, sub_self]
    rfl
  constructor
  · intro h
    have hle := le_iff.1 h.gap
    rw [hgap, toInt_zero] at hle
    by_contra hbig
    have hneg := U128.toInt_toI128_of_le (not_lt.1 hbig)
    have hlt := market.epsilon.lt
    omega
  · intro hepsilon
    have hpass : ∀ p ∈ orders.zip (synthesize orders price).slacks,
        OrderPasses market (routeAll market orders price) (synthesize orders price) p.1 p.2 := by
      intro p hp
      rw [hzip] at hp
      obtain ⟨o, ho, rfl⟩ := mem_map.1 hp
      exact orderPasses_routeAll hwf hfits ho
    have hfill : ∀ o ∈ orders, 0 ≤ (o.fill (routeAll market orders price) market).toInt := by
      intro o ho
      rw [toInt_fill_routeAll hwf hfits ho]
      exact (exactFill_routeAll hwf hfits ho).1
    refine ⟨hwf, by simp [synthesize_eq], routeAll_legal hwf hfits, hpass, ?_, ?_, ?_⟩
    · rw [hzip]
      simp only [totalsOf, map_map, comp_def]
      apply row_routeAll hwf hfits (Or.inl rfl)
      intro o ho
      rw [(o.role.toInt_out_mul (hfill o ho)).1, toInt_fill_routeAll hwf hfits ho, one_mul]
    · rw [hzip]
      simp only [totalsOf, map_map, comp_def]
      apply row_routeAll hwf hfits (Or.inr rfl)
      intro o ho
      rw [(o.role.toInt_out_mul (hfill o ho)).2, toInt_fill_routeAll hwf hfits ho, neg_one_mul]
    · rw [hgap, le_iff, toInt_zero, U128.toInt_toI128_of_lt hepsilon]
      exact Int.natCast_nonneg _

end Judged

/-! ## The solver -/

/-- The solver's answer, once the judge has accepted the settlement. -/
def solution (market : Market) (orders : List Order) : ClearingSolution :=
  let best := selectPrice orders
  let moves := routeAll market orders best.price
  let cert := synthesize orders best.price
  let lines := orders.zip cert.slacks
  let primal := saturatingSum 0 (lines.map fun p => p.1.fill moves market)
  let dual := saturatingSum 0
    (lines.map fun p => (capacityWord p.1 best.price).toI128.saturatingMul p.2)
  { market := market
    orders := orders
    moves := moves
    cert := cert
    fills := lines.map fun p => orderFill market moves best.price p.1 p.2
    volume := best.vol
    primalObjective := primal
    dualObjective := dual
    dualityGap := dual.saturatingSub primal }

/-- The solver answers exactly when the judge accepts its settlement. -/
theorem solveClearing_eq_ok {sol : ClearingSolution} :
    solveClearing market orders = .ok sol ↔
      Accepted market orders (routeAll market orders (selectPrice orders).price)
        (synthesize orders (selectPrice orders).price) ∧ sol = solution market orders := by
  simp only [solveClearing, check_bind_eq_ok, refuseIf_decide, checkOrders_eq_ok,
    verifyCertF_eq_ok, pure_inj]
  constructor
  · rintro ⟨_, _, hok, rfl⟩
    exact ⟨hok, rfl⟩
  · rintro ⟨hok, rfl⟩
    have hwf := hok.wellFormed
    exact ⟨hwf.assets, ⟨hwf.positive, hwf.seats, by simp⟩, hok, rfl⟩

theorem dualityGap_solution (hwf : WellFormed market orders)
    (hfits : PriceFits orders (selectPrice orders).price) :
    (solution market orders).dualityGap = 0 := by
  have hprimal := primal_routeAll hwf hfits
  have hdual := dual_routeAll hfits
  have hcap : ∀ o : Order, (capacityWord o (selectPrice orders).price).toI128 =
      o.capacityAt (selectPrice orders).price := by
    intro o
    unfold capacityWord Order.capacityAt
    split <;> rfl
  have hzip : orders.zip (synthesize orders (selectPrice orders).price).slacks =
      orders.map fun o =>
        (o, if o.role = bottleneck orders (selectPrice orders).price then 2 else 0) := by
    rw [synthesize_eq]
    exact zip_slacks orders
  rw [eq_iff]
  simp only [solution, saturatingSub, hzip, map_map, comp_def, hcap, hprimal,
    hdual, sub_self]
  rfl

/-- On a well-formed book without overflow the solver returns a settlement with
a duality gap of zero exactly when the tolerance is below `2^127`. -/
theorem solveClearing_complete_iff (hwf : WellFormed market orders) (hno : NoOverflow orders) :
    (∃ sol, solveClearing market orders = .ok sol ∧ sol.dualityGap = 0) ↔
      market.epsilon.toNat < 2 ^ 127 := by
  have hfits := hno.priceFits hwf.positive
  rw [← accepted_routeAll_iff hwf hfits]
  constructor
  · rintro ⟨sol, hok, _⟩
    exact (solveClearing_eq_ok.1 hok).1
  · intro hok
    exact ⟨_, solveClearing_eq_ok.2 ⟨hok, rfl⟩, dualityGap_solution hwf hfits⟩

/-- A bid and an ask for two and three units, both at price 3. -/
def smallBook : List Order := [⟨1, .bid, 3, 2, 6⟩, ⟨2, .ask, 3, 3, 9⟩]

theorem smallBook_wellFormed (epsilon : U128) : WellFormed ⟨1, 2, epsilon⟩ smallBook :=
  ⟨by simp, by decide, by decide⟩

theorem smallBook_noOverflow : NoOverflow smallBook :=
  ⟨by decide, by decide, by decide, by decide,
    by decide⟩

theorem smallBook_solved :
    ∃ sol, solveClearing ⟨1, 2, 0⟩ smallBook = .ok sol ∧ sol.dualityGap = 0 :=
  (solveClearing_complete_iff (smallBook_wellFormed 0) smallBook_noOverflow).2 (by decide)

/-- With the tolerance `2^127` the judge refuses the solver's own settlement of
a small book, although its duality gap is zero. -/
theorem smallBook_refused_at_wide_tolerance :
    WellFormed ⟨1, 2, U128.ofNat (2 ^ 127)⟩ smallBook ∧ NoOverflow smallBook ∧
      ¬ ∃ sol, solveClearing ⟨1, 2, U128.ofNat (2 ^ 127)⟩ smallBook = .ok sol := by
  have hwf := smallBook_wellFormed (U128.ofNat (2 ^ 127))
  refine ⟨hwf, smallBook_noOverflow, ?_⟩
  rintro ⟨sol, hok⟩
  have hfits := smallBook_noOverflow.priceFits hwf.positive
  have hlt := (accepted_routeAll_iff hwf hfits).1 (solveClearing_eq_ok.1 hok).1
  exact absurd hlt (by decide)

/-- The volume the solver clears is the largest over all prices, and it is the
goods its transfers move; a well-formed book gets this answer at every
tolerance below `2^127`. -/
theorem solveClearing_volume_isGreatest (market : Market) (hno : NoOverflow orders) :
    (WellFormed market orders → market.epsilon.toNat < 2 ^ 127 →
        ∃ sol, solveClearing market orders = .ok sol) ∧
      ∀ sol, solveClearing market orders = .ok sol →
        IsGreatest (Set.range (crossVolume orders)) sol.volume.toNat ∧
          moved sol.moves market.goods = sol.volume.toNat := by
  constructor
  · intro hwf hepsilon
    have haccepted := (accepted_routeAll_iff hwf (hno.priceFits hwf.positive)).2 hepsilon
    exact ⟨_, solveClearing_eq_ok.2 ⟨haccepted, rfl⟩⟩
  · intro sol hok
    obtain ⟨haccepted, rfl⟩ := solveClearing_eq_ok.1 hok
    have hwf := haccepted.wellFormed
    have hfits := hno.priceFits hwf.positive
    obtain ⟨hvol, hgreatest⟩ := selectPrice_isGreatest hwf.positive hno.selectionFits
    exact ⟨hgreatest, (moved_routeAll hwf hfits).trans hvol.symm⟩

theorem smallBook_volume :
    ∃ sol, solveClearing ⟨1, 2, 0⟩ smallBook = .ok sol ∧
      IsGreatest (Set.range (crossVolume smallBook)) sol.volume.toNat ∧
      moved sol.moves 2 = sol.volume.toNat := by
  obtain ⟨hexists, hall⟩ :=
    solveClearing_volume_isGreatest ⟨1, 2, 0⟩ smallBook_noOverflow
  obtain ⟨sol, hok⟩ := hexists (smallBook_wellFormed 0) (by decide)
  exact ⟨sol, hok, hall sol hok⟩

end MiniDregg.Clearing
