import MiniDregg.Clearing.Certificate

/-!
# The clearing solver

`solveClearing` picks the candidate price with the largest crossing volume,
routes lots between the crossing bids and asks in book order, writes down a
dual certificate for the bottleneck side, and has the judge check the result.

## Implementation notes

The ordered set of candidates is its ascending list. The routing loop keeps the
unrouted tail of either side; the source keeps two indices into fixed arrays.
-/

namespace MiniDregg.Clearing

open Arith Fallible

/-- `BTreeSet::insert` on the ascending list of its members. -/
def insertAscending (a : U128) : List U128 → List U128
  | [] => [a]
  | b :: rest =>
    if a < b then a :: b :: rest
    else if a = b then b :: rest
    else b :: insertAscending a rest

namespace Order

def floorPrice (o : Order) : U128 := o.total.div o.maxGoods

def ceilPrice (o : Order) : U128 := o.total.divCeil o.maxGoods

end Order

/-- The thresholds of every order. -/
def thresholds (orders : List Order) : List U128 :=
  orders.foldl (fun acc o =>
    insertAscending o.ceilPrice
      (insertAscending o.floorPrice (insertAscending o.limitPrice acc))) []

/-- The midpoints between every bid and every ask below it. -/
def withMidpoints (bidLimits askLimits : List U128) (acc : List U128) : List U128 :=
  bidLimits.foldl (fun acc b =>
    askLimits.foldl (fun acc a =>
      if a ≤ b then insertAscending (a.add ((b.sub a).div 2)) acc else acc) acc) acc

/-- The candidate prices, ascending. -/
def candidates (orders : List Order) : List U128 :=
  let bidLimits := (orders.filter fun o => o.role = .bid).map Order.floorPrice
  let askLimits := (orders.filter fun o => o.role = .ask).map Order.ceilPrice
  let all := withMidpoints bidLimits askLimits (thresholds orders)
  if all.isEmpty then insertAscending 0 all else all

/-- The orders of a side that cross at a price, in book order. -/
def crossing (side : Side) (orders : List Order) (price : U128) : List Order :=
  orders.filter fun o => o.role = side && o.crosses price

def crossingCapacity (side : Side) (orders : List Order) (price : U128) : U128 :=
  U128.sum ((crossing side orders price).map Order.maxGoods)

/-- The best candidate so far. -/
structure Best where
  price : U128
  vol : U128
  imbalance : U128

/-- More volume, or the same positive volume with less imbalance. -/
def Best.beatenBy (best : Best) (vol imbalance : U128) : Bool :=
  if vol ≠ best.vol then decide (best.vol < vol)
  else if 0 < vol ∧ imbalance ≠ best.imbalance then decide (imbalance < best.imbalance)
  else false

def selectStep (orders : List Order) (best : Best) (p : U128) : Best :=
  let bCap := crossingCapacity .bid orders p
  let sCap := crossingCapacity .ask orders p
  let vol := min bCap sCap
  let imbalance := bCap.absDiff sCap
  if best.beatenBy vol imbalance then ⟨p, vol, imbalance⟩ else best

/-- The price loop over all candidates. -/
def selectPrice (orders : List Order) : Best :=
  (candidates orders).foldl (selectStep orders)
    ⟨(candidates orders).headD 0, 0, U128.maxValue⟩

/-- The transfers of one matched lot. -/
def lotMoves (market : Market) (price : U128) (bid ask : Order) (matched : U128) :
    List Transfer :=
  if 0 < matched then
    let currencyAmt := price.saturatingMul matched
    ⟨ask.seat, bid.seat, market.goods, matched⟩ ::
      if 0 < currencyAmt then [⟨bid.seat, ask.seat, market.currency, currencyAmt⟩] else []
  else []

/-- An order with what is left of it; an order used up is passed over. -/
def advance (o : Order) (left : U128) (rest : List (Order × U128)) : List (Order × U128) :=
  if left = 0 then rest else (o, left) :: rest

theorem advance_length_le (o : Order) (left : U128) (rest : List (Order × U128)) :
    (advance o left rest).length ≤ rest.length + 1 := by
  unfold advance
  split <;> simp

theorem advance_sub_self (o : Order) (q : U128) (rest : List (Order × U128)) :
    advance o (q.sub q) rest = rest := by
  have hzero : q.sub q = 0 := U128.ext (by rw [U128.toNat_sub_of_le le_rfl]; simp)
  simp [advance, hzero]

/-- The two-pointer routing loop. -/
def route (market : Market) (price : U128) :
    List (Order × U128) → List (Order × U128) → List Transfer
  | (b, bq) :: bids, (a, aq) :: asks =>
    let matched := min bq aq
    lotMoves market price b a matched ++
      route market price (advance b (bq.sub matched) bids) (advance a (aq.sub matched) asks)
  | _, _ => []
  termination_by bids asks => bids.length + asks.length
  decreasing_by
    have hb := advance_length_le b (bq.sub (min bq aq)) bids
    have ha := advance_length_le a (aq.sub (min bq aq)) asks
    rcases le_total bq aq with h | h
    · rw [min_eq_left h] at hb ha ⊢
      rw [advance_sub_self] at hb ⊢
      simp only [List.length_cons]
      omega
    · rw [min_eq_right h] at hb ha ⊢
      rw [advance_sub_self] at ha ⊢
      simp only [List.length_cons]
      omega

structure OrderFill where
  seat : UInt64
  role : Side
  limitPrice : U128
  maxGoods : U128
  crosses : Bool
  capacity : U128
  fill : U128
  paid : U128
  slack : I128
  deriving DecidableEq

structure ClearingSolution where
  market : Market
  orders : List Order
  moves : List Transfer
  cert : Certificate
  fills : List OrderFill
  volume : U128
  primalObjective : I128
  dualObjective : I128
  dualityGap : I128
  deriving DecidableEq

/-- The slack that lifts the column of a side to one. -/
def synthesizeSlack (bidPotential askPotential : I128) (o : Order) : I128 :=
  let sign := o.role.out
  let piA := bidPotential * sign + askPotential * (-sign)
  max (1 - piA) 0

/-- The certificate at the selected price: potentials for the bottleneck side. -/
def synthesize (orders : List Order) (price : U128) : Certificate :=
  let totalBidCap := crossingCapacity .bid orders price
  let totalAskCap := crossingCapacity .ask orders price
  let potentials : I128 × I128 := if totalAskCap ≤ totalBidCap then (0, 1) else (1, 0)
  ⟨price, potentials.1, potentials.2,
    orders.map (synthesizeSlack potentials.1 potentials.2)⟩

variable (market : Market)

variable (orders : List Order)

/-- The routing of all crossing orders at the price. -/
def routeAll (price : U128) : List Transfer :=
  route market price
    ((crossing .bid orders price).map fun o => (o, o.maxGoods))
    ((crossing .ask orders price).map fun o => (o, o.maxGoods))

def capacityWord (o : Order) (price : U128) : U128 :=
  if o.crosses price then o.maxGoods else 0

/-- One line of the report. -/
def orderFill (moves : List Transfer) (price : U128) (o : Order)
    (slack : I128) : OrderFill where
  seat := o.seat
  role := o.role
  limitPrice := o.limitPrice
  maxGoods := o.maxGoods
  crosses := o.crosses price
  capacity := capacityWord o price
  fill := (max (o.fill moves market) 0).toU128
  paid := (max (o.paid moves market) 0).toU128
  slack := slack

/-- `solve_clearing`. -/
def solveClearing : Result ClearingSolution := do
  refuseIf (decide (market.currency = market.goods))
    "market currency and goods assets must be distinct"
  checkOrders
    (fun idx o => s!"order[{idx}] (seat {o.seat}): max_goods must be > 0")
    (fun _ o =>
      s!"duplicate seat {o.seat} in order book (each order must belong to a distinct seat)")
    0 [] orders
  let best := selectPrice orders
  let moves := routeAll market orders best.price
  let cert := synthesize orders best.price
  verifyCertF market orders moves cert
  let lines := orders.zip cert.slacks
  let primal := I128.saturatingSum 0 (lines.map fun p => p.1.fill moves market)
  let dual := I128.saturatingSum 0
    (lines.map fun p => (capacityWord p.1 best.price).toI128.saturatingMul p.2)
  pure
    { market := market
      orders := orders
      moves := moves
      cert := cert
      fills := lines.map fun p => orderFill market moves best.price p.1 p.2
      volume := best.vol
      primalObjective := primal
      dualObjective := dual
      dualityGap := dual.saturatingSub primal }

end MiniDregg.Clearing
