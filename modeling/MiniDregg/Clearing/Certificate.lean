import MiniDregg.Arith.Int128
import MiniDregg.Control.Fallible

/-!
# The clearing certificate and its judge

Orders of one market, the transfers that settle them, and the certificate that
comes with them: a uniform price, two dual potentials and one slack for each
order. `verifyCertF` is the check every certificate passes before it is used.

## Implementation notes

The numbers are the machine words of the source, with its casts and its
saturating operations. The negation of a flow is the plain operator, which
wraps in a release build.
-/

namespace MiniDregg.Clearing

open Arith Fallible

instance : ToString U128 := ⟨fun a => toString a.toNat⟩

instance : ToString I128 := ⟨fun a => toString a.toInt⟩

structure Market where
  currency : UInt64
  goods : UInt64
  epsilon : U128
  deriving DecidableEq

inductive Side
  | bid
  | ask
  deriving DecidableEq

/-- The incidence sign of a side in the first row of the flow matrix. -/
def Side.out : Side → I128
  | .bid => -1
  | .ask => 1

/-- `total` is the budget of a bid and the reserve of an ask. -/
structure Order where
  seat : UInt64
  role : Side
  limitPrice : U128
  maxGoods : U128
  total : U128
  deriving DecidableEq

/-- A transfer between two seats; the source calls the ends `from` and `to`. -/
structure Transfer where
  source : UInt64
  destination : UInt64
  asset : UInt64
  amount : U128
  deriving DecidableEq

structure Certificate where
  price : U128
  bidPotential : I128
  askPotential : I128
  slacks : List I128
  deriving DecidableEq

/-- The effect of one transfer on the running total of a seat. -/
def flowStep (seat asset : UInt64) (total : I128) (t : Transfer) : I128 :=
  if t.asset = asset then
    let received :=
      if t.destination = seat then total.saturatingAdd t.amount.toI128 else total
    if t.source = seat then received.saturatingSub t.amount.toI128 else received
  else total

/-- `net_flow`: what `seat` gains of `asset`. -/
def netFlow (moves : List Transfer) (seat asset : UInt64) : I128 :=
  moves.foldl (flowStep seat asset) 0

namespace Order

variable (o : Order)

def crosses (price : U128) : Bool :=
  let notional := price.saturatingMul o.maxGoods
  match o.role with
  | .bid => decide (notional ≤ o.total)
  | .ask => decide (o.total ≤ notional)

def capacityAt (price : U128) : I128 :=
  if o.crosses price then o.maxGoods.toI128 else 0

variable (moves : List Transfer)

/-- Goods filled for the order. -/
def fill (market : Market) : I128 :=
  let flow := netFlow moves o.seat market.goods
  match o.role with
  | .bid => flow
  | .ask => -flow

/-- Currency paid by a bid, received by an ask. -/
def paid (market : Market) : I128 :=
  let flow := netFlow moves o.seat market.currency
  match o.role with
  | .bid => -flow
  | .ask => flow

end Order

/-- The first loop over the orders: quantities are positive, seats distinct.
The judge and the solver run it with texts of their own. -/
def checkOrders (zeroGoods duplicate : ℕ → Order → String) (idx : ℕ) (seen : List UInt64) :
    List Order → Result Unit
  | [] => .ok ()
  | o :: rest => do
    refuseIf (decide (o.maxGoods = 0)) (zeroGoods idx o)
    refuseIf (decide (o.seat ∈ seen)) (duplicate idx o)
    checkOrders zeroGoods duplicate (idx + 1) (o.seat :: seen) rest

/-- One transfer moves one of the two assets, between two orders, in the
direction of that asset. -/
def checkMove (market : Market) (orders : List Order) (idx : ℕ) (t : Transfer) :
    Result Unit := do
  refuseIf (decide (t.amount = 0)) s!"zeroTransfer: transfer[{idx}] has amount 0"
  refuseIf (decide (t.source = t.destination))
    s!"selfTransfer: transfer[{idx}] source and destination seat {t.source} are identical"
  refuseIf (decide (t.asset ≠ market.currency ∧ t.asset ≠ market.goods))
    s!"foreignAsset: transfer[{idx}] asset {t.asset} is neither currency ({market.currency}) nor goods ({market.goods})"
  match orders.find? fun o => o.seat = t.source with
  | none => .error s!"notAnOrder: transfer[{idx}] source seat {t.source} is not in orders"
  | some src =>
    match orders.find? fun o => o.seat = t.destination with
    | none =>
      .error s!"notAnOrder: transfer[{idx}] destination seat {t.destination} is not in orders"
    | some dst => do
      refuseIf (decide (t.asset = market.goods ∧ (src.role ≠ .ask ∨ dst.role ≠ .bid)))
        s!"movesConsistent: goods transfer[{idx}] ({t.source} -> {t.destination}) must flow from ask to bid"
      refuseIf (decide (t.asset = market.currency ∧ (src.role ≠ .bid ∨ dst.role ≠ .ask)))
        s!"movesConsistent: currency transfer[{idx}] ({t.source} -> {t.destination}) must flow from bid to ask"

def checkMoves (market : Market) (orders : List Order) (idx : ℕ) :
    List Transfer → Result Unit
  | [] => .ok ()
  | t :: rest => do
    checkMove market orders idx t
    checkMoves market orders (idx + 1) rest

/-- The four accumulators of the main loop. -/
structure Totals where
  row0Flow : I128
  row1Flow : I128
  wDotF : I128
  cDotS : I128

/-- The dual value of the order's column, before its slack. -/
def Certificate.piA (cert : Certificate) (side : Side) : I128 :=
  (cert.bidPotential.saturatingMul side.out).saturatingAdd
    (cert.askPotential.saturatingMul (-side.out))

/-- One round of the main loop, for order `j` with slack `s`. -/
def judgeOrder (market : Market) (moves : List Transfer) (cert : Certificate) (j : ℕ)
    (acc : Totals) (o : Order) (s : I128) : Result Totals := do
  let f := o.fill moves market
  let p := o.paid moves market
  refuseIf (decide (p ≠ cert.price.toI128.saturatingMul f))
    s!"notUniform: seat {o.seat} paid {p} != price ({cert.price}) * fill ({f})"
  let cap := o.capacityAt cert.price
  refuseIf (decide (f < 0 ∨ cap < f))
    s!"primalBox: seat {o.seat} fill {f} outside [0, {cap}] at price {cert.price}"
  let sign := o.role.out
  refuseIf (decide (s < 0)) s!"dualSlackNeg: order[{j}] (seat {o.seat}) slack {s} < 0"
  let piA := cert.piA o.role
  refuseIf (decide (piA.saturatingAdd s < 1))
    s!"dualInfeasible: order[{j}] (seat {o.seat}) requires 1 <= (pi * A) ({piA}) + slack ({s})"
  pure
    { row0Flow := acc.row0Flow.saturatingAdd (sign.saturatingMul f)
      row1Flow := acc.row1Flow.saturatingAdd ((-sign).saturatingMul f)
      wDotF := acc.wDotF.saturatingAdd f
      cDotS := acc.cDotS.saturatingAdd (cap.saturatingMul s) }

def judgeOrders (market : Market) (moves : List Transfer) (cert : Certificate) (j : ℕ)
    (acc : Totals) : List (Order × I128) → Result Totals
  | [] => .ok acc
  | (o, s) :: rest => do
    let next ← judgeOrder market moves cert j acc o s
    judgeOrders market moves cert (j + 1) next rest

/-- `verify_cert_f`. -/
def verifyCertF (market : Market) (orders : List Order) (moves : List Transfer)
    (cert : Certificate) : Result Unit := do
  refuseIf (decide (market.currency = market.goods))
    "degenerateMarket: market currency and goods assets must be distinct"
  checkOrders
    (fun idx o => s!"invalidOrder[{idx}]: seat {o.seat} max_goods must be > 0")
    (fun idx o =>
      s!"duplicateSeat: order[{idx}] seat {o.seat} appears multiple times in orders")
    0 [] orders
  refuseIf (decide (cert.slacks.length ≠ orders.length))
    s!"slackCount: expected {orders.length} slacks, got {cert.slacks.length}"
  checkMoves market orders 0 moves
  let totals ← judgeOrders market moves cert 0 ⟨0, 0, 0, 0⟩ (orders.zip cert.slacks)
  refuseIf (decide (totals.row0Flow ≠ 0 ∨ totals.row1Flow ≠ 0))
    s!"primalConservation: net goods flow imbalance (row0={totals.row0Flow}, row1={totals.row1Flow})"
  let gap := totals.cDotS.saturatingSub totals.wDotF
  refuseIf (decide (market.epsilon.toI128 < gap))
    s!"dualityGap: c.s ({totals.cDotS}) - w.f ({totals.wDotF}) = {gap} > epsilon ({market.epsilon})"

end MiniDregg.Clearing
