import Mathlib.Algebra.BigOperators.Ring.Finset
import MiniDregg.Arith.Duality
import MiniDregg.Clearing.Judgement

/-!
# The exact ledger of a settlement

What every seat sends and receives, in unbounded numbers, and how the judge's
machine words relate to it. An asset runs from one side of the book to the
other, so the flow of a seat has one sign and a word can only saturate at one
end.
-/

namespace MiniDregg.Clearing

open Arith List Clearing.Order I128 Side

variable {market : Market} {orders : List Order} {moves : List Transfer}

/-- The amounts of `asset` whose chosen end is `seat`. -/
def tally (e : Transfer → UInt64) (moves : List Transfer) (seat asset : UInt64) : ℕ :=
  ((moves.filter fun t => t.asset = asset ∧ e t = seat).map fun t => t.amount.toNat).sum

/-- All amounts of `asset`. -/
def moved (moves : List Transfer) (asset : UInt64) : ℕ :=
  ((moves.filter fun t => t.asset = asset).map fun t => t.amount.toNat).sum

abbrev received := tally Transfer.destination

abbrev sent := tally Transfer.source

variable {asset seat : UInt64} {o : Order}

section Tally
variable {e : Transfer → UInt64}

@[simp] theorem tally_nil : tally e [] seat asset = 0 := rfl

theorem tally_cons (t : Transfer) :
    tally e (t :: moves) seat asset =
      (if t.asset = asset ∧ e t = seat then t.amount.toNat else 0) +
        tally e moves seat asset := by
  simp only [tally, filter_cons, decide_eq_true_eq]
  split <;> simp

@[simp] theorem moved_nil : moved [] asset = 0 := rfl

theorem moved_cons (t : Transfer) :
    moved (t :: moves) asset =
      (if t.asset = asset then t.amount.toNat else 0) + moved moves asset := by
  simp only [moved, filter_cons, decide_eq_true_eq]
  split <;> simp

@[simp] theorem tally_append (ms ms' : List Transfer) :
    tally e (ms ++ ms') seat asset = tally e ms seat asset + tally e ms' seat asset := by
  simp [tally]

@[simp] theorem moved_append (ms ms' : List Transfer) :
    moved (ms ++ ms') asset = moved ms asset + moved ms' asset := by
  simp [moved]

theorem tally_eq_zero (h : ∀ t ∈ moves, t.asset = asset → e t ≠ seat) :
    tally e moves seat asset = 0 := by
  have hnone : (moves.filter fun t => t.asset = asset ∧ e t = seat) = [] := by
    rw [filter_eq_nil_iff]
    intro t ht
    simpa using h t ht
  rw [tally, hnone]
  rfl

theorem tally_le_moved : tally e moves seat asset ≤ moved moves asset := by
  have hsub := monotone_filter_right moves (p := fun t => t.asset = asset ∧ e t = seat)
    (q := fun t => t.asset = asset) fun t ht => by simp_all
  exact (hsub.map _).sum_le_sum fun _ _ => Nat.zero_le _

variable (hseats : (orders.map Order.seat).Nodup)
include hseats

/-- A sum over the orders at one seat has one term. -/
theorem sum_ite_seat (ho : o ∈ orders) (g : Order → ℕ) :
    (orders.map fun p => if p.seat = o.seat then g p else 0).sum = g o := by
  induction orders with
  | nil => cases ho
  | cons p rest ih =>
    simp only [map_cons, nodup_cons, mem_map, not_exists, not_and] at hseats
    rw [map_cons, sum_cons]
    rcases mem_cons.1 ho with rfl | hrest
    · have hzero : ∀ n ∈ rest.map fun q => if q.seat = o.seat then g q else 0, n = 0 :=
        forall_mem_map.2 fun q hq => if_neg (hseats.1 q hq)
      rw [sum_eq_zero hzero, if_pos rfl, add_zero]
    · have hne : p.seat ≠ o.seat := fun heq => hseats.1 o hrest heq.symm
      rw [if_neg hne, ih hseats.2 hrest, zero_add]

/-- Every amount of an asset is counted at exactly one seat. -/
theorem sum_tally (h : ∀ t ∈ moves, t.asset = asset → ∃ o ∈ orders, o.seat = e t) :
    (orders.map fun o => tally e moves o.seat asset).sum = moved moves asset := by
  induction moves with
  | nil => simp
  | cons t rest ih =>
    have hrest := ih fun s hs => h s (mem_cons_of_mem t hs)
    simp only [tally_cons, moved_cons, sum_map_add, hrest]
    congr 1
    by_cases hasset : t.asset = asset
    · obtain ⟨o, ho, hoe⟩ := h t (mem_cons_self ..) hasset
      simp only [hasset, true_and, if_true, ← hoe, eq_comm (a := o.seat)]
      exact sum_ite_seat hseats ho fun _ => t.amount.toNat
    · simp [hasset]

end Tally

/-! ## Flows of one sign -/

/-- An asset whose transfers all run from `side`. -/
def RunsFrom (moves : List Transfer) (orders : List Order) (asset : UInt64) (side : Side) :
    Prop :=
  ∀ t ∈ moves, t.asset = asset → t.RunsFrom orders side

theorem Side.other_ne (side : Side) : side.other ≠ side := by
  cases side <;> decide

theorem Side.eq_or_eq_other (side role : Side) : role = side ∨ role = side.other := by
  cases side <;> cases role <;> decide

/-- The incidence products of a nonnegative fill are exact. -/
theorem Side.toInt_out_mul (side : Side) {x : I128} (hx : 0 ≤ x.toInt) :
    (side.out.saturatingMul x).toInt = (if side = .ask then x.toInt else -x.toInt) ∧
      ((-side.out).saturatingMul x).toInt = -(if side = .ask then x.toInt else -x.toInt) := by
  have hupper := x.upper
  cases side with
  | bid =>
    have hone : (-bid.out).toInt = 1 := rfl
    have hneg : bid.out.toInt = -1 := rfl
    simp only [saturatingMul, hone, hneg, toInt_clamp, reduceCtorEq, if_false]
    omega
  | ask =>
    have hone : ask.out.toInt = 1 := rfl
    have hneg : (-ask.out).toInt = -1 := rfl
    simp only [saturatingMul, hone, hneg, toInt_clamp, if_true]
    omega

section
variable (hwf : WellFormed market orders) (hlegal : ∀ t ∈ moves, t.Legal market orders)
include hwf hlegal

/-- The goods of legal transfers run from the asks. -/
theorem goods_runsFrom : RunsFrom moves orders market.goods .ask := by
  intro t ht hasset
  rcases (hlegal t ht).runs with ⟨_, h⟩ | ⟨hc, _⟩
  · exact h
  · exact absurd (hc.symm.trans hasset) hwf.assets

/-- The currency of legal transfers runs from the bids. -/
theorem currency_runsFrom : RunsFrom moves orders market.currency .bid := by
  intro t ht hasset
  rcases (hlegal t ht).runs with ⟨hg, _⟩ | ⟨_, h⟩
  · exact absurd (hasset.symm.trans hg) hwf.assets
  · exact h

end

variable {side : Side}

section
variable (hseats : (orders.map Order.seat).Nodup) (hruns : RunsFrom moves orders asset side)
  (ho : o ∈ orders)
include hseats hruns ho

theorem destination_ne (hrole : o.role = side) :
    ∀ t ∈ moves, t.asset = asset → t.destination ≠ o.seat := by
  intro t ht hasset heq
  obtain ⟨p, hp, hpseat, hprole⟩ := (hruns t ht hasset).destination
  have hpo : p = o := inj_on_of_nodup_map hseats hp ho (hpseat.trans heq)
  rw [hpo, hrole] at hprole
  exact side.other_ne hprole.symm

theorem source_ne (hrole : o.role = side.other) :
    ∀ t ∈ moves, t.asset = asset → t.source ≠ o.seat := by
  intro t ht hasset heq
  obtain ⟨p, hp, hpseat, hprole⟩ := (hruns t ht hasset).source
  have hpo : p = o := inj_on_of_nodup_map hseats hp ho (hpseat.trans heq)
  rw [hpo, hrole] at hprole
  exact side.other_ne hprole

end

private theorem foldl_flowStep {e : Transfer → UInt64} {op : I128 → I128 → I128}
    (h : ∀ t ∈ moves, ∀ a, flowStep seat asset a t =
      if t.asset = asset ∧ e t = seat then op a t.amount.toI128 else a) (a : I128) :
    moves.foldl (flowStep seat asset) a =
      ((moves.filter fun t => t.asset = asset ∧ e t = seat).map fun t => t.amount.toI128).foldl
        op a := by
  rw [foldl_map, foldl_filter]
  exact foldl_ext _ _ a fun a t ht => by simpa using h t ht a

private theorem toInt_amounts {l : List Transfer} (h : ∀ t ∈ l, t.amount.toNat < 2 ^ 127) :
    (∀ x ∈ l.map fun t => t.amount.toI128, 0 ≤ x.toInt) ∧
      ((l.map fun t => t.amount.toI128).map toInt).sum =
        ((l.map fun t => t.amount.toNat).sum : ℕ) := by
  constructor
  · refine forall_mem_map.2 fun t ht => ?_
    rw [U128.toInt_toI128_of_lt (h t ht)]
    exact Int.natCast_nonneg _
  · simp only [Nat.cast_list_sum, map_map, Function.comp_def]
    rw [map_congr_left fun t ht => U128.toInt_toI128_of_lt (h t ht)]

/-- A seat that only receives: the word is the exact amount, cut at the top. -/
theorem netFlow_receiver (hamount : ∀ t ∈ moves, t.amount.toNat < 2 ^ 127)
    (h : ∀ t ∈ moves, t.asset = asset → t.source ≠ seat) :
    (netFlow moves seat asset).toInt = min (received moves seat asset : ℤ) (2 ^ 127 - 1) := by
  obtain ⟨hnonneg, hsum⟩ := toInt_amounts fun t ht =>
    hamount t (mem_of_mem_filter (p := fun t => t.asset = asset ∧ t.destination = seat) ht)
  have hstep : ∀ t ∈ moves, ∀ a, flowStep seat asset a t =
      if t.asset = asset ∧ t.destination = seat then a.saturatingAdd t.amount.toI128 else a := by
    intro t ht a
    by_cases hasset : t.asset = asset <;> simp [flowStep, hasset, h t ht]
  rw [netFlow, foldl_flowStep hstep, ← saturatingSum,
    toInt_saturatingSum_of_nonneg hnonneg 0 le_rfl, hsum]
  simp [tally]

/-- A seat that only sends: the word is the exact amount, cut at the bottom. -/
theorem netFlow_sender (hamount : ∀ t ∈ moves, t.amount.toNat < 2 ^ 127)
    (h : ∀ t ∈ moves, t.asset = asset → t.destination ≠ seat) :
    (netFlow moves seat asset).toInt = max (-(sent moves seat asset : ℤ)) (-2 ^ 127) := by
  obtain ⟨hnonneg, hsum⟩ := toInt_amounts fun t ht =>
    hamount t (mem_of_mem_filter (p := fun t => t.asset = asset ∧ t.source = seat) ht)
  have hstep : ∀ t ∈ moves, ∀ a, flowStep seat asset a t =
      if t.asset = asset ∧ t.source = seat then a.saturatingSub t.amount.toI128 else a := by
    intro t ht a
    by_cases hasset : t.asset = asset <;> simp [flowStep, hasset, h t ht]
  rw [netFlow, foldl_flowStep hstep,
    toInt_foldl_saturatingSub_of_nonneg hnonneg 0 le_rfl, hsum]
  simp [tally]

/-! ## What an order carries -/

/-- The exact net flow into a seat. -/
def netFlowExact (moves : List Transfer) (seat asset : UInt64) : ℤ :=
  received moves seat asset - sent moves seat asset

section
variable (o : Order)

section
variable (moves : List Transfer)

/-- The flow of an asset at an order, positive in the direction of that asset:
what a sender sends, what a receiver receives. -/
def carried (asset : UInt64) (side : Side) : I128 :=
  if o.role = side then -netFlow moves o.seat asset else netFlow moves o.seat asset

def exactCarried (asset : UInt64) (side : Side) : ℤ :=
  if o.role = side then -netFlowExact moves o.seat asset else netFlowExact moves o.seat asset

/-- The exact counterpart of `Order.fill`. -/
def Order.exactFill (market : Market) : ℤ :=
  exactCarried o moves market.goods .ask

/-- The exact counterpart of `Order.paid`. -/
def Order.exactPaid (market : Market) : ℤ :=
  exactCarried o moves market.currency .bid

end

theorem Order.fill_eq_carried :
    o.fill moves market = carried o moves market.goods .ask := by
  cases h : o.role <;> simp [fill, carried, h]

theorem Order.paid_eq_carried :
    o.paid moves market = carried o moves market.currency .bid := by
  cases h : o.role <;> simp [paid, carried, h]

end

section Carried
variable (hseats : (orders.map Order.seat).Nodup)
  (hruns : RunsFrom moves orders asset side)
include hseats hruns

section
variable (ho : o ∈ orders)
include ho

theorem exactCarried_sender (hrole : o.role = side) :
    exactCarried o moves asset side = sent moves o.seat asset := by
  have hzero : received moves o.seat asset = 0 :=
    tally_eq_zero (destination_ne hseats hruns ho hrole)
  simp [exactCarried, netFlowExact, hrole, hzero]

theorem exactCarried_receiver (hrole : o.role = side.other) :
    exactCarried o moves asset side = received moves o.seat asset := by
  have hzero : sent moves o.seat asset = 0 :=
    tally_eq_zero (source_ne hseats hruns ho hrole)
  simp [exactCarried, netFlowExact, hrole, hzero, side.other_ne]

theorem exactCarried_nonneg : 0 ≤ exactCarried o moves asset side := by
  rcases side.eq_or_eq_other o.role with hrole | hrole
  · rw [exactCarried_sender hseats hruns ho hrole]
    exact Int.natCast_nonneg _
  · rw [exactCarried_receiver hseats hruns ho hrole]
    exact Int.natCast_nonneg _

/-- A receiver's word is the exact amount, cut at the top. -/
theorem toInt_carried_receiver (hrole : o.role = side.other)
    (hamount : ∀ t ∈ moves, t.amount.toNat < 2 ^ 127) :
    (carried o moves asset side).toInt =
      min (exactCarried o moves asset side) (2 ^ 127 - 1) := by
  rw [exactCarried_receiver hseats hruns ho hrole, carried, if_neg (hrole ▸ side.other_ne)]
  exact netFlow_receiver hamount (source_ne hseats hruns ho hrole)

/-- A sender's word is the exact amount, or negative when that does not fit. -/
theorem toInt_carried_sender (hrole : o.role = side)
    (hamount : ∀ t ∈ moves, t.amount.toNat < 2 ^ 127) :
    (carried o moves asset side).toInt =
      if exactCarried o moves asset side < 2 ^ 127 then exactCarried o moves asset side
      else -2 ^ 127 := by
  rw [exactCarried_sender hseats hruns ho hrole, carried, if_pos hrole, toInt_neg,
    netFlow_sender hamount (destination_ne hseats hruns ho hrole)]
  split <;> omega

end

theorem sum_sent : (orders.map fun o => sent moves o.seat asset).sum = moved moves asset := by
  apply sum_tally hseats
  intro t ht hasset
  obtain ⟨p, hp, hseat, _⟩ := (hruns t ht hasset).source
  exact ⟨p, hp, hseat⟩

theorem sum_received :
    (orders.map fun o => received moves o.seat asset).sum = moved moves asset := by
  apply sum_tally hseats
  intro t ht hasset
  obtain ⟨p, hp, hseat, _⟩ := (hruns t ht hasset).destination
  exact ⟨p, hp, hseat⟩

/-- Over the whole book, what is sent is received. -/
theorem sum_exactCarried :
    (orders.map fun o => if o.role = side then exactCarried o moves asset side
      else -exactCarried o moves asset side).sum = 0 := by
  calc (orders.map fun o => if o.role = side then exactCarried o moves asset side
        else -exactCarried o moves asset side).sum
      = (orders.map fun o =>
          ((sent moves o.seat asset : ℤ) - (received moves o.seat asset : ℤ))).sum := by
        congr 1
        apply map_congr_left
        intro o _
        by_cases hrole : o.role = side <;> simp [exactCarried, netFlowExact, hrole]
    _ = ((orders.map fun o => sent moves o.seat asset).sum : ℕ) -
          ((orders.map fun o => received moves o.seat asset).sum : ℕ) := by
        rw [sum_map_sub]
        rw [Nat.cast_list_sum, Nat.cast_list_sum, map_map, map_map]
        rfl
    _ = 0 := by rw [sum_sent hseats hruns, sum_received hseats hruns, sub_self]

/-- Lower bounds that balance over the book and are exact at the senders are
exact everywhere. -/
theorem eq_exactCarried_of_balanced {x : Order → ℤ}
    (hsender : ∀ o ∈ orders, o.role = side → x o = exactCarried o moves asset side)
    (hreceiver : ∀ o ∈ orders, o.role = side.other → x o ≤ exactCarried o moves asset side)
    (hsum : (orders.map fun o => if o.role = side then x o else -x o).sum = 0) :
    ∀ o ∈ orders, x o = exactCarried o moves asset side := by
  have hdiff : (orders.map fun o => (if o.role = side then x o else -x o) -
      (if o.role = side then exactCarried o moves asset side
        else -exactCarried o moves asset side)).sum = 0 := by
    rw [sum_map_sub, hsum, sum_exactCarried hseats hruns, sub_self]
  intro o ho
  rcases side.eq_or_eq_other o.role with hrole | hrole
  · exact hsender o ho hrole
  have hzero := all_zero_of_le_zero_le_of_sum_eq_zero (by
    intro y hy
    obtain ⟨p, hp, rfl⟩ := mem_map.1 hy
    rcases side.eq_or_eq_other p.role with hp' | hp'
    · simp [hp', hsender p hp hp']
    · have := hreceiver p hp hp'
      simp only [hp', side.other_ne, if_false]
      omega) hdiff (mem_map_of_mem ho)
  simp only [hrole, side.other_ne, if_false] at hzero
  omega

end Carried

/-! ## Crossing -/

/-- The order accepts the price, in unbounded numbers. -/
def Order.Crosses (o : Order) (price : ℕ) : Prop :=
  match o.role with
  | .bid => price * o.maxGoods.toNat ≤ o.total.toNat
  | .ask => o.total.toNat ≤ price * o.maxGoods.toNat

instance (o : Order) (price : ℕ) : Decidable (o.Crosses price) := by
  unfold Order.Crosses
  cases o.role <;> exact inferInstanceAs (Decidable (_ ≤ _))

/-- The goods the order can take at the price, in unbounded numbers. -/
def Order.capacity (o : Order) (price : ℕ) : ℕ :=
  if o.Crosses price then o.maxGoods.toNat else 0

/-- The goods the order can take at the price when the judge asks whether it crosses. -/
def Order.units (o : Order) (price : U128) : ℕ :=
  if o.crosses price then o.maxGoods.toNat else 0

variable {price : U128}

/-- Saturation of the notional can only add crossings. -/
theorem Order.crosses_of_Crosses (h : o.Crosses price.toNat) : o.crosses price = true := by
  have htotal := o.total.lt
  cases hrole : o.role <;>
    simp only [Order.Crosses, crosses, hrole, decide_eq_true_eq, U128.le_iff,
      U128.saturatingMul] at h ⊢
  · exact (Nat.min_le_left _ _).trans h
  · exact Nat.le_min.2 ⟨h, by omega⟩

theorem Order.crosses_iff (hfit : price.toNat * o.maxGoods.toNat < 2 ^ 128) :
    o.crosses price = true ↔ o.Crosses price.toNat := by
  cases hrole : o.role <;>
    simp only [Order.Crosses, crosses, hrole, decide_eq_true_eq, U128.le_iff,
      U128.toNat_saturatingMul_of_lt hfit]

theorem Order.capacity_le_units (o : Order) (price : U128) :
    o.capacity price.toNat ≤ o.units price := by
  by_cases h : o.Crosses price.toNat
  · simp [capacity, units, h, crosses_of_Crosses h]
  · simp [capacity, h]

theorem Order.units_eq_capacity (hfit : price.toNat * o.maxGoods.toNat < 2 ^ 128) :
    o.units price = o.capacity price.toNat := by
  simp only [units, capacity, crosses_iff hfit]

/-- A nonnegative capacity word is exact. -/
theorem Order.toInt_capacityAt (h : 0 ≤ o.capacityAt price) :
    (o.capacityAt price).toInt = o.units price := by
  rw [le_iff, toInt_zero] at h
  by_cases hc : o.crosses price
  · simp only [capacityAt, units, hc, if_true] at h ⊢
    apply U128.toInt_toI128_of_lt
    by_contra hbig
    have hneg := U128.toInt_toI128_of_le (not_lt.1 hbig)
    have hlt := o.maxGoods.lt
    omega
  · simp [capacityAt, units, hc]

end MiniDregg.Clearing
