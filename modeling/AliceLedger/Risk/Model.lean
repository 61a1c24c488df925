import AliceLedger.Book.Model

/-!
# Risk checks

The limits on single orders, on the position and on the rate of orders, and the validation of a
batch of orders against them. Quantities and positions are machine integers; a notional is an
`i128`, which the product of a price and a quantity never leaves, so it is an integer here.

The set of ids that `validate` has seen is a list, which only membership reads.
-/

namespace AliceLedger

/-! ## Single orders -/

/-- Why an order is rejected. -/
inductive RiskRejectReason
  | maxOrderSizeExceeded (requested limit : UInt64)
  | maxNotionalExceeded (notional limit : ℤ)
  | positionLimitExceeded (projected : Int64) (limit : UInt64)
  | orderRateLimitExceeded (count limit : UInt64)
  | minOrderSizeNotMet (requested minimum : UInt64)
  deriving DecidableEq, Repr

namespace RiskRejectReason

/-- The debug format of a variant with named fields. -/
def debugStruct (name : String) (fields : List (String × String)) : String :=
  name ++ " \x7b " ++ ", ".intercalate (fields.map fun f => f.1 ++ ": " ++ f.2) ++ " \x7d"

/-- The debug format of a reason. -/
def debug : RiskRejectReason → String
  | .maxOrderSizeExceeded requested limit =>
    debugStruct "MaxOrderSizeExceeded"
      [("requested", toString requested.toNat), ("limit", toString limit.toNat)]
  | .maxNotionalExceeded notional limit =>
    debugStruct "MaxNotionalExceeded" [("notional", toString notional), ("limit", toString limit)]
  | .positionLimitExceeded projected limit =>
    debugStruct "PositionLimitExceeded"
      [("projected", toString projected.toInt), ("limit", toString limit.toNat)]
  | .orderRateLimitExceeded count limit =>
    debugStruct "OrderRateLimitExceeded"
      [("count", toString count.toNat), ("limit", toString limit.toNat)]
  | .minOrderSizeNotMet requested minimum =>
    debugStruct "MinOrderSizeNotMet"
      [("requested", toString requested.toNat), ("minimum", toString minimum.toNat)]

example : debug (.minOrderSizeNotMet 5 10) =
    "MinOrderSizeNotMet \x7b requested: 5, minimum: 10 \x7d" := by decide

end RiskRejectReason

/-- The result of a risk check. -/
inductive RiskCheckResult
  | passed
  | rejected (reason : RiskRejectReason)
  deriving DecidableEq, Repr

/-- The limits of a risk manager. -/
structure RiskLimits where
  maxOrderSize : UInt64
  minOrderSize : UInt64
  /-- Limit on the notional of an order, price times quantity. -/
  maxNotional : ℤ
  /-- Limit on the absolute net position. -/
  maxPosition : UInt64
  maxOrdersPerPeriod : UInt64
  enabled : Bool
  deriving DecidableEq, Repr

/-- The default limits. -/
def RiskLimits.default : RiskLimits where
  maxOrderSize := 1000000
  minOrderSize := 1
  maxNotional := 1000000000000
  maxPosition := 10000000
  maxOrdersPerPeriod := 10000
  enabled := true

/-- The limits and the number of orders of the current period. -/
structure RiskManager where
  limits : RiskLimits
  ordersInPeriod : UInt64
  deriving DecidableEq, Repr

/-- The price times the quantity of an order. -/
def Order.notional (order : Order) : ℤ := order.price.toInt * order.quantity.toNat

/-- The position after an order is filled entirely. The cast and the sum wrap. -/
def Order.projected (order : Order) (currentPosition : Int64) : Int64 :=
  let delta := order.quantity.toInt64
  match order.side with
  | .bid => currentPosition + delta
  | .ask => currentPosition - delta

namespace RiskManager

/-- A new manager. -/
def new (limits : RiskLimits) : RiskManager := ⟨limits, 0⟩

/-- A manager with the default limits. -/
def withDefaults : RiskManager := new .default

/-- The risk check of an order. -/
def checkOrder (rm : RiskManager) (order : Order) (currentPosition : Int64) : RiskCheckResult :=
  if !rm.limits.enabled then .passed
  else if order.quantity < rm.limits.minOrderSize then
    .rejected (.minOrderSizeNotMet order.quantity rm.limits.minOrderSize)
  else if order.quantity > rm.limits.maxOrderSize then
    .rejected (.maxOrderSizeExceeded order.quantity rm.limits.maxOrderSize)
  else if |order.notional| > rm.limits.maxNotional then
    .rejected (.maxNotionalExceeded order.notional rm.limits.maxNotional)
  else if (order.projected currentPosition).unsignedAbs > rm.limits.maxPosition then
    .rejected (.positionLimitExceeded (order.projected currentPosition) rm.limits.maxPosition)
  else if rm.ordersInPeriod ≥ rm.limits.maxOrdersPerPeriod then
    .rejected (.orderRateLimitExceeded rm.ordersInPeriod rm.limits.maxOrdersPerPeriod)
  else .passed

/-- Count an order. -/
def recordOrder (rm : RiskManager) : RiskManager :=
  { rm with ordersInPeriod := rm.ordersInPeriod + 1 }

/-- Start a new period. -/
def resetPeriod (rm : RiskManager) : RiskManager := { rm with ordersInPeriod := 0 }

@[simp] theorem limits_recordOrder (rm : RiskManager) : rm.recordOrder.limits = rm.limits := rfl

end RiskManager

/-- An order within the limits on its size and its notional that, at a current position, keeps the
position within its limit: every limit but the rate. -/
def RiskLimits.Fits (limits : RiskLimits) (currentPosition : Int64) (order : Order) : Prop :=
  limits.minOrderSize ≤ order.quantity ∧ order.quantity ≤ limits.maxOrderSize ∧
    |order.notional| ≤ limits.maxNotional ∧
    (order.projected currentPosition).unsignedAbs ≤ limits.maxPosition

instance (limits : RiskLimits) (currentPosition : Int64) :
    DecidablePred (limits.Fits currentPosition) := fun _ => instDecidableAnd

namespace RiskManager

variable {rm : RiskManager} {order : Order} {pos : Int64}

theorem checkOrder_of_disabled (h : rm.limits.enabled = false) :
    rm.checkOrder order pos = .passed :=
  if_pos (by rw [h]; rfl)

/-- **What passes enabled limits**: an order that fits them, while the rate lasts. -/
theorem checkOrder_eq_passed_iff (h : rm.limits.enabled = true) :
    rm.checkOrder order pos = .passed ↔
      rm.limits.Fits pos order ∧ rm.ordersInPeriod < rm.limits.maxOrdersPerPeriod := by
  unfold checkOrder RiskLimits.Fits
  rw [if_neg (by simp [h])]
  split_ifs with hmin hmax hnot hpos hrate
  · simp [UInt64.not_le.mpr hmin]
  · simp [UInt64.not_le.mpr hmax]
  · simp [not_le.mpr hnot]
  · simp [UInt64.not_le.mpr hpos]
  · simp [UInt64.not_lt.mpr hrate]
  · simp [UInt64.not_lt.mp hmin, UInt64.not_lt.mp hmax, not_lt.mp hnot, UInt64.not_lt.mp hpos,
      UInt64.not_le.mp hrate]

end RiskManager

/-! ## Batches -/

/-- Why an order of a batch is rejected. -/
inductive BulkRejectReason
  | riskCheck (reason : String)
  | duplicateId
  | zeroQuantity
  | selfTrade
  deriving DecidableEq, Repr

/-- The result of the validation of a batch. -/
structure BulkValidationResult where
  accepted : List OrderId
  rejected : List (OrderId × BulkRejectReason)
  deriving DecidableEq, Repr

/-- The settings of a batch validator. -/
structure BulkValidator where
  selfTradePrevention : Bool
  maxBatchSize : ℕ
  deriving DecidableEq, Repr

/-- What the loop of `validate` reads and changes. -/
structure BulkState where
  accepted : List OrderId
  rejected : List (OrderId × BulkRejectReason)
  seenIds : List OrderId
  bestBid : Option Int64
  bestAsk : Option Int64
  cumulativePosition : Int64

namespace BulkState

/-- The state before the first order. -/
def init (currentPosition : Int64) : BulkState := ⟨[], [], [], none, none, currentPosition⟩

/-- Reject an order. -/
def reject (s : BulkState) (order : Order) (reason : BulkRejectReason) : BulkState :=
  { s with rejected := s.rejected ++ [(order.id, reason)] }

/-- The check of an order against the best prices of the other side, which it updates on its own
side; nothing when the order crosses. -/
def trackBest (s : BulkState) (order : Order) : Option BulkState :=
  match order.side with
  | .bid =>
    if s.bestAsk.any fun ask => order.price ≥ ask then none
    else some { s with bestBid := some (s.bestBid.elim order.price fun b => max b order.price) }
  | .ask =>
    if s.bestBid.any fun bid => order.price ≤ bid then none
    else some { s with bestAsk := some (s.bestAsk.elim order.price fun a => min a order.price) }

/-- The risk check of an order at the cumulative position. -/
def checkRisk (s : BulkState) (rm : RiskManager) (order : Order) : BulkState :=
  match rm.checkOrder order s.cumulativePosition with
  | .passed =>
    { s with
      cumulativePosition := order.projected s.cumulativePosition
      accepted := s.accepted ++ [order.id] }
  | .rejected reason => s.reject order (.riskCheck reason.debug)

end BulkState

namespace BulkValidator

/-- The default validator. -/
def default : BulkValidator := ⟨true, 1000⟩

/-- One pass of the loop of `validate`. -/
def validateStep (v : BulkValidator) (rm : RiskManager) (s : BulkState) (order : Order) :
    BulkState :=
  if order.id ∈ s.seenIds then s.reject order .duplicateId
  else
    let s := { s with seenIds := order.id :: s.seenIds }
    if order.quantity = 0 then s.reject order .zeroQuantity
    else if v.selfTradePrevention then
      match s.trackBest order with
      | none => s.reject order .selfTrade
      | some s => s.checkRisk rm order
    else s.checkRisk rm order

/-- Validate a batch of orders. -/
def validate (v : BulkValidator) (orders : List Order) (rm : RiskManager)
    (currentPosition : Int64) : BulkValidationResult :=
  let s := orders.foldl (v.validateStep rm) (.init currentPosition)
  ⟨s.accepted, s.rejected⟩

/-- The size of a batch is within the limit. -/
def checkBatchSize (v : BulkValidator) (count : ℕ) : Bool := count ≤ v.maxBatchSize

end BulkValidator

end AliceLedger
