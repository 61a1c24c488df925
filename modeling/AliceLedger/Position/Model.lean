import AliceLedger.Book.Model

/-!
# Positions

The signed position in one instrument, with its weighted-average entry price and its profit and
loss in ticks. The arithmetic is that of the release profile: `i64` operations wrap, the `i128`
operations of the average and of the mark saturate. `none` is the panic of the one division.
-/

namespace AliceLedger

/-- Open position and P&L state for a single instrument. -/
structure Position where
  symbolHash : UInt64
  /-- Positive is long, negative is short, zero is flat. -/
  netQuantity : Int64
  avgEntryPrice : Int64
  realizedPnl : Int64
  unrealizedPnl : Int64
  tradeCount : UInt64
  deriving DecidableEq, Repr

namespace Position

/-- A flat position. -/
def new (symbolHash : UInt64) : Position := ⟨symbolHash, 0, 0, 0, 0, 0⟩

/-- The signed quantity of a fill: a bid buys and an ask sells. -/
def signedQty (fill : Fill) (side : Side) : Int64 :=
  match side with
  | .bid => fill.quantity.toInt64
  | .ask => -fill.quantity.toInt64

/-- A fill on the side of the position: an addition to it. -/
def sameDirection (prevNet signedQty : Int64) : Bool :=
  (prevNet > 0 && signedQty > 0) || (prevNet < 0 && signedQty < 0)

/-- The sign of the position changes. -/
def flips (prevNet newNet : Int64) : Bool :=
  (prevNet > 0 && newNet < 0) || (prevNet < 0 && newNet > 0)

/-- What a fill does to its position. -/
def applyFill (pos : Position) (fill : Fill) (side : Side) : Option Position :=
  let pos := { pos with tradeCount := pos.tradeCount + 1 }
  let signedQty := signedQty fill side
  let prevNet := pos.netQuantity
  let newNet := prevNet + signedQty
  if prevNet = 0 then some { pos with avgEntryPrice := fill.price, netQuantity := newNet }
  else if sameDirection prevNet signedQty then
    let numerator := satI128 (satI128 (prevNet.toInt * pos.avgEntryPrice.toInt) +
      satI128 (signedQty.toInt * fill.price.toInt))
    let denominator := newNet.toInt
    -- a sum of two numbers of one sign never wraps to -1, so MIN / -1 does not arise
    if denominator = 0 then none
    else
      some { pos with
        avgEntryPrice := Int64.ofInt (numerator.tdiv denominator)
        netQuantity := newNet }
  else
    let closeQty := (min prevNet.unsignedAbs fill.quantity).toInt64
    let pnlPerLot :=
      if prevNet > 0 then fill.price - pos.avgEntryPrice else pos.avgEntryPrice - fill.price
    let pos := { pos with realizedPnl := pos.realizedPnl + pnlPerLot * closeQty }
    let pos :=
      if newNet = 0 then { pos with avgEntryPrice := 0, unrealizedPnl := 0 }
      else if flips prevNet newNet then { pos with avgEntryPrice := fill.price }
      else pos
    some { pos with netQuantity := newNet }

/-- Revalue the unrealized P&L at a price. -/
def markToMarket (pos : Position) (currentPrice : Int64) : Position :=
  if pos.netQuantity = 0 then { pos with unrealizedPnl := 0 }
  else
    let pnl := satI128 (pos.netQuantity.toInt * (currentPrice - pos.avgEntryPrice).toInt)
    { pos with unrealizedPnl := Int64.ofInt pnl }

end Position

/-- Tracks open positions across multiple instruments. -/
structure PositionTracker where
  positions : SortedMap UInt64 Position

namespace PositionTracker

/-- An empty tracker. -/
def new : PositionTracker := ⟨.empty⟩

/-- The position of a symbol. -/
def get (t : PositionTracker) (symbolHash : UInt64) : Option Position :=
  t.positions.get? symbolHash

/-- Apply a fill to the position of a symbol, which is created flat when missing. -/
def applyFill (t : PositionTracker) (symbolHash : UInt64) (fill : Fill) (side : Side) :
    Option PositionTracker :=
  let pos := (t.positions.get? symbolHash).getD (Position.new symbolHash)
  (pos.applyFill fill side).map fun pos => ⟨t.positions.insert symbolHash pos⟩

/-- Mark the position of a symbol, when there is one. -/
def markToMarket (t : PositionTracker) (symbolHash : UInt64) (currentPrice : Int64) :
    PositionTracker :=
  match t.positions.get? symbolHash with
  | none => t
  | some pos => ⟨t.positions.insert symbolHash (pos.markToMarket currentPrice)⟩

end PositionTracker

/-- The calls that change the position of a symbol. -/
inductive PositionOp
  | applyFill (fill : Fill) (side : Side)
  | markToMarket (currentPrice : Int64)
  deriving DecidableEq, Repr

/-- The tracker after a call for a symbol. -/
def PositionTracker.step (symbolHash : UInt64) (t : PositionTracker) :
    PositionOp → Option PositionTracker
  | .applyFill fill side => t.applyFill symbolHash fill side
  | .markToMarket currentPrice => some (t.markToMarket symbolHash currentPrice)

end AliceLedger
