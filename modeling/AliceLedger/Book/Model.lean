import AliceLedger.Lib.Loop
import AliceLedger.Lib.SortedMap
import AliceLedger.Order
import Mathlib.Order.Basic

/-!
# The limit order book

Two maps of price levels, bids by descending and asks by ascending price, with a FIFO queue of
orders at each level, and an index from order ids to the side and price they rest at. The order
book submits an order by matching it against the opposite side and resting what remains.

The bid and the ask path of the source are written twice over differently keyed maps. Here each
pair is one definition over a map with keys of any linear order, `Int64ᵒᵈ` for the bids
(`Reverse<i64>`) and `Int64` for the asks, and the two members are its instances.

The mutable state of a loop is an explicit record: `FillState` for the `while let` loop over the
front of one queue and `MatchState` for the loop over the crossing levels.
-/

namespace AliceLedger

/-- Record of a matched trade between a resting maker and an incoming taker. -/
structure Fill where
  makerId : OrderId
  takerId : OrderId
  price : Int64
  quantity : UInt64
  timestampNs : UInt64
  deriving DecidableEq, Repr

/-! ## Price levels -/

/-- All resting orders at a single price, oldest first. -/
structure PriceLevel where
  price : Int64
  orders : List Order
  totalQuantity : UInt64
  deriving DecidableEq, Repr

namespace PriceLevel

/-- An empty level. -/
def new (price : Int64) : PriceLevel := ⟨price, [], 0⟩

/-- Append an order to the back of the queue. -/
def push (level : PriceLevel) (order : Order) : PriceLevel :=
  { level with
    totalQuantity := level.totalQuantity + order.remaining
    orders := level.orders ++ [order] }

/-- No resting orders remain at this level. -/
def isEmpty (level : PriceLevel) : Bool := level.orders.isEmpty

end PriceLevel

/-- The map `order_index` from ids to the side and price they rest at. -/
abbrev OrderIndex := SortedMap OrderId (Side × Int64)

/-- Remove the first order with an id from a level. -/
def removeFromLevel (level : PriceLevel) (id : OrderId) : PriceLevel × Option Order :=
  match level.orders.findIdx? fun o => o.id = id with
  | none => (level, none)
  | some pos =>
    match level.orders[pos]? with
    | none => (level, none)
    | some order =>
      ({ level with
        orders := level.orders.eraseIdx pos
        totalQuantity := level.totalQuantity.saturatingSub order.remaining }, some order)

/-! ## Filling one level -/

/-- What the loop over the front of a queue reads and changes. -/
structure FillState where
  level : PriceLevel
  taker : Order
  fills : List Fill
  index : OrderIndex

/-- One pass of the loop of `fill_level_bid` and `fill_level_ask`, which are the same text. -/
def fillStep (takerId : OrderId) (timestampNs : UInt64) (s : FillState) : Option FillState :=
  match s.level.orders with
  | [] => none
  | maker :: rest =>
    if s.taker.isFilled then none
    else
      let tradeQty := min s.taker.remaining maker.remaining
      if tradeQty = 0 then none
      else
        let fillPrice := maker.price
        let taker := s.taker.addFilled tradeQty
        let maker := maker.addFilled tradeQty
        let totalQuantity := s.level.totalQuantity.saturatingSub tradeQty
        let fills := s.fills ++ [⟨maker.id, takerId, fillPrice, tradeQty, timestampNs⟩]
        if maker.isFilled then
          some ⟨{ s.level with orders := rest, totalQuantity }, taker, fills,
            s.index.erase maker.id⟩
        else
          some ⟨{ s.level with orders := maker :: rest, totalQuantity }, taker, fills, s.index⟩

/-- Execute fills against one level on behalf of a taker. One pass more than the level has orders
is enough: `run_fillStep_eq`. -/
def fillLevel (takerId : OrderId) (timestampNs : UInt64) (s : FillState) : FillState :=
  Loop.run (fillStep takerId timestampNs) (s.level.orders.length + 1) s

/-- Fills against an ask level on behalf of a bid taker. -/
def fillLevelBid := fillLevel

/-- Fills against a bid level on behalf of an ask taker. -/
def fillLevelAsk := fillLevel

/-! ## Matching across levels -/

section Side

variable {K : Type*} [LinearOrder K]

/-- What the loop over the crossing levels reads and changes. -/
structure MatchState (K : Type*) [LinearOrder K] where
  levels : SortedMap K PriceLevel
  taker : Order
  fills : List Fill
  index : OrderIndex

/-- One pass of the loop over the crossing levels: fill the level, remove it if exhausted. -/
def matchLevel (fill : OrderId → UInt64 → FillState → FillState) (key : K) (level : PriceLevel)
    (s : MatchState K) : MatchState K :=
  let r := fill s.taker.id s.taker.timestampNs ⟨level, s.taker, s.fills, s.index⟩
  let levels := s.levels.insert key r.level
  let levels :=
    if (levels.get? key).any PriceLevel.isEmpty then levels.erase key else levels
  ⟨levels, r.taker, r.fills, r.index⟩

/-- The loop over the keys collected before it starts. The `unwrap` of the source is the lookup: a
collected key is present when its turn comes (`get?_matchLevels`). -/
def matchLevels (fill : OrderId → UInt64 → FillState → FillState) :
    List K → MatchState K → MatchState K
  | [], s => s
  | key :: keys, s =>
    if s.taker.isFilled then s
    else
      match s.levels.get? key with
      | none => s
      | some level => matchLevels fill keys (matchLevel fill key level s)

/-- Whether the liquidity up to a bound can fully satisfy a FOK order. The sum wraps. -/
def canFill (levels : SortedMap K PriceLevel) (takerPrice : K) (order : Order) : Bool :=
  let available := ((levels.upTo takerPrice).map fun e => e.2.totalQuantity).sum
  available ≥ order.remaining

/-- Match a taker against the levels up to a bound: nothing for a FOK order that cannot be filled
entirely. -/
def matchAgainst (fill : OrderId → UInt64 → FillState → FillState) (takerPrice : K)
    (s : MatchState K) : MatchState K :=
  if s.taker.timeInForce = .fok ∧ canFill s.levels takerPrice s.taker = false then s
  else matchLevels fill ((s.levels.upTo takerPrice).map Prod.fst) s

/-- Cancel at a level: remove the order, and the level if that empties it. -/
def cancelAt (levels : SortedMap K PriceLevel) (price : K) (id : OrderId) :
    SortedMap K PriceLevel × Option Order :=
  match levels.get? price with
  | none => (levels, none)
  | some level =>
    match removeFromLevel level id with
    | (_, none) => (levels, none)
    | (level, some order) =>
      let levels := levels.insert price level
      if (levels.get? price).all PriceLevel.isEmpty then (levels.erase price, some order)
      else (levels, some order)

/-- Push an order onto the level of its price, which is created when missing. -/
def pushAt (levels : SortedMap K PriceLevel) (key : K) (order : Order) : SortedMap K PriceLevel :=
  levels.insert key (((levels.get? key).getD (PriceLevel.new order.price)).push order)

/-- The ids of the orders of one side, best price first and oldest first at a price. -/
def orderIds (levels : SortedMap K PriceLevel) : List OrderId :=
  levels.values.flatMap fun level => level.orders.map Order.id

/-- The ids of the GTD orders of one side with an expiry up to `nowNs`. -/
def expiredIds (nowNs : UInt64) (levels : SortedMap K PriceLevel) : List OrderId :=
  levels.values.flatMap fun level => level.orders.filterMap fun order =>
    match order.timeInForce with
    | .gtd expiryNs => if expiryNs ≤ nowNs then some order.id else none
    | _ => none

end Side

/-! ## The book -/

/-- Dual-sided limit order book. -/
structure OrderBook where
  /-- Bids, highest price first. -/
  bids : SortedMap Int64ᵒᵈ PriceLevel
  /-- Asks, lowest price first. -/
  asks : SortedMap Int64 PriceLevel
  /-- Where each order rests. -/
  orderIndex : OrderIndex
  deriving DecidableEq

namespace OrderBook

open OrderDual (toDual ofDual)

/-- An empty book. -/
def new : OrderBook := ⟨.empty, .empty, .empty⟩

/-- Highest bid price. -/
def bestBid (book : OrderBook) : Option Int64 := (book.bids.keys.head?).map ofDual

/-- Lowest ask price. -/
def bestAsk (book : OrderBook) : Option Int64 := book.asks.keys.head?

/-- Bid-ask spread. -/
def spread (book : OrderBook) : Option Int64 :=
  match book.bestAsk, book.bestBid with
  | some ask, some bid => some (ask - bid)
  | _, _ => none

/-- Up to `levels` price levels of a side as price and quantity. -/
def depth (book : OrderBook) (side : Side) (levels : ℕ) : List (Int64 × UInt64) :=
  match side with
  | .bid => (book.bids.entries.take levels).map fun e => (ofDual e.1, e.2.totalQuantity)
  | .ask => (book.asks.entries.take levels).map fun e => (e.1, e.2.totalQuantity)

/-- The highest ask price that an incoming bid accepts. -/
def bidTakerPrice (order : Order) : Int64 :=
  match order.orderType with
  | .market => Int64.maxValue
  | .limit | .stopLimit _ => order.price

/-- The lowest bid price that an incoming ask accepts. -/
def askTakerPrice (order : Order) : Int64 :=
  match order.orderType with
  | .market => Int64.minValue
  | .limit | .stopLimit _ => order.price

/-- Whether the ask side can fully satisfy a FOK bid. -/
def canFillBid (book : OrderBook) (order : Order) : Bool :=
  canFill book.asks (bidTakerPrice order) order

/-- Whether the bid side can fully satisfy a FOK ask. -/
def canFillAsk (book : OrderBook) (order : Order) : Bool :=
  canFill book.bids (toDual (askTakerPrice order)) order

/-- The book, the taker and the fills after the match phase of an insertion. -/
structure Matched where
  book : OrderBook
  taker : Order
  fills : List Fill

/-- Match an incoming bid against resting asks, from the lowest price up. -/
def matchBid (book : OrderBook) (taker : Order) : Matched :=
  let s := matchAgainst fillLevelBid (bidTakerPrice taker) ⟨book.asks, taker, [], book.orderIndex⟩
  ⟨⟨book.bids, s.levels, s.index⟩, s.taker, s.fills⟩

/-- Match an incoming ask against resting bids, from the highest price down. -/
def matchAsk (book : OrderBook) (taker : Order) : Matched :=
  let s := matchAgainst fillLevelAsk (toDual (askTakerPrice taker))
    ⟨book.bids, taker, [], book.orderIndex⟩
  ⟨⟨s.levels, book.asks, s.index⟩, s.taker, s.fills⟩

/-- Match an order against the opposite side. -/
def matchOrder (book : OrderBook) (order : Order) : Matched :=
  match order.side with
  | .bid => book.matchBid order
  | .ask => book.matchAsk order

/-- Place an order onto the resting book. -/
def restOrder (book : OrderBook) (order : Order) : OrderBook :=
  let orderIndex := book.orderIndex.insert order.id (order.side, order.price)
  match order.side with
  | .bid => { book with orderIndex, bids := pushAt book.bids (toDual order.price) order }
  | .ask => { book with orderIndex, asks := pushAt book.asks order.price order }

/-- What remains of an order after matching goes onto the book. -/
def restsRemainder (order : Order) : Bool :=
  if order.isFilled then false
  else
    match order.orderType with
    | .market => false
    | .limit | .stopLimit _ =>
      match order.timeInForce with
      | .ioc | .fok => false
      | .gtc | .gtd _ => true

/-- A GTD order that has expired when it is submitted. The check is off at `nowNs = 0`. -/
def isExpired (order : Order) (nowNs : UInt64) : Bool :=
  match order.timeInForce with
  | .gtd expiryNs => nowNs > 0 && expiryNs ≤ nowNs
  | _ => false

/-- Submit an order with the expiry check at `nowNs`. -/
def insertWithTime (book : OrderBook) (order : Order) (nowNs : UInt64) : OrderBook × List Fill :=
  if isExpired order nowNs then (book, [])
  else
    let m := book.matchOrder order
    if restsRemainder m.taker then (m.book.restOrder m.taker, m.fills) else (m.book, m.fills)

/-- Submit an order without an expiry check. -/
def insert (book : OrderBook) (order : Order) : OrderBook × List Fill :=
  book.insertWithTime order 0

/-- Cancel an order by its id. The index entry goes first. -/
def cancel (book : OrderBook) (id : OrderId) : OrderBook × Option Order :=
  match book.orderIndex.get? id with
  | none => (book, none)
  | some (side, price) =>
    let orderIndex := book.orderIndex.erase id
    match side with
    | .bid =>
      let (bids, cancelled) := cancelAt book.bids (toDual price) id
      ({ book with orderIndex, bids }, cancelled)
    | .ask =>
      let (asks, cancelled) := cancelAt book.asks price id
      ({ book with orderIndex, asks }, cancelled)

/-- Cancel the ids of a list in turn and collect the orders found. -/
def cancelIds (book : OrderBook) : List OrderId → OrderBook × List Order
  | [] => (book, [])
  | id :: ids =>
    let (book, cancelled) := book.cancel id
    let (book, orders) := book.cancelIds ids
    (book, cancelled.toList ++ orders)

/-- Remove all resting GTD orders with an expiry up to `nowNs`. -/
def purgeExpired (book : OrderBook) (nowNs : UInt64) : OrderBook × List Order :=
  book.cancelIds (expiredIds nowNs book.bids ++ expiredIds nowNs book.asks)

/-- All resting ids of a side. -/
def allOrderIdsBySide (book : OrderBook) (side : Side) : List OrderId :=
  match side with
  | .bid => orderIds book.bids
  | .ask => orderIds book.asks

end OrderBook

/-! ## Mass cancellation -/

/-- What a mass cancellation reports. -/
structure CancelAllResult where
  cancelledIds : List OrderId
  count : ℕ
  deriving DecidableEq, Repr

/-- Cancel the orders of one side. The report is the snapshot taken before. -/
def cancelAllSide (book : OrderBook) (side : Side) : OrderBook × CancelAllResult :=
  let ids := book.allOrderIdsBySide side
  ((book.cancelIds ids).1, ⟨ids, ids.length⟩)

/-- Cancel the orders of both sides. -/
def cancelAll (book : OrderBook) : OrderBook × CancelAllResult :=
  let (book, bidResult) := cancelAllSide book .bid
  let (book, askResult) := cancelAllSide book .ask
  let cancelledIds := bidResult.cancelledIds ++ askResult.cancelledIds
  (book, ⟨cancelledIds, cancelledIds.length⟩)

/-! ## Operations as inputs -/

/-- The public operations that change a book. -/
inductive BookOp
  | insert (order : Order)
  | insertWithTime (order : Order) (nowNs : UInt64)
  | cancel (id : OrderId)
  | purgeExpired (nowNs : UInt64)
  | cancelAllSide (side : Side)
  | cancelAll
  deriving DecidableEq, Repr

/-- The book after an operation. -/
def OrderBook.step (book : OrderBook) : BookOp → OrderBook
  | .insert order => (book.insert order).1
  | .insertWithTime order nowNs => (book.insertWithTime order nowNs).1
  | .cancel id => (book.cancel id).1
  | .purgeExpired nowNs => (book.purgeExpired nowNs).1
  | .cancelAllSide side => (AliceLedger.cancelAllSide book side).1
  | .cancelAll => (AliceLedger.cancelAll book).1

end AliceLedger
