import AliceLedger.Book.Queue

/-!
# The symmetry of bids and asks

The mirror sends a price `p` to `-1 - p`, which reverses the order of the prices and exchanges the
bounds of `i64`, and swaps the sides. Every operation of matching is written twice in the source;
the mirror of a run of insertions and cancellations is the run of the mirrored requests, book by
book and answer by answer (`mirror_run`), so the two copies agree.

Both maps of levels are renamed along a strictly monotone function of their keys
(`SortedMap.map`). Each operation on one side commutes with that renaming, for keys of any linear
order, and the bid and the ask operation are its two instances.
-/

namespace AliceLedger

open OrderDual (toDual ofDual)

/-! ## Mirrored data -/

/-- The mirror of a price. -/
def mirrorPrice (price : Int64) : Int64 := -1 - price

theorem toInt_mirrorPrice (price : Int64) : (mirrorPrice price).toInt = -1 - price.toInt := by
  have hone : (-1 : Int64).toInt = -1 := rfl
  have hfit := price.fits_toInt
  unfold FitsI64 at hfit
  unfold mirrorPrice
  rw [Int64.toInt_sub_of_fits, hone]
  rw [hone]
  constructor <;> omega

@[simp] theorem mirrorPrice_mirrorPrice (price : Int64) :
    mirrorPrice (mirrorPrice price) = price := by
  rw [← Int64.toInt_inj, toInt_mirrorPrice, toInt_mirrorPrice]
  omega

theorem mirrorPrice_lt_mirrorPrice {p p' : Int64} : mirrorPrice p < mirrorPrice p' ↔ p' < p := by
  rw [Int64.lt_iff_toInt_lt, Int64.lt_iff_toInt_lt, toInt_mirrorPrice, toInt_mirrorPrice]
  omega

theorem mirrorPrice_maxValue : mirrorPrice Int64.maxValue = Int64.minValue := by decide

theorem mirrorPrice_minValue : mirrorPrice Int64.minValue = Int64.maxValue := by decide

-- a record and its mirror are told apart without computing with prices
attribute [irreducible] mirrorPrice

/-- The key of the bid that mirrors an ask price. -/
def askToBid (price : Int64) : Int64ᵒᵈ := toDual (mirrorPrice price)

/-- The key of the ask that mirrors a bid price. -/
def bidToAsk (key : Int64ᵒᵈ) : Int64 := mirrorPrice (ofDual key)

theorem askToBid_strictMono : StrictMono askToBid := fun _ _ h =>
  OrderDual.toDual_lt_toDual.mpr (mirrorPrice_lt_mirrorPrice.mpr h)

theorem bidToAsk_strictMono : StrictMono bidToAsk := fun _ _ h =>
  mirrorPrice_lt_mirrorPrice.mpr h

/-- The mirror of an order type: a stop price is a price. -/
def OrderType.mirror : OrderType → OrderType
  | .limit => .limit
  | .market => .market
  | .stopLimit stopPrice => .stopLimit (mirrorPrice stopPrice)

/-- The mirror of an order. -/
def Order.mirror (o : Order) : Order :=
  { o with side := o.side.opposite, orderType := o.orderType.mirror, price := mirrorPrice o.price }

/-- The mirror of a fill. -/
def Fill.mirror (f : Fill) : Fill := { f with price := mirrorPrice f.price }

/-- The mirror of a level. -/
def PriceLevel.mirror (level : PriceLevel) : PriceLevel :=
  { level with price := mirrorPrice level.price, orders := level.orders.map Order.mirror }

/-- The mirror of the place of an order. -/
def mirrorPlace (entry : Side × Int64) : Side × Int64 := (entry.1.opposite, mirrorPrice entry.2)

/-- The mirror of the index: the same ids at mirrored places. -/
def OrderIndex.mirror (index : OrderIndex) : OrderIndex := index.map strictMono_id mirrorPlace

section Simp

variable (o : Order)

@[simp] theorem Order.id_mirror : o.mirror.id = o.id := rfl
@[simp] theorem Order.side_mirror : o.mirror.side = o.side.opposite := rfl
@[simp] theorem Order.price_mirror : o.mirror.price = mirrorPrice o.price := rfl
@[simp] theorem Order.timestampNs_mirror : o.mirror.timestampNs = o.timestampNs := rfl
@[simp] theorem Order.timeInForce_mirror : o.mirror.timeInForce = o.timeInForce := rfl
@[simp] theorem Order.remaining_mirror : o.mirror.remaining = o.remaining := rfl
@[simp] theorem Order.isFilled_mirror : o.mirror.isFilled = o.isFilled := rfl

theorem Order.addFilled_mirror (qty : UInt64) :
    o.mirror.addFilled qty = (o.addFilled qty).mirror := rfl

@[simp] theorem PriceLevel.totalQuantity_mirror (level : PriceLevel) :
    level.mirror.totalQuantity = level.totalQuantity := by
  rw [PriceLevel.mirror]

@[simp] theorem PriceLevel.isEmpty_mirror (level : PriceLevel) :
    level.mirror.isEmpty = level.isEmpty := by
  simp [PriceLevel.isEmpty, PriceLevel.mirror]

theorem OrderIndex.erase_mirror (index : OrderIndex) (id : OrderId) :
    index.mirror.erase id = OrderIndex.mirror (index.erase id) :=
  (SortedMap.map_erase strictMono_id mirrorPlace index id).symm

theorem OrderIndex.get?_mirror (index : OrderIndex) (id : OrderId) :
    index.mirror.get? id = (index.get? id).map mirrorPlace :=
  SortedMap.get?_map strictMono_id mirrorPlace index id

end Simp

/-! ## One side -/

/-- The mirror of the state of the loop that fills a level. -/
def FillState.mirror (s : FillState) : FillState :=
  ⟨s.level.mirror, s.taker.mirror, s.fills.map Fill.mirror, s.index.mirror⟩

theorem fillStep_mirror (takerId : OrderId) (ts : UInt64) (s : FillState) :
    fillStep takerId ts s.mirror = (fillStep takerId ts s).map FillState.mirror := by
  obtain ⟨⟨price, orders, total⟩, taker, fills, index⟩ := s
  cases orders with
  | nil => rfl
  | cons maker rest =>
    simp only [fillStep, FillState.mirror, PriceLevel.mirror, List.map_cons, Order.isFilled_mirror,
      Order.remaining_mirror, Order.addFilled_mirror, Order.id_mirror, Order.price_mirror,
      OrderIndex.erase_mirror]
    split_ifs <;> simp [FillState.mirror, PriceLevel.mirror, Fill.mirror]

theorem fillLevel_mirror (takerId : OrderId) (ts : UInt64) (s : FillState) :
    fillLevel takerId ts s.mirror = (fillLevel takerId ts s).mirror := by
  have hlen : s.mirror.level.orders.length = s.level.orders.length := List.length_map _
  unfold fillLevel
  rw [hlen]
  exact Loop.run_map FillState.mirror (fillStep_mirror takerId ts) _ s

section Side

variable {K L : Type*} [LinearOrder K] [LinearOrder L] {f : K → L} (hf : StrictMono f)

/-- The mirror of the levels of a side. -/
def mirrorLevels (levels : SortedMap K PriceLevel) : SortedMap L PriceLevel :=
  levels.map hf PriceLevel.mirror

/-- The mirror of the state of the loop over the levels. -/
def MatchState.mirror (s : MatchState K) : MatchState L :=
  ⟨mirrorLevels hf s.levels, s.taker.mirror, s.fills.map Fill.mirror, s.index.mirror⟩

variable (levels : SortedMap K PriceLevel) (key : K)

theorem get?_mirrorLevels :
    (mirrorLevels hf levels).get? (f key) = (levels.get? key).map PriceLevel.mirror :=
  SortedMap.get?_map hf PriceLevel.mirror levels key

theorem insert_mirrorLevels (level : PriceLevel) :
    (mirrorLevels hf levels).insert (f key) level.mirror =
      mirrorLevels hf (levels.insert key level) :=
  (SortedMap.map_insert hf PriceLevel.mirror levels key level).symm

theorem erase_mirrorLevels :
    (mirrorLevels hf levels).erase (f key) = mirrorLevels hf (levels.erase key) :=
  (SortedMap.map_erase hf PriceLevel.mirror levels key).symm

theorem matchLevel_mirror (level : PriceLevel) (s : MatchState K) :
    matchLevel fillLevel (f key) level.mirror (s.mirror hf) =
      (matchLevel fillLevel key level s).mirror hf := by
  have hfill := fillLevel_mirror s.taker.id s.taker.timestampNs
    ⟨level, s.taker, s.fills, s.index⟩
  simp only [FillState.mirror] at hfill
  simp only [matchLevel, MatchState.mirror, Order.id_mirror, Order.timestampNs_mirror, hfill,
    insert_mirrorLevels, get?_mirrorLevels, SortedMap.get?_insert_self, Option.map_some,
    Option.any_some, PriceLevel.isEmpty_mirror, erase_mirrorLevels]
  split_ifs <;> rfl

theorem matchLevels_mirror (keys : List K) (s : MatchState K) :
    matchLevels fillLevel (keys.map f) (s.mirror hf) =
      (matchLevels fillLevel keys s).mirror hf := by
  induction keys generalizing s with
  | nil => rfl
  | cons key keys ih =>
    have hget : (s.mirror hf).levels.get? (f key) = (s.levels.get? key).map PriceLevel.mirror :=
      get?_mirrorLevels hf s.levels key
    have hfilled : (s.mirror hf).taker.isFilled = s.taker.isFilled := rfl
    simp only [List.map_cons, matchLevels, hfilled, hget]
    split_ifs
    · rfl
    · cases s.levels.get? key with
      | none => rfl
      | some level =>
        simp only [Option.map_some, matchLevel_mirror]
        exact ih _

theorem canFill_mirror (order : Order) :
    canFill (mirrorLevels hf levels) (f key) order.mirror = canFill levels key order := by
  simp only [canFill, mirrorLevels, SortedMap.upTo_map, List.map_map, Order.remaining_mirror,
    Function.comp_def, PriceLevel.totalQuantity_mirror]

theorem matchAgainst_mirror (s : MatchState K) :
    matchAgainst fillLevel (f key) (s.mirror hf) =
      (matchAgainst fillLevel key s).mirror hf := by
  have hcan : canFill (s.mirror hf).levels (f key) (s.mirror hf).taker =
      canFill s.levels key s.taker := canFill_mirror hf s.levels key s.taker
  have htif : (s.mirror hf).taker.timeInForce = s.taker.timeInForce := rfl
  have hkeys : ((s.mirror hf).levels.upTo (f key)).map Prod.fst =
      ((s.levels.upTo key).map Prod.fst).map f := by
    rw [show (s.mirror hf).levels.upTo (f key) = _ from
      SortedMap.upTo_map hf PriceLevel.mirror s.levels key, List.map_map, List.map_map]
    rfl
  simp only [matchAgainst, hcan, htif, hkeys, matchLevels_mirror]
  split_ifs <;> rfl

theorem removeFromLevel_mirror (level : PriceLevel) (id : OrderId) :
    removeFromLevel level.mirror id =
      ((removeFromLevel level id).1.mirror, (removeFromLevel level id).2.map Order.mirror) := by
  have hfind : (level.mirror.orders.findIdx? fun o => o.id = id) =
      level.orders.findIdx? fun o => o.id = id := by
    rw [PriceLevel.mirror, List.findIdx?_map]
    rfl
  simp only [removeFromLevel, hfind]
  cases level.orders.findIdx? fun o => o.id = id with
  | none => simp only [Option.map_none]
  | some pos =>
    have hget : level.mirror.orders[pos]? = (level.orders[pos]?).map Order.mirror := by
      rw [PriceLevel.mirror, List.getElem?_map]
    simp only [hget]
    cases level.orders[pos]? with
    | none => simp only [Option.map_none]
    | some order =>
      simp only [Option.map_some, Order.remaining_mirror, PriceLevel.totalQuantity_mirror]
      simp only [PriceLevel.mirror, List.eraseIdx_map]

theorem cancelAt_mirror (id : OrderId) :
    cancelAt (mirrorLevels hf levels) (f key) id =
      (mirrorLevels hf (cancelAt levels key id).1,
        (cancelAt levels key id).2.map Order.mirror) := by
  simp only [cancelAt, get?_mirrorLevels]
  cases levels.get? key with
  | none => rfl
  | some level =>
    have hremove := removeFromLevel_mirror level id
    simp only [Option.map_some, hremove]
    cases removeFromLevel level id with
    | mk level' removed =>
      cases removed with
      | none => rfl
      | some order =>
        simp only [Option.map_some, insert_mirrorLevels, get?_mirrorLevels,
          SortedMap.get?_insert_self, Option.all_some, PriceLevel.isEmpty_mirror,
          erase_mirrorLevels]
        split_ifs <;> rfl

theorem pushAt_mirror (order : Order) :
    pushAt (mirrorLevels hf levels) (f key) order.mirror =
      mirrorLevels hf (pushAt levels key order) := by
  have hnew : (PriceLevel.new order.price).mirror = PriceLevel.new order.mirror.price := by
    simp only [PriceLevel.new, PriceLevel.mirror, List.map_nil, Order.price_mirror]
  have hpush : ∀ level : PriceLevel,
      level.mirror.push order.mirror = (level.push order).mirror := by
    intro level
    simp only [PriceLevel.push, Order.remaining_mirror, PriceLevel.totalQuantity_mirror]
    simp only [PriceLevel.mirror, List.map_append, List.map_cons, List.map_nil]
  simp only [pushAt, get?_mirrorLevels, ← insert_mirrorLevels, ← hpush]
  cases levels.get? key with
  | none => simp only [Option.map_none, Option.getD_none, hnew]
  | some level => simp only [Option.map_some, Option.getD_some]

end Side

/-! ## The book -/

namespace OrderBook

/-- The mirror of a book: the bids are the mirrored asks and the asks the mirrored bids. -/
def mirror (book : OrderBook) : OrderBook where
  bids := mirrorLevels askToBid_strictMono book.asks
  asks := mirrorLevels bidToAsk_strictMono book.bids
  orderIndex := book.orderIndex.mirror

/-- The mirror of the outcome of the match phase. -/
def Matched.mirror (m : Matched) : Matched :=
  ⟨m.book.mirror, m.taker.mirror, m.fills.map Fill.mirror⟩

variable (book : OrderBook) (order : Order)

theorem takerPrice_mirror (order : Order) :
    askTakerPrice order.mirror = mirrorPrice (bidTakerPrice order) ∧
      bidTakerPrice order.mirror = mirrorPrice (askTakerPrice order) := by
  obtain ⟨id, side, orderType, price, quantity, filled, ts, tif⟩ := order
  cases orderType with
  | limit => exact ⟨rfl, rfl⟩
  | market => exact ⟨mirrorPrice_maxValue.symm, mirrorPrice_minValue.symm⟩
  | stopLimit stopPrice => exact ⟨rfl, rfl⟩

theorem matchOrder_mirror :
    book.mirror.matchOrder order.mirror = (book.matchOrder order).mirror := by
  obtain ⟨hask, hbid⟩ := takerPrice_mirror order
  rcases order.side_eq_bid_or_ask with hs | hs
  · have hs' : order.mirror.side = .ask := by rw [Order.side_mirror, hs]; rfl
    have hmatch := matchAgainst_mirror askToBid_strictMono (bidTakerPrice order)
      ⟨book.asks, order, [], book.orderIndex⟩
    rw [matchOrder_of_bid hs, matchOrder_of_ask hs', againstBids, againstAsks, hask]
    rw [show toDual (mirrorPrice (bidTakerPrice order)) = askToBid (bidTakerPrice order) from rfl,
      show (⟨book.mirror.bids, order.mirror, [], book.mirror.orderIndex⟩ : MatchState Int64ᵒᵈ) =
        MatchState.mirror askToBid_strictMono ⟨book.asks, order, [], book.orderIndex⟩ from rfl,
      hmatch]
    rfl
  · have hs' : order.mirror.side = .bid := by rw [Order.side_mirror, hs]; rfl
    have hmatch := matchAgainst_mirror bidToAsk_strictMono (toDual (askTakerPrice order))
      ⟨book.bids, order, [], book.orderIndex⟩
    rw [matchOrder_of_ask hs, matchOrder_of_bid hs', againstBids, againstAsks, hbid]
    rw [show mirrorPrice (askTakerPrice order) = bidToAsk (toDual (askTakerPrice order)) from rfl,
      show (⟨book.mirror.asks, order.mirror, [], book.mirror.orderIndex⟩ : MatchState Int64) =
        MatchState.mirror bidToAsk_strictMono ⟨book.bids, order, [], book.orderIndex⟩ from rfl,
      hmatch]
    rfl

theorem restOrder_mirror : book.mirror.restOrder order.mirror = (book.restOrder order).mirror := by
  have hindex := SortedMap.map_insert strictMono_id mirrorPlace book.orderIndex order.id
    (order.side, order.price)
  rcases order.side_eq_bid_or_ask with hs | hs
  · have hs' : order.mirror.side = .ask := by rw [Order.side_mirror, hs]; rfl
    have hpush := pushAt_mirror bidToAsk_strictMono book.bids (toDual order.price) order
    rw [restOrder_of_bid hs, restOrder_of_ask hs']
    simp only [mirror, OrderIndex.mirror, hindex, ← hpush]
    rfl
  · have hs' : order.mirror.side = .bid := by rw [Order.side_mirror, hs]; rfl
    have hpush := pushAt_mirror askToBid_strictMono book.asks order.price order
    rw [restOrder_of_ask hs, restOrder_of_bid hs']
    simp only [mirror, OrderIndex.mirror, hindex, ← hpush]
    rfl

theorem insertWithTime_mirror (nowNs : UInt64) :
    book.mirror.insertWithTime order.mirror nowNs =
      ((book.insertWithTime order nowNs).1.mirror,
        (book.insertWithTime order nowNs).2.map Fill.mirror) := by
  have hexp : isExpired order.mirror nowNs = isExpired order nowNs := rfl
  have hrests : ∀ o : Order, restsRemainder o.mirror = restsRemainder o := by
    intro o
    obtain ⟨id, side, orderType, price, quantity, filled, ts, tif⟩ := o
    cases orderType <;> rfl
  simp only [insertWithTime, hexp, matchOrder_mirror, Matched.mirror, hrests, restOrder_mirror]
  split_ifs <;> rfl

theorem cancel_mirror (id : OrderId) :
    book.mirror.cancel id =
      ((book.cancel id).1.mirror, (book.cancel id).2.map Order.mirror) := by
  have hget : book.mirror.orderIndex.get? id = (book.orderIndex.get? id).map mirrorPlace :=
    OrderIndex.get?_mirror book.orderIndex id
  have herase : book.mirror.orderIndex.erase id = OrderIndex.mirror (book.orderIndex.erase id) :=
    OrderIndex.erase_mirror book.orderIndex id
  simp only [OrderBook.cancel, hget, herase]
  cases book.orderIndex.get? id with
  | none => rfl
  | some entry =>
    obtain ⟨side, price⟩ := entry
    cases side with
    | bid =>
      have hcancel := cancelAt_mirror bidToAsk_strictMono book.bids (toDual price) id
      simp only [Option.map_some, mirrorPlace, Side.opposite]
      rw [show cancelAt book.mirror.asks (mirrorPrice price) id = _ from hcancel]
      rfl
    | ask =>
      have hcancel := cancelAt_mirror askToBid_strictMono book.asks price id
      simp only [Option.map_some, mirrorPlace, Side.opposite]
      rw [show cancelAt book.mirror.bids (toDual (mirrorPrice price)) id = _ from hcancel]
      rfl

/-- The mirror exchanges the best prices. -/
theorem best_mirror : book.mirror.bestBid = book.bestAsk.map mirrorPrice ∧
    book.mirror.bestAsk = book.bestBid.map mirrorPrice := by
  constructor
  · simp only [bestBid, bestAsk, mirror, mirrorLevels, SortedMap.keys_map, List.head?_map,
      Option.map_map]
    rfl
  · simp only [bestBid, bestAsk, mirror, mirrorLevels, SortedMap.keys_map, List.head?_map,
      Option.map_map]
    rfl

/-- The mirror exchanges the depths. -/
theorem depth_mirror (side : Side) (n : ℕ) : book.mirror.depth side n =
    (book.depth side.opposite n).map fun e => (mirrorPrice e.1, e.2) := by
  cases side with
  | bid =>
    simp only [depth, Side.opposite, mirror, mirrorLevels, SortedMap.entries_map, ← List.map_take,
      List.map_map]
    rfl
  | ask =>
    simp only [depth, Side.opposite, mirror, mirrorLevels, SortedMap.entries_map, ← List.map_take,
      List.map_map]
    rfl

end OrderBook

/-! ## Runs -/

/-- A request to the book. -/
inductive Request
  | insertWithTime (order : Order) (nowNs : UInt64)
  | cancel (id : OrderId)
  deriving DecidableEq, Repr

/-- What the book answers. -/
inductive Response
  | fills (fs : List Fill)
  | cancelled (o : Option Order)
  deriving DecidableEq, Repr

/-- The mirror of a request. -/
def Request.mirror : Request → Request
  | .insertWithTime order nowNs => .insertWithTime order.mirror nowNs
  | .cancel id => .cancel id

/-- The mirror of an answer. -/
def Response.mirror : Response → Response
  | .fills fs => .fills (fs.map Fill.mirror)
  | .cancelled o => .cancelled (o.map Order.mirror)

namespace OrderBook

/-- Serve a request. -/
def serve (book : OrderBook) : Request → OrderBook × Response
  | .insertWithTime order nowNs =>
    let (book, fills) := book.insertWithTime order nowNs
    (book, .fills fills)
  | .cancel id =>
    let (book, order) := book.cancel id
    (book, .cancelled order)

theorem serve_mirror (book : OrderBook) (request : Request) :
    book.mirror.serve request.mirror =
      Prod.map OrderBook.mirror Response.mirror (book.serve request) := by
  cases request with
  | insertWithTime order nowNs =>
    simp only [serve, Request.mirror, insertWithTime_mirror, Prod.map, Response.mirror]
  | cancel id => simp only [serve, Request.mirror, cancel_mirror, Prod.map, Response.mirror]

/-- **Bids and asks are symmetric.** The mirror of prices is an involution that reverses their
order; the run of the mirrored requests answers with the mirrored answers and goes through the
mirrored books; and on a mirrored book the best prices and the depths of the two sides are
exchanged. -/
theorem mirror_run (requests : List Request) :
    (∀ p, mirrorPrice (mirrorPrice p) = p) ∧
    (∀ p p', mirrorPrice p < mirrorPrice p' ↔ p' < p) ∧
    Run.trace serve new (requests.map Request.mirror) =
      (Run.trace serve new requests).map (Prod.map OrderBook.mirror Response.mirror) ∧
    ∀ book : OrderBook,
      book.mirror.bestBid = book.bestAsk.map mirrorPrice ∧
      book.mirror.bestAsk = book.bestBid.map mirrorPrice ∧
      ∀ side n, book.mirror.depth side n =
        (book.depth side.opposite n).map fun e => (mirrorPrice e.1, e.2) := by
  refine ⟨mirrorPrice_mirrorPrice, fun _ _ => mirrorPrice_lt_mirrorPrice, ?_, fun book => ?_⟩
  · exact Run.trace_map OrderBook.mirror Request.mirror Response.mirror serve_mirror new requests
  · exact ⟨book.best_mirror.1, book.best_mirror.2, book.depth_mirror⟩

end OrderBook

end AliceLedger
