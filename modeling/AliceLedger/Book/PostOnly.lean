import AliceLedger.Book.Quiet

/-!
# Post-only orders

The post-only check compares the price of an order with the best price of the other side. On every
reachable book that decides whether the order crosses anything (`checkPostOnly_eq_wouldMatch_iff`),
since no level is empty, and so whether its insertion trades (`would_match_iff`). That it would rest
is another matter: the check reads neither the time in force nor what is left of the order, so an
order that passes it comes to rest exactly when it is open and GTC or GTD (`would_rest_iff`).
-/

namespace AliceLedger

open OrderDual (toDual ofDual)

/-- The result of the post-only check. -/
inductive PostOnlyResult
  /-- The order is passive. -/
  | wouldRest
  /-- The order would trade at once. -/
  | wouldMatch
  /-- Market orders cannot be post-only. -/
  | invalidOrderType
  deriving DecidableEq, Repr

/-- The post-only check of an order. -/
def checkPostOnly (order : Order) (book : OrderBook) : PostOnlyResult :=
  if order.orderType = .market then .invalidOrderType
  else
    match order.side with
    | .bid =>
      if book.bestAsk.any fun bestAsk => order.price ≥ bestAsk then .wouldMatch else .wouldRest
    | .ask =>
      if book.bestBid.any fun bestBid => order.price ≤ bestBid then .wouldMatch else .wouldRest

namespace OrderBook

variable {book : OrderBook} {order : Order}

/-! ## Best prices -/

/-- The best ask is within the price of a bid exactly when the bid crosses a resting order. -/
theorem Sound.any_bestAsk_iff (h : book.Sound) (hs : order.side = .bid)
    (htype : order.orderType ≠ .market) :
    book.bestAsk.any (fun bestAsk => order.price ≥ bestAsk) = true ↔ book.crossing order ≠ [] := by
  have hprice : bidTakerPrice order = order.price := (takerPrice_of_ne_market htype).1
  rw [h.crossing_of_bid hs, hprice]
  refine (SortedMap.any_head?_keys_iff book.asks order.price).trans (not_congr ⟨fun hnil => ?_, ?_⟩)
  · rw [hnil, queueOf_nil]
  · exact upTo_eq_nil h.asks

theorem Sound.any_bestBid_iff (h : book.Sound) (hs : order.side = .ask)
    (htype : order.orderType ≠ .market) :
    book.bestBid.any (fun bestBid => order.price ≤ bestBid) = true ↔ book.crossing order ≠ [] := by
  have hprice : askTakerPrice order = order.price := (takerPrice_of_ne_market htype).2
  rw [h.crossing_of_ask hs, hprice, bestBid, Option.any_map]
  refine (SortedMap.any_head?_keys_iff book.bids (toDual order.price)).trans
    (not_congr ⟨fun hnil => ?_, ?_⟩)
  · rw [hnil, queueOf_nil]
  · exact upTo_eq_nil h.bids

/-- **What the check decides**: an order with a price crosses a resting order. -/
theorem Sound.checkPostOnly_eq_wouldMatch_iff (h : book.Sound) (htype : order.orderType ≠ .market) :
    checkPostOnly order book = .wouldMatch ↔ book.crossing order ≠ [] := by
  unfold checkPostOnly
  rw [if_neg htype]
  rcases order.side_eq_bid_or_ask with hs | hs
  · rw [hs, ← h.any_bestAsk_iff hs htype]
    dsimp only
    split_ifs with hany
    · exact iff_of_true rfl hany
    · exact iff_of_false (by simp) hany
  · rw [hs, ← h.any_bestBid_iff hs htype]
    dsimp only
    split_ifs with hany
    · exact iff_of_true rfl hany
    · exact iff_of_false (by simp) hany

/-- An order that would rest has a price and crosses nothing. -/
theorem Sound.crossing_of_wouldRest (h : book.Sound)
    (hcheck : checkPostOnly order book = .wouldRest) :
    order.orderType ≠ .market ∧ book.crossing order = [] := by
  have htype : order.orderType ≠ .market := fun htype => by
    rw [checkPostOnly, if_pos htype] at hcheck
    exact PostOnlyResult.noConfusion hcheck
  refine ⟨htype, not_not.mp fun hcross => ?_⟩
  rw [(h.checkPostOnly_eq_wouldMatch_iff htype).mpr hcross] at hcheck
  exact PostOnlyResult.noConfusion hcheck

/-! ## Would match -/

/-- **The prediction agrees with matching.** On every reachable book the check says that an open
GTC, IOC or GTD order with a price would match if and only if its insertion returns a fill. -/
theorem would_match_iff (ops : List BookOp) (order : Order) (htype : order.orderType ≠ .market)
    (hopen : order.filledQuantity < order.quantity) (htif : order.timeInForce ≠ .fok) :
    let book := ops.foldl step new
    checkPostOnly order book = .wouldMatch ↔ (book.insert order).2 ≠ [] := by
  intro book
  have hsound : book.Sound := sound_run ops
  have hunfilled : ¬ order.isFilled = true := by
    rw [Order.isFilled_iff, not_le]
    exact UInt64.lt_iff_toNat_lt.mp hopen
  rw [hsound.checkPostOnly_eq_wouldMatch_iff htype]
  refine not_congr ((hsound.fills_insert_eq_nil_iff order).trans ⟨?_, ?_⟩).symm
  · rintro (hfilled | hnil | hk)
    · exact absurd hfilled hunfilled
    · exact hnil
    · exact absurd hk.1 htif
  · exact fun hnil => .inr (.inl hnil)

/-- A bid at 101 against an ask at 100. -/
theorem would_match_iff_bid :
    (([BookOp.insert (.limit 1 .ask 100 5 0)].foldl step new).insert (.limit 2 .bid 101 3 1)).2 ≠
      [] :=
  (would_match_iff [.insert (.limit 1 .ask 100 5 0)] (.limit 2 .bid 101 3 1) (by decide)
    (by decide) (by decide)).mp (by decide)

/-! ## Would rest -/

/-- An insertion without a fill after which the order itself, all that was left of it, is the last
in the level of its own price. -/
structure RestsWhole (book : OrderBook) (order : Order) : Prop where
  no_fills : (book.insert order).2 = []
  rests : ∃ level, (order.price, level) ∈ (book.insert order).1.levels order.side ∧
    level.orders = (book.queue order.side).filter (fun o => o.price = order.price) ++ [order]

/-- A passive order comes to rest exactly when its remainder does. -/
theorem Sound.restsWhole_iff (h : book.Sound) (hnil : book.crossing order = []) :
    book.RestsWhole order ↔ restsRemainder order = true := by
  have hinsert := h.insert_of_quiet (.inr (.inl hnil))
  have hsound := h.insertWithTime order 0
  rw [show book.insertWithTime order 0 = _ from hinsert] at hsound
  constructor
  · intro hrests
    by_contra hno
    obtain ⟨level, hlevel, horders⟩ := hrests.rests
    rw [hinsert, if_neg hno] at hlevel
    exact absurd ((h.filter_price_queue hlevel).trans horders) (by simp)
  · intro hyes
    rw [if_pos hyes] at hinsert hsound
    obtain ⟨-, hown, hfilter, -⟩ := h.restOrder_queue order
    obtain ⟨level, hlevel, -⟩ := hsound.exists_level (hown.mem_iff.mpr List.mem_cons_self)
    refine ⟨by rw [hinsert], level, by rw [hinsert]; exact hlevel, ?_⟩
    rw [← hsound.filter_price_queue hlevel, hfilter order.price, if_pos rfl]

/-- **When an accepted post-only order rests.** On every reachable book an order that would rest, as
the check says, comes to rest whole if and only if it is open and GTC or GTD. -/
theorem would_rest_iff (ops : List BookOp) (order : Order)
    (hcheck : checkPostOnly order (ops.foldl step new) = .wouldRest) :
    (ops.foldl step new).RestsWhole order ↔
      order.filledQuantity < order.quantity ∧
        order.timeInForce ≠ .ioc ∧ order.timeInForce ≠ .fok := by
  have hsound := sound_run ops
  obtain ⟨htype, hnil⟩ := hsound.crossing_of_wouldRest hcheck
  rw [hsound.restsWhole_iff hnil, restsRemainder_iff, Order.isFilled_eq_false_iff,
    UInt64.lt_iff_toNat_lt]
  exact and_congr_right fun _ => and_iff_right htype

/-- An IOC bid on an empty book. -/
def iocBid : Order := { Order.limit 1 .bid 100 5 0 with timeInForce := .ioc }

/-- It passes the check and does not rest. -/
theorem ioc_bid_not_resting : ¬ ∀ (ops : List BookOp) (order : Order),
    checkPostOnly order (ops.foldl step new) = .wouldRest →
      (ops.foldl step new).RestsWhole order := by
  intro h
  obtain ⟨level, hlevel, -⟩ := (h [] iocBid (by decide)).rests
  have hnil : (OrderBook.new.insert iocBid).1.levels iocBid.side = [] := by decide
  rw [List.foldl_nil, hnil] at hlevel
  exact absurd hlevel List.not_mem_nil

/-- A GTC bid does. -/
theorem would_rest_iff_gtc : OrderBook.new.RestsWhole (.limit 1 .bid 100 5 0) :=
  (would_rest_iff [] (.limit 1 .bid 100 5 0) (by decide)).mpr (by decide)

end OrderBook

end AliceLedger
