import AliceLedger.Book.Representation

/-!
# When a fill-or-kill order is filled

A FOK order is decided on the sum of the cached totals of the levels that it crosses (`offered`),
and that sum wraps: an order that the exact liquidity covers is killed exactly when the wrapped sum
does not cover it (`fok_complete_iff`). The totals themselves fall short of their levels where a
push made them wrap. They are exact while the lots at each price fit in 64 bits (`exact_run`), and
then the order is filled whenever all that it crosses does (`Exact.offered_eq`).
-/

namespace AliceLedger

open OrderDual (toDual ofDual)

section Side

variable {K : Type*} [LinearOrder K] {priceOf : K → Int64} {side : Side}
  {levels : SortedMap K PriceLevel} {takerPrice : K}

/-- The levels up to a bound are those with an order in reach. -/
theorem upTo_eq_filter (h : LevelsSound priceOf side levels) {p : Order → Prop} [DecidablePred p]
    (hp : ∀ key o, o.price = priceOf key → (p o ↔ key ≤ takerPrice)) :
    levels.upTo takerPrice = levels.entries.filter fun e => ∃ o ∈ e.2.orders, p o := by
  refine List.filter_congr fun e he => decide_eq_decide.mpr ?_
  have hprice : ∀ o ∈ e.2.orders, p o ↔ e.1 ≤ takerPrice := fun o ho =>
    hp e.1 o ((h e he).resting o ho).2.1
  constructor
  · intro hle
    obtain ⟨o, ho⟩ := List.exists_mem_of_ne_nil _ (h e he).nonempty
    exact ⟨o, ho, (hprice o ho).mpr hle⟩
  · rintro ⟨o, ho, hpo⟩
    exact (hprice o ho).mp hpo

end Side

namespace OrderBook

variable {book : OrderBook} {order : Order}

/-- The opposite levels that an incoming order crosses, best price first. -/
def crossingLevels (book : OrderBook) (order : Order) : List (Int64 × PriceLevel) :=
  (book.levels order.side.opposite).filter fun e => ∃ o ∈ e.2.orders, Crosses order o

/-- The exact sum of the cached totals of the levels that an order crosses. -/
def offered (book : OrderBook) (order : Order) : ℕ :=
  ((book.crossingLevels order).map fun e => e.2.totalQuantity.toNat).sum

theorem Sound.crossingLevels_of_bid (h : book.Sound) (hs : order.side = .bid) :
    book.crossingLevels order = book.asks.upTo (bidTakerPrice order) := by
  rw [upTo_eq_filter h.asks (crosses_iff_of_bid hs), crossingLevels, hs]
  rfl

theorem Sound.crossingLevels_of_ask (h : book.Sound) (hs : order.side = .ask) :
    book.crossingLevels order =
      (book.bids.upTo (toDual (askTakerPrice order))).map fun e => (ofDual e.1, e.2) := by
  rw [upTo_eq_filter h.bids (crosses_iff_of_ask hs), crossingLevels, hs]
  exact List.filter_map

/-- The orders of the crossing levels are the crossing orders. -/
theorem Sound.queueOf_crossingLevels (h : book.Sound) (order : Order) :
    queueOf (book.crossingLevels order) = book.crossing order := by
  rcases order.side_eq_bid_or_ask with hs | hs
  · rw [h.crossingLevels_of_bid hs, h.crossing_of_bid hs]
  · rw [h.crossingLevels_of_ask hs, h.crossing_of_ask hs, queueOf, queueOf, List.flatMap_map]

/-- **A FOK order is killed** when the wrapped sum of the totals does not cover it. -/
theorem Sound.kills_iff_offered (h : book.Sound) (hfok : order.timeInForce = .fok) :
    book.Kills order ↔ book.offered order % 2 ^ 64 < order.remaining.toNat := by
  refine (and_iff_right hfok).trans ?_
  rw [offered]
  rcases order.side_eq_bid_or_ask with hs | hs
  · rw [h.crossingLevels_of_bid hs, hs]
    exact canFill_eq_false_iff _ order
  · rw [h.crossingLevels_of_ask hs, hs, List.map_map]
    exact canFill_eq_false_iff _ order

/-- **Where the totals are exact**, what is offered is all that the order crosses. -/
theorem Exact.offered_eq (h : book.Exact) (order : Order) :
    book.offered order = liquidity (book.crossing order) := by
  rw [← h.sound.queueOf_crossingLevels, liquidity_queueOf, offered]
  exact congrArg List.sum (List.map_congr_left fun e he => h.total_eq (List.mem_filter.mp he).1)

/-- **When a covered FOK order is filled.** On every reachable book an open FOK order whose
remaining quantity the orders it crosses cover is filled completely if and only if the sum of the
cached totals of their levels, wrapped to 64 bits, covers it too; and it is, without an overflow in
that sum, if and only if the sum covers it and is below 2^64. On a run that keeps the exact sum at
every price of each side below 2^64 the sum of the totals is the exact liquidity. -/
theorem fok_complete_iff (ops : List BookOp) (order : Order) (hfok : order.timeInForce = .fok)
    (hopen : order.filledQuantity < order.quantity)
    (hliq : order.remaining.toNat ≤ liquidity ((ops.foldl step new).crossing order)) :
    let book := ops.foldl step new
    let filled := traded (book.insert order).2 = order.remaining.toNat
    (filled ↔ order.remaining.toNat ≤ book.offered order % 2 ^ 64) ∧
      (filled ∧ book.offered order < 2 ^ 64 ↔
        order.remaining.toNat ≤ book.offered order ∧ book.offered order < 2 ^ 64) ∧
      (Run.Throughout step SumsFit new ops →
        book.offered order = liquidity (book.crossing order)) := by
  intro book filled
  have hsound : book.Sound := sound_run ops
  have hunfilled : order.isFilled = false :=
    Order.isFilled_eq_false_iff.mpr (UInt64.lt_iff_toNat_lt.mp hopen)
  have hpos := Order.remaining_pos hunfilled
  have hexp : isExpired order 0 = false := by simp [isExpired, hfok]
  have hfills : (book.insert order).2 =
      if book.Kills order then [] else (sweep order (book.crossing order)).fills := by
    rw [insert, hsound.fills_insertWithTime]
    simp only [hexp, Bool.false_eq_true, false_or]
  have hfilled : filled ↔ order.remaining.toNat ≤ book.offered order % 2 ^ 64 := by
    rw [← not_lt, ← hsound.kills_iff_offered hfok]
    change traded (book.insert order).2 = _ ↔ _
    rw [hfills]
    by_cases hk : book.Kills order
    · simp only [hk, if_true, not_true, iff_false, traded_nil]
      omega
    · rw [if_neg hk, traded_sweep hunfilled (hsound.allOpen_crossing order)]
      exact iff_of_true (min_eq_left hliq) hk
  refine ⟨hfilled, ?_, fun hrun => (exact_run hrun).offered_eq order⟩
  rw [hfilled]
  refine and_congr_left fun hlt => ?_
  rw [Nat.mod_eq_of_lt hlt]

/-- Two asks of 2^63 lots at one price: the total of their level wraps to 0. -/
def wrappedAsks : List BookOp :=
  [.insert (.limit 1 .ask 100 0x8000000000000000 0),
    .insert (.limit 2 .ask 100 0x8000000000000000 1)]

/-- A FOK bid for one lot. -/
def fokBid : Order := { Order.limit 3 .bid 100 1 2 with timeInForce := .fok }

/-- They do not fill a FOK bid for one lot. -/
theorem wrapped_total_kills : ¬ ∀ (ops : List BookOp) (order : Order),
    order.timeInForce = .fok → order.filledQuantity < order.quantity →
      order.remaining.toNat ≤ liquidity ((ops.foldl step new).crossing order) →
        traded ((ops.foldl step new).insert order).2 = order.remaining.toNat := fun h =>
  absurd (h wrappedAsks fokBid rfl (by decide) (by decide)) (by decide)

/-- One ask of 2^63 lots does. -/
theorem fok_complete_iff_half :
    traded ((wrappedAsks.take 1).foldl step new |>.insert fokBid).2 = fokBid.remaining.toNat :=
  (fok_complete_iff (wrappedAsks.take 1) fokBid rfl (by decide) (by decide)).1.mpr (by decide)

end OrderBook

end AliceLedger
