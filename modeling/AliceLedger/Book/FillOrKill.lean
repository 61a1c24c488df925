import AliceLedger.Book.Sound
import Mathlib.Algebra.Order.BigOperators.Group.List

/-!
# Fill-or-kill

A FOK order is decided on the cached totals of the levels and executed on their orders. The totals
may have wrapped, but they never exceed the exact liquidity of their levels, nor does their sum
(`liquidity_of_canFill`): an order that the totals cover is filled entirely.
-/

namespace AliceLedger

open OrderDual (toDual ofDual)

theorem sum_totalQuantity_le {K : Type*} {es : List (K × PriceLevel)}
    (h : ∀ e ∈ es, e.2.totalQuantity.toNat ≤ liquidity e.2.orders) :
    (es.map fun e => e.2.totalQuantity.toNat).sum ≤ liquidity (queueOf es) := by
  rw [liquidity_queueOf]
  exact List.sum_le_sum h

section Side

variable {K : Type*} [LinearOrder K] {priceOf : K → Int64} {side : Side}
  {levels : SortedMap K PriceLevel} {takerPrice : K}

/-- **The totals never promise more than there is**: a covered order finds its quantity. -/
theorem liquidity_of_canFill (h : LevelsSound priceOf side levels) {order : Order}
    (hfill : canFill levels takerPrice order = true) :
    order.remaining.toNat ≤ liquidity (queueOf (levels.upTo takerPrice)) := by
  have htotal : ∀ e ∈ levels.upTo takerPrice, e.2.totalQuantity.toNat ≤ liquidity e.2.orders :=
    fun e he => (h e (SortedMap.mem_upTo.mp he).1).total_le
  have hsum := sum_totalQuantity_le htotal
  exact ((canFill_eq_true_iff levels order).mp hfill).trans ((Nat.mod_le _ _).trans hsum)

/-- A FOK taker trades nothing or all that remained of it. -/
theorem matchAgainst_fok (h : LevelsSound priceOf side levels) {taker : Order}
    (hfok : taker.timeInForce = .fok) (index : OrderIndex) :
    let t := matchAgainst fillLevel takerPrice ⟨levels, taker, [], index⟩
    t = ⟨levels, taker, [], index⟩ ∨ traded t.fills = taker.remaining.toNat := by
  intro t
  by_cases hk : Killed levels takerPrice taker
  · exact .inl (matchAgainst_of_killed (s := ⟨levels, taker, [], index⟩) hk)
  · cases ht : taker.isFilled with
    | true =>
      refine .inl ?_
      rw [show t = _ from matchAgainst_of_not_killed (s := ⟨levels, taker, [], index⟩) hk]
      exact matchLevels_of_filled ht _
    | false =>
      have hfill : canFill levels takerPrice taker = true := by
        cases hc : canFill levels takerPrice taker with
        | true => rfl
        | false => exact absurd ⟨hfok, hc⟩ hk
      have hliq := liquidity_of_canFill h hfill
      have hopen : LevelsOpen (levels.upTo takerPrice) := fun e he =>
        h.levelsOpen e (SortedMap.mem_upTo.mp he).1
      have htraded := traded_sweep ht hopen.allOpen
      rw [sweep_queueOf, min_eq_left hliq] at htraded
      rw [show t.fills = _ from (matchAgainst_eq h.levelsOpen hk index).2.2.1]
      exact .inr htraded

end Side

namespace OrderBook

variable {order : Order}

theorem insert_of_fok {book : OrderBook} (hs : book.Sound) (hfok : order.timeInForce = .fok) :
    book.insert order = ((book.matchOrder order).book, (book.matchOrder order).fills) := by
  obtain ⟨q, hq⟩ := hs.matchOrder_taker_eq order
  have hrests : restsRemainder (book.matchOrder order).taker = false := by
    rw [← Bool.not_eq_true, restsRemainder_iff, hq]
    exact fun h => h.2.2.2 hfok
  have hexp : isExpired order 0 = false := by simp [isExpired, hfok]
  simp [insert, insertWithTime, hexp, hrests]

/-- **Fill-or-kill is all or nothing.** On every reachable book a FOK order leaves its own side as
it was, and either nothing is traded and the book is unchanged, or exactly its remaining quantity
is traded. -/
theorem fok_all_or_nothing (ops : List BookOp) (hfok : order.timeInForce = .fok) :
    let book := ops.foldl OrderBook.step new
    let r := book.insert order
    r.1.queue order.side = book.queue order.side ∧
      ((r.2 = [] ∧ r.1 = book) ∨ traded r.2 = order.remaining.toNat) := by
  intro book r
  have hs : book.Sound := sound_run ops
  rw [show r = _ from insert_of_fok hs hfok]
  rcases order.side_eq_bid_or_ask with hside | hside
  · rw [matchOrder_of_bid hside, hside]
    refine ⟨rfl, ?_⟩
    rcases matchAgainst_fok hs.asks hfok book.orderIndex with h | h
    · exact .inl (by rw [againstAsks, h]; exact ⟨rfl, rfl⟩)
    · exact .inr h
  · rw [matchOrder_of_ask hside, hside]
    refine ⟨rfl, ?_⟩
    rcases matchAgainst_fok hs.bids hfok book.orderIndex with h | h
    · exact .inl (by rw [againstBids, h]; exact ⟨rfl, rfl⟩)
    · exact .inr h

/-- A FOK bid for 3 of the 5 lots on offer. -/
theorem fok_all_or_nothing_covered :
    let book := [BookOp.insert (.limit 1 .ask 100 5 0)].foldl OrderBook.step new
    traded (book.insert { Order.limit 2 .bid 100 3 1 with timeInForce := .fok }).2 = 3 :=
  (fok_all_or_nothing [.insert (.limit 1 .ask 100 5 0)] rfl).2.resolve_left (by decide)

end OrderBook

end AliceLedger
