import AliceLedger.Lib.Greedy
import AliceLedger.Risk.Notional

/-!
# Best execution

The fills of an order are a greedy purchase from the opposite queue, whose orders are offers of what
remains of them at their prices. So no other way of trading as many lots with resting orders costs
a bid less or pays an ask more, and no order that may trade leaves lots that it could have had
(`best_execution`). What a lot costs is `costAt`, the price for a bid and its negation for an ask.
A better limit loses nothing: the fills of the order at its own limit come first, as they are
(`fills_prefix_of_better_limit`).
-/

namespace AliceLedger

open Offers (greedyCost allocCost Feasible)

/-- What an order of a side is offered by resting orders. -/
def offersTo (side : Side) (makers : List Order) : List (ℕ × ℤ) :=
  makers.map fun m => (m.remaining.toNat, costAt side m.price.toInt)

theorem offersTo_append (side : Side) (makers makers' : List Order) :
    offersTo side (makers ++ makers') = offersTo side makers ++ offersTo side makers' :=
  List.map_append

theorem valued_cons (weight : ℤ → ℤ) (f : Fill) (fills : List Fill) :
    valued weight (f :: fills) = f.quantity.toNat * weight f.price.toInt + valued weight fills := by
  rw [valued, List.map_cons, List.sum_cons, mul_comm, valued]

theorem capacity_offersTo (side : Side) (makers : List Order) :
    Offers.capacity (offersTo side makers) = liquidity makers := by
  rw [Offers.capacity, offersTo, List.map_map, liquidity]
  rfl

/-- A trade with the first maker is the first part of a greedy purchase. -/
theorem greedyCost_cons (side : Side) {taker : Order} (ht : taker.isFilled = false) (maker : Order)
    (rest : List Order) : greedyCost taker.openQuantity (offersTo side (maker :: rest)) =
      (tradeQty taker maker).toNat * costAt side maker.price.toInt +
        greedyCost (taker.addFilled (tradeQty taker maker)).openQuantity (offersTo side rest) := by
  have hqty : min taker.openQuantity maker.remaining.toNat = (tradeQty taker maker).toNat := by
    rw [toNat_tradeQty, Order.openQuantity_eq ht]
  have hleft := Order.openQuantity_addFilled ht (tradeQty_le_taker taker maker)
  have hopen : taker.openQuantity - maker.remaining.toNat =
      (taker.addFilled (tradeQty taker maker)).openQuantity := by omega
  rw [← hopen, ← hqty]
  rfl

/-- **A sweep is a greedy purchase** of what its taker still wants. -/
theorem valued_sweep (side : Side) (taker : Order) {makers : List Order} (hopen : AllOpen makers) :
    valued (costAt side) (sweep taker makers).fills =
      greedyCost taker.openQuantity (offersTo side makers) := by
  revert hopen
  refine sweep_induction (P := fun taker makers r => AllOpen makers → valued (costAt side) r.fills =
    greedyCost taker.openQuantity (offersTo side makers)) ?_ ?_ ?_ ?_ taker makers
  · intro _ _
    rfl
  · intro taker maker rest ht _
    rw [Order.openQuantity_of_isFilled ht, Offers.greedyCost_zero]
    rfl
  · intro taker maker rest r ht _ _ ih hopen
    rw [greedyCost_cons side ht, ← ih hopen.of_cons, valued_cons]
    rfl
  · intro taker maker rest ht ht' _ _
    rw [greedyCost_cons side ht, Order.openQuantity_of_isFilled ht', Offers.greedyCost_zero,
      valued_cons]
    rfl

/-- What a sweep trades, whatever the taker wants. -/
theorem traded_sweep_eq {taker : Order} {makers : List Order} (hopen : AllOpen makers) :
    traded (sweep taker makers).fills = min taker.openQuantity (liquidity makers) := by
  cases ht : taker.isFilled with
  | true =>
    rw [sweep_of_filled ht, Order.openQuantity_of_isFilled ht, Nat.zero_min]
    rfl
  | false => rw [traded_sweep ht hopen, Order.openQuantity_eq ht]

namespace OrderBook

variable {book : OrderBook} {order : Order}

/-- The offers of the opposite side come in order of their cost. -/
theorem Sound.offers_pairwise (h : book.Sound) (side : Side) :
    (offersTo side (book.queue side.opposite)).Pairwise fun i j => i.2 ≤ j.2 := by
  refine List.pairwise_map.mpr ((h.queue_pairwise side.opposite).imp fun {a b} hab => ?_)
  cases side with
  | bid => exact Int64.le_iff_toInt_le.mp (not_lt.mp hab)
  | ask => exact neg_le_neg (Int64.le_iff_toInt_le.mp (not_lt.mp hab))

/-- **The fills of an insertion are a greedy purchase** from the opposite queue. -/
theorem Sound.valued_insertWithTime (h : book.Sound) (order : Order) (nowNs : UInt64) :
    valued (costAt order.side) (book.insertWithTime order nowNs).2 =
      greedyCost (traded (book.insertWithTime order nowNs).2)
        (offersTo order.side (book.queue order.side.opposite)) := by
  rw [h.fills_insertWithTime]
  split_ifs with hidle
  · rw [traded_nil, Offers.greedyCost_zero]
    rfl
  · obtain ⟨q, rest, hm⟩ := h.matchOrder_queue fun hk => hidle (.inr hk)
    have hopen : AllOpen q := hm.crossing_eq ▸ h.allOpen_crossing order
    have htraded := @traded_sweep_eq order q hopen
    have hle : traded (sweep order q).fills ≤ Offers.capacity (offersTo order.side q) := by
      rw [htraded, capacity_offersTo]
      exact min_le_right _ _
    rw [hm.crossing_eq, valued_sweep order.side order hopen, hm.before,
      offersTo_append, Offers.greedyCost_append hle, htraded, ← capacity_offersTo order.side]
    exact (Offers.greedyCost_min _ _).symm

/-- **Best execution.** On every reachable book, let the opposite side be offered to an incoming
order. No allocation of quantities to its orders, within what remains of them, that trades as many
lots as the order does costs a bid less or pays an ask more than the fills. And unless the order is
expired or killed, no allocation to the orders that it crosses, within what it wants, trades more
lots than it does. -/
theorem best_execution (ops : List BookOp) (order : Order) (nowNs : UInt64) :
    let book := ops.foldl step new
    let fills := (book.insertWithTime order nowNs).2
    (∀ quantities, Feasible quantities (offersTo order.side (book.queue order.side.opposite)) →
        quantities.sum = traded fills → valued (costAt order.side) fills ≤
          allocCost quantities (offersTo order.side (book.queue order.side.opposite))) ∧
      (isExpired order nowNs = false → ¬ book.Kills order → ∀ quantities,
        Feasible quantities (offersTo order.side (book.crossing order)) →
          quantities.sum ≤ order.openQuantity → quantities.sum ≤ traded fills) := by
  intro book fills
  have hsound : book.Sound := sound_run ops
  constructor
  · intro quantities hfeasible hsum
    rw [show valued (costAt order.side) fills = _ from hsound.valued_insertWithTime order nowNs,
      show traded (book.insertWithTime order nowNs).2 = quantities.sum from hsum.symm]
    exact Offers.greedyCost_le_allocCost (hsound.offers_pairwise order.side) hfeasible
  · intro hexpired hkills quantities hfeasible hwant
    have hfills : fills = (sweep order (book.crossing order)).fills := by
      rw [show fills = _ from hsound.fills_insertWithTime order nowNs,
        if_neg (by simp [hexpired, hkills])]
    rw [hfills, traded_sweep_eq (hsound.allOpen_crossing order)]
    refine le_min hwant ?_
    rw [← capacity_offersTo order.side]
    exact hfeasible.sum_le_capacity

/-! ## A better limit -/

/-- The fills of a sweep do not depend on the limit of the taker. -/
theorem fills_sweep_limit (taker : Order) (orderType : OrderType) (price : Int64)
    (makers : List Order) :
    (sweep { taker with orderType, price } makers).fills = (sweep taker makers).fills := by
  induction makers generalizing taker with
  | nil => rfl
  | cons maker rest ih =>
    simp only [sweep]
    have hqty : tradeQty { taker with orderType, price } maker = tradeQty taker maker := rfl
    have hfilled : ({ taker with orderType, price } : Order).isFilled = taker.isFilled := rfl
    rw [hfilled, hqty]
    split_ifs with ht hm
    · rfl
    · exact congrArg (tradeFill taker maker :: ·) (ih (taker.addFilled (tradeQty taker maker)))
    · rfl

/-- A sweep of a longer queue first makes the fills of the shorter one. -/
theorem fills_sweep_prefix (taker : Order) (q more : List Order) :
    (sweep taker q).fills <+: (sweep taker (q ++ more)).fills := by
  rw [sweep_append]
  split_ifs
  · exact List.prefix_append _ _
  · exact List.prefix_refl _

/-- Of two prefixes of a queue, one whose orders pass a test that the rest after the other fails is
the shorter. -/
theorem prefix_of_append_eq {p : Order → Prop} {q rest q' rest' : List Order}
    (h : q ++ rest = q' ++ rest') (hq : ∀ o ∈ q, p o) (hrest : ∀ o ∈ rest', ¬ p o) : q <+: q' := by
  rcases List.append_eq_append_iff.mp h with ⟨as, rfl, -⟩ | ⟨as, rfl, rfl⟩
  · exact List.prefix_append _ _
  · cases as with
    | nil => simp
    | cons o as =>
      have ho := hq o (List.mem_append_right _ List.mem_cons_self)
      exact absurd ho (hrest o List.mem_cons_self)

/-- **A better limit loses no fill.** On every reachable book, let an order that is not FOK be given
another type and price that cross every order which it crosses: the fills at its own limit are the
first fills at the better one, as they are. -/
theorem fills_prefix_of_better_limit (ops : List BookOp) (order : Order) (nowNs : UInt64)
    (orderType : OrderType) (price : Int64) (hfok : order.timeInForce ≠ .fok)
    (hbetter : ∀ maker, Crosses order maker → Crosses { order with orderType, price } maker) :
    let book := ops.foldl step new
    (book.insertWithTime order nowNs).2 <+:
      (book.insertWithTime { order with orderType, price } nowNs).2 := by
  intro book
  have hsound : book.Sound := sound_run ops
  have hk : ¬ book.Kills order := fun hk => hfok hk.1
  have hk' : ¬ book.Kills { order with orderType, price } := fun hk => hfok hk.1
  obtain ⟨q, rest, hm⟩ := hsound.matchOrder_queue hk
  obtain ⟨q', rest', hm'⟩ := hsound.matchOrder_queue hk'
  rw [hsound.fills_insertWithTime, hsound.fills_insertWithTime, hm.crossing_eq, hm'.crossing_eq]
  by_cases hexp : isExpired order nowNs = true
  · rw [if_pos (.inl hexp)]
    exact List.nil_prefix
  · have hexp' : ¬ isExpired { order with orderType, price } nowNs = true := hexp
    rw [if_neg (by simp [hexp, hk]), if_neg (by simp [hexp', hk'])]
    obtain ⟨more, rfl⟩ := prefix_of_append_eq (hm.before.symm.trans hm'.before)
      (fun o ho => hbetter o (hm.crosses o ho)) hm'.not_crosses
    rw [fills_sweep_limit order orderType price]
    exact fills_sweep_prefix order q more

/-- A bid at 100 takes the first ask, and one at 102 both. -/
theorem fills_prefix_of_better_limit_bid :
    let book := [BookOp.insert (.limit 1 .ask 100 5 0), .insert (.limit 2 .ask 102 5 1)].foldl step
      new
    (book.insertWithTime (.limit 3 .bid 100 8 2) 0).2 <+:
      (book.insertWithTime (.limit 3 .bid 102 8 2) 0).2 :=
  fills_prefix_of_better_limit [.insert (.limit 1 .ask 100 5 0), .insert (.limit 2 .ask 102 5 1)]
    (.limit 3 .bid 100 8 2) 0 .limit 102 (by decide) (fun maker h => by
      have hle : maker.price ≤ 100 := h.resolve_left nofun
      exact .inr (hle.trans (by decide)))

end OrderBook

end AliceLedger
