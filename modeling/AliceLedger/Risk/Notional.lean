import AliceLedger.Book.Queue
import AliceLedger.Risk.Model

/-!
# The notional cap and execution

The risk check bounds the notional of an order, its own price times its quantity. The book executes
at the makers' prices, which for an order with a price are at least as good: a bid pays and an ask
gives up at most its notional (`notional_bounds_execution`). The absolute value of an execution is
not bounded so, as an ask may sell above its price.
-/

namespace AliceLedger

open OrderBook (mem_crossing sound_run)

/-! ## The value of a list of fills -/

/-- The quantities of a list of fills, weighted by their prices. -/
def valued (weight : ℤ → ℤ) (fills : List Fill) : ℤ :=
  (fills.map fun f => weight f.price.toInt * f.quantity.toNat).sum

/-- What an order of a side gives for one lot at a price: a bid pays it, an ask receives it. -/
def costAt : Side → ℤ → ℤ
  | .bid, price => price
  | .ask, price => -price

theorem valued_le {weight : ℤ → ℤ} {bound : ℤ} {fills : List Fill}
    (h : ∀ f ∈ fills, weight f.price.toInt ≤ bound) :
    valued weight fills ≤ bound * traded fills := by
  induction fills with
  | nil => simp [valued]
  | cons f fills ih =>
    have hhead := mul_le_mul_of_nonneg_right (h f List.mem_cons_self)
      (Int.natCast_nonneg f.quantity.toNat)
    have htail := ih fun f hf => h f (List.mem_cons_of_mem _ hf)
    unfold valued at htail ⊢
    rw [List.map_cons, List.sum_cons, traded_cons, Nat.cast_add, mul_add]
    exact add_le_add hhead htail

/-! ## The fills of an insertion -/

variable {book : OrderBook} {order : Order}

/-- A price that an order accepts costs it at most its own. -/
theorem costAt_le_of_crosses {maker : Order} (htype : order.orderType ≠ .market)
    (h : Crosses order maker) :
    costAt order.side maker.price.toInt ≤ costAt order.side order.price.toInt := by
  have hprice := h.resolve_left htype
  cases hs : order.side with
  | bid =>
    rw [hs] at hprice
    exact Int64.le_iff_toInt_le.mp hprice
  | ask =>
    rw [hs] at hprice
    exact neg_le_neg (Int64.le_iff_toInt_le.mp hprice)

theorem costAt_le_abs (side : Side) (price : ℤ) : costAt side price ≤ |price| := by
  cases side with
  | bid => exact le_abs_self price
  | ask => exact neg_le_abs price

namespace OrderBook.Sound

/-- Every fill is at the price of an order that the incoming one crosses. -/
theorem exists_maker_of_mem_fills (h : book.Sound) {nowNs : UInt64} {f : Fill}
    (hf : f ∈ (book.insertWithTime order nowNs).2) :
    ∃ maker ∈ book.crossing order, f.price = maker.price := by
  obtain ⟨i, hi, rfl⟩ := List.getElem_of_mem hf
  obtain ⟨maker, hget, htrade⟩ := h.fills_get i _ (List.getElem?_eq_getElem hi)
  exact ⟨maker, List.mem_of_getElem? hget, htrade.price_eq⟩

/-- An insertion trades at most the quantity of the order. -/
theorem traded_insertWithTime_le (h : book.Sound) (order : Order) (nowNs : UInt64) :
    traded (book.insertWithTime order nowNs).2 ≤ order.quantity.toNat := by
  rw [h.fills_insertWithTime]
  split_ifs
  · exact Nat.zero_le _
  · cases hfilled : order.isFilled with
    | true =>
      rw [sweep_of_filled hfilled]
      exact Nat.zero_le _
    | false =>
      have hremaining := Order.toNat_remaining_of_not_isFilled hfilled
      rw [traded_sweep hfilled (h.allOpen_crossing order)]
      omega

end OrderBook.Sound

/-! ## The cap -/

namespace RiskManager

/-- The notional of an order that passes enabled limits is within the cap. -/
theorem notional_le_of_passed {rm : RiskManager} {pos : Int64} (hen : rm.limits.enabled = true)
    (hpass : rm.checkOrder order pos = .passed) :
    |order.price.toInt| * order.quantity.toNat ≤ rm.limits.maxNotional := by
  have hfits := ((checkOrder_eq_passed_iff hen).mp hpass).1.2.2.1
  rwa [Order.notional, abs_mul, Nat.abs_cast] at hfits

/-- **The cap bounds what an order with a price gives.** On every reachable book the quantity that
a passed order trades, at the order's own price, is within the cap; so is what a bid pays and what
an ask gives up, which is at most that; and so is the absolute value of the fills when no resting
order that it crosses has a price of larger absolute value. -/
theorem notional_bounds_execution (ops : List BookOp) (rm : RiskManager) (order : Order)
    (pos : Int64) (nowNs : UInt64) (hen : rm.limits.enabled = true)
    (htype : order.orderType ≠ .market) (hpass : rm.checkOrder order pos = .passed) :
    let book := ops.foldl OrderBook.step .new
    let fills := (book.insertWithTime order nowNs).2
    |order.price.toInt| * traded fills ≤ rm.limits.maxNotional ∧
      valued (costAt order.side) fills ≤ costAt order.side order.price.toInt * traded fills ∧
      valued (costAt order.side) fills ≤ rm.limits.maxNotional ∧
      ((∀ maker ∈ book.crossing order, |maker.price.toInt| ≤ |order.price.toInt|) →
        valued (|·|) fills ≤ rm.limits.maxNotional) := by
  intro book fills
  have hsound : book.Sound := sound_run ops
  have hquantity : (traded fills : ℤ) ≤ order.quantity.toNat :=
    Int.ofNat_le.mpr (hsound.traded_insertWithTime_le order nowNs)
  have hcap : |order.price.toInt| * traded fills ≤ rm.limits.maxNotional :=
    (mul_le_mul_of_nonneg_left hquantity (abs_nonneg _)).trans (notional_le_of_passed hen hpass)
  have hcost : valued (costAt order.side) fills ≤
      costAt order.side order.price.toInt * traded fills := by
    refine valued_le fun f hf => ?_
    obtain ⟨maker, hmaker, hprice⟩ := hsound.exists_maker_of_mem_fills hf
    rw [hprice]
    exact costAt_le_of_crosses htype (mem_crossing.mp hmaker).2
  have habs := mul_le_mul_of_nonneg_right (costAt_le_abs order.side order.price.toInt)
    (Int.natCast_nonneg (traded fills))
  refine ⟨hcap, hcost, (hcost.trans habs).trans hcap, fun hmakers => ?_⟩
  refine le_trans (valued_le fun f hf => ?_) hcap
  obtain ⟨maker, hmaker, hprice⟩ := hsound.exists_maker_of_mem_fills hf
  rw [hprice]
  exact hmakers maker hmaker

/-- The defaults with a cap of 1000. -/
def capThousand : RiskManager := .new { RiskLimits.default with maxNotional := 1000 }

/-- An ask for 1 sells 100 lots to a bid at 100, for ten times the cap. -/
theorem ask_executes_above_cap : ¬ ∀ (rm : RiskManager) (order : Order) (pos : Int64)
    (ops : List BookOp), rm.limits.enabled = true → rm.checkOrder order pos = .passed →
      valued (|·|) ((ops.foldl OrderBook.step .new).insert order).2 ≤ rm.limits.maxNotional :=
  fun h => absurd (h capThousand (.limit 2 .ask 1 100 1) 0 [.insert (.limit 1 .bid 100 100 0)] rfl
    (by decide)) (by decide)

/-- A bid at 5 buys 100 lots from an ask at 3. -/
theorem notional_bounds_execution_bid :
    let fills := (([BookOp.insert (.limit 1 .ask 3 100 0)].foldl OrderBook.step
      .new).insertWithTime (.limit 2 .bid 5 100 1) 0).2
    valued (costAt .bid) fills = 300 ∧ valued (costAt .bid) fills ≤ 1000 :=
  ⟨by decide, (notional_bounds_execution [.insert (.limit 1 .ask 3 100 0)] capThousand
    (.limit 2 .bid 5 100 1) 0 0 rfl (by decide) (by decide)).2.2.1⟩

end RiskManager

end AliceLedger
