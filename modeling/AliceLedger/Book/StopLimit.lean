import AliceLedger.Book.PostOnly
import AliceLedger.Lib.Run

/-!
# Stop-limit orders

A stop-limit order should wait until its stop price is touched. The matching code takes it for a
limit order at once and never reads the stop price, so an untouched one trades whenever a limit
order would: it stays quiet exactly when its limit price does not reach the best opposite price, or
it could not trade anyway (`stop_limit_waits_iff`).
-/

namespace AliceLedger

namespace OrderBook

variable {book : OrderBook} {order : Order}

/-- The fills that an operation emits. -/
def emitted (book : OrderBook) : BookOp → List Fill
  | .insert order => (book.insert order).2
  | .insertWithTime order nowNs => (book.insertWithTime order nowNs).2
  | _ => []

/-- The fills of a run from the empty book. -/
def fillsOf (ops : List BookOp) : List Fill :=
  (Run.trace (fun book op => (book.step op, book.emitted op)) new ops).flatMap Prod.snd

/-- Neither a fill of the run nor the best opposite price has touched the stop price. -/
def Untouched (ops : List BookOp) (side : Side) (stopPrice : Int64) : Prop :=
  match side with
  | .bid => (∀ fill ∈ fillsOf ops, fill.price < stopPrice) ∧
    ∀ ask ∈ (ops.foldl step new).bestAsk, ask < stopPrice
  | .ask => (∀ fill ∈ fillsOf ops, stopPrice < fill.price) ∧
    ∀ bid ∈ (ops.foldl step new).bestBid, stopPrice < bid

-- decided at the best price of the book, not over all prices
instance (ops : List BookOp) (side : Side) (stopPrice : Int64) :
    Decidable (Untouched ops side stopPrice) :=
  match side with
  | .bid => @instDecidableAnd _ _ inferInstance
      (@Option.decidableForallMem _ _ (fun _ => inferInstance) _)
  | .ask => @instDecidableAnd _ _ inferInstance
      (@Option.decidableForallMem _ _ (fun _ => inferInstance) _)

/-- The limit price does not reach the best opposite price. -/
def OutOfReach (book : OrderBook) (order : Order) : Prop :=
  match order.side with
  | .bid => ∀ ask ∈ book.bestAsk, order.price < ask
  | .ask => ∀ bid ∈ book.bestBid, bid < order.price

instance (book : OrderBook) (order : Order) : Decidable (book.OutOfReach order) := by
  delta OutOfReach
  exact match order.side with
    | .bid => @Option.decidableForallMem _ _ (fun _ => inferInstance) _
    | .ask => @Option.decidableForallMem _ _ (fun _ => inferInstance) _

theorem Sound.outOfReach_iff (h : book.Sound) (htype : order.orderType ≠ .market) :
    book.OutOfReach order ↔ book.crossing order = [] := by
  unfold OutOfReach
  rcases order.side_eq_bid_or_ask with hs | hs
  · rw [hs, ← not_iff_not, ← ne_eq, ← h.any_bestAsk_iff hs htype, Option.any_eq_true]
    simp only [decide_eq_true_eq, ge_iff_le, not_forall, not_lt, exists_prop, Option.mem_def]
  · rw [hs, ← not_iff_not, ← ne_eq, ← h.any_bestBid_iff hs htype, Option.any_eq_true]
    simp only [decide_eq_true_eq, not_forall, not_lt, exists_prop, Option.mem_def]

/-- **When an untouched stop-limit order waits.** After every run, the insertion of a stop-limit
order whose stop price the run has not touched produces no fill if and only if the order has
expired or is filled already, its limit price does not reach the best opposite price, or it is a FOK
order that the cached totals do not cover. -/
theorem stop_limit_waits_iff (ops : List BookOp) (order : Order) (nowNs : UInt64)
    (stopPrice : Int64) (htype : order.orderType = .stopLimit stopPrice) :
    let book := ops.foldl step new
    (Untouched ops order.side stopPrice → (book.insertWithTime order nowNs).2 = []) ↔
      (Untouched ops order.side stopPrice →
        isExpired order nowNs = true ∨ order.isFilled = true ∨ book.OutOfReach order ∨
          book.Kills order) := by
  intro book
  have hsound : book.Sound := sound_run ops
  have hmarket : order.orderType ≠ .market := by simp [htype]
  refine imp_congr_right fun _ => ?_
  rw [hsound.fills_insertWithTime_eq_nil_iff, hsound.outOfReach_iff hmarket]
  rfl

/-- A bid with a stop at 200 and a limit at 100. -/
def stopBid : Order := { Order.limit 2 .bid 100 5 1 with orderType := .stopLimit 200 }

/-- It trades at once with an ask at 100. -/
theorem untouched_stop_trades : ¬ ∀ (ops : List BookOp) (order : Order) (nowNs : UInt64)
    (stopPrice : Int64), order.orderType = .stopLimit stopPrice →
      Untouched ops order.side stopPrice →
        ((ops.foldl step new).insertWithTime order nowNs).2 = [] := fun h =>
  absurd (h [.insert (.limit 1 .ask 100 5 0)] stopBid 0 200 rfl (by decide)) (by decide)

/-- It waits for one at 101. -/
theorem stop_limit_waits_iff_above :
    (([BookOp.insert (.limit 1 .ask 101 5 0)].foldl step new).insertWithTime stopBid 0).2 = [] :=
  (stop_limit_waits_iff [.insert (.limit 1 .ask 101 5 0)] stopBid 0 200 rfl).mpr
    (fun _ => .inr (.inr (.inl (by decide)))) (by decide)

end OrderBook

end AliceLedger
