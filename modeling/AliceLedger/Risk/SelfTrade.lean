import AliceLedger.Book.Quiet
import AliceLedger.Risk.Verdicts

/-!
# Self-trade prevention

The validator compares the price fields of the orders of a batch; the book ignores the price of a
market order. The accepted orders that are not market orders cross none of the accepted orders
before them (`quietAgainst_of_ne_market`), so a batch trades with itself only through its market
orders: it does not exactly when each of them is filled already, finds no resting order of the other
side before it, or is killed (`no_self_trade_iff`).

The running best prices also count orders that the risk check rejects, so an order may be rejected
as a self-trade with none of the accepted orders. A new, nonempty order is so rejected exactly when
it crosses an order that came to the risk check, whatever the check said (`self_trade_iff`).
-/

namespace AliceLedger

open OrderBook (QuietAgainst)

/-- Resting orders that an order crosses at the book conflict with it at the validator, unless it
is a market order. -/
theorem conflicts_of_crosses {order maker : Order} (hside : maker.side = order.side.opposite)
    (hcross : Crosses order maker) (htype : order.orderType ≠ .market) : Conflicts order maker := by
  have hprice := hcross.resolve_left htype
  unfold Conflicts
  cases hs : order.side with
  | bid =>
    rw [hs] at hside hprice
    rw [hside]
    exact hprice
  | ask =>
    rw [hs] at hside hprice
    rw [hside]
    exact hprice

/-- An order that is not a market order and conflicts with none of the orders before it trades with
none of them. -/
theorem quietAgainst_of_ne_market {pre : List Order} {order : Order}
    (hno : ∀ maker ∈ pre, ¬ Conflicts order maker) (htype : order.orderType ≠ .market) :
    QuietAgainst pre order := by
  refine .inr (.inl (List.filter_eq_nil_iff.mpr fun maker hmem => ?_))
  rw [decide_eq_true_eq]
  rintro ⟨hside, hcross⟩
  exact hno maker (List.mem_of_mem_filter hmem) (conflicts_of_crosses hside hcross htype)

namespace BulkValidator

variable {v : BulkValidator} {orders : List Order} {rm : RiskManager} {pos : Int64}

/-- The accepted orders of a batch. An id stands for the first order of the batch with it. -/
def acceptedOrders (v : BulkValidator) (orders : List Order) (rm : RiskManager) (pos : Int64) :
    List Order :=
  (v.validate orders rm pos).accepted.filterMap fun id => orders.find? fun o => o.id = id

/-- **The accepted orders are the offered orders that pass the risk check in turn.** -/
theorem acceptedOrders_eq (v : BulkValidator) (orders : List Order) (rm : RiskManager)
    (pos : Int64) : v.acceptedOrders orders rm pos =
      rm.passing pos (offered v.selfTradePrevention orders) := by
  have hfind : ∀ o ∈ rm.passing pos (offered v.selfTradePrevention orders),
      orders.find? (fun o' => o'.id = o.id) = some o := fun o ho =>
    (find?_of_mem_offeredAfter ((rm.passing_sublist pos _).subset ho)).1
  rw [acceptedOrders, accepted_validate, List.filterMap_map]
  refine (List.filterMap_congr hfind).trans ?_
  exact List.filterMap_some

/-- **When self-trade prevention prevents self-trades.** The accepted orders are the offered orders
that pass the risk check in turn. Inserted one after another into an empty book they trade nothing
if and only if every market order among them is quiet against those before it: filled already,
without a resting order of the other side, or a FOK order that they do not cover. -/
theorem no_self_trade_iff (hstp : v.selfTradePrevention = true) (orders : List Order)
    (rm : RiskManager) (pos : Int64) :
    (OrderBook.new.insertAll (v.acceptedOrders orders rm pos)).2 = [] ↔
      ∀ pre order post, rm.passing pos (offered true orders) = pre ++ order :: post →
        order.orderType = .market → QuietAgainst pre order := by
  rw [OrderBook.fills_insertAll_eq_nil_iff, acceptedOrders_eq, hstp]
  have hpairwise : (rm.passing pos (offered true orders)).Pairwise fun maker order =>
      ¬ Conflicts order maker :=
    (offeredAfter_pairwise [] [] orders).sublist (rm.passing_sublist pos _)
  refine forall_congr' fun pre => forall_congr' fun order => forall_congr' fun post =>
    forall_congr' fun heq => ⟨fun hq _ => hq, fun hmarket => ?_⟩
  by_cases htype : order.orderType = .market
  · exact hmarket htype
  · refine quietAgainst_of_ne_market (fun maker hmem => ?_) htype
    rw [heq, List.pairwise_append] at hpairwise
    exact hpairwise.2.2 maker hmem order List.mem_cons_self

/-- A resting ask. -/
def askAtHundred : Order := .limit 1 .ask 100 5 0

/-- A market bid, with no price in its price field. -/
def marketBid : Order := { Order.limit 2 .bid 0 5 1 with orderType := .market }

/-- The two orders pass the default validator and trade with each other. -/
theorem market_bid_self_trades : ¬ ∀ (v : BulkValidator) (orders : List Order) (rm : RiskManager)
    (pos : Int64), v.selfTradePrevention = true →
      (OrderBook.new.insertAll (v.acceptedOrders orders rm pos)).2 = [] := fun h =>
  absurd (h .default [askAtHundred, marketBid] .withDefaults 0 rfl) (by decide)

/-- A market bid that comes before the ask trades nothing. -/
theorem no_self_trade_iff_market_first : (OrderBook.new.insertAll
    (BulkValidator.default.acceptedOrders [marketBid, askAtHundred] .withDefaults 0)).2 = [] := by
  refine (no_self_trade_iff rfl _ _ _).mpr fun pre order post heq hmarket => ?_
  have hbatch : RiskManager.passing .withDefaults 0 (offered true [marketBid, askAtHundred]) =
      [marketBid, askAtHundred] := by decide
  rw [hbatch] at heq
  cases pre with
  | nil =>
    obtain ⟨rfl, -⟩ := List.cons.inj heq
    decide
  | cons o pre =>
    obtain ⟨-, htail⟩ := List.cons.inj heq
    have hmem : order ∈ [askAtHundred] := by rw [htail]; simp
    rw [List.mem_singleton.mp hmem] at hmarket
    exact absurd hmarket (by decide)

/-! ## Rejections as self-trades -/

/-- Every order that is rejected as a self-trade conflicts with an order accepted before it. -/
def SelfTradesJustified (v : BulkValidator) (orders : List Order) (rm : RiskManager)
    (pos : Int64) : Prop :=
  ∀ pre order post, v.verdicts orders rm pos = pre ++ (order, some .selfTrade) :: post →
    ∃ maker ∈ acceptedOf pre, Conflicts order maker

/-- **What is rejected as a self-trade**: under self-trade prevention, the orders that are the first
of the batch with their id, are not empty and cross an order of the other side that came to the risk
check before them, to be accepted or rejected there. So where the check rejects nothing, every order
rejected as a self-trade crosses an accepted one. -/
theorem self_trade_iff (hstp : v.selfTradePrevention = true) (orders : List Order)
    (rm : RiskManager) (pos : Int64) :
    (∀ pre order verdict post, v.verdicts orders rm pos = pre ++ (order, verdict) :: post →
      (verdict = some .selfTrade ↔ order.id ∉ pre.map (fun e => e.1.id) ∧ order.quantity ≠ 0 ∧
        ∃ e ∈ pre, riskChecked e.2 = true ∧ Conflicts order e.1)) ∧
      ((∀ e ∈ v.verdicts orders rm pos, ∀ text, e.2 ≠ some (.riskCheck text)) →
        v.SelfTradesJustified orders rm pos) := by
  refine ⟨fun pre order verdict post => selfTrade_iff_checked hstp, ?_⟩
  intro hpasses pre order post hvs
  obtain ⟨-, -, ⟨maker, verdict⟩, he, hchecked, hconflict⟩ :=
    (selfTrade_iff_checked hstp hvs).mp rfl
  refine ⟨maker, mem_acceptedOf_iff.mpr ?_, hconflict⟩
  rcases eq_none_or_of_riskChecked hchecked with rfl | ⟨text, rfl⟩
  · exact he
  · have hmem : (maker, some (.riskCheck text)) ∈ v.verdicts orders rm pos := by
      rw [hvs]
      exact List.mem_append_left _ he
    exact absurd rfl (hpasses _ hmem text)

/-- A bid too large for the default limits, and an ask at its price. -/
def shadowedBatch : List Order := [.limit 1 .bid 100 2000000 0, .limit 2 .ask 100 5 1]

/-- The bid is rejected by the risk check, and the ask as a self-trade with it. -/
theorem shadowed_ask_rejected : ¬ ∀ (v : BulkValidator) (orders : List Order) (rm : RiskManager)
    (pos : Int64), v.selfTradePrevention = true → v.SelfTradesJustified orders rm pos := by
  intro h
  have hverdicts : ∃ reason, BulkValidator.default.verdicts shadowedBatch .withDefaults 0 =
      [(.limit 1 .bid 100 2000000 0, some (.riskCheck reason))] ++
        (.limit 2 .ask 100 5 1, some .selfTrade) :: [] := ⟨_, rfl⟩
  obtain ⟨reason, hverdicts⟩ := hverdicts
  obtain ⟨maker, hmaker, -⟩ := h .default shadowedBatch .withDefaults 0 rfl _ _ _ hverdicts
  exact absurd hmaker (by simp [acceptedOf])

/-- A bid is rejected as a self-trade with an accepted ask, and the ask of the other batch with a
bid that the risk check rejects. -/
theorem self_trade_iff_crossing :
    BulkValidator.default.SelfTradesJustified [askAtHundred, .limit 2 .bid 101 5 1]
        .withDefaults 0 ∧
      ∀ pre order verdict post, BulkValidator.default.verdicts shadowedBatch .withDefaults 0 =
          pre ++ (order, verdict) :: post →
        (verdict = some .selfTrade ↔ order.id ∉ pre.map (fun e => e.1.id) ∧ order.quantity ≠ 0 ∧
          ∃ e ∈ pre, riskChecked e.2 = true ∧ Conflicts order e.1) := by
  refine ⟨(self_trade_iff rfl _ _ _).2 ?_, (self_trade_iff rfl shadowedBatch .withDefaults 0).1⟩
  have hverdicts : BulkValidator.default.verdicts [askAtHundred, .limit 2 .bid 101 5 1]
      .withDefaults 0 = [(askAtHundred, none), (.limit 2 .bid 101 5 1, some .selfTrade)] := by
    decide
  rw [hverdicts]
  simp

end BulkValidator

end AliceLedger
