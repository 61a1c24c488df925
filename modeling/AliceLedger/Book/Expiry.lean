import AliceLedger.Book.Queue

/-!
# Expired orders on the book

An incoming GTD order is checked against the clock; a resting one leaves the book only in the
housekeeping purge, and the matching loops read no clock. So an order that has expired still trades
when its turn comes: an insertion keeps off every expired maker exactly when the order is itself
expired or killed, or the liquidity ahead of each expired order it crosses fills it
(`trades_no_expired_iff`).
-/

namespace AliceLedger

/-- A GTD order whose expiry has come. -/
def ExpiredBy (nowNs : UInt64) (o : Order) : Prop :=
  match o.timeInForce with
  | .gtd expiryNs => expiryNs ≤ nowNs
  | _ => False

instance (nowNs : UInt64) (o : Order) : Decidable (ExpiredBy nowNs o) := by
  delta ExpiredBy
  exact match o.timeInForce with
    | .gtd _ => inferInstanceAs (Decidable (_ ≤ _))
    | .gtc | .ioc | .fok => inferInstanceAs (Decidable False)

namespace OrderBook

variable {book : OrderBook} {order : Order} {nowNs : UInt64}

/-- No fill of the insertion is a trade with an expired order. The `i`-th fill trades with the
`i`-th order that the incoming one crosses. -/
def TradesNoExpired (book : OrderBook) (order : Order) (nowNs : UInt64) : Prop :=
  ∀ (i : ℕ) (f : Fill) (maker : Order), (book.insertWithTime order nowNs).2[i]? = some f →
    (book.crossing order)[i]? = some maker → ¬ ExpiredBy nowNs maker

/-- Each expired order that the incoming one crosses has enough liquidity ahead of it to fill the
incoming one. -/
def ExpiredOutOfReach (book : OrderBook) (order : Order) (nowNs : UInt64) : Prop :=
  ∀ (i : ℕ) (maker : Order), (book.crossing order)[i]? = some maker → ExpiredBy nowNs maker →
    order.openQuantity ≤ liquidity ((book.crossing order).take i)

theorem Sound.tradesNoExpired_iff (h : book.Sound) (order : Order) (nowNs : UInt64) :
    book.TradesNoExpired order nowNs ↔
      isExpired order nowNs = true ∨ book.Kills order ∨ book.ExpiredOutOfReach order nowNs := by
  have hreached := lt_length_fills_sweep order (h.allOpen_crossing order)
  unfold TradesNoExpired
  rw [h.fills_insertWithTime]
  by_cases hno : isExpired order nowNs = true ∨ book.Kills order
  · rw [if_pos hno, ← or_assoc]
    exact iff_of_true (fun i f maker hf => absurd hf (by simp)) (.inl hno)
  · rw [if_neg hno, ← or_assoc, or_iff_right hno]
    constructor
    · intro htrades i maker hget hexpired
      by_contra hlt
      have hi : i < (sweep order (book.crossing order)).fills.length :=
        (hreached i).mpr ⟨(List.getElem?_eq_some_iff.mp hget).1, Nat.lt_of_not_le hlt⟩
      exact htrades i _ maker (List.getElem?_eq_getElem hi) hget hexpired
    · intro hreach i f maker hf hget hexpired
      have hlt := ((hreached i).mp (List.getElem?_eq_some_iff.mp hf).1).2
      have hle := hreach i maker hget hexpired
      omega

/-- **When expired orders do not trade.** After any run, the `i`-th fill of an insertion is a trade
with the `i`-th resting order that it crosses; and none of them has expired if and only if the
order is itself expired or killed, or each expired order that it crosses has enough liquidity ahead
of it to fill the incoming one. -/
theorem trades_no_expired_iff (ops : List BookOp) (order : Order) (nowNs : UInt64) :
    let book := ops.foldl step new
    (∀ (i : ℕ) (f : Fill), (book.insertWithTime order nowNs).2[i]? = some f →
      ∃ maker, (book.crossing order)[i]? = some maker ∧ TradeWith order maker f) ∧
    (book.TradesNoExpired order nowNs ↔
      isExpired order nowNs = true ∨ book.Kills order ∨ book.ExpiredOutOfReach order nowNs) := by
  intro book
  have hsound : book.Sound := sound_run ops
  exact ⟨fun i f hf => hsound.fills_get i f hf, hsound.tradesNoExpired_iff order nowNs⟩

/-- An ask good till 100 rests, and a bid at time 200 trades with it. -/
theorem expired_ask_trades :
    ¬ ([BookOp.insertWithTime { Order.limit 1 .ask 10 5 0 with timeInForce := .gtd 100 } 50].foldl
      step new).TradesNoExpired (.limit 2 .bid 10 5 200) 200 := fun h =>
  h 0 ⟨⟨1⟩, ⟨2⟩, 10, 5, 200⟩ { Order.limit 1 .ask 10 5 0 with timeInForce := .gtd 100 }
    (by decide) (by decide) (by decide)

end OrderBook

end AliceLedger
