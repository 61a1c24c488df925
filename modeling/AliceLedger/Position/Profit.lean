import AliceLedger.Position.Exact

/-!
# Profit accounting

The realized profit of a position less the cost of what it still holds, `Account.value`, changes
with every call by the cash that moved and by the remainder that the average of an addition
truncates away (`value_step`). So on a flat position the realized profit is the cash flow of the
run and the remainders of its additions (`realized_eq_cash_add_remainders`): exactly the cash flow
when these cancel, in particular when every average is a whole number of ticks.
-/

namespace AliceLedger

/-- The cash that a call moves: a purchase pays and a sale receives price times quantity. -/
def cashFlow : PositionOp → ℤ
  | .applyFill fill .bid => -(fill.price.toInt * fill.quantity.toNat)
  | .applyFill fill .ask => fill.price.toInt * fill.quantity.toNat
  | .markToMarket _ => 0

/-- The cash flow of a run. -/
def cash (ops : List PositionOp) : ℤ := (ops.map cashFlow).sum

theorem cashFlow_applyFill (fill : Fill) (side : Side) :
    cashFlow (.applyFill fill side) = -(signedQuantity fill side * fill.price.toInt) := by
  cases side <;> simp only [cashFlow, signedQuantity] <;> ring

namespace Account

/-- Realized profit less the cost of the open position. -/
def value (a : Account) : ℤ := a.realized - a.net * a.avg

/-- What the average of an addition truncates away. -/
def remainder (a : Account) : PositionOp → ℤ
  | .applyFill fill side =>
    let qty := signedQuantity fill side
    if Adds a.net qty then (a.cost qty fill.price.toInt).tmod (a.net + qty) else 0
  | .markToMarket _ => 0

/-- An addition whose average is a whole number of ticks. -/
def DividesEvenly (a : Account) : PositionOp → Prop
  | .applyFill fill side =>
    let qty := signedQuantity fill side
    Adds a.net qty → a.net + qty ∣ a.cost qty fill.price.toInt
  | .markToMarket _ => True

instance (a : Account) : ∀ op, Decidable (a.DividesEvenly op)
  | .applyFill _ _ => inferInstanceAs (Decidable (_ → _))
  | .markToMarket _ => inferInstanceAs (Decidable True)

/-- The remainders of the additions of a run, added up. -/
def remainders : Account → List PositionOp → ℤ
  | _, [] => 0
  | a, op :: ops => a.remainder op + remainders (a.step op) ops

variable {a : Account}

theorem remainder_eq_zero {op : PositionOp} (h : a.DividesEvenly op) : a.remainder op = 0 := by
  cases op with
  | applyFill fill side =>
    simp only [remainder]
    split_ifs with hadds
    · exact Int.tmod_eq_zero_of_dvd (h hadds)
    · rfl
  | markToMarket currentPrice => rfl

theorem remainders_eq_zero {ops : List PositionOp} (h : Run.Along step DividesEvenly a ops) :
    remainders a ops = 0 := by
  induction ops generalizing a with
  | nil => rfl
  | cons op ops ih => rw [remainders, remainder_eq_zero h.1, ih h.2, zero_add]

/-- A trade changes the value by its cash flow, but for the truncated part of an addition. -/
theorem value_trade (a : Account) (qty price : ℤ) :
    (a.trade qty price).value = a.value - qty * price +
      if Adds a.net qty then (a.cost qty price).tmod (a.net + qty) else 0 := by
  rcases a.trade_cases qty price with ⟨hnet, h⟩ | ⟨-, hadds, h⟩ | ⟨hnet, hsum, h⟩ | ⟨hflips, h⟩ |
    ⟨-, hadds, -, -, h⟩
  · rw [if_neg (by unfold Adds; omega), h]
    simp only [value, hnet]
    ring
  · have hdiv := Int.mul_tdiv_add_tmod (a.cost qty price) (a.net + qty)
    rw [if_pos hadds, h]
    unfold cost at hdiv ⊢
    simp only [value]
    linarith
  · rw [if_neg (by unfold Adds; omega), h]
    have hqty : qty = -a.net := by omega
    simp only [value, hqty]
    ring
  · rw [if_neg (by unfold Adds Flips at *; omega), h]
    simp only [value]
    ring
  · rw [if_neg hadds, h]
    simp only [value]
    ring

/-- **What a call does to the value.** -/
theorem value_step (a : Account) (op : PositionOp) :
    (a.step op).value = a.value + cashFlow op + a.remainder op := by
  cases op with
  | applyFill fill side =>
    rw [cashFlow_applyFill, step, value_trade]
    simp only [remainder]
    ring
  | markToMarket currentPrice => simp [step, mark, value, cashFlow, remainder]

/-- **What a run does to the value.** -/
theorem value_foldl (a : Account) (ops : List PositionOp) :
    (ops.foldl step a).value = a.value + cash ops + remainders a ops := by
  induction ops generalizing a with
  | nil => simp [cash, remainders]
  | cons op ops ih =>
    rw [List.foldl_cons, ih, value_step, remainders]
    simp only [cash, List.map_cons, List.sum_cons]
    ring

end Account

namespace PositionTracker

open Account

/-- **What a flat position has realized.** After every run of calls on one symbol whose exact values
fit, the realized profit of a flat position is the cash flow of the run and the remainders that the
averages of its additions truncate away. So it is the cash flow exactly when these remainders
cancel, and in particular when every addition divides evenly. -/
theorem realized_eq_cash_add_remainders (symbolHash : UInt64) (ops : List PositionOp)
    (h : Run.Along Account.step Fits flat ops) :
    ∃ t, ops.foldlM (PositionTracker.step symbolHash) new = some t ∧
      ∀ pos, t.get symbolHash = some pos → pos.netQuantity = 0 →
        pos.realizedPnl.toInt = cash ops + remainders flat ops ∧
          (pos.realizedPnl.toInt = cash ops ↔ remainders flat ops = 0) ∧
          (Run.Along Account.step DividesEvenly flat ops → pos.realizedPnl.toInt = cash ops) := by
  rw [← account_new symbolHash] at h
  obtain ⟨t, hrun, haccount⟩ := account_run h
  refine ⟨t, hrun, fun pos hpos hflat => ?_⟩
  have hvalue := value_foldl flat ops
  rw [account_new symbolHash] at haccount
  rw [← haccount, PositionTracker.account, hpos, Option.getD_some] at hvalue
  have hnet : pos.account.net = 0 := Int64.toInt_eq_zero.mpr hflat
  have hrealized : pos.realizedPnl.toInt = cash ops + remainders flat ops := by
    rw [show flat.value = 0 from rfl, zero_add, value, hnet, zero_mul, sub_zero] at hvalue
    exact hvalue
  refine ⟨hrealized, ?_, fun heven => ?_⟩
  · rw [hrealized]
    omega
  · rw [hrealized, remainders_eq_zero heven, add_zero]

/-- Buying 1 at 10 and 2 at 11 costs 32, a third of which truncates to 10 and leaves 2 out: selling
3 at 11 realizes 3, and the cash flow is 1. -/
theorem realized_eq_cash_add_remainders_third :
    let ops : List PositionOp := [.applyFill ⟨⟨1⟩, ⟨2⟩, 10, 1, 0⟩ .bid,
      .applyFill ⟨⟨3⟩, ⟨4⟩, 11, 2, 1⟩ .bid, .applyFill ⟨⟨5⟩, ⟨6⟩, 11, 3, 2⟩ .ask]
    ∃ t, ops.foldlM (PositionTracker.step 7) new = some t ∧
      ∀ pos, t.get 7 = some pos → pos.netQuantity = 0 →
        pos.realizedPnl.toInt = cash ops + remainders flat ops ∧
          (pos.realizedPnl.toInt = cash ops ↔ remainders flat ops = 0) ∧
          (Run.Along Account.step DividesEvenly flat ops → pos.realizedPnl.toInt = cash ops) :=
  realized_eq_cash_add_remainders 7 [.applyFill ⟨⟨1⟩, ⟨2⟩, 10, 1, 0⟩ .bid,
    .applyFill ⟨⟨3⟩, ⟨4⟩, 11, 2, 1⟩ .bid, .applyFill ⟨⟨5⟩, ⟨6⟩, 11, 3, 2⟩ .ask]
    ⟨by decide, by decide, by decide, trivial⟩

/-- **A truncated average makes profit up.** Buying 1 at 10 and 2 at 11 costs 32, and selling 3 at
11 brings 33, but the average truncates to 10 and 3 are realized. -/
theorem truncated_average_realizes_too_much :
    let ops : List PositionOp := [.applyFill ⟨⟨1⟩, ⟨2⟩, 10, 1, 0⟩ .bid,
      .applyFill ⟨⟨3⟩, ⟨4⟩, 11, 2, 1⟩ .bid, .applyFill ⟨⟨5⟩, ⟨6⟩, 11, 3, 2⟩ .ask]
    Run.Along Account.step Fits flat ops ∧
      ∃ t pos, ops.foldlM (PositionTracker.step 7) new = some t ∧ t.get 7 = some pos ∧
        pos.netQuantity = 0 ∧ pos.realizedPnl.toInt = 3 ∧ cash ops = 1 :=
  ⟨⟨by decide, by decide, by decide, trivial⟩, _, ⟨7, 0, 0, 3, 0, 3⟩, rfl, by decide, by decide,
    by decide, by decide⟩

end PositionTracker

end AliceLedger
