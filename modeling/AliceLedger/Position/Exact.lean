import AliceLedger.Position.Fill
import AliceLedger.Lib.Run

/-!
# Exact accounts

An `Account` is a position over the integers: what `apply_fill` and `mark_to_market` do when no
operation wraps, saturates or truncates, except for the quotient of the average entry price, which
truncates toward zero by design of integer division. It has five kinds of trades
(`Account.trade_cases`): one that opens a flat position, adds to one, reduces, closes or flips it.

`Fits` says that the exact intermediate values of a call are in the range of `i64`. Under it the
code computes the account (`account_applyFill`, `account_markToMarket`), the average included: it
lies between the old average and the price, so neither the `i128` operations saturate nor the cast
of the quotient loses anything. Over runs this is `account_run`.
-/

namespace AliceLedger

/-- A position over the integers. -/
@[ext] structure Account where
  net : ℤ
  avg : ℤ
  realized : ℤ
  unrealized : ℤ
  deriving DecidableEq, Repr

/-- The exact signed quantity of a fill. -/
def signedQuantity (fill : Fill) (side : Side) : ℤ :=
  match side with
  | .bid => fill.quantity.toNat
  | .ask => -fill.quantity.toNat

namespace Account

/-- Nothing held, nothing earned. -/
def flat : Account := ⟨0, 0, 0, 0⟩

/-- A trade of `qty` lots is on the side of the net quantity `net`. -/
def Adds (net qty : ℤ) : Prop := (0 < net ∧ 0 < qty) ∨ (net < 0 ∧ qty < 0)

instance (net qty : ℤ) : Decidable (Adds net qty) := inferInstanceAs (Decidable (_ ∨ _))

/-- An addition grows the position, so its net quantity is not zero. -/
theorem Adds.net_ne_zero {net qty : ℤ} (h : Adds net qty) : net + qty ≠ 0 := by
  unfold Adds at h
  omega

/-- A trade of `qty` lots takes the net quantity `net` through zero. -/
def Flips (net qty : ℤ) : Prop := (0 < net ∧ net + qty < 0) ∨ (net < 0 ∧ 0 < net + qty)

instance (net qty : ℤ) : Decidable (Flips net qty) := inferInstanceAs (Decidable (_ ∨ _))

/-- The cost of the position after an addition: what the average divides. -/
def cost (a : Account) (qty price : ℤ) : ℤ := a.net * a.avg + qty * price

/-- A trade of `qty` lots, positive for a purchase. A trade against the position realizes the
difference between the price and the average on the lots it closes. -/
def trade (a : Account) (qty price : ℤ) : Account :=
  if a.net = 0 then { a with net := qty, avg := price }
  else if Adds a.net qty then
    { a with net := a.net + qty, avg := (a.cost qty price).tdiv (a.net + qty) }
  else if a.net + qty = 0 then
    ⟨0, 0, a.realized + a.net * (price - a.avg), 0⟩
  else if Flips a.net qty then
    { a with net := a.net + qty, avg := price, realized := a.realized + a.net * (price - a.avg) }
  else { a with net := a.net + qty, realized := a.realized - qty * (price - a.avg) }

/-- Revalue at a price. -/
def mark (a : Account) (price : ℤ) : Account :=
  { a with unrealized := a.net * (price - a.avg) }

/-- A call on the account. -/
def step (a : Account) : PositionOp → Account
  | .applyFill fill side => a.trade (signedQuantity fill side) fill.price.toInt
  | .markToMarket currentPrice => a.mark currentPrice.toInt

variable {a : Account} {qty price : ℤ}

/-- **What a trade does**, in the five cases of the position before it. -/
theorem trade_cases (a : Account) (qty price : ℤ) :
    (a.net = 0 ∧ a.trade qty price = { a with net := qty, avg := price }) ∨
    (a.net ≠ 0 ∧ Adds a.net qty ∧ a.trade qty price =
      { a with net := a.net + qty, avg := (a.cost qty price).tdiv (a.net + qty) }) ∨
    (a.net ≠ 0 ∧ a.net + qty = 0 ∧
      a.trade qty price = ⟨0, 0, a.realized + a.net * (price - a.avg), 0⟩) ∨
    (Flips a.net qty ∧ a.trade qty price =
      { a with
        net := a.net + qty, avg := price, realized := a.realized + a.net * (price - a.avg) }) ∨
    (a.net ≠ 0 ∧ ¬ Adds a.net qty ∧ a.net + qty ≠ 0 ∧ ¬ Flips a.net qty ∧ a.trade qty price =
      { a with net := a.net + qty, realized := a.realized - qty * (price - a.avg) }) := by
  unfold trade
  split_ifs with h1 h2 h3 h4
  · exact .inl ⟨h1, rfl⟩
  · exact .inr (.inl ⟨h1, h2, rfl⟩)
  · exact .inr (.inr (.inl ⟨h1, h3, rfl⟩))
  · exact .inr (.inr (.inr (.inl ⟨h4, rfl⟩)))
  · exact .inr (.inr (.inr (.inr ⟨h1, h2, h3, h4, rfl⟩)))

theorem net_trade (a : Account) (qty price : ℤ) : (a.trade qty price).net = a.net + qty := by
  rcases a.trade_cases qty price with ⟨hnet, h⟩ | ⟨-, -, h⟩ | ⟨-, hsum, h⟩ | ⟨-, h⟩ |
    ⟨-, -, -, -, h⟩
  · rw [h, hnet, zero_add]
  · rw [h]
  · rw [h, hsum]
  · rw [h]
  · rw [h]

/-- **The average of an addition** lies between integer bounds of the old average and the price. -/
theorem avg_mem_Icc (h : Adds a.net qty) {lo hi : ℤ} (havg : lo ≤ a.avg ∧ a.avg ≤ hi)
    (hprice : lo ≤ price ∧ price ≤ hi) :
    lo ≤ (a.cost qty price).tdiv (a.net + qty) ∧ (a.cost qty price).tdiv (a.net + qty) ≤ hi := by
  unfold cost
  rcases h with ⟨hnet, hqty⟩ | ⟨hnet, hqty⟩
  · apply tdiv_mem_Icc (by omega)
    · nlinarith
    · nlinarith
  · rw [← Int.neg_tdiv_neg]
    apply tdiv_mem_Icc (by omega)
    · nlinarith
    · nlinarith

/-- So the cast of the quotient to `i64` loses nothing. -/
theorem fits_avg (h : Adds a.net qty) (havg : FitsI64 a.avg) (hprice : FitsI64 price) :
    FitsI64 ((a.cost qty price).tdiv (a.net + qty)) := by
  unfold FitsI64 at *
  have hmem := avg_mem_Icc h (show -2 ^ 63 ≤ a.avg ∧ a.avg ≤ 2 ^ 63 - 1 by omega)
    (show -2 ^ 63 ≤ price ∧ price ≤ 2 ^ 63 - 1 by omega)
  omega

/-- The cost of an addition is in the range of `i128`, and so are its two products. -/
theorem satI128_cost (h : Adds a.net qty) (hnet : FitsI64 a.net) (hqty : FitsI64 qty)
    (hsum : FitsI64 (a.net + qty)) (havg : FitsI64 a.avg) (hprice : FitsI64 price) :
    satI128 (satI128 (a.net * a.avg) + satI128 (qty * price)) = a.cost qty price := by
  rw [satI128_mul hnet havg, satI128_mul hqty hprice]
  unfold FitsI64 at *
  have hcost : -(2 ^ 63 * 2 ^ 63) ≤ a.net * a.avg + qty * price ∧
      a.net * a.avg + qty * price ≤ 2 ^ 63 * 2 ^ 63 := by
    rcases h with ⟨hn, hq⟩ | ⟨hn, hq⟩
    · constructor
      · nlinarith
      · nlinarith
    · constructor
      · nlinarith
      · nlinarith
  unfold cost
  apply satI128_eq
  · omega
  · omega

/-! ## Calls whose exact values fit -/

/-- The profit on one lot closed at a price. -/
def perLot (a : Account) (price : ℤ) : ℤ := if 0 < a.net then price - a.avg else a.avg - price

/-- The lots that a trade against the position closes. -/
def closed (a : Account) (qty : ℤ) : ℤ := min a.net.natAbs qty.natAbs

/-- The quantity of a fill and the net quantity after it are in the range of `i64`. -/
def NetFits (a : Account) (fill : Fill) (side : Side) : Prop :=
  fill.quantity.toNat < 2 ^ 63 ∧ FitsI64 (a.net + signedQuantity fill side)

instance (a : Account) (fill : Fill) (side : Side) : Decidable (a.NetFits fill side) :=
  inferInstanceAs (Decidable (_ ∧ _))

/-- The exact intermediate values of a call are in the range of `i64`. -/
def Fits (a : Account) : PositionOp → Prop
  | .applyFill fill side =>
    fill.quantity.toNat < 2 ^ 63 ∧ FitsI64 (a.net + signedQuantity fill side) ∧
      (a.net ≠ 0 → ¬ Adds a.net (signedQuantity fill side) →
        FitsI64 (a.perLot fill.price.toInt) ∧
        FitsI64 (a.perLot fill.price.toInt * a.closed (signedQuantity fill side)) ∧
        FitsI64 (a.realized + a.perLot fill.price.toInt * a.closed (signedQuantity fill side)))
  | .markToMarket currentPrice =>
    a.net ≠ 0 → FitsI64 (currentPrice.toInt - a.avg) ∧
      FitsI64 (a.net * (currentPrice.toInt - a.avg))

instance (a : Account) : ∀ op, Decidable (a.Fits op)
  | .applyFill _ _ => inferInstanceAs (Decidable (_ ∧ _ ∧ _))
  | .markToMarket _ => inferInstanceAs (Decidable (_ → _))

theorem Fits.netFits {fill : Fill} {side : Side} (h : a.Fits (.applyFill fill side)) :
    a.NetFits fill side := ⟨h.1, h.2.1⟩

/-- A trade against the position that does not flip it closes its lots, and one that closes or
flips it closes the position's. -/
theorem perLot_mul_closed (hnet : a.net ≠ 0) (hadds : ¬ Adds a.net qty) (price : ℤ) :
    a.perLot price * a.closed qty =
      if a.net + qty = 0 ∨ Flips a.net qty then a.net * (price - a.avg)
      else -(qty * (price - a.avg)) := by
  unfold Adds at hadds
  unfold perLot closed Flips
  rcases lt_or_gt_of_ne hnet with hneg | hpos
  · rw [if_neg (by omega)]
    split_ifs with hclose
    · rw [show min (a.net.natAbs : ℤ) qty.natAbs = -a.net by omega]
      ring
    · rw [show min (a.net.natAbs : ℤ) qty.natAbs = qty by omega]
      ring
  · rw [if_pos hpos]
    split_ifs with hclose
    · rw [show min (a.net.natAbs : ℤ) qty.natAbs = a.net by omega]
      ring
    · rw [show min (a.net.natAbs : ℤ) qty.natAbs = -qty by omega]
      ring

end Account

/-! ## The code computes the account -/

namespace Position

open Account

/-- The account of a position. -/
def account (pos : Position) : Account where
  net := pos.netQuantity.toInt
  avg := pos.avgEntryPrice.toInt
  realized := pos.realizedPnl.toInt
  unrealized := pos.unrealizedPnl.toInt

@[simp] theorem account_new (symbolHash : UInt64) : (new symbolHash).account = flat := rfl

variable {pos : Position} {fill : Fill} {side : Side}

theorem toInt_signedQty (h : fill.quantity.toNat < 2 ^ 63) :
    (signedQty fill side).toInt = signedQuantity fill side := by
  have hq := UInt64.toInt_toInt64_of_lt h
  cases side with
  | bid => exact hq
  | ask =>
    rw [signedQty, Int64.toInt_neg_of_fits, hq]
    · rfl
    · rw [hq]
      unfold FitsI64
      omega

theorem sameDirection_iff (prevNet qty : Int64) :
    sameDirection prevNet qty = true ↔ Adds prevNet.toInt qty.toInt := by
  simp [sameDirection, Adds, Int64.zero_lt_iff, Int64.lt_zero_iff]

theorem flips_iff (prevNet newNet : Int64) : flips prevNet newNet = true ↔
    (0 < prevNet.toInt ∧ newNet.toInt < 0) ∨ (prevNet.toInt < 0 ∧ 0 < newNet.toInt) := by
  simp [flips, Int64.zero_lt_iff, Int64.lt_zero_iff]

theorem natAbs_signedQuantity (fill : Fill) (side : Side) :
    (signedQuantity fill side).natAbs = fill.quantity.toNat := by
  cases side with
  | bid => exact Int.natAbs_natCast _
  | ask => exact (Int.natAbs_neg _).trans (Int.natAbs_natCast _)

/-- The lots closed, as the code computes them. -/
theorem toInt_closeQty (h : fill.quantity.toNat < 2 ^ 63) :
    (pos.closeQty fill).toInt = pos.account.closed (signedQuantity fill side) := by
  have hmin : (min pos.netQuantity.unsignedAbs fill.quantity).toNat =
      min pos.netQuantity.toInt.natAbs fill.quantity.toNat := by
    rw [UInt64.toNat_min, Int64.toNat_unsignedAbs]
  rw [closeQty, UInt64.toInt_toInt64_of_lt (by rw [hmin]; omega), hmin, closed,
    natAbs_signedQuantity]
  exact Nat.cast_min _ _

/-- The profit on one lot, as the code computes it. -/
theorem toInt_pnlPerLot (h : FitsI64 (pos.account.perLot fill.price.toInt)) :
    (pos.pnlPerLot fill).toInt = pos.account.perLot fill.price.toInt := by
  have hpos : pos.netQuantity > 0 ↔ 0 < pos.account.net := Int64.zero_lt_iff
  simp only [perLot, pnlPerLot, hpos] at h ⊢
  split_ifs at h ⊢
  · exact Int64.toInt_sub_of_fits h
  · exact Int64.toInt_sub_of_fits h

/-- The new net quantity is the exact one when that fits. -/
theorem toInt_newNet (h : pos.account.NetFits fill side) :
    (pos.newNet fill side).toInt = pos.account.net + signedQuantity fill side := by
  have hqty : (signedQty fill side).toInt = signedQuantity fill side := toInt_signedQty h.1
  have hnew : FitsI64 (pos.netQuantity.toInt + (signedQty fill side).toInt) := hqty ▸ h.2
  rw [newNet, Int64.toInt_add_of_fits hnew, hqty]
  rfl

/-- What the average of an addition divides: nothing saturates when the sum does not wrap. -/
theorem numerator_eq_cost (hsum : FitsI64 (pos.netQuantity.toInt + (signedQty fill side).toInt))
    (hsame : sameDirection pos.netQuantity (signedQty fill side) = true) :
    pos.numerator fill side = pos.account.cost (signedQty fill side).toInt fill.price.toInt :=
  satI128_cost (a := pos.account) ((sameDirection_iff _ _).mp hsame) pos.netQuantity.fits_toInt
    (signedQty fill side).fits_toInt hsum pos.avgEntryPrice.fits_toInt fill.price.fits_toInt

/-- What the average of an addition divides is the exact cost: nothing saturates. -/
theorem numerator_eq (h : pos.account.NetFits fill side)
    (ha : Adds pos.account.net (signedQuantity fill side)) :
    pos.numerator fill side = pos.account.cost (signedQuantity fill side) fill.price.toInt := by
  have hqty : (signedQty fill side).toInt = signedQuantity fill side := toInt_signedQty h.1
  rw [← hqty] at ha ⊢
  exact numerator_eq_cost (hqty ▸ h.2) ((sameDirection_iff _ _).mpr ha)

/-- The average of an addition, as the code computes it: the cast loses nothing. -/
theorem toInt_addedAvg (h : pos.account.NetFits fill side)
    (ha : Adds pos.account.net (signedQuantity fill side)) :
    (pos.addedAvg fill side).toInt =
      (pos.account.cost (signedQuantity fill side) fill.price.toInt).tdiv
        (pos.account.net + signedQuantity fill side) := by
  rw [addedAvg, numerator_eq h ha, toInt_newNet h]
  exact Int64.toInt_ofInt_of_fits (fits_avg ha pos.avgEntryPrice.fits_toInt fill.price.fits_toInt)

/-- The realized profit of a trade against the position, when no operation wraps. -/
theorem toInt_closedPnl_of_fits (hlot : FitsI64 (pos.account.perLot fill.price.toInt))
    (hprofit : FitsI64 (pos.account.perLot fill.price.toInt * (pos.closeQty fill).toInt))
    (hsum : FitsI64 (pos.realizedPnl.toInt +
      pos.account.perLot fill.price.toInt * (pos.closeQty fill).toInt)) :
    (pos.closedPnl fill).toInt = pos.realizedPnl.toInt +
      pos.account.perLot fill.price.toInt * (pos.closeQty fill).toInt := by
  rw [← toInt_pnlPerLot hlot] at hprofit hsum ⊢
  rw [← Int64.toInt_mul_of_fits hprofit] at hsum ⊢
  exact Int64.toInt_add_of_fits hsum

/-- The realized profit of a trade against the position, as the code computes it. -/
theorem toInt_closedPnl (h : pos.account.Fits (.applyFill fill side)) (hn : pos.account.net ≠ 0)
    (ha : ¬ Adds pos.account.net (signedQuantity fill side)) :
    (pos.closedPnl fill).toInt = pos.account.realized + pos.account.perLot fill.price.toInt *
      pos.account.closed (signedQuantity fill side) := by
  obtain ⟨hlot, hprofit, hsum⟩ := h.2.2 hn ha
  have hqty : (pos.closeQty fill).toInt = pos.account.closed (signedQuantity fill side) :=
    toInt_closeQty h.1
  rw [← hqty] at hprofit hsum ⊢
  exact toInt_closedPnl_of_fits hlot hprofit hsum

theorem netQuantity_eq_zero_iff : pos.netQuantity = 0 ↔ pos.account.net = 0 :=
  Int64.toInt_eq_zero.symm

/-- The code's test for an addition. -/
theorem sameDirection_signedQty_iff (h : pos.account.NetFits fill side) :
    sameDirection pos.netQuantity (signedQty fill side) = true ↔
      Adds pos.account.net (signedQuantity fill side) := by
  rw [sameDirection_iff, toInt_signedQty h.1]
  rfl

/-- The code's test for a flip. -/
theorem flips_newNet_iff (h : pos.account.NetFits fill side) :
    Position.flips pos.netQuantity (pos.newNet fill side) = true ↔
      Flips pos.account.net (signedQuantity fill side) := by
  rw [flips_iff, toInt_newNet h]
  rfl

theorem newNet_eq_zero_iff (h : pos.account.NetFits fill side) :
    pos.newNet fill side = 0 ↔ pos.account.net + signedQuantity fill side = 0 := by
  rw [← toInt_newNet h, Int64.toInt_eq_zero]

/-- **A fill computes the exact trade**, and does not panic, when the exact values fit. -/
theorem account_applyFill (h : pos.account.Fits (.applyFill fill side)) :
    ∃ pos', pos.applyFill fill side = some pos' ∧
      pos'.account = pos.account.step (.applyFill fill side) := by
  have hnet := h.netFits
  have hnew := toInt_newNet hnet
  have hadds := sameDirection_signedQty_iff hnet
  simp only [Account.step, trade]
  have hresult := pos.applyFill_result fill side
  generalize pos.applyFill fill side = r at hresult
  cases hresult with
  | opens hflat =>
    have hzero : pos.account.net = 0 := netQuantity_eq_zero_iff.mp hflat
    rw [hzero, zero_add] at hnew
    rw [if_pos hzero]
    exact ⟨_, rfl, Account.ext hnew rfl rfl rfl⟩
  | panics hopen hsame hzero =>
    exact absurd (hnew.symm.trans hzero) (Adds.net_ne_zero (hadds.mp hsame))
  | adds hopen hsame hzero =>
    have ha := hadds.mp hsame
    rw [if_neg (mt netQuantity_eq_zero_iff.mpr hopen), if_pos ha]
    exact ⟨_, rfl, Account.ext hnew (toInt_addedAvg hnet ha) rfl rfl⟩
  | closes hopen hsame hzero =>
    have hn := mt netQuantity_eq_zero_iff.mpr hopen
    have ha : ¬ Adds pos.account.net (signedQuantity fill side) := by simp [← hadds, hsame]
    have hc := (newNet_eq_zero_iff hnet).mp hzero
    have hrealized := toInt_closedPnl h hn ha
    rw [perLot_mul_closed hn ha, if_pos (.inl hc)] at hrealized
    rw [if_neg hn, if_neg ha, if_pos hc]
    exact ⟨_, rfl, Account.ext (hnew.trans hc) rfl hrealized rfl⟩
  | flips hopen hsame hzero hflips =>
    have hn := mt netQuantity_eq_zero_iff.mpr hopen
    have ha : ¬ Adds pos.account.net (signedQuantity fill side) := by simp [← hadds, hsame]
    have hc := mt (newNet_eq_zero_iff hnet).mpr hzero
    have hf := (flips_newNet_iff hnet).mp hflips
    have hrealized := toInt_closedPnl h hn ha
    rw [perLot_mul_closed hn ha, if_pos (.inr hf)] at hrealized
    rw [if_neg hn, if_neg ha, if_neg hc, if_pos hf]
    exact ⟨_, rfl, Account.ext hnew rfl hrealized rfl⟩
  | reduces hopen hsame hzero hflips =>
    have hn := mt netQuantity_eq_zero_iff.mpr hopen
    have ha : ¬ Adds pos.account.net (signedQuantity fill side) := by simp [← hadds, hsame]
    have hc := mt (newNet_eq_zero_iff hnet).mpr hzero
    have hf : ¬ Flips pos.account.net (signedQuantity fill side) := by
      simp [← flips_newNet_iff hnet, hflips]
    have hrealized := toInt_closedPnl h hn ha
    rw [perLot_mul_closed hn ha, if_neg (not_or.mpr ⟨hc, hf⟩)] at hrealized
    rw [if_neg hn, if_neg ha, if_neg hc, if_neg hf]
    exact ⟨_, rfl, Account.ext hnew rfl hrealized rfl⟩

/-- **A mark computes the exact revaluation** when the exact values fit. -/
theorem account_markToMarket {currentPrice : Int64}
    (h : pos.account.Fits (.markToMarket currentPrice)) :
    (pos.markToMarket currentPrice).account = pos.account.step (.markToMarket currentPrice) := by
  have hzero : pos.netQuantity = 0 ↔ pos.account.net = 0 := Int64.toInt_eq_zero.symm
  simp only [markToMarket, Account.step, mark]
  by_cases hn : pos.account.net = 0
  · rw [if_pos (hzero.mpr hn), hn, zero_mul]
    exact Account.ext hn rfl rfl rfl
  · obtain ⟨hdiff, hpnl⟩ := h hn
    have hsub : (currentPrice - pos.avgEntryPrice).toInt =
        currentPrice.toInt - pos.account.avg := Int64.toInt_sub_of_fits hdiff
    rw [if_neg (mt hzero.mp hn)]
    refine Account.ext rfl rfl rfl ?_
    change (Int64.ofInt (satI128
      (pos.account.net * (currentPrice - pos.avgEntryPrice).toInt))).toInt = _
    have hnet : FitsI64 pos.account.net := pos.netQuantity.fits_toInt
    rw [hsub, satI128_mul hnet hdiff]
    exact Int64.toInt_ofInt_of_fits hpnl

/-- **A call computes the exact account** when the exact values fit. -/
theorem account_step {op : PositionOp} (h : pos.account.Fits op) :
    ∃ pos', pos.step op = some pos' ∧ pos'.account = pos.account.step op := by
  cases op with
  | applyFill fill side => exact account_applyFill h
  | markToMarket currentPrice => exact ⟨_, rfl, account_markToMarket h⟩

end Position

/-! ## Runs -/

namespace PositionTracker

open Account

/-- The account of a symbol: flat when it has no position. -/
def account (t : PositionTracker) (symbolHash : UInt64) : Account :=
  ((t.get symbolHash).getD (Position.new symbolHash)).account

variable {t : PositionTracker} {symbolHash : UInt64} {op : PositionOp}

theorem account_step (h : (t.account symbolHash).Fits op) :
    ∃ t', t.step symbolHash op = some t' ∧
      t'.account symbolHash = (t.account symbolHash).step op := by
  obtain ⟨pos, hpos, haccount⟩ := Position.account_step h
  change (t.position symbolHash).step op = some pos at hpos
  rw [← position_step] at hpos
  obtain ⟨t', ht', rfl⟩ := Option.map_eq_some_iff.mp hpos
  exact ⟨t', ht', haccount⟩

/-- **A run of calls computes the exact account** while the exact values fit. -/
theorem account_run {ops : List PositionOp}
    (h : Run.Along Account.step Fits (t.account symbolHash) ops) :
    ∃ t', ops.foldlM (PositionTracker.step symbolHash) t = some t' ∧
      t'.account symbolHash = ops.foldl Account.step (t.account symbolHash) := by
  induction ops generalizing t with
  | nil => exact ⟨t, rfl, rfl⟩
  | cons op ops ih =>
    obtain ⟨t₁, hstep, haccount⟩ := account_step h.1
    obtain ⟨t₂, hrun, hfinal⟩ := ih (haccount ▸ h.2)
    refine ⟨t₂, ?_, ?_⟩
    · rw [List.foldlM_cons, hstep]
      exact hrun
    · rw [hfinal, haccount]
      rfl

/-- A run from the empty tracker starts flat. -/
theorem account_new (symbolHash : UInt64) : new.account symbolHash = flat := rfl

end PositionTracker

end AliceLedger
