import AliceLedger.Risk.Model

/-!
# The risk check over exact integers

The projected position of an order is an `i64` sum with a quantity cast from `u64`: it is the exact
position wrapped (`toInt_projected`), so its absolute value is the distance of the exact position
from zero or from a full turn of 2^64, whichever is nearer. The other limits are compared exactly.
The check therefore means what the limits say exactly when the position cannot wrap back within its
limit (`passed_exactly_iff`).
-/

namespace AliceLedger

namespace Order

/-- The exact signed quantity of an order. -/
def signedQuantity (order : Order) : ℤ :=
  match order.side with
  | .bid => order.quantity.toNat
  | .ask => -order.quantity.toNat

/-- The exact position after an order is filled entirely. -/
def exactProjected (order : Order) (currentPosition : Int64) : ℤ :=
  currentPosition.toInt + order.signedQuantity

/-- The distance of the exact position from the nearer of 2^64 and -2^64. -/
def turnDistance (order : Order) (currentPosition : Int64) : ℤ :=
  |(|order.exactProjected currentPosition| - 2 ^ 64)|

variable (order : Order) (pos : Int64)

theorem abs_signedQuantity : |order.signedQuantity| = order.quantity.toNat := by
  unfold signedQuantity
  cases order.side with
  | bid => exact Nat.abs_cast _
  | ask => exact (abs_neg _).trans (Nat.abs_cast _)

/-- **The projected position is the exact one, wrapped.** -/
theorem toInt_projected :
    (order.projected pos).toInt = (order.exactProjected pos).bmod (2 ^ 64) := by
  unfold projected exactProjected signedQuantity
  cases order.side with
  | bid => exact (Int64.toInt_add _ _).trans (by rw [UInt64.toInt_toInt64, Int.add_bmod_bmod])
  | ask =>
    exact (Int64.toInt_sub _ _).trans (by
      rw [UInt64.toInt_toInt64, Int.sub_bmod_bmod, Int.sub_eq_add_neg])

theorem abs_exactProjected_lt : |order.exactProjected pos| < 2 ^ 64 + 2 ^ 63 := by
  have hqty := order.quantity.toNat_lt_two_pow
  have habs := order.abs_signedQuantity
  have hle := abs_add_le pos.toInt order.signedQuantity
  have hpos : |pos.toInt| ≤ 2 ^ 63 := abs_le.mpr ⟨pos.fits_toInt.1, pos.fits_toInt.2.le⟩
  unfold exactProjected
  omega

/-- What the position limit compares. -/
theorem toNat_unsignedAbs_projected : ((order.projected pos).unsignedAbs.toNat : ℤ) =
    min |order.exactProjected pos| (order.turnDistance pos) := by
  rw [Int64.toNat_unsignedAbs, Int.natCast_natAbs, toInt_projected]
  exact abs_bmod_of_abs_lt (order.abs_exactProjected_lt pos)

variable {order pos} in
/-- A position that fits is projected exactly. -/
theorem toInt_projected_of_fits (h : FitsI64 (order.exactProjected pos)) :
    (order.projected pos).toInt = order.exactProjected pos := by
  rw [toInt_projected, Int64.bmod_of_fits h]

end Order

/-! ## What the limits say -/

namespace RiskManager

variable (rm : RiskManager) (order : Order) (pos : Int64)

/-- Every limit but the one on the position, over exact integers. -/
structure WithinOtherLimits : Prop where
  min_size : rm.limits.minOrderSize.toNat ≤ order.quantity.toNat
  max_size : order.quantity.toNat ≤ rm.limits.maxOrderSize.toNat
  notional : |order.price.toInt * order.quantity.toNat| ≤ rm.limits.maxNotional
  rate : rm.ordersInPeriod.toNat < rm.limits.maxOrdersPerPeriod.toNat

/-- Every limit, over exact integers. -/
structure WithinLimits : Prop extends WithinOtherLimits rm order where
  position : |order.exactProjected pos| ≤ rm.limits.maxPosition.toNat

variable {rm order pos}

/-- **What passes enabled limits**: an order within the other limits whose position is within its
limit of zero or of a full turn. -/
theorem checkOrder_eq_passed_iff_exact (h : rm.limits.enabled = true) :
    rm.checkOrder order pos = .passed ↔ rm.WithinOtherLimits order ∧
      (|order.exactProjected pos| ≤ rm.limits.maxPosition.toNat ∨
        order.turnDistance pos ≤ rm.limits.maxPosition.toNat) := by
  have hposition : (order.projected pos).unsignedAbs ≤ rm.limits.maxPosition ↔
      |order.exactProjected pos| ≤ rm.limits.maxPosition.toNat ∨
        order.turnDistance pos ≤ rm.limits.maxPosition.toNat := by
    rw [UInt64.le_iff_toNat_le, ← Int.ofNat_le, ← min_le_iff,
      ← order.toNat_unsignedAbs_projected pos]
  rw [checkOrder_eq_passed_iff h, RiskLimits.Fits, hposition]
  simp only [UInt64.le_iff_toNat_le, UInt64.lt_iff_toNat_lt, Order.notional]
  constructor
  · rintro ⟨⟨hmin, hmax, hnotional, hpos⟩, hrate⟩
    exact ⟨⟨hmin, hmax, hnotional, hrate⟩, hpos⟩
  · rintro ⟨⟨hmin, hmax, hnotional, hrate⟩, hpos⟩
    exact ⟨⟨hmin, hmax, hnotional, hpos⟩, hrate⟩

/-- **When a pass is exact.** With enabled limits the check passes exactly the orders that are
within every limit over exact integers, unless the order is within the other limits and its position
is outside its limit but within that limit of 2^64 or of -2^64. -/
theorem passed_exactly_iff (h : rm.limits.enabled = true) (order : Order) (pos : Int64) :
    (rm.checkOrder order pos = .passed ↔ rm.WithinLimits order pos) ↔
      (rm.WithinOtherLimits order →
        |order.exactProjected pos| ≤ rm.limits.maxPosition.toNat ∨
          rm.limits.maxPosition.toNat < order.turnDistance pos) := by
  rw [checkOrder_eq_passed_iff_exact h]
  constructor
  · intro hexact hothers
    by_cases hturn : order.turnDistance pos ≤ rm.limits.maxPosition.toNat
    · exact .inl (hexact.mp ⟨hothers, .inr hturn⟩).position
    · exact .inr (not_le.mp hturn)
  · intro hpos
    constructor
    · rintro ⟨hothers, hzero | hturn⟩
      · exact ⟨hothers, hzero⟩
      · exact ⟨hothers, (hpos hothers).resolve_right (not_lt.mpr hturn)⟩
    · exact fun hwithin => ⟨hwithin.toWithinOtherLimits, .inl hwithin.position⟩

/-- A position limit of one lot, and no limit on the size of an order. -/
def oneLot : RiskManager :=
  .new { RiskLimits.default with maxOrderSize := 0xffffffffffffffff, maxPosition := 1 }

/-- A bid for 2^64 - 1 lots at the price 0 passes it. -/
theorem wrapped_position_passes : ¬ ∀ (rm : RiskManager) (order : Order) (pos : Int64),
    rm.limits.enabled = true →
      (rm.checkOrder order pos = .passed ↔ rm.WithinLimits order pos) := fun h => by
  have hwithin := (h oneLot (.limit 1 .bid 0 0xffffffffffffffff 0) 0 rfl).mp (by decide)
  exact absurd hwithin.position (by decide)

/-- A bid for one lot passes it as it should. -/
theorem passed_exactly_iff_one :
    oneLot.checkOrder (.limit 1 .bid 100 1 0) 0 = .passed ↔
      oneLot.WithinLimits (.limit 1 .bid 100 1 0) 0 :=
  (passed_exactly_iff rfl _ _).mpr fun _ => .inl (by decide)

end RiskManager

end AliceLedger
