import AliceLedger.Lib.MachineInt
import Mathlib.Data.Nat.Basic
import Mathlib.Order.Lattice

/-!
# Orders

The order types of the limit order book. Prices are `i64` ticks and quantities `u64` lots; the
arithmetic is that of the release profile, which wraps.
-/

namespace AliceLedger

/-- Unique order identifier. -/
structure OrderId where
  val : UInt64
  deriving Repr

theorem OrderId.val_injective : Function.Injective OrderId.val := fun a b h => by
  cases a; cases b; cases h; rfl

instance : LinearOrder OrderId := LinearOrder.lift' OrderId.val OrderId.val_injective

instance : LawfulBEq OrderId := inferInstance

/-- Side of the market. -/
inductive Side
  | bid
  | ask
  deriving DecidableEq, Repr

/-- Classification of an order's execution behaviour. -/
inductive OrderType
  /-- Rests on the book at a specific price. -/
  | limit
  /-- Executes immediately at the best available price; no resting. -/
  | market
  /-- A limit order with an activation threshold, which the book does not read. -/
  | stopLimit (stopPrice : Int64)
  deriving DecidableEq, Repr

/-- How long an order remains active. -/
inductive TimeInForce
  | gtc
  | ioc
  | fok
  | gtd (expiryNs : UInt64)
  deriving DecidableEq, Repr

/-- A single order submitted to the matching engine. -/
structure Order where
  id : OrderId
  side : Side
  orderType : OrderType
  price : Int64
  quantity : UInt64
  filledQuantity : UInt64
  timestampNs : UInt64
  timeInForce : TimeInForce
  deriving DecidableEq, Repr

namespace Order

/-- Quantity that has not yet been matched. -/
def remaining (o : Order) : UInt64 := o.quantity - o.filledQuantity

/-- The entire requested quantity has been matched. -/
def isFilled (o : Order) : Bool := o.filledQuantity ≥ o.quantity

/-- The update `filled_quantity += qty` of a trade. -/
def addFilled (o : Order) (qty : UInt64) : Order :=
  { o with filledQuantity := o.filledQuantity + qty }

/-- A new GTC limit order. -/
def limit (id : UInt64) (side : Side) (price : Int64) (qty ts : UInt64) : Order :=
  ⟨⟨id⟩, side, .limit, price, qty, 0, ts, .gtc⟩

theorem side_eq_bid_or_ask (o : Order) : o.side = .bid ∨ o.side = .ask := by
  cases o.side <;> simp

variable (o : Order) (qty : UInt64)

@[simp] theorem id_addFilled : (o.addFilled qty).id = o.id := rfl
@[simp] theorem side_addFilled : (o.addFilled qty).side = o.side := rfl
@[simp] theorem orderType_addFilled : (o.addFilled qty).orderType = o.orderType := rfl
@[simp] theorem price_addFilled : (o.addFilled qty).price = o.price := rfl
@[simp] theorem quantity_addFilled : (o.addFilled qty).quantity = o.quantity := rfl
@[simp] theorem timestampNs_addFilled : (o.addFilled qty).timestampNs = o.timestampNs := rfl
@[simp] theorem timeInForce_addFilled : (o.addFilled qty).timeInForce = o.timeInForce := rfl

variable {o qty}

theorem isFilled_iff : o.isFilled = true ↔ o.quantity.toNat ≤ o.filledQuantity.toNat := by
  simp [isFilled, UInt64.le_iff_toNat_le]

theorem isFilled_eq_false_iff :
    o.isFilled = false ↔ o.filledQuantity.toNat < o.quantity.toNat := by
  rw [← Bool.not_eq_true, isFilled_iff, not_le]

/-- An order that is not over-filled has what its quantity leaves. -/
theorem toNat_remaining (h : o.filledQuantity ≤ o.quantity) :
    o.remaining.toNat = o.quantity.toNat - o.filledQuantity.toNat :=
  UInt64.toNat_sub_of_le _ _ h

theorem filledQuantity_le (h : o.isFilled = false) : o.filledQuantity ≤ o.quantity :=
  UInt64.le_iff_toNat_le.mpr (isFilled_eq_false_iff.mp h).le

theorem toNat_remaining_of_not_isFilled (h : o.isFilled = false) :
    o.remaining.toNat = o.quantity.toNat - o.filledQuantity.toNat :=
  toNat_remaining (filledQuantity_le h)

theorem remaining_pos (h : o.isFilled = false) : 0 < o.remaining.toNat := by
  have := isFilled_eq_false_iff.mp h
  rw [toNat_remaining_of_not_isFilled h]
  omega

/-- The exact quantity left to trade: none for an order that is filled or over-filled. -/
def openQuantity (o : Order) : ℕ := o.quantity.toNat - o.filledQuantity.toNat

theorem openQuantity_eq (h : o.isFilled = false) : o.openQuantity = o.remaining.toNat :=
  (toNat_remaining_of_not_isFilled h).symm

theorem openQuantity_of_isFilled (h : o.isFilled = true) : o.openQuantity = 0 :=
  Nat.sub_eq_zero_of_le (isFilled_iff.mp h)

/-- A trade within the remaining quantity adds up without wrapping. -/
theorem toNat_filledQuantity_addFilled (h : o.isFilled = false)
    (hq : qty.toNat ≤ o.remaining.toNat) :
    (o.addFilled qty).filledQuantity.toNat = o.filledQuantity.toNat + qty.toNat := by
  have hlt := isFilled_eq_false_iff.mp h
  rw [toNat_remaining_of_not_isFilled h] at hq
  have := o.quantity.toNat_lt_two_pow
  exact UInt64.toNat_add_of_lt (by omega)

theorem addFilled_le (h : o.isFilled = false) (hq : qty.toNat ≤ o.remaining.toNat) :
    (o.addFilled qty).filledQuantity ≤ (o.addFilled qty).quantity := by
  have hadd := toNat_filledQuantity_addFilled h hq
  rw [toNat_remaining_of_not_isFilled h] at hq
  rw [UInt64.le_iff_toNat_le, hadd, quantity_addFilled]
  have := isFilled_eq_false_iff.mp h
  omega

/-- A trade takes its quantity from the remaining quantity. -/
theorem toNat_remaining_addFilled (h : o.isFilled = false) (hq : qty.toNat ≤ o.remaining.toNat) :
    (o.addFilled qty).remaining.toNat + qty.toNat = o.remaining.toNat := by
  have hadd := toNat_filledQuantity_addFilled h hq
  rw [toNat_remaining (addFilled_le h hq), hadd, quantity_addFilled]
  rw [toNat_remaining_of_not_isFilled h] at hq ⊢
  omega

theorem openQuantity_addFilled (h : o.isFilled = false) (hq : qty.toNat ≤ o.remaining.toNat) :
    (o.addFilled qty).openQuantity + qty.toNat = o.openQuantity := by
  have hadd := toNat_filledQuantity_addFilled h hq
  rw [toNat_remaining_of_not_isFilled h] at hq
  unfold openQuantity
  rw [hadd, quantity_addFilled]
  omega

/-- After a trade an order is filled exactly when the trade took all that remained. -/
theorem isFilled_addFilled (h : o.isFilled = false) (hq : qty.toNat ≤ o.remaining.toNat) :
    (o.addFilled qty).isFilled = true ↔ qty.toNat = o.remaining.toNat := by
  have hadd := toNat_filledQuantity_addFilled h hq
  rw [isFilled_iff, hadd, quantity_addFilled]
  have := isFilled_eq_false_iff.mp h
  rw [toNat_remaining_of_not_isFilled h] at hq ⊢
  omega

end Order

end AliceLedger
