import AliceLedger.Lib.Heap
import AliceLedger.Position.Model

/-!
# The records of the foreign interface

Orders, fills, positions and depth levels cross the C interface as flat records, an enumeration as a
byte. A byte that names no variant is read as the default of its field, and a price or an expiry
that the variant does not use is not read at all; so an order survives the way out and back
(`ffiToOrder_orderToFfi`), and a record survives the way in and back exactly when it is `Canonical`
(`orderToFfi_ffiToOrder_iff`).
-/

namespace AliceLedger

/-- C-compatible order. -/
structure FfiOrder where
  id : UInt64
  /-- 0 = Bid, 1 = Ask -/
  side : UInt8
  /-- 0 = Limit, 1 = Market, 2 = StopLimit -/
  orderType : UInt8
  /-- Only used when `orderType = 2`. -/
  stopPrice : Int64
  price : Int64
  quantity : UInt64
  filledQuantity : UInt64
  timestampNs : UInt64
  /-- 0 = GTC, 1 = IOC, 2 = FOK, 3 = GTD -/
  tif : UInt8
  /-- Only used when `tif = 3`. -/
  expiryNs : UInt64
  deriving DecidableEq, Repr

/-- The layout of an order in memory, on a 64-bit target. -/
def FfiOrder.layout : Layout := .record [8, 1, 1, 8, 8, 8, 8, 8, 1, 8]

example : FfiOrder.layout = ⟨72, 8, true⟩ := by decide

/-- C-compatible fill record. -/
structure FfiFill where
  makerId : UInt64
  takerId : UInt64
  price : Int64
  quantity : UInt64
  timestampNs : UInt64
  deriving DecidableEq, Repr

/-- The layout of a fill in memory. -/
def FfiFill.layout : Layout := .record [8, 8, 8, 8, 8]

/-- C-compatible position. -/
structure FfiPosition where
  symbolHash : UInt64
  netQuantity : Int64
  avgEntryPrice : Int64
  realizedPnl : Int64
  unrealizedPnl : Int64
  tradeCount : UInt64
  deriving DecidableEq, Repr

/-- C-compatible depth level. -/
structure FfiDepthLevel where
  price : Int64
  quantity : UInt64
  deriving DecidableEq, Repr

/-- The layout of a depth level in memory. -/
def FfiDepthLevel.layout : Layout := .record [8, 8]

/-! ## Conversions -/

/-- The side that a byte names: every byte but 0 is an ask. -/
def ffiToSide (side : UInt8) : Side := if side = 0 then .bid else .ask

/-- The order that a record describes. -/
def ffiToOrder (o : FfiOrder) : Order where
  id := ⟨o.id⟩
  side := ffiToSide o.side
  orderType :=
    if o.orderType = 1 then .market
    else if o.orderType = 2 then .stopLimit o.stopPrice
    else .limit
  price := o.price
  quantity := o.quantity
  filledQuantity := o.filledQuantity
  timestampNs := o.timestampNs
  timeInForce :=
    if o.tif = 1 then .ioc
    else if o.tif = 2 then .fok
    else if o.tif = 3 then .gtd o.expiryNs
    else .gtc

/-- The byte of an order type, and the stop price of the record. -/
def orderTypeToFfi : OrderType → UInt8 × Int64
  | .limit => (0, 0)
  | .market => (1, 0)
  | .stopLimit stopPrice => (2, stopPrice)

/-- The byte of a time in force, and the expiry of the record. -/
def tifToFfi : TimeInForce → UInt8 × UInt64
  | .gtc => (0, 0)
  | .ioc => (1, 0)
  | .fok => (2, 0)
  | .gtd expiryNs => (3, expiryNs)

/-- The record of an order. -/
def orderToFfi (o : Order) : FfiOrder where
  id := o.id.val
  side := if o.side = .bid then 0 else 1
  orderType := (orderTypeToFfi o.orderType).1
  stopPrice := (orderTypeToFfi o.orderType).2
  price := o.price
  quantity := o.quantity
  filledQuantity := o.filledQuantity
  timestampNs := o.timestampNs
  tif := (tifToFfi o.timeInForce).1
  expiryNs := (tifToFfi o.timeInForce).2

/-- The record of a fill. -/
def fillToFfi (f : Fill) : FfiFill := ⟨f.makerId.val, f.takerId.val, f.price, f.quantity,
  f.timestampNs⟩

/-- The fill that a record describes. -/
def ffiToFill (f : FfiFill) : Fill := ⟨⟨f.makerId⟩, ⟨f.takerId⟩, f.price, f.quantity,
  f.timestampNs⟩

/-- The record of a position. -/
def positionToFfi (pos : Position) : FfiPosition := ⟨pos.symbolHash, pos.netQuantity,
  pos.avgEntryPrice, pos.realizedPnl, pos.unrealizedPnl, pos.tradeCount⟩

/-! ## There and back -/

theorem ffiToFill_fillToFfi (f : Fill) : ffiToFill (fillToFfi f) = f := rfl

theorem fillToFfi_injective : Function.Injective fillToFfi :=
  Function.LeftInverse.injective ffiToFill_fillToFfi

/-- **An order survives the way out and back.** -/
theorem ffiToOrder_orderToFfi (o : Order) : ffiToOrder (orderToFfi o) = o := by
  obtain ⟨id, side, orderType, price, quantity, filled, ts, tif⟩ := o
  cases side <;> cases orderType <;> cases tif <;> rfl

theorem orderToFfi_injective : Function.Injective orderToFfi :=
  Function.LeftInverse.injective ffiToOrder_orderToFfi

/-- A record whose bytes name variants, and whose unused fields are zero. -/
structure FfiOrder.Canonical (o : FfiOrder) : Prop where
  side : o.side = 0 ∨ o.side = 1
  orderType : o.orderType = 0 ∨ o.orderType = 1 ∨ o.orderType = 2
  stopPrice : o.orderType ≠ 2 → o.stopPrice = 0
  tif : o.tif = 0 ∨ o.tif = 1 ∨ o.tif = 2 ∨ o.tif = 3
  expiryNs : o.tif ≠ 3 → o.expiryNs = 0

theorem canonical_orderToFfi (o : Order) : (orderToFfi o).Canonical := by
  obtain ⟨id, side, orderType, price, quantity, filled, ts, tif⟩ := o
  constructor
  · cases side <;> simp [orderToFfi]
  · cases orderType <;> simp [orderToFfi, orderTypeToFfi]
  · cases orderType <;> simp [orderToFfi, orderTypeToFfi]
  · cases tif <;> simp [orderToFfi, tifToFfi]
  · cases tif <;> simp [orderToFfi, tifToFfi]

theorem FfiOrder.Canonical.orderToFfi_ffiToOrder {o : FfiOrder} (h : o.Canonical) :
    orderToFfi (ffiToOrder o) = o := by
  obtain ⟨id, side, orderType, stopPrice, price, quantity, filled, ts, tif, expiry⟩ := o
  obtain ⟨hside, htype, hstop, htif, hexpiry⟩ := h
  dsimp only at hside htype hstop htif hexpiry
  have hs : (if ffiToSide side = .bid then 0 else 1 : UInt8) = side := by
    rcases hside with rfl | rfl <;> rfl
  have ho : orderTypeToFfi (ffiToOrder ⟨id, side, orderType, stopPrice, price, quantity, filled, ts,
      tif, expiry⟩).orderType = (orderType, stopPrice) := by
    rcases htype with rfl | rfl | rfl
    · rw [hstop (by decide)]
      rfl
    · rw [hstop (by decide)]
      rfl
    · rfl
  have ht : tifToFfi (ffiToOrder ⟨id, side, orderType, stopPrice, price, quantity, filled, ts,
      tif, expiry⟩).timeInForce = (tif, expiry) := by
    rcases htif with rfl | rfl | rfl | rfl
    · rw [hexpiry (by decide)]
      rfl
    · rw [hexpiry (by decide)]
      rfl
    · rw [hexpiry (by decide)]
      rfl
    · rfl
  simp only [orderToFfi, ho, ht]
  exact congrArg (FfiOrder.mk id · orderType stopPrice price quantity filled ts tif expiry) hs

/-- **A record survives the way in and back** exactly when it is canonical. -/
theorem orderToFfi_ffiToOrder_iff {o : FfiOrder} :
    orderToFfi (ffiToOrder o) = o ↔ o.Canonical :=
  ⟨fun h => h ▸ canonical_orderToFfi _, fun h => h.orderToFfi_ffiToOrder⟩

end AliceLedger
