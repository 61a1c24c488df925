import AliceLedger.Book.Ffi
import AliceLedger.Ffi.Records
import AliceLedger.Lib.Heap

/-!
# The foreign interface

The C functions own books, trackers and the arrays they return; a client holds pointers. A pointer
is null or the identity of an allocation, and what a C function does with one that is not what it
takes it for is undefined: using an object after it was freed, taking a book for a tracker, or
freeing an array as one whose layout it does not fit. Those and a panic, which ends the process, are
the faults of a call.

A pointer from which a call reads a record is the record, and `none` when it is null; one to which
it writes is the flag that it is not null, and the answer says what is written.
-/

namespace AliceLedger

/-- A pointer to something that the interface allocated; `none` is null. -/
abbrev Ptr := Option ℕ

/-- How a call ends that does not return. -/
inductive FfiFault
  /-- Undefined behaviour. -/
  | undefined
  | panic
  deriving DecidableEq, Repr

/-- What the interface allocates. -/
inductive Object
  | book (book : OrderBook)
  | tracker (tracker : PositionTracker)
  | fills (fills : List FfiFill)
  | depth (depth : List FfiDepthLevel)
  | orders (orders : List FfiOrder)

namespace Object

/-- Books among the objects. -/
def bookKind : ObjectKind Object OrderBook where
  inject := book
  get? | book b => some b | _ => none
  get?_eq_some_iff := by rintro (_ | _ | _ | _ | _) a <;> simp

/-- Trackers among the objects. -/
def trackerKind : ObjectKind Object PositionTracker where
  inject := tracker
  get? | tracker t => some t | _ => none
  get?_eq_some_iff := by rintro (_ | _ | _ | _ | _) a <;> simp

/-- Fills arrays among the objects. -/
def fillsKind : ObjectKind Object (List FfiFill) where
  inject := fills
  get? | fills fs => some fs | _ => none
  get?_eq_some_iff := by rintro (_ | _ | _ | _ | _) a <;> simp

/-- Depth arrays among the objects. -/
def depthKind : ObjectKind Object (List FfiDepthLevel) where
  inject := depth
  get? | depth ds => some ds | _ => none
  get?_eq_some_iff := by rintro (_ | _ | _ | _ | _) a <;> simp

/-- Orders arrays among the objects. -/
def ordersKind : ObjectKind Object (List FfiOrder) where
  inject := orders
  get? | orders os => some os | _ => none
  get?_eq_some_iff := by rintro (_ | _ | _ | _ | _) a <;> simp

/-- The layout of an array. That of a book or a tracker is left to the compiler, so neither can be
relied on to have the layout of an array. -/
def layout? : Object → Option Layout
  | .book _ | .tracker _ => none
  | .fills fs => some (FfiFill.layout.array fs.length)
  | .depth ds => some (FfiDepthLevel.layout.array ds.length)
  | .orders os => some (FfiOrder.layout.array os.length)

end Object

/-- A C function: it reads and changes the heap and returns, or ends in a fault. -/
abbrev Ffi := StateT (Heap Object) (Except FfiFault)

variable {α : Type}

/-- End in a fault. -/
def fault (f : FfiFault) : Ffi α := fun _ => .error f

/-- A computation that panics where it has no result. -/
def orPanic (x : Option α) : Ffi α := x.elim (fault .panic) pure

/-- Follow a pointer to an object of a kind. -/
def deref (kind : ObjectKind Object α) (p : ℕ) : Ffi α := fun heap =>
  match heap.load p kind with
  | none => .error .undefined
  | some a => .ok (a, heap)

/-- Allocate an object. -/
def allocate (o : Object) : Ffi ℕ := fun heap => .ok (heap.next, heap.alloc o)

/-- Update an object in place. -/
def update (p : ℕ) (o : Object) : Ffi Unit := fun heap => .ok ((), heap.write p o)

/-- The layout of the array at an address. -/
def layoutAt (p : ℕ) : Ffi Layout := fun heap =>
  match (heap.get? p).bind Object.layout? with
  | none => .error .undefined
  | some layout => .ok (layout, heap)

/-- Release an object. -/
def release (p : ℕ) : Ffi Unit := fun heap => .ok ((), heap.free p)

/-! ## Memory management -/

/-- An array as it is returned: the pointer, and what is written to `out_count`. -/
structure RawArray where
  ptr : Ptr
  count : Option Int32
  deriving DecidableEq, Repr

/-- Convert a vector into a heap-allocated array. An empty vector becomes the null pointer. -/
def toRaw (kind : ObjectKind Object (List α)) (xs : List α) : Ffi RawArray :=
  if xs.isEmpty then return ⟨none, some 0⟩
  else do
    let len := Int32.ofNat xs.length
    let ptr ← allocate (kind.inject xs)
    return ⟨some ptr, some len⟩

/-- Rebuild a boxed slice of `count` elements from a pointer and drop it. The elements have nothing
to drop, so the memory goes back as it is, if it fits the slice. -/
def freeArray (element : Layout) (ptr : Ptr) (count : Int32) : Ffi Unit :=
  match ptr with
  | none => return
  | some p =>
    if count > 0 then do
      let layout ← layoutAt p
      if layout.fits (element.array count.toInt.toNat) then release p else fault .undefined
    else return

/-- Free a fills array returned by an insertion. -/
def alLdgFillsFree := freeArray FfiFill.layout

/-- Free a depth array. -/
def alLdgDepthFree := freeArray FfiDepthLevel.layout

/-- Free an orders array returned by a purge. -/
def alLdgOrdersFree := freeArray FfiOrder.layout

/-- Rebuild a box from a pointer and drop it. -/
def freeBox (kind : ObjectKind Object α) (ptr : Ptr) : Ffi Unit :=
  match ptr with
  | none => return
  | some p => do
    let _ ← deref kind p
    release p

/-! ## The order book -/

/-- Create a new, empty order book. -/
def alLdgBookNew : Ffi Ptr := some <$> allocate (.book .new)

/-- Free an order book. -/
def alLdgBookFree := freeBox Object.bookKind

/-- Insert an order, with no GTD time check. -/
def alLdgBookInsert (book : Ptr) (order : Option FfiOrder) (outCount : Bool) : Ffi RawArray :=
  match book, order, outCount with
  | some p, some order, true => do
    let book ← deref Object.bookKind p
    let rustOrder := ffiToOrder order
    let (book, fills) := book.insert rustOrder
    update p (.book book)
    toRaw Object.fillsKind (fills.map fillToFfi)
  | _, _, _ => return ⟨none, none⟩

/-- Insert an order with GTD expiry check. -/
def alLdgBookInsertWithTime (book : Ptr) (order : Option FfiOrder) (nowNs : UInt64)
    (outCount : Bool) : Ffi RawArray :=
  match book, order, outCount with
  | some p, some order, true => do
    let book ← deref Object.bookKind p
    let rustOrder := ffiToOrder order
    let (book, fills) := book.insertWithTime rustOrder nowNs
    update p (.book book)
    toRaw Object.fillsKind (fills.map fillToFfi)
  | _, _, _ => return ⟨none, none⟩

/-- Cancel an order by its id: 1 if it was found, and the order when `out` is not null. -/
def alLdgBookCancel (book : Ptr) (id : UInt64) (out : Bool) : Ffi (Int32 × Option FfiOrder) :=
  match book with
  | none => return (0, none)
  | some p => do
    let book ← deref Object.bookKind p
    let (book, cancelled) := book.cancel ⟨id⟩
    update p (.book book)
    match cancelled with
    | some order => return (1, if out then some (orderToFfi order) else none)
    | none => return (0, none)

/-- A query of a book, on what its pointer points to. -/
def queryBook (query : Option OrderBook → α) (book : Ptr) : Ffi α :=
  match book with
  | none => return query none
  | some p => do
    let book ← deref Object.bookKind p
    return query (some book)

/-- Market depth as an array of prices and quantities. -/
def alLdgBookDepth (book : Ptr) (side : UInt8) (levels : Int32) (outCount : Bool) :
    Ffi RawArray :=
  match book, outCount with
  | some p, true =>
    if levels ≤ 0 then return ⟨none, some 0⟩
    else do
      let book ← deref Object.bookKind p
      let depth := book.depth (ffiToSide side) levels.toInt.toNat
      toRaw Object.depthKind (depth.map fun e => ⟨e.1, e.2⟩)
  | _, _ => return ⟨none, if outCount then some 0 else none⟩

/-- Purge expired GTD orders and return them as an array. -/
def alLdgBookPurgeExpired (book : Ptr) (nowNs : UInt64) (outCount : Bool) : Ffi RawArray :=
  match book, outCount with
  | some p, true => do
    let book ← deref Object.bookKind p
    let (book, expired) := book.purgeExpired nowNs
    update p (.book book)
    toRaw Object.ordersKind (expired.map orderToFfi)
  | _, _ => return ⟨none, if outCount then some 0 else none⟩

/-! ## The position tracker -/

/-- Create an empty position tracker. -/
def alLdgTrackerNew : Ffi Ptr := some <$> allocate (.tracker .new)

/-- Free a position tracker. -/
def alLdgTrackerFree := freeBox Object.trackerKind

/-- Apply a fill to a position. -/
def alLdgTrackerApplyFill (tracker : Ptr) (symbolHash : UInt64) (fill : Option FfiFill)
    (side : UInt8) : Ffi Unit :=
  match tracker, fill with
  | some p, some fill => do
    let tracker ← deref Object.trackerKind p
    let rustFill := ffiToFill fill
    let tracker ← orPanic (tracker.applyFill symbolHash rustFill (ffiToSide side))
    update p (.tracker tracker)
  | _, _ => return

/-- Revalue unrealized P&L at a price. -/
def alLdgTrackerMarkToMarket (tracker : Ptr) (symbolHash : UInt64) (currentPrice : Int64) :
    Ffi Unit :=
  match tracker with
  | none => return
  | some p => do
    let tracker ← deref Object.trackerKind p
    update p (.tracker (tracker.markToMarket symbolHash currentPrice))

/-- The position of a symbol: 1 if it was found, and what is written to `out`. -/
def alLdgTrackerGet (tracker : Ptr) (symbolHash : UInt64) (out : Bool) :
    Ffi (Int32 × Option FfiPosition) :=
  match tracker, out with
  | some p, true => do
    let tracker ← deref Object.trackerKind p
    match tracker.get symbolHash with
    | some pos => return (1, some (positionToFfi pos))
    | none => return (0, none)
  | _, _ => return (0, none)

/-! ## Calls as inputs -/

/-- The calls of a client. -/
inductive FfiCall
  | fillsFree (ptr : Ptr) (count : Int32)
  | depthFree (ptr : Ptr) (count : Int32)
  | ordersFree (ptr : Ptr) (count : Int32)
  | bookNew
  | bookFree (ptr : Ptr)
  | bookInsert (book : Ptr) (order : Option FfiOrder) (outCount : Bool)
  | bookInsertWithTime (book : Ptr) (order : Option FfiOrder) (nowNs : UInt64) (outCount : Bool)
  | bookCancel (book : Ptr) (id : UInt64) (out : Bool)
  | bookBestBid (book : Ptr)
  | bookBestAsk (book : Ptr)
  | bookSpread (book : Ptr)
  | bookDepth (book : Ptr) (side : UInt8) (levels : Int32) (outCount : Bool)
  | bookPurgeExpired (book : Ptr) (nowNs : UInt64) (outCount : Bool)
  | bookOrderCount (book : Ptr)
  | trackerNew
  | trackerFree (ptr : Ptr)
  | trackerApplyFill (tracker : Ptr) (symbolHash : UInt64) (fill : Option FfiFill) (side : UInt8)
  | trackerMarkToMarket (tracker : Ptr) (symbolHash : UInt64) (currentPrice : Int64)
  | trackerGet (tracker : Ptr) (symbolHash : UInt64) (out : Bool)
  deriving DecidableEq, Repr

/-- What a client receives. -/
inductive FfiAnswer
  | nothing
  | handle (ptr : Ptr)
  | array (array : RawArray)
  | order (found : Int32) (out : Option FfiOrder)
  | position (found : Int32) (out : Option FfiPosition)
  | price (price : Int64)
  | count (count : Int32)
  deriving DecidableEq, Repr

/-- Run a call. -/
def runCall : FfiCall → Ffi FfiAnswer
  | .fillsFree ptr count => (fun _ => .nothing) <$> alLdgFillsFree ptr count
  | .depthFree ptr count => (fun _ => .nothing) <$> alLdgDepthFree ptr count
  | .ordersFree ptr count => (fun _ => .nothing) <$> alLdgOrdersFree ptr count
  | .bookNew => .handle <$> alLdgBookNew
  | .bookFree ptr => (fun _ => .nothing) <$> alLdgBookFree ptr
  | .bookInsert book order outCount => .array <$> alLdgBookInsert book order outCount
  | .bookInsertWithTime book order nowNs outCount =>
    .array <$> alLdgBookInsertWithTime book order nowNs outCount
  | .bookCancel book id out => (fun r => .order r.1 r.2) <$> alLdgBookCancel book id out
  | .bookBestBid book => .price <$> queryBook alLdgBookBestBid book
  | .bookBestAsk book => .price <$> queryBook alLdgBookBestAsk book
  | .bookSpread book => .price <$> queryBook alLdgBookSpread book
  | .bookDepth book side levels outCount => .array <$> alLdgBookDepth book side levels outCount
  | .bookPurgeExpired book nowNs outCount => .array <$> alLdgBookPurgeExpired book nowNs outCount
  | .bookOrderCount book => .count <$> queryBook alLdgBookOrderCount book
  | .trackerNew => .handle <$> alLdgTrackerNew
  | .trackerFree ptr => (fun _ => .nothing) <$> alLdgTrackerFree ptr
  | .trackerApplyFill tracker symbolHash fill side =>
    (fun _ => .nothing) <$> alLdgTrackerApplyFill tracker symbolHash fill side
  | .trackerMarkToMarket tracker symbolHash currentPrice =>
    (fun _ => .nothing) <$> alLdgTrackerMarkToMarket tracker symbolHash currentPrice
  | .trackerGet tracker symbolHash out =>
    (fun r => .position r.1 r.2) <$> alLdgTrackerGet tracker symbolHash out

end AliceLedger
