import AliceLedger.Ffi.Model
import AliceLedger.Lib.Run

/-!
# What a client asks for

A call of the foreign interface is one of five things (`FfiRequest`): it is refused for a null
pointer, creates a book or a tracker, releases an object, or is a request to one book or to one
tracker. A request to a book reads the book, puts the next book in its place and answers from the
book that it read, and an array in the answer is a new object. `runCall_eq` says that the calls do
that, so that what follows need not look at them one by one.

A session of a client is the list of its calls, and its run `List.mapM runCall` on the empty heap.
-/

namespace AliceLedger

/-! ## Requests -/

/-- What a pointer is taken for; the array is taken to have `count` elements. -/
inductive Owned
  | book
  | tracker
  | fills (count : Int32)
  | depth (count : Int32)
  | orders (count : Int32)
  deriving DecidableEq, Repr

namespace Owned

/-- The layout of an array of `count` elements. -/
def layout? : Owned → Option Layout
  | .book | .tracker => none
  | .fills count => some (FfiFill.layout.array count.toInt.toNat)
  | .depth count => some (FfiDepthLevel.layout.array count.toInt.toNat)
  | .orders count => some (FfiOrder.layout.array count.toInt.toNat)

/-- An object is what it is taken for: an array by its layout alone. -/
def is (owned : Owned) (o : Object) : Bool :=
  match owned, o with
  | .book, .book _ | .tracker, .tracker _ => true
  | owned, o => o.layout?.any fun held => owned.layout?.any held.fits

variable (o : Object)

theorem is_book_iff : Owned.book.is o = true ↔ ∃ b, o = Object.bookKind.inject b := by
  cases o <;> simp [is, Object.bookKind, Object.layout?, layout?]

theorem is_tracker_iff : Owned.tracker.is o = true ↔ ∃ t, o = Object.trackerKind.inject t := by
  cases o <;> simp [is, Object.trackerKind, Object.layout?, layout?]

/-- What is taken for an array fits the layout of the array. -/
theorem is_iff_of_layout {owned : Owned} {layout : Layout} (h : owned.layout? = some layout) :
    owned.is o = true ↔ ∃ held, o.layout? = some held ∧ held.fits layout = true := by
  cases owned with
  | book | tracker => cases h
  | fills | depth | orders => cases o <;> simp [is, h, Object.layout?]

end Owned

/-- A request to a book. -/
inductive BookRequest
  | insert (order : Order)
  | insertWithTime (order : Order) (nowNs : UInt64)
  | cancel (id : OrderId) (out : Bool)
  | bestBid
  | bestAsk
  | spread
  | depth (side : Side) (levels : ℕ)
  | purgeExpired (nowNs : UInt64)
  | orderCount

/-- What a book replies. -/
inductive BookReply
  | fills (fills : List Fill)
  | cancelled (order : Option Order) (out : Bool)
  | price (price : Int64)
  | depth (depth : List (Int64 × UInt64))
  | expired (orders : List Order)
  | count (count : Int32)

namespace BookRequest

/-- The operation on the book, where the request is not a query. -/
def op : BookRequest → Option BookOp
  | .insert order => some (.insert order)
  | .insertWithTime order nowNs => some (.insertWithTime order nowNs)
  | .cancel id _ => some (.cancel id)
  | .purgeExpired nowNs => some (.purgeExpired nowNs)
  | _ => none

/-- The book after a request. -/
def next (book : OrderBook) (request : BookRequest) : OrderBook :=
  request.op.elim book book.step

/-- The reply of a book. -/
def reply (book : OrderBook) : BookRequest → BookReply
  | .insert order => .fills (book.insert order).2
  | .insertWithTime order nowNs => .fills (book.insertWithTime order nowNs).2
  | .cancel id out => .cancelled (book.cancel id).2 out
  | .bestBid => .price (alLdgBookBestBid (some book))
  | .bestAsk => .price (alLdgBookBestAsk (some book))
  | .spread => .price (alLdgBookSpread (some book))
  | .depth side levels => .depth (book.depth side levels)
  | .purgeExpired nowNs => .expired (book.purgeExpired nowNs).2
  | .orderCount => .count (alLdgBookOrderCount (some book))

end BookRequest

/-- A reply as it is passed to the client. -/
def BookReply.marshal : BookReply → Ffi FfiAnswer
  | .fills fs => .array <$> toRaw Object.fillsKind (fs.map fillToFfi)
  | .cancelled order out =>
    return .order (if order.isSome then 1 else 0) (if out then order.map orderToFfi else none)
  | .price p => return .price p
  | .depth ds => .array <$> toRaw Object.depthKind (ds.map fun e => ⟨e.1, e.2⟩)
  | .expired os => .array <$> toRaw Object.ordersKind (os.map orderToFfi)
  | .count n => return .count n

/-- A request to a tracker. -/
inductive TrackerRequest
  | call (symbolHash : UInt64) (op : PositionOp)
  | get (symbolHash : UInt64)

namespace TrackerRequest

/-- The operation on the tracker, where the request is not a query. -/
def op : TrackerRequest → Option (UInt64 × PositionOp)
  | .call symbolHash op => some (symbolHash, op)
  | .get _ => none

/-- The tracker after a request. -/
def next (tracker : PositionTracker) : TrackerRequest → Option PositionTracker
  | .call symbolHash op => tracker.step symbolHash op
  | .get _ => some tracker

/-- The answer of a tracker. -/
def answer (tracker : PositionTracker) : TrackerRequest → FfiAnswer
  | .call _ _ => .nothing
  | .get symbolHash =>
    .position (if (tracker.get symbolHash).isSome then 1 else 0)
      ((tracker.get symbolHash).map positionToFfi)

end TrackerRequest

/-- What a call asks for. -/
inductive FfiRequest
  /-- A null pointer stops the call, with this answer. -/
  | refused (answer : FfiAnswer)
  | newBook
  | newTracker
  | release (p : ℕ) (owned : Owned)
  | book (p : ℕ) (request : BookRequest)
  | tracker (p : ℕ) (request : TrackerRequest)

/-- Do what is asked for. -/
def FfiRequest.run : FfiRequest → Ffi FfiAnswer
  | .refused answer => return answer
  | .newBook => (fun p => .handle (some p)) <$> allocate (.book .new)
  | .newTracker => (fun p => .handle (some p)) <$> allocate (.tracker .new)
  | .release p owned => fun heap =>
    match heap.get? p with
    | some o => if owned.is o then .ok (.nothing, heap.free p) else .error .undefined
    | none => .error .undefined
  | .book p request => do
    let book ← deref Object.bookKind p
    update p (.book (request.next book))
    (request.reply book).marshal
  | .tracker p request => do
    let tracker ← deref Object.trackerKind p
    let next ← orPanic (request.next tracker)
    update p (.tracker next)
    return request.answer tracker

/-- Freeing an array: nothing is asked for with a null pointer, or a count that is not positive. -/
def releaseArray (owned : Int32 → Owned) (ptr : Ptr) (count : Int32) : FfiRequest :=
  match ptr with
  | none => .refused .nothing
  | some p => if count > 0 then .release p (owned count) else .refused .nothing

/-- The request of a call. -/
def FfiCall.request : FfiCall → FfiRequest
  | .fillsFree ptr count => releaseArray .fills ptr count
  | .depthFree ptr count => releaseArray .depth ptr count
  | .ordersFree ptr count => releaseArray .orders ptr count
  | .bookNew => .newBook
  | .bookFree none => .refused .nothing
  | .bookFree (some p) => .release p .book
  | .bookInsert (some p) (some order) true => .book p (.insert (ffiToOrder order))
  | .bookInsert _ _ _ => .refused (.array ⟨none, none⟩)
  | .bookInsertWithTime (some p) (some order) nowNs true =>
    .book p (.insertWithTime (ffiToOrder order) nowNs)
  | .bookInsertWithTime _ _ _ _ => .refused (.array ⟨none, none⟩)
  | .bookCancel none _ _ => .refused (.order 0 none)
  | .bookCancel (some p) id out => .book p (.cancel ⟨id⟩ out)
  | .bookBestBid none => .refused (.price Int64.minValue)
  | .bookBestBid (some p) => .book p .bestBid
  | .bookBestAsk none => .refused (.price Int64.maxValue)
  | .bookBestAsk (some p) => .book p .bestAsk
  | .bookSpread none => .refused (.price Int64.minValue)
  | .bookSpread (some p) => .book p .spread
  | .bookDepth (some p) side levels true =>
    if levels ≤ 0 then .refused (.array ⟨none, some 0⟩)
    else .book p (.depth (ffiToSide side) levels.toInt.toNat)
  | .bookDepth _ _ _ outCount => .refused (.array ⟨none, if outCount then some 0 else none⟩)
  | .bookPurgeExpired (some p) nowNs true => .book p (.purgeExpired nowNs)
  | .bookPurgeExpired _ _ outCount => .refused (.array ⟨none, if outCount then some 0 else none⟩)
  | .bookOrderCount none => .refused (.count 0)
  | .bookOrderCount (some p) => .book p .orderCount
  | .trackerNew => .newTracker
  | .trackerFree none => .refused .nothing
  | .trackerFree (some p) => .release p .tracker
  | .trackerApplyFill (some p) symbolHash (some fill) side =>
    .tracker p (.call symbolHash (.applyFill (ffiToFill fill) (ffiToSide side)))
  | .trackerApplyFill _ _ _ _ => .refused .nothing
  | .trackerMarkToMarket none _ _ => .refused .nothing
  | .trackerMarkToMarket (some p) symbolHash currentPrice =>
    .tracker p (.call symbolHash (.markToMarket currentPrice))
  | .trackerGet (some p) symbolHash true => .tracker p (.get symbolHash)
  | .trackerGet _ _ _ => .refused (.position 0 none)

/-! ## The calls do what is asked for -/

section Calls

variable {α : Type} {heap : Heap Object} {p : ℕ}

theorem load_book_iff {book : OrderBook} :
    heap.load p Object.bookKind = some book ↔ heap.get? p = some (.book book) :=
  Heap.load_eq_some_iff

theorem load_tracker_iff {tracker : PositionTracker} :
    heap.load p Object.trackerKind = some tracker ↔ heap.get? p = some (.tracker tracker) :=
  Heap.load_eq_some_iff

theorem deref_of_load {kind : ObjectKind Object α} {a : α} (h : heap.load p kind = some a) :
    deref kind p heap = .ok (a, heap) := by
  rw [deref, h]

theorem deref_of_load_none {kind : ObjectKind Object α} (h : heap.load p kind = none) :
    deref kind p heap = .error .undefined := by
  rw [deref, h]

/-- Reading something off the object at a pointer, testing it and releasing the object is a
release. -/
theorem release_eq {read : Ffi α} {view : Object → Option α} {owned : Owned} {p : ℕ}
    (hread : ∀ heap, read heap =
      ((heap.get? p).bind view).elim (.error .undefined) fun a => .ok (a, heap))
    {test : α → Prop} [DecidablePred test]
    (h : ∀ o, owned.is o = true ↔ ∃ a, view o = some a ∧ test a) :
    (fun _ => FfiAnswer.nothing) <$>
        (read >>= fun a => if test a then release p else fault .undefined) =
      (FfiRequest.release p owned).run := by
  funext heap
  change ((read heap).bind fun r =>
    (if test r.1 then release p else fault .undefined) r.2).map _ = _
  rw [hread]
  simp only [FfiRequest.run]
  cases heap.get? p with
  | none => rfl
  | some o =>
    rw [Option.bind_some]
    cases hview : view o with
    | none =>
      have his : ¬ owned.is o = true := fun ho => by
        obtain ⟨a, ha, -⟩ := (h o).mp ho
        exact absurd (hview.symm.trans ha) nofun
      simp only [if_neg his]
      rfl
    | some a =>
      have his : owned.is o = true ↔ test a := by
        rw [h, hview]
        exact ⟨fun ⟨_, hb, htest⟩ => Option.some.inj hb ▸ htest, fun htest => ⟨a, rfl, htest⟩⟩
      by_cases htest : test a
      · simp only [if_pos (his.mpr htest)]
        change ((if test a then release p else fault .undefined) heap).map _ = _
        rw [if_pos htest]
        rfl
      · simp only [if_neg (his.not.mpr htest)]
        change ((if test a then release p else fault .undefined) heap).map _ = _
        rw [if_neg htest]
        rfl

/-- Freeing a box is a release. -/
theorem freeBox_eq {kind : ObjectKind Object α} {owned : Owned}
    (h : ∀ o, owned.is o = true ↔ ∃ a, o = kind.inject a) (p : ℕ) :
    (fun _ => FfiAnswer.nothing) <$> freeBox kind (some p) = (FfiRequest.release p owned).run := by
  have hread : ∀ heap, deref kind p heap =
      ((heap.get? p).bind kind.get?).elim (.error .undefined) fun a => .ok (a, heap) := by
    intro heap
    rw [deref, Heap.load]
    cases (heap.get? p).bind kind.get? <;> rfl
  have hrelease := @release_eq α _ _ owned p hread (fun _ => True) _ fun o => by
    simp only [h, kind.get?_eq_some_iff, and_true]
  simp only [if_true] at hrelease
  exact hrelease

/-- Freeing an array is a release, when the count is that of an array at all. -/
theorem freeArray_eq {element : Layout} {owned : Int32 → Owned}
    (h : ∀ count, (owned count).layout? = some (element.array count.toInt.toNat)) (ptr : Ptr)
    (count : Int32) :
    (fun _ => FfiAnswer.nothing) <$> freeArray element ptr count =
      (releaseArray owned ptr count).run := by
  cases ptr with
  | none => rfl
  | some p =>
    have hread : ∀ heap, layoutAt p heap =
        ((heap.get? p).bind Object.layout?).elim (.error .undefined) fun a => .ok (a, heap) := by
      intro heap
      rw [layoutAt]
      cases (heap.get? p).bind Object.layout? <;> rfl
    unfold releaseArray freeArray
    split_ifs with hcount
    · refine release_eq hread fun o => ?_
      exact Owned.is_iff_of_layout o (h count)
    · rfl

/-- A request that leaves the book as it is reads it and answers. -/
theorem readBook_eq {request : BookRequest} (hop : request.op = none)
    {f : OrderBook → Ffi FfiAnswer} (h : ∀ book, f book = (request.reply book).marshal) (p : ℕ) :
    deref Object.bookKind p >>= f = (FfiRequest.book p request).run := by
  funext heap
  change ((deref Object.bookKind p heap).bind fun r => f r.1 r.2) =
    (deref Object.bookKind p heap).bind fun r =>
      (request.reply r.1).marshal (r.2.write p (.book (request.next r.1)))
  cases hload : heap.load p Object.bookKind with
  | none => rw [deref_of_load_none hload]; rfl
  | some book =>
    have hnext : request.next book = book := by rw [BookRequest.next, hop]; rfl
    rw [deref_of_load hload]
    change f book heap = (request.reply book).marshal (heap.write p (.book (request.next book)))
    rw [hnext, h, Heap.write_eq_self (load_book_iff.mp hload)]

theorem queryBook_eq {query : Option OrderBook → α} {answer : α → FfiAnswer}
    {request : BookRequest} (hop : request.op = none)
    (h : ∀ book, (request.reply book).marshal = pure (answer (query (some book)))) (p : ℕ) :
    answer <$> queryBook query (some p) = (FfiRequest.book p request).run := by
  rw [queryBook, map_bind, ← readBook_eq hop fun book => rfl]
  exact bind_congr fun book => (h book).symm

/-- The query of a tracker reads it and puts it back. -/
theorem getTracker_eq {symbolHash : UInt64} {f : PositionTracker → Ffi FfiAnswer}
    (h : ∀ tracker, f tracker = pure ((TrackerRequest.get symbolHash).answer tracker)) (p : ℕ) :
    deref Object.trackerKind p >>= f = (FfiRequest.tracker p (.get symbolHash)).run := by
  funext heap
  change ((deref Object.trackerKind p heap).bind fun r => f r.1 r.2) =
    (deref Object.trackerKind p heap).bind fun r => Except.ok
      ((TrackerRequest.get symbolHash).answer r.1, r.2.write p (.tracker r.1))
  cases hload : heap.load p Object.trackerKind with
  | none => rw [deref_of_load_none hload]; rfl
  | some tracker =>
    rw [deref_of_load hload]
    change f tracker heap = Except.ok (_, heap.write p (.tracker tracker))
    rw [h, Heap.write_eq_self (load_tracker_iff.mp hload)]
    rfl

end Calls

/-- **Every call does what it asks for**, in the one way that its request names. -/
theorem runCall_eq (call : FfiCall) : runCall call = call.request.run := by
  cases call with
  | fillsFree ptr count => exact freeArray_eq (fun _ => rfl) ptr count
  | depthFree ptr count => exact freeArray_eq (fun _ => rfl) ptr count
  | ordersFree ptr count => exact freeArray_eq (fun _ => rfl) ptr count
  | bookNew => rfl
  | bookFree ptr =>
    cases ptr with
    | none => rfl
    | some p => exact freeBox_eq Owned.is_book_iff p
  | bookInsert book order outCount =>
    rcases book with _ | p <;> rcases order with _ | order <;> rcases outCount with _ | _
    case some.some.true =>
      simp only [runCall, alLdgBookInsert, map_bind]
      rfl
    all_goals rfl
  | bookInsertWithTime book order nowNs outCount =>
    rcases book with _ | p <;> rcases order with _ | order <;> rcases outCount with _ | _
    case some.some.true =>
      simp only [runCall, alLdgBookInsertWithTime, map_bind]
      rfl
    all_goals rfl
  | bookCancel book id out =>
    cases book with
    | none => rfl
    | some p =>
      simp only [runCall, alLdgBookCancel, map_bind]
      refine bind_congr fun book => bind_congr fun _ => ?_
      simp only [BookRequest.reply, BookReply.marshal]
      cases (book.cancel ⟨id⟩).2 <;> cases out <;> rfl
  | bookBestBid book =>
    cases book with
    | none => rfl
    | some p => exact queryBook_eq rfl (fun _ => rfl) p
  | bookBestAsk book =>
    cases book with
    | none => rfl
    | some p => exact queryBook_eq rfl (fun _ => rfl) p
  | bookSpread book =>
    cases book with
    | none => rfl
    | some p => exact queryBook_eq rfl (fun _ => rfl) p
  | bookDepth book side levels outCount =>
    rcases book with _ | p <;> rcases outCount with _ | _
    case some.true =>
      simp only [runCall, alLdgBookDepth, FfiCall.request]
      split_ifs with hlevels
      · rfl
      · rw [map_bind]
        exact @readBook_eq (.depth (ffiToSide side) levels.toInt.toNat) rfl _ (fun _ => rfl) p
    all_goals rfl
  | bookPurgeExpired book nowNs outCount =>
    rcases book with _ | p <;> rcases outCount with _ | _
    case some.true =>
      simp only [runCall, alLdgBookPurgeExpired, map_bind]
      rfl
    all_goals rfl
  | bookOrderCount book =>
    cases book with
    | none => rfl
    | some p => exact queryBook_eq rfl (fun _ => rfl) p
  | trackerNew => rfl
  | trackerFree ptr =>
    cases ptr with
    | none => rfl
    | some p => exact freeBox_eq Owned.is_tracker_iff p
  | trackerApplyFill tracker symbolHash fill side =>
    rcases tracker with _ | p <;> rcases fill with _ | fill
    case some.some =>
      simp only [runCall, alLdgTrackerApplyFill, map_bind]
      rfl
    all_goals rfl
  | trackerMarkToMarket tracker symbolHash currentPrice =>
    cases tracker with
    | none => rfl
    | some p =>
      simp only [runCall, alLdgTrackerMarkToMarket, map_bind]
      rfl
  | trackerGet tracker symbolHash out =>
    rcases tracker with _ | p <;> rcases out with _ | _
    case some.true =>
      simp only [runCall, alLdgTrackerGet, map_bind]
      refine getTracker_eq (fun tracker => ?_) p
      simp only [TrackerRequest.answer]
      cases tracker.get symbolHash <;> rfl
    all_goals rfl

/-! ## What a request does -/

/-- What a request follows a pointer to. -/
def FfiRequest.target : FfiRequest → Option (ℕ × Owned)
  | .refused _ | .newBook | .newTracker => none
  | .release p owned => some (p, owned)
  | .book p _ => some (p, .book)
  | .tracker p _ => some (p, .tracker)

namespace BookReply

/-- The array that a reply allocates: none when it has no elements. -/
def payload : BookReply → Option Object
  | .fills fs => if fs.isEmpty then none else some (.fills (fs.map fillToFfi))
  | .depth ds => if ds.isEmpty then none else some (.depth (ds.map fun e => ⟨e.1, e.2⟩))
  | .expired os => if os.isEmpty then none else some (.orders (os.map orderToFfi))
  | _ => none

/-- A reply allocates arrays only. -/
theorem payload_ne {reply : BookReply} {o : Object} (h : reply.payload = some o) :
    (∀ book, o ≠ .book book) ∧ ∀ tracker, o ≠ .tracker tracker := by
  cases reply with
  | fills xs | depth xs | expired xs =>
    simp only [payload] at h
    split_ifs at h
    cases h
    exact ⟨nofun, nofun⟩
  | cancelled | price | count => cases h

/-- The array of an answer: null when it has no elements. -/
def arrayAt (p count : ℕ) : RawArray :=
  if count = 0 then ⟨none, some 0⟩ else ⟨some p, some (Int32.ofNat count)⟩

/-- The answer that passes a reply, with its array at an address. -/
def answer (address : ℕ) : BookReply → FfiAnswer
  | .fills fs => .array (arrayAt address fs.length)
  | .cancelled order out =>
    .order (if order.isSome then 1 else 0) (if out then order.map orderToFfi else none)
  | .price p => .price p
  | .depth ds => .array (arrayAt address ds.length)
  | .expired os => .array (arrayAt address os.length)
  | .count n => .count n

theorem toRaw_map_apply {α β : Type} (kind : ObjectKind Object (List β)) (f : α → β) (xs : List α)
    (heap : Heap Object) : (FfiAnswer.array <$> toRaw kind (xs.map f)) heap =
      .ok (.array (arrayAt heap.next xs.length),
        (if xs.isEmpty then none else some (kind.inject (xs.map f))).elim heap heap.alloc) := by
  cases xs with
  | nil => rfl
  | cons x xs =>
    simp only [toRaw, arrayAt, List.map_cons, List.isEmpty_cons, Bool.false_eq_true, if_false,
      List.length_cons, List.length_map, Nat.succ_ne_zero, Option.elim_some]
    rfl

/-- **Passing a reply** allocates its array and nothing else, and never fails. -/
theorem marshal_apply (reply : BookReply) (heap : Heap Object) :
    reply.marshal heap = .ok (reply.answer heap.next, reply.payload.elim heap heap.alloc) := by
  cases reply with
  | fills fs => exact toRaw_map_apply Object.fillsKind fillToFfi fs heap
  | depth ds => exact toRaw_map_apply Object.depthKind _ ds heap
  | expired os => exact toRaw_map_apply Object.ordersKind orderToFfi os heap
  | cancelled order out => rfl
  | price price => rfl
  | count count => rfl

end BookReply

/-- The ways in which a request ends. -/
inductive RequestResult (heap : Heap Object) :
    FfiRequest → Except FfiFault (FfiAnswer × Heap Object) → Prop
  | refused (answer : FfiAnswer) : RequestResult heap (.refused answer) (.ok (answer, heap))
  | newBook : RequestResult heap .newBook
      (.ok (.handle (some heap.next), heap.alloc (.book .new)))
  | newTracker : RequestResult heap .newTracker
      (.ok (.handle (some heap.next), heap.alloc (.tracker .new)))
  | release {p : ℕ} {owned : Owned} {o : Object} (hget : heap.get? p = some o)
      (his : owned.is o = true) :
      RequestResult heap (.release p owned) (.ok (.nothing, heap.free p))
  | book {p : ℕ} {request : BookRequest} {book : OrderBook}
      {heap' : Heap Object} (hget : heap.get? p = some (.book book))
      (hwrite : heap.write p (.book (request.next book)) = heap') :
      RequestResult heap (.book p request) (.ok ((request.reply book).answer heap.next,
        (request.reply book).payload.elim heap' heap'.alloc))
  | tracker {p : ℕ} {request : TrackerRequest} {tracker tracker' : PositionTracker}
      (hget : heap.get? p = some (.tracker tracker))
      (hnext : request.next tracker = some tracker') :
      RequestResult heap (.tracker p request)
        (.ok (request.answer tracker, heap.write p (.tracker tracker')))
  | panics {p : ℕ} {request : TrackerRequest} {tracker : PositionTracker}
      (hget : heap.get? p = some (.tracker tracker)) (hnext : request.next tracker = none) :
      RequestResult heap (.tracker p request) (.error .panic)
  | undefined {request : FfiRequest} {p : ℕ} {owned : Owned}
      (htarget : request.target = some (p, owned))
      (hnot : ∀ o, heap.get? p = some o → owned.is o = false) :
      RequestResult heap request (.error .undefined)

/-- **What a request does**, in the cases of the object at its pointer. -/
theorem request_result (heap : Heap Object) (request : FfiRequest) :
    RequestResult heap request (request.run heap) := by
  cases request with
  | refused answer => exact .refused answer
  | newBook => exact .newBook
  | newTracker => exact .newTracker
  | release p owned =>
    have hrun : (FfiRequest.release p owned).run heap = (heap.get? p).elim (.error .undefined)
        fun o => if owned.is o then .ok (.nothing, heap.free p) else .error .undefined := by
      simp only [FfiRequest.run]
      cases heap.get? p <;> rfl
    rw [hrun]
    cases hget : heap.get? p with
    | none => exact .undefined rfl fun o ho => absurd (hget.symm.trans ho) nofun
    | some o =>
      change RequestResult heap _ (if owned.is o then _ else _)
      split_ifs with his
      · exact .release hget his
      · refine .undefined rfl fun o' ho => ?_
        rw [← Option.some.inj (hget.symm.trans ho)]
        exact Bool.eq_false_of_not_eq_true his
  | book p request =>
    change RequestResult heap _ ((deref Object.bookKind p heap).bind fun r =>
      (request.reply r.1).marshal (r.2.write p (.book (request.next r.1))))
    cases hload : heap.load p Object.bookKind with
    | none =>
      rw [deref_of_load_none hload]
      refine .undefined rfl fun o ho => Bool.eq_false_of_not_eq_true fun his => ?_
      obtain ⟨book, rfl⟩ := (Owned.is_book_iff o).mp his
      exact absurd (hload.symm.trans (load_book_iff.mpr ho)) nofun
    | some book =>
      rw [deref_of_load hload]
      change RequestResult heap _ ((request.reply book).marshal _)
      rw [BookReply.marshal_apply, Heap.next_write]
      exact .book (load_book_iff.mp hload) rfl
  | tracker p request =>
    change RequestResult heap _ ((deref Object.trackerKind p heap).bind fun r =>
      (orPanic (request.next r.1) r.2).bind fun n =>
        .ok (request.answer r.1, n.2.write p (.tracker n.1)))
    cases hload : heap.load p Object.trackerKind with
    | none =>
      rw [deref_of_load_none hload]
      refine .undefined rfl fun o ho => Bool.eq_false_of_not_eq_true fun his => ?_
      obtain ⟨tracker, rfl⟩ := (Owned.is_tracker_iff o).mp his
      exact absurd (hload.symm.trans (load_tracker_iff.mpr ho)) nofun
    | some tracker =>
      rw [deref_of_load hload]
      change RequestResult heap _ ((orPanic (request.next tracker) heap).bind _)
      cases hnext : request.next tracker with
      | none => exact .panics (load_tracker_iff.mp hload) hnext
      | some next => exact .tracker (load_tracker_iff.mp hload) hnext

end AliceLedger
