import AliceLedger.Book.Purge
import AliceLedger.Book.Quiet
import AliceLedger.Book.Seniority

/-!
# Rebuilding a book from its resting orders

A book is what rests on it: two books whose redundant structures agree are equal when they hold the
same queue at every price (`RepInv.eq_of_queueAt`). So a *snapshot*, which lists the resting orders
in any order that keeps those of each price in theirs, is enough to restart from. Inserted into an
empty book it trades nothing and yields the book, levels, totals and index; inserted under a clock
it yields the book after a purge at that time (`book_of_snapshot`).
-/

namespace AliceLedger

open OrderDual (toDual ofDual)

/-! ## Levels are what rests in them -/

section Levels

variable {K : Type} [LinearOrder K] {priceOf : K → Int64} {side : Side}
  {levels levels' : SortedMap K PriceLevel}

/-- The orders of a level, and what its price and total are, decide the level. -/
theorem LevelSound.eq_of_orders {price : Int64} {level level' : PriceLevel}
    (h : LevelSound side price level) (h' : LevelSound side price level')
    (htotal : level.totalQuantity.toNat = liquidity level.orders)
    (htotal' : level'.totalQuantity.toNat = liquidity level'.orders)
    (horders : level.orders = level'.orders) : level = level' := by
  obtain ⟨p, os, t⟩ := level
  obtain ⟨p', os', t'⟩ := level'
  obtain rfl : os = os' := horders
  obtain rfl : p = p' := h.price_eq.trans h'.price_eq.symm
  obtain rfl : t = t' := UInt64.toNat_inj.mp (htotal.trans htotal'.symm)
  rfl

/-- The queue at the price of a key is that of its level, and empty without one. -/
theorem filter_price_eq_nil_iff (h : LevelsSound priceOf side levels)
    (hinj : Function.Injective priceOf) (key : K) :
    (queueOf levels.entries).filter (fun o => o.price = priceOf key) = [] ↔
      levels.get? key = none := by
  cases hget : levels.get? key with
  | none =>
    refine iff_of_true (List.filter_eq_nil_iff.mpr fun o ho => ?_) rfl
    obtain ⟨e, he, ho⟩ := mem_queueOf.mp ho
    rw [((h e he).resting o ho).2.1, decide_eq_true_eq]
    intro heq
    rw [← hinj heq, SortedMap.mem_entries_iff.mp he] at hget
    exact absurd hget (by simp)
  | some level =>
    obtain ⟨before, after, he⟩ := SortedMap.exists_entries_eq hget
    rw [filter_price_queueOf h hinj he]
    exact iff_of_false (h _ (SortedMap.mem_entries_iff.mpr hget)).nonempty (by simp)

/-- **A side is decided by its queues.** -/
theorem levels_eq_of_filter_price (h : LevelsSound priceOf side levels)
    (h' : LevelsSound priceOf side levels') (hinj : Function.Injective priceOf)
    (hexact : TotalsExact levels) (hexact' : TotalsExact levels')
    (hqueue : ∀ price, (queueOf levels.entries).filter (fun o => o.price = price) =
      (queueOf levels'.entries).filter fun o => o.price = price) : levels = levels' := by
  refine SortedMap.ext_get? fun key => ?_
  have hnil := filter_price_eq_nil_iff h hinj key
  have hnil' := filter_price_eq_nil_iff h' hinj key
  rw [hqueue, hnil'] at hnil
  cases hget : levels.get? key with
  | none => exact (hnil.mpr hget).symm
  | some level =>
    cases hget' : levels'.get? key with
    | none => rw [hnil.mp hget'] at hget; exact absurd hget nofun
    | some level' =>
      have hmem := SortedMap.mem_entries_iff.mpr hget
      have hmem' := SortedMap.mem_entries_iff.mpr hget'
      obtain ⟨before, after, he⟩ := SortedMap.exists_entries_eq hget
      obtain ⟨before', after', he'⟩ := SortedMap.exists_entries_eq hget'
      have horders := hqueue (priceOf key)
      rw [filter_price_queueOf h hinj he, filter_price_queueOf h' hinj he'] at horders
      exact congrArg some ((h _ hmem).eq_of_orders (h' _ hmem') (hexact _ hmem) (hexact' _ hmem')
        horders)

end Levels

namespace OrderBook

variable {book book' : OrderBook} {order : Order} {snapshot : List Order}

/-- **A book is what rests on it.** Two books whose redundant structures agree are equal when they
hold the same queue at every price. -/
theorem RepInv.eq_of_queueAt (h : book.RepInv) (h' : book'.RepInv)
    (hqueue : ∀ side price, book.queueAt side price = book'.queueAt side price) : book = book' := by
  have hindex : book.orderIndex = book'.orderIndex := by
    refine SortedMap.ext_get? fun id => Option.ext fun entry => ?_
    obtain ⟨side, price⟩ := entry
    have hat : ∀ b : OrderBook, (∃ o ∈ b.queue side, o.id = id ∧ o.price = price) ↔
        ∃ o ∈ b.queueAt side price, o.id = id := by
      intro b
      simp only [queueAt, List.mem_filter, decide_eq_true_eq]
      exact exists_congr fun o => by tauto
    rw [h.get?_index, h'.get?_index, hat, hat, hqueue]
  have hbids := levels_eq_of_filter_price h.sound.bids h'.sound.bids ofDual.injective h.bids_exact
    h'.bids_exact (hqueue .bid)
  have hasks := levels_eq_of_filter_price h.sound.asks h'.sound.asks Function.injective_id
    h.asks_exact h'.asks_exact (hqueue .ask)
  obtain ⟨bids, asks, index⟩ := book
  obtain rfl : bids = book'.bids := hbids
  obtain rfl : asks = book'.asks := hasks
  obtain rfl : index = book'.orderIndex := hindex
  rfl

/-! ## Snapshots -/

/-- The orders of a side at a price in a list of orders. -/
def ordersAt (orders : List Order) (side : Side) (price : Int64) : List Order :=
  orders.filter fun o => o.side = side ∧ o.price = price

/-- The resting orders of a book in any order that keeps those at a price in theirs. -/
def Snapshot (book : OrderBook) (orders : List Order) : Prop :=
  ∀ side price, ordersAt orders side price = book.queueAt side price

/-- The two queues in any interleaving are a snapshot. -/
theorem snapshot_of_filter_side
    (h : ∀ side, (snapshot.filter fun o => o.side = side) = book.queue side) :
    book.Snapshot snapshot := fun side price => by
  rw [queueAt, ← h side, List.filter_filter, ordersAt]
  simp only [Bool.decide_and, Bool.and_comm]

/-- What rests on a sound book does not cross. -/
theorem Sound.not_crosses_of_mem (h : book.Sound) {maker : Order}
    (ho : order ∈ book.queue order.side) (hm : maker ∈ book.queue order.side.opposite)
    (htype : order.orderType ≠ .market) : ¬ Crosses order maker := by
  have huncrossed : ∀ b ∈ book.queue .bid, ∀ a ∈ book.queue .ask, b.price < a.price := by
    intro b hb a ha
    obtain ⟨eb, heb, hb⟩ := mem_queueOf.mp hb
    obtain ⟨ea, hea, ha⟩ := mem_queueOf.mp ha
    rw [((h.bids eb heb).resting b hb).2.1, ((h.asks ea hea).resting a ha).2.1]
    exact h.uncrossed eb heb ea hea
  rcases order.side_eq_bid_or_ask with hs | hs
  · rw [hs] at ho hm
    rw [crosses_bid_iff hs, (takerPrice_of_ne_market htype).1]
    exact not_le.mpr (huncrossed order ho maker hm)
  · rw [hs] at ho hm
    rw [crosses_ask_iff hs, (takerPrice_of_ne_market htype).2]
    exact not_le.mpr (huncrossed maker hm order ho)

theorem Sound.queueAt_restOrder (h : book.Sound) (order : Order) (side : Side) (price : Int64) :
    (book.restOrder order).queueAt side price =
      book.queueAt side price ++ ordersAt [order] side price := by
  obtain ⟨hother, -, hown, -⟩ := h.restOrder_queue order
  have hat : ordersAt [order] side price =
      if order.side = side ∧ order.price = price then [order] else [] := by
    rw [ordersAt, List.filter_singleton, Bool.cond_eq_ite]
    simp only [decide_eq_true_eq]
  rw [hat]
  by_cases hs : order.side = side
  · subst hs
    rw [queueAt, hown, queueAt]
    simp only [true_and]
  · rw [if_neg fun h => hs h.1, List.append_nil, queueAt, queueAt, Side.eq_opposite_of_ne
      (Ne.symm hs), hother]

/-- What a book that is being rebuilt holds, with what is still to be inserted. -/
structure Rebuilding (book : OrderBook) (snapshot : List Order) (kept : OrderBook) : Prop where
  repInv : kept.RepInv
  queueAt_eq : ∀ side price,
    kept.queueAt side price ++ ordersAt snapshot side price = book.queueAt side price

namespace Rebuilding

variable {kept : OrderBook}

theorem mem_queue (h : Rebuilding book snapshot kept) {side : Side} {o : Order}
    (ho : o ∈ kept.queue side) : o ∈ book.queue side := by
  have hat : o ∈ kept.queueAt side o.price := List.mem_filter.mpr ⟨ho, decide_eq_true rfl⟩
  have hmem := List.mem_append_left (ordersAt snapshot side o.price) hat
  rw [h.queueAt_eq] at hmem
  exact (List.mem_filter.mp hmem).1

theorem mem_queue_of_mem (h : Rebuilding book (order :: snapshot) kept) :
    order ∈ book.queue order.side := by
  have hat : order ∈ ordersAt (order :: snapshot) order.side order.price :=
    List.mem_filter.mpr ⟨List.mem_cons_self, by simp⟩
  have hmem := List.mem_append_right (kept.queueAt order.side order.price) hat
  rw [h.queueAt_eq] at hmem
  exact (List.mem_filter.mp hmem).1

/-- The next order is not there yet under its id. -/
theorem freshId (h : Rebuilding book (order :: snapshot) kept) (hrep : book.RepInv) :
    kept.FreshId order.id := by
  intro o ho hid
  obtain ⟨side, ho⟩ := mem_resting.mp ho
  have hbook := h.mem_queue ho
  have horder := h.mem_queue_of_mem
  obtain rfl : o = order := List.inj_on_of_nodup_map hrep.nodup (mem_resting.mpr ⟨side, hbook⟩)
    (mem_resting.mpr ⟨_, horder⟩) hid
  obtain rfl : o.side = side := (mem_queue_resting hrep.sound hbook).1
  -- it would rest twice
  have hnodup : (book.queueAt o.side o.price).Nodup :=
    ((hrep.listed.nodup_queue o.side).of_map _).filter _
  rw [← h.queueAt_eq] at hnodup
  have hleft : o ∈ kept.queueAt o.side o.price := List.mem_filter.mpr ⟨ho, decide_eq_true rfl⟩
  have hright : o ∈ ordersAt (o :: snapshot) o.side o.price :=
    List.mem_filter.mpr ⟨List.mem_cons_self, by simp⟩
  exact (List.nodup_append.mp hnodup).2.2 o hleft o hright rfl

/-- **One insertion of a snapshot** rests the order and trades nothing. -/
theorem insert (h : Rebuilding book (order :: snapshot) kept) (hrep : book.RepInv)
    (hfit : book.SumsFit) (hrests : restsRemainder order = true) :
    (kept.insert order).2 = [] ∧ Rebuilding book snapshot (kept.insert order).1 := by
  obtain ⟨-, htype, -⟩ := restsRemainder_iff.mp hrests
  have hcrossing : kept.crossing order = [] := by
    refine List.filter_eq_nil_iff.mpr fun maker hm => ?_
    rw [decide_eq_true_eq]
    exact hrep.sound.not_crosses_of_mem h.mem_queue_of_mem (h.mem_queue hm) htype
  have hsound := h.repInv.sound.insertWithTime order 0
  rw [← OrderBook.insert, h.repInv.sound.insert_of_quiet (.inr (.inl hcrossing)), if_pos hrests]
    at hsound
  rw [h.repInv.sound.insert_of_quiet (.inr (.inl hcrossing)), if_pos hrests]
  have hqueue : ∀ side price, (kept.restOrder order).queueAt side price ++
      ordersAt snapshot side price = book.queueAt side price := by
    intro side price
    rw [h.repInv.sound.queueAt_restOrder, List.append_assoc, ← h.queueAt_eq, ordersAt, ordersAt,
      ← List.filter_append]
    rfl
  have hsums : (kept.restOrder order).SumsFit := by
    intro side price
    refine lt_of_le_of_lt ?_ (hfit side price)
    change liquidity ((kept.restOrder order).queueAt side price) ≤
      liquidity (book.queueAt side price)
    rw [← hqueue side price, liquidity_append]
    exact Nat.le_add_right _ _
  exact ⟨rfl, h.repInv.restOrder hsound (h.freshId hrep) hsums, hqueue⟩

/-- **The run of a snapshot.** -/
theorem insertAll (h : Rebuilding book snapshot kept) (hrep : book.RepInv) (hfit : book.SumsFit)
    (hrests : ∀ o ∈ snapshot, restsRemainder o = true) :
    kept.insertAll snapshot = (book, []) := by
  induction snapshot generalizing kept with
  | nil =>
    have hbook : kept = book := h.repInv.eq_of_queueAt hrep fun side price => by
      rw [← h.queueAt_eq, ordersAt, List.filter_nil, List.append_nil]
    rw [hbook]
    rfl
  | cons o os ih =>
    obtain ⟨hnil, hnext⟩ := h.insert hrep hfit (hrests o List.mem_cons_self)
    have hrest := ih hnext fun x hx => hrests x (List.mem_cons_of_mem _ hx)
    simp only [OrderBook.insertAll, hrest, hnil, List.append_nil]

end Rebuilding

/-! ## Restarting -/

/-- Insert the orders of a list in turn, each with the expiry check at `nowNs`. -/
def insertAllWithTime (nowNs : UInt64) (book : OrderBook) : List Order → OrderBook × List Fill
  | [] => (book, [])
  | order :: orders =>
    let (book, fills) := book.insertWithTime order nowNs
    let (book, fills') := insertAllWithTime nowNs book orders
    (book, fills ++ fills')

/-- An insertion under a clock is one without it unless the order has expired. -/
theorem insertWithTime_eq (book : OrderBook) (order : Order) (nowNs : UInt64) :
    book.insertWithTime order nowNs =
      if isExpired order nowNs then (book, []) else book.insert order := by
  rw [insert, OrderBook.insertWithTime, OrderBook.insertWithTime, isExpired_zero]
  rfl

/-- The clock only leaves out the expired orders. -/
theorem insertAllWithTime_eq (nowNs : UInt64) (book : OrderBook) (orders : List Order) :
    insertAllWithTime nowNs book orders =
      book.insertAll (orders.filter fun o => !isExpired o nowNs) := by
  induction orders generalizing book with
  | nil => rfl
  | cons o os ih =>
    simp only [insertAllWithTime]
    rw [insertWithTime_eq, List.filter_cons]
    cases isExpired o nowNs with
    | true => exact ih book
    | false => simp only [Bool.not_false, if_true, insertAll, ih, if_neg Bool.false_ne_true]

theorem isExpired_eq {nowNs : UInt64} (hnow : 0 < nowNs) (o : Order) :
    isExpired o nowNs = decide (ExpiredBy nowNs o) := by
  rw [Bool.eq_iff_iff, decide_eq_true_iff]
  unfold isExpired ExpiredBy
  cases o.timeInForce with
  | gtd expiryNs => simp [hnow]
  | gtc | ioc | fok => simp

/-- A snapshot without the orders that meet a condition is one of the book without them. -/
theorem Snapshot.discard (h : book.Snapshot snapshot) (p : Order → Bool) :
    (book.discard p).Snapshot (snapshot.filter fun o => !p o) := by
  intro side price
  have hfilter := congrArg (List.filter fun o => !p o) (h side price)
  rw [ordersAt, queueAt, List.filter_filter, List.filter_filter] at hfilter
  rw [ordersAt, queueAt, queue_discard, List.filter_filter, List.filter_filter]
  simpa only [Bool.and_comm] using hfilter

theorem sumsFit_discard (h : book.SumsFit) (p : Order → Bool) : (book.discard p).SumsFit := by
  intro side price
  refine lt_of_le_of_lt ?_ (h side price)
  rw [queue_discard]
  exact (((List.filter_sublist.filter _).map _).sum_le_sum (by simp))

/-- **A snapshot rebuilds its book.** -/
theorem RepInv.insertAll_snapshot (h : book.RepInv) (hfit : book.SumsFit)
    (hsnap : book.Snapshot snapshot) (hrests : ∀ o ∈ book.resting, restsRemainder o = true) :
    new.insertAll snapshot = (book, []) := by
  have hstart : Rebuilding book snapshot new := by
    refine ⟨repInv_new, fun side price => ?_⟩
    rw [← hsnap side price]
    cases side <;> rfl
  refine hstart.insertAll h hfit fun o ho => hrests o ?_
  have hat : o ∈ ordersAt snapshot o.side o.price := List.mem_filter.mpr ⟨ho, by simp⟩
  rw [hsnap] at hat
  exact mem_resting.mpr ⟨o.side, (List.mem_filter.mp hat).1⟩

/-- **Recovery.** Take any run whose resting ids stay distinct and whose sums at each price stay
below 2^64, and any list of the resting orders that keeps those at a price in their order. Inserting
the list into an empty book trades nothing and rebuilds the book, its totals and its index included;
inserting it with the clock at any later time gives the book that a purge at that time leaves. -/
theorem book_of_snapshot (ops : List BookOp) (h : Run.Throughout step WellKept new ops)
    (snapshot : List Order) (hsnap : (ops.foldl step new).Snapshot snapshot) :
    let book := ops.foldl step new
    new.insertAll snapshot = (book, []) ∧ ∀ nowNs, 0 < nowNs →
      insertAllWithTime nowNs new snapshot = ((book.purgeExpired nowNs).1, []) := by
  intro book
  have hrep : book.RepInv := repInv_run h
  have hfit : book.SumsFit := (Run.throughout_iff_forall_append.mp h ops [] (by simp)).sums_fit
  have hrests : ∀ o ∈ book.resting, restsRemainder o = true := fun o ho => by
    obtain ⟨side, ho⟩ := mem_resting.mp ho
    exact restsRemainder_of_mem_queue ho
  refine ⟨hrep.insertAll_snapshot hfit hsnap hrests, fun nowNs hnow => ?_⟩
  have hpurged : book.discard (fun o => ExpiredBy nowNs o) = (book.purgeExpired nowNs).1 :=
    (congrArg Prod.fst (hrep.listed.purgeExpired_eq hrep.sound hrep.indexLive nowNs)).symm
  have hrep' : (book.purgeExpired nowNs).1.RepInv :=
    cancelIds_invariant RepInv (fun _ id h => h.cancel id) hrep _
  rw [← hpurged] at hrep' ⊢
  simp only [insertAllWithTime_eq, isExpired_eq hnow]
  refine hrep'.insertAll_snapshot (sumsFit_discard hfit _) (hsnap.discard _) fun o ho => ?_
  rw [resting_discard] at ho
  exact hrests o (List.mem_filter.mp ho).1

/-- Two bids at one price and an ask, of which the second bid has traded, listed ask first. -/
theorem book_of_snapshot_partial :
    let book := [BookOp.insert (.limit 1 .bid 10 2 0), .insert (.limit 2 .bid 10 5 1),
      .insert (.limit 3 .ask 10 3 2), .insert (.limit 4 .ask 12 7 3)].foldl step new
    new.insertAll [.limit 4 .ask 12 7 3, { Order.limit 2 .bid 10 5 1 with filledQuantity := 1 }] =
      (book, []) := by
  have hfits : ∀ book : OrderBook, liquidity (book.queue .bid) < 2 ^ 64 →
      liquidity (book.queue .ask) < 2 ^ 64 → (book.resting.map Order.id).Nodup → book.WellKept :=
    fun _ hbid hask hnodup => ⟨hnodup, sumsFit_of_liquidity_queue hbid hask⟩
  exact (book_of_snapshot [.insert (.limit 1 .bid 10 2 0), .insert (.limit 2 .bid 10 5 1),
    .insert (.limit 3 .ask 10 3 2), .insert (.limit 4 .ask 12 7 3)]
    ⟨hfits _ (by decide) (by decide) (by decide), hfits _ (by decide) (by decide) (by decide),
      hfits _ (by decide) (by decide) (by decide), hfits _ (by decide) (by decide) (by decide),
      hfits _ (by decide) (by decide) (by decide)⟩ _ (snapshot_of_filter_side fun side => by
        cases side <;> decide)).1

end OrderBook

end AliceLedger
