import AliceLedger.Book.Index
import AliceLedger.Book.Quiet

/-!
# Exact cancellation

While the resting ids are distinct and the sums at each price fit in 64 bits, a cancellation takes
out exactly the order it is asked for (`cancel_exact`): the queues keep their order, the level of
the order loses what it had left and goes when that empties it, and the index forgets the id only.
Cancelling an order that was inserted without a trade takes the insertion back, the whole book
included (`cancel_insert`).
-/

namespace AliceLedger

open OrderDual (toDual ofDual)

theorem UInt64.saturatingSub_of_le {a b : UInt64} (h : b ≤ a) : a.saturatingSub b = a - b :=
  if_pos h

/-- A level without one of its orders. -/
def PriceLevel.without (level : PriceLevel) (orders : List Order) (o : Order) : PriceLevel :=
  { level with orders, totalQuantity := level.totalQuantity - o.remaining }

section Side

variable {K : Type*} [LinearOrder K] {priceOf : K → Int64} {side : Side}
  {levels : SortedMap K PriceLevel}

/-- **What a cancellation at a key does to the levels** when their totals are exact. -/
theorem cancelAt_levels (h : LevelsSound priceOf side levels) (hx : TotalsExact levels) {key : K}
    {id : OrderId} {o : Order} (hsome : (cancelAt levels key id).2 = some o) :
    ∃ before level after pre post, levels.entries = before ++ (key, level) :: after ∧
      level.orders = pre ++ o :: post ∧ (o.side = side ∧ o.price = priceOf key) ∧
      o.remaining ≤ level.totalQuantity ∧
      (cancelAt levels key id).1.entries =
        if pre ++ post = [] then before ++ after
        else before ++ (key, level.without (pre ++ post) o) :: after := by
  rcases cancelAt_cases levels key id with
    ⟨hc, -⟩ | ⟨before, level, after, pre, o', post, he, ho, -, -, hsome', hc⟩
  · rw [hc] at hsome
    exact absurd hsome (by simp)
  · obtain rfl := Option.some.inj (hsome'.symm.trans hsome)
    have hmem : (key, level) ∈ levels.entries := by rw [he]; simp
    have hin : o' ∈ level.orders := by rw [ho]; simp
    obtain ⟨hside, hprice, -⟩ := (h (key, level) hmem).resting o' hin
    have hle := remaining_le_of_total (hx (key, level) hmem) hin
    refine ⟨before, level, after, pre, post, he, ho, ⟨hside, hprice⟩, hle, ?_⟩
    rw [hc, UInt64.saturatingSub_of_le hle]
    rfl

/-- Removing the order just pushed restores the level. -/
theorem removeFromLevel_push {level : PriceLevel} {order : Order}
    (hid : ∀ o ∈ level.orders, o.id ≠ order.id)
    (hfit : level.totalQuantity.toNat + order.remaining.toNat < 2 ^ 64) :
    removeFromLevel (level.push order) order.id = (level, some order) := by
  rcases removeFromLevel_cases (level.push order) order.id with
    ⟨hnone, -⟩ | ⟨pre, o, post, ho, hid', hpre, h⟩
  · exact absurd rfl (hnone order (by simp [PriceLevel.push]))
  · have hsplit : pre = level.orders ∧ o = order ∧ post = [] := by
      rcases List.eq_nil_or_concat' post with rfl | ⟨post, x, rfl⟩
      · have hlast : level.orders ++ [order] = pre ++ [o] := ho
        obtain ⟨hinit, hone⟩ := List.append_inj' hlast rfl
        exact ⟨hinit.symm, (List.cons.inj hone).1.symm, rfl⟩
      · have hlast : level.orders ++ [order] = (pre ++ o :: post) ++ [x] := by
          rw [List.append_assoc, List.cons_append]
          exact ho
        obtain ⟨hinit, -⟩ := List.append_inj' hlast rfl
        exact absurd hid' (hid o (by rw [hinit]; simp))
    obtain ⟨rfl, rfl, rfl⟩ := hsplit
    rw [h, List.append_nil]
    have hadd := UInt64.toNat_add_of_lt hfit
    have htotal : (level.push o).totalQuantity.saturatingSub o.remaining = level.totalQuantity := by
      apply UInt64.toNat_inj.mp
      rw [UInt64.toNat_saturatingSub]
      change (level.totalQuantity + o.remaining).toNat - o.remaining.toNat = _
      omega
    rw [htotal]
    rfl

/-- **Cancelling at the key of the order just pushed** takes the push back. -/
theorem cancelAt_pushAt (h : LevelsSound priceOf side levels) {key : K} {order : Order}
    (hid : ∀ o ∈ queueOf levels.entries, o.id ≠ order.id)
    (hfit : ∀ level, levels.get? key = some level →
      level.totalQuantity.toNat + order.remaining.toNat < 2 ^ 64) :
    cancelAt (pushAt levels key order) key order.id = (levels, some order) := by
  unfold cancelAt pushAt
  rw [SortedMap.get?_insert_self]
  dsimp only
  cases hget : levels.get? key with
  | none =>
    have hremove : removeFromLevel ((PriceLevel.new order.price).push order) order.id =
        (PriceLevel.new order.price, some order) := by
      refine removeFromLevel_push (by simp [PriceLevel.new]) ?_
      have := order.remaining.toNat_lt_two_pow
      simpa [PriceLevel.new] using this
    rw [Option.getD_none, hremove]
    dsimp only
    rw [SortedMap.get?_insert_self, SortedMap.insert_insert_self, Option.all_some,
      if_pos (show (PriceLevel.new order.price).isEmpty = true from rfl),
      SortedMap.erase_insert_new hget]
  | some level =>
    have hmem := SortedMap.mem_entries_iff.mpr hget
    have hremove : removeFromLevel (level.push order) order.id = (level, some order) :=
      removeFromLevel_push (fun o ho => hid o (mem_queueOf.mpr ⟨_, hmem, ho⟩)) (hfit level hget)
    have hne : level.isEmpty = false := by
      simpa [PriceLevel.isEmpty] using (h _ hmem).nonempty
    rw [Option.getD_some, hremove]
    dsimp only
    rw [SortedMap.get?_insert_self, SortedMap.insert_insert_self, Option.all_some, hne,
      if_neg Bool.false_ne_true, SortedMap.insert_eq_self hget]

end Side

namespace OrderBook

variable {book : OrderBook} {order o : Order} {id : OrderId}

/-! ## Books kept well -/

/-- The resting ids are distinct and the sums at each price fit in 64 bits. -/
structure WellKept (book : OrderBook) : Prop where
  nodup : (book.resting.map Order.id).Nodup
  sums_fit : book.SumsFit

theorem RepInv.insertWithTime_of_wellKept (h : book.RepInv) {nowNs : UInt64}
    (hkept : (book.insertWithTime order nowNs).1.WellKept) :
    (book.insertWithTime order nowNs).1.RepInv :=
  h.insertWithTime (h.sound.remainderFresh hkept.nodup) hkept.sums_fit

theorem RepInv.step_of_wellKept (h : book.RepInv) {op : BookOp} (hkept : (book.step op).WellKept) :
    (book.step op).RepInv := by
  cases op with
  | insert order => exact h.insertWithTime_of_wellKept hkept
  | insertWithTime order nowNs => exact h.insertWithTime_of_wellKept hkept
  | cancel id => exact @RepInv.step book h (.cancel id) trivial
  | purgeExpired nowNs => exact @RepInv.step book h (.purgeExpired nowNs) trivial
  | cancelAllSide side => exact @RepInv.step book h (.cancelAllSide side) trivial
  | cancelAll => exact @RepInv.step book h (.cancelAll) trivial

/-- **The redundant structures agree on every book that is kept well on the way.** -/
theorem repInv_run {ops : List BookOp} (h : Run.Throughout step WellKept new ops) :
    (ops.foldl step new).RepInv :=
  Run.invariant_foldl RepInv (fun _ _ h hkept => h.step_of_wellKept hkept) repInv_new h.along

/-! ## Cancelling a resting order -/

theorem RepInv.indexLive (h : book.RepInv) : book.IndexLive :=
  fun _ _ _ hget => h.get?_index.mp hget

theorem RepInv.listed (h : book.RepInv) : book.Listed where
  nodup := h.nodup
  indexed o ho := by
    obtain ⟨side, hmem⟩ := mem_resting.mp ho
    rw [h.get?_index.mpr ⟨o, hmem, rfl, rfl⟩]
    rfl

/-- `book'` is `book` with exactly the order `o` removed. Its level loses what it had left, and goes
when no other order is there. -/
structure WithoutOrder (book : OrderBook) (o : Order) (book' : OrderBook) : Prop where
  queue_eq : ∀ side, book'.queue side = (book.queue side).erase o
  level_eq : ∃ before level after pre post,
    book.levels o.side = before ++ (o.price, level) :: after ∧ level.orders = pre ++ o :: post ∧
      o.remaining ≤ level.totalQuantity ∧
      book'.levels o.side =
        if pre ++ post = [] then before ++ after
        else before ++ (o.price, level.without (pre ++ post) o) :: after
  other_eq : book'.levels o.side.opposite = book.levels o.side.opposite
  get?_index : ∀ id, book'.orderIndex.get? id = if id = o.id then none else book.orderIndex.get? id

/-- **A cancellation removes exactly the order it returns.** -/
theorem RepInv.cancel_without (h : book.RepInv) (hsome : (book.cancel id).2 = some o) :
    book.WithoutOrder o (book.cancel id).1 := by
  obtain ⟨hid, -, -, hindex⟩ := h.sound.of_mem_cancel (Option.mem_def.mpr hsome)
  have hqueue : ∀ side, (book.cancel id).1.queue side = (book.queue side).erase o := fun side => by
    rw [h.sound.cancel_erase id side, hsome]
    rfl
  have hget : ∀ id', (book.cancel id).1.orderIndex.get? id' =
      if id' = o.id then none else book.orderIndex.get? id' := fun id' => by
    rw [hindex, hid]
    split_ifs with heq
    · rw [heq, SortedMap.get?_erase_self]
    · exact SortedMap.get?_erase_of_ne _ heq
  cases hentry : book.orderIndex.get? id with
  | none =>
    simp only [OrderBook.cancel, hentry] at hsome
    exact absurd hsome (by simp)
  | some entry =>
    obtain ⟨side, price⟩ := entry
    cases side with
    | bid =>
      simp only [OrderBook.cancel, hentry] at hsome hqueue hget ⊢
      obtain ⟨before, level, after, pre, post, he, ho, ⟨hside, rfl⟩, hle, hc⟩ :=
        cancelAt_levels h.sound.bids h.bids_exact hsome
      refine ⟨hqueue, ⟨before.map fun e => (ofDual e.1, e.2), level,
        after.map fun e => (ofDual e.1, e.2), pre, post, ?_, ho, hle, ?_⟩, ?_, hget⟩
      · rw [hside, OrderBook.levels, he, List.map_append, List.map_cons]
        rfl
      · rw [hside, OrderBook.levels, hc]
        split_ifs
        · rw [List.map_append]
        · rw [List.map_append, List.map_cons]
          rfl
      · rw [hside]
        rfl
    | ask =>
      simp only [OrderBook.cancel, hentry] at hsome hqueue hget ⊢
      obtain ⟨before, level, after, pre, post, he, ho, ⟨hside, rfl⟩, hle, hc⟩ :=
        cancelAt_levels h.sound.asks h.asks_exact hsome
      refine ⟨hqueue, ⟨before, level, after, pre, post, ?_, ho, hle, ?_⟩, ?_, hget⟩
      · rw [hside]
        exact he
      · rw [hside]
        exact hc
      · rw [hside]
        rfl

/-! ## Cancelling an insertion -/

/-- The push of a resting order whose price has room does not wrap. -/
theorem RepInv.total_add_lt (h : book.RepInv) (hfit : (book.restOrder order).SumsFit)
    {level : PriceLevel} (hmem : (order.price, level) ∈ book.levels order.side) :
    level.totalQuantity.toNat + order.remaining.toNat < 2 ^ 64 := by
  obtain ⟨-, -, hfilter, -⟩ := h.sound.restOrder_queue order
  have hlt := hfit order.side order.price
  rw [hfilter order.price, if_pos rfl, h.sound.filter_price_queue hmem, liquidity_append,
    liquidity_cons, liquidity_nil] at hlt
  rw [h.total_eq hmem]
  exact hlt

/-- **Cancelling an order that just came to rest restores the book.** -/
theorem RepInv.cancel_restOrder (h : book.RepInv) (hid : book.FreshId order.id)
    (hfit : (book.restOrder order).SumsFit) :
    (book.restOrder order).cancel order.id = (book, some order) := by
  have hnone := get?_index_of_freshId h.index_perm hid
  have htotal : ∀ level, (order.price, level) ∈ book.levels order.side →
      level.totalQuantity.toNat + order.remaining.toNat < 2 ^ 64 := fun _ => h.total_add_lt hfit
  rcases order.side_eq_bid_or_ask with hs | hs
  · have hcancel : cancelAt (pushAt book.bids (toDual order.price) order) (toDual order.price)
        order.id = (book.bids, some order) :=
      cancelAt_pushAt h.sound.bids (fun o ho => hid o (mem_resting.mpr ⟨.bid, ho⟩))
        fun level hget => htotal level <| by
          rw [hs]
          exact List.mem_map_of_mem (f := fun e : Int64ᵒᵈ × PriceLevel => (ofDual e.1, e.2))
            (SortedMap.mem_entries_iff.mpr hget)
    rw [restOrder_of_bid hs, hs]
    simp only [OrderBook.cancel, SortedMap.get?_insert_self, hcancel,
      SortedMap.erase_insert_new hnone]
  · have hcancel : cancelAt (pushAt book.asks order.price order) order.price order.id =
        (book.asks, some order) :=
      cancelAt_pushAt h.sound.asks (fun o ho => hid o (mem_resting.mpr ⟨.ask, ho⟩))
        fun level hget => htotal level <| by
          rw [hs]
          exact SortedMap.mem_entries_iff.mpr hget
    rw [restOrder_of_ask hs, hs]
    simp only [OrderBook.cancel, SortedMap.get?_insert_self, hcancel,
      SortedMap.erase_insert_new hnone]

/-- Cancelling an order that was inserted without a trade and rests takes the insertion back. -/
theorem RepInv.cancel_insert (h : book.RepInv) (hrests : restsRemainder order = true)
    (hnil : book.crossing order = []) (hid : book.FreshId order.id)
    (hfit : (book.insert order).1.SumsFit) :
    (book.insert order).2 = [] ∧
      (book.insert order).1.cancel order.id = (book, some order) := by
  rw [h.sound.insert_of_quiet (.inr (.inl hnil)), if_pos hrests] at hfit ⊢
  exact ⟨rfl, h.cancel_restOrder hid hfit⟩

theorem restsRemainder_of_limit_gtc (htype : order.orderType = .limit)
    (htif : order.timeInForce = .gtc) (hopen : order.isFilled = false) :
    restsRemainder order = true :=
  restsRemainder_iff.mpr ⟨hopen, by simp [htype], by simp [htif], by simp [htif]⟩

/-- After a cancellation the id is no longer indexed. -/
theorem get?_index_cancel (book : OrderBook) (id : OrderId) :
    (book.cancel id).1.orderIndex.get? id = none := by
  cases hget : book.orderIndex.get? id with
  | none => simp only [OrderBook.cancel, hget]
  | some entry =>
    obtain ⟨side, price⟩ := entry
    cases side with
    | bid => simp only [OrderBook.cancel, hget, SortedMap.get?_erase_self]
    | ask => simp only [OrderBook.cancel, hget, SortedMap.get?_erase_self]

/-- **Cancellation is exact.** On every book whose resting ids stay distinct and whose sums at each
price stay below 2^64, a cancellation returns an order exactly when one with the id rests, that
order as it rests; the book is then the one before without exactly that order; and a second
cancellation returns nothing. Inserting an open GTC limit order with a fresh id that crosses
nothing, and cancelling it, returns the order and restores the book. -/
theorem cancel_exact (ops : List BookOp) (h : Run.Throughout step WellKept new ops) :
    let book := ops.foldl step new
    (∀ id o, (book.cancel id).2 = some o ↔ o ∈ book.resting ∧ o.id = id) ∧
      (∀ id o, (book.cancel id).2 = some o → book.WithoutOrder o (book.cancel id).1) ∧
      (∀ id, ((book.cancel id).1.cancel id).2 = none) ∧
      ∀ order : Order, order.orderType = .limit → order.timeInForce = .gtc →
        order.isFilled = false → book.FreshId order.id → book.crossing order = [] →
        (book.insert order).1.SumsFit →
          (book.insert order).2 = [] ∧
            (book.insert order).1.cancel order.id = (book, some order) := by
  intro book
  have hrep : book.RepInv := repInv_run h
  refine ⟨hrep.listed.cancel_eq_some_iff hrep.sound hrep.indexLive,
    fun _ _ => hrep.cancel_without, fun id => ?_, ?_⟩
  · have hnone := get?_index_cancel book id
    rw [OrderBook.cancel, hnone]
  · intro order htype htif hopen hid hnil hfit
    exact hrep.cancel_insert (restsRemainder_of_limit_gtc htype htif hopen) hnil hid hfit

/-- An empty limit order never rests, so it is not there to cancel. -/
theorem empty_order_not_cancelled : ¬ ∀ (ops : List BookOp) (order : Order),
    Run.Throughout step WellKept new ops → order.orderType = .limit → order.timeInForce = .gtc →
      (ops.foldl step new).FreshId order.id → (ops.foldl step new).crossing order = [] →
      ((ops.foldl step new).insert order).1.SumsFit →
        ((ops.foldl step new).insert order).1.cancel order.id =
          (ops.foldl step new, some order) := by
  intro h
  have hnew : new.WellKept := ⟨.nil, sumsFit_of_liquidity_queue (by decide) (by decide)⟩
  have hfit : (new.insert (.limit 1 .bid 100 0 0)).1.SumsFit :=
    sumsFit_of_liquidity_queue (by decide) (by decide)
  have hcancel := h [] (.limit 1 .bid 100 0 0) hnew rfl rfl (by decide) (by decide) hfit
  exact absurd (congrArg Prod.snd hcancel) (by decide)

/-- An ask of 20 lots, 8 of which a market bid takes, is cancelled with its filled quantity. -/
theorem cancel_exact_partial :
    let book := [BookOp.insert (.limit 1 .ask 1000 20 0),
      .insert { Order.limit 2 .bid 0 8 0 with orderType := .market }].foldl step new
    (book.cancel ⟨1⟩).2 = some ((Order.limit 1 .ask 1000 20 0).addFilled 8) := by
  have hkept : ∀ book : OrderBook, (book.resting.map Order.id).Nodup →
      liquidity (book.queue .bid) < 2 ^ 64 → liquidity (book.queue .ask) < 2 ^ 64 →
      book.WellKept := fun _ hnodup hbid hask => ⟨hnodup, sumsFit_of_liquidity_queue hbid hask⟩
  exact ((cancel_exact [.insert (.limit 1 .ask 1000 20 0),
    .insert { Order.limit 2 .bid 0 8 0 with orderType := .market }]
    ⟨hkept _ (by decide) (by decide) (by decide), hkept _ (by decide) (by decide) (by decide),
      hkept _ (by decide) (by decide) (by decide)⟩).1 _ _).mpr ⟨by decide, rfl⟩

end OrderBook

end AliceLedger
