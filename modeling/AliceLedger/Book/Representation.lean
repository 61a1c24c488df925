import AliceLedger.Book.Queue
import Mathlib.Algebra.Order.BigOperators.Group.List

/-!
# The representation invariant

The book keeps four redundant structures: two maps of levels with cached totals, and the index from
ids to places. They agree, `RepInv`, on every book reached while no order is inserted under the id
of an order that rests at that moment and no level holds 2^64 lots or more: the totals are exact
and the index lists exactly the resting orders, each once, at its side and price. The totals need
the second condition only (`exact_run`).

The index part rests on one fact about matching: the ids it erases are those of the makers that
left the queue (`perm_dropIds`).
-/

namespace AliceLedger

open OrderDual (toDual ofDual)

/-! ## Exact totals -/

section Side

variable {K : Type*} [LinearOrder K] {priceOf : K → Int64} {side : Side}
  {levels : SortedMap K PriceLevel}

/-- Every cached total is the exact liquidity of its level. -/
def TotalsExact (levels : SortedMap K PriceLevel) : Prop :=
  ∀ e ∈ levels.entries, e.2.totalQuantity.toNat = liquidity e.2.orders

theorem TotalsExact.matchAgainst (hx : TotalsExact levels) (h : LevelsSound priceOf side levels)
    (takerPrice : K) (taker : Order) (index : OrderIndex) :
    TotalsExact
      (AliceLedger.matchAgainst fillLevel takerPrice ⟨levels, taker, [], index⟩).levels := by
  refine @forall_matchAgainst K _
    (fun _ level => level.totalQuantity.toNat = liquidity level.orders) levels hx h.levelsOpen
    (fun _ level taker' htotal hopen _ => ?_) takerPrice taker index
  have hliq := liquidity_sweep taker' hopen
  simp only [PriceLevel.afterSweep, toNat_foldl_saturatingSub]
  omega

/-- A push is exact when the new sum fits. -/
theorem TotalsExact.pushAt (hx : TotalsExact levels) {key : K} {order : Order}
    (hfit : ∀ e ∈ (AliceLedger.pushAt levels key order).entries, liquidity e.2.orders < 2 ^ 64) :
    TotalsExact (AliceLedger.pushAt levels key order) := by
  have hpush : ∀ level : PriceLevel,
      (liquidity level.orders < 2 ^ 64 → level.totalQuantity.toNat = liquidity level.orders) →
      liquidity (level.push order).orders < 2 ^ 64 →
      (level.push order).totalQuantity.toNat = liquidity (level.push order).orders := by
    intro level hlevel hlt
    simp only [PriceLevel.push, liquidity_append, liquidity_cons, liquidity_nil] at hlt ⊢
    have htotal := hlevel (by omega)
    rw [UInt64.toNat_add_of_lt (by omega)]
    omega
  have hall := @forall_pushAt K _
    (fun _ level => liquidity level.orders < 2 ^ 64 →
      level.totalQuantity.toNat = liquidity level.orders)
    levels (fun e he _ => hx e he) key order (hpush _ fun _ => rfl) hpush
  exact fun e he => hall e he (hfit e he)

theorem TotalsExact.cancelAt (hx : TotalsExact levels) (key : K) (id : OrderId) :
    TotalsExact (AliceLedger.cancelAt levels key id).1 := by
  refine @forall_cancelAt K _ (fun _ level => level.totalQuantity.toNat = liquidity level.orders)
    levels hx key (fun level pre o post htotal ho _ => ?_) id
  simp only [ho, liquidity_append, liquidity_cons] at htotal
  simp only [UInt64.toNat_saturatingSub, liquidity_append]
  omega

end Side

/-! ## Subtractions that do not saturate -/

/-- No subtraction from the cached total saturates, neither when an order is removed from the level
nor in any pass of the loop that fills it, whoever the taker is. -/
structure NeverSaturates (level : PriceLevel) : Prop where
  remove : ∀ o ∈ level.orders, o.remaining ≤ level.totalQuantity
  fill : ∀ takerId ts taker fills index t maker rest,
    Loop.Reaches (fillStep takerId ts) ⟨level, taker, fills, index⟩ t →
      t.level.orders = maker :: rest → tradeQty t.taker maker ≤ t.level.totalQuantity

theorem remaining_le_of_total {level : PriceLevel}
    (hx : level.totalQuantity.toNat = liquidity level.orders) {o : Order} (ho : o ∈ level.orders) :
    o.remaining ≤ level.totalQuantity := by
  rw [UInt64.le_iff_toNat_le, hx]
  obtain ⟨before, after, h⟩ := List.append_of_mem ho
  rw [h, liquidity_append, liquidity_cons]
  omega

/-- One pass keeps the orders open and the total exact. -/
theorem total_fillStep {takerId : OrderId} {ts : UInt64} {s t : FillState}
    (hs : AllOpen s.level.orders ∧ s.level.totalQuantity.toNat = liquidity s.level.orders)
    (hstep : fillStep takerId ts s = some t) :
    AllOpen t.level.orders ∧ t.level.totalQuantity.toNat = liquidity t.level.orders := by
  obtain ⟨⟨price, orders, total⟩, taker, fills, index⟩ := s
  obtain ⟨hopen, htotal⟩ := hs
  rcases orders with _ | ⟨maker, rest⟩
  · simp [fillStep] at hstep
  · have hm : maker.isFilled = false := hopen maker (by simp)
    have hq := tradeQty_le_maker taker maker
    have hsub := UInt64.toNat_saturatingSub total (tradeQty taker maker)
    simp only [liquidity_cons] at htotal
    simp only [fillStep] at hstep
    split_ifs at hstep with ht hzero hfilled
    · obtain rfl := Option.some.inj hstep
      have hall := (Order.isFilled_addFilled hm hq).mp hfilled
      refine ⟨hopen.of_cons, hsub.trans ?_⟩
      dsimp only
      omega
    · obtain rfl := Option.some.inj hstep
      have hrem := Order.toNat_remaining_addFilled hm hq
      refine ⟨fun o ho => ?_, hsub.trans ?_⟩
      · rcases List.mem_cons.mp ho with rfl | ho
        · exact Bool.not_eq_true _ ▸ hfilled
        · exact hopen.of_cons o ho
      · simp only [liquidity_cons]
        unfold tradeQty at hrem hq ⊢
        omega

theorem neverSaturates {level : PriceLevel} (hopen : AllOpen level.orders)
    (hx : level.totalQuantity.toNat = liquidity level.orders) : NeverSaturates level where
  remove _ := remaining_le_of_total hx
  fill takerId ts taker fills index t maker rest hreach horders := by
    obtain ⟨-, htotal⟩ := Loop.invariant_of_reaches
      (P := fun s =>
        AllOpen s.level.orders ∧ s.level.totalQuantity.toNat = liquidity s.level.orders)
      (fun _ _ hs hstep => total_fillStep hs hstep) ⟨hopen, hx⟩ hreach
    have hq := tradeQty_le_maker t.taker maker
    rw [horders, liquidity_cons] at htotal
    rw [UInt64.le_iff_toNat_le]
    omega

/-! ## The index -/

/-- The index entry of a resting order. -/
def indexEntry (o : Order) : OrderId × Side × Int64 := (o.id, o.side, o.price)

/-- **Dropping the ids of orders** that the index lists leaves the entries of the others. -/
theorem perm_dropIds {index : OrderIndex} {popped : List Order}
    {others : List (OrderId × Side × Int64)}
    (h : index.entries.Perm (popped.map indexEntry ++ others)) :
    (dropIds index popped).entries.Perm others := by
  induction popped generalizing index with
  | nil => exact h
  | cons o popped ih =>
    refine ih ?_
    have hmem : indexEntry o ∈ index.entries := h.mem_iff.mpr (by simp)
    have herase := SortedMap.perm_erase (SortedMap.mem_entries_iff.mp hmem)
    exact List.Perm.cons_inv (herase.symm.trans h)

namespace OrderBook

variable {book : OrderBook} {order : Order}

/-! ## Books with exact totals -/

/-- The exact sum of the remaining quantities at each price of each side is below 2^64. -/
def SumsFit (book : OrderBook) : Prop :=
  ∀ side price, liquidity ((book.queue side).filter fun o => o.price = price) < 2 ^ 64

/-- The sums fit when each side fits as a whole. -/
theorem sumsFit_of_liquidity_queue (hbid : liquidity (book.queue .bid) < 2 ^ 64)
    (hask : liquidity (book.queue .ask) < 2 ^ 64) : book.SumsFit := by
  intro side price
  have hle : liquidity ((book.queue side).filter fun o => o.price = price) ≤
      liquidity (book.queue side) := (List.filter_sublist.map _).sum_le_sum (by simp)
  cases side with
  | bid => exact hle.trans_lt hbid
  | ask => exact hle.trans_lt hask

theorem SumsFit.level (hfit : book.SumsFit) (h : book.Sound) {side : Side}
    {e : Int64 × PriceLevel} (he : e ∈ book.levels side) : liquidity e.2.orders < 2 ^ 64 := by
  rw [← h.filter_price_queue he]
  exact hfit side e.1

/-- A sound book whose cached totals are exact. -/
structure Exact (book : OrderBook) : Prop where
  sound : book.Sound
  bids : TotalsExact book.bids
  asks : TotalsExact book.asks

theorem exact_new : new.Exact where
  sound := sound_new
  bids := fun _ he => absurd he (by simp [new])
  asks := fun _ he => absurd he (by simp [new])

theorem Exact.total_eq (h : book.Exact) {side : Side} {e : Int64 × PriceLevel}
    (he : e ∈ book.levels side) : e.2.totalQuantity.toNat = liquidity e.2.orders := by
  cases side with
  | bid =>
    obtain ⟨e', he', rfl⟩ := List.mem_map.mp he
    exact h.bids e' he'
  | ask => exact h.asks e he

theorem Exact.matchOrder (h : book.Exact) (order : Order) :
    (book.matchOrder order).book.Exact := by
  refine ⟨h.sound.matchOrder order, ?_, ?_⟩
  · rcases order.side_eq_bid_or_ask with hs | hs
    · rw [matchOrder_of_bid hs]; exact h.bids
    · rw [matchOrder_of_ask hs]; exact h.bids.matchAgainst h.sound.bids _ _ _
  · rcases order.side_eq_bid_or_ask with hs | hs
    · rw [matchOrder_of_bid hs]; exact h.asks.matchAgainst h.sound.asks _ _ _
    · rw [matchOrder_of_ask hs]; exact h.asks

/-- Resting an order keeps the totals exact when the sums after it fit. -/
theorem Exact.restOrder (h : book.Exact) (hsound : (book.restOrder order).Sound)
    (hfit : (book.restOrder order).SumsFit) : (book.restOrder order).Exact := by
  have hlt : ∀ side, ∀ e ∈ (book.restOrder order).levels side, liquidity e.2.orders < 2 ^ 64 :=
    fun _ _ he => hfit.level hsound he
  refine ⟨hsound, ?_, ?_⟩
  · rcases order.side_eq_bid_or_ask with hs | hs
    · rw [restOrder_of_bid hs] at hlt ⊢
      exact h.bids.pushAt fun e he => hlt .bid _ (List.mem_map_of_mem he)
    · rw [restOrder_of_ask hs]; exact h.bids
  · rcases order.side_eq_bid_or_ask with hs | hs
    · rw [restOrder_of_bid hs]; exact h.asks
    · rw [restOrder_of_ask hs] at hlt ⊢
      exact h.asks.pushAt fun e he => hlt .ask e he

theorem Exact.cancel (h : book.Exact) (id : OrderId) : (book.cancel id).1.Exact := by
  refine ⟨h.sound.cancel id, ?_, ?_⟩
  · unfold OrderBook.cancel
    split
    · exact h.bids
    · rename_i side price _
      cases side with
      | bid => exact h.bids.cancelAt _ _
      | ask => exact h.bids
  · unfold OrderBook.cancel
    split
    · exact h.asks
    · rename_i side price _
      cases side with
      | bid => exact h.asks
      | ask => exact h.asks.cancelAt _ _

theorem Exact.insertWithTime (h : book.Exact) {nowNs : UInt64}
    (hfit : (book.insertWithTime order nowNs).1.SumsFit) :
    (book.insertWithTime order nowNs).1.Exact := by
  have hsound := h.sound.insertWithTime order nowNs
  revert hfit hsound
  unfold OrderBook.insertWithTime
  by_cases hexp : isExpired order nowNs = true
  · intro _ _
    rwa [if_pos hexp]
  · rw [if_neg hexp]
    by_cases hrests : restsRemainder (book.matchOrder order).taker = true
    · simp only [hrests, if_true]
      exact fun hfit hsound => (h.matchOrder order).restOrder hsound hfit
    · simp only [hrests]
      exact fun _ _ => h.matchOrder order

theorem Exact.step (h : book.Exact) {op : BookOp} (hfit : (book.step op).SumsFit) :
    (book.step op).Exact := by
  have hcancel : ∀ book id, Exact book → Exact (book.cancel id).1 := fun _ id h => h.cancel id
  cases op with
  | insert order => exact h.insertWithTime hfit
  | insertWithTime order nowNs => exact h.insertWithTime hfit
  | cancel id => exact h.cancel id
  | purgeExpired nowNs => exact cancelIds_invariant Exact hcancel h _
  | cancelAllSide side => exact cancelIds_invariant Exact hcancel h _
  | cancelAll =>
    exact cancelIds_invariant Exact hcancel (cancelIds_invariant Exact hcancel h _) _

/-- **The totals are exact on every book whose sums fit on the way**, whatever the ids. -/
theorem exact_run {ops : List BookOp} (h : Run.Throughout step SumsFit new ops) :
    (ops.foldl step new).Exact :=
  Run.invariant_foldl Exact (fun _ _ h hfit => h.step hfit) exact_new h.along

/-! ## The invariant -/

/-- The redundant structures of the book agree. -/
structure RepInv (book : OrderBook) : Prop where
  sound : book.Sound
  bids_exact : TotalsExact book.bids
  asks_exact : TotalsExact book.asks
  index_perm : book.orderIndex.entries.Perm (book.resting.map indexEntry)

theorem repInv_new : new.RepInv where
  sound := sound_new
  bids_exact := fun _ he => absurd he (by simp [new])
  asks_exact := fun _ he => absurd he (by simp [new])
  index_perm := .nil

theorem RepInv.exact (h : book.RepInv) : book.Exact := ⟨h.sound, h.bids_exact, h.asks_exact⟩

/-- The ids of the resting orders are distinct. -/
theorem RepInv.nodup (h : book.RepInv) : (book.resting.map Order.id).Nodup := by
  have hkeys := (h.index_perm.map Prod.fst).nodup_iff.mp book.orderIndex.keys_nodup
  simpa [indexEntry, Function.comp_def] using hkeys

theorem RepInv.get?_index (h : book.RepInv) {id : OrderId} {side : Side} {price : Int64} :
    book.orderIndex.get? id = some (side, price) ↔
      ∃ o ∈ book.queue side, o.id = id ∧ o.price = price := by
  rw [← SortedMap.mem_entries_iff, h.index_perm.mem_iff, List.mem_map]
  constructor
  · rintro ⟨o, ho, heq⟩
    obtain ⟨rfl, rfl, rfl⟩ : o.id = id ∧ o.side = side ∧ o.price = price := by
      simpa [indexEntry] using heq
    obtain ⟨side, ho⟩ := mem_resting.mp ho
    have hside := (mem_queue_resting h.sound ho).1
    exact ⟨o, hside ▸ ho, rfl, rfl⟩
  · rintro ⟨o, ho, rfl, rfl⟩
    refine ⟨o, mem_resting.mpr ⟨side, ho⟩, ?_⟩
    rw [indexEntry, (mem_queue_resting h.sound ho).1]

theorem RepInv.matchOrder (h : book.RepInv) (order : Order) :
    (book.matchOrder order).book.RepInv := by
  obtain ⟨hsound, hbids, hasks⟩ := h.exact.matchOrder order
  refine ⟨hsound, hbids, hasks, ?_⟩
  obtain ⟨q, rest, hm⟩ := h.sound.matchOrder_swept order
  have hfields := sweep_map_eq indexEntry (fun _ _ => rfl) order q
  have hbefore := hm.resting_perm.1.map indexEntry
  have hafter := hm.resting_perm.2.map indexEntry
  rw [List.map_append, ← hfields, List.append_assoc] at hbefore
  rw [List.map_append] at hafter
  rw [hm.index_eq]
  exact (perm_dropIds (h.index_perm.trans hbefore)).trans hafter.symm

/-- No resting order has the id. -/
def FreshId (book : OrderBook) (id : OrderId) : Prop := ∀ o ∈ book.resting, o.id ≠ id

instance (book : OrderBook) (id : OrderId) : Decidable (book.FreshId id) :=
  inferInstanceAs (Decidable (∀ o ∈ book.resting, o.id ≠ id))

theorem get?_index_of_freshId (h : book.orderIndex.entries.Perm (book.resting.map indexEntry))
    {id : OrderId} (hid : book.FreshId id) : book.orderIndex.get? id = none := by
  refine Option.eq_none_iff_forall_ne_some.mpr fun entry hentry => ?_
  obtain ⟨o, ho, heq⟩ := List.mem_map.mp (h.mem_iff.mp (SortedMap.mem_entries_iff.mpr hentry))
  exact hid o ho (congrArg Prod.fst heq)

theorem RepInv.restOrder (h : book.RepInv) (hsound : (book.restOrder order).Sound)
    (hid : book.FreshId order.id) (hfit : (book.restOrder order).SumsFit) :
    (book.restOrder order).RepInv := by
  obtain ⟨-, hbids, hasks⟩ := h.exact.restOrder hsound hfit
  refine ⟨hsound, hbids, hasks, ?_⟩
  rw [(h.sound.restOrder_queue order).2.2.2]
  refine (SortedMap.perm_insert_new (get?_index_of_freshId h.index_perm hid) _).trans ?_
  exact (h.index_perm.cons (indexEntry order)).trans
    ((h.sound.restOrder_perm order).map indexEntry).symm

theorem RepInv.cancel (h : book.RepInv) (id : OrderId) : (book.cancel id).1.RepInv := by
  obtain ⟨hsound, hbids, hasks⟩ := h.exact.cancel id
  refine ⟨hsound, hbids, hasks, ?_⟩
  rcases h.sound.cancel_queue id with ⟨-, hc⟩ | ⟨side, price, hc⟩
  · rw [hc]; exact h.index_perm
  · rcases hc.found with ⟨-, -, hnone⟩ | ⟨o, hsome, hfrom⟩
    · -- an indexed id rests where the index says
      obtain ⟨o, ho, hid, hprice⟩ := h.get?_index.mp hc.indexed
      exact absurd hid (hnone o ho hprice)
    · have hside : o.side = side :=
        (mem_queue_resting h.sound (hfrom.perm.mem_iff.mpr (by simp))).1
      have hperm := h.sound.cancel_perm id
      rw [hsome] at hperm
      have herase := SortedMap.perm_erase hc.indexed
      have hentry : indexEntry o = (id, side, price) := by
        rw [indexEntry, hfrom.id_eq, hside, hfrom.price_eq]
      rw [hc.index_eq]
      refine List.Perm.cons_inv (herase.symm.trans (h.index_perm.trans ?_))
      rw [← hentry]
      exact hperm.map indexEntry

/-! ## Runs -/

/-- An inserted order comes under an id that no resting order has, and leaves less than 2^64 lots
at every price. -/
def Admissible (book : OrderBook) (op : BookOp) : Prop :=
  match op with
  | .insert order | .insertWithTime order _ => book.FreshId order.id ∧ (book.step op).SumsFit
  | _ => True

/-- Matching adds no resting id. -/
theorem FreshId.matchOrder (h : book.Sound) {id : OrderId} (hid : book.FreshId id)
    (order : Order) : (book.matchOrder order).book.FreshId id := by
  obtain ⟨q, rest, hm⟩ := h.matchOrder_swept order
  intro o ho
  have hold : ∀ x, x ∈ q ∨ x ∈ rest ++ book.queue order.side → x.id ≠ id := fun x hx =>
    hid x (hm.resting_perm.1.mem_iff.mpr (List.mem_append.mpr hx))
  rcases List.mem_append.mp (hm.resting_perm.2.mem_iff.mp ho) with hmem | hmem
  · exact forall_sweep (p := fun o => o.id ≠ id) (fun _ _ h => h) order
      (fun m hmq => hold m (.inl hmq)) o (List.mem_append_right _ hmem)
  · exact hold o (.inr hmem)

/-- What an insertion rests comes under an id that no other resting order has. -/
def RemainderFresh (book : OrderBook) (order : Order) (nowNs : UInt64) : Prop :=
  isExpired order nowNs = false → restsRemainder (book.matchOrder order).taker = true →
    (book.matchOrder order).book.FreshId order.id

theorem FreshId.remainderFresh (h : book.Sound) (hid : book.FreshId order.id) (nowNs : UInt64) :
    book.RemainderFresh order nowNs := fun _ _ => hid.matchOrder h order

/-- On a book of distinct ids, what the insertion before it rested was fresh. -/
theorem Sound.remainderFresh (h : book.Sound) {nowNs : UInt64}
    (hnodup : ((book.insertWithTime order nowNs).1.resting.map Order.id).Nodup) :
    book.RemainderFresh order nowNs := by
  intro hexp hrests
  unfold OrderBook.insertWithTime at hnodup
  rw [if_neg (by simp [hexp])] at hnodup
  simp only [hrests, if_true] at hnodup
  obtain ⟨q, hq⟩ := h.matchOrder_taker_eq order
  have hperm := (h.matchOrder order).restOrder_perm (book.matchOrder order).taker
  rw [(hperm.map Order.id).nodup_iff, List.map_cons, List.nodup_cons, hq] at hnodup
  exact fun o ho heq => hnodup.1 (heq ▸ List.mem_map_of_mem ho)

theorem RepInv.insertWithTime (h : book.RepInv) {nowNs : UInt64}
    (hid : book.RemainderFresh order nowNs)
    (hfit : (book.insertWithTime order nowNs).1.SumsFit) :
    (book.insertWithTime order nowNs).1.RepInv := by
  have hsound := h.sound.insertWithTime order nowNs
  revert hfit hsound
  unfold OrderBook.insertWithTime
  by_cases hexp : isExpired order nowNs = true
  · intro _ _
    rwa [if_pos hexp]
  · rw [if_neg hexp]
    by_cases hrests : restsRemainder (book.matchOrder order).taker = true
    · simp only [hrests, if_true]
      intro hfit hsound
      obtain ⟨q, hq⟩ := h.sound.matchOrder_taker_eq order
      refine (h.matchOrder order).restOrder hsound ?_ hfit
      have hfresh := hid (Bool.not_eq_true _ ▸ hexp) hrests
      rw [hq]
      exact hfresh
    · simp only [hrests]
      exact fun _ _ => h.matchOrder order

theorem RepInv.step (h : book.RepInv) {op : BookOp} (hop : book.Admissible op) :
    (book.step op).RepInv := by
  have hcancel : ∀ book id, RepInv book → RepInv (book.cancel id).1 := fun _ id h => h.cancel id
  cases op with
  | insert order => exact h.insertWithTime (hop.1.remainderFresh h.sound 0) hop.2
  | insertWithTime order nowNs => exact h.insertWithTime (hop.1.remainderFresh h.sound nowNs) hop.2
  | cancel id => exact h.cancel id
  | purgeExpired nowNs => exact cancelIds_invariant RepInv hcancel h _
  | cancelAllSide side => exact cancelIds_invariant RepInv hcancel h _
  | cancelAll =>
    exact cancelIds_invariant RepInv hcancel (cancelIds_invariant RepInv hcancel h _) _

/-- What holds of a level of a side at a price while the totals are exact. -/
structure LevelExact (side : Side) (price : Int64) (level : PriceLevel) : Prop where
  price_eq : level.price = price
  nonempty : level.orders ≠ []
  resting : ∀ o ∈ level.orders, o.side = side ∧ o.price = price ∧
    o.filledQuantity < o.quantity ∧ 0 < o.remaining
  total_eq : level.totalQuantity.toNat = liquidity level.orders
  saturates : NeverSaturates level

theorem RepInv.total_eq (h : book.RepInv) {side : Side} {e : Int64 × PriceLevel}
    (he : e ∈ book.levels side) : e.2.totalQuantity.toNat = liquidity e.2.orders :=
  h.exact.total_eq he

theorem RepInv.levelExact (h : book.RepInv) {side : Side} {e : Int64 × PriceLevel}
    (he : e ∈ book.levels side) : LevelExact side e.1 e.2 := by
  have hlevel := h.sound.levelSound he
  have htotal := h.total_eq he
  refine ⟨hlevel.price_eq, hlevel.nonempty, fun o ho => ?_, htotal,
    neverSaturates hlevel.allOpen htotal⟩
  obtain ⟨hside, hprice, hopen⟩ := hlevel.resting o ho
  exact ⟨hside, hprice, UInt64.lt_iff_toNat_lt.mpr (Order.isFilled_eq_false_iff.mp hopen),
    UInt64.lt_iff_toNat_lt.mpr (Order.remaining_pos hopen)⟩

/-! ## Depth -/

/-- The depth of a side is its first levels. -/
theorem depth_eq (book : OrderBook) (side : Side) (n : ℕ) :
    book.depth side n = ((book.levels side).take n).map fun e => (e.1, e.2.totalQuantity) := by
  cases side with
  | bid => simp [depth, levels, List.map_take, Function.comp_def]
  | ask => rfl

theorem RepInv.depth (h : book.RepInv) (side : Side) (n : ℕ) :
    ((book.depth side n).map Prod.fst).Pairwise (Better side) ∧
      ∀ e ∈ book.depth side n, 0 < e.2 ∧
        e.2.toNat = liquidity ((book.queue side).filter fun o => o.price = e.1) := by
  rw [depth_eq]
  constructor
  · rw [List.map_map]
    exact List.pairwise_map.mpr ((levels_pairwise book side).sublist (List.take_sublist n _))
  · intro e he
    obtain ⟨e', he', rfl⟩ := List.mem_map.mp he
    have hmem := List.mem_of_mem_take he'
    have htotal := h.total_eq hmem
    have hlevel := h.levelExact hmem
    refine ⟨?_, by rw [h.sound.filter_price_queue hmem]; exact htotal⟩
    obtain ⟨o, ho⟩ := List.exists_mem_of_ne_nil _ hlevel.nonempty
    exact lt_of_lt_of_le (hlevel.resting o ho).2.2.2 (hlevel.saturates.remove o ho)

/-- **The representation invariant.** Along every run whose insertions are admissible, every level
is exact, the index lists exactly the resting orders, each once, and the depth of a side to `n`
levels is its first `n` levels, a strictly monotone list of prices with the exact positive
quantities there. -/
theorem representation_exact (ops : List BookOp) (h : Run.Along step Admissible new ops) :
    let book := ops.foldl step new
    (∀ side, ∀ e ∈ book.levels side, LevelExact side e.1 e.2) ∧
      book.orderIndex.entries.Perm (book.resting.map indexEntry) ∧
      ∀ side n,
        book.depth side n = ((book.levels side).take n).map (fun e => (e.1, e.2.totalQuantity)) ∧
        ((book.depth side n).map Prod.fst).Pairwise (Better side) ∧
        ∀ e ∈ book.depth side n, 0 < e.2 ∧
          e.2.toNat = liquidity ((book.queue side).filter fun o => o.price = e.1) := by
  intro book
  have hrep : book.RepInv :=
    Run.invariant_foldl RepInv (fun _ _ h hop => h.step hop) repInv_new h
  exact ⟨fun _ _ he => hrep.levelExact he, hrep.index_perm,
    fun side n => ⟨book.depth_eq side n, hrep.depth side n⟩⟩

/-- A bid that takes 3 of the 5 lots on offer, and a bid that rests. -/
theorem representation_exact_partial :
    let book := [BookOp.insert (.limit 1 .ask 100 5 0), .insert (.limit 2 .bid 100 3 1),
      .insert (.limit 3 .bid 99 4 2)].foldl step new
    book.orderIndex.entries.Perm (book.resting.map indexEntry) := by
  exact (representation_exact [.insert (.limit 1 .ask 100 5 0), .insert (.limit 2 .bid 100 3 1),
    .insert (.limit 3 .bid 99 4 2)]
    ⟨⟨by decide, sumsFit_of_liquidity_queue (by decide) (by decide)⟩,
      ⟨by decide, sumsFit_of_liquidity_queue (by decide) (by decide)⟩,
      ⟨by decide, sumsFit_of_liquidity_queue (by decide) (by decide)⟩, trivial⟩).2.1

end OrderBook

end AliceLedger
