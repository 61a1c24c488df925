import AliceLedger.Book.Sound

/-!
# The book as two priority queues

Each side of a sound book, read level by level, is one queue in price-time priority. In these terms
the primitive changes are:

* matching sweeps the front of the opposite queue, the orders up to the taker's price
  (`matchAgainst_queue`);
* resting inserts an order behind all orders of its price and better ones (`queueOf_pushAt`);
* cancelling takes out the first order with the id at the indexed price (`queueOf_cancelAt`).

The queue at one price is the queue of its level (`filter_price_queueOf`).
-/

namespace AliceLedger

open OrderDual (toDual ofDual)

section Side

variable {K : Type*} [LinearOrder K] {priceOf : K → Int64} {side : Side}
  {levels : SortedMap K PriceLevel} {takerPrice : K} {taker : Order} {index : OrderIndex}

theorem queueOf_entries_eq (levels : SortedMap K PriceLevel) (bound : K) :
    queueOf levels.entries = queueOf (levels.upTo bound) ++ queueOf (levels.above bound) := by
  rw [← queueOf_append, ← levels.entries_eq_upTo_append bound]

/-- What matching did, on the queue: `q` is the part up to the taker's price. -/
structure MatchedQueue (levels : SortedMap K PriceLevel) (taker : Order) (index : OrderIndex)
    (q rest : List Order) (t : MatchState K) : Prop where
  before : queueOf levels.entries = q ++ rest
  after : queueOf t.levels.entries = (sweep taker q).makers ++ rest
  taker_eq : t.taker = (sweep taker q).taker
  fills_eq : t.fills = (sweep taker q).fills
  index_eq : t.index = dropIds index (sweep taker q).popped

/-- **Matching sweeps the queue up to the taker's price.** -/
theorem matchAgainst_queue (h : LevelsSound priceOf side levels)
    (hk : ¬ Killed levels takerPrice taker) (index : OrderIndex) :
    MatchedQueue levels taker index (queueOf (levels.upTo takerPrice))
      (queueOf (levels.above takerPrice))
      (matchAgainst fillLevel takerPrice ⟨levels, taker, [], index⟩) := by
  obtain ⟨hentries, htaker, hfills, hindex⟩ := matchAgainst_eq h.levelsOpen hk index
  have hsweep := sweep_queueOf taker (levels.upTo takerPrice)
  refine ⟨queueOf_entries_eq levels takerPrice, ?_, ?_, ?_, ?_⟩
  · rw [hentries, queueOf_append, hsweep]
  · rw [htaker, hsweep]
  · rw [hfills, hsweep]
  · rw [hindex, hsweep]

/-- A property of the price that holds up to a bound holds of the front of the queue, and of
nothing behind it. -/
theorem forall_queueOf_upTo (h : LevelsSound priceOf side levels) {p : Order → Prop}
    (hp : ∀ key o, o.price = priceOf key → (p o ↔ key ≤ takerPrice)) :
    (∀ o ∈ queueOf (levels.upTo takerPrice), p o) ∧
      ∀ o ∈ queueOf (levels.above takerPrice), ¬ p o := by
  constructor
  · intro o ho
    obtain ⟨e, he, ho⟩ := mem_queueOf.mp ho
    obtain ⟨he, hle⟩ := SortedMap.mem_upTo.mp he
    exact (hp e.1 o ((h e he).resting o ho).2.1).mpr hle
  · intro o ho hpo
    obtain ⟨e, he, ho⟩ := mem_queueOf.mp ho
    obtain ⟨he, hlt⟩ := SortedMap.mem_above.mp he
    exact hlt.not_ge ((hp e.1 o ((h e he).resting o ho).2.1).mp hpo)

/-- So it picks the front out. -/
theorem filter_queueOf_upTo (h : LevelsSound priceOf side levels) {p : Order → Prop}
    [DecidablePred p] (hp : ∀ key o, o.price = priceOf key → (p o ↔ key ≤ takerPrice)) :
    (queueOf levels.entries).filter p = queueOf (levels.upTo takerPrice) := by
  obtain ⟨hfront, hback⟩ := forall_queueOf_upTo h hp
  have hself : (queueOf (levels.upTo takerPrice)).filter p = queueOf (levels.upTo takerPrice) :=
    List.filter_eq_self.mpr fun o ho => decide_eq_true (hfront o ho)
  have hnil : (queueOf (levels.above takerPrice)).filter p = [] :=
    List.filter_eq_nil_iff.mpr fun o ho => by simpa using hback o ho
  rw [queueOf_entries_eq levels takerPrice, List.filter_append, hself, hnil, List.append_nil]

/-- **A resting order goes behind the orders of its price** and of the prices before it. -/
theorem queueOf_pushAt (levels : SortedMap K PriceLevel) (key : K) (order : Order) :
    ∃ before after, levels.entries = before ++ after ∧ (∀ e ∈ before, e.1 ≤ key) ∧
      (∀ e ∈ after, key < e.1) ∧
      queueOf (pushAt levels key order).entries = queueOf before ++ order :: queueOf after := by
  obtain ⟨before, after, hb, ha, ⟨he, hpush⟩ | ⟨level, he, hpush⟩⟩ := pushAt_cases levels key order
  · exact ⟨before, after, he, fun e hmem => (hb e hmem).le, ha, by
      simp [hpush, PriceLevel.push, PriceLevel.new]⟩
  · refine ⟨before ++ [(key, level)], after, by simpa using he, ?_, ha, ?_⟩
    · intro e hmem
      rcases List.mem_append.mp hmem with hmem | hmem
      · exact (hb e hmem).le
      · rw [List.mem_singleton.mp hmem]
    · simp [hpush, PriceLevel.push]

theorem queueOf_pushAt_perm (levels : SortedMap K PriceLevel) (key : K) (order : Order) :
    (queueOf (pushAt levels key order).entries).Perm (order :: queueOf levels.entries) := by
  obtain ⟨before, after, he, -, -, hq⟩ := queueOf_pushAt levels key order
  rw [hq, he, queueOf_append]
  exact List.perm_middle

/-- **A resting order is the last at its price**, and the other prices do not see it. -/
theorem filter_price_queueOf_pushAt (h : LevelsSound priceOf side levels)
    (hinj : Function.Injective priceOf) {key : K} {order : Order} (hkey : priceOf key = order.price)
    (price : Int64) :
    (queueOf (pushAt levels key order).entries).filter (fun o => o.price = price) =
      (queueOf levels.entries).filter (fun o => o.price = price) ++
        if order.price = price then [order] else [] := by
  obtain ⟨before, after, he, -, ha, hq⟩ := queueOf_pushAt levels key order
  rw [hq, he, queueOf_append, List.filter_append, List.filter_append]
  by_cases hprice : order.price = price
  · have hnil : (queueOf after).filter (fun o => o.price = price) = [] := by
      refine List.filter_eq_nil_iff.mpr fun o ho => ?_
      obtain ⟨e, hmem, ho⟩ := mem_queueOf.mp ho
      rw [((h e (by rw [he]; simp [hmem])).resting o ho).2.1, ← hprice, ← hkey, decide_eq_true_eq]
      exact fun heq => (ha e hmem).ne' (hinj heq)
    rw [List.filter_cons_of_pos (by simpa using hprice), hnil, if_pos hprice, List.append_nil]
  · rw [List.filter_cons_of_neg (by simpa using hprice), if_neg hprice, List.append_nil]

/-- **The queue at one price is the queue of its level.** -/
theorem filter_price_queueOf (h : LevelsSound priceOf side levels)
    (hinj : Function.Injective priceOf) {key : K} {level : PriceLevel}
    {before after : List (K × PriceLevel)} (he : levels.entries = before ++ (key, level) :: after) :
    (queueOf levels.entries).filter (fun o => o.price = priceOf key) = level.orders := by
  obtain ⟨hb, ha⟩ := SortedMap.lt_of_entries_eq he
  have hother : ∀ es : List (K × PriceLevel), (∀ e ∈ es, e ∈ levels.entries ∧ e.1 ≠ key) →
      (queueOf es).filter (fun o => o.price = priceOf key) = [] := by
    intro es hes
    refine List.filter_eq_nil_iff.mpr fun o ho => ?_
    obtain ⟨e, hmem, ho⟩ := mem_queueOf.mp ho
    rw [((h e (hes e hmem).1).resting o ho).2.1]
    simpa using fun heq => (hes e hmem).2 (hinj heq)
  have hself : level.orders.filter (fun o => o.price = priceOf key) = level.orders :=
    List.filter_eq_self.mpr fun o ho => by
      simpa using ((h (key, level) (by rw [he]; simp)).resting o ho).2.1
  rw [he, queueOf_append, queueOf_cons, List.filter_append, List.filter_append, hself,
    hother before fun e hmem => ⟨by rw [he]; simp [hmem], (hb e hmem).ne⟩,
    hother after fun e hmem => ⟨by rw [he]; simp [hmem], (ha e hmem).ne'⟩]
  simp

/-- What a cancellation at a price did, on the queue: `o` is the first order with the id there. -/
structure CancelledFrom (q q' : List Order) (price : Int64) (id : OrderId) (o : Order) : Prop where
  exists_split : ∃ before after, q = before ++ o :: after ∧ q' = before ++ after ∧
    ∀ x ∈ before, x.price = price → x.id ≠ id
  id_eq : o.id = id
  price_eq : o.price = price

theorem CancelledFrom.perm {q q' : List Order} {price : Int64} {id : OrderId} {o : Order}
    (h : CancelledFrom q q' price id o) : q.Perm (o :: q') := by
  obtain ⟨before, after, rfl, rfl, -⟩ := h.exists_split
  exact List.perm_middle

/-- **Cancelling at a price** takes out the first order with the id there, or finds none and
changes nothing. -/
theorem queueOf_cancelAt (h : LevelsSound priceOf side levels)
    (hinj : Function.Injective priceOf) (key : K) (id : OrderId) :
    (cancelAt levels key id = (levels, none) ∧
        ∀ o ∈ queueOf levels.entries, o.price = priceOf key → o.id ≠ id) ∨
      ∃ o, (cancelAt levels key id).2 = some o ∧
        CancelledFrom (queueOf levels.entries) (queueOf (cancelAt levels key id).1.entries)
          (priceOf key) id o := by
  rcases cancelAt_cases levels key id with
    ⟨hc, hnone⟩ | ⟨before, level, after, pre, o, post, he, ho, hid, hpre, hsome, hc⟩
  · refine .inl ⟨hc, fun o ho hprice => ?_⟩
    obtain ⟨e, hmem, ho⟩ := mem_queueOf.mp ho
    have hkey : e.1 = key := hinj (((h e hmem).resting o ho).2.1.symm.trans hprice)
    have hget : levels.get? key = some e.2 := SortedMap.mem_entries_iff.mp (hkey ▸ hmem)
    exact hnone e.2 hget o ho
  · refine .inr ⟨o, hsome, ⟨⟨queueOf before ++ pre, post ++ queueOf after, ?_, ?_, ?_⟩, hid, ?_⟩⟩
    · simp [he, ho]
    · rw [hc]
      split_ifs with hnil
      · obtain ⟨rfl, rfl⟩ := List.append_eq_nil_iff.mp hnil
        simp
      · simp
    · intro x hx hprice
      rcases List.mem_append.mp hx with hx | hx
      · obtain ⟨e, hmem, hx⟩ := mem_queueOf.mp hx
        have hin : e ∈ levels.entries := by rw [he]; simp [hmem]
        have hkey : e.1 = key := hinj (((h e hin).resting x hx).2.1.symm.trans hprice)
        exact absurd hkey ((SortedMap.lt_of_entries_eq he).1 e hmem).ne
      · exact hpre x hx
    · exact ((h (key, level) (by rw [he]; simp)).resting o (by rw [ho]; simp)).2.1

end Side

/-! ## The queues of the book -/

/-- The other side. -/
def Side.opposite : Side → Side
  | .bid => .ask
  | .ask => .bid

@[simp] theorem Side.opposite_opposite (side : Side) : side.opposite.opposite = side := by
  cases side <;> rfl

theorem Side.eq_opposite_of_ne {side side' : Side} (h : side ≠ side') : side = side'.opposite := by
  cases side <;> cases side' <;> simp_all [Side.opposite]

/-- A price of a side is listed before another: bids descend and asks ascend. -/
def Better : Side → Int64 → Int64 → Prop
  | .bid, p, p' => p' < p
  | .ask, p, p' => p < p'

instance : ∀ side p p', Decidable (Better side p p')
  | .bid, _, _ => inferInstanceAs (Decidable (_ < _))
  | .ask, _, _ => inferInstanceAs (Decidable (_ < _))

theorem Better.asymm {side : Side} {p p' : Int64} (h : Better side p p') : ¬ Better side p' p := by
  cases side <;> exact lt_asymm h

theorem eq_of_not_better {side : Side} {p p' : Int64} (h : ¬ Better side p p')
    (h' : ¬ Better side p' p) : p = p' := by
  cases side with
  | bid => exact le_antisymm (not_lt.mp h) (not_lt.mp h')
  | ask => exact le_antisymm (not_lt.mp h') (not_lt.mp h)

/-- A taker accepts the price of a maker: any price for a market order. -/
def Crosses (taker maker : Order) : Prop :=
  taker.orderType = .market ∨
    match taker.side with
    | .bid => maker.price ≤ taker.price
    | .ask => taker.price ≤ maker.price

instance (taker maker : Order) : Decidable (Crosses taker maker) :=
  @instDecidableOr _ _ inferInstance <| match taker.side with
    | .bid | .ask => inferInstanceAs (Decidable (_ ≤ _))

/-- Operations that submit no order. -/
def BookOp.Withdraws : BookOp → Prop
  | .insert _ | .insertWithTime _ _ => False
  | _ => True

namespace OrderBook

variable {book : OrderBook} {order : Order}

theorem mem_queue_resting (h : book.Sound) {side : Side} {o : Order} (ho : o ∈ book.queue side) :
    o.side = side ∧ o.isFilled = false := by
  cases side with
  | bid =>
    obtain ⟨e, he, ho⟩ := mem_queueOf.mp ho
    exact ⟨((h.bids e he).resting o ho).1, ((h.bids e he).resting o ho).2.2⟩
  | ask =>
    obtain ⟨e, he, ho⟩ := mem_queueOf.mp ho
    exact ⟨((h.asks e he).resting o ho).1, ((h.asks e he).resting o ho).2.2⟩

/-- All resting orders, bids before asks. -/
def resting (book : OrderBook) : List Order := book.queue .bid ++ book.queue .ask

theorem mem_resting {o : Order} : o ∈ book.resting ↔ ∃ side, o ∈ book.queue side := by
  rw [resting, List.mem_append]
  exact ⟨fun h => h.elim (⟨.bid, ·⟩) (⟨.ask, ·⟩), fun ⟨side, h⟩ => by
    cases side with
    | bid => exact .inl h
    | ask => exact .inr h⟩

theorem resting_perm (book : OrderBook) (side : Side) :
    book.resting.Perm (book.queue side.opposite ++ book.queue side) := by
  cases side with
  | bid => exact List.perm_append_comm
  | ask => exact .refl _

/-- The levels of a side by price, best price first. -/
def levels (book : OrderBook) : Side → List (Int64 × PriceLevel)
  | .bid => book.bids.entries.map fun e => (ofDual e.1, e.2)
  | .ask => book.asks.entries

theorem queueOf_levels (book : OrderBook) (side : Side) :
    queueOf (book.levels side) = book.queue side := by
  cases side with
  | bid => simp [levels, queue, queueOf, List.flatMap_map]
  | ask => rfl

theorem queueOf_levels_append (book : OrderBook) :
    queueOf (book.levels .bid ++ book.levels .ask) = book.resting := by
  rw [queueOf_append, queueOf_levels, queueOf_levels, resting]

theorem levels_pairwise (book : OrderBook) (side : Side) :
    (book.levels side).Pairwise fun e e' => Better side e.1 e'.1 := by
  cases side with
  | bid => exact List.pairwise_map.mpr book.bids.sorted
  | ask => exact book.asks.sorted

theorem Sound.levelSound (h : book.Sound) {side : Side} {e : Int64 × PriceLevel}
    (he : e ∈ book.levels side) : LevelSound side e.1 e.2 := by
  cases side with
  | bid =>
    obtain ⟨e', he', rfl⟩ := List.mem_map.mp he
    exact h.bids e' he'
  | ask => exact h.asks e he

/-- **The queue of a level is the queue of the side at its price.** -/
theorem Sound.filter_price_queue (h : book.Sound) {side : Side} {e : Int64 × PriceLevel}
    (he : e ∈ book.levels side) :
    (book.queue side).filter (fun o => o.price = e.1) = e.2.orders := by
  cases side with
  | bid =>
    obtain ⟨e', he', rfl⟩ := List.mem_map.mp he
    obtain ⟨before, after, heq⟩ := List.append_of_mem he'
    exact filter_price_queueOf h.bids ofDual.injective heq
  | ask =>
    obtain ⟨before, after, heq⟩ := List.append_of_mem he
    exact filter_price_queueOf h.asks Function.injective_id heq

/-- A resting order is in the level of its price. -/
theorem Sound.exists_level (h : book.Sound) {side : Side} {o : Order} (ho : o ∈ book.queue side) :
    ∃ level, (o.price, level) ∈ book.levels side ∧ o ∈ level.orders := by
  rw [← queueOf_levels] at ho
  obtain ⟨⟨price, level⟩, he, ho⟩ := mem_queueOf.mp ho
  obtain ⟨-, hprice, -⟩ := (h.levelSound he).resting o ho
  exact ⟨level, hprice ▸ he, ho⟩

/-- **The queue of a side is sorted by price**, best price first. -/
theorem Sound.queue_pairwise (h : book.Sound) (side : Side) :
    (book.queue side).Pairwise fun a b => ¬ Better side b.price a.price := by
  have hprice : ∀ e ∈ book.levels side, ∀ o ∈ e.2.orders, o.price = e.1 := fun e he o ho =>
    ((h.levelSound he).resting o ho).2.1
  rw [← queueOf_levels, queueOf, List.pairwise_flatMap]
  constructor
  · intro e he
    refine List.pairwise_of_forall_mem_list fun a ha b hb => ?_
    rw [hprice e he a ha, hprice e he b hb]
    exact fun hlt => hlt.asymm hlt
  · refine (book.levels_pairwise side).imp_of_mem fun he he' hlt a ha b hb => ?_
    rw [hprice _ he a ha, hprice _ he' b hb]
    exact hlt.asymm

/-- A FOK order that the book kills: the cached totals do not cover it. -/
def Kills (book : OrderBook) (order : Order) : Prop :=
  order.timeInForce = .fok ∧
    match order.side with
    | .bid => book.canFillBid order = false
    | .ask => book.canFillAsk order = false

instance (book : OrderBook) (order : Order) : Decidable (book.Kills order) :=
  @instDecidableAnd _ _ inferInstance <| match order.side with
    | .bid | .ask => inferInstanceAs (Decidable (_ = false))

theorem crosses_bid_iff (hs : order.side = .bid) (maker : Order) :
    Crosses order maker ↔ maker.price ≤ bidTakerPrice order := by
  unfold Crosses bidTakerPrice
  rw [hs]
  cases order.orderType with
  | market => simp
  | limit => simp
  | stopLimit => simp

theorem crosses_ask_iff (hs : order.side = .ask) (maker : Order) :
    Crosses order maker ↔ askTakerPrice order ≤ maker.price := by
  unfold Crosses askTakerPrice
  rw [hs]
  cases order.orderType with
  | market => simp
  | limit => simp
  | stopLimit => simp

theorem matchOrder_of_kills (hk : book.Kills order) :
    book.matchOrder order = ⟨book, order, []⟩ := by
  obtain ⟨hfok, hfill⟩ := hk
  rcases order.side_eq_bid_or_ask with hs | hs
  · rw [hs] at hfill
    rw [matchOrder_of_bid hs, againstAsks,
      matchAgainst_of_killed (s := ⟨book.asks, order, [], book.orderIndex⟩) ⟨hfok, hfill⟩]
  · rw [hs] at hfill
    rw [matchOrder_of_ask hs, againstBids,
      matchAgainst_of_killed (s := ⟨book.bids, order, [], book.orderIndex⟩) ⟨hfok, hfill⟩]

/-- What the match phase of an insertion did to the book: it swept `q`, a front part of the
opposite queue. -/
structure SweptBook (book : OrderBook) (order : Order) (q rest : List Order) (m : Matched) :
    Prop where
  before : book.queue order.side.opposite = q ++ rest
  after : m.book.queue order.side.opposite = (sweep order q).makers ++ rest
  own : m.book.queue order.side = book.queue order.side
  taker_eq : m.taker = (sweep order q).taker
  fills_eq : m.fills = (sweep order q).fills
  index_eq : m.book.orderIndex = dropIds book.orderIndex (sweep order q).popped

/-- The part swept is the part that crosses. -/
structure MatchedBook (book : OrderBook) (order : Order) (q rest : List Order) (m : Matched) : Prop
    extends SweptBook book order q rest m where
  crosses : ∀ o ∈ q, Crosses order o
  not_crosses : ∀ o ∈ rest, ¬ Crosses order o

/-- The price of a bid reaches the asks that it crosses. -/
theorem crosses_iff_of_bid (hs : order.side = .bid) (key : Int64) (o : Order)
    (hprice : o.price = key) : Crosses order o ↔ key ≤ bidTakerPrice order := by
  rw [crosses_bid_iff hs, hprice]

/-- The price of an ask reaches the bids that it crosses. -/
theorem crosses_iff_of_ask (hs : order.side = .ask) (key : Int64ᵒᵈ) (o : Order)
    (hprice : o.price = ofDual key) : Crosses order o ↔ key ≤ toDual (askTakerPrice order) := by
  rw [crosses_ask_iff hs, hprice]
  exact Iff.rfl

/-- **The match phase sweeps the crossing part of the opposite queue.** -/
theorem Sound.matchOrder_queue (h : book.Sound) (hk : ¬ book.Kills order) :
    ∃ q rest, MatchedBook book order q rest (book.matchOrder order) := by
  rcases order.side_eq_bid_or_ask with hs | hs
  · have hk' : ¬ Killed book.asks (bidTakerPrice order) order := fun hk' =>
      hk ⟨hk'.1, by rw [hs]; exact hk'.2⟩
    obtain ⟨hbefore, hafter, htaker, hfills, hindex⟩ :=
      matchAgainst_queue h.asks hk' book.orderIndex
    obtain ⟨hcross, hnot⟩ := forall_queueOf_upTo h.asks (crosses_iff_of_bid hs)
    refine ⟨queueOf (book.asks.upTo (bidTakerPrice order)),
      queueOf (book.asks.above (bidTakerPrice order)), ?_⟩
    rw [matchOrder_of_bid hs]
    exact ⟨⟨by rw [hs]; exact hbefore, by rw [hs]; exact hafter, by rw [hs]; rfl, htaker, hfills,
      hindex⟩, hcross, hnot⟩
  · have hk' : ¬ Killed book.bids (toDual (askTakerPrice order)) order := fun hk' =>
      hk ⟨hk'.1, by rw [hs]; exact hk'.2⟩
    obtain ⟨hbefore, hafter, htaker, hfills, hindex⟩ :=
      matchAgainst_queue h.bids hk' book.orderIndex
    obtain ⟨hcross, hnot⟩ := forall_queueOf_upTo h.bids (crosses_iff_of_ask hs)
    refine ⟨queueOf (book.bids.upTo (toDual (askTakerPrice order))),
      queueOf (book.bids.above (toDual (askTakerPrice order))), ?_⟩
    rw [matchOrder_of_ask hs]
    exact ⟨⟨by rw [hs]; exact hbefore, by rw [hs]; exact hafter, by rw [hs]; rfl, htaker, hfills,
      hindex⟩, hcross, hnot⟩

/-- The resting orders that an incoming order crosses, in price-time priority. -/
def crossing (book : OrderBook) (order : Order) : List Order :=
  (book.queue order.side.opposite).filter fun o => Crosses order o

theorem mem_crossing {o : Order} :
    o ∈ book.crossing order ↔ o ∈ book.queue order.side.opposite ∧ Crosses order o := by
  simp [crossing]

/-- The crossing orders of a bid are the asks up to the highest price it accepts. -/
theorem Sound.crossing_of_bid (h : book.Sound) (hs : order.side = .bid) :
    book.crossing order = queueOf (book.asks.upTo (bidTakerPrice order)) := by
  unfold crossing
  rw [hs]
  exact filter_queueOf_upTo h.asks (crosses_iff_of_bid hs)

/-- The crossing orders of an ask are the bids down to the lowest price it accepts. -/
theorem Sound.crossing_of_ask (h : book.Sound) (hs : order.side = .ask) :
    book.crossing order = queueOf (book.bids.upTo (toDual (askTakerPrice order))) := by
  unfold crossing
  rw [hs]
  exact filter_queueOf_upTo h.bids (crosses_iff_of_ask hs)

theorem Sound.allOpen_crossing (h : book.Sound) (order : Order) : AllOpen (book.crossing order) :=
  fun _ ho => (mem_queue_resting h (mem_crossing.mp ho).1).2

theorem MatchedBook.crossing_eq {q rest : List Order} {m : Matched}
    (hm : MatchedBook book order q rest m) : book.crossing order = q := by
  have hq : q.filter (fun o => Crosses order o) = q :=
    List.filter_eq_self.mpr fun o ho => by simpa using hm.crosses o ho
  have hrest : rest.filter (fun o => Crosses order o) = [] :=
    List.filter_eq_nil_iff.mpr fun o ho => by simpa using hm.not_crosses o ho
  rw [crossing, hm.before, List.filter_append, hq, hrest, List.append_nil]

/-- **The fills of an insertion** are those of the sweep of the orders it crosses, or none for an
order that is expired or killed. -/
theorem Sound.fills_insertWithTime (h : book.Sound) (order : Order) (nowNs : UInt64) :
    (book.insertWithTime order nowNs).2 =
      if isExpired order nowNs = true ∨ book.Kills order then []
      else (sweep order (book.crossing order)).fills := by
  unfold OrderBook.insertWithTime
  by_cases hexp : isExpired order nowNs = true
  · rw [if_pos hexp, if_pos (.inl hexp)]
  · rw [if_neg hexp]
    have hfills : (book.matchOrder order).fills =
        if isExpired order nowNs = true ∨ book.Kills order then []
        else (sweep order (book.crossing order)).fills := by
      by_cases hk : book.Kills order
      · rw [if_pos (.inr hk), matchOrder_of_kills hk]
      · obtain ⟨q, rest, hm⟩ := h.matchOrder_queue hk
        rw [if_neg (not_or.mpr ⟨hexp, hk⟩), hm.crossing_eq, hm.fills_eq]
    rw [← hfills]
    dsimp only
    split_ifs <;> rfl

/-- **The `i`-th fill is a trade with the `i`-th order that the incoming one crosses.** -/
theorem Sound.fills_get (h : book.Sound) {nowNs : UInt64} (i : ℕ) (f : Fill)
    (hf : (book.insertWithTime order nowNs).2[i]? = some f) :
    ∃ maker, (book.crossing order)[i]? = some maker ∧ TradeWith order maker f := by
  rw [h.fills_insertWithTime] at hf
  split_ifs at hf
  · exact absurd hf (by simp)
  · exact fills_sweep_get order _ i f hf

/-- A killed order sweeps nothing. -/
theorem Sound.matchOrder_swept (h : book.Sound) (order : Order) :
    ∃ q rest, SweptBook book order q rest (book.matchOrder order) := by
  by_cases hk : book.Kills order
  · rw [matchOrder_of_kills hk]
    exact ⟨[], book.queue order.side.opposite, ⟨rfl, rfl, rfl, rfl, rfl, rfl⟩⟩
  · obtain ⟨q, rest, hm⟩ := h.matchOrder_queue hk
    exact ⟨q, rest, hm.toSweptBook⟩

/-- The resting orders after a sweep: the makers that are left and the orders it did not reach. -/
theorem SweptBook.resting_perm {q rest : List Order} {m : Matched}
    (hm : SweptBook book order q rest m) :
    book.resting.Perm (q ++ (rest ++ book.queue order.side)) ∧
      m.book.resting.Perm ((sweep order q).makers ++ (rest ++ book.queue order.side)) := by
  have hbefore := OrderBook.resting_perm book order.side
  have hafter := OrderBook.resting_perm m.book order.side
  rw [hm.before, List.append_assoc] at hbefore
  rw [hm.after, hm.own, List.append_assoc] at hafter
  exact ⟨hbefore, hafter⟩

/-- **Resting puts the order last at its price** on its own side. -/
theorem Sound.restOrder_queue (h : book.Sound) (order : Order) :
    (book.restOrder order).queue order.side.opposite = book.queue order.side.opposite ∧
      ((book.restOrder order).queue order.side).Perm (order :: book.queue order.side) ∧
      (∀ price, ((book.restOrder order).queue order.side).filter (fun o => o.price = price) =
        (book.queue order.side).filter (fun o => o.price = price) ++
          if order.price = price then [order] else []) ∧
      (book.restOrder order).orderIndex =
        book.orderIndex.insert order.id (order.side, order.price) := by
  rcases order.side_eq_bid_or_ask with hs | hs
  · rw [restOrder_of_bid hs, hs]
    exact ⟨rfl, queueOf_pushAt_perm _ _ _,
      filter_price_queueOf_pushAt h.bids ofDual.injective rfl, rfl⟩
  · rw [restOrder_of_ask hs, hs]
    exact ⟨rfl, queueOf_pushAt_perm _ _ _,
      filter_price_queueOf_pushAt h.asks Function.injective_id rfl, rfl⟩

theorem Sound.restOrder_perm (h : book.Sound) (order : Order) :
    (book.restOrder order).resting.Perm (order :: book.resting) := by
  obtain ⟨hother, hown, -⟩ := h.restOrder_queue order
  refine (resting_perm _ order.side).trans ?_
  rw [hother]
  refine (List.Perm.append_left _ hown).trans (List.perm_middle.trans ?_)
  exact (resting_perm book order.side).symm.cons _

/-- What a cancellation of an indexed id did to the book. -/
structure CancelledBook (book : OrderBook) (id : OrderId) (side : Side) (price : Int64)
    (r : OrderBook × Option Order) : Prop where
  indexed : book.orderIndex.get? id = some (side, price)
  index_eq : r.1.orderIndex = book.orderIndex.erase id
  other : r.1.queue side.opposite = book.queue side.opposite
  found : (r.2 = none ∧ r.1.queue side = book.queue side ∧
      ∀ o ∈ book.queue side, o.price = price → o.id ≠ id) ∨
    ∃ o, r.2 = some o ∧ CancelledFrom (book.queue side) (r.1.queue side) price id o

/-- **A cancellation** finds no index entry, or takes out the first order with the id at the
indexed side and price. -/
theorem Sound.cancel_queue (h : book.Sound) (id : OrderId) :
    (book.orderIndex.get? id = none ∧ book.cancel id = (book, none)) ∨
      ∃ side price, CancelledBook book id side price (book.cancel id) := by
  cases hget : book.orderIndex.get? id with
  | none => exact .inl ⟨rfl, by simp only [OrderBook.cancel, hget]⟩
  | some entry =>
    obtain ⟨side, price⟩ := entry
    refine .inr ⟨side, price, ?_⟩
    cases side with
    | bid =>
      have hc := queueOf_cancelAt h.bids ofDual.injective (toDual price) id
      simp only [OrderBook.cancel, hget]
      refine ⟨hget, rfl, rfl, ?_⟩
      rcases hc with ⟨hc, hnone⟩ | hc
      · rw [hc]; exact .inl ⟨rfl, rfl, hnone⟩
      · exact .inr hc
    | ask =>
      have hc := queueOf_cancelAt h.asks Function.injective_id price id
      simp only [OrderBook.cancel, hget]
      refine ⟨hget, rfl, rfl, ?_⟩
      rcases hc with ⟨hc, hnone⟩ | hc
      · rw [hc]; exact .inl ⟨rfl, rfl, hnone⟩
      · exact .inr hc

/-! ## Withdrawn orders -/

/-- **A cancellation erases what it returns** from the queue of its side, and nothing else. -/
theorem Sound.cancel_erase (h : book.Sound) (id : OrderId) (side : Side) :
    (book.cancel id).1.queue side =
      (book.cancel id).2.toList.foldl List.erase (book.queue side) := by
  rcases h.cancel_queue id with ⟨-, hc⟩ | ⟨side', price, hc⟩
  · rw [hc]; rfl
  · have hother : side ≠ side' → (book.cancel id).1.queue side = book.queue side := fun hne => by
      rw [Side.eq_opposite_of_ne hne]
      exact hc.other
    rcases hc.found with ⟨hnone, hsame, -⟩ | ⟨o, hsome, hfrom⟩
    · rw [hnone]
      by_cases hs : side = side'
      · rw [hs]; exact hsame
      · exact hother hs
    · rw [hsome]
      by_cases hs : side = side'
      · subst hs
        obtain ⟨before, after, hq, hq', hbefore⟩ := hfrom.exists_split
        have hmem : o ∉ before := fun ho => hbefore o ho hfrom.price_eq hfrom.id_eq
        rw [hq', hq]
        simp [List.erase_append_right _ hmem]
      · have hmem : o ∉ book.queue side := fun ho => hs <| by
          have hin : o ∈ book.queue side' := hfrom.perm.mem_iff.mpr (by simp)
          rw [← (mem_queue_resting h ho).1, (mem_queue_resting h hin).1]
        rw [hother hs]
        simp [List.erase_of_not_mem hmem]

/-- What a cancellation returns is what leaves the resting orders. -/
theorem Sound.cancel_perm (h : book.Sound) (id : OrderId) :
    book.resting.Perm ((book.cancel id).2.toList ++ (book.cancel id).1.resting) := by
  rcases h.cancel_queue id with ⟨-, hc⟩ | ⟨side, price, hc⟩
  · rw [hc]; exact .refl _
  · have hbefore := resting_perm book side
    have hafter := resting_perm (book.cancel id).1 side
    rw [hc.other] at hafter
    rcases hc.found with ⟨hnone, hsame, -⟩ | ⟨o, hsome, hfrom⟩
    · rw [hnone]
      rw [hsame] at hafter
      exact hbefore.trans hafter.symm
    · rw [hsome]
      refine hbefore.trans ((List.Perm.append_left _ hfrom.perm).trans ?_)
      exact List.perm_middle.trans (hafter.symm.cons o)

theorem Sound.cancelIds (h : book.Sound) (ids : List OrderId) : (book.cancelIds ids).1.Sound :=
  cancelIds_invariant Sound (fun _ id h => h.cancel id) h ids

theorem Sound.cancelIds_erase (h : book.Sound) (ids : List OrderId) (side : Side) :
    (book.cancelIds ids).1.queue side =
      (book.cancelIds ids).2.foldl List.erase (book.queue side) := by
  induction ids generalizing book with
  | nil => rfl
  | cons id ids ih =>
    simp only [OrderBook.cancelIds, List.foldl_append]
    rw [ih (h.cancel id), h.cancel_erase id side]

theorem Sound.cancelIds_perm (h : book.Sound) (ids : List OrderId) :
    book.resting.Perm ((book.cancelIds ids).2 ++ (book.cancelIds ids).1.resting) := by
  induction ids generalizing book with
  | nil => exact .refl _
  | cons id ids ih =>
    have hhead := h.cancel_perm id
    have htail := ih (h.cancel id)
    simp only [OrderBook.cancelIds, List.append_assoc]
    exact hhead.trans (htail.append_left _)

/-- The orders that an operation takes off the book without a trade. -/
def withdrawn (book : OrderBook) : BookOp → List Order
  | .insert _ | .insertWithTime _ _ => []
  | .cancel id => (book.cancel id).2.toList
  | .purgeExpired nowNs => (book.purgeExpired nowNs).2
  | .cancelAllSide side => (book.cancelIds (book.allOrderIdsBySide side)).2
  | .cancelAll =>
    let r := book.cancelIds (book.allOrderIdsBySide .bid)
    r.2 ++ (r.1.cancelIds (r.1.allOrderIdsBySide .ask)).2

/-- **An operation that submits nothing erases what it withdraws.** -/
theorem Sound.step_erase (h : book.Sound) {op : BookOp} (hop : op.Withdraws) (side : Side) :
    (book.step op).queue side = (book.withdrawn op).foldl List.erase (book.queue side) := by
  cases op with
  | insert order => exact hop.elim
  | insertWithTime order nowNs => exact hop.elim
  | cancel id => exact h.cancel_erase id side
  | purgeExpired nowNs => exact h.cancelIds_erase _ side
  | cancelAllSide side' => exact h.cancelIds_erase _ side
  | cancelAll =>
    have hbid := h.cancelIds_erase (book.allOrderIdsBySide .bid) side
    have hask := (h.cancelIds (book.allOrderIdsBySide .bid)).cancelIds_erase
      ((book.cancelIds (book.allOrderIdsBySide .bid)).1.allOrderIdsBySide .ask) side
    rw [hbid] at hask
    simp only [withdrawn, List.foldl_append]
    exact hask

/-- **What an operation that submits nothing withdraws** is what leaves the resting orders. -/
theorem Sound.step_perm (h : book.Sound) {op : BookOp} (hop : op.Withdraws) :
    book.resting.Perm (book.withdrawn op ++ (book.step op).resting) := by
  cases op with
  | insert order => exact hop.elim
  | insertWithTime order nowNs => exact hop.elim
  | cancel id => exact h.cancel_perm id
  | purgeExpired nowNs => exact h.cancelIds_perm _
  | cancelAllSide side => exact h.cancelIds_perm _
  | cancelAll =>
    have hbid := h.cancelIds_perm (book.allOrderIdsBySide .bid)
    have hask := (h.cancelIds (book.allOrderIdsBySide .bid)).cancelIds_perm
      ((book.cancelIds (book.allOrderIdsBySide .bid)).1.allOrderIdsBySide .ask)
    simp only [withdrawn, List.append_assoc]
    exact hbid.trans (hask.append_left _)

end OrderBook

end AliceLedger
