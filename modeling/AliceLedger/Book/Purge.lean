import AliceLedger.Book.Cancel
import AliceLedger.Book.Expiry

/-!
# The purge of expired orders

`purge_expired` takes a snapshot of the expired ids of both sides and cancels them in turn. What it
is for is `discard`: the book without the orders that meet a condition, with what they had left
taken off the totals of their levels, the levels that this empties and their index entries gone. On
a listed book one cancellation discards the order with the id (`Listed.cancel_eq_discard`), and two
discards in a row are one (`discard_discard`), so a list of ids is one discard and returns the
orders in the order of the list (`Listed.cancelIds_eq_discard`), and the purge discards the expired
orders (`Listed.purgeExpired_eq`).

The totals it leaves are the exact sums precisely at the levels where they were so before, and a
total that has wrapped in `PriceLevel::push` was not: `purge_exact_iff`.
-/

namespace AliceLedger

open OrderDual (toDual ofDual)

/-! ## Discarding orders -/

/-- A queue is what meets a condition and what does not. -/
theorem liquidity_filter_add (p : Order → Bool) (orders : List Order) :
    liquidity (orders.filter p) + liquidity (orders.filter fun o => !p o) = liquidity orders := by
  rw [← liquidity_append]
  exact ((List.filter_append_perm p orders).map _).sum_eq

namespace PriceLevel

variable {level kept : PriceLevel} {p q : Order → Bool}

/-- The level without the orders that meet a condition, if others are left. -/
def discard (p : Order → Bool) (level : PriceLevel) : Option PriceLevel :=
  if level.orders.filter (fun o => !p o) = [] then none
  else some { level with
    orders := level.orders.filter fun o => !p o
    totalQuantity :=
      .ofNat (level.totalQuantity.toNat - liquidity (level.orders.filter p)) }

theorem discard_congr (h : ∀ o ∈ level.orders, p o = q o) : level.discard p = level.discard q := by
  have hkept : level.orders.filter (fun o => !p o) = level.orders.filter fun o => !q o :=
    List.filter_congr fun o ho => by rw [h o ho]
  rw [discard, discard, hkept, List.filter_congr h]

/-- A level on which no order meets the condition stays as it is. -/
theorem discard_eq_self (hne : level.orders ≠ []) (h : ∀ o ∈ level.orders, p o = false) :
    level.discard p = some level := by
  have hkept : level.orders.filter (fun o => !p o) = level.orders :=
    List.filter_eq_self.mpr fun o ho => by rw [h o ho]; rfl
  have hgone : level.orders.filter p = [] :=
    List.filter_eq_nil_iff.mpr fun o ho => by rw [h o ho]; exact Bool.false_ne_true
  rw [discard, hkept, hgone, if_neg hne, liquidity_nil, Nat.sub_zero, UInt64.ofNat_toNat]

theorem discard_eq_some (h : level.discard p = some kept) :
    kept.price = level.price ∧ kept.orders = level.orders.filter (fun o => !p o) ∧
      kept.orders ≠ [] ∧
      kept.totalQuantity.toNat =
        level.totalQuantity.toNat - liquidity (level.orders.filter p) := by
  unfold discard at h
  split_ifs at h with hnil
  obtain rfl := Option.some.inj h
  refine ⟨rfl, rfl, hnil, UInt64.toNat_ofNat_of_lt' ?_⟩
  exact (Nat.sub_le _ _).trans_lt level.totalQuantity.toNat_lt

/-- **Two discards in a row are one.** -/
theorem discard_discard (p q : Order → Bool) (level : PriceLevel) :
    (level.discard p).bind (discard q) = level.discard fun o => p o || q o := by
  have hkept : (level.orders.filter fun o => !p o).filter (fun o => !q o) =
      level.orders.filter fun o => !(p o || q o) := by
    rw [List.filter_filter]
    exact List.filter_congr fun o _ => by rw [Bool.not_or, Bool.and_comm]
  by_cases hnil : level.orders.filter (fun o => !p o) = []
  · rw [hnil, List.filter_nil] at hkept
    rw [discard, if_pos hnil, Option.bind_none, discard, if_pos hkept.symm]
  · have hgone : liquidity (level.orders.filter p) +
        liquidity ((level.orders.filter fun o => !p o).filter q) =
          liquidity (level.orders.filter fun o => p o || q o) := by
      have hfirst := liquidity_filter_add p level.orders
      have hsecond := liquidity_filter_add q (level.orders.filter fun o => !p o)
      have hboth := liquidity_filter_add (fun o => p o || q o) level.orders
      rw [hkept] at hsecond
      omega
    have hlt := (Nat.sub_le level.totalQuantity.toNat
      (liquidity (level.orders.filter p))).trans_lt level.totalQuantity.toNat_lt
    rw [discard, if_neg hnil, Option.bind_some, discard, discard]
    dsimp only
    rw [hkept, UInt64.toNat_ofNat_of_lt' hlt, Nat.sub_sub, hgone]

/-- Discarding the only order with an id is the removal of that order. -/
theorem discard_id {pre post : List Order} {o : Order} (ho : level.orders = pre ++ o :: post)
    (hother : ∀ x ∈ pre ++ post, x.id ≠ o.id) :
    level.discard (fun x => x.id = o.id) =
      if pre ++ post = [] then none
      else some { level with
        orders := pre ++ post
        totalQuantity := level.totalQuantity.saturatingSub o.remaining } := by
  have hfalse : ∀ x ∈ pre ++ post, decide (x.id = o.id) = false := fun x hx =>
    decide_eq_false (hother x hx)
  have hkept : level.orders.filter (fun x => !decide (x.id = o.id)) = pre ++ post := by
    rw [ho, List.filter_append, List.filter_cons_of_neg (by simp), ← List.filter_append]
    exact List.filter_eq_self.mpr fun x hx => by rw [hfalse x hx]; rfl
  have hgone : level.orders.filter (fun x => x.id = o.id) = [o] := by
    have hpre : pre.filter (fun x => x.id = o.id) = [] :=
      List.filter_eq_nil_iff.mpr fun x hx => by simpa using hother x (by simp [hx])
    have hpost : post.filter (fun x => x.id = o.id) = [] :=
      List.filter_eq_nil_iff.mpr fun x hx => by simpa using hother x (by simp [hx])
    rw [ho, List.filter_append, List.filter_cons_of_pos (by simp), hpre, hpost, List.nil_append]
  have htotal : UInt64.ofNat (level.totalQuantity.toNat - liquidity [o]) =
      level.totalQuantity.saturatingSub o.remaining := by
    rw [liquidity_cons, liquidity_nil, Nat.add_zero, ← UInt64.toNat_saturatingSub,
      UInt64.ofNat_toNat]
  rw [discard, hkept, hgone, htotal]

/-- **The total left is exact precisely when the total was**: what was taken off it was there. -/
theorem total_discard_iff (hopen : AllOpen level.orders) (h : level.discard p = some kept) :
    kept.totalQuantity.toNat = liquidity kept.orders ↔
      level.totalQuantity.toNat = liquidity level.orders := by
  obtain ⟨-, horders, hne, htotal⟩ := discard_eq_some h
  obtain ⟨o, ho⟩ := List.exists_mem_of_ne_nil _ hne
  have hin : o ∈ level.orders := by
    rw [horders] at ho
    exact List.mem_of_mem_filter ho
  have hpos := Order.remaining_pos (hopen o hin)
  have hle : o.remaining.toNat ≤ liquidity kept.orders :=
    List.single_le_sum (by simp) _ (List.mem_map_of_mem ho)
  have hsplit := liquidity_filter_add p level.orders
  rw [← horders] at hsplit
  omega

end PriceLevel

theorem ExpiredBy.mono {nowNs later : UInt64} {o : Order} (hle : nowNs ≤ later)
    (h : ExpiredBy nowNs o) : ExpiredBy later o := by
  unfold ExpiredBy at h ⊢
  split at h
  · exact h.trans hle
  · exact h.elim

section Side

variable {K : Type*} [LinearOrder K] {priceOf : K → Int64} {side : Side}
  {levels : SortedMap K PriceLevel} {p q : Order → Bool}

/-- The levels of a side without the orders that meet a condition. -/
def discardLevels (p : Order → Bool) (levels : SortedMap K PriceLevel) : SortedMap K PriceLevel :=
  levels.filterMap (PriceLevel.discard p)

theorem discardLevels_congr (h : ∀ o ∈ queueOf levels.entries, p o = q o) :
    discardLevels p levels = discardLevels q levels :=
  SortedMap.filterMap_congr fun e he =>
    PriceLevel.discard_congr fun o ho => h o (mem_queueOf.mpr ⟨e, he, ho⟩)

theorem discardLevels_discardLevels (p q : Order → Bool) (levels : SortedMap K PriceLevel) :
    discardLevels q (discardLevels p levels) = discardLevels (fun o => p o || q o) levels := by
  simp only [discardLevels, SortedMap.filterMap_filterMap, PriceLevel.discard_discard]

/-- **The queue that is left** is the queue without those orders. -/
theorem queueOf_discardLevels (p : Order → Bool) (levels : SortedMap K PriceLevel) :
    queueOf (discardLevels p levels).entries =
      (queueOf levels.entries).filter fun o => !p o := by
  rw [discardLevels, SortedMap.entries_filterMap]
  induction levels.entries with
  | nil => rfl
  | cons e es ih =>
    rw [queueOf_cons, List.filter_append, ← ih]
    cases h : e.2.discard p with
    | none =>
      have hnil : e.2.orders.filter (fun o => !p o) = [] := by
        unfold PriceLevel.discard at h
        split_ifs at h with hnil
        exact hnil
      rw [List.filterMap_cons_none (by rw [h]; rfl), hnil, List.nil_append]
    | some kept =>
      rw [List.filterMap_cons_some (by rw [h]; rfl), queueOf_cons,
        (PriceLevel.discard_eq_some h).2.1]

/-- Levels on which no order meets the condition stay as they are. -/
theorem filterMap_discard_eq_self {K : Type*} {es : List (K × PriceLevel)}
    (hne : ∀ e ∈ es, e.2.orders ≠ []) (h : ∀ o ∈ queueOf es, p o = false) :
    es.filterMap (fun e => (e.2.discard p).map fun kept => (e.1, kept)) = es := by
  induction es with
  | nil => rfl
  | cons e es ih =>
    have hself : e.2.discard p = some e.2 :=
      PriceLevel.discard_eq_self (hne e (by simp)) fun o ho => h o (List.mem_append_left _ ho)
    rw [List.filterMap_cons_some (by rw [hself]; rfl),
      ih (fun e he => hne e (List.mem_cons_of_mem _ he)) fun o ho =>
        h o (List.mem_append_right _ ho)]

theorem discardLevels_eq_self (hlevels : LevelsSound priceOf side levels)
    (h : ∀ o ∈ queueOf levels.entries, p o = false) : discardLevels p levels = levels :=
  SortedMap.ext (filterMap_discard_eq_self (fun e he => (hlevels e he).nonempty) h)

/-- **A cancellation at a key discards the orders with the id**, when the ids of the side are
distinct and one of them is there. -/
theorem cancelAt_eq_discardLevels (h : LevelsSound priceOf side levels)
    (hnodup : ((queueOf levels.entries).map Order.id).Nodup) {key : K} {id : OrderId} {o : Order}
    (hsome : (cancelAt levels key id).2 = some o) :
    (cancelAt levels key id).1 = discardLevels (fun o => o.id = id) levels := by
  rcases cancelAt_cases levels key id with
    ⟨hc, -⟩ | ⟨before, level, after, pre, o', post, he, ho, rfl, -, -, hc⟩
  · rw [hc] at hsome
    exact absurd hsome (by simp)
  · -- no other order of the side has the id
    have hother : ∀ x ∈ queueOf before ++ pre ++ (post ++ queueOf after), x.id ≠ o'.id := by
      have hqueue : queueOf levels.entries =
          queueOf before ++ pre ++ o' :: (post ++ queueOf after) := by
        rw [he, queueOf_append, queueOf_cons, ho]
        simp only [List.append_assoc, List.cons_append]
      rw [hqueue, (List.perm_middle.map Order.id).nodup_iff, List.map_cons,
        List.nodup_cons] at hnodup
      exact fun x hx heq => hnodup.1 (heq ▸ List.mem_map_of_mem hx)
    have hself : ∀ es, (∀ e ∈ es, e ∈ levels.entries) → (∀ x ∈ queueOf es, x.id ≠ o'.id) →
        es.filterMap (fun e => (e.2.discard fun x => x.id = o'.id).map fun kept => (e.1, kept)) =
          es := fun es hsub hne =>
      filterMap_discard_eq_self (fun e hmem => (h e (hsub e hmem)).nonempty) fun x hx =>
        decide_eq_false (hne x hx)
    have hbefore := hself before (fun e hmem => by simp [he, hmem]) fun x hx =>
      hother x (by simp [hx])
    have hafter := hself after (fun e hmem => by simp [he, hmem]) fun x hx =>
      hother x (by simp [hx])
    have hlevel := PriceLevel.discard_id ho fun x hx => hother x <| by
      rcases List.mem_append.mp hx with hx | hx <;> simp [hx]
    refine SortedMap.ext ?_
    rw [hc, discardLevels, SortedMap.entries_filterMap, he, List.filterMap_append, hbefore,
      List.filterMap_cons, hlevel, hafter]
    split_ifs
    · rfl
    · rfl

theorem expiredIds_eq (nowNs : UInt64) (levels : SortedMap K PriceLevel) :
    expiredIds nowNs levels =
      ((queueOf levels.entries).filter fun o => ExpiredBy nowNs o).map Order.id := by
  rw [expiredIds, SortedMap.values, List.flatMap_map, queueOf, List.filter_flatMap,
    List.map_flatMap]
  refine List.flatMap_congr fun e _ => ?_
  induction e.2.orders with
  | nil => rfl
  | cons o os ih =>
    rw [List.filterMap_cons, List.filter_cons, ih]
    cases htif : o.timeInForce with
    | gtd expiryNs => by_cases hexp : expiryNs ≤ nowNs <;> simp [ExpiredBy, htif, hexp]
    | gtc | ioc | fok => simp [ExpiredBy, htif]

end Side

namespace OrderBook

variable {book : OrderBook} {p q : Order → Bool} {id : OrderId} {o : Order} {nowNs : UInt64}

/-- The book without the orders that meet a condition. -/
def discard (p : Order → Bool) (book : OrderBook) : OrderBook where
  bids := discardLevels p book.bids
  asks := discardLevels p book.asks
  orderIndex := dropIds book.orderIndex (book.resting.filter p)

theorem queue_discard (p : Order → Bool) (book : OrderBook) (side : Side) :
    (book.discard p).queue side = (book.queue side).filter fun o => !p o := by
  cases side with
  | bid => exact queueOf_discardLevels p book.bids
  | ask => exact queueOf_discardLevels p book.asks

theorem resting_discard (p : Order → Bool) (book : OrderBook) :
    (book.discard p).resting = book.resting.filter fun o => !p o := by
  rw [resting, resting, queue_discard, queue_discard, List.filter_append]

theorem discard_congr (h : ∀ o ∈ book.resting, p o = q o) : book.discard p = book.discard q := by
  have hbids : discardLevels p book.bids = discardLevels q book.bids :=
    discardLevels_congr fun o ho => h o (mem_resting.mpr ⟨.bid, ho⟩)
  have hasks : discardLevels p book.asks = discardLevels q book.asks :=
    discardLevels_congr fun o ho => h o (mem_resting.mpr ⟨.ask, ho⟩)
  rw [discard, discard, hbids, hasks, List.filter_congr h]

/-- **Two discards in a row are one.** -/
theorem discard_discard (p q : Order → Bool) (book : OrderBook) :
    (book.discard p).discard q = book.discard fun o => p o || q o := by
  have hindex : dropIds (book.discard p).orderIndex
      ((book.discard p).resting.filter q) =
        dropIds book.orderIndex (book.resting.filter fun o => p o || q o) := by
    refine SortedMap.ext_get? fun id => Option.ext fun entry => ?_
    rw [get?_dropIds, discard, get?_dropIds, get?_dropIds, and_assoc, ← discard, resting_discard]
    simp only [List.mem_filter, Bool.not_eq_true', Bool.or_eq_true]
    refine and_congr_right fun _ => ⟨fun ⟨hp, hq⟩ o ⟨ho, hpq⟩ => ?_, fun h => ⟨?_, ?_⟩⟩
    · cases hpo : p o with
      | true => exact hp o ⟨ho, hpo⟩
      | false => exact hq o ⟨⟨ho, hpo⟩, hpq.resolve_left (by simp [hpo])⟩
    · exact fun o ho => h o ⟨ho.1, .inl ho.2⟩
    · exact fun o ho => h o ⟨ho.1.1, .inr ho.2⟩
  have hbids := discardLevels_discardLevels p q book.bids
  have hasks := discardLevels_discardLevels p q book.asks
  change OrderBook.mk (discardLevels q (discardLevels p book.bids))
    (discardLevels q (discardLevels p book.asks)) _ = _
  rw [hbids, hasks, hindex]
  rfl

theorem Sound.discard_eq_self (h : book.Sound) (hp : ∀ o ∈ book.resting, p o = false) :
    book.discard p = book := by
  have hbids : discardLevels p book.bids = book.bids :=
    discardLevels_eq_self h.bids fun o ho => hp o (mem_resting.mpr ⟨.bid, ho⟩)
  have hasks : discardLevels p book.asks = book.asks :=
    discardLevels_eq_self h.asks fun o ho => hp o (mem_resting.mpr ⟨.ask, ho⟩)
  have hnil : book.resting.filter p = [] :=
    List.filter_eq_nil_iff.mpr fun o ho => by rw [hp o ho]; exact Bool.false_ne_true
  rw [discard, hbids, hasks, hnil]
  rfl

/-! ## Cancelling is discarding -/

/-- Erasing the id of an order is dropping the ids of the orders with it. -/
theorem erase_eq_dropIds (index : OrderIndex) {orders : List Order} (ho : o ∈ orders)
    (hid : o.id = id) : index.erase id = dropIds index (orders.filter fun x => x.id = id) := by
  refine SortedMap.ext_get? fun id' => Option.ext fun entry => ?_
  rw [get?_dropIds]
  by_cases hid' : id' = id
  · refine iff_of_false (by rw [hid', SortedMap.get?_erase_self]; simp) fun hdrop => ?_
    refine hdrop.2 o ?_ (hid.trans hid'.symm)
    exact List.mem_filter.mpr ⟨ho, decide_eq_true hid⟩
  · rw [SortedMap.get?_erase_of_ne _ hid']
    refine (and_iff_left fun x hx heq => ?_).symm
    exact hid' (heq.symm.trans (of_decide_eq_true (List.mem_filter.mp hx).2))

/-- **A cancellation discards the order with the id.** -/
theorem Listed.cancel_eq_discard (h : book.Listed) (hsound : book.Sound) (hlive : book.IndexLive)
    (id : OrderId) : (book.cancel id).1 = book.discard fun o => o.id = id := by
  cases hget : book.orderIndex.get? id with
  | none =>
    have hnone : ∀ o ∈ book.resting, decide (o.id = id) = false := fun o ho =>
      decide_eq_false fun hid => by
        have hsome := h.indexed o ho
        rw [hid, hget] at hsome
        exact Bool.false_ne_true hsome
    rw [hsound.discard_eq_self hnone]
    simp only [OrderBook.cancel, hget]
  | some entry =>
    obtain ⟨side, price⟩ := entry
    obtain ⟨o, ho, hid, -⟩ := hlive id side price hget
    have hsome := (h.cancel_eq_some_iff hsound hlive id o).mpr ⟨mem_resting.mpr ⟨side, ho⟩, hid⟩
    have hindex := erase_eq_dropIds book.orderIndex (mem_resting.mpr ⟨side, ho⟩) hid
    -- the other side has no order with the id
    cases side with
    | bid =>
      have hother : discardLevels (fun o => o.id = id) book.asks = book.asks :=
        discardLevels_eq_self hsound.asks fun x hx => decide_eq_false fun heq =>
          h.id_ne ho hx (hid.trans heq.symm)
      simp only [OrderBook.cancel, hget] at hsome ⊢
      rw [discard, hother, ← cancelAt_eq_discardLevels hsound.bids (h.nodup_queue .bid) hsome,
        hindex]
    | ask =>
      have hother : discardLevels (fun o => o.id = id) book.bids = book.bids :=
        discardLevels_eq_self hsound.bids fun x hx => decide_eq_false fun heq =>
          h.id_ne hx ho (heq.trans hid.symm)
      simp only [OrderBook.cancel, hget] at hsome ⊢
      rw [discard, hother, ← cancelAt_eq_discardLevels hsound.asks (h.nodup_queue .ask) hsome,
        hindex]

/-- **Cancelling the ids of resting orders** discards those orders and returns them, in order. -/
theorem Listed.cancelIds_eq_discard (h : book.Listed) (hsound : book.Sound)
    (hlive : book.IndexLive) {os : List Order} (hos : ∀ o ∈ os, o ∈ book.resting)
    (hnodup : (os.map Order.id).Nodup) :
    book.cancelIds (os.map Order.id) = (book.discard fun o => o.id ∈ os.map Order.id, os) := by
  induction os generalizing book with
  | nil =>
    have hself : book.discard (fun o => o.id ∈ ([] : List Order).map Order.id) = book :=
      hsound.discard_eq_self fun o _ => decide_eq_false List.not_mem_nil
    rw [hself]
    rfl
  | cons o os ih =>
    obtain ⟨hfresh, hnodup⟩ := List.nodup_cons.mp hnodup
    have hsome := (h.cancel_eq_some_iff hsound hlive o.id o).mpr ⟨hos o (by simp), rfl⟩
    have hbook := h.cancel_eq_discard hsound hlive o.id
    have hrest := ih (h.cancel hsound hlive o.id).1 (hsound.cancel o.id) (hlive.cancel hsound o.id)
      (fun x hx => by
        rw [hbook, resting_discard, List.mem_filter]
        have hne : x.id ≠ o.id := fun heq => hfresh (heq ▸ List.mem_map_of_mem hx)
        exact ⟨hos x (List.mem_cons_of_mem _ hx), by simpa using hne⟩) hnodup
    have hcancelled : book.cancelIds ((o :: os).map Order.id) =
        (((book.cancel o.id).1.cancelIds (os.map Order.id)).1,
          (book.cancel o.id).2.toList ++
            ((book.cancel o.id).1.cancelIds (os.map Order.id)).2) := rfl
    have hcongr : book.discard (fun x => decide (x.id = o.id) || decide (x.id ∈ os.map Order.id)) =
        book.discard fun x => x.id ∈ (o :: os).map Order.id :=
      discard_congr fun x _ => by simp
    rw [hcancelled, hsome, hrest, hbook, discard_discard, hcongr]
    rfl

/-! ## The purge -/

/-- **The purge discards the expired orders** and returns them. -/
theorem Listed.purgeExpired_eq (h : book.Listed) (hsound : book.Sound) (hlive : book.IndexLive)
    (nowNs : UInt64) : book.purgeExpired nowNs =
      (book.discard fun o => ExpiredBy nowNs o,
        book.resting.filter fun o => ExpiredBy nowNs o) := by
  have hids : expiredIds nowNs book.bids ++ expiredIds nowNs book.asks =
      (book.resting.filter fun o => ExpiredBy nowNs o).map Order.id := by
    rw [expiredIds_eq, expiredIds_eq, ← List.map_append, ← List.filter_append]
    rfl
  rw [OrderBook.purgeExpired, hids, h.cancelIds_eq_discard hsound hlive
    (fun o ho => List.mem_of_mem_filter ho) ((List.filter_sublist.map Order.id).nodup h.nodup)]
  -- a resting order is expired when its id is one of theirs
  have hcongr : book.discard (fun o =>
      o.id ∈ (book.resting.filter fun o => ExpiredBy nowNs o).map Order.id) =
        book.discard fun o => ExpiredBy nowNs o := by
    refine discard_congr fun o ho => decide_eq_decide.mpr ⟨fun hmem => ?_, fun hexp => ?_⟩
    · obtain ⟨x, hx, hid⟩ := List.mem_map.mp hmem
      obtain ⟨hx, hexp⟩ := List.mem_filter.mp hx
      rw [← List.inj_on_of_nodup_map h.nodup hx ho hid]
      exact of_decide_eq_true hexp
    · exact List.mem_map_of_mem (List.mem_filter.mpr ⟨ho, decide_eq_true hexp⟩)
  rw [hcongr]

/-- **Two purges in a row are the later one.** -/
theorem Listed.purgeExpired_purgeExpired (h : book.Listed) (hsound : book.Sound)
    (hlive : book.IndexLive) {later : UInt64} (hle : nowNs ≤ later) :
    (book.purgeExpired nowNs).1.purgeExpired later =
      ((book.purgeExpired later).1,
        (book.resting.filter fun o => !decide (ExpiredBy nowNs o)).filter
          fun o => ExpiredBy later o) := by
  have hnow := h.purgeExpired_eq hsound hlive nowNs
  obtain ⟨hlisted', hlive', -⟩ := h.cancelIds hsound hlive
    (expiredIds nowNs book.bids ++ expiredIds nowNs book.asks)
  have hsound' : (book.purgeExpired nowNs).1.Sound := hsound.cancelIds _
  change (book.purgeExpired nowNs).1.Listed at hlisted'
  change (book.purgeExpired nowNs).1.IndexLive at hlive'
  have hcongr : book.discard (fun o => decide (ExpiredBy nowNs o) || decide (ExpiredBy later o)) =
      book.discard fun o => ExpiredBy later o :=
    discard_congr fun o _ => by
      rw [← Bool.decide_or]
      exact decide_eq_decide.mpr (or_iff_right_of_imp (ExpiredBy.mono hle))
  rw [hlisted'.purgeExpired_eq hsound' hlive', hnow, discard_discard, hcongr, resting_discard,
    h.purgeExpired_eq hsound hlive later]

/-- One order comes before another: bids before asks, and the better price first. -/
def Precedes (a b : Order) : Prop :=
  a.side = .bid ∧ b.side = .ask ∨ a.side = b.side ∧ ¬ Better a.side b.price a.price

theorem Sound.resting_pairwise (h : book.Sound) : book.resting.Pairwise Precedes := by
  have hside : ∀ side, (book.queue side).Pairwise Precedes := fun side =>
    (h.queue_pairwise side).imp_of_mem fun ha hb hbetter => by
      obtain ⟨hsa, -⟩ := mem_queue_resting h ha
      obtain ⟨hsb, -⟩ := mem_queue_resting h hb
      exact .inr ⟨hsa.trans hsb.symm, hsa ▸ hbetter⟩
  refine List.pairwise_append.mpr ⟨hside .bid, hside .ask, fun a ha b hb => .inl ?_⟩
  exact ⟨(mem_queue_resting h ha).1, (mem_queue_resting h hb).1⟩

/-- What the purge is for: it returns the expired orders, each once, bids before asks and each side
by priority; the levels keep their other orders in place, with the exact sums of what they have
left, and go when none is left; the index forgets the ids of the expired orders only; and a later
purge covers an earlier one, which leaves it nothing at the same time. -/
structure PurgedExactly (book : OrderBook) (nowNs : UInt64) : Prop where
  returned_eq : (book.purgeExpired nowNs).2 = book.resting.filter fun o => ExpiredBy nowNs o
  returned_once : ((book.purgeExpired nowNs).2.map Order.id).Nodup
  returned_sorted : (book.purgeExpired nowNs).2.Pairwise Precedes
  queue_eq : ∀ side, (book.purgeExpired nowNs).1.queue side =
    (book.queue side).filter fun o => ¬ ExpiredBy nowNs o
  levels_eq : ∀ side, ((book.purgeExpired nowNs).1.levels side).map
      (fun e => (e.1, e.2.price, e.2.orders)) =
    ((book.levels side).map fun e =>
      (e.1, e.2.price, e.2.orders.filter fun o => ¬ ExpiredBy nowNs o)).filter
        fun e => e.2.2 ≠ []
  total_eq : ∀ side, ∀ e ∈ (book.purgeExpired nowNs).1.levels side,
    e.2.totalQuantity.toNat = liquidity e.2.orders
  get?_index : ∀ id entry, (book.purgeExpired nowNs).1.orderIndex.get? id = some entry ↔
    book.orderIndex.get? id = some entry ∧ ∀ o ∈ book.resting, ExpiredBy nowNs o → o.id ≠ id
  later_eq : ∀ later, nowNs ≤ later →
    ((book.purgeExpired nowNs).1.purgeExpired later).1 = (book.purgeExpired later).1
  again_eq : ((book.purgeExpired nowNs).1.purgeExpired nowNs).2 = []

/-- Each level with an order that the purge keeps has the exact sum as its total. -/
def KeptTotalsExact (book : OrderBook) (nowNs : UInt64) : Prop :=
  ∀ side, ∀ e ∈ book.levels side, (∃ o ∈ e.2.orders, ¬ ExpiredBy nowNs o) →
    e.2.totalQuantity.toNat = liquidity e.2.orders

theorem levels_discard (p : Order → Bool) (book : OrderBook) (side : Side) :
    (book.discard p).levels side =
      (book.levels side).filterMap fun e => (e.2.discard p).map fun kept => (e.1, kept) := by
  cases side with
  | bid =>
    simp only [levels, discard, discardLevels, SortedMap.entries_filterMap, List.map_filterMap,
      List.filterMap_map, Option.map_map]
    rfl
  | ask => rfl

theorem mem_levels_discard {side : Side} {e : Int64 × PriceLevel} :
    e ∈ (book.discard p).levels side ↔
      ∃ level, (e.1, level) ∈ book.levels side ∧ level.discard p = some e.2 := by
  simp only [levels_discard, List.mem_filterMap, Option.map_eq_some_iff, Prod.exists]
  constructor
  · rintro ⟨price, level, hmem, kept, hkept, rfl⟩
    exact ⟨level, hmem, hkept⟩
  · rintro ⟨level, hmem, hkept⟩
    exact ⟨e.1, level, hmem, e.2, hkept, rfl⟩

/-- The levels that a discard leaves, without their totals. -/
theorem map_levels_discard (p : Order → Bool) (book : OrderBook) (side : Side) :
    ((book.discard p).levels side).map (fun e => (e.1, e.2.price, e.2.orders)) =
      ((book.levels side).map fun e =>
        (e.1, e.2.price, e.2.orders.filter fun o => !p o)).filter fun e => e.2.2 ≠ [] := by
  rw [levels_discard]
  induction book.levels side with
  | nil => rfl
  | cons e es ih =>
    rw [List.map_cons, List.filter_cons, ← ih, List.filterMap_cons]
    by_cases hnil : e.2.orders.filter (fun o => !p o) = []
    · simp [PriceLevel.discard, hnil]
    · simp [PriceLevel.discard, hnil]

/-- **The totals a discard leaves are exact** precisely where they were on the levels it keeps. -/
theorem Sound.total_discard_iff (h : book.Sound) (p : Order → Bool) (side : Side) :
    (∀ e ∈ (book.discard p).levels side, e.2.totalQuantity.toNat = liquidity e.2.orders) ↔
      ∀ e ∈ book.levels side, (∃ o ∈ e.2.orders, p o = false) →
        e.2.totalQuantity.toNat = liquidity e.2.orders := by
  constructor
  · rintro hkept e he ⟨o, ho, hp⟩
    have hne : e.2.orders.filter (fun o => !p o) ≠ [] :=
      List.ne_nil_of_mem (List.mem_filter.mpr ⟨ho, by rw [hp]; rfl⟩)
    have hsome : ∃ kept, e.2.discard p = some kept := ⟨_, if_neg hne⟩
    obtain ⟨kept, hsome⟩ := hsome
    have htotal := hkept (e.1, kept) (mem_levels_discard.mpr ⟨e.2, he, hsome⟩)
    exact (PriceLevel.total_discard_iff (h.levelSound he).allOpen hsome).mp htotal
  · intro hbefore e he
    obtain ⟨level, hmem, hsome⟩ := mem_levels_discard.mp he
    refine (PriceLevel.total_discard_iff (h.levelSound hmem).allOpen hsome).mpr ?_
    obtain ⟨-, horders, hne, -⟩ := PriceLevel.discard_eq_some hsome
    obtain ⟨o, ho⟩ := List.exists_mem_of_ne_nil _ hne
    rw [horders, List.mem_filter, Bool.not_eq_true'] at ho
    exact hbefore _ hmem ⟨o, ho⟩

/-- **On a listed book only a total can go wrong.** -/
theorem Listed.purgedExactly_iff (h : book.Listed) (hsound : book.Sound) (hlive : book.IndexLive)
    (nowNs : UInt64) : book.PurgedExactly nowNs ↔ book.KeptTotalsExact nowNs := by
  have hpurge := h.purgeExpired_eq hsound hlive nowNs
  have htotal : (∀ side, ∀ e ∈ (book.purgeExpired nowNs).1.levels side,
      e.2.totalQuantity.toNat = liquidity e.2.orders) ↔ book.KeptTotalsExact nowNs := by
    rw [hpurge]
    simpa [KeptTotalsExact] using
      forall_congr' fun side => hsound.total_discard_iff (fun o => ExpiredBy nowNs o) side
  refine ⟨fun hexact => htotal.mp hexact.total_eq, fun hkept => ?_⟩
  have hagain := h.purgeExpired_purgeExpired hsound hlive (le_refl nowNs)
  refine ⟨by rw [hpurge], ?_, ?_, fun side => ?_, fun side => ?_, htotal.mpr hkept, ?_, ?_, ?_⟩
  · rw [hpurge]
    exact (List.filter_sublist.map Order.id).nodup h.nodup
  · rw [hpurge]
    exact hsound.resting_pairwise.sublist List.filter_sublist
  · rw [hpurge, queue_discard]
    simp
  · rw [hpurge, map_levels_discard]
    simp
  · intro id entry
    rw [hpurge, discard, get?_dropIds]
    simp [List.mem_filter]
  · intro later hle
    rw [h.purgeExpired_purgeExpired hsound hlive hle]
  · rw [hagain, List.filter_filter]
    exact List.filter_eq_nil_iff.mpr fun o _ => by simp

/-! ## Runs -/

/-- The resting ids are distinct. -/
def UniqueIds (book : OrderBook) : Prop := (book.resting.map Order.id).Nodup

instance : DecidablePred UniqueIds := fun book =>
  inferInstanceAs (Decidable (book.resting.map Order.id).Nodup)

theorem Sound.restsFresh_of_unique (h : book.Sound) {op : BookOp}
    (hunique : (book.step op).UniqueIds) : book.RestsFresh op := by
  cases op with
  | insert order => exact h.remainderFresh hunique
  | insertWithTime order nowNs => exact h.remainderFresh hunique
  | _ => trivial

/-- **A run of books with distinct ids keeps them listed.** -/
theorem listed_run_of_unique {ops : List BookOp} (h : Run.Throughout step UniqueIds new ops) :
    (ops.foldl step new).Sound ∧ (ops.foldl step new).IndexLive ∧ (ops.foldl step new).Listed :=
  Run.invariant_foldl (fun book : OrderBook => book.Sound ∧ book.IndexLive ∧ book.Listed)
    (fun _ _ h hunique => listed_step h (h.1.restsFresh_of_unique hunique))
    ⟨sound_new, indexLive_new, listed_new⟩ h.along

/-- **When the purge is exact.** After a run of books with distinct resting ids, a purge at any time
returns exactly the expired orders and leaves exactly the others, with all its other guarantees, if
and only if each level with an order that it keeps had the exact sum as its total; and so it was
when the sums at each price stayed below 2^64. -/
theorem purge_exact_iff (ops : List BookOp) (h : Run.Throughout step UniqueIds new ops) :
    (∀ nowNs, (ops.foldl step new).PurgedExactly nowNs ↔
        (ops.foldl step new).KeptTotalsExact nowNs) ∧
      (Run.Throughout step SumsFit new ops → ∀ nowNs,
        (ops.foldl step new).PurgedExactly nowNs) := by
  obtain ⟨hsound, hlive, hlisted⟩ := listed_run_of_unique h
  refine ⟨hlisted.purgedExactly_iff hsound hlive, fun hfit nowNs => ?_⟩
  have hrep : (ops.foldl step new).RepInv :=
    repInv_run ((h.and hfit).imp fun _ hkept => ⟨hkept.1, hkept.2⟩)
  exact (hlisted.purgedExactly_iff hsound hlive nowNs).mpr fun _ _ he _ => hrep.total_eq he

/-- Two bids of 2^63 lots at one price, the first good till 5: their total has wrapped to 0, and so
has that of the second alone. -/
theorem wrapped_total_purged :
    let ops := [BookOp.insert { Order.limit 1 .bid 10 0x8000000000000000 0 with
        timeInForce := .gtd 5 }, .insert (.limit 2 .bid 10 0x8000000000000000 0)]
    Run.Throughout step UniqueIds new ops ∧ ¬ (ops.foldl step new).PurgedExactly 5 := by
  intro ops
  refine ⟨by decide, fun h => ?_⟩
  have htotal := h.total_eq .bid
  revert htotal
  decide

/-- One GTD bid of two expires. -/
theorem purge_exact_iff_gtd :
    ([BookOp.insert { Order.limit 1 .bid 10 3 0 with timeInForce := .gtd 5 },
      .insert (.limit 2 .bid 10 4 0)].foldl step new).PurgedExactly 5 := by
  exact (purge_exact_iff [.insert { Order.limit 1 .bid 10 3 0 with timeInForce := .gtd 5 },
    .insert (.limit 2 .bid 10 4 0)] (by decide)).2
    ⟨sumsFit_of_liquidity_queue (by decide) (by decide),
      sumsFit_of_liquidity_queue (by decide) (by decide),
      sumsFit_of_liquidity_queue (by decide) (by decide)⟩ 5

end OrderBook

end AliceLedger
