import AliceLedger.Book.Representation
import Mathlib.Data.List.Nodup

/-!
# The index under repeated ids

Nothing keeps a caller from inserting an order under the id of a resting one. The index then holds
the place of the later order only, and a fill or a cancellation under the id drops the entry while
the other order rests. What survives every history is one direction, `IndexLive`: each entry points
to a level that holds an order with its id. Hence a cancellation that returns nothing has changed
nothing (`failed_cancel_unchanged`).

The other direction, `Listed` (the resting ids are distinct and all indexed), is what a mass
cancellation rests on: it empties the book and reports what it removed exactly when the book before
it is listed (`kill_switch_iff`). A run that inserts no id of a resting order keeps the book listed.
-/

namespace AliceLedger

variable {index : OrderIndex} {id : OrderId} {entry : Side × Int64}

theorem get?_dropIds (popped : List Order) : (dropIds index popped).get? id = some entry ↔
    index.get? id = some entry ∧ ∀ o ∈ popped, o.id ≠ id := by
  induction popped generalizing index with
  | nil => simp [dropIds]
  | cons o popped ih =>
    have hstep : dropIds index (o :: popped) = dropIds (index.erase o.id) popped := rfl
    rw [hstep, ih]
    by_cases hid : o.id = id
    · rw [← hid, SortedMap.get?_erase_self]
      simp
    · rw [SortedMap.get?_erase_of_ne _ (Ne.symm hid)]
      simp [hid]

namespace OrderBook

variable {book : OrderBook} {order : Order} {side : Side} {price : Int64}

/-- Every index entry points to a resting order with its id, side and price. -/
def IndexLive (book : OrderBook) : Prop :=
  ∀ id side price, book.orderIndex.get? id = some (side, price) →
    ∃ o ∈ book.queue side, o.id = id ∧ o.price = price

theorem indexLive_new : new.IndexLive := fun id side price h => by simp [new] at h

/-! ## Every operation keeps the index live -/

/-- An order behind an index entry that a sweep keeps is still there after the sweep. -/
theorem SweptBook.exists_of_get?_index {q rest : List Order} {m : Matched}
    (hm : SweptBook book order q rest m) {id : OrderId}
    (hid : ∀ o ∈ (sweep order q).popped, o.id ≠ id)
    (h : ∃ o ∈ book.queue side, o.id = id ∧ o.price = price) :
    ∃ o ∈ m.book.queue side, o.id = id ∧ o.price = price := by
  obtain ⟨o, ho, heq⟩ := h
  by_cases hside : side = order.side
  · subst hside
    exact ⟨o, by rw [hm.own]; exact ho, heq⟩
  · obtain rfl := Side.eq_opposite_of_ne hside
    rw [hm.before] at ho
    rw [hm.after]
    rcases List.mem_append.mp ho with ho | ho
    · -- a maker keeps its id and price, and the ones that left do not have the id
      have hpair := sweep_map_eq (fun o => (o.id, o.price)) (fun _ _ => rfl) order q
      have hmem : (id, price) ∈ q.map fun o => (o.id, o.price) :=
        List.mem_map.mpr ⟨o, ho, by rw [heq.1, heq.2]⟩
      rw [← hpair] at hmem
      rcases List.mem_append.mp hmem with hmem | hmem
      · obtain ⟨o', ho', heq'⟩ := List.mem_map.mp hmem
        exact absurd (congrArg Prod.fst heq') (hid o' ho')
      · obtain ⟨o', ho', heq'⟩ := List.mem_map.mp hmem
        exact ⟨o', List.mem_append_left _ ho', congrArg Prod.fst heq', congrArg Prod.snd heq'⟩
    · exact ⟨o, List.mem_append_right _ ho, heq⟩

theorem IndexLive.matchOrder (h : book.IndexLive) (hsound : book.Sound) (order : Order) :
    (book.matchOrder order).book.IndexLive := by
  obtain ⟨q, rest, hm⟩ := hsound.matchOrder_swept order
  intro id side price hget
  rw [hm.index_eq, get?_dropIds] at hget
  exact hm.exists_of_get?_index hget.2 (h id side price hget.1)

/-- Resting an order keeps the others. -/
theorem Sound.mem_queue_restOrder (h : book.Sound) {o : Order} (ho : o ∈ book.queue side) :
    o ∈ (book.restOrder order).queue side := by
  obtain ⟨hother, hown, -⟩ := h.restOrder_queue order
  by_cases hside : side = order.side
  · subst hside
    exact hown.mem_iff.mpr (List.mem_cons_of_mem _ ho)
  · have hopp := Side.eq_opposite_of_ne hside
    rw [hopp, hother, ← hopp]
    exact ho

theorem IndexLive.restOrder (h : book.IndexLive) (hsound : book.Sound) (order : Order) :
    (book.restOrder order).IndexLive := by
  obtain ⟨-, hown, -, hindex⟩ := hsound.restOrder_queue order
  intro id side price hget
  rw [hindex] at hget
  by_cases hid : id = order.id
  · subst hid
    rw [SortedMap.get?_insert_self] at hget
    obtain ⟨rfl, rfl⟩ := Prod.mk.inj (Option.some.inj hget)
    exact ⟨order, hown.mem_iff.mpr (by simp), rfl, rfl⟩
  · rw [SortedMap.get?_insert_of_ne _ _ hid] at hget
    obtain ⟨o, ho, heq⟩ := h id side price hget
    exact ⟨o, hsound.mem_queue_restOrder ho, heq⟩

theorem IndexLive.insertWithTime (h : book.IndexLive) (hsound : book.Sound) (order : Order)
    (nowNs : UInt64) : (book.insertWithTime order nowNs).1.IndexLive := by
  have hmatched := h.matchOrder hsound order
  unfold OrderBook.insertWithTime
  by_cases hexp : isExpired order nowNs = true
  · rwa [if_pos hexp]
  · rw [if_neg hexp]
    by_cases hrests : restsRemainder (book.matchOrder order).taker = true
    · simp only [hrests, if_true]
      exact hmatched.restOrder (hsound.matchOrder order) _
    · simp only [hrests]
      exact hmatched

/-- A cancellation keeps the orders with other ids. -/
theorem CancelledBook.mem_queue {r : OrderBook × Option Order} {place : Side}
    (hc : CancelledBook book id side price r) {o : Order} (ho : o ∈ book.queue place)
    (hid : o.id ≠ id) : o ∈ r.1.queue place := by
  by_cases hplace : place = side
  · subst hplace
    rcases hc.found with ⟨-, hsame, -⟩ | ⟨o', -, hfrom⟩
    · rw [hsame]
      exact ho
    · have hne : o ≠ o' := fun heq => hid (heq ▸ hfrom.id_eq)
      exact (List.mem_cons.mp (hfrom.perm.mem_iff.mp ho)).resolve_left hne
  · have hopp := Side.eq_opposite_of_ne hplace
    rw [hopp, hc.other, ← hopp]
    exact ho

theorem IndexLive.cancel (h : book.IndexLive) (hsound : book.Sound) (id : OrderId) :
    (book.cancel id).1.IndexLive := by
  rcases hsound.cancel_queue id with ⟨-, hc⟩ | ⟨side, price, hc⟩
  · rw [hc]
    exact h
  · intro id' side' price' hget
    rw [hc.index_eq] at hget
    have hid : id' ≠ id := fun heq => by
      rw [heq, SortedMap.get?_erase_self] at hget
      exact Option.some_ne_none _ hget.symm
    rw [SortedMap.get?_erase_of_ne _ hid] at hget
    obtain ⟨o, ho, heq⟩ := h id' side' price' hget
    exact ⟨o, hc.mem_queue ho (heq.1 ▸ hid), heq⟩

theorem indexLive_step (h : book.Sound ∧ book.IndexLive) (op : BookOp) :
    (book.step op).Sound ∧ (book.step op).IndexLive :=
  step_invariant (fun book : OrderBook => book.Sound ∧ book.IndexLive)
    (fun _ order nowNs h => ⟨h.1.insertWithTime order nowNs, h.2.insertWithTime h.1 order nowNs⟩)
    (fun _ id h => ⟨h.1.cancel id, h.2.cancel h.1 id⟩) h op

/-- **The index is live on every reachable book**, whatever the ids. -/
theorem indexLive_run (ops : List BookOp) :
    (ops.foldl step new).Sound ∧ (ops.foldl step new).IndexLive :=
  Run.invariant_foldl' (fun book : OrderBook => book.Sound ∧ book.IndexLive)
    (fun _ op h => indexLive_step h op) ⟨sound_new, indexLive_new⟩ ops

/-! ## Cancellations that return nothing -/

/-- **An indexed id is cancelled.** -/
theorem IndexLive.cancel_isSome (h : book.IndexLive) (hsound : book.Sound)
    (hget : book.orderIndex.get? id = some entry) : (book.cancel id).2.isSome := by
  rcases hsound.cancel_queue id with ⟨hnone, -⟩ | ⟨side, price, hc⟩
  · rw [hnone] at hget
    exact absurd hget (by simp)
  · rcases hc.found with ⟨-, -, hnone⟩ | ⟨o, hsome, -⟩
    · obtain ⟨o, ho, hid, hprice⟩ := h id side price hc.indexed
      exact absurd hid (hnone o ho hprice)
    · rw [hsome]
      rfl

/-- **A failed cancellation changes nothing.** After any run, with any ids, every index entry
points to a level of its side and price that holds an order with its id, so removal from that level
finds one; a cancellation that returns nothing leaves the book as it was, the index included; and it
returns an order whenever the id is indexed, so it never stops after the index entry has gone. -/
theorem failed_cancel_unchanged (ops : List BookOp) :
    let book := ops.foldl step new
    (∀ id side price, book.orderIndex.get? id = some (side, price) →
      ∃ level, (price, level) ∈ book.levels side ∧ (∃ o ∈ level.orders, o.id = id) ∧
        (removeFromLevel level id).2.isSome) ∧
    (∀ id, (book.cancel id).2 = none → (book.cancel id).1 = book) ∧
    ∀ id, (book.orderIndex.get? id).isSome → (book.cancel id).2.isSome := by
  intro book
  obtain ⟨hsound, hlive⟩ : book.Sound ∧ book.IndexLive := indexLive_run ops
  refine ⟨fun id side price hget => ?_, fun id hnone => ?_, fun id hget => ?_⟩
  · obtain ⟨o, ho, hid, rfl⟩ := hlive id side price hget
    obtain ⟨level, hlevel, hmem⟩ := hsound.exists_level ho
    refine ⟨level, hlevel, ⟨o, hmem, hid⟩, ?_⟩
    rcases removeFromLevel_cases level id with ⟨hnone, -⟩ | ⟨_, _, _, -, -, -, h⟩
    · exact absurd hid (hnone o hmem)
    · rw [h]
      rfl
  · cases hget : book.orderIndex.get? id with
    | none => simp only [OrderBook.cancel, hget]
    | some entry =>
      have hsome := hlive.cancel_isSome hsound hget
      rw [hnone] at hsome
      exact absurd hsome (by simp)
  · obtain ⟨entry, hget⟩ := Option.isSome_iff_exists.mp hget
    exact hlive.cancel_isSome hsound hget

/-! ## Mass cancellation -/

theorem allOrderIdsBySide_eq (book : OrderBook) (side : Side) :
    book.allOrderIdsBySide side = (book.queue side).map Order.id := by
  cases side with
  | bid => simp [allOrderIdsBySide, orderIds, queue, queueOf, SortedMap.values, List.map_flatMap,
      List.flatMap_map]
  | ask => simp [allOrderIdsBySide, orderIds, queue, queueOf, SortedMap.values, List.map_flatMap,
      List.flatMap_map]

theorem cancelIds_append (book : OrderBook) (ids ids' : List OrderId) :
    book.cancelIds (ids ++ ids') =
      let r := book.cancelIds ids
      let r' := r.1.cancelIds ids'
      (r'.1, r.2 ++ r'.2) := by
  induction ids generalizing book with
  | nil => rfl
  | cons id ids ih =>
    simp only [List.cons_append, OrderBook.cancelIds, ih, List.append_assoc]

/-- The two phases of a mass cancellation are one run of cancellations. -/
theorem withdrawn_cancelAll (book : OrderBook) : ∃ ids, (cancelAll book).2.cancelledIds = ids ∧
    book.cancelIds ids = ((cancelAll book).1, book.withdrawn .cancelAll) := by
  refine ⟨_, rfl, ?_⟩
  simp only [cancelAll, cancelAllSide, cancelIds_append, withdrawn]

/-- What a cancellation returns has the id and was resting. -/
theorem Sound.of_mem_cancel (h : book.Sound) {o : Order} (ho : o ∈ (book.cancel id).2) :
    o.id = id ∧ o ∈ book.resting ∧ (book.orderIndex.get? id).isSome ∧
      (book.cancel id).1.orderIndex = book.orderIndex.erase id := by
  rcases h.cancel_queue id with ⟨-, hc⟩ | ⟨side, price, hc⟩
  · rw [hc] at ho
    exact absurd ho (by simp)
  · rcases hc.found with ⟨hnone, -⟩ | ⟨o', hsome, hfrom⟩
    · rw [hnone] at ho
      exact absurd ho (by simp)
    · rw [hsome] at ho
      obtain rfl := Option.some.inj ho
      have hmem : o' ∈ book.queue side := hfrom.perm.mem_iff.mpr (by simp)
      refine ⟨hfrom.id_eq, mem_resting.mpr ⟨side, hmem⟩, ?_, hc.index_eq⟩
      rw [hc.indexed]
      rfl

/-- A cancellation indexes no id anew. -/
theorem Sound.isSome_of_cancel (h : book.Sound) {id' : OrderId}
    (hget : ((book.cancel id).1.orderIndex.get? id').isSome) :
    (book.orderIndex.get? id').isSome := by
  rcases h.cancel_queue id with ⟨-, hc⟩ | ⟨side, price, hc⟩
  · rwa [hc] at hget
  · rw [hc.index_eq] at hget
    by_cases hid : id' = id
    · rw [hid, hc.indexed]
      rfl
    · rwa [SortedMap.get?_erase_of_ne _ hid] at hget

/-- **The orders that a run of cancellations returns** have distinct ids, each indexed at the start
and among the ids given. -/
theorem Sound.cancelIds_returns (h : book.Sound) (ids : List OrderId) :
    ((book.cancelIds ids).2.map Order.id).Nodup ∧
      ∀ o ∈ (book.cancelIds ids).2, (book.orderIndex.get? o.id).isSome ∧ o.id ∈ ids := by
  induction ids generalizing book with
  | nil => exact ⟨.nil, fun o ho => absurd ho (by simp [OrderBook.cancelIds])⟩
  | cons id ids ih =>
    obtain ⟨hnodup, hmem⟩ := ih (h.cancel id)
    simp only [OrderBook.cancelIds, List.map_append, List.mem_append]
    refine ⟨List.nodup_append.mpr ⟨?_, hnodup, ?_⟩, fun o ho => ?_⟩
    · cases (book.cancel id).2 with
      | none => exact .nil
      | some o => exact List.pairwise_singleton _ _
    · -- the id of the order returned first is not indexed any more
      intro i hi j hj heq
      obtain ⟨o, ho, rfl⟩ := List.mem_map.mp hi
      obtain ⟨o', ho', rfl⟩ := List.mem_map.mp hj
      obtain ⟨hid, -, -, hindex⟩ := h.of_mem_cancel (Option.mem_toList.mp ho)
      have hsome := (hmem o' ho').1
      rw [← heq, hid, hindex, SortedMap.get?_erase_self] at hsome
      exact absurd hsome (by simp)
    · rcases ho with ho | ho
      · obtain ⟨hid, -, hsome, -⟩ := h.of_mem_cancel (Option.mem_toList.mp ho)
        exact ⟨hid ▸ hsome, by simp [hid]⟩
      · exact ⟨h.isSome_of_cancel (hmem o ho).1, List.mem_cons_of_mem _ (hmem o ho).2⟩

/-- A run of cancellations leaves a side without the ids alone. -/
theorem Sound.cancelIds_queue_eq (h : book.Sound) {ids : List OrderId}
    (hside : ∀ o ∈ book.queue side, o.id ∉ ids) :
    (book.cancelIds ids).1.queue side = book.queue side := by
  have herase : ∀ withdrawn : List Order, (∀ o ∈ withdrawn, o ∉ book.queue side) →
      withdrawn.foldl List.erase (book.queue side) = book.queue side := by
    intro withdrawn
    induction withdrawn with
    | nil => intro _; rfl
    | cons o withdrawn ih =>
      intro hnot
      rw [List.foldl_cons, List.erase_of_not_mem (hnot o (by simp))]
      exact ih fun o ho => hnot o (List.mem_cons_of_mem _ ho)
  rw [h.cancelIds_erase]
  exact herase _ fun o ho hmem => hside o hmem ((h.cancelIds_returns ids).2 o ho).2

theorem Sound.mem_of_mem_cancelIds (h : book.Sound) {ids : List OrderId} {o : Order}
    (ho : o ∈ (book.cancelIds ids).1.queue side) : o ∈ book.queue side := by
  have hsub : ∀ (withdrawn q : List Order), (withdrawn.foldl List.erase q).Sublist q := by
    intro withdrawn
    induction withdrawn with
    | nil => exact fun q => .refl q
    | cons o withdrawn ih => exact fun q => (ih (q.erase o)).trans List.erase_sublist
  rw [h.cancelIds_erase] at ho
  exact (hsub _ _).subset ho

/-- The resting ids are distinct and all of them are indexed. -/
structure Listed (book : OrderBook) : Prop where
  nodup : (book.resting.map Order.id).Nodup
  indexed : ∀ o ∈ book.resting, (book.orderIndex.get? o.id).isSome

theorem Listed.nodup_queue (h : book.Listed) (side : Side) :
    ((book.queue side).map Order.id).Nodup := by
  have hnodup := h.nodup
  rw [resting, List.map_append, List.nodup_append] at hnodup
  cases side with
  | bid => exact hnodup.1
  | ask => exact hnodup.2.1

/-- No id is on both sides. -/
theorem Listed.id_ne (h : book.Listed) {a b : Order} (ha : a ∈ book.queue .bid)
    (hb : b ∈ book.queue .ask) : a.id ≠ b.id := by
  have hnodup := h.nodup
  rw [resting, List.map_append, List.nodup_append] at hnodup
  exact hnodup.2.2 a.id (List.mem_map_of_mem ha) b.id (List.mem_map_of_mem hb)

/-- A cancellation keeps a book listed, and no order with the id is left. -/
theorem Listed.cancel (h : book.Listed) (hsound : book.Sound) (hlive : book.IndexLive)
    (id : OrderId) :
    (book.cancel id).1.Listed ∧ ∀ o ∈ (book.cancel id).1.resting, o.id ≠ id := by
  have hperm := hsound.cancel_perm id
  have hnodup := (hperm.map Order.id).nodup_iff.mp h.nodup
  rw [List.map_append, List.nodup_append] at hnodup
  obtain ⟨-, hafter, hdisjoint⟩ := hnodup
  have hne : ∀ o ∈ (book.cancel id).1.resting, o.id ≠ id := by
    intro o ho hid
    have hmem : o ∈ book.resting := hperm.mem_iff.mpr (List.mem_append_right _ ho)
    obtain ⟨entry, hentry⟩ := Option.isSome_iff_exists.mp (h.indexed o hmem)
    obtain ⟨o', ho'⟩ := Option.isSome_iff_exists.mp (hlive.cancel_isSome hsound (hid ▸ hentry))
    refine hdisjoint o'.id ?_ o.id (List.mem_map_of_mem ho) ?_
    · rw [ho']
      simp
    · rw [(hsound.of_mem_cancel ho').1, hid]
  refine ⟨⟨hafter, fun o ho => ?_⟩, hne⟩
  have hmem := h.indexed o (hperm.mem_iff.mpr (List.mem_append_right _ ho))
  rcases hsound.cancel_queue id with ⟨-, hc⟩ | ⟨side, price, hc⟩
  · rwa [hc]
  · rwa [hc.index_eq, SortedMap.get?_erase_of_ne _ (hne o ho)]

/-- **A cancellation returns the resting order with the id** of a listed book, or none. -/
theorem Listed.cancel_eq_some_iff (h : book.Listed) (hsound : book.Sound) (hlive : book.IndexLive)
    (id : OrderId) (o : Order) : (book.cancel id).2 = some o ↔ o ∈ book.resting ∧ o.id = id := by
  constructor
  · intro hsome
    obtain ⟨hid, ho, -, -⟩ := hsound.of_mem_cancel (Option.mem_def.mpr hsome)
    exact ⟨ho, hid⟩
  · rintro ⟨ho, rfl⟩
    obtain ⟨entry, hentry⟩ := Option.isSome_iff_exists.mp (h.indexed o ho)
    obtain ⟨o', hsome⟩ := Option.isSome_iff_exists.mp (hlive.cancel_isSome hsound hentry)
    obtain ⟨hid, ho', -, -⟩ := hsound.of_mem_cancel (Option.mem_def.mpr hsome)
    rw [hsome, List.inj_on_of_nodup_map h.nodup ho' ho hid]

/-- **Cancelling a list of ids clears them** from a listed book. -/
theorem Listed.cancelIds (h : book.Listed) (hsound : book.Sound) (hlive : book.IndexLive)
    (ids : List OrderId) :
    (book.cancelIds ids).1.Listed ∧ (book.cancelIds ids).1.IndexLive ∧
      ∀ o ∈ (book.cancelIds ids).1.resting, o.id ∉ ids := by
  induction ids generalizing book with
  | nil => exact ⟨h, hlive, fun _ _ => List.not_mem_nil⟩
  | cons id ids ih =>
    obtain ⟨hlisted, hid⟩ := h.cancel hsound hlive id
    obtain ⟨hlisted', hlive', hids⟩ := ih hlisted (hsound.cancel id) (hlive.cancel hsound id)
    refine ⟨hlisted', hlive', fun o ho hmem => ?_⟩
    have hold : o ∈ (book.cancel id).1.resting :=
      ((hsound.cancel id).cancelIds_perm ids).mem_iff.mpr (List.mem_append_right _ ho)
    rcases List.mem_cons.mp hmem with heq | hmem
    · exact hid o hold heq
    · exact hids o ho hmem

/-- A book on which nothing rests is the empty book. -/
theorem Sound.eq_new (h : book.Sound) (hlive : book.IndexLive) (hnil : book.resting = []) :
    book = new := by
  obtain ⟨hbid, hask⟩ := List.append_eq_nil_iff.mp hnil
  have hentries : ∀ {K : Type} [LinearOrder K] {priceOf : K → Int64} {side : Side}
      {levels : SortedMap K PriceLevel}, LevelsSound priceOf side levels →
      queueOf levels.entries = [] → levels = .empty := by
    intro K _ priceOf side levels hlevels hq
    refine SortedMap.ext (List.eq_nil_iff_forall_not_mem.mpr fun e he => (hlevels e he).nonempty ?_)
    exact List.flatMap_eq_nil_iff.mp hq e he
  have hindex : book.orderIndex = .empty := by
    refine SortedMap.ext_get? fun id => Option.eq_none_iff_forall_ne_some.mpr fun entry hget => ?_
    obtain ⟨o, ho, -⟩ := hlive id entry.1 entry.2 hget
    have hmem := mem_resting.mpr ⟨_, ho⟩
    rw [hnil] at hmem
    exact absurd hmem List.not_mem_nil
  obtain ⟨bids, asks, index⟩ := book
  obtain rfl : bids = .empty := hentries h.bids hbid
  obtain rfl : asks = .empty := hentries h.asks hask
  obtain rfl : index = .empty := hindex
  rfl

/-- What a mass cancellation is for: both sides and the index are empty, and the report lists the
ids of the orders taken off the book (`Sound.step_perm`), each once, with their number. -/
structure KillSwitched (book : OrderBook) : Prop where
  bids_empty : (cancelAll book).1.bids = .empty
  asks_empty : (cancelAll book).1.asks = .empty
  index_empty : (cancelAll book).1.orderIndex = .empty
  reported : (cancelAll book).2.cancelledIds.Perm ((book.withdrawn .cancelAll).map Order.id)
  counted : (cancelAll book).2.count = (book.withdrawn .cancelAll).length

theorem Listed.killSwitched (h : book.Listed) (hsound : book.Sound) (hlive : book.IndexLive) :
    book.KillSwitched := by
  obtain ⟨hlisted₁, hlive₁, hclear₁⟩ := h.cancelIds hsound hlive (book.allOrderIdsBySide .bid)
  have hsound₁ := hsound.cancelIds (book.allOrderIdsBySide .bid)
  -- the first phase leaves the asks as they were
  have hasks : (book.cancelIds (book.allOrderIdsBySide .bid)).1.queue .ask = book.queue .ask := by
    refine hsound.cancelIds_queue_eq fun o ho hmem => ?_
    rw [allOrderIdsBySide_eq] at hmem
    obtain ⟨bid, hbid, hid⟩ := List.mem_map.mp hmem
    exact h.id_ne hbid ho hid
  generalize hb : (book.cancelIds (book.allOrderIdsBySide .bid)).1 = book₁ at *
  obtain ⟨-, hlive₂, hclear₂⟩ := hlisted₁.cancelIds hsound₁ hlive₁ (book₁.allOrderIdsBySide .ask)
  have hsound₂ := hsound₁.cancelIds (book₁.allOrderIdsBySide .ask)
  have hbook : (cancelAll book).1 = (book₁.cancelIds (book₁.allOrderIdsBySide .ask)).1 := by
    simp only [cancelAll, cancelAllSide, hb]
  have hids : (cancelAll book).2.cancelledIds = book.resting.map Order.id := by
    simp only [cancelAll, cancelAllSide, hb]
    rw [allOrderIdsBySide_eq, allOrderIdsBySide_eq, hasks, resting, List.map_append]
  have hnil : (book₁.cancelIds (book₁.allOrderIdsBySide .ask)).1.resting = [] := by
    refine List.eq_nil_iff_forall_not_mem.mpr fun o ho => ?_
    obtain ⟨side, hside⟩ := mem_resting.mp ho
    have hmem := hsound₁.mem_of_mem_cancelIds hside
    cases side with
    | bid =>
      refine hclear₁ o (mem_resting.mpr ⟨.bid, hmem⟩) ?_
      rw [allOrderIdsBySide_eq]
      exact List.mem_map_of_mem (hsound.mem_of_mem_cancelIds (hb ▸ hmem))
    | ask =>
      refine hclear₂ o ho ?_
      rw [allOrderIdsBySide_eq]
      exact List.mem_map_of_mem hmem
  have hnew := hsound₂.eq_new hlive₂ hnil
  have hperm := @Sound.step_perm book hsound .cancelAll trivial
  have hstep : (book.step .cancelAll).resting = [] := by
    rw [show book.step .cancelAll = (cancelAll book).1 from rfl, hbook, hnil]
  rw [hstep, List.append_nil] at hperm
  rw [← hbook] at hnew
  refine ⟨by rw [hnew]; rfl, by rw [hnew]; rfl, by rw [hnew]; rfl, ?_, ?_⟩
  · rw [hids]
    exact hperm.map Order.id
  · rw [← hperm.length_eq, ← List.length_map (f := Order.id), ← hids]
    rfl

/-- A mass cancellation that empties both sides was made on a listed book. -/
theorem Sound.listed_of_cancelAll (h : book.Sound) (hbids : (cancelAll book).1.bids = .empty)
    (hasks : (cancelAll book).1.asks = .empty) : book.Listed := by
  have hnil : (book.step .cancelAll).resting = [] := by
    rw [show book.step .cancelAll = (cancelAll book).1 from rfl, resting, queue, queue, hbids,
    hasks]
    rfl
  have hperm := @Sound.step_perm book h .cancelAll trivial
  rw [hnil, List.append_nil] at hperm
  obtain ⟨ids, -, hids⟩ := withdrawn_cancelAll book
  obtain ⟨hnodup, hmem⟩ := h.cancelIds_returns ids
  rw [hids] at hnodup hmem
  exact ⟨(hperm.map Order.id).nodup_iff.mpr hnodup, fun o ho => (hmem o (hperm.mem_iff.mp ho)).1⟩

/-! ## Runs without repeated ids -/

/-- An inserted order comes under an id that no resting order has. -/
def InsertsFresh (book : OrderBook) : BookOp → Prop
  | .insert order | .insertWithTime order _ => book.FreshId order.id
  | _ => True

theorem listed_new : new.Listed := ⟨.nil, fun _ ho => absurd ho (by simp [resting, queue, new])⟩

theorem Listed.matchOrder (h : book.Listed) (hsound : book.Sound) (order : Order) :
    (book.matchOrder order).book.Listed := by
  obtain ⟨q, rest, hm⟩ := hsound.matchOrder_swept order
  -- the resting ids before: those of the makers that left, then those after
  have hids : (book.resting.map Order.id).Perm
      ((sweep order q).popped.map Order.id ++
        (book.matchOrder order).book.resting.map Order.id) := by
    have hbefore := hm.resting_perm.1.map Order.id
    have hafter := hm.resting_perm.2.map Order.id
    rw [List.map_append, ← sweep_map_eq Order.id (fun _ _ => rfl) order q,
      List.append_assoc] at hbefore
    rw [List.map_append] at hafter
    exact hbefore.trans (hafter.symm.append_left _)
  have hnodup := hids.nodup_iff.mp h.nodup
  rw [List.nodup_append] at hnodup
  refine ⟨hnodup.2.1, fun o ho => ?_⟩
  have hmem : o.id ∈ book.resting.map Order.id :=
    hids.mem_iff.mpr (List.mem_append_right _ (List.mem_map_of_mem ho))
  obtain ⟨o', ho', hid⟩ := List.mem_map.mp hmem
  obtain ⟨entry, hentry⟩ := Option.isSome_iff_exists.mp (h.indexed o' ho')
  refine Option.isSome_iff_exists.mpr ⟨entry, ?_⟩
  rw [hm.index_eq, get?_dropIds, ← hid]
  refine ⟨hentry, fun p hp heq => ?_⟩
  exact hnodup.2.2 p.id (List.mem_map_of_mem hp) o.id (List.mem_map_of_mem ho) (heq.trans hid)

theorem Listed.restOrder (h : book.Listed) (hsound : book.Sound) (hid : book.FreshId order.id) :
    (book.restOrder order).Listed := by
  obtain ⟨-, -, -, hindex⟩ := hsound.restOrder_queue order
  have hperm := hsound.restOrder_perm order
  refine ⟨(hperm.map Order.id).nodup_iff.mpr (List.nodup_cons.mpr ⟨fun hmem => ?_, h.nodup⟩),
    fun o ho => ?_⟩
  · obtain ⟨o, ho, heq⟩ := List.mem_map.mp hmem
    exact hid o ho heq
  · rw [hindex]
    by_cases heq : o.id = order.id
    · rw [heq, SortedMap.get?_insert_self]
      rfl
    · rw [SortedMap.get?_insert_of_ne _ _ heq]
      refine h.indexed o ((List.mem_cons.mp (hperm.mem_iff.mp ho)).resolve_left fun h => heq ?_)
      rw [h]

theorem Listed.insertWithTime (h : book.Listed) (hsound : book.Sound) {nowNs : UInt64}
    (hid : book.RemainderFresh order nowNs) :
    (book.insertWithTime order nowNs).1.Listed := by
  have hmatched := h.matchOrder hsound order
  unfold OrderBook.insertWithTime
  by_cases hexp : isExpired order nowNs = true
  · rwa [if_pos hexp]
  · rw [if_neg hexp]
    by_cases hrests : restsRemainder (book.matchOrder order).taker = true
    · simp only [hrests, if_true]
      obtain ⟨filled, htaker⟩ := hsound.matchOrder_taker_eq order
      have hfresh := hid (Bool.not_eq_true _ ▸ hexp) hrests
      refine hmatched.restOrder (hsound.matchOrder order) ?_
      rw [htaker]
      exact hfresh
    · simp only [hrests]
      exact hmatched

/-- What an operation rests comes under an id that no other resting order has. -/
def RestsFresh (book : OrderBook) : BookOp → Prop
  | .insert order => book.RemainderFresh order 0
  | .insertWithTime order nowNs => book.RemainderFresh order nowNs
  | _ => True

theorem InsertsFresh.restsFresh (h : book.Sound) {op : BookOp} (hop : book.InsertsFresh op) :
    book.RestsFresh op := by
  cases op with
  | insert order => exact FreshId.remainderFresh h hop 0
  | insertWithTime order nowNs => exact FreshId.remainderFresh h hop nowNs
  | _ => trivial

/-- **A run that repeats no id of a resting order keeps the book listed.** -/
theorem listed_step (h : book.Sound ∧ book.IndexLive ∧ book.Listed) {op : BookOp}
    (hop : book.RestsFresh op) :
    (book.step op).Sound ∧ (book.step op).IndexLive ∧ (book.step op).Listed := by
  have hcancel : ∀ (book : OrderBook) (id : OrderId),
      book.Sound ∧ book.IndexLive ∧ book.Listed →
      (book.cancel id).1.Sound ∧ (book.cancel id).1.IndexLive ∧ (book.cancel id).1.Listed :=
    fun _ id h => ⟨h.1.cancel id, h.2.1.cancel h.1 id, (h.2.2.cancel h.1 h.2.1 id).1⟩
  refine ⟨h.1.step op, (indexLive_step ⟨h.1, h.2.1⟩ op).2, ?_⟩
  cases op with
  | insert order => exact h.2.2.insertWithTime h.1 hop
  | insertWithTime order nowNs => exact h.2.2.insertWithTime h.1 hop
  | cancel id => exact (hcancel book id h).2.2
  | purgeExpired nowNs => exact (cancelIds_invariant _ hcancel h _).2.2
  | cancelAllSide side => exact (cancelIds_invariant _ hcancel h _).2.2
  | cancelAll =>
    exact (cancelIds_invariant _ hcancel (cancelIds_invariant _ hcancel h _) _).2.2

/-- **When the kill switch works.** After any run, with any ids, a mass cancellation empties both
sides and the index and reports exactly what it removed if and only if the resting ids are distinct
and all indexed; and so they are after every run that inserts no id of a resting order. -/
theorem kill_switch_iff (ops : List BookOp) :
    ((ops.foldl step new).KillSwitched ↔ (ops.foldl step new).Listed) ∧
      (Run.Along step InsertsFresh new ops → (ops.foldl step new).KillSwitched) := by
  obtain ⟨hsound, hlive⟩ := indexLive_run ops
  refine ⟨⟨fun h => ?_, fun h => h.killSwitched hsound hlive⟩, fun h => ?_⟩
  · exact hsound.listed_of_cancelAll h.bids_empty h.asks_empty
  · obtain ⟨-, -, hlisted⟩ := Run.invariant_foldl
      (fun book : OrderBook => book.Sound ∧ book.IndexLive ∧ book.Listed)
      (fun _ _ h hop => listed_step h (hop.restsFresh h.1)) ⟨sound_new, indexLive_new, listed_new⟩ h
    exact hlisted.killSwitched hsound hlive

/-- Two bids under one id: the index knows the second, and the first survives the kill switch. -/
theorem repeated_id_survives : ¬ ([BookOp.insert (.limit 1 .bid 100 5 0),
    .insert (.limit 1 .bid 101 5 1)].foldl step new).KillSwitched := fun h => by
  have hbids := h.bids_empty
  revert hbids
  decide

end OrderBook

end AliceLedger
