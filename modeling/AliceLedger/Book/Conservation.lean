import AliceLedger.Book.Queue
import Mathlib.Data.List.Nodup

/-!
# Conservation of lots

A `Ledger` is a book together with the history of its run: the orders submitted, the fills, the
orders that cancellations and purges returned, and the orders that insertions dropped. The lots of
a submitted order are at every moment accounted for (`Balanced.account`): what was traded under its
id, and what is left of it in the one place where it is (`Ledger.places`).

An insertion is one sweep (`Sound.insert_swept`): what leaves the makers is what the fills say, and
so is what the taker gains. Everything else moves orders between places.
-/

namespace AliceLedger

/-- The open lots under an id in a list of orders. -/
def lotsOf (id : OrderId) (orders : List Order) : ℕ := liquidity (orders.filter fun o => o.id = id)

/-- The lots of the fills that name an id as maker or as taker. -/
def tradedBy (id : OrderId) (fills : List Fill) : ℕ :=
  traded (fills.filter fun f => f.makerId = id ∨ f.takerId = id)

section Lots

variable {id : OrderId} {os os' : List Order} {fs fs' : List Fill} {taker : Order}

theorem lotsOf_perm (h : os.Perm os') : lotsOf id os = lotsOf id os' :=
  ((h.filter _).map _).sum_eq

theorem lotsOf_append : lotsOf id (os ++ os') = lotsOf id os + lotsOf id os' := by
  simp [lotsOf]

theorem lotsOf_cons_of_eq {o : Order} (h : o.id = id) :
    lotsOf id (o :: os) = o.remaining.toNat + lotsOf id os := by
  simp [lotsOf, h]

theorem lotsOf_cons_of_ne {o : Order} (h : o.id ≠ id) : lotsOf id (o :: os) = lotsOf id os := by
  simp [lotsOf, h]

theorem lotsOf_eq_zero (h : ∀ o ∈ os, o.id ≠ id) : lotsOf id os = 0 := by
  rw [lotsOf, List.filter_eq_nil_iff.mpr (by simpa using h), liquidity_nil]

theorem exists_of_lotsOf_pos (h : 0 < lotsOf id os) :
    ∃ o ∈ os, o.id = id ∧ 0 < o.remaining.toNat := by
  by_contra hnone
  push Not at hnone
  have hzero : lotsOf id os = 0 := by
    refine List.sum_eq_zero fun n hn => ?_
    obtain ⟨o, ho, rfl⟩ := List.mem_map.mp hn
    have hmem := List.mem_filter.mp ho
    exact Nat.le_zero.mp (hnone o hmem.1 (by simpa using hmem.2))
  omega

theorem tradedBy_append : tradedBy id (fs ++ fs') = tradedBy id fs + tradedBy id fs' := by
  simp [tradedBy]

theorem tradedBy_eq_zero (h : ∀ f ∈ fs, f.makerId ≠ id ∧ f.takerId ≠ id) : tradedBy id fs = 0 := by
  rw [tradedBy, List.filter_eq_nil_iff.mpr (by simpa using h), traded_nil]

/-- The taker is named by every fill of its sweep. -/
theorem tradedBy_sweep_taker (taker : Order) (q : List Order) :
    tradedBy taker.id (sweep taker q).fills = traded (sweep taker q).fills := by
  rw [tradedBy, List.filter_eq_self.mpr fun f hf => ?_]
  simp [(ids_of_mem_sweep taker q f hf).1]

/-- **A sweep moves lots of a maker into fills that name it.** -/
theorem lotsOf_sweep {q : List Order} (hopen : AllOpen q) (hid : taker.id ≠ id) :
    lotsOf id (sweep taker q).makers + tradedBy id (sweep taker q).fills = lotsOf id q := by
  have hfills : (sweep taker q).fills.filter (fun f => f.makerId = id ∨ f.takerId = id) =
      (sweep taker q).fills.filter fun f => f.makerId = id := by
    refine List.filter_congr fun f hf => ?_
    simp [(ids_of_mem_sweep taker q f hf).1, hid]
  rw [tradedBy, hfills]
  exact liquidity_filter_sweep (fun x => x = id) taker hopen

/-- **The taker of a sweep** is left with what it did not trade. -/
theorem remaining_sweep (h : taker.filledQuantity ≤ taker.quantity) (q : List Order) :
    taker.quantity.toNat = taker.filledQuantity.toNat + traded (sweep taker q).fills +
        (sweep taker q).taker.remaining.toNat ∧
      (sweep taker q).taker.filledQuantity ≤ (sweep taker q).taker.quantity := by
  obtain ⟨hsum, hopen⟩ := sweep_spec taker q
  have hle : (sweep taker q).taker.filledQuantity ≤ (sweep taker q).taker.quantity := by
    cases ht : taker.isFilled with
    | false => exact hopen ht
    | true => rw [sweep_of_filled ht]; exact h
  refine ⟨?_, hle⟩
  have hnat := UInt64.le_iff_toNat_le.mp hle
  rw [Order.toNat_remaining hle, hsum, sweep_taker_quantity]
  rw [hsum, sweep_taker_quantity] at hnat
  omega

end Lots

/-! ## An insertion as a sweep -/

namespace OrderBook

variable {book : OrderBook} {order : Order}

/-- What an insertion drops: the order as the insertion leaves it, unless it came to rest. -/
def dropped (book : OrderBook) (order : Order) (nowNs : UInt64) : Option Order :=
  if isExpired order nowNs then some order
  else
    let m := book.matchOrder order
    if restsRemainder m.taker then none else some m.taker

/-- What an insertion did to the resting orders: it swept `q` and did not reach `others`. -/
structure InsertSwept (book : OrderBook) (order : Order) (nowNs : UInt64) (q others : List Order) :
    Prop where
  allOpen : AllOpen q
  before : book.resting.Perm (q ++ others)
  after : ((book.insertWithTime order nowNs).1.resting ++ (book.dropped order nowNs).toList).Perm
    ((sweep order q).taker :: ((sweep order q).makers ++ others))
  fills_eq : (book.insertWithTime order nowNs).2 = (sweep order q).fills
  cause : ∀ d, book.dropped order nowNs = some d → d = (sweep order q).taker ∧
    (isExpired order nowNs = true ∨ restsRemainder d = false)

/-- **An insertion is a sweep** after which the taker rests or is dropped. -/
theorem Sound.insert_swept (h : book.Sound) (order : Order) (nowNs : UInt64) :
    ∃ q others, InsertSwept book order nowNs q others := by
  by_cases hexp : isExpired order nowNs = true
  · refine ⟨[], book.resting, fun _ ho => absurd ho (by simp), .refl _, ?_, ?_, ?_⟩ <;>
      simp only [OrderBook.insertWithTime, dropped, hexp, if_true, Option.toList_some]
    · exact List.perm_append_singleton _ _
    · rfl
    · rintro d ⟨⟩
      exact ⟨rfl, .inl trivial⟩
  · obtain ⟨q, rest, hm⟩ := h.matchOrder_swept order
    obtain ⟨hbefore, hafter⟩ := hm.resting_perm
    have hopen : AllOpen q := fun o ho =>
      (mem_queue_resting h (by rw [hm.before]; exact List.mem_append_left _ ho)).2
    refine ⟨q, rest ++ book.queue order.side, hopen, hbefore, ?_, ?_, ?_⟩ <;>
      simp only [OrderBook.insertWithTime, dropped, hexp, Bool.false_eq_true, if_false]
    · rw [← hm.taker_eq]
      split_ifs
      · rw [Option.toList_none, List.append_nil]
        exact ((h.matchOrder order).restOrder_perm _).trans (hafter.cons _)
      · rw [Option.toList_some]
        exact (List.perm_append_singleton _ _).trans (hafter.cons _)
    · rw [← hm.fills_eq]
      split_ifs <;> rfl
    · intro d hd
      split_ifs at hd with hr
      obtain rfl := Option.some.inj hd
      exact ⟨hm.taker_eq, .inr (Bool.not_eq_true _ ▸ hr)⟩

end OrderBook

/-! ## Ledgers -/

/-- A book and the history of its run. -/
structure Ledger where
  book : OrderBook
  submitted : List Order
  fills : List Fill
  /-- What cancellations and purges returned. -/
  returned : List Order
  /-- What insertions dropped, and when. -/
  discarded : List (Order × UInt64)

namespace Ledger

open OrderBook (isExpired restsRemainder restsRemainder_iff)

/-- An empty book and no history. -/
def new : Ledger := ⟨.new, [], [], [], []⟩

/-- Submit an order at `nowNs`. -/
def insertAt (l : Ledger) (order : Order) (nowNs : UInt64) : Ledger where
  book := (l.book.insertWithTime order nowNs).1
  submitted := l.submitted ++ [order]
  fills := l.fills ++ (l.book.insertWithTime order nowNs).2
  returned := l.returned
  discarded := l.discarded ++ (l.book.dropped order nowNs).toList.map fun o => (o, nowNs)

/-- An operation on the book, with its entries in the history. -/
def step (l : Ledger) : BookOp → Ledger
  | .insert order => l.insertAt order 0
  | .insertWithTime order nowNs => l.insertAt order nowNs
  | op => { l with book := l.book.step op, returned := l.returned ++ l.book.withdrawn op }

/-- A submitted order is not over-filled and comes under an id that was never submitted before. -/
def Fresh (l : Ledger) : BookOp → Prop
  | .insert order | .insertWithTime order _ =>
    (∀ o ∈ l.submitted, o.id ≠ order.id) ∧ order.filledQuantity ≤ order.quantity
  | _ => True

theorem book_foldl (l : Ledger) (ops : List BookOp) :
    (ops.foldl step l).book = ops.foldl OrderBook.step l.book := by
  induction ops generalizing l with
  | nil => rfl
  | cons op ops ih =>
    have hstep : (l.step op).book = l.book.step op := by cases op <;> rfl
    rw [List.foldl_cons, ih, hstep, List.foldl_cons]

/-- The orders that returned or were dropped. -/
def gone (l : Ledger) : List Order := l.returned ++ l.discarded.map Prod.fst

/-- Where an order can be: on the book, returned or dropped. -/
def places (l : Ledger) : List Order := l.book.resting ++ l.gone

/-- An order is a submitted one, up to its filled quantity. -/
def Known (l : Ledger) (o : Order) : Prop :=
  ∃ s ∈ l.submitted, ∃ q, o = { s with filledQuantity := q }

/-- The books balance. -/
structure Balanced (l : Ledger) : Prop where
  sound : l.book.Sound
  submitted_nodup : (l.submitted.map Order.id).Nodup
  places_nodup : (l.places.map Order.id).Nodup
  known : ∀ o ∈ l.places, l.Known o
  fills_known : ∀ f ∈ l.fills,
    (∃ s ∈ l.submitted, s.id = f.makerId) ∧ ∃ s ∈ l.submitted, s.id = f.takerId
  fills_pos : ∀ f ∈ l.fills, 0 < f.quantity
  cause : ∀ d ∈ l.discarded, 0 < d.1.remaining.toNat → d.1.orderType = .market ∨
    d.1.timeInForce = .ioc ∨ d.1.timeInForce = .fok ∨ isExpired d.1 d.2 = true
  account : ∀ o ∈ l.submitted, o.quantity.toNat =
    o.filledQuantity.toNat + tradedBy o.id l.fills + lotsOf o.id l.places

theorem balanced_new : new.Balanced where
  sound := OrderBook.sound_new
  submitted_nodup := .nil
  places_nodup := .nil
  known := fun _ ho => absurd ho (by simp [new, places, gone, OrderBook.resting, OrderBook.queue,
    OrderBook.new])
  fills_known := fun _ hf => absurd hf (by simp [new])
  fills_pos := fun _ hf => absurd hf (by simp [new])
  cause := fun _ hd => absurd hd (by simp [new])
  account := fun _ ho => absurd ho (by simp [new])

variable {l : Ledger} {order : Order} {nowNs : UInt64} {q others : List Order}

/-- The places after an insertion, in terms of its sweep. -/
theorem places_insertAt (he : OrderBook.InsertSwept l.book order nowNs q others) :
    l.places.Perm (q ++ (others ++ l.gone)) ∧
      (l.insertAt order nowNs).places.Perm
        ((sweep order q).taker :: ((sweep order q).makers ++ (others ++ l.gone))) := by
  constructor
  · rw [places, ← List.append_assoc]
    exact he.before.append_right _
  · have hgone : (l.insertAt order nowNs).gone =
        l.gone ++ (l.book.dropped order nowNs).toList := by
      simp [gone, insertAt, List.map_map, Function.comp_def]
    rw [places, hgone]
    refine (List.perm_append_comm.append_left _).trans ?_
    rw [← List.append_assoc]
    refine (he.after.append_right l.gone).trans (.of_eq ?_)
    simp

/-- The ids of what a sweep leaves are among those of the makers. -/
theorem ids_sweep_sublist (taker : Order) (q : List Order) :
    ((sweep taker q).makers.map Order.id).Sublist (q.map Order.id) := by
  rw [← sweep_map_eq Order.id (fun _ _ => rfl) taker q]
  exact List.sublist_append_right _ _

theorem fills_insertAt (he : OrderBook.InsertSwept l.book order nowNs q others) :
    (l.insertAt order nowNs).fills = l.fills ++ (sweep order q).fills :=
  congrArg (l.fills ++ ·) he.fills_eq

/-! ## An insertion keeps the balance -/

section Insertion

variable (h : l.Balanced) (hfresh : ∀ o ∈ l.submitted, o.id ≠ order.id)
  (he : OrderBook.InsertSwept l.book order nowNs q others)

include h he

theorem Balanced.known_before : ∀ o ∈ q ++ (others ++ l.gone), l.Known o := fun o ho =>
  h.known o ((places_insertAt he).1.mem_iff.mpr ho)

include hfresh in
theorem Balanced.ids_before : ∀ o ∈ q ++ (others ++ l.gone), o.id ≠ order.id := by
  intro o ho
  obtain ⟨s, hs, _, rfl⟩ := h.known_before he o ho
  exact hfresh s hs

include hfresh in
theorem Balanced.places_nodup_insertAt : ((l.insertAt order nowNs).places.map Order.id).Nodup := by
  obtain ⟨hbefore, hafter⟩ := places_insertAt he
  have hsub : (((sweep order q).taker :: ((sweep order q).makers ++ (others ++ l.gone))).map
      Order.id).Sublist ((order :: (q ++ (others ++ l.gone))).map Order.id) := by
    simp only [List.map_cons, List.map_append, sweep_taker_id]
    exact ((ids_sweep_sublist order q).append (.refl _)).cons_cons _
  refine ((hafter.map _).nodup_iff).mpr (hsub.nodup ?_)
  rw [List.map_cons, List.nodup_cons]
  refine ⟨fun hmem => ?_, ((hbefore.map _).nodup_iff).mp h.places_nodup⟩
  obtain ⟨o, ho, hid⟩ := List.mem_map.mp hmem
  exact h.ids_before hfresh he o ho hid

theorem Balanced.known_insertAt :
    ∀ o ∈ (l.insertAt order nowNs).places, (l.insertAt order nowNs).Known o := by
  have hkeep : ∀ o, l.Known o → (l.insertAt order nowNs).Known o := fun o ⟨s, hs, hq⟩ =>
    ⟨s, List.mem_append_left _ hs, hq⟩
  intro o ho
  rcases List.mem_cons.mp ((places_insertAt he).2.mem_iff.mp ho) with rfl | ho
  · exact ⟨order, List.mem_append_right _ (List.mem_singleton_self _), sweep_taker_eq order q⟩
  · apply hkeep
    rcases List.mem_append.mp ho with ho | ho
    · exact forall_sweep (p := l.Known) (fun _ x ⟨s, hs, _, hq⟩ => ⟨s, hs, x, by rw [hq]⟩) order
        (fun m hm => h.known_before he m (List.mem_append_left _ hm)) o
        (List.mem_append_right _ ho)
    · exact h.known_before he o (List.mem_append_right _ ho)

theorem Balanced.fills_known_insertAt : ∀ f ∈ (l.insertAt order nowNs).fills,
    (∃ s ∈ (l.insertAt order nowNs).submitted, s.id = f.makerId) ∧
      ∃ s ∈ (l.insertAt order nowNs).submitted, s.id = f.takerId := by
  intro f hf
  rw [fills_insertAt he] at hf
  rcases List.mem_append.mp hf with hf | hf
  · obtain ⟨⟨s, hs, hmaker⟩, t, ht, htaker⟩ := h.fills_known f hf
    exact ⟨⟨s, List.mem_append_left _ hs, hmaker⟩, t, List.mem_append_left _ ht, htaker⟩
  · obtain ⟨htaker, m, hm, hmaker⟩ := ids_of_mem_sweep order q f hf
    obtain ⟨s, hs, _, rfl⟩ := h.known_before he m (List.mem_append_left _ hm)
    exact ⟨⟨s, List.mem_append_left _ hs, hmaker.symm⟩, order,
      List.mem_append_right _ (List.mem_singleton_self _), htaker.symm⟩

theorem Balanced.fills_pos_insertAt : ∀ f ∈ (l.insertAt order nowNs).fills, 0 < f.quantity := by
  intro f hf
  rw [fills_insertAt he] at hf
  rcases List.mem_append.mp hf with hf | hf
  · exact h.fills_pos f hf
  · exact UInt64.lt_iff_toNat_lt.mpr (quantity_pos_of_mem_sweep order he.allOpen f hf)

/-- An order dropped with lots left had expired or is of a kind that never rests. -/
theorem Balanced.cause_insertAt (hle : order.filledQuantity ≤ order.quantity) :
    ∀ d ∈ (l.insertAt order nowNs).discarded, 0 < d.1.remaining.toNat →
      d.1.orderType = .market ∨ d.1.timeInForce = .ioc ∨ d.1.timeInForce = .fok ∨
        isExpired d.1 d.2 = true := by
  intro d hd hpos
  rcases List.mem_append.mp hd with hd | hd
  · exact h.cause d hd hpos
  · obtain ⟨o, ho, rfl⟩ := List.mem_map.mp hd
    obtain ⟨rfl, hcause⟩ := he.cause o (Option.mem_toList.mp ho)
    rcases hcause with hexp | hrests
    · obtain ⟨x, hx⟩ := sweep_taker_eq order q
      refine .inr (.inr (.inr ?_))
      rw [hx]
      exact hexp
    · have hopen : (sweep order q).taker.isFilled = false := by
        rw [Order.isFilled_eq_false_iff]
        have hrem := Order.toNat_remaining (remaining_sweep hle q).2
        change 0 < (sweep order q).taker.remaining.toNat at hpos
        omega
      by_contra hno
      simp only [not_or] at hno
      have hyes := restsRemainder_iff.mpr ⟨hopen, hno.1, hno.2.1, hno.2.2.1⟩
      rw [hrests] at hyes
      cases hyes

include hfresh in
theorem Balanced.account_insertAt (hle : order.filledQuantity ≤ order.quantity) :
    ∀ o ∈ (l.insertAt order nowNs).submitted, o.quantity.toNat = o.filledQuantity.toNat +
      tradedBy o.id (l.insertAt order nowNs).fills +
        lotsOf o.id (l.insertAt order nowNs).places := by
  obtain ⟨hbefore, hafter⟩ := places_insertAt he
  intro s hs
  rw [fills_insertAt he, lotsOf_perm hafter, tradedBy_append]
  rcases List.mem_append.mp hs with hs | hs
  · have hid : order.id ≠ s.id := (hfresh s hs).symm
    have hold := h.account s hs
    have hswept := lotsOf_sweep he.allOpen hid
    rw [lotsOf_perm hbefore, lotsOf_append] at hold
    rw [lotsOf_cons_of_ne (by simpa using hid), lotsOf_append]
    omega
  · -- the new order had no part in anything before
    obtain rfl := List.mem_singleton.mp hs
    have hids := h.ids_before hfresh he
    have hmakers : ∀ m ∈ (sweep s q).makers, m.id ≠ s.id := fun m hm =>
      forall_sweep (p := fun o => o.id ≠ s.id) (fun _ _ h => h) s
        (fun o ho => hids o (List.mem_append_left _ ho)) m (List.mem_append_right _ hm)
    have hold : tradedBy s.id l.fills = 0 := tradedBy_eq_zero fun f hf => by
      obtain ⟨⟨m, hm, hmaker⟩, t, ht, htaker⟩ := h.fills_known f hf
      exact ⟨hmaker ▸ hfresh m hm, htaker ▸ hfresh t ht⟩
    have hrest : lotsOf s.id ((sweep s q).makers ++ (others ++ l.gone)) = 0 :=
      lotsOf_eq_zero fun o ho => by
        rcases List.mem_append.mp ho with ho | ho
        · exact hmakers o ho
        · exact hids o (List.mem_append_right _ ho)
    have hquantity := (remaining_sweep hle q).1
    rw [hold, tradedBy_sweep_taker, lotsOf_cons_of_eq (sweep_taker_id s q), hrest]
    omega

end Insertion

theorem Balanced.insertAt (h : l.Balanced) (hfresh : ∀ o ∈ l.submitted, o.id ≠ order.id)
    (hle : order.filledQuantity ≤ order.quantity) (nowNs : UInt64) :
    (l.insertAt order nowNs).Balanced := by
  obtain ⟨q, others, he⟩ := h.sound.insert_swept order nowNs
  refine ⟨h.sound.insertWithTime order nowNs, ?_, h.places_nodup_insertAt hfresh he,
    h.known_insertAt he, h.fills_known_insertAt he, h.fills_pos_insertAt he,
    h.cause_insertAt he hle, h.account_insertAt hfresh he hle⟩
  change ((l.submitted ++ [order]).map Order.id).Nodup
  rw [List.map_append, List.map_singleton]
  refine List.nodup_append.mpr ⟨h.submitted_nodup, List.nodup_singleton _, ?_⟩
  simpa using hfresh

/-- An operation that submits nothing moves orders from the book to the returned orders. -/
theorem Balanced.withdraw (h : l.Balanced) {op : BookOp} (hop : op.Withdraws) :
    ({ l with book := l.book.step op, returned := l.returned ++ l.book.withdrawn op } :
      Ledger).Balanced := by
  have hplaces : l.places.Perm ({ l with
      book := l.book.step op, returned := l.returned ++ l.book.withdrawn op } : Ledger).places := by
    have hperm := h.sound.step_perm hop
    simp only [places, gone, List.append_assoc]
    refine (hperm.append_right _).trans ?_
    rw [← List.append_assoc, ← List.append_assoc, ← List.append_assoc]
    refine List.Perm.append_right _ ?_
    rw [List.append_assoc]
    exact List.perm_append_comm
  refine ⟨h.sound.step op, h.submitted_nodup, ((hplaces.map _).nodup_iff).mp h.places_nodup,
    fun o ho => h.known o (hplaces.mem_iff.mpr ho), h.fills_known, h.fills_pos, h.cause,
    fun o ho => ?_⟩
  rw [← lotsOf_perm hplaces]
  exact h.account o ho

theorem Balanced.step (h : l.Balanced) {op : BookOp} (hop : l.Fresh op) : (l.step op).Balanced := by
  cases op with
  | insert order => exact h.insertAt hop.1 hop.2 0
  | insertWithTime order nowNs => exact h.insertAt hop.1 hop.2 nowNs
  | cancel id => exact h.withdraw trivial
  | purgeExpired nowNs => exact h.withdraw trivial
  | cancelAllSide side => exact h.withdraw trivial
  | cancelAll => exact h.withdraw trivial

/-- The lots of an order that its own insertion discarded. -/
def discardedLots (l : Ledger) (id : OrderId) : ℕ := lotsOf id (l.discarded.map Prod.fst)

/-- Only an order of a kind that never rests, or one that had expired, is discarded. -/
theorem Balanced.discard_cause (h : l.Balanced) {s : Order} (hs : s ∈ l.submitted)
    (hpos : 0 < l.discardedLots s.id) : s.orderType = .market ∨ s.timeInForce = .ioc ∨
      s.timeInForce = .fok ∨ ∃ d ∈ l.discarded, d.1.id = s.id ∧ isExpired s d.2 = true := by
  obtain ⟨o, ho, hid, hrem⟩ := exists_of_lotsOf_pos hpos
  obtain ⟨d, hd, rfl⟩ := List.mem_map.mp ho
  obtain ⟨s', hs', q, hq⟩ := h.known d.1 (List.mem_append_right _ (List.mem_append_right _ ho))
  have hids : s'.id = s.id := by rw [← hid, hq]
  obtain rfl : s' = s := List.inj_on_of_nodup_map h.submitted_nodup hs' hs hids
  have hcause := h.cause d hd hrem
  rw [hq] at hcause
  rcases hcause with hc | hc | hc | hc
  · exact .inl hc
  · exact .inr (.inl hc)
  · exact .inr (.inr (.inl hc))
  · exact .inr (.inr (.inr ⟨d, hd, hid, hc⟩))

/-- **Conservation of lots.** After every run of fresh submissions, the lots of every submitted
order are those filled before, those traded under its id, and those left of it on the book, among
the returned orders or discarded. No order is in two of these places or twice in one, no fill is
empty, and only a market, IOC, FOK or expired order is discarded with lots left. -/
theorem lots_conserved (ops : List BookOp) (h : Run.Along Ledger.step Fresh new ops) :
    let l := ops.foldl Ledger.step new
    l.book = ops.foldl OrderBook.step OrderBook.new ∧
      (∀ o ∈ l.submitted,
        o.quantity.toNat = o.filledQuantity.toNat + tradedBy o.id l.fills +
            lotsOf o.id l.book.resting + lotsOf o.id l.returned + l.discardedLots o.id ∧
          (0 < l.discardedLots o.id → o.orderType = .market ∨ o.timeInForce = .ioc ∨
            o.timeInForce = .fok ∨ ∃ d ∈ l.discarded, d.1.id = o.id ∧ isExpired o d.2 = true)) ∧
      ((l.book.resting ++ (l.returned ++ l.discarded.map Prod.fst)).map Order.id).Nodup ∧
      ∀ f ∈ l.fills, 0 < f.quantity := by
  intro l
  have hbal : l.Balanced :=
    Run.invariant_foldl Balanced (fun _ _ h hop => h.step hop) balanced_new h
  refine ⟨book_foldl new ops, fun o ho => ⟨?_, hbal.discard_cause ho⟩, hbal.places_nodup,
    hbal.fills_pos⟩
  have hacc := hbal.account o ho
  rw [places, gone, lotsOf_append, lotsOf_append] at hacc
  unfold discardedLots
  omega

/-- A bid takes 3 of the 5 lots on offer, and the ask is cancelled. -/
theorem lots_conserved_cancelled :
    let l := [BookOp.insert (.limit 1 .ask 100 5 0), .insertWithTime (.limit 2 .bid 100 3 1) 7,
      .cancel ⟨1⟩].foldl Ledger.step new
    ∀ o ∈ l.submitted, o.quantity.toNat = o.filledQuantity.toNat + tradedBy o.id l.fills +
      lotsOf o.id l.book.resting + lotsOf o.id l.returned + l.discardedLots o.id :=
  fun o ho => ((lots_conserved [.insert (.limit 1 .ask 100 5 0),
    .insertWithTime (.limit 2 .bid 100 3 1) 7, .cancel ⟨1⟩]
    ⟨⟨by decide, by decide⟩, ⟨by decide, by decide⟩, trivial, trivial⟩).2.1 o ho).1

end Ledger

end AliceLedger
