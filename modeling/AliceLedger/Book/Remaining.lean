import AliceLedger.Book.Index

/-!
# Where the remaining quantity is read

`Order::remaining` subtracts unchecked, and is read where an order is pushed onto a level or removed
from one, in every pass of the matching loops, and in the check of a FOK order. This module lists
the passes (`Pass`) and the orders read (`reads`) of an operation along the definitions of the
model. Every maker that a loop comes to is open, so no pass trades a quantity of zero, and every
order read is at most filled, except for one path: the FOK check reads an incoming order before any
test of its filled quantity (`remaining_never_underflows_iff`).
-/

namespace AliceLedger

open OrderDual (toDual ofDual)

/-- A pass of a matching loop: the taker, and the maker at the front of the queue. -/
structure Pass where
  taker : Order
  maker : Order
  deriving DecidableEq, Repr

namespace Pass

/-- What is read in a pass: nothing when the taker is filled, which ends the loop. -/
def reads (p : Pass) : List Order := if p.taker.isFilled then [] else [p.taker, p.maker]

/-- The state of the loop at the start of a pass, when there is a maker. -/
def ofState (s : FillState) : Option Pass := s.level.orders.head?.map (⟨s.taker, ·⟩)

end Pass

/-- The passes of `fillLevel`. -/
def fillPasses (takerId : OrderId) (timestampNs : UInt64) (s : FillState) : List Pass :=
  (Loop.visited (fillStep takerId timestampNs) (s.level.orders.length + 1) s).filterMap Pass.ofState

/-- **The list has every pass of the loop.** -/
theorem mem_fillPasses_iff {takerId : OrderId} {ts : UInt64} {s : FillState} {p : Pass} :
    p ∈ fillPasses takerId ts s ↔
      ∃ t, Loop.Reaches (fillStep takerId ts) s t ∧ Pass.ofState t = some p := by
  have hstop : fillStep takerId ts (Loop.run (fillStep takerId ts) s.level.orders.length s) =
      none := by
    refine Loop.run_stops fillMeasure (fun s t => fillMeasure_lt s t) ?_
    unfold fillMeasure
    split_ifs
    · exact Nat.zero_le _
    · exact le_rfl
  rw [fillPasses, List.mem_filterMap]
  simp only [Loop.mem_visited_iff hstop]

/-- A pass keeps the orders of the level open: a maker that it fills leaves the queue. -/
theorem allOpen_fillStep {takerId : OrderId} {ts : UInt64} {s t : FillState}
    (h : AllOpen s.level.orders) (hstep : fillStep takerId ts s = some t) :
    AllOpen t.level.orders := by
  obtain ⟨⟨price, orders, total⟩, taker, fills, index⟩ := s
  cases orders with
  | nil => exact absurd hstep (by simp [fillStep])
  | cons maker rest =>
    simp only [fillStep] at hstep
    split_ifs at hstep with hfilled hzero hmaker
    · obtain rfl := Option.some.inj hstep
      exact h.of_cons
    · obtain rfl := Option.some.inj hstep
      exact List.forall_mem_cons.mpr ⟨Bool.eq_false_of_not_eq_true hmaker, h.of_cons⟩

theorem allOpen_of_reaches {takerId : OrderId} {ts : UInt64} {s t : FillState}
    (h : AllOpen s.level.orders) (hreach : Loop.Reaches (fillStep takerId ts) s t) :
    AllOpen t.level.orders :=
  Loop.invariant_of_reaches (P := fun s : FillState => AllOpen s.level.orders)
    (fun _ _ h hstep => allOpen_fillStep h hstep) h hreach

/-- **Every maker that a pass comes to is open.** -/
theorem maker_open_of_mem_fillPasses {takerId : OrderId} {ts : UInt64} {s : FillState}
    (h : AllOpen s.level.orders) : ∀ p ∈ fillPasses takerId ts s, p.maker.isFilled = false := by
  intro p hp
  obtain ⟨t, hreach, hstate⟩ := mem_fillPasses_iff.mp hp
  obtain ⟨maker, hhead, rfl⟩ := Option.map_eq_some_iff.mp hstate
  exact allOpen_of_reaches h hreach maker (List.mem_of_mem_head? hhead)

section Side

variable {K : Type*} [LinearOrder K]

/-- The passes of `matchLevels`. -/
def matchPasses : List K → MatchState K → List Pass
  | [], _ => []
  | key :: keys, s =>
    if s.taker.isFilled then []
    else
      match s.levels.get? key with
      | none => []
      | some level =>
        fillPasses s.taker.id s.taker.timestampNs ⟨level, s.taker, s.fills, s.index⟩ ++
          matchPasses keys (matchLevel fillLevel key level s)

/-- The passes of `matchAgainst`. -/
def againstPasses (takerPrice : K) (s : MatchState K) : List Pass :=
  if s.taker.timeInForce = .fok ∧ canFill s.levels takerPrice s.taker = false then []
  else matchPasses ((s.levels.upTo takerPrice).map Prod.fst) s

theorem allOpen_matchLevel {key : K} {level : PriceLevel} {s : MatchState K}
    (h : ∀ e ∈ s.levels.entries, AllOpen e.2.orders) (hlevel : AllOpen level.orders) :
    ∀ e ∈ (matchLevel fillLevel key level s).levels.entries, AllOpen e.2.orders := by
  have hfill : AllOpen (fillLevel s.taker.id s.taker.timestampNs
      ⟨level, s.taker, s.fills, s.index⟩).level.orders :=
    allOpen_of_reaches hlevel (Loop.reaches_run _ _)
  intro e he
  simp only [matchLevel] at he
  split_ifs at he
  · rcases (SortedMap.mem_entries_insert _ _ _).mp ((SortedMap.mem_entries_erase _ _).mp he).1 with
      rfl | ⟨he, -⟩
    · exact hfill
    · exact h e he
  · rcases (SortedMap.mem_entries_insert _ _ _).mp he with rfl | ⟨he, -⟩
    · exact hfill
    · exact h e he

theorem maker_open_of_mem_matchPasses {keys : List K} {s : MatchState K}
    (h : ∀ e ∈ s.levels.entries, AllOpen e.2.orders) :
    ∀ p ∈ matchPasses keys s, p.maker.isFilled = false := by
  induction keys generalizing s with
  | nil => exact fun p hp => absurd hp List.not_mem_nil
  | cons key keys ih =>
    intro p hp
    rw [matchPasses] at hp
    split_ifs at hp
    · exact absurd hp List.not_mem_nil
    · cases hget : s.levels.get? key with
      | none =>
        rw [hget] at hp
        exact absurd hp List.not_mem_nil
      | some level =>
        rw [hget] at hp
        have hlevel : AllOpen level.orders := h (key, level) (SortedMap.mem_entries_iff.mpr hget)
        rcases List.mem_append.mp hp with hp | hp
        · exact maker_open_of_mem_fillPasses hlevel p hp
        · exact ih (allOpen_matchLevel h hlevel) p hp

theorem maker_open_of_mem_againstPasses {takerPrice : K} {s : MatchState K}
    (h : ∀ e ∈ s.levels.entries, AllOpen e.2.orders) :
    ∀ p ∈ againstPasses takerPrice s, p.maker.isFilled = false := by
  unfold againstPasses
  split_ifs
  · exact fun p hp => absurd hp List.not_mem_nil
  · exact maker_open_of_mem_matchPasses h

end Side

namespace OrderBook

/-- The passes of `matchOrder`. -/
def matchOrderPasses (book : OrderBook) (order : Order) : List Pass :=
  match order.side with
  | .bid => againstPasses (bidTakerPrice order) ⟨book.asks, order, [], book.orderIndex⟩
  | .ask => againstPasses (toDual (askTakerPrice order)) ⟨book.bids, order, [], book.orderIndex⟩

/-- The passes of `insertWithTime`. -/
def insertPasses (book : OrderBook) (order : Order) (nowNs : UInt64) : List Pass :=
  if isExpired order nowNs then [] else book.matchOrderPasses order

/-- What `insertWithTime` reads: a FOK order in its check, both orders of each pass, and a remainder
when it is pushed onto its level. -/
def insertReads (book : OrderBook) (order : Order) (nowNs : UInt64) : List Order :=
  if isExpired order nowNs then []
  else
    let m := book.matchOrder order
    (if order.timeInForce = .fok then [order] else []) ++
      (book.matchOrderPasses order).flatMap Pass.reads ++
      (if restsRemainder m.taker then [m.taker] else [])

/-- The passes of an operation. -/
def passes (book : OrderBook) : BookOp → List Pass
  | .insert order => book.insertPasses order 0
  | .insertWithTime order nowNs => book.insertPasses order nowNs
  | _ => []

/-- What an operation reads. A cancellation reads the order that it removes from its level. -/
def reads (book : OrderBook) : BookOp → List Order
  | .insert order => book.insertReads order 0
  | .insertWithTime order nowNs => book.insertReads order nowNs
  | .cancel oid => (book.cancel oid).2.toList
  | .purgeExpired nowNs => (book.purgeExpired nowNs).2
  | .cancelAllSide side => (book.cancelIds (book.allOrderIdsBySide side)).2
  | .cancelAll =>
    let bids := book.cancelIds (book.allOrderIdsBySide .bid)
    bids.2 ++ (bids.1.cancelIds (bids.1.allOrderIdsBySide .ask)).2

variable {book : OrderBook} {order : Order} {nowNs : UInt64}

theorem Sound.maker_open_of_mem_insertPasses (h : book.Sound) :
    ∀ p ∈ book.insertPasses order nowNs, p.maker.isFilled = false := by
  have hbids : ∀ e ∈ book.bids.entries, AllOpen e.2.orders := fun e he => (h.bids e he).allOpen
  have hasks : ∀ e ∈ book.asks.entries, AllOpen e.2.orders := fun e he => (h.asks e he).allOpen
  unfold insertPasses
  split_ifs
  · exact fun p hp => absurd hp List.not_mem_nil
  · unfold matchOrderPasses
    cases order.side with
    | bid => exact maker_open_of_mem_againstPasses hasks
    | ask => exact maker_open_of_mem_againstPasses hbids

/-- **Every maker that an operation comes to is open.** -/
theorem Sound.maker_open (h : book.Sound) {op : BookOp} :
    ∀ p ∈ book.passes op, p.maker.isFilled = false := by
  cases op with
  | insert order => exact h.maker_open_of_mem_insertPasses
  | insertWithTime order nowNs => exact h.maker_open_of_mem_insertPasses
  | cancel | purgeExpired | cancelAllSide | cancelAll =>
    exact fun p hp => absurd hp List.not_mem_nil

/-- The orders read in a pass that comes to an open maker are open. -/
theorem isFilled_of_mem_reads {p : Pass} (h : p.maker.isFilled = false) {o : Order}
    (ho : o ∈ p.reads) : o.isFilled = false := by
  unfold Pass.reads at ho
  split_ifs at ho with htaker
  · exact absurd ho List.not_mem_nil
  · rcases List.mem_cons.mp ho with rfl | ho
    · exact Bool.eq_false_of_not_eq_true htaker
    · rw [List.mem_singleton.mp ho]
      exact h

/-- **What an insertion reads is not filled beyond its quantity**, an incoming FOK order apart. -/
theorem Sound.insertReads_iff (h : book.Sound) :
    (∀ o ∈ book.insertReads order nowNs, o.filledQuantity ≤ o.quantity) ↔
      (order.timeInForce = .fok → order.filledQuantity ≤ order.quantity) := by
  have hpasses : ∀ p ∈ book.insertPasses order nowNs, p.maker.isFilled = false :=
    h.maker_open_of_mem_insertPasses
  unfold insertPasses at hpasses
  unfold insertReads
  constructor
  · intro hreads hfok
    have hexp : isExpired order nowNs = false := by simp [isExpired, hfok]
    rw [hexp] at hreads
    refine hreads order ?_
    simp [hfok]
  · intro hfok o ho
    by_cases hexp : isExpired order nowNs = true
    · rw [if_pos hexp] at ho
      exact absurd ho List.not_mem_nil
    · rw [if_neg hexp] at ho hpasses
      rcases List.mem_append.mp ho with ho | ho
      · rcases List.mem_append.mp ho with ho | ho
        · split_ifs at ho with htif
          · rw [List.mem_singleton.mp ho]
            exact hfok htif
          · exact absurd ho List.not_mem_nil
        · obtain ⟨p, hp, ho⟩ := List.mem_flatMap.mp ho
          exact Order.filledQuantity_le (isFilled_of_mem_reads (hpasses p hp) ho)
      · split_ifs at ho with hrests
        · rw [List.mem_singleton.mp ho]
          exact Order.filledQuantity_le (restsRemainder_iff.mp hrests).1
        · exact absurd ho List.not_mem_nil

/-- Orders found on the book by a list of cancellations are open. -/
theorem Sound.le_of_mem_cancelIds (h : book.Sound) {ids : List OrderId} {o : Order}
    (ho : o ∈ (book.cancelIds ids).2) : o.filledQuantity ≤ o.quantity := by
  have hmem := (h.cancelIds_perm ids).mem_iff.mpr (List.mem_append_left _ ho)
  obtain ⟨side, hmem⟩ := mem_resting.mp hmem
  exact Order.filledQuantity_le (mem_queue_resting h hmem).2

end OrderBook

/-- The operation submits a FOK order that is filled beyond its quantity. -/
def BookOp.SubmitsOverfilledFok : BookOp → Prop
  | .insert order | .insertWithTime order _ =>
    order.timeInForce = .fok ∧ order.quantity < order.filledQuantity
  | _ => False

instance : ∀ op : BookOp, Decidable op.SubmitsOverfilledFok
  | .insert _ | .insertWithTime _ _ => inferInstanceAs (Decidable (_ ∧ _))
  | .cancel _ | .purgeExpired _ | .cancelAllSide _ | .cancelAll => inferInstanceAs (Decidable False)

namespace OrderBook

variable {book : OrderBook} {op : BookOp}

/-- **What an operation reads is not filled beyond its quantity**, the one path apart. -/
theorem Sound.reads_iff (h : book.Sound) :
    (∀ o ∈ book.reads op, o.filledQuantity ≤ o.quantity) ↔ ¬ op.SubmitsOverfilledFok := by
  have hfok : ∀ order : Order, (order.timeInForce = .fok → order.filledQuantity ≤ order.quantity) ↔
      ¬ (order.timeInForce = .fok ∧ order.quantity < order.filledQuantity) := fun order => by
    rw [not_and, not_lt]
  cases op with
  | insert order => exact h.insertReads_iff.trans (hfok order)
  | insertWithTime order nowNs => exact h.insertReads_iff.trans (hfok order)
  | cancel oid =>
    refine iff_of_true (fun o ho => ?_) id
    obtain ⟨-, hmem, -⟩ := h.of_mem_cancel (Option.mem_toList.mp ho)
    obtain ⟨side, hmem⟩ := mem_resting.mp hmem
    exact Order.filledQuantity_le (mem_queue_resting h hmem).2
  | purgeExpired nowNs => exact iff_of_true (fun o ho => h.le_of_mem_cancelIds ho) id
  | cancelAllSide side => exact iff_of_true (fun o ho => h.le_of_mem_cancelIds ho) id
  | cancelAll =>
    refine iff_of_true (fun o ho => ?_) id
    rcases List.mem_append.mp ho with ho | ho
    · exact h.le_of_mem_cancelIds ho
    · exact (h.cancelIds _).le_of_mem_cancelIds ho

/-- Every maker that a loop comes to has something left, and no pass with an open taker trades
nothing. -/
def PassesTrade (book : OrderBook) (op : BookOp) : Prop :=
  ∀ p ∈ book.passes op, p.maker.filledQuantity < p.maker.quantity ∧ 0 < p.maker.remaining ∧
    (p.taker.isFilled = false → min p.taker.remaining p.maker.remaining ≠ 0)

theorem Sound.passesTrade (h : book.Sound) (op : BookOp) : book.PassesTrade op := by
  intro p hp
  have hmaker := h.maker_open p hp
  exact ⟨UInt64.lt_iff_toNat_lt.mpr (Order.isFilled_eq_false_iff.mp hmaker),
    UInt64.lt_iff_toNat_lt.mpr (Order.remaining_pos hmaker),
    fun htaker => tradeQty_ne_zero htaker hmaker⟩

/-- **When the remaining quantity never underflows.** On every run of operations each maker that a
matching loop comes to has a positive remaining quantity, so that the loop never stops on a
quantity of zero; and every order whose remaining quantity an operation reads has a filled quantity
of at most its quantity, in every step of the run, if and only if no operation submits a FOK order
that is filled beyond its quantity. -/
theorem remaining_never_underflows_iff (ops : List BookOp) :
    Run.Along step PassesTrade new ops ∧
      (Run.Along step (fun book op =>
          (∀ o ∈ book.reads op, o.filledQuantity ≤ o.quantity) ∧ book.PassesTrade op) new ops ↔
        ∀ op ∈ ops, ¬ op.SubmitsOverfilledFok) := by
  have hstep : ∀ (book : OrderBook) (op : BookOp), book.Sound → (book.step op).Sound :=
    fun _ op h => h.step op
  constructor
  · refine (Run.along_iff_forall hstep (fun book op h => ?_) sound_new).mpr fun _ _ => trivial
    exact iff_true_intro (h.passesTrade op)
  · refine Run.along_iff_forall hstep (fun book op h => ?_) sound_new
    rw [h.reads_iff]
    exact and_iff_left (h.passesTrade op)

/-- A FOK order with 2 lots filled of 1. -/
def overfilledFok : Order :=
  { Order.limit 1 .bid 100 1 0 with filledQuantity := 2, timeInForce := .fok }

/-- Its check reads a remaining quantity of 1 - 2 lots. -/
theorem overfilled_fok_underflows : ¬ ∀ ops : List BookOp, Run.Along step (fun book op =>
    (∀ o ∈ book.reads op, o.filledQuantity ≤ o.quantity) ∧ book.PassesTrade op) new ops := by
  intro h
  have hread := (h [.insert overfilledFok]).1.1 overfilledFok (by decide)
  exact absurd hread (by decide)

end OrderBook

end AliceLedger
