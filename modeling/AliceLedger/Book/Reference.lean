import AliceLedger.Book.Queue
import Mathlib.Data.List.Perm.Basic

/-!
# The reference matcher

Price-time priority says what the book is for, without levels: the resting orders are one flat list
in the order in which they came to rest, and a taker trades again and again with the first of the
crossing makers whose price no other crossing maker beats (`bestMaker`, `flatStep`), until it is
filled or nothing crosses (`flatStep_flatMatch`).

The book refines this matcher. `Mirrors book flat` says that the book and a flat list show the same
orders in the same order at every price of every side; `run_flatStep_eq` is the simulation of a
sweep, and `Tracked.step` runs the book and the flat list side by side, over every operation. The
result is `price_time_priority`.
-/

namespace AliceLedger

/-! ## The matcher on a flat list -/

/-- The makers that a taker can trade with. -/
def candidates (taker : Order) (flat : List Order) : List Order :=
  flat.filter fun o => o.side = taker.side.opposite ∧ Crosses taker o

/-- The first of the candidates whose price no candidate beats. -/
def bestMaker (taker : Order) (flat : List Order) : Option Order :=
  (candidates taker flat).find? fun o =>
    ∀ o' ∈ candidates taker flat, ¬ Better o.side o'.price o.price

/-- What the reference matcher reads and changes. -/
structure FlatState where
  flat : List Order
  taker : Order
  fills : List Fill

/-- One trade with the best maker, which leaves the list when it is filled. -/
def flatStep (s : FlatState) : Option FlatState :=
  if s.taker.isFilled then none
  else
    match bestMaker s.taker s.flat with
    | none => none
    | some maker =>
      let maker' := maker.addFilled (tradeQty s.taker maker)
      some {
        flat := if maker'.isFilled then s.flat.erase maker else s.flat.replace maker maker'
        taker := s.taker.addFilled (tradeQty s.taker maker)
        fills := s.fills ++ [tradeFill s.taker maker] }

/-- Trade until the taker is filled or nothing crosses. -/
def flatMatch (flat : List Order) (taker : Order) : FlatState :=
  Loop.run flatStep (flat.length + 1) ⟨flat, taker, []⟩

/-- An order whose remainder rests: GTC or GTD, and not a market order. -/
def Rests (order : Order) : Prop :=
  order.orderType ≠ .market ∧ order.timeInForce ≠ .ioc ∧ order.timeInForce ≠ .fok

instance (order : Order) : Decidable (Rests order) := inferInstanceAs (Decidable (_ ∧ _))

/-- Submit an order to the flat list: the remainder comes to rest last. -/
def flatInsert (flat : List Order) (order : Order) : List Order × List Fill :=
  let s := flatMatch flat order
  (if s.taker.isFilled = false ∧ Rests order then s.flat ++ [s.taker] else s.flat, s.fills)

section Ends

/-- The trades left: each removes a maker or fills the taker. -/
def flatMeasure (s : FlatState) : ℕ := if s.taker.isFilled then 0 else s.flat.length

theorem bestMaker_mem {taker maker : Order} {flat : List Order}
    (h : bestMaker taker flat = some maker) :
    maker ∈ flat ∧ maker.side = taker.side.opposite ∧ Crosses taker maker := by
  have hmem := List.mem_of_find?_eq_some h
  simpa [candidates] using hmem

theorem flatMeasure_lt (s t : FlatState) (h : flatStep s = some t) :
    flatMeasure t < flatMeasure s := by
  unfold flatStep at h
  split_ifs at h with ht
  cases hbest : bestMaker s.taker s.flat with
  | none => simp [hbest] at h
  | some maker =>
    have hmem := (bestMaker_mem hbest).1
    have hlen := List.length_erase_of_mem hmem
    have hpos := List.length_pos_of_mem hmem
    rw [hbest] at h
    obtain rfl := Option.some.inj h
    simp only [flatMeasure, ht, Bool.false_eq_true, if_false]
    cases hm : (maker.addFilled (tradeQty s.taker maker)).isFilled with
    | true =>
      simp only [if_true]
      split_ifs <;> omega
    | false =>
      have ht' := (isFilled_of_trade s.taker maker).resolve_right (by simp [hm])
      simpa [ht'] using hpos

/-- **The reference matcher ends**, whatever the list and the taker. -/
theorem flatStep_flatMatch (flat : List Order) (taker : Order) :
    flatStep (flatMatch flat taker) = none := by
  refine Loop.run_stops flatMeasure (fun s t => flatMeasure_lt s t) ?_
  unfold flatMeasure
  split_ifs
  · exact Nat.zero_le _
  · exact Nat.le_succ _

end Ends

/-! ## A sorted queue and the flat list -/

/-- The flat list shows the orders of a side in the queue's order at every price. -/
def Shows (side : Side) (queue flat : List Order) : Prop :=
  ∀ price, flat.filter (fun o => o.side = side ∧ o.price = price) =
    queue.filter fun o => o.price = price

namespace Shows

variable {side : Side} {queue flat : List Order}

theorem mem_iff (h : Shows side queue flat) {o : Order} :
    o ∈ queue ↔ o ∈ flat ∧ o.side = side := by
  have hmem : o ∈ flat.filter (fun x => x.side = side ∧ x.price = o.price) ↔
      o ∈ queue.filter fun x => x.price = o.price := by rw [h o.price]
  simpa using hmem.symm

theorem erase (h : Shows side queue flat) (o : Order) :
    Shows side (queue.erase o) (flat.erase o) := fun price => by
  rw [← List.erase_filter, ← List.erase_filter, h price]

theorem foldl_erase (h : Shows side queue flat) (os : List Order) :
    Shows side (os.foldl List.erase queue) (os.foldl List.erase flat) := by
  induction os generalizing queue flat with
  | nil => exact h
  | cons o os ih => exact ih (h.erase o)

/-- The first order of the queue is the first of its price in the flat list. -/
theorem exists_split {maker : Order} {rest : List Order} (h : Shows side (maker :: rest) flat) :
    ∃ before after, flat = before ++ maker :: after ∧ maker.side = side ∧
      ∀ o ∈ before, ¬ (o.side = side ∧ o.price = maker.price) := by
  have hhead : flat.find? (fun o => o.side = side ∧ o.price = maker.price) = some maker := by
    rw [← List.head?_filter, h maker.price, List.filter_cons_of_pos (by simp), List.head?_cons]
  obtain ⟨hmaker, before, after, hflat, hbefore⟩ := List.find?_eq_some_iff_append.mp hhead
  refine ⟨before, after, hflat, ?_, fun o ho => ?_⟩
  · simpa using hmaker
  · exact fun hand => by simpa [hand.1, hand.2] using hbefore o ho

/-- The head of the queue changes in place. -/
theorem replace {maker maker' : Order} {rest : List Order} (h : Shows side (maker :: rest) flat)
    (hside : maker'.side = maker.side) (hprice : maker'.price = maker.price) :
    Shows side (maker' :: rest) (flat.replace maker maker') ∧
      ∀ p : Order → Bool, p maker = false → p maker' = false →
        (flat.replace maker maker').filter p = flat.filter p := by
  obtain ⟨before, after, hflat, hmaker, hbefore⟩ := h.exists_split
  have hnot : maker ∉ before := fun hmem => hbefore maker hmem ⟨hmaker, rfl⟩
  have hreplace : flat.replace maker maker' = before ++ maker' :: after := by
    rw [hflat, List.replace_append_right hnot, List.replace_cons_self]
  constructor
  · intro price
    have hsame := h price
    rw [hflat, List.filter_append] at hsame
    rw [hreplace, List.filter_append]
    by_cases hp : maker.price = price
    · have hnil : before.filter (fun o => o.side = side ∧ o.price = price) = [] :=
        List.filter_eq_nil_iff.mpr fun o ho => by simpa [hp] using hbefore o ho
      rw [hnil, List.filter_cons_of_pos (by simp [hmaker, hp]),
        List.filter_cons_of_pos (by simp [hp])] at hsame
      rw [hnil, List.filter_cons_of_pos (by simp [hside, hmaker, hprice, hp]),
        List.filter_cons_of_pos (by simp [hprice, hp])]
      exact congrArg (maker' :: ·) (List.cons.inj hsame).2
    · rw [List.filter_cons_of_neg (by simp [hp]), List.filter_cons_of_neg (by simp [hp])] at hsame
      rw [List.filter_cons_of_neg (by simp [hprice, hp]),
        List.filter_cons_of_neg (by simp [hprice, hp])]
      exact hsame
  · intro p hp hp'
    rw [hreplace, hflat, List.filter_append, List.filter_append,
      List.filter_cons_of_neg (by simpa using hp'), List.filter_cons_of_neg (by simpa using hp)]

end Shows

section BestMaker

variable {taker maker : Order} {flat rest queue : List Order}

/-- **The best maker is the head of the sorted queue.** -/
theorem bestMaker_eq_head (h : Shows taker.side.opposite (maker :: rest) flat)
    (hsorted : (maker :: rest).Pairwise fun a b =>
      ¬ Better taker.side.opposite b.price a.price)
    (hcross : Crosses taker maker) : bestMaker taker flat = some maker := by
  obtain ⟨before, after, hflat, hside, hbefore⟩ := h.exists_split
  have hmaker : maker ∈ candidates taker flat := by
    simpa [candidates, hcross, hside] using (h.mem_iff.mp (by simp)).1
  have hbest : ∀ o ∈ candidates taker flat,
      ¬ Better taker.side.opposite o.price maker.price := by
    intro o ho
    have hflat : o ∈ flat ∧ o.side = taker.side.opposite ∧ Crosses taker o := by
      simpa [candidates] using ho
    rcases List.mem_cons.mp (h.mem_iff.mpr ⟨hflat.1, hflat.2.1⟩) with rfl | hmem
    · exact fun hlt => hlt.asymm hlt
    · exact (List.pairwise_cons.mp hsorted).1 o hmem
  refine List.find?_eq_some_iff_append.mpr ⟨by simpa [hside] using hbest, ?_⟩
  -- a candidate that none beats is a maker at the price of the head
  refine ⟨candidates taker before, candidates taker after, ?_, fun o ho => ?_⟩
  · rw [hflat, candidates, List.filter_append, List.filter_cons_of_pos (by simp [hside, hcross])]
    rfl
  · have hin : o ∈ before ∧ o.side = taker.side.opposite ∧ Crosses taker o := by
      simpa [candidates] using ho
    have hle := hbest o (by simp [candidates, hflat, hin])
    have hge := mt (eq_of_not_better · hle) fun heq => hbefore o hin.1 ⟨hin.2.1, heq.symm⟩
    simpa [hin.2.1] using ⟨maker, hmaker, not_not.mp hge⟩

theorem bestMaker_eq_none (h : Shows taker.side.opposite queue flat)
    (hnone : ∀ o ∈ queue, ¬ Crosses taker o) : bestMaker taker flat = none := by
  have hnil : candidates taker flat = [] := List.filter_eq_nil_iff.mpr fun o ho => by
    simpa using fun hside => hnone o (h.mem_iff.mpr ⟨ho, hside⟩)
  rw [bestMaker, hnil, List.find?_nil]

end BestMaker

/-! ## The simulation of a sweep -/

/-- **The reference matcher simulates the sweep** of the crossing part `q` of a sorted queue. What
it does not see, the other side, stays as it was. -/
theorem run_flatStep_eq (q rest : List Order) {flat : List Order} {taker : Order}
    (h : Shows taker.side.opposite (q ++ rest) flat)
    (hsorted : (q ++ rest).Pairwise fun a b => ¬ Better taker.side.opposite b.price a.price)
    (hcross : ∀ o ∈ q, Crosses taker o) (hnot : ∀ o ∈ rest, ¬ Crosses taker o)
    (fills : List Fill) {n : ℕ} (hn : q.length < n) :
    ∃ flat', Loop.run flatStep n ⟨flat, taker, fills⟩ =
        ⟨flat', (sweep taker q).taker, fills ++ (sweep taker q).fills⟩ ∧
      Shows taker.side.opposite ((sweep taker q).makers ++ rest) flat' ∧
      ∀ p : Order → Bool, (∀ o : Order, o.side = taker.side.opposite → p o = false) →
        flat'.filter p = flat.filter p := by
  induction q generalizing flat taker fills n with
  | nil =>
    have hstop : flatStep ⟨flat, taker, fills⟩ = none := by
      simp [flatStep, bestMaker_eq_none h hnot]
    exact ⟨flat, by simp [Loop.run_of_none hstop], h, fun _ _ => rfl⟩
  | cons maker q ih =>
    obtain ⟨n, rfl⟩ : ∃ k, n = k + 1 := ⟨n - 1, by omega⟩
    cases ht : taker.isFilled with
    | true =>
      rw [Loop.run_of_none (by simp [flatStep, ht]), sweep_of_filled ht]
      exact ⟨flat, by simp, h, fun _ _ => rfl⟩
    | false =>
      have hbest := bestMaker_eq_head h hsorted (hcross maker (by simp))
      have hside : maker.side = taker.side.opposite := (bestMaker_mem hbest).2.1
      have hstep : flatStep ⟨flat, taker, fills⟩ = some {
          flat := if (maker.addFilled (tradeQty taker maker)).isFilled then flat.erase maker
            else flat.replace maker (maker.addFilled (tradeQty taker maker))
          taker := taker.addFilled (tradeQty taker maker)
          fills := fills ++ [tradeFill taker maker] } := by
        simp [flatStep, ht, hbest]
      rw [Loop.run_succ_of_some hstep]
      cases hm : (maker.addFilled (tradeQty taker maker)).isFilled with
      | true =>
        have herase : Shows taker.side.opposite (q ++ rest) (flat.erase maker) := by
          simpa using h.erase maker
        obtain ⟨flat', hrun, hshows, hother⟩ := ih
          (show Shows (taker.addFilled (tradeQty taker maker)).side.opposite _ _ from herase)
          (List.pairwise_cons.mp hsorted).2
          (fun o ho => hcross o (List.mem_cons_of_mem _ ho)) hnot (fills ++ [tradeFill taker maker])
          (show q.length < n by rw [List.length_cons] at hn; omega)
        refine ⟨flat', ?_, ?_, fun p hp => ?_⟩
        · rw [if_pos rfl, hrun, sweep_cons_pop ht hm]
          simp
        · rw [sweep_cons_pop ht hm]
          exact hshows
        · rw [hother p hp, ← List.erase_filter, List.erase_of_not_mem]
          simp [hp maker hside]
      | false =>
        -- the maker stays and the taker is filled: the next pass ends the loop
        have ht' : (taker.addFilled (tradeQty taker maker)).isFilled = true :=
          (isFilled_of_trade taker maker).resolve_right (by simp [hm])
        obtain ⟨hshows, hother⟩ := h.replace
          (show (maker.addFilled (tradeQty taker maker)).side = maker.side from rfl) rfl
        rw [Loop.run_of_none (by simp [flatStep, ht']), sweep_cons_keep ht hm]
        exact ⟨_, by simp, hshows, fun p hp => hother p (hp _ hside) (hp _ hside)⟩

/-! ## The book and the flat list side by side -/

namespace OrderBook

variable {book : OrderBook} {order : Order} {flat : List Order}

/-- The flat list shows both sides of the book. -/
def Mirrors (book : OrderBook) (flat : List Order) : Prop :=
  ∀ side, Shows side (book.queue side) flat

/-- A flat list that mirrors the book is a list of its resting orders. -/
theorem Mirrors.perm (h : book.Sound) (hm : book.Mirrors flat) : book.resting.Perm flat := by
  have hside : ∀ (side : Side) (x : Order),
      (book.queue side).count x = if x.side = side then flat.count x else 0 := by
    intro side x
    split_ifs with hx
    · rw [← List.count_filter (l := flat) (p := fun o => o.side = side ∧ o.price = x.price)
        (by simp [hx]), hm side x.price, List.count_filter (by simp)]
    · exact List.count_eq_zero.mpr fun hmem => hx (mem_queue_resting h hmem).1
  refine List.perm_iff_count.mpr fun x => ?_
  rw [resting, List.count_append, hside, hside]
  cases x.side <;> simp

/-- Resting an order, on the book and on the flat list. -/
theorem Mirrors.restOrder (h : book.Sound) (hm : book.Mirrors flat) (order : Order) :
    (book.restOrder order).Mirrors (flat ++ [order]) := by
  obtain ⟨hother, -, hown, -⟩ := h.restOrder_queue order
  intro side price
  rw [List.filter_append, hm side price]
  by_cases hside : order.side = side
  · subst hside
    rw [hown price, List.filter_singleton]
    by_cases hp : order.price = price <;> simp [hp]
  · have hopp : side = order.side.opposite := Side.eq_opposite_of_ne (Ne.symm hside)
    rw [hopp, hother, ← hopp, List.filter_cons_of_neg (by simp [hside])]
    simp

/-- **The match phase refines the reference matcher.** -/
theorem Mirrors.matchOrder (h : book.Sound) (hm : book.Mirrors flat) (hk : ¬ book.Kills order) :
    (book.matchOrder order).fills = (flatMatch flat order).fills ∧
      (book.matchOrder order).taker = (flatMatch flat order).taker ∧
      (book.matchOrder order).book.Mirrors (flatMatch flat order).flat := by
  obtain ⟨q, rest, hq⟩ := h.matchOrder_queue hk
  have hshows := hm order.side.opposite
  have hsorted := h.queue_pairwise order.side.opposite
  rw [hq.before] at hshows hsorted
  have hlen : q.length < flat.length + 1 := by
    have hle : (book.queue order.side.opposite).length ≤ book.resting.length := by
      rw [(resting_perm book order.side).length_eq, List.length_append]
      exact Nat.le_add_right _ _
    rw [hq.before, List.length_append, (hm.perm h).length_eq] at hle
    omega
  obtain ⟨flat', hrun, hshows', hother⟩ :=
    run_flatStep_eq q rest hshows hsorted hq.crosses hq.not_crosses [] hlen
  rw [flatMatch, hrun, hq.fills_eq, hq.taker_eq]
  refine ⟨by simp, rfl, fun side => ?_⟩
  by_cases hside : side = order.side.opposite
  · rw [hside, hq.after]
    exact hshows'
  · have hown : side = order.side :=
      (Side.eq_opposite_of_ne hside).trans (Side.opposite_opposite _)
    intro price
    rw [hown, hq.own, ← hm order.side price]
    refine hother _ fun o ho => ?_
    rw [ho]
    cases order.side <;> simp [Side.opposite]

theorem restsRemainder_eq (o : Order) :
    restsRemainder o = true ↔ o.isFilled = false ∧ Rests o := restsRemainder_iff

/-- **An insertion refines the reference insertion.** -/
theorem Mirrors.insertWithTime (h : book.Sound) (hm : book.Mirrors flat) {nowNs : UInt64}
    (hexp : isExpired order nowNs = false) (hk : ¬ book.Kills order) :
    (book.insertWithTime order nowNs).2 = (flatInsert flat order).2 ∧
      (book.insertWithTime order nowNs).1.Mirrors (flatInsert flat order).1 := by
  obtain ⟨hfills, htaker, hmirrors⟩ := hm.matchOrder h hk
  obtain ⟨q, hq⟩ := h.matchOrder_taker_eq order
  have hrests : restsRemainder (book.matchOrder order).taker = true ↔
      (flatMatch flat order).taker.isFilled = false ∧ Rests order := by
    rw [restsRemainder_eq, ← htaker, hq]
    rfl
  simp only [OrderBook.insertWithTime, hexp, Bool.false_eq_true, if_false, flatInsert]
  by_cases hr : restsRemainder (book.matchOrder order).taker = true
  · rw [if_pos hr, if_pos (hrests.mp hr), ← htaker]
    exact ⟨hfills, hmirrors.restOrder (h.matchOrder order) _⟩
  · rw [if_neg hr, if_neg (mt hrests.mpr hr)]
    exact ⟨hfills, hmirrors⟩

/-- An expired order and a killed one do nothing. -/
theorem insertWithTime_of_expired_or_kills {nowNs : UInt64}
    (hno : isExpired order nowNs = true ∨ book.Kills order) :
    book.insertWithTime order nowNs = (book, []) := by
  unfold OrderBook.insertWithTime
  by_cases hexp : isExpired order nowNs = true
  · rw [if_pos hexp]
  · have hk := hno.resolve_left hexp
    have hrests : restsRemainder order = false := by
      rw [← Bool.not_eq_true, restsRemainder_iff]
      exact fun hr => hr.2.2.2 hk.1
    rw [if_neg hexp, matchOrder_of_kills hk]
    simp [hrests]

end OrderBook

/-- The book and the flat list of its resting orders. -/
structure Tracked where
  book : OrderBook
  flat : List Order

namespace Tracked

open OrderBook

/-- The flat list after an insertion into the book at `nowNs`. -/
def insertFlat (t : Tracked) (order : Order) (nowNs : UInt64) : List Order :=
  if isExpired order nowNs = true ∨ t.book.Kills order then t.flat else (flatInsert t.flat order).1

/-- An operation on both: the flat list inserts by the reference matcher and forgets what the
operation withdraws. -/
def step (t : Tracked) (op : BookOp) : Tracked where
  book := t.book.step op
  flat :=
    match op with
    | .insert order => t.insertFlat order 0
    | .insertWithTime order nowNs => t.insertFlat order nowNs
    | _ => (t.book.withdrawn op).foldl List.erase t.flat

/-- The book is sound and the flat list mirrors it. -/
def Faithful (t : Tracked) : Prop := t.book.Sound ∧ t.book.Mirrors t.flat

variable {t : Tracked}

theorem Faithful.insertFlat (h : t.Faithful) (order : Order) (nowNs : UInt64) :
    (t.book.insertWithTime order nowNs).1.Mirrors (t.insertFlat order nowNs) := by
  unfold Tracked.insertFlat
  split_ifs with hno
  · rw [insertWithTime_of_expired_or_kills hno]
    exact h.2
  · obtain ⟨hexp, hk⟩ := not_or.mp hno
    exact (h.2.insertWithTime h.1 (Bool.not_eq_true _ ▸ hexp) hk).2

theorem Faithful.step (h : t.Faithful) (op : BookOp) : (t.step op).Faithful := by
  refine ⟨h.1.step op, ?_⟩
  have hwithdraws : op.Withdraws →
      (t.book.step op).Mirrors ((t.book.withdrawn op).foldl List.erase t.flat) := fun hop side => by
    rw [h.1.step_erase hop]
    exact (h.2 side).foldl_erase _
  cases op with
  | insert order => exact h.insertFlat order 0
  | insertWithTime order nowNs => exact h.insertFlat order nowNs
  | cancel id => exact hwithdraws trivial
  | purgeExpired nowNs => exact hwithdraws trivial
  | cancelAllSide side => exact hwithdraws trivial
  | cancelAll => exact hwithdraws trivial

theorem faithful_run (ops : List BookOp) : (ops.foldl Tracked.step ⟨new, []⟩).Faithful :=
  Run.invariant_foldl' Faithful (fun _ op h => h.step op)
    ⟨sound_new, fun side price => by cases side <;> rfl⟩ ops

theorem book_foldl (t : Tracked) (ops : List BookOp) :
    (ops.foldl Tracked.step t).book = ops.foldl OrderBook.step t.book := by
  induction ops generalizing t with
  | nil => rfl
  | cons op ops ih => exact ih (t.step op)

end Tracked

namespace OrderBook

/-- **Price-time priority.** After any run, an insertion that is neither expired nor killed returns
the fills of the reference matcher on the flat list of resting orders, and leaves the orders that
the reference matcher leaves, in its order at every price of both sides. The reference matcher
stops where the taker is filled or nothing crosses. -/
theorem price_time_priority (ops : List BookOp) (order : Order) (nowNs : UInt64)
    (hexp : isExpired order nowNs = false) (hk : ¬ (ops.foldl step new).Kills order) :
    let t := ops.foldl Tracked.step ⟨new, []⟩
    let r := t.book.insertWithTime order nowNs
    t.book = ops.foldl step new ∧ t.book.resting.Perm t.flat ∧
      r.2 = (flatInsert t.flat order).2 ∧
      (∀ side price, (r.1.queue side).filter (fun o => o.price = price) =
        (flatInsert t.flat order).1.filter fun o => o.side = side ∧ o.price = price) ∧
      r.1.resting.Perm (flatInsert t.flat order).1 ∧
      flatStep (flatMatch t.flat order) = none := by
  intro t r
  have hbook : t.book = ops.foldl step new := Tracked.book_foldl ⟨new, []⟩ ops
  obtain ⟨hsound, hmirrors⟩ : t.Faithful := Tracked.faithful_run ops
  obtain ⟨hfills, hafter⟩ := hmirrors.insertWithTime hsound hexp (hbook ▸ hk)
  exact ⟨hbook, hmirrors.perm hsound, hfills, fun side price => (hafter side price).symm,
    hafter.perm (hsound.insertWithTime order nowNs), flatStep_flatMatch _ _⟩

/-- A bid over two levels takes the better price first, then the older order. -/
theorem price_time_priority_two_levels :
    let ops : List BookOp := [.insert (.limit 1 .ask 100 5 0), .insert (.limit 2 .ask 100 5 1),
      .insert (.limit 3 .ask 99 2 2)]
    ((ops.foldl Tracked.step ⟨new, []⟩).book.insertWithTime (.limit 4 .bid 100 8 3) 9).2 =
      [⟨⟨3⟩, ⟨4⟩, 99, 2, 3⟩, ⟨⟨1⟩, ⟨4⟩, 100, 5, 3⟩, ⟨⟨2⟩, ⟨4⟩, 100, 1, 3⟩] :=
  (price_time_priority [.insert (.limit 1 .ask 100 5 0), .insert (.limit 2 .ask 100 5 1),
    .insert (.limit 3 .ask 99 2 2)] (.limit 4 .bid 100 8 3) 9 (by decide) (by decide)).2.2.1.trans
    (by decide)

end OrderBook

end AliceLedger
