import AliceLedger.Book.Representation
import Mathlib.Algebra.BigOperators.Ring.Finset

/-!
# The foreign interface of the book

The C functions that query a book pass its answers through one machine integer: the best prices and
the spread replace a missing answer by an end of the range of `i64`, and the number of orders is
counted up from the quantities of the depth query. So the best prices are ambiguous exactly for
orders at those ends, the spread is exact while the difference fits (`top_of_book`), and the count
is right exactly when the lots beyond one for each order cancel out (`order_count_iff`).
-/

namespace AliceLedger

/-- The greatest `usize` of a 64-bit target. -/
def usizeMax : ℕ := 2 ^ 64 - 1

/-- Best bid price, or `i64::MIN`. A null pointer is `none`. -/
def alLdgBookBestBid (book : Option OrderBook) : Int64 :=
  match book with
  | none => Int64.minValue
  | some book => book.bestBid.getD Int64.minValue

/-- Best ask price, or `i64::MAX`. -/
def alLdgBookBestAsk (book : Option OrderBook) : Int64 :=
  match book with
  | none => Int64.maxValue
  | some book => book.bestAsk.getD Int64.maxValue

/-- Bid-ask spread, or `i64::MIN`. -/
def alLdgBookSpread (book : Option OrderBook) : Int64 :=
  match book with
  | none => Int64.minValue
  | some book => book.spread.getD Int64.minValue

/-- Number of resting orders, added up as `i32` from the quantities of the levels. -/
def alLdgBookOrderCount (book : Option OrderBook) : Int32 :=
  match book with
  | none => 0
  | some book =>
    let depthBids := book.depth .bid usizeMax
    let depthAsks := book.depth .ask usizeMax
    let count := depthBids.foldl (fun count e => count + e.2.toUInt32.toInt32) 0
    depthAsks.foldl (fun count e => count + e.2.toUInt32.toInt32) count

/-! ## The order count -/

/-- Quantities counted up as `i32` are their exact sum, wrapped. -/
theorem toInt_foldl_count (es : List (Int64 × UInt64)) (count : Int32) :
    (es.foldl (fun count e => count + e.2.toUInt32.toInt32) count).toInt =
      (count.toInt + (es.map fun e => (e.2.toNat : ℤ)).sum).bmod (2 ^ 32) := by
  induction es generalizing count with
  | nil =>
    rw [List.foldl_nil, List.map_nil, List.sum_nil, add_zero]
    exact (Int.bmod_eq_of_le count.le_toInt count.toInt_lt).symm
  | cons e es ih =>
    rw [List.foldl_cons, ih, Int32.toInt_add, UInt64.toInt_toInt32, List.map_cons, List.sum_cons,
      Int.add_bmod_bmod, Int.bmod_add_bmod, add_assoc]

namespace OrderBook

variable {book : OrderBook}

/-- The lots that the cached total of a level counts beyond one for each of its orders. -/
def excess (level : PriceLevel) : ℤ := level.totalQuantity.toNat - level.orders.length

/-- The same over all levels of both sides. -/
def totalExcess (book : OrderBook) : ℤ :=
  ((book.levels .bid ++ book.levels .ask).map fun e => excess e.2).sum

/-- No more levels than orders rest on a side. -/
theorem Sound.length_levels_le (h : book.Sound) (side : Side) :
    (book.levels side).length ≤ (book.queue side).length := by
  rw [← queueOf_levels, queueOf, List.length_flatMap, ← List.length_map fun e => e.2.orders.length]
  refine List.length_le_sum_of_one_le _ fun n hn => ?_
  obtain ⟨e, he, rfl⟩ := List.mem_map.mp hn
  exact List.length_pos_iff.mpr (h.levelSound he).nonempty

/-- The totals of levels count one lot for each order and the excess. -/
theorem sum_totals (es : List (Int64 × PriceLevel)) :
    (es.map fun e => (e.2.totalQuantity.toNat : ℤ)).sum =
      (queueOf es).length + (es.map fun e => excess e.2).sum := by
  induction es with
  | nil => rfl
  | cons e es ih =>
    rw [List.map_cons, List.sum_cons, ih, queueOf_cons, List.length_append, List.map_cons,
      List.sum_cons, excess]
    push_cast
    ring

/-- **What the count is**: the number of resting orders and the excess, wrapped. -/
theorem Sound.toInt_orderCount (h : book.Sound) (hfits : book.resting.length < 2 ^ 31) :
    (alLdgBookOrderCount (some book)).toInt =
      (book.resting.length + book.totalExcess).bmod (2 ^ 32) := by
  have hall : ∀ side, book.depth side usizeMax =
      (book.levels side).map fun e => (e.1, e.2.totalQuantity) := by
    intro side
    have hle := h.length_levels_le side
    have hqueue := (resting_perm book side).length_eq
    rw [List.length_append] at hqueue
    rw [depth_eq, List.take_of_length_le]
    unfold usizeMax
    omega
  simp only [alLdgBookOrderCount]
  rw [← List.foldl_append, toInt_foldl_count, hall, hall, ← List.map_append, List.map_map,
    Int32.toInt_zero, zero_add, totalExcess, ← queueOf_levels_append, ← sum_totals]
  rfl

/-- Open orders hold one lot each and what they have beyond it. -/
theorem liquidity_eq_length_add {os : List Order} (h : AllOpen os) :
    liquidity os = os.length + (os.map fun o => o.remaining.toNat - 1).sum := by
  induction os with
  | nil => rfl
  | cons o os ih =>
    have hpos := Order.remaining_pos (h o List.mem_cons_self)
    rw [liquidity_cons, ih h.of_cons, List.length_cons, List.map_cons, List.sum_cons]
    omega

/-- On exact totals the excess is what the orders have beyond one lot each. -/
theorem Exact.totalExcess_eq (h : book.Exact) :
    book.totalExcess = ((book.resting.map fun o => o.remaining.toNat - 1).sum : ℕ) := by
  have hopen : AllOpen book.resting := fun o ho => by
    obtain ⟨side, ho⟩ := mem_resting.mp ho
    exact (mem_queue_resting h.sound ho).2
  have hexact : ((book.levels .bid ++ book.levels .ask).map fun e =>
      (e.2.totalQuantity.toNat : ℤ)).sum = (liquidity book.resting : ℕ) := by
    rw [← queueOf_levels_append, liquidity_queueOf, Nat.cast_list_sum, List.map_map]
    refine congrArg List.sum (List.map_congr_left fun e he => congrArg Nat.cast ?_)
    rcases List.mem_append.mp he with he | he
    · exact h.total_eq he
    · exact h.total_eq he
  have hsum := sum_totals (book.levels .bid ++ book.levels .ask)
  rw [hexact, queueOf_levels_append, liquidity_eq_length_add hopen] at hsum
  rw [totalExcess]
  push_cast at hsum ⊢
  omega

/-- **When the order count is right.** On every reachable book with fewer than 2^31 resting orders
the count is the number of orders resting on the two sides if and only if the lots that the cached
totals count beyond one for each order add up to a multiple of 2^32; on a run that keeps the exact
sum at every price of each side below 2^64, if and only if the lots that the resting orders have
beyond one each do. -/
theorem order_count_iff (ops : List BookOp)
    (hfits : ((ops.foldl step new).queue .bid).length + ((ops.foldl step new).queue .ask).length <
      2 ^ 31) :
    let book := ops.foldl step new
    let right := (alLdgBookOrderCount (some book)).toInt =
      (book.queue .bid).length + (book.queue .ask).length
    (right ↔ 2 ^ 32 ∣ book.totalExcess) ∧
      (Run.Throughout step SumsFit new ops →
        (right ↔ 2 ^ 32 ∣ (book.resting.map fun o => o.remaining.toNat - 1).sum)) := by
  intro book right
  have hsound : book.Sound := sound_run ops
  have hlength : book.resting.length = (book.queue .bid).length + (book.queue .ask).length :=
    List.length_append
  have hcount := hsound.toInt_orderCount (hlength ▸ hfits)
  have hright : right ↔ 2 ^ 32 ∣ book.totalExcess := by
    have hdef := Int.bmod_def (book.resting.length + book.totalExcess) (2 ^ 32)
    have hlt : (book.queue .bid).length + (book.queue .ask).length < 2 ^ 31 := hfits
    change (alLdgBookOrderCount (some book)).toInt = _ ↔ _
    rw [hcount]
    split_ifs at hdef
    · omega
    · omega
  refine ⟨hright, fun hrun => ?_⟩
  rw [hright, show book.totalExcess = _ from (exact_run hrun).totalExcess_eq]
  exact_mod_cast Iff.rfl

/-- One bid for five lots. -/
def fiveLots : List BookOp := [.insert (.limit 1 .bid 100 5 0)]

/-- It is counted as five orders. -/
theorem lots_counted_as_orders : ¬ ∀ ops : List BookOp,
    ((ops.foldl step new).queue .bid).length + ((ops.foldl step new).queue .ask).length < 2 ^ 31 →
      (alLdgBookOrderCount (some (ops.foldl step new))).toInt =
        ((ops.foldl step new).queue .bid).length + ((ops.foldl step new).queue .ask).length :=
  fun h => absurd (h fiveLots (by decide)) (by decide)

/-- A bid and an ask for one lot each are counted as two. -/
theorem order_count_iff_two :
    let book := [BookOp.insert (.limit 1 .bid 100 1 0), .insert (.limit 2 .ask 101 1 1)].foldl step
      new
    (alLdgBookOrderCount (some book)).toInt = (book.queue .bid).length + (book.queue .ask).length :=
  (order_count_iff [.insert (.limit 1 .bid 100 1 0), .insert (.limit 2 .ask 101 1 1)]
    (by decide)).1.mpr (by decide)

/-! ## The top of the book -/

/-- The first price of a side. -/
def bestPrice (book : OrderBook) (side : Side) : Option Int64 :=
  (book.levels side).head?.map Prod.fst

theorem bestBid_eq (book : OrderBook) : book.bestBid = book.bestPrice .bid := by
  rw [bestBid, bestPrice, SortedMap.keys, levels, List.head?_map, List.head?_map, Option.map_map,
    Option.map_map]
  rfl

theorem bestAsk_eq (book : OrderBook) : book.bestAsk = book.bestPrice .ask := by
  rw [bestAsk, bestPrice, SortedMap.keys, levels, List.head?_map]

/-- **The first price of a side** is that of a resting order, and no order has a better one. -/
theorem Sound.bestPrice_cases (h : book.Sound) (side : Side) :
    (book.queue side = [] ∧ book.bestPrice side = none) ∨
      ∃ o ∈ book.queue side, book.bestPrice side = some o.price ∧
        ∀ o' ∈ book.queue side, ¬ Better side o'.price o.price := by
  have hqueue := queueOf_levels book side
  have hsorted := book.levels_pairwise side
  cases hlevels : book.levels side with
  | nil =>
    rw [hlevels] at hqueue
    exact .inl ⟨hqueue.symm, by rw [bestPrice, hlevels]; rfl⟩
  | cons e es =>
    have hmem : e ∈ book.levels side := hlevels ▸ List.mem_cons_self
    obtain ⟨o, ho⟩ := List.exists_mem_of_ne_nil _ (h.levelSound hmem).nonempty
    have hprice : o.price = e.1 := ((h.levelSound hmem).resting o ho).2.1
    refine .inr ⟨o, ?_, ?_, fun o' ho' => ?_⟩
    · rw [← hqueue]
      exact mem_queueOf.mpr ⟨e, hmem, ho⟩
    · rw [bestPrice, hlevels, hprice]
      rfl
    · obtain ⟨level, hlevel, -⟩ := h.exists_level ho'
      rw [hlevels] at hsorted hlevel
      rw [hprice]
      rcases List.mem_cons.mp hlevel with heq | hrest
      · rw [← heq]
        exact fun hbetter => hbetter.asymm hbetter
      · exact ((List.pairwise_cons.mp hsorted).1 _ hrest).asymm

theorem Sound.bestPrice_eq_none_iff (h : book.Sound) {side : Side} :
    book.bestPrice side = none ↔ book.queue side = [] := by
  rcases h.bestPrice_cases side with ⟨hnil, hnone⟩ | ⟨o, ho, hsome, -⟩
  · exact iff_of_true hnone hnil
  · exact iff_of_false (by simp [hsome]) (List.ne_nil_of_mem ho)

/-- The sentinel of a side is its worst price: it answers for an empty side, and for one whose
orders are all there. -/
theorem Sound.bestPrice_getD_eq_iff (h : book.Sound) {side : Side} {worst : Int64}
    (hworst : ∀ p, ¬ Better side worst p) : (book.bestPrice side).getD worst = worst ↔
      ∀ o ∈ book.queue side, o.price = worst := by
  rcases h.bestPrice_cases side with ⟨hnil, hnone⟩ | ⟨o, ho, hsome, hbest⟩
  · rw [hnil, hnone]
    exact iff_of_true rfl fun o ho => absurd ho List.not_mem_nil
  · rw [hsome, Option.getD_some]
    constructor
    · intro heq o' ho'
      exact eq_of_not_better (heq ▸ hbest o' ho') (hworst _)
    · exact fun hall => hall o ho

/-- **The top of the book, as the foreign interface reports it.** On every reachable book the best
bid is `i64::MIN` exactly when no bid rests at another price, the best ask is `i64::MAX` exactly
when no ask does, the spread is `i64::MIN` when a side is empty, and where both sides have orders
and the best ask less the best bid fits in `i64` it is that difference, which is positive. -/
theorem top_of_book (ops : List BookOp) :
    let book := ops.foldl step new
    (alLdgBookBestBid (some book) = Int64.minValue ↔
        ∀ b ∈ book.queue .bid, b.price = Int64.minValue) ∧
      (alLdgBookBestAsk (some book) = Int64.maxValue ↔
        ∀ a ∈ book.queue .ask, a.price = Int64.maxValue) ∧
      (book.queue .bid = [] ∨ book.queue .ask = [] →
        alLdgBookSpread (some book) = Int64.minValue) ∧
      ∀ bid ask, book.bestBid = some bid → book.bestAsk = some ask →
        ask.toInt - bid.toInt < 2 ^ 63 →
          (alLdgBookSpread (some book)).toInt = ask.toInt - bid.toInt ∧
            0 < (alLdgBookSpread (some book)).toInt := by
  intro book
  have hsound : book.Sound := sound_run ops
  refine ⟨?_, ?_, ?_, ?_⟩
  · rw [alLdgBookBestBid, bestBid_eq]
    exact hsound.bestPrice_getD_eq_iff fun p => not_lt.mpr (Int64.minValue_le p)
  · rw [alLdgBookBestAsk, bestAsk_eq]
    exact hsound.bestPrice_getD_eq_iff fun p => not_lt.mpr (Int64.le_maxValue p)
  · rw [alLdgBookSpread, spread, bestAsk_eq, bestBid_eq, ← hsound.bestPrice_eq_none_iff,
      ← hsound.bestPrice_eq_none_iff]
    rintro (hnone | hnone)
    · rw [hnone]
      cases book.bestPrice .ask <;> rfl
    · rw [hnone]
      rfl
  · intro bid ask hbid hask hdiff
    have hlt : bid < ask := (never_crossed ops).2 bid ask hbid hask
    rw [Int64.lt_iff_toInt_lt] at hlt
    have hspread : (alLdgBookSpread (some book)).toInt = ask.toInt - bid.toInt := by
      rw [alLdgBookSpread, spread, hask, hbid]
      exact Int64.toInt_sub_of_fits ⟨by omega, hdiff⟩
    exact ⟨hspread, by omega⟩

/-- What an unambiguous answer for each query would say. -/
structure Unambiguous (book : OrderBook) : Prop where
  best_bid : alLdgBookBestBid (some book) = Int64.minValue → book.queue .bid = []
  best_ask : alLdgBookBestAsk (some book) = Int64.maxValue → book.queue .ask = []
  spread_empty : alLdgBookSpread (some book) = Int64.minValue →
    book.queue .bid = [] ∨ book.queue .ask = []
  spread_eq : ∀ bid ask, book.bestBid = some bid → book.bestAsk = some ask →
    (alLdgBookSpread (some book)).toInt = ask.toInt - bid.toInt ∧
      0 < (alLdgBookSpread (some book)).toInt

/-- A bid at the sentinel looks like no bid. -/
theorem bid_at_sentinel : ¬ ∀ ops : List BookOp, (ops.foldl step new).Unambiguous := fun h =>
  absurd ((h [.insert (.limit 1 .bid Int64.minValue 5 0)]).best_bid (by decide)) (by decide)

end OrderBook

end AliceLedger
