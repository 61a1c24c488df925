import AliceLedger.Book.Queue

/-!
# Insertions without a trade

An order is *quiet* on a book when its insertion trades nothing: it is filled already, it crosses
nothing, or it is killed (`Sound.fills_insert_eq_nil_iff`). A quiet insertion only rests the order
(`Sound.insert_of_quiet`). So a list of orders is inserted without a trade exactly when each of them
is quiet against the orders before it that rest (`fills_insertAll_eq_nil_iff`), and the book is then
those orders, with totals that are the wrapping sums of what is open.
-/

namespace AliceLedger

open OrderDual (toDual ofDual)

section Side

variable {K : Type*} [LinearOrder K] {priceOf : K → Int64} {side : Side}
  {levels : SortedMap K PriceLevel} {takerPrice : K}

theorem liquidity_perm {os os' : List Order} (h : os.Perm os') : liquidity os = liquidity os' :=
  (h.map _).sum_nat

/-! ## Totals that wrap -/

/-- Every cached total is what its level holds, up to wrapping. -/
def TotalsWrap (levels : SortedMap K PriceLevel) : Prop :=
  ∀ e ∈ levels.entries, e.2.totalQuantity.toNat = liquidity e.2.orders % 2 ^ 64

omit [LinearOrder K] in
theorem sum_totalQuantity_mod {es : List (K × PriceLevel)}
    (h : ∀ e ∈ es, e.2.totalQuantity.toNat = liquidity e.2.orders % 2 ^ 64) :
    (es.map fun e => e.2.totalQuantity.toNat).sum % 2 ^ 64 = liquidity (queueOf es) % 2 ^ 64 := by
  induction es with
  | nil => rfl
  | cons e es ih =>
    have htail := ih fun e he => h e (List.mem_cons_of_mem _ he)
    rw [List.map_cons, List.sum_cons, queueOf_cons, liquidity_append, Nat.add_mod, htail,
      h e List.mem_cons_self, Nat.mod_mod, ← Nat.add_mod]

theorem TotalsWrap.pushAt (h : TotalsWrap levels) (key : K) (order : Order) :
    TotalsWrap (AliceLedger.pushAt levels key order) := by
  have hpush : ∀ level : PriceLevel, level.totalQuantity.toNat = liquidity level.orders % 2 ^ 64 →
      (level.push order).totalQuantity.toNat = liquidity (level.push order).orders % 2 ^ 64 := by
    intro level hlevel
    have := order.remaining.toNat_lt_two_pow
    simp only [PriceLevel.push, liquidity_append, liquidity_cons, liquidity_nil, UInt64.toNat_add,
      hlevel]
    omega
  exact @forall_pushAt K _
    (fun _ level => level.totalQuantity.toNat = liquidity level.orders % 2 ^ 64)
    levels h key order (hpush _ rfl) hpush

theorem TotalsWrap.canFill_eq_false_iff (h : TotalsWrap levels) (order : Order) :
    canFill levels takerPrice order = false ↔
      liquidity (queueOf (levels.upTo takerPrice)) % 2 ^ 64 < order.remaining.toNat := by
  rw [AliceLedger.canFill_eq_false_iff,
    sum_totalQuantity_mod fun e he => h e (SortedMap.mem_upTo.mp he).1]

/-! ## Matching that does nothing -/

theorem upTo_eq_nil (h : LevelsSound priceOf side levels)
    (hnil : queueOf (levels.upTo takerPrice) = []) : levels.upTo takerPrice = [] := by
  refine List.eq_nil_iff_forall_not_mem.mpr fun e he => ?_
  obtain ⟨o, ho⟩ := List.exists_mem_of_ne_nil _ (h e (SortedMap.mem_upTo.mp he).1).nonempty
  have hmem : o ∈ queueOf (levels.upTo takerPrice) := mem_queueOf.mpr ⟨e, he, ho⟩
  rw [hnil] at hmem
  exact absurd hmem List.not_mem_nil

/-- Matching a filled taker, or one without levels in reach, changes nothing. -/
theorem matchAgainst_of_quiet {s : MatchState K}
    (h : s.taker.isFilled = true ∨ s.levels.upTo takerPrice = []) :
    matchAgainst fillLevel takerPrice s = s := by
  by_cases hk : Killed s.levels takerPrice s.taker
  · exact matchAgainst_of_killed hk
  · rw [matchAgainst_of_not_killed hk]
    rcases h with hfilled | hnil
    · exact matchLevels_of_filled hfilled _
    · rw [hnil]; rfl

end Side

/-! ## Quiet orders -/

namespace OrderBook

variable {book : OrderBook} {order : Order}

/-- An order that trades nothing: it is filled, crosses nothing or is killed. -/
def Quiet (book : OrderBook) (order : Order) : Prop :=
  order.isFilled = true ∨ book.crossing order = [] ∨ book.Kills order

/-- **Matching a quiet order changes nothing.** -/
theorem Sound.matchOrder_of_quiet (h : book.Sound) (hq : book.Quiet order) :
    book.matchOrder order = ⟨book, order, []⟩ := by
  rcases hq with hfilled | hnil | hk
  · rcases order.side_eq_bid_or_ask with hs | hs
    · rw [matchOrder_of_bid hs, againstAsks, matchAgainst_of_quiet (.inl hfilled)]
    · rw [matchOrder_of_ask hs, againstBids, matchAgainst_of_quiet (.inl hfilled)]
  · rcases order.side_eq_bid_or_ask with hs | hs
    · rw [h.crossing_of_bid hs] at hnil
      rw [matchOrder_of_bid hs, againstAsks, matchAgainst_of_quiet (.inr (upTo_eq_nil h.asks hnil))]
    · rw [h.crossing_of_ask hs] at hnil
      rw [matchOrder_of_ask hs, againstBids, matchAgainst_of_quiet (.inr (upTo_eq_nil h.bids hnil))]
  · exact matchOrder_of_kills hk

theorem isExpired_zero (order : Order) : isExpired order 0 = false := by
  unfold isExpired
  cases order.timeInForce <;> rfl

/-- **A quiet insertion only rests the order.** -/
theorem Sound.insert_of_quiet (h : book.Sound) (hq : book.Quiet order) :
    book.insert order = (if restsRemainder order then book.restOrder order else book, []) := by
  rw [insert, OrderBook.insertWithTime, isExpired_zero, if_neg Bool.false_ne_true,
    h.matchOrder_of_quiet hq]
  dsimp only
  split_ifs <;> rfl

/-- **An insertion trades nothing exactly when the order is expired or quiet.** -/
theorem Sound.fills_insertWithTime_eq_nil_iff (h : book.Sound) (order : Order) (nowNs : UInt64) :
    (book.insertWithTime order nowNs).2 = [] ↔
      isExpired order nowNs = true ∨ book.Quiet order := by
  rw [h.fills_insertWithTime]
  by_cases hno : isExpired order nowNs = true ∨ book.Kills order
  · rw [if_pos hno]
    exact iff_of_true rfl (hno.imp_right fun hk => .inr (.inr hk))
  · rw [if_neg hno]
    obtain ⟨hexp, hk⟩ := not_or.mp hno
    constructor
    · intro hnil
      have hreach := lt_length_fills_sweep order (h.allOpen_crossing order) 0
      rw [hnil, List.take_zero, liquidity_nil] at hreach
      cases hfilled : order.isFilled with
      | true => exact .inr (.inl hfilled)
      | false =>
        refine .inr (.inr (.inl (List.length_eq_zero_iff.mp ?_)))
        have hpos := Order.remaining_pos hfilled
        rw [← Order.openQuantity_eq hfilled] at hpos
        simp only [List.length_nil] at hreach
        omega
    · rintro (hexpired | hfilled | hnil | hkilled)
      · exact absurd hexpired hexp
      · rw [sweep_of_filled hfilled]
      · rw [hnil, sweep_nil]
      · exact absurd hkilled hk

/-- **An insertion trades nothing exactly when the order is quiet.** -/
theorem Sound.fills_insert_eq_nil_iff (h : book.Sound) (order : Order) :
    (book.insert order).2 = [] ↔ book.Quiet order := by
  rw [insert, h.fills_insertWithTime_eq_nil_iff, isExpired_zero]
  exact or_iff_right Bool.false_ne_true

/-! ## Lists of orders -/

/-- Insert the orders of a list in turn and collect the fills. -/
def insertAll (book : OrderBook) : List Order → OrderBook × List Fill
  | [] => (book, [])
  | order :: orders =>
    let (book, fills) := book.insert order
    let (book, fills') := book.insertAll orders
    (book, fills ++ fills')

/-- The orders of a list that rest when none of them trades. -/
def restingOf (orders : List Order) : List Order := orders.filter fun o => restsRemainder o

/-- The resting orders of a list that a later order crosses. -/
def opposing (earlier : List Order) (order : Order) : List Order :=
  (restingOf earlier).filter fun m => m.side = order.side.opposite ∧ Crosses order m

/-- An order that trades nothing with the resting orders of a list: it is filled, crosses none of
them, or is a FOK order that the wrapping sum of their open quantities does not cover. -/
def QuietAgainst (earlier : List Order) (order : Order) : Prop :=
  order.isFilled = true ∨ opposing earlier order = [] ∨
    order.timeInForce = .fok ∧ liquidity (opposing earlier order) % 2 ^ 64 < order.remaining.toNat

instance (earlier : List Order) (order : Order) : Decidable (QuietAgainst earlier order) :=
  inferInstanceAs (Decidable (_ ∨ _ ∨ _ ∧ _))

/-- A book that holds the resting orders of a list, none of which has traded. -/
structure Holds (book : OrderBook) (orders : List Order) : Prop where
  sound : book.Sound
  queue_perm : ∀ side, (book.queue side).Perm ((restingOf orders).filter fun o => o.side = side)
  bids_wrap : TotalsWrap book.bids
  asks_wrap : TotalsWrap book.asks

theorem holds_new : new.Holds [] where
  sound := sound_new
  queue_perm side := by cases side <;> exact .refl _
  bids_wrap _ he := absurd he (by simp [new])
  asks_wrap _ he := absurd he (by simp [new])

variable {orders earlier : List Order}

/-- **A kill compares the open quantity that an order crosses**, up to wrapping. -/
theorem Holds.kills_iff (h : book.Holds earlier) (order : Order) : book.Kills order ↔
    order.timeInForce = .fok ∧
      liquidity (book.crossing order) % 2 ^ 64 < order.remaining.toNat := by
  unfold Kills
  refine and_congr_right fun _ => ?_
  rcases order.side_eq_bid_or_ask with hs | hs
  · rw [hs, h.sound.crossing_of_bid hs]
    exact h.asks_wrap.canFill_eq_false_iff order
  · rw [hs, h.sound.crossing_of_ask hs]
    exact h.bids_wrap.canFill_eq_false_iff order

theorem Holds.crossing_perm (h : book.Holds earlier) (order : Order) :
    (book.crossing order).Perm (opposing earlier order) := by
  refine ((h.queue_perm order.side.opposite).filter _).trans (.of_eq ?_)
  rw [List.filter_filter, opposing]
  congr 1
  funext m
  simp [and_comm]

theorem Holds.quiet_iff (h : book.Holds earlier) (order : Order) :
    book.Quiet order ↔ QuietAgainst earlier order := by
  have hperm := h.crossing_perm order
  unfold Quiet QuietAgainst
  rw [h.kills_iff, liquidity_perm hperm, ← List.length_eq_zero_iff, hperm.length_eq,
    List.length_eq_zero_iff]

/-- **A quiet insertion keeps the book the orders that rest.** -/
theorem Holds.insert (h : book.Holds earlier) (hq : book.Quiet order) :
    (book.insert order).1.Holds (earlier ++ [order]) := by
  have hsound := h.sound.insertWithTime order 0
  rw [show book.insertWithTime order 0 = _ from h.sound.insert_of_quiet hq] at hsound
  rw [h.sound.insert_of_quiet hq]
  have hrest : restingOf (earlier ++ [order]) =
      restingOf earlier ++ if restsRemainder order = true then [order] else [] := by
    rw [restingOf, List.filter_append, ← restingOf, List.filter_singleton,
      Bool.cond_eq_ite]
  cases hr : restsRemainder order with
  | false =>
    rw [hr, if_neg Bool.false_ne_true, List.append_nil] at hrest
    exact ⟨h.sound, fun side => hrest ▸ h.queue_perm side, h.bids_wrap, h.asks_wrap⟩
  | true =>
    rw [hr, if_pos rfl] at hrest
    rw [hr] at hsound
    obtain ⟨hother, hown, -⟩ := h.sound.restOrder_queue order
    refine ⟨hsound, fun side => ?_, ?_, ?_⟩
    · rw [hrest, List.filter_append]
      by_cases hs : order.side = side
      · subst hs
        rw [List.filter_cons_of_pos (by simp), List.filter_nil]
        have hcons := hown.trans ((h.queue_perm order.side).cons order)
        exact hcons.trans (List.perm_append_singleton _ _).symm
      · have hs' := Side.eq_opposite_of_ne (Ne.symm hs)
        rw [List.filter_cons_of_neg (by simpa using hs), List.filter_nil, List.append_nil, hs']
        exact hother ▸ h.queue_perm _
    · rcases order.side_eq_bid_or_ask with hs | hs
      · rw [if_pos rfl, restOrder_of_bid hs]
        exact h.bids_wrap.pushAt _ _
      · rw [if_pos rfl, restOrder_of_ask hs]
        exact h.bids_wrap
    · rcases order.side_eq_bid_or_ask with hs | hs
      · rw [if_pos rfl, restOrder_of_bid hs]
        exact h.asks_wrap
      · rw [if_pos rfl, restOrder_of_ask hs]
        exact h.asks_wrap.pushAt _ _

/-- The list rule from a book that holds the orders before it. -/
theorem Holds.fills_insertAll_eq_nil_iff (h : book.Holds earlier) (orders : List Order) :
    (book.insertAll orders).2 = [] ↔
      ∀ pre order post, orders = pre ++ order :: post → QuietAgainst (earlier ++ pre) order := by
  induction orders generalizing book earlier with
  | nil => simp [insertAll]
  | cons o orders ih =>
    have hhead : (book.insert o).2 = [] ↔ QuietAgainst earlier o :=
      (h.sound.fills_insert_eq_nil_iff o).trans (h.quiet_iff o)
    simp only [insertAll, List.append_eq_nil_iff]
    rw [hhead]
    constructor
    · rintro ⟨hq, hrest⟩ pre order post heq
      have hrest := (ih (h.insert ((h.quiet_iff o).mpr hq))).mp hrest
      cases pre with
      | nil =>
        obtain ⟨rfl, -⟩ := List.cons.inj heq
        rwa [List.append_nil]
      | cons x pre =>
        obtain ⟨rfl, htail⟩ := List.cons.inj heq
        have := hrest pre order post htail
        rwa [List.append_assoc] at this
    · intro hall
      have hq : QuietAgainst earlier o := by
        have := hall [] o orders rfl
        rwa [List.append_nil] at this
      refine ⟨hq, (ih (h.insert ((h.quiet_iff o).mpr hq))).mpr fun pre order post heq => ?_⟩
      rw [List.append_assoc]
      exact hall (o :: pre) order post (by rw [heq]; rfl)

/-- **When a list of orders trades nothing** on an empty book: each order is quiet against those
before it. -/
theorem fills_insertAll_eq_nil_iff (orders : List Order) : (new.insertAll orders).2 = [] ↔
    ∀ pre order post, orders = pre ++ order :: post → QuietAgainst pre order :=
  holds_new.fills_insertAll_eq_nil_iff orders

end OrderBook

end AliceLedger
