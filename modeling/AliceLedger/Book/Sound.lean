import AliceLedger.Book.Levels
import AliceLedger.Lib.Run

/-!
# What holds of every reachable book

`OrderBook.Sound` is the invariant of a book under arbitrary operations: arbitrary orders, repeated
ids, quantities that make the cached totals wrap. No level is empty, each order of a level is open
and rests at its own side and price, a cached total never exceeds the exact liquidity of its level,
and the book is not crossed.

The three primitive changes are matching, resting a remainder and cancelling one id. Each has one
lemma that says what it does to the entries of a side (`matchAgainst_eq`, `pushAt_cases`,
`cancelAt_cases`) and one rule for what holds of every level (`forall_matchAgainst`,
`forall_pushAt`, `forall_cancelAt`); the invariant follows from these, for every operation
(`Sound.step`) and for every run (`sound_run`).
-/

namespace AliceLedger

open OrderDual (toDual ofDual)

/-! ## What the primitive changes do to the entries of a side -/

section Entries

variable {K : Type*} [LinearOrder K]

/-- **Removal from a level** takes out the first order with the id, or finds none. -/
theorem removeFromLevel_cases (level : PriceLevel) (id : OrderId) :
    ((∀ o ∈ level.orders, o.id ≠ id) ∧ removeFromLevel level id = (level, none)) ∨
      ∃ pre o post, level.orders = pre ++ o :: post ∧ o.id = id ∧ (∀ x ∈ pre, x.id ≠ id) ∧
        removeFromLevel level id =
          ({ level with
            orders := pre ++ post
            totalQuantity := level.totalQuantity.saturatingSub o.remaining }, some o) := by
  cases h : level.orders.findIdx? fun o => o.id = id with
  | none =>
    refine .inl ⟨fun o ho => ?_, by simp only [removeFromLevel, h]⟩
    simpa using List.findIdx?_eq_none_iff.mp h o ho
  | some pos =>
    obtain ⟨hlt, hid, hbefore⟩ := List.findIdx?_eq_some_iff_getElem.mp h
    refine .inr ⟨level.orders.take pos, level.orders[pos], level.orders.drop (pos + 1), ?_,
      by simpa using hid, ?_, ?_⟩
    · rw [List.getElem_cons_drop, List.take_append_drop]
    · intro x hx
      obtain ⟨i, hi, rfl⟩ := List.mem_take_iff_getElem.mp hx
      simpa using hbefore i (by omega)
    · simp only [removeFromLevel, h, List.getElem?_eq_getElem hlt, List.eraseIdx_eq_take_drop_succ]

/-- **A cancellation at a key** removes the first order with the id from the level there, and the
level if that empties it; or it finds no such order and changes nothing. -/
theorem cancelAt_cases (levels : SortedMap K PriceLevel) (key : K) (id : OrderId) :
    (cancelAt levels key id = (levels, none) ∧
        ∀ level, levels.get? key = some level → ∀ o ∈ level.orders, o.id ≠ id) ∨
      ∃ before level after pre o post,
        levels.entries = before ++ (key, level) :: after ∧
        level.orders = pre ++ o :: post ∧ o.id = id ∧ (∀ x ∈ pre, x.id ≠ id) ∧
        (cancelAt levels key id).2 = some o ∧
        (cancelAt levels key id).1.entries =
          if pre ++ post = [] then before ++ after
          else before ++ (key, { level with
            orders := pre ++ post
            totalQuantity := level.totalQuantity.saturatingSub o.remaining }) :: after := by
  cases hget : levels.get? key with
  | none => exact .inl ⟨by simp only [cancelAt, hget], by simp⟩
  | some level =>
    rcases removeFromLevel_cases level id with ⟨hnone, h⟩ | ⟨pre, o, post, ho, hid, hpre, h⟩
    · refine .inl ⟨by simp only [cancelAt, hget, h], ?_⟩
      rintro _ ⟨⟩
      exact hnone
    · obtain ⟨before, after, hentries⟩ := SortedMap.exists_entries_eq hget
      have hins : ∀ level', (levels.insert key level').entries = before ++ (key, level') :: after :=
        fun level' => SortedMap.entries_insert hentries
      refine .inr ⟨before, level, after, pre, o, post, hentries, ho, hid, hpre, ?_, ?_⟩ <;>
        simp only [cancelAt, hget, h, SortedMap.get?_insert_self, Option.all_some,
          PriceLevel.isEmpty, List.isEmpty_iff]
      · split_ifs <;> rfl
      · split_ifs
        · exact SortedMap.entries_erase (hins _)
        · exact hins _

/-- **Resting at a key** pushes the order onto the level there, which is created when missing. -/
theorem pushAt_cases (levels : SortedMap K PriceLevel) (key : K) (order : Order) :
    ∃ before after, (∀ e ∈ before, e.1 < key) ∧ (∀ e ∈ after, key < e.1) ∧
      ((levels.entries = before ++ after ∧ (pushAt levels key order).entries =
          before ++ (key, (PriceLevel.new order.price).push order) :: after) ∨
        ∃ level, levels.entries = before ++ (key, level) :: after ∧
          (pushAt levels key order).entries = before ++ (key, level.push order) :: after) := by
  obtain ⟨before, after, hb, ha, h | ⟨level, h⟩⟩ := levels.exists_split key
  · refine ⟨before, after, hb, ha, .inl ⟨h, ?_⟩⟩
    rw [pushAt, SortedMap.get?_eq_none_of_entries_eq h hb ha]
    exact SortedMap.entries_insert_new h hb ha
  · refine ⟨before, after, hb, ha, .inr ⟨level, h, ?_⟩⟩
    rw [pushAt, SortedMap.get?_of_entries_eq h]
    exact SortedMap.entries_insert h

/-- The code's test on the cached totals: their sum wraps. -/
theorem canFill_eq_true_iff {takerPrice : K} (levels : SortedMap K PriceLevel) (order : Order) :
    canFill levels takerPrice order = true ↔ order.remaining.toNat ≤
      ((levels.upTo takerPrice).map fun e => e.2.totalQuantity.toNat).sum % 2 ^ 64 := by
  unfold canFill
  rw [decide_eq_true_iff, ge_iff_le, UInt64.le_iff_toNat_le, UInt64.toNat_sum, List.map_map]
  rfl

theorem canFill_eq_false_iff {takerPrice : K} (levels : SortedMap K PriceLevel) (order : Order) :
    canFill levels takerPrice order = false ↔
      ((levels.upTo takerPrice).map fun e => e.2.totalQuantity.toNat).sum % 2 ^ 64 <
        order.remaining.toNat := by
  rw [← Bool.not_eq_true, canFill_eq_true_iff, not_le]

/-- A FOK taker that the cached totals do not cover. -/
def Killed (levels : SortedMap K PriceLevel) (takerPrice : K) (taker : Order) : Prop :=
  taker.timeInForce = .fok ∧ canFill levels takerPrice taker = false

instance (levels : SortedMap K PriceLevel) (takerPrice : K) (taker : Order) :
    Decidable (Killed levels takerPrice taker) := inferInstanceAs (Decidable (_ ∧ _))

theorem matchAgainst_of_killed {takerPrice : K} {s : MatchState K}
    (h : Killed s.levels takerPrice s.taker) : matchAgainst fillLevel takerPrice s = s :=
  if_pos h

theorem matchAgainst_of_not_killed {takerPrice : K} {s : MatchState K}
    (h : ¬ Killed s.levels takerPrice s.taker) : matchAgainst fillLevel takerPrice s =
      matchLevels fillLevel ((s.levels.upTo takerPrice).map Prod.fst) s :=
  if_neg h

/-- **Matching sweeps the levels up to the taker's price** and leaves the others. -/
theorem matchAgainst_eq {levels : SortedMap K PriceLevel} (hopen : LevelsOpen levels.entries)
    {takerPrice : K} {taker : Order} (h : ¬ Killed levels takerPrice taker) (index : OrderIndex) :
    let r := sweepLevels taker (levels.upTo takerPrice)
    let t := matchAgainst fillLevel takerPrice ⟨levels, taker, [], index⟩
    t.levels.entries = r.levels ++ levels.above takerPrice ∧
      t.taker = r.taker ∧ t.fills = r.fills ∧ t.index = dropIds index r.popped := by
  have hup : LevelsOpen (levels.upTo takerPrice) := fun e he =>
    hopen e (SortedMap.mem_upTo.mp he).1
  have hrun := matchLevels_eq (s := ⟨levels, taker, [], index⟩)
    (levels.entries_eq_upTo_append takerPrice) hup
  rw [← matchAgainst_of_not_killed (s := ⟨levels, taker, [], index⟩) h] at hrun
  exact hrun

/-! ## What holds of every level

A property of levels that a primitive change keeps at the levels it changes holds of every level
after it. -/

section Rules

variable {P : K → PriceLevel → Prop} {levels : SortedMap K PriceLevel}

theorem forall_matchAgainst (h : ∀ e ∈ levels.entries, P e.1 e.2)
    (hopen : LevelsOpen levels.entries)
    (hsweep : ∀ key level taker, P key level → AllOpen level.orders →
      (sweep taker level.orders).makers ≠ [] → P key (level.afterSweep (sweep taker level.orders)))
    (takerPrice : K) (taker : Order) (index : OrderIndex) :
    ∀ e ∈ (matchAgainst fillLevel takerPrice ⟨levels, taker, [], index⟩).levels.entries,
      P e.1 e.2 := by
  by_cases hk : Killed levels takerPrice taker
  · rw [matchAgainst_of_killed (s := ⟨levels, taker, [], index⟩) hk]
    exact h
  · intro e he
    rw [(matchAgainst_eq hopen hk index).1] at he
    rcases List.mem_append.mp he with he | he
    · rcases mem_sweepLevels he with he | ⟨key, level, taker', hmem, hne, rfl⟩
      · exact h e (SortedMap.mem_upTo.mp he).1
      · have hin := (SortedMap.mem_upTo.mp hmem).1
        exact hsweep key level taker' (h (key, level) hin) (hopen (key, level) hin).2 hne
    · exact h e (SortedMap.mem_above.mp he).1

theorem forall_pushAt (h : ∀ e ∈ levels.entries, P e.1 e.2) {key : K} {order : Order}
    (hnew : P key ((PriceLevel.new order.price).push order))
    (hpush : ∀ level, P key level → P key (level.push order)) :
    ∀ e ∈ (pushAt levels key order).entries, P e.1 e.2 := by
  intro e he
  rcases (SortedMap.mem_entries_insert _ _ _).mp he with rfl | ⟨he, -⟩
  · cases hget : levels.get? key with
    | none => exact hnew
    | some level => exact hpush level (h (key, level) (SortedMap.mem_entries_iff.mpr hget))
  · exact h e he

theorem forall_cancelAt (h : ∀ e ∈ levels.entries, P e.1 e.2) {key : K}
    (hremove : ∀ level pre o post, P key level → level.orders = pre ++ o :: post →
      pre ++ post ≠ [] → P key { level with
        orders := pre ++ post
        totalQuantity := level.totalQuantity.saturatingSub o.remaining })
    (id : OrderId) : ∀ e ∈ (cancelAt levels key id).1.entries, P e.1 e.2 := by
  rcases cancelAt_cases levels key id with
    ⟨hc, -⟩ | ⟨before, level, after, pre, o, post, he, ho, -, -, -, hc⟩
  · rw [hc]
    exact h
  · have hold : ∀ e, e ∈ before ∨ e ∈ after → P e.1 e.2 := fun e hmem =>
      h e (by rw [he, List.mem_append, List.mem_cons]; tauto)
    intro e hmem
    rw [hc] at hmem
    split_ifs at hmem with hnil
    · exact hold e (List.mem_append.mp hmem)
    · rw [List.mem_append, List.mem_cons] at hmem
      rcases hmem with hmem | rfl | hmem
      · exact hold e (.inl hmem)
      · exact hremove level pre o post (h (key, level) (by rw [he]; simp)) ho hnil
      · exact hold e (.inr hmem)

end Rules

end Entries

/-! ## Sound levels -/

/-- What holds of a level of a side at a price. -/
structure LevelSound (side : Side) (price : Int64) (level : PriceLevel) : Prop where
  price_eq : level.price = price
  nonempty : level.orders ≠ []
  resting : ∀ o ∈ level.orders, o.side = side ∧ o.price = price ∧ o.isFilled = false
  total_le : level.totalQuantity.toNat ≤ liquidity level.orders

namespace LevelSound

variable {side : Side} {price : Int64} {level : PriceLevel}

theorem allOpen (h : LevelSound side price level) : AllOpen level.orders :=
  fun o ho => (h.resting o ho).2.2

theorem afterSweep (h : LevelSound side price level) {taker : Order}
    (hne : (sweep taker level.orders).makers ≠ []) :
    LevelSound side price (level.afterSweep (sweep taker level.orders)) where
  price_eq := h.price_eq
  nonempty := hne
  resting o ho := by
    have hfields := forall_sweep (p := fun o => o.side = side ∧ o.price = price) (fun _ _ h => h)
      taker (fun m hm => ⟨(h.resting m hm).1, (h.resting m hm).2.1⟩) o (List.mem_append_right _ ho)
    exact ⟨hfields.1, hfields.2, allOpen_sweep taker h.allOpen o ho⟩
  total_le := by
    have htotal := h.total_le
    have hliq := liquidity_sweep taker h.allOpen
    simp only [PriceLevel.afterSweep, toNat_foldl_saturatingSub]
    omega

theorem push {order : Order} (hprice : level.price = price)
    (hresting : ∀ o ∈ level.orders, o.side = side ∧ o.price = price ∧ o.isFilled = false)
    (htotal : level.totalQuantity.toNat ≤ liquidity level.orders)
    (ho : order.side = side ∧ order.price = price ∧ order.isFilled = false) :
    LevelSound side price (level.push order) where
  price_eq := hprice
  nonempty := by simp [PriceLevel.push]
  resting o hmem := by
    rcases List.mem_append.mp hmem with hmem | hmem
    · exact hresting o hmem
    · rw [List.mem_singleton.mp hmem]; exact ho
  total_le := by
    have := UInt64.toNat_add_le level.totalQuantity order.remaining
    simp only [PriceLevel.push, liquidity_append, liquidity_cons, liquidity_nil]
    omega

theorem remove (h : LevelSound side price level) {pre post : List Order} {o : Order}
    (ho : level.orders = pre ++ o :: post) (hne : pre ++ post ≠ []) :
    LevelSound side price { level with
      orders := pre ++ post
      totalQuantity := level.totalQuantity.saturatingSub o.remaining } where
  price_eq := h.price_eq
  nonempty := hne
  resting x hx := h.resting x (by
    rw [ho]
    rcases List.mem_append.mp hx with hx | hx
    · exact List.mem_append_left _ hx
    · exact List.mem_append_right _ (List.mem_cons_of_mem _ hx))
  total_le := by
    have := h.total_le
    simp only [ho, liquidity_append, liquidity_cons] at this
    simp only [UInt64.toNat_saturatingSub, liquidity_append]
    omega

end LevelSound

/-! ## Sound sides -/

section LevelsSound

variable {K : Type*} [LinearOrder K] {priceOf : K → Int64} {side : Side}
  {levels : SortedMap K PriceLevel}

/-- Every level of a side is sound at the price that its key stands for. -/
def LevelsSound (priceOf : K → Int64) (side : Side) (levels : SortedMap K PriceLevel) : Prop :=
  ∀ e ∈ levels.entries, LevelSound side (priceOf e.1) e.2

theorem LevelsSound.levelsOpen (h : LevelsSound priceOf side levels) :
    LevelsOpen levels.entries := fun e he => ⟨(h e he).nonempty, (h e he).allOpen⟩

theorem LevelsSound.matchAgainst (h : LevelsSound priceOf side levels) (takerPrice : K)
    (taker : Order) (index : OrderIndex) :
    LevelsSound priceOf side
      (AliceLedger.matchAgainst fillLevel takerPrice ⟨levels, taker, [], index⟩).levels :=
  @forall_matchAgainst K _ (fun key level => LevelSound side (priceOf key) level) levels h
    h.levelsOpen (fun _ _ _ hlevel _ hne => hlevel.afterSweep hne) takerPrice taker index

theorem LevelsSound.pushAt (h : LevelsSound priceOf side levels) {key : K} {order : Order}
    (hkey : priceOf key = order.price) (hside : order.side = side)
    (hopen : order.isFilled = false) :
    LevelsSound priceOf side (AliceLedger.pushAt levels key order) := by
  have ho : order.side = side ∧ order.price = priceOf key ∧ order.isFilled = false :=
    ⟨hside, hkey.symm, hopen⟩
  apply @forall_pushAt K _ (fun key level => LevelSound side (priceOf key) level) levels h
  · exact .push hkey.symm (by simp [PriceLevel.new]) (by simp [PriceLevel.new]) ho
  · exact fun level hlevel => .push hlevel.price_eq hlevel.resting hlevel.total_le ho

theorem LevelsSound.cancelAt (h : LevelsSound priceOf side levels) (key : K) (id : OrderId) :
    LevelsSound priceOf side (AliceLedger.cancelAt levels key id).1 :=
  @forall_cancelAt K _ (fun key level => LevelSound side (priceOf key) level) levels h key
    (fun _ _ _ _ hlevel ho hne => hlevel.remove ho hne) id

theorem exists_key_eq_of_mem_matchAgainst (h : LevelsSound priceOf side levels) {takerPrice : K}
    {taker : Order} {index : OrderIndex} {e : K × PriceLevel}
    (he : e ∈ (matchAgainst fillLevel takerPrice ⟨levels, taker, [], index⟩).levels.entries) :
    ∃ e₀ ∈ levels.entries, e₀.1 = e.1 :=
  @forall_matchAgainst K _ (fun key _ => ∃ e₀ ∈ levels.entries, e₀.1 = key) levels
    (fun e he => ⟨e, he, rfl⟩) h.levelsOpen (fun _ _ _ hkey _ _ => hkey) takerPrice taker index e he

/-- **A taker that is not filled leaves nothing that crosses it**, unless it was killed. -/
theorem lt_key_of_mem_matchAgainst (h : LevelsSound priceOf side levels) {takerPrice : K}
    {taker : Order} {index : OrderIndex} (hk : ¬ Killed levels takerPrice taker)
    (hopen : (matchAgainst fillLevel takerPrice ⟨levels, taker, [], index⟩).taker.isFilled = false)
    {e : K × PriceLevel}
    (he : e ∈ (matchAgainst fillLevel takerPrice ⟨levels, taker, [], index⟩).levels.entries) :
    takerPrice < e.1 := by
  obtain ⟨hentries, htaker, -, -⟩ := matchAgainst_eq h.levelsOpen hk index
  rw [htaker] at hopen
  rw [hentries, sweepLevels_levels_eq_nil hopen, List.nil_append] at he
  exact (SortedMap.mem_above.mp he).2

/-- Matching changes only the filled quantity of the taker. -/
theorem matchAgainst_taker_eq (h : LevelsSound priceOf side levels) (takerPrice : K)
    (taker : Order) (index : OrderIndex) :
    ∃ q, (matchAgainst fillLevel takerPrice ⟨levels, taker, [], index⟩).taker =
      { taker with filledQuantity := q } := by
  by_cases hk : Killed levels takerPrice taker
  · rw [matchAgainst_of_killed (s := ⟨levels, taker, [], index⟩) hk]
    exact ⟨taker.filledQuantity, rfl⟩
  · rw [(matchAgainst_eq h.levelsOpen hk index).2.1]
    have hsweep := sweep_queueOf taker (levels.upTo takerPrice)
    have htaker := sweep_taker_eq taker (queueOf (levels.upTo takerPrice))
    rw [hsweep] at htaker
    exact htaker

theorem exists_key_eq_of_mem_pushAt {key : K} {order : Order} {e : K × PriceLevel}
    (he : e ∈ (AliceLedger.pushAt levels key order).entries) :
    e.1 = key ∨ ∃ e₀ ∈ levels.entries, e₀.1 = e.1 := by
  rcases (SortedMap.mem_entries_insert _ _ _).mp he with rfl | ⟨he, -⟩
  · exact .inl rfl
  · exact .inr ⟨e, he, rfl⟩

theorem exists_key_eq_of_mem_cancelAt {key : K} {id : OrderId} {e : K × PriceLevel}
    (he : e ∈ (AliceLedger.cancelAt levels key id).1.entries) :
    ∃ e₀ ∈ levels.entries, e₀.1 = e.1 :=
  @forall_cancelAt K _ (fun key _ => ∃ e₀ ∈ levels.entries, e₀.1 = key) levels
    (fun e he => ⟨e, he, rfl⟩) key (fun _ _ _ _ hkey _ _ => hkey) id e he

end LevelsSound

/-! ## Sound books -/

namespace OrderBook

/-- The resting orders of a side in price-time priority. -/
def queue (book : OrderBook) : Side → List Order
  | .bid => queueOf book.bids.entries
  | .ask => queueOf book.asks.entries

/-- What holds of every reachable book. -/
structure Sound (book : OrderBook) : Prop where
  bids : LevelsSound ofDual .bid book.bids
  asks : LevelsSound (fun price => price) .ask book.asks
  uncrossed : ∀ b ∈ book.bids.entries, ∀ a ∈ book.asks.entries, ofDual b.1 < a.1

theorem sound_new : new.Sound where
  bids := fun _ he => absurd he (by simp [new])
  asks := fun _ he => absurd he (by simp [new])
  uncrossed := fun _ he => absurd he (by simp [new])

theorem restsRemainder_iff {o : Order} : restsRemainder o = true ↔
    o.isFilled = false ∧ o.orderType ≠ .market ∧ o.timeInForce ≠ .ioc ∧ o.timeInForce ≠ .fok := by
  unfold restsRemainder
  cases o.isFilled <;> cases o.orderType <;> cases o.timeInForce <;> simp

/-- An order that rests has its own price as its limit. -/
theorem takerPrice_of_ne_market {o : Order} (h : o.orderType ≠ .market) :
    bidTakerPrice o = o.price ∧ askTakerPrice o = o.price := by
  unfold bidTakerPrice askTakerPrice
  cases ho : o.orderType with
  | market => exact absurd ho h
  | limit => exact ⟨rfl, rfl⟩
  | stopLimit => exact ⟨rfl, rfl⟩

variable {book : OrderBook} {order : Order}

/-- The match of a bid against the asks. -/
def againstAsks (book : OrderBook) (order : Order) : MatchState Int64 :=
  matchAgainst fillLevel (bidTakerPrice order) ⟨book.asks, order, [], book.orderIndex⟩

/-- The match of an ask against the bids. -/
def againstBids (book : OrderBook) (order : Order) : MatchState Int64ᵒᵈ :=
  matchAgainst fillLevel (toDual (askTakerPrice order)) ⟨book.bids, order, [], book.orderIndex⟩

theorem matchOrder_of_bid (h : order.side = .bid) : book.matchOrder order =
    ⟨⟨book.bids, (book.againstAsks order).levels, (book.againstAsks order).index⟩,
      (book.againstAsks order).taker, (book.againstAsks order).fills⟩ := by
  rw [matchOrder, h]; rfl

theorem matchOrder_of_ask (h : order.side = .ask) : book.matchOrder order =
    ⟨⟨(book.againstBids order).levels, book.asks, (book.againstBids order).index⟩,
      (book.againstBids order).taker, (book.againstBids order).fills⟩ := by
  rw [matchOrder, h]; rfl

theorem Sound.matchOrder_taker_eq (h : book.Sound) (order : Order) :
    ∃ q, (book.matchOrder order).taker = { order with filledQuantity := q } := by
  rcases order.side_eq_bid_or_ask with hs | hs
  · rw [matchOrder_of_bid hs]
    exact matchAgainst_taker_eq h.asks _ _ _
  · rw [matchOrder_of_ask hs]
    exact matchAgainst_taker_eq h.bids _ _ _

theorem Sound.matchOrder (h : book.Sound) (order : Order) : (book.matchOrder order).book.Sound := by
  rcases order.side_eq_bid_or_ask with hs | hs
  · rw [matchOrder_of_bid hs]
    refine ⟨h.bids, h.asks.matchAgainst _ _ _, fun b hb a ha => ?_⟩
    obtain ⟨a₀, ha₀, heq⟩ := exists_key_eq_of_mem_matchAgainst h.asks ha
    exact heq ▸ h.uncrossed b hb a₀ ha₀
  · rw [matchOrder_of_ask hs]
    refine ⟨h.bids.matchAgainst _ _ _, h.asks, fun b hb a ha => ?_⟩
    obtain ⟨b₀, hb₀, heq⟩ := exists_key_eq_of_mem_matchAgainst h.bids hb
    exact heq ▸ h.uncrossed b₀ hb₀ a ha

/-- **A remainder that may rest crosses nothing that is left.** -/
theorem Sound.matchOrder_exhausts (h : book.Sound)
    (hrests : restsRemainder (book.matchOrder order).taker = true) :
    (order.side = .bid → ∀ a ∈ (book.matchOrder order).book.asks.entries, order.price < a.1) ∧
      (order.side = .ask →
        ∀ b ∈ (book.matchOrder order).book.bids.entries, ofDual b.1 < order.price) := by
  obtain ⟨hopen, htype, -, hfok⟩ := restsRemainder_iff.mp hrests
  obtain ⟨q, hq⟩ := h.matchOrder_taker_eq order
  rw [hq] at htype hfok
  obtain ⟨hbid, hask⟩ := takerPrice_of_ne_market htype
  constructor
  · intro hs a ha
    rw [matchOrder_of_bid hs] at hopen ha
    have hk : ¬ Killed book.asks (bidTakerPrice order) order := fun hk => hfok hk.1
    have hlt := lt_key_of_mem_matchAgainst h.asks hk hopen ha
    rwa [show bidTakerPrice order = order.price from hbid] at hlt
  · intro hs b hb
    rw [matchOrder_of_ask hs] at hopen hb
    have hk : ¬ Killed book.bids (toDual (askTakerPrice order)) order := fun hk => hfok hk.1
    have hlt := lt_key_of_mem_matchAgainst h.bids hk hopen hb
    rwa [show askTakerPrice order = order.price from hask] at hlt

theorem restOrder_of_bid (h : order.side = .bid) :
    book.restOrder order = ⟨pushAt book.bids (toDual order.price) order, book.asks,
      book.orderIndex.insert order.id (order.side, order.price)⟩ := by
  rw [restOrder, h]

theorem restOrder_of_ask (h : order.side = .ask) :
    book.restOrder order = ⟨book.bids, pushAt book.asks order.price order,
      book.orderIndex.insert order.id (order.side, order.price)⟩ := by
  rw [restOrder, h]

/-- Resting an open order that crosses nothing. -/
theorem Sound.restOrder (h : book.Sound) (hopen : order.isFilled = false)
    (hbid : order.side = .bid → ∀ a ∈ book.asks.entries, order.price < a.1)
    (hask : order.side = .ask → ∀ b ∈ book.bids.entries, ofDual b.1 < order.price) :
    (book.restOrder order).Sound := by
  rcases order.side_eq_bid_or_ask with hs | hs
  · rw [restOrder_of_bid hs]
    refine ⟨h.bids.pushAt rfl hs hopen, h.asks, fun b hb a ha => ?_⟩
    rcases exists_key_eq_of_mem_pushAt hb with hkey | ⟨b₀, hb₀, hkey⟩
    · rw [hkey]
      exact hbid hs a ha
    · exact hkey ▸ h.uncrossed b₀ hb₀ a ha
  · rw [restOrder_of_ask hs]
    refine ⟨h.bids, h.asks.pushAt rfl hs hopen, fun b hb a ha => ?_⟩
    rcases exists_key_eq_of_mem_pushAt ha with hkey | ⟨a₀, ha₀, hkey⟩
    · rw [hkey]
      exact hask hs b hb
    · exact hkey ▸ h.uncrossed b hb a₀ ha₀

theorem Sound.insertWithTime (h : book.Sound) (order : Order) (nowNs : UInt64) :
    (book.insertWithTime order nowNs).1.Sound := by
  unfold OrderBook.insertWithTime
  by_cases hexp : isExpired order nowNs = true
  · rwa [if_pos hexp]
  · rw [if_neg hexp]
    by_cases hrests : restsRemainder (book.matchOrder order).taker = true
    · simp only [hrests, if_true]
      obtain ⟨hbid, hask⟩ := h.matchOrder_exhausts hrests
      obtain ⟨q, hq⟩ := h.matchOrder_taker_eq order
      have hopen := (restsRemainder_iff.mp hrests).1
      rw [hq] at hopen ⊢
      exact (h.matchOrder order).restOrder hopen hbid hask
    · simp only [hrests]
      exact h.matchOrder order

theorem Sound.cancel (h : book.Sound) (id : OrderId) : (book.cancel id).1.Sound := by
  unfold OrderBook.cancel
  split
  · exact h
  · rename_i side price _
    cases side with
    | bid =>
      refine ⟨h.bids.cancelAt _ _, h.asks, fun b hb a ha => ?_⟩
      obtain ⟨b₀, hb₀, heq⟩ := exists_key_eq_of_mem_cancelAt hb
      exact heq ▸ h.uncrossed b₀ hb₀ a ha
    | ask =>
      refine ⟨h.bids, h.asks.cancelAt _ _, fun b hb a ha => ?_⟩
      obtain ⟨a₀, ha₀, heq⟩ := exists_key_eq_of_mem_cancelAt ha
      exact heq ▸ h.uncrossed b hb a₀ ha₀

/-! ## Invariants of runs -/

/-- A property that every cancellation keeps is kept by cancelling a list of ids. -/
theorem cancelIds_invariant (Inv : OrderBook → Prop)
    (hcancel : ∀ book id, Inv book → Inv (book.cancel id).1) (h : Inv book) (ids : List OrderId) :
    Inv (book.cancelIds ids).1 := by
  induction ids generalizing book with
  | nil => exact h
  | cons id ids ih => exact ih (hcancel book id h)

/-- **The invariant rule of the book**: what insertions and cancellations keep, every operation
keeps. -/
theorem step_invariant (Inv : OrderBook → Prop)
    (hinsert : ∀ book order nowNs, Inv book → Inv (book.insertWithTime order nowNs).1)
    (hcancel : ∀ book id, Inv book → Inv (book.cancel id).1) (h : Inv book) (op : BookOp) :
    Inv (book.step op) := by
  cases op with
  | insert order => exact hinsert book order 0 h
  | insertWithTime order nowNs => exact hinsert book order nowNs h
  | cancel id => exact hcancel book id h
  | purgeExpired nowNs => exact cancelIds_invariant Inv hcancel h _
  | cancelAllSide side => exact cancelIds_invariant Inv hcancel h _
  | cancelAll => exact cancelIds_invariant Inv hcancel (cancelIds_invariant Inv hcancel h _) _

theorem Sound.step (h : book.Sound) (op : BookOp) : (book.step op).Sound :=
  step_invariant Sound (fun _ order nowNs h => h.insertWithTime order nowNs)
    (fun _ id h => h.cancel id) h op

/-- **Every reachable book is sound.** -/
theorem sound_run (ops : List BookOp) : (ops.foldl OrderBook.step new).Sound :=
  Run.invariant_foldl' Sound (fun _ op h => h.step op) sound_new ops

/-- **The book is never crossed or locked.** -/
theorem never_crossed (ops : List BookOp) :
    let book := ops.foldl OrderBook.step new
    (∀ b ∈ book.queue .bid, ∀ a ∈ book.queue .ask, b.price < a.price) ∧
      ∀ bid ask, book.bestBid = some bid → book.bestAsk = some ask → bid < ask := by
  intro book
  have h : book.Sound := sound_run ops
  constructor
  · intro b hb a ha
    obtain ⟨eb, heb, hb⟩ := mem_queueOf.mp hb
    obtain ⟨ea, hea, ha⟩ := mem_queueOf.mp ha
    rw [((h.bids eb heb).resting b hb).2.1, ((h.asks ea hea).resting a ha).2.1]
    exact h.uncrossed eb heb ea hea
  · intro bid ask hbid hask
    simp only [bestBid, bestAsk, SortedMap.keys, List.head?_map, Option.map_map,
      Option.map_eq_some_iff] at hbid hask
    obtain ⟨eb, heb, rfl⟩ := hbid
    obtain ⟨ea, hea, rfl⟩ := hask
    exact h.uncrossed eb (List.mem_of_mem_head? heb) ea (List.mem_of_mem_head? hea)

end OrderBook

end AliceLedger
