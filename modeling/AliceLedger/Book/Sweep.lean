import AliceLedger.Book.Model
import Mathlib.Algebra.BigOperators.Group.List.Basic
import Mathlib.Tactic.Ring

/-!
# The sweep of a queue by a taker

`sweep taker makers` is what the two nested loops of the matching engine compute, on one queue of
makers in priority order: the taker trades with the makers in turn until it is filled or the queue
is used up, makers that are filled leave the queue, and at most the head of what is left is
partially filled.

* `fillLevel_eq`: the loop over the front of one level is a sweep of its queue, when every order
  in it is open; `run_fillStep_eq`: the loop ends, on any level, within the passes it is given.

What a sweep does to quantities is `sweep_spec` (the taker stays within its quantity, and is
filled unless the queue is used up), `liquidity_sweep` and `traded_sweep`. The `i`-th fill is the
trade with the `i`-th maker (`fills_sweep_get`), and that maker is reached exactly when the
liquidity ahead of it does not fill the taker (`lt_length_fills_sweep`).
-/

namespace AliceLedger

/-- The exact open quantity of a queue. -/
def liquidity (orders : List Order) : ℕ := (orders.map fun o => o.remaining.toNat).sum

@[simp] theorem liquidity_nil : liquidity [] = 0 := rfl

@[simp] theorem liquidity_cons (o : Order) (os : List Order) :
    liquidity (o :: os) = o.remaining.toNat + liquidity os := by
  simp [liquidity]

@[simp] theorem liquidity_append (os os' : List Order) :
    liquidity (os ++ os') = liquidity os + liquidity os' := by
  simp [liquidity]

/-- The quantity traded in a list of fills. -/
def traded (fills : List Fill) : ℕ := (fills.map fun f => f.quantity.toNat).sum

@[simp] theorem traded_nil : traded [] = 0 := rfl

@[simp] theorem traded_cons (f : Fill) (fs : List Fill) :
    traded (f :: fs) = f.quantity.toNat + traded fs := by
  simp [traded]

@[simp] theorem traded_append (fs fs' : List Fill) :
    traded (fs ++ fs') = traded fs + traded fs' := by
  simp [traded]

/-- Every order of a queue is open: it has something left to trade. -/
def AllOpen (orders : List Order) : Prop := ∀ o ∈ orders, o.isFilled = false

theorem AllOpen.of_cons {o : Order} {os : List Order} (h : AllOpen (o :: os)) : AllOpen os :=
  fun a ha => h a (List.mem_cons_of_mem _ ha)

/-! ## One trade -/

/-- The quantity that a taker trades with a maker. -/
def tradeQty (taker maker : Order) : UInt64 := min taker.remaining maker.remaining

/-- The record of their trade. -/
def tradeFill (taker maker : Order) : Fill :=
  ⟨maker.id, taker.id, maker.price, tradeQty taker maker, taker.timestampNs⟩

section Trade

variable {taker maker : Order}

theorem toNat_tradeQty (taker maker : Order) :
    (tradeQty taker maker).toNat = min taker.remaining.toNat maker.remaining.toNat :=
  UInt64.toNat_min _ _

theorem tradeQty_le_taker (taker maker : Order) :
    (tradeQty taker maker).toNat ≤ taker.remaining.toNat := by
  rw [toNat_tradeQty]; exact min_le_left _ _

theorem tradeQty_le_maker (taker maker : Order) :
    (tradeQty taker maker).toNat ≤ maker.remaining.toNat := by
  rw [toNat_tradeQty]; exact min_le_right _ _

theorem tradeQty_pos (ht : taker.isFilled = false) (hm : maker.isFilled = false) :
    0 < (tradeQty taker maker).toNat := by
  rw [toNat_tradeQty]
  exact lt_min (Order.remaining_pos ht) (Order.remaining_pos hm)

theorem tradeQty_ne_zero (ht : taker.isFilled = false) (hm : maker.isFilled = false) :
    tradeQty taker maker ≠ 0 := fun h => by
  have := tradeQty_pos ht hm
  rw [h] at this
  exact lt_irrefl _ this

/-- Trading all that remains fills an order, whatever its quantities: the wrapping sum is exact. -/
theorem isFilled_addFilled_remaining (o : Order) : (o.addFilled o.remaining).isFilled = true := by
  have h : o.filledQuantity + (o.quantity - o.filledQuantity) = o.quantity := by
    rw [UInt64.add_comm, UInt64.sub_add_cancel]
  simp [Order.isFilled, Order.addFilled, Order.remaining, h]

/-- A trade fills the taker or the maker. -/
theorem isFilled_of_trade (taker maker : Order) :
    (taker.addFilled (tradeQty taker maker)).isFilled = true ∨
      (maker.addFilled (tradeQty taker maker)).isFilled = true := by
  unfold tradeQty
  rcases le_total taker.remaining maker.remaining with h | h
  · rw [min_eq_left h]
    exact .inl (isFilled_addFilled_remaining taker)
  · rw [min_eq_right h]
    exact .inr (isFilled_addFilled_remaining maker)

end Trade

/-! ## The sweep of one queue -/

/-- The result of a sweep. -/
structure Swept where
  taker : Order
  /-- The makers that were filled and left the queue, as they left it. -/
  popped : List Order
  /-- What is left of the queue. -/
  makers : List Order
  fills : List Fill

/-- Trade with the makers of a queue in turn. -/
def sweep (taker : Order) : List Order → Swept
  | [] => ⟨taker, [], [], []⟩
  | maker :: rest =>
    if taker.isFilled then ⟨taker, [], maker :: rest, []⟩
    else
      let taker' := taker.addFilled (tradeQty taker maker)
      let maker' := maker.addFilled (tradeQty taker maker)
      if maker'.isFilled then
        let r := sweep taker' rest
        ⟨r.taker, maker' :: r.popped, r.makers, tradeFill taker maker :: r.fills⟩
      else ⟨taker', [], maker' :: rest, [tradeFill taker maker]⟩

section Sweep

variable {taker maker : Order} {makers rest : List Order}

@[simp] theorem sweep_nil (taker : Order) : sweep taker [] = ⟨taker, [], [], []⟩ := rfl

theorem sweep_of_filled (h : taker.isFilled = true) :
    ∀ makers, sweep taker makers = ⟨taker, [], makers, []⟩
  | [] => rfl
  | maker :: rest => by rw [sweep, if_pos h]

/-- The maker at the head is filled and leaves. -/
theorem sweep_cons_pop (ht : taker.isFilled = false)
    (hm : (maker.addFilled (tradeQty taker maker)).isFilled = true) :
    sweep taker (maker :: rest) =
      let r := sweep (taker.addFilled (tradeQty taker maker)) rest
      ⟨r.taker, maker.addFilled (tradeQty taker maker) :: r.popped, r.makers,
        tradeFill taker maker :: r.fills⟩ := by
  rw [sweep, if_neg (by simp [ht])]
  exact if_pos hm

/-- The maker at the head is partially filled and stays. -/
theorem sweep_cons_keep (ht : taker.isFilled = false)
    (hm : (maker.addFilled (tradeQty taker maker)).isFilled = false) :
    sweep taker (maker :: rest) =
      ⟨taker.addFilled (tradeQty taker maker), [],
        maker.addFilled (tradeQty taker maker) :: rest, [tradeFill taker maker]⟩ := by
  rw [sweep, if_neg (by simp [ht])]
  exact if_neg (by simp [hm])

/-- **The sweep, case by case**: the induction rule of everything that follows. -/
theorem sweep_induction {P : Order → List Order → Swept → Prop}
    (done : ∀ taker, P taker [] ⟨taker, [], [], []⟩)
    (filled : ∀ taker maker rest, taker.isFilled = true →
      P taker (maker :: rest) ⟨taker, [], maker :: rest, []⟩)
    (pop : ∀ taker maker rest r, taker.isFilled = false →
      (maker.addFilled (tradeQty taker maker)).isFilled = true →
      r = sweep (taker.addFilled (tradeQty taker maker)) rest →
      P (taker.addFilled (tradeQty taker maker)) rest r →
      P taker (maker :: rest) ⟨r.taker, maker.addFilled (tradeQty taker maker) :: r.popped,
        r.makers, tradeFill taker maker :: r.fills⟩)
    (keep : ∀ taker maker rest, taker.isFilled = false →
      (taker.addFilled (tradeQty taker maker)).isFilled = true →
      (maker.addFilled (tradeQty taker maker)).isFilled = false →
      P taker (maker :: rest) ⟨taker.addFilled (tradeQty taker maker), [],
        maker.addFilled (tradeQty taker maker) :: rest, [tradeFill taker maker]⟩)
    (taker : Order) (makers : List Order) : P taker makers (sweep taker makers) := by
  induction makers generalizing taker with
  | nil => exact done taker
  | cons maker rest ih =>
    cases ht : taker.isFilled with
    | true => rw [sweep_of_filled ht]; exact filled _ _ _ ht
    | false =>
      cases hm : (maker.addFilled (tradeQty taker maker)).isFilled with
      | true => rw [sweep_cons_pop ht hm]; exact pop _ _ _ _ ht hm rfl (ih _)
      | false =>
        rw [sweep_cons_keep ht hm]
        refine keep _ _ _ ht ?_ hm
        rcases isFilled_of_trade taker maker with h | h
        · exact h
        · rw [hm] at h; exact absurd h (by simp)

/-- Unless the queue is used up, the taker is filled. -/
theorem isFilled_of_makers_ne_nil (h : (sweep taker makers).makers ≠ []) :
    (sweep taker makers).taker.isFilled = true := by
  revert h
  refine sweep_induction (P := fun _ _ r => r.makers ≠ [] → r.taker.isFilled = true)
    ?_ ?_ ?_ ?_ taker makers
  · intro _ h; exact absurd rfl h
  · intro _ _ _ ht _; exact ht
  · intro _ _ _ _ _ _ _ ih h; exact ih h
  · intro _ _ _ _ ht' _ _; exact ht'

/-- Only the filled quantity of the taker changes. -/
theorem sweep_taker_eq (taker : Order) (makers : List Order) :
    ∃ q, (sweep taker makers).taker = { taker with filledQuantity := q } := by
  refine sweep_induction (P := fun t _ r => ∃ q, r.taker = { t with filledQuantity := q })
    ?_ ?_ ?_ ?_ taker makers
  · intro t; exact ⟨t.filledQuantity, rfl⟩
  · intro t _ _ _; exact ⟨t.filledQuantity, rfl⟩
  · rintro _ _ _ _ _ _ _ ⟨q, hq⟩; exact ⟨q, hq⟩
  · intro _ _ _ _ _ _; exact ⟨_, rfl⟩

@[simp] theorem sweep_taker_id (taker : Order) (makers : List Order) :
    (sweep taker makers).taker.id = taker.id := by
  obtain ⟨q, h⟩ := sweep_taker_eq taker makers; rw [h]

@[simp] theorem sweep_taker_side (taker : Order) (makers : List Order) :
    (sweep taker makers).taker.side = taker.side := by
  obtain ⟨q, h⟩ := sweep_taker_eq taker makers; rw [h]

@[simp] theorem sweep_taker_price (taker : Order) (makers : List Order) :
    (sweep taker makers).taker.price = taker.price := by
  obtain ⟨q, h⟩ := sweep_taker_eq taker makers; rw [h]

@[simp] theorem sweep_taker_quantity (taker : Order) (makers : List Order) :
    (sweep taker makers).taker.quantity = taker.quantity := by
  obtain ⟨q, h⟩ := sweep_taker_eq taker makers; rw [h]

@[simp] theorem sweep_taker_orderType (taker : Order) (makers : List Order) :
    (sweep taker makers).taker.orderType = taker.orderType := by
  obtain ⟨q, h⟩ := sweep_taker_eq taker makers; rw [h]

@[simp] theorem sweep_taker_timeInForce (taker : Order) (makers : List Order) :
    (sweep taker makers).taker.timeInForce = taker.timeInForce := by
  obtain ⟨q, h⟩ := sweep_taker_eq taker makers; rw [h]

@[simp] theorem sweep_taker_timestampNs (taker : Order) (makers : List Order) :
    (sweep taker makers).taker.timestampNs = taker.timestampNs := by
  obtain ⟨q, h⟩ := sweep_taker_eq taker makers; rw [h]

/-- **The queue keeps its order**: the makers that left come first, then what is left, and in each
only the filled quantity changed. -/
theorem sweep_forall₂ (taker : Order) (makers : List Order) :
    List.Forall₂ (fun m m' => ∃ q, m' = { m with filledQuantity := q }) makers
      ((sweep taker makers).popped ++ (sweep taker makers).makers) := by
  have refl : ∀ l : List Order,
      List.Forall₂ (fun m m' => ∃ q, m' = { m with filledQuantity := q }) l l :=
    fun l => List.forall₂_same.mpr fun m _ => ⟨m.filledQuantity, rfl⟩
  refine sweep_induction (P := fun _ ms r =>
    List.Forall₂ (fun m m' => ∃ q, m' = { m with filledQuantity := q }) ms (r.popped ++ r.makers))
    ?_ ?_ ?_ ?_ taker makers
  · intro _; exact .nil
  · intro _ m rest _; exact refl _
  · intro _ _ _ _ _ _ _ ih; exact .cons ⟨_, rfl⟩ ih
  · intro _ _ rest _ _ _; exact .cons ⟨_, rfl⟩ (refl rest)

/-- A field that trades leave alone reads the same along the queue. -/
theorem sweep_map_eq {α : Type*} (f : Order → α)
    (hf : ∀ (o : Order) q, f { o with filledQuantity := q } = f o)
    (taker : Order) (makers : List Order) :
    (sweep taker makers).popped.map f ++ (sweep taker makers).makers.map f = makers.map f := by
  rw [← List.map_append]
  have h := sweep_forall₂ taker makers
  generalize (sweep taker makers).popped ++ (sweep taker makers).makers = l at h
  induction h with
  | nil => rfl
  | cons hab _ ih =>
    obtain ⟨q, rfl⟩ := hab
    rw [List.map_cons, List.map_cons, ih, hf]

/-- A property that trades leave alone holds along the queue. -/
theorem forall_sweep {p : Order → Prop}
    (hp : ∀ (o : Order) q, p o → p { o with filledQuantity := q }) (taker : Order)
    {makers : List Order} (h : ∀ m ∈ makers, p m) :
    ∀ m ∈ (sweep taker makers).popped ++ (sweep taker makers).makers, p m := by
  have hf := sweep_forall₂ taker makers
  generalize (sweep taker makers).popped ++ (sweep taker makers).makers = l at hf
  induction hf with
  | nil => simp
  | cons hab _ ih =>
    obtain ⟨q, rfl⟩ := hab
    intro m hm
    rcases List.mem_cons.mp hm with rfl | hm
    · exact hp _ _ (h _ (by simp))
    · exact ih (fun m hm => h m (List.mem_cons_of_mem _ hm)) m hm

theorem allOpen_sweep (taker : Order) {makers : List Order} (h : AllOpen makers) :
    AllOpen (sweep taker makers).makers := by
  revert h
  refine sweep_induction (P := fun _ ms r => AllOpen ms → AllOpen r.makers) ?_ ?_ ?_ ?_ taker makers
  · intro _ h; exact h
  · intro _ _ _ _ h; exact h
  · intro _ _ _ _ _ _ _ ih h; exact ih h.of_cons
  · intro _ maker rest _ _ hm h
    exact fun o ho => (List.mem_cons.mp ho).elim (fun e => e ▸ hm) (h.of_cons o)

/-! ## What a sweep does to quantities -/

/-- **The taker of a sweep** gains what was traded and stays within its quantity. -/
theorem sweep_spec (taker : Order) (makers : List Order) :
    (sweep taker makers).taker.filledQuantity.toNat =
        taker.filledQuantity.toNat + traded (sweep taker makers).fills ∧
      (taker.isFilled = false →
        (sweep taker makers).taker.filledQuantity ≤ (sweep taker makers).taker.quantity) := by
  refine sweep_induction (P := fun t _ r =>
    r.taker.filledQuantity.toNat = t.filledQuantity.toNat + traded r.fills ∧
      (t.isFilled = false → r.taker.filledQuantity ≤ r.taker.quantity)) ?_ ?_ ?_ ?_ taker makers
  · intro t
    exact ⟨by simp, Order.filledQuantity_le⟩
  · intro t _ _ _
    exact ⟨by simp, Order.filledQuantity_le⟩
  · rintro t m rest r ht _ hr ⟨ih₁, ih₂⟩
    have hadd := Order.toNat_filledQuantity_addFilled ht (tradeQty_le_taker t m)
    refine ⟨?_, fun _ => ?_⟩
    · simp only [ih₁, hadd, traded_cons, tradeFill]
      omega
    · cases ht' : (t.addFilled (tradeQty t m)).isFilled with
      | false => exact ih₂ ht'
      | true =>
        rw [hr, sweep_of_filled ht']
        exact Order.addFilled_le ht (tradeQty_le_taker t m)
  · intro t m rest ht _ _
    have hadd := Order.toNat_filledQuantity_addFilled ht (tradeQty_le_taker t m)
    exact ⟨by simp [hadd, tradeFill], fun _ => Order.addFilled_le ht (tradeQty_le_taker t m)⟩

/-- **A sweep takes from the makers what it trades with them**, id by id. -/
theorem liquidity_filter_sweep (p : OrderId → Bool) (taker : Order) {makers : List Order}
    (hm : AllOpen makers) :
    liquidity ((sweep taker makers).makers.filter fun o => p o.id) +
        traded ((sweep taker makers).fills.filter fun f => p f.makerId) =
      liquidity (makers.filter fun o => p o.id) := by
  revert hm
  refine sweep_induction (P := fun _ ms r => AllOpen ms →
    liquidity (r.makers.filter fun o => p o.id) + traded (r.fills.filter fun f => p f.makerId) =
      liquidity (ms.filter fun o => p o.id)) ?_ ?_ ?_ ?_ taker makers
  · intro _ _; rfl
  · intro _ _ _ _ _; rfl
  · intro t m rest r _ hm' _ ih hms
    have hq := (Order.isFilled_addFilled (hms m (by simp)) (tradeQty_le_maker t m)).mp hm'
    have hrest := ih hms.of_cons
    cases hp : p m.id with
    | true =>
      simp only [List.filter_cons, tradeFill, hp, if_true, traded_cons, liquidity_cons]
      omega
    | false => simpa [List.filter_cons, tradeFill, hp] using hrest
  · intro t m rest _ _ _ hms
    have hq := Order.toNat_remaining_addFilled (hms m (by simp)) (tradeQty_le_maker t m)
    cases hp : p m.id with
    | true =>
      simp only [List.filter_cons, List.filter_nil, tradeFill, Order.id_addFilled, hp, if_true,
        traded_cons, traded_nil, liquidity_cons]
      omega
    | false => simp [tradeFill, hp]

/-- **A sweep takes from the queue what it trades.** -/
theorem liquidity_sweep (taker : Order) {makers : List Order} (hm : AllOpen makers) :
    liquidity (sweep taker makers).makers + traded (sweep taker makers).fills =
      liquidity makers := by
  simpa using liquidity_filter_sweep (fun _ => true) taker hm

/-- A fill names the taker and one of the makers. -/
theorem ids_of_mem_sweep (taker : Order) (makers : List Order) :
    ∀ f ∈ (sweep taker makers).fills, f.takerId = taker.id ∧ ∃ m ∈ makers, f.makerId = m.id := by
  refine sweep_induction (P := fun t ms r =>
    ∀ f ∈ r.fills, f.takerId = t.id ∧ ∃ m ∈ ms, f.makerId = m.id) ?_ ?_ ?_ ?_ taker makers
  · intro _ f hf; exact absurd hf (by simp)
  · intro _ _ _ _ f hf; exact absurd hf (by simp)
  · intro t m rest r _ _ _ ih f hf
    rcases List.mem_cons.mp hf with rfl | hf
    · exact ⟨rfl, m, by simp, rfl⟩
    · obtain ⟨htaker, m', hm', hid⟩ := ih f hf
      exact ⟨htaker, m', List.mem_cons_of_mem _ hm', hid⟩
  · intro t m rest _ _ _ f hf
    rw [List.mem_singleton.mp hf]
    exact ⟨rfl, m, by simp, rfl⟩

/-- **A sweep trades all it can**: the lesser of what the taker wants and what the queue has. -/
theorem traded_sweep {taker : Order} {makers : List Order} (ht : taker.isFilled = false)
    (hm : AllOpen makers) :
    traded (sweep taker makers).fills = min taker.remaining.toNat (liquidity makers) := by
  obtain ⟨hsum, hle⟩ := sweep_spec taker makers
  have hle := UInt64.le_iff_toNat_le.mp (hle ht)
  have hliq := liquidity_sweep taker hm
  have hrem := Order.toNat_remaining_of_not_isFilled ht
  rw [sweep_taker_quantity, hsum] at hle
  by_cases hnil : (sweep taker makers).makers = []
  · rw [hnil, liquidity_nil] at hliq
    omega
  · have hfull := Order.isFilled_iff.mp (isFilled_of_makers_ne_nil hnil)
    rw [sweep_taker_quantity, hsum] at hfull
    omega

/-- Every fill of a sweep has a quantity. -/
theorem quantity_pos_of_mem_sweep (taker : Order) {makers : List Order} (hm : AllOpen makers) :
    ∀ f ∈ (sweep taker makers).fills, 0 < f.quantity.toNat := by
  revert hm
  refine sweep_induction (P := fun _ ms r => AllOpen ms → ∀ f ∈ r.fills, 0 < f.quantity.toNat)
    ?_ ?_ ?_ ?_ taker makers
  · intro _ _ f hf; exact absurd hf (by simp)
  · intro _ _ _ _ _ f hf; exact absurd hf (by simp)
  · intro t m rest r ht _ _ ih hms f hf
    rcases List.mem_cons.mp hf with rfl | hf
    · exact tradeQty_pos ht (hms m (by simp))
    · exact ih hms.of_cons f hf
  · intro t m rest ht _ _ hms f hf
    rw [List.mem_singleton.mp hf]
    exact tradeQty_pos ht (hms m (by simp))

end Sweep

/-- A sweep of a queue in two parts: the second part is reached when the first is used up. -/
theorem sweep_append (taker : Order) (q₁ q₂ : List Order) :
    sweep taker (q₁ ++ q₂) =
      if (sweep taker q₁).makers = [] then
        let r := sweep (sweep taker q₁).taker q₂
        ⟨r.taker, (sweep taker q₁).popped ++ r.popped, r.makers, (sweep taker q₁).fills ++ r.fills⟩
      else
        ⟨(sweep taker q₁).taker, (sweep taker q₁).popped, (sweep taker q₁).makers ++ q₂,
          (sweep taker q₁).fills⟩ := by
  induction q₁ generalizing taker with
  | nil => rfl
  | cons maker rest ih =>
    rw [List.cons_append]
    cases ht : taker.isFilled with
    | true => rw [sweep_of_filled ht, sweep_of_filled ht, if_neg (by simp)]; rfl
    | false =>
      cases hm : (maker.addFilled (tradeQty taker maker)).isFilled with
      | true =>
        rw [sweep_cons_pop ht hm, sweep_cons_pop ht hm, ih]
        split_ifs <;> rfl
      | false => rw [sweep_cons_keep ht hm, sweep_cons_keep ht hm, if_neg (by simp)]; rfl

/-! ## Which orders a sweep reaches -/

/-- The fill of a trade with a maker. -/
structure TradeWith (taker maker : Order) (f : Fill) : Prop where
  maker_eq : f.makerId = maker.id
  taker_eq : f.takerId = taker.id
  price_eq : f.price = maker.price
  quantity_le : f.quantity.toNat ≤ maker.remaining.toNat

theorem tradeWith_tradeFill (taker maker : Order) :
    TradeWith taker maker (tradeFill taker maker) :=
  ⟨rfl, rfl, rfl, tradeQty_le_maker taker maker⟩

/-- **The fills of a sweep are its trades with the front of the queue**, in order. -/
theorem fills_sweep_get (taker : Order) (makers : List Order) (i : ℕ) (f : Fill)
    (hf : (sweep taker makers).fills[i]? = some f) :
    ∃ maker, makers[i]? = some maker ∧ TradeWith taker maker f := by
  revert i
  refine sweep_induction (P := fun taker makers r => ∀ i, r.fills[i]? = some f →
    ∃ maker, makers[i]? = some maker ∧ TradeWith taker maker f) ?_ ?_ ?_ ?_ taker makers
  · intro _ i hf
    exact absurd hf (by simp)
  · intro _ _ _ _ i hf
    exact absurd hf (by simp)
  · intro taker maker rest r _ _ _ ih i hf
    cases i with
    | zero =>
      obtain rfl := Option.some.inj hf
      exact ⟨maker, rfl, tradeWith_tradeFill taker maker⟩
    | succ i =>
      obtain ⟨maker', hget, htrade⟩ := ih i hf
      exact ⟨maker', hget, htrade.maker_eq, htrade.taker_eq, htrade.price_eq, htrade.quantity_le⟩
  · intro taker maker rest _ _ _ i hf
    cases i with
    | zero =>
      obtain rfl := Option.some.inj hf
      exact ⟨maker, rfl, tradeWith_tradeFill taker maker⟩
    | succ i => exact absurd hf (by simp)

/-- **An order is reached exactly when the liquidity ahead of it does not fill the taker.** -/
theorem lt_length_fills_sweep (taker : Order) {makers : List Order} (hopen : AllOpen makers)
    (i : ℕ) : i < (sweep taker makers).fills.length ↔
      i < makers.length ∧ liquidity (makers.take i) < taker.openQuantity := by
  revert hopen i
  refine sweep_induction (P := fun taker makers r => AllOpen makers → ∀ i, i < r.fills.length ↔
    i < makers.length ∧ liquidity (makers.take i) < taker.openQuantity) ?_ ?_ ?_ ?_ taker makers
  · intro _ _ i
    simp
  · intro taker maker rest ht _ i
    rw [Order.openQuantity_of_isFilled ht]
    simp
  · intro taker maker rest r ht hm _ ih hopen i
    have hle := tradeQty_le_maker taker maker
    have hall := (Order.isFilled_addFilled (hopen maker (by simp)) hle).mp hm
    have htaker := Order.openQuantity_addFilled ht (tradeQty_le_taker taker maker)
    have hpos := Order.remaining_pos (hopen maker (by simp))
    cases i with
    | zero =>
      simp only [List.length_cons, List.take_zero, liquidity_nil]
      omega
    | succ i =>
      have hrest := ih hopen.of_cons i
      simp only [List.length_cons, List.take_succ_cons, liquidity_cons]
      omega
  · intro taker maker rest ht ht' _ hopen i
    have hzero := Order.openQuantity_of_isFilled ht'
    have htaker := Order.openQuantity_addFilled ht (tradeQty_le_taker taker maker)
    have hle := tradeQty_le_maker taker maker
    have hpos := tradeQty_pos ht (hopen maker (by simp))
    cases i with
    | zero =>
      simp only [List.length_cons, List.length_nil, List.take_zero, liquidity_nil]
      omega
    | succ i =>
      simp only [List.length_cons, List.length_nil, List.take_succ_cons, liquidity_cons]
      omega

/-! ## The loop over the front of one level -/

/-- A level after a sweep of its queue. The cached total is decremented fill by fill. -/
def PriceLevel.afterSweep (level : PriceLevel) (r : Swept) : PriceLevel :=
  { level with
    orders := r.makers
    totalQuantity := r.fills.foldl (fun t f => t.saturatingSub f.quantity) level.totalQuantity }

/-- The index after makers left the book. -/
def dropIds (index : OrderIndex) (orders : List Order) : OrderIndex :=
  orders.foldl (fun i o => i.erase o.id) index

theorem toNat_foldl_saturatingSub (fills : List Fill) (t : UInt64) :
    (fills.foldl (fun t f => t.saturatingSub f.quantity) t).toNat = t.toNat - traded fills := by
  induction fills generalizing t with
  | nil => rfl
  | cons f fs ih =>
    rw [List.foldl_cons, ih, UInt64.toNat_saturatingSub, traded_cons]
    omega

section FillLoop

variable {takerId : OrderId} {ts : UInt64}

/-- One pass trades with the head of the queue, when the taker and the head are open. -/
theorem fillStep_cons {taker maker : Order} (ht : taker.isFilled = false)
    (hm : maker.isFilled = false) (price : Int64) (rest : List Order) (total : UInt64)
    (fills : List Fill) (index : OrderIndex) :
    fillStep taker.id taker.timestampNs ⟨⟨price, maker :: rest, total⟩, taker, fills, index⟩ =
      let maker' := maker.addFilled (tradeQty taker maker)
      some ⟨⟨price, if maker'.isFilled then rest else maker' :: rest,
          total.saturatingSub (tradeQty taker maker)⟩, taker.addFilled (tradeQty taker maker),
        fills ++ [tradeFill taker maker],
        if maker'.isFilled then index.erase maker.id else index⟩ := by
  have hq := tradeQty_ne_zero ht hm
  unfold tradeQty at hq
  simp only [fillStep, ht, hq, if_false, tradeQty, tradeFill, Bool.false_eq_true]
  by_cases hm' : (maker.addFilled (min taker.remaining maker.remaining)).isFilled = true <;>
    simp [hm']

/-- **The loop over the front of a level is a sweep of its queue.** -/
theorem fillLevel_eq {level : PriceLevel} (hopen : AllOpen level.orders) (taker : Order)
    (fills : List Fill) (index : OrderIndex) :
    fillLevel taker.id taker.timestampNs ⟨level, taker, fills, index⟩ =
      let r := sweep taker level.orders
      ⟨level.afterSweep r, r.taker, fills ++ r.fills, dropIds index r.popped⟩ := by
  obtain ⟨price, orders, total⟩ := level
  simp only [fillLevel]
  induction orders generalizing taker fills index total with
  | nil => simp [Loop.run, fillStep, PriceLevel.afterSweep, dropIds]
  | cons maker rest ih =>
    cases ht : taker.isFilled with
    | true =>
      rw [Loop.run_of_none (by simp [fillStep, ht]), sweep_of_filled ht]
      simp [PriceLevel.afterSweep, dropIds]
    | false =>
      have hm : maker.isFilled = false := hopen maker (by simp)
      rw [List.length_cons, Loop.run_succ_of_some (fillStep_cons ht hm _ _ _ _ _)]
      cases hm' : (maker.addFilled (tradeQty taker maker)).isFilled with
      | true =>
        have hpass := ih (taker.addFilled (tradeQty taker maker)) (fills ++ [tradeFill taker maker])
          (index.erase maker.id) (total.saturatingSub (tradeQty taker maker)) hopen.of_cons
        rw [Order.id_addFilled, Order.timestampNs_addFilled] at hpass
        simp only [if_true, hpass, sweep_cons_pop ht hm', PriceLevel.afterSweep, dropIds,
          List.foldl_cons, Order.id_addFilled, List.append_assoc, List.singleton_append]
        rfl
      | false =>
        -- the maker stays at the front and the taker is filled: the next pass ends the loop
        have ht' : (taker.addFilled (tradeQty taker maker)).isFilled = true :=
          (isFilled_of_trade taker maker).resolve_right (by simp [hm'])
        simp only [Bool.false_eq_true, if_false]
        rw [Loop.run_of_none (by simp [fillStep, ht']), sweep_cons_keep ht hm']
        simp [PriceLevel.afterSweep, dropIds, tradeFill]

/-- The number of passes left: each pass removes the head or fills the taker. -/
def fillMeasure (s : FillState) : ℕ := if s.taker.isFilled then 0 else s.level.orders.length

theorem fillMeasure_lt (s t : FillState) (h : fillStep takerId ts s = some t) :
    fillMeasure t < fillMeasure s := by
  obtain ⟨⟨price, orders, total⟩, taker, fills, index⟩ := s
  rcases orders with _ | ⟨maker, rest⟩
  · simp [fillStep] at h
  · simp only [fillStep] at h
    split_ifs at h with ht hq hm
    · obtain rfl := Option.some.inj h
      simp only [fillMeasure, ht, Bool.false_eq_true, if_false, List.length_cons]
      split_ifs <;> omega
    · obtain rfl := Option.some.inj h
      have ht' := (isFilled_of_trade taker maker).resolve_right hm
      unfold tradeQty at ht'
      simp [fillMeasure, ht, ht']

/-- **The loop over the front of a level ends** within the passes that `fillLevel` makes, whatever
the level and the taker. -/
theorem fillStep_fillLevel (takerId : OrderId) (ts : UInt64) (s : FillState) :
    fillStep takerId ts (fillLevel takerId ts s) = none := by
  refine Loop.run_stops fillMeasure (fun s t => fillMeasure_lt s t) ?_
  unfold fillMeasure
  split_ifs <;> omega

/-- More passes change nothing: `fillLevel` is the loop of the source. -/
theorem run_fillStep_eq (takerId : OrderId) (ts : UInt64) {n : ℕ} {s : FillState}
    (hn : s.level.orders.length + 1 ≤ n) :
    Loop.run (fillStep takerId ts) n s = fillLevel takerId ts s :=
  Loop.run_eq_of_stops (fillStep_fillLevel takerId ts s) hn

end FillLoop

end AliceLedger
