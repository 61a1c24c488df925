import AliceLedger.Book.BestExecution
import AliceLedger.Book.Quiet

/-!
# Slicing an order

An IOC order trades the same in one piece or in slices (`slices_agree`): the slices in turn leave
the book exactly as the whole does, take the same lots from the makers, and cost the same. What a
sweep leaves in the queue depends on nothing but the quantity that its taker wants (`sweep_congr`),
and sweeping for one quantity and then for another is sweeping for their sum (`sweep_split`); levels
inherit both.
-/

namespace AliceLedger

variable {t t₁ t₂ t' : Order} {makers rest : List Order} {maker : Order}

theorem isFilled_iff_openQuantity {o : Order} : o.isFilled = true ↔ o.openQuantity = 0 := by
  rw [Order.isFilled_iff, Order.openQuantity]
  omega

theorem tradeQty_congr (h : t.openQuantity = t'.openQuantity) (ht : t.isFilled = false)
    (ht' : t'.isFilled = false) (maker : Order) : tradeQty t maker = tradeQty t' maker := by
  have hremaining : t.remaining = t'.remaining := by
    rw [← UInt64.toNat_inj, ← Order.openQuantity_eq ht, ← Order.openQuantity_eq ht', h]
  rw [tradeQty, tradeQty, hremaining]

theorem isFilled_congr (h : t.openQuantity = t'.openQuantity) : t.isFilled = t'.isFilled := by
  rw [Bool.eq_iff_iff, isFilled_iff_openQuantity, isFilled_iff_openQuantity, h]

/-- The sweeps of two takers do the same to their queue. -/
structure SameSweep (r r' : Swept) : Prop where
  makers : r.makers = r'.makers
  popped : r.popped = r'.popped
  quantities : r.fills.map Fill.quantity = r'.fills.map Fill.quantity
  openQuantity : r.taker.openQuantity = r'.taker.openQuantity

/-- **What a sweep does** depends on the quantity that its taker wants. -/
theorem sweep_congr (h : t.openQuantity = t'.openQuantity) (makers : List Order) :
    SameSweep (sweep t makers) (sweep t' makers) := by
  induction makers generalizing t t' with
  | nil => exact ⟨rfl, rfl, rfl, h⟩
  | cons maker rest ih =>
    have hfilled := isFilled_congr h
    cases ht : t.isFilled with
    | true =>
      rw [sweep_of_filled ht, sweep_of_filled (hfilled ▸ ht)]
      exact ⟨rfl, rfl, rfl, h⟩
    | false =>
      have ht' : t'.isFilled = false := hfilled ▸ ht
      have hqty := tradeQty_congr h ht ht' maker
      have hleft := Order.openQuantity_addFilled ht (tradeQty_le_taker t maker)
      have hleft' := Order.openQuantity_addFilled ht' (tradeQty_le_taker t' maker)
      have hnext : (t.addFilled (tradeQty t maker)).openQuantity =
          (t'.addFilled (tradeQty t' maker)).openQuantity := by
        rw [← hqty] at hleft' ⊢
        omega
      cases hm : (maker.addFilled (tradeQty t maker)).isFilled with
      | true =>
        rw [sweep_cons_pop ht hm, sweep_cons_pop ht' (hqty ▸ hm)]
        have hrest := ih hnext
        constructor
        · exact hrest.makers
        · dsimp only
          rw [hrest.popped, hqty]
        · exact congrArg₂ List.cons hqty hrest.quantities
        · exact hrest.openQuantity
      | false =>
        rw [sweep_cons_keep ht hm, sweep_cons_keep ht' (hqty ▸ hm)]
        constructor
        · dsimp only
          rw [hqty]
        · rfl
        · simp only [List.map_cons, tradeFill, hqty]
        · exact hnext

/-- A maker that a taker fills, a taker that wants more fills too. -/
theorem tradeQty_eq_of_filled (h : t₁.openQuantity ≤ t.openQuantity) (ht₁ : t₁.isFilled = false)
    (hopen : maker.isFilled = false)
    (hm : (maker.addFilled (tradeQty t₁ maker)).isFilled = true) :
    tradeQty t maker = tradeQty t₁ maker := by
  have hall := (Order.isFilled_addFilled hopen (tradeQty_le_maker t₁ maker)).mp hm
  have hle := tradeQty_le_taker t₁ maker
  have ht : t.isFilled = false := by
    have hpos := Order.remaining_pos ht₁
    rw [← Order.openQuantity_eq ht₁] at hpos
    refine Bool.eq_false_of_not_eq_true fun hfilled => ?_
    rw [isFilled_iff_openQuantity] at hfilled
    omega
  rw [Order.openQuantity_eq ht₁, Order.openQuantity_eq ht] at h
  rw [← UInt64.toNat_inj, toNat_tradeQty, hall]
  omega

/-- Two trades with one maker, the first of which uses up its taker, are one trade. -/
theorem tradeQty_add (h : t.openQuantity = t₁.openQuantity + t₂.openQuantity)
    (ht₁ : t₁.isFilled = false) (ht₂ : t₂.isFilled = false) (hopen : maker.isFilled = false)
    (hm : (maker.addFilled (tradeQty t₁ maker)).isFilled = false) :
    t.isFilled = false ∧ (tradeQty t₁ maker).toNat = t₁.openQuantity ∧
      (tradeQty t maker).toNat = (tradeQty t₁ maker).toNat +
        (tradeQty t₂ (maker.addFilled (tradeQty t₁ maker))).toNat ∧
      (maker.addFilled (tradeQty t₁ maker)).addFilled
          (tradeQty t₂ (maker.addFilled (tradeQty t₁ maker))) =
        maker.addFilled (tradeQty t maker) := by
  have hpart := Order.toNat_remaining_addFilled hopen (tradeQty_le_maker t₁ maker)
  have hpos := Order.remaining_pos hm
  have hpos₁ := Order.remaining_pos ht₁
  have hq₁ := toNat_tradeQty t₁ maker
  have hq₂ := toNat_tradeQty t₂ (maker.addFilled (tradeQty t₁ maker))
  have ht : t.isFilled = false := by
    rw [← Order.openQuantity_eq ht₁] at hpos₁
    refine Bool.eq_false_of_not_eq_true fun hfilled => ?_
    rw [isFilled_iff_openQuantity] at hfilled
    omega
  have hq := toNat_tradeQty t maker
  rw [← Order.openQuantity_eq ht₁] at hq₁
  rw [← Order.openQuantity_eq ht₂] at hq₂
  rw [← Order.openQuantity_eq ht] at hq
  have hsum : (tradeQty t maker).toNat = (tradeQty t₁ maker).toNat +
      (tradeQty t₂ (maker.addFilled (tradeQty t₁ maker))).toNat := by omega
  refine ⟨ht, by omega, hsum, ?_⟩
  have hadd : tradeQty t maker =
      tradeQty t₁ maker + tradeQty t₂ (maker.addFilled (tradeQty t₁ maker)) := by
    rw [← UInt64.toNat_inj, UInt64.toNat_add_of_lt, hsum]
    have := (tradeQty t maker).toNat_lt_two_pow
    omega
  rw [hadd]
  simp only [Order.addFilled, UInt64.add_assoc]

/-- **Sweeping twice is sweeping once** for the joint quantity. -/
theorem sweep_split (h : t.openQuantity = t₁.openQuantity + t₂.openQuantity)
    (hopen : AllOpen makers) :
    (sweep t makers).makers = (sweep t₂ (sweep t₁ makers).makers).makers ∧
      (sweep t makers).popped =
        (sweep t₁ makers).popped ++ (sweep t₂ (sweep t₁ makers).makers).popped := by
  induction makers generalizing t t₁ with
  | nil => exact ⟨rfl, rfl⟩
  | cons maker rest ih =>
    have hmaker := hopen maker List.mem_cons_self
    cases ht₁ : t₁.isFilled with
    | true =>
      -- the first sweep does nothing
      rw [sweep_of_filled ht₁]
      have hzero := isFilled_iff_openQuantity.mp ht₁
      have hsame := sweep_congr (show t.openQuantity = t₂.openQuantity by omega) (maker :: rest)
      exact ⟨hsame.makers, hsame.popped⟩
    | false =>
      cases hm : (maker.addFilled (tradeQty t₁ maker)).isFilled with
      | true =>
        -- the first sweep fills the maker, and so does the joint one
        have hqty := tradeQty_eq_of_filled (Nat.le.intro h.symm) ht₁ hmaker hm
        have hleft₁ := Order.openQuantity_addFilled ht₁ (tradeQty_le_taker t₁ maker)
        have ht : t.isFilled = false := by
          have hpos := tradeQty_pos ht₁ hmaker
          refine Bool.eq_false_of_not_eq_true fun hfilled => ?_
          rw [isFilled_iff_openQuantity] at hfilled
          omega
        have hleft := Order.openQuantity_addFilled ht (tradeQty_le_taker t maker)
        rw [hqty] at hleft
        obtain ⟨h1, h2⟩ := ih (show (t.addFilled (tradeQty t₁ maker)).openQuantity =
          (t₁.addFilled (tradeQty t₁ maker)).openQuantity + t₂.openQuantity by omega) hopen.of_cons
        rw [sweep_cons_pop ht₁ hm, sweep_cons_pop ht (hqty ▸ hm), hqty]
        exact ⟨h1, congrArg (maker.addFilled (tradeQty t₁ maker) :: ·) h2⟩
      | false =>
        rw [sweep_cons_keep ht₁ hm]
        cases ht₂ : t₂.isFilled with
        | true =>
          -- the second sweep does nothing
          rw [sweep_of_filled ht₂]
          have hzero := isFilled_iff_openQuantity.mp ht₂
          have hsame := sweep_congr (show t.openQuantity = t₁.openQuantity by omega) (maker :: rest)
          rw [hsame.makers, hsame.popped, sweep_cons_keep ht₁ hm]
          exact ⟨rfl, rfl⟩
        | false =>
          -- both trade with the maker, and the second goes on
          obtain ⟨ht, hq₁, hq, hadd⟩ := tradeQty_add h ht₁ ht₂ hmaker hm
          have hleft := Order.openQuantity_addFilled ht (tradeQty_le_taker t maker)
          have hleft₂ := Order.openQuantity_addFilled ht₂
            (tradeQty_le_taker t₂ (maker.addFilled (tradeQty t₁ maker)))
          cases hm₂ : (maker.addFilled (tradeQty t maker)).isFilled with
          | true =>
            rw [sweep_cons_pop ht hm₂, sweep_cons_pop ht₂ (hadd ▸ hm₂), hadd]
            have hsame := sweep_congr (show (t.addFilled (tradeQty t maker)).openQuantity =
              (t₂.addFilled (tradeQty t₂ (maker.addFilled (tradeQty t₁ maker)))).openQuantity
              by omega) rest
            exact ⟨hsame.makers, congrArg (maker.addFilled (tradeQty t maker) :: ·) hsame.popped⟩
          | false =>
            rw [sweep_cons_keep ht hm₂, sweep_cons_keep ht₂ (hadd ▸ hm₂), hadd]
            exact ⟨rfl, rfl⟩

/-- What a sweep trades, its taker no longer wants. -/
theorem openQuantity_sweep (t : Order) (makers : List Order) :
    (sweep t makers).taker.openQuantity + traded (sweep t makers).fills = t.openQuantity := by
  cases ht : t.isFilled with
  | true =>
    rw [sweep_of_filled ht]
    rfl
  | false =>
    obtain ⟨hfilled, hle⟩ := sweep_spec t makers
    have hle := UInt64.le_iff_toNat_le.mp (hle ht)
    rw [Order.openQuantity, Order.openQuantity, hfilled]
    rw [hfilled, sweep_taker_quantity] at hle
    rw [sweep_taker_quantity]
    omega

/-- Two sweeps trade together what the joint one does. -/
theorem traded_split (h : t.openQuantity = t₁.openQuantity + t₂.openQuantity)
    (hopen : AllOpen makers) : traded (sweep t makers).fills =
      traded (sweep t₁ makers).fills + traded (sweep t₂ (sweep t₁ makers).makers).fills := by
  have hall := liquidity_sweep t hopen
  have hall₁ := liquidity_sweep t₁ hopen
  have hall₂ := liquidity_sweep t₂ (allOpen_sweep t₁ hopen)
  rw [(sweep_split h hopen).1] at hall
  omega

/-! ## Levels -/

section Levels

variable {K : Type*} {level : PriceLevel} {es : List (K × PriceLevel)}

@[simp] theorem PriceLevel.orders_afterSweep (level : PriceLevel) (r : Swept) :
    (level.afterSweep r).orders = r.makers := rfl

theorem afterSweep_congr {r r' : Swept} (h : SameSweep r r') (level : PriceLevel) :
    level.afterSweep r = level.afterSweep r' := by
  have htotal : ∀ (fills : List Fill) (total : UInt64),
      fills.foldl (fun t f => t.saturatingSub f.quantity) total =
        (fills.map Fill.quantity).foldl UInt64.saturatingSub total := fun fills total =>
    List.foldl_map.symm
  rw [PriceLevel.afterSweep, PriceLevel.afterSweep, h.makers, htotal, htotal, h.quantities]

theorem afterSweep_split (h : t.openQuantity = t₁.openQuantity + t₂.openQuantity)
    (hopen : AllOpen level.orders) :
    (level.afterSweep (sweep t₁ level.orders)).afterSweep
        (sweep t₂ (sweep t₁ level.orders).makers) = level.afterSweep (sweep t level.orders) := by
  have htotal := traded_split h hopen
  simp only [PriceLevel.afterSweep, (sweep_split h hopen).1, PriceLevel.mk.injEq, true_and]
  rw [← UInt64.toNat_inj, toNat_foldl_saturatingSub, toNat_foldl_saturatingSub,
    toNat_foldl_saturatingSub, htotal, Nat.sub_sub]

theorem sweepLevels_congr (h : t.openQuantity = t'.openQuantity) (es : List (K × PriceLevel)) :
    (sweepLevels t es).levels = (sweepLevels t' es).levels ∧
      (sweepLevels t es).popped = (sweepLevels t' es).popped := by
  induction es generalizing t t' with
  | nil => exact ⟨rfl, rfl⟩
  | cons e es ih =>
    obtain ⟨key, level⟩ := e
    have hsame := sweep_congr h level.orders
    obtain ⟨h1, h2⟩ := ih hsame.openQuantity
    simp only [sweepLevels, hsame.makers, hsame.popped, afterSweep_congr hsame]
    split_ifs
    · exact ⟨h1, by rw [h2]⟩
    · exact ⟨rfl, rfl⟩

/-- **Sweeping levels twice is sweeping them once** for the joint quantity. -/
theorem sweepLevels_split (h : t.openQuantity = t₁.openQuantity + t₂.openQuantity)
    (hopen : LevelsOpen es) :
    (sweepLevels t es).levels = (sweepLevels t₂ (sweepLevels t₁ es).levels).levels ∧
      (sweepLevels t es).popped =
        (sweepLevels t₁ es).popped ++ (sweepLevels t₂ (sweepLevels t₁ es).levels).popped := by
  induction es generalizing t t₁ with
  | nil => exact ⟨rfl, rfl⟩
  | cons e es ih =>
    obtain ⟨key, level⟩ := e
    have hlevel : AllOpen level.orders := (hopen (key, level) List.mem_cons_self).2
    have hrest : LevelsOpen es := fun e he => hopen e (List.mem_cons_of_mem _ he)
    obtain ⟨hmakers, hpopped⟩ := sweep_split h hlevel
    have hwant := openQuantity_sweep t level.orders
    have hwant₁ := openQuantity_sweep t₁ level.orders
    have htraded := traded_split h hlevel
    by_cases hnil₁ : (sweep t₁ level.orders).makers = []
    · -- the first sweep uses up the level, and so does the joint one
      have hnil : (sweep t level.orders).makers = [] := by rw [hmakers, hnil₁]; rfl
      have hfirst : sweepLevels t₁ ((key, level) :: es) =
          let r := sweepLevels (sweep t₁ level.orders).taker es
          ⟨r.taker, (sweep t₁ level.orders).popped ++ r.popped, r.levels,
            (sweep t₁ level.orders).fills ++ r.fills⟩ := if_pos hnil₁
      have hjoint : sweepLevels t ((key, level) :: es) =
          let r := sweepLevels (sweep t level.orders).taker es
          ⟨r.taker, (sweep t level.orders).popped ++ r.popped, r.levels,
            (sweep t level.orders).fills ++ r.fills⟩ := if_pos hnil
      rw [hnil₁] at htraded hpopped
      have hnext : (sweep t level.orders).taker.openQuantity =
          (sweep t₁ level.orders).taker.openQuantity + t₂.openQuantity := by
        rw [show (sweep t₂ ([] : List Order)).fills = [] from rfl, traded_nil] at htraded
        omega
      obtain ⟨h1, h2⟩ := ih hnext hrest
      rw [hfirst, hjoint]
      refine ⟨h1, ?_⟩
      dsimp only
      rw [h2, hpopped, show (sweep t₂ ([] : List Order)).popped = [] from rfl, List.append_nil,
        List.append_assoc]
    · -- the first sweep ends in the level, and the second goes on there
      have hdone := isFilled_iff_openQuantity.mp (isFilled_of_makers_ne_nil hnil₁)
      have hfirst : sweepLevels t₁ ((key, level) :: es) =
          ⟨(sweep t₁ level.orders).taker, (sweep t₁ level.orders).popped,
            (key, level.afterSweep (sweep t₁ level.orders)) :: es, (sweep t₁ level.orders).fills⟩ :=
        if_neg hnil₁
      have hwant₂ := openQuantity_sweep t₂ (sweep t₁ level.orders).makers
      rw [hfirst]
      simp only [sweepLevels, PriceLevel.orders_afterSweep, hmakers, hpopped,
        afterSweep_split h hlevel]
      split_ifs with hnil
      · obtain ⟨h1, h2⟩ := sweepLevels_congr (show (sweep t level.orders).taker.openQuantity =
          (sweep t₂ (sweep t₁ level.orders).makers).taker.openQuantity by omega) es
        exact ⟨h1, by rw [h2, List.append_assoc]⟩
      · exact ⟨rfl, rfl⟩

end Levels

/-! ## Matching -/

theorem valued_append (weight : ℤ → ℤ) (fs fs' : List Fill) :
    valued weight (fs ++ fs') = valued weight fs + valued weight fs' := by
  rw [valued, List.map_append, List.sum_append, valued, valued]

/-- The quantities left in a queue, weighted by their prices. -/
def weighted (weight : ℤ → ℤ) (os : List Order) : ℤ :=
  (os.map fun o => weight o.price.toInt * o.remaining.toNat).sum

theorem weighted_cons (weight : ℤ → ℤ) (o : Order) (os : List Order) :
    weighted weight (o :: os) = weight o.price.toInt * o.remaining.toNat + weighted weight os := by
  rw [weighted, List.map_cons, List.sum_cons, weighted]

/-- What leaves the queue is in the fills, at its price. -/
theorem weighted_sweep (weight : ℤ → ℤ) (t : Order) (hopen : AllOpen makers) :
    weighted weight (sweep t makers).makers + valued weight (sweep t makers).fills =
      weighted weight makers := by
  revert hopen
  refine sweep_induction (P := fun _ makers r => AllOpen makers →
    weighted weight r.makers + valued weight r.fills = weighted weight makers)
    ?_ ?_ ?_ ?_ t makers
  · exact fun _ _ => rfl
  · exact fun _ _ _ _ _ => add_zero _
  · intro t maker rest r _ hm _ ih hopen
    have hall := (Order.isFilled_addFilled (hopen maker List.mem_cons_self)
      (tradeQty_le_maker t maker)).mp hm
    rw [valued_cons, weighted_cons, ← ih hopen.of_cons, ← hall]
    simp only [tradeFill]
    ring
  · intro t maker rest _ _ _ hopen
    have hpart := Order.toNat_remaining_addFilled (hopen maker List.mem_cons_self)
      (tradeQty_le_maker t maker)
    rw [valued_cons, weighted_cons, weighted_cons, ← hpart, Order.price_addFilled]
    simp only [tradeFill, valued, List.map_nil, List.sum_nil]
    push_cast
    ring

/-- **Two sweeps of a queue trade with its makers what one does**, at the same prices. -/
theorem fills_split (h : t.openQuantity = t₁.openQuantity + t₂.openQuantity)
    (hopen : AllOpen makers) :
    let fills := (sweep t₁ makers).fills ++ (sweep t₂ (sweep t₁ makers).makers).fills
    (∀ ids : OrderId → Bool, traded (fills.filter fun f => ids f.makerId) =
        traded ((sweep t makers).fills.filter fun f => ids f.makerId)) ∧
      ∀ weight, valued weight fills = valued weight (sweep t makers).fills := by
  have hopen₁ := allOpen_sweep t₁ hopen
  obtain ⟨hmakers, -⟩ := sweep_split h hopen
  constructor
  · intro ids
    have hall := liquidity_filter_sweep ids t hopen
    have hall₁ := liquidity_filter_sweep ids t₁ hopen
    have hall₂ := liquidity_filter_sweep ids t₂ hopen₁
    rw [hmakers] at hall
    rw [List.filter_append, traded_append]
    omega
  · intro weight
    have hall := weighted_sweep weight t hopen
    have hall₁ := weighted_sweep weight t₁ hopen
    have hall₂ := weighted_sweep weight t₂ hopen₁
    rw [hmakers] at hall
    rw [valued_append]
    omega

section Match

variable {K : Type*} [LinearOrder K] {priceOf : K → Int64} {side : Side}
  {levels : SortedMap K PriceLevel} {takerPrice : K}

/-- The levels up to a bound, after levels up to it were replaced. -/
theorem upTo_of_entries_eq {levels' : SortedMap K PriceLevel} {es : List (K × PriceLevel)}
    (h : levels'.entries = es ++ levels.above takerPrice) (hes : ∀ e ∈ es, e.1 ≤ takerPrice) :
    levels'.upTo takerPrice = es ∧ levels'.above takerPrice = levels.above takerPrice := by
  have habove : ∀ e ∈ levels.above takerPrice, takerPrice < e.1 := fun e he => by
    simpa [SortedMap.above] using (List.mem_filter.mp he).2
  constructor
  · rw [SortedMap.upTo, h, List.filter_append,
      List.filter_eq_self.mpr fun e he => decide_eq_true (hes e he),
      List.filter_eq_nil_iff.mpr fun e he => by simpa using habove e he, List.append_nil]
  · rw [SortedMap.above, h, List.filter_append,
      List.filter_eq_nil_iff.mpr fun e he => by simpa using hes e he,
      List.filter_eq_self.mpr fun e he => decide_eq_true (habove e he), List.nil_append]

/-- **Matching twice is matching once** for the joint quantity. -/
theorem matchAgainst_split (hsound : LevelsSound priceOf side levels)
    (h : t.openQuantity = t₁.openQuantity + t₂.openQuantity)
    (hfok : t₁.timeInForce ≠ .fok ∧ t₂.timeInForce ≠ .fok ∧ t.timeInForce ≠ .fok)
    (index : OrderIndex) :
    let first := matchAgainst fillLevel takerPrice ⟨levels, t₁, [], index⟩
    let second := matchAgainst fillLevel takerPrice ⟨first.levels, t₂, [], first.index⟩
    let joint := matchAgainst fillLevel takerPrice ⟨levels, t, [], index⟩
    second.levels = joint.levels ∧ second.index = joint.index ∧
      (∀ ids : OrderId → Bool, traded ((first.fills ++ second.fills).filter fun f =>
        ids f.makerId) = traded (joint.fills.filter fun f => ids f.makerId)) ∧
      ∀ weight, valued weight (first.fills ++ second.fills) = valued weight joint.fills := by
  intro first second joint
  have hopen := hsound.levelsOpen
  have hup : LevelsOpen (levels.upTo takerPrice) := fun e he =>
    hopen e (SortedMap.mem_upTo.mp he).1
  have hopen₁ : LevelsOpen first.levels.entries :=
    (hsound.matchAgainst takerPrice t₁ index).levelsOpen
  obtain ⟨he₁, -, hf₁, hi₁⟩ :=
    @matchAgainst_eq K _ levels hopen takerPrice t₁ (fun hk => hfok.1 hk.1) index
  obtain ⟨he₂, -, hf₂, hi₂⟩ := @matchAgainst_eq K _ first.levels hopen₁ takerPrice t₂
    (fun hk => hfok.2.1 hk.1) first.index
  obtain ⟨he, -, hf, hi⟩ :=
    @matchAgainst_eq K _ levels hopen takerPrice t (fun hk => hfok.2.2 hk.1) index
  have hbound : ∀ e ∈ (sweepLevels t₁ (levels.upTo takerPrice)).levels, e.1 ≤ takerPrice := by
    intro e he
    rcases mem_sweepLevels he with hmem | ⟨key, level, _, hmem, -, rfl⟩
    · exact (SortedMap.mem_upTo.mp hmem).2
    · exact (SortedMap.mem_upTo.mp hmem).2
  obtain ⟨hupTo, habove⟩ := upTo_of_entries_eq he₁ hbound
  rw [show first.levels.upTo takerPrice = _ from hupTo] at he₂ hf₂ hi₂
  rw [show first.levels.above takerPrice = _ from habove] at he₂
  obtain ⟨hlevels, hpopped⟩ := sweepLevels_split h hup
  refine ⟨SortedMap.ext ?_, ?_, ?_⟩
  · rw [show second.levels.entries = _ from he₂, show joint.levels.entries = _ from he, hlevels]
  · rw [show second.index = _ from hi₂, show first.index = _ from hi₁,
      show joint.index = _ from hi, hpopped]
    simp only [dropIds, List.foldl_append]
  · -- the fills are those of sweeps of one queue
    have hq := sweep_queueOf t (levels.upTo takerPrice)
    have hq₁ := sweep_queueOf t₁ (levels.upTo takerPrice)
    have hq₂ := sweep_queueOf t₂ (sweepLevels t₁ (levels.upTo takerPrice)).levels
    have hsplit := fills_split h hup.allOpen
    rw [hq, hq₁] at hsplit
    dsimp only at hsplit
    rw [hq₂] at hsplit
    rw [show first.fills = _ from hf₁, show second.fills = _ from hf₂, show joint.fills = _ from hf]
    exact hsplit

end Match

/-! ## The book -/

namespace OrderBook

open OrderDual (toDual)

variable {book : OrderBook} {o o₁ o₂ : Order}

/-- An IOC order takes what it can and does not rest. -/
theorem insert_of_ioc (h : book.Sound) (hioc : o.timeInForce = .ioc) :
    book.insert o = ((book.matchOrder o).book, (book.matchOrder o).fills) := by
  have hexpired : isExpired o 0 = false := by rw [isExpired, hioc]
  have hrests : restsRemainder (book.matchOrder o).taker = false := by
    obtain ⟨q, hq⟩ := h.matchOrder_taker_eq o
    refine Bool.eq_false_of_not_eq_true fun hrests => (restsRemainder_iff.mp hrests).2.2.1 ?_
    rw [hq, ← hioc]
  rw [OrderBook.insert, OrderBook.insertWithTime, if_neg (by simp [hexpired])]
  exact if_neg (by simp [hrests])

/-- The match phase of two orders in turn. -/
theorem Sound.matchOrder_split (h : book.Sound)
    (htype : o₁.orderType = o.orderType ∧ o₂.orderType = o.orderType)
    (hprice : o₁.price = o.price ∧ o₂.price = o.price)
    (hside : o₁.side = o.side ∧ o₂.side = o.side)
    (hfok : o₁.timeInForce ≠ .fok ∧ o₂.timeInForce ≠ .fok ∧ o.timeInForce ≠ .fok)
    (hjoint : o.openQuantity = o₁.openQuantity + o₂.openQuantity) :
    let first := book.matchOrder o₁
    let second := first.book.matchOrder o₂
    let joint := book.matchOrder o
    second.book = joint.book ∧
      (∀ ids : OrderId → Bool, traded ((first.fills ++ second.fills).filter fun f =>
        ids f.makerId) = traded (joint.fills.filter fun f => ids f.makerId)) ∧
      ∀ weight, valued weight (first.fills ++ second.fills) = valued weight joint.fills := by
  have hbid : bidTakerPrice o₁ = bidTakerPrice o ∧ bidTakerPrice o₂ = bidTakerPrice o := by
    simp only [bidTakerPrice, htype.1, htype.2, hprice.1, hprice.2, and_self]
  have hask : askTakerPrice o₁ = askTakerPrice o ∧ askTakerPrice o₂ = askTakerPrice o := by
    simp only [askTakerPrice, htype.1, htype.2, hprice.1, hprice.2, and_self]
  rcases o.side_eq_bid_or_ask with hs | hs
  · obtain ⟨hlevels, hindex, hfills⟩ := @matchAgainst_split _ _ _ _ _ _ _ _ (bidTakerPrice o) h.asks
      hjoint hfok book.orderIndex
    intro first second joint
    have hfirst : first = _ := matchOrder_of_bid (hside.1.trans hs)
    have hsecond : second = _ := matchOrder_of_bid (hside.2.trans hs)
    have hall : joint = _ := matchOrder_of_bid hs
    rw [hsecond, hfirst, hall]
    simp only [againstAsks, hbid.1, hbid.2]
    exact ⟨by rw [hlevels, hindex], hfills⟩
  · obtain ⟨hlevels, hindex, hfills⟩ := @matchAgainst_split _ _ _ _ _ _ _ _
      (toDual (askTakerPrice o)) h.bids hjoint hfok book.orderIndex
    intro first second joint
    have hfirst : first = _ := matchOrder_of_ask (hside.1.trans hs)
    have hsecond : second = _ := matchOrder_of_ask (hside.2.trans hs)
    have hall : joint = _ := matchOrder_of_ask hs
    rw [hsecond, hfirst, hall]
    simp only [againstBids, hask.1, hask.2]
    exact ⟨by rw [hlevels, hindex], hfills⟩

/-- Lists of fills that take the same lots from the makers, at the same value. -/
structure SameTrades (fs fs' : List Fill) : Prop where
  traded : ∀ ids : OrderId → Bool, AliceLedger.traded (fs.filter fun f => ids f.makerId) =
    AliceLedger.traded (fs'.filter fun f => ids f.makerId)
  valued : ∀ weight, AliceLedger.valued weight fs = AliceLedger.valued weight fs'

/-- An IOC order that is like another except for its quantity. -/
structure SliceOf (o s : Order) : Prop where
  side : s.side = o.side
  orderType : s.orderType = o.orderType
  price : s.price = o.price
  ioc : s.timeInForce = .ioc

/-- Two slices. -/
theorem Sound.insert_split (h : book.Sound) (hioc : o.timeInForce = .ioc) (h₁ : SliceOf o o₁)
    (h₂ : SliceOf o o₂) (hjoint : o.openQuantity = o₁.openQuantity + o₂.openQuantity) :
    ((book.insert o₁).1.insert o₂).1 = (book.insert o).1 ∧
      SameTrades ((book.insert o₁).2 ++ ((book.insert o₁).1.insert o₂).2) (book.insert o).2 := by
  have hfok : o₁.timeInForce ≠ .fok ∧ o₂.timeInForce ≠ .fok ∧ o.timeInForce ≠ .fok := by
    simp [h₁.ioc, h₂.ioc, hioc]
  obtain ⟨hbook, htraded, hvalued⟩ := h.matchOrder_split ⟨h₁.orderType, h₂.orderType⟩
    ⟨h₁.price, h₂.price⟩ ⟨h₁.side, h₂.side⟩ hfok hjoint
  have hfirst : (book.insert o₁).1.Sound := h.step (.insert o₁)
  rw [insert_of_ioc hfirst h₂.ioc, insert_of_ioc h hioc, insert_of_ioc h h₁.ioc]
  exact ⟨hbook, htraded, hvalued⟩

theorem SameTrades.append_left {fs fs' : List Fill} (h : SameTrades fs fs') (gs : List Fill) :
    SameTrades (gs ++ fs) (gs ++ fs') where
  traded ids := by
    rw [List.filter_append, List.filter_append, traded_append, traded_append, h.traded]
  valued weight := by rw [valued_append, valued_append, h.valued]

theorem SameTrades.trans {fs gs hs : List Fill} (h : SameTrades fs gs) (h' : SameTrades gs hs) :
    SameTrades fs hs :=
  ⟨fun ids => (h.traded ids).trans (h'.traded ids),
    fun weight => (h.valued weight).trans (h'.valued weight)⟩

/-- The order for what the slices after the first want together. -/
theorem exists_slice (o : Order) {n : ℕ} (hn : n ≤ o.openQuantity) (hioc : o.timeInForce = .ioc) :
    ∃ s, SliceOf o s ∧ s.openQuantity = n := by
  refine ⟨{ o with quantity := UInt64.ofNat n, filledQuantity := 0 }, ⟨rfl, rfl, rfl, hioc⟩, ?_⟩
  have hlt : n < 2 ^ 64 :=
    (hn.trans (Nat.sub_le _ _)).trans_lt o.quantity.toNat_lt_two_pow
  rw [Order.openQuantity]
  dsimp only
  rw [UInt64.toNat_ofNat_of_lt' hlt]
  rfl

/-- **Slicing changes nothing.** On every reachable book, the slices of an IOC order, inserted one
after another, leave exactly the book that the order for their joint quantity leaves; together they
take as many lots from the makers of any set of ids as it does, and at the same value. -/
theorem slices_agree (ops : List BookOp) (slices : List Order) (hioc : o.timeInForce = .ioc)
    (hslices : ∀ s ∈ slices, SliceOf o s)
    (hjoint : o.openQuantity = (slices.map Order.openQuantity).sum) :
    let book := ops.foldl step new
    (book.insertAll slices).1 = (book.insert o).1 ∧
      SameTrades (book.insertAll slices).2 (book.insert o).2 := by
  intro book
  have hsound : book.Sound := sound_run ops
  generalize book = book at hsound
  induction slices generalizing book o with
  | nil =>
    have hquiet := hsound.insert_of_quiet (.inl (isFilled_iff_openQuantity.mpr hjoint))
    have hrests : restsRemainder o = false := Bool.eq_false_of_not_eq_true fun hrests =>
      (restsRemainder_iff.mp hrests).2.2.1 hioc
    rw [hquiet, hrests]
    exact ⟨rfl, fun _ => rfl, fun _ => rfl⟩
  | cons s slices ih =>
    rw [List.map_cons, List.sum_cons] at hjoint
    have hs := hslices s List.mem_cons_self
    obtain ⟨later, hlater, hopen⟩ := exists_slice o
      (show (slices.map Order.openQuantity).sum ≤ o.openQuantity by omega) hioc
    have hrest : ∀ s ∈ slices, SliceOf later s := fun s hmem => by
      have hslice := hslices s (List.mem_cons_of_mem _ hmem)
      exact ⟨hslice.side.trans hlater.side.symm, hslice.orderType.trans hlater.orderType.symm,
        hslice.price.trans hlater.price.symm, hslice.ioc⟩
    obtain ⟨hbook, htrades⟩ := ih hlater.ioc hrest hopen (book.insert s).1 (hsound.step (.insert s))
    obtain ⟨hbook', htrades'⟩ := hsound.insert_split hioc hs hlater (by omega)
    exact ⟨hbook.trans hbook', (htrades.append_left _).trans htrades'⟩

/-- An IOC bid at 101. -/
def sliceOfBid (quantity : UInt64) : Order :=
  { Order.limit 9 .bid 101 quantity 9 with timeInForce := .ioc }

/-- Seven lots of two asks, bought in slices of three and four. -/
theorem slices_agree_seven :
    let book := [BookOp.insert (.limit 1 .ask 100 5 0), .insert (.limit 2 .ask 101 5 1)].foldl step
      new
    (book.insertAll [sliceOfBid 3, sliceOfBid 4]).1 = (book.insert (sliceOfBid 7)).1 :=
  (slices_agree [.insert (.limit 1 .ask 100 5 0), .insert (.limit 2 .ask 101 5 1)]
    [sliceOfBid 3, sliceOfBid 4] rfl (by
      intro s hs
      rcases List.mem_cons.mp hs with rfl | hs
      · exact ⟨rfl, rfl, rfl, rfl⟩
      · obtain rfl := List.mem_singleton.mp hs
        exact ⟨rfl, rfl, rfl, rfl⟩) (by decide)).1

end OrderBook

end AliceLedger
