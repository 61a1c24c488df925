import AliceLedger.Book.FokComplete
import AliceLedger.Book.Withdrawals

/-!
# Matching reads no names

The book treats ids as names, prices through their order and times of submission not at all. A
*relabelling* renames the ids of a run, replaces its limits by others in the same order and its
times, and the prices of its market orders, by any. As long as no total wraps, the run of the
relabelled operations is the relabelled run: its queues, its fills and the orders it withdraws
(`relabelled_run`).

The two books are compared by their queues (`Relabels`). Matching and withdrawing commute with the
relabelling because they filter and sweep queues; resting does because the order goes behind all
that are not worse (`Sound.queue_restOrder`).
-/

namespace AliceLedger

/-! ## Lists sorted by a key -/

section Lists

variable {α κ : Type*} {R : κ → κ → Prop} {key : α → κ} {as bs : List α}

/-- The head of a sorted list is related to its members, or is one of them. -/
theorem eq_or_of_pairwise_cons {a b : α} (h : (a :: as).Pairwise fun x y => R (key x) (key y))
    (hb : b ∈ a :: as) : b = a ∨ R (key a) (key b) :=
  (List.mem_cons.mp hb).imp_right fun hb => List.rel_of_pairwise_cons h hb

/-- **A sorted list is decided by its members of each key**, in their order. -/
theorem eq_of_filter_key [DecidableEq κ] (hanti : ∀ k k', R k k' → R k' k → k = k')
    (ha : as.Pairwise fun x y => R (key x) (key y)) (hb : bs.Pairwise fun x y => R (key x) (key y))
    (hkey : ∀ k, (as.filter fun x => key x = k) = bs.filter fun x => key x = k) : as = bs := by
  have hmem : ∀ x, x ∈ as ↔ x ∈ bs := fun x => by
    have hat := congrArg (x ∈ ·) (hkey (key x))
    simpa using hat
  induction as generalizing bs with
  | nil =>
    have hnil : bs = [] := List.eq_nil_iff_forall_not_mem.mpr fun x hx =>
      List.not_mem_nil ((hmem x).mpr hx)
    exact hnil.symm
  | cons a as ih =>
    cases bs with
    | nil => exact absurd ((hmem a).mp List.mem_cons_self) List.not_mem_nil
    | cons b bs =>
      have hheads : key a = key b := by
        rcases eq_or_of_pairwise_cons hb ((hmem a).mp List.mem_cons_self) with rfl | hba
        · rfl
        · rcases eq_or_of_pairwise_cons ha ((hmem b).mpr List.mem_cons_self) with rfl | hab
          · rfl
          · exact hanti _ _ hab hba
      obtain rfl : a = b := by
        have hat := hkey (key a)
        rw [List.filter_cons_of_pos (by simp), List.filter_cons_of_pos (by simp [hheads])] at hat
        exact (List.cons.inj hat).1
      have htails : ∀ k, (as.filter fun x => key x = k) = bs.filter fun x => key x = k := by
        intro k
        have hat := hkey k
        rw [List.filter_cons, List.filter_cons] at hat
        split_ifs at hat
        · exact (List.cons.inj hat).2
        · exact hat
      refine congrArg (a :: ·) (ih ha.of_cons hb.of_cons htails fun x => ?_)
      have hat := congrArg (x ∈ ·) (htails (key x))
      simpa using hat

end Lists

/-! ## Relabelled data -/

/-- New names for the ids, the limits, the prices of market orders, the stop prices and the times of
a run. -/
structure Relabelling where
  id : OrderId → OrderId
  price : Int64 → Int64
  marketPrice : Int64 → Int64
  stopPrice : Int64 → Int64
  timestampNs : UInt64 → UInt64

namespace Relabelling

variable (r : Relabelling)

/-- A relabelled order type. -/
def orderType : OrderType → OrderType
  | .limit => .limit
  | .market => .market
  | .stopLimit stopPrice => .stopLimit (r.stopPrice stopPrice)

/-- A relabelled order. -/
def order (o : Order) : Order :=
  { o with
    id := r.id o.id
    orderType := r.orderType o.orderType
    price := if o.orderType = .market then r.marketPrice o.price else r.price o.price
    timestampNs := r.timestampNs o.timestampNs }

/-- A relabelled fill. -/
def fill (f : Fill) : Fill :=
  ⟨r.id f.makerId, r.id f.takerId, r.price f.price, f.quantity, r.timestampNs f.timestampNs⟩

/-- A relabelled operation. -/
def op : BookOp → BookOp
  | .insert o => .insert (r.order o)
  | .insertWithTime o nowNs => .insertWithTime (r.order o) nowNs
  | .cancel id => .cancel (r.id id)
  | .purgeExpired nowNs => .purgeExpired nowNs
  | .cancelAllSide side => .cancelAllSide side
  | .cancelAll => .cancelAll

/-- A relabelled result of a sweep. -/
def swept (s : Swept) : Swept :=
  ⟨r.order s.taker, s.popped.map r.order, s.makers.map r.order, s.fills.map r.fill⟩

variable (o : Order)

@[simp] theorem id_order : (r.order o).id = r.id o.id := rfl
@[simp] theorem side_order : (r.order o).side = o.side := rfl
@[simp] theorem timeInForce_order : (r.order o).timeInForce = o.timeInForce := rfl
@[simp] theorem remaining_order : (r.order o).remaining = o.remaining := rfl
@[simp] theorem isFilled_order : (r.order o).isFilled = o.isFilled := rfl

theorem orderType_eq_market_iff : (r.order o).orderType = .market ↔ o.orderType = .market := by
  change r.orderType o.orderType = _ ↔ _
  cases o.orderType <;> simp [orderType]

variable {o} in
theorem price_order (h : o.orderType ≠ .market) : (r.order o).price = r.price o.price := if_neg h

theorem tradeFill_order (taker : Order) {maker : Order} (h : maker.orderType ≠ .market) :
    tradeFill (r.order taker) (r.order maker) = r.fill (tradeFill taker maker) := by
  simp only [tradeFill, fill, r.price_order h]
  rfl

theorem restsRemainder_order :
    OrderBook.restsRemainder (r.order o) = OrderBook.restsRemainder o := by
  obtain ⟨id, side, orderType, price, quantity, filled, ts, tif⟩ := o
  cases orderType <;> rfl

theorem withdraws_op {op : BookOp} (hop : op.Withdraws) : (r.op op).Withdraws := by
  cases op with
  | insert o => exact hop.elim
  | insertWithTime o nowNs => exact hop.elim
  | _ => trivial

theorem takes_op_iff (hid : Function.Injective r.id) (op : BookOp) (o : Order) :
    (r.op op).Takes (r.order o) ↔ op.Takes o := by
  cases op with
  | cancel id => exact hid.eq_iff
  | _ => exact Iff.rfl

/-- **A sweep commutes with the relabelling** when the makers have limits. -/
theorem sweep_order (taker : Order) {makers : List Order}
    (h : ∀ maker ∈ makers, maker.orderType ≠ .market) :
    sweep (r.order taker) (makers.map r.order) = r.swept (sweep taker makers) := by
  induction makers generalizing taker with
  | nil => rfl
  | cons maker rest ih =>
    have hqty : tradeQty (r.order taker) (r.order maker) = tradeQty taker maker := rfl
    have hadd : ∀ o : Order, ∀ qty, (r.order o).addFilled qty = r.order (o.addFilled qty) :=
      fun _ _ => rfl
    have hfill := r.tradeFill_order taker (h maker List.mem_cons_self)
    have hrest := fun taker => ih taker fun o ho => h o (List.mem_cons_of_mem _ ho)
    rw [List.map_cons]
    cases ht : taker.isFilled with
    | true => rw [sweep_of_filled ht, sweep_of_filled (by simpa using ht)]; rfl
    | false =>
      cases hm : (maker.addFilled (tradeQty taker maker)).isFilled with
      | true =>
        rw [sweep_cons_pop ht hm, sweep_cons_pop (by simpa using ht)
          (by simpa [hqty, hadd] using hm), hfill, hqty, hadd, hadd, hrest]
        rfl
      | false =>
        rw [sweep_cons_keep ht hm, sweep_cons_keep (by simpa using ht)
          (by simpa [hqty, hadd] using hm), hfill, hqty, hadd, hadd]
        rfl

theorem liquidity_map_order (os : List Order) : liquidity (os.map r.order) = liquidity os := by
  rw [liquidity, List.map_map]
  rfl

end Relabelling

/-! ## Prices through their order -/

section Prices

variable {r : Relabelling} {prices : Set Int64} {side : Side} {taker maker : Order}

theorem Better.trans {p p' p'' : Int64} (h : Better side p p') (h' : Better side p' p'') :
    Better side p p'' := by
  cases side with
  | bid => exact lt_trans (α := Int64) h' h
  | ask => exact lt_trans (α := Int64) h h'

theorem better_relabel_iff (hmono : StrictMonoOn r.price prices) {p p' : Int64} (hp : p ∈ prices)
    (hp' : p' ∈ prices) : Better side (r.price p) (r.price p') ↔ Better side p p' := by
  cases side with
  | bid => exact hmono.lt_iff_lt hp' hp
  | ask => exact hmono.lt_iff_lt hp hp'

theorem crosses_relabel_iff (hmono : StrictMonoOn r.price prices)
    (ht : taker.orderType ≠ .market → taker.price ∈ prices) (hm : maker.orderType ≠ .market)
    (hprice : maker.price ∈ prices) :
    Crosses (r.order taker) (r.order maker) ↔ Crosses taker maker := by
  unfold Crosses
  rw [r.orderType_eq_market_iff, r.side_order, r.price_order hm]
  by_cases htype : taker.orderType = .market
  · exact iff_of_true (.inl htype) (.inl htype)
  · rw [r.price_order htype]
    refine or_congr_right ?_
    cases taker.side with
    | bid => exact hmono.le_iff_le hprice (ht htype)
    | ask => exact hmono.le_iff_le (ht htype) hprice

end Prices

namespace OrderBook

variable {book book' : OrderBook} {order : Order} {r : Relabelling} {prices : Set Int64}

/-- **Resting puts the order behind all that are not worse.** -/
theorem Sound.queue_restOrder (h : book.Sound) (h' : (book.restOrder order).Sound) :
    (book.restOrder order).queue order.side =
      ((book.queue order.side).filter fun o => ¬ Better order.side order.price o.price) ++
        order :: (book.queue order.side).filter fun o => Better order.side order.price o.price := by
  obtain ⟨-, -, hown, -⟩ := h.restOrder_queue order
  have hsorted := h.queue_pairwise order.side
  refine @eq_of_filter_key Order Int64 (fun p p' => ¬ Better order.side p' p) Order.price _ _ _
    (fun _ _ hle hge => eq_of_not_better hge hle) (h'.queue_pairwise _) ?_ fun price => ?_
  · refine List.pairwise_append.mpr ⟨hsorted.filter _, List.pairwise_cons.mpr
      ⟨fun o ho => ?_, hsorted.filter _⟩, fun o ho o' ho' hbetter => ?_⟩
    · exact (of_decide_eq_true (List.mem_filter.mp ho).2).asymm
    · have hnot := of_decide_eq_true (List.mem_filter.mp ho).2
      rcases List.mem_cons.mp ho' with rfl | ho'
      · exact hnot hbetter
      · exact hnot ((of_decide_eq_true (List.mem_filter.mp ho').2).trans hbetter)
  · rw [hown, List.filter_append, List.filter_cons, List.filter_filter, List.filter_filter]
    -- at one price either all are worse than the order or none is
    have hat : ∀ o : Order, ∀ p : Int64 → Bool,
        (decide (o.price = price) && p o.price) = (decide (o.price = price) && p price) := by
      intro o p
      by_cases heq : o.price = price
      · rw [heq]
      · simp [heq]
    simp only [hat _ fun p => decide (¬ Better order.side order.price p),
      hat _ fun p => decide (Better order.side order.price p)]
    by_cases hworse : Better order.side order.price price
    · have hne : order.price ≠ price := fun heq => hworse.asymm (heq ▸ hworse)
      simp [hworse, hne]
    · simp only [hworse, not_false_eq_true, decide_true, decide_false, Bool.and_true,
        Bool.and_false, decide_eq_true_eq, List.filter_false]

/-! ## A book and its relabelling -/

/-- The queues of one book are those of another, relabelled, whose orders have limits among the
given prices. -/
structure Relabels (r : Relabelling) (prices : Set Int64) (book book' : OrderBook) : Prop where
  sound : book.Sound
  sound' : book'.Sound
  queue_eq : ∀ side, book'.queue side = (book.queue side).map r.order
  limit_mem : ∀ side, ∀ o ∈ book.queue side, o.orderType ≠ .market ∧ o.price ∈ prices

namespace Relabels

variable (h : Relabels r prices book book') (hmono : StrictMonoOn r.price prices)
include h hmono

theorem crossing_eq (hprice : order.orderType ≠ .market → order.price ∈ prices) :
    book'.crossing (r.order order) = (book.crossing order).map r.order := by
  rw [crossing, crossing, r.side_order, h.queue_eq, List.filter_map]
  refine congrArg (List.map r.order) (List.filter_congr fun o ho => decide_eq_decide.mpr ?_)
  obtain ⟨htype, hmem⟩ := h.limit_mem _ o ho
  exact crosses_relabel_iff hmono hprice htype hmem

/-- Where the totals are exact, the relabelled order is killed with the order. -/
theorem kills_iff (hexact : book.Exact) (hexact' : book'.Exact)
    (hprice : order.orderType ≠ .market → order.price ∈ prices) :
    book'.Kills (r.order order) ↔ book.Kills order := by
  by_cases hfok : order.timeInForce = .fok
  · have hkills' := @Sound.kills_iff_offered book' (r.order order) h.sound' hfok
    rw [h.sound.kills_iff_offered hfok, hkills', hexact.offered_eq, hexact'.offered_eq,
      h.crossing_eq hmono hprice, r.liquidity_map_order, r.remaining_order]
  · exact iff_of_false (fun hk => hfok hk.1) fun hk => hfok hk.1

/-- **Matching commutes with the relabelling.** -/
theorem matchOrder (hexact : book.Exact) (hexact' : book'.Exact)
    (hprice : order.orderType ≠ .market → order.price ∈ prices) :
    Relabels r prices (book.matchOrder order).book (book'.matchOrder (r.order order)).book ∧
      (book'.matchOrder (r.order order)).taker = r.order (book.matchOrder order).taker ∧
      (book'.matchOrder (r.order order)).fills = (book.matchOrder order).fills.map r.fill := by
  have hkills := h.kills_iff hmono hexact hexact' hprice
  by_cases hk : book.Kills order
  · rw [matchOrder_of_kills hk, matchOrder_of_kills (hkills.mpr hk)]
    exact ⟨h, rfl, rfl⟩
  · obtain ⟨q, rest, hm⟩ := h.sound.matchOrder_queue hk
    obtain ⟨q', rest', hm'⟩ := h.sound'.matchOrder_queue (hkills.not.mpr hk)
    obtain rfl : q' = q.map r.order := by
      rw [← hm'.crossing_eq, ← hm.crossing_eq, h.crossing_eq hmono hprice]
    have hbefore := hm'.before
    rw [r.side_order, h.queue_eq, hm.before, List.map_append] at hbefore
    obtain rfl : rest.map r.order = rest' := List.append_cancel_left hbefore
    have hsweep := r.sweep_order order fun o (ho : o ∈ q) =>
      (h.limit_mem _ o (hm.before ▸ List.mem_append_left rest ho)).1
    refine ⟨⟨h.sound.matchOrder order, h.sound'.matchOrder _, fun side => ?_, fun side o ho => ?_⟩,
      ?_, ?_⟩
    · by_cases hs : side = order.side
      · rw [hs, hm.own, ← h.queue_eq]
        exact hm'.own
      · rw [Side.eq_opposite_of_ne hs, hm.after, List.map_append]
        refine hm'.after.trans ?_
        rw [hsweep]
        rfl
    · obtain ⟨o₀, ho₀, hgrown⟩ := exists_of_sublistForall₂ (hm.grown h.sound side) ho
      rw [hgrown.price_eq, show o.orderType = o₀.orderType by rw [hgrown.eq]]
      exact h.limit_mem side o₀ ho₀
    · rw [hm'.taker_eq, hm.taker_eq, hsweep]
      rfl
    · rw [hm'.fills_eq, hm.fills_eq, hsweep]
      rfl

/-- **Resting commutes with the relabelling.** -/
theorem restOrder (hs : (book.restOrder order).Sound)
    (hs' : (book'.restOrder (r.order order)).Sound) (htype : order.orderType ≠ .market)
    (hprice : order.price ∈ prices) :
    Relabels r prices (book.restOrder order) (book'.restOrder (r.order order)) := by
  obtain ⟨hother, hperm, -⟩ := h.sound.restOrder_queue order
  obtain ⟨hother', -⟩ := h.sound'.restOrder_queue (r.order order)
  refine ⟨hs, hs', fun side => ?_, fun side o ho => ?_⟩
  · by_cases hside : side = order.side
    · have hown := h.sound.queue_restOrder hs
      have hown' := h.sound'.queue_restOrder hs'
      have hbetter : ∀ o ∈ book.queue order.side,
          Better order.side (r.order order).price (r.order o).price ↔
            Better order.side order.price o.price := by
        intro o ho
        obtain ⟨hmaker, hmem⟩ := h.limit_mem _ o ho
        rw [r.price_order htype, r.price_order hmaker]
        exact better_relabel_iff hmono hprice hmem
      rw [r.side_order, h.queue_eq, List.filter_map, List.filter_map] at hown'
      rw [hside, hown, List.map_append, List.map_cons]
      refine hown'.trans (congrArg₂ (· ++ ·) (congrArg (List.map r.order) ?_)
        (congrArg (fun os : List Order => r.order order :: os.map r.order) ?_))
      · exact List.filter_congr fun o ho => decide_eq_decide.mpr (not_congr (hbetter o ho))
      · exact List.filter_congr fun o ho => decide_eq_decide.mpr (hbetter o ho)
    · rw [Side.eq_opposite_of_ne hside, hother, ← h.queue_eq]
      exact hother'
  · by_cases hside : side = order.side
    · rw [hside] at ho
      rcases List.mem_cons.mp (hperm.mem_iff.mp ho) with rfl | ho
      · exact ⟨htype, hprice⟩
      · exact h.limit_mem _ o ho
    · rw [Side.eq_opposite_of_ne hside, hother] at ho
      exact h.limit_mem _ o ho

/-- **Insertion commutes with the relabelling**, and so do its fills. -/
theorem insertWithTime (hexact : book.Exact) (hexact' : book'.Exact)
    (hprice : order.orderType ≠ .market → order.price ∈ prices) (nowNs : UInt64) :
    Relabels r prices (book.insertWithTime order nowNs).1
        (book'.insertWithTime (r.order order) nowNs).1 ∧
      (book'.insertWithTime (r.order order) nowNs).2 =
        (book.insertWithTime order nowNs).2.map r.fill := by
  have hsound := h.sound.insertWithTime order nowNs
  have hsound' := h.sound'.insertWithTime (r.order order) nowNs
  obtain ⟨hbook, htaker, hfills⟩ := h.matchOrder hmono hexact hexact' hprice
  have hexpired : isExpired (r.order order) nowNs = isExpired order nowNs := rfl
  have hrests := r.restsRemainder_order (book.matchOrder order).taker
  simp only [OrderBook.insertWithTime, hexpired, htaker, hrests] at hsound hsound' ⊢
  by_cases hexp : isExpired order nowNs = true
  · simp only [if_pos hexp]
    exact ⟨h, rfl⟩
  · simp only [if_neg hexp] at hsound hsound' ⊢
    by_cases hrest : restsRemainder (book.matchOrder order).taker = true
    · simp only [if_pos hrest] at hsound hsound' ⊢
      obtain ⟨q, hq⟩ := h.sound.matchOrder_taker_eq order
      have htype := (restsRemainder_iff.mp hrest).2.1
      refine ⟨hbook.restOrder hmono hsound hsound' htype ?_, hfills⟩
      rw [hq] at htype ⊢
      exact hprice htype
    · simp only [if_neg hrest]
      exact ⟨hbook, hfills⟩

omit hmono

theorem resting_eq : book'.resting = book.resting.map r.order := by
  rw [resting, resting, h.queue_eq, h.queue_eq, List.map_append]

/-- **Withdrawals commute with the relabelling**, and so does what they return. -/
theorem withdraw (hrep : book.RepInv) (hrep' : book'.RepInv) (hid : Function.Injective r.id)
    {op : BookOp} (hop : op.Withdraws) :
    Relabels r prices (book.step op) (book'.step (r.op op)) ∧
      book'.emitted (r.op op) = (book.emitted op).map r.fill ∧
      book'.withdrawn (r.op op) = (book.withdrawn op).map r.order := by
  have hop' := r.withdraws_op hop
  have htakes : ((fun o => decide ((r.op op).Takes o)) ∘ r.order) = fun o => decide (op.Takes o) :=
    funext fun o => decide_eq_decide.mpr (r.takes_op_iff hid op o)
  refine ⟨?_, ?_, ?_⟩
  · refine ⟨h.sound.step op, h.sound'.step (r.op op), fun side => ?_, fun side o ho => ?_⟩
    · rw [hrep'.listed.step_eq_discard h.sound' hrep'.indexLive hop', queue_discard,
        hrep.listed.step_eq_discard h.sound hrep.indexLive hop, queue_discard, h.queue_eq,
        List.filter_map]
      refine congrArg (List.map r.order) (List.filter_congr fun o _ => ?_)
      exact congrArg not (congrFun htakes o)
    · rw [hrep.listed.step_eq_discard h.sound hrep.indexLive hop, queue_discard] at ho
      exact h.limit_mem side o (List.mem_of_mem_filter ho)
  · cases op with
    | insert o => exact hop.elim
    | insertWithTime o nowNs => exact hop.elim
    | _ => rfl
  · rw [hrep'.listed.withdrawn_eq h.sound' hrep'.indexLive hop',
      hrep.listed.withdrawn_eq h.sound hrep.indexLive hop, h.resting_eq, List.filter_map, htakes]

/-- A sum at a price of the relabelled book is one at a price of the book. -/
theorem wellKept (hmono : StrictMonoOn r.price prices) (hid : Function.Injective r.id)
    (hkept : book.WellKept) : book'.WellKept := by
  constructor
  · have hids : book'.resting.map Order.id = (book.resting.map Order.id).map r.id := by
      rw [h.resting_eq, List.map_map, List.map_map]
      rfl
    rw [hids]
    exact hkept.nodup.map hid
  · intro side price
    rw [h.queue_eq, List.filter_map, r.liquidity_map_order]
    by_cases hat : ∃ o ∈ book.queue side, (r.order o).price = price
    · obtain ⟨o, ho, rfl⟩ := hat
      obtain ⟨htype, hmem⟩ := h.limit_mem side o ho
      refine lt_of_eq_of_lt (congrArg liquidity (List.filter_congr fun o' ho' => ?_))
        (hkept.sums_fit side o.price)
      obtain ⟨htype', hmem'⟩ := h.limit_mem side o' ho'
      refine decide_eq_decide.mpr ?_
      rw [r.price_order htype, r.price_order htype']
      exact hmono.injOn.eq_iff hmem' hmem
    · have hnone : (book.queue side).filter ((fun o => decide (o.price = price)) ∘ r.order) = [] :=
        List.filter_eq_nil_iff.mpr fun o ho heq => hat ⟨o, ho, of_decide_eq_true heq⟩
      rw [hnone]
      exact Nat.two_pow_pos 64

end Relabels

/-- **One operation** commutes with the relabelling, and so do its fills and what it withdraws. -/
theorem Relabels.step (h : Relabels r prices book book') (hmono : StrictMonoOn r.price prices)
    (hid : Function.Injective r.id) (hrep : book.RepInv) (hrep' : book'.RepInv) (op : BookOp)
    (hprice : ∀ o ∈ submittedBy op, o.orderType ≠ .market → o.price ∈ prices) :
    Relabels r prices (book.step op) (book'.step (r.op op)) ∧
      book'.emitted (r.op op) = (book.emitted op).map r.fill ∧
      book'.withdrawn (r.op op) = (book.withdrawn op).map r.order := by
  cases op with
  | insert o =>
    obtain ⟨hbook, hfills⟩ :=
      h.insertWithTime hmono hrep.exact hrep'.exact (hprice o List.mem_cons_self) 0
    exact ⟨hbook, hfills, rfl⟩
  | insertWithTime o nowNs =>
    obtain ⟨hbook, hfills⟩ :=
      h.insertWithTime hmono hrep.exact hrep'.exact (hprice o List.mem_cons_self) nowNs
    exact ⟨hbook, hfills, rfl⟩
  | _ => exact h.withdraw hrep hrep' hid trivial

/-- **A run** of operations commutes with the relabelling. -/
theorem Relabels.run (h : Relabels r prices book book') (hmono : StrictMonoOn r.price prices)
    (hid : Function.Injective r.id) (hrep : book.RepInv) {ops : List BookOp}
    (hprice : ∀ o ∈ ops.flatMap submittedBy, o.orderType ≠ .market → o.price ∈ prices)
    (hrep' : book'.RepInv) (hkept : Run.Throughout OrderBook.step WellKept book ops) :
    Relabels r prices (ops.foldl OrderBook.step book) ((ops.map r.op).foldl OrderBook.step book') ∧
      book'.fillsFrom (ops.map r.op) = (book.fillsFrom ops).map r.fill ∧
      book'.withdrawnBy (ops.map r.op) = (book.withdrawnBy ops).map r.order := by
  induction ops generalizing book book' with
  | nil => exact ⟨h, rfl, rfl⟩
  | cons op ops ih =>
    rw [List.flatMap_cons] at hprice
    obtain ⟨hbook, hfills, hwithdrawn⟩ := h.step hmono hid hrep hrep' op fun o ho =>
      hprice o (List.mem_append_left _ ho)
    have hnext := hkept.2.head
    obtain ⟨hlast, hfills', hwithdrawn'⟩ := ih hbook (hrep.step_of_wellKept hnext)
      (fun o ho => hprice o (List.mem_append_right _ ho))
      (hrep'.step_of_wellKept (hbook.wellKept hmono hid hnext)) hkept.2
    refine ⟨hlast, ?_, ?_⟩
    · rw [List.map_cons, fillsFrom_cons, fillsFrom_cons, hfills, hfills', List.map_append]
    · rw [List.map_cons, withdrawnBy, withdrawnBy, hwithdrawn, hwithdrawn', List.map_append]

/-- The limits of the orders that a run submits. -/
def limits (ops : List BookOp) : Set Int64 :=
  {price | ∃ o ∈ ops.flatMap submittedBy, o.orderType ≠ .market ∧ o.price = price}

/-- **Matching reads no names.** Take a run whose resting ids stay distinct and whose sums at each
price stay below 2^64. Rename its ids by any injection, replace its limits by others in the same
order, and its stop prices, the prices of its market orders and its times of submission by any. The
run of the new operations ends with the same queues, makes the same fills and withdraws the same
orders, in the new names. -/
theorem relabelled_run (r : Relabelling) (hid : Function.Injective r.id) (ops : List BookOp)
    (hmono : StrictMonoOn r.price (limits ops)) (h : Run.Throughout step WellKept new ops) :
    (∀ side, ((ops.map r.op).foldl step new).queue side =
        ((ops.foldl step new).queue side).map r.order) ∧
      new.fillsFrom (ops.map r.op) = (new.fillsFrom ops).map r.fill ∧
      new.withdrawnBy (ops.map r.op) = (new.withdrawnBy ops).map r.order := by
  have hstart : Relabels r (limits ops) new new := by
    refine ⟨sound_new, sound_new, fun side => ?_, fun side o ho => ?_⟩
    · cases side <;> rfl
    · cases side <;> exact absurd ho List.not_mem_nil
  obtain ⟨hbook, hfills, hwithdrawn⟩ := hstart.run hmono hid repInv_new
    (fun o ho htype => ⟨o, ho, htype, rfl⟩) repInv_new h
  exact ⟨hbook.queue_eq, hfills, hwithdrawn⟩

/-- Later ids, two prices only and no times. -/
def coarse : Relabelling where
  id id := ⟨id.val + 10⟩
  price price := if price ≤ 100 then 5 else 9
  marketPrice _ := -1
  stopPrice _ := 0
  timestampNs _ := 0

/-- Two asks, a market bid that carries the price of the second, and a cancellation. -/
def marketSweep : List BookOp :=
  [.insert (.limit 1 .ask 100 5 0), .insert (.limit 2 .ask 101 5 1),
    .insert { Order.limit 3 .bid 101 7 2 with orderType := .market }, .cancel ⟨2⟩]

/-- The bid takes one of the asks and a part of the other, which is then cancelled. -/
theorem relabelled_run_coarse :
    new.fillsFrom (marketSweep.map coarse.op) = (new.fillsFrom marketSweep).map coarse.fill := by
  have hfits : ∀ book : OrderBook, liquidity (book.queue .bid) < 2 ^ 64 →
      liquidity (book.queue .ask) < 2 ^ 64 → (book.resting.map Order.id).Nodup → book.WellKept :=
    fun _ hbid hask hnodup => ⟨hnodup, sumsFit_of_liquidity_queue hbid hask⟩
  refine (relabelled_run coarse (fun a b heq => ?_) marketSweep ?_
    ⟨hfits _ (by decide) (by decide) (by decide), hfits _ (by decide) (by decide) (by decide),
      hfits _ (by decide) (by decide) (by decide), hfits _ (by decide) (by decide) (by decide),
      hfits _ (by decide) (by decide) (by decide)⟩).2.1
  · exact OrderId.val_injective ((UInt64.add_left_inj 10).mp (congrArg OrderId.val heq))
  · rintro _ ⟨a, ha, htype, rfl⟩ _ ⟨b, hb, htype', rfl⟩ hlt
    have hcases : ∀ o ∈ marketSweep.flatMap submittedBy, ∀ o' ∈ marketSweep.flatMap submittedBy,
        o.orderType ≠ .market → o'.orderType ≠ .market → o.price < o'.price →
          coarse.price o.price < coarse.price o'.price := by decide
    exact hcases a ha b hb htype htype' hlt

end OrderBook

end AliceLedger
