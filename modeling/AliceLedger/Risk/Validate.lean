import AliceLedger.Risk.Model

/-!
# What a batch validator accepts

The loop of `validate` does three things in one pass. In terms of the orders of the batch they come
apart: an order is *offered* to the risk check when it is the first with its id, is not empty and,
under self-trade prevention, conflicts with no order offered before it; the offered orders then
pass the risk check of one manager in turn, each at the position after those that passed. The
running best prices stand for the offered orders of either side (`Tracks`), so one pass of the loop
rejects or checks its order as this description says (`validateStep_cases`).
-/

namespace AliceLedger

/-! ## Orders offered to the risk check -/

/-- Two orders of opposite sides with crossing prices, whatever their types. -/
def Conflicts (order maker : Order) : Prop :=
  match order.side, maker.side with
  | .bid, .ask => maker.price ≤ order.price
  | .ask, .bid => order.price ≤ maker.price
  | _, _ => False

instance (order maker : Order) : Decidable (Conflicts order maker) := by
  delta Conflicts
  exact match order.side, maker.side with
    | .bid, .ask | .ask, .bid => inferInstanceAs (Decidable (_ ≤ _))
    | .bid, .bid | .ask, .ask => inferInstanceAs (Decidable False)

theorem conflicts_comm (a b : Order) : Conflicts a b ↔ Conflicts b a := by
  unfold Conflicts
  cases a.side <;> cases b.side <;> exact Iff.rfl

/-- The orders offered to the risk check, after orders with the ids `seen` and the offered orders
`kept`. -/
def offeredAfter (stp : Bool) : List OrderId → List Order → List Order → List Order
  | _, _, [] => []
  | seen, kept, order :: orders =>
    if order.id ∉ seen ∧ order.quantity ≠ 0 ∧
        (stp = true → ∀ maker ∈ kept, ¬ Conflicts order maker) then
      order :: offeredAfter stp (order.id :: seen) (order :: kept) orders
    else offeredAfter stp (order.id :: seen) kept orders

/-- The orders of a batch that are offered to the risk check. -/
def offered (stp : Bool) (orders : List Order) : List Order := offeredAfter stp [] [] orders

section Offered

variable {stp : Bool} {seen : List OrderId} {kept orders : List Order} {order : Order}

/-- An offered order is the first of the batch with its id, and its id is new. -/
theorem find?_of_mem_offeredAfter (h : order ∈ offeredAfter stp seen kept orders) :
    orders.find? (fun o => o.id = order.id) = some order ∧ order.id ∉ seen := by
  induction orders generalizing seen kept with
  | nil => exact absurd h (by simp [offeredAfter])
  | cons o orders ih =>
    have htail : ∀ kept, order ∈ offeredAfter stp (o.id :: seen) kept orders →
        (o :: orders).find? (fun o => o.id = order.id) = some order ∧ order.id ∉ seen := by
      intro kept hmem
      obtain ⟨hfind, hnew⟩ := ih hmem
      rw [List.mem_cons, not_or] at hnew
      rw [List.find?_cons_of_neg (by simpa using Ne.symm hnew.1)]
      exact ⟨hfind, hnew.2⟩
    unfold offeredAfter at h
    split_ifs at h with hoffer
    · rcases List.mem_cons.mp h with rfl | h
      · exact ⟨List.find?_cons_of_pos (by simp), hoffer.1⟩
      · exact htail _ h
    · exact htail _ h

theorem nodup_offeredAfter (stp : Bool) (seen : List OrderId) (kept orders : List Order) :
    ((offeredAfter stp seen kept orders).map Order.id).Nodup := by
  induction orders generalizing seen kept with
  | nil => exact .nil
  | cons o orders ih =>
    unfold offeredAfter
    split_ifs with hoffer
    · refine List.nodup_cons.mpr ⟨fun hmem => ?_, ih _ _⟩
      obtain ⟨o', ho', hid⟩ := List.mem_map.mp hmem
      exact (find?_of_mem_offeredAfter ho').2 (hid ▸ List.mem_cons_self)
    · exact ih _ _

theorem quantity_ne_zero_of_mem_offeredAfter (h : order ∈ offeredAfter stp seen kept orders) :
    order.quantity ≠ 0 := by
  induction orders generalizing seen kept with
  | nil => exact absurd h (by simp [offeredAfter])
  | cons o orders ih =>
    unfold offeredAfter at h
    split_ifs at h with hoffer
    · rcases List.mem_cons.mp h with rfl | h
      · exact hoffer.2.1
      · exact ih h
    · exact ih h

/-- Under self-trade prevention an offered order conflicts with none before it. -/
theorem not_conflicts_of_mem_offeredAfter (h : order ∈ offeredAfter true seen kept orders) :
    ∀ maker ∈ kept, ¬ Conflicts order maker := by
  induction orders generalizing seen kept with
  | nil => exact absurd h (by simp [offeredAfter])
  | cons o orders ih =>
    unfold offeredAfter at h
    split_ifs at h with hoffer
    · rcases List.mem_cons.mp h with rfl | h
      · exact hoffer.2.2 rfl
      · exact fun maker hmem => ih h maker (List.mem_cons_of_mem _ hmem)
    · exact ih h

/-- **The orders offered under self-trade prevention conflict nowhere.** -/
theorem offeredAfter_pairwise (seen : List OrderId) (kept orders : List Order) :
    (offeredAfter true seen kept orders).Pairwise fun maker order => ¬ Conflicts order maker := by
  induction orders generalizing seen kept with
  | nil => exact .nil
  | cons o orders ih =>
    unfold offeredAfter
    split_ifs with hoffer
    · refine List.pairwise_cons.mpr ⟨fun order h => ?_, ih _ _⟩
      exact not_conflicts_of_mem_offeredAfter h o List.mem_cons_self
    · exact ih _ _

/-- Neither with one before nor with one behind. -/
theorem not_conflicts_of_mem_offered {a b : Order} (ha : a ∈ offered true orders)
    (hb : b ∈ offered true orders) : ¬ Conflicts a b := by
  have hpairwise := offeredAfter_pairwise [] [] orders
  refine List.Pairwise.forall_of_forall_of_flip (R := fun a b => ¬ Conflicts a b) (fun o _ => ?_)
    ?_ ?_ ha hb
  · unfold Conflicts
    cases o.side <;> exact not_false
  · exact hpairwise.imp fun h => (conflicts_comm _ _).not.mp h
  · exact hpairwise

/-- Without self-trade prevention a batch of new, nonempty orders is offered whole. -/
theorem offeredAfter_eq_self (hids : (orders.map Order.id).Nodup)
    (hqty : ∀ order ∈ orders, order.quantity ≠ 0) (hseen : ∀ order ∈ orders, order.id ∉ seen) :
    offeredAfter false seen kept orders = orders := by
  induction orders generalizing seen kept with
  | nil => rfl
  | cons o orders ih =>
    rw [List.map_cons, List.nodup_cons] at hids
    have hnew : ∀ order ∈ orders, order.id ∉ o.id :: seen := fun order hmem => by
      rw [List.mem_cons, not_or]
      refine ⟨fun heq => hids.1 ?_, hseen order (List.mem_cons_of_mem _ hmem)⟩
      exact heq ▸ List.mem_map_of_mem hmem
    have hqty' : ∀ order ∈ orders, order.quantity ≠ 0 := fun order hmem =>
      hqty order (List.mem_cons_of_mem _ hmem)
    rw [offeredAfter, if_pos ⟨hseen o List.mem_cons_self, hqty o List.mem_cons_self, by simp⟩]
    exact congrArg (o :: ·) (ih hids.2 hqty' hnew)

end Offered

/-! ## Orders that pass the risk check -/

namespace RiskManager

/-- The orders that pass the check of one manager in turn, each at the position after those that
passed before it. -/
def passing (rm : RiskManager) : Int64 → List Order → List Order
  | _, [] => []
  | pos, order :: orders =>
    match rm.checkOrder order pos with
    | .passed => order :: rm.passing (order.projected pos) orders
    | .rejected _ => rm.passing pos orders

theorem checkOrder_cases (rm : RiskManager) (order : Order) (pos : Int64) :
    rm.checkOrder order pos = .passed ∨
      ∃ reason, rm.checkOrder order pos = .rejected reason := by
  cases rm.checkOrder order pos <;> simp

theorem passing_sublist (rm : RiskManager) (pos : Int64) (orders : List Order) :
    (rm.passing pos orders).Sublist orders := by
  induction orders generalizing pos with
  | nil => exact .slnil
  | cons order orders ih =>
    obtain hcheck | ⟨reason, hcheck⟩ := rm.checkOrder_cases order pos
    · simp only [passing, hcheck]
      exact (ih _).cons_cons order
    · simp only [passing, hcheck]
      exact (ih _).cons order

end RiskManager

/-! ## The loop of the validator -/

/-- The running best prices are those of the orders kept. -/
structure BulkState.Tracks (s : BulkState) (kept : List Order) : Prop where
  bid : ∀ price, s.bestBid.any (fun b => price ≤ b) = true ↔
    ∃ maker ∈ kept, maker.side = .bid ∧ price ≤ maker.price
  ask : ∀ price, s.bestAsk.any (fun a => a ≤ price) = true ↔
    ∃ maker ∈ kept, maker.side = .ask ∧ maker.price ≤ price

namespace BulkState

variable {s : BulkState} {kept : List Order} {order : Order}

theorem tracks_init (pos : Int64) : (init pos).Tracks [] where
  bid _ := by simp [init]
  ask _ := by simp [init]

theorem any_elim_max (b : Option Int64) (p price : Int64) :
    (some (b.elim p fun b => max b p)).any (fun b => price ≤ b) = true ↔
      price ≤ p ∨ b.any (fun b => price ≤ b) = true := by
  cases b with
  | none => simp
  | some b => simp [or_comm]

theorem any_elim_min (a : Option Int64) (p price : Int64) :
    (some (a.elim p fun a => min a p)).any (fun a => a ≤ price) = true ↔
      p ≤ price ∨ a.any (fun a => a ≤ price) = true := by
  cases a with
  | none => simp
  | some a => simp [or_comm]

/-- The best ask finds the conflicts of a bid. -/
theorem Tracks.any_bestAsk_iff (h : s.Tracks kept) (hside : order.side = .bid) :
    s.bestAsk.any (fun ask => order.price ≥ ask) = true ↔
      ∃ maker ∈ kept, Conflicts order maker := by
  rw [h.ask order.price]
  refine exists_congr fun maker => and_congr_right fun _ => ?_
  cases hm : maker.side <;> simp [Conflicts, hside, hm]

/-- The best bid finds the conflicts of an ask. -/
theorem Tracks.any_bestBid_iff (h : s.Tracks kept) (hside : order.side = .ask) :
    s.bestBid.any (fun bid => order.price ≤ bid) = true ↔
      ∃ maker ∈ kept, Conflicts order maker := by
  rw [h.bid order.price]
  refine exists_congr fun maker => and_congr_right fun _ => ?_
  cases hm : maker.side <;> simp [Conflicts, hside, hm]

theorem Tracks.cons_bid (h : s.Tracks kept) (hside : order.side = .bid) :
    BulkState.Tracks
      { s with bestBid := some (s.bestBid.elim order.price fun b => max b order.price) }
      (order :: kept) where
  bid price := by
    rw [any_elim_max, h.bid price]
    simp [hside]
  ask price := by
    rw [h.ask price]
    simp [hside]

theorem Tracks.cons_ask (h : s.Tracks kept) (hside : order.side = .ask) :
    BulkState.Tracks
      { s with bestAsk := some (s.bestAsk.elim order.price fun a => min a order.price) }
      (order :: kept) where
  bid price := by
    rw [h.bid price]
    simp [hside]
  ask price := by
    rw [any_elim_min, h.ask price]
    simp [hside]

/-- **The best prices find every conflict**, and an order without one joins the orders kept. -/
theorem Tracks.trackBest (h : s.Tracks kept) (order : Order) :
    ((∃ maker ∈ kept, Conflicts order maker) ∧ s.trackBest order = none) ∨
      ((∀ maker ∈ kept, ¬ Conflicts order maker) ∧ ∃ bid ask,
        s.trackBest order = some { s with bestBid := bid, bestAsk := ask } ∧
          BulkState.Tracks { s with bestBid := bid, bestAsk := ask } (order :: kept)) := by
  cases hside : order.side with
  | bid =>
    have hconflict := h.any_bestAsk_iff hside
    by_cases hany : s.bestAsk.any (fun ask => order.price ≥ ask) = true
    · exact .inl ⟨hconflict.mp hany, by simp only [BulkState.trackBest, hside, if_pos hany]⟩
    · refine .inr ⟨fun maker hmem hc => hany (hconflict.mpr ⟨maker, hmem, hc⟩), _, _, ?_,
        h.cons_bid hside⟩
      simp only [BulkState.trackBest, hside, if_neg hany]
  | ask =>
    have hconflict := h.any_bestBid_iff hside
    by_cases hany : s.bestBid.any (fun bid => order.price ≤ bid) = true
    · exact .inl ⟨hconflict.mp hany, by simp only [BulkState.trackBest, hside, if_pos hany]⟩
    · refine .inr ⟨fun maker hmem hc => hany (hconflict.mpr ⟨maker, hmem, hc⟩), _, _, ?_,
        h.cons_ask hside⟩
      simp only [BulkState.trackBest, hside, if_neg hany]

/-- The risk check accepts the order and moves the position, or rejects it and does not. -/
theorem checkRisk_of_passed {rm : RiskManager}
    (h : rm.checkOrder order s.cumulativePosition = .passed) : s.checkRisk rm order =
      { s with
        cumulativePosition := order.projected s.cumulativePosition
        accepted := s.accepted ++ [order.id] } := by
  simp only [checkRisk, h]

theorem checkRisk_of_rejected {rm : RiskManager} {reason : RiskRejectReason}
    (h : rm.checkOrder order s.cumulativePosition = .rejected reason) :
    s.checkRisk rm order = s.reject order (.riskCheck reason.debug) := by
  simp only [checkRisk, h]

/-- What `validate` has to keep: it has seen the ids `seen`, and under self-trade prevention its
best prices are those of the offered orders. -/
structure Invariant (stp : Bool) (seen : List OrderId) (kept : List Order) (s : BulkState) :
    Prop where
  seen_iff : ∀ id, id ∈ s.seenIds ↔ id ∈ seen
  tracks : stp = true → s.Tracks kept

variable {stp : Bool} {seen : List OrderId}

/-- The invariant reads the ids seen and the best prices only. -/
theorem Invariant.congr (h : s.Invariant stp seen kept) {t : BulkState}
    (hseen : t.seenIds = s.seenIds) (hbid : t.bestBid = s.bestBid) (hask : t.bestAsk = s.bestAsk) :
    t.Invariant stp seen kept where
  seen_iff := hseen ▸ h.seen_iff
  tracks hstp := ⟨hbid ▸ (h.tracks hstp).bid, hask ▸ (h.tracks hstp).ask⟩

theorem Invariant.reject (h : s.Invariant stp seen kept) (order : Order)
    (reason : BulkRejectReason) : (s.reject order reason).Invariant stp seen kept :=
  h.congr rfl rfl rfl

theorem Invariant.checkRisk (h : s.Invariant stp seen kept) (rm : RiskManager) (order : Order) :
    (s.checkRisk rm order).Invariant stp seen kept := by
  obtain hcheck | ⟨reason, hcheck⟩ := rm.checkOrder_cases order s.cumulativePosition
  · rw [checkRisk_of_passed hcheck]
    exact h.congr rfl rfl rfl
  · rw [checkRisk_of_rejected hcheck]
    exact h.reject order _

/-- A new id is seen. -/
theorem Invariant.see (h : s.Invariant stp seen kept) (id : OrderId) :
    Invariant stp (id :: seen) kept { s with seenIds := id :: s.seenIds } where
  seen_iff id' := by rw [List.mem_cons, List.mem_cons, h.seen_iff]
  tracks hstp := ⟨(h.tracks hstp).bid, (h.tracks hstp).ask⟩

/-- An id that has been seen is seen again. -/
theorem Invariant.see_again (h : s.Invariant stp seen kept) {id : OrderId} (hid : id ∈ seen) :
    s.Invariant stp (id :: seen) kept where
  seen_iff id' := by
    rw [h.seen_iff, List.mem_cons]
    exact ⟨.inr, fun h => h.elim (fun heq => heq ▸ hid) fun h => h⟩
  tracks := h.tracks

/-- Without self-trade prevention nothing is tracked. -/
theorem Invariant.of_false (h : s.Invariant false seen kept) (kept' : List Order) :
    s.Invariant false seen kept' where
  seen_iff := h.seen_iff
  tracks hstp := absurd hstp Bool.false_ne_true

/-- Two states with the same lists and position. -/
structure SameOutput (s t : BulkState) : Prop where
  accepted_eq : t.accepted = s.accepted
  rejected_eq : t.rejected = s.rejected
  position_eq : t.cumulativePosition = s.cumulativePosition

end BulkState

namespace BulkValidator

variable {v : BulkValidator} {rm : RiskManager} {s : BulkState} {seen : List OrderId}
  {kept : List Order} {order : Order}

/-- **One pass of the loop** rejects an order that is not offered, as a self-trade when it is new
and not empty, and checks one that is. Only the check rejects for a reason of its own. -/
theorem validateStep_cases (rm : RiskManager)
    (h : s.Invariant v.selfTradePrevention seen kept) (order : Order) :
    let offers := order.id ∉ seen ∧ order.quantity ≠ 0 ∧
      (v.selfTradePrevention = true → ∀ maker ∈ kept, ¬ Conflicts order maker)
    (¬ offers ∧ ∃ t reason, v.validateStep rm s order = t.reject order reason ∧ s.SameOutput t ∧
        t.Invariant v.selfTradePrevention (order.id :: seen) kept ∧
        (reason = .selfTrade ↔ order.id ∉ seen ∧ order.quantity ≠ 0) ∧
        ∀ text, reason ≠ .riskCheck text) ∨
      (offers ∧ ∃ t, v.validateStep rm s order = t.checkRisk rm order ∧ s.SameOutput t ∧
        t.Invariant v.selfTradePrevention (order.id :: seen) (order :: kept)) := by
  intro offers
  unfold validateStep
  by_cases hdup : order.id ∈ s.seenIds
  · have hmem := (h.seen_iff _).mp hdup
    rw [if_pos hdup]
    refine .inl ⟨fun ho => ho.1 hmem, _, _, rfl, ⟨rfl, rfl, rfl⟩, h.see_again hmem, ?_, by simp⟩
    exact iff_of_false (by simp) fun hnew => hnew.1 hmem
  · have hnew : order.id ∉ seen := fun hmem => hdup ((h.seen_iff _).mpr hmem)
    have hsee := h.see order.id
    rw [if_neg hdup]
    dsimp only
    by_cases hzero : order.quantity = 0
    · rw [if_pos hzero]
      refine .inl ⟨fun ho => ho.2.1 hzero, _, _, rfl, ⟨rfl, rfl, rfl⟩, hsee, ?_, by simp⟩
      exact iff_of_false (by simp) fun hnonzero => hnonzero.2 hzero
    · rw [if_neg hzero]
      cases hstp : v.selfTradePrevention with
      | false =>
        rw [hstp] at hsee
        exact .inr ⟨⟨hnew, hzero, by simp [hstp]⟩, _, rfl, ⟨rfl, rfl, rfl⟩, hsee.of_false _⟩
      | true =>
        rw [hstp] at hsee
        rw [if_pos rfl]
        obtain ⟨⟨maker, hmem, hc⟩, hnone⟩ | ⟨hno, bid, ask, hsome, htracks⟩ :=
          (hsee.tracks rfl).trackBest order
        · rw [hnone]
          refine .inl ⟨fun ho => ho.2.2 hstp maker hmem hc, _, _, rfl, ⟨rfl, rfl, rfl⟩, hsee, ?_,
            by simp⟩
          exact iff_of_true rfl ⟨hnew, hzero⟩
        · rw [hsome]
          refine .inr ⟨⟨hnew, hzero, fun _ => hno⟩, _, rfl, ⟨rfl, rfl, rfl⟩, ?_⟩
          exact ⟨hsee.seen_iff, fun _ => htracks⟩

end BulkValidator

end AliceLedger
