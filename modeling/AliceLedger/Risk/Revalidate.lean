import AliceLedger.Risk.SelfTrade

/-!
# A batch validated again

Accepted orders may be validated again before they are sent, all of them or a selection. Ids that
differ, quantities that are not zero and prices that do not cross stay so in every selection, so
nothing of a selection is rejected as a duplicate, as empty or as a self-trade. The risk check runs
at the positions of the selection, and may reject orders that passed after others that are not
selected; the accepted orders from the first one on see the same positions again, and all pass
(`accepted_again`).
-/

namespace AliceLedger

section Offered

variable {stp : Bool} {seen : List OrderId} {kept orders selection : List Order} {order : Order}

theorem offeredAfter_sublist (stp : Bool) (seen : List OrderId) (kept orders : List Order) :
    (offeredAfter stp seen kept orders).Sublist orders := by
  induction orders generalizing seen kept with
  | nil => exact .slnil
  | cons order orders ih =>
    unfold offeredAfter
    split_ifs
    · exact (ih _ _).cons_cons order
    · exact (ih _ _).cons order

/-- Orders offered whole are offered one after another. -/
theorem offeredAfter_cons_eq_self_iff :
    offeredAfter stp seen kept (order :: orders) = order :: orders ↔
      (order.id ∉ seen ∧ order.quantity ≠ 0 ∧
        (stp = true → ∀ maker ∈ kept, ¬ Conflicts order maker)) ∧
      offeredAfter stp (order.id :: seen) (order :: kept) orders = orders := by
  rw [offeredAfter]
  split_ifs with hoffer
  · rw [List.cons_inj_right, and_iff_right hoffer]
  · refine iff_of_false (fun heq => ?_) fun h => hoffer h.1
    have hlength := (offeredAfter_sublist stp (order.id :: seen) kept orders).length_le
    rw [heq, List.length_cons] at hlength
    omega

/-- **A selection of offered orders is offered whole.** -/
theorem offeredAfter_eq_self_of_sublist {seen' : List OrderId} {kept' : List Order}
    (h : selection.Sublist (offeredAfter stp seen kept orders))
    (hseen : ∀ order ∈ selection, order.id ∉ seen')
    (hkept : stp = true → ∀ order ∈ selection, ∀ maker ∈ kept', ¬ Conflicts order maker) :
    offeredAfter stp seen' kept' selection = selection := by
  have hids : (selection.map Order.id).Nodup :=
    (nodup_offeredAfter stp seen kept orders).sublist (h.map _)
  have hqty : ∀ order ∈ selection, order.quantity ≠ 0 := fun order hmem =>
    quantity_ne_zero_of_mem_offeredAfter (h.subset hmem)
  have hapart : stp = true → selection.Pairwise fun maker order => ¬ Conflicts order maker := by
    rintro rfl
    exact (offeredAfter_pairwise seen kept orders).sublist h
  clear h
  induction selection generalizing seen' kept' with
  | nil => rfl
  | cons o selection ih =>
    rw [List.map_cons, List.nodup_cons] at hids
    rw [offeredAfter_cons_eq_self_iff]
    refine ⟨⟨hseen o List.mem_cons_self, hqty o List.mem_cons_self,
      fun hstp => hkept hstp o List.mem_cons_self⟩, ih (fun order hmem => ?_)
      (fun hstp order hmem maker hmaker => ?_) hids.2
      (fun order hmem => hqty order (List.mem_cons_of_mem _ hmem))
      fun hstp => (List.pairwise_cons.mp (hapart hstp)).2⟩
    · rw [List.mem_cons, not_or]
      refine ⟨fun heq => hids.1 ?_, hseen order (List.mem_cons_of_mem _ hmem)⟩
      exact heq ▸ List.mem_map_of_mem hmem
    · rcases List.mem_cons.mp hmaker with rfl | hmaker
      · exact (List.pairwise_cons.mp (hapart hstp)).1 order hmem
      · exact hkept hstp order (List.mem_cons_of_mem _ hmem) maker hmaker

end Offered

namespace RiskManager

/-- Orders that passed in turn pass again, up to any of them. -/
theorem passing_eq_self_of_prefix {rm : RiskManager} {pos : Int64} {orders selection : List Order}
    (h : selection <+: rm.passing pos orders) : rm.passing pos selection = selection := by
  induction orders generalizing pos selection with
  | nil => rw [List.prefix_nil.mp h, passing]
  | cons order orders ih =>
    obtain hcheck | ⟨reason, hcheck⟩ := rm.checkOrder_cases order pos
    · simp only [passing, hcheck] at h
      obtain rfl | ⟨rest, rfl, hrest⟩ := List.prefix_cons_iff.mp h
      · rfl
      · simp only [passing, hcheck, ih hrest]
    · simp only [passing, hcheck] at h
      exact ih h

end RiskManager

namespace BulkValidator

variable {v : BulkValidator} {rm : RiskManager} {s : BulkState} {seen : List OrderId}
  {kept orders : List Order}

/-- Of orders offered whole, only the risk check rejects any. -/
theorem riskCheck_of_mem_rejectedOf (h : s.Invariant v.selfTradePrevention seen kept)
    (hoffered : offeredAfter v.selfTradePrevention seen kept orders = orders) :
    ∀ e ∈ rejectedOf ((Run.trace (v.judge rm) s orders).map Prod.snd),
      ∃ reason, e.2 = .riskCheck reason := by
  induction orders generalizing s seen kept with
  | nil => exact fun e he => absurd he List.not_mem_nil
  | cons order orders ih =>
    obtain ⟨hoffer, hrest⟩ := offeredAfter_cons_eq_self_iff.mp hoffered
    rw [trace_judge_cons]
    obtain ⟨hno, -⟩ | ⟨-, hinv, ⟨reason, -, hrej⟩ | ⟨-, hacc⟩⟩ := verdict_cases rm h order
    · exact absurd hoffer hno
    · rw [verdict_of_rejected hrej, rejectedOf_cons_some]
      intro e he
      rcases List.mem_cons.mp he with rfl | he
      · exact ⟨_, rfl⟩
      · exact ih hinv hrest e he
    · rw [verdict_of_accepted hacc, rejectedOf_cons_none]
      exact ih hinv hrest

/-- Nothing is rejected when everything is accepted. -/
theorem rejected_eq_nil (v : BulkValidator) (rm : RiskManager) (pos : Int64)
    (h : (v.validate orders rm pos).accepted = orders.map Order.id) :
    (v.validate orders rm pos).rejected = [] := by
  have hperm := acceptedOf_append_rejectedOf_perm (v.verdicts orders rm pos)
  rw [← accepted_validate_eq, ← rejected_validate_eq, h] at hperm
  have hfst := congrArg List.length (map_fst_verdicts v orders rm pos)
  have hlength := hperm.length_eq
  simp only [List.length_append, List.length_map] at hlength hfst
  exact List.eq_nil_of_length_eq_zero (by omega)

/-- **A batch validated again.** Of any selection of the accepted orders of a batch, in their order,
nothing is rejected but by the risk check, which passes the selected orders in turn from the same
position. A selection of all the accepted orders, or of those up to any one, is accepted whole. -/
theorem accepted_again (v : BulkValidator) (orders : List Order) (rm : RiskManager) (pos : Int64)
    {selection : List Order} (h : selection.Sublist (v.acceptedOrders orders rm pos)) :
    (v.validate selection rm pos).accepted = (rm.passing pos selection).map Order.id ∧
      (∀ e ∈ (v.validate selection rm pos).rejected, ∃ reason, e.2 = .riskCheck reason) ∧
      (selection <+: v.acceptedOrders orders rm pos →
        v.validate selection rm pos = ⟨selection.map Order.id, []⟩) := by
  rw [acceptedOrders_eq] at h ⊢
  have hoffered : offered v.selfTradePrevention selection = selection :=
    offeredAfter_eq_self_of_sublist (h.trans (rm.passing_sublist pos _)) (by simp) (by simp)
  have haccepted := accepted_validate v selection rm pos
  rw [hoffered] at haccepted
  refine ⟨haccepted, ?_, fun hprefix => ?_⟩
  · rw [rejected_validate_eq]
    exact riskCheck_of_mem_rejectedOf (invariant_init v pos) hoffered
  · rw [RiskManager.passing_eq_self_of_prefix hprefix] at haccepted
    rw [← haccepted, ← rejected_eq_nil v rm pos haccepted]

/-- The second of two accepted orders alone. -/
theorem accepted_again_market :
    let selected := BulkValidator.default.validate [marketBid] .withDefaults 0
    selected.accepted = (RiskManager.passing .withDefaults 0 [marketBid]).map Order.id ∧
      (∀ e ∈ selected.rejected, ∃ reason, e.2 = .riskCheck reason) ∧
      ([marketBid] <+:
          BulkValidator.default.acceptedOrders [askAtHundred, marketBid] .withDefaults 0 →
        selected = ⟨[marketBid].map Order.id, []⟩) :=
  accepted_again .default [askAtHundred, marketBid] .withDefaults 0 (by decide)

end BulkValidator

end AliceLedger
