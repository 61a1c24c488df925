import AliceLedger.Lib.Run
import AliceLedger.Risk.Validate

/-!
# The verdicts of a batch validator

Every pass of the loop of `validate` adds its order to one of the two lists: its verdict is the
reason it adds, or none. The two lists are the orders with either verdict, in batch order
(`accepted_validate_eq`, `rejected_validate_eq`). The orders that come to the risk check are those
offered to it (`checkedOf_verdicts`), and the orders accepted are those of them that pass it in turn
(`acceptedOf_verdicts`).
-/

namespace AliceLedger

namespace BulkState

/-- An order went to the rejected ones, for a reason, and nothing else was put out. -/
structure Rejected (s : BulkState) (order : Order) (reason : BulkRejectReason) (t : BulkState) :
    Prop where
  accepted_eq : t.accepted = s.accepted
  rejected_eq : t.rejected = s.rejected ++ [(order.id, reason)]
  position_eq : t.cumulativePosition = s.cumulativePosition

/-- An order went to the accepted ones and moved the position. -/
structure Accepted (s : BulkState) (order : Order) (t : BulkState) : Prop where
  accepted_eq : t.accepted = s.accepted ++ [order.id]
  rejected_eq : t.rejected = s.rejected
  position_eq : t.cumulativePosition = order.projected s.cumulativePosition

end BulkState

namespace BulkValidator

/-- The reason for which a pass of the loop rejects its order, if it does: the one it adds. -/
def verdict (v : BulkValidator) (rm : RiskManager) (s : BulkState) (order : Order) :
    Option BulkRejectReason :=
  ((v.validateStep rm s order).rejected.drop s.rejected.length).head?.map Prod.snd

/-- One pass of the loop, which answers with its order and the verdict on it. -/
def judge (v : BulkValidator) (rm : RiskManager) (s : BulkState) (order : Order) :
    BulkState × Order × Option BulkRejectReason :=
  (v.validateStep rm s order, order, v.verdict rm s order)

/-- The orders of a batch, each with the verdict on it. -/
def verdicts (v : BulkValidator) (orders : List Order) (rm : RiskManager) (pos : Int64) :
    List (Order × Option BulkRejectReason) :=
  (Run.trace (v.judge rm) (.init pos) orders).map Prod.snd

/-- The orders with no reason against them. -/
def acceptedOf (vs : List (Order × Option BulkRejectReason)) : List Order :=
  vs.filterMap fun e => if e.2 = none then some e.1 else none

/-- A verdict that the risk check gives. -/
def riskChecked : Option BulkRejectReason → Bool
  | none | some (.riskCheck _) => true
  | some .duplicateId | some .zeroQuantity | some .selfTrade => false

/-- The orders that came to the risk check. -/
def checkedOf (vs : List (Order × Option BulkRejectReason)) : List Order :=
  (vs.filter fun e => riskChecked e.2).map Prod.fst

/-- The ids of the other orders, with the reasons. -/
def rejectedOf (vs : List (Order × Option BulkRejectReason)) : List (OrderId × BulkRejectReason) :=
  vs.filterMap fun e => e.2.map fun reason => (e.1.id, reason)

theorem acceptedOf_cons_none (order : Order) (vs : List (Order × Option BulkRejectReason)) :
    acceptedOf ((order, none) :: vs) = order :: acceptedOf vs := rfl

theorem acceptedOf_cons_some (order : Order) (reason : BulkRejectReason)
    (vs : List (Order × Option BulkRejectReason)) :
    acceptedOf ((order, some reason) :: vs) = acceptedOf vs := rfl

theorem rejectedOf_cons_none (order : Order) (vs : List (Order × Option BulkRejectReason)) :
    rejectedOf ((order, none) :: vs) = rejectedOf vs := rfl

theorem rejectedOf_cons_some (order : Order) (reason : BulkRejectReason)
    (vs : List (Order × Option BulkRejectReason)) :
    rejectedOf ((order, some reason) :: vs) = (order.id, reason) :: rejectedOf vs := rfl

theorem riskChecked_some {reason : BulkRejectReason} (h : ∀ text, reason ≠ .riskCheck text) :
    riskChecked (some reason) = false := by
  cases reason with
  | riskCheck text => exact absurd rfl (h text)
  | duplicateId | zeroQuantity | selfTrade => rfl

/-- The risk check gives no reason or one of its own. -/
theorem eq_none_or_of_riskChecked {verdict : Option BulkRejectReason}
    (h : riskChecked verdict = true) :
    verdict = none ∨ ∃ text, verdict = some (.riskCheck text) := by
  cases verdict with
  | none => exact .inl rfl
  | some reason =>
    cases reason with
    | riskCheck text => exact .inr ⟨text, rfl⟩
    | duplicateId | zeroQuantity | selfTrade => cases h

theorem checkedOf_cons {verdict : Option BulkRejectReason} (h : riskChecked verdict = true)
    (order : Order) (vs : List (Order × Option BulkRejectReason)) :
    checkedOf ((order, verdict) :: vs) = order :: checkedOf vs := by
  simp only [checkedOf, List.filter_cons, h, if_true, List.map_cons]

theorem checkedOf_cons_of_not {verdict : Option BulkRejectReason} (h : riskChecked verdict = false)
    (order : Order) (vs : List (Order × Option BulkRejectReason)) :
    checkedOf ((order, verdict) :: vs) = checkedOf vs := by
  simp only [checkedOf, List.filter_cons, h, Bool.false_eq_true, if_false]

theorem mem_acceptedOf_iff {order : Order} {vs : List (Order × Option BulkRejectReason)} :
    order ∈ acceptedOf vs ↔ (order, none) ∈ vs := by
  simp [acceptedOf]

theorem mem_checkedOf_iff {order : Order} {vs : List (Order × Option BulkRejectReason)} :
    order ∈ checkedOf vs ↔ ∃ e ∈ vs, riskChecked e.2 = true ∧ e.1 = order := by
  simp only [checkedOf, List.mem_map, List.mem_filter, and_assoc]

/-- Every order is in one of the two lists. -/
theorem acceptedOf_append_rejectedOf_perm (vs : List (Order × Option BulkRejectReason)) :
    ((acceptedOf vs).map Order.id ++ (rejectedOf vs).map Prod.fst).Perm
      (vs.map fun e => e.1.id) := by
  induction vs with
  | nil => exact .nil
  | cons e vs ih =>
    obtain ⟨order, verdict⟩ := e
    cases verdict with
    | none => exact ih.cons order.id
    | some reason => exact List.perm_middle.trans (ih.cons order.id)

variable {v : BulkValidator} {rm : RiskManager} {s : BulkState} {seen : List OrderId}
  {kept : List Order} {order : Order}

/-! ## One pass -/

theorem verdict_of_rejected {reason : BulkRejectReason}
    (h : s.Rejected order reason (v.validateStep rm s order)) :
    v.verdict rm s order = some reason := by
  rw [verdict, h.rejected_eq, List.drop_left]
  rfl

theorem verdict_of_accepted (h : s.Accepted order (v.validateStep rm s order)) :
    v.verdict rm s order = none := by
  rw [verdict, h.rejected_eq, List.drop_length]
  rfl

/-- **The verdict of one pass**: an order that is not offered is rejected, as a self-trade when it
is new and not empty; an offered one is rejected by the risk check or accepted. -/
theorem verdict_cases (rm : RiskManager)
    (h : s.Invariant v.selfTradePrevention seen kept) (order : Order) :
    let t := v.validateStep rm s order
    let offers := order.id ∉ seen ∧ order.quantity ≠ 0 ∧
      (v.selfTradePrevention = true → ∀ maker ∈ kept, ¬ Conflicts order maker)
    (¬ offers ∧ t.Invariant v.selfTradePrevention (order.id :: seen) kept ∧ ∃ reason,
        s.Rejected order reason t ∧
          (reason = .selfTrade ↔ order.id ∉ seen ∧ order.quantity ≠ 0) ∧
          ∀ text, reason ≠ .riskCheck text) ∨
      (offers ∧ t.Invariant v.selfTradePrevention (order.id :: seen) (order :: kept) ∧
        ((∃ reason, rm.checkOrder order s.cumulativePosition = .rejected reason ∧
            s.Rejected order (.riskCheck reason.debug) t) ∨
          rm.checkOrder order s.cumulativePosition = .passed ∧ s.Accepted order t)) := by
  intro t offers
  obtain ⟨hno, u, reason, hstep, hsame, hinv, hself⟩ | ⟨hoffer, u, hstep, hsame, hinv⟩ :=
    validateStep_cases rm h order
  · have ht : t = u.reject order reason := hstep
    refine .inl ⟨hno, ht ▸ hinv.reject order reason, reason, ?_, hself⟩
    rw [ht, BulkState.reject]
    exact ⟨hsame.accepted_eq, by rw [hsame.rejected_eq], hsame.position_eq⟩
  · have ht : t = u.checkRisk rm order := hstep
    refine .inr ⟨hoffer, ht ▸ hinv.checkRisk rm order, ?_⟩
    rw [← hsame.position_eq]
    obtain hcheck | ⟨reason, hcheck⟩ := rm.checkOrder_cases order u.cumulativePosition
    · refine .inr ⟨hcheck, ?_⟩
      rw [ht, BulkState.checkRisk_of_passed hcheck]
      exact ⟨by rw [hsame.accepted_eq], hsame.rejected_eq, by rw [hsame.position_eq]⟩
    · refine .inl ⟨reason, hcheck, ?_⟩
      rw [ht, BulkState.checkRisk_of_rejected hcheck, BulkState.reject]
      exact ⟨hsame.accepted_eq, by rw [hsame.rejected_eq], hsame.position_eq⟩

/-- Every pass rejects its order or accepts it. -/
theorem rejected_or_accepted (rm : RiskManager)
    (h : s.Invariant v.selfTradePrevention seen kept) (order : Order) :
    (∃ reason, s.Rejected order reason (v.validateStep rm s order)) ∨
      s.Accepted order (v.validateStep rm s order) := by
  obtain ⟨-, -, reason, hrej, -⟩ | ⟨-, -, ⟨reason, -, hrej⟩ | ⟨-, hacc⟩⟩ := verdict_cases rm h order
  · exact .inl ⟨reason, hrej⟩
  · exact .inl ⟨_, hrej⟩
  · exact .inr hacc

/-- **What is rejected as a self-trade**: a new order that is not empty and conflicts with an order
offered before it. -/
theorem verdict_eq_selfTrade_iff (hstp : v.selfTradePrevention = true)
    (h : s.Invariant v.selfTradePrevention seen kept) :
    v.verdict rm s order = some .selfTrade ↔
      order.id ∉ seen ∧ order.quantity ≠ 0 ∧ ∃ maker ∈ kept, Conflicts order maker := by
  obtain ⟨hno, -, reason, hrej, hself, -⟩ | ⟨hoffer, -, hchecked⟩ := verdict_cases rm h order
  · rw [verdict_of_rejected hrej, Option.some.injEq, hself]
    constructor
    · rintro ⟨hnew, hnonzero⟩
      by_contra hconflict
      push Not at hconflict
      exact hno ⟨hnew, hnonzero, fun _ => hconflict hnew hnonzero⟩
    · exact fun hself => ⟨hself.1, hself.2.1⟩
  · refine iff_of_false ?_ fun ⟨_, _, maker, hmaker, hconflict⟩ =>
      hoffer.2.2 hstp maker hmaker hconflict
    rcases hchecked with ⟨reason, -, hrej⟩ | ⟨-, hacc⟩
    · rw [verdict_of_rejected hrej]
      simp
    · rw [verdict_of_accepted hacc]
      simp

/-! ## Runs -/

theorem trace_judge_cons (order : Order) (orders : List Order) :
    (Run.trace (v.judge rm) s (order :: orders)).map Prod.snd = (order, v.verdict rm s order) ::
      (Run.trace (v.judge rm) (v.validateStep rm s order) orders).map Prod.snd := rfl

/-- Every order has one verdict. -/
theorem map_fst_trace_judge (v : BulkValidator) (rm : RiskManager) (s : BulkState)
    (orders : List Order) :
    ((Run.trace (v.judge rm) s orders).map Prod.snd).map Prod.fst = orders := by
  induction orders generalizing s with
  | nil => rfl
  | cons order orders ih =>
    rw [trace_judge_cons, List.map_cons, ih]

/-- What the loop has to keep, after some orders. -/
theorem invariant_foldl_validateStep (rm : RiskManager)
    (h : s.Invariant v.selfTradePrevention seen kept) (orders : List Order) :
    (orders.foldl (v.validateStep rm) s).Invariant v.selfTradePrevention
      ((orders.map Order.id).reverse ++ seen)
      ((offeredAfter v.selfTradePrevention seen kept orders).reverse ++ kept) := by
  induction orders generalizing s seen kept with
  | nil => exact h
  | cons order orders ih =>
    rw [List.foldl_cons, offeredAfter, List.map_cons, List.reverse_cons, List.append_assoc]
    obtain ⟨hno, hinv, -⟩ | ⟨hoffer, hinv, -⟩ := verdict_cases rm h order
    · rw [if_neg hno]
      exact ih hinv
    · rw [if_pos hoffer, List.reverse_cons, List.append_assoc]
      exact ih hinv

/-- **The orders without a reason against them** are those offered that pass the check in turn. -/
theorem acceptedOf_trace_judge (h : s.Invariant v.selfTradePrevention seen kept)
    (orders : List Order) :
    acceptedOf ((Run.trace (v.judge rm) s orders).map Prod.snd) =
      rm.passing s.cumulativePosition
        (offeredAfter v.selfTradePrevention seen kept orders) := by
  induction orders generalizing s seen kept with
  | nil => rfl
  | cons order orders ih =>
    rw [trace_judge_cons, offeredAfter]
    obtain ⟨hno, hinv, reason, hrej, -⟩ |
      ⟨hoffer, hinv, ⟨reason, hcheck, hrej⟩ | ⟨hcheck, hacc⟩⟩ := verdict_cases rm h order
    · rw [if_neg hno, verdict_of_rejected hrej, acceptedOf_cons_some, ih hinv, hrej.position_eq]
    · rw [if_pos hoffer, verdict_of_rejected hrej, acceptedOf_cons_some, ih hinv,
        hrej.position_eq]
      simp only [RiskManager.passing, hcheck]
    · rw [if_pos hoffer, verdict_of_accepted hacc, acceptedOf_cons_none, ih hinv,
        hacc.position_eq]
      simp only [RiskManager.passing, hcheck]

/-- **The orders that came to the risk check** are those offered. -/
theorem checkedOf_trace_judge (h : s.Invariant v.selfTradePrevention seen kept)
    (orders : List Order) :
    checkedOf ((Run.trace (v.judge rm) s orders).map Prod.snd) =
      offeredAfter v.selfTradePrevention seen kept orders := by
  induction orders generalizing s seen kept with
  | nil => rfl
  | cons order orders ih =>
    rw [trace_judge_cons, offeredAfter]
    obtain ⟨hno, hinv, reason, hrej, -, hreason⟩ |
      ⟨hoffer, hinv, ⟨reason, -, hrej⟩ | ⟨-, hacc⟩⟩ := verdict_cases rm h order
    · rw [if_neg hno, verdict_of_rejected hrej, checkedOf_cons_of_not (riskChecked_some hreason),
        ih hinv]
    · rw [if_pos hoffer, verdict_of_rejected hrej, checkedOf_cons rfl, ih hinv]
    · rw [if_pos hoffer, verdict_of_accepted hacc, checkedOf_cons rfl, ih hinv]

/-- **The two lists of the loop** grow by the orders with either verdict. -/
theorem output_foldl_validateStep (h : s.Invariant v.selfTradePrevention seen kept)
    (orders : List Order) :
    let vs := (Run.trace (v.judge rm) s orders).map Prod.snd
    (orders.foldl (v.validateStep rm) s).accepted =
        s.accepted ++ (acceptedOf vs).map Order.id ∧
      (orders.foldl (v.validateStep rm) s).rejected = s.rejected ++ rejectedOf vs := by
  induction orders generalizing s seen kept with
  | nil => exact ⟨(List.append_nil _).symm, (List.append_nil _).symm⟩
  | cons order orders ih =>
    dsimp only at ih ⊢
    -- the pass itself, then the rest of the run from the state it leaves
    have hinv := invariant_foldl_validateStep rm h [order]
    rw [List.foldl_cons, List.foldl_nil] at hinv
    rw [List.foldl_cons, trace_judge_cons, (ih hinv).1, (ih hinv).2]
    obtain ⟨reason, hrej⟩ | hacc := rejected_or_accepted rm h order
    · rw [verdict_of_rejected hrej, acceptedOf_cons_some, rejectedOf_cons_some, hrej.accepted_eq,
        hrej.rejected_eq, List.append_assoc]
      exact ⟨rfl, rfl⟩
    · rw [verdict_of_accepted hacc, acceptedOf_cons_none, rejectedOf_cons_none, hacc.accepted_eq,
        hacc.rejected_eq, List.append_assoc]
      exact ⟨rfl, rfl⟩

/-! ## Batches -/

theorem invariant_init (v : BulkValidator) (pos : Int64) :
    (BulkState.init pos).Invariant v.selfTradePrevention [] [] :=
  ⟨fun _ => Iff.rfl, fun _ => BulkState.tracks_init pos⟩

section Batch

variable (v : BulkValidator) (orders : List Order) (rm : RiskManager) (pos : Int64)

theorem map_fst_verdicts : (v.verdicts orders rm pos).map Prod.fst = orders :=
  map_fst_trace_judge v rm _ orders

theorem acceptedOf_verdicts : acceptedOf (v.verdicts orders rm pos) =
    rm.passing pos (offered v.selfTradePrevention orders) :=
  acceptedOf_trace_judge (invariant_init v pos) orders

theorem checkedOf_verdicts : checkedOf (v.verdicts orders rm pos) =
    offered v.selfTradePrevention orders :=
  checkedOf_trace_judge (invariant_init v pos) orders

variable {v orders rm pos} in
/-- A verdict is on one order of the batch, after those before it. -/
theorem exists_of_verdicts_eq {pre post : List (Order × Option BulkRejectReason)}
    {verdict : Option BulkRejectReason}
    (h : v.verdicts orders rm pos = pre ++ (order, verdict) :: post) :
    ∃ done rest, orders = done ++ order :: rest ∧ pre = v.verdicts done rm pos ∧
      verdict = v.verdict rm (done.foldl (v.validateStep rm) (.init pos)) order := by
  obtain ⟨tpre, tpost, htrace, rfl, hpost⟩ := List.map_eq_append_iff.mp h
  obtain ⟨x, tpost, rfl, hx, -⟩ := List.map_eq_cons_iff.mp hpost
  obtain ⟨done, o, rest, horders, rfl, rfl⟩ := Run.exists_of_trace_eq htrace
  obtain ⟨rfl, rfl⟩ := Prod.mk.inj hx
  exact ⟨done, rest, horders, rfl, rfl⟩

/-- The ids before an order are those of the orders before it. -/
theorem map_id_verdicts :
    (v.verdicts orders rm pos).map (fun e => e.1.id) = orders.map Order.id := by
  conv_rhs => rw [← map_fst_verdicts v orders rm pos, List.map_map]
  rfl

variable {v orders rm pos} in
/-- **What a batch rejects as a self-trade**, by the verdicts before it. -/
theorem selfTrade_iff_checked (hstp : v.selfTradePrevention = true)
    {pre post : List (Order × Option BulkRejectReason)} {verdict : Option BulkRejectReason}
    (h : v.verdicts orders rm pos = pre ++ (order, verdict) :: post) :
    verdict = some .selfTrade ↔ order.id ∉ pre.map (fun e => e.1.id) ∧ order.quantity ≠ 0 ∧
      ∃ e ∈ pre, riskChecked e.2 = true ∧ Conflicts order e.1 := by
  obtain ⟨done, rest, -, rfl, rfl⟩ := exists_of_verdicts_eq h
  have hinv := invariant_foldl_validateStep rm (invariant_init v pos) done
  rw [verdict_eq_selfTrade_iff hstp hinv, map_id_verdicts, List.append_nil, List.append_nil,
    List.mem_reverse]
  refine and_congr_right fun _ => and_congr_right fun _ => ?_
  change (∃ maker ∈ (offered v.selfTradePrevention done).reverse, _) ↔ _
  simp only [List.mem_reverse, ← checkedOf_verdicts v done rm pos, mem_checkedOf_iff]
  constructor
  · rintro ⟨-, ⟨e, he, hchecked, rfl⟩, hconflict⟩
    exact ⟨e, he, hchecked, hconflict⟩
  · rintro ⟨e, he, hchecked, hconflict⟩
    exact ⟨e.1, ⟨e, he, hchecked, rfl⟩, hconflict⟩

theorem accepted_validate_eq : (v.validate orders rm pos).accepted =
    (acceptedOf (v.verdicts orders rm pos)).map Order.id :=
  (output_foldl_validateStep (invariant_init v pos) orders).1.trans (List.nil_append _)

theorem rejected_validate_eq : (v.validate orders rm pos).rejected =
    rejectedOf (v.verdicts orders rm pos) :=
  (output_foldl_validateStep (invariant_init v pos) orders).2.trans (List.nil_append _)

/-- **A batch validator accepts the offered orders that pass the risk check in turn.** -/
theorem accepted_validate : (v.validate orders rm pos).accepted =
    (rm.passing pos (offered v.selfTradePrevention orders)).map Order.id := by
  rw [accepted_validate_eq, acceptedOf_verdicts]

end Batch

end BulkValidator

end AliceLedger
