import AliceLedger.Risk.Exact
import AliceLedger.Risk.Verdicts

/-!
# What is accepted is safe

With limits that keep the sums of the risk check within `i64`, the orders that pass it in turn keep
the exact position within its limit (`abs_position_le`). A batch validator with such a manager
classifies every order once, and accepts distinct, nonempty orders within that limit which, under
self-trade prevention, do not cross (`safe_batch`).
-/

namespace AliceLedger

namespace RiskManager

variable {rm : RiskManager} {order : Order} {pos : Int64}

/-- Limits and a position that keep the position after a passed order within `i64`. -/
structure Bounded (rm : RiskManager) (pos : Int64) : Prop where
  enabled : rm.limits.enabled = true
  max_size : rm.limits.maxOrderSize.toNat < 2 ^ 62
  max_position : rm.limits.maxPosition.toNat < 2 ^ 62
  position : |pos.toInt| < 2 ^ 62

/-- An order that passes is projected exactly, and within the limit. -/
theorem Bounded.projected (h : rm.Bounded pos) (hpass : rm.checkOrder order pos = .passed) :
    (order.projected pos).toInt = pos.toInt + order.signedQuantity ∧
      |(order.projected pos).toInt| ≤ rm.limits.maxPosition.toNat ∧
      rm.Bounded (order.projected pos) := by
  obtain ⟨-, hmax, -, hlimit⟩ := ((checkOrder_eq_passed_iff h.enabled).mp hpass).1
  rw [UInt64.le_iff_toNat_le] at hmax hlimit
  have hsize := h.max_size
  have hposition := h.max_position
  have hsum := abs_add_le pos.toInt order.signedQuantity
  rw [order.abs_signedQuantity] at hsum
  have hlt : |order.exactProjected pos| < 2 ^ 63 := by
    have hpos := h.position
    unfold Order.exactProjected
    omega
  have hfits : FitsI64 (order.exactProjected pos) := ⟨(abs_lt.mp hlt).1.le, (abs_lt.mp hlt).2⟩
  have hexact := Order.toInt_projected_of_fits hfits
  have hle : |(order.projected pos).toInt| ≤ rm.limits.maxPosition.toNat := by
    rw [Int64.toNat_unsignedAbs] at hlimit
    rw [Int.abs_eq_natAbs]
    exact Int.ofNat_le.mpr hlimit
  exact ⟨hexact, hle, h.enabled, hsize, hposition, by omega⟩

/-- **The orders that pass in turn keep the position within its limit**, after each of them. -/
theorem abs_position_le (h : rm.Bounded pos) {orders pre : List Order}
    (hpre : pre <+: rm.passing pos orders) (hne : pre ≠ []) :
    |pos.toInt + (pre.map Order.signedQuantity).sum| ≤ rm.limits.maxPosition.toNat := by
  induction orders generalizing pos pre with
  | nil => exact absurd (List.prefix_nil.mp hpre) hne
  | cons order orders ih =>
    obtain hcheck | ⟨reason, hcheck⟩ := rm.checkOrder_cases order pos
    · simp only [passing, hcheck] at hpre
      obtain ⟨hexact, hle, hnext⟩ := h.projected hcheck
      rcases List.prefix_cons_iff.mp hpre with rfl | ⟨tail, rfl, htail⟩
      · exact absurd rfl hne
      · rw [List.map_cons, List.sum_cons, ← add_assoc, ← hexact]
        by_cases hnil : tail = []
        · rw [hnil, List.map_nil, List.sum_nil, add_zero]
          exact hle
        · exact ih hnext htail hnil
    · simp only [passing, hcheck] at hpre
      exact ih h hpre hne

end RiskManager

namespace BulkValidator

variable {v : BulkValidator} {rm : RiskManager} {pos : Int64}

/-- What the lists that a validator returns say about a batch: the orders with a verdict for and
against them, one verdict for each order. -/
structure SafeBatch (v : BulkValidator) (orders : List Order) (rm : RiskManager) (pos : Int64) :
    Prop where
  judged : (v.verdicts orders rm pos).map Prod.fst = orders
  accepted_eq : (v.validate orders rm pos).accepted =
    (acceptedOf (v.verdicts orders rm pos)).map Order.id
  rejected_eq : (v.validate orders rm pos).rejected = rejectedOf (v.verdicts orders rm pos)
  together : ((v.validate orders rm pos).accepted ++
    (v.validate orders rm pos).rejected.map Prod.fst).Perm (orders.map Order.id)
  nodup : (v.validate orders rm pos).accepted.Nodup
  nonempty : ∀ o ∈ acceptedOf (v.verdicts orders rm pos), o.quantity ≠ 0
  not_crossed : v.selfTradePrevention = true →
    ∀ bid ∈ acceptedOf (v.verdicts orders rm pos), ∀ ask ∈ acceptedOf (v.verdicts orders rm pos),
      bid.side = .bid → ask.side = .ask → bid.price < ask.price
  position : ∀ pre, pre <+: acceptedOf (v.verdicts orders rm pos) → pre ≠ [] →
    |pos.toInt + (pre.map Order.signedQuantity).sum| ≤ rm.limits.maxPosition.toNat

/-- **What a batch validator accepts is safe** when the limits are enabled and the size of an order,
the position limit and the current position are below 2^62: every order has one verdict and is in
the list of that verdict, in batch order; the accepted orders have distinct ids and nonzero
quantities; under self-trade prevention every accepted bid is below every accepted ask; and after
every accepted order the exact position is within its limit. -/
theorem safe_batch (v : BulkValidator) (orders : List Order) (h : rm.Bounded pos) :
    v.SafeBatch orders rm pos := by
  have haccepted := acceptedOf_verdicts v orders rm pos
  have hsublist := rm.passing_sublist pos (offered v.selfTradePrevention orders)
  have hmem : ∀ o ∈ acceptedOf (v.verdicts orders rm pos),
      o ∈ offered v.selfTradePrevention orders := fun o ho => by
    rw [haccepted] at ho
    exact hsublist.subset ho
  have heq := accepted_validate_eq v orders rm pos
  have hrejected := rejected_validate_eq v orders rm pos
  have hjudged := map_fst_verdicts v orders rm pos
  refine ⟨hjudged, heq, hrejected, ?_, ?_, fun o ho => ?_, fun hstp bid hbid ask hask hb ha => ?_,
    fun pre hpre hne => ?_⟩
  · have hperm := acceptedOf_append_rejectedOf_perm (v.verdicts orders rm pos)
    rw [heq, hrejected]
    refine hperm.trans (.of_eq ?_)
    conv_rhs => rw [← hjudged, List.map_map]
    rfl
  · rw [accepted_validate]
    exact (nodup_offeredAfter _ _ _ _).sublist (hsublist.map _)
  · exact quantity_ne_zero_of_mem_offeredAfter (hmem o ho)
  · have hbid := hmem bid hbid
    have hask := hmem ask hask
    rw [hstp] at hbid hask
    have hno := not_conflicts_of_mem_offered hbid hask
    unfold Conflicts at hno
    rw [hb, ha] at hno
    exact not_le.mp hno
  · rw [haccepted] at hpre
    exact RiskManager.abs_position_le h hpre hne

/-- A bid, an ask that crosses it and the bid again. -/
theorem safe_batch_default : BulkValidator.default.SafeBatch
    [.limit 1 .bid 100 5 0, .limit 2 .ask 99 5 1, .limit 1 .bid 100 5 2] .withDefaults 7 :=
  safe_batch _ _ ⟨rfl, by decide, by decide, by decide⟩

end BulkValidator

end AliceLedger
