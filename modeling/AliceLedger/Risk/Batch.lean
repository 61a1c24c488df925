import AliceLedger.Risk.Verdicts

/-!
# A batch against orders submitted singly

`validate` checks every order of a batch against the same manager and moves only the position, so
nothing counts the orders it has accepted. Submitted singly, the orders accepted are those that fit
the limits in turn, while the rate lasts (`submitAll_eq`); a batch accepts all of them once one more
order is allowed (`passing_eq`). The two agree exactly when the rate is enough for the orders that
fit (`batch_agrees_iff`).
-/

namespace AliceLedger

/-- The orders that fit the limits in turn, each at the position after those before it. -/
def RiskLimits.fitting (limits : RiskLimits) : Int64 → List Order → List Order
  | _, [] => []
  | pos, order :: orders =>
    if limits.Fits pos order then order :: limits.fitting (order.projected pos) orders
    else limits.fitting pos orders

namespace RiskManager

/-- The ids accepted when orders are submitted singly: an order that passes its check is recorded
and moves the position. -/
def submitAll (rm : RiskManager) (pos : Int64) : List Order → List OrderId
  | [] => []
  | order :: orders =>
    match rm.checkOrder order pos with
    | .passed => order.id :: rm.recordOrder.submitAll (order.projected pos) orders
    | .rejected _ => rm.submitAll pos orders

variable {rm : RiskManager} {order : Order} {pos : Int64}

/-! ## The orders accepted -/

theorem submitAll_of_disabled (h : rm.limits.enabled = false) (pos : Int64) (orders : List Order) :
    rm.submitAll pos orders = orders.map Order.id := by
  induction orders generalizing rm pos with
  | nil => rfl
  | cons order orders ih =>
    rw [submitAll, checkOrder_of_disabled h]
    exact congrArg (order.id :: ·) (@ih rm.recordOrder h _)

theorem passing_of_disabled (h : rm.limits.enabled = false) (pos : Int64) (orders : List Order) :
    rm.passing pos orders = orders := by
  induction orders generalizing pos with
  | nil => rfl
  | cons order orders ih =>
    rw [passing, checkOrder_of_disabled h]
    exact congrArg (order :: ·) (ih _)

/-- Counting an order takes one from what the rate allows. -/
theorem toNat_ordersInPeriod_recordOrder (h : rm.ordersInPeriod < rm.limits.maxOrdersPerPeriod) :
    rm.recordOrder.ordersInPeriod.toNat = rm.ordersInPeriod.toNat + 1 := by
  have hlt := UInt64.lt_iff_toNat_lt.mp h
  have := rm.limits.maxOrdersPerPeriod.toNat_lt_two_pow
  exact UInt64.toNat_add_of_lt (by rw [UInt64.toNat_one]; omega)

/-- **Submitted singly, the orders accepted are those that fit, while the rate lasts.** -/
theorem submitAll_eq (h : rm.limits.enabled = true) (pos : Int64) (orders : List Order) :
    rm.submitAll pos orders = ((rm.limits.fitting pos orders).take
      (rm.limits.maxOrdersPerPeriod.toNat - rm.ordersInPeriod.toNat)).map Order.id := by
  induction orders generalizing rm pos with
  | nil => simp [submitAll, RiskLimits.fitting]
  | cons order orders ih =>
    have hpass : rm.checkOrder order pos = .passed ↔ _ := checkOrder_eq_passed_iff h
    rw [submitAll, RiskLimits.fitting]
    obtain hcheck | ⟨reason, hcheck⟩ := rm.checkOrder_cases order pos
    · obtain ⟨hfits, hrate⟩ := hpass.mp hcheck
      have hlt := UInt64.lt_iff_toNat_lt.mp hrate
      obtain ⟨n, hn⟩ := Nat.exists_eq_add_of_lt hlt
      have hn' : rm.limits.maxOrdersPerPeriod.toNat - rm.ordersInPeriod.toNat = n + 1 := by omega
      have htail : rm.limits.maxOrdersPerPeriod.toNat - (rm.ordersInPeriod.toNat + 1) = n := by
        omega
      have ih := @ih rm.recordOrder h (order.projected pos)
      rw [limits_recordOrder, toNat_ordersInPeriod_recordOrder hrate, htail] at ih
      rw [hcheck, if_pos hfits, hn', List.take_succ_cons, List.map_cons, ← ih]
    · rw [hcheck]
      split_ifs with hfits
      · -- The order fits, so the rate is used up and nothing is accepted from here on.
        have hrate : ¬ rm.ordersInPeriod < rm.limits.maxOrdersPerPeriod := fun hrate => by
          rw [hpass.mpr ⟨hfits, hrate⟩] at hcheck
          exact RiskCheckResult.noConfusion hcheck
        have hle : rm.limits.maxOrdersPerPeriod.toNat - rm.ordersInPeriod.toNat = 0 :=
          Nat.sub_eq_zero_of_le (UInt64.le_iff_toNat_le.mp (UInt64.not_lt.mp hrate))
        have ih := ih h pos
        rw [hle, List.take_zero] at ih ⊢
        exact ih
      · exact ih h pos

/-- **A batch accepts all orders that fit, or none once the rate is used up.** -/
theorem passing_eq (h : rm.limits.enabled = true) (pos : Int64) (orders : List Order) :
    rm.passing pos orders =
      if rm.ordersInPeriod < rm.limits.maxOrdersPerPeriod then rm.limits.fitting pos orders
      else [] := by
  induction orders generalizing pos with
  | nil => simp [passing, RiskLimits.fitting]
  | cons order orders ih =>
    have hpass : rm.checkOrder order pos = .passed ↔ _ := checkOrder_eq_passed_iff h
    rw [passing, RiskLimits.fitting]
    obtain hcheck | ⟨reason, hcheck⟩ := rm.checkOrder_cases order pos
    · obtain ⟨hfits, hrate⟩ := hpass.mp hcheck
      rw [hcheck, if_pos hrate, if_pos hfits]
      exact congrArg (order :: ·) ((ih _).trans (if_pos hrate))
    · rw [hcheck]
      split_ifs with hrate hfits
      · rw [hpass.mpr ⟨hfits, hrate⟩] at hcheck
        exact RiskCheckResult.noConfusion hcheck
      · exact (ih _).trans (if_pos hrate)
      · exact (ih _).trans (if_neg hrate)

end RiskManager

namespace BulkValidator

variable {v : BulkValidator} {rm : RiskManager}

/-- Without self-trade prevention a batch of new, nonempty orders accepts those that pass. -/
theorem accepted_validate_of_nodup (hstp : v.selfTradePrevention = false) {orders : List Order}
    (hids : (orders.map Order.id).Nodup) (hqty : ∀ order ∈ orders, order.quantity ≠ 0)
    (pos : Int64) :
    (v.validate orders rm pos).accepted = (rm.passing pos orders).map Order.id := by
  rw [accepted_validate, hstp, offered, offeredAfter_eq_self hids hqty fun _ _ => List.not_mem_nil]

/-! ## Agreement -/

/-- A batch accepts what single submission accepts, and leaves a rate that was within its limit
within it. -/
def Agrees (v : BulkValidator) (orders : List Order) (rm : RiskManager) (pos : Int64) : Prop :=
  (v.validate orders rm pos).accepted = rm.submitAll pos orders ∧
    (rm.limits.enabled = true → rm.ordersInPeriod ≤ rm.limits.maxOrdersPerPeriod →
      rm.ordersInPeriod.toNat + (v.validate orders rm pos).accepted.length ≤
        rm.limits.maxOrdersPerPeriod.toNat)

/-- **When a batch agrees with single submission.** The limits are off, the rate was used up
before, or it is enough for every order that fits the other limits in turn. -/
theorem batch_agrees_iff (hstp : v.selfTradePrevention = false) {orders : List Order}
    (hids : (orders.map Order.id).Nodup) (hqty : ∀ order ∈ orders, order.quantity ≠ 0)
    (pos : Int64) :
    v.Agrees orders rm pos ↔
      rm.limits.enabled = false ∨ rm.limits.maxOrdersPerPeriod ≤ rm.ordersInPeriod ∨
        (rm.limits.fitting pos orders).length ≤
          rm.limits.maxOrdersPerPeriod.toNat - rm.ordersInPeriod.toNat := by
  unfold Agrees
  rw [accepted_validate_of_nodup hstp hids hqty]
  cases hen : rm.limits.enabled with
  | false =>
    rw [RiskManager.passing_of_disabled hen, RiskManager.submitAll_of_disabled hen]
    simp
  | true =>
    rw [RiskManager.passing_eq hen, RiskManager.submitAll_eq hen]
    by_cases hrate : rm.ordersInPeriod < rm.limits.maxOrdersPerPeriod
    · have hlt := UInt64.lt_iff_toNat_lt.mp hrate
      rw [if_pos hrate, List.length_map]
      constructor
      · rintro ⟨-, hcount⟩
        have := hcount rfl (UInt64.le_of_lt hrate)
        exact .inr (.inr (by omega))
      · rintro (h | h | h)
        · exact absurd h (by simp)
        · exact absurd hrate (UInt64.not_lt.mpr h)
        · exact ⟨by rw [List.take_of_length_le h], fun _ _ => by omega⟩
    · have hle := UInt64.le_iff_toNat_le.mp (UInt64.not_lt.mp hrate)
      rw [if_neg hrate, Nat.sub_eq_zero_of_le hle, List.take_zero]
      refine iff_of_true ⟨rfl, fun _ h => ?_⟩ (.inr (.inl (UInt64.not_lt.mp hrate)))
      exact UInt64.le_iff_toNat_le.mp h

/-- The defaults with at most two orders a period. -/
def twoPerPeriod : RiskManager := .new { RiskLimits.default with maxOrdersPerPeriod := 2 }

/-- Three small bids. -/
def threeBids : List Order := [.limit 1 .bid 100 1 0, .limit 2 .bid 100 1 0, .limit 3 .bid 100 1 0]

/-- The batch accepts three orders where the limit is two. -/
theorem batch_exceeds_rate : ¬ ∀ (v : BulkValidator) (orders : List Order) (rm : RiskManager)
    (pos : Int64), v.selfTradePrevention = false → (orders.map Order.id).Nodup →
      (∀ order ∈ orders, order.quantity ≠ 0) → v.Agrees orders rm pos := fun h => by
  have hagrees := h ⟨false, 1000⟩ threeBids twoPerPeriod 0 rfl (by decide) (by decide)
  have hsingle : twoPerPeriod.submitAll 0 threeBids = [⟨1⟩, ⟨2⟩] := by decide
  have hbatch : (BulkValidator.validate ⟨false, 1000⟩ threeBids twoPerPeriod 0).accepted =
      [⟨1⟩, ⟨2⟩, ⟨3⟩] := by decide
  rw [Agrees, hsingle, hbatch] at hagrees
  exact absurd hagrees.1 (by decide)

/-- Two bids agree at the same limit. -/
theorem batch_agrees_iff_two :
    BulkValidator.Agrees ⟨false, 1000⟩ (threeBids.take 2) twoPerPeriod 0 :=
  (batch_agrees_iff rfl (by decide) (by decide) 0).mpr (by decide)

end BulkValidator

end AliceLedger
