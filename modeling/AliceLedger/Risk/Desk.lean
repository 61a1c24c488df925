import AliceLedger.Book.Seniority
import AliceLedger.Book.StopLimit
import AliceLedger.Position.Execution
import AliceLedger.Risk.Batch
import AliceLedger.Risk.Exact

/-!
# A caller that keeps to its limits

The risk check is made before an order is submitted, and the crate leaves it to the caller to make
it. A caller that checks each order at the position of its tracker, and when it passes records and
inserts it and feeds the fills to the tracker, shares the book with others, who may do anything in
between. Others may hit the orders that it has resting, and it feeds those fills to the tracker as
well, on the other side of the order that hit it; but the check does not count what rests. A partial
execution leaves the position between the one before and the one that was checked
(`exactProjected_between`), so along every run of it no call panics, the rate holds, and the
position passes its limit at most by the lots of its resting orders that others have hit
(`caller_within_limits`).
-/

namespace AliceLedger

open OrderBook (submittedBy)

/-- What a caller works with: the book that it shares, its tracker and its risk manager, and the ids
of the orders that it has submitted. -/
structure Caller where
  book : OrderBook
  tracker : PositionTracker
  risk : RiskManager
  ids : List OrderId

/-- What happens: an operation of someone else on the book, an order of the caller, a new period. -/
inductive CallerOp
  | other (op : BookOp)
  | submit (order : Order) (nowNs : UInt64)
  | resetPeriod
  deriving DecidableEq, Repr

namespace Caller

/-- The fills that hit a resting order of the caller. -/
def hits (c : Caller) (fills : List Fill) : List Fill :=
  fills.filter fun fill => fill.makerId ∈ c.ids

/-- The calls with which the caller follows an operation of someone else. -/
def callsOther (c : Caller) (op : BookOp) : List PositionOp :=
  (submittedBy op).flatMap fun order => calls order.side.opposite (c.hits (c.book.emitted op))

/-- The calls with which the caller follows an order of its own, which may hit what it has
resting. -/
def callsOwn (c : Caller) (order : Order) (fills : List Fill) : List PositionOp :=
  calls order.side fills ++ calls order.side.opposite (c.hits fills)

/-- The step of a caller that trades a symbol. `none` is a panic of its tracker. -/
def step (symbolHash : UInt64) (c : Caller) : CallerOp → Option Caller
  | .other op =>
    ((c.callsOther op).foldlM (PositionTracker.step symbolHash) c.tracker).map
      fun tracker => { c with book := c.book.step op, tracker := tracker }
  | .resetPeriod => some { c with risk := c.risk.resetPeriod }
  | .submit order nowNs =>
    match c.risk.checkOrder order (c.tracker.position symbolHash).netQuantity with
    | .rejected _ => some c
    | .passed =>
      let (book, fills) := c.book.insertWithTime order nowNs
      ((c.callsOwn order fills).foldlM (PositionTracker.step symbolHash) c.tracker).map
        fun tracker => ⟨book, tracker, c.risk.recordOrder, order.id :: c.ids⟩

/-- The lots of resting orders of the caller that a step of someone else hits. -/
def lotsHitBy (c : Caller) : CallerOp → ℕ
  | .other op => traded (c.hits (c.book.emitted op))
  | _ => 0

/-- The lots of resting orders of the caller that others hit along a run. -/
def lotsHit (symbolHash : UInt64) : Caller → List CallerOp → ℕ
  | _, [] => 0
  | c, op :: ops =>
    c.lotsHitBy op + (c.step symbolHash op).elim 0 fun next => lotsHit symbolHash next ops

end Caller

/-- Limits that are on, and within which no projected position wraps after so many hits. -/
structure RiskLimits.Roomy (limits : RiskLimits) (hits : ℕ) : Prop where
  enabled : limits.enabled = true
  position_lt : limits.maxPosition.toNat + hits < 2 ^ 63
  size_lt : limits.maxOrderSize.toNat < 2 ^ 63
  turn_lt : 2 * limits.maxPosition.toNat + limits.maxOrderSize.toNat + hits < 2 ^ 64

/-- The default limits have room for 2^62 lots. -/
theorem RiskLimits.roomy_default {hits : ℕ} (h : hits < 2 ^ 62) :
    RiskLimits.default.Roomy hits := by
  have hposition : RiskLimits.default.maxPosition.toNat = 10000000 := rfl
  have hsize : RiskLimits.default.maxOrderSize.toNat = 1000000 := rfl
  exact ⟨rfl, by omega, by omega, by omega⟩

theorem RiskLimits.Roomy.mono {limits : RiskLimits} {m n : ℕ} (h : limits.Roomy n) (hle : m ≤ n) :
    limits.Roomy m where
  enabled := h.enabled
  position_lt := (Nat.add_le_add_left hle _).trans_lt h.position_lt
  size_lt := h.size_lt
  turn_lt := (Nat.add_le_add_left hle _).trans_lt h.turn_lt

namespace RiskManager

variable {rm : RiskManager} {order : Order} {pos : Int64} {hits : ℕ}

/-- **A pass within roomy limits is exact**: from a position within the limit and the hits, the
position after the whole order is within the limit, and the order is counted. -/
theorem passed_of_roomy (h : rm.limits.Roomy hits)
    (hpos : |pos.toInt| ≤ rm.limits.maxPosition.toNat + hits)
    (hpass : rm.checkOrder order pos = .passed) :
    rm.WithinOtherLimits order ∧ |order.exactProjected pos| ≤ rm.limits.maxPosition.toNat := by
  obtain ⟨hothers, hposition⟩ := (checkOrder_eq_passed_iff_exact h.enabled).mp hpass
  refine ⟨hothers, hposition.resolve_right fun hturn => ?_⟩
  have hsize := hothers.max_size
  have hroom := h.turn_lt
  have hle := abs_add_le pos.toInt order.signedQuantity
  rw [order.abs_signedQuantity] at hle
  have hneg := (neg_le_abs _).trans hturn
  unfold Order.exactProjected at hneg
  omega

end RiskManager

/-- **A partial execution stays between** the position before and the one that was checked. -/
theorem exactProjected_between {order : Order} {pos : Int64} {lots : ℕ} {bound : ℤ}
    (hlots : lots ≤ order.quantity.toNat) (hpos : |pos.toInt| ≤ bound)
    (hprojected : |order.exactProjected pos| ≤ bound) :
    |pos.toInt + signedLots order.side lots| ≤ bound := by
  rw [abs_le] at hpos hprojected ⊢
  unfold Order.exactProjected Order.signedQuantity at hprojected
  cases hs : order.side with
  | bid => simp only [hs, signedLots] at hprojected ⊢; omega
  | ask => simp only [hs, signedLots] at hprojected ⊢; omega

namespace Caller

variable {symbolHash : UInt64} {limits : RiskLimits} {c : Caller} {hits : ℕ} {fills : List Fill}

theorem traded_hits_le (c : Caller) (fills : List Fill) : traded (c.hits fills) ≤ traded fills :=
  (List.filter_sublist.map _).sum_le_sum fun _ _ => Nat.zero_le _

/-- The limits hold, the one on the position but for some hits. -/
structure Within (symbolHash : UInt64) (limits : RiskLimits) (hits : ℕ) (c : Caller) : Prop where
  sound : c.book.Sound
  limits_eq : c.risk.limits = limits
  leg : ∃ leg, (c.tracker.position symbolHash).Within leg
  position : |(c.tracker.position symbolHash).netQuantity.toInt| ≤ limits.maxPosition.toNat + hits
  rate : c.risk.ordersInPeriod ≤ limits.maxOrdersPerPeriod

/-- The fills of an order of the caller fit, and move the position by the lots that do not hit
itself. -/
theorem along_callsOwn {leg : Leg} {order : Order}
    (hqty : ∀ fill ∈ fills, 0 < fill.quantity.toNat) (htraded : traded fills < 2 ^ 63)
    (hstart : FitsI64 leg.net) (hmid : FitsI64 (leg.net + signedLots order.side (traded fills)))
    (hend : FitsI64 (leg.net +
      signedLots order.side (traded fills - traded (c.hits fills)))) :
    Run.Along Leg.step Leg.Fits leg (c.callsOwn order fills) ∧
      ((c.callsOwn order fills).foldl Leg.step leg).net =
        leg.net + signedLots order.side (traded fills - traded (c.hits fills)) := by
  have hle := c.traded_hits_le fills
  have hnet : (((calls order.side fills).foldl Leg.step leg).net +
      signedLots order.side.opposite (traded (c.hits fills))) =
        leg.net + signedLots order.side (traded fills - traded (c.hits fills)) := by
    rw [Leg.net_foldl_calls, add_assoc, signedLots_sub _ hle]
  refine ⟨Run.along_append.mpr ⟨Leg.along_calls hqty htraded hstart hmid, Leg.along_calls
    (fun f hf => hqty f (List.mem_of_mem_filter hf)) (hle.trans_lt htraded) ?_ ?_⟩, ?_⟩
  · rw [Leg.net_foldl_calls]
    exact hmid
  · rw [hnet]
    exact hend
  · rw [callsOwn, List.foldl_append, Leg.net_foldl_calls, hnet]

/-- Any part of an order that passes leaves the position in range. -/
theorem Within.part (h : c.Within symbolHash limits hits) (hroomy : limits.Roomy hits)
    {order : Order}
    (hpass : c.risk.checkOrder order (c.tracker.position symbolHash).netQuantity = .passed)
    {lots : ℕ} (hlots : lots ≤ order.quantity.toNat) :
    |(c.tracker.position symbolHash).netQuantity.toInt + signedLots order.side lots| ≤
      ↑(limits.maxPosition.toNat + hits) := by
  have hposition := h.position
  rw [← h.limits_eq] at hroomy hposition ⊢
  obtain ⟨-, hprojected⟩ := RiskManager.passed_of_roomy hroomy hposition hpass
  rw [Nat.cast_add]
  exact exactProjected_between hlots hposition
    (hprojected.trans (le_add_of_nonneg_right (Int.natCast_nonneg _)))

/-- **A submission** keeps the limits. -/
theorem Within.submit (h : c.Within symbolHash limits hits) (hroomy : limits.Roomy hits)
    (order : Order) (nowNs : UInt64) :
    ∃ c', c.step symbolHash (.submit order nowNs) = some c' ∧ c'.Within symbolHash limits hits := by
  simp only [step]
  obtain hpass | ⟨reason, hreject⟩ :=
    c.risk.checkOrder_cases order (c.tracker.position symbolHash).netQuantity
  · rw [hpass]
    obtain ⟨leg, hleg⟩ := h.leg
    obtain ⟨hothers, -⟩ := (RiskManager.checkOrder_eq_passed_iff_exact
      (h.limits_eq ▸ hroomy.enabled)).mp hpass
    have hlots := h.sound.traded_insertWithTime_le order nowNs
    have hsize := hothers.max_size.trans_lt (h.limits_eq ▸ hroomy.size_lt)
    have hpart : ∀ lots ≤ traded (c.book.insertWithTime order nowNs).2,
        |leg.net + signedLots order.side lots| ≤ ↑(limits.maxPosition.toNat + hits) :=
      fun lots hle => hleg.net_eq ▸ h.part hroomy hpass (hle.trans hlots)
    have hstart : FitsI64 leg.net := hleg.net_eq ▸ Int64.fits_toInt _
    obtain ⟨hfits, hnet⟩ := along_callsOwn (c := c) h.sound.fill_quantity_pos
      (hlots.trans_lt hsize) hstart (FitsI64.of_abs_le (hpart _ le_rfl) hroomy.position_lt)
      (FitsI64.of_abs_le (hpart _ (Nat.sub_le _ _)) hroomy.position_lt)
    obtain ⟨t, ht, hwithin⟩ := PositionTracker.exists_of_along hleg hfits
    refine ⟨⟨(c.book.insertWithTime order nowNs).1, t, c.risk.recordOrder, order.id :: c.ids⟩,
      by rw [ht]; rfl, h.sound.insertWithTime order nowNs, h.limits_eq, ⟨_, hwithin⟩, ?_, ?_⟩
    · rw [hwithin.net_eq, hnet, ← Nat.cast_add]
      exact hpart _ (Nat.sub_le _ _)
    · have hrate := UInt64.lt_iff_toNat_lt.mpr hothers.rate
      rw [UInt64.le_iff_toNat_le, RiskManager.toNat_ordersInPeriod_recordOrder hrate,
        ← h.limits_eq]
      exact hothers.rate
  · rw [hreject]
    exact ⟨c, rfl, h⟩

/-- What someone else does hits the caller on one side. -/
theorem callsOther_eq (h : c.book.Sound) (op : BookOp) :
    ∃ side, c.callsOther op = calls side (c.hits (c.book.emitted op)) ∧
      ∀ fill ∈ c.book.emitted op, 0 < fill.quantity.toNat := by
  cases op with
  | insert order =>
    have hqty : ∀ fill ∈ (c.book.insertWithTime order 0).2, 0 < fill.quantity.toNat :=
      h.fill_quantity_pos
    exact ⟨order.side.opposite, List.flatMap_singleton .., hqty⟩
  | insertWithTime order nowNs =>
    exact ⟨order.side.opposite, List.flatMap_singleton .., h.fill_quantity_pos⟩
  | cancel | purgeExpired | cancelAllSide | cancelAll => exact ⟨.bid, rfl, nofun⟩

/-- **A step of someone else** moves the position by the lots that it hits. -/
theorem Within.other (h : c.Within symbolHash limits hits) (op : BookOp)
    (hroomy : limits.Roomy (hits + c.lotsHitBy (.other op))) :
    ∃ c', c.step symbolHash (.other op) = some c' ∧
      c'.Within symbolHash limits (hits + c.lotsHitBy (.other op)) := by
  obtain ⟨leg, hleg⟩ := h.leg
  obtain ⟨side, hcalls, hqty⟩ := callsOther_eq h.sound op
  have hroom := hroomy.position_lt
  have hbound : |leg.net + signedLots side (traded (c.hits (c.book.emitted op)))| ≤
      ↑(limits.maxPosition.toNat + (hits + c.lotsHitBy (.other op))) := by
    refine (abs_add_le _ _).trans ?_
    rw [abs_signedLots, ← hleg.net_eq, ← add_assoc, Nat.cast_add, Nat.cast_add]
    exact Int.add_le_add_right h.position _
  have hlots : traded (c.hits (c.book.emitted op)) < 2 ^ 63 := by
    simp only [lotsHitBy] at hroom
    omega
  have hfits : Run.Along Leg.step Leg.Fits leg (c.callsOther op) := by
    rw [hcalls]
    exact Leg.along_calls (fun f hf => hqty f (List.mem_of_mem_filter hf)) hlots
      (hleg.net_eq ▸ Int64.fits_toInt _) (FitsI64.of_abs_le hbound hroom)
  obtain ⟨t, ht, hwithin⟩ := PositionTracker.exists_of_along hleg hfits
  refine ⟨{ c with book := c.book.step op, tracker := t }, by rw [Caller.step, ht]; rfl,
    h.sound.step op, h.limits_eq, ⟨_, hwithin⟩, ?_, h.rate⟩
  rw [hwithin.net_eq, hcalls, Leg.net_foldl_calls, ← Nat.cast_add]
  exact hbound

/-- **One step** keeps the limits, but for the lots that it hits. -/
theorem Within.step (h : c.Within symbolHash limits hits) (op : CallerOp)
    (hroomy : limits.Roomy (hits + c.lotsHitBy op)) :
    ∃ c', c.step symbolHash op = some c' ∧
      c'.Within symbolHash limits (hits + c.lotsHitBy op) := by
  cases op with
  | other op => exact h.other op hroomy
  | submit order nowNs => exact h.submit hroomy order nowNs
  | resetPeriod =>
    exact ⟨_, rfl, h.sound, h.limits_eq, h.leg, h.position, UInt64.zero_le⟩

/-- **A run** keeps the limits, but for the lots that it hits. -/
theorem Within.run (h : c.Within symbolHash limits hits) (ops : List CallerOp)
    (hroomy : limits.Roomy (hits + lotsHit symbolHash c ops)) :
    ∃ c', ops.foldlM (Caller.step symbolHash) c = some c' ∧
      c'.Within symbolHash limits (hits + lotsHit symbolHash c ops) := by
  induction ops generalizing c hits with
  | nil => exact ⟨c, rfl, h⟩
  | cons op ops ih =>
    rw [lotsHit, ← add_assoc] at hroomy ⊢
    obtain ⟨c₁, hstep, h₁⟩ := h.step op (hroomy.mono (Nat.le_add_right _ _))
    rw [hstep, Option.elim_some] at hroomy ⊢
    obtain ⟨c₂, hrun, h₂⟩ := ih h₁ hroomy
    refine ⟨c₂, ?_, h₂⟩
    rw [List.foldlM_cons, hstep]
    exact hrun

/-- **The limits hold over whole runs.** A caller that starts flat on any reachable book checks
every order before it submits it, and feeds to its tracker the fills of its orders, at once and when
others hit them later. Take limits that are on and leave room for no projected position to wrap
after these hits, as the default ones do. Whatever the caller submits and whatever others do to the
book in between, it never panics; at every point its position passes the position limit at most by
the lots of its resting orders that others have hit, and the orders of the period are within the
rate. -/
theorem caller_within_limits (symbolHash : UInt64) (limits : RiskLimits) (before : List BookOp)
    (ops : List CallerOp) :
    let start : Caller := ⟨before.foldl .step .new, .new, .new limits, []⟩
    limits.Roomy (lotsHit symbolHash start ops) →
      ∃ c, ops.foldlM (step symbolHash) start = some c ∧
        |(c.tracker.position symbolHash).netQuantity.toInt| ≤
          limits.maxPosition.toNat + lotsHit symbolHash start ops ∧
        c.risk.ordersInPeriod ≤ limits.maxOrdersPerPeriod := by
  intro start hroomy
  have hstart : Within symbolHash limits 0 start :=
    ⟨OrderBook.sound_run before, rfl, ⟨.flat, Position.within_new symbolHash⟩,
      Int.natCast_nonneg _, UInt64.zero_le⟩
  obtain ⟨c, hrun, h⟩ := hstart.run ops (by rwa [zero_add])
  rw [zero_add] at h
  exact ⟨c, hrun, h.position, h.rate⟩

/-- A bid of 600000 lots that trades in full under the default limits, and another that rests and of
which somebody hits 200000. -/
theorem caller_within_limits_hit :
    let ops : List CallerOp := [.submit (.limit 2 .bid 10 600000 1) 0, .other (.cancel ⟨1⟩),
      .submit (.limit 3 .bid 10 600000 2) 0, .other (.insert (.limit 4 .ask 10 200000 3))]
    ∃ c, ops.foldlM (step 7)
        ⟨[BookOp.insert (.limit 1 .ask 10 900000 0)].foldl .step .new, .new, .new .default, []⟩ =
          some c ∧
      |(c.tracker.position 7).netQuantity.toInt| ≤
        RiskLimits.default.maxPosition.toNat + 200000 := by
  intro ops
  have hhit : lotsHit 7 ⟨[BookOp.insert (.limit 1 .ask 10 900000 0)].foldl .step .new, .new,
      .new .default, []⟩ ops = 200000 := by
    decide
  obtain ⟨c, hrun, hposition, -⟩ := caller_within_limits 7 .default
    [.insert (.limit 1 .ask 10 900000 0)] ops (RiskLimits.roomy_default (by rw [hhit]; decide))
  rw [hhit] at hposition
  exact ⟨c, hrun, hposition⟩

end Caller

end AliceLedger
