import AliceLedger.Book.Queue
import AliceLedger.Position.Exact

/-!
# Counterparties

Two trackers receive the same calls with the sides swapped. While no `i64` operation overflows in
either, each is the mirror image of the other (`Counter`): the same average entry price and number
of trades, everything else negated. One step keeps this (`Counter.step`): the tests for a flat
position, an addition and a flip agree (`Counter.sameDirection_eq`, `Counter.flips_eq`), the
average divides the negated cost by the negated net quantity (`Counter.addedAvg_eq`), and the
formula for a long position is that for a short one negated (`Counter.toInt_closedPnl`). So the
two profits of a run sum to zero (`counterparty_mirror`).
-/

namespace AliceLedger

open Account (Adds)

/-- The call that the counterparty makes. -/
def PositionOp.mirror : PositionOp → PositionOp
  | .applyFill fill side => .applyFill fill side.opposite
  | .markToMarket currentPrice => .markToMarket currentPrice

namespace Position

/-- No `i64` operation of a call overflows: the exact results are in range, of the machine's own
values before each operation. -/
def NoOverflow (pos : Position) : PositionOp → Prop
  | .applyFill fill side =>
    (side = .ask → FitsI64 (-fill.quantity.toInt64.toInt)) ∧
      FitsI64 (pos.netQuantity.toInt + (signedQty fill side).toInt) ∧
      (pos.netQuantity ≠ 0 → sameDirection pos.netQuantity (signedQty fill side) = false →
        FitsI64 (pos.account.perLot fill.price.toInt) ∧
        FitsI64 (pos.account.perLot fill.price.toInt * (pos.closeQty fill).toInt) ∧
        FitsI64 (pos.realizedPnl.toInt +
          pos.account.perLot fill.price.toInt * (pos.closeQty fill).toInt))
  | .markToMarket currentPrice =>
    pos.netQuantity ≠ 0 → FitsI64 (currentPrice.toInt - pos.avgEntryPrice.toInt) ∧
      FitsI64 (pos.netQuantity.toInt * (currentPrice.toInt - pos.avgEntryPrice.toInt))

instance (pos : Position) : ∀ op, Decidable (pos.NoOverflow op)
  | .applyFill _ _ => inferInstanceAs (Decidable (_ ∧ _ ∧ _))
  | .markToMarket _ => inferInstanceAs (Decidable (_ → _))

/-- An addition that does not wrap grows the position. -/
theorem newNet_ne_zero {pos : Position} {fill : Fill} {side : Side}
    (hno : pos.NoOverflow (.applyFill fill side))
    (hsame : sameDirection pos.netQuantity (signedQty fill side) = true) :
    (pos.newNet fill side).toInt ≠ 0 := by
  rw [newNet, Int64.toInt_add_of_fits hno.2.1]
  exact Account.Adds.net_ne_zero ((sameDirection_iff _ _).mp hsame)

/-- One position is the mirror image of another. -/
structure Counter (pos other : Position) : Prop where
  net : other.netQuantity.toInt = -pos.netQuantity.toInt
  avg : other.avgEntryPrice = pos.avgEntryPrice
  realized : other.realizedPnl.toInt = -pos.realizedPnl.toInt
  unrealized : other.unrealizedPnl.toInt = -pos.unrealizedPnl.toInt
  tradeCount : other.tradeCount = pos.tradeCount

theorem counter_new (symbolHash : UInt64) : (new symbolHash).Counter (new symbolHash) :=
  ⟨rfl, rfl, rfl, rfl, rfl⟩

namespace Counter

variable {pos other : Position} {fill : Fill} {side : Side} {op : PositionOp}

theorem account_net (h : pos.Counter other) : other.account.net = -pos.account.net := h.net

theorem account_avg (h : pos.Counter other) : other.account.avg = pos.account.avg :=
  congrArg Int64.toInt h.avg

theorem netQuantity_eq_zero_iff (h : pos.Counter other) :
    other.netQuantity = 0 ↔ pos.netQuantity = 0 := by
  rw [← Int64.toInt_eq_zero, ← Int64.toInt_eq_zero, h.net, neg_eq_zero]

section Fill

variable (h : pos.Counter other) (hno : pos.NoOverflow (.applyFill fill side))
  (hno' : other.NoOverflow (.applyFill fill side.opposite))
include hno hno'

omit h in
theorem toInt_signedQty_opposite :
    (signedQty fill side.opposite).toInt = -(signedQty fill side).toInt := by
  cases side with
  | bid => exact Int64.toInt_neg_of_fits (hno'.1 rfl)
  | ask =>
    have hneg : (signedQty fill .ask).toInt = -fill.quantity.toInt64.toInt :=
      Int64.toInt_neg_of_fits (hno.1 rfl)
    rw [hneg, neg_neg]
    rfl

include h

theorem toInt_newNet : (other.newNet fill side.opposite).toInt = -(pos.newNet fill side).toInt := by
  have hqty := toInt_signedQty_opposite hno hno'
  rw [newNet, newNet, Int64.toInt_add_of_fits hno.2.1, Int64.toInt_add_of_fits hno'.2.1, hqty,
    h.net]
  ring

theorem newNet_eq_zero_iff : other.newNet fill side.opposite = 0 ↔ pos.newNet fill side = 0 := by
  rw [← Int64.toInt_eq_zero, ← Int64.toInt_eq_zero, h.toInt_newNet hno hno', neg_eq_zero]

theorem sameDirection_eq : sameDirection other.netQuantity (signedQty fill side.opposite) =
    sameDirection pos.netQuantity (signedQty fill side) := by
  rw [Bool.eq_iff_iff, sameDirection_iff, sameDirection_iff, h.net,
    toInt_signedQty_opposite hno hno']
  unfold Adds
  omega

theorem flips_eq : Position.flips other.netQuantity (other.newNet fill side.opposite) =
    Position.flips pos.netQuantity (pos.newNet fill side) := by
  rw [Bool.eq_iff_iff, flips_iff, flips_iff, h.net, h.toInt_newNet hno hno']
  omega

/-- The average divides the negated cost by the negated net quantity. -/
theorem addedAvg_eq (hadds : sameDirection pos.netQuantity (signedQty fill side) = true) :
    other.addedAvg fill side.opposite = pos.addedAvg fill side := by
  have hneg : other.numerator fill side.opposite = -pos.numerator fill side := by
    rw [numerator_eq_cost hno.2.1 hadds,
      numerator_eq_cost hno'.2.1 ((h.sameDirection_eq hno hno').trans hadds), Account.cost,
      Account.cost, h.account_net, h.account_avg, toInt_signedQty_opposite hno hno']
    ring
  rw [addedAvg, addedAvg, hneg, h.toInt_newNet hno hno', Int.neg_tdiv_neg]

omit hno hno' in
theorem closeQty_eq : other.closeQty fill = pos.closeQty fill := by
  rw [closeQty, closeQty, Int64.unsignedAbs, Int64.unsignedAbs, h.net, Int.natAbs_neg]

/-- The formula for a long position is that for a short one negated. -/
theorem toInt_closedPnl (hopen : pos.netQuantity ≠ 0)
    (hagainst : sameDirection pos.netQuantity (signedQty fill side) = false) :
    (other.closedPnl fill).toInt = -(pos.closedPnl fill).toInt := by
  obtain ⟨hlot, hprofit, hsum⟩ := hno.2.2 hopen hagainst
  obtain ⟨hlot', hprofit', hsum'⟩ := hno'.2.2 (mt h.netQuantity_eq_zero_iff.mp hopen)
    ((h.sameDirection_eq hno hno').trans hagainst)
  have hneg : other.account.perLot fill.price.toInt = -pos.account.perLot fill.price.toInt := by
    have hnet := h.account_net
    have havg := h.account_avg
    have hne : pos.account.net ≠ 0 := mt Int64.toInt_eq_zero.mp hopen
    unfold Account.perLot
    split_ifs <;> omega
  rw [toInt_closedPnl_of_fits hlot hprofit hsum, toInt_closedPnl_of_fits hlot' hprofit' hsum',
    h.realized, hneg, h.closeQty_eq]
  ring

end Fill

/-- **A fill and its counterpart keep the mirror image.** -/
theorem applyFill (h : pos.Counter other) (hno : pos.NoOverflow (.applyFill fill side))
    (hno' : other.NoOverflow (.applyFill fill side.opposite)) :
    ∃ pos' other', pos.applyFill fill side = some pos' ∧
      other.applyFill fill side.opposite = some other' ∧ pos'.Counter other' := by
  have hnet := h.toInt_newNet hno hno'
  have hflat := h.netQuantity_eq_zero_iff
  have hsame := h.sameDirection_eq hno hno'
  have hzero := h.newNet_eq_zero_iff hno hno'
  have hflips := h.flips_eq hno hno'
  have hcount : other.tradeCount + 1 = pos.tradeCount + 1 := by rw [h.tradeCount]
  have hresult := pos.applyFill_result fill side
  have hresult' := other.applyFill_result fill side.opposite
  generalize pos.applyFill fill side = r at hresult
  generalize other.applyFill fill side.opposite = r' at hresult'
  cases hresult with
  | opens h0 =>
    cases hresult' with
    | opens => exact ⟨_, _, rfl, rfl, hnet, rfl, h.realized, h.unrealized, hcount⟩
    | panics h0' | adds h0' | closes h0' | flips h0' | reduces h0' =>
      exact absurd (hflat.mpr h0) h0'
  | panics h0 hs hz => exact absurd hz (newNet_ne_zero hno hs)
  | adds h0 hs hz =>
    cases hresult' with
    | opens h0' => exact absurd (hflat.mp h0') h0
    | panics _ hs' hz' => exact absurd hz' (newNet_ne_zero hno' hs')
    | adds =>
      exact ⟨_, _, rfl, rfl, hnet, h.addedAvg_eq hno hno' hs, h.realized, h.unrealized, hcount⟩
    | closes _ hs' | flips _ hs' | reduces _ hs' =>
      rw [hsame, hs] at hs'
      cases hs'
  | closes h0 hs hz =>
    have hrealized := h.toInt_closedPnl hno hno' h0 hs
    cases hresult' with
    | opens h0' => exact absurd (hflat.mp h0') h0
    | panics _ hs' | adds _ hs' =>
      rw [hsame, hs] at hs'
      cases hs'
    | closes => exact ⟨_, _, rfl, rfl, hnet, rfl, hrealized, rfl, hcount⟩
    | flips _ _ hz' | reduces _ _ hz' => exact absurd (hzero.mpr hz) hz'
  | flips h0 hs hz hf =>
    have hrealized := h.toInt_closedPnl hno hno' h0 hs
    cases hresult' with
    | opens h0' => exact absurd (hflat.mp h0') h0
    | panics _ hs' | adds _ hs' =>
      rw [hsame, hs] at hs'
      cases hs'
    | closes _ _ hz' => exact absurd (hzero.mp hz') hz
    | flips => exact ⟨_, _, rfl, rfl, hnet, rfl, hrealized, h.unrealized, hcount⟩
    | reduces _ _ _ hf' =>
      rw [hflips, hf] at hf'
      cases hf'
  | reduces h0 hs hz hf =>
    have hrealized := h.toInt_closedPnl hno hno' h0 hs
    cases hresult' with
    | opens h0' => exact absurd (hflat.mp h0') h0
    | panics _ hs' | adds _ hs' =>
      rw [hsame, hs] at hs'
      cases hs'
    | closes _ _ hz' => exact absurd (hzero.mp hz') hz
    | flips _ _ _ hf' =>
      rw [hflips, hf] at hf'
      cases hf'
    | reduces => exact ⟨_, _, rfl, rfl, hnet, h.avg, hrealized, h.unrealized, hcount⟩

/-- **A mark keeps the mirror image.** -/
theorem markToMarket {currentPrice : Int64} (h : pos.Counter other)
    (hno : pos.NoOverflow (.markToMarket currentPrice))
    (hno' : other.NoOverflow (.markToMarket currentPrice)) :
    (pos.markToMarket currentPrice).Counter (other.markToMarket currentPrice) := by
  have hmark : ∀ p : Position, p.markToMarket currentPrice =
      { p with unrealizedPnl := (p.markToMarket currentPrice).unrealizedPnl } := by
    intro p
    unfold Position.markToMarket
    split_ifs
    · rfl
    · rfl
  have hfits : ∀ p : Position, p.NoOverflow (.markToMarket currentPrice) →
      (p.markToMarket currentPrice).unrealizedPnl.toInt =
        p.account.net * (currentPrice.toInt - p.account.avg) := by
    intro p hp
    exact congrArg Account.unrealized
      (account_markToMarket fun hopen => hp (mt Position.netQuantity_eq_zero_iff.mp hopen))
  rw [hmark pos, hmark other]
  refine ⟨h.net, h.avg, h.realized, ?_, h.tradeCount⟩
  change (other.markToMarket currentPrice).unrealizedPnl.toInt =
    -(pos.markToMarket currentPrice).unrealizedPnl.toInt
  rw [hfits pos hno, hfits other hno', h.account_net, h.account_avg, Int.neg_mul]

/-- **A call and its counterpart keep the mirror image.** -/
theorem step (h : pos.Counter other) (hno : pos.NoOverflow op)
    (hno' : other.NoOverflow op.mirror) :
    ∃ pos' other', pos.step op = some pos' ∧ other.step op.mirror = some other' ∧
      pos'.Counter other' := by
  cases op with
  | applyFill fill side => exact h.applyFill hno hno'
  | markToMarket currentPrice => exact ⟨_, _, rfl, rfl, h.markToMarket hno hno'⟩

end Counter

end Position

namespace PositionTracker

/-- **Counterparties mirror each other.** When no `i64` operation overflows on a run of fills and
marks, nor on the run with every side swapped, neither panics, and the two positions end with the
same average entry price and number of trades and with the net quantity and both profits negated:
the profits of the two sum to zero. -/
theorem counterparty_mirror (symbolHash : UInt64) (ops : List PositionOp)
    (h : Run.AlongM Position.step Position.NoOverflow (Position.new symbolHash) ops)
    (h' : Run.AlongM Position.step Position.NoOverflow (Position.new symbolHash)
      (ops.map PositionOp.mirror)) :
    ∃ t t', ops.foldlM (PositionTracker.step symbolHash) new = some t ∧
      (ops.map PositionOp.mirror).foldlM (PositionTracker.step symbolHash) new = some t' ∧
      let pos := t.position symbolHash
      let other := t'.position symbolHash
      (other.avgEntryPrice = pos.avgEntryPrice ∧ other.tradeCount = pos.tradeCount ∧
        other.netQuantity.toInt = -pos.netQuantity.toInt ∧
        other.realizedPnl.toInt = -pos.realizedPnl.toInt ∧
        other.unrealizedPnl.toInt = -pos.unrealizedPnl.toInt) ∧
      (pos.realizedPnl.toInt + pos.unrealizedPnl.toInt) +
        (other.realizedPnl.toInt + other.unrealizedPnl.toInt) = 0 := by
  obtain ⟨pos, other, hpos, hother, hcounter⟩ :=
    Run.foldlM_simulation Position.Counter PositionOp.mirror
      (fun _ _ _ hc hno hno' => hc.step hno hno') (Position.counter_new symbolHash) h h'
  rw [← position_new, ← position_run] at hpos hother
  obtain ⟨t, ht, rfl⟩ := Option.map_eq_some_iff.mp hpos
  obtain ⟨t', ht', rfl⟩ := Option.map_eq_some_iff.mp hother
  refine ⟨t, t', ht, ht', ⟨hcounter.avg, hcounter.tradeCount, hcounter.net, hcounter.realized,
    hcounter.unrealized⟩, ?_⟩
  rw [hcounter.realized, hcounter.unrealized]
  ring

/-- Buying 3 at 10 and 2 at 13, selling 1 at 15 and 6 at 9, and a mark at 4: the profits are -4
and 10, and 4 and -10 for the counterparty. -/
theorem counterparty_mirror_flipped :
    let ops : List PositionOp := [.applyFill ⟨⟨1⟩, ⟨2⟩, 10, 3, 0⟩ .bid,
      .applyFill ⟨⟨3⟩, ⟨4⟩, 13, 2, 1⟩ .bid, .applyFill ⟨⟨5⟩, ⟨6⟩, 15, 1, 2⟩ .ask,
      .applyFill ⟨⟨7⟩, ⟨8⟩, 9, 6, 3⟩ .ask, .markToMarket 4]
    ∃ t t', ops.foldlM (PositionTracker.step 7) new = some t ∧
      (ops.map PositionOp.mirror).foldlM (PositionTracker.step 7) new = some t' ∧
      (t'.position 7).netQuantity.toInt = -(t.position 7).netQuantity.toInt := by
  intro ops
  obtain ⟨t, t', ht, ht', hmirror⟩ := counterparty_mirror 7 ops (by decide) (by decide)
  exact ⟨t, t', ht, ht', hmirror.1.2.2.1⟩

end PositionTracker

end AliceLedger
