import AliceLedger.Position.Model

/-!
# What a fill does to a position

`apply_fill` ends in one of six ways (`FillResult`): it opens a flat position, adds to one, closes,
flips or reduces it, or divides by a zero net quantity and panics. The net quantity afterwards is
the wrapped sum in each of the five (`netQuantity_of_applyFill`). The calls of a tracker for one
symbol are the calls on its position (`position_run`).
-/

namespace AliceLedger

namespace Position

/-- The net quantity after a fill. -/
def newNet (pos : Position) (fill : Fill) (side : Side) : Int64 :=
  pos.netQuantity + signedQty fill side

/-- What the average of an addition divides, as the `i128` operations give it. -/
def numerator (pos : Position) (fill : Fill) (side : Side) : ℤ :=
  satI128 (satI128 (pos.netQuantity.toInt * pos.avgEntryPrice.toInt) +
    satI128 ((signedQty fill side).toInt * fill.price.toInt))

/-- The average entry price after an addition. -/
def addedAvg (pos : Position) (fill : Fill) (side : Side) : Int64 :=
  Int64.ofInt ((pos.numerator fill side).tdiv (pos.newNet fill side).toInt)

/-- The profit on one lot that a fill against the position closes. -/
def pnlPerLot (pos : Position) (fill : Fill) : Int64 :=
  if pos.netQuantity > 0 then fill.price - pos.avgEntryPrice else pos.avgEntryPrice - fill.price

/-- The lots that a fill against the position closes. -/
def closeQty (pos : Position) (fill : Fill) : Int64 :=
  (min pos.netQuantity.unsignedAbs fill.quantity).toInt64

/-- The realized profit after a fill against the position. -/
def closedPnl (pos : Position) (fill : Fill) : Int64 :=
  pos.realizedPnl + pos.pnlPerLot fill * pos.closeQty fill

/-- The ways in which a fill ends. -/
inductive FillResult (pos : Position) (fill : Fill) (side : Side) : Option Position → Prop
  | opens (hflat : pos.netQuantity = 0) : FillResult pos fill side (some { pos with
      tradeCount := pos.tradeCount + 1
      avgEntryPrice := fill.price
      netQuantity := pos.newNet fill side })
  | panics (hopen : pos.netQuantity ≠ 0)
      (hsame : sameDirection pos.netQuantity (signedQty fill side) = true)
      (hzero : (pos.newNet fill side).toInt = 0) : FillResult pos fill side none
  | adds (hopen : pos.netQuantity ≠ 0)
      (hsame : sameDirection pos.netQuantity (signedQty fill side) = true)
      (hzero : (pos.newNet fill side).toInt ≠ 0) : FillResult pos fill side (some { pos with
        tradeCount := pos.tradeCount + 1
        avgEntryPrice := pos.addedAvg fill side
        netQuantity := pos.newNet fill side })
  | closes (hopen : pos.netQuantity ≠ 0)
      (hsame : sameDirection pos.netQuantity (signedQty fill side) = false)
      (hzero : pos.newNet fill side = 0) : FillResult pos fill side (some { pos with
        tradeCount := pos.tradeCount + 1
        realizedPnl := pos.closedPnl fill
        avgEntryPrice := 0
        unrealizedPnl := 0
        netQuantity := pos.newNet fill side })
  | flips (hopen : pos.netQuantity ≠ 0)
      (hsame : sameDirection pos.netQuantity (signedQty fill side) = false)
      (hzero : pos.newNet fill side ≠ 0)
      (hflips : Position.flips pos.netQuantity (pos.newNet fill side) = true) :
      FillResult pos fill side (some { pos with
        tradeCount := pos.tradeCount + 1
        realizedPnl := pos.closedPnl fill
        avgEntryPrice := fill.price
        netQuantity := pos.newNet fill side })
  | reduces (hopen : pos.netQuantity ≠ 0)
      (hsame : sameDirection pos.netQuantity (signedQty fill side) = false)
      (hzero : pos.newNet fill side ≠ 0)
      (hflips : Position.flips pos.netQuantity (pos.newNet fill side) = false) :
      FillResult pos fill side (some { pos with
        tradeCount := pos.tradeCount + 1
        realizedPnl := pos.closedPnl fill
        netQuantity := pos.newNet fill side })

/-- **What a fill does**, in the cases of the position before it. -/
theorem applyFill_result (pos : Position) (fill : Fill) (side : Side) :
    FillResult pos fill side (pos.applyFill fill side) := by
  have heq : pos.applyFill fill side =
      let pos' := { pos with tradeCount := pos.tradeCount + 1 }
      let closed := { pos' with realizedPnl := pos.closedPnl fill }
      if pos.netQuantity = 0 then
        some { pos' with avgEntryPrice := fill.price, netQuantity := pos.newNet fill side }
      else if sameDirection pos.netQuantity (signedQty fill side) then
        if (pos.newNet fill side).toInt = 0 then none
        else some { pos' with
          avgEntryPrice := pos.addedAvg fill side
          netQuantity := pos.newNet fill side }
      else some { (if pos.newNet fill side = 0 then
            { closed with avgEntryPrice := 0, unrealizedPnl := 0 }
          else if Position.flips pos.netQuantity (pos.newNet fill side) then
            { closed with avgEntryPrice := fill.price }
          else closed) with netQuantity := pos.newNet fill side } := rfl
  rw [heq]
  dsimp only
  split_ifs with hopen hsame hzero hzero hflips
  · exact .opens hopen
  · exact .panics hopen hsame hzero
  · exact .adds hopen hsame hzero
  · exact .closes hopen (Bool.eq_false_of_not_eq_true hsame) hzero
  · exact .flips hopen (Bool.eq_false_of_not_eq_true hsame) hzero hflips
  · exact .reduces hopen (Bool.eq_false_of_not_eq_true hsame) hzero
      (Bool.eq_false_of_not_eq_true hflips)

/-- The net quantity after a fill is the wrapped sum. -/
theorem netQuantity_of_applyFill {pos pos' : Position} {fill : Fill} {side : Side}
    (h : pos.applyFill fill side = some pos') : pos'.netQuantity = pos.newNet fill side := by
  have hresult := pos.applyFill_result fill side
  rw [h] at hresult
  cases hresult with
  | opens | adds | closes | flips | reduces => rfl

/-- **A fill panics** exactly where an addition wraps to a flat position. -/
theorem applyFill_eq_none_iff {pos : Position} {fill : Fill} {side : Side} :
    pos.applyFill fill side = none ↔ pos.netQuantity ≠ 0 ∧
      sameDirection pos.netQuantity (signedQty fill side) = true ∧ pos.newNet fill side = 0 := by
  have hresult := pos.applyFill_result fill side
  generalize pos.applyFill fill side = r at hresult
  cases hresult with
  | opens hflat => simp [hflat]
  | panics hopen hsame hzero => simp [hopen, hsame, Int64.toInt_eq_zero.mp hzero]
  | adds hopen hsame hzero => simp [Int64.toInt_eq_zero.not.mp hzero]
  | closes hopen hsame | flips hopen hsame | reduces hopen hsame => simp [hsame]

/-- A call on a position. -/
def step (pos : Position) : PositionOp → Option Position
  | .applyFill fill side => pos.applyFill fill side
  | .markToMarket currentPrice => some (pos.markToMarket currentPrice)

end Position

namespace PositionTracker

/-- The position of a symbol, flat when there is none. -/
def position (t : PositionTracker) (symbolHash : UInt64) : Position :=
  (t.get symbolHash).getD (Position.new symbolHash)

theorem position_new (symbolHash : UInt64) :
    new.position symbolHash = Position.new symbolHash := rfl

/-- **A call for a symbol is a call on its position.** -/
theorem position_step (t : PositionTracker) (symbolHash : UInt64) (op : PositionOp) :
    (t.step symbolHash op).map (·.position symbolHash) = (t.position symbolHash).step op := by
  have hinsert : ∀ pos, position ⟨t.positions.insert symbolHash pos⟩ symbolHash = pos := by
    intro pos
    rw [position, get, SortedMap.get?_insert_self]
    rfl
  cases op with
  | applyFill fill side =>
    change (((t.position symbolHash).applyFill fill side).map _).map _ = _
    rw [Option.map_map]
    exact (Option.map_congr fun pos _ => hinsert pos).trans Option.map_id'
  | markToMarket currentPrice =>
    refine congrArg some ?_
    cases hget : t.positions.get? symbolHash with
    | none => simp only [markToMarket, position, get, hget]; rfl
    | some pos =>
      simp only [markToMarket, hget, hinsert]
      rw [position, get, hget]
      rfl

theorem position_run (t : PositionTracker) (symbolHash : UInt64) (ops : List PositionOp) :
    (ops.foldlM (PositionTracker.step symbolHash) t).map (·.position symbolHash) =
      ops.foldlM Position.step (t.position symbolHash) := by
  induction ops generalizing t with
  | nil => rfl
  | cons op ops ih =>
    rw [List.foldlM_cons, List.foldlM_cons, ← position_step t symbolHash op]
    cases t.step symbolHash op with
    | none => rfl
    | some t' => exact ih t'

end PositionTracker

end AliceLedger
