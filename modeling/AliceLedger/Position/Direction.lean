import AliceLedger.Book.Queue
import AliceLedger.Position.Exact

/-!
# Which way a fill moves the position

The book fills any quantity of a `u64`, and `apply_fill` casts it to `i64`, negates it for an ask
and adds it to the net quantity, all wrapping: the stored net quantity is the exact one, wrapped
(`toInt_newNet_eq_bmod`). A net quantity out of range has moved the wrong way, and by a full turn
less (`back_of_not_fits`). The one division by zero is at the ends of both ranges
(`applyFill_eq_none_iff_ends`). So a fill moves the position the right way exactly when the exact
net quantity fits, those ends apart (`fill_moves_right_iff`).
-/

namespace AliceLedger

namespace Position

open Account (Adds)

/-- The exact net quantity after a fill. -/
def exactNet (pos : Position) (fill : Fill) (side : Side) : ℤ :=
  pos.netQuantity.toInt + signedQuantity fill side

/-- The net quantity moved against the side of the fill. -/
def Back (side : Side) (before after : ℤ) : Prop :=
  match side with
  | .bid => after < before
  | .ask => before < after

instance : ∀ side before after, Decidable (Back side before after)
  | .bid, _, _ => inferInstanceAs (Decidable (_ < _))
  | .ask, _, _ => inferInstanceAs (Decidable (_ < _))

/-- The stored net quantity is the exact one when that fits, and otherwise it has not moved against
the side of the fill. -/
structure MovesRight (pos : Position) (fill : Fill) (side : Side) (result : Option Position) :
    Prop where
  exact : FitsI64 (pos.exactNet fill side) →
    ∃ pos', result = some pos' ∧ pos'.netQuantity.toInt = pos.exactNet fill side
  not_back : ¬ FitsI64 (pos.exactNet fill side) → ∀ pos', result = some pos' →
    ¬ Back side pos.netQuantity.toInt pos'.netQuantity.toInt

/-- A short position of 2^63 lots and a fill of as many. -/
def AtEnds (pos : Position) (fill : Fill) : Prop :=
  pos.netQuantity.toInt = -2 ^ 63 ∧ fill.quantity.toNat = 2 ^ 63

instance (pos : Position) (fill : Fill) : Decidable (pos.AtEnds fill) :=
  inferInstanceAs (Decidable (_ ∧ _))

variable (pos : Position) (fill : Fill) (side : Side)

theorem toInt_signedQty_eq_bmod :
    (signedQty fill side).toInt = (signedQuantity fill side).bmod (2 ^ 64) := by
  cases side with
  | bid => exact UInt64.toInt_toInt64 _
  | ask =>
    rw [signedQty, Int64.toInt_neg, UInt64.toInt_toInt64, Int.bmod_neg_bmod]
    rfl

/-- **The net quantity after a fill is the exact one, wrapped.** -/
theorem toInt_newNet_eq_bmod :
    (pos.newNet fill side).toInt = (pos.exactNet fill side).bmod (2 ^ 64) := by
  rw [newNet, Int64.toInt_add, toInt_signedQty_eq_bmod, Int.add_bmod_bmod]
  rfl

variable {pos fill side}

/-- **A net quantity out of range moves against the side of the fill**: by less than a full turn. -/
theorem back_of_not_fits (h : ¬ FitsI64 (pos.exactNet fill side)) :
    Back side pos.netQuantity.toInt ((pos.exactNet fill side).bmod (2 ^ 64)) := by
  have hpos := pos.netQuantity.fits_toInt
  have hqty := fill.quantity.toNat_lt_two_pow
  have hdef := Int.bmod_def (pos.exactNet fill side) (2 ^ 64)
  unfold FitsI64 at h hpos
  cases side with
  | bid =>
    simp only [exactNet, signedQuantity, Back] at *
    split_ifs at hdef <;> omega
  | ask =>
    simp only [exactNet, signedQuantity, Back] at *
    split_ifs at hdef <;> omega

/-- **The one division by zero**: the two ends of the ranges add up to a full turn. -/
theorem applyFill_eq_none_iff_ends : pos.applyFill fill side = none ↔ pos.AtEnds fill := by
  have hpos := pos.netQuantity.fits_toInt
  have hqty := fill.quantity.toNat_lt_two_pow
  have hsigned := toInt_signedQty_eq_bmod fill side
  have hnew := toInt_newNet_eq_bmod pos fill side
  have hdef := Int.bmod_def (signedQuantity fill side) (2 ^ 64)
  have hdef' := Int.bmod_def (pos.exactNet fill side) (2 ^ 64)
  have hopen : pos.netQuantity ≠ 0 ↔ pos.netQuantity.toInt ≠ 0 := Int64.toInt_eq_zero.not.symm
  rw [applyFill_eq_none_iff, hopen, sameDirection_iff, ← Int64.toInt_eq_zero]
  unfold AtEnds Adds
  unfold FitsI64 at hpos
  cases side with
  | bid =>
    simp only [exactNet, signedQuantity] at *
    split_ifs at hdef hdef' <;> omega
  | ask =>
    simp only [exactNet, signedQuantity] at *
    split_ifs at hdef hdef' <;> omega

/-- **When a fill moves a position the right way.** -/
theorem movesRight_iff : pos.MovesRight fill side (pos.applyFill fill side) ↔
    (FitsI64 (pos.exactNet fill side) ∧ ¬ pos.AtEnds fill) ∨ (side = .ask ∧ pos.AtEnds fill) := by
  by_cases hends : pos.AtEnds fill
  · -- nothing is stored, which is wrong only where the exact net quantity, here 0, fits
    rw [applyFill_eq_none_iff_ends.mpr hends]
    have hfits : FitsI64 (pos.exactNet fill side) ↔ side ≠ .ask := by
      obtain ⟨hnet, hqty⟩ := hends
      unfold exactNet
      cases side with
      | bid => rw [signedQuantity, hnet, hqty]; decide
      | ask => rw [signedQuantity, hnet, hqty]; decide
    constructor
    · rintro ⟨hexact, -⟩
      refine .inr ⟨not_not.mp fun hask => ?_, hends⟩
      obtain ⟨pos', hnone, -⟩ := hexact (hfits.mpr hask)
      exact absurd hnone (by simp)
    · rintro (⟨-, hno⟩ | ⟨hask, -⟩)
      · exact absurd hends hno
      · exact ⟨fun hfit => absurd hask (hfits.mp hfit), fun _ pos' hnone => absurd hnone (by simp)⟩
  · obtain ⟨pos', happly⟩ :=
      Option.ne_none_iff_exists'.mp (mt applyFill_eq_none_iff_ends.mp hends)
    have hnet : pos'.netQuantity.toInt = (pos.exactNet fill side).bmod (2 ^ 64) := by
      rw [netQuantity_of_applyFill happly, toInt_newNet_eq_bmod]
    rw [happly]
    constructor
    · rintro ⟨-, hback⟩
      refine .inl ⟨by_contra fun hfits => hback hfits pos' rfl ?_, hends⟩
      rw [hnet]
      exact back_of_not_fits hfits
    · rintro (⟨hfits, -⟩ | ⟨-, h⟩)
      · exact ⟨fun _ => ⟨pos', rfl, hnet.trans (Int64.bmod_of_fits hfits)⟩,
          fun hno => absurd hfits hno⟩
      · exact absurd h hends

end Position

namespace OrderBook

variable {order : Order} {nowNs : UInt64}

/-- Every fill of an insertion is of at least one lot. -/
theorem Sound.fill_quantity_pos {book : OrderBook} (h : book.Sound) :
    ∀ fill ∈ (book.insertWithTime order nowNs).2, 0 < fill.quantity.toNat := by
  rw [h.fills_insertWithTime]
  split_ifs
  · simp
  · exact quantity_pos_of_mem_sweep order (h.allOpen_crossing order)

/-- **When the fills of a book move a position the right way.** For every fill that an insertion
into a reachable book emits, which is of at least one lot, applied with the taker's side to any
position of a tracker: the stored net quantity is the exact one when that is in the range of `i64`
and has not moved against the side of the fill otherwise, if and only if the exact net quantity is
in range and the position is not short 2^63 lots before a fill of 2^63, or it is and the fill sells
(then `apply_fill` panics and stores nothing). -/
theorem fill_moves_right_iff (ops : List BookOp) (order : Order) (nowNs : UInt64)
    (t : PositionTracker) (symbolHash : UInt64) :
    ∀ fill ∈ ((ops.foldl step new).insertWithTime order nowNs).2,
      0 < fill.quantity.toNat ∧
        let pos := t.position symbolHash
        let result := (t.applyFill symbolHash fill order.side).map (·.position symbolHash)
        (pos.MovesRight fill order.side result ↔
          (FitsI64 (pos.exactNet fill order.side) ∧ ¬ pos.AtEnds fill) ∨
            (order.side = .ask ∧ pos.AtEnds fill)) := by
  intro fill hfill
  refine ⟨(sound_run ops).fill_quantity_pos fill hfill, ?_⟩
  intro pos result
  have hresult : result = pos.applyFill fill order.side :=
    PositionTracker.position_step t symbolHash (.applyFill fill order.side)
  rw [hresult]
  exact Position.movesRight_iff

/-- A bid for 2^63 lots meets as many. -/
theorem large_fill_moves_back : ¬ ∀ (ops : List BookOp) (order : Order) (nowNs : UInt64)
    (t : PositionTracker) (symbolHash : UInt64),
    ∀ fill ∈ ((ops.foldl step new).insertWithTime order nowNs).2,
      (t.position symbolHash).MovesRight fill order.side
        ((t.applyFill symbolHash fill order.side).map (·.position symbolHash)) := fun h => by
  have hmoves := h [.insert (.limit 1 .ask 100 0x8000000000000000 0)]
    (.limit 2 .bid 100 0x8000000000000000 1) 0 .new 7 ⟨⟨1⟩, ⟨2⟩, 100, 0x8000000000000000, 1⟩
    (by decide)
  exact hmoves.not_back (by decide) _ rfl (by decide)

/-- A bid for 5 lots meets as many. -/
theorem fill_moves_right_iff_five :
    (PositionTracker.new.position 7).MovesRight ⟨⟨1⟩, ⟨2⟩, 100, 5, 1⟩ .bid
      ((PositionTracker.new.applyFill 7 ⟨⟨1⟩, ⟨2⟩, 100, 5, 1⟩ .bid).map (·.position 7)) :=
  (fill_moves_right_iff [.insert (.limit 1 .ask 100 5 0)] (.limit 2 .bid 100 5 1) 0 .new 7
    ⟨⟨1⟩, ⟨2⟩, 100, 5, 1⟩ (by decide)).2.mpr (.inl (by decide))

end OrderBook

end AliceLedger
