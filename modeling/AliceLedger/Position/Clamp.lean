import AliceLedger.Position.Exact

/-!
# What a mark reports

A mark multiplies the net quantity by the distance from the average entry price to the current one.
The product is exact in `i128`, but the distance before it is an `i64` difference that wraps, and
so does the cast of the product after it. The mark is exact, clamped to the range of `i64`, exactly
when neither does (`marked_exactly_iff`).
-/

namespace AliceLedger

namespace Position

/-- The exact profit of the position at a price. -/
def exactPnl (pos : Position) (currentPrice : Int64) : ℤ :=
  pos.netQuantity.toInt * (currentPrice.toInt - pos.avgEntryPrice.toInt)

/-- The position after a mark at the price has the exact profit, clamped to the range of `i64`, and
the subtraction of the mark did not overflow. -/
structure MarkedExactly (pos : Position) (currentPrice : Int64) (marked : Position) : Prop where
  subtraction : pos.netQuantity ≠ 0 → FitsI64 (currentPrice.toInt - pos.avgEntryPrice.toInt)
  unrealized : marked.unrealizedPnl.toInt = clampI64 (pos.exactPnl currentPrice)

/-- The number is beyond the range of `i64` and wraps to the end that it is beyond. -/
def WrapsToEnd (x : ℤ) : Prop :=
  (2 ^ 63 ≤ x ∧ x % 2 ^ 64 = 2 ^ 63 - 1) ∨ (x < -2 ^ 63 ∧ x % 2 ^ 64 = 2 ^ 63)

variable {pos : Position} {currentPrice : Int64}

/-- What a mark reports when its subtraction is exact: the exact profit, wrapped. -/
theorem unrealizedPnl_markToMarket (hopen : pos.netQuantity ≠ 0)
    (hdiff : FitsI64 (currentPrice.toInt - pos.avgEntryPrice.toInt)) :
    (pos.markToMarket currentPrice).unrealizedPnl.toInt =
      (pos.exactPnl currentPrice).bmod (2 ^ 64) := by
  rw [markToMarket, if_neg hopen, Int64.toInt_sub_of_fits hdiff,
    satI128_mul pos.netQuantity.fits_toInt hdiff]
  exact Int64.toInt_ofInt

/-- **When a mark is exact.** -/
theorem markedExactly_iff (pos : Position) (currentPrice : Int64) :
    pos.MarkedExactly currentPrice (pos.markToMarket currentPrice) ↔ pos.netQuantity = 0 ∨
      FitsI64 (currentPrice.toInt - pos.avgEntryPrice.toInt) ∧
        (FitsI64 (pos.exactPnl currentPrice) ∨ WrapsToEnd (pos.exactPnl currentPrice)) := by
  by_cases hflat : pos.netQuantity = 0
  · refine iff_of_true ⟨fun h => absurd hflat h, ?_⟩ (.inl hflat)
    rw [markToMarket, if_pos hflat, exactPnl, hflat, Int64.toInt_zero, zero_mul]
    rfl
  · constructor
    · rintro ⟨hdiff, hpnl⟩
      rw [unrealizedPnl_markToMarket hflat (hdiff hflat), bmod_eq_clampI64_iff] at hpnl
      exact .inr ⟨hdiff hflat, hpnl⟩
    · rintro (h | ⟨hdiff, hpnl⟩)
      · exact absurd h hflat
      · refine ⟨fun _ => hdiff, ?_⟩
        rw [unrealizedPnl_markToMarket hflat hdiff]
        exact (bmod_eq_clampI64_iff _).mpr hpnl

end Position

namespace PositionTracker

/-- **When a mark reports the exact profit.** After every run of calls for a symbol, a mark at any
price leaves the unrealized profit at the exact one clamped to the range of `i64`, and subtracts
without overflow, if and only if the position is flat, or the distance from the average entry price
to the current one is in range and the exact profit is too or wraps to the end that it is beyond. -/
theorem marked_exactly_iff (symbolHash : UInt64) (ops : List PositionOp) (currentPrice : Int64) :
    ∀ t, ops.foldlM (PositionTracker.step symbolHash) new = some t →
      let pos := t.position symbolHash
      (pos.MarkedExactly currentPrice
          ((t.markToMarket symbolHash currentPrice).position symbolHash) ↔
        pos.netQuantity = 0 ∨ FitsI64 (currentPrice.toInt - pos.avgEntryPrice.toInt) ∧
          (FitsI64 (pos.exactPnl currentPrice) ∨
            Position.WrapsToEnd (pos.exactPnl currentPrice))) := by
  intro t _ pos
  have hmark : (t.markToMarket symbolHash currentPrice).position symbolHash =
      pos.markToMarket currentPrice :=
    Option.some.inj (position_step t symbolHash (.markToMarket currentPrice))
  rw [hmark]
  exact pos.markedExactly_iff currentPrice

/-- Two lots bought at 0. -/
def bought : List PositionOp := [.applyFill ⟨⟨1⟩, ⟨2⟩, 0, 2, 0⟩ .bid]

/-- At 2^62 they have a profit of 2^63, which is reported as a loss of 2^63. -/
theorem large_profit_reported_as_loss : ¬ ∀ (symbolHash : UInt64) (ops : List PositionOp)
    (currentPrice : Int64) (t : PositionTracker),
    ops.foldlM (PositionTracker.step symbolHash) new = some t →
      (t.position symbolHash).MarkedExactly currentPrice
        ((t.markToMarket symbolHash currentPrice).position symbolHash) := fun h => by
  have hmarked := h 7 bought 0x4000000000000000 _ rfl
  exact absurd hmarked.unrealized (by decide)

/-- At 100 they have a profit of 200. -/
theorem marked_exactly_iff_bought : ∃ t, bought.foldlM (PositionTracker.step 7) new = some t ∧
    (t.position 7).MarkedExactly 100 ((t.markToMarket 7 100).position 7) :=
  ⟨_, rfl, (marked_exactly_iff 7 bought 100 _ rfl).mpr (.inr ⟨by decide, .inl (by decide)⟩)⟩

end PositionTracker

end AliceLedger
