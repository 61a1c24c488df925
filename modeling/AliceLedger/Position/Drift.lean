import AliceLedger.Position.Profit

/-!
# Accounting drift

The drift of a position after a run is its realized profit less the cash that has moved and less
the cost of what is still held. Opening, reducing, closing or flipping a position and marking it
leave the drift where it is; an addition moves it by the remainder of its average division, which is
smaller than the new net quantity (`drift_step`).
-/

namespace AliceLedger

namespace Account

variable {a : Account} {fill : Fill} {side : Side}

theorem remainder_of_adds (h : Adds a.net (signedQuantity fill side)) :
    a.remainder (.applyFill fill side) =
      (a.cost (signedQuantity fill side) fill.price.toInt).tmod
        (a.net + signedQuantity fill side) := by
  simp only [remainder]
  exact if_pos h

theorem remainder_of_not_adds (h : ¬ Adds a.net (signedQuantity fill side)) :
    a.remainder (.applyFill fill side) = 0 := by
  simp only [remainder]
  exact if_neg h

theorem abs_tmod_lt (n : ℤ) {d : ℤ} (hd : d ≠ 0) : |n.tmod d| < |d| := by
  rw [Int.abs_eq_natAbs, Int.abs_eq_natAbs, Int.natAbs_tmod]
  exact Int.ofNat_lt.mpr (Nat.mod_lt _ (Int.natAbs_pos.mpr hd))

end Account

namespace PositionTracker

open Account

/-- Realized profit less the cash moved by a run and less the cost of the open position. -/
def drift (t : PositionTracker) (symbolHash : UInt64) (ops : List PositionOp) : ℤ :=
  let a := t.account symbolHash
  a.realized - (cash ops + a.net * a.avg)

theorem drift_eq (t : PositionTracker) (symbolHash : UInt64) (ops : List PositionOp) :
    t.drift symbolHash ops = (t.account symbolHash).value - cash ops := by
  simp only [drift, value]
  ring

/-- **What moves the drift.** Along every run of calls on one symbol whose exact values fit, a fill
that does not add to the position leaves the drift as it is. A fill that adds to it, on the side of
a long or a short position, changes the drift by exactly the remainder of its average division,
which in absolute value is below the new net quantity. -/
theorem drift_step (symbolHash : UInt64) (ops : List PositionOp) (fill : Fill) (side : Side)
    (h : Run.Along Account.step Fits flat (ops ++ [.applyFill fill side])) :
    ∃ t t', ops.foldlM (PositionTracker.step symbolHash) new = some t ∧
      t.applyFill symbolHash fill side = some t' ∧
      let before := t.account symbolHash
      let after := t'.account symbolHash
      let qty := signedQuantity fill side
      let remainder := (before.net * before.avg + qty * fill.price.toInt).tmod after.net
      after.net = before.net + qty ∧
      (¬ Adds before.net qty →
        t'.drift symbolHash (ops ++ [.applyFill fill side]) = t.drift symbolHash ops) ∧
      (Adds before.net qty →
        t'.drift symbolHash (ops ++ [.applyFill fill side]) =
          t.drift symbolHash ops + remainder ∧ |remainder| < |after.net|) := by
  rw [Run.along_append, ← account_new symbolHash] at h
  obtain ⟨hrun, hfits, -⟩ := h
  obtain ⟨t, ht, haccount⟩ := account_run hrun
  rw [← haccount] at hfits
  obtain ⟨t', ht', hstep⟩ := account_step hfits
  have hcash : cash (ops ++ [.applyFill fill side]) =
      cash ops + cashFlow (.applyFill fill side) := by
    simp [cash]
  have hdrift : t'.drift symbolHash (ops ++ [.applyFill fill side]) =
      t.drift symbolHash ops + (t.account symbolHash).remainder (.applyFill fill side) := by
    rw [drift_eq, drift_eq, hstep, value_step, hcash]
    ring
  have hnet : (t'.account symbolHash).net =
      (t.account symbolHash).net + signedQuantity fill side := by
    rw [hstep]
    exact net_trade _ _ _
  refine ⟨t, t', ht, ht', hnet, fun hadds => ?_, fun hadds => ?_⟩
  · rw [hdrift, remainder_of_not_adds hadds, add_zero]
  · rw [hdrift, remainder_of_adds hadds, hnet]
    exact ⟨rfl, abs_tmod_lt _ hadds.net_ne_zero⟩

/-- Selling 1 at 10 and 2 at 11 costs -32 for -3 lots: the average truncates to 10 and the drift
moves by -2. -/
theorem drift_step_short :
    let ops : List PositionOp := [.applyFill ⟨⟨1⟩, ⟨2⟩, 10, 1, 0⟩ .ask]
    let fill : Fill := ⟨⟨3⟩, ⟨4⟩, 11, 2, 1⟩
    ∃ t t', ops.foldlM (PositionTracker.step 7) new = some t ∧ t.applyFill 7 fill .ask = some t' ∧
      t.drift 7 ops = 0 ∧ t'.drift 7 (ops ++ [.applyFill fill .ask]) = -2 := by
  intro ops fill
  obtain ⟨t, t', ht, ht', hnet, -, hadds⟩ := drift_step 7 ops fill .ask
    ⟨by decide, by decide, trivial⟩
  obtain rfl : t = ⟨.insert .empty 7 ⟨7, -1, 10, 0, 0, 1⟩⟩ := Option.some.inj (ht.symm.trans rfl)
  have hmove := (hadds (by decide)).1
  rw [hnet] at hmove
  exact ⟨_, t', ht, ht', by decide, hmove.trans (by decide)⟩

end PositionTracker

end AliceLedger
