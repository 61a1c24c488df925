import AliceLedger.Position.Exact

/-!
# A closing trade in fragments

A trade against an open position may arrive as one fill or, one fill for each maker, as several at
the same price. `AfterLots` is the position when a part of the lots has arrived: while some of the
position is left its average entry price stands, at zero it is reset, and past zero it is the price
of the trade; the profit is that of the lots closed so far. Every fill of the trade keeps this
(`AfterLots.applyFill`), whichever way `apply_fill` goes, and it fixes the net quantity, the average
and the realized profit by the number of lots alone. The whole trade is the case of a single fill
(`fragments_agree`).
-/

namespace AliceLedger

/-- The exact signed quantity of a number of lots. -/
def signedLots (side : Side) (lots : ℕ) : ℤ :=
  match side with
  | .bid => lots
  | .ask => -lots

theorem signedQuantity_eq_signedLots (fill : Fill) (side : Side) :
    signedQuantity fill side = signedLots side fill.quantity.toNat := by
  cases side with
  | bid => rfl
  | ask => rfl

theorem signedLots_add (side : Side) (m n : ℕ) :
    signedLots side (m + n) = signedLots side m + signedLots side n := by
  cases side with
  | bid => exact Nat.cast_add m n
  | ask => simp only [signedLots, Nat.cast_add, neg_add]

theorem abs_signedLots (side : Side) (lots : ℕ) : |signedLots side lots| = lots := by
  cases side with
  | bid => exact Nat.abs_cast lots
  | ask => exact (abs_neg _).trans (Nat.abs_cast lots)

/-- A trade on a side is against the net quantity: it sells from a long position or buys for a
short one. -/
def Opposes (net : ℤ) (side : Side) : Prop :=
  match side with
  | .bid => net < 0
  | .ask => 0 < net

instance : ∀ net side, Decidable (Opposes net side)
  | _, .bid => inferInstanceAs (Decidable (_ < _))
  | _, .ask => inferInstanceAs (Decidable (_ < _))

namespace Opposes

open Account (Adds)

variable {net : ℤ} {side : Side} (h : Opposes net side) (lots more : ℕ)
include h

theorem natAbs_pos : 0 < net.natAbs := by
  cases side with
  | bid => simp only [Opposes] at h; omega
  | ask => simp only [Opposes] at h; omega

theorem add_eq_zero_iff : net + signedLots side lots = 0 ↔ lots = net.natAbs := by
  cases side with
  | bid => simp only [Opposes, signedLots] at h ⊢; omega
  | ask => simp only [Opposes, signedLots] at h ⊢; omega

/-- What is left of the position. -/
theorem natAbs_add (hlots : lots ≤ net.natAbs) :
    (net + signedLots side lots).natAbs = net.natAbs - lots := by
  cases side with
  | bid => simp only [Opposes, signedLots] at h ⊢; omega
  | ask => simp only [Opposes, signedLots] at h ⊢; omega

theorem pos_add_iff (hlots : lots < net.natAbs) :
    0 < net + signedLots side lots ↔ 0 < net := by
  cases side with
  | bid => simp only [Opposes, signedLots] at h ⊢; omega
  | ask => simp only [Opposes, signedLots] at h ⊢; omega

/-- Past zero the trade adds to the position. -/
theorem adds_iff : Adds (net + signedLots side lots) (signedLots side more) ↔
    net.natAbs < lots ∧ 0 < more := by
  cases side with
  | bid => simp only [Opposes, signedLots, Adds] at h ⊢; omega
  | ask => simp only [Opposes, signedLots, Adds] at h ⊢; omega

theorem flips_iff : Account.Flips (net + signedLots side lots) (signedLots side more) ↔
    lots < net.natAbs ∧ net.natAbs < lots + more := by
  cases side with
  | bid => simp only [Opposes, signedLots, Account.Flips] at h ⊢; omega
  | ask => simp only [Opposes, signedLots, Account.Flips] at h ⊢; omega

end Opposes

namespace Position

variable {pos mid : Position} {whole fill : Fill} {side : Side} {lots : ℕ}

theorem closeQty_eq_ofNat (pos : Position) (fill : Fill) : pos.closeQty fill =
    Int64.ofNat (min pos.netQuantity.toInt.natAbs fill.quantity.toNat) := by
  rw [closeQty, ← Int64.toInt_inj, UInt64.toInt_toInt64, Int64.toInt_ofNat', UInt64.toNat_min,
    Int64.toNat_unsignedAbs]
  rfl

/-- An addition at the average entry price leaves the average where it is. -/
theorem addedAvg_of_avg_eq (h : pos.account.NetFits fill side)
    (hsame : sameDirection pos.netQuantity (signedQty fill side) = true)
    (havg : pos.avgEntryPrice = fill.price) : pos.addedAvg fill side = fill.price := by
  have hadds := (sameDirection_signedQty_iff h).mp hsame
  have hcost : pos.account.cost (signedQuantity fill side) fill.price.toInt =
      fill.price.toInt * (pos.account.net + signedQuantity fill side) := by
    rw [Account.cost, show pos.account.avg = fill.price.toInt from congrArg Int64.toInt havg]
    ring
  rw [← Int64.toInt_inj, toInt_addedAvg h hadds, hcost,
    Int.mul_tdiv_cancel _ (Account.Adds.net_ne_zero hadds)]

/-- The position after `lots` lots of a trade against it. -/
structure AfterLots (pos : Position) (whole : Fill) (side : Side) (lots : ℕ) (mid : Position) :
    Prop where
  net : mid.netQuantity.toInt = pos.netQuantity.toInt + signedLots side lots
  avg : mid.avgEntryPrice =
    if lots < pos.netQuantity.toInt.natAbs then pos.avgEntryPrice
    else if lots = pos.netQuantity.toInt.natAbs then 0
    else whole.price
  realized : mid.realizedPnl = pos.realizedPnl +
    pos.pnlPerLot whole * Int64.ofNat (min pos.netQuantity.toInt.natAbs lots)

namespace AfterLots

section Fill

variable (h : pos.AfterLots whole side lots mid) (hopposes : Opposes pos.netQuantity.toInt side)
include h hopposes

/-- The position left is on the side it was on. -/
theorem pnlPerLot_eq (hprice : fill.price = whole.price)
    (hleft : lots < pos.netQuantity.toInt.natAbs) : mid.pnlPerLot fill = pos.pnlPerLot whole := by
  have hlong : mid.netQuantity > 0 ↔ pos.netQuantity > 0 := by
    rw [gt_iff_lt, gt_iff_lt, Int64.zero_lt_iff, Int64.zero_lt_iff, h.net,
      hopposes.pos_add_iff lots hleft]
  have havg : mid.avgEntryPrice = pos.avgEntryPrice := by rw [h.avg, if_pos hleft]
  simp only [pnlPerLot, hlong, havg, hprice]

/-- The profit of the lots that a fill closes adds to that of the lots before. -/
theorem closedPnl_eq (hprice : fill.price = whole.price)
    (hleft : lots < pos.netQuantity.toInt.natAbs) :
    mid.closedPnl fill = pos.realizedPnl + pos.pnlPerLot whole *
      Int64.ofNat (min pos.netQuantity.toInt.natAbs (lots + fill.quantity.toNat)) := by
  have hsplit : min pos.netQuantity.toInt.natAbs (lots + fill.quantity.toNat) =
      lots + min (pos.netQuantity.toInt.natAbs - lots) fill.quantity.toNat := by omega
  rw [closedPnl, h.realized, h.pnlPerLot_eq hopposes hprice hleft, closeQty_eq_ofNat, h.net,
    hopposes.natAbs_add lots hleft.le, hsplit, Int64.ofNat_add, Int64.mul_add,
    min_eq_right hleft.le, Int64.add_assoc]

/-- **A fill of the trade adds its lots.** While some of the position is left it closes, flips or
reduces it; at zero it opens a position at its own price, and past zero it adds at the price the
position already has. -/
theorem applyFill (hprice : fill.price = whole.price)
    (hlots : pos.netQuantity.toInt.natAbs ≤ lots → 0 < fill.quantity.toNat)
    (hfits : mid.account.NetFits fill side) :
    ∃ mid', mid.applyFill fill side = some mid' ∧
      pos.AfterLots whole side (lots + fill.quantity.toNat) mid' := by
  have hmid : mid.account.net = pos.netQuantity.toInt + signedLots side lots := h.net
  have hqty := signedQuantity_eq_signedLots fill side
  have hsum := signedLots_add side lots fill.quantity.toNat
  have hflat : mid.netQuantity = 0 ↔ mid.account.net = 0 := netQuantity_eq_zero_iff
  have hsame := sameDirection_signedQty_iff hfits
  have hnew := toInt_newNet hfits
  have hzero := newNet_eq_zero_iff hfits
  have hflips := flips_newNet_iff hfits
  rw [hmid, hopposes.add_eq_zero_iff] at hflat
  rw [hmid, hqty, hopposes.adds_iff] at hsame
  rw [hmid, hqty, add_assoc, ← hsum] at hnew hzero
  rw [hopposes.add_eq_zero_iff] at hzero
  rw [hmid, hqty, hopposes.flips_iff] at hflips
  have hresult := mid.applyFill_result fill side
  generalize mid.applyFill fill side = r at hresult
  cases hresult with
  | opens h0 =>
    have hall := hflat.mp h0
    have hpos := hlots hall.ge
    refine ⟨_, rfl, hnew, ?_, ?_⟩
    · rw [if_neg (by omega), if_neg (by omega)]
      exact hprice
    · rw [min_eq_left (by omega), ← min_eq_left hall.ge]
      exact h.realized
  | panics _ hs hz =>
    have hpast := (hsame.mp hs).1
    have hall := hzero.mp (Int64.toInt_eq_zero.mp hz)
    omega
  | adds _ hs hz =>
    obtain ⟨hpast, hpos⟩ := hsame.mp hs
    have havg : mid.avgEntryPrice = fill.price := by
      rw [h.avg, if_neg (by omega), if_neg (by omega), hprice]
    refine ⟨_, rfl, hnew, ?_, ?_⟩
    · rw [if_neg (by omega), if_neg (by omega), ← hprice]
      exact addedAvg_of_avg_eq hfits hs havg
    · rw [min_eq_left (by omega), ← min_eq_left hpast.le]
      exact h.realized
  | closes h0 hs hz =>
    have hall := hzero.mp hz
    have hleft : lots < pos.netQuantity.toInt.natAbs := by
      have := mt hflat.mpr h0
      omega
    refine ⟨_, rfl, hnew, ?_, h.closedPnl_eq hopposes hprice hleft⟩
    rw [if_neg (by omega), if_pos hall]
  | flips h0 hs hz hf =>
    obtain ⟨hleft, hpast⟩ := hflips.mp hf
    refine ⟨_, rfl, hnew, ?_, h.closedPnl_eq hopposes hprice hleft⟩
    rw [if_neg (by omega), if_neg (by omega)]
    exact hprice
  | reduces h0 hs hz hf =>
    have hleft : lots + fill.quantity.toNat < pos.netQuantity.toInt.natAbs := by
      have hnotAdds : ¬ (pos.netQuantity.toInt.natAbs < lots ∧ 0 < fill.quantity.toNat) := by
        simp [← hsame, hs]
      have hnotFlips : ¬ (lots < pos.netQuantity.toInt.natAbs ∧
          pos.netQuantity.toInt.natAbs < lots + fill.quantity.toNat) := by
        simp [← hflips, hf]
      have hne := mt hflat.mpr h0
      have hne' := mt hzero.mpr hz
      omega
    refine ⟨_, rfl, hnew, ?_, h.closedPnl_eq hopposes hprice (by omega)⟩
    rw [if_pos hleft]
    exact h.avg.trans (if_pos (by omega))

end Fill

/-- Every part of the trade fits when the whole does. -/
theorem netFits (h : pos.AfterLots whole side lots mid) (hfits : pos.account.NetFits whole side)
    (hle : lots + fill.quantity.toNat ≤ whole.quantity.toNat) :
    mid.account.NetFits fill side := by
  obtain ⟨hqty, hnet⟩ := hfits
  have hpos : FitsI64 pos.account.net := pos.netQuantity.fits_toInt
  refine ⟨by omega, ?_⟩
  rw [show mid.account.net = pos.account.net + signedLots side lots from h.net]
  rw [signedQuantity_eq_signedLots] at hnet ⊢
  unfold FitsI64 at *
  cases side with
  | bid => simp only [signedLots] at hnet ⊢; omega
  | ask => simp only [signedLots] at hnet ⊢; omega

/-- **Positive fills of the trade add their lots.** -/
theorem run {fragments : List Fill} (h : pos.AfterLots whole side lots mid)
    (hopposes : Opposes pos.netQuantity.toInt side) (hfits : pos.account.NetFits whole side)
    (hfragments : ∀ fill ∈ fragments, fill.price = whole.price ∧ 0 < fill.quantity.toNat)
    (hsum : lots + (fragments.map (·.quantity.toNat)).sum = whole.quantity.toNat) :
    ∃ mid', (fragments.map (PositionOp.applyFill · side)).foldlM Position.step mid = some mid' ∧
      pos.AfterLots whole side whole.quantity.toNat mid' := by
  induction fragments generalizing lots mid with
  | nil =>
    refine ⟨mid, rfl, ?_⟩
    rw [← hsum]
    exact h
  | cons fill fragments ih =>
    obtain ⟨⟨hprice, hpos⟩, hrest⟩ := List.forall_mem_cons.mp hfragments
    rw [List.map_cons, List.sum_cons, ← add_assoc] at hsum
    obtain ⟨mid₁, hmid₁, h₁⟩ := h.applyFill hopposes hprice (fun _ => hpos)
      (h.netFits hfits (by omega))
    obtain ⟨mid₂, hmid₂, h₂⟩ := ih h₁ hrest hsum
    refine ⟨mid₂, ?_, h₂⟩
    rw [List.map_cons, List.foldlM_cons, show mid.step (.applyFill fill side) = _ from hmid₁]
    exact hmid₂

end AfterLots

theorem afterLots_zero (whole : Fill) (hopposes : Opposes pos.netQuantity.toInt side) :
    pos.AfterLots whole side 0 pos := by
  refine ⟨?_, (if_pos hopposes.natAbs_pos).symm, ?_⟩
  · cases side with
    | bid => exact (add_zero _).symm
    | ask => exact (add_zero _).symm
  · rw [min_eq_right (Nat.zero_le _)]
    rw [show Int64.ofNat 0 = 0 from rfl, Int64.mul_zero, Int64.add_zero]

end Position

namespace PositionTracker

/-- **Fragmentation of a closing trade does not matter.** For a tracker whose position in a symbol
is open, and a trade against that position whose quantity and exact new net quantity are in the
range of `i64`: one fill of the whole quantity and any list of positive fills at the same price that
sum to it leave the same net quantity, average entry price and realized profit, whether they close
the position in part or in full or flip it. -/
theorem fragments_agree (t : PositionTracker) (symbolHash : UInt64) (whole : Fill) (side : Side)
    (fragments : List Fill) (hopposes : Opposes (t.position symbolHash).netQuantity.toInt side)
    (hfits : (t.position symbolHash).account.NetFits whole side)
    (hfragments : ∀ fill ∈ fragments, fill.price = whole.price ∧ 0 < fill.quantity.toNat)
    (hsum : (fragments.map (·.quantity.toNat)).sum = whole.quantity.toNat) :
    ∃ once piecewise, t.applyFill symbolHash whole side = some once ∧
      fragments.foldlM (fun t fill => t.applyFill symbolHash fill side) t = some piecewise ∧
      let pos := once.position symbolHash
      let pos' := piecewise.position symbolHash
      pos.netQuantity = pos'.netQuantity ∧ pos.avgEntryPrice = pos'.avgEntryPrice ∧
        pos.realizedPnl = pos'.realizedPnl := by
  have hzero : (t.position symbolHash).AfterLots whole side 0 (t.position symbolHash) :=
    Position.afterLots_zero whole hopposes
  obtain ⟨pos, hpos, hwhole⟩ := hzero.applyFill hopposes (rfl : whole.price = whole.price)
    (fun hle => absurd hle (by have := hopposes.natAbs_pos; omega)) hfits
  obtain ⟨pos', hpos', hpieces⟩ := hzero.run hopposes hfits hfragments ((zero_add _).trans hsum)
  rw [zero_add] at hwhole
  change (t.position symbolHash).step (.applyFill whole side) = some pos at hpos
  rw [← position_step] at hpos
  rw [← position_run, List.foldlM_map] at hpos'
  obtain ⟨once, honce, rfl⟩ := Option.map_eq_some_iff.mp hpos
  obtain ⟨piecewise, hpiecewise, rfl⟩ := Option.map_eq_some_iff.mp hpos'
  refine ⟨once, piecewise, honce, hpiecewise, ?_, hwhole.avg.trans hpieces.avg.symm,
    hwhole.realized.trans hpieces.realized.symm⟩
  rw [← Int64.toInt_inj, hwhole.net, hpieces.net]

/-- A long position of 5 at 10 against 8 lots sold at 12: 3, 2, 1 and 2 lots pass through every
branch, and leave -2 at 12. -/
theorem fragments_agree_flipped :
    let t : PositionTracker := ⟨SortedMap.empty.insert 7 ⟨7, 5, 10, 4, 0, 2⟩⟩
    let whole : Fill := ⟨⟨1⟩, ⟨2⟩, 12, 8, 0⟩
    let fragments : List Fill := [⟨⟨1⟩, ⟨2⟩, 12, 3, 0⟩, ⟨⟨3⟩, ⟨2⟩, 12, 2, 0⟩, ⟨⟨4⟩, ⟨2⟩, 12, 1, 0⟩,
      ⟨⟨5⟩, ⟨2⟩, 12, 2, 0⟩]
    ∃ once piecewise, t.applyFill 7 whole .ask = some once ∧
      fragments.foldlM (fun t fill => t.applyFill 7 fill .ask) t = some piecewise ∧
      (once.position 7).avgEntryPrice = (piecewise.position 7).avgEntryPrice := by
  intro t whole fragments
  obtain ⟨once, piecewise, honce, hpiecewise, -, havg, -⟩ :=
    fragments_agree t 7 whole .ask fragments (by decide) (by decide) (by decide) (by decide)
  exact ⟨once, piecewise, honce, hpiecewise, havg⟩

end PositionTracker

end AliceLedger
