import AliceLedger.Position.Exact

/-!
# The envelope of the average entry price

A position that is open was opened by a fill from flat, or by one that flipped it, and added to by
others since: this is its `Leg`, and the average entry price lies between the least and the
greatest of the prices of the leg. Nothing more is needed than that the exact net quantity stays in
the range of `i64`. The average of an addition lies between the average before it and the price
(`avg_mem_Icc`), so the bound survives every addition (`Within.trade`), and with it neither the
`i128` operations nor the cast of the quotient lose anything (`average_in_envelope`). Realized
profits may wrap meanwhile.
-/

namespace AliceLedger

open Account (Adds Flips)

/-- What opened the position held. -/
structure Leg where
  /-- The exact net quantity. -/
  net : ℤ
  /-- The prices of the fills that opened the position or added to it. -/
  prices : List ℤ
  deriving DecidableEq, Repr

namespace Leg

/-- Nothing held. -/
def flat : Leg := ⟨0, []⟩

/-- The leg after a trade of `qty` lots, positive for a purchase. -/
def trade (leg : Leg) (qty price : ℤ) : Leg where
  net := leg.net + qty
  prices :=
    if leg.net = 0 then [price]
    else if Adds leg.net qty then price :: leg.prices
    else if leg.net + qty = 0 then []
    else if Flips leg.net qty then [price]
    else leg.prices

/-- The leg after a call. -/
def step (leg : Leg) : PositionOp → Leg
  | .applyFill fill side => leg.trade (signedQuantity fill side) fill.price.toInt
  | .markToMarket _ => leg

/-- A fill of 1 to 2^63 - 1 lots after which the exact net quantity is in the range of `i64`. -/
def Fits (leg : Leg) : PositionOp → Prop
  | .applyFill fill side => 0 < fill.quantity.toNat ∧ fill.quantity.toNat < 2 ^ 63 ∧
    FitsI64 (leg.net + signedQuantity fill side)
  | .markToMarket _ => True

instance (leg : Leg) : ∀ op, Decidable (leg.Fits op)
  | .applyFill _ _ => inferInstanceAs (Decidable (_ ∧ _ ∧ _))
  | .markToMarket _ => inferInstanceAs (Decidable True)

/-- A price between the least and the greatest of the leg. -/
def Covers (leg : Leg) (price : ℤ) : Prop :=
  ∃ lo hi, leg.prices.min? = some lo ∧ leg.prices.max? = some hi ∧ lo ≤ price ∧ price ≤ hi

variable {leg : Leg} {qty price : ℤ}

theorem covers_iff : leg.Covers price ↔
    (∃ lo ∈ leg.prices, lo ≤ price) ∧ ∃ hi ∈ leg.prices, price ≤ hi := by
  constructor
  · rintro ⟨lo, hi, hmin, hmax, hlo, hhi⟩
    exact ⟨⟨lo, (List.min?_eq_some_iff.mp hmin).1, hlo⟩,
      ⟨hi, (List.max?_eq_some_iff.mp hmax).1, hhi⟩⟩
  · rintro ⟨⟨lo, hlomem, hlo⟩, ⟨hi, hhimem, hhi⟩⟩
    obtain ⟨least, hmin⟩ := Option.isSome_iff_exists.mp (List.isSome_min?_of_mem hlomem)
    obtain ⟨greatest, hmax⟩ := Option.isSome_iff_exists.mp (List.isSome_max?_of_mem hhimem)
    exact ⟨least, greatest, hmin, hmax,
      ((List.min?_eq_some_iff.mp hmin).2 lo hlomem).trans hlo,
      hhi.trans ((List.max?_eq_some_iff.mp hmax).2 hi hhimem)⟩

theorem covers_singleton (net price : ℤ) : Covers ⟨net, [price]⟩ price :=
  covers_iff.mpr ⟨⟨price, by simp⟩, ⟨price, by simp⟩⟩

/-- **The average of an addition is covered** by the prices of the leg and its own. -/
theorem Covers.avg_adds {a : Account} (h : leg.Covers a.avg) (hadds : Adds a.net qty) (net : ℤ) :
    Covers ⟨net, price :: leg.prices⟩ ((a.cost qty price).tdiv (a.net + qty)) := by
  obtain ⟨⟨lo, hlomem, hlo⟩, ⟨hi, hhimem, hhi⟩⟩ := covers_iff.mp h
  have hmem := Account.avg_mem_Icc hadds
    ⟨(min_le_left lo price).trans hlo, hhi.trans (le_max_left hi price)⟩
    ⟨min_le_right lo price, le_max_right hi price⟩
  refine covers_iff.mpr ⟨⟨min lo price, ?_, hmem.1⟩, ⟨max hi price, ?_, hmem.2⟩⟩
  · rcases min_choice lo price with h | h <;> simp [h, hlomem]
  · rcases max_choice hi price with h | h <;> simp [h, hhimem]

end Leg

namespace Position

variable {pos : Position} {leg : Leg} {fill : Fill} {side : Side}

/-- The position has the net quantity of its leg and an average entry price that the leg covers. -/
structure Within (pos : Position) (leg : Leg) : Prop where
  net_eq : pos.netQuantity.toInt = leg.net
  covers : leg.net ≠ 0 → leg.Covers pos.avgEntryPrice.toInt

/-- The fill adds to the position, so it computes an average. -/
def Averages (pos : Position) (fill : Fill) (side : Side) : Prop :=
  pos.netQuantity ≠ 0 ∧ sameDirection pos.netQuantity (signedQty fill side) = true

/-- The average of an addition is computed without loss: the products and their sum do not
saturate, the divisor is not zero, and the cast of the quotient keeps its value. -/
structure Lossless (pos : Position) (fill : Fill) (side : Side) : Prop where
  held : satI128 (pos.netQuantity.toInt * pos.avgEntryPrice.toInt) =
    pos.netQuantity.toInt * pos.avgEntryPrice.toInt
  added : satI128 ((signedQty fill side).toInt * fill.price.toInt) =
    (signedQty fill side).toInt * fill.price.toInt
  total : pos.numerator fill side = pos.netQuantity.toInt * pos.avgEntryPrice.toInt +
    (signedQty fill side).toInt * fill.price.toInt
  divisor : (pos.newNet fill side).toInt ≠ 0
  cast : (pos.addedAvg fill side).toInt =
    (pos.numerator fill side).tdiv (pos.newNet fill side).toInt

/-- **An addition is computed without loss** when the exact net quantity fits. -/
theorem lossless (h : pos.account.NetFits fill side) (haverages : pos.Averages fill side) :
    pos.Lossless fill side := by
  have hadds := (sameDirection_signedQty_iff h).mp haverages.2
  have hqty : (signedQty fill side).toInt = signedQuantity fill side := toInt_signedQty h.1
  refine ⟨satI128_mul pos.netQuantity.fits_toInt pos.avgEntryPrice.fits_toInt,
    satI128_mul (signedQty fill side).fits_toInt fill.price.fits_toInt, ?_, ?_, ?_⟩
  · rw [numerator_eq h hadds, hqty]
    rfl
  · rw [toInt_newNet h]
    exact Account.Adds.net_ne_zero hadds
  · rw [toInt_addedAvg h hadds, numerator_eq h hadds, toInt_newNet h]

theorem Within.netFits (h : pos.Within leg) (hfits : leg.Fits (.applyFill fill side)) :
    pos.account.NetFits fill side := by
  refine ⟨hfits.2.1, ?_⟩
  rw [show pos.account.net = leg.net from h.net_eq]
  exact hfits.2.2

/-- **A fill keeps the average within the leg.** -/
theorem Within.applyFill (h : pos.Within leg) (hfits : leg.Fits (.applyFill fill side)) :
    ∃ pos', pos.applyFill fill side = some pos' ∧
      pos'.Within (leg.step (.applyFill fill side)) := by
  have hnet := h.netFits hfits
  have hnew : (pos.newNet fill side).toInt = leg.net + signedQuantity fill side := by
    rw [toInt_newNet hnet, ← h.net_eq]
    rfl
  have hadds : sameDirection pos.netQuantity (signedQty fill side) = true ↔
      Adds leg.net (signedQuantity fill side) := by
    rw [sameDirection_signedQty_iff hnet, ← h.net_eq]
    rfl
  have hopen : pos.netQuantity = 0 ↔ leg.net = 0 := by
    rw [← h.net_eq, Int64.toInt_eq_zero]
  have hzero : pos.newNet fill side = 0 ↔ leg.net + signedQuantity fill side = 0 := by
    rw [← hnew, Int64.toInt_eq_zero]
  have hflips : Position.flips pos.netQuantity (pos.newNet fill side) = true ↔
      Flips leg.net (signedQuantity fill side) := by
    rw [flips_newNet_iff hnet, ← h.net_eq]
    rfl
  simp only [Leg.step, Leg.trade]
  have hresult := pos.applyFill_result fill side
  generalize pos.applyFill fill side = r at hresult
  cases hresult with
  | opens hflat =>
    rw [if_pos (hopen.mp hflat)]
    exact ⟨_, rfl, hnew, fun _ => Leg.covers_singleton _ _⟩
  | panics hne hsame hz =>
    exact absurd (hnew.symm.trans hz) (Account.Adds.net_ne_zero (hadds.mp hsame))
  | adds hne hsame hz =>
    have ha : Adds pos.account.net (signedQuantity fill side) :=
      (sameDirection_signedQty_iff hnet).mp hsame
    rw [if_neg (mt hopen.mpr hne), if_pos (hadds.mp hsame)]
    refine ⟨_, rfl, hnew, fun _ => ?_⟩
    rw [toInt_addedAvg hnet ha]
    exact (h.covers (mt hopen.mpr hne)).avg_adds (a := pos.account) ha _
  | closes hne hsame hz =>
    exact ⟨_, rfl, hnew, fun hopen' => absurd (hzero.mp hz) hopen'⟩
  | flips hne hsame hz hf =>
    rw [if_neg (mt hopen.mpr hne), if_neg (by simp [← hadds, hsame]), if_neg (mt hzero.mpr hz),
      if_pos (hflips.mp hf)]
    exact ⟨_, rfl, hnew, fun _ => Leg.covers_singleton _ _⟩
  | reduces hne hsame hz hf =>
    rw [if_neg (mt hopen.mpr hne), if_neg (by simp [← hadds, hsame]), if_neg (mt hzero.mpr hz),
      if_neg (by simp [← hflips, hf])]
    exact ⟨_, rfl, hnew, fun _ => h.covers (mt hopen.mpr hne)⟩

theorem Within.step {op : PositionOp} (h : pos.Within leg) (hfits : leg.Fits op) :
    ∃ pos', pos.step op = some pos' ∧ pos'.Within (leg.step op) := by
  cases op with
  | applyFill fill side => exact h.applyFill hfits
  | markToMarket currentPrice =>
    refine ⟨_, rfl, ?_⟩
    unfold markToMarket
    split_ifs
    · exact ⟨h.net_eq, h.covers⟩
    · exact ⟨h.net_eq, h.covers⟩

theorem Within.run {ops : List PositionOp} (h : pos.Within leg)
    (hfits : Run.Along Leg.step Leg.Fits leg ops) :
    ∃ pos', ops.foldlM Position.step pos = some pos' ∧ pos'.Within (ops.foldl Leg.step leg) := by
  induction ops generalizing pos leg with
  | nil => exact ⟨pos, rfl, h⟩
  | cons op ops ih =>
    obtain ⟨pos₁, hstep, hwithin⟩ := h.step hfits.1
    obtain ⟨pos₂, hrun, hfinal⟩ := ih hwithin hfits.2
    refine ⟨pos₂, ?_, hfinal⟩
    rw [List.foldlM_cons, hstep]
    exact hrun

theorem within_new (symbolHash : UInt64) : (new symbolHash).Within .flat :=
  ⟨rfl, fun h => absurd rfl h⟩

end Position

namespace PositionTracker

variable {symbolHash : UInt64} {ops : List PositionOp}

theorem within_run (h : Run.Along Leg.step Leg.Fits .flat ops) :
    ∃ t, ops.foldlM (PositionTracker.step symbolHash) new = some t ∧
      (t.position symbolHash).Within (ops.foldl Leg.step .flat) := by
  obtain ⟨pos, hrun, hwithin⟩ := (Position.within_new symbolHash).run h
  rw [← position_new, ← position_run] at hrun
  obtain ⟨t, ht, rfl⟩ := Option.map_eq_some_iff.mp hrun
  exact ⟨t, ht, hwithin⟩

/-- **The average entry price stays in its envelope.** On every run of fills of 1 to 2^63 - 1 lots
whose exact net quantity stays in the range of `i64`, with marks at any prices between them, no
call panics; the position ends with the exact net quantity and, when it is open, an average entry
price between the least and the greatest price of the fills that opened its leg or added to it; and
every fill that adds to the position computes its average without loss. -/
theorem average_in_envelope (symbolHash : UInt64) (ops : List PositionOp)
    (h : Run.Along Leg.step Leg.Fits .flat ops) :
    let leg := ops.foldl Leg.step .flat
    (∃ t, ops.foldlM (PositionTracker.step symbolHash) new = some t ∧
      (t.position symbolHash).netQuantity.toInt = leg.net ∧
      (leg.net ≠ 0 → leg.Covers (t.position symbolHash).avgEntryPrice.toInt)) ∧
    ∀ done fill side rest, ops = done ++ .applyFill fill side :: rest →
      ∃ t, done.foldlM (PositionTracker.step symbolHash) new = some t ∧
        ((t.position symbolHash).Averages fill side →
          (t.position symbolHash).Lossless fill side) := by
  intro leg
  constructor
  · obtain ⟨t, ht, hwithin⟩ := within_run h
    exact ⟨t, ht, hwithin.net_eq, hwithin.covers⟩
  · rintro done fill side rest rfl
    obtain ⟨hdone, hfits, -⟩ := Run.along_append.mp h
    obtain ⟨t, ht, hwithin⟩ := within_run hdone
    exact ⟨t, ht, Position.lossless (hwithin.netFits hfits)⟩

/-- Buying 1 at 10 and 2 at -4 and selling 5 at 7: the averages are 10, 0 and 7. -/
theorem average_in_envelope_flipped :
    let fills : List PositionOp := [.applyFill ⟨⟨1⟩, ⟨2⟩, 10, 1, 0⟩ .bid,
      .applyFill ⟨⟨3⟩, ⟨4⟩, -4, 2, 1⟩ .bid, .applyFill ⟨⟨5⟩, ⟨6⟩, 7, 5, 2⟩ .ask]
    ∃ t, fills.foldlM (PositionTracker.step 7) new = some t ∧
      (t.position 7).netQuantity.toInt = -2 ∧
      Leg.Covers ⟨-2, [7]⟩ (t.position 7).avgEntryPrice.toInt := by
  intro fills
  obtain ⟨t, ht, hnet, hcovers⟩ := (average_in_envelope 7 fills (by decide)).1
  exact ⟨t, ht, hnet, hcovers (by decide)⟩

end PositionTracker

end AliceLedger
