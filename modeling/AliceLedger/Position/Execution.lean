import AliceLedger.Book.Ffi
import AliceLedger.Position.Direction
import AliceLedger.Position.Envelope
import AliceLedger.Position.Fragments
import AliceLedger.Risk.Notional

/-!
# From an execution to a position

The fills of an insertion are fed to a tracker one after the other, with the side of the order. They
move the net quantity one way (`Leg.net_foldl_calls`), so it stays in range between its first and
its last value (`Leg.along_calls`), and on a position that they do not oppose they only open and add
(`Within.calls_of_not_opposes`). An order on a reachable book therefore opens a flat position of
exactly the lots that it trades, at an average entry price between the best opposite price and its
own limit (`execution_opens_position`).
-/

namespace AliceLedger

open Account (Adds)

/-- The calls that feed the fills of an order of a side to a tracker. -/
def calls (side : Side) (fills : List Fill) : List PositionOp :=
  fills.map fun fill => .applyFill fill side

variable {side : Side} {fill : Fill} {fills : List Fill}

theorem signedLots_opposite (side : Side) (lots : ℕ) :
    signedLots side.opposite lots = -signedLots side lots := by
  cases side with
  | bid => rfl
  | ask => exact (neg_neg _).symm

/-- Lots bought and sold back leave the difference. -/
theorem signedLots_sub (side : Side) {lots back : ℕ} (h : back ≤ lots) :
    signedLots side lots + signedLots side.opposite back = signedLots side (lots - back) := by
  have hsplit := signedLots_add side (lots - back) back
  rw [Nat.sub_add_cancel h] at hsplit
  rw [signedLots_opposite, hsplit, add_neg_cancel_right]

namespace Leg

variable {leg : Leg}

theorem net_step_fill (leg : Leg) (fill : Fill) (side : Side) :
    (leg.step (.applyFill fill side)).net = leg.net + signedLots side fill.quantity.toNat := by
  rw [← signedQuantity_eq_signedLots]
  rfl

/-- **The fills move the net quantity by what they trade.** -/
theorem net_foldl_calls (leg : Leg) (side : Side) (fills : List Fill) :
    ((calls side fills).foldl Leg.step leg).net = leg.net + signedLots side (traded fills) := by
  induction fills generalizing leg with
  | nil => cases side <;> simp [calls, signedLots]
  | cons fill fills ih =>
    have hrest := ih (leg.step (.applyFill fill side))
    rw [net_step_fill, add_assoc, ← signedLots_add, ← traded_cons] at hrest
    exact hrest

/-- A price of the leg afterwards is one from before or the price of a fill. -/
theorem mem_prices_foldl_calls {price : ℤ}
    (h : price ∈ ((calls side fills).foldl Leg.step leg).prices) :
    price ∈ leg.prices ∨ ∃ fill ∈ fills, fill.price.toInt = price := by
  induction fills generalizing leg with
  | nil => exact .inl h
  | cons fill fills ih =>
    have hrest : price ∈
        ((calls side fills).foldl Leg.step (leg.step (.applyFill fill side))).prices := h
    rcases ih hrest with hmem | ⟨f, hf, hprice⟩
    · have hstep : price = fill.price.toInt ∨ price ∈ leg.prices := by
        simp only [Leg.step, Leg.trade] at hmem
        split_ifs at hmem
        · exact .inl (List.mem_singleton.mp hmem)
        · exact List.mem_cons.mp hmem
        · exact absurd hmem List.not_mem_nil
        · exact .inl (List.mem_singleton.mp hmem)
        · exact .inr hmem
      exact hstep.symm.imp_right fun hprice => ⟨fill, List.mem_cons_self, hprice.symm⟩
    · exact .inr ⟨f, List.mem_cons_of_mem _ hf, hprice⟩

/-- What bounds the cost of every price of the leg bounds that of a covered price. -/
theorem Covers.cost_bounds {price : ℤ} (h : leg.Covers price) (side : Side) :
    (∀ bound, (∀ p ∈ leg.prices, bound ≤ costAt side p) → bound ≤ costAt side price) ∧
      ∀ bound, (∀ p ∈ leg.prices, costAt side p ≤ bound) → costAt side price ≤ bound := by
  obtain ⟨⟨lo, hlomem, hlo⟩, ⟨hi, hhimem, hhi⟩⟩ := covers_iff.mp h
  cases side with
  | bid => exact ⟨fun _ hb => (hb lo hlomem).trans hlo, fun _ hb => hhi.trans (hb hi hhimem)⟩
  | ask =>
    exact ⟨fun _ hb => (hb hi hhimem).trans (neg_le_neg hhi),
      fun _ hb => (neg_le_neg hlo).trans (hb lo hlomem)⟩

/-- **Fills of one side fit** when the net quantity does before and after them. -/
theorem along_calls (hqty : ∀ fill ∈ fills, 0 < fill.quantity.toNat)
    (htraded : traded fills < 2 ^ 63) (hstart : FitsI64 leg.net)
    (hend : FitsI64 (leg.net + signedLots side (traded fills))) :
    Run.Along Leg.step Leg.Fits leg (calls side fills) := by
  induction fills generalizing leg with
  | nil => exact trivial
  | cons fill fills ih =>
    have hpos := hqty fill List.mem_cons_self
    rw [traded_cons] at htraded hend
    rw [signedLots_add, ← add_assoc] at hend
    -- the net quantity after the fill lies between the two
    have hmid : FitsI64 (leg.net + signedLots side fill.quantity.toNat) := by
      unfold FitsI64 at hstart hend ⊢
      cases side with
      | bid => simp only [signedLots] at hend ⊢; omega
      | ask => simp only [signedLots] at hend ⊢; omega
    rw [← net_step_fill] at hmid hend
    refine ⟨⟨hpos, by omega, hmid⟩, ?_⟩
    exact ih (fun f hf => hqty f (List.mem_cons_of_mem _ hf)) (by omega) hmid hend

end Leg

namespace Position

variable {pos : Position} {leg : Leg}

/-- A fill that does not oppose the position opens it or adds to it: it realizes nothing. -/
theorem Within.applyFill_of_not_opposes (h : pos.Within leg)
    (hfits : leg.Fits (.applyFill fill side)) (hside : ¬ Opposes leg.net side) :
    ∃ pos', pos.applyFill fill side = some pos' ∧
      pos'.Within (leg.step (.applyFill fill side)) ∧
      pos'.realizedPnl = pos.realizedPnl ∧ pos'.unrealizedPnl = pos.unrealizedPnl := by
  obtain ⟨pos', hpos', hwithin⟩ := h.applyFill hfits
  refine ⟨pos', hpos', hwithin, ?_⟩
  have hsame : pos.netQuantity ≠ 0 →
      sameDirection pos.netQuantity (signedQty fill side) = true := by
    intro hopen
    rw [sameDirection_signedQty_iff (h.netFits hfits), signedQuantity_eq_signedLots]
    have hne : leg.net ≠ 0 := h.net_eq ▸ Int64.toInt_eq_zero.not.mpr hopen
    have hqty := hfits.1
    change Adds pos.netQuantity.toInt _
    rw [h.net_eq]
    unfold Adds
    cases side with
    | bid => simp only [Opposes, signedLots] at hside ⊢; omega
    | ask => simp only [Opposes, signedLots] at hside ⊢; omega
  have hresult := pos.applyFill_result fill side
  rw [hpos'] at hresult
  cases hresult with
  | opens | adds => exact ⟨rfl, rfl⟩
  | closes hopen hagainst | flips hopen hagainst | reduces hopen hagainst =>
    rw [hsame hopen] at hagainst
    exact absurd hagainst Bool.false_ne_true.symm

/-- **Fills that do not oppose the position** realize nothing. -/
theorem Within.calls_of_not_opposes (h : pos.Within leg)
    (hfits : Run.Along Leg.step Leg.Fits leg (calls side fills)) (hside : ¬ Opposes leg.net side) :
    ∃ pos', (calls side fills).foldlM Position.step pos = some pos' ∧
      pos'.Within ((calls side fills).foldl Leg.step leg) ∧
      pos'.realizedPnl = pos.realizedPnl ∧ pos'.unrealizedPnl = pos.unrealizedPnl := by
  induction fills generalizing pos leg with
  | nil => exact ⟨pos, rfl, h, rfl, rfl⟩
  | cons fill fills ih =>
    obtain ⟨pos₁, hstep, hwithin, hrealized, hunrealized⟩ :=
      h.applyFill_of_not_opposes hfits.1 hside
    have hside₁ : ¬ Opposes (leg.step (.applyFill fill side)).net side := by
      rw [Leg.net_step_fill]
      cases side with
      | bid => simp only [Opposes, signedLots] at hside ⊢; omega
      | ask => simp only [Opposes, signedLots] at hside ⊢; omega
    obtain ⟨pos₂, hrun, hwithin₂, hrealized₂, hunrealized₂⟩ := ih hwithin hfits.2 hside₁
    refine ⟨pos₂, ?_, hwithin₂, hrealized₂.trans hrealized, hunrealized₂.trans hunrealized⟩
    change (pos.applyFill fill side).bind _ = _
    rw [hstep]
    exact hrun

end Position

namespace PositionTracker

/-- A tracker runs as the position of the symbol does. -/
theorem exists_of_position_run {symbolHash : UInt64} {t : PositionTracker} {ops : List PositionOp}
    {pos : Position} (h : ops.foldlM Position.step (t.position symbolHash) = some pos) :
    ∃ t', ops.foldlM (PositionTracker.step symbolHash) t = some t' ∧
      t'.position symbolHash = pos := by
  rw [← position_run] at h
  exact Option.map_eq_some_iff.mp h

/-- Calls that fit never panic. -/
theorem exists_of_along {symbolHash : UInt64} {t : PositionTracker} {leg : Leg}
    {ops : List PositionOp} (h : (t.position symbolHash).Within leg)
    (hfits : Run.Along Leg.step Leg.Fits leg ops) :
    ∃ t', ops.foldlM (PositionTracker.step symbolHash) t = some t' ∧
      (t'.position symbolHash).Within (ops.foldl Leg.step leg) := by
  obtain ⟨pos, hrun, hwithin⟩ := h.run hfits
  obtain ⟨t', ht', rfl⟩ := exists_of_position_run hrun
  exact ⟨t', ht', hwithin⟩

end PositionTracker

namespace OrderBook

variable {book : OrderBook} {order : Order}

/-- Every fill is at the best opposite price or at a worse one. -/
theorem Sound.best_le_of_mem_fills (h : book.Sound) {nowNs : UInt64}
    (hfill : fill ∈ (book.insertWithTime order nowNs).2) :
    ∃ best ∈ book.bestPrice order.side.opposite,
      costAt order.side best.toInt ≤ costAt order.side fill.price.toInt := by
  obtain ⟨maker, hmaker, hprice⟩ := h.exists_maker_of_mem_fills hfill
  have hmem := (mem_crossing.mp hmaker).1
  rcases h.bestPrice_cases order.side.opposite with ⟨hnil, -⟩ | ⟨o, -, hbest, hworse⟩
  · rw [hnil] at hmem
    exact absurd hmem List.not_mem_nil
  · refine ⟨o.price, hbest, ?_⟩
    have hle := hworse maker hmem
    rw [hprice]
    cases hs : order.side with
    | bid =>
      rw [hs] at hle
      exact Int64.le_iff_toInt_le.mp (not_lt.mp hle)
    | ask =>
      rw [hs] at hle
      exact neg_le_neg (Int64.le_iff_toInt_le.mp (not_lt.mp hle))

/-- **An execution opens its position.** Let the fills of an order on a reachable book, less than
2^63 lots in all, be fed to a new tracker with the side of the order. No call panics, and the
position is exactly the lots traded, with nothing realized; its average entry price is not better
than the best opposite price before the order, and not worse than the limit of an order that has
one. -/
theorem execution_opens_position (ops : List BookOp) (order : Order) (nowNs symbolHash : UInt64)
    (h : traded ((ops.foldl step new).insertWithTime order nowNs).2 < 2 ^ 63) :
    let book := ops.foldl step new
    let fills := (book.insertWithTime order nowNs).2
    ∃ t, (calls order.side fills).foldlM (PositionTracker.step symbolHash) .new = some t ∧
      let pos := t.position symbolHash
      pos.netQuantity.toInt = signedLots order.side (traded fills) ∧
        pos.realizedPnl = 0 ∧ pos.unrealizedPnl = 0 ∧
        (fills ≠ [] →
          (∃ best ∈ book.bestPrice order.side.opposite,
            costAt order.side best.toInt ≤ costAt order.side pos.avgEntryPrice.toInt) ∧
          (order.orderType ≠ .market →
            costAt order.side pos.avgEntryPrice.toInt ≤ costAt order.side order.price.toInt)) := by
  intro book fills
  have hsound : book.Sound := sound_run ops
  have hqty : ∀ fill ∈ fills, 0 < fill.quantity.toNat := hsound.fill_quantity_pos
  have hend : FitsI64 (Leg.flat.net + signedLots order.side (traded fills)) := by
    have hlots : traded fills < 2 ^ 63 := h
    unfold FitsI64
    cases order.side with
    | bid => simp only [Leg.flat, signedLots]; omega
    | ask => simp only [Leg.flat, signedLots]; omega
  have hflat : ¬ Opposes Leg.flat.net order.side := by
    cases order.side with
    | bid => exact lt_irrefl 0
    | ask => exact lt_irrefl 0
  obtain ⟨pos, hrun, hwithin, hrealized, hunrealized⟩ :=
    (Position.within_new symbolHash).calls_of_not_opposes
      (Leg.along_calls hqty h (by decide) hend) hflat
  rw [← PositionTracker.position_new] at hrun
  obtain ⟨t, ht, rfl⟩ := PositionTracker.exists_of_position_run hrun
  have hnet := Leg.net_foldl_calls .flat order.side fills
  have hnet' : ((calls order.side fills).foldl Leg.step .flat).net =
      signedLots order.side (traded fills) := hnet.trans (zero_add _)
  refine ⟨t, ht, hwithin.net_eq.trans hnet', hrealized, hunrealized, fun hne => ?_⟩
  have hopen : ((calls order.side fills).foldl Leg.step .flat).net ≠ 0 := by
    obtain ⟨fill, hfill⟩ := List.exists_mem_of_ne_nil _ hne
    have hpos := hqty fill hfill
    have hle : fill.quantity.toNat ≤ traded fills :=
      List.single_le_sum (by simp) _ (List.mem_map_of_mem hfill)
    rw [hnet']
    cases order.side with
    | bid => simp only [signedLots]; omega
    | ask => simp only [signedLots]; omega
  have hprices : ∀ p ∈ ((calls order.side fills).foldl Leg.step .flat).prices,
      ∃ fill ∈ fills, fill.price.toInt = p := fun p hp =>
    (Leg.mem_prices_foldl_calls hp).resolve_left List.not_mem_nil
  obtain ⟨hlower, hupper⟩ := (hwithin.covers hopen).cost_bounds order.side
  constructor
  · obtain ⟨fill, hfill⟩ := List.exists_mem_of_ne_nil _ hne
    obtain ⟨best, hbest, -⟩ := hsound.best_le_of_mem_fills hfill
    refine ⟨best, hbest, hlower _ fun p hp => ?_⟩
    obtain ⟨f, hf, rfl⟩ := hprices p hp
    obtain ⟨best', hbest', hle⟩ := hsound.best_le_of_mem_fills hf
    obtain rfl : best = best' := Option.some.inj (hbest.symm.trans hbest')
    exact hle
  · intro htype
    refine hupper _ fun p hp => ?_
    obtain ⟨f, hf, rfl⟩ := hprices p hp
    obtain ⟨maker, hmaker, hprice⟩ := hsound.exists_maker_of_mem_fills hf
    rw [hprice]
    exact costAt_le_of_crosses htype (mem_crossing.mp hmaker).2

/-- A bid at 104 for 8 lots takes 5 at 100 and 3 at 103: the average is 101. -/
theorem execution_opens_position_bid :
    let book := [BookOp.insert (.limit 1 .ask 100 5 0), .insert (.limit 2 .ask 103 5 1)].foldl step
      new
    let fills := (book.insertWithTime (.limit 3 .bid 104 8 2) 0).2
    ∃ t, (calls .bid fills).foldlM (PositionTracker.step 7) .new = some t ∧
      (t.position 7).netQuantity.toInt = 8 := by
  obtain ⟨t, ht, hnet, -⟩ := execution_opens_position [.insert (.limit 1 .ask 100 5 0),
    .insert (.limit 2 .ask 103 5 1)] (.limit 3 .bid 104 8 2) 0 7 (by decide)
  exact ⟨t, ht, hnet⟩

end OrderBook

end AliceLedger
