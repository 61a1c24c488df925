import AliceLedger.Position.Exact

/-!
# Unrealized profit

The unrealized profit of a position is written when the position is marked and when it is closed.
A fill that adds to a marked position, reduces it or flips it changes what the field should say,
and leaves it as it is. `Neutral` is the exact condition on a fill under which the field still says
it: the position is not open or not marked, or the fill closes it, or the profit at the last mark
happens to be the same before and after (`current_step_iff`). Over runs this is
`unrealized_current_iff`.
-/

namespace AliceLedger

open Account

/-- An account with the price of its last mark since it was last opened from flat. -/
structure Marked where
  account : Account
  lastMark : Option ℤ

namespace Marked

/-- Nothing held and nothing marked. -/
def new : Marked := ⟨flat, none⟩

/-- A call on the account. A fill that opens a position from flat forgets the mark. -/
def step (m : Marked) (op : PositionOp) : Marked where
  account := m.account.step op
  lastMark :=
    match op with
    | .applyFill _ _ => if m.account.net = 0 then none else m.lastMark
    | .markToMarket currentPrice => some currentPrice.toInt

/-- The unrealized profit is that of the open position at the last mark. -/
def Current (m : Marked) : Prop :=
  ∀ price, m.lastMark = some price → m.account.unrealized = m.account.net * (price - m.account.avg)

/-- A trade leaves the profit at a mark as it is: an addition costs what it is worth at the mark, a
reduction takes off lots that are worth what they cost, a flip opens a position worth as much as the
one it closed. A trade that closes the position is always neutral. -/
def NeutralAt (a : Account) (qty price mark : ℤ) : Prop :=
  if Adds a.net qty then
    qty * (mark - price) + (a.cost qty price).tmod (a.net + qty) = 0
  else if a.net + qty = 0 then True
  else if Flips a.net qty then (a.net + qty) * (mark - price) = a.net * (mark - a.avg)
  else qty * (mark - a.avg) = 0

instance (a : Account) (qty price mark : ℤ) : Decidable (NeutralAt a qty price mark) := by
  unfold NeutralAt
  infer_instance

/-- A call that keeps the unrealized profit current: a mark, or a fill that finds no open position,
no mark, or is neutral at the mark. -/
def Neutral (m : Marked) : PositionOp → Prop
  | .applyFill fill side => m.account.net ≠ 0 → ∀ mark ∈ m.lastMark,
    NeutralAt m.account (signedQuantity fill side) fill.price.toInt mark
  | .markToMarket _ => True

instance (m : Marked) : ∀ op, Decidable (m.Neutral op)
  | .applyFill _ _ => inferInstanceAs (Decidable (_ → _))
  | .markToMarket _ => inferInstanceAs (Decidable True)

variable {m : Marked}

theorem current_new : new.Current := fun _ h => by simp [new] at h

/-- A trade of an open position keeps the profit at a mark exactly when it is neutral there. -/
theorem unrealized_trade_iff {a : Account} {mark : ℤ} (hnet : a.net ≠ 0)
    (h : a.unrealized = a.net * (mark - a.avg)) (qty price : ℤ) :
    (a.trade qty price).unrealized =
        (a.trade qty price).net * (mark - (a.trade qty price).avg) ↔
      NeutralAt a qty price mark := by
  rcases a.trade_cases qty price with ⟨hzero, -⟩ | ⟨-, hadds, ht⟩ | ⟨-, hsum, ht⟩ | ⟨hflips, ht⟩ |
    ⟨-, hadds, hsum, hflips, ht⟩
  · exact absurd hzero hnet
  · have hdiv := Int.mul_tdiv_add_tmod (a.cost qty price) (a.net + qty)
    rw [ht, NeutralAt, if_pos hadds]
    dsimp only
    rw [h]
    have hcost : a.cost qty price = a.net * a.avg + qty * price := rfl
    constructor
    · intro heq
      linarith
    · intro heq
      linarith
  · rw [ht, NeutralAt, if_neg (by unfold Adds; omega), if_pos hsum]
    simp
  · rw [ht, NeutralAt, if_neg (by unfold Adds Flips at *; omega),
      if_neg (by unfold Flips at hflips; omega), if_pos hflips]
    dsimp only
    rw [h]
    exact eq_comm
  · rw [ht, NeutralAt, if_neg hadds, if_neg hsum, if_neg hflips]
    dsimp only
    rw [h]
    constructor
    · intro heq
      linarith
    · intro heq
      linarith

/-- **A call keeps the unrealized profit current exactly when it is neutral.** -/
theorem current_step_iff (h : m.Current) (op : PositionOp) :
    (m.step op).Current ↔ m.Neutral op := by
  cases op with
  | markToMarket currentPrice =>
    refine iff_of_true (fun price hprice => ?_) trivial
    obtain rfl := Option.some.inj hprice
    rfl
  | applyFill fill side =>
    by_cases hnet : m.account.net = 0
    · refine iff_of_true (fun price hprice => ?_) fun hne => absurd hnet hne
      simp [step, hnet] at hprice
    · have hmark : (m.step (.applyFill fill side)).lastMark = m.lastMark := if_neg hnet
      unfold Current
      rw [hmark]
      constructor
      · intro hcur _ mark hm
        exact (unrealized_trade_iff hnet (h mark hm) _ _).mp (hcur mark hm)
      · intro hneutral mark hm
        exact (unrealized_trade_iff hnet (h mark hm) _ _).mpr (hneutral hnet mark hm)

theorem account_foldl (m : Marked) (ops : List PositionOp) :
    (ops.foldl step m).account = ops.foldl Account.step m.account := by
  induction ops generalizing m with
  | nil => rfl
  | cons op ops ih => exact ih (m.step op)

end Marked

namespace PositionTracker

variable {symbolHash : UInt64}

/-- The unrealized profit that the tracker reports for a symbol is that of its position at a last
mark. -/
def CurrentAt (t : PositionTracker) (symbolHash : UInt64) (lastMark : Option ℤ) : Prop :=
  ∀ pos price, t.get symbolHash = some pos → lastMark = some price →
    pos.unrealizedPnl.toInt = pos.netQuantity.toInt * (price - pos.avgEntryPrice.toInt)

/-- A symbol without a position has nothing to report. -/
theorem currentAt_iff {t : PositionTracker} {m : Marked}
    (h : t.account symbolHash = m.account) : t.CurrentAt symbolHash m.lastMark ↔ m.Current := by
  unfold CurrentAt Marked.Current
  rw [← h, PositionTracker.account]
  cases hget : t.get symbolHash with
  | none => exact iff_of_true (by simp) fun price _ => (zero_mul _).symm
  | some pos =>
    constructor
    · intro hcur price hprice
      exact hcur pos price rfl hprice
    · rintro hcur _ price ⟨⟩ hprice
      exact hcur price hprice

/-- **When unrealized profit is current.** Along a run of calls on one symbol whose exact values
fit, the unrealized profit is that of the open position at the last mark in every state reached
exactly when every call is neutral. -/
theorem unrealized_current_iff (symbolHash : UInt64) (ops : List PositionOp)
    (h : Run.Along Account.step Fits flat ops) :
    (∀ done rest, ops = done ++ rest →
      ∃ t, done.foldlM (PositionTracker.step symbolHash) new = some t ∧
        t.CurrentAt symbolHash (done.foldl Marked.step Marked.new).lastMark) ↔
      Run.Along Marked.step Marked.Neutral Marked.new ops := by
  have hiff : Run.Throughout Marked.step Marked.Current Marked.new ops ↔
      Run.Along Marked.step Marked.Neutral Marked.new ops :=
    Run.throughout_iff_along (fun _ op hcur => Marked.current_step_iff hcur op) Marked.current_new
  rw [← hiff, Run.throughout_iff_forall_append]
  refine forall₂_congr fun done rest => imp_congr_right fun heq => ?_
  rw [heq, Run.along_append, ← account_new symbolHash] at h
  obtain ⟨t, hrun, haccount⟩ := account_run h.1
  have hsame : t.account symbolHash = (done.foldl Marked.step Marked.new).account := by
    rw [haccount, Marked.account_foldl]
    rfl
  rw [← currentAt_iff hsame]
  constructor
  · rintro ⟨t', hrun', hcur⟩
    rw [hrun, Option.some.injEq] at hrun'
    exact hrun' ▸ hcur
  · exact fun hcur => ⟨t, hrun, hcur⟩

/-- A position that is marked and then closed. -/
theorem unrealized_current_closed :
    let ops : List PositionOp := [.applyFill ⟨⟨1⟩, ⟨2⟩, 100, 10, 0⟩ .bid, .markToMarket 110,
      .applyFill ⟨⟨3⟩, ⟨4⟩, 110, 10, 1⟩ .ask]
    ∀ done rest, ops = done ++ rest →
      ∃ t, done.foldlM (PositionTracker.step 7) new = some t ∧
        t.CurrentAt 7 (done.foldl Marked.step Marked.new).lastMark :=
  (unrealized_current_iff 7 [.applyFill ⟨⟨1⟩, ⟨2⟩, 100, 10, 0⟩ .bid, .markToMarket 110,
    .applyFill ⟨⟨3⟩, ⟨4⟩, 110, 10, 1⟩ .ask] ⟨by decide, by decide, by decide, trivial⟩).mpr
    ⟨by decide, by decide, by decide, trivial⟩

/-- **A partial close leaves the unrealized profit stale.** Of 10 lots bought at 100 and marked at
110, 5 are sold at 110: the profit of 50 on them is realized, and the 100 at the mark still stand
for 5 lots that are worth 50. -/
theorem partial_close_counts_twice :
    let ops : List PositionOp := [.applyFill ⟨⟨1⟩, ⟨2⟩, 100, 10, 0⟩ .bid, .markToMarket 110,
      .applyFill ⟨⟨3⟩, ⟨4⟩, 110, 5, 1⟩ .ask]
    Run.Along Account.step Fits flat ops ∧
      (ops.foldl Marked.step Marked.new).lastMark = some 110 ∧
      ∃ t pos, ops.foldlM (PositionTracker.step 7) new = some t ∧ t.get 7 = some pos ∧
        pos.realizedPnl.toInt = 50 ∧ pos.unrealizedPnl.toInt = 100 ∧
        pos.netQuantity.toInt * (110 - pos.avgEntryPrice.toInt) = 50 :=
  ⟨⟨by decide, by decide, by decide, trivial⟩, by decide, _, ⟨7, 5, 100, 50, 100, 2⟩, rfl,
    by decide, by decide, by decide, by decide⟩

end PositionTracker

end AliceLedger
