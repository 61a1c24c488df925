import AliceLedger.Book.Purge
import AliceLedger.Book.Seniority
import AliceLedger.Book.StopLimit

/-!
# Withdrawals in any order

Cancellations, purges and mass cancellations submit nothing, and what one of them takes off the
book depends on the resting order alone (`BookOp.Takes`): on a book of distinct ids each is the
discard of what it takes (`Listed.step_eq_discard`). So a list of withdrawals is one discard
(`Listed.foldl_step_eq_discard`), and neither their order nor a repetition matters
(`withdrawals_commute`).

What a withdrawal takes is gone for good: as long as its id is not submitted again, no fill names it
and no cancellation finds it (`withdrawn_never_trades`). The invariant is that no resting order has
the id (`FreshId`).
-/

namespace AliceLedger

/-- What an operation takes off the book, if it rests, without a trade. -/
def BookOp.Takes (o : Order) : BookOp → Prop
  | .insert _ | .insertWithTime _ _ => False
  | .cancel id => o.id = id
  | .purgeExpired nowNs => ExpiredBy nowNs o
  | .cancelAllSide side => o.side = side
  | .cancelAll => True

instance (o : Order) : DecidablePred (BookOp.Takes o)
  | .insert _ | .insertWithTime _ _ => inferInstanceAs (Decidable False)
  | .cancel _ => inferInstanceAs (Decidable (_ = _))
  | .purgeExpired nowNs => inferInstanceAs (Decidable (ExpiredBy nowNs o))
  | .cancelAllSide _ => inferInstanceAs (Decidable (_ = _))
  | .cancelAll => inferInstanceAs (Decidable True)

namespace OrderBook

variable {book : OrderBook}

/-- The orders that a list of operations takes off the book without a trade. -/
def withdrawnBy (book : OrderBook) : List BookOp → List Order
  | [] => []
  | op :: ops => book.withdrawn op ++ (book.step op).withdrawnBy ops

/-- Cancelling the ids of a side discards the side and returns it. -/
theorem Listed.cancelAllSide_eq (h : book.Listed) (hsound : book.Sound) (hlive : book.IndexLive)
    (side : Side) : book.cancelIds (book.allOrderIdsBySide side) =
      (book.discard fun o => o.side = side, book.queue side) := by
  rw [allOrderIdsBySide_eq, h.cancelIds_eq_discard hsound hlive
    (fun o ho => mem_resting.mpr ⟨side, ho⟩) (h.nodup_queue side)]
  refine Prod.ext (discard_congr fun o ho => decide_eq_decide.mpr
    ⟨fun hmem => ?_, fun hs => ?_⟩) rfl
  · obtain ⟨x, hx, hid⟩ := List.mem_map.mp hmem
    rw [← List.inj_on_of_nodup_map h.nodup (mem_resting.mpr ⟨side, hx⟩) ho hid]
    exact (mem_queue_resting hsound hx).1
  · obtain ⟨side', ho⟩ := mem_resting.mp ho
    rw [← hs, (mem_queue_resting hsound ho).1]
    exact List.mem_map_of_mem ho

theorem Listed.cancelAllSide_eq_discard (h : book.Listed) (hsound : book.Sound)
    (hlive : book.IndexLive) (side : Side) :
    (book.cancelIds (book.allOrderIdsBySide side)).1 = book.discard fun o => o.side = side :=
  congrArg Prod.fst (h.cancelAllSide_eq hsound hlive side)

theorem Listed.cancelAllSide_snd (h : book.Listed) (hsound : book.Sound) (hlive : book.IndexLive)
    (side : Side) : (book.cancelIds (book.allOrderIdsBySide side)).2 = book.queue side :=
  congrArg Prod.snd (h.cancelAllSide_eq hsound hlive side)

/-- **A withdrawal discards what it takes.** -/
theorem Listed.step_eq_discard (h : book.Listed) (hsound : book.Sound) (hlive : book.IndexLive)
    {op : BookOp} (hop : op.Withdraws) : book.step op = book.discard fun o => op.Takes o := by
  cases op with
  | insert order => exact hop.elim
  | insertWithTime order nowNs => exact hop.elim
  | cancel id => exact h.cancel_eq_discard hsound hlive id
  | purgeExpired nowNs => exact congrArg Prod.fst (h.purgeExpired_eq hsound hlive nowNs)
  | cancelAllSide side => exact h.cancelAllSide_eq_discard hsound hlive side
  | cancelAll =>
    obtain ⟨hsound', hlive', hlisted'⟩ :=
      @listed_step book ⟨hsound, hlive, h⟩ (.cancelAllSide .bid) trivial
    have hbids : book.step (.cancelAllSide .bid) = book.discard fun o => o.side = .bid :=
      h.cancelAllSide_eq_discard hsound hlive .bid
    have hasks : (book.step (.cancelAllSide .bid)).step (.cancelAllSide .ask) =
        (book.step (.cancelAllSide .bid)).discard fun o => o.side = .ask :=
      hlisted'.cancelAllSide_eq_discard hsound' hlive' .ask
    change (book.step (.cancelAllSide .bid)).step (.cancelAllSide .ask) = _
    rw [hasks, hbids, discard_discard]
    refine discard_congr fun o _ => ?_
    rcases o.side_eq_bid_or_ask with hs | hs <;> rw [hs] <;> rfl

/-- The resting orders of a side are its queue. -/
theorem Sound.filter_side_resting (h : book.Sound) (side : Side) :
    (book.resting.filter fun o => o.side = side) = book.queue side := by
  have hall : ∀ side' : Side, side' = side →
      ((book.queue side').filter fun o => o.side = side) = book.queue side' := fun side' hs =>
    List.filter_eq_self.mpr fun o ho => decide_eq_true ((mem_queue_resting h ho).1.trans hs)
  have hnone : ∀ side' : Side, side' ≠ side →
      ((book.queue side').filter fun o => o.side = side) = [] := fun side' hs =>
    List.filter_eq_nil_iff.mpr fun o ho => by simpa [(mem_queue_resting h ho).1] using hs
  rw [resting, List.filter_append]
  cases side with
  | bid => rw [hall .bid rfl, hnone .ask (by decide), List.append_nil]
  | ask => rw [hall .ask rfl, hnone .bid (by decide), List.nil_append]

/-- What is discarded and what stays is what rested. -/
theorem withdrawn_perm {p : Order → Bool} {os : List Order}
    (h : book.resting.Perm (os ++ (book.discard p).resting)) :
    os.Perm (book.resting.filter p) := by
  rw [resting_discard] at h
  have hsplit := List.filter_append_perm p book.resting
  exact (List.perm_append_right_iff _).mp (h.symm.trans hsplit.symm)

/-- **A withdrawal returns what it takes**, in the order of the resting orders. -/
theorem Listed.withdrawn_eq (h : book.Listed) (hsound : book.Sound) (hlive : book.IndexLive)
    {op : BookOp} (hop : op.Withdraws) :
    book.withdrawn op = book.resting.filter fun o => op.Takes o := by
  cases op with
  | insert order => exact hop.elim
  | insertWithTime order nowNs => exact hop.elim
  | cancel id =>
    have hperm := hsound.step_perm hop
    rw [h.step_eq_discard hsound hlive hop] at hperm
    have hfilter := withdrawn_perm hperm
    cases hc : (book.cancel id).2 with
    | none =>
      rw [withdrawn, hc] at hfilter ⊢
      exact (List.nil_perm.mp hfilter).symm
    | some o =>
      rw [withdrawn, hc] at hfilter ⊢
      exact List.singleton_perm.mp hfilter
  | purgeExpired nowNs => exact congrArg Prod.snd (h.purgeExpired_eq hsound hlive nowNs)
  | cancelAllSide side =>
    exact (h.cancelAllSide_snd hsound hlive side).trans (hsound.filter_side_resting side).symm
  | cancelAll =>
    obtain ⟨hsound', hlive', hlisted'⟩ :=
      @listed_step book ⟨hsound, hlive, h⟩ (.cancelAllSide .bid) trivial
    have hbids := h.cancelAllSide_snd hsound hlive .bid
    have hasks : ((book.step (.cancelAllSide .bid)).cancelIds
        ((book.step (.cancelAllSide .bid)).allOrderIdsBySide .ask)).2 = book.queue .ask := by
      have hbook : book.step (.cancelAllSide .bid) = book.discard fun o => o.side = .bid :=
        h.cancelAllSide_eq_discard hsound hlive .bid
      rw [hlisted'.cancelAllSide_snd hsound' hlive', hbook, queue_discard]
      refine List.filter_eq_self.mpr fun o ho => ?_
      simp [(mem_queue_resting hsound ho).1]
    have hall : (book.resting.filter fun o => BookOp.cancelAll.Takes o) = book.resting :=
      List.filter_eq_self.mpr fun o _ => decide_eq_true trivial
    rw [hall]
    exact congrArg₂ (· ++ ·) hbids hasks

/-- **A list of withdrawals is one discard**, of what any of them takes. -/
theorem Listed.foldl_step_eq_discard (h : book.Listed) (hsound : book.Sound)
    (hlive : book.IndexLive) {ops : List BookOp} (hops : ∀ op ∈ ops, op.Withdraws) :
    ops.foldl step book = book.discard (fun o => ∃ op ∈ ops, op.Takes o) ∧
      book.resting.Perm (book.withdrawnBy ops ++ (ops.foldl step book).resting) := by
  induction ops generalizing book with
  | nil =>
    refine ⟨(hsound.discard_eq_self fun o _ => by simp).symm, .refl _⟩
  | cons op ops ih =>
    have hop := hops op List.mem_cons_self
    have hfresh : book.RestsFresh op := by
      cases op with
      | insert order => exact hop.elim
      | insertWithTime order nowNs => exact hop.elim
      | _ => trivial
    obtain ⟨hsound', hlive', hlisted'⟩ := listed_step ⟨hsound, hlive, h⟩ hfresh
    obtain ⟨hbook, hperm⟩ := ih hlisted' hsound' hlive' fun op hmem =>
      hops op (List.mem_cons_of_mem _ hmem)
    constructor
    · rw [List.foldl_cons, hbook, h.step_eq_discard hsound hlive hop, discard_discard]
      refine discard_congr fun o _ => ?_
      rw [← Bool.decide_or]
      exact decide_eq_decide.mpr (by simp)
    · rw [withdrawnBy, List.append_assoc, List.foldl_cons]
      exact (hsound.step_perm hop).trans (hperm.append_left _)

/-- **Withdrawals commute.** After any run of books with distinct resting ids, a list of
cancellations, purges and mass cancellations leaves each queue without the orders that one of them
takes, and returns exactly those, each once. The list may be given in any order and with
repetitions: the book is the same, and so are the orders returned, up to their order. -/
theorem withdrawals_commute (ops : List BookOp) (h : Run.Throughout step UniqueIds new ops)
    (withdrawals : List BookOp) (hops : ∀ op ∈ withdrawals, op.Withdraws) :
    let book := ops.foldl step new
    (∀ side, (withdrawals.foldl step book).queue side =
        (book.queue side).filter fun o => ¬ ∃ op ∈ withdrawals, op.Takes o) ∧
      (book.withdrawnBy withdrawals).Perm
        (book.resting.filter fun o => ∃ op ∈ withdrawals, op.Takes o) ∧
      ∀ withdrawals', (∀ op, op ∈ withdrawals' ↔ op ∈ withdrawals) →
        withdrawals'.foldl step book = withdrawals.foldl step book ∧
          (book.withdrawnBy withdrawals').Perm (book.withdrawnBy withdrawals) := by
  intro book
  obtain ⟨hsound, hlive, hlisted⟩ := listed_run_of_unique h
  have hrun := fun {ops : List BookOp} =>
    @Listed.foldl_step_eq_discard book hlisted hsound hlive ops
  obtain ⟨hbook, hperm⟩ := hrun hops
  rw [hbook] at hperm
  refine ⟨fun side => ?_, withdrawn_perm hperm, fun withdrawals' hmem => ?_⟩
  · rw [hbook, queue_discard]
    simp only [decide_not]
  · obtain ⟨hbook', hperm'⟩ := hrun fun op hop => hops op ((hmem op).mp hop)
    have hsame : book.discard (fun o => ∃ op ∈ withdrawals', op.Takes o) =
        book.discard fun o => ∃ op ∈ withdrawals, op.Takes o := by
      simp only [hmem]
    rw [hbook', hsame] at hperm'
    exact ⟨by rw [hbook', hbook, hsame], (withdrawn_perm hperm').trans (withdrawn_perm hperm).symm⟩

/-- A cancellation and a purge that both take the second of three bids. -/
theorem withdrawals_commute_purge :
    let book := [BookOp.insert (.limit 1 .bid 10 2 0),
      .insert { Order.limit 2 .bid 10 5 1 with timeInForce := .gtd 7 },
      .insert (.limit 3 .bid 9 1 2)].foldl step new
    [BookOp.purgeExpired 8, .cancel ⟨3⟩, .cancel ⟨2⟩, .cancel ⟨3⟩].foldl step book =
      [BookOp.cancel ⟨2⟩, .cancel ⟨3⟩, .purgeExpired 8].foldl step book := by
  exact ((withdrawals_commute [.insert (.limit 1 .bid 10 2 0),
    .insert { Order.limit 2 .bid 10 5 1 with timeInForce := .gtd 7 },
    .insert (.limit 3 .bid 9 1 2)] (by decide) [.cancel ⟨2⟩, .cancel ⟨3⟩, .purgeExpired 8]
    (by simp [BookOp.Withdraws])).2.2 [.purgeExpired 8, .cancel ⟨3⟩, .cancel ⟨2⟩, .cancel ⟨3⟩]
    (fun op => by simp; tauto)).1

/-! ## Gone for good -/

section Gone

variable {order : Order} {id : OrderId}

/-- The fills of a run from a book. -/
def fillsFrom (book : OrderBook) (ops : List BookOp) : List Fill :=
  (Run.trace (fun book op => (book.step op, book.emitted op)) book ops).flatMap Prod.snd

theorem fillsFrom_cons (book : OrderBook) (op : BookOp) (ops : List BookOp) :
    book.fillsFrom (op :: ops) = book.emitted op ++ (book.step op).fillsFrom ops :=
  List.flatMap_cons

/-- An insertion under another id rests nothing under this one. -/
theorem FreshId.insertWithTime (h : book.Sound) (hid : book.FreshId id) (hne : order.id ≠ id)
    (nowNs : UInt64) : (book.insertWithTime order nowNs).1.FreshId id := by
  have hmatched := FreshId.matchOrder h hid order
  unfold OrderBook.insertWithTime
  by_cases hexp : isExpired order nowNs = true
  · rwa [if_pos hexp]
  · rw [if_neg hexp]
    by_cases hrests : restsRemainder (book.matchOrder order).taker = true
    · simp only [hrests, if_true]
      obtain ⟨q, hq⟩ := h.matchOrder_taker_eq order
      have hperm := (h.matchOrder order).restOrder_perm (book.matchOrder order).taker
      intro o ho
      rcases List.mem_cons.mp (hperm.mem_iff.mp ho) with rfl | ho
      · rw [hq]
        exact hne
      · exact hmatched o ho
    · simp only [hrests]
      exact hmatched

/-- The fills of an insertion name the order and resting ones. -/
theorem FreshId.not_named (h : book.Sound) (hid : book.FreshId id) (hne : order.id ≠ id)
    {nowNs : UInt64} {f : Fill} (hf : f ∈ (book.insertWithTime order nowNs).2) :
    f.makerId ≠ id ∧ f.takerId ≠ id := by
  obtain ⟨i, hi⟩ := List.mem_iff_getElem?.mp hf
  obtain ⟨maker, hmaker, htrade⟩ := h.fills_get i f hi
  have hmem := (mem_crossing.mp (List.mem_of_getElem? hmaker)).1
  rw [htrade.maker_eq, htrade.taker_eq]
  exact ⟨hid maker (mem_resting.mpr ⟨_, hmem⟩), hne⟩

/-- **One operation** that does not submit the id neither rests nor names it. -/
theorem FreshId.step (h : book.Sound) (hid : book.FreshId id) {op : BookOp}
    (hop : ∀ o ∈ submittedBy op, o.id ≠ id) : (book.step op).FreshId id ∧
      ∀ f ∈ book.emitted op, f.makerId ≠ id ∧ f.takerId ≠ id := by
  cases op with
  | insert order =>
    have hne := hop order List.mem_cons_self
    exact ⟨hid.insertWithTime h hne 0, fun f hf => hid.not_named h hne hf⟩
  | insertWithTime order nowNs =>
    have hne := hop order List.mem_cons_self
    exact ⟨hid.insertWithTime h hne nowNs, fun f hf => hid.not_named h hne hf⟩
  | _ =>
    refine ⟨fun o ho => hid o ?_, fun f hf => absurd hf List.not_mem_nil⟩
    exact (h.step_perm (by trivial)).mem_iff.mpr (List.mem_append_right _ ho)

/-- **A run** that does not submit the id neither rests nor names it. -/
theorem FreshId.run (h : book.Sound) (hid : book.FreshId id) {ops : List BookOp}
    (hops : ∀ o ∈ ops.flatMap submittedBy, o.id ≠ id) : (ops.foldl OrderBook.step book).FreshId id ∧
      ∀ f ∈ book.fillsFrom ops, f.makerId ≠ id ∧ f.takerId ≠ id := by
  induction ops generalizing book with
  | nil => exact ⟨hid, fun f hf => absurd hf List.not_mem_nil⟩
  | cons op ops ih =>
    rw [List.flatMap_cons] at hops
    obtain ⟨hnext, hnow⟩ := hid.step h fun o ho => hops o (List.mem_append_left _ ho)
    obtain ⟨hlast, hlater⟩ := ih (h.step op) hnext fun o ho => hops o (List.mem_append_right _ ho)
    refine ⟨hlast, fun f hf => ?_⟩
    rw [fillsFrom_cons] at hf
    exact (List.mem_append.mp hf).elim (hnow f) (hlater f)

/-- An id under which nothing rests cannot be cancelled. -/
theorem FreshId.cancel (hlive : book.IndexLive) (hid : book.FreshId id) :
    (book.cancel id).2 = none := by
  have hnone : book.orderIndex.get? id = none :=
    Option.eq_none_iff_forall_ne_some.mpr fun entry hget => by
      obtain ⟨o, ho, heq, -⟩ := hlive id entry.1 entry.2 hget
      exact hid o (mem_resting.mpr ⟨_, ho⟩) heq
  simp only [OrderBook.cancel, hnone]

end Gone

/-- **A withdrawn order never trades again.** After any run of books with distinct resting ids, let
a cancellation, a purge or a mass cancellation take a resting order. In every continuation that does
not submit its id again, no fill names the order as maker or as taker, and at the end a cancellation
does not find it. -/
theorem withdrawn_never_trades (ops : List BookOp) (h : Run.Throughout step UniqueIds new ops)
    (withdrawal : BookOp) (hop : withdrawal.Withdraws) (more : List BookOp) :
    let book := ops.foldl step new
    ∀ o ∈ book.resting, withdrawal.Takes o → (∀ x ∈ more.flatMap submittedBy, x.id ≠ o.id) →
      (∀ f ∈ (book.step withdrawal).fillsFrom more, f.makerId ≠ o.id ∧ f.takerId ≠ o.id) ∧
        ((more.foldl step (book.step withdrawal)).cancel o.id).2 = none := by
  intro book o ho htakes hmore
  obtain ⟨hsound, hlive, hlisted⟩ := listed_run_of_unique h
  have hgone : (book.step withdrawal).FreshId o.id := by
    intro x hx hid
    rw [hlisted.step_eq_discard hsound hlive hop, resting_discard, List.mem_filter] at hx
    obtain rfl : x = o := List.inj_on_of_nodup_map hlisted.nodup hx.1 ho hid
    simp [htakes] at hx
  obtain ⟨hlast, hfills⟩ := hgone.run (hsound.step withdrawal) hmore
  have hlive' : (more.foldl step (book.step withdrawal)).IndexLive := by
    have hrun := (indexLive_run (ops ++ withdrawal :: more)).2
    rwa [List.foldl_append, List.foldl_cons] at hrun
  exact ⟨hfills, hlast.cancel hlive'⟩

/-- An ask that is cancelled before a bid comes. -/
theorem withdrawn_never_trades_ask :
    let book := [BookOp.insert (.limit 1 .ask 10 2 0), .insert (.limit 2 .ask 10 5 1)].foldl step
      new
    ∀ f ∈ (book.step (.cancel ⟨1⟩)).fillsFrom [.insert (.limit 3 .bid 11 4 2)],
      f.makerId ≠ ⟨1⟩ ∧ f.takerId ≠ ⟨1⟩ :=
  (withdrawn_never_trades [.insert (.limit 1 .ask 10 2 0), .insert (.limit 2 .ask 10 5 1)]
    (by decide) (.cancel ⟨1⟩) trivial [.insert (.limit 3 .bid 11 4 2)] (.limit 1 .ask 10 2 0)
    (by decide) rfl (by decide)).1

end OrderBook

end AliceLedger
