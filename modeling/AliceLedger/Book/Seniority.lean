import AliceLedger.Book.Queue
import Mathlib.Data.List.Forall2

/-!
# Seniority

Over a whole run, the orders resting at a price are submitted orders in the order in which they
were submitted, changed by nothing but their fills (`resting_in_submission_order`): time priority
is seniority, and what is cancelled and submitted again goes to the back. Only orders that may rest
do: none that is filled, no market order and no IOC or FOK order.

`Grown` compares an order with what its fills make of it, and a queue stands to the submissions, and
to the queue before an operation, as a list whose members are related to those of a sublist
(`List.SublistForall₂`). Both relations are transitive, so that the step lemmas compose.
-/

namespace AliceLedger

open List (SublistForall₂)

/-! ## Lists related to a sublist -/

section Lists

variable {α : Type*} {R : α → α → Prop} {as bs cs ds : List α}

theorem sublistForall₂_append (h : SublistForall₂ R as bs) (h' : SublistForall₂ R cs ds) :
    SublistForall₂ R (as ++ cs) (bs ++ ds) := by
  induction h with
  | @nil bs =>
    obtain ⟨es, hes, hsub⟩ := List.sublistForall₂_iff.mp h'
    exact List.sublistForall₂_iff.mpr ⟨es, hes, hsub.trans (List.sublist_append_right bs ds)⟩
  | cons hab _ ih => exact .cons hab ih
  | cons_right _ ih => exact .cons_right ih

/-- A test that related members pass alike filters related lists alike. -/
theorem sublistForall₂_filter {p : α → Bool} (hp : ∀ a b, R a b → p a = p b)
    (h : SublistForall₂ R as bs) : SublistForall₂ R (as.filter p) (bs.filter p) := by
  induction h with
  | nil => exact .nil
  | @cons a b as bs hab _ ih =>
    rw [List.filter_cons, List.filter_cons, hp a b hab]
    split_ifs
    · exact .cons hab ih
    · exact ih
  | @cons_right b as bs _ ih =>
    rw [List.filter_cons]
    split_ifs
    · exact .cons_right ih
    · exact ih

theorem exists_of_sublistForall₂ (h : SublistForall₂ R as bs) {a : α} (ha : a ∈ as) :
    ∃ b ∈ bs, R a b := by
  induction h with
  | nil => cases ha
  | cons hab _ ih =>
    rcases List.mem_cons.mp ha with rfl | ha
    · exact ⟨_, List.mem_cons_self, hab⟩
    · obtain ⟨b, hb, hR⟩ := ih ha
      exact ⟨b, List.mem_cons_of_mem _ hb, hR⟩
  | cons_right _ ih =>
    obtain ⟨b, hb, hR⟩ := ih ha
    exact ⟨b, List.mem_cons_of_mem _ hb, hR⟩

end Lists

/-! ## What fills make of an order -/

/-- `o` is `o₀` after fills: only the filled quantity has changed, and it has not decreased. -/
structure Grown (o o₀ : Order) : Prop where
  eq : o = { o₀ with filledQuantity := o.filledQuantity }
  le : o₀.filledQuantity ≤ o.filledQuantity

instance : Std.Refl Grown := ⟨fun _ => ⟨rfl, le_rfl⟩⟩

instance : IsTrans Order Grown := ⟨fun a b c hab hbc => by
  refine ⟨?_, hbc.le.trans hab.le⟩
  rw [hab.eq, hbc.eq]⟩

theorem Grown.price_eq {o o₀ : Order} (h : Grown o o₀) : o.price = o₀.price := by rw [h.eq]

/-- What may rest after fills might have rested before them. -/
theorem Grown.restsRemainder {o o₀ : Order} (h : Grown o o₀)
    (ho : OrderBook.restsRemainder o = true) : OrderBook.restsRemainder o₀ = true := by
  rw [OrderBook.restsRemainder_iff, h.eq] at ho
  obtain ⟨hopen, hrest⟩ := ho
  refine OrderBook.restsRemainder_iff.mpr ⟨?_, hrest⟩
  rw [Order.isFilled_eq_false_iff] at hopen ⊢
  exact (UInt64.le_iff_toNat_le.mp h.le).trans_lt hopen

theorem grown_addFilled {o : Order} {qty : UInt64} (h : o.isFilled = false)
    (hq : qty.toNat ≤ o.remaining.toNat) : Grown (o.addFilled qty) o where
  eq := rfl
  le := by
    rw [UInt64.le_iff_toNat_le, Order.toNat_filledQuantity_addFilled h hq]
    exact Nat.le_add_right _ _

theorem grown_sweep_taker (taker : Order) (makers : List Order) :
    Grown (sweep taker makers).taker taker := by
  obtain ⟨q, hq⟩ := sweep_taker_eq taker makers
  refine ⟨by rw [hq], ?_⟩
  rw [UInt64.le_iff_toNat_le, (sweep_spec taker makers).1]
  exact Nat.le_add_right _ _

/-- **What a sweep leaves in the queue** was there before, in that order. -/
theorem grown_sweep_makers (taker : Order) {makers : List Order} (h : AllOpen makers) :
    SublistForall₂ Grown (sweep taker makers).makers makers := by
  revert h
  refine sweep_induction
    (P := fun _ makers r => AllOpen makers → SublistForall₂ Grown r.makers makers)
    ?_ ?_ ?_ ?_ taker makers
  · exact fun _ _ => .nil
  · exact fun _ _ _ _ _ => refl _
  · exact fun _ _ _ _ _ _ _ ih h => .cons_right (ih h.of_cons)
  · intro taker maker rest _ _ _ h
    have hm := h maker List.mem_cons_self
    exact .cons (grown_addFilled hm (tradeQty_le_maker taker maker)) (refl rest)

namespace OrderBook

variable {book : OrderBook}

/-- The order that an operation submits. -/
def submittedBy : BookOp → List Order
  | .insert order | .insertWithTime order _ => [order]
  | _ => []

/-- The orders submitted in a run that would rest if they did not trade. -/
def submitted (ops : List BookOp) : List Order :=
  (ops.flatMap submittedBy).filter fun o => restsRemainder o

/-- The orders at a price, in priority order. -/
def queueAt (book : OrderBook) (side : Side) (price : Int64) : List Order :=
  (book.queue side).filter fun o => o.price = price

theorem grown_queueAt {book' : OrderBook} {side : Side}
    (h : SublistForall₂ Grown (book'.queue side) (book.queue side)) (price : Int64) :
    SublistForall₂ Grown (book'.queueAt side price) (book.queueAt side price) :=
  sublistForall₂_filter (fun o o₀ ho => by rw [ho.price_eq]) h

/-- **Matching** keeps the orders of both queues. -/
theorem SweptBook.grown {order : Order} {q rest : List Order} {m : Matched} (h : book.Sound)
    (hm : SweptBook book order q rest m) (side : Side) :
    SublistForall₂ Grown (m.book.queue side) (book.queue side) := by
  by_cases hside : side = order.side
  · rw [hside, hm.own]
    exact refl _
  · have hopen : AllOpen q := fun o ho =>
      (mem_queue_resting h (hm.before ▸ List.mem_append_left rest ho)).2
    rw [Side.eq_opposite_of_ne hside, hm.before, hm.after]
    exact sublistForall₂_append (grown_sweep_makers order hopen) (refl rest)

/-- What an insertion leaves at a price was there before, or is its order. -/
theorem Sound.grown_insertWithTime (h : book.Sound) (order : Order) (nowNs : UInt64) (side : Side)
    (price : Int64) : SublistForall₂ Grown ((book.insertWithTime order nowNs).1.queueAt side price)
      (book.queueAt side price ++ [order].filter fun o => restsRemainder o) := by
  have hmore : ∀ os : List Order,
      SublistForall₂ Grown os (os ++ [order].filter fun o => restsRemainder o) := fun os =>
    (List.sublist_append_left os _).sublistForall₂
  obtain ⟨q, rest, hm⟩ := h.matchOrder_swept order
  have hmatch := grown_queueAt (hm.grown h side) price
  unfold OrderBook.insertWithTime
  split_ifs with hexp
  · exact hmore _
  · dsimp only
    split_ifs with hrests
    · have htaker : Grown (book.matchOrder order).taker order :=
        hm.taker_eq ▸ grown_sweep_taker order q
      have hside : (book.matchOrder order).taker.side = order.side := by rw [htaker.eq]
      obtain ⟨hother, -, hown, -⟩ :=
        (h.matchOrder order).restOrder_queue (book.matchOrder order).taker
      rw [hside] at hother hown
      by_cases hs : side = order.side
      · rw [queueAt, hs, hown, ← hs, List.filter_singleton, htaker.restsRemainder hrests]
        refine sublistForall₂_append hmatch ?_
        split_ifs
        · exact .cons htaker .nil
        · exact .nil
      · rw [queueAt, Side.eq_opposite_of_ne hs, hother, ← Side.eq_opposite_of_ne hs]
        exact IsTrans.trans _ _ _ hmatch (hmore _)
    · exact IsTrans.trans _ _ _ hmatch (hmore _)

theorem foldl_erase_sublist (os q : List Order) : (os.foldl List.erase q).Sublist q := by
  induction os generalizing q with
  | nil => exact .refl q
  | cons o os ih => exact (ih _).trans List.erase_sublist

/-- **What an operation leaves at a price** was there before, or is the order that it submits. -/
theorem Sound.grown_step (h : book.Sound) (op : BookOp) (side : Side) (price : Int64) :
    SublistForall₂ Grown ((book.step op).queueAt side price)
      (book.queueAt side price ++ submitted [op]) := by
  cases op with
  | insert order => exact h.grown_insertWithTime order 0 side price
  | insertWithTime order nowNs => exact h.grown_insertWithTime order nowNs side price
  | _ =>
    change SublistForall₂ Grown _ (book.queueAt side price ++ [])
    rw [List.append_nil]
    refine grown_queueAt ?_ price
    rw [h.step_erase (by trivial)]
    exact (foldl_erase_sublist _ _).sublistForall₂

theorem submitted_append (ops ops' : List BookOp) :
    submitted (ops ++ ops') = submitted ops ++ submitted ops' := by
  rw [submitted, List.flatMap_append, List.filter_append, submitted, submitted]

/-- The queue at a price against the submissions of a run. -/
theorem grown_run (ops : List BookOp) (side : Side) (price : Int64) :
    SublistForall₂ Grown ((ops.foldl step new).queueAt side price) (submitted ops) := by
  induction ops using List.reverseRecOn with
  | nil => cases side <;> exact .nil
  | append_singleton ops op ih =>
    rw [List.foldl_append, submitted_append]
    exact IsTrans.trans _ _ _ ((sound_run ops).grown_step op side price)
      (sublistForall₂_append ih (refl _))

/-- Only orders that may rest do. -/
theorem restsRemainder_of_mem_queue {ops : List BookOp} {side : Side} {o : Order}
    (ho : o ∈ (ops.foldl step new).queue side) : restsRemainder o = true := by
  have hat : o ∈ (ops.foldl step new).queueAt side o.price :=
    List.mem_filter.mpr ⟨ho, decide_eq_true rfl⟩
  obtain ⟨o₀, ho₀, hgrown⟩ := exists_of_sublistForall₂ (grown_run ops side o.price) hat
  have hopen := (mem_queue_resting (sound_run ops) ho).2
  obtain ⟨-, hrests⟩ := restsRemainder_iff.mp (List.mem_filter.mp ho₀).2
  refine restsRemainder_iff.mpr ⟨hopen, ?_⟩
  rw [hgrown.eq]
  exact hrests

/-- **Time priority is seniority.** In every run of public operations, with any orders and any ids,
the orders resting at a price of a side are, in their priority order, orders submitted in the run in
the order of their submission, each changed by nothing but its fills; and no order rests that is
filled, is a market order, or is IOC or FOK. -/
theorem resting_in_submission_order (ops : List BookOp) (side : Side) (price : Int64) :
    SublistForall₂ Grown ((ops.foldl step new).queueAt side price) (submitted ops) ∧
      ∀ o ∈ (ops.foldl step new).queueAt side price, restsRemainder o = true :=
  ⟨grown_run ops side price, fun _ ho => restsRemainder_of_mem_queue (List.mem_filter.mp ho).1⟩

end OrderBook

end AliceLedger
