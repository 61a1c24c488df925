import AliceLedger.Book.Index
import AliceLedger.Book.Seniority
import AliceLedger.Ffi.Handles
import AliceLedger.Ffi.Memory

/-!
# Records that come back

A client of the foreign interface gets orders back from a book: the one that it cancels, and those
that it purges. Every record that it gets from a handle is one that it inserted under the same
handle before, in canonical form, with nothing changed but a filled quantity that has not decreased
and is short of the quantity (`records_come_back`). This holds of every session that does not fault,
whatever the client does with other handles, and whatever ids it uses.
-/

namespace AliceLedger

/-! ## Records handed in -/

/-- The record that a call inserts into the book of a handle. -/
def FfiCall.insertedFor (p : ℕ) : FfiCall → Option FfiOrder
  | .bookInsert (some q) (some order) true => if q = p then some order else none
  | .bookInsertWithTime (some q) (some order) _ true => if q = p then some order else none
  | _ => none

/-- The records inserted into the book of a handle. -/
def insertedRecords (p : ℕ) (calls : List FfiCall) : List FfiOrder :=
  calls.filterMap (·.insertedFor p)

/-- A record is another one in canonical form, after fills. -/
structure FfiOrder.ComesFrom (r r₀ : FfiOrder) : Prop where
  eq : r = { orderToFfi (ffiToOrder r₀) with filledQuantity := r.filledQuantity }
  le : r₀.filledQuantity ≤ r.filledQuantity
  lt : r.filledQuantity < r.quantity

section Records

variable {p : ℕ} {calls : List FfiCall} {call : FfiCall} {o : Order}

/-- What a call submits to the book of a handle is the order of the record that it inserts. -/
theorem exists_insertedFor {op : BookOp} (h : call.bookOp p = some op)
    (ho : o ∈ OrderBook.submittedBy op) :
    ∃ r₀, call.insertedFor p = some r₀ ∧ ffiToOrder r₀ = o := by
  unfold FfiCall.bookOp at h
  split at h
  case h_1 q request hrequest =>
    have hcall := bookCall_of_request hrequest
    split_ifs at h with hq
    cases hcall
    case insert order | insertWithTime order _ =>
      cases h
      exact ⟨order, if_pos hq, (List.mem_singleton.mp ho).symm⟩
    case cancel | purgeExpired =>
      cases h
      exact absurd ho List.not_mem_nil
    all_goals cases h
  case h_2 => cases h

/-- **What rests in the book of a handle** comes from a record inserted there. -/
theorem exists_comesFrom (ho : o ∈ (bookOf p calls).resting) :
    ∃ r₀ ∈ insertedRecords p calls, (orderToFfi o).ComesFrom r₀ := by
  obtain ⟨side, hqueue⟩ := OrderBook.mem_resting.mp ho
  have hopen := (OrderBook.mem_queue_resting (OrderBook.sound_run _) hqueue).2
  have hat : o ∈ (bookOf p calls).queueAt side o.price :=
    List.mem_filter.mpr ⟨hqueue, decide_eq_true rfl⟩
  obtain ⟨o₀, ho₀, hgrown⟩ := exists_of_sublistForall₂ (OrderBook.grown_run _ side o.price) hat
  obtain ⟨op, hop, hmem⟩ := List.mem_flatMap.mp (List.mem_of_mem_filter ho₀)
  obtain ⟨call, hcall, hbookOp⟩ := List.mem_filterMap.mp hop
  obtain ⟨r₀, hr₀, rfl⟩ := exists_insertedFor hbookOp hmem
  refine ⟨r₀, List.mem_filterMap.mpr ⟨call, hcall, hr₀⟩, ?_, hgrown.le, ?_⟩
  · rw [hgrown.eq]
    rfl
  · rw [Order.isFilled_eq_false_iff] at hopen
    exact UInt64.lt_iff_toNat_lt.mpr hopen

end Records

/-! ## Records handed out -/

/-- **Records come back.** In every session that does not fault, let the last call cancel an order
of a book or purge a book. A record that it returns, in the answer of the cancel or in the array of
the purge, comes from a record that an earlier call inserted into the book of the same handle; and a
cancel returns one with the id that it was given. -/
theorem records_come_back (done : List FfiCall) (call : FfiCall) {answers : List FfiAnswer}
    {answer : FfiAnswer} {heap : Heap Object}
    (h : (done ++ [call]).mapM runCall .empty = .ok (answers, heap))
    (hlast : answers.getLast? = some answer) (p : ℕ) :
    (∀ id out found r, call = .bookCancel (some p) id out → answer = .order found (some r) →
      r.id = id ∧ ∃ r₀ ∈ insertedRecords p done, r.ComesFrom r₀) ∧
    (∀ nowNs array q rs, call = .bookPurgeExpired (some p) nowNs true → answer = .array array →
      array.ptr = some q → heap.get? q = some (.orders rs) →
        ∀ r ∈ rs, ∃ r₀ ∈ insertedRecords p done, r.ComesFrom r₀) := by
  have hsound : (bookOf p done).Sound := OrderBook.sound_run _
  have hconveyed := (answered_run h hlast).1
  constructor
  · rintro id out found r rfl rfl
    have hanswer : FfiAnswer.order found (some r) =
        .order (if ((bookOf p done).cancel ⟨id⟩).2.isSome then 1 else 0)
          (if out then ((bookOf p done).cancel ⟨id⟩).2.map orderToFfi else none) :=
      hconveyed p _ rfl
    have hout : (if out then ((bookOf p done).cancel ⟨id⟩).2.map orderToFfi else none) = some r :=
      (FfiAnswer.order.inj hanswer).2.symm
    split_ifs at hout
    obtain ⟨o, ho, rfl⟩ := Option.map_eq_some_iff.mp hout
    obtain ⟨hid, hresting, -⟩ := hsound.of_mem_cancel ho
    exact ⟨congrArg OrderId.val hid, exists_comesFrom hresting⟩
  · rintro nowNs array q rs rfl rfl hptr hget r hr
    obtain ⟨array', harray, -, ⟨-, hnone⟩ | ⟨-, q', hptr', hget'⟩⟩ := hconveyed p _ rfl
    · cases harray
      rw [hptr] at hnone
      cases hnone
    · cases harray
      obtain rfl : q = q' := Option.some.inj (hptr.symm.trans hptr')
      obtain rfl : rs = _ := Object.orders.inj (Option.some.inj (hget.symm.trans hget'))
      obtain ⟨o, ho, rfl⟩ := List.mem_map.mp hr
      have hperm : (bookOf p done).resting.Perm (((bookOf p done).purgeExpired nowNs).2 ++
          ((bookOf p done).purgeExpired nowNs).1.resting) := hsound.cancelIds_perm _
      exact exists_comesFrom (hperm.mem_iff.mpr (List.mem_append_left _ ho))

/-- An ask under the side 7, of which a bid takes 3 of 5 lots. -/
def tradedAsk : List FfiCall :=
  [.bookNew,
    .bookInsert (some 0) (some { orderToFfi (.limit 1 .ask 100 5 0) with side := 7 }) true,
    .bookInsert (some 0) (some (orderToFfi (.limit 2 .bid 100 3 1))) true]

/-- The ask comes back with the side 1 and 3 lots filled. -/
theorem records_come_back_ask : ∃ r₀ ∈ insertedRecords 0 tradedAsk,
    { orderToFfi (.limit 1 .ask 100 5 0) with filledQuantity := 3 }.ComesFrom r₀ := by
  have hanswer : (((tradedAsk ++ [FfiCall.bookCancel (some 0) 1 true]).mapM runCall
      .empty).toOption.bind fun r => r.1.getLast?) =
      some (.order 1 (some { orderToFfi (.limit 1 .ask 100 5 0) with filledQuantity := 3 })) := by
    decide
  cases hrun : (tradedAsk ++ [FfiCall.bookCancel (some 0) 1 true]).mapM runCall .empty with
  | error fault =>
    rw [hrun] at hanswer
    cases hanswer
  | ok result =>
    rw [hrun] at hanswer
    exact ((records_come_back tradedAsk _ hrun hanswer 0).1 1 true 1 _ rfl rfl).2

end AliceLedger
