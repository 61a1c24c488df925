import AliceLedger.Ffi.Session

/-!
# Every handle is an object of its own

In a session that does not fault, what is behind a handle is what its own calls make of a new
object, whatever the client does with other handles in between, and every answer is that of the
object as it is then (`session_handles`). So what is proved of a run of a book, or of a tracker,
holds of every book and tracker of every session.
-/

namespace AliceLedger

/-- The operation of a call on the book of a handle. -/
def FfiCall.bookOp (p : ℕ) (call : FfiCall) : Option BookOp :=
  match call.request with
  | .book q request => if q = p then request.op else none
  | _ => none

/-- The operation of a call on the tracker of a handle. -/
def FfiCall.trackerOp (p : ℕ) (call : FfiCall) : Option (UInt64 × PositionOp) :=
  match call.request with
  | .tracker q request => if q = p then request.op else none
  | _ => none

/-- What the calls for a handle make of a new book. -/
def bookOf (p : ℕ) (calls : List FfiCall) : OrderBook :=
  (calls.filterMap (·.bookOp p)).foldl OrderBook.step .new

/-- What the calls for a handle make of a new tracker. -/
def trackerOf (p : ℕ) (calls : List FfiCall) : Option PositionTracker :=
  (calls.filterMap (·.trackerOp p)).foldlM (fun tracker call => tracker.step call.1 call.2) .new

/-- An array holds what it should: null and 0 for nothing, and else the records and their
number. -/
def Holds {α : Type} (heap : Heap Object) (kind : ObjectKind Object (List α)) (xs : List α)
    (array : RawArray) : Prop :=
  array.count = some (Int32.ofNat xs.length) ∧
    ((xs = [] ∧ array.ptr = none) ∨
      xs ≠ [] ∧ ∃ p, array.ptr = some p ∧ heap.get? p = some (kind.inject xs))

/-- An answer passes a reply on. -/
def BookReply.Conveyed (heap : Heap Object) (answer : FfiAnswer) : BookReply → Prop
  | .fills fs => ∃ array, answer = .array array ∧
      Holds heap Object.fillsKind (fs.map fillToFfi) array
  | .cancelled order out => answer =
      .order (if order.isSome then 1 else 0) (if out then order.map orderToFfi else none)
  | .price p => answer = .price p
  | .depth ds => ∃ array, answer = .array array ∧
      Holds heap Object.depthKind (ds.map fun e => ⟨e.1, e.2⟩) array
  | .expired os => ∃ array, answer = .array array ∧
      Holds heap Object.ordersKind (os.map orderToFfi) array
  | .count n => answer = .count n

section Reply

variable {heap heap' : Heap Object}

theorem holds_arrayAt {α β : Type} (kind : ObjectKind Object (List β)) (f : α → β) (xs : List α)
    (hnext : heap'.next = heap.next) :
    Holds ((if xs.isEmpty then none else some (kind.inject (xs.map f))).elim heap' heap'.alloc) kind
      (xs.map f) (BookReply.arrayAt heap.next xs.length) := by
  cases xs with
  | nil => exact ⟨rfl, .inl ⟨rfl, rfl⟩⟩
  | cons x xs =>
    rw [← hnext, List.isEmpty_cons, if_neg Bool.false_ne_true]
    refine ⟨?_, .inr ⟨by simp, heap'.next, rfl, heap'.get?_alloc_next _⟩⟩
    rw [List.length_map]
    rfl

/-- **The answer of a request passes the reply on.** -/
theorem BookReply.conveyed (reply : BookReply) (hnext : heap'.next = heap.next) :
    reply.Conveyed (reply.payload.elim heap' heap'.alloc) (reply.answer heap.next) := by
  cases reply with
  | fills fs => exact ⟨_, rfl, holds_arrayAt Object.fillsKind fillToFfi fs hnext⟩
  | depth ds => exact ⟨_, rfl, holds_arrayAt Object.depthKind _ ds hnext⟩
  | expired os => exact ⟨_, rfl, holds_arrayAt Object.ordersKind orderToFfi os hnext⟩
  | cancelled order out => rfl
  | price p => rfl
  | count n => rfl

end Reply

/-! ## What the calls for a handle do -/

section Handle

variable {call : FfiCall} {calls : List FfiCall} {p q : ℕ}

theorem bookOf_concat (p : ℕ) (calls : List FfiCall) (call : FfiCall) :
    bookOf p (calls ++ [call]) = (call.bookOp p).elim (bookOf p calls) (bookOf p calls).step := by
  rw [bookOf, List.filterMap_append, List.foldl_append]
  cases h : call.bookOp p <;> simp [h, bookOf]

theorem trackerOf_concat (p : ℕ) (calls : List FfiCall) (call : FfiCall) :
    trackerOf p (calls ++ [call]) = (trackerOf p calls).bind fun tracker =>
      (call.trackerOp p).elim (some tracker) fun op => tracker.step op.1 op.2 := by
  rw [trackerOf, List.filterMap_append, List.foldlM_append]
  cases h : call.trackerOp p <;> simp [h, trackerOf]

/-- A call that is no request to a book leaves what the calls make of every book. -/
theorem bookOf_concat_eq (h : ∀ q request, call.request ≠ .book q request) (p : ℕ) :
    bookOf p (calls ++ [call]) = bookOf p calls := by
  have hnone : call.bookOp p = none := by
    unfold FfiCall.bookOp
    split
    · exact absurd ‹_› (h _ _)
    · rfl
  rw [bookOf_concat, hnone]
  rfl

theorem trackerOf_concat_eq (h : ∀ q request, call.request ≠ .tracker q request) (p : ℕ) :
    trackerOf p (calls ++ [call]) = trackerOf p calls := by
  have hnone : call.trackerOp p = none := by
    unfold FfiCall.trackerOp
    split
    · exact absurd ‹_› (h _ _)
    · rfl
  rw [trackerOf_concat, hnone]
  exact Option.bind_fun_some _

/-- A request to a book changes what the calls make of that book. -/
theorem bookOf_concat_book {request : BookRequest} (h : call.request = .book q request) :
    bookOf p (calls ++ [call]) =
      if p = q then request.next (bookOf p calls) else bookOf p calls := by
  have hop : call.bookOp p = if q = p then request.op else none := by rw [FfiCall.bookOp, h]
  rw [bookOf_concat, hop]
  by_cases hp : p = q
  · rw [if_pos hp.symm, if_pos hp]
    rfl
  · rw [if_neg (Ne.symm hp), if_neg hp]
    rfl

theorem trackerOf_concat_tracker {request : TrackerRequest}
    (h : call.request = .tracker q request) : trackerOf p (calls ++ [call]) =
      if p = q then (trackerOf p calls).bind request.next else trackerOf p calls := by
  have hop : call.trackerOp p = if q = p then request.op else none := by rw [FfiCall.trackerOp, h]
  rw [trackerOf_concat, hop]
  by_cases hp : p = q
  · rw [if_pos hp.symm, if_pos hp]
    cases request <;> rfl
  · rw [if_neg (Ne.symm hp), if_neg hp]
    exact Option.bind_fun_some _

end Handle

/-! ## Every session -/

/-- **What every call keeps**: the handles not yet handed out have had no calls, and what is behind
the others is what their calls make. -/
structure HandlesInv (calls : List FfiCall) (heap : Heap Object) : Prop where
  new_book : ∀ p, heap.next ≤ p → bookOf p calls = .new
  new_tracker : ∀ p, heap.next ≤ p → trackerOf p calls = some .new
  book : ∀ p book, heap.get? p = some (.book book) → bookOf p calls = book
  tracker : ∀ p tracker, heap.get? p = some (.tracker tracker) → trackerOf p calls = some tracker

namespace HandlesInv

variable {calls : List FfiCall} {heap heap' : Heap Object} {call : FfiCall}

theorem nil : HandlesInv [] .empty where
  new_book _ _ := rfl
  new_tracker _ _ := rfl
  book _ _ h := nomatch h
  tracker _ _ h := nomatch h

/-- A new object keeps it: a book or a tracker is a new one. -/
theorem alloc (h : HandlesInv calls heap) {o : Object}
    (hbook : ∀ book, o = .book book → book = .new)
    (htracker : ∀ tracker, o = .tracker tracker → tracker = .new) :
    HandlesInv calls (heap.alloc o) where
  new_book p hp := h.new_book p (Nat.le_of_succ_le hp)
  new_tracker p hp := h.new_tracker p (Nat.le_of_succ_le hp)
  book p book hget := by
    rcases Heap.get?_alloc_cases hget with ⟨rfl, rfl⟩ | hget
    · rw [h.new_book _ le_rfl, hbook _ rfl]
    · exact h.book p book hget
  tracker p tracker hget := by
    rcases Heap.get?_alloc_cases hget with ⟨rfl, rfl⟩ | hget
    · rw [h.new_tracker _ le_rfl, htracker _ rfl]
    · exact h.tracker p tracker hget

/-- A release keeps it. -/
theorem free (h : HandlesInv calls heap) (p : ℕ) : HandlesInv calls (heap.free p) where
  new_book := h.new_book
  new_tracker := h.new_tracker
  book q book hget := h.book q book (Heap.get?_of_free hget).2
  tracker q tracker hget := h.tracker q tracker (Heap.get?_of_free hget).2

/-- The array of a reply keeps it. -/
theorem payload (h : HandlesInv calls heap) (reply : BookReply) :
    HandlesInv calls (reply.payload.elim heap heap.alloc) := by
  cases hpayload : reply.payload with
  | none => exact h
  | some o =>
    obtain ⟨hbook, htracker⟩ := reply.payload_ne hpayload
    exact h.alloc (fun book ho => absurd ho (hbook book)) fun t ho => absurd ho (htracker t)

/-- A call that is no request to a book or a tracker has no part in what the calls make. -/
theorem concat (h : HandlesInv calls heap) (hbook : ∀ q request, call.request ≠ .book q request)
    (htracker : ∀ q request, call.request ≠ .tracker q request) :
    HandlesInv (calls ++ [call]) heap where
  new_book p hp := by rw [bookOf_concat_eq hbook, h.new_book p hp]
  new_tracker p hp := by rw [trackerOf_concat_eq htracker, h.new_tracker p hp]
  book p book hget := by rw [bookOf_concat_eq hbook, h.book p book hget]
  tracker p tracker hget := by rw [trackerOf_concat_eq htracker, h.tracker p tracker hget]

/-- A request to a book keeps it. -/
theorem write_book (h : HandlesInv calls heap) {p : ℕ} {request : BookRequest} {book : OrderBook}
    (hrequest : call.request = .book p request) (hget : heap.get? p = some (.book book)) :
    HandlesInv (calls ++ [call]) (heap.write p (.book (request.next book))) := by
  have htracker : ∀ q request, call.request ≠ .tracker q request := by simp [hrequest]
  have hlt := Heap.lt_next_of_get? hget
  constructor
  · intro q hq
    rw [Heap.next_write] at hq
    rw [bookOf_concat_book hrequest, if_neg (hlt.trans_le hq).ne', h.new_book q hq]
  · intro q hq
    rw [Heap.next_write] at hq
    rw [trackerOf_concat_eq htracker, h.new_tracker q hq]
  · intro q book' hget'
    rw [bookOf_concat_book hrequest]
    rcases Heap.get?_write_cases hget hget' with ⟨rfl, hbook⟩ | ⟨hq, hget'⟩
    · rw [if_pos rfl, h.book q book hget]
      exact (Object.book.inj hbook).symm
    · rw [if_neg hq, h.book q book' hget']
  · intro q tracker hget'
    rw [trackerOf_concat_eq htracker]
    rcases Heap.get?_write_cases hget hget' with ⟨-, heq⟩ | ⟨-, hget'⟩
    · cases heq
    · exact h.tracker q tracker hget'

/-- A request to a tracker keeps it. -/
theorem write_tracker (h : HandlesInv calls heap) {p : ℕ} {request : TrackerRequest}
    {tracker next : PositionTracker} (hrequest : call.request = .tracker p request)
    (hget : heap.get? p = some (.tracker tracker)) (hnext : request.next tracker = some next) :
    HandlesInv (calls ++ [call]) (heap.write p (.tracker next)) := by
  have hbook : ∀ q request, call.request ≠ .book q request := by simp [hrequest]
  have hlt := Heap.lt_next_of_get? hget
  constructor
  · intro q hq
    rw [Heap.next_write] at hq
    rw [bookOf_concat_eq hbook, h.new_book q hq]
  · intro q hq
    rw [Heap.next_write] at hq
    rw [trackerOf_concat_tracker hrequest, if_neg (hlt.trans_le hq).ne', h.new_tracker q hq]
  · intro q book hget'
    rw [bookOf_concat_eq hbook]
    rcases Heap.get?_write_cases hget hget' with ⟨-, heq⟩ | ⟨-, hget'⟩
    · cases heq
    · exact h.book q book hget'
  · intro q tracker' hget'
    rw [trackerOf_concat_tracker hrequest]
    rcases Heap.get?_write_cases hget hget' with ⟨rfl, heq⟩ | ⟨hq, hget'⟩
    · rw [if_pos rfl, h.tracker q tracker hget, Option.bind_some, hnext, Object.tracker.inj heq]
    · rw [if_neg hq, h.tracker q tracker' hget']

theorem step {answer : FfiAnswer} (h : HandlesInv calls heap)
    (hcall : runCall call heap = .ok (answer, heap')) : HandlesInv (calls ++ [call]) heap' := by
  rw [runCall_eq] at hcall
  have hresult := request_result heap call.request
  rw [hcall] at hresult
  generalize hrequest : call.request = request at hresult
  cases hresult with
  | refused => exact h.concat (by simp [hrequest]) (by simp [hrequest])
  | newBook =>
    exact (h.concat (by simp [hrequest]) (by simp [hrequest])).alloc (by simp) (by simp)
  | newTracker =>
    exact (h.concat (by simp [hrequest]) (by simp [hrequest])).alloc (by simp) (by simp)
  | release hget his => exact (h.concat (by simp [hrequest]) (by simp [hrequest])).free _
  | book hget hwrite =>
    rw [← hwrite]
    exact (h.write_book hrequest hget).payload _
  | tracker hget hnext => exact h.write_tracker hrequest hget hnext

end HandlesInv

theorem handlesInv_run {calls : List FfiCall} {answers : List FfiAnswer} {heap : Heap Object}
    (h : calls.mapM runCall .empty = .ok (answers, heap)) : HandlesInv calls heap :=
  Run.mapM_invariant (fun calls _ heap => HandlesInv calls heap) .nil
    (fun _ _ _ _ _ _ hinv hcall => hinv.step hcall) h

/-- The last call of a session is answered by its object as the calls before have left it. -/
theorem answered_run {done : List FfiCall} {call : FfiCall} {answers : List FfiAnswer}
    {answer : FfiAnswer} {heap : Heap Object}
    (h : (done ++ [call]).mapM runCall .empty = .ok (answers, heap))
    (hlast : answers.getLast? = some answer) :
    (∀ p request, call.request = .book p request →
      (request.reply (bookOf p done)).Conveyed heap answer) ∧
    ∀ p request, call.request = .tracker p request →
      ∃ tracker, trackerOf p done = some tracker ∧ answer = request.answer tracker := by
  obtain ⟨front, heap₁, back, hfront, hback, rfl⟩ := Run.mapM_append_eq_ok_iff.mp h
  obtain ⟨answer', hcall, rfl⟩ := Run.mapM_singleton_eq_ok_iff.mp hback
  rw [List.getLast?_concat] at hlast
  obtain rfl := Option.some.inj hlast
  have hbefore := handlesInv_run hfront
  rw [runCall_eq] at hcall
  have hresult := request_result heap₁ call.request
  rw [hcall] at hresult
  constructor
  · intro p request hrequest
    rw [hrequest] at hresult
    cases hresult with
    | book hget hwrite =>
      rw [hbefore.book p _ hget]
      exact BookReply.conveyed _ (by rw [← hwrite, Heap.next_write])
  · intro p request hrequest
    rw [hrequest] at hresult
    cases hresult with
    | tracker hget hnext => exact ⟨_, hbefore.tracker p _ hget, rfl⟩

/-- **Every handle is an object of its own.** In every session that does not fault, the book behind
a handle is what the calls for that handle, in their order, make of a new book, and the tracker
behind one what they make of a new tracker, whatever is called for other handles in between. The
last call, where it is a request to a book, is answered with the reply of that book as its earlier
calls left it, an array holding every record of the reply; and where it is a request to a tracker,
with the answer of that tracker. -/
theorem session_handles (calls : List FfiCall) {answers : List FfiAnswer} {heap : Heap Object}
    (h : calls.mapM runCall .empty = .ok (answers, heap)) :
    (∀ p book, heap.get? p = some (.book book) → bookOf p calls = book) ∧
      (∀ p tracker, heap.get? p = some (.tracker tracker) → trackerOf p calls = some tracker) ∧
      ∀ done call answer, calls = done ++ [call] → answers.getLast? = some answer →
        (∀ p request, call.request = .book p request →
          (request.reply (bookOf p done)).Conveyed heap answer) ∧
        ∀ p request, call.request = .tracker p request →
          ∃ tracker, trackerOf p done = some tracker ∧ answer = request.answer tracker := by
  refine ⟨(handlesInv_run h).book, (handlesInv_run h).tracker, ?_⟩
  rintro done call answer rfl hlast
  exact answered_run h hlast

/-- An ask in each of two books, and a bid for the first. -/
def twoBooks : List FfiCall :=
  [.bookNew, .bookNew,
    .bookInsert (some 0) (some (orderToFfi (.limit 1 .ask 100 5 0))) true,
    .bookInsert (some 1) (some (orderToFfi (.limit 1 .ask 90 5 0))) true,
    .bookInsert (some 0) (some (orderToFfi (.limit 2 .bid 100 3 1))) true]

/-- The bid takes from the ask of its own book. -/
theorem session_handles_two_books : ∃ answers heap,
    twoBooks.mapM runCall .empty = .ok (answers, heap) ∧
      ∀ p book, heap.get? p = some (.book book) → bookOf p twoBooks = book :=
  ⟨_, _, rfl, (session_handles twoBooks rfl).1⟩

end AliceLedger
