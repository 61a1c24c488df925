import AliceLedger.Ffi.Handles

/-!
# Memory safety of the foreign interface

What a client holds is decided by the answers it has had: a handle for each object created, an
array with its count for each array returned, less what it has released (`clientView`). A call is
`Careful` when the client holds what the call follows a pointer to, or an array that fits the one
that the call frees. In sessions with fewer than 2^31 insertions, so that no array outgrows
the `c_int` of its count, a careful client never has undefined behaviour, and what it holds is
exactly what is allocated, so that nothing leaks (`careless_of_undefined`).
-/

namespace AliceLedger

/-! ## The view of the client -/

/-- What a call hands out, as its answer tells. -/
def FfiCall.received : FfiCall → FfiAnswer → Option (ℕ × Owned)
  | .bookNew, .handle (some p) => some (p, .book)
  | .trackerNew, .handle (some p) => some (p, .tracker)
  | .bookInsert _ _ _, .array ⟨some p, some count⟩ => some (p, .fills count)
  | .bookInsertWithTime _ _ _ _, .array ⟨some p, some count⟩ => some (p, .fills count)
  | .bookDepth _ _ _ _, .array ⟨some p, some count⟩ => some (p, .depth count)
  | .bookPurgeExpired _ _ _, .array ⟨some p, some count⟩ => some (p, .orders count)
  | _, _ => none

/-- What a call takes back. -/
def FfiRequest.released : FfiRequest → Option ℕ
  | .release p _ => some p
  | _ => none

/-- What the client holds after a call, from what it held before. -/
def updateView (view : SortedMap ℕ Owned) (call : FfiCall) (answer : FfiAnswer) :
    SortedMap ℕ Owned :=
  let view := call.request.released.elim view view.erase
  (call.received answer).elim view fun handed => view.insert handed.1 handed.2

/-- What the client holds after its calls. -/
def clientView (calls : List FfiCall) (answers : List FfiAnswer) : SortedMap ℕ Owned :=
  (calls.zip answers).foldl (fun view r => updateView view r.1 r.2) .empty

/-- What is held can be taken for something: an array for any array whose layout it fits. -/
def Owned.fits (held taken : Owned) : Bool :=
  match held, taken with
  | .book, .book | .tracker, .tracker => true
  | held, taken => held.layout?.any fun layout => taken.layout?.any layout.fits

example : (Owned.depth 5).fits (.fills 2) = true ∧ (Owned.orders 5).fits (.fills 9) = false := by
  decide

/-- The client holds what the call follows a pointer to, or what it can be taken for. -/
def Careful (view : SortedMap ℕ Owned) (call : FfiCall) : Prop :=
  ∀ target ∈ call.request.target, (view.get? target.1).any (Owned.fits · target.2) = true

instance (view : SortedMap ℕ Owned) (call : FfiCall) : Decidable (Careful view call) :=
  @Option.decidableForallMem _ _ (fun _ => inferInstance) _

/-- Insertions into a book. -/
def FfiCall.inserts : FfiCall → Bool
  | .bookInsert _ _ _ | .bookInsertWithTime _ _ _ _ => true
  | _ => false

/-- What an object is to its holder. -/
def Object.owned : Object → Owned
  | .book _ => .book
  | .tracker _ => .tracker
  | .fills fs => .fills (Int32.ofNat fs.length)
  | .depth ds => .depth (Int32.ofNat ds.length)
  | .orders os => .orders (Int32.ofNat os.length)

/-- The number of elements of an array. -/
def Object.size : Object → ℕ
  | .book _ | .tracker _ => 0
  | .fills fs => fs.length
  | .depth ds => ds.length
  | .orders os => os.length

/-- The count of an array that fits its count is its length. -/
theorem toNat_count {n : ℕ} (hn : n < 2 ^ 31) : (Int32.ofNat n).toInt.toNat = n := by
  rw [Int32.toInt_ofNat_of_lt hn, Int.toNat_natCast]

/-- The holder of an array that fits its count knows its layout. -/
theorem Object.layout?_owned {o : Object} (hsize : o.size < 2 ^ 31) :
    o.owned.layout? = o.layout? := by
  cases o with
  | book | tracker => rfl
  | fills xs | depth xs | orders xs =>
    have hcount : (Int32.ofNat xs.length).toInt.toNat = xs.length := toNat_count hsize
    simp only [Object.owned, Owned.layout?, Object.layout?, hcount]

/-- **An object is what its holder can take it for.** -/
theorem Object.is_eq_fits {o : Object} (hsize : o.size < 2 ^ 31) (owned : Owned) :
    owned.is o = o.owned.fits owned := by
  have hlayout := Object.layout?_owned hsize
  cases o with
  | book | tracker => cases owned <;> rfl
  | fills | depth | orders =>
    have hfits := congrArg (Option.any fun held => owned.layout?.any held.fits) hlayout
    cases owned <;> exact hfits.symm

/-! ## How large arrays get -/

namespace OrderBook

variable {book : OrderBook}

/-- Matching leaves no more orders than there were. -/
theorem SweptBook.length_resting_le {order : Order} {q rest : List Order} {m : Matched}
    (h : SweptBook book order q rest m) : m.book.resting.length ≤ book.resting.length := by
  obtain ⟨hbefore, hafter⟩ := h.resting_perm
  have hsweep := (sweep_forall₂ order q).length_eq
  rw [List.length_append] at hsweep
  have hsplit : (q ++ (rest ++ book.queue order.side)).length =
      q.length + (rest ++ book.queue order.side).length := List.length_append
  rw [hbefore.length_eq, hafter.length_eq, List.length_append]
  omega

/-- An insertion leaves at most one order more. -/
theorem Sound.length_resting_insertWithTime (h : book.Sound) (order : Order) (nowNs : UInt64) :
    (book.insertWithTime order nowNs).1.resting.length ≤ book.resting.length + 1 := by
  obtain ⟨q, rest, hm⟩ := h.matchOrder_swept order
  have hmatch := hm.length_resting_le
  unfold OrderBook.insertWithTime
  split_ifs with hexp
  · exact Nat.le_succ _
  · dsimp only
    split_ifs with hrests
    · rw [((h.matchOrder order).restOrder_perm _).length_eq, List.length_cons]
      exact Nat.succ_le_succ hmatch
    · exact hmatch.trans (Nat.le_succ _)

/-- A withdrawal leaves no order more. -/
theorem Sound.length_resting_withdraw (h : book.Sound) {op : BookOp} (hop : op.Withdraws) :
    (book.step op).resting.length ≤ book.resting.length := by
  rw [(h.step_perm hop).length_eq, List.length_append]
  exact Nat.le_add_left _ _

/-- No more fills than orders rest. -/
theorem Sound.length_fills_le (h : book.Sound) (order : Order) (nowNs : UInt64) :
    (book.insertWithTime order nowNs).2.length ≤ book.resting.length := by
  have hqueue : (book.crossing order).length ≤ book.resting.length := by
    rw [(resting_perm book order.side).length_eq, List.length_append]
    exact (List.length_filter_le _ _).trans (Nat.le_add_right _ _)
  refine le_trans (not_lt.mp fun hlt => ?_) hqueue
  obtain ⟨maker, hmaker, -⟩ := h.fills_get _ _ (List.getElem?_eq_getElem hlt)
  rw [List.getElem?_eq_none le_rfl] at hmaker
  cases hmaker

/-- No more orders are purged than rest. -/
theorem Sound.length_purged_le (h : book.Sound) (nowNs : UInt64) :
    (book.purgeExpired nowNs).2.length ≤ book.resting.length := by
  have hperm : book.resting.Perm ((book.purgeExpired nowNs).2 ++ _) :=
    h.cancelIds_perm (expiredIds nowNs book.bids ++ expiredIds nowNs book.asks)
  rw [hperm.length_eq, List.length_append]
  exact Nat.le_add_right _ _

theorem length_depth_le (book : OrderBook) (side : Side) (levels : ℕ) :
    (book.depth side levels).length ≤ levels := by
  cases side <;> simp only [depth, List.length_map, List.length_take] <;> exact min_le_left _ _

end OrderBook

section Size

variable {call : FfiCall} {calls : List FfiCall} {p : ℕ} {request : BookRequest}

/-- The calls that are requests to a book. -/
inductive BookCall : FfiCall → ℕ → BookRequest → Prop
  | insert (p : ℕ) (order : FfiOrder) :
      BookCall (.bookInsert (some p) (some order) true) p (.insert (ffiToOrder order))
  | insertWithTime (p : ℕ) (order : FfiOrder) (nowNs : UInt64) :
      BookCall (.bookInsertWithTime (some p) (some order) nowNs true) p
        (.insertWithTime (ffiToOrder order) nowNs)
  | cancel (p : ℕ) (id : UInt64) (out : Bool) :
      BookCall (.bookCancel (some p) id out) p (.cancel ⟨id⟩ out)
  | bestBid (p : ℕ) : BookCall (.bookBestBid (some p)) p .bestBid
  | bestAsk (p : ℕ) : BookCall (.bookBestAsk (some p)) p .bestAsk
  | spread (p : ℕ) : BookCall (.bookSpread (some p)) p .spread
  | depth (p : ℕ) (side : UInt8) (levels : Int32) :
      BookCall (.bookDepth (some p) side levels true) p
        (.depth (ffiToSide side) levels.toInt.toNat)
  | purgeExpired (p : ℕ) (nowNs : UInt64) :
      BookCall (.bookPurgeExpired (some p) nowNs true) p (.purgeExpired nowNs)
  | orderCount (p : ℕ) : BookCall (.bookOrderCount (some p)) p .orderCount

/-- The calls by what they ask for. -/
inductive CallCases : FfiCall → FfiRequest → Prop
  | refused {call : FfiCall} {answer : FfiAnswer} (h : call.received answer = none) :
      CallCases call (.refused answer)
  | bookNew : CallCases .bookNew .newBook
  | trackerNew : CallCases .trackerNew .newTracker
  | release {call : FfiCall} (p : ℕ) (owned : Owned) : CallCases call (.release p owned)
  | book {call : FfiCall} {p : ℕ} {request : BookRequest} (h : BookCall call p request) :
      CallCases call (.book p request)
  | tracker {call : FfiCall} (p : ℕ) (request : TrackerRequest) :
      CallCases call (.tracker p request)

theorem callCases_releaseArray (h : ∀ answer, call.received answer = none)
    (owned : Int32 → Owned) (ptr : Ptr) (count : Int32) :
    CallCases call (releaseArray owned ptr count) := by
  unfold releaseArray
  split
  · exact .refused (h _)
  · split_ifs
    · exact .release _ _
    · exact .refused (h _)

theorem call_cases (call : FfiCall) : CallCases call call.request := by
  unfold FfiCall.request
  split
  case h_1 | h_2 | h_3 => exact callCases_releaseArray (fun _ => rfl) _ _ _
  case h_19 =>
    split_ifs
    · exact .refused rfl
    · exact .book (.depth ..)
  all_goals first
    | exact .bookNew
    | exact .trackerNew
    | exact .release _ _
    | exact .tracker _ _
    | exact .refused rfl
    | exact .book (by constructor)

theorem bookCall_of_request (h : call.request = .book p request) : BookCall call p request := by
  have hcall := call_cases call
  rw [h] at hcall
  cases hcall with
  | book hcall => exact hcall

theorem inserts_of_bookOp {op : BookOp} (h : call.bookOp p = some op) (hop : ¬ op.Withdraws) :
    call.inserts = true := by
  unfold FfiCall.bookOp at h
  split at h
  case h_1 q request hrequest =>
    have hcall := bookCall_of_request hrequest
    split_ifs at h
    cases hcall
    case insert | insertWithTime => rfl
    case cancel | purgeExpired =>
      cases h
      exact absurd trivial hop
    all_goals cases h
  case h_2 => cases h

/-- **No book outgrows the insertions of its session.** -/
theorem length_resting_bookOf (p : ℕ) (calls : List FfiCall) :
    (bookOf p calls).resting.length ≤ (calls.filter FfiCall.inserts).length := by
  induction calls using List.reverseRecOn with
  | nil => exact le_rfl
  | append_singleton calls call ih =>
    have hsound : (bookOf p calls).Sound := OrderBook.sound_run _
    rw [bookOf_concat, List.filter_append, List.length_append]
    cases hop : call.bookOp p with
    | none => exact ih.trans (Nat.le_add_right _ _)
    | some op =>
      by_cases hwithdraws : op.Withdraws
      · exact ((hsound.length_resting_withdraw hwithdraws).trans ih).trans (Nat.le_add_right _ _)
      · have hlast : ([call].filter FfiCall.inserts).length = 1 := by
          rw [List.filter_singleton, inserts_of_bookOp hop hwithdraws]
          rfl
        rw [hlast]
        refine le_trans ?_ (Nat.succ_le_succ ih)
        cases op with
        | insert order => exact hsound.length_resting_insertWithTime order 0
        | insertWithTime order nowNs => exact hsound.length_resting_insertWithTime order nowNs
        | _ => exact absurd trivial hwithdraws

/-- The number of records in a reply. -/
def BookReply.size : BookReply → ℕ
  | .fills fs => fs.length
  | .depth ds => ds.length
  | .expired os => os.length
  | _ => 0

theorem size_payload {reply : BookReply} {o : Object} (h : reply.payload = some o) :
    o.size = reply.size := by
  cases reply with
  | fills xs | depth xs | expired xs =>
    simp only [BookReply.payload] at h
    split_ifs at h
    cases h
    exact List.length_map _
  | cancelled | price | count => cases h

/-- The records of a reply fit their count. -/
theorem size_reply_lt (hrequest : call.request = .book p request) {book : OrderBook}
    (hsound : book.Sound) (hsmall : book.resting.length < 2 ^ 31) :
    (request.reply book).size < 2 ^ 31 := by
  cases bookCall_of_request hrequest with
  | insert => exact (hsound.length_fills_le _ 0).trans_lt hsmall
  | insertWithTime => exact (hsound.length_fills_le _ _).trans_lt hsmall
  | depth _ side levels =>
    refine (book.length_depth_le _ _).trans_lt ?_
    have hlt := levels.toInt_lt
    omega
  | purgeExpired => exact (hsound.length_purged_le _).trans_lt hsmall
  | cancel | bestBid | bestAsk | spread | orderCount => exact Nat.two_pow_pos 31

/-- What a call hands out is the array of its reply. -/
theorem received_of_book (hrequest : call.request = .book p request) (book : OrderBook)
    (address : ℕ) : call.received ((request.reply book).answer address) =
      (request.reply book).payload.map fun o => (address, o.owned) := by
  cases bookCall_of_request hrequest with
  | cancel | bestBid | bestAsk | spread | orderCount => rfl
  | insert | insertWithTime =>
    simp only [BookRequest.reply]
    generalize Prod.snd _ = fs
    cases fs <;> simp [BookReply.answer, BookReply.arrayAt, BookReply.payload, FfiCall.received,
      Object.owned]
  | depth =>
    simp only [BookRequest.reply]
    generalize book.depth _ _ = ds
    cases ds <;> simp [BookReply.answer, BookReply.arrayAt, BookReply.payload, FfiCall.received,
      Object.owned]
  | purgeExpired =>
    simp only [BookRequest.reply]
    generalize Prod.snd _ = os
    cases os <;> simp [BookReply.answer, BookReply.arrayAt, BookReply.payload, FfiCall.received,
      Object.owned]

theorem received_nothing (call : FfiCall) : call.received .nothing = none := by
  cases call <;> rfl

theorem received_position (call : FfiCall) (found : Int32) (out : Option FfiPosition) :
    call.received (.position found out) = none := by
  cases call <;> rfl

end Size

/-! ## Every session -/

/-- **What every call keeps**: the client's view is what is allocated, and every array fits its
count. -/
structure MemoryInv (view : SortedMap ℕ Owned) (heap : Heap Object) : Prop where
  view_eq : ∀ p, view.get? p = (heap.get? p).map Object.owned
  size_lt : ∀ p o, heap.get? p = some o → o.size < 2 ^ 31

namespace MemoryInv

variable {view : SortedMap ℕ Owned} {heap heap' : Heap Object}

/-- A new object goes to the client. -/
theorem alloc (h : MemoryInv view heap) {o : Object} (ho : o.size < 2 ^ 31) :
    MemoryInv (view.insert heap.next o.owned) (heap.alloc o) where
  view_eq p := by
    by_cases hp : p = heap.next
    · rw [hp, SortedMap.get?_insert_self, Heap.get?_alloc_next]
      rfl
    · rw [SortedMap.get?_insert_of_ne _ _ hp, Heap.get?_alloc_of_ne hp, h.view_eq]
  size_lt p o' hget := by
    rcases Heap.get?_alloc_cases hget with ⟨-, rfl⟩ | hget
    · exact ho
    · exact h.size_lt p o' hget

/-- A released object leaves the client. -/
theorem free (h : MemoryInv view heap) (p : ℕ) : MemoryInv (view.erase p) (heap.free p) where
  view_eq q := by
    by_cases hq : q = p
    · rw [hq, SortedMap.get?_erase_self, Heap.get?_free_self]
      rfl
    · rw [SortedMap.get?_erase_of_ne _ hq, Heap.get?_free_of_ne hq, h.view_eq]
  size_lt q o hget := h.size_lt q o (Heap.get?_of_free hget).2

/-- An object that stays what it is stays with the client. -/
theorem write (h : MemoryInv view heap) {p : ℕ} {o o' : Object} (hget : heap.get? p = some o)
    (howned : o'.owned = o.owned) (ho : o'.size < 2 ^ 31) : MemoryInv view (heap.write p o') where
  view_eq q := by
    by_cases hq : q = p
    · rw [hq, Heap.get?_write_self hget, h.view_eq, hget, Option.map_some, Option.map_some, howned]
    · rw [Heap.get?_write_of_ne hq, h.view_eq]
  size_lt q o'' hget' := by
    rcases Heap.get?_write_cases hget hget' with ⟨-, rfl⟩ | ⟨-, hget'⟩
    · exact ho
    · exact h.size_lt q o'' hget'

/-- **What the client holds decides** what its pointers are good for. -/
theorem is_of_fits (h : MemoryInv view heap) {p : ℕ} {owned : Owned}
    (hfits : (view.get? p).any (Owned.fits · owned) = true) :
    ∃ o, heap.get? p = some o ∧ owned.is o = true := by
  rw [h.view_eq, Option.any_map] at hfits
  obtain ⟨o, hget, his⟩ := (Option.any_eq_true _ _).mp hfits
  exact ⟨o, hget, (Object.is_eq_fits (h.size_lt p o hget) owned).trans his⟩

theorem step {call : FfiCall} {answer : FfiAnswer} (h : MemoryInv view heap)
    (hbooks : ∀ p book, heap.get? p = some (.book book) →
      book.Sound ∧ book.resting.length < 2 ^ 31)
    (hcall : runCall call heap = .ok (answer, heap')) :
    MemoryInv (updateView view call answer) heap' := by
  rw [runCall_eq] at hcall
  have hresult := request_result heap call.request
  rw [hcall] at hresult
  have hcases := call_cases call
  unfold updateView
  generalize hrequest : call.request = request at hresult hcases
  cases hresult with
  | refused =>
    cases hcases with
    | refused hnone =>
      rw [hnone]
      exact h
  | newBook =>
    cases hcases with
    | bookNew => exact @alloc _ _ h (.book .new) (Nat.two_pow_pos 31)
  | newTracker =>
    cases hcases with
    | trackerNew => exact @alloc _ _ h (.tracker .new) (Nat.two_pow_pos 31)
  | release hget his =>
    rw [received_nothing]
    exact h.free _
  | @book p request book heap' hget hwrite =>
    obtain ⟨hsound, hsmall⟩ := hbooks p book hget
    have hwritten : MemoryInv view heap' := hwrite ▸ h.write hget rfl (Nat.two_pow_pos 31)
    have hnext : heap'.next = heap.next := by rw [← hwrite, Heap.next_write]
    rw [received_of_book hrequest, ← hnext]
    cases hpayload : (request.reply book).payload with
    | none => exact hwritten
    | some o =>
      refine hwritten.alloc ?_
      rw [size_payload hpayload]
      exact size_reply_lt hrequest hsound hsmall
  | @tracker p request tracker next hget hnext =>
    have hnone : call.received (request.answer tracker) = none := by
      cases request with
      | call => exact received_nothing call
      | get => exact received_position call _ _
    rw [hnone]
    exact h.write hget rfl (Nat.two_pow_pos 31)

/-- **A careful call is defined.** -/
theorem not_careful_of_undefined (h : MemoryInv view heap) {call : FfiCall}
    (hcall : runCall call heap = .error .undefined) : ¬ Careful view call := by
  intro hcareful
  unfold Careful at hcareful
  rw [runCall_eq] at hcall
  have hresult := request_result heap call.request
  rw [hcall] at hresult
  generalize call.request = request at hcareful hresult
  cases hresult with
  | undefined htarget hnot =>
    obtain ⟨o, hget, his⟩ := h.is_of_fits (hcareful _ htarget)
    rw [hnot o hget] at his
    cases his

end MemoryInv

/-- The books of a session with few insertions are small. -/
theorem book_small {calls : List FfiCall} {heap : Heap Object} (h : HandlesInv calls heap)
    (hfew : (calls.filter FfiCall.inserts).length < 2 ^ 31) (p : ℕ) (book : OrderBook)
    (hget : heap.get? p = some (.book book)) : book.Sound ∧ book.resting.length < 2 ^ 31 := by
  rw [← h.book p book hget]
  exact ⟨OrderBook.sound_run _, (length_resting_bookOf p calls).trans_lt hfew⟩

theorem clientView_concat {calls : List FfiCall} {answers : List FfiAnswer}
    (h : calls.length = answers.length) (call : FfiCall) (answer : FfiAnswer) :
    clientView (calls ++ [call]) (answers ++ [answer]) =
      updateView (clientView calls answers) call answer := by
  rw [clientView, List.zip_append h, List.foldl_append]
  rfl

/-- What is known of a session with few insertions. -/
theorem memoryInv_run {calls : List FfiCall} {answers : List FfiAnswer} {heap : Heap Object}
    (hfew : (calls.filter FfiCall.inserts).length < 2 ^ 31)
    (h : calls.mapM runCall .empty = .ok (answers, heap)) :
    HandlesInv calls heap ∧ MemoryInv (clientView calls answers) heap := by
  have hinv := Run.mapM_invariant (fun calls answers heap => calls.length = answers.length ∧
    HandlesInv calls heap ∧ ((calls.filter FfiCall.inserts).length < 2 ^ 31 →
      MemoryInv (clientView calls answers) heap)) ?_ ?_ h
  · exact ⟨hinv.2.1, hinv.2.2 hfew⟩
  · exact ⟨rfl, .nil, fun _ => ⟨fun _ => rfl, fun _ _ hget => nomatch hget⟩⟩
  · rintro calls answers heap call answer heap' ⟨hlen, hhandles, hmemory⟩ hcall
    refine ⟨by simp [hlen], hhandles.step hcall, fun hfew => ?_⟩
    have hfew' : (calls.filter FfiCall.inserts).length < 2 ^ 31 := by
      rw [List.filter_append, List.length_append] at hfew
      omega
    rw [clientView_concat hlen]
    exact (hmemory hfew').step (book_small hhandles hfew') hcall

/-- **Memory safety of the foreign interface.** A session with fewer than 2^31 insertions has
undefined behaviour only if it comes to a call that follows a pointer which the client does not hold
as what the call takes it for, or as an array that fits it, where the client holds what the answers
have handed out and its calls have not taken back; and after every session that does not fault the
client holds exactly what is allocated. -/
theorem careless_of_undefined (calls : List FfiCall)
    (hfew : (calls.filter FfiCall.inserts).length < 2 ^ 31) :
    (calls.mapM runCall .empty = .error .undefined →
      ∃ done call rest answers heap, calls = done ++ call :: rest ∧
        done.mapM runCall .empty = .ok (answers, heap) ∧
          ¬ Careful (clientView done answers) call) ∧
      ∀ answers heap, calls.mapM runCall .empty = .ok (answers, heap) →
        ∀ p, (clientView calls answers).get? p = (heap.get? p).map Object.owned := by
  constructor
  · intro hundefined
    obtain ⟨done, call, rest, answers, heap, heq, hrun, hcall⟩ :=
      Run.mapM_eq_error_iff.mp hundefined
    have hfew' : (done.filter FfiCall.inserts).length < 2 ^ 31 := by
      rw [heq, List.filter_append, List.length_append] at hfew
      omega
    exact ⟨done, call, rest, answers, heap, heq, hrun,
      (memoryInv_run hfew' hrun).2.not_careful_of_undefined hcall⟩
  · exact fun answers heap hrun => (memoryInv_run hfew hrun).2.view_eq

/-- A book is freed twice. -/
theorem careless_double_free :
    ∃ done call rest answers heap,
      [FfiCall.bookNew, .bookFree (some 0), .bookFree (some 0)] = done ++ call :: rest ∧
        done.mapM runCall .empty = .ok (answers, heap) ∧
          ¬ Careful (clientView done answers) call :=
  (careless_of_undefined [.bookNew, .bookFree (some 0), .bookFree (some 0)] (by decide)).1 rfl

end AliceLedger
