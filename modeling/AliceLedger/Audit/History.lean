import AliceLedger.Audit.Payload
import AliceLedger.Audit.Tamper

/-!
# What a head commits to

`append` reads of its call only the payload, the kind and the time (`AppendCall.entry`): not the key
and not the signature. So a log is made by a history of such entries, and its head commits to the
history: two logs have one head exactly when the same orders had the same outcomes at the same times
in the same order (`head_eq_iff`).

A head that was published earlier still tells whether a later log goes on from it. Between logs that
verify, one extends the other exactly when it ends in the other's head or has an event that names it
(`extends_iff`), which is found in one pass over the events.
-/

namespace AliceLedger.Audit

/-- The hash is injective on the encodings of these orders. -/
def AliceSign.TellsApart (sign : AliceSign) (payloads : List OrderPayload) : Prop :=
  ∀ p ∈ payloads, ∀ q ∈ payloads, p.digest sign = q.digest sign →
    p.canonicalBytes = q.canonicalBytes

namespace OrderAuditLog

variable {PublicKey Signature : Type} {sign : AliceSign}

/-! ## Histories -/

/-- An order, what became of it, and when. -/
structure Entry where
  payload : OrderPayload
  kind : AuditEventKind
  timestampUnix : UInt64
  deriving DecidableEq

/-- What a call puts on record. -/
def AppendCall.entry (call : AppendCall PublicKey Signature) : Entry :=
  ⟨call.order.payload, call.kind, call.timestampUnix⟩

/-- The log after an entry. -/
def record (sign : AliceSign) (log : OrderAuditLog) (entry : Entry) : OrderAuditLog :=
  log.append sign (SignedOrder.mk entry.payload () ()) entry.kind entry.timestampUnix

/-- The part of an event that its entry gives. -/
def recorded (e : AuditEvent) : Hash × AuditEventKind × UInt64 :=
  (e.orderDigest, e.kind, e.timestampUnix)

/-- The key and the signature of an order are not read. -/
theorem step_eq_record (log : OrderAuditLog) (call : AppendCall PublicKey Signature) :
    log.step sign call = log.record sign call.entry := rfl

/-- A log is made by its history. -/
theorem foldl_step_eq (calls : List (AppendCall PublicKey Signature)) (log : OrderAuditLog) :
    calls.foldl (step sign) log = (calls.map AppendCall.entry).foldl (record sign) log := by
  induction calls generalizing log with
  | nil => rfl
  | cons call calls ih =>
    rw [List.foldl_cons, step_eq_record]
    exact ih _

/-- The events of a log record its history. -/
theorem recorded_foldl (history : List Entry) (log : OrderAuditLog) :
    (history.foldl (record sign) log).events.map recorded =
      log.events.map recorded ++
        history.map fun e => (e.payload.digest sign, e.kind, e.timestampUnix) := by
  induction history generalizing log with
  | nil => simp
  | cons entry history ih =>
    rw [List.foldl_cons, ih]
    simp [record, append, recorded]

/-- Digests that are told apart tell the entries apart. -/
theorem entry_eq_of_recorded {a b : Entry} (ha : a.payload.LengthsFit) (hb : b.payload.LengthsFit)
    (hbytes : a.payload.digest sign = b.payload.digest sign →
      a.payload.canonicalBytes = b.payload.canonicalBytes)
    (h : (a.payload.digest sign, a.kind, a.timestampUnix) =
      (b.payload.digest sign, b.kind, b.timestampUnix)) : a = b := by
  obtain ⟨payload, kind, timestampUnix⟩ := a
  obtain ⟨payload', kind', timestampUnix'⟩ := b
  simp only [Prod.mk.injEq] at h
  obtain ⟨hdigest, rfl, rfl⟩ := h
  have hread := OrderPayload.decode_canonicalBytes ha
  rw [hbytes hdigest, OrderPayload.decode_canonicalBytes hb] at hread
  cases Option.some.inj hread
  rfl

/-- What is recorded of histories that the digests tell apart determines them. -/
theorem history_eq_of_recorded {history history' : List Entry}
    (hfit : ∀ e ∈ history ++ history', e.payload.LengthsFit)
    (hapart : sign.TellsApart ((history ++ history').map Entry.payload))
    (h : history.map (fun e => (e.payload.digest sign, e.kind, e.timestampUnix)) =
      history'.map fun e => (e.payload.digest sign, e.kind, e.timestampUnix)) :
    history = history' := by
  have hentry : ∀ a ∈ history, ∀ b ∈ history',
      (a.payload.digest sign, a.kind, a.timestampUnix) =
        (b.payload.digest sign, b.kind, b.timestampUnix) → a = b := by
    intro a ha b hb
    have ha' : a ∈ history ++ history' := List.mem_append_left _ ha
    have hb' : b ∈ history ++ history' := List.mem_append_right _ hb
    exact entry_eq_of_recorded (hfit a ha') (hfit b hb')
      (hapart _ (List.mem_map_of_mem ha') _ (List.mem_map_of_mem hb'))
  clear hfit hapart
  induction history generalizing history' with
  | nil => exact (List.map_eq_nil_iff.mp h.symm).symm
  | cons a history ih =>
    cases history' with
    | nil => exact absurd h nofun
    | cons b history' =>
      obtain ⟨hhead, htail⟩ := List.cons_eq_cons.mp h
      rw [hentry a List.mem_cons_self b List.mem_cons_self hhead]
      refine congrArg _ (ih htail fun a ha b hb => ?_)
      exact hentry a (List.mem_cons_of_mem _ ha) b (List.mem_cons_of_mem _ hb)

/-! ## The head of a history -/

/-- **What a head commits to.** Take any two runs of appends to the empty log, and let the hash
neither collide on their orders and events nor give zero. The logs have the same head exactly when
the same orders, in every field, had the same outcomes at the same times in the same order, whatever
keys and signatures the orders carried. -/
theorem head_eq_iff {calls calls' : List (AppendCall PublicKey Signature)}
    (hzero : sign.zero = Hash.zeros)
    (hfit : ∀ e ∈ (calls ++ calls').map AppendCall.entry, e.payload.LengthsFit)
    (hapart : sign.TellsApart ((calls ++ calls').map fun call => call.entry.payload))
    (hinj : sign.CollisionFree
      ((calls.foldl (step sign) new).events ++ (calls'.foldl (step sign) new).events))
    (hnonzero : sign.NeverZero
      ((calls.foldl (step sign) new).events ++ (calls'.foldl (step sign) new).events)) :
    (calls.foldl (step sign) new).head = (calls'.foldl (step sign) new).head ↔
      calls.map AppendCall.entry = calls'.map AppendCall.entry := by
  constructor
  · intro hhead
    have hevents := events_eq_of_head_eq hinj hnonzero (appended_run hzero calls).1
      (appended_run hzero calls').1 hhead
    rw [foldl_step_eq, foldl_step_eq] at hevents
    have hrecorded := congrArg (List.map recorded) hevents
    rw [recorded_foldl, recorded_foldl] at hrecorded
    refine history_eq_of_recorded ?_ ?_ (List.append_cancel_left hrecorded)
    · rw [← List.map_append]
      exact hfit
    · rw [← List.map_append, List.map_map]
      exact hapart
  · intro hhistory
    rw [foldl_step_eq, foldl_step_eq, hhistory]

/-- The calls of the sample log, with a key. -/
def sampleCalls (key : Bool) : List (AppendCall Bool Unit) :=
  [⟨⟨sampleOrder.payload, key, ()⟩, .orderAccepted, 1720000010⟩,
    ⟨⟨sampleOrder.payload, key, ()⟩, .orderFullyFilled, 1720000020⟩]

/-- The orders of the sample log with another key have the same head, and the first of them alone
has another. -/
theorem head_eq_iff_key :
    ((sampleCalls false).foldl (step sampleSign) new).head =
        ((sampleCalls true).foldl (step sampleSign) new).head ∧
      ((sampleCalls false).foldl (step sampleSign) new).head ≠
        (((sampleCalls true).take 1).foldl (step sampleSign) new).head := by
  have hfit : ∀ calls' ∈ [sampleCalls true, (sampleCalls true).take 1],
      ∀ e ∈ (sampleCalls false ++ calls').map AppendCall.entry, e.payload.LengthsFit := by
    intro calls' hcalls' e he
    have hpayload : e.payload = sampleOrder.payload := by
      revert calls' e
      decide
    rw [hpayload]
    exact ⟨by decide, by decide, by decide⟩
  constructor
  · refine (head_eq_iff rfl (hfit _ List.mem_cons_self) ?_ ?_ ?_).mpr (by decide)
    · unfold AliceSign.TellsApart
      decide +kernel
    · unfold AliceSign.CollisionFree
      decide +kernel
    · unfold AliceSign.NeverZero
      decide +kernel
  · intro hhead
    have hentries : (sampleCalls false).map AppendCall.entry =
        ((sampleCalls true).take 1).map AppendCall.entry := by
      refine (head_eq_iff rfl (hfit _ (by simp)) ?_ ?_ ?_).mp hhead
      · unfold AliceSign.TellsApart
        decide +kernel
      · unfold AliceSign.CollisionFree
        decide +kernel
      · unfold AliceSign.NeverZero
        decide +kernel
    exact absurd (congrArg List.length hentries) (by decide)

/-! ## Anchored heads -/

/-- **A later log against an earlier head.** Let two logs verify, and let the hash neither collide
on their events nor give zero. The second has the events of the first at its front, unchanged,
exactly when it ends in the head of the first or one of its events names that head. -/
theorem extends_iff {a b : OrderAuditLog} (hinj : sign.CollisionFree (a.events ++ b.events))
    (hnonzero : sign.NeverZero (a.events ++ b.events)) (ha : a.verify sign = true)
    (hb : b.verify sign = true) :
    a.events <+: b.events ↔ a.head = b.head ∨ ∃ e ∈ b.events, e.prevHash = a.head := by
  refine HashChain.prefix_iff_of_follow (fun e he f hf heq => ?_) (fun e he => ?_)
    (fun f hf => ?_) (verify_iff.mp ha) (verify_iff.mp hb)
  · exact AuditEvent.canonicalBytes_inj
      (hinj e (List.mem_append_left _ he) f (List.mem_append_right _ hf) heq)
  · exact hnonzero e (List.mem_append_left _ he)
  · exact hnonzero f (List.mem_append_right _ hf)

/-- The sample log goes on from its head after the first event. -/
theorem extends_iff_accepted :
    let first := new.append sampleSign sampleOrder .orderAccepted 1720000010
    first.events <+: sampleLog.events ↔
      first.head = sampleLog.head ∨ ∃ e ∈ sampleLog.events, e.prevHash = first.head := by
  refine extends_iff ?_ ?_ (appended_run rfl [⟨sampleOrder, .orderAccepted, 1720000010⟩]).1
    (appended_run rfl _).1
  · unfold AliceSign.CollisionFree
    decide +kernel
  · unfold AliceSign.NeverZero
    decide +kernel

end OrderAuditLog

end AliceLedger.Audit
