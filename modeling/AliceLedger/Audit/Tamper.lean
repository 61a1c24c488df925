import AliceLedger.Audit.Model
import AliceLedger.Lib.HashChain

/-!
# Tamper evidence of the audit log

The log is a hash chain (`HashChain.follow`) whose entries are the events and whose anchor is the
zero hash. Appending keeps it verified with consecutive sequence numbers (`appended_run`). The
encoding of an event is injective (`canonicalBytes_inj`), so two logs that verify and have the same
head hold the same events, unless two of the events at hand collide under the hash or one of them
hashes to zero (`tamper_evident`). The assumption is about the events at hand because no function
into 32 bytes is injective on all encodings.
-/

namespace AliceLedger.Audit

/-! ## Encodings -/

theorem Hash.toList_inj {a b : Hash} (h : a.bytes.toList = b.bytes.toList) : a = b := by
  cases a
  cases b
  exact congrArg Hash.mk (Vector.toList_inj.mp h)

theorem AuditEventKind.tag_inj {a b : AuditEventKind} (h : a.tag = b.tag) : a = b := by
  revert h
  cases a <;> cases b <;> decide

namespace AuditEvent

/-- The fields of an encoding stand one after the other. -/
theorem canonicalBytes_eq (e : AuditEvent) : e.canonicalBytes =
    e.sequence.toLeBytes ++ ([e.kind.tag] ++ (e.orderDigest.bytes.toList ++
      (e.prevHash.bytes.toList ++ e.timestampUnix.toLeBytes))) := by
  have hzeros : (List.replicate (8 + 1 + 32 + 32 + 8) 0 : List UInt8) =
      [] ++ (List.replicate 8 0 ++ (List.replicate 1 0 ++ (List.replicate 32 0 ++
        (List.replicate 32 0 ++ (List.replicate 8 0 ++ []))))) := by decide
  simp only [canonicalBytes]
  rw [overwrite_append hzeros List.length_nil (by simp), List.nil_append]
  rw [overwrite_append rfl (by simp) (by simp)]
  rw [overwrite_append rfl (by simp) (by simp)]
  rw [overwrite_append rfl (by simp) (by simp)]
  rw [overwrite_append rfl (by simp) (by simp)]
  simp only [List.append_assoc, List.append_nil]

/-- **The encoding of an event determines it.** -/
theorem canonicalBytes_inj {a b : AuditEvent} (h : a.canonicalBytes = b.canonicalBytes) :
    a = b := by
  rw [canonicalBytes_eq, canonicalBytes_eq] at h
  obtain ⟨hsequence, h⟩ := List.append_inj h (by simp)
  obtain ⟨hkind, h⟩ := List.append_inj h (by simp)
  obtain ⟨hdigest, h⟩ := List.append_inj h (by simp)
  obtain ⟨hprev, htimestamp⟩ := List.append_inj h (by simp)
  obtain ⟨sequence, kind, digest, prev, timestamp⟩ := a
  obtain rfl := UInt64.toLeBytes_inj hsequence
  obtain rfl := AuditEventKind.tag_inj (List.singleton_inj.mp hkind)
  obtain rfl := Hash.toList_inj hdigest
  obtain rfl := Hash.toList_inj hprev
  obtain rfl := UInt64.toLeBytes_inj htimestamp
  rfl

end AuditEvent

/-! ## What the log assumes of the hash -/

/-- The hash is injective on the encodings of these events. -/
def AliceSign.CollisionFree (sign : AliceSign) (events : List AuditEvent) : Prop :=
  ∀ e ∈ events, ∀ f ∈ events, sign.hashData e.canonicalBytes = sign.hashData f.canonicalBytes →
    e.canonicalBytes = f.canonicalBytes

/-- The hash never returns the zero hash on the encodings of these events. -/
def AliceSign.NeverZero (sign : AliceSign) (events : List AuditEvent) : Prop :=
  ∀ e ∈ events, sign.hashData e.canonicalBytes ≠ sign.zero

namespace OrderAuditLog

variable {PublicKey Signature : Type} {sign : AliceSign} {log : OrderAuditLog}

/-- The loop of `verify` walks a hash chain. -/
theorem verifyLoop_eq (prev : Hash) (events : List AuditEvent) :
    verifyLoop sign prev events =
      HashChain.follow AuditEvent.prevHash (AuditEvent.head sign) prev events := by
  induction events generalizing prev with
  | nil => rfl
  | cons e events ih =>
    simp only [verifyLoop, HashChain.follow, ih]
    by_cases h : e.prevHash = prev <;> simp [h]

theorem verify_iff : log.verify sign = true ↔
    HashChain.follow AuditEvent.prevHash (AuditEvent.head sign) sign.zero log.events =
      some log.head := by
  unfold verify
  rw [verifyLoop_eq]
  cases HashChain.follow AuditEvent.prevHash (AuditEvent.head sign) sign.zero log.events with
  | none => simp
  | some prev => simp

/-! ## Appended logs -/

/-- The events carry their positions as sequence numbers. -/
def Numbered (log : OrderAuditLog) : Prop :=
  ∀ (i : ℕ) (e : AuditEvent), log.events[i]? = some e → e.sequence = UInt64.ofNat i

theorem verify_step (h : log.verify sign = true) (call : AppendCall PublicKey Signature) :
    (log.step sign call).verify sign = true :=
  verify_iff.mpr (HashChain.follow_concat.mpr ⟨verify_iff.mp h, rfl⟩)

theorem numbered_step (h : log.Numbered) (call : AppendCall PublicKey Signature) :
    (log.step sign call).Numbered := by
  intro i e hget
  rcases Nat.lt_trichotomy i log.events.length with hi | hi | hi
  · exact h i e (by rwa [← List.getElem?_append_left hi])
  · subst hi
    rw [show (log.step sign call).events = log.events ++ [_] from rfl,
      List.getElem?_concat_length] at hget
    rw [← Option.some.inj hget]
  · rw [List.getElem?_eq_none] at hget
    · exact absurd hget (by simp)
    · simp only [step, append, List.length_append, List.length_singleton]
      omega

/-- **An appended log verifies and is numbered.** -/
theorem appended_run (hzero : sign.zero = Hash.zeros)
    (calls : List (AppendCall PublicKey Signature)) :
    (calls.foldl (step sign) new).verify sign = true ∧ (calls.foldl (step sign) new).Numbered := by
  have hnew : new.verify sign = true := by
    rw [verify_iff, hzero]
    rfl
  have hnumbered : new.Numbered := fun i e hget => absurd hget (by simp [new])
  generalize new = log at hnew hnumbered
  induction calls generalizing log with
  | nil => exact ⟨hnew, hnumbered⟩
  | cons call calls ih => exact ih _ (verify_step hnew call) (numbered_step hnumbered call)

/-! ## Anchored heads -/

/-- **Two verified logs with one head hold the same events.** -/
theorem events_eq_of_head_eq {a b : OrderAuditLog}
    (hinj : sign.CollisionFree (a.events ++ b.events))
    (hnonzero : sign.NeverZero (a.events ++ b.events)) (ha : a.verify sign = true)
    (hb : b.verify sign = true) (hhead : a.head = b.head) : a.events = b.events := by
  refine HashChain.eq_of_follow (fun e he f hf heq => ?_) (fun e he => ?_) (fun f hf => ?_)
    (verify_iff.mp ha) (hhead ▸ verify_iff.mp hb)
  · exact AuditEvent.canonicalBytes_inj
      (hinj e (List.mem_append_left _ he) f (List.mem_append_right _ hf) heq)
  · exact hnonzero e (List.mem_append_left _ he)
  · exact hnonzero f (List.mem_append_right _ hf)

/-- **Tamper evidence.** After every sequence of appends to the empty log the log verifies and event
`i` has sequence number `i`. Any two logs that verify and have the same head hold the same events,
in length, order and every field, if the hash neither collides on these events nor gives zero. -/
theorem tamper_evident (sign : AliceSign) (hzero : sign.zero = Hash.zeros) :
    (∀ calls : List (AppendCall PublicKey Signature),
      let log := calls.foldl (step sign) new
      log.verify sign = true ∧ ∀ (i : ℕ) (e : AuditEvent), log.events[i]? = some e → i < 2 ^ 64 →
        e.sequence.toNat = i) ∧
    ∀ a b : OrderAuditLog, sign.CollisionFree (a.events ++ b.events) →
      sign.NeverZero (a.events ++ b.events) → a.verify sign = true → b.verify sign = true →
      a.head = b.head → a.events = b.events := by
  refine ⟨fun calls => ?_, fun a b => events_eq_of_head_eq⟩
  obtain ⟨hverify, hnumbered⟩ := appended_run hzero calls
  refine ⟨hverify, fun i e hget hi => ?_⟩
  rw [hnumbered i e hget]
  exact UInt64.toNat_ofNat_of_lt' hi

/-- The SHA-256 digests of one order, of the first two events about it, and of the first event with
its timestamp set to zero. -/
def sampleSign : AliceSign where
  zero := Hash.zeros
  hashData bytes :=
    if bytes.length = 72 then
      ⟨#v[0x91, 0x78, 0xc0, 0x80, 0x15, 0x6e, 0x4b, 0x48, 0x58, 0xf9, 0x7e, 0x2f, 0x73, 0xa1,
        0x95, 0x94, 0x66, 0xb3, 0x64, 0xad, 0xd7, 0xe5, 0x6f, 0x7e, 0x80, 0x67, 0x4a, 0x59, 0x09,
        0x50, 0x19, 0x40]⟩
    else if bytes.head? = some 1 then
      ⟨#v[0x9b, 0xeb, 0xb1, 0x8b, 0x2a, 0x65, 0xd5, 0x3a, 0x2f, 0x52, 0x1f, 0x1c, 0x52, 0x32,
        0xcd, 0x82, 0x22, 0x97, 0x4c, 0xc7, 0x32, 0xb7, 0x55, 0x56, 0x89, 0x12, 0xf4, 0x27, 0xea,
        0x32, 0x21, 0xde]⟩
    else if bytes[73]? = some 0 then
      ⟨#v[0x4b, 0x08, 0x5b, 0xbd, 0x3c, 0xdf, 0xed, 0x7f, 0x95, 0xb7, 0xba, 0x51, 0x44, 0xd6,
        0x80, 0xa1, 0x4b, 0x41, 0x24, 0xaa, 0xab, 0x5d, 0x78, 0xdf, 0x28, 0x84, 0xeb, 0xbe, 0x68,
        0xfb, 0xc8, 0xac]⟩
    else
      ⟨#v[0x90, 0xe2, 0x10, 0x84, 0x0c, 0x6e, 0x3b, 0xe1, 0x87, 0xa7, 0x68, 0xcc, 0xbd, 0x92,
        0x39, 0x8a, 0x58, 0xe9, 0x23, 0x48, 0x3a, 0x73, 0xca, 0xb1, 0x71, 0xe7, 0xed, 0xbf, 0xe9,
        0x4b, 0xf8, 0xf7]⟩

/-- A signed order, its key and signature left out. -/
def sampleOrder : SignedOrder Unit Unit :=
  ⟨⟨1, "trader-1", "XJPY", .buy, 100, 100000000, 1720000000, "OSE"⟩, (), ()⟩

/-- The order is accepted, then filled. -/
def sampleLog : OrderAuditLog :=
  [AppendCall.mk sampleOrder .orderAccepted 1720000010,
    ⟨sampleOrder, .orderFullyFilled, 1720000020⟩].foldl (step sampleSign) new

/-- The log with the timestamp of its first event set to zero. -/
def tamperedLog : OrderAuditLog :=
  { sampleLog with events := sampleLog.events.modify 0 fun e => { e with timestampUnix := 0 } }

/-- The log verifies, and it does not once a timestamp is changed. -/
theorem tamper_evident_timestamp :
    sampleLog.verify sampleSign = true ∧ ¬ tamperedLog.verify sampleSign = true := by
  obtain ⟨hrun, hhead⟩ := @tamper_evident Unit Unit sampleSign rfl
  have hsample : sampleLog.verify sampleSign = true := (hrun _).1
  have hinj : sampleSign.CollisionFree (tamperedLog.events ++ sampleLog.events) := by
    unfold AliceSign.CollisionFree
    decide +kernel
  have hnonzero : sampleSign.NeverZero (tamperedLog.events ++ sampleLog.events) := by
    unfold AliceSign.NeverZero
    decide +kernel
  have hanchor : tamperedLog.head = sampleLog.head := by rw [tamperedLog]
  refine ⟨hsample, fun htampered => ?_⟩
  have hevents := hhead tamperedLog sampleLog hinj hnonzero htampered hsample hanchor
  revert hevents
  decide +kernel

end OrderAuditLog

end AliceLedger.Audit
