import AliceLedger.Lib.Bytes
import AliceLedger.Lib.Text
import Mathlib.Logic.Basic

/-!
# The audit log of order events

An append-only list of order lifecycle events, chained by hashes: each event holds the head of the
log before it, and the head of the log is the hash of the last event. The hash function and the
zero hash come from another crate; they are the parameter `AliceSign`, and so are the types of keys
and signatures, which the log does not read.
-/

namespace AliceLedger.Audit

/-- A hash: 32 bytes. -/
structure Hash where
  bytes : Vector UInt8 32
  deriving DecidableEq

/-- The hash with 32 zero bytes. -/
def Hash.zeros : Hash := ⟨Vector.replicate 32 0⟩

/-- What the log uses of the signature crate: `hash_data` and `Hash::zero`. -/
structure AliceSign where
  hashData : List UInt8 → Hash
  zero : Hash

/-! ## Orders -/

/-- Buy or sell side of an order. -/
inductive OrderSide
  | buy
  | sell
  deriving DecidableEq, Repr

/-- Byte tag of a side. -/
def OrderSide.tag : OrderSide → UInt8
  | .buy => 1
  | .sell => 2

/-- Append a byte string with its length before it. -/
def pushLen (buf bytes : List UInt8) : List UInt8 :=
  buf ++ (UInt64.ofNat bytes.length).toLeBytes ++ bytes

/-- An order as it is signed. -/
structure OrderPayload where
  orderId : UInt64
  traderId : String
  instrument : String
  side : OrderSide
  quantity : UInt64
  limitPriceMicros : UInt64
  timestampUnix : UInt64
  venue : String
  deriving DecidableEq, Repr

namespace OrderPayload

/-- The bytes that are hashed and signed. -/
def canonicalBytes (p : OrderPayload) : List UInt8 :=
  let buf := p.orderId.toLeBytes
  let buf := pushLen buf (utf8 p.traderId)
  let buf := pushLen buf (utf8 p.instrument)
  let buf := buf ++ [p.side.tag]
  let buf := buf ++ p.quantity.toLeBytes
  let buf := buf ++ p.limitPriceMicros.toLeBytes
  let buf := buf ++ p.timestampUnix.toLeBytes
  pushLen buf (utf8 p.venue)

/-- The digest of an order. -/
def digest (sign : AliceSign) (p : OrderPayload) : Hash := sign.hashData p.canonicalBytes

end OrderPayload

/-- An order with the signature that commits to it. -/
structure SignedOrder (PublicKey Signature : Type) where
  payload : OrderPayload
  traderPublic : PublicKey
  signature : Signature

/-! ## Events -/

/-- Categories of audit events. -/
inductive AuditEventKind
  | orderAccepted
  | orderRejected
  | orderPartiallyFilled
  | orderFullyFilled
  | orderCancelled
  | orderExpired
  deriving DecidableEq, Repr

/-- Byte tag of a category. -/
def AuditEventKind.tag : AuditEventKind → UInt8
  | .orderAccepted => 1
  | .orderRejected => 2
  | .orderPartiallyFilled => 3
  | .orderFullyFilled => 4
  | .orderCancelled => 5
  | .orderExpired => 6

/-- One entry of the log. -/
structure AuditEvent where
  sequence : UInt64
  kind : AuditEventKind
  orderDigest : Hash
  prevHash : Hash
  timestampUnix : UInt64
  deriving DecidableEq

namespace AuditEvent

/-- The encoding of an event: every field at a fixed offset. -/
def canonicalBytes (e : AuditEvent) : List UInt8 :=
  let buf := List.replicate (8 + 1 + 32 + 32 + 8) 0
  let buf := overwrite buf 0 e.sequence.toLeBytes
  let buf := overwrite buf 8 [e.kind.tag]
  let buf := overwrite buf 9 e.orderDigest.bytes.toList
  let buf := overwrite buf 41 e.prevHash.bytes.toList
  overwrite buf 73 e.timestampUnix.toLeBytes

/-- The head of the log after an event. -/
def head (sign : AliceSign) (e : AuditEvent) : Hash := sign.hashData e.canonicalBytes

end AuditEvent

/-! ## The log -/

/-- The log: its events, oldest first, and the head. -/
structure OrderAuditLog where
  events : List AuditEvent
  head : Hash

namespace OrderAuditLog

variable {PublicKey Signature : Type}

/-- An empty log. -/
def new : OrderAuditLog := ⟨[], Hash.zeros⟩

/-- Append an event about an order. -/
def append (sign : AliceSign) (log : OrderAuditLog) (order : SignedOrder PublicKey Signature)
    (kind : AuditEventKind) (timestampUnix : UInt64) : OrderAuditLog :=
  let event : AuditEvent := {
    sequence := UInt64.ofNat log.events.length
    kind
    orderDigest := order.payload.digest sign
    prevHash := log.head
    timestampUnix }
  ⟨log.events ++ [event], event.head sign⟩

/-- The loop of `verify` from a hash: the head it ends with, or nothing where an event names
another hash. -/
def verifyLoop (sign : AliceSign) (prev : Hash) : List AuditEvent → Option Hash
  | [] => some prev
  | e :: events => if e.prevHash ≠ prev then none else verifyLoop sign (e.head sign) events

/-- Verify the chain by recomputing the head of every event. -/
def verify (sign : AliceSign) (log : OrderAuditLog) : Bool :=
  match verifyLoop sign sign.zero log.events with
  | none => false
  | some prev => prev = log.head

/-- The arguments of a call to `append`. -/
structure AppendCall (PublicKey Signature : Type) where
  order : SignedOrder PublicKey Signature
  kind : AuditEventKind
  timestampUnix : UInt64

/-- The log after a call to `append`. -/
def step (sign : AliceSign) (log : OrderAuditLog) (call : AppendCall PublicKey Signature) :
    OrderAuditLog :=
  log.append sign call.order call.kind call.timestampUnix

end OrderAuditLog

end AliceLedger.Audit
