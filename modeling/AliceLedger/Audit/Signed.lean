import AliceLedger.Audit.Payload

/-!
# Signed orders

A signed order is checked against the key that the venue expects (`SignedOrder.verifyBy`). Whoever
passes signed orders on may change a payload, put another key, or move a signature from one order
to another. The check accepts none of it: an order that carries one of a trader's signatures is
accepted exactly when it is one of the orders that the trader signed, in every field
(`verifyBy_iff_issued`).

The key pairs come from another crate and are the parameter `KeyScheme`. What is assumed of them is
that a signature verifies (`Correct`) and that it verifies no other of the messages at hand
(`Binds`); the second is about the messages at hand because 64 bytes cannot bind every message.
-/

namespace AliceLedger.Audit

/-- What signed orders use of the signature crate: `KeyPair::sign`, `KeyPair::public` and
`PublicKey::verify`. -/
structure KeyScheme (KeyPair PublicKey Signature : Type) where
  sign : KeyPair → List UInt8 → Signature
  publicKey : KeyPair → PublicKey
  verify : PublicKey → List UInt8 → Signature → Bool

variable {KeyPair PublicKey Signature : Type}

namespace KeyScheme

variable (scheme : KeyScheme KeyPair PublicKey Signature) (trader : KeyPair)

/-- What a key pair signs is verified by its public key. -/
def Correct : Prop :=
  ∀ bytes, scheme.verify (scheme.publicKey trader) bytes (scheme.sign trader bytes) = true

/-- The signature of one of these messages verifies no other of them. -/
def Binds (messages : List (List UInt8)) : Prop :=
  ∀ a ∈ messages, ∀ b ∈ messages,
    scheme.verify (scheme.publicKey trader) a (scheme.sign trader b) = true → a = b

end KeyScheme

namespace SignedOrder

/-- Sign an order with the key pair of the trader. -/
def sign (scheme : KeyScheme KeyPair PublicKey Signature) (payload : OrderPayload)
    (trader : KeyPair) : SignedOrder PublicKey Signature :=
  let signature := scheme.sign trader payload.canonicalBytes
  { payload, traderPublic := scheme.publicKey trader, signature }

/-- Verify the signature. -/
def verify (scheme : KeyScheme KeyPair PublicKey Signature)
    (order : SignedOrder PublicKey Signature) : Bool :=
  scheme.verify order.traderPublic order.payload.canonicalBytes order.signature

/-- Verify against the key that is expected of the trader. -/
def verifyBy [DecidableEq PublicKey] (scheme : KeyScheme KeyPair PublicKey Signature)
    (order : SignedOrder PublicKey Signature) (expected : PublicKey) : Bool :=
  order.traderPublic = expected && order.verify scheme

variable [DecidableEq PublicKey] {scheme : KeyScheme KeyPair PublicKey Signature}
  {trader : KeyPair} {order : SignedOrder PublicKey Signature}

theorem verifyBy_iff {expected : PublicKey} : order.verifyBy scheme expected = true ↔
    order.traderPublic = expected ∧
      scheme.verify expected order.payload.canonicalBytes order.signature = true := by
  simp only [verifyBy, verify, Bool.and_eq_true, decide_eq_true_eq]
  exact and_congr_right fun heq => by rw [heq]

theorem verifyBy_sign (hcorrect : scheme.Correct trader) (payload : OrderPayload) :
    (sign scheme payload trader).verifyBy scheme (scheme.publicKey trader) = true :=
  verifyBy_iff.mpr ⟨rfl, hcorrect _⟩

/-- **Only what was signed is accepted.** Let an order carry the signature of one of the orders that
a trader signed. The check against the key of the trader accepts it exactly when it is one of these
orders, unchanged in its payload and its key. -/
theorem verifyBy_iff_issued {issued : List OrderPayload} (hcorrect : scheme.Correct trader)
    (hbinds : scheme.Binds trader ((order.payload :: issued).map OrderPayload.canonicalBytes))
    (hfit : ∀ p ∈ order.payload :: issued, p.LengthsFit)
    (hcarries : ∃ p ∈ issued, order.signature = (sign scheme p trader).signature) :
    order.verifyBy scheme (scheme.publicKey trader) = true ↔
      ∃ p ∈ issued, order = sign scheme p trader := by
  constructor
  · intro haccepted
    obtain ⟨htrader, hverify⟩ := verifyBy_iff.mp haccepted
    obtain ⟨p, hp, hsignature⟩ := hcarries
    have hmem : p ∈ order.payload :: issued := List.mem_cons_of_mem _ hp
    rw [hsignature] at hverify
    have hbytes := hbinds _ (List.mem_map_of_mem List.mem_cons_self) _
      (List.mem_map_of_mem hmem) hverify
    -- the bytes are read back to the payload that was signed
    have hread := OrderPayload.decode_canonicalBytes (hfit _ List.mem_cons_self)
    rw [hbytes, OrderPayload.decode_canonicalBytes (hfit p hmem)] at hread
    refine ⟨p, hp, ?_⟩
    obtain ⟨payload, traderPublic, signature⟩ := order
    obtain rfl : p = payload := Option.some.inj hread
    obtain rfl : traderPublic = scheme.publicKey trader := htrader
    obtain rfl : signature = (sign scheme p trader).signature := hsignature
    rfl
  · rintro ⟨p, -, rfl⟩
    exact verifyBy_sign hcorrect p

/-- An order to buy 100 lots with a given limit. -/
def atPrice (limitPriceMicros : UInt64) : OrderPayload :=
  ⟨1, "trader-1", "XJPY", .buy, 100, limitPriceMicros, 1720000000, "OSE"⟩

/-- The Ed25519 public key of the seed of 32 ones. -/
def sampleKey : Vector UInt8 32 :=
  #v[0x8a, 0x88, 0xe3, 0xdd, 0x74, 0x09, 0xf1, 0x95, 0xfd, 0x52, 0xdb, 0x2d, 0x3c, 0xba, 0x5d, 0x72,
    0xca, 0x67, 0x09, 0xbf, 0x1d, 0x94, 0x12, 0x1b, 0xf3, 0x74, 0x88, 0x01, 0xb4, 0x0f, 0x6f, 0x5c]

/-- The signatures under this key of the order at two prices. -/
def sampleSignature (bytes : List UInt8) : Vector UInt8 64 :=
  if bytes = (atPrice 100000000).canonicalBytes then
    #v[0x62, 0x1a, 0xb5, 0x04, 0xdb, 0x14, 0x12, 0xc0, 0x02, 0x29, 0x69, 0x71, 0x89, 0xb1, 0xb1,
      0x34, 0x67, 0x50, 0xc1, 0x69, 0xa2, 0x0b, 0x2e, 0xf4, 0x76, 0x07, 0xe4, 0xee, 0x82, 0xf9,
      0xd3, 0x7d, 0xe8, 0xd6, 0x98, 0xa5, 0xe3, 0xf0, 0xa7, 0x78, 0xd7, 0x59, 0xe6, 0x82, 0x3d,
      0xdd, 0xab, 0xa4, 0xeb, 0x73, 0xc9, 0x57, 0x35, 0x26, 0x3f, 0x77, 0x9a, 0x10, 0x37, 0xfc,
      0x82, 0xbf, 0x98, 0x0f]
  else
    #v[0x2e, 0x16, 0xd6, 0x3f, 0x98, 0x07, 0xdb, 0xeb, 0x6e, 0xa6, 0xd6, 0x5e, 0x53, 0x62, 0x7d,
      0xad, 0xa4, 0x27, 0x03, 0x39, 0x5e, 0x2c, 0xad, 0x80, 0xe6, 0x9b, 0xb5, 0x84, 0x14, 0xe0,
      0xa2, 0x68, 0x85, 0x75, 0x94, 0xd9, 0x03, 0xf3, 0x65, 0xd8, 0x4c, 0x48, 0x92, 0x1e, 0x62,
      0x00, 0x08, 0x87, 0x6b, 0x61, 0x38, 0xfe, 0xb8, 0x34, 0x4e, 0x72, 0x00, 0x1d, 0xac, 0xbf,
      0xeb, 0xcd, 0xa9, 0x00]

/-- Ed25519 as it is on these two orders. -/
def sampleScheme : KeyScheme Unit (Vector UInt8 32) (Vector UInt8 64) where
  publicKey _ := sampleKey
  sign _ bytes := sampleSignature bytes
  verify key bytes signature := key = sampleKey && signature = sampleSignature bytes

/-- An order whose price was raised is not accepted under the signature of the order as it was. -/
theorem verifyBy_iff_issued_raised :
    let raised := { sign sampleScheme (atPrice 100000000) () with payload := atPrice 100000001 }
    raised.verifyBy sampleScheme sampleKey = true ↔
      ∃ p ∈ [atPrice 100000000], raised = sign sampleScheme p () := by
  refine verifyBy_iff_issued (fun bytes => ?_) ?_ ?_ ⟨_, List.mem_singleton_self _, rfl⟩
  · simp [sampleScheme]
  · unfold KeyScheme.Binds
    decide +kernel
  · intro p hp
    have hlengths : (utf8 p.traderId).length < 2 ^ 64 ∧ (utf8 p.instrument).length < 2 ^ 64 ∧
        (utf8 p.venue).length < 2 ^ 64 := by
      revert p
      decide
    exact ⟨hlengths.1, hlengths.2.1, hlengths.2.2⟩

end SignedOrder

end AliceLedger.Audit
