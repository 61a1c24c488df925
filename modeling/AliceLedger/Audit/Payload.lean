import AliceLedger.Audit.Model

/-!
# The signed encoding of an order

What is hashed and signed determines the order. The encoding is read from its front: integers have a
fixed width, the side is a tag, and every string has its length before it, so no content can move a
boundary. `OrderPayload.decode` is such a reader and inverts the encoding of every order whose
strings have fewer than 2^64 bytes (`signed_encoding_injective`).
-/

namespace AliceLedger.Audit

/-! ## Strings with their length -/

/-- A byte string with its length before it. -/
def lengthPrefixed (bytes : List UInt8) : List UInt8 :=
  (UInt64.ofNat bytes.length).toLeBytes ++ bytes

theorem pushLen_eq (buf bytes : List UInt8) : pushLen buf bytes = buf ++ lengthPrefixed bytes :=
  List.append_assoc _ _ _

/-- A string off the front of a buffer, with its length before it. -/
def readText (input : List UInt8) : Option (String × List UInt8) := do
  let (length, input) ← readU64 input
  let (bytes, input) ← readBytes length.toNat input
  let text ← fromUtf8 bytes
  return (text, input)

/-- **A written string is read back**, whatever follows. -/
theorem readText_append {text : String} (h : (utf8 text).length < 2 ^ 64) (rest : List UInt8) :
    readText (lengthPrefixed (utf8 text) ++ rest) = some (text, rest) := by
  have hlen : (UInt64.ofNat (utf8 text).length).toNat = (utf8 text).length :=
    UInt64.toNat_ofNat_of_lt' h
  rw [lengthPrefixed, List.append_assoc]
  simp only [readText, readU64_append, Option.bind_eq_bind, Option.bind_some, hlen,
    readBytes_append, fromUtf8_utf8]
  rfl

/-! ## Sides -/

/-- A side off the front of a buffer. -/
def OrderSide.read : List UInt8 → Option (OrderSide × List UInt8)
  | tag :: rest =>
    if tag = 1 then some (.buy, rest) else if tag = 2 then some (.sell, rest) else none
  | [] => none

theorem OrderSide.read_append (side : OrderSide) (rest : List UInt8) :
    read ([side.tag] ++ rest) = some (side, rest) := by
  cases side with
  | buy => rfl
  | sell => rfl

/-! ## Orders -/

namespace OrderPayload

/-- The strings of an order have lengths that a `u64` holds. -/
structure LengthsFit (p : OrderPayload) : Prop where
  traderId : (utf8 p.traderId).length < 2 ^ 64
  instrument : (utf8 p.instrument).length < 2 ^ 64
  venue : (utf8 p.venue).length < 2 ^ 64

/-- The encoding, field after field. -/
theorem canonicalBytes_eq_append (p : OrderPayload) :
    p.canonicalBytes = p.orderId.toLeBytes ++ (lengthPrefixed (utf8 p.traderId) ++
      (lengthPrefixed (utf8 p.instrument) ++ ([p.side.tag] ++ (p.quantity.toLeBytes ++
        (p.limitPriceMicros.toLeBytes ++ (p.timestampUnix.toLeBytes ++
          (lengthPrefixed (utf8 p.venue) ++ []))))))) := by
  simp only [canonicalBytes, pushLen_eq, List.append_assoc, List.append_nil]

/-- The order with a given encoding. -/
def decode (input : List UInt8) : Option OrderPayload := do
  let (orderId, input) ← readU64 input
  let (traderId, input) ← readText input
  let (instrument, input) ← readText input
  let (side, input) ← OrderSide.read input
  let (quantity, input) ← readU64 input
  let (limitPriceMicros, input) ← readU64 input
  let (timestampUnix, input) ← readU64 input
  let (venue, input) ← readText input
  if input = [] then
    some { orderId, traderId, instrument, side, quantity, limitPriceMicros, timestampUnix, venue }
  else none

/-- **An order is read back from its encoding.** -/
theorem decode_canonicalBytes {p : OrderPayload} (h : p.LengthsFit) :
    decode p.canonicalBytes = some p := by
  rw [canonicalBytes_eq_append]
  simp only [decode, Option.bind_eq_bind, readU64_append, Option.bind_some,
    readText_append h.traderId, readText_append h.instrument, OrderSide.read_append,
    readText_append h.venue, if_true]

/-- **The signed encoding is injective.** Among the orders whose strings have fewer than 2^64 bytes,
whatever these are, an encoding is read back to its order, so orders with the same bytes are equal
in every field. -/
theorem signed_encoding_injective {p q : OrderPayload} (hp : p.LengthsFit) (hq : q.LengthsFit) :
    decode p.canonicalBytes = some p ∧ (p.canonicalBytes = q.canonicalBytes → p = q) := by
  refine ⟨decode_canonicalBytes hp, fun h => ?_⟩
  have hread := decode_canonicalBytes hp
  rw [h, decode_canonicalBytes hq] at hread
  exact (Option.some.inj hread).symm

/-- An order of the trader `ab` for the instrument `c`. -/
def boundary : OrderPayload := ⟨1, "ab", "c", .buy, 100, 5, 9, "X"⟩

/-- Moving a letter from the trader to the instrument changes the bytes. -/
theorem signed_encoding_injective_boundary :
    boundary.canonicalBytes ≠
      { boundary with traderId := "a", instrument := "bc" }.canonicalBytes :=
  fun h => absurd ((signed_encoding_injective ⟨by decide, by decide, by decide⟩
    ⟨by decide, by decide, by decide⟩).2 h) (by decide)

end OrderPayload

end AliceLedger.Audit
