import AliceLedger.Lib.Delimited
import AliceLedger.Lib.MachineInt
import AliceLedger.Lib.SortedMap
import AliceLedger.Lib.Text

/-!
# FIX messages

The parser and the serialiser of the FIX 4.4 subset: records `tag=value` ended by `SOH`, and the
envelope fields 8 (`BeginString`), 9 (`BodyLength`) and 10 (`CheckSum`). A buffer is the list of its
bytes. The parser reads every field of the buffer into a map (`parseFields`) and, in a second scan,
finds the bytes that `BodyLength` and `CheckSum` speak of (`splitForVerification`). Its arithmetic
is that of the release profile, where the sum of the bytes wraps; slicing a buffer at indices out
of order is the panic of `Fault`.
-/

namespace AliceLedger

open Delimited (splitOnce)

/-- `SOH` byte separating `tag=value` fields. -/
def SOH : UInt8 := 0x01

/-- `BeginString` value indicating FIX 4.4. -/
def fix44BeginString : String := "FIX.4.4"

/-- FIX parser errors. -/
inductive FixError
  /-- A field lacked the required `tag=value` structure. -/
  | malformedField (text : String)
  /-- A required envelope field was missing. -/
  | missingField (tag : UInt32)
  /-- `BodyLength` did not match the counted bytes. -/
  | bodyLengthMismatch (expected actual : ℕ)
  /-- `CheckSum` did not match the computed checksum. -/
  | checksumMismatch (expected actual : UInt32)
  /-- A field tag could not be parsed as an integer. -/
  | tagNotInteger (text : String)
  deriving DecidableEq, Repr

/-- The ways a call ends without a value. -/
inductive Fault
  | error (e : FixError)
  | panic
  deriving DecidableEq, Repr

/-- A parsed FIX message keyed by tag number. -/
@[ext] structure FixMessage where
  fields : SortedMap UInt32 String
  deriving DecidableEq

namespace FixMessage

/-- Empty message. -/
def new : FixMessage := ⟨.empty⟩

/-- Read a field. -/
def get (msg : FixMessage) (tag : UInt32) : Option String := msg.fields.get? tag

/-- Insert or overwrite a field. -/
def insert (msg : FixMessage) (tag : UInt32) (value : String) : FixMessage :=
  ⟨msg.fields.insert tag value⟩

/-- Convenience: `35` = `MsgType`. -/
def msgType (msg : FixMessage) : Option String := msg.get 35

theorem ext_get {m n : FixMessage} (h : ∀ tag, m.get tag = n.get tag) : m = n :=
  FixMessage.ext (SortedMap.ext_get? h)

end FixMessage

namespace Fix

/-! ## Fields -/

/-- The field of a chunk. -/
def parseField (chunk : List UInt8) : Except FixError (UInt32 × String) :=
  match fromUtf8 chunk with
  | none => .error (.malformedField (fromUtf8Lossy chunk))
  | some s =>
    match splitOnce '=' s.toList with
    | none => .error (.malformedField s)
    | some (tagStr, value) =>
      match parseUnsigned (2 ^ 32) tagStr with
      | none => .error (.tagNotInteger (String.ofList tagStr))
      | some tag => .ok (UInt32.ofNat tag, String.ofList value)

/-- One pass of the loop over the chunks: empty chunks are skipped. -/
def readChunk (msg : FixMessage) (chunk : List UInt8) : Except FixError FixMessage :=
  if chunk = [] then .ok msg
  else (parseField chunk).map fun field => msg.insert field.1 field.2

/-- Read all fields of a buffer, the last value of a tag winning. -/
def parseFields (bytes : List UInt8) : Except FixError FixMessage :=
  (bytes.splitOn SOH).foldlM readChunk FixMessage.new

/-! ## The verified bytes -/

/-- `b"9="` -/
def bodyLengthMark : List UInt8 := [0x39, 0x3d]

/-- `b"10="` -/
def checksumMark : List UInt8 := [0x31, 0x30, 0x3d]

/-- The search for the end of the first `9=<n>\x01`, in the bytes from index `idx` on. -/
def findBodyStart (idx : ℕ) : List UInt8 → Option ℕ
  | [] => none
  | b :: rest =>
    if bodyLengthMark <+: b :: rest then
      match (rest.drop 1).idxOf? SOH with
      | some off => some (idx + 2 + off + 1)
      | none => findBodyStart (idx + 1) rest
    else findBodyStart (idx + 1) rest

/-- A `10=` at an index that begins a chunk. -/
def isChecksumAt (bytes : List UInt8) (i : ℕ) : Bool :=
  checksumMark.isPrefixOf (bytes.drop i) && (i == 0 || bytes[i - 1]? == some SOH)

/-- The last `10=` that begins a chunk. -/
def findChecksumStart (bytes : List UInt8) : Option ℕ :=
  (List.range bytes.length).reverse.find? (isChecksumAt bytes)

/-- The bytes that `BodyLength` counts and those that `CheckSum` sums. -/
def splitForVerification (bytes : List UInt8) : Except Fault (List UInt8 × List UInt8) :=
  match findBodyStart 0 bytes with
  | none => .error (.error (.missingField 9))
  | some bodyStart =>
    match findChecksumStart bytes with
    | none => .error (.error (.missingField 10))
    | some checksumStart =>
      if bodyStart ≤ checksumStart ∧ checksumStart ≤ bytes.length then
        .ok ((bytes.take checksumStart).drop bodyStart, bytes.take checksumStart)
      else .error .panic

/-- The sum of the bytes modulo 256, the sum itself a wrapping `u32`. -/
def checksum (bytes : List UInt8) : UInt32 :=
  (bytes.foldl (fun sum b => sum + b.toUInt32) 0) % 256

/-! ## Parsing -/

/-- A field the envelope requires. -/
def required (msg : FixMessage) (tag : UInt32) : Except Fault String :=
  match msg.get tag with
  | some value => .ok value
  | none => .error (.error (.missingField tag))

/-- A numeric envelope field. -/
def numeric (bound : ℕ) (text : String) : Except Fault ℕ :=
  match parseUnsigned bound text.toList with
  | some n => .ok n
  | none => .error (.error (.malformedField text))

/-- Parse a raw FIX wire buffer, validating `BodyLength` and `CheckSum`. -/
def parse (bytes : List UInt8) : Except Fault FixMessage := do
  let msg ← (parseFields bytes).mapError Fault.error
  let beginString ← required msg 8
  let bodyLenStr ← required msg 9
  let checksumStr ← required msg 10
  let bodyLen ← numeric (2 ^ 64) bodyLenStr
  let expectedChecksum ← numeric (2 ^ 32) checksumStr
  let (bodyBytes, checksumBytes) ← splitForVerification bytes
  if bodyBytes.length ≠ bodyLen then
    .error (.error (.bodyLengthMismatch bodyLen bodyBytes.length))
  else if checksum checksumBytes ≠ UInt32.ofNat expectedChecksum then
    .error (.error (.checksumMismatch (UInt32.ofNat expectedChecksum) (checksum checksumBytes)))
  else if beginString = "" then .error (.error (.missingField 8))
  else .ok msg

/-! ## Serialisation -/

/-- Append a field to a buffer. -/
def pushField (buf : List UInt8) (tag : UInt32) (value : String) : List UInt8 :=
  buf ++ utf8 (toString tag.toNat) ++ [0x3d] ++ utf8 value ++ [SOH]

/-- The body: all fields but the envelope's, in tag order. -/
def serializeBody (msg : FixMessage) : List UInt8 :=
  ((msg.fields.erase 9).erase 10).entries.foldl
    (fun body e => if e.1 = 8 then body else pushField body e.1 e.2) []

/-- `{cs:03}` -/
def checksumText (cs : UInt32) : String :=
  String.ofList ((Nat.toDigits 10 cs.toNat).leftpad 3 '0')

/-- Serialise a message on the wire and compute `BodyLength` and `CheckSum`. -/
def serialize (msg : FixMessage) : List UInt8 :=
  let beginString := (msg.get 8).getD fix44BeginString
  let body := serializeBody msg
  let out := pushField [] 8 beginString
  let out := pushField out 9 (toString body.length)
  let out := out ++ body
  pushField out 10 (checksumText (checksum out))

end Fix

end AliceLedger
