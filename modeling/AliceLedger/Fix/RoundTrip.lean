import AliceLedger.Fix.Integrity
import AliceLedger.Fix.Wire

/-!
# Serialised messages are read back

The parser accepts what the serialiser writes and returns the message with its envelope fields set
(`parse_serialize`). The first search stops at the written body length since no `9` is before it
(`firstBodyLength_append`), and the second at the written checksum since no boundary is inside
the last field (`lastChecksum_append`), so no value can mislead either.
-/

namespace AliceLedger.Fix

open Delimited
open SortedMap (lastValue)

/-- A message with the envelope fields the serialiser writes. -/
def withEnvelope (msg : FixMessage) : FixMessage :=
  ((msg.insert 8 fix44BeginString).insert 9 (toString (serializeBody msg).length)).insert 10
    (checksumText (writtenChecksum msg))

/-! ## The fields written -/

theorem get_withEnvelope (msg : FixMessage) (tag : UInt32) :
    (withEnvelope msg).get tag =
      if tag = 10 then some (checksumText (writtenChecksum msg))
      else if tag = 9 then some (toString (serializeBody msg).length)
      else if tag = 8 then some fix44BeginString
      else msg.get tag := by
  simp only [withEnvelope, FixMessage.insert, FixMessage.get]
  split_ifs with h10 h9 h8
  · rw [h10, SortedMap.get?_insert_self]
  · rw [SortedMap.get?_insert_of_ne _ _ h10, h9, SortedMap.get?_insert_self]
  · rw [SortedMap.get?_insert_of_ne _ _ h10, SortedMap.get?_insert_of_ne _ _ h9, h8,
      SortedMap.get?_insert_self]
  · rw [SortedMap.get?_insert_of_ne _ _ h10, SortedMap.get?_insert_of_ne _ _ h9,
      SortedMap.get?_insert_of_ne _ _ h8]

theorem bodyFields_withEnvelope (msg : FixMessage) :
    bodyFields (withEnvelope msg) = bodyFields msg := by
  refine congrArg SortedMap.entries (SortedMap.ext_get? fun tag => ?_)
  rw [get?_bodyMap, get?_bodyMap, get_withEnvelope]
  split_ifs with h h10 h9 h8
  · rfl
  · exact absurd (.inr (.inl h10)) h
  · exact absurd (.inr (.inr h9)) h
  · exact absurd (.inl h8) h
  · rfl

section Written

variable {msg : FixMessage}

/-! ## The last field -/

theorem toNat_writtenChecksum_lt : (writtenChecksum msg).toNat < 256 := by
  rw [writtenChecksum, checksum, UInt32.toNat_mod]
  exact Nat.mod_lt _ (by decide)

theorem header_withEnvelope (hlen : (serializeBody msg).length < 2 ^ 64) :
    Header (withEnvelope msg) fix44BeginString (serializeBody msg).length
      (writtenChecksum msg).toNat := by
  refine ⟨?_, ⟨toString (serializeBody msg).length, ?_, ?_⟩,
    ⟨checksumText (writtenChecksum msg), ?_, ?_⟩⟩
  · simp [get_withEnvelope]
  · simp [get_withEnvelope]
  · rw [Nat.toString_eq_ofList_toDigits, String.toList_ofList]
    exact parseUnsigned_toDigits hlen
  · simp [get_withEnvelope]
  · rw [checksumText, String.toList_ofList]
    exact parseUnsigned_leftpad (toNat_writtenChecksum_lt.trans (by decide)) 3

/-- A checksum field at the end is where the second search cuts: no later boundary has anything
after it. -/
theorem lastChecksum_append {a : List UInt8} (ha : Closed SOH a) {value : String}
    (hvalue : SOH ∉ utf8 value) :
    LastChecksum (a ++ wire [(10, value)]) a (wire [(10, value)]) := by
  refine ⟨rfl, ha, ?_, fun a' b hab ha' hmark => ?_⟩
  · rw [wire_cons, fieldBytes_eq, tagMark_ten, List.append_assoc]
    exact List.prefix_append _ _
  · by_contra hlt
    have hpre : a <+: a' :=
      List.prefix_of_prefix_length_le (List.prefix_append a _) ⟨b, hab.symm⟩ (by omega)
    obtain ⟨t, rfl⟩ := hpre
    have hne : t ≠ [] := by
      rintro rfl
      simp at hlt
    rw [List.append_assoc] at hab
    have htb := List.append_cancel_left hab
    rw [wire_cons, wire_nil] at htb
    rw [eq_nil_of_closed (not_mem_fieldBytes hvalue) htb ha'.of_append hne] at hmark
    exact absurd hmark (by decide)

theorem serialize_eq_append (msg : FixMessage) : serialize msg =
    wire (summedFields msg) ++ wire [(10, checksumText (writtenChecksum msg))] := by
  rw [serialize_eq_wire, writtenFields, wire_append]

variable (msg) in
theorem not_mem_checksumText : SOH ∉ utf8 (checksumText (writtenChecksum msg)) :=
  not_mem_utf8_digits isDigit_of_mem_leftpad

theorem lastChecksum_serialize :
    LastChecksum (serialize msg) (wire (summedFields msg))
      (wire [(10, checksumText (writtenChecksum msg))]) := by
  rw [serialize_eq_append]
  exact lastChecksum_append (closed_wire _) (not_mem_checksumText msg)

theorem beforeBody_eq_wire (n : ℕ) :
    beforeBody (wire [(8, fix44BeginString)]) (utf8 (toString n)) =
      wire [(8, fix44BeginString), (9, toString n)] := by
  rw [beforeBody, wire_cons, wire_cons, wire_cons, wire_nil, fieldBytes_eq 9, tagMark_nine]
  simp

/-! ## With the version of the parser -/

variable (h8 : (msg.get 8).getD fix44BeginString = fix44BeginString)
include h8

theorem summedFields_eq :
    summedFields msg =
      [(8, fix44BeginString), (9, toString (serializeBody msg).length)] ++ bodyFields msg := by
  rw [summedFields, h8]
  rfl

/-- **What is written is the message with its envelope.** -/
theorem ofFields_writtenFields : ofFields (writtenFields msg) = withEnvelope msg := by
  refine FixMessage.ext_get fun tag => ?_
  rw [get_ofFields, writtenFields, summedFields_eq h8, SortedMap.lastValue_append,
    SortedMap.lastValue_append, SortedMap.lastValue_singleton, bodyFields,
    SortedMap.lastValue_entries, get?_bodyMap, get_withEnvelope]
  by_cases h10 : tag = 10
  · simp [h10]
  by_cases h9 : tag = 9
  · simp [h9, lastValue]
  by_cases htag : tag = 8
  · simp [htag, lastValue]
  have hne : ∀ k : UInt32, tag ≠ k → k ≠ tag := fun _ => Ne.symm
  simp [lastValue, h10, h9, htag, hne]

theorem value_of_mem_writtenFields (hvalues : ∀ e ∈ msg.fields.entries, SOH ∉ utf8 e.2) :
    ∀ f ∈ writtenFields msg, SOH ∉ utf8 f.2 := by
  intro f hf
  simp only [writtenFields, summedFields, h8, List.cons_append, List.mem_cons, List.mem_append,
    List.not_mem_nil, or_false] at hf
  rcases hf with rfl | rfl | hf | rfl
  · show SOH ∉ utf8 fix44BeginString
    decide
  · exact not_mem_utf8_toString _
  · simp only [bodyFields, bodyMap, SortedMap.mem_entries_erase] at hf
    exact hvalues f hf.1.1.1
  · exact not_mem_utf8_digits isDigit_of_mem_leftpad

/-- The bytes up to the body: the version field and the length. -/
theorem beforeBody_serialize :
    beforeBody (wire [(8, fix44BeginString)]) (utf8 (toString (serializeBody msg).length)) ++
      serializeBody msg = wire (summedFields msg) := by
  rw [summedFields_eq h8, wire_append, serializeBody_eq_wire, beforeBody_eq_wire]

/-- No `9` is before the length of the body, so the first search cuts after it, whatever follows
the summed bytes. -/
theorem firstBodyLength_append (rest : List UInt8) :
    FirstBodyLength (wire (summedFields msg) ++ rest) (wire [(8, fix44BeginString)])
      (utf8 (toString (serializeBody msg).length)) (serializeBody msg ++ rest) := by
  refine ⟨?_, by decide, not_mem_utf8_toString _⟩
  rw [← beforeBody_serialize h8, beforeBody]
  simp

theorem splitForVerification_serialize :
    splitForVerification (serialize msg) = .ok (serializeBody msg, wire (summedFields msg)) := by
  have hb := firstBodyLength_append h8 (wire [(10, checksumText (writtenChecksum msg))])
  rw [← serialize_eq_append] at hb
  rw [splitForVerification_of_order hb lastChecksum_serialize, ← beforeBody_serialize h8,
    List.drop_left, if_pos]
  rw [List.length_append]
  omega

theorem serialize_withEnvelope : serialize (withEnvelope msg) = serialize msg := by
  have h8' : ((withEnvelope msg).get 8).getD fix44BeginString = fix44BeginString := by
    simp [get_withEnvelope]
  have hbody : serializeBody (withEnvelope msg) = serializeBody msg := by
    rw [serializeBody_eq_wire, bodyFields_withEnvelope, serializeBody_eq_wire]
  have hsummed : summedFields (withEnvelope msg) = summedFields msg := by
    rw [summedFields_eq h8', summedFields_eq h8, hbody, bodyFields_withEnvelope]
  rw [serialize_eq_wire, serialize_eq_wire, writtenFields, writtenFields, writtenChecksum,
    writtenChecksum, hsummed]

/-- **A serialised message is read back** while its body length is a number the parser takes. -/
theorem parse_serialize_of_length (hvalues : ∀ e ∈ msg.fields.entries, SOH ∉ utf8 e.2)
    (hlen : (serializeBody msg).length < 2 ^ 64) :
    parse (serialize msg) = .ok (withEnvelope msg) := by
  have hsoh := value_of_mem_writtenFields h8 hvalues
  have hfields : parseFields (serialize msg) = .ok (withEnvelope msg) := by
    rw [parseFields_eq_ok_iff, serialize_eq_wire, fields_wire hsoh, ofFields_writtenFields h8]
    exact ⟨wellFormed_wire hsoh, rfl⟩
  refine parse_eq_ok_iff.mpr ⟨hfields, fix44BeginString, serializeBody msg,
    wire (summedFields msg), _, header_withEnvelope hlen, by decide,
    splitForVerification_serialize h8, ?_⟩
  rw [UInt32.ofNat_toNat]
  rfl

omit h8 in
theorem getD_begin (h8 : msg.get 8 = none ∨ msg.get 8 = some fix44BeginString) :
    (msg.get 8).getD fix44BeginString = fix44BeginString := by
  rcases h8 with h | h
  · rw [h]
    rfl
  · rw [h]
    rfl

end Written

/-- **A serialised message is read back** with its envelope fields set, and serialises to the same
bytes again. The length bound is the one every `Vec` of bytes keeps. -/
theorem parse_serialize {msg : FixMessage}
    (h8 : msg.get 8 = none ∨ msg.get 8 = some fix44BeginString)
    (hvalues : ∀ e ∈ msg.fields.entries, SOH ∉ utf8 e.2)
    (hlen : (serialize msg).length < 2 ^ 63) :
    parse (serialize msg) = .ok (withEnvelope msg) ∧
      serialize (withEnvelope msg) = serialize msg := by
  have hbody : (serializeBody msg).length < 2 ^ 64 := by
    have hle := congrArg List.length (serialize_eq_append msg)
    rw [← beforeBody_serialize (getD_begin h8)] at hle
    simp only [List.length_append] at hle
    omega
  exact ⟨parse_serialize_of_length (getD_begin h8) hvalues hbody,
    serialize_withEnvelope (getD_begin h8)⟩

theorem parse_serialize_marks :
    let msg := (FixMessage.new.insert 35 "D").insert 58 "9=é10="
    parse (serialize msg) = .ok (withEnvelope msg) ∧
      serialize (withEnvelope msg) = serialize msg :=
  parse_serialize (.inl rfl) (by decide) (by decide)

example : serialize (FixMessage.new.insert 35 "D") =
    utf8 "8=FIX.4.4\x019=5\x0135=D\x0110=183\x01" := by decide

end AliceLedger.Fix
