import AliceLedger.Fix.Wire

/-!
# What a value can write

The serialiser writes values as they are, and computes `BodyLength` and `CheckSum` over what it
wrote, so the envelope of a serialised message does not tell a field from the text of a value. Which
text is dangerous is `Inert`: a message is read back with exactly its own fields, the envelope's
aside, if and only if no value of the body holds the separator and the version brings in no tag
that the body does not write again (`no_injection_iff`).
-/

namespace AliceLedger.Fix

open Delimited
open SortedMap (lastValue)

variable {msg : FixMessage}

/-- The value written as `BeginString`. -/
def writtenBegin (msg : FixMessage) : String := (msg.get 8).getD fix44BeginString

/-- The fields that the version writes after its own: those of its chunks but the first. -/
def begunFields (msg : FixMessage) : List (UInt32 × String) :=
  fieldsOf ((utf8 (writtenBegin msg)).splitOn SOH).tail

/-- No value of the body holds the separator, and a field written inside the version is an envelope
field or one that the message has. -/
structure Inert (msg : FixMessage) : Prop where
  body : ∀ tag value, tag ≠ 8 → tag ≠ 9 → tag ≠ 10 → msg.get tag = some value → SOH ∉ utf8 value
  begun : ∀ field ∈ begunFields msg,
    field.1 = 8 ∨ field.1 = 9 ∨ field.1 = 10 ∨ (msg.get field.1).isSome

/-- A value that was read holds no separator. -/
theorem not_mem_of_mem_fields {bytes : List UInt8} {field : UInt32 × String}
    (h : field ∈ fields bytes) : SOH ∉ utf8 field.2 := by
  obtain ⟨chunk, hchunk, hfield⟩ := mem_fields.mp h
  obtain ⟨tagStr, hbytes, -⟩ := exists_of_parseField hfield
  have hsoh := (infix_of_mem_splitOn hchunk).2
  rw [hbytes] at hsoh
  exact fun hin => hsoh (List.mem_append_right _ (List.mem_cons_of_mem _ hin))

/-- **What other tags get of a written field**: the fields among the chunks of the value but the
first. -/
theorem lastValue_wire_singleton {tag t : UInt32} (ht : t ≠ tag) (value : String) :
    lastValue t (fields (wire [(tag, value)])) =
      lastValue t (fieldsOf ((utf8 value).splitOn SOH).tail) := by
  have hwire : wire [(tag, value)] = tagMark tag ++ utf8 value ++ SOH :: [] := by
    rw [wire_cons, wire_nil, fieldBytes_eq]
  obtain ⟨head, tail, hsplit⟩ := List.exists_cons_of_ne_nil (List.splitOn_ne_nil SOH (utf8 value))
  have hchunks : (tagMark tag ++ utf8 value).splitOn SOH = [tagMark tag ++ head] ++ tail := by
    rw [splitOn_append_of_not_mem (not_mem_tagMark tag), hsplit]
    rfl
  rw [hwire, fields_append_cons, fields_nil, List.append_nil, fields, hchunks, fieldsOf_append,
    SortedMap.lastValue_append, lastValue_tagMark ht, Option.or_none, hsplit, List.tail_cons]

theorem fields_serialize (msg : FixMessage) : fields (serialize msg) =
    fields (wire [(8, writtenBegin msg)]) ++ ((9, toString (serializeBody msg).length) ::
      fields (wire (bodyFields msg)) ++ [(10, checksumText (writtenChecksum msg))]) := by
  have hparts : serialize msg = wire [(8, writtenBegin msg)] ++
      (wire [(9, toString (serializeBody msg).length)] ++ (wire (bodyFields msg) ++
        wire [(10, checksumText (writtenChecksum msg))])) := by
    rw [serialize_eq_wire, ← wire_append, ← wire_append, ← wire_append]
    rfl
  have hlen : fields (wire [(9, toString (serializeBody msg).length)]) =
      [(9, toString (serializeBody msg).length)] := fields_wire fun f hf => by
    rw [List.mem_singleton.mp hf]
    exact not_mem_utf8_toString _
  have hsum : fields (wire [(10, checksumText (writtenChecksum msg))]) =
      [(10, checksumText (writtenChecksum msg))] := fields_wire fun f hf => by
    rw [List.mem_singleton.mp hf]
    exact not_mem_utf8_digits isDigit_of_mem_leftpad
  rw [hparts, fields_append (closed_wire _), fields_append (closed_wire _),
    fields_append (closed_wire _), hlen, hsum]
  rfl

theorem get?_bodyMap_of_ne {tag : UInt32} (h8 : tag ≠ 8) (h9 : tag ≠ 9) (h10 : tag ≠ 10) :
    (bodyMap msg).get? tag = msg.get tag := by
  rw [get?_bodyMap, if_neg (by simp [h8, h9, h10])]

/-- **What is read back** when no value of the body holds the separator: the message's own field,
or one that its version wrote. -/
theorem lastValue_fields_serialize (hbody : ∀ f ∈ bodyFields msg, SOH ∉ utf8 f.2) {tag : UInt32}
    (h8 : tag ≠ 8) (h9 : tag ≠ 9) (h10 : tag ≠ 10) :
    lastValue tag (fields (serialize msg)) =
      (msg.get tag).or (lastValue tag (begunFields msg)) := by
  have hmap := SortedMap.lastValue_entries (bodyMap msg) tag
  rw [get?_bodyMap_of_ne h8 h9 h10] at hmap
  rw [fields_serialize, fields_wire hbody, SortedMap.lastValue_append, SortedMap.lastValue_append,
    SortedMap.lastValue_singleton, if_neg (Ne.symm h10), ← List.singleton_append,
    SortedMap.lastValue_append, SortedMap.lastValue_singleton, if_neg (Ne.symm h9), Option.none_or,
    Option.or_none, lastValue_wire_singleton h8]
  rw [bodyFields, hmap]
  rfl

theorem not_mem_bodyFields_iff : (∀ f ∈ bodyFields msg, SOH ∉ utf8 f.2) ↔
    ∀ tag value, tag ≠ 8 → tag ≠ 9 → tag ≠ 10 → msg.get tag = some value → SOH ∉ utf8 value := by
  constructor
  · intro h tag value h8 h9 h10 hget
    rw [← get?_bodyMap_of_ne h8 h9 h10] at hget
    exact h (tag, value) (SortedMap.mem_entries_iff.mpr hget)
  · rintro h ⟨tag, value⟩ hmem
    have hget := SortedMap.mem_entries_iff.mp hmem
    rw [get?_bodyMap] at hget
    split_ifs at hget with htag
    simp only [not_or] at htag
    exact h tag value htag.1 htag.2.2 htag.2.1 hget

/-- **When no value surfaces as a field.** A serialised message that is read back has the tags and
values of the message, the envelope's aside, exactly when no value of its body holds the separator
and no tag that its version writes is missing from the message. -/
theorem no_injection_iff {m : FixMessage} (h : parse (serialize msg) = .ok m) :
    (∀ tag, tag ≠ 8 → tag ≠ 9 → tag ≠ 10 → m.get tag = msg.get tag) ↔ Inert msg := by
  obtain ⟨hm, -⟩ := parse_eq_ok_iff.mp h
  obtain ⟨-, rfl⟩ := parseFields_eq_ok_iff.mp hm
  constructor
  · intro hsame
    have hbody : ∀ tag value, tag ≠ 8 → tag ≠ 9 → tag ≠ 10 → msg.get tag = some value →
        SOH ∉ utf8 value := by
      intro tag value h8 h9 h10 hget
      rw [← hsame tag h8 h9 h10, get_ofFields] at hget
      exact not_mem_of_mem_fields (SortedMap.mem_of_lastValue hget)
    refine ⟨hbody, fun field hfield => ?_⟩
    by_contra hnew
    simp only [not_or] at hnew
    obtain ⟨h8, h9, h10, hnone⟩ := hnew
    obtain ⟨last, hlast⟩ := SortedMap.exists_lastValue (k := field.1) (v := field.2) hfield
    have hget := hsame field.1 h8 h9 h10
    rw [get_ofFields, lastValue_fields_serialize (not_mem_bodyFields_iff.mpr hbody) h8 h9 h10,
      hlast, Option.not_isSome_iff_eq_none.mp hnone] at hget
    exact Option.some_ne_none _ hget
  · intro hinert tag h8 h9 h10
    rw [get_ofFields,
      lastValue_fields_serialize (not_mem_bodyFields_iff.mpr hinert.body) h8 h9 h10]
    cases hget : msg.get tag with
    | some value => rfl
    | none =>
      refine Option.eq_none_iff_forall_ne_some.mpr fun value hvalue => ?_
      rcases hinert.begun _ (SortedMap.mem_of_lastValue hvalue) with h | h | h | h
      · exact h8 h
      · exact h9 h
      · exact h10 h
      · rw [hget] at h
        exact Bool.false_ne_true h

theorem no_injection_iff_plain :
    let msg := (FixMessage.new.insert 35 "D").insert 58 "9=10="
    (∀ tag, tag ≠ 8 → tag ≠ 9 → tag ≠ 10 →
      (((msg.insert 8 fix44BeginString).insert 9 "14").insert 10 "166").get tag = msg.get tag) ↔
        Inert msg :=
  no_injection_iff (by decide)

/-- A separator in the message type writes a field 55. -/
theorem separator_injects :
    ∃ m, parse (serialize (FixMessage.new.insert 35 "D\x0155=EVIL")) = .ok m ∧
      m.get 55 = some "EVIL" ∧ (FixMessage.new.insert 35 "D\x0155=EVIL").get 55 = none := by
  refine ⟨ofFields [(8, "FIX.4.4"), (9, "13"), (35, "D"), (55, "EVIL"), (10, "190")], ?_, ?_, ?_⟩
  · decide
  · decide
  · decide

end AliceLedger.Fix
