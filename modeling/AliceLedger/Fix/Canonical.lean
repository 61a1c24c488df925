import AliceLedger.Fix.RoundTrip

/-!
# The canonical form of a message

The serialiser writes a message under any `BeginString`. Where no value holds an `SOH`, the parser
takes the result back unless the search for the body is misled: the first `9=` of the buffer may be
in the `BeginString` itself, and then the length is counted from the wrong place
(`parse_serialize_eq`, which gives the answer for every such message). So what the parser accepts
can be written again: `serialize` of the message is a canonical form of the buffer, which is read
back as the message, is its own canonical form, and tells apart exactly the messages that differ in
a field other than the length and the checksum (`canonical_form`).
-/

namespace AliceLedger.Fix

open Delimited
open SortedMap (lastValue)

/-- The `BeginString` that the serialiser writes. -/
def beginString (msg : FixMessage) : String := (msg.get 8).getD fix44BeginString

/-- A message with the envelope fields that the serialiser writes, under its own `BeginString`. -/
def enveloped (msg : FixMessage) : FixMessage :=
  ((msg.insert 8 (beginString msg)).insert 9 (toString (serializeBody msg).length)).insert 10
    (checksumText (writtenChecksum msg))

/-! ## The fields written -/

section Written

variable {msg : FixMessage}

theorem get_enveloped (msg : FixMessage) (tag : UInt32) :
    (enveloped msg).get tag =
      if tag = 10 then some (checksumText (writtenChecksum msg))
      else if tag = 9 then some (toString (serializeBody msg).length)
      else if tag = 8 then some (beginString msg)
      else msg.get tag := by
  simp only [enveloped, FixMessage.insert, FixMessage.get]
  split_ifs with h10 h9 h8
  · rw [h10, SortedMap.get?_insert_self]
  · rw [SortedMap.get?_insert_of_ne _ _ h10, h9, SortedMap.get?_insert_self]
  · rw [SortedMap.get?_insert_of_ne _ _ h10, SortedMap.get?_insert_of_ne _ _ h9, h8,
      SortedMap.get?_insert_self]
  · rw [SortedMap.get?_insert_of_ne _ _ h10, SortedMap.get?_insert_of_ne _ _ h9,
      SortedMap.get?_insert_of_ne _ _ h8]

theorem beginString_enveloped (msg : FixMessage) :
    beginString (enveloped msg) = beginString msg := by
  rw [beginString, get_enveloped, if_neg (by decide), if_neg (by decide), if_pos rfl,
    Option.getD_some]

theorem summedFields_eq_append (msg : FixMessage) :
    summedFields msg = [(8, beginString msg), (9, toString (serializeBody msg).length)] ++
      bodyFields msg := rfl

/-- **What is written is the message in its envelope.** -/
theorem ofFields_writtenFields_eq (msg : FixMessage) :
    ofFields (writtenFields msg) = enveloped msg := by
  refine FixMessage.ext_get fun tag => ?_
  rw [get_ofFields, writtenFields, summedFields_eq_append, SortedMap.lastValue_append,
    SortedMap.lastValue_append, SortedMap.lastValue_singleton, bodyFields,
    SortedMap.lastValue_entries, get?_bodyMap, get_enveloped]
  by_cases h10 : tag = 10
  · simp [h10]
  by_cases h9 : tag = 9
  · simp [h9, lastValue]
  by_cases htag : tag = 8
  · simp [htag, lastValue]
  have hne : ∀ k : UInt32, tag ≠ k → k ≠ tag := fun _ => Ne.symm
  simp [lastValue, h10, h9, htag, hne]

/-- Messages that agree outside the length and the checksum are written alike. -/
theorem serialize_congr {msg' : FixMessage} (hbegin : beginString msg = beginString msg')
    (h : ∀ tag, tag ≠ 8 → tag ≠ 9 → tag ≠ 10 → msg.get tag = msg'.get tag) :
    serialize msg = serialize msg' := by
  have hbody : bodyFields msg = bodyFields msg' := by
    refine congrArg SortedMap.entries (SortedMap.ext_get? fun tag => ?_)
    rw [get?_bodyMap, get?_bodyMap]
    split_ifs with htag
    · rfl
    · push Not at htag
      exact h tag htag.1 htag.2.2 htag.2.1
  have hsummed : summedFields msg = summedFields msg' := by
    rw [summedFields_eq_append, summedFields_eq_append, hbegin, serializeBody_eq_wire,
      serializeBody_eq_wire, hbody]
  rw [serialize_eq_wire, serialize_eq_wire, writtenFields, writtenFields, writtenChecksum,
    writtenChecksum, hsummed]

/-- The envelope is written over. -/
theorem serialize_enveloped (msg : FixMessage) : serialize (enveloped msg) = serialize msg :=
  serialize_congr (beginString_enveloped msg) fun tag h8 h9 h10 => by
    rw [get_enveloped, if_neg h10, if_neg h9, if_neg h8]

/-! ## The search for the body -/

/-- A buffer with a mark around its first one. -/
theorem exists_first_mark {mark bytes : List UInt8} (hne : mark ≠ []) (h : mark <:+: bytes) :
    ∃ before value, bytes = before ++ mark ++ value ∧ ¬ mark <:+: before := by
  induction bytes with
  | nil => exact absurd (List.infix_nil.mp h) hne
  | cons b bytes ih =>
    by_cases hpre : mark <+: b :: bytes
    · obtain ⟨value, hvalue⟩ := hpre
      exact ⟨[], value, hvalue.symm, fun hnil => hne (List.infix_nil.mp hnil)⟩
    · obtain ⟨before, value, rfl, hfirst⟩ := ih ((List.infix_cons_iff.mp h).resolve_left hpre)
      refine ⟨b :: before, value, rfl, fun hmark => ?_⟩
      rcases List.infix_cons_iff.mp hmark with hstart | hlater
      · refine hpre (hstart.trans ?_)
        rw [List.append_assoc]
        exact List.prefix_append (b :: before) _
      · exact hfirst hlater

/-- No `9=` begins in the tag of the `BeginString`. -/
theorem infix_tagMark_eight {bytes : List UInt8} :
    bodyLengthMark <:+: tagMark 8 ++ bytes ↔ bodyLengthMark <:+: bytes := by
  have htag : tagMark 8 = [0x38, 0x3d] := by decide
  rw [htag, List.cons_append, List.cons_append, List.nil_append, List.infix_cons_iff,
    List.infix_cons_iff]
  constructor
  · rintro (h | h | h)
    · exact absurd (List.cons_prefix_cons.mp h).1 (by decide)
    · exact absurd (List.cons_prefix_cons.mp h).1 (by decide)
    · exact h
  · exact fun h => .inr (.inr h)

theorem wire_begin (value : String) :
    wire [(8, value)] = tagMark 8 ++ utf8 value ++ [SOH] := by
  rw [wire_cons, wire_nil, fieldBytes_eq]

/-- A `9=` in the field of the `BeginString` is in its value. -/
theorem infix_wire_begin (value : String) :
    bodyLengthMark <:+: wire [(8, value)] ↔ bodyLengthMark <:+: utf8 value := by
  rw [wire_begin, List.append_assoc, infix_tagMark_eight, List.infix_concat_iff]
  refine or_iff_right fun hsuffix => ?_
  have hlast := List.IsSuffix.getLast hsuffix (by decide)
  rw [List.getLast_concat] at hlast
  exact absurd hlast (by decide)

/-- The bytes of a serialised message, at its `BeginString`. -/
theorem serialize_eq_begin (msg : FixMessage) : serialize msg =
    wire [(8, beginString msg)] ++ (wire [(9, toString (serializeBody msg).length)] ++
      (serializeBody msg ++ wire [(10, checksumText (writtenChecksum msg))])) := by
  rw [serialize_eq_append, summedFields_eq_append, wire_append, ← serializeBody_eq_wire]
  simp only [wire_cons, wire_nil]
  simp

/-- The bytes that the checksum sums, at the `BeginString`. -/
theorem wire_summedFields (msg : FixMessage) : wire (summedFields msg) =
    wire [(8, beginString msg)] ++
      (wire [(9, toString (serializeBody msg).length)] ++ serializeBody msg) := by
  rw [summedFields_eq_append, wire_append, ← serializeBody_eq_wire, ← List.append_assoc,
    ← wire_append]
  rfl

/-- With a plain `BeginString` the search cuts after the written length. -/
theorem splitForVerification_of_plain (h : ¬ bodyLengthMark <:+: utf8 (beginString msg)) :
    splitForVerification (serialize msg) = .ok (serializeBody msg, wire (summedFields msg)) := by
  have hlength : wire [(9, toString (serializeBody msg).length)] =
      bodyLengthMark ++ utf8 (toString (serializeBody msg).length) ++ [SOH] := by
    rw [wire_cons, wire_nil, fieldBytes_eq, tagMark_nine]
  have hb : FirstBodyLength (serialize msg) (wire [(8, beginString msg)])
      (utf8 (toString (serializeBody msg).length))
      (serializeBody msg ++ wire [(10, checksumText (writtenChecksum msg))]) := by
    refine ⟨?_, (infix_wire_begin _).not.mpr h, not_mem_utf8_toString _⟩
    rw [serialize_eq_begin, hlength]
    simp
  have hbefore : beforeBody (wire [(8, beginString msg)])
      (utf8 (toString (serializeBody msg).length)) ++ serializeBody msg =
        wire (summedFields msg) := by
    rw [wire_summedFields, hlength, beforeBody]
    simp
  rw [splitForVerification_of_order hb lastChecksum_serialize, ← hbefore, List.drop_left, if_pos]
  rw [List.length_append]
  omega

/-- With a `9=` in the `BeginString` the search cuts after the `BeginString`. -/
theorem splitForVerification_of_marked (hsoh : SOH ∉ utf8 (beginString msg))
    (h : bodyLengthMark <:+: utf8 (beginString msg)) :
    splitForVerification (serialize msg) =
      .ok (wire [(9, toString (serializeBody msg).length)] ++ serializeBody msg,
        wire (summedFields msg)) := by
  obtain ⟨before, value, heq, hfirst⟩ := exists_first_mark (by decide) h
  have hbegin : beforeBody (tagMark 8 ++ before) value = wire [(8, beginString msg)] := by
    rw [wire_begin, heq, beforeBody]
    simp
  have hb : FirstBodyLength (serialize msg) (tagMark 8 ++ before) value
      (wire [(9, toString (serializeBody msg).length)] ++
        (serializeBody msg ++ wire [(10, checksumText (writtenChecksum msg))])) := by
    refine ⟨?_, infix_tagMark_eight.not.mpr hfirst, fun hmem => hsoh ?_⟩
    · rw [serialize_eq_begin, ← hbegin, beforeBody]
      simp
    · rw [heq]
      exact List.mem_append_right _ hmem
  rw [splitForVerification_of_order hb lastChecksum_serialize, hbegin, wire_summedFields,
    List.drop_left, if_pos]
  rw [List.length_append]
  omega

theorem header_enveloped (hlen : (serializeBody msg).length < 2 ^ 64) :
    Header (enveloped msg) (beginString msg) (serializeBody msg).length
      (writtenChecksum msg).toNat := by
  refine ⟨?_, ⟨toString (serializeBody msg).length, ?_, ?_⟩,
    ⟨checksumText (writtenChecksum msg), ?_, ?_⟩⟩
  · simp [get_enveloped]
  · simp [get_enveloped]
  · rw [Nat.toString_eq_ofList_toDigits, String.toList_ofList]
    exact parseUnsigned_toDigits hlen
  · simp [get_enveloped]
  · rw [checksumText, String.toList_ofList]
    exact parseUnsigned_leftpad (toNat_writtenChecksum_lt.trans (by decide)) 3

/-- No written value holds an `SOH` when the message's own do not. -/
theorem soh_of_mem_writtenFields (hvalues : ∀ e ∈ msg.fields.entries, SOH ∉ utf8 e.2) :
    SOH ∉ utf8 (beginString msg) ∧ ∀ f ∈ writtenFields msg, SOH ∉ utf8 f.2 := by
  have hbegin : SOH ∉ utf8 (beginString msg) := by
    rw [beginString]
    cases hget : msg.get 8 with
    | none => decide
    | some value => exact hvalues (8, value) (SortedMap.mem_entries_iff.mpr hget)
  refine ⟨hbegin, fun f hf => ?_⟩
  simp only [writtenFields, summedFields_eq_append, List.cons_append, List.mem_cons,
    List.mem_append, List.not_mem_nil, or_false, List.nil_append] at hf
  rcases hf with rfl | rfl | hf | rfl
  · exact hbegin
  · exact not_mem_utf8_toString _
  · simp only [bodyFields, bodyMap, SortedMap.mem_entries_erase] at hf
    exact hvalues f hf.1.1.1
  · exact not_mem_checksumText msg

theorem length_serializeBody_lt (hlen : (serialize msg).length < 2 ^ 63) :
    (serializeBody msg).length < 2 ^ 64 := by
  rw [serialize_eq_begin] at hlen
  simp only [List.length_append] at hlen
  omega

/-- Before its checks the parser has the message in its envelope. -/
theorem parse_serialize_split (hvalues : ∀ e ∈ msg.fields.entries, SOH ∉ utf8 e.2)
    (hlen : (serialize msg).length < 2 ^ 63) :
    parseFields (serialize msg) = .ok (enveloped msg) ∧
      Header (enveloped msg) (beginString msg) (serializeBody msg).length
        (writtenChecksum msg).toNat := by
  obtain ⟨-, hsoh⟩ := soh_of_mem_writtenFields hvalues
  refine ⟨?_, header_enveloped (length_serializeBody_lt hlen)⟩
  rw [parseFields_eq_ok_iff, serialize_eq_wire, fields_wire hsoh, ofFields_writtenFields_eq]
  exact ⟨wellFormed_wire hsoh, rfl⟩

/-- With a plain `BeginString` only an empty one is refused. -/
theorem parse_serialize_of_plain (hvalues : ∀ e ∈ msg.fields.entries, SOH ∉ utf8 e.2)
    (hlen : (serialize msg).length < 2 ^ 63)
    (hplain : ¬ bodyLengthMark <:+: utf8 (beginString msg)) :
    parse (serialize msg) =
      if beginString msg = "" then .error (.error (.missingField 8)) else .ok (enveloped msg) := by
  obtain ⟨hfields, hheader⟩ := parse_serialize_split hvalues hlen
  rw [parse_of_header hfields hheader, splitForVerification_of_plain hplain]
  simp only [Except.bind]
  rw [if_neg (not_not.mpr rfl), if_neg]
  rw [UInt32.ofNat_toNat, not_not]
  rfl

/-- With a `9=` in the `BeginString` the length does not match. -/
theorem parse_serialize_of_marked (hvalues : ∀ e ∈ msg.fields.entries, SOH ∉ utf8 e.2)
    (hlen : (serialize msg).length < 2 ^ 63) (hmark : bodyLengthMark <:+: utf8 (beginString msg)) :
    parse (serialize msg) =
      .error (.error (.bodyLengthMismatch (serializeBody msg).length
        ((wire [(9, toString (serializeBody msg).length)]).length +
          (serializeBody msg).length))) := by
  obtain ⟨hfields, hheader⟩ := parse_serialize_split hvalues hlen
  rw [parse_of_header hfields hheader,
    splitForVerification_of_marked (soh_of_mem_writtenFields hvalues).1 hmark]
  have hne : (wire [(9, toString (serializeBody msg).length)] ++ serializeBody msg).length ≠
      (serializeBody msg).length := by
    rw [wire_cons, List.length_append, List.length_append, List.length_cons]
    omega
  simp only [Except.bind]
  rw [if_pos hne, List.length_append]

/-- **Reading back what is written.** For every message without an `SOH` in a value the parser
answers as follows. A `BeginString` that holds `9=` misleads the search for the body, and the length
does not match by the bytes of the length field. An empty `BeginString` is missing. Any other
message comes back in its envelope. -/
theorem parse_serialize_eq (hvalues : ∀ e ∈ msg.fields.entries, SOH ∉ utf8 e.2)
    (hlen : (serialize msg).length < 2 ^ 63) :
    parse (serialize msg) =
      if bodyLengthMark <:+: utf8 (beginString msg) then
        .error (.error (.bodyLengthMismatch (serializeBody msg).length
          ((wire [(9, toString (serializeBody msg).length)]).length + (serializeBody msg).length)))
      else if beginString msg = "" then .error (.error (.missingField 8))
      else .ok (enveloped msg) := by
  by_cases hmark : bodyLengthMark <:+: utf8 (beginString msg)
  · rw [if_pos hmark, parse_serialize_of_marked hvalues hlen hmark]
  · rw [if_neg hmark, parse_serialize_of_plain hvalues hlen hmark]

/-- A message of the version that its `BeginString` names, and one that a `9=` misleads. -/
theorem parse_serialize_eq_marked :
    parse (serialize (FixMessage.new.insert 8 "9=9")) =
      .error (.error (.bodyLengthMismatch 0 4)) := by
  have h := @parse_serialize_eq (FixMessage.new.insert 8 "9=9") (by decide) (by decide)
  rw [if_pos (by decide)] at h
  exact h

/-! ## The canonical form -/

/-- The values of a parsed message hold no `SOH`. -/
theorem soh_of_parseFields {bytes : List UInt8} {m : FixMessage} (h : parseFields bytes = .ok m) :
    ∀ e ∈ m.fields.entries, SOH ∉ utf8 e.2 := by
  obtain ⟨-, rfl⟩ := parseFields_eq_ok_iff.mp h
  intro e he
  have hget := SortedMap.mem_entries_iff.mp he
  change (ofFields (fields bytes)).get e.1 = some e.2 at hget
  rw [get_ofFields] at hget
  obtain ⟨chunk, hchunk, hfield⟩ := mem_fields.mp (SortedMap.mem_of_lastValue hget)
  obtain ⟨tagStr, heq, -⟩ := exists_of_parseField hfield
  refine fun hsoh => (infix_of_mem_splitOn hchunk).2 ?_
  rw [heq]
  exact List.mem_append_right _ (List.mem_cons_of_mem _ hsoh)

/-- The `BeginString` of an accepted message is its own, and is not empty. -/
theorem beginString_of_parse {bytes : List UInt8} {m : FixMessage} (h : parse bytes = .ok m) :
    m.get 8 = some (beginString m) ∧ beginString m ≠ "" := by
  obtain ⟨-, text, body, covered, cs, hheader, hne, -⟩ := parse_eq_ok_iff.mp h
  have hget : m.get 8 = some text := hheader.1
  rw [beginString, hget]
  exact ⟨rfl, hne⟩

/-- The envelope of an accepted message keeps its fields but the length and the checksum. -/
theorem get_enveloped_of_parse {bytes : List UInt8} {m : FixMessage} (h : parse bytes = .ok m)
    {tag : UInt32} (h9 : tag ≠ 9) (h10 : tag ≠ 10) : (enveloped m).get tag = m.get tag := by
  rw [get_enveloped, if_neg h10, if_neg h9]
  split_ifs with h8
  · rw [h8, (beginString_of_parse h).1]
  · rfl

/-- An accepted message with a plain `BeginString` is read back in its envelope. -/
theorem parse_serialize_of_parse {bytes : List UInt8} {m : FixMessage} (h : parse bytes = .ok m)
    (hplain : ¬ bodyLengthMark <:+: utf8 (beginString m)) (hlen : (serialize m).length < 2 ^ 63) :
    parse (serialize m) = .ok (enveloped m) := by
  rw [parse_serialize_of_plain (soh_of_parseFields (parse_eq_ok_iff.mp h).1) hlen hplain,
    if_neg (beginString_of_parse h).2]

/-- **The canonical form.** Let the parser accept a buffer, with no `9=` in its `BeginString`. The
message is written to bytes that the parser accepts again, with every field but the length and the
checksum as it was; written once more, that message gives the same bytes. And two such buffers have
the same bytes written exactly when their messages agree in all fields but these two. -/
theorem canonical_form {bytes bytes' : List UInt8} {m m' : FixMessage} (h : parse bytes = .ok m)
    (h' : parse bytes' = .ok m') (hplain : ¬ bodyLengthMark <:+: utf8 (beginString m))
    (hlen : (serialize m).length < 2 ^ 63) :
    (∃ c, parse (serialize m) = .ok c ∧ serialize c = serialize m ∧
      ∀ tag, tag ≠ 9 → tag ≠ 10 → c.get tag = m.get tag) ∧
    (serialize m = serialize m' ↔ ∀ tag, tag ≠ 9 → tag ≠ 10 → m.get tag = m'.get tag) := by
  have hread := parse_serialize_of_parse h hplain hlen
  refine ⟨⟨enveloped m, hread, serialize_enveloped m, fun tag => get_enveloped_of_parse h⟩,
    fun heq tag h9 h10 => ?_, fun hsame => ?_⟩
  · -- the bytes are those of `m'` as well, so its `BeginString` cannot mislead the search
    rw [heq] at hread hlen
    have hplain' : ¬ bodyLengthMark <:+: utf8 (beginString m') := fun hmark => by
      rw [parse_serialize_of_marked (soh_of_parseFields (parse_eq_ok_iff.mp h').1) hlen hmark]
        at hread
      cases hread
    rw [parse_serialize_of_parse h' hplain' hlen] at hread
    rw [← get_enveloped_of_parse h h9 h10, ← Except.ok.inj hread,
      get_enveloped_of_parse h' h9 h10]
  · refine serialize_congr ?_ fun tag _ h9 h10 => hsame tag h9 h10
    rw [beginString, beginString, hsame 8 (by decide) (by decide)]

/-- The canonical form of a buffer with a symbol given twice. -/
theorem canonical_form_repeated :
    let m := ofFields [(8, "A"), (9, "15"), (55, "X"), (55, "Y"), (35, "D"), (10, "127")]
    let m' := ofFields [(8, "A"), (9, "10"), (35, "D"), (55, "Y"), (10, "122")]
    (∃ c, parse (serialize m) = .ok c ∧ serialize c = serialize m ∧
      ∀ tag, tag ≠ 9 → tag ≠ 10 → c.get tag = m.get tag) ∧
    (serialize m = serialize m' ↔ ∀ tag, tag ≠ 9 → tag ≠ 10 → m.get tag = m'.get tag) :=
  have h : parse (utf8 "8=A\x019=15\x0155=X\x0155=Y\x0135=D\x0110=127\x01") =
      .ok (ofFields [(8, "A"), (9, "15"), (55, "X"), (55, "Y"), (35, "D"), (10, "127")]) := by
    decide
  have h' : parse (utf8 "8=A\x019=10\x0135=D\x0155=Y\x0110=122\x01") =
      .ok (ofFields [(8, "A"), (9, "10"), (35, "D"), (55, "Y"), (10, "122")]) := by decide
  canonical_form h h' (by decide) (by decide)

end Written

end AliceLedger.Fix
