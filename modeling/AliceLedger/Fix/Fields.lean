import AliceLedger.Fix.Model

/-!
# The fields of a buffer

The parser's map in terms of the buffer. The chunks of a buffer that are fields, in order, are its
`fields`; a buffer whose chunks are all fields is `WellFormed`. The first scan succeeds on exactly
these and returns the last value of each tag (`parseFields_eq_ok_iff`, `get_ofFields`). Fields and
well-formedness are read part by part at a boundary (`fields_append`, `wellFormed_append`).

`parse` reads on when the envelope fields are there and numeric (`Header`, `parse_of_header`), and
otherwise rejects the buffer (`parse_of_not_admitted`); what it accepts is `parse_eq_ok_iff`.
-/

namespace AliceLedger.Fix

open Delimited (Closed filterMap_splitOn_append mem_splitOn_append splitOnce splitOnce_append
  splitOnce_eq_some)
open SortedMap (lastValue)

/-- The fields among chunks, in order. -/
def fieldsOf (chunks : List (List UInt8)) : List (UInt32 × String) :=
  chunks.filterMap fun chunk => (parseField chunk).toOption

/-- The fields of a buffer, in order. -/
def fields (bytes : List UInt8) : List (UInt32 × String) := fieldsOf (bytes.splitOn SOH)

theorem fieldsOf_append (cs ds : List (List UInt8)) :
    fieldsOf (cs ++ ds) = fieldsOf cs ++ fieldsOf ds :=
  List.filterMap_append

/-- Every chunk is a field. -/
def WellFormed (bytes : List UInt8) : Prop :=
  ∀ chunk ∈ bytes.splitOn SOH, chunk ≠ [] → ∃ field, parseField chunk = .ok field

/-- The message with given fields, the last of a tag winning. -/
def ofFields (fs : List (UInt32 × String)) : FixMessage := ⟨SortedMap.empty.insertAll fs⟩

theorem parseField_nil : (parseField []).toOption = none := rfl

theorem mem_fields {bytes : List UInt8} {field : UInt32 × String} :
    field ∈ fields bytes ↔ ∃ chunk ∈ bytes.splitOn SOH, parseField chunk = .ok field := by
  simp only [fields, fieldsOf, List.mem_filterMap]
  refine exists_congr fun chunk => and_congr_right fun _ => ?_
  cases parseField chunk <;> simp [Except.toOption]

theorem get_ofFields (fs : List (UInt32 × String)) (tag : UInt32) :
    (ofFields fs).get tag = lastValue tag fs := by
  change (SortedMap.empty.insertAll fs).get? tag = _
  rw [SortedMap.get?_insertAll, SortedMap.get?_empty, Option.or_none]

/-! ## Reading one field -/

/-- The bytes of a field, without its separator. -/
def fieldBytes (tag : UInt32) (value : String) : List UInt8 :=
  utf8 (toString tag.toNat) ++ [0x3d] ++ utf8 value

theorem utf8_toString_concat (tag : UInt32) (value : String) :
    fieldBytes tag value =
      utf8 (String.ofList (Nat.toDigits 10 tag.toNat ++ '=' :: value.toList)) := by
  rw [fieldBytes, Nat.toString_eq_ofList_toDigits, String.ofList_append, utf8_append,
    utf8_ofList_cons (by decide), String.ofList_toList, List.append_assoc]
  rfl

/-- **A written field is read back.** -/
theorem parseField_fieldBytes (tag : UInt32) (value : String) :
    parseField (fieldBytes tag value) = .ok (tag, value) := by
  have hne : '=' ∉ Nat.toDigits 10 tag.toNat := fun h =>
    absurd (isDigit_of_mem_toDigits _ h) (by decide)
  have hsplit := splitOnce_append hne value.toList
  have htag := parseUnsigned_toDigits (show tag.toNat < 2 ^ 32 from tag.toNat_lt)
  rw [utf8_toString_concat, parseField, fromUtf8_utf8]
  simp only [String.toList_ofList, hsplit, htag, UInt32.ofNat_toNat, String.ofList_toList]

/-- A tag as it is written, with the `=` after it. -/
def tagMark (tag : UInt32) : List UInt8 := utf8 (toString tag.toNat) ++ [0x3d]

theorem fieldBytes_eq (tag : UInt32) (value : String) :
    fieldBytes tag value = tagMark tag ++ utf8 value := rfl

theorem tagMark_nine : tagMark 9 = bodyLengthMark := by decide

theorem tagMark_ten : tagMark 10 = checksumMark := by decide

/-- **A chunk that begins with a written tag** is a field of this tag when it is a field at all. -/
theorem parseField_tagMark {tag : UInt32} {tail : List UInt8} {field : UInt32 × String}
    (h : parseField (tagMark tag ++ tail) = .ok field) :
    ∃ value, utf8 value = tail ∧ field = (tag, value) := by
  cases hs : fromUtf8 (tagMark tag ++ tail) with
  | none =>
    rw [parseField, hs] at h
    cases h
  | some s =>
    have hmark : utf8 s =
        utf8 (String.ofList (Nat.toDigits 10 tag.toNat ++ ['='])) ++ tail := by
      rw [fromUtf8_eq_some_iff.mp hs, tagMark, Nat.toString_eq_ofList_toDigits,
        String.ofList_append, utf8_append]
      rfl
    have hascii : ∀ c ∈ Nat.toDigits 10 tag.toNat ++ ['='], c.val ≤ 0x7f := fun c hc => by
      rcases List.mem_append.mp hc with hc | hc
      · exact ascii_of_isDigit (isDigit_of_mem_toDigits c hc)
      · rw [List.mem_singleton.mp hc]
        decide
    obtain ⟨value, rfl, -⟩ := exists_of_utf8_eq_append hascii hmark
    rw [← fieldBytes_eq, parseField_fieldBytes] at h
    exact ⟨value, rfl, (Except.ok.inj h).symm⟩

/-- Such a chunk says nothing of other tags. -/
theorem lastValue_tagMark {tag t : UInt32} (ht : t ≠ tag) (tail : List UInt8) :
    lastValue t (fieldsOf [tagMark tag ++ tail]) = none := by
  cases hfield : parseField (tagMark tag ++ tail) with
  | error e => simp [fieldsOf, hfield, Except.toOption, lastValue]
  | ok field =>
    obtain ⟨value, -, rfl⟩ := parseField_tagMark hfield
    simp [fieldsOf, hfield, Except.toOption, lastValue, Ne.symm ht]

/-- A chunk written `10=…` is a checksum field when it is a field at all. -/
theorem parseField_of_checksumMark {chunk : List UInt8} {field : UInt32 × String}
    (hmark : checksumMark <+: chunk) (h : parseField chunk = .ok field) : field.1 = 10 := by
  obtain ⟨tail, rfl⟩ := hmark
  rw [← tagMark_ten] at h
  obtain ⟨value, -, rfl⟩ := parseField_tagMark h
  rfl

/-- A field is its tag as text, `=` and its value. -/
theorem exists_of_parseField {chunk : List UInt8} {field : UInt32 × String}
    (h : parseField chunk = .ok field) : ∃ tagStr,
      chunk = utf8 (String.ofList tagStr) ++ 0x3d :: utf8 field.2 ∧
        ∃ tag, parseUnsigned (2 ^ 32) tagStr = some tag ∧ field.1 = UInt32.ofNat tag := by
  cases hs : fromUtf8 chunk with
  | none =>
    rw [parseField, hs] at h
    cases h
  | some s =>
    simp only [parseField, hs] at h
    cases hsplit : splitOnce '=' s.toList with
    | none =>
      rw [hsplit] at h
      cases h
    | some p =>
      obtain ⟨tagStr, value⟩ := p
      simp only [hsplit] at h
      cases htag : parseUnsigned (2 ^ 32) tagStr with
      | none =>
        rw [htag] at h
        cases h
      | some tag =>
        rw [htag] at h
        obtain rfl := Except.ok.inj h
        refine ⟨tagStr, ?_, tag, htag, rfl⟩
        have hchars : s = String.ofList tagStr ++ String.ofList ('=' :: value) := by
          rw [← String.ofList_append, ← splitOnce_eq_some hsplit, String.ofList_toList]
        rw [← fromUtf8_eq_some_iff.mp hs, hchars, utf8_append, utf8_ofList_cons (by decide)]
        rfl

/-! ## The first scan -/

theorem readChunk_of_error {chunk : List UInt8} {e : FixError} (h : parseField chunk = .error e)
    (hne : chunk ≠ []) (msg : FixMessage) : readChunk msg chunk = .error e := by
  rw [readChunk, if_neg hne, h]
  rfl

theorem readChunk_of_ok {chunk : List UInt8} {field : UInt32 × String}
    (h : parseField chunk = .ok field) (msg : FixMessage) :
    readChunk msg chunk = .ok (msg.insert field.1 field.2) := by
  have hne : chunk ≠ [] := by
    rintro rfl
    cases h
  rw [readChunk, if_neg hne, h]
  rfl

theorem foldlM_readChunk {chunks : List (List UInt8)} {msg m : FixMessage} :
    chunks.foldlM readChunk msg = .ok m ↔
      (∀ chunk ∈ chunks, chunk ≠ [] → ∃ field, parseField chunk = .ok field) ∧
        m = ⟨msg.fields.insertAll (fieldsOf chunks)⟩ := by
  induction chunks generalizing msg with
  | nil =>
    constructor
    · intro h
      exact ⟨by simp, (Except.ok.inj h).symm⟩
    · rintro ⟨-, rfl⟩
      rfl
  | cons chunk chunks ih =>
    rw [List.foldlM_cons, List.forall_mem_cons, fieldsOf, List.filterMap_cons]
    cases hfield : parseField chunk with
    | error e =>
      by_cases hne : chunk = []
      · rw [hne]
        change chunks.foldlM readChunk msg = .ok m ↔ _
        rw [ih]
        simp [fieldsOf, Except.toOption]
      · rw [readChunk_of_error hfield hne]
        refine iff_of_false (fun h => ?_) (fun h => ?_)
        · cases h
        · obtain ⟨field, hf⟩ := h.1.1 hne
          cases hf
    | ok field =>
      rw [readChunk_of_ok hfield]
      change chunks.foldlM readChunk (msg.insert field.1 field.2) = .ok m ↔ _
      rw [ih]
      simp [FixMessage.insert, SortedMap.insertAll, fieldsOf, Except.toOption]

/-- **The first scan** succeeds on well-formed buffers and returns the last value of each tag. -/
theorem parseFields_eq_ok_iff {bytes : List UInt8} {m : FixMessage} :
    parseFields bytes = .ok m ↔ WellFormed bytes ∧ m = ofFields (fields bytes) :=
  foldlM_readChunk

/-! ## Parts at a boundary -/

theorem fields_append {a : List UInt8} (h : Closed SOH a) (b : List UInt8) :
    fields (a ++ b) = fields a ++ fields b :=
  filterMap_splitOn_append parseField_nil h b

theorem fields_nil : fields [] = [] := rfl

theorem fields_of_not_mem {c : List UInt8} (h : SOH ∉ c) : fields c = fieldsOf [c] := by
  rw [fields, List.splitOn_eq_singleton h]

theorem fields_append_cons (a b : List UInt8) : fields (a ++ SOH :: b) = fields a ++ fields b := by
  rw [fields, List.splitOn_append_cons_self, fieldsOf_append, fields, fields]

theorem wellFormed_append {a b : List UInt8} (h : Closed SOH a) :
    WellFormed (a ++ b) ↔ WellFormed a ∧ WellFormed b := by
  constructor
  · intro hab
    exact ⟨fun c hc hne => hab c ((mem_splitOn_append h hne).mpr (.inl hc)) hne,
      fun c hc hne => hab c ((mem_splitOn_append h hne).mpr (.inr hc)) hne⟩
  · rintro ⟨ha, hb⟩ c hc hne
    rcases (mem_splitOn_append h hne).mp hc with hc | hc
    · exact ha c hc hne
    · exact hb c hc hne

/-! ## The envelope fields -/

/-- The envelope fields of a message, the numeric ones read. -/
structure Header (m : FixMessage) (beginString : String) (bodyLen checksum : ℕ) : Prop where
  beginString : m.get 8 = some beginString
  bodyLen : ∃ text, m.get 9 = some text ∧ parseUnsigned (2 ^ 64) text.toList = some bodyLen
  checksum : ∃ text, m.get 10 = some text ∧ parseUnsigned (2 ^ 32) text.toList = some checksum

theorem required_of_some {m : FixMessage} {tag : UInt32} {value : String}
    (h : m.get tag = some value) : required m tag = .ok value := by
  rw [required, h]

theorem required_of_none {m : FixMessage} {tag : UInt32} (h : m.get tag = none) :
    required m tag = .error (.error (.missingField tag)) := by
  rw [required, h]

theorem numeric_of_some {bound n : ℕ} {text : String}
    (h : parseUnsigned bound text.toList = some n) : numeric bound text = .ok n := by
  rw [numeric, h]

theorem numeric_of_none {bound : ℕ} {text : String}
    (h : parseUnsigned bound text.toList = none) :
    numeric bound text = .error (.error (.malformedField text)) := by
  rw [numeric, h]

theorem parse_of_header {bytes : List UInt8} {m : FixMessage} {beginString : String} {n cs : ℕ}
    (hm : parseFields bytes = .ok m) (h : Header m beginString n cs) :
    parse bytes = (splitForVerification bytes).bind fun (bodyBytes, checksumBytes) =>
      if bodyBytes.length ≠ n then .error (.error (.bodyLengthMismatch n bodyBytes.length))
      else if checksum checksumBytes ≠ UInt32.ofNat cs then
        .error (.error (.checksumMismatch (UInt32.ofNat cs) (checksum checksumBytes)))
      else if beginString = "" then .error (.error (.missingField 8))
      else .ok m := by
  obtain ⟨text9, h9, hn⟩ := h.bodyLen
  obtain ⟨text10, h10, hcs⟩ := h.checksum
  simp only [parse, hm, Except.mapError, bind, Except.bind, required_of_some h.beginString,
    required_of_some h9, required_of_some h10, numeric_of_some hn, numeric_of_some hcs]

/-- The buffers the parser reads on: well-formed, with the three envelope fields, and numbers in
the fields 9 and 10. -/
def Admitted (bytes : List UInt8) : Prop :=
  WellFormed bytes ∧ ∃ beginString n cs, Header (ofFields (fields bytes)) beginString n cs

theorem parse_of_not_admitted {bytes : List UInt8} (h : ¬ Admitted bytes) :
    ∃ e, parse bytes = .error (.error e) := by
  simp only [parse, bind]
  cases hm : parseFields bytes with
  | error e => exact ⟨e, rfl⟩
  | ok m =>
    obtain ⟨hw, rfl⟩ := parseFields_eq_ok_iff.mp hm
    simp only [Except.mapError, Except.bind]
    cases h8 : (ofFields (fields bytes)).get 8 with
    | none => exact ⟨_, by rw [required_of_none h8]⟩
    | some beginString =>
      cases h9 : (ofFields (fields bytes)).get 9 with
      | none => exact ⟨_, by rw [required_of_some h8, required_of_none h9]⟩
      | some text9 =>
        cases h10 : (ofFields (fields bytes)).get 10 with
        | none =>
          exact ⟨_, by rw [required_of_some h8, required_of_some h9, required_of_none h10]⟩
        | some text10 =>
          simp only [required_of_some h8, required_of_some h9, required_of_some h10]
          cases hn : parseUnsigned (2 ^ 64) text9.toList with
          | none => exact ⟨_, by rw [numeric_of_none hn]⟩
          | some n =>
            cases hcs : parseUnsigned (2 ^ 32) text10.toList with
            | none => exact ⟨_, by simp only [numeric_of_some hn, numeric_of_none hcs]; rfl⟩
            | some cs =>
              exact absurd ⟨hw, beginString, n, cs, h8, ⟨text9, h9, hn⟩, ⟨text10, h10, hcs⟩⟩ h

/-- **What the parser accepts.** -/
theorem parse_eq_ok_iff {bytes : List UInt8} {m : FixMessage} :
    parse bytes = .ok m ↔
      parseFields bytes = .ok m ∧ ∃ beginString body covered cs,
        Header m beginString body.length cs ∧ beginString ≠ "" ∧
          splitForVerification bytes = .ok (body, covered) ∧
          checksum covered = UInt32.ofNat cs := by
  constructor
  · intro h
    have hadm : Admitted bytes := by
      by_contra hadm
      obtain ⟨e, he⟩ := parse_of_not_admitted hadm
      rw [he] at h
      cases h
    obtain ⟨hw, beginString, n, cs, hh⟩ := hadm
    have hm := parseFields_eq_ok_iff.mpr ⟨hw, rfl⟩
    rw [parse_of_header hm hh] at h
    cases hsplit : splitForVerification bytes with
    | error e =>
      rw [hsplit] at h
      cases h
    | ok p =>
      obtain ⟨body, covered⟩ := p
      rw [hsplit] at h
      simp only [Except.bind] at h
      split_ifs at h with h1 h2 h3
      obtain rfl := Except.ok.inj h
      obtain rfl := not_not.mp h1
      exact ⟨hm, beginString, body, covered, cs, hh, h3, rfl, not_not.mp h2⟩
  · rintro ⟨hm, beginString, body, covered, cs, hh, hne, hsplit, hcs⟩
    rw [parse_of_header hm hh, hsplit]
    simp only [Except.bind]
    rw [if_neg (not_not.mpr rfl), if_neg (not_not.mpr hcs), if_neg hne]

end AliceLedger.Fix
