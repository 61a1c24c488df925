import AliceLedger.Fix.Fields

/-!
# Written messages

The wire form of a list of fields (`wire`). Cutting it gives the fields back, as long as no value
holds the separator (`splitOn_wire`), so it is well-formed with just these fields
(`wellFormed_wire`, `fields_wire`). The serialiser writes the wire form of the envelope around the
message's other fields in tag order (`serialize_eq_wire`).
-/

namespace AliceLedger.Fix

open Delimited

/-- The wire form of fields. -/
def wire (fs : List (UInt32 × String)) : List UInt8 :=
  (fs.map fun f => fieldBytes f.1 f.2).flatMap (· ++ [SOH])

@[simp] theorem wire_nil : wire [] = [] := rfl

theorem wire_cons (f : UInt32 × String) (fs : List (UInt32 × String)) :
    wire (f :: fs) = fieldBytes f.1 f.2 ++ SOH :: wire fs := by
  simp [wire]

theorem wire_append (fs gs : List (UInt32 × String)) : wire (fs ++ gs) = wire fs ++ wire gs := by
  simp [wire]

theorem closed_wire (fs : List (UInt32 × String)) : Closed SOH (wire fs) :=
  closed_terminated SOH _

/-! ## Reading written fields -/

section Read

variable {fs : List (UInt32 × String)}

theorem not_mem_utf8_digits {cs : List Char} (h : ∀ c ∈ cs, c.isDigit) :
    SOH ∉ utf8 (String.ofList cs) := fun hsoh =>
  absurd (mem_utf8_digits h hsoh).1 (by decide)

theorem not_mem_utf8_toString (n : ℕ) : SOH ∉ utf8 (toString n) := by
  rw [Nat.toString_eq_ofList_toDigits]
  exact not_mem_utf8_digits isDigit_of_mem_toDigits

theorem not_mem_tagMark (tag : UInt32) : SOH ∉ tagMark tag := by
  have heq : SOH ∉ ([0x3d] : List UInt8) := by decide
  rw [tagMark, List.mem_append]
  exact fun hor => hor.elim (not_mem_utf8_toString _) heq

theorem not_mem_fieldBytes {tag : UInt32} {value : String} (h : SOH ∉ utf8 value) :
    SOH ∉ fieldBytes tag value := by
  rw [fieldBytes_eq, List.mem_append]
  exact fun hor => hor.elim (not_mem_tagMark tag) h

theorem splitOn_wire (h : ∀ f ∈ fs, SOH ∉ utf8 f.2) :
    (wire fs).splitOn SOH = (fs.map fun f => fieldBytes f.1 f.2) ++ [[]] := by
  refine splitOn_terminated fun c hc => ?_
  obtain ⟨f, hf, rfl⟩ := List.mem_map.mp hc
  exact not_mem_fieldBytes (h f hf)

theorem wellFormed_wire (h : ∀ f ∈ fs, SOH ∉ utf8 f.2) : WellFormed (wire fs) := by
  intro chunk hchunk hne
  rw [splitOn_wire h, List.mem_append, List.mem_map, List.mem_singleton] at hchunk
  rcases hchunk with ⟨f, -, rfl⟩ | rfl
  · exact ⟨f, parseField_fieldBytes f.1 f.2⟩
  · exact absurd rfl hne

/-- **The fields of a written list are the list.** -/
theorem fields_wire (h : ∀ f ∈ fs, SOH ∉ utf8 f.2) : fields (wire fs) = fs := by
  have hread : ∀ f : UInt32 × String,
      (parseField (fieldBytes f.1 f.2)).toOption = some f := fun f => by
    rw [parseField_fieldBytes]
    rfl
  rw [fields, splitOn_wire h, fieldsOf_append, fieldsOf, List.filterMap_map]
  simp only [Function.comp_def, hread, List.filterMap_some]
  rw [fieldsOf, List.filterMap_cons, parseField_nil]
  simp

end Read

/-! ## The serialiser -/

theorem pushField_eq_wire (buf : List UInt8) (tag : UInt32) (value : String) :
    pushField buf tag value = buf ++ wire [(tag, value)] := by
  simp [pushField, wire, fieldBytes]

/-- A message without the envelope's fields. -/
def bodyMap (msg : FixMessage) : SortedMap UInt32 String :=
  ((msg.fields.erase 9).erase 10).erase 8

theorem get?_bodyMap (msg : FixMessage) (tag : UInt32) :
    (bodyMap msg).get? tag = if tag = 8 ∨ tag = 10 ∨ tag = 9 then none else msg.get tag := by
  rw [bodyMap]
  split_ifs with h
  · rcases h with rfl | rfl | rfl
    · rw [SortedMap.get?_erase_self]
    · rw [SortedMap.get?_erase_of_ne _ (by decide), SortedMap.get?_erase_self]
    · rw [SortedMap.get?_erase_of_ne _ (by decide), SortedMap.get?_erase_of_ne _ (by decide),
        SortedMap.get?_erase_self]
  · simp only [not_or] at h
    rw [SortedMap.get?_erase_of_ne _ h.1, SortedMap.get?_erase_of_ne _ h.2.1,
      SortedMap.get?_erase_of_ne _ h.2.2]
    rfl

/-- The fields of the body: all but the envelope's, in tag order. -/
def bodyFields (msg : FixMessage) : List (UInt32 × String) := (bodyMap msg).entries

theorem foldl_pushField (es : List (UInt32 × String)) (buf : List UInt8) :
    es.foldl (fun body e => if e.1 = 8 then body else pushField body e.1 e.2) buf =
      buf ++ wire (es.filter fun e => e.1 ≠ 8) := by
  induction es generalizing buf with
  | nil => simp
  | cons e es ih =>
    rw [List.foldl_cons, ih, List.filter_cons]
    by_cases h : e.1 = 8
    · simp [h]
    · simp [h, pushField_eq_wire, wire_cons]

theorem serializeBody_eq_wire (msg : FixMessage) : serializeBody msg = wire (bodyFields msg) :=
  foldl_pushField _ []

/-- The fields the checksum sums. -/
def summedFields (msg : FixMessage) : List (UInt32 × String) :=
  (8, (msg.get 8).getD fix44BeginString) :: (9, toString (serializeBody msg).length) ::
    bodyFields msg

/-- The checksum the serialiser writes. -/
def writtenChecksum (msg : FixMessage) : UInt32 := checksum (wire (summedFields msg))

/-- All fields the serialiser writes. -/
def writtenFields (msg : FixMessage) : List (UInt32 × String) :=
  summedFields msg ++ [(10, checksumText (writtenChecksum msg))]

/-- **The serialiser writes** the envelope around the other fields. -/
theorem serialize_eq_wire (msg : FixMessage) : serialize msg = wire (writtenFields msg) := by
  have hsummed : pushField (pushField [] 8 ((msg.get 8).getD fix44BeginString)) 9
      (toString (serializeBody msg).length) ++ serializeBody msg = wire (summedFields msg) := by
    simp only [pushField_eq_wire, summedFields]
    rw [serializeBody_eq_wire, wire_cons, wire_cons]
    simp [wire_cons]
  simp only [serialize]
  rw [hsummed, pushField_eq_wire, writtenFields, wire_append]
  rfl

end AliceLedger.Fix
