import AliceLedger.Fix.Integrity

/-!
# Offsets and fields

The parser reads its envelope fields from the map of all fields, where the last of a tag wins, and
the verified bytes from two searches of its own. What it checks is that the number in field 9 is
the number of bytes between the two offsets. That the offsets are those of the fields 9 and 10 is
not checked: the first search takes the first `9=` wherever it stands, in another tag or in a
value, and the second takes `10=` literally. They agree exactly when that `9=` is in a field 9 that
no later one changes, and no field 10 follows the last one written `10=…` (`offsets_agree_iff`).
-/

namespace AliceLedger.Fix

open Delimited
open SortedMap (lastValue)

variable {bytes before value rest covered after : List UInt8}

/-- The chunk that the `SOH` before an index ends. -/
def chunkBefore (bytes : List UInt8) (k : ℕ) : List UInt8 :=
  (bytes.take (k - 1)).rtakeWhile (· ≠ SOH)

/-- The chunk that begins at an index. -/
def chunkAt (bytes : List UInt8) (k : ℕ) : List UInt8 := (bytes.drop k).takeWhile (· ≠ SOH)

/-- What follows the chunk that begins at an index. -/
def afterChunk (bytes : List UInt8) (k : ℕ) : List UInt8 := (bytes.drop k).dropWhile (· ≠ SOH)

/-- The field that ends where the body begins is a field 9 with the value the message has, the one
that begins where the body ends is the last field 10 and the message has its value, and the number
in field 9 is that of the bytes between. -/
structure OffsetsAgree (bytes : List UInt8) (m : FixMessage) (bodyStart checksumStart : ℕ) :
    Prop where
  bodyLen : ∃ text, parseField (chunkBefore bytes bodyStart) = .ok (9, text) ∧
    m.get 9 = some text
  checksum : ∃ text, parseField (chunkAt bytes checksumStart) = .ok (10, text) ∧
    m.get 10 = some text
  last : ∀ field ∈ fields (afterChunk bytes checksumStart), field.1 ≠ 10
  counted : bodyStart ≤ checksumStart ∧ ∃ text, m.get 9 = some text ∧
    parseUnsigned (2 ^ 64) text.toList = some (checksumStart - bodyStart)

/-! ## The body length -/

/-- There is no `9=` in a chunk. -/
def noBodyLength (chunk : List UInt8) : Bool := ¬ bodyLengthMark <:+: chunk

/-- The first chunk with a `9=` in it is a field 9, and the fields 9 after it end with its value. -/
def BodyLengthFirst (bytes : List UInt8) : Prop :=
  ∃ chunk post text, (bytes.splitOn SOH).dropWhile noBodyLength = chunk :: post ∧
    parseField chunk = .ok (9, text) ∧ lastValue 9 (fieldsOf (chunk :: post)) = some text

/-- **The first `9=` is in the chunk that ends at the body.** -/
theorem FirstBodyLength.exists_chunks (h : FirstBodyLength bytes before value rest) :
    ∃ pre, bytes.splitOn SOH =
        pre ++ chunkBefore bytes (before.length + value.length + 3) :: rest.splitOn SOH ∧
      (bytes.splitOn SOH).dropWhile noBodyLength =
        chunkBefore bytes (before.length + value.length + 3) :: rest.splitOn SOH := by
  obtain ⟨a, frag, rfl, ha, hfrag⟩ := exists_closed_append SOH before
  have hmark : SOH ∉ bodyLengthMark := by decide
  have hsoh : SOH ∉ frag ++ bodyLengthMark ++ value := by
    simp [hfrag, hmark, h.value]
  have hbytes : bytes = a ++ ((frag ++ bodyLengthMark ++ value) ++ SOH :: rest) := by
    rw [h.eq]
    simp
  have hchunk : chunkBefore bytes ((a ++ frag).length + value.length + 3) =
      frag ++ bodyLengthMark ++ value := by
    have hlen : (a ++ frag).length + value.length + 3 - 1 =
        (a ++ (frag ++ bodyLengthMark ++ value)).length := by
      simp only [bodyLengthMark, List.length_append, List.length_cons, List.length_nil]
      omega
    rw [chunkBefore, hlen, hbytes, ← List.append_assoc a (frag ++ bodyLengthMark ++ value),
      List.take_left, rtakeWhile_append ha hsoh]
  obtain ⟨pre, hpre, hsplit⟩ := splitOn_append_of_closed ha
  have hchunks : bytes.splitOn SOH =
      pre ++ (frag ++ bodyLengthMark ++ value) :: rest.splitOn SOH := by
    rw [hbytes, hsplit, List.splitOn_append_cons_self_of_not_mem hsoh]
  have hno : ∀ c ∈ pre, noBodyLength c = true := fun c hc => decide_eq_true fun hin => by
    have hca : c <:+: a :=
      (infix_of_mem_splitOn (by rw [hpre]; exact List.mem_append_left _ hc)).1
    exact h.first (hin.trans (hca.trans (List.prefix_append a frag).isInfix))
  have hyes : ¬ noBodyLength (frag ++ bodyLengthMark ++ value) = true := by
    simp [noBodyLength]
  refine ⟨pre, by rw [hchunk, hchunks], ?_⟩
  rw [hchunk, hchunks, List.dropWhile_append_of_pos hno, List.dropWhile_cons_of_neg hyes]

theorem FirstBodyLength.bodyLen_iff (h : FirstBodyLength bytes before value rest) :
    (∃ text, parseField (chunkBefore bytes (before.length + value.length + 3)) = .ok (9, text) ∧
      (ofFields (fields bytes)).get 9 = some text) ↔ BodyLengthFirst bytes := by
  obtain ⟨pre, hchunks, hfirst⟩ := h.exists_chunks
  generalize chunkBefore bytes (before.length + value.length + 3) = chunk at *
  -- the fields before that chunk do not matter once it is a field 9
  have hget : ∀ text, parseField chunk = .ok (9, text) → (ofFields (fields bytes)).get 9 =
      lastValue 9 (fieldsOf (chunk :: rest.splitOn SOH)) := by
    intro text hfield
    have hmem : (9, text) ∈ fieldsOf (chunk :: rest.splitOn SOH) := by
      simp [fieldsOf, hfield, Except.toOption]
    obtain ⟨last, hlast⟩ := SortedMap.exists_lastValue hmem
    rw [get_ofFields, fields, hchunks, fieldsOf_append, SortedMap.lastValue_append, hlast]
    rfl
  constructor
  · rintro ⟨text, hfield, hvalue⟩
    exact ⟨chunk, _, text, hfirst, hfield, hget text hfield ▸ hvalue⟩
  · rintro ⟨chunk', post, text, hfirst', hfield, hvalue⟩
    obtain ⟨rfl, rfl⟩ := List.cons.inj (hfirst.symm.trans hfirst')
    exact ⟨text, hfield, (hget text hfield).trans hvalue⟩

/-! ## The checksum -/

/-- No field 10 follows the last chunk written `10=…`. -/
def ChecksumLast (bytes : List UInt8) : Prop :=
  ∀ field ∈ fieldsOf ((bytes.splitOn SOH).rtakeWhile notChecksum), field.1 ≠ 10

theorem LastChecksum.checksum_iff (h : LastChecksum bytes covered after)
    (hw : WellFormed bytes) :
    ((∃ text, parseField (chunkAt bytes covered.length) = .ok (10, text) ∧
        (ofFields (fields bytes)).get 10 = some text) ∧
      ∀ field ∈ fields (afterChunk bytes covered.length), field.1 ≠ 10) ↔ ChecksumLast bytes := by
  obtain ⟨pre, chunk, post, hchunks, hafter, -, hmark, hpost⟩ := h.exists_chunks
  have hdrop : bytes.drop covered.length = after := by
    rw [h.eq, List.drop_left]
  obtain ⟨cs, htake, hdropped⟩ := splitOn_eq_takeWhile_cons SOH after
  obtain ⟨hchunk, rfl⟩ := List.cons.inj (hafter.symm.trans htake)
  have hrest : fields (afterChunk bytes covered.length) = fieldsOf post := by
    rw [afterChunk, hdrop, fields, hdropped, fieldsOf, List.filterMap_cons, parseField_nil]
    rfl
  rw [ChecksumLast, hrest, chunkAt, hdrop, ← hchunk, hchunks,
    (rtakeWhile_notChecksum pre hmark hpost).1]
  refine and_iff_right_of_imp fun hlast => ?_
  have hne : chunk ≠ [] := by
    rintro rfl
    exact absurd hmark (by decide)
  obtain ⟨field, hfield⟩ := hw chunk (by rw [hchunks]; simp) hne
  have hten := parseField_of_checksumMark hmark hfield
  have hnone : lastValue 10 (fieldsOf post) = none :=
    Option.eq_none_iff_forall_ne_some.mpr fun text htext =>
      hlast _ (SortedMap.mem_of_lastValue htext) rfl
  refine ⟨field.2, by rw [hfield, ← hten], ?_⟩
  have hone : fieldsOf [chunk] = [field] := by
    simp [fieldsOf, hfield, Except.toOption]
  rw [get_ofFields, fields, hchunks, List.append_cons, fieldsOf_append, fieldsOf_append,
    SortedMap.lastValue_append, SortedMap.lastValue_append, hnone, hone,
    SortedMap.lastValue_singleton, if_pos hten]
  rfl

/-- **When the offsets are those of the fields.** On an accepted buffer the two searches find the
fields 9 and 10 of the message exactly when the first chunk with a `9=` in it is a field 9 whose
value no later field 9 changes, and no field 10 follows the last chunk written `10=…`. -/
theorem offsets_agree_iff {m : FixMessage} (h : parse bytes = .ok m) :
    ∃ bodyStart checksumStart, findBodyStart 0 bytes = some bodyStart ∧
      findChecksumStart bytes = some checksumStart ∧
      (OffsetsAgree bytes m bodyStart checksumStart ↔
        BodyLengthFirst bytes ∧ ChecksumLast bytes) := by
  obtain ⟨hm, _, body, covered, _, hh, -, hsplit, -⟩ := parse_eq_ok_iff.mp h
  obtain ⟨hw, rfl⟩ := parseFields_eq_ok_iff.mp hm
  obtain ⟨before, value, rest, after, hb, hc, hcovered⟩ := exists_of_splitForVerification hsplit
  refine ⟨before.length + value.length + 3, covered.length,
    findBodyStart_eq_some_iff.mpr ⟨before, value, rest, hb, rfl⟩,
    findChecksumStart_eq_some_iff.mpr ⟨covered, after, hc, rfl⟩, ?_⟩
  rw [← hb.bodyLen_iff, ← hc.checksum_iff hw]
  have hlen : covered.length = before.length + value.length + 3 + body.length := by
    rw [hcovered, List.length_append, length_beforeBody]
  constructor
  · exact fun hagree => ⟨hagree.bodyLen, hagree.checksum, hagree.last⟩
  · rintro ⟨hbody, hchecksum, hlast⟩
    refine ⟨hbody, hchecksum, hlast, by omega, ?_⟩
    rw [hlen, Nat.add_sub_cancel_left]
    exact hh.bodyLen

theorem offsets_agree_iff_plain :
    ∃ bodyStart checksumStart,
      findBodyStart 0 (utf8 "8=FIX.4.4\x019=5\x0135=D\x0110=183\x01") = some bodyStart ∧
      findChecksumStart (utf8 "8=FIX.4.4\x019=5\x0135=D\x0110=183\x01") = some checksumStart ∧
      (OffsetsAgree (utf8 "8=FIX.4.4\x019=5\x0135=D\x0110=183\x01")
          (ofFields [(8, "FIX.4.4"), (9, "5"), (35, "D"), (10, "183")]) bodyStart checksumStart ↔
        BodyLengthFirst (utf8 "8=FIX.4.4\x019=5\x0135=D\x0110=183\x01") ∧
          ChecksumLast (utf8 "8=FIX.4.4\x019=5\x0135=D\x0110=183\x01")) :=
  offsets_agree_iff (by decide)

/-- A field 49 before the body length: the first `9=` is in its tag, and the body that is counted
begins after it, with the field 9. -/
theorem body_begins_after_sender :
    ∃ m, parse (utf8 "8=A\x0149=X\x019=4\x0110=101\x01") = .ok m ∧
      findBodyStart 0 (utf8 "8=A\x0149=X\x019=4\x0110=101\x01") = some 9 ∧
      findChecksumStart (utf8 "8=A\x0149=X\x019=4\x0110=101\x01") = some 13 ∧
      ¬ OffsetsAgree (utf8 "8=A\x0149=X\x019=4\x0110=101\x01") m 9 13 := by
  refine ⟨ofFields [(8, "A"), (49, "X"), (9, "4"), (10, "101")], by decide, by decide, by decide,
    fun h => ?_⟩
  obtain ⟨text, hfield, -⟩ := h.bodyLen
  have hsender : parseField (chunkBefore (utf8 "8=A\x0149=X\x019=4\x0110=101\x01") 9) =
      .ok (49, "X") := by decide
  rw [hsender] at hfield
  have htag : (49 : UInt32) = 9 := congrArg Prod.fst (Except.ok.inj hfield)
  exact absurd htag (by decide)

end AliceLedger.Fix
