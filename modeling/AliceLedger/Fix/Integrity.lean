import AliceLedger.Fix.Envelope

/-!
# What the envelope guarantees

The two slices of the verification are in order exactly when some chunk written `10=…` follows the
body length (`exists_body_iff`), so the parser returns on a buffer unless it comes to slice one
whose last checksum is before its body (`returns_iff`). On the buffers it accepts, a message comes
from the summed bytes alone exactly when the fields after the checksum repeat them (`covered_iff`).
-/

namespace AliceLedger.Fix

open Delimited
open SortedMap (lastValue)

variable {bytes before value rest covered after body : List UInt8}

/-- The bytes up to the body. -/
def beforeBody (before value : List UInt8) : List UInt8 :=
  before ++ bodyLengthMark ++ value ++ [SOH]

theorem length_beforeBody (before value : List UInt8) :
    (beforeBody before value).length = before.length + value.length + 3 := by
  simp only [beforeBody, bodyLengthMark, List.length_append, List.length_cons, List.length_nil]
  omega

theorem FirstBodyLength.eq_append (h : FirstBodyLength bytes before value rest) :
    bytes = beforeBody before value ++ rest := by
  rw [h.eq, beforeBody]
  simp

theorem closed_beforeBody (before value : List UInt8) : Closed SOH (beforeBody before value) :=
  closed_concat SOH _

theorem FirstBodyLength.beforeBody_prefix (hb : FirstBodyLength bytes before value rest)
    (hc : LastChecksum bytes covered after)
    (hle : (beforeBody before value).length ≤ covered.length) :
    beforeBody before value <+: covered := by
  have hbody : beforeBody before value <+: bytes := ⟨rest, hb.eq_append.symm⟩
  have hcovered : covered <+: bytes := ⟨after, hc.eq.symm⟩
  exact List.prefix_of_prefix_length_le hbody hcovered hle

/-- **The slices are in order** exactly when a chunk written `10=…` follows the body length. -/
theorem exists_body_iff (hb : FirstBodyLength bytes before value rest)
    (hc : LastChecksum bytes covered after) :
    (beforeBody before value).length ≤ covered.length ↔
      ∃ chunk ∈ rest.splitOn SOH, checksumMark <+: chunk := by
  rw [exists_chunk_iff (by decide) (by decide)]
  constructor
  · intro hle
    obtain ⟨body, rfl⟩ := hb.beforeBody_prefix hc hle
    have hrest := hc.eq
    rw [hb.eq_append, List.append_assoc] at hrest
    exact ⟨body, after, List.append_cancel_left hrest, hc.closed.of_append, hc.mark⟩
  · rintro ⟨a, b, rfl, ha, hmark⟩
    have hle := hc.last (beforeBody before value ++ a) b
      (by rw [hb.eq_append, List.append_assoc]) ((closed_beforeBody before value).append ha) hmark
    rw [List.length_append] at hle
    omega

/-! ## No panic -/

theorem splitForVerification_of_order (hb : FirstBodyLength bytes before value rest)
    (hc : LastChecksum bytes covered after) :
    splitForVerification bytes =
      if (beforeBody before value).length ≤ covered.length then
        .ok (covered.drop (beforeBody before value).length, covered)
      else .error .panic := by
  have hstart := findBodyStart_eq_some_iff.mpr ⟨before, value, rest, hb, rfl⟩
  have hstop := findChecksumStart_eq_some_iff.mpr ⟨covered, after, hc, rfl⟩
  have hlen : covered.length ≤ bytes.length := by
    rw [hc.eq, List.length_append]
    omega
  have htake : bytes.take covered.length = covered := by
    rw [hc.eq, List.take_left]
  rw [splitForVerification, hstart, length_beforeBody]
  simp only [hstop, htake, hlen, and_true]

/-- **The split** rejects the buffer or finds both places and slices there. -/
theorem splitForVerification_cases (bytes : List UInt8) :
    (∃ e, splitForVerification bytes = .error (.error e)) ∨
      ∃ before value rest covered after, FirstBodyLength bytes before value rest ∧
        LastChecksum bytes covered after := by
  cases hstart : findBodyStart 0 bytes with
  | none =>
    refine .inl ⟨.missingField 9, ?_⟩
    simp only [splitForVerification, hstart]
  | some bodyStart =>
    cases hstop : findChecksumStart bytes with
    | none =>
      refine .inl ⟨.missingField 10, ?_⟩
      simp only [splitForVerification, hstart, hstop]
    | some checksumStart =>
      obtain ⟨before, value, rest, hb, -⟩ := findBodyStart_eq_some_iff.mp hstart
      obtain ⟨covered, after, hc, -⟩ := findChecksumStart_eq_some_iff.mp hstop
      exact .inr ⟨before, value, rest, covered, after, hb, hc⟩

/-- Where the split is out of order, both places are there. -/
theorem exists_of_panic (h : splitForVerification bytes = .error .panic) :
    ∃ before value rest covered after, FirstBodyLength bytes before value rest ∧
      LastChecksum bytes covered after := by
  refine (splitForVerification_cases bytes).resolve_left ?_
  rintro ⟨e, he⟩
  rw [he] at h
  cases h

theorem FirstBodyLength.panic_iff (hb : FirstBodyLength bytes before value rest)
    (hc : LastChecksum bytes covered after) : splitForVerification bytes = .error .panic ↔
      ¬ (beforeBody before value).length ≤ covered.length := by
  rw [splitForVerification_of_order hb hc]
  split_ifs with hle <;> simp [hle]

/-- What the verification slices: the summed bytes up to the last checksum, of these the ones after
the first `9=` and its field for the body. -/
theorem exists_of_splitForVerification (h : splitForVerification bytes = .ok (body, covered)) :
    ∃ before value rest after, FirstBodyLength bytes before value rest ∧
      LastChecksum bytes covered after ∧ covered = beforeBody before value ++ body := by
  rcases splitForVerification_cases bytes with
    ⟨e, he⟩ | ⟨before, value, rest, covered', after, hb, hc⟩
  · rw [he] at h
    cases h
  · rw [splitForVerification_of_order hb hc] at h
    split_ifs at h with hle
    obtain ⟨rfl, rfl⟩ := Prod.mk.inj (Except.ok.inj h)
    refine ⟨before, value, rest, after, hb, hc, ?_⟩
    obtain ⟨body, rfl⟩ := hb.beforeBody_prefix hc hle
    rw [List.drop_left]

/-- Some chunk is written `10=…`, and none is after the first `9=` and the end of its field. -/
def BodyAfterChecksum (bytes : List UInt8) : Prop :=
  (∃ chunk ∈ bytes.splitOn SOH, checksumMark <+: chunk) ∧
    ∃ before value rest, FirstBodyLength bytes before value rest ∧
      ∀ chunk ∈ rest.splitOn SOH, ¬ checksumMark <+: chunk

theorem exists_lastChecksum (h : ∃ chunk ∈ bytes.splitOn SOH, checksumMark <+: chunk) :
    ∃ covered after, LastChecksum bytes covered after := by
  cases hstop : findChecksumStart bytes with
  | none =>
    obtain ⟨chunk, hchunk, hmark⟩ := h
    exact absurd hmark (findChecksumStart_eq_none_iff.mp hstop chunk hchunk)
  | some checksumStart =>
    obtain ⟨covered, after, hc, -⟩ := findChecksumStart_eq_some_iff.mp hstop
    exact ⟨covered, after, hc⟩

theorem LastChecksum.exists_chunk (h : LastChecksum bytes covered after) :
    ∃ chunk ∈ bytes.splitOn SOH, checksumMark <+: chunk :=
  (exists_chunk_iff (by decide) (by decide) bytes).mpr ⟨covered, after, h.eq, h.closed, h.mark⟩

/-- **The slices are out of order** exactly when the body begins after the last checksum. -/
theorem splitForVerification_eq_panic_iff :
    splitForVerification bytes = .error .panic ↔ BodyAfterChecksum bytes := by
  constructor
  · intro h
    obtain ⟨before, value, rest, covered, after, hb, hc⟩ := exists_of_panic h
    refine ⟨hc.exists_chunk, before, value, rest, hb, fun chunk hchunk hmark => ?_⟩
    exact (hb.panic_iff hc).mp h ((exists_body_iff hb hc).mpr ⟨chunk, hchunk, hmark⟩)
  · rintro ⟨hsome, before, value, rest, hb, hnone⟩
    obtain ⟨covered, after, hc⟩ := exists_lastChecksum hsome
    refine (hb.panic_iff hc).mpr fun hle => ?_
    obtain ⟨chunk, hchunk, hmark⟩ := (exists_body_iff hb hc).mp hle
    exact hnone chunk hchunk hmark

/-- **The parser returns** on every buffer but those it reads on to slice out of order: well-formed,
with the three envelope fields, numbers in the fields 9 and 10, and the last chunk written `10=…`
before the end of the field of the first `9=`. -/
theorem returns_iff (bytes : List UInt8) :
    ((∃ m, parse bytes = .ok m) ∨ ∃ e, parse bytes = .error (.error e)) ↔
      ¬ (Admitted bytes ∧ BodyAfterChecksum bytes) := by
  rw [← splitForVerification_eq_panic_iff]
  by_cases hadm : Admitted bytes
  · obtain ⟨hw, beginString, n, cs, hh⟩ := hadm
    rw [parse_of_header (parseFields_eq_ok_iff.mpr ⟨hw, rfl⟩) hh]
    cases hsplit : splitForVerification bytes with
    | error fault =>
      cases fault with
      | error e => exact iff_of_true (.inr ⟨e, rfl⟩) fun h => by cases h.2
      | panic =>
        refine iff_of_false ?_ fun h => h ⟨⟨hw, beginString, n, cs, hh⟩, rfl⟩
        rintro (⟨m, h⟩ | ⟨e, h⟩) <;> cases h
    | ok p =>
      refine iff_of_true ?_ fun h => by cases h.2
      simp only [Except.bind]
      split_ifs
      · exact .inr ⟨_, rfl⟩
      · exact .inr ⟨_, rfl⟩
      · exact .inr ⟨_, rfl⟩
      · exact .inl ⟨_, rfl⟩
  · exact iff_of_true (.inr (parse_of_not_admitted hadm)) fun h => hadm h.1

/-- The checksum, the version and the body length, in that order. -/
theorem out_of_order_panics :
    ¬ ((∃ m, parse (utf8 "10=0\x018=A\x019=0\x01") = .ok m) ∨
      ∃ e, parse (utf8 "10=0\x018=A\x019=0\x01") = .error (.error e)) := by
  have h : parse (utf8 "10=0\x018=A\x019=0\x01") = .error .panic := by decide
  rw [h]
  rintro (⟨m, h⟩ | ⟨e, h⟩) <;> cases h

/-! ## Summed bytes -/

/-- Every field of a message but the checksum is a field of some bytes, and is what these bytes by
themselves give its tag. -/
def FromCovered (m : FixMessage) (covered : List UInt8) : Prop :=
  (∀ tag value, tag ≠ 10 → m.get tag = some value →
    ∃ chunk ∈ covered.splitOn SOH, parseField chunk = .ok (tag, value)) ∧
  ∃ m₀, parseFields covered = .ok m₀ ∧ ∀ tag, tag ≠ 10 → m.get tag = m₀.get tag

/-- A chunk is not written `10=…`. -/
def notChecksum (chunk : List UInt8) : Bool := !checksumMark.isPrefixOf chunk

/-- After the last chunk written `10=…` a tag other than 10 ends with the value it had before. -/
def TrailerRepeats (bytes : List UInt8) : Prop :=
  ∀ tag value, tag ≠ 10 →
    lastValue tag (fieldsOf ((bytes.splitOn SOH).rtakeWhile notChecksum)) = some value →
    lastValue tag (fieldsOf ((bytes.splitOn SOH).rdropWhile notChecksum)) = some value

/-- The chunks around the last one written `10=…`. -/
theorem LastChecksum.exists_chunks (h : LastChecksum bytes covered after) :
    ∃ pre chunk post, bytes.splitOn SOH = pre ++ chunk :: post ∧
      after.splitOn SOH = chunk :: post ∧ fieldsOf pre = fields covered ∧
      checksumMark <+: chunk ∧ ∀ d ∈ post, ¬ checksumMark <+: d := by
  obtain ⟨chunk, post, hafter, hchunk, hpost⟩ :=
    splitOn_of_last (by decide) (by decide) h.closed h.mark fun a b hab => h.last a b (h.eq ▸ hab)
  obtain ⟨pre, -, hsplit⟩ := splitOn_append_of_closed h.closed
  have hchunks : bytes.splitOn SOH = pre ++ chunk :: post := by
    rw [h.eq, hsplit, hafter]
  refine ⟨pre, chunk, post, hchunks, hafter, ?_, hchunk, hpost⟩
  have hfields := fields_append h.closed after
  have htail : fields after = fieldsOf (chunk :: post) := congrArg fieldsOf hafter
  rw [← h.eq, fields, hchunks, fieldsOf_append, htail] at hfields
  exact List.append_cancel_right hfields

theorem notChecksum_iff {chunk : List UInt8} :
    notChecksum chunk = true ↔ ¬ checksumMark <+: chunk := by
  rw [notChecksum, Bool.not_eq_true', ← Bool.not_eq_true, List.isPrefixOf_iff_prefix]

theorem rtakeWhile_notChecksum (pre : List (List UInt8)) {chunk : List UInt8}
    {post : List (List UInt8)} (hchunk : checksumMark <+: chunk)
    (hpost : ∀ d ∈ post, ¬ checksumMark <+: d) :
    (pre ++ chunk :: post).rtakeWhile notChecksum = post ∧
      (pre ++ chunk :: post).rdropWhile notChecksum = pre ++ [chunk] := by
  have hq : ∀ d ∈ post.reverse, notChecksum d = true := fun d hd =>
    notChecksum_iff.mpr (hpost d (List.mem_reverse.mp hd))
  have hc : ¬ notChecksum chunk = true := fun h => notChecksum_iff.mp h hchunk
  have hrev : (pre ++ chunk :: post).reverse = post.reverse ++ chunk :: pre.reverse := by simp
  constructor
  · rw [List.rtakeWhile, hrev, List.takeWhile_append_of_pos hq, List.takeWhile_cons_of_neg hc]
    simp
  · rw [List.rdropWhile, hrev, List.dropWhile_append_of_pos hq, List.dropWhile_cons_of_neg hc]
    simp

theorem lastValue_checksum {chunk : List UInt8} (h : checksumMark <+: chunk) {tag : UInt32}
    (htag : tag ≠ 10) : lastValue tag (fieldsOf [chunk]) = none := by
  obtain ⟨tail, rfl⟩ := h
  rw [← tagMark_ten]
  exact lastValue_tagMark htag tail

theorem fromCovered_iff (hw : WellFormed covered) {m : FixMessage} :
    FromCovered m covered ↔
      ∀ tag, tag ≠ 10 → m.get tag = lastValue tag (fields covered) := by
  constructor
  · rintro ⟨-, m₀, hm₀, h⟩ tag htag
    obtain ⟨-, rfl⟩ := parseFields_eq_ok_iff.mp hm₀
    rw [h tag htag, get_ofFields]
  · refine fun h => ⟨fun tag value htag hget => ?_, ofFields (fields covered),
      parseFields_eq_ok_iff.mpr ⟨hw, rfl⟩, fun tag htag => by rw [h tag htag, get_ofFields]⟩
    rw [h tag htag] at hget
    exact mem_fields.mp (SortedMap.mem_of_lastValue hget)

theorem or_eq_right_iff {α : Type*} {a b : Option α} :
    a.or b = b ↔ ∀ v, a = some v → b = some v := by
  cases a with
  | none => simp
  | some v => simp [eq_comm]

/-- **A message comes from the summed bytes** exactly when the fields after the checksum repeat
them. -/
theorem covered_iff {m : FixMessage} (h : parse bytes = .ok m) :
    ∃ body covered, splitForVerification bytes = .ok (body, covered) ∧
      (FromCovered m covered ↔ TrailerRepeats bytes) := by
  obtain ⟨hm, -, body, covered, -, -, -, hsplit, -⟩ := parse_eq_ok_iff.mp h
  refine ⟨body, covered, hsplit, ?_⟩
  obtain ⟨hw, rfl⟩ := parseFields_eq_ok_iff.mp hm
  obtain ⟨-, -, -, after, -, hc, -⟩ := exists_of_splitForVerification hsplit
  have hwc : WellFormed covered := ((wellFormed_append hc.closed).mp (hc.eq ▸ hw)).1
  obtain ⟨pre, chunk, post, hchunks, -, hpre, hchunk, hpost⟩ := hc.exists_chunks
  obtain ⟨htrailer, hhead⟩ := rtakeWhile_notChecksum pre hchunk hpost
  rw [fromCovered_iff hwc]
  simp only [TrailerRepeats, hchunks, htrailer, hhead]
  have hupto : ∀ tag, tag ≠ 10 →
      lastValue tag (fieldsOf (pre ++ [chunk])) = lastValue tag (fields covered) := by
    intro tag htag
    rw [fieldsOf_append, SortedMap.lastValue_append, lastValue_checksum hchunk htag, hpre]
    rfl
  have hget : ∀ tag, tag ≠ 10 → (ofFields (fields bytes)).get tag =
      (lastValue tag (fieldsOf post)).or (lastValue tag (fields covered)) := by
    intro tag htag
    rw [get_ofFields, fields, hchunks, List.append_cons, fieldsOf_append,
      SortedMap.lastValue_append, hupto tag htag]
  constructor
  · intro hall tag value htag hpost
    have heq := hall tag htag
    rw [hget tag htag] at heq
    rw [hupto tag htag]
    exact or_eq_right_iff.mp heq value hpost
  · intro hall tag htag
    rw [hget tag htag]
    refine or_eq_right_iff.mpr fun value hpost => ?_
    rw [← hupto tag htag]
    exact hall tag value htag hpost

theorem covered_iff_plain :
    ∃ body covered,
      splitForVerification (utf8 "8=FIX.4.4\x019=5\x0135=D\x0110=183\x01") = .ok (body, covered) ∧
        (FromCovered (ofFields [(8, "FIX.4.4"), (9, "5"), (35, "D"), (10, "183")]) covered ↔
          TrailerRepeats (utf8 "8=FIX.4.4\x019=5\x0135=D\x0110=183\x01")) :=
  covered_iff (by decide)

/-- A field after the checksum of a valid message is returned with it. -/
theorem trailing_field_returned :
    ∃ m body covered,
      parse (utf8 "8=FIX.4.4\x019=5\x0135=D\x0110=183\x0155=EVIL\x01") = .ok m ∧
      splitForVerification (utf8 "8=FIX.4.4\x019=5\x0135=D\x0110=183\x0155=EVIL\x01") =
        .ok (body, covered) ∧
      ¬ FromCovered m covered := by
  refine ⟨ofFields [(8, "FIX.4.4"), (9, "5"), (35, "D"), (10, "183"), (55, "EVIL")],
    utf8 "35=D\x01", utf8 "8=FIX.4.4\x019=5\x0135=D\x01", by decide, by decide, ?_⟩
  rintro ⟨hcovered, -⟩
  obtain ⟨chunk, hchunk, hfield⟩ := hcovered 55 "EVIL" (by decide) (by decide)
  have hnone : ∀ chunk ∈ (utf8 "8=FIX.4.4\x019=5\x0135=D\x01").splitOn SOH,
      parseField chunk ≠ .ok (55, "EVIL") := by decide
  exact hnone chunk hchunk hfield

end AliceLedger.Fix
