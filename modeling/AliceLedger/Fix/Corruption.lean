import AliceLedger.Fix.RoundTrip

/-!
# One corrupted byte

A serialised message with one byte replaced is rejected, or read back with the same fields but for
the checksum (`corruption_harmless`).

* Before the checksum field: the bytes summed are the same but for one, so their sum modulo 256 is
  another (`checksum_ne`, `rejected_of_checksum_ne`); and where the byte was the separator before
  the checksum field, there is no checksum field any more (`rejected_of_merged`).
* In the checksum field: what is left there is one field at most (`length_fields_corrupted_le`), so
  it is the checksum or there is none.

No replacement puts the slices out of order: no `9=` is in the checksum field.
-/

namespace AliceLedger.Fix

open Delimited
open SortedMap (lastValue)

/-! ## The sum of the bytes -/

theorem toNat_foldl_add (bytes : List UInt8) (sum : UInt32) :
    (bytes.foldl (fun sum b => sum + b.toUInt32) sum).toNat =
      (sum.toNat + (bytes.map UInt8.toNat).sum) % 2 ^ 32 := by
  induction bytes generalizing sum with
  | nil => simp [Nat.mod_eq_of_lt sum.toNat_lt]
  | cons b bytes ih =>
    rw [List.foldl_cons, ih, UInt32.toNat_add, UInt8.toNat_toUInt32, List.map_cons, List.sum_cons]
    omega

/-- **The checksum is the sum modulo 256**: 256 divides the modulus at which the sum wraps. -/
theorem toNat_checksum (bytes : List UInt8) :
    (checksum bytes).toNat = (bytes.map UInt8.toNat).sum % 256 := by
  rw [checksum, UInt32.toNat_mod, toNat_foldl_add]
  change (0 + _) % 2 ^ 32 % 256 = _
  omega

/-- **One byte changes the checksum.** -/
theorem checksum_ne {b x : UInt8} (h : b ≠ x) (p q : List UInt8) :
    checksum (p ++ b :: q) ≠ checksum (p ++ x :: q) := by
  intro heq
  have hsum := congrArg UInt32.toNat heq
  have hb := b.toNat_lt
  have hx := x.toNat_lt
  have hne : b.toNat ≠ x.toNat := fun h' => h (UInt8.toNat_inj.mp h')
  rw [toNat_checksum, toNat_checksum] at hsum
  simp only [List.map_append, List.map_cons, List.sum_append, List.sum_cons] at hsum
  omega

/-! ## Before the checksum field -/

section Summed

variable {a before rest : List UInt8}

/-- The first `9=` and its field are in a closed part when no `9=` is after it. -/
theorem FirstBodyLength.le_of_closed {t value : List UInt8}
    (hb : FirstBodyLength (a ++ t) before value rest) (ha : Closed SOH a)
    (ht : ¬ bodyLengthMark <:+: t) : (beforeBody before value).length ≤ a.length := by
  by_contra hlt
  have heq := hb.eq_append
  have hpre : a <+: beforeBody before value :=
    List.prefix_of_prefix_length_le ⟨t, rfl⟩ ⟨rest, heq.symm⟩ (by omega)
  have hopen : before ++ (bodyLengthMark ++ value) <+: beforeBody before value :=
    ⟨[SOH], by simp [beforeBody]⟩
  have hin : a <+: before ++ (bodyLengthMark ++ value) := by
    refine List.prefix_of_prefix_length_le hpre hopen ?_
    have hlen := length_beforeBody before value
    simp only [bodyLengthMark, List.length_append, List.length_cons, List.length_nil]
    omega
  -- the part ends before the mark: past it there is no separator
  have hbefore : a <+: before := by
    rcases List.prefix_or_prefix_of_prefix hin (List.prefix_append before _) with h | ⟨d, rfl⟩
    · exact h
    · have hd : d <+: bodyLengthMark ++ value := (List.prefix_append_right_inj before).mp hin
      have hsoh : SOH ∉ bodyLengthMark ++ value := by
        have hmark : SOH ∉ bodyLengthMark := by decide
        simp [hmark, hb.value]
      rcases ha.of_append with rfl | ⟨d', rfl⟩
      · simp
      · exact absurd (hd.subset (by simp)) hsoh
  obtain ⟨d, rfl⟩ := hbefore
  rw [beforeBody, List.append_assoc a, List.append_assoc a, List.append_assoc a,
    List.append_assoc a] at heq
  rw [List.append_cancel_left heq] at ht
  exact ht ⟨d, value ++ [SOH] ++ rest, by simp⟩

theorem not_infix_checksum {value : String} (hvalue : ∀ b ∈ utf8 value, b ≤ 0x39) :
    ¬ bodyLengthMark <:+: wire [(10, value)] := by
  have hwire : wire [(10, value)] = 0x31 :: 0x30 :: 0x3d :: (utf8 value ++ [SOH]) := by
    rw [wire_cons, wire_nil, fieldBytes_eq, tagMark_ten]
    rfl
  have hne : ∀ (x : UInt8) (l : List UInt8), x ≠ 0x39 → ¬ bodyLengthMark <+: x :: l :=
    fun x l hx hpre => hx (List.cons_prefix_cons.mp hpre).1.symm
  rw [hwire]
  simp only [List.infix_cons_iff, not_or]
  refine ⟨hne _ _ (by decide), hne _ _ (by decide), hne _ _ (by decide), fun hin => ?_⟩
  have hmem : (0x3d : UInt8) ∈ utf8 value ++ [SOH] := hin.subset (by decide)
  rcases List.mem_append.mp hmem with hmem | hmem
  · exact absurd (hvalue _ hmem) (by decide)
  · exact absurd hmem (by decide)

/-- **Other bytes before a checksum are rejected**, when their sum is not the checksum. -/
theorem rejected_of_checksum_ne (ha : Closed SOH a) {value : String} {n : ℕ}
    (hvalue : ∀ b ∈ utf8 value, 0x30 ≤ b ∧ b ≤ 0x39)
    (hn : parseUnsigned (2 ^ 32) value.toList = some n) (hne : checksum a ≠ UInt32.ofNat n) :
    ∃ e, parse (a ++ wire [(10, value)]) = .error (.error e) := by
  have hsoh : SOH ∉ utf8 value := fun h => absurd (hvalue _ h).1 (by decide)
  have hc := lastChecksum_append ha hsoh
  have horder : ∀ {before value' rest : List UInt8},
      FirstBodyLength (a ++ wire [(10, value)]) before value' rest →
      (beforeBody before value').length ≤ a.length := fun hb =>
    hb.le_of_closed ha (not_infix_checksum fun b hb => (hvalue b hb).2)
  have hreturns := (returns_iff (a ++ wire [(10, value)])).mpr fun h => by
    have hpanic := splitForVerification_eq_panic_iff.mpr h.2
    obtain ⟨before, value', rest, covered, after, hb, -⟩ := exists_of_panic hpanic
    exact (hb.panic_iff hc).mp hpanic (horder hb)
  refine hreturns.resolve_left fun ⟨m, hm⟩ => hne ?_
  obtain ⟨hfields, _, body, covered, cs, hh, -, hsplit, hcs⟩ := parse_eq_ok_iff.mp hm
  obtain ⟨before, value', rest, after, hb, -, -⟩ := exists_of_splitForVerification hsplit
  rw [splitForVerification_of_order hb hc, if_pos (horder hb)] at hsplit
  obtain ⟨-, rfl⟩ := Prod.mk.inj (Except.ok.inj hsplit)
  obtain ⟨-, rfl⟩ := parseFields_eq_ok_iff.mp hfields
  obtain ⟨text, htext, hnum⟩ := hh.checksum
  rw [get_ofFields, fields_append ha, fields_wire fun f hf => by
    rw [List.mem_singleton.mp hf]; exact hsoh, SortedMap.lastValue_append,
    SortedMap.lastValue_singleton, if_pos rfl] at htext
  obtain rfl := Option.some.inj htext
  rw [hn] at hnum
  rw [hcs, Option.some.inj hnum]

/-- **A lost separator is rejected**: the field before the checksum takes it in. -/
theorem rejected_of_merged {fs : List (UInt32 × String)} {tag : UInt32} {value text : String}
    {b : UInt8} (hfs : ∀ f ∈ fs, f.1 ≠ 10 ∧ SOH ∉ utf8 f.2) (htag : tag ≠ 10)
    (hvalue : SOH ∉ utf8 value) (hb : b ≠ SOH) (htext : SOH ∉ utf8 text) :
    ∃ e, parse (wire fs ++ (fieldBytes tag value ++ b :: wire [(10, text)])) =
      .error (.error e) := by
  refine parse_of_not_admitted fun ⟨_, _, _, _, hh⟩ => ?_
  obtain ⟨sum, hsum, -⟩ := hh.checksum
  have hsoh : SOH ∉ tagMark tag ++ (utf8 value ++ b :: fieldBytes 10 text) := by
    simp [not_mem_tagMark, hvalue, Ne.symm hb, not_mem_fieldBytes htext]
  have hmerged : fieldBytes tag value ++ b :: wire [(10, text)] =
      (tagMark tag ++ (utf8 value ++ b :: fieldBytes 10 text)) ++ SOH :: [] := by
    rw [wire_cons, wire_nil, fieldBytes_eq tag]
    simp
  have hnone : lastValue 10 fs = none :=
    Option.eq_none_iff_forall_ne_some.mpr fun _ h => (hfs _ (SortedMap.mem_of_lastValue h)).1 rfl
  rw [get_ofFields, fields_append (closed_wire fs), fields_wire fun f hf => (hfs f hf).2, hmerged,
    fields_append_cons, fields_of_not_mem hsoh, fields_nil, List.append_nil,
    SortedMap.lastValue_append, lastValue_tagMark (Ne.symm htag), hnone] at hsum
  cases hsum

end Summed

/-! ## In the checksum field -/

theorem length_fieldsOf_le (chunks : List (List UInt8)) :
    (fieldsOf chunks).length ≤ chunks.length := List.length_filterMap_le _ _

/-- A chunk with a field in it has an `=`. -/
theorem mem_of_fieldsOf_ne_nil {chunk : List UInt8} (h : fieldsOf [chunk] ≠ []) :
    0x3d ∈ chunk := by
  cases hfield : parseField chunk with
  | error e =>
    refine absurd ?_ h
    simp [fieldsOf, hfield, Except.toOption]
  | ok field =>
    obtain ⟨tagStr, rfl, -⟩ := exists_of_parseField hfield
    simp

/-- **A corrupted field is one field at most.** Two fields would need two `=`. -/
theorem length_fields_corrupted_le {c p q : List UInt8} {x b : UInt8} (hc : SOH ∉ c)
    (hcount : c.count 0x3d ≤ 1) (heq : c ++ [SOH] = p ++ x :: q) (hb : b ≠ x) :
    (fields (p ++ b :: q)).length ≤ 1 := by
  rcases List.eq_nil_or_concat' q with rfl | ⟨q, y, rfl⟩
  · -- the separator at the end is lost: one chunk is left
    obtain ⟨rfl, hx⟩ := List.append_inj' heq rfl
    obtain rfl := (List.cons.inj hx).1
    have hsoh : SOH ∉ c ++ [b] := by simp [hc, Ne.symm hb]
    rw [fields_of_not_mem hsoh]
    exact length_fieldsOf_le _
  · have hsplit : c ++ [SOH] = (p ++ x :: q) ++ [y] := by
      rw [heq]
      simp
    obtain ⟨rfl, hy⟩ := List.append_inj' hsplit rfl
    obtain rfl := (List.cons.inj hy).1
    simp only [List.mem_append, List.mem_cons, not_or] at hc
    obtain ⟨hp, -, hq⟩ := hc
    by_cases hsoh : b = SOH
    · -- a new separator: the two chunks share one `=`
      rw [hsoh, fields_append_cons, fields_append_cons, fields_of_not_mem hp, fields_of_not_mem hq,
        fields_nil, List.append_nil]
      by_cases hnil : fieldsOf [p] = []
      · rw [hnil]
        exact length_fieldsOf_le _
      · have hnil' : fieldsOf [q] = [] := by
          by_contra hne
          have hpos := List.count_pos_iff.mpr (mem_of_fieldsOf_ne_nil hnil)
          have hpos' := List.count_pos_iff.mpr (mem_of_fieldsOf_ne_nil hne)
          rw [List.count_append, List.count_cons] at hcount
          omega
        rw [hnil', List.append_nil]
        exact length_fieldsOf_le _
    · have hone : SOH ∉ p ++ b :: q := by simp [hp, hq, Ne.symm hsoh]
      have hchunk : p ++ b :: (q ++ [SOH]) = (p ++ b :: q) ++ SOH :: [] := by simp
      rw [hchunk, fields_append_cons, fields_of_not_mem hone, fields_nil, List.append_nil]
      exact length_fieldsOf_le _

section Written

variable {msg : FixMessage}

variable (msg) in
theorem value_writtenChecksum :
    (∀ b ∈ utf8 (checksumText (writtenChecksum msg)), 0x30 ≤ b ∧ b ≤ 0x39) ∧
      parseUnsigned (2 ^ 32) (checksumText (writtenChecksum msg)).toList =
        some (writtenChecksum msg).toNat := by
  refine ⟨fun b hb => mem_utf8_digits isDigit_of_mem_leftpad hb, ?_⟩
  rw [checksumText, String.toList_ofList]
  exact parseUnsigned_leftpad (toNat_writtenChecksum_lt.trans (by decide)) 3

theorem count_checksum_le :
    (fieldBytes 10 (checksumText (writtenChecksum msg))).count 0x3d ≤ 1 := by
  have hdigits : (0x3d : UInt8) ∉ utf8 (checksumText (writtenChecksum msg)) := fun h =>
    absurd ((value_writtenChecksum msg).1 _ h).2 (by decide)
  rw [fieldBytes_eq, tagMark_ten, List.count_append, List.count_eq_zero.mpr hdigits]
  decide

theorem tag_ne_ten_of_mem_summedFields : ∀ f ∈ summedFields msg, f.1 ≠ 10 := by
  intro f hf
  simp only [summedFields, List.mem_cons] at hf
  rcases hf with rfl | rfl | hf
  · exact show (8 : UInt32) ≠ 10 by decide
  · exact show (9 : UInt32) ≠ 10 by decide
  · intro hten
    have hget := SortedMap.mem_entries_iff.mp (show (f.1, f.2) ∈ (bodyMap msg).entries from hf)
    rw [get?_bodyMap, if_pos (.inr (.inl hten))] at hget
    cases hget

variable (h8 : (msg.get 8).getD fix44BeginString = fix44BeginString)
  (hvalues : ∀ e ∈ msg.fields.entries, SOH ∉ utf8 e.2)
include h8 hvalues

theorem value_of_mem_summedFields : ∀ f ∈ summedFields msg, SOH ∉ utf8 f.2 := fun f hf =>
  value_of_mem_writtenFields h8 hvalues f (List.mem_append_left _ hf)

/-- **What the parser reads of other bytes after the summed ones.** -/
theorem get_summed_append (tail : List UInt8) (tag : UInt32) :
    (ofFields (fields (wire (summedFields msg) ++ tail))).get tag =
      (lastValue tag (fields tail)).or (lastValue tag (summedFields msg)) := by
  rw [get_ofFields, fields_append (closed_wire _),
    fields_wire (value_of_mem_summedFields h8 hvalues), SortedMap.lastValue_append]

/-- After another checksum field the other tags are those written. -/
theorem get_summed_append_of_checksum {tail : List UInt8} {text : String} {tag : UInt32}
    (htail : fields tail = [(10, text)]) (htag : tag ≠ 10) :
    (ofFields (fields (wire (summedFields msg) ++ tail))).get tag = (withEnvelope msg).get tag := by
  rw [get_summed_append h8 hvalues, htail, ← ofFields_writtenFields h8, get_ofFields, writtenFields,
    SortedMap.lastValue_append, SortedMap.lastValue_singleton, SortedMap.lastValue_singleton,
    if_neg (Ne.symm htag), if_neg (Ne.symm htag)]

/-- A checksum that is read where there is one field at most is that field. -/
theorem fields_eq_checksum {tail : List UInt8} {text : String} (hle : (fields tail).length ≤ 1)
    (htext : (ofFields (fields (wire (summedFields msg) ++ tail))).get 10 = some text) :
    fields tail = [(10, text)] := by
  have hnone : lastValue 10 (summedFields msg) = none :=
    Option.eq_none_iff_forall_ne_some.mpr fun _ h =>
      tag_ne_ten_of_mem_summedFields _ (SortedMap.mem_of_lastValue h) rfl
  rw [get_summed_append h8 hvalues, hnone, Option.or_none] at htext
  have hmem := SortedMap.mem_of_lastValue htext
  obtain ⟨field, hfield⟩ := List.length_eq_one_iff.mp
    (le_antisymm hle (List.length_pos_of_mem hmem))
  rw [hfield, List.mem_singleton] at hmem
  rw [hfield, hmem]

/-- Whatever follows the summed bytes, no chunk before the body is written `10=…`. -/
theorem splitForVerification_ne_panic (tail : List UInt8) :
    splitForVerification (wire (summedFields msg) ++ tail) ≠ .error .panic := by
  intro hpanic
  have hb := firstBodyLength_append h8 tail
  obtain ⟨-, -, -, covered, after, -, hc⟩ := exists_of_panic hpanic
  refine (hb.panic_iff hc).mp hpanic ((exists_body_iff hb hc).mpr ?_)
  obtain ⟨chunk, hchunk, hmark⟩ := hc.exists_chunk
  have hne : chunk ≠ [] := by
    rintro rfl
    exact absurd hmark (by decide)
  rw [hb.eq_append, mem_splitOn_append (closed_beforeBody _ _) hne] at hchunk
  refine ⟨chunk, hchunk.resolve_left fun hbefore => ?_, hmark⟩
  have hsummed : ∀ f ∈ [(8, fix44BeginString), (9, toString (serializeBody msg).length)],
      f ∈ summedFields msg := fun f hf => by
    rw [summedFields_eq h8]
    exact List.mem_append_left _ hf
  rw [beforeBody_eq_wire, splitOn_wire fun f hf =>
    value_of_mem_summedFields h8 hvalues f (hsummed f hf), List.mem_append, List.mem_map,
    List.mem_singleton] at hbefore
  obtain ⟨f, hf, rfl⟩ := hbefore.resolve_right hne
  exact tag_ne_ten_of_mem_summedFields f (hsummed f hf)
    (parseField_of_checksumMark hmark (parseField_fieldBytes f.1 f.2))

/-- **Before the checksum field every replacement is rejected.** -/
theorem rejected_of_summed {p q : List UInt8} {x b : UInt8}
    (heq : wire (summedFields msg) = p ++ x :: q) (hb : b ≠ x) :
    ∃ e, parse (p ++ b :: q ++ wire [(10, checksumText (writtenChecksum msg))]) =
      .error (.error e) := by
  obtain ⟨hdigits, hn⟩ := value_writtenChecksum msg
  rcases List.eq_nil_or_concat' q with rfl | ⟨q, y, rfl⟩
  · -- the last separator
    obtain ⟨fs, f, hfs⟩ : ∃ fs f, summedFields msg = fs ++ [f] :=
      (List.eq_nil_or_concat' _).resolve_left (by simp [summedFields])
    have hend : wire fs ++ fieldBytes f.1 f.2 ++ [SOH] = p ++ [x] := by
      rw [← heq, hfs, wire_append, wire_cons, wire_nil]
      simp
    obtain ⟨rfl, hx⟩ := List.append_inj' hend rfl
    obtain rfl := (List.cons.inj hx).1
    have hall : ∀ g ∈ fs ++ [f], g.1 ≠ 10 ∧ SOH ∉ utf8 g.2 := fun g hg =>
      ⟨tag_ne_ten_of_mem_summedFields g (hfs ▸ hg),
        value_of_mem_summedFields h8 hvalues g (hfs ▸ hg)⟩
    obtain ⟨htag, hvalue⟩ := hall f (by simp)
    obtain ⟨e, he⟩ := rejected_of_merged (fun g hg => hall g (List.mem_append_left _ hg)) htag
      hvalue hb (not_mem_checksumText msg)
    refine ⟨e, ?_⟩
    rw [← he]
    simp
  · have hclosed : Closed SOH (p ++ b :: (q ++ [y])) := by
      have hold := closed_wire (summedFields msg)
      have hassoc : ∀ z, p ++ z :: (q ++ [y]) = (p ++ z :: q) ++ [y] := fun z => by simp
      rw [heq, hassoc, closed_concat_iff] at hold
      rw [hassoc, closed_concat_iff]
      exact hold
    refine rejected_of_checksum_ne hclosed hdigits hn ?_
    rw [UInt32.ofNat_toNat, writtenChecksum, heq]
    exact checksum_ne hb p _

/-- **In the checksum field every replacement is rejected or changes the checksum only.** -/
theorem rejected_or_same_of_trailer {p q : List UInt8} {x b : UInt8}
    (heq : wire [(10, checksumText (writtenChecksum msg))] = p ++ x :: q) (hb : b ≠ x) :
    (∃ e, parse (wire (summedFields msg) ++ (p ++ b :: q)) = .error (.error e)) ∨
      ∃ m m₀, parse (wire (summedFields msg) ++ (p ++ b :: q)) = .ok m ∧
        parse (serialize msg) = .ok m₀ ∧ ∀ tag, tag ≠ 10 → m.get tag = m₀.get tag := by
  have hreturns := (returns_iff (wire (summedFields msg) ++ (p ++ b :: q))).mpr fun h =>
    splitForVerification_ne_panic h8 hvalues _ (splitForVerification_eq_panic_iff.mpr h.2)
  refine hreturns.symm.imp_right fun ⟨m, hm⟩ => ?_
  obtain ⟨hfields, _, _, _, _, hh, -⟩ := parse_eq_ok_iff.mp hm
  obtain ⟨-, rfl⟩ := parseFields_eq_ok_iff.mp hfields
  -- the one field that may be left is the checksum that the header has
  have hle := length_fields_corrupted_le (not_mem_fieldBytes (not_mem_checksumText _))
    count_checksum_le (by rw [← heq, wire_cons, wire_nil]) hb
  obtain ⟨text, htext, -⟩ := hh.checksum
  have hone := fields_eq_checksum h8 hvalues hle htext
  have hsame : ∀ tag, tag ≠ 10 →
      (ofFields (fields (wire (summedFields msg) ++ (p ++ b :: q)))).get tag =
        (withEnvelope msg).get tag := fun _ htag =>
    get_summed_append_of_checksum h8 hvalues hone htag
  have hlen : (serializeBody msg).length < 2 ^ 64 := by
    obtain ⟨text, htext, hnum⟩ := hh.bodyLen
    rw [hsame 9 (by decide), get_withEnvelope, if_neg (by decide), if_pos rfl] at htext
    obtain rfl := Option.some.inj htext
    rw [Nat.toString_eq_ofList_toDigits, String.toList_ofList] at hnum
    exact lt_of_parseUnsigned_toDigits hnum
  exact ⟨_, _, hm, parse_serialize_of_length h8 hvalues hlen, hsame⟩

end Written

/-- **One corrupted byte is harmless.** With any byte of a serialised message replaced, the parser
rejects the buffer when the byte is before the checksum field; and it rejects the buffer, or returns
the message that it reads from the serialised one but for the checksum, wherever the byte is. -/
theorem corruption_harmless {msg : FixMessage}
    (h8 : msg.get 8 = none ∨ msg.get 8 = some fix44BeginString)
    (hvalues : ∀ e ∈ msg.fields.entries, SOH ∉ utf8 e.2) {i : ℕ}
    (hi : i < (serialize msg).length) {b : UInt8} (hb : b ≠ (serialize msg)[i]) :
    ∃ checksumStart, findChecksumStart (serialize msg) = some checksumStart ∧
      (i < checksumStart → ∃ e, parse ((serialize msg).set i b) = .error (.error e)) ∧
      ((∃ e, parse ((serialize msg).set i b) = .error (.error e)) ∨
        ∃ m m₀, parse ((serialize msg).set i b) = .ok m ∧ parse (serialize msg) = .ok m₀ ∧
          ∀ tag, tag ≠ 10 → m.get tag = m₀.get tag) := by
  have hbegin := getD_begin h8
  refine ⟨(wire (summedFields msg)).length,
    findChecksumStart_eq_some_iff.mpr ⟨_, _, lastChecksum_serialize, rfl⟩, ?_⟩
  have hold : serialize msg = (serialize msg).take i ++
      (serialize msg)[i] :: (serialize msg).drop (i + 1) := by
    rw [List.getElem_cons_drop, List.take_append_drop]
  have hnew : (serialize msg).set i b =
      (serialize msg).take i ++ b :: (serialize msg).drop (i + 1) := by
    rw [List.set_eq_take_append_cons_drop, if_pos hi]
  have hlen : ((serialize msg).take i).length = i := List.length_take_of_le hi.le
  rw [hnew]
  generalize (serialize msg)[i] = x at hold hb
  generalize (serialize msg).take i = p at hold hlen
  generalize (serialize msg).drop (i + 1) = q at hold
  rw [serialize_eq_append] at hold
  rcases List.append_eq_append_iff.mp hold with ⟨p', rfl, htrailer⟩ | ⟨q', hsummed, hrest⟩
  · -- the byte is in the checksum field
    have hcase := rejected_or_same_of_trailer hbegin hvalues htrailer hb
    rw [← List.append_assoc] at hcase
    refine ⟨fun hlt => ?_, hcase⟩
    rw [List.length_append] at hlen
    omega
  · cases q' with
    | nil =>
      -- the byte is the first of the checksum field
      rw [List.append_nil] at hsummed
      rw [List.nil_append] at hrest
      have hcase := rejected_or_same_of_trailer hbegin hvalues (p := []) hrest.symm hb
      rw [hsummed] at hcase ⊢
      exact ⟨fun hlt => absurd hlt (by omega), hcase⟩
    | cons y q' =>
      obtain ⟨rfl, rfl⟩ := List.cons.inj hrest
      have hrejected := rejected_of_summed hbegin hvalues hsummed hb
      rw [List.append_assoc, List.cons_append] at hrejected
      exact ⟨fun _ => hrejected, .inl hrejected⟩

theorem corruption_harmless_type :
    let msg := FixMessage.new.insert 35 "D"
    ∃ checksumStart, findChecksumStart (serialize msg) = some checksumStart ∧
      (17 < checksumStart → ∃ e, parse ((serialize msg).set 17 0x46) = .error (.error e)) ∧
      ((∃ e, parse ((serialize msg).set 17 0x46) = .error (.error e)) ∨
        ∃ m m₀, parse ((serialize msg).set 17 0x46) = .ok m ∧ parse (serialize msg) = .ok m₀ ∧
          ∀ tag, tag ≠ 10 → m.get tag = m₀.get tag) :=
  corruption_harmless (.inl rfl) (by decide) (i := 17) (by decide) (b := 0x46) (by decide)

end AliceLedger.Fix
