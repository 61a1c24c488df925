import AliceLedger.Fix.Fields

/-!
# The envelope of a buffer

The two searches behind the verification. The body begins after the first `9=` and the end of its
field (`FirstBodyLength`), wherever that `9=` stands; the bytes summed end at the last chunk written
`10=…` (`LastChecksum`). Each search is its description (`findBodyStart_eq_some_iff`,
`findChecksumStart_eq_some_iff`). Because the searches are independent the parser slices out of
range exactly when the last `10=` comes before the body (`returns_iff`), and what it returns comes
from the summed bytes exactly when the fields after the checksum repeat them (`covered_iff`).
-/

namespace AliceLedger.Fix

open Delimited
open SortedMap (lastValue)

/-! ## The body length -/

/-- The buffer around its first `9=`: the bytes before, the bytes up to the next `SOH`, and those
after it. -/
structure FirstBodyLength (bytes before value rest : List UInt8) : Prop where
  eq : bytes = before ++ bodyLengthMark ++ value ++ SOH :: rest
  first : ¬ bodyLengthMark <:+: before
  value : SOH ∉ value

variable {bytes before value rest : List UInt8}

theorem findBodyStart_of_unmarked {b : UInt8} (h : ¬ bodyLengthMark <+: b :: bytes)
    (idx : ℕ) : findBodyStart idx (b :: bytes) = findBodyStart (idx + 1) bytes :=
  if_neg h

theorem findBodyStart_of_first (h : FirstBodyLength bytes before value rest) (idx : ℕ) :
    findBodyStart idx bytes = some (idx + before.length + value.length + 3) := by
  obtain ⟨rfl, hfirst, hvalue⟩ := h
  induction before generalizing idx with
  | nil =>
    have hpos := idxOf?_append_cons hvalue rest
    have hmark : bodyLengthMark <+: 0x39 :: 0x3d :: (value ++ SOH :: rest) :=
      List.prefix_append bodyLengthMark _
    change findBodyStart idx (0x39 :: 0x3d :: (value ++ SOH :: rest)) = _
    rw [findBodyStart, if_pos hmark, List.drop_one, List.tail_cons, hpos, List.length_nil]
    simp only [Option.some.injEq]
    omega
  | cons b before ih =>
    have ih := ih (idx + 1) fun hin => hfirst (List.infix_cons hin)
    have hno : ¬ bodyLengthMark <+: b :: (before ++ bodyLengthMark ++ value ++ SOH :: rest) := by
      intro hpre
      rcases before with - | ⟨b', before⟩
      · -- the byte after `b` would be both the `9` of the mark and its `=`
        have hb := (List.cons_prefix_cons.mp (List.cons_prefix_cons.mp hpre).2).1
        exact absurd hb (by decide)
      · obtain ⟨hb, hpre⟩ := List.cons_prefix_cons.mp hpre
        have hb' := (List.cons_prefix_cons.mp hpre).1
        rw [← hb, ← hb'] at hfirst
        exact hfirst (List.prefix_append bodyLengthMark before).isInfix
    simp only [List.cons_append]
    rw [findBodyStart_of_unmarked hno, ih, List.length_cons]
    simp only [Option.some.injEq]
    omega

theorem exists_first_of_findBodyStart {idx k : ℕ} (h : findBodyStart idx bytes = some k) :
    ∃ before value rest, FirstBodyLength bytes before value rest := by
  induction bytes generalizing idx with
  | nil => cases h
  | cons b bytes ih =>
    by_cases hmark : bodyLengthMark <+: b :: bytes
    · obtain ⟨rfl, hmark'⟩ := List.cons_prefix_cons.mp hmark
      obtain ⟨tail, rfl⟩ := hmark'
      by_cases hsoh : SOH ∈ tail
      · obtain ⟨value, rest, rfl, hvalue⟩ := List.eq_append_cons_of_mem hsoh
        exact ⟨[], value, rest, rfl, by decide, hvalue⟩
      · -- no field ends after this mark, nor after a later one
        have hnone : (([0x3d] ++ tail).drop 1).idxOf? SOH = none :=
          List.idxOf?_eq_none_iff.mpr hsoh
        rw [findBodyStart, if_pos hmark, hnone] at h
        obtain ⟨before, value, rest, hrest⟩ := ih h
        have hmem : SOH ∈ [0x3d] ++ tail := by
          rw [hrest.eq]
          simp
        rcases List.mem_append.mp hmem with hmem | hmem
        · exact absurd hmem (by decide)
        · exact absurd hmem hsoh
    · rw [findBodyStart_of_unmarked hmark] at h
      obtain ⟨before, value, rest, rfl, hfirst, hvalue⟩ := ih h
      refine ⟨b :: before, value, rest, by simp, ?_, hvalue⟩
      rw [List.infix_cons_iff]
      rintro (hpre | hin)
      · exact hmark (by simpa using hpre.trans (List.prefix_append _ _))
      · exact hfirst hin

/-- **The search for the body** finds the end of the field of the first `9=`. -/
theorem findBodyStart_eq_some_iff {k : ℕ} :
    findBodyStart 0 bytes = some k ↔ ∃ before value rest,
      FirstBodyLength bytes before value rest ∧ k = before.length + value.length + 3 := by
  constructor
  · intro h
    obtain ⟨before, value, rest, hfirst⟩ := exists_first_of_findBodyStart h
    rw [findBodyStart_of_first hfirst] at h
    exact ⟨before, value, rest, hfirst, by have := Option.some.inj h; omega⟩
  · rintro ⟨before, value, rest, hfirst, rfl⟩
    rw [findBodyStart_of_first hfirst]
    simp

/-! ## The checksum -/

/-- The buffer cut before its last chunk written `10=…`. -/
structure LastChecksum (bytes before after : List UInt8) : Prop where
  eq : bytes = before ++ after
  closed : Closed SOH before
  mark : checksumMark <+: after
  last : ∀ a b, bytes = a ++ b → Closed SOH a → checksumMark <+: b → a.length ≤ before.length

variable {after : List UInt8}

theorem isChecksumAt_append :
    isChecksumAt (before ++ after) before.length ↔ Closed SOH before ∧ checksumMark <+: after := by
  simp only [isChecksumAt, List.drop_left, Bool.and_eq_true, Bool.or_eq_true, beq_iff_eq,
    List.isPrefixOf_iff_prefix]
  rw [and_comm]
  refine and_congr_left fun _ => ?_
  rcases List.eq_nil_or_concat' before with rfl | ⟨a, x, rfl⟩
  · simp [closed_nil]
  · rw [closed_concat_iff]
    simp

theorem lt_of_isChecksumAt {i : ℕ} (h : isChecksumAt bytes i) : i < bytes.length := by
  by_contra hi
  have hmark := (Bool.and_eq_true_iff.mp h).1
  rw [List.drop_eq_nil_of_le (by omega)] at hmark
  exact absurd hmark (by decide)

theorem exists_of_isChecksumAt {i : ℕ} (h : isChecksumAt bytes i) :
    ∃ before after, bytes = before ++ after ∧ i = before.length ∧ Closed SOH before ∧
      checksumMark <+: after := by
  have hlen : (bytes.take i).length = i := List.length_take_of_le (lt_of_isChecksumAt h).le
  refine ⟨bytes.take i, bytes.drop i, (List.take_append_drop i bytes).symm, hlen.symm, ?_⟩
  rw [← isChecksumAt_append, List.take_append_drop, hlen]
  exact h

/-- **The search for the checksum** finds the last chunk written `10=…`. -/
theorem findChecksumStart_eq_some_iff {k : ℕ} :
    findChecksumStart bytes = some k ↔
      ∃ before after, LastChecksum bytes before after ∧ k = before.length := by
  rw [findChecksumStart, find?_reverse_range]
  constructor
  · rintro ⟨hk, -, hlast⟩
    obtain ⟨before, after, rfl, rfl, hclosed, hmark⟩ := exists_of_isChecksumAt hk
    refine ⟨before, after, ⟨rfl, hclosed, hmark, fun a b hab ha hb => ?_⟩, rfl⟩
    have hat := isChecksumAt_append.mpr ⟨ha, hb⟩
    rw [← hab] at hat
    by_contra hlt
    exact hlast _ (by omega) (lt_of_isChecksumAt hat) hat
  · rintro ⟨before, after, ⟨rfl, hclosed, hmark, hlast⟩, rfl⟩
    have hat := isChecksumAt_append.mpr ⟨hclosed, hmark⟩
    refine ⟨hat, lt_of_isChecksumAt hat, fun j hj _ hat' => ?_⟩
    obtain ⟨a, b, hab, rfl, ha, hb⟩ := exists_of_isChecksumAt hat'
    exact absurd (hlast a b hab ha hb) (by omega)

theorem findChecksumStart_eq_none_iff :
    findChecksumStart bytes = none ↔ ∀ chunk ∈ bytes.splitOn SOH, ¬ checksumMark <+: chunk := by
  rw [← not_iff_not, ← ne_eq, Option.ne_none_iff_exists']
  push Not
  rw [exists_chunk_iff (by decide) (by decide)]
  constructor
  · rintro ⟨k, hk⟩
    obtain ⟨before, after, h, -⟩ := findChecksumStart_eq_some_iff.mp hk
    exact ⟨before, after, h.eq, h.closed, h.mark⟩
  · rintro ⟨a, b, rfl, ha, hb⟩
    have hat := isChecksumAt_append.mpr ⟨ha, hb⟩
    refine Option.isSome_iff_exists.mp (List.find?_isSome.mpr ⟨a.length, ?_, hat⟩)
    simpa using lt_of_isChecksumAt hat

end AliceLedger.Fix
