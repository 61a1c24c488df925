import Mathlib.Data.Nat.Notation
import Mathlib.Tactic.Common

/-!
# Text as bytes

A string is handled on the wire as the list of its UTF-8 bytes (`utf8`). Decoding inverts encoding
(`fromUtf8_utf8`) and accepts nothing else (`fromUtf8_eq_some_iff`); bytes that are no encoding are
read for display with a replacement character for each invalid sequence (`fromUtf8Lossy`), which
changes nothing in valid text (`fromUtf8Lossy_utf8`). An ASCII character is one byte, its code
(`utf8_ofList_cons`).

Unsigned numbers are written in decimal, possibly padded with zeros, and read back by
`parseUnsigned`, which takes one plus sign and any number of leading zeros
(`parseUnsigned_toDigits`, `parseUnsigned_leftpad`).
-/

/-- The UTF-8 bytes of a string. -/
def utf8 (s : String) : List UInt8 := s.toByteArray.data.toList

/-- `std::str::from_utf8`. -/
def fromUtf8 (bytes : List UInt8) : Option String := String.fromUTF8? ⟨bytes.toArray⟩

theorem fromUtf8_utf8 (s : String) : fromUtf8 (utf8 s) = some s :=
  dif_pos s.isValidUTF8

theorem fromUtf8_eq_some_iff {bytes : List UInt8} {s : String} :
    fromUtf8 bytes = some s ↔ utf8 s = bytes := by
  constructor
  · intro h
    simp only [fromUtf8, String.fromUTF8?] at h
    split_ifs at h
    rw [← Option.some.inj h]
    rfl
  · rintro rfl
    exact fromUtf8_utf8 s

@[simp] theorem utf8_append (s t : String) : utf8 (s ++ t) = utf8 s ++ utf8 t := by
  simp [utf8]

@[simp] theorem utf8_ofList_nil : utf8 (String.ofList []) = [] := rfl

/-- An encoding is the encodings of its characters, one after the other. -/
theorem utf8_ofList_cons_eq_append (c : Char) (cs : List Char) :
    utf8 (String.ofList (c :: cs)) = String.utf8EncodeChar c ++ utf8 (String.ofList cs) := by
  rw [← List.singleton_append, String.ofList_append, utf8_append]
  simp [utf8, List.utf8Encode]

/-- **An ASCII character is one byte**, its code. -/
theorem utf8_ofList_cons {c : Char} (h : c.val ≤ 0x7f) (cs : List Char) :
    utf8 (String.ofList (c :: cs)) = c.val.toUInt8 :: utf8 (String.ofList cs) := by
  rw [utf8_ofList_cons_eq_append,
    String.utf8EncodeChar_eq_singleton (Char.utf8Size_eq_one_iff.mpr h)]
  rfl

theorem utf8_ofList_of_ascii {cs : List Char} (h : ∀ c ∈ cs, c.val ≤ 0x7f) :
    utf8 (String.ofList cs) = cs.map fun c => c.val.toUInt8 := by
  induction cs with
  | nil => rfl
  | cons c cs ih =>
    obtain ⟨hc, hcs⟩ := List.forall_mem_cons.mp h
    rw [utf8_ofList_cons hc, ih hcs, List.map_cons]

/-- An ASCII byte at the head of an encoding is a character by itself. -/
theorem exists_of_utf8_eq_cons {s : String} {c : Char} {bytes : List UInt8} (hc : c.val ≤ 0x7f)
    (h : utf8 s = c.val.toUInt8 :: bytes) : ∃ t, utf8 t = bytes ∧ s.toList = c :: t.toList := by
  have hone := String.utf8EncodeChar_eq_singleton (Char.utf8Size_eq_one_iff.mpr hc)
  have hbytes : s.toByteArray = [c].utf8Encode ++ ⟨bytes.toArray⟩ := by
    apply ByteArray.ext
    apply Array.toList_inj.mp
    rw [List.utf8Encode_singleton, hone]
    simpa [utf8] using h
  have hvalid := s.isValidUTF8
  rw [hbytes, ByteArray.isValidUTF8_utf8Encode_singleton_append_iff] at hvalid
  refine ⟨String.ofByteArray _ hvalid, rfl, ?_⟩
  have hs : s = String.ofList [c] ++ String.ofByteArray _ hvalid := by
    rw [← String.toByteArray_inj, String.toByteArray_append, hbytes]
    rfl
  rw [hs]
  simp

theorem exists_of_utf8_eq_append {s : String} {cs : List Char} {bytes : List UInt8}
    (hcs : ∀ c ∈ cs, c.val ≤ 0x7f) (h : utf8 s = utf8 (String.ofList cs) ++ bytes) :
    ∃ t, utf8 t = bytes ∧ s.toList = cs ++ t.toList := by
  induction cs generalizing s with
  | nil => exact ⟨s, h, rfl⟩
  | cons c cs ih =>
    obtain ⟨hc, hcs⟩ := List.forall_mem_cons.mp hcs
    rw [utf8_ofList_cons hc, List.cons_append] at h
    obtain ⟨t, ht, hs⟩ := exists_of_utf8_eq_cons hc h
    obtain ⟨u, hu, ht'⟩ := ih hcs ht
    exact ⟨u, hu, by rw [hs, ht', List.cons_append]⟩

theorem val_of_isDigit {c : Char} (h : c.isDigit) : 0x30 ≤ c.val ∧ c.val ≤ 0x39 := by
  simpa [Char.isDigit] using h

theorem ascii_of_isDigit {c : Char} (h : c.isDigit) : c.val ≤ 0x7f :=
  UInt32.le_trans (val_of_isDigit h).2 (by decide)

/-! ## Invalid bytes -/

/-- A continuation byte. -/
def isContinuation (b : UInt8) : Bool := 0x80 ≤ b && b ≤ 0xbf

/-- The second bytes a lead byte allows, for the lead bytes of three and of four bytes. -/
def isSecondByte (lead b : UInt8) : Bool :=
  if lead = 0xe0 then 0xa0 ≤ b && b ≤ 0xbf
  else if lead = 0xed then 0x80 ≤ b && b ≤ 0x9f
  else if lead = 0xf0 then 0x90 ≤ b && b ≤ 0xbf
  else if lead = 0xf4 then 0x80 ≤ b && b ≤ 0x8f
  else isContinuation b

/-- The length of the sequence at the head of bytes that start no character: the longest one that
could have been the beginning of a character. -/
def invalidLength : List UInt8 → ℕ
  | lead :: second :: rest =>
    if 0xe0 ≤ lead && lead ≤ 0xf4 && isSecondByte lead second then
      if 0xf0 ≤ lead && rest.head?.any isContinuation then 3 else 2
    else 1
  | _ => 1

/-- The characters of `String::from_utf8_lossy`, at most `fuel` of them. -/
def lossyChars : ℕ → List UInt8 → List Char
  | 0, _ => []
  | _, [] => []
  | fuel + 1, bytes =>
    match ByteArray.utf8DecodeChar? ⟨bytes.toArray⟩ 0 with
    | some c => c :: lossyChars fuel (bytes.drop c.utf8Size)
    | none => '\uFFFD' :: lossyChars fuel (bytes.drop (invalidLength bytes))

/-- `String::from_utf8_lossy`: each invalid sequence becomes one replacement character. -/
def fromUtf8Lossy (bytes : List UInt8) : String := String.ofList (lossyChars bytes.length bytes)

theorem lossyChars_utf8 (cs : List Char) {fuel : ℕ}
    (h : (utf8 (String.ofList cs)).length ≤ fuel) :
    lossyChars fuel (utf8 (String.ofList cs)) = cs := by
  induction cs generalizing fuel with
  | nil => cases fuel <;> rfl
  | cons c cs ih =>
    rw [utf8_ofList_cons_eq_append, List.length_append, String.length_utf8EncodeChar] at h
    have hpos := c.utf8Size_pos
    obtain ⟨fuel, rfl⟩ : ∃ n, fuel = n + 1 := ⟨fuel - 1, by omega⟩
    have hdecode : ByteArray.utf8DecodeChar?
        ⟨(utf8 (String.ofList (c :: cs))).toArray⟩ 0 = some c := by
      have hsplit : (⟨(String.utf8EncodeChar c ++ utf8 (String.ofList cs)).toArray⟩ : ByteArray) =
          (String.utf8EncodeChar c).toByteArray ++ ⟨(utf8 (String.ofList cs)).toArray⟩ := by
        apply ByteArray.ext
        apply Array.toList_inj.mp
        simp
      rw [utf8_ofList_cons_eq_append, hsplit]
      exact ByteArray.utf8DecodeChar?_utf8EncodeChar_append
    have hdrop : (utf8 (String.ofList (c :: cs))).drop c.utf8Size = utf8 (String.ofList cs) := by
      rw [utf8_ofList_cons_eq_append, ← String.length_utf8EncodeChar, List.drop_left]
    rw [lossyChars, hdecode]
    · simp only [hdrop]
      rw [ih (by omega)]
    · rw [utf8_ofList_cons_eq_append]
      simp

/-- **Valid text is read as it is.** -/
theorem fromUtf8Lossy_utf8 (s : String) : fromUtf8Lossy (utf8 s) = s := by
  have h := lossyChars_utf8 s.toList (Nat.le_refl _)
  rw [String.ofList_toList] at h
  rw [fromUtf8Lossy, h, String.ofList_toList]

example : fromUtf8Lossy [0x31, 0xc3, 0x28, 0xf0, 0x90, 0x80] = "1\uFFFD(\uFFFD" := by decide

/-! ## Decimal numbers -/

/-- The digits of a number, after one plus sign if there is one. -/
def unsignedDigits : List Char → List Char
  | '+' :: digits => digits
  | digits => digits

/-- The `FromStr` of an unsigned integer type whose values are below `bound`. -/
def parseUnsigned (bound : ℕ) (s : List Char) : Option ℕ :=
  let digits := unsignedDigits s
  let n := Nat.ofDigitChars 10 digits 0
  if digits ≠ [] ∧ digits.all Char.isDigit ∧ n < bound then some n else none

/-- The bytes of digits are digits. -/
theorem mem_utf8_digits {cs : List Char} (h : ∀ c ∈ cs, c.isDigit) {b : UInt8}
    (hb : b ∈ utf8 (String.ofList cs)) : 0x30 ≤ b ∧ b ≤ 0x39 := by
  rw [utf8_ofList_of_ascii fun c hc => ascii_of_isDigit (h c hc), List.mem_map] at hb
  obtain ⟨c, hc, rfl⟩ := hb
  obtain ⟨hlo, hhi⟩ := val_of_isDigit (h c hc)
  rw [UInt32.le_iff_toNat_le] at hlo hhi
  rw [UInt8.le_iff_toNat_le, UInt8.le_iff_toNat_le, UInt32.toNat_toUInt8]
  simp only [UInt32.reduceToNat, UInt8.reduceToNat] at hlo hhi ⊢
  omega

theorem unsignedDigits_of_isDigit {cs : List Char} (h : ∀ c ∈ cs, c.isDigit) :
    unsignedDigits cs = cs := by
  cases cs with
  | nil => rfl
  | cons c cs =>
    have hc : c ≠ '+' := fun hc => absurd (h c (by simp)) (by rw [hc]; decide)
    unfold unsignedDigits
    split
    · next heq => exact absurd (List.cons.inj heq).1 hc
    · rfl

theorem parseUnsigned_of_isDigit {bound : ℕ} {cs : List Char} (hne : cs ≠ [])
    (h : ∀ c ∈ cs, c.isDigit) (hlt : Nat.ofDigitChars 10 cs 0 < bound) :
    parseUnsigned bound cs = some (Nat.ofDigitChars 10 cs 0) := by
  simp only [parseUnsigned, unsignedDigits_of_isDigit h]
  exact if_pos ⟨hne, List.all_eq_true.mpr h, hlt⟩

theorem isDigit_of_mem_toDigits {n : ℕ} : ∀ c ∈ Nat.toDigits 10 n, c.isDigit :=
  fun _ hc => Nat.isDigit_of_mem_toDigits (by decide) (by decide) hc

theorem isDigit_of_mem_leftpad {n width : ℕ} :
    ∀ c ∈ (Nat.toDigits 10 n).leftpad width '0', c.isDigit := by
  intro c hc
  rw [List.leftpad, List.mem_append, List.mem_replicate] at hc
  rcases hc with ⟨-, rfl⟩ | hc
  · decide
  · exact isDigit_of_mem_toDigits c hc

/-- **A number is read back from its zero-padded decimal form.** -/
theorem parseUnsigned_leftpad {bound n : ℕ} (h : n < bound) (width : ℕ) :
    parseUnsigned bound ((Nat.toDigits 10 n).leftpad width '0') = some n := by
  have hval : Nat.ofDigitChars 10 ((Nat.toDigits 10 n).leftpad width '0') 0 = n := by
    rw [List.leftpad, Nat.ofDigitChars_append, Nat.ofDigitChars_replicate_zero, Nat.mul_zero,
      Nat.ofDigitChars_ten_toDigits]
  have hne : (Nat.toDigits 10 n).leftpad width '0' ≠ [] := by
    rw [List.leftpad]
    exact List.append_ne_nil_of_right_ne_nil _ Nat.toDigits_ne_nil
  rw [parseUnsigned_of_isDigit hne isDigit_of_mem_leftpad (by rwa [hval]), hval]

theorem parseUnsigned_toDigits {bound n : ℕ} (h : n < bound) :
    parseUnsigned bound (Nat.toDigits 10 n) = some n := by
  have hpad := parseUnsigned_leftpad h 0
  rwa [List.leftpad, Nat.zero_sub, List.replicate_zero, List.nil_append] at hpad

/-- A number that is read from its decimal form is within the bound. -/
theorem lt_of_parseUnsigned_toDigits {bound n k : ℕ}
    (h : parseUnsigned bound (Nat.toDigits 10 n) = some k) : n < bound := by
  simp only [parseUnsigned, unsignedDigits_of_isDigit isDigit_of_mem_toDigits,
    Nat.ofDigitChars_ten_toDigits] at h
  split_ifs at h with hlt
  exact hlt.2.2
