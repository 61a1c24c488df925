import Mathlib.Algebra.Group.Nat.Defs
import Mathlib.Tactic.Common

/-!
# Bytes

A number is written in a fixed count of little-endian bytes (`leBytes`) and read off them again
(`ofLeBytes_leBytes`). A buffer is read from its front by readers that return the rest
(`readBytes_append`, `readU64_append`). It is filled by overwriting slices of it (`overwrite`); a
slice written over one of its own length replaces it and leaves the rest alone
(`overwrite_append`).
-/

/-- The `count` low bytes of a number, lowest first. -/
def leBytes : ℕ → ℕ → List UInt8
  | 0, _ => []
  | count + 1, n => UInt8.ofNat n :: leBytes count (n / 256)

@[simp] theorem length_leBytes (count n : ℕ) : (leBytes count n).length = count := by
  induction count generalizing n with
  | zero => rfl
  | succ count ih => rw [leBytes, List.length_cons, ih]

/-- The number with given bytes, lowest first. -/
def ofLeBytes : List UInt8 → ℕ
  | [] => 0
  | b :: bs => b.toNat + 256 * ofLeBytes bs

/-- **A number that fits is read off its bytes.** -/
theorem ofLeBytes_leBytes {count n : ℕ} (h : n < 256 ^ count) :
    ofLeBytes (leBytes count n) = n := by
  induction count generalizing n with
  | zero =>
    rw [Nat.pow_zero] at h
    rw [leBytes, ofLeBytes]
    omega
  | succ count ih =>
    rw [Nat.pow_succ] at h
    have hlow : (UInt8.ofNat n).toNat = n % 256 := rfl
    rw [leBytes, ofLeBytes, hlow, ih (by omega)]
    omega

/-- So it is determined by them. -/
theorem leBytes_inj {count m n : ℕ} (hm : m < 256 ^ count) (hn : n < 256 ^ count)
    (h : leBytes count m = leBytes count n) : m = n := by
  rw [← ofLeBytes_leBytes hm, h, ofLeBytes_leBytes hn]

/-- `u64::to_le_bytes`. -/
def UInt64.toLeBytes (n : UInt64) : List UInt8 := leBytes 8 n.toNat

@[simp] theorem UInt64.length_toLeBytes (n : UInt64) : n.toLeBytes.length = 8 :=
  length_leBytes 8 n.toNat

theorem UInt64.toLeBytes_inj {m n : UInt64} (h : m.toLeBytes = n.toLeBytes) : m = n :=
  UInt64.toNat_inj.mp (leBytes_inj m.toNat_lt n.toNat_lt h)

/-! ## Reading from the front -/

/-- The first `count` bytes of a buffer and the rest. -/
def readBytes (count : ℕ) (input : List UInt8) : Option (List UInt8 × List UInt8) :=
  if count ≤ input.length then some (input.take count, input.drop count) else none

theorem readBytes_append (bytes rest : List UInt8) :
    readBytes bytes.length (bytes ++ rest) = some (bytes, rest) := by
  rw [readBytes, if_pos (by rw [List.length_append]; omega), List.take_left, List.drop_left]

/-- A `u64` off the front of a buffer. -/
def readU64 (input : List UInt8) : Option (UInt64 × List UInt8) := do
  let (bytes, rest) ← readBytes 8 input
  return (UInt64.ofNat (ofLeBytes bytes), rest)

/-- **A written `u64` is read back.** -/
theorem readU64_append (n : UInt64) (rest : List UInt8) :
    readU64 (n.toLeBytes ++ rest) = some (n, rest) := by
  have hread : readBytes 8 (n.toLeBytes ++ rest) = some (n.toLeBytes, rest) := by
    rw [← n.length_toLeBytes, readBytes_append]
  have hnum : ofLeBytes n.toLeBytes = n.toNat := ofLeBytes_leBytes n.toNat_lt
  simp only [readU64, hread, hnum, Option.bind_eq_bind, Option.bind_some, UInt64.ofNat_toNat]
  rfl

/-! ## Slices -/

/-- `copy_from_slice` into a buffer at an offset. -/
def overwrite (buf : List UInt8) (start : ℕ) (bytes : List UInt8) : List UInt8 :=
  buf.take start ++ bytes ++ buf.drop (start + bytes.length)

/-- **A slice replaces one of its own length.** -/
theorem overwrite_append {buf pre mid post bytes : List UInt8} {start : ℕ}
    (hbuf : buf = pre ++ (mid ++ post)) (hstart : pre.length = start)
    (hlen : bytes.length = mid.length) :
    overwrite buf start bytes = pre ++ bytes ++ post := by
  subst hstart hbuf
  rw [overwrite, List.take_left, hlen, ← List.append_assoc pre mid post, ← List.length_append,
    List.drop_left]
