import Rtp.Lib.Numeral

/-!
# The conversions of the C library

Integer types of C on a machine with 64-bit `long`, strings in memory that end with a null
character, and what ISO C says about `strtol`, `strtoul` and `snprintf` for decimal numbers.

* `IntType` — the integer types; `IntType.Fits` — their values; `IntType.wrap` — conversion.
* `CString` — a string in memory, with whatever follows its null character.
* `strtol`, `strtoul` — the number at the beginning of a text, where it ends, and whether it
  was out of range; `strtoul` accepts a sign.
* `CString.strto_accepts_iff` — **a whole string is converted** without an error if and only if
  it is a numeral in the range.
* `snprintf` — what is printed into a buffer, and how long it would be.
-/

namespace Rtp

/-! ## Integer types -/

/-- The integer types. -/
inductive IntType where
  | int8
  | uint8
  | int16
  | uint16
  | int32
  | uint32
  | int64
  | uint64
  deriving DecidableEq, Repr

namespace IntType

/-- Whether a type has negative values. -/
def signed : IntType → Bool
  | .int8 | .int16 | .int32 | .int64 => true
  | .uint8 | .uint16 | .uint32 | .uint64 => false

/-- The number of values of a type. -/
def size : IntType → ℕ
  | .int8 | .uint8 => 2 ^ 8
  | .int16 | .uint16 => 2 ^ 16
  | .int32 | .uint32 => 2 ^ 32
  | .int64 | .uint64 => 2 ^ 64

/-- The smallest value. -/
def lo (t : IntType) : ℤ := if t.signed then -(t.size / 2) else 0

/-- The largest value. -/
def hi (t : IntType) : ℤ := if t.signed then t.size / 2 - 1 else t.size - 1

/-- The values of a type. -/
def Fits (t : IntType) (v : ℤ) : Prop := t.lo ≤ v ∧ v ≤ t.hi

instance (t : IntType) (v : ℤ) : Decidable (t.Fits v) := inferInstanceAs (Decidable (_ ∧ _))

/-- The conversion of a number to a type. -/
def wrap (t : IntType) (v : ℤ) : ℤ := if t.signed then v.bmod t.size else v % t.size

variable {v : ℤ}

theorem wrap_of_fits {t : IntType} (h : t.Fits v) : t.wrap v = v := by
  obtain ⟨hlo, hhi⟩ := h
  unfold lo at hlo
  unfold hi at hhi
  unfold wrap
  cases hs : t.signed with
  | true =>
    rw [if_pos hs] at hlo hhi
    exact Int.bmod_eq_of_le hlo (by omega)
  | false =>
    rw [if_neg (by simp [hs])] at hlo hhi
    exact Int.emod_eq_of_lt hlo (by omega)

/-- A wider type with or without a sign has all values. -/
theorem Fits.mono {t t' : IntType} (h : t.Fits v) (hsigned : t.signed = t'.signed)
    (hsize : t.size ≤ t'.size) : t'.Fits v := by
  unfold Fits lo hi at h ⊢
  rw [← hsigned]
  cases hs : t.signed with
  | true =>
    rw [hs, if_pos rfl, if_pos rfl] at h
    rw [if_pos rfl, if_pos rfl]
    omega
  | false =>
    rw [hs, if_neg (by simp), if_neg (by simp)] at h
    rw [if_neg (by simp), if_neg (by simp)]
    omega

theorem fits_iff_of_unsigned {t : IntType} (h : t.signed = false) :
    t.Fits v ↔ 0 ≤ v ∧ v ≤ t.hi := by
  rw [Fits, lo, if_neg (by simp [h])]

theorem fits_uint64_wrap (v : ℤ) : uint64.Fits (uint64.wrap v) := by
  show 0 ≤ v % 18446744073709551616 ∧ v % 18446744073709551616 ≤ 18446744073709551615
  omega

theorem uint64_wrap_of_neg (hneg : v < 0) (h : v.natAbs ≤ uint64.hi) :
    uint64.wrap v = v + 2 ^ 64 := by
  have h : (v.natAbs : ℤ) ≤ 18446744073709551615 := h
  show v % 18446744073709551616 = v + 18446744073709551616
  omega

theorem size_le (t : IntType) : t.size ≤ 2 ^ 64 := by
  cases t <;> decide

end IntType

/-! ## Strings in memory -/

/-- A string, and the memory after its null character. -/
structure CString where
  text : List (BitVec 8)
  rest : List (BitVec 8)
  nul_notMem : 0#8 ∉ text

namespace CString

/-- The memory from the first character on. -/
def memory (s : CString) : List (BitVec 8) := s.text ++ 0#8 :: s.rest

theorem getD_memory_eq_zero_iff (s : CString) {i : ℕ} (h : i ≤ s.text.length) :
    s.memory.getD i 0#8 = 0#8 ↔ i = s.text.length := by
  rw [List.getD_eq_getElem?_getD, memory]
  constructor
  · intro hzero
    by_contra hne
    have hlt : i < s.text.length := by omega
    rw [List.getElem?_append_left hlt, List.getElem?_eq_getElem hlt, Option.getD_some] at hzero
    exact s.nul_notMem (hzero ▸ List.getElem_mem hlt)
  · rintro rfl
    simp

end CString

/-! ## Conversions of texts -/

open Numeral

/-- What `strtol` and `strtoul` return: a number, where its text ends, and whether `errno` was
set to `ERANGE`. -/
structure Strto where
  value : ℤ
  stop : ℕ
  erange : Bool
  deriving DecidableEq, Repr

/-- The common part of the conversions; `convert` turns the number into one of the type. -/
def strto (convert : ℤ → ℤ × Bool) (text : List (BitVec 8)) : Strto :=
  match scan text with
  | none => ⟨0, 0, false⟩
  | some (stop, z) => ⟨(convert z).1, stop, (convert z).2⟩

/-- A number as a `long`: the nearest one. -/
def clampLong (z : ℤ) : ℤ × Bool :=
  if z < IntType.int64.lo then (IntType.int64.lo, true)
  else if z > IntType.int64.hi then (IntType.int64.hi, true)
  else (z, false)

/-- A number as an `unsigned long`: a sign negates in the type. -/
def wrapULong (z : ℤ) : ℤ × Bool :=
  if z.natAbs > IntType.uint64.hi then (IntType.uint64.hi, true)
  else (IntType.uint64.wrap z, false)

/-- `strtol` with base 10, and `strtoll`. -/
def strtol : List (BitVec 8) → Strto := strto clampLong

/-- `strtoul` with base 10, and `strtoull`. -/
def strtoul : List (BitVec 8) → Strto := strto wrapULong

variable {z : ℤ}

theorem clampLong_snd_eq_false_iff : (clampLong z).2 = false ↔ IntType.int64.Fits z := by
  unfold clampLong IntType.Fits
  split_ifs with h₁ h₂ <;> simp <;> omega

theorem clampLong_fst (h : IntType.int64.Fits z) : (clampLong z).1 = z := by
  unfold IntType.Fits at h
  rw [clampLong, if_neg (by omega), if_neg (by omega)]

theorem wrapULong_snd_eq_false_iff : (wrapULong z).2 = false ↔ z.natAbs ≤ IntType.uint64.hi := by
  unfold wrapULong
  split
  next h => exact ⟨fun h' => absurd h' (by simp), fun hle => absurd hle (by omega)⟩
  next h => exact ⟨fun _ => by omega, fun _ => rfl⟩

theorem wrapULong_fst (h : z.natAbs ≤ IntType.uint64.hi) :
    (wrapULong z).1 = IntType.uint64.wrap z := by
  rw [wrapULong, if_neg (by omega)]

/-! ## Conversions of strings -/

theorem nul_notMem_of_isNumeral {text : List (BitVec 8)} (h : IsNumeral text z) : 0#8 ∉ text := by
  obtain ⟨spaces, sign, digits, rfl, hspaces, -, hdigits, -⟩ := h
  simp only [List.mem_append, not_or]
  refine ⟨fun hmem => ?_, fun hmem => ?_, fun hmem => ?_⟩
  · exact absurd (hspaces _ hmem) (by decide)
  · cases sign with
    | none => exact List.not_mem_nil hmem
    | plus | minus => exact absurd hmem (by decide)
  · exact absurd (hdigits _ hmem) (by decide)

namespace CString

variable {s : CString}

/-- A numeral at the beginning of the memory is within the string. -/
theorem le_length_of_scan {n : ℕ} (h : scan s.memory = some (n, z)) : n ≤ s.text.length := by
  obtain ⟨-, hnum, -⟩ := isNumeral_of_scan h
  by_contra hlt
  refine nul_notMem_of_isNumeral hnum ?_
  rw [memory, List.take_append, List.take_of_length_le (by omega)]
  obtain ⟨k, hk⟩ : ∃ k, n - s.text.length = k + 1 := ⟨n - s.text.length - 1, by omega⟩
  rw [hk]
  simp

/-- A string that is a numeral is read to its end. -/
theorem strto_of_isNumeral (convert : ℤ → ℤ × Bool) (h : IsNumeral s.text z) :
    strto convert s.memory = ⟨(convert z).1, s.text.length, (convert z).2⟩ := by
  have hrest : (0#8 :: s.rest).takeWhile isDigit = [] := List.takeWhile_cons_of_neg (by decide)
  rw [strto, memory, h.scan_eq hrest]

/-- Without an error and to its end, a string that is not empty is converted if and only if it is
a numeral in the range. -/
theorem strto_accepts_iff (convert : ℤ → ℤ × Bool) (hne : s.text ≠ []) :
    ((strto convert s.memory).erange = false ∧
      s.memory.getD (strto convert s.memory).stop 0#8 = 0#8) ↔
    ∃ z, IsNumeral s.text z ∧ (convert z).2 = false := by
  constructor
  · rintro ⟨herange, hend⟩
    unfold strto at herange hend
    cases hscan : scan s.memory with
    | none =>
      rw [hscan, getD_memory_eq_zero_iff s (Nat.zero_le _)] at hend
      exact absurd (List.length_eq_zero_iff.mp hend.symm) hne
    | some p =>
      obtain ⟨n, z⟩ := p
      rw [hscan] at herange hend
      rw [getD_memory_eq_zero_iff s (le_length_of_scan hscan)] at hend
      obtain ⟨-, hnum, -⟩ := isNumeral_of_scan hscan
      rw [hend, memory, List.take_left] at hnum
      exact ⟨z, hnum, herange⟩
  · rintro ⟨z, hnum, hrange⟩
    rw [strto_of_isNumeral convert hnum]
    exact ⟨hrange, (getD_memory_eq_zero_iff s le_rfl).mpr rfl⟩

end CString

/-! ## Printing -/

/-- `snprintf` into a buffer: what is written with its null character, and the length of the
whole text. -/
def snprintf (size : ℕ) (text : List (BitVec 8)) : List (BitVec 8) × ℕ :=
  (text.take (size - 1) ++ [0#8], text.length)

theorem snprintf_of_lt {size : ℕ} {text : List (BitVec 8)} (h : text.length < size) :
    snprintf size text = (text ++ [0#8], text.length) := by
  rw [snprintf, List.take_of_length_le (by omega)]

end Rtp
