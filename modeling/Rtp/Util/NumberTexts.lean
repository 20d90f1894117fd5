import Rtp.Common.StringUtils
import Rtp.Util.StrConvert

/-!
# Printed numbers are read back

`common::StringUtils::toString` (`common/string_utils.h`) prints a number into a buffer on the
stack and makes a string of what is before the null character; `orc::ToString`
(`orc/util/to_string.h`) makes one of as many characters as `snprintf` reports.

* `StringUtils.toString`, `orcToString` — the functions, with their formats and buffers.
* `length_printInt_lt` — each buffer is large enough; so `toString_eq` and `orcToString_eq`.
* `strTo_toString` — **every number is read back** by the function for its type.
-/

namespace Rtp

open Numeral

/-! ## `common::StringUtils::toString` -/

namespace Common.StringUtils

/-- A number printed into a buffer; the format says as which type it is passed. -/
def toStringBuf (size : ℕ) (format : IntType) (x : ℤ) : List (BitVec 8) :=
  (snprintf size (printInt (format.wrap x))).1.takeWhile (· ≠ 0#8)

/-- `%d` into 8 bytes. -/
def toStringInt8 : ℤ → List (BitVec 8) := toStringBuf 8 .int32

/-- `%u` into 8 bytes. -/
def toStringUInt8 : ℤ → List (BitVec 8) := toStringBuf 8 .uint32

/-- `%d` into 16 bytes. -/
def toStringInt16 : ℤ → List (BitVec 8) := toStringBuf 16 .int32

/-- `%u` into 16 bytes. -/
def toStringUInt16 : ℤ → List (BitVec 8) := toStringBuf 16 .uint32

/-- `%d` into 32 bytes. -/
def toStringInt32 : ℤ → List (BitVec 8) := toStringBuf 32 .int32

/-- `%u` into 32 bytes. -/
def toStringUInt32 : ℤ → List (BitVec 8) := toStringBuf 32 .uint32

/-- `%ld` into 64 bytes. -/
def toStringInt64 : ℤ → List (BitVec 8) := toStringBuf 64 .int64

/-- `%lu` into 64 bytes. -/
def toStringUInt64 : ℤ → List (BitVec 8) := toStringBuf 64 .uint64

/-- `toString` for each type. -/
def toString : IntType → ℤ → List (BitVec 8)
  | .int8 => toStringInt8
  | .uint8 => toStringUInt8
  | .int16 => toStringInt16
  | .uint16 => toStringUInt16
  | .int32 => toStringInt32
  | .uint32 => toStringUInt32
  | .int64 => toStringInt64
  | .uint64 => toStringUInt64

end StringUtils
end Common

/-! ## `orc::ToString` -/

namespace Util.Str

/-- A number printed into a buffer of 256 bytes, from which the reported length is taken. -/
def toStringBuf (format : IntType) (val : ℤ) : List Byte :=
  let r := snprintf 256 (printInt (format.wrap val))
  r.1.take r.2

/-- The type of a target. -/
def Target.type : Target → IntType
  | .int32 => .int32
  | .uint32 => .uint32
  | .int64 => .int64
  | .uint64 => .uint64

/-- `ToString` for each type: the formats `%d`, `%u`, `%lld` and `%llu`. -/
def toString (t : Target) : ℤ → List Byte := toStringBuf t.type

/-- `strlen`. -/
def strlen (str : List Byte) : ℕ := (str.takeWhile (· ≠ 0#8)).length

/-- `ToInt32` to `ToUint64` of a string. -/
def convertString (t : Target) (str : List Byte) : Option ℤ := convert t str (strlen str)

end Str
end Util

/-! ## What is printed -/

variable {t : IntType} {v : ℤ}

theorem IntType.natAbs_le_size (h : t.Fits v) : v.natAbs ≤ t.size := by
  unfold IntType.Fits IntType.lo IntType.hi at h
  cases hs : t.signed with
  | true =>
    rw [hs, if_pos rfl, if_pos rfl] at h
    omega
  | false =>
    rw [hs, if_neg (by simp), if_neg (by simp)] at h
    omega

/-- What is printed, before the null character of the buffer. -/
theorem takeWhile_printInt (v : ℤ) :
    (printInt v ++ [0#8]).takeWhile (· ≠ 0#8) = printInt v := by
  rw [List.takeWhile_append_of_pos]
  · simp
  · intro b hb
    have hne : b ≠ 0#8 := by
      rintro rfl
      exact nul_notMem_of_isNumeral (isNumeral_printInt v) hb
    simpa using hne

/-- As many digits as a number of the type has at most. -/
def IntType.digits : IntType → ℕ
  | .int8 | .uint8 => 3
  | .int16 | .uint16 => 5
  | .int32 | .uint32 => 10
  | .int64 | .uint64 => 20

theorem IntType.length_printInt_le (h : t.Fits v) : (printInt v).length ≤ t.digits + 1 := by
  have hsize : t.size < 10 ^ t.digits := by cases t <;> decide
  have hpos : 0 < t.digits := by cases t <;> decide
  exact Numeral.length_printInt_le hpos ((IntType.natAbs_le_size h).trans_lt hsize)

/-- A buffer with room for all digits, a sign and the null character. -/
theorem Common.StringUtils.toStringBuf_eq {size : ℕ} {format : IntType} (h : t.Fits v)
    (hformat : format.Fits v) (hsize : t.digits + 1 < size) :
    toStringBuf size format v = printInt v := by
  have hlen := IntType.length_printInt_le h
  rw [toStringBuf, IntType.wrap_of_fits hformat, snprintf_of_lt (by omega)]
  exact takeWhile_printInt v

/-- Each type is passed as one that has its values, and its buffer is large enough. -/
theorem Common.StringUtils.toString_eq (h : t.Fits v) : toString t v = printInt v := by
  cases t with
  | int8 | uint8 | int16 | uint16 => exact toStringBuf_eq h (h.mono rfl (by decide)) (by decide)
  | int32 | uint32 | int64 | uint64 => exact toStringBuf_eq h h (by decide)

theorem Util.Str.toString_eq {target : Util.Str.Target} (h : target.type.Fits v) :
    toString target v = printInt v := by
  have hlen := IntType.length_printInt_le h
  have hdigits : target.type.digits ≤ 20 := by cases target <;> decide
  rw [toString, toStringBuf, IntType.wrap_of_fits h, snprintf_of_lt (by omega)]
  exact List.take_left

/-! ## Reading it back -/

/-- What is printed, as a string in memory. -/
def printed (v : ℤ) : CString := ⟨printInt v, [], nul_notMem_of_isNumeral (isNumeral_printInt v)⟩

/-- A number that is not negative is printed without a sign. -/
theorem head?_printInt_ne (h : 0 ≤ v) : (printInt v).head? ≠ some 45#8 := by
  intro hhead
  rw [printInt, if_neg (by omega)] at hhead
  have := isDigit_of_mem_print (List.mem_of_mem_head? hhead)
  exact absurd this (by decide)

theorem Common.StringUtils.strTo_printed (h : t.Fits v) (old : ℤ) :
    strTo t (some (printed v).memory) old = (true, v) := by
  cases hs : t.signed with
  | true => exact (strTo_signed_iff hs).mpr ⟨isNumeral_printInt v, h⟩
  | false =>
    have hfits : IntType.uint64.Fits v := h.mono hs t.size_le
    obtain ⟨hnonneg, hle⟩ := (IntType.fits_iff_of_unsigned hs).mp h
    refine (strTo_unsigned_iff hs).mpr
      ⟨head?_printInt_ne hnonneg, hle, v, isNumeral_printInt v, ?_, ?_⟩
    · rw [Int.natAbs_of_nonneg hnonneg]
      exact hfits.2
    · rw [IntType.wrap_of_fits hfits]

/-- The null character is no part of a numeral. -/
theorem Util.Str.not_goesOn_printed (v : ℤ) :
    ¬GoesOn (printInt v ++ [0#8]) (printInt v).length := by
  rintro ⟨k, z, hlt, hk, hnum⟩
  rw [List.take_of_length_le (by simpa using hlt)] at hnum
  exact nul_notMem_of_isNumeral hnum (by simp)

theorem Util.Str.convertString_printed {target : Util.Str.Target} (h : target.type.Fits v) :
    convertString target (printInt v ++ [0#8]) = some v := by
  have hlen : strlen (printInt v ++ [0#8]) = (printInt v).length := by
    rw [strlen, takeWhile_printInt]
  rw [convertString, hlen, convert_eq_some_iff target (by simp), List.take_left]
  refine ⟨not_goesOn_printed v, .inr ⟨v, isNumeral_printInt v, ?_⟩⟩
  cases target with
  | int32 =>
    exact ⟨⟨h.1, h.2.trans (by decide)⟩, (IntType.wrap_of_fits h).symm⟩
  | uint32 | int64 => exact ⟨h, rfl⟩
  | uint64 =>
    refine ⟨?_, (IntType.wrap_of_fits h).symm⟩
    show (v.natAbs : ℤ) ≤ _
    rw [Int.natAbs_of_nonneg h.1]
    exact h.2

/-- Every number is read back from what was printed, by the function for its type. -/
theorem strTo_toString (t : IntType) (v old : ℤ) (h : t.Fits v) :
    Common.StringUtils.strTo t (some (Common.StringUtils.toString t v ++ [0#8])) old = (true, v) ∧
      ∀ target : Util.Str.Target, target.type = t →
        Util.Str.convertString target (Util.Str.toString target v ++ [0#8]) = some v := by
  constructor
  · rw [Common.StringUtils.toString_eq h]
    exact Common.StringUtils.strTo_printed h old
  · rintro target rfl
    rw [Util.Str.toString_eq h]
    exact Util.Str.convertString_printed h

/-- The smallest `int32_t`. -/
theorem strTo_toString_min :
    IntType.int32.Fits (-2147483648) ∧
      Common.StringUtils.strTo .int32
        (some (Common.StringUtils.toString .int32 (-2147483648) ++ [0#8])) 0 =
        (true, -2147483648) ∧
      ∀ target : Util.Str.Target, target.type = .int32 →
        Util.Str.convertString target (Util.Str.toString target (-2147483648) ++ [0#8]) =
          some (-2147483648) :=
  ⟨by decide, strTo_toString .int32 (-2147483648) 0 (by decide)⟩

end Rtp
