import Rtp.Lib.Strtol

/-!
# Numbers from strings

`common::StringUtils::strToInt8` to `strToUInt64` (`common/string_utils.cc`): eight functions
over `strtol` and `strtoul`.  Those for 32 and 64 bits look at the first character, call the C
library and look at `errno` and at the end of the number; the others narrow what those for 32
bits have stored.

* `strToLong`, `strToNarrow` — the two kinds of functions, and the eight of them.
* `strToLong_eq_true_iff`, `strToNarrow_eq_true_iff` — when each kind succeeds.
* `strTo_signed_iff` — a signed type: **a numeral in the range**, and its number is stored.
* `strTo_unsigned_iff` — an unsigned one: a minus sign after white space is overlooked, and the
  number is taken modulo 2⁶⁴.
* `strTo_exact_iff` — **when a function is right**.
-/

namespace Rtp.Common.StringUtils

open Numeral

/-! ## The functions -/

/-- The character at an offset. -/
def charAt (s : List (BitVec 8)) (i : ℕ) : BitVec 8 := s.getD i 0#8

/-- A function that calls the C library: whether it succeeds, and what is in `value` then.
`NULL` is `none`. -/
def strToLong (rejectMinus : Bool) (strtol : List (BitVec 8) → Strto) (inRange : ℤ → Bool)
    (cast : ℤ → ℤ) (str : Option (List (BitVec 8))) (value : ℤ) : Bool × ℤ :=
  match str with
  | none => (false, value)
  | some s =>
    if charAt s 0 = 0#8 ∨ rejectMinus = true ∧ charAt s 0 = 45#8 then (false, value)
    else
      let r := strtol s
      if inRange r.value = false then (false, value)
      else (decide (r.erange = false ∧ charAt s r.stop = 0#8), cast r.value)

/-- A function that calls one for 32 bits. -/
def strToNarrow (strTo32 : Option (List (BitVec 8)) → ℤ → Bool × ℤ) (inRange : ℤ → Bool)
    (cast : ℤ → ℤ) (str : Option (List (BitVec 8))) (_value : ℤ) : Bool × ℤ :=
  let r := strTo32 str 0
  (r.1 && inRange r.2, cast r.2)

def strToInt32 : Option (List (BitVec 8)) → ℤ → Bool × ℤ :=
  strToLong false strtol (fun v => IntType.int32.Fits v) IntType.int32.wrap

/-- The value goes through an `int32_t`. -/
def strToUInt32 : Option (List (BitVec 8)) → ℤ → Bool × ℤ :=
  strToLong true strtoul (fun v => v ≤ IntType.uint32.hi)
    fun v => IntType.uint32.wrap (IntType.int32.wrap v)

def strToInt64 : Option (List (BitVec 8)) → ℤ → Bool × ℤ :=
  strToLong false strtol (fun _ => true) IntType.int64.wrap

def strToUInt64 : Option (List (BitVec 8)) → ℤ → Bool × ℤ :=
  strToLong true strtoul (fun _ => true) IntType.uint64.wrap

def strToInt8 : Option (List (BitVec 8)) → ℤ → Bool × ℤ :=
  strToNarrow strToInt32 (fun v => IntType.int8.Fits v) IntType.int8.wrap

def strToUInt8 : Option (List (BitVec 8)) → ℤ → Bool × ℤ :=
  strToNarrow strToUInt32 (fun v => v ≤ IntType.uint8.hi) IntType.uint8.wrap

def strToInt16 : Option (List (BitVec 8)) → ℤ → Bool × ℤ :=
  strToNarrow strToInt32 (fun v => IntType.int16.Fits v) IntType.int16.wrap

def strToUInt16 : Option (List (BitVec 8)) → ℤ → Bool × ℤ :=
  strToNarrow strToUInt32 (fun v => v ≤ IntType.uint16.hi) IntType.uint16.wrap

/-- The function for each type. -/
def strTo : IntType → Option (List (BitVec 8)) → ℤ → Bool × ℤ
  | .int8 => strToInt8
  | .uint8 => strToUInt8
  | .int16 => strToInt16
  | .uint16 => strToUInt16
  | .int32 => strToInt32
  | .uint32 => strToUInt32
  | .int64 => strToInt64
  | .uint64 => strToUInt64

/-! ## When a function succeeds -/

variable {s : CString} {v value : ℤ} {t : IntType}

theorem charAt_zero_eq_minus_iff : charAt s.memory 0 = 45#8 ↔ s.text.head? = some 45#8 := by
  unfold charAt CString.memory
  cases s.text with
  | nil => simp
  | cons b text => simp

variable {inRange : ℤ → Bool} {cast : ℤ → ℤ}

/-- A string is rejected by its first character, or converted as a whole. -/
theorem strToLong_eq_true_iff {rejectMinus : Bool} {convert : ℤ → ℤ × Bool} :
    strToLong rejectMinus (strto convert) inRange cast (some s.memory) value = (true, v) ↔
      (rejectMinus = true → s.text.head? ≠ some 45#8) ∧
        ∃ z, IsNumeral s.text z ∧ (convert z).2 = false ∧ inRange (convert z).1 = true ∧
          v = cast (convert z).1 := by
  have hfirst : charAt s.memory 0 = 0#8 ↔ s.text = [] := by
    rw [charAt, s.getD_memory_eq_zero_iff (Nat.zero_le _), ← List.length_eq_zero_iff, eq_comm]
  unfold strToLong
  dsimp only
  split
  next hreject =>
    rw [hfirst, charAt_zero_eq_minus_iff] at hreject
    refine ⟨fun h => absurd h (by simp), ?_⟩
    rintro ⟨hminus, z, hnum, -⟩
    rcases hreject with hnil | ⟨hrej, hhead⟩
    · exact absurd hnil hnum.ne_nil
    · exact absurd hhead (hminus hrej)
  next hreject =>
    rw [hfirst, charAt_zero_eq_minus_iff, not_or] at hreject
    obtain ⟨hne, hminus⟩ := hreject
    constructor
    · intro h
      split at h
      · simp at h
      next hin =>
        obtain ⟨hok, rfl⟩ := Prod.mk.inj h
        obtain ⟨z, hnum, hrange⟩ :=
          (CString.strto_accepts_iff convert hne).mp (of_decide_eq_true hok)
        rw [CString.strto_of_isNumeral convert hnum] at hin ⊢
        exact ⟨fun hrej hhead => hminus ⟨hrej, hhead⟩, z, hnum, hrange, by simpa using hin, rfl⟩
    · rintro ⟨-, z, hnum, hrange, hin, rfl⟩
      have hok := (CString.strto_accepts_iff convert hne).mpr ⟨z, hnum, hrange⟩
      unfold charAt
      rw [decide_eq_true hok, CString.strto_of_isNumeral convert hnum, if_neg (by simp [hin])]

theorem strToNarrow_eq_true_iff {strTo32 : Option (List (BitVec 8)) → ℤ → Bool × ℤ}
    {str : Option (List (BitVec 8))} : strToNarrow strTo32 inRange cast str value = (true, v) ↔
      ∃ w, strTo32 str 0 = (true, w) ∧ inRange w = true ∧ v = cast w := by
  unfold strToNarrow
  dsimp only
  generalize strTo32 str 0 = r
  obtain ⟨ok, w⟩ := r
  rw [Prod.mk.injEq, Bool.and_eq_true]
  constructor
  · rintro ⟨⟨rfl, hin⟩, rfl⟩
    exact ⟨w, rfl, hin, rfl⟩
  · rintro ⟨w', hw, hin, rfl⟩
    obtain ⟨rfl, rfl⟩ := Prod.mk.inj hw
    exact ⟨⟨rfl, hin⟩, rfl⟩

/-! ## Signed types -/

/-- A signed type that is converted by the C library. -/
theorem strToLong_strtol_iff (ht : t.signed = true)
    (hin : ∀ z, IntType.int64.Fits z → (inRange z = true ↔ t.Fits z)) :
    strToLong false strtol inRange t.wrap (some s.memory) value = (true, v) ↔
      IsNumeral s.text v ∧ t.Fits v := by
  show strToLong false (strto clampLong) inRange t.wrap (some s.memory) value = (true, v) ↔ _
  rw [strToLong_eq_true_iff]
  constructor
  · rintro ⟨-, z, hnum, hrange, hz, rfl⟩
    rw [clampLong_snd_eq_false_iff] at hrange
    rw [clampLong_fst hrange] at hz ⊢
    have hfits := (hin z hrange).mp hz
    rw [IntType.wrap_of_fits hfits]
    exact ⟨hnum, hfits⟩
  · rintro ⟨hnum, hfits⟩
    have hlong : IntType.int64.Fits v := hfits.mono ht t.size_le
    refine ⟨fun h => absurd h (by simp), v, hnum, clampLong_snd_eq_false_iff.mpr hlong, ?_, ?_⟩
    · rw [clampLong_fst hlong]
      exact (hin v hlong).mpr hfits
    · rw [clampLong_fst hlong, IntType.wrap_of_fits hfits]

theorem strToInt32_iff :
    strToInt32 (some s.memory) value = (true, v) ↔ IsNumeral s.text v ∧ IntType.int32.Fits v :=
  strToLong_strtol_iff rfl fun _ _ => decide_eq_true_iff

/-- A signed type that is narrowed. -/
theorem strToNarrow_strToInt32_iff (ht : t.signed = true) (hsize : t.size ≤ 2 ^ 32) :
    strToNarrow strToInt32 (fun w => t.Fits w) t.wrap (some s.memory) value = (true, v) ↔
      IsNumeral s.text v ∧ t.Fits v := by
  rw [strToNarrow_eq_true_iff]
  constructor
  · rintro ⟨w, hw, hin, rfl⟩
    have hfits : t.Fits w := of_decide_eq_true hin
    rw [IntType.wrap_of_fits hfits]
    exact ⟨(strToInt32_iff.mp hw).1, hfits⟩
  · rintro ⟨hnum, hfits⟩
    exact ⟨v, strToInt32_iff.mpr ⟨hnum, hfits.mono ht hsize⟩, decide_eq_true hfits,
      (IntType.wrap_of_fits hfits).symm⟩

/-- A function for a signed type succeeds with the numerals in its range. -/
theorem strTo_signed_iff (ht : t.signed = true) :
    strTo t (some s.memory) value = (true, v) ↔ IsNumeral s.text v ∧ t.Fits v := by
  cases t with
  | int8 => exact @strToNarrow_strToInt32_iff s v value .int8 rfl (by decide)
  | int16 => exact @strToNarrow_strToInt32_iff s v value .int16 rfl (by decide)
  | int32 => exact strToInt32_iff
  | int64 => exact strToLong_strtol_iff rfl fun _ hz => ⟨fun _ => hz, fun _ => rfl⟩
  | uint8 | uint16 | uint32 | uint64 => exact absurd ht (by decide)

/-! ## Unsigned types -/

/-- What a function for an unsigned type makes of a string: a numeral that does not begin with a
minus sign, modulo 2⁶⁴. -/
def ReadsUnsigned (t : IntType) (text : List (BitVec 8)) (v : ℤ) : Prop :=
  text.head? ≠ some 45#8 ∧ v ≤ t.hi ∧
    ∃ z, IsNumeral text z ∧ z.natAbs ≤ IntType.uint64.hi ∧ v = IntType.uint64.wrap z

theorem ReadsUnsigned.fits (h : ReadsUnsigned t s.text v) (ht : t.signed = false) : t.Fits v := by
  obtain ⟨-, hle, z, -, -, rfl⟩ := h
  exact (IntType.fits_iff_of_unsigned ht).mpr ⟨(IntType.fits_uint64_wrap z).1, hle⟩

/-- An unsigned type that is converted by the C library. -/
theorem strToLong_strtoul_iff (ht : t.signed = false)
    (hin : ∀ w, IntType.uint64.Fits w → (inRange w = true ↔ w ≤ t.hi))
    (hcast : ∀ w, t.Fits w → cast w = w) :
    strToLong true strtoul inRange cast (some s.memory) value = (true, v) ↔
      ReadsUnsigned t s.text v := by
  show strToLong true (strto wrapULong) inRange cast (some s.memory) value = (true, v) ↔ _
  rw [strToLong_eq_true_iff]
  constructor
  · rintro ⟨hminus, z, hnum, hrange, hz, rfl⟩
    rw [wrapULong_snd_eq_false_iff] at hrange
    rw [wrapULong_fst hrange] at hz ⊢
    have hle := (hin _ (IntType.fits_uint64_wrap z)).mp hz
    have hfits : t.Fits (IntType.uint64.wrap z) :=
      (IntType.fits_iff_of_unsigned ht).mpr ⟨(IntType.fits_uint64_wrap z).1, hle⟩
    rw [hcast _ hfits]
    exact ⟨hminus rfl, hle, z, hnum, hrange, rfl⟩
  · intro h
    have hfits := h.fits ht
    obtain ⟨hminus, hle, z, hnum, hrange, rfl⟩ := h
    refine ⟨fun _ => hminus, z, hnum, wrapULong_snd_eq_false_iff.mpr hrange, ?_, ?_⟩
    · rw [wrapULong_fst hrange]
      exact (hin _ (IntType.fits_uint64_wrap z)).mpr hle
    · rw [wrapULong_fst hrange, hcast _ hfits]

theorem strToUInt32_iff :
    strToUInt32 (some s.memory) value = (true, v) ↔ ReadsUnsigned .uint32 s.text v := by
  refine strToLong_strtoul_iff rfl (fun _ _ => decide_eq_true_iff) fun w hw => ?_
  -- the way through an `int32_t` does not change the value
  show w.bmod (2 ^ 32 : ℕ) % (2 ^ 32 : ℕ) = w
  rw [Int.bmod_emod]
  exact IntType.wrap_of_fits hw

/-- An unsigned type that is narrowed. -/
theorem strToNarrow_strToUInt32_iff (ht : t.signed = false) (hsize : t.hi ≤ IntType.uint32.hi) :
    strToNarrow strToUInt32 (fun w => w ≤ t.hi) t.wrap (some s.memory) value = (true, v) ↔
      ReadsUnsigned t s.text v := by
  rw [strToNarrow_eq_true_iff]
  constructor
  · rintro ⟨w, hw, hin, rfl⟩
    obtain ⟨hminus, -, hz⟩ := strToUInt32_iff.mp hw
    have hreads : ReadsUnsigned t s.text w := ⟨hminus, of_decide_eq_true hin, hz⟩
    rwa [IntType.wrap_of_fits (hreads.fits ht)]
  · intro h
    have hfits := h.fits ht
    obtain ⟨hminus, hle, hz⟩ := h
    exact ⟨v, strToUInt32_iff.mpr ⟨hminus, hle.trans hsize, hz⟩, decide_eq_true hle,
      (IntType.wrap_of_fits hfits).symm⟩

/-- A function for an unsigned type succeeds with a numeral in its range modulo 2⁶⁴. -/
theorem strTo_unsigned_iff (ht : t.signed = false) :
    strTo t (some s.memory) value = (true, v) ↔ ReadsUnsigned t s.text v := by
  cases t with
  | uint8 => exact @strToNarrow_strToUInt32_iff s v value .uint8 rfl (by decide)
  | uint16 => exact @strToNarrow_strToUInt32_iff s v value .uint16 rfl (by decide)
  | uint32 => exact strToUInt32_iff
  | uint64 =>
    exact strToLong_strtoul_iff rfl (fun w hw => ⟨fun _ => hw.2, fun _ => rfl⟩)
      fun w hw => IntType.wrap_of_fits hw
  | int8 | int16 | int32 | int64 => exact absurd ht (by decide)

/-! ## When a function is right -/

/-- A negative numeral for an unsigned type whose sign comes after white space, and that is in the
range modulo 2⁶⁴. -/
def SignOverlooked (t : IntType) (text : List (BitVec 8)) : Prop :=
  t.signed = false ∧ text.head? ≠ some 45#8 ∧
    ∃ z, IsNumeral text z ∧ -2 ^ 64 < z ∧ z ≤ t.hi - 2 ^ 64

/-- A function succeeds only with a numeral in the range of its type, whose number it stores, if
and only if the string is not one with an overlooked sign. -/
theorem strTo_exact_iff (t : IntType) (s : CString) (value : ℤ) :
    ((strTo t (some s.memory) value).1 = true →
      ∃ z, IsNumeral s.text z ∧ t.Fits z ∧ (strTo t (some s.memory) value).2 = z) ↔
    ¬SignOverlooked t s.text := by
  cases hs : t.signed with
  | true =>
    refine ⟨fun _ hover => absurd (hs.symm.trans hover.1) (by simp), fun _ hok => ?_⟩
    obtain ⟨hnum, hfits⟩ := (strTo_signed_iff hs).mp (Prod.ext hok rfl)
    exact ⟨_, hnum, hfits, rfl⟩
  | false =>
    have hhi : t.hi < 2 ^ 64 := by
      have := t.size_le
      rw [IntType.hi, if_neg (by simp [hs])]
      omega
    constructor
    · rintro h ⟨-, hminus, z, hnum, hlow, hle⟩
      have hneg : z < 0 := by omega
      have habs : (z.natAbs : ℤ) ≤ IntType.uint64.hi := by
        show (z.natAbs : ℤ) ≤ 2 ^ 64 - 1
        omega
      have hreads : ReadsUnsigned t s.text (IntType.uint64.wrap z) := by
        refine ⟨hminus, ?_, z, hnum, habs, rfl⟩
        rw [IntType.uint64_wrap_of_neg hneg habs]
        omega
      rw [(strTo_unsigned_iff hs).mpr hreads] at h
      obtain ⟨z', hnum', hfits, -⟩ := h rfl
      have := ((IntType.fits_iff_of_unsigned hs).mp hfits).1
      rw [hnum.unique hnum'] at hneg
      omega
    · intro hover hok
      obtain ⟨hminus, hle, z, hnum, habs, hv⟩ := (strTo_unsigned_iff hs).mp (Prod.ext hok rfl)
      by_cases hneg : z < 0
      · refine absurd ⟨hs, hminus, z, hnum, ?_, ?_⟩ hover
        · have habs : (z.natAbs : ℤ) ≤ 2 ^ 64 - 1 := habs
          omega
        · rw [hv, IntType.uint64_wrap_of_neg hneg habs] at hle
          omega
      · have hfits : IntType.uint64.Fits z := by
          refine (IntType.fits_iff_of_unsigned rfl).mpr ⟨by omega, ?_⟩
          omega
        rw [IntType.wrap_of_fits hfits] at hv
        rw [hv] at hle
        exact ⟨z, hnum, (IntType.fits_iff_of_unsigned hs).mpr ⟨by omega, hle⟩, hv⟩

/-- A blank, a minus sign and a five. -/
def blankMinusFive : CString := ⟨[32#8, 45#8, 53#8], [], by decide⟩

theorem isNumeral_blankMinusFive : IsNumeral blankMinusFive.text (-5) :=
  ⟨[32#8], .minus, [53#8], rfl, by decide, by decide, by decide, by decide⟩

/-- `strToUInt64` takes it for 2⁶⁴ - 5. -/
theorem strTo_blank_minus :
    ¬((strTo .uint64 (some blankMinusFive.memory) 0).1 = true →
      ∃ z, IsNumeral blankMinusFive.text z ∧ IntType.uint64.Fits z ∧
        (strTo .uint64 (some blankMinusFive.memory) 0).2 = z) := by
  intro h
  obtain ⟨z, hnum, hfits, -⟩ := h (by decide +kernel)
  rw [← isNumeral_blankMinusFive.unique hnum] at hfits
  exact absurd hfits (by decide)

end Rtp.Common.StringUtils
