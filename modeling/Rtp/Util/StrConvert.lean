import Rtp.Lib.Strtol
import Rtp.Util.StringPiece

/-!
# Numbers from string pieces

`orc::str::ToInt32`, `ToUint32`, `ToInt64` and `ToUint64` (`orc/util/str_util.cc`), and the
`StringConvert` of a `StringPiece` that calls them with the piece's memory and length.  The
length is compared with the place where `strtol` has stopped; `strtol` itself reads on behind
the piece.

* `toNumber` — what the four functions do, and the four of them.
* `GoesOn` — a longer beginning of the memory is a numeral.
* `convert_eq_some_iff` — **when a conversion succeeds**: with an empty piece or a numeral in
  the range that does not go on; the number is that of the piece.
* `convert_eq_iff` — two buffers with the same piece give the same result if and only if the
  piece would be rejected anyway, or goes on in both or in neither.
-/

namespace Rtp.Util.Str

open Numeral

/-! ## The functions -/

/-- The memory is converted; `none` if the function returns `false`. -/
def toNumber (strtol : List Byte → Strto) (outOfRange : ℤ → Bool) (cast : ℤ → ℤ)
    (str : List Byte) (len : ℕ) : Option ℤ :=
  let r := strtol str
  if r.erange = true ∨ len ≠ r.stop then none
  else if outOfRange r.value = true then none
  else some (cast r.value)

/-- The upper bound is that of `uint32_t`. -/
def toInt32 : List Byte → ℕ → Option ℤ :=
  toNumber strtol (fun r => r > IntType.uint32.hi ∨ r < IntType.int32.lo) IntType.int32.wrap

def toUint32 : List Byte → ℕ → Option ℤ :=
  toNumber strtol (fun r => r < 0 ∨ r > IntType.uint32.hi) IntType.uint32.wrap

def toInt64 : List Byte → ℕ → Option ℤ := toNumber strtol (fun _ => false) IntType.int64.wrap

def toUint64 : List Byte → ℕ → Option ℤ := toNumber strtoul (fun _ => false) IntType.uint64.wrap

/-- The integer types that a string is converted to. -/
inductive Target where
  | int32
  | uint32
  | int64
  | uint64
  deriving DecidableEq, Repr

/-- `StringConvert`: the function for each type. -/
def convert : Target → List Byte → ℕ → Option ℤ
  | .int32 => toInt32
  | .uint32 => toUint32
  | .int64 => toInt64
  | .uint64 => toUint64

/-! ## When a conversion succeeds -/

/-- A longer beginning of the memory is a numeral. -/
def GoesOn (str : List Byte) (len : ℕ) : Prop :=
  ∃ k z, len < k ∧ k ≤ str.length ∧ IsNumeral (str.take k) z

variable {str : List Byte} {len : ℕ} {v : ℤ} {t : Target}

section Family

variable {conv : ℤ → ℤ × Bool} {outOfRange : ℤ → Bool} {cast : ℤ → ℤ}

theorem toNumber_eq_some_iff_strto {strtol : List Byte → Strto} :
    toNumber strtol outOfRange cast str len = some v ↔
      len = (strtol str).stop ∧ (strtol str).erange = false ∧
        outOfRange (strtol str).value = false ∧ v = cast (strtol str).value := by
  unfold toNumber
  rw [Option.ite_none_left_eq_some, Option.ite_none_left_eq_some, not_or, Option.some.injEq,
    Bool.not_eq_true, Bool.not_eq_true, not_not, eq_comm (a := v), and_assoc]
  exact and_left_comm

/-- The number is that of the piece, if the piece is all that was read. -/
theorem toNumber_eq_some_iff (hlen : len ≤ str.length) :
    toNumber (strto conv) outOfRange cast str len = some v ↔
      ¬GoesOn str len ∧ (len = 0 ∧ outOfRange 0 = false ∧ v = cast 0 ∨
        ∃ z, IsNumeral (str.take len) z ∧ (conv z).2 = false ∧ outOfRange (conv z).1 = false ∧
          v = cast (conv z).1) := by
  rw [toNumber_eq_some_iff_strto, strto]
  cases hscan : scan str with
  | none =>
    -- no beginning of the memory is a numeral
    have hnone := scan_eq_none_iff.mp hscan
    constructor
    · rintro ⟨rfl, -, hin, hv⟩
      refine ⟨?_, .inl ⟨rfl, hin, hv⟩⟩
      rintro ⟨k, z, -, -, hnum⟩
      exact hnone k z hnum
    · rintro ⟨-, ⟨rfl, hin, hv⟩ | ⟨z, hnum, -⟩⟩
      · exact ⟨rfl, rfl, hin, hv⟩
      · exact absurd hnum (hnone len z)
  | some p =>
    obtain ⟨n, z⟩ := p
    obtain ⟨hn, hnum, hmax⟩ := scan_eq_some_iff.mp hscan
    constructor
    · rintro ⟨rfl, hrange, hin, hv⟩
      refine ⟨?_, .inr ⟨z, hnum, hrange, hin, hv⟩⟩
      rintro ⟨k, z', hlt, hk, hnum'⟩
      exact hmax k z' hlt hk hnum'
    · rintro ⟨hstop, ⟨rfl, -⟩ | ⟨z', hnum', hrange, hin, hv⟩⟩
      · -- the numeral goes on behind an empty piece
        have hpos : 0 < n := by
          refine Nat.pos_of_ne_zero fun h0 => hnum.ne_nil ?_
          rw [h0, List.take_zero]
        exact absurd ⟨n, z, hpos, hn, hnum⟩ hstop
      · have hscan' : scan str = some (len, z') :=
          scan_eq_some_iff.mpr ⟨hlen, hnum', fun k z'' hlt hk hnum'' =>
            hstop ⟨k, z'', hlt, hk, hnum''⟩⟩
        obtain ⟨rfl, rfl⟩ := Prod.mk.inj (Option.some.inj (hscan.symm.trans hscan'))
        exact ⟨rfl, hrange, hin, hv⟩

end Family

/-- The numbers that are accepted for a type. -/
def Target.InRange : Target → ℤ → Prop
  | .int32, z => IntType.int32.lo ≤ z ∧ z ≤ IntType.uint32.hi
  | .uint32, z => 0 ≤ z ∧ z ≤ IntType.uint32.hi
  | .int64, z => IntType.int64.Fits z
  | .uint64, z => z.natAbs ≤ IntType.uint64.hi

/-- What is stored for a number. -/
def Target.store : Target → ℤ → ℤ
  | .int32, z => IntType.int32.wrap z
  | .uint32, z => z
  | .int64, z => z
  | .uint64, z => IntType.uint64.wrap z

/-- What a piece is converted to if nothing of what follows it is read. -/
def Gives (t : Target) (piece : List Byte) (v : ℤ) : Prop :=
  piece = [] ∧ v = 0 ∨ ∃ z, IsNumeral piece z ∧ t.InRange z ∧ v = t.store z

/-- One function, with the facts about its type. -/
theorem toNumber_iff_gives {conv : ℤ → ℤ × Bool} {outOfRange : ℤ → Bool} {cast : ℤ → ℤ}
    (hlen : len ≤ str.length) (hzero : outOfRange 0 = false ∧ cast 0 = 0)
    (hrange : ∀ z, (conv z).2 = false ∧ outOfRange (conv z).1 = false ↔ t.InRange z)
    (hcast : ∀ z, t.InRange z → cast (conv z).1 = t.store z) :
    toNumber (strto conv) outOfRange cast str len = some v ↔
      ¬GoesOn str len ∧ Gives t (str.take len) v := by
  rw [toNumber_eq_some_iff hlen]
  refine and_congr_right fun _ => or_congr ?_ (exists_congr fun z => and_congr_right fun _ => ?_)
  · have hnil : str.take len = [] ↔ len = 0 := by
      rw [← List.length_eq_zero_iff, List.length_take_of_le hlen]
    rw [hnil, hzero.1, hzero.2, eq_self, true_and]
  · rw [← and_assoc, hrange]
    exact and_congr_right fun hz => by rw [hcast z hz]

/-- A function that calls `strtol`. -/
theorem toNumber_strtol_iff_gives {outOfRange : ℤ → Bool} {cast : ℤ → ℤ}
    (hlen : len ≤ str.length) (hzero : outOfRange 0 = false ∧ cast 0 = 0)
    (hrange : ∀ z, IntType.int64.Fits z ∧ outOfRange z = false ↔ t.InRange z)
    (hcast : ∀ z, t.InRange z → cast z = t.store z) :
    toNumber strtol outOfRange cast str len = some v ↔
      ¬GoesOn str len ∧ Gives t (str.take len) v := by
  refine toNumber_iff_gives hlen hzero (fun z => ?_) fun z hz => ?_
  · rw [← hrange z, clampLong_snd_eq_false_iff]
    exact and_congr_right fun hfits => by rw [clampLong_fst hfits]
  · rw [clampLong_fst ((hrange z).mpr hz).1]
    exact hcast z hz

/-- A conversion succeeds if the piece gives a number and does not go on. -/
theorem convert_eq_some_iff (t : Target) (hlen : len ≤ str.length) :
    convert t str len = some v ↔ ¬GoesOn str len ∧ Gives t (str.take len) v := by
  have hlong : ∀ z : ℤ, IntType.int64.Fits z ↔
      -9223372036854775808 ≤ z ∧ z ≤ 9223372036854775807 := fun z => Iff.rfl
  have hlo : IntType.int32.lo = -2147483648 := rfl
  have hhi : IntType.uint32.hi = 4294967295 := rfl
  cases t with
  | int32 =>
    rw [convert, toInt32]
    refine toNumber_strtol_iff_gives hlen ?_ ?_ ?_
    · exact ⟨rfl, rfl⟩
    · intro z
      rw [decide_eq_false_iff_not, hlong, Target.InRange]
      omega
    · intro z _
      rfl
  | uint32 =>
    rw [convert, toUint32]
    refine toNumber_strtol_iff_gives hlen ?_ ?_ ?_
    · exact ⟨rfl, rfl⟩
    · intro z
      rw [decide_eq_false_iff_not, hlong, Target.InRange]
      omega
    · exact fun z hz => IntType.wrap_of_fits hz
  | int64 =>
    rw [convert, toInt64]
    refine toNumber_strtol_iff_gives hlen ?_ ?_ ?_
    · exact ⟨rfl, rfl⟩
    · exact fun z => and_iff_left rfl
    · exact fun z hz => IntType.wrap_of_fits hz
  | uint64 =>
    rw [convert, toUint64, strtoul]
    refine toNumber_iff_gives hlen ?_ ?_ ?_
    · exact ⟨rfl, rfl⟩
    · intro z
      rw [wrapULong_snd_eq_false_iff]
      exact and_iff_left rfl
    · intro z hz
      rw [wrapULong_fst hz]
      exact IntType.wrap_of_fits (IntType.fits_uint64_wrap z)

/-! ## Two buffers -/

/-- Memory with a null character at or behind the end of a piece of length `n`. -/
structure Buffer (n : ℕ) where
  bytes : List Byte
  nul_mem : 0#8 ∈ bytes.drop n

namespace Buffer

variable {n : ℕ}

/-- The bytes of the piece. -/
def piece (b : Buffer n) : List Byte := b.bytes.take n

theorem le_length (b : Buffer n) : n ≤ b.bytes.length := by
  have := List.length_pos_of_mem b.nul_mem
  rw [List.length_drop] at this
  omega

end Buffer

/-- A piece that is converted, depending on what follows it. -/
def Accepts (t : Target) (piece : List Byte) : Prop :=
  piece = [] ∨ ∃ z, IsNumeral piece z ∧ t.InRange z

theorem accepts_iff_exists_gives {piece : List Byte} :
    Accepts t piece ↔ ∃ v, Gives t piece v := by
  constructor
  · rintro (hnil | ⟨z, hnum, hz⟩)
    · exact ⟨0, .inl ⟨hnil, rfl⟩⟩
    · exact ⟨t.store z, .inr ⟨z, hnum, hz, rfl⟩⟩
  · rintro ⟨v, ⟨hnil, -⟩ | ⟨z, hnum, hz, -⟩⟩
    · exact .inl hnil
    · exact .inr ⟨z, hnum, hz⟩

/-- Two buffers with the same piece give the same result if and only if the piece is rejected
anyway, or goes on in both or in neither of them. -/
theorem convert_eq_iff (t : Target) {n : ℕ} (b b' : Buffer n) (h : b.piece = b'.piece) :
    convert t b.bytes n = convert t b'.bytes n ↔
      (Accepts t b.piece → (GoesOn b.bytes n ↔ GoesOn b'.bytes n)) := by
  have hb : ∀ v, convert t b.bytes n = some v ↔ ¬GoesOn b.bytes n ∧ Gives t b.piece v :=
    fun v => convert_eq_some_iff t b.le_length
  have hb' : ∀ v, convert t b'.bytes n = some v ↔ ¬GoesOn b'.bytes n ∧ Gives t b.piece v := by
    intro v
    rw [h]
    exact convert_eq_some_iff t b'.le_length
  constructor
  · intro heq hacc
    obtain ⟨v, hv⟩ := accepts_iff_exists_gives.mp hacc
    have hiff := (hb v).symm.trans (heq ▸ hb' v)
    rw [and_iff_left hv, and_iff_left hv] at hiff
    exact not_iff_not.mp hiff
  · intro hiff
    refine Option.ext fun v => ?_
    rw [hb, hb']
    refine and_congr_left fun hv => ?_
    rw [hiff (accepts_iff_exists_gives.mpr ⟨v, hv⟩)]

/-- The string `1`, and a part of the string `12`. -/
def oneEnds : Buffer 1 := ⟨[49#8, 0#8], by decide⟩

def oneTwo : Buffer 1 := ⟨[49#8, 50#8, 0#8], by decide⟩

theorem convert_eq_iff_one :
    oneEnds.piece = oneTwo.piece ∧
      (convert .int32 oneEnds.bytes 1 = convert .int32 oneTwo.bytes 1 ↔
        (Accepts .int32 oneEnds.piece → (GoesOn oneEnds.bytes 1 ↔ GoesOn oneTwo.bytes 1))) :=
  ⟨rfl, convert_eq_iff .int32 oneEnds oneTwo rfl⟩

/-- The piece of one character is converted in the first buffer and rejected in the second. -/
theorem convert_one_twelve :
    oneEnds.piece = oneTwo.piece ∧
      ¬convert .int32 oneEnds.bytes 1 = convert .int32 oneTwo.bytes 1 :=
  ⟨rfl, by decide +kernel⟩

end Rtp.Util.Str
