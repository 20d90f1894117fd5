import Rtp.Lib.Blocked

/-!
# Converting and adding arrays of floats

`ConvertHelper` (`qed/converter.cc`): the routines with a loop over eight elements at once and a
loop over the rest, on two arrays that do not overlap.  The arithmetic and the conversions are
those of one element, and the instructions on vectors do them in each lane; nothing is assumed of
them but that the factors of a product may be swapped, which the two loops write in a different
order.

* `Scalars` — the operations on an element, `Fp32Fp32.addMA` and so on — the routines.
* `convertHelper_eq_scalar` — **each routine does the operation of its second loop at every index
  below the length**, and accesses nothing beyond.
* `not_returns_of_wrap` — with a length near `2 ^ 64` the test of the first loop wraps around and
  the loop does not end; no array is as long.
-/

namespace Rtp.Qed.ConvertHelper

open Blocked

universe u

variable {F32 F16 D S : Type u}

/-! ## The operations -/

/-- The arithmetic of `fp32_t` and the conversions from and to `fp16_t`, the second with a rounding
mode. -/
structure Scalars (F32 F16 : Type u) where
  add : F32 → F32 → F32
  mul : F32 → F32 → F32
  mul_comm : ∀ x y, mul x y = mul y x
  /-- `_cvtsh_ss`. -/
  cvtshSs : F16 → F32
  /-- `_cvtss_sh`. -/
  cvtssSh : F32 → ℕ → F16

/-- `_mm_load_ps1`. -/
def loadPs1 (a : F32) : Lanes 4 F32 := fun _ => a

/-- `_mm256_broadcast_ps`: the four lanes twice. -/
def broadcastPs (a128 : Lanes 4 F32) : Lanes 8 F32 := fun l =>
  a128 ⟨l % 4, Nat.mod_lt _ (by decide)⟩

/-! ## The bodies of the loops -/

section Bodies

variable (ops : Scalars F32 F16) (convert : S → F32)

/-- The body of the first loop of `AddMA`, for a source that is converted in each lane. -/
def addMABlock (a : F32) (i : ℕ) : Exec F32 S PUnit := do
  let a128 := loadPs1 a
  let a256 := broadcastPs a128
  let s256 := lift convert (← loadSrc 8 i)
  let mul := lift₂ ops.mul a256 s256
  let d256 ← loadDst 8 i
  storeDst i (lift₂ ops.add d256 mul)

/-- The body of its second loop; an element is a single lane. -/
def addMAOne (a : F32) (i : ℕ) : Exec F32 S PUnit := do
  let d ← loadDst 1 i
  let s ← loadSrc 1 i
  storeDst i fun l : Fin 1 => ops.add (d l) (ops.mul (convert (s l)) a)

/-- The body of the first loop of `Add`. -/
def addBlock (i : ℕ) : Exec F32 S PUnit := do
  let s256 := lift convert (← loadSrc 8 i)
  let d256 ← loadDst 8 i
  storeDst i (lift₂ ops.add d256 s256)

/-- The body of its second loop. -/
def addOne (i : ℕ) : Exec F32 S PUnit := do
  let d ← loadDst 1 i
  let s ← loadSrc 1 i
  storeDst i fun l : Fin 1 => ops.add (d l) (convert (s l))

end Bodies

/-- The bodies of both loops of `Assign`, with eight lanes and with one. -/
def assignBody (convert : S → D) (k i : ℕ) : Exec D S PUnit := do
  let s ← loadSrc k i
  storeDst i (lift convert s)

/-! ## The routines -/

/-- The two loops, and `return true`. -/
def Routine (block one : ℕ → Exec D S PUnit) (length : BitVec 64) (s : Machine D S)
    (r : Bool × Machine D S) : Prop :=
  Runs 8 length block one s r.2 ∧ r.1 = true

/-- `ConvertHelper<fp32_t, fp32_t>::AddMA`. -/
def Fp32Fp32.addMA (ops : Scalars F32 F16) (a : F32) :=
  Routine (addMABlock ops (id : F32 → F32) a) (addMAOne ops id a)

/-- `ConvertHelper<fp32_t, fp32_t>::Add`. -/
def Fp32Fp32.add (ops : Scalars F32 F16) := Routine (addBlock ops (id : F32 → F32)) (addOne ops id)

/-- `ConvertHelper<fp16_t, fp32_t>::Assign`; both conversions round in mode 0. -/
def Fp16Fp32.assign (ops : Scalars F32 F16) :=
  Routine (assignBody (ops.cvtssSh · 0) 8) (assignBody (ops.cvtssSh · 0) 1)

/-- `ConvertHelper<fp32_t, fp16_t>::Assign`. -/
def Fp32Fp16.assign (ops : Scalars F32 F16) :=
  Routine (assignBody ops.cvtshSs 8) (assignBody ops.cvtshSs 1)

/-- `ConvertHelper<fp32_t, fp16_t>::AddMA`. -/
def Fp32Fp16.addMA (ops : Scalars F32 F16) (a : F32) :=
  Routine (addMABlock ops ops.cvtshSs a) (addMAOne ops ops.cvtshSs a)

/-- `ConvertHelper<fp32_t, fp16_t>::Add`. -/
def Fp32Fp16.add (ops : Scalars F32 F16) :=
  Routine (addBlock ops ops.cvtshSs) (addOne ops ops.cvtshSs)

/-! ## What a body does -/

section Performs

variable (ops : Scalars F32 F16) (convert : S → F32)

/-- The two loops have the factors in a different order. -/
theorem performs_addMABlock (a : F32) :
    Performs (fun d s => ops.add d (ops.mul (convert s) a)) 8 (addMABlock ops convert a) where
  dst i s := by
    have hswap : (fun l : Fin 8 => ops.add (s.dst (i + l)) (ops.mul (convert (s.src (i + l))) a)) =
        fun l : Fin 8 => ops.add (s.dst (i + l)) (ops.mul a (convert (s.src (i + l)))) := by
      funext l
      rw [ops.mul_comm]
    rw [hswap]
    rfl
  src _ _ := rfl
  inside _ := inside_bind inside_loadSrc fun _ => inside_bind inside_loadDst fun _ =>
    inside_storeDst _

theorem performs_addMAOne (a : F32) :
    Performs (fun d s => ops.add d (ops.mul (convert s) a)) 1 (addMAOne ops convert a) where
  dst _ _ := rfl
  src _ _ := rfl
  inside _ := inside_bind inside_loadDst fun _ => inside_bind inside_loadSrc fun _ =>
    inside_storeDst _

theorem performs_addBlock :
    Performs (fun d s => ops.add d (convert s)) 8 (addBlock ops convert) where
  dst _ _ := rfl
  src _ _ := rfl
  inside _ := inside_bind inside_loadSrc fun _ => inside_bind inside_loadDst fun _ =>
    inside_storeDst _

theorem performs_addOne : Performs (fun d s => ops.add d (convert s)) 1 (addOne ops convert) where
  dst _ _ := rfl
  src _ _ := rfl
  inside _ := inside_bind inside_loadDst fun _ => inside_bind inside_loadSrc fun _ =>
    inside_storeDst _

end Performs

theorem performs_assignBody (convert : S → D) (k : ℕ) :
    Performs (fun _ s => convert s) k (assignBody convert k) where
  dst _ _ := rfl
  src _ _ := rfl
  inside _ := inside_bind inside_loadSrc fun _ => inside_storeDst _

/-! ## Every routine -/

/-- The length of an array of `fp32_t`, of which each routine has one: its bytes can be counted. -/
structure Length where
  length : BitVec 64
  fits : 4 * length.toNat < 2 ^ 64

/-- For any content of the arrays and of the memory behind them, the routine has one result: it
returns `true` with the operation done at every index below the length and all else as it was, and
it has accessed nothing beyond. -/
def EqualsScalar (f : D → S → D) (length : Length)
    (routine : BitVec 64 → Machine D S → Bool × Machine D S → Prop) : Prop :=
  ∀ (dst : ℕ → D) (src : ℕ → S), ∃ s : Machine D S,
    (∀ r, routine length.length ⟨dst, src, []⟩ r ↔ r = (true, s)) ∧
    (∀ i, s.dst i = if i < length.length.toNat then f (dst i) (src i) else dst i) ∧
    s.src = src ∧ ∀ i ∈ s.accesses, i < length.length.toNat

theorem equalsScalar_routine {f : D → S → D} {block one : ℕ → Exec D S PUnit}
    (hblock : Performs f 8 block) (hone : Performs f 1 one) (length : Length) :
    EqualsScalar f length (Routine block one) := by
  intro dst src
  have hfits : length.length.toNat + 8 < 2 ^ 64 := by
    have hbytes := length.fits
    omega
  obtain ⟨s, hs, hreached⟩ := exists_runs (by decide) hblock hone hfits dst src
  refine ⟨s, ?_, fun i => congrFun hreached.dst_eq i, hreached.src_eq, hreached.inside⟩
  rintro ⟨result, s'⟩
  rw [Routine, hs, Prod.mk.injEq, and_comm]

/-- **The loops over blocks do what the loops over the rest do.**  For every length and content of
the arrays, each routine returns with the operation of its second loop done independently at every
index below the length, and has read and written at no other. -/
theorem convertHelper_eq_scalar (ops : Scalars F32 F16) (a : F32) (length : Length) :
    EqualsScalar (fun d s => ops.add d (ops.mul s a)) length (Fp32Fp32.addMA ops a) ∧
    EqualsScalar (fun d s => ops.add d s) length (Fp32Fp32.add ops) ∧
    EqualsScalar (fun d s => ops.add d (ops.mul (ops.cvtshSs s) a)) length
      (Fp32Fp16.addMA ops a) ∧
    EqualsScalar (fun d s => ops.add d (ops.cvtshSs s)) length (Fp32Fp16.add ops) ∧
    EqualsScalar (fun _ s => ops.cvtssSh s 0) length (Fp16Fp32.assign ops) ∧
    EqualsScalar (fun _ s => ops.cvtshSs s) length (Fp32Fp16.assign ops) := by
  refine ⟨?_, ?_, ?_, ?_, ?_, ?_⟩
  · exact equalsScalar_routine (performs_addMABlock ops id a) (performs_addMAOne ops id a) length
  · exact equalsScalar_routine (performs_addBlock ops id) (performs_addOne ops id) length
  · exact equalsScalar_routine (performs_addMABlock ops ops.cvtshSs a)
      (performs_addMAOne ops ops.cvtshSs a) length
  · exact equalsScalar_routine (performs_addBlock ops ops.cvtshSs)
      (performs_addOne ops ops.cvtshSs) length
  · exact equalsScalar_routine (performs_assignBody _ 8) (performs_assignBody _ 1) length
  · exact equalsScalar_routine (performs_assignBody _ 8) (performs_assignBody _ 1) length

/-- Numbers with two binary places, which `fp16_t` leaves out. -/
def quarters : Scalars ℤ ℤ where
  add := (· + ·)
  mul x y := x * y / 4
  mul_comm x y := by rw [Int.mul_comm]
  cvtshSs x := x * 4
  cvtssSh x _ := x / 4

/-- Eleven elements: one block, and three that remain. -/
theorem convertHelper_eq_scalar_eleven : ∃ s : Machine ℤ ℤ,
    (∀ r, Fp32Fp16.addMA quarters 6 11 ⟨fun i => i, fun i => i + 1, []⟩ r ↔ r = (true, s)) ∧
      (List.range 13).map s.dst = [6, 13, 20, 27, 34, 41, 48, 55, 62, 69, 76, 11, 12] := by
  obtain ⟨-, -, haddMA, -⟩ := convertHelper_eq_scalar quarters 6 ⟨11, by decide⟩
  obtain ⟨s, hruns, hdst, -⟩ := haddMA (fun i => i) (fun i => i + 1)
  refine ⟨s, hruns, ?_⟩
  rw [funext hdst]
  decide

/-! ## Lengths that no array has -/

/-- The test `i + 8 <= length` does not fail: when the counter is at its last multiple of eight,
the sum is zero. -/
theorem blockBody_of_wrap {block : ℕ → Exec D S PUnit} {length : BitVec 64}
    (h : 2 ^ 64 ≤ length.toNat + 8) (s : State 64 D S) (hs : s.i.toNat % 8 = 0) :
    ∃ s', blockBody 8 length block s = .inl s' ∧ s'.i.toNat % 8 = 0 := by
  have hlt := s.i.isLt
  have hadd : (s.i + BitVec.ofNat 64 8).toNat = (s.i.toNat + 8) % 2 ^ 64 := BitVec.toNat_add ..
  have htest : s.i + BitVec.ofNat 64 8 ≤ length := by
    rw [BitVec.le_def, hadd]
    omega
  refine ⟨_, if_pos htest, ?_⟩
  rw [hadd]
  omega

theorem not_returns_of_wrap {block one : ℕ → Exec D S PUnit} {length : BitVec 64}
    (h : 2 ^ 64 ≤ length.toNat + 8) (s : Machine D S) (r : Bool × Machine D S) :
    ¬Routine block one length s r := by
  rintro ⟨⟨mid, hmid, -⟩, -⟩
  exact Loop.not_returns (blockBody_of_wrap h) (show (0#64).toNat % 8 = 0 from rfl) hmid

end Rtp.Qed.ConvertHelper
