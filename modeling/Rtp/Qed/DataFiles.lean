import Rtp.Qed.Growth

/-!
# Opening the files of a builder

The model of `OpenMeta` and `OpenDataFiles`.  The size of the four data files follows from
the count that is asked for and from a limit in the environment; the bucket type follows
from the meta file, the count and a clamp.  Everything after that goes by the bucket type.

* `openMeta` — which meta files are accepted, with what `OpenedMeta` carries of them.
* `expectedSize`, `openDataFiles` — what is requested of `Open`, whose answers are the
  sizes of the mappings.
* `lt_two_pow_getBucketType` — a count below the largest number of buckets gets a bucket
  type with more buckets than that.
* `openDataFiles_safe_iff` — **exactly when success means that every bucket lies in the
  files**, and that there are more buckets than were asked for.
* `openDataFiles_unsafe` — two calls that succeed and do not mean that.
-/

namespace Rtp.Qed

/-! ## OpenMeta -/

/-- `MetaInfo`, as far as it is read. -/
structure MetaInfo where
  bucketType : BitVec 8
  managedIdCount : BitVec 64
  freeIdCount : BitVec 64
  extendedFieldSize : BitVec 64

/-- The meta information that `OpenMeta` writes when it resets the file. -/
def MetaInfo.initial : MetaInfo := ⟨2, 0, 0, 0⟩

/-- Meta information that was accepted. -/
structure OpenedMeta where
  bucketType : BucketType
  managedIdCount : BitVec 64
  freeIdCount : BitVec 64
  managed_lt : managedIdCount.ult (1#64 <<< bucketType.1) = true
  free_lt : freeIdCount.ult (1#64 <<< bucketType.1) = true

/-- `OpenMeta` on a mapping of the given size, which is zero when the file could not be
opened. -/
def openMeta (reset : Bool) (size : BitVec 64) (file : MetaInfo) : Option OpenedMeta :=
  let info := if reset then .initial else file
  if size = 0 then none
  else if size.ult (40 + info.extendedFieldSize) then none
  else if hb : 2 ≤ info.bucketType.toNat ∧ info.bucketType.toNat ≤ 50 then
    if hm : info.managedIdCount.ult (1#64 <<< info.bucketType.toNat) = true then
      if hf : info.freeIdCount.ult (1#64 <<< info.bucketType.toNat) = true then
        some ⟨⟨info.bucketType.toNat, hb⟩, info.managedIdCount, info.freeIdCount, hm, hf⟩
      else none
    else none
  else none

/-- The builder with the given data files. -/
def OpenedMeta.builder (info : OpenedMeta) (files : Builder) : Builder :=
  { files with bucketType := info.bucketType, freeIdCount := info.freeIdCount }

/-! ## OpenDataFiles -/

inductive DataFile where
  | managedBucket
  | freeBucket
  | rootBucketIdTableManaged
  | rootBucketIdTableFree
  deriving DecidableEq, Repr

/-- `sizeof(RawBucket)` and `sizeof(uint64_t)`. -/
def DataFile.entrySize : DataFile → ℕ
  | managedBucket => 16
  | freeBucket => 16
  | rootBucketIdTableManaged => 8
  | rootBucketIdTableFree => 8

/-- The limit on the size of a file: the variable of the environment, as `atoll` reads it,
or one terabyte. -/
def maxBuildFileSize : Option (BitVec 64) → BitVec 64
  | none => 0x10000000000
  | some size => if size ≠ 0 then size else 0x10000000000

def expectedMaxIdCount (reservedCount : BitVec 64) : BitVec 64 :=
  if reservedCount ≠ 0 then 1#64 <<< (getBucketType reservedCount).1 else 1#64 <<< 50

/-- The size that `Open` is asked for: `std::min<uint64_t>` of the size of the table and
the limit. -/
def expectedSize (env : Option (BitVec 64)) (reservedCount : BitVec 64) (file : DataFile) :
    BitVec 64 :=
  let size := expectedMaxIdCount reservedCount * BitVec.ofNat 64 file.entrySize
  if (maxBuildFileSize env).ult size then maxBuildFileSize env else size

/-- `OpenDataFiles`, where `opened` is what `Open` returns for each file: the size of its
mapping.  `Reserve` does not look at the sizes. -/
def openDataFiles (σ : Builder) (managedIdCount : BitVec 64) (env : Option (BitVec 64))
    (opened : DataFile → BitVec 64) (reservedCount : BitVec 64) : Bool × Builder :=
  if [DataFile.managedBucket, .freeBucket, .rootBucketIdTableManaged,
      .rootBucketIdTableFree].any fun file =>
        (opened file).ult (expectedSize env reservedCount file) then (false, σ)
  else if reservedCount ≠ 0 then σ.reserve managedIdCount reservedCount
  else (true, σ)

/-! ## The bucket type of a count -/

/-- The loop stops at the first power of two above the count. -/
theorem lt_two_pow_bucketTypeFrom {count : BitVec 64} {k : ℕ} (hk : k ≤ 63)
    (hcount : count.toNat < 2 ^ k) {n i : ℕ} (hi : i ≤ k) (hn : k ≤ i + n) :
    bucketTypeFrom count n i ≤ k ∧ count.toNat < 2 ^ bucketTypeFrom count n i := by
  induction n generalizing i with
  | zero =>
    have hik : i = k := by omega
    subst hik
    exact ⟨le_rfl, hcount⟩
  | succ n ih =>
    have hpow : 2 ^ k ≤ 2 ^ 63 := Nat.pow_le_pow_right (by omega) hk
    have hpow' : 2 ^ i ≤ 2 ^ 63 := Nat.pow_le_pow_right (by omega) (by omega)
    have hshift : (1#64 <<< i).toNat = 2 ^ i := by
      rw [BitVec.toNat_shiftLeft, Nat.shiftLeft_eq, BitVec.toNat_ofNat]
      omega
    have hsucc : (count + 1).toNat = count.toNat + 1 := by
      have hone : (1 : BitVec 64).toNat = 1 := rfl
      rw [BitVec.toNat_add, hone]
      omega
    rw [bucketTypeFrom]
    split
    · next hlt =>
      rw [BitVec.ult, decide_eq_true_eq, hshift, hsucc] at hlt
      refine ih ?_ (by omega)
      by_contra hge
      have hle : 2 ^ k ≤ 2 ^ i := Nat.pow_le_pow_right (by omega) (by omega)
      omega
    · next hlt =>
      rw [BitVec.ult, decide_eq_true_eq, hshift, hsucc] at hlt
      exact ⟨hi, by omega⟩

/-- **A count that fits gets more buckets than it asks for.** -/
theorem lt_two_pow_getBucketType {count : BitVec 64} (h : count.toNat < 2 ^ 50) :
    count.toNat < 2 ^ (getBucketType count).1 := by
  obtain ⟨hle, hlt⟩ := lt_two_pow_bucketTypeFrom (by omega) h (n := 63) (i := 1) (by omega)
    (by omega)
  refine hlt.trans_le (Nat.pow_le_pow_right (by omega) ?_)
  show _ ≤ min (max (bucketTypeFrom count 63 1) 2) 50
  omega

/-! ## Sizes and buckets -/

/-- Every bucket number of the type lies inside the mapping of every file. -/
def Covers (b : BucketType) (opened : DataFile → BitVec 64) : Prop :=
  ∀ file id, id < 2 ^ b.1 → (id + 1) * file.entrySize ≤ (opened file).toNat

theorem toNat_expectedMaxIdCount (reservedCount : BitVec 64) :
    (expectedMaxIdCount reservedCount).toNat =
      2 ^ (if reservedCount ≠ 0 then (getBucketType reservedCount).1 else 50) := by
  unfold expectedMaxIdCount
  split
  · exact Builder.toNat_one_shiftLeft _
  · rfl

theorem toNat_expectedSize (env : Option (BitVec 64)) (reservedCount : BitVec 64)
    (file : DataFile) :
    (expectedSize env reservedCount file).toNat =
      min ((expectedMaxIdCount reservedCount).toNat * file.entrySize)
        (maxBuildFileSize env).toNat := by
  have hle : (expectedMaxIdCount reservedCount).toNat ≤ 2 ^ 50 := by
    rw [toNat_expectedMaxIdCount]
    refine Nat.pow_le_pow_right (by omega) ?_
    split
    · exact (getBucketType reservedCount).2.2
    · exact le_rfl
  have hsize : (expectedMaxIdCount reservedCount * BitVec.ofNat 64 file.entrySize).toNat =
      (expectedMaxIdCount reservedCount).toNat * file.entrySize := by
    rw [BitVec.toNat_mul, BitVec.toNat_ofNat]
    cases file <;> simp only [DataFile.entrySize] <;> omega
  unfold expectedSize
  simp only [BitVec.ult, hsize, decide_eq_true_eq]
  split
  · omega
  · rw [hsize]
    omega

variable {reservedCount : BitVec 64} {opened : DataFile → BitVec 64} {env : Option (BitVec 64)}

/-- Four files that are all as large as requested. -/
theorem not_any_ult : ¬ ([DataFile.managedBucket, .freeBucket, .rootBucketIdTableManaged,
      .rootBucketIdTableFree].any fun file =>
        (opened file).ult (expectedSize env reservedCount file)) = true ↔
    ∀ file, (expectedSize env reservedCount file).toNat ≤ (opened file).toNat := by
  rw [Bool.not_eq_true, List.any_eq_false]
  simp only [BitVec.ult, decide_eq_true_eq, Nat.not_lt]
  constructor
  · intro h file
    refine h file ?_
    cases file <;> simp
  · intro h file _
    exact h file

/-- A mapping of the requested size covers the buckets of a type exactly when the table
and the limit both have room for them. -/
theorem covers_expectedSize_iff (b : BucketType) (env : Option (BitVec 64))
    (reservedCount : BitVec 64) :
    Covers b (expectedSize env reservedCount) ↔
      2 ^ b.1 ≤ (expectedMaxIdCount reservedCount).toNat ∧
        16 * 2 ^ b.1 ≤ (maxBuildFileSize env).toNat := by
  have hpos : 0 < 2 ^ b.1 := Nat.two_pow_pos _
  constructor
  · intro h
    have hlast := h .managedBucket (2 ^ b.1 - 1) (by omega)
    rw [toNat_expectedSize, Nat.sub_add_cancel hpos] at hlast
    simp only [DataFile.entrySize] at hlast
    omega
  · rintro ⟨hcount, hmax⟩ file id hid
    rw [toNat_expectedSize]
    cases file <;> simp only [DataFile.entrySize] <;> omega

theorem Covers.mono {b : BucketType} {opened opened' : DataFile → BitVec 64} (h : Covers b opened)
    (hle : ∀ file, (opened file).toNat ≤ (opened' file).toNat) : Covers b opened' := by
  intro file id hid
  exact (h file id hid).trans (hle file)

/-- What success is meant to say. -/
def Safe (opened : DataFile → BitVec 64) (reservedCount : BitVec 64) (σ : Builder) : Prop :=
  Covers σ.bucketType opened ∧ (reservedCount ≠ 0 → reservedCount.toNat < 2 ^ σ.bucketType.1)

/-- The builder that a successful call leaves. -/
def afterOpen (σ : Builder) (managedIdCount reservedCount : BitVec 64) : Builder :=
  if reservedCount ≠ 0 then (σ.reserve managedIdCount reservedCount).2 else σ

theorem openDataFiles_eq_true {σ : Builder} {managedIdCount : BitVec 64} :
    (openDataFiles σ managedIdCount env opened reservedCount).1 = true ↔
      ∀ file, (expectedSize env reservedCount file).toNat ≤ (opened file).toNat := by
  rw [← not_any_ult]
  unfold openDataFiles
  split
  · next h => exact iff_of_false Bool.false_ne_true (not_not_intro h)
  · next h =>
    refine iff_of_true ?_ h
    split <;> rfl

theorem openDataFiles_snd {σ : Builder} {managedIdCount : BitVec 64}
    (h : (openDataFiles σ managedIdCount env opened reservedCount).1 = true) :
    (openDataFiles σ managedIdCount env opened reservedCount).2 =
      afterOpen σ managedIdCount reservedCount := by
  have hany := not_any_ult.mpr (openDataFiles_eq_true.mp h)
  unfold openDataFiles afterOpen
  rw [if_neg hany]
  split <;> rfl

/-- The smallest answers of `Open` that count as success are the requests themselves, and
they are what decides. -/
theorem safe_iff_requests (σ : Builder) (managedIdCount : BitVec 64) (env : Option (BitVec 64))
    (reservedCount : BitVec 64) :
    (∀ opened, (openDataFiles σ managedIdCount env opened reservedCount).1 = true →
      Safe opened reservedCount (openDataFiles σ managedIdCount env opened reservedCount).2) ↔
    Safe (expectedSize env reservedCount) reservedCount
      (afterOpen σ managedIdCount reservedCount) := by
  constructor
  · intro h
    have hopen : (openDataFiles σ managedIdCount env (expectedSize env reservedCount)
        reservedCount).1 = true := openDataFiles_eq_true.mpr fun _ => le_rfl
    rw [← openDataFiles_snd hopen]
    exact h _ hopen
  · rintro ⟨hcover, hcount⟩ opened hopen
    rw [openDataFiles_snd hopen]
    exact ⟨hcover.mono (openDataFiles_eq_true.mp hopen), hcount⟩

theorem bucketType_afterOpen (σ : Builder) (managedIdCount : BitVec 64) (h : reservedCount ≠ 0) :
    (afterOpen σ managedIdCount reservedCount).bucketType.1 =
      max σ.bucketType.1 (getBucketType reservedCount).1 := by
  unfold afterOpen
  rw [if_pos h]
  show (if (getBucketType reservedCount).1 ≤ σ.bucketType.1 then σ.bucketType
    else getBucketType reservedCount).1 = _
  split <;> omega

/-- **When success means safety.**  Take any accepted meta information and data files, any
setting of the environment and any count.  Whatever sizes `Open` returns, a call of
`OpenDataFiles` that returns `true` leaves a bucket type all of whose buckets lie inside
the four mappings, and more of them than were asked for, exactly when the limit has room
for the buckets of the type that results, the count is below the largest number of
buckets, and the type it needs is not below the one in the meta file. -/
theorem openDataFiles_safe_iff (info : OpenedMeta) (files : Builder)
    (env : Option (BitVec 64)) (reservedCount : BitVec 64) :
    (∀ opened,
      (openDataFiles (info.builder files) info.managedIdCount env opened reservedCount).1 = true →
      Safe opened reservedCount
        (openDataFiles (info.builder files) info.managedIdCount env opened reservedCount).2) ↔
    (reservedCount = 0 → 16 * 2 ^ info.bucketType.1 ≤ (maxBuildFileSize env).toNat) ∧
    (reservedCount ≠ 0 → reservedCount.toNat < 2 ^ 50 ∧
      info.bucketType.1 ≤ (getBucketType reservedCount).1 ∧
      16 * 2 ^ (getBucketType reservedCount).1 ≤ (maxBuildFileSize env).toNat) := by
  rw [safe_iff_requests, Safe, covers_expectedSize_iff, toNat_expectedMaxIdCount]
  have hb := info.bucketType.2.2
  have ht := (getBucketType reservedCount).2.2
  by_cases hzero : reservedCount = 0
  · have hafter : (afterOpen (info.builder files) info.managedIdCount reservedCount).bucketType =
        info.bucketType := by
      unfold afterOpen
      rw [if_neg (not_not_intro hzero)]
      rfl
    have hpow : 2 ^ info.bucketType.1 ≤ 2 ^ 50 := Nat.pow_le_pow_right (by omega) hb
    rw [hafter]
    simp only [hzero, ne_eq, not_true_eq_false, if_false, false_imp_iff, and_true, true_imp_iff]
    exact and_iff_right hpow
  · have hafter := bucketType_afterOpen (info.builder files) info.managedIdCount hzero
    change _ = max info.bucketType.1 _ at hafter
    simp only [hafter, hzero, ne_eq, not_false_eq_true, if_true, true_imp_iff, false_imp_iff,
      true_and]
    constructor
    · rintro ⟨⟨hids, hmax⟩, hcount⟩
      have hle : max info.bucketType.1 (getBucketType reservedCount).1 ≤
          (getBucketType reservedCount).1 := (Nat.pow_le_pow_iff_right (by omega)).mp hids
      have heq : max info.bucketType.1 (getBucketType reservedCount).1 =
          (getBucketType reservedCount).1 := by omega
      rw [heq] at hmax hcount
      have hpow : 2 ^ (getBucketType reservedCount).1 ≤ 2 ^ 50 :=
        Nat.pow_le_pow_right (by omega) ht
      exact ⟨by omega, by omega, hmax⟩
    · rintro ⟨hcount, hle, hmax⟩
      have heq : max info.bucketType.1 (getBucketType reservedCount).1 =
          (getBucketType reservedCount).1 := by omega
      rw [heq]
      exact ⟨⟨le_rfl, hmax⟩, lt_two_pow_getBucketType hcount⟩

/-- Data files that hold nothing but zeros, as `ftruncate` makes them. -/
def zeroFiles : Builder where
  bucketType := smallest
  freeIdCount := 0
  managedBucket := fun _ => .zero
  freeBucket := fun _ => .zero
  rootBucketIdTableManaged := fun _ => 0
  rootBucketIdTableFree := fun _ => 0

/-- **Success without safety.**  With the default limit and files of the size requested:
after the files of a table with 1024 buckets are opened with a reserved count of 1, they
have 64 bytes of buckets and the bucket type is still 10; and the count `2 ^ 64 - 1` is
reserved with four buckets. -/
theorem openDataFiles_unsafe :
    (openMeta false 40 ⟨10, 0, 1, 0⟩).map (fun info =>
      let q := openDataFiles (info.builder zeroFiles) info.managedIdCount none
        (expectedSize none 1) 1
      (q.1, q.2.bucketType.1, expectedSize none 1 .managedBucket)) = some (true, 10, 64) ∧
    (openMeta true 40 .initial).map (fun info =>
      let q := openDataFiles (info.builder zeroFiles) info.managedIdCount none
        (expectedSize none 0xFFFFFFFFFFFFFFFF) 0xFFFFFFFFFFFFFFFF
      (q.1, q.2.bucketType.1)) = some (true, 2) := by
  constructor <;> decide +kernel

end Rtp.Qed
