import Rtp.Qed.DataFiles

/-!
# What `Reserve` leaves alone

`Reserve` fills four tables with four calls of `memset`.  It should touch exactly the
entries that come with the larger bucket type: all others keep what they have, and the new
ones get zero buckets and root numbers of all ones.

* `Framed` — this effect, from one builder to another.
* `reserve_filled` — what each table has afterwards, from the number of buckets that the
  counters of the meta information say are in use.
* `reserve_framed_iff` — **exactly when `Reserve` has this effect**.  The root table of the
  free buckets is filled from its beginning, and a table from which no free bucket was
  taken is filled completely, whatever is in it.
* `reserve_unframed` — a table of two keys, and a table of one.
-/

namespace Rtp.Qed.Builder

/-- The entries of the four tables at a number are as `Reserve` initialises them. -/
structure InitialAt (σ : Builder) (i : BitVec 64) : Prop where
  managedBucket : σ.managedBucket i = .zero
  freeBucket : σ.freeBucket i = .zero
  rootManaged : σ.rootBucketIdTableManaged i = allMask64
  rootFree : σ.rootBucketIdTableFree i = allMask64

/-- The entries of the four tables at a number are the same. -/
structure SameAt (σ τ : Builder) (i : BitVec 64) : Prop where
  managedBucket : τ.managedBucket i = σ.managedBucket i
  freeBucket : τ.freeBucket i = σ.freeBucket i
  rootManaged : τ.rootBucketIdTableManaged i = σ.rootBucketIdTableManaged i
  rootFree : τ.rootBucketIdTableFree i = σ.rootBucketIdTableFree i

/-- Only the entries that are new have changed, and they are initialised. -/
structure Framed (σ τ : Builder) : Prop where
  le : σ.bucketType.1 ≤ τ.bucketType.1
  same : ∀ i : BitVec 64, i.toNat < 2 ^ σ.bucketType.1 → SameAt σ τ i
  initial : ∀ i : BitVec 64, 2 ^ σ.bucketType.1 ≤ i.toNat → i.toNat < 2 ^ τ.bucketType.1 →
    InitialAt τ i

variable {σ : Builder} {managedIdCount reservedCount : BitVec 64}

/-! ## The four fills -/

/-- A fill from the beginning. -/
theorem memset_zero {α : Type*} (table : BitVec 64 → α) (value : α) (count i : BitVec 64) :
    memset table 0 value count i = if i.toNat < count.toNat then value else table i := by
  have hzero : (0 : BitVec 64).toNat = 0 := rfl
  unfold memset
  rw [hzero]
  exact if_congr (by omega) rfl rfl

/-- The number of buckets that `Reserve` takes to be in use, `origin_bucket_count`. -/
def originBucketCount (σ : Builder) (managedIdCount : BitVec 64) : BitVec 64 :=
  if managedIdCount = 0 ∧ σ.freeIdCount = 0 then 0 else 1#64 <<< σ.bucketType.1

/-- The fill of each table that `Reserve` makes. -/
theorem tables_reserve {τ : Builder} {count : BitVec 64}
    (hτ : (σ.reserve managedIdCount reservedCount).2 = τ)
    (hcount : 1#64 <<< τ.bucketType.1 - σ.originBucketCount managedIdCount = count) :
    τ.managedBucket =
        memset σ.managedBucket (σ.originBucketCount managedIdCount) .zero count ∧
      τ.freeBucket = memset σ.freeBucket (σ.originBucketCount managedIdCount) .zero count ∧
      τ.rootBucketIdTableManaged = memset σ.rootBucketIdTableManaged
        (σ.originBucketCount managedIdCount) allMask64 count ∧
      τ.rootBucketIdTableFree = memset σ.rootBucketIdTableFree 0 allMask64 count := by
  subst hτ hcount
  simp only [reserve, originBucketCount, and_self]

/-- Three tables are filled from the old number of entries on, the fourth one with as many
entries from its beginning. -/
structure Filled (σ τ : Builder) (origin count : ℕ) (i : BitVec 64) : Prop where
  managedBucket : τ.managedBucket i =
    if origin ≤ i.toNat ∧ i.toNat < count then .zero else σ.managedBucket i
  freeBucket : τ.freeBucket i =
    if origin ≤ i.toNat ∧ i.toNat < count then .zero else σ.freeBucket i
  rootManaged : τ.rootBucketIdTableManaged i =
    if origin ≤ i.toNat ∧ i.toNat < count then allMask64 else σ.rootBucketIdTableManaged i
  rootFree : τ.rootBucketIdTableFree i =
    if i.toNat < count - origin then allMask64 else σ.rootBucketIdTableFree i

theorem le_bucketType_reserve :
    σ.bucketType.1 ≤ (σ.reserve managedIdCount reservedCount).2.bucketType.1 := by
  show _ ≤ (if (getBucketType reservedCount).1 ≤ σ.bucketType.1 then σ.bucketType
    else getBucketType reservedCount).1
  split <;> omega

theorem toNat_originBucketCount_le :
    (σ.originBucketCount managedIdCount).toNat ≤
      (1#64 <<< (σ.reserve managedIdCount reservedCount).2.bucketType.1).toNat := by
  rw [toNat_one_shiftLeft]
  unfold originBucketCount
  split
  · exact Nat.zero_le _
  · rw [toNat_one_shiftLeft]
    exact Nat.pow_le_pow_right (by omega) le_bucketType_reserve

theorem reserve_filled (σ : Builder) (managedIdCount reservedCount i : BitVec 64) :
    Filled σ (σ.reserve managedIdCount reservedCount).2
      (σ.originBucketCount managedIdCount).toNat
      (2 ^ (σ.reserve managedIdCount reservedCount).2.bucketType.1) i := by
  have hstop := toNat_one_shiftLeft (σ.reserve managedIdCount reservedCount).2.bucketType
  have hle : (σ.originBucketCount managedIdCount).toNat ≤
      (1#64 <<< (σ.reserve managedIdCount reservedCount).2.bucketType.1).toNat :=
    toNat_originBucketCount_le
  obtain ⟨hm, hf, hrm, hrf⟩ := @tables_reserve σ managedIdCount reservedCount _ _ rfl rfl
  constructor
  · rw [hm, memset_between _ _ hle, hstop]
  · rw [hf, memset_between _ _ hle, hstop]
  · rw [hrm, memset_between _ _ hle, hstop]
  · rw [hrf, memset_zero, BitVec.toNat_sub_of_le (BitVec.le_def.mpr hle), hstop]

/-! ## The frame -/

/-- A table taken for a new one is filled completely. -/
theorem framed_of_new_iff (hnew : σ.TakenForNew managedIdCount) :
    Framed σ (σ.reserve managedIdCount reservedCount).2 ↔
      ∀ i : BitVec 64, i.toNat < 2 ^ σ.bucketType.1 → InitialAt σ i := by
  have horigin : (σ.originBucketCount managedIdCount).toNat = 0 :=
    congrArg BitVec.toNat (if_pos hnew)
  have hle : 2 ^ σ.bucketType.1 ≤
      2 ^ (σ.reserve managedIdCount reservedCount).2.bucketType.1 :=
    Nat.pow_le_pow_right (by omega) le_bucketType_reserve
  have hinit : ∀ i : BitVec 64,
      i.toNat < 2 ^ (σ.reserve managedIdCount reservedCount).2.bucketType.1 →
        InitialAt (σ.reserve managedIdCount reservedCount).2 i := by
    intro i hi
    have hfill := reserve_filled σ managedIdCount reservedCount i
    rw [horigin] at hfill
    exact ⟨hfill.managedBucket.trans (if_pos ⟨Nat.zero_le _, hi⟩),
      hfill.freeBucket.trans (if_pos ⟨Nat.zero_le _, hi⟩),
      hfill.rootManaged.trans (if_pos ⟨Nat.zero_le _, hi⟩), hfill.rootFree.trans (if_pos hi)⟩
  constructor
  · intro h i hi
    obtain ⟨hm, hf, hrm, hrf⟩ := hinit i (by omega)
    obtain ⟨hm', hf', hrm', hrf'⟩ := h.same i hi
    exact ⟨hm'.symm.trans hm, hf'.symm.trans hf, hrm'.symm.trans hrm, hrf'.symm.trans hrf⟩
  · intro h
    refine ⟨le_bucketType_reserve, fun i hi => ?_, fun i _ hi => hinit i hi⟩
    obtain ⟨hm, hf, hrm, hrf⟩ := hinit i (by omega)
    obtain ⟨hm', hf', hrm', hrf'⟩ := h i hi
    exact ⟨hm.trans hm'.symm, hf.trans hf'.symm, hrm.trans hrm'.symm, hrf.trans hrf'.symm⟩

/-- Any other table keeps three of its tables, and the root table of the free buckets only
where its entries, and the last new ones, are all ones already. -/
theorem framed_of_kept_iff (hkept : ¬ σ.TakenForNew managedIdCount) :
    Framed σ (σ.reserve managedIdCount reservedCount).2 ↔
      (σ.bucketType.1 < (getBucketType reservedCount).1 → ∀ i : BitVec 64,
        i.toNat < 2 ^ σ.bucketType.1 ∨
          (2 ^ (getBucketType reservedCount).1 - 2 ^ σ.bucketType.1 ≤ i.toNat ∧
            i.toNat < 2 ^ (getBucketType reservedCount).1) →
        σ.rootBucketIdTableFree i = allMask64) := by
  have horigin : (σ.originBucketCount managedIdCount).toNat = 2 ^ σ.bucketType.1 := by
    rw [← toNat_one_shiftLeft]
    exact congrArg BitVec.toNat (if_neg hkept)
  have hfill := fun i => reserve_filled σ managedIdCount reservedCount i
  rw [horigin] at hfill
  by_cases hgrow : σ.bucketType.1 < (getBucketType reservedCount).1
  · have htype : (σ.reserve managedIdCount reservedCount).2.bucketType.1 =
        (getBucketType reservedCount).1 := congrArg Subtype.val (bucketType_reserve hgrow)
    -- at least as many entries are added as there were
    have hdouble : 2 ^ σ.bucketType.1 ≤
        2 ^ (getBucketType reservedCount).1 - 2 ^ σ.bucketType.1 := by
      have hpow : 2 ^ (σ.bucketType.1 + 1) ≤ 2 ^ (getBucketType reservedCount).1 :=
        Nat.pow_le_pow_right (by omega) hgrow
      rw [pow_succ] at hpow
      omega
    rw [htype] at hfill
    constructor
    · intro h _ i hi
      obtain hold | ⟨hge, hlt⟩ := hi
      · rw [← (h.same i hold).rootFree, (hfill i).rootFree, if_pos (by omega)]
      · have hinit := (h.initial i (by omega) (by rw [htype]; exact hlt)).rootFree
        rwa [(hfill i).rootFree, if_neg (by omega)] at hinit
    · intro h
      refine ⟨le_bucketType_reserve, fun i hi => ?_, fun i hge hlt => ?_⟩
      · refine ⟨(hfill i).managedBucket.trans (if_neg (by omega)),
          (hfill i).freeBucket.trans (if_neg (by omega)),
          (hfill i).rootManaged.trans (if_neg (by omega)), ?_⟩
        rw [(hfill i).rootFree, if_pos (by omega), h hgrow i (.inl hi)]
      · rw [htype] at hlt
        refine ⟨(hfill i).managedBucket.trans (if_pos ⟨hge, hlt⟩),
          (hfill i).freeBucket.trans (if_pos ⟨hge, hlt⟩),
          (hfill i).rootManaged.trans (if_pos ⟨hge, hlt⟩), ?_⟩
        rw [(hfill i).rootFree]
        split
        · rfl
        · exact h hgrow i (.inr ⟨by omega, hlt⟩)
  · -- nothing is added, and nothing is filled
    have htype : (σ.reserve managedIdCount reservedCount).2.bucketType.1 = σ.bucketType.1 :=
      congrArg Subtype.val (if_pos (Nat.not_lt.mp hgrow))
    rw [htype] at hfill
    refine iff_of_true ⟨le_bucketType_reserve, fun i hi => ?_, fun i hge hlt => ?_⟩
      fun h => absurd h hgrow
    · exact ⟨(hfill i).managedBucket.trans (if_neg (by omega)),
        (hfill i).freeBucket.trans (if_neg (by omega)),
        (hfill i).rootManaged.trans (if_neg (by omega)),
        (hfill i).rootFree.trans (if_neg (by omega))⟩
    · rw [htype] at hlt
      omega

/-- **When `Reserve` touches the new entries only.**  For every builder and every count,
the entries of the four tables below the old number of buckets are unchanged, and those
from there to the new number of buckets are initialised, exactly when: a table taken for a
new one, because both counters are zero, has nothing in the entries it has; and any other
table that grows has all ones in its root table of the free buckets, below the old number
of buckets and in as many entries at the end of the new ones. -/
theorem reserve_framed_iff (σ : Builder) (managedIdCount reservedCount : BitVec 64) :
    Framed σ (σ.reserve managedIdCount reservedCount).2 ↔
      (σ.TakenForNew managedIdCount →
        ∀ i : BitVec 64, i.toNat < 2 ^ σ.bucketType.1 → InitialAt σ i) ∧
      (¬ σ.TakenForNew managedIdCount →
        σ.bucketType.1 < (getBucketType reservedCount).1 → ∀ i : BitVec 64,
          i.toNat < 2 ^ σ.bucketType.1 ∨
            (2 ^ (getBucketType reservedCount).1 - 2 ^ σ.bucketType.1 ≤ i.toNat ∧
              i.toNat < 2 ^ (getBucketType reservedCount).1) →
          σ.rootBucketIdTableFree i = allMask64) := by
  by_cases hnew : σ.TakenForNew managedIdCount
  · rw [framed_of_new_iff hnew]
    exact ⟨fun h => ⟨fun _ => h, fun hkept => absurd hnew hkept⟩, fun h => h.1 hnew⟩
  · rw [framed_of_kept_iff hnew]
    exact ⟨fun h => ⟨fun hnew' => absurd hnew' hnew, fun _ => h⟩, fun h => h.2 hnew⟩

/-- **Tables that are not left alone.**  A builder on new files reserves four buckets and
inserts keys.  The keys `0` and `4` take a free bucket; when the table is doubled, its root
number is overwritten and the root numbers of the new free buckets are not initialised.  The
key `0` alone takes none; when the table is doubled, its bucket is cleared. -/
theorem reserve_unframed :
    ((openMeta true 40 .initial).bind fun info =>
      (Run.run (insertStep 2) [(0, 10), (4, 20)]
        ((info.builder zeroFiles).reserve info.managedIdCount 3).2).toOption.map fun q =>
          let τ := (q.2.reserve info.managedIdCount 7).2
          (q.2.bucketType.1, τ.bucketType.1, q.2.rootBucketIdTableFree 0,
            τ.rootBucketIdTableFree 0, τ.rootBucketIdTableFree 4)) =
        some (2, 3, 0, allMask64, 0) ∧
    ((openMeta true 40 .initial).bind fun info =>
      (Run.run (insertStep 2) [(0, 10)]
        ((info.builder zeroFiles).reserve info.managedIdCount 3).2).toOption.map fun q =>
          let τ := (q.2.reserve info.managedIdCount 7).2
          (q.2.bucketType.1, (q.2.managedBucket 0).payload, τ.bucketType.1,
            (τ.managedBucket 0).payload)) =
        some (2, 10, 3, 0) := by
  constructor <;> decide +kernel

end Rtp.Qed.Builder
