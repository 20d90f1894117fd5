import Rtp.Lib.Mask

/-!
# Buckets

The model of `qed/protocol.h` and `qed/bucket.h`.  A bucket is sixteen bytes: a
word that packs the high bits of a key with the number of the next bucket, a byte
that packs the length of a chain with the choice of the table the next bucket is
in, and fifty-six bits of payload.

`Bucket<n>` and `WeakBucket` read and write the same bytes in the same way; the
first takes the mask that separates key bits from bucket number from its template
argument, the second is given it by the caller.  Here every operation takes the
mask, and `keyInfoHiMask n` is the one of `Bucket<n>`.
-/

namespace Rtp.Qed

open Mask

/-- `QED_ALL_MASK_64`, which is also `UINT64_MAX`. -/
def allMask64 : BitVec 64 := BitVec.allOnes 64

/-- `QED_HASHTABLE_NFOUND`. -/
def hashtableNFound : BitVec 64 := 0xFFFFFFFFFFFFFFFF#64

/-- `size_filed_hi_mask_`. -/
def sizeFieldHiMask : BitVec 8 := 0x80#8

/-- `Bucket<n>::key_info_hi_mask_`. -/
def keyInfoHiMask (n : ℕ) : BitVec 64 := lowMask 64 n

/-- `__sync_bool_compare_and_swap` on a place that holds `current`: the new
content, or nothing when the content is not the expected one. -/
def compareAndSwap {α : Type*} [DecidableEq α] (current expected new : α) : Option α :=
  if current = expected then some new else none

@[simp] theorem compareAndSwap_self {α : Type*} [DecidableEq α] (current new : α) :
    compareAndSwap current current new = some new := if_pos rfl

/-- `RawBucket`. -/
structure RawBucket where
  keyInfoField : BitVec 64
  sizeField : BitVec 8
  payload : BitVec 56
  deriving DecidableEq, Repr

/-- A bucket of all zero bytes. -/
def RawBucket.zero : RawBucket := ⟨0, 0, 0⟩

/-- The place of a bucket: the table it is in, where `internal` is the managed one,
and its number there.  `location_t`, and also the pointers into the two tables. -/
structure Location where
  internal : Bool
  id : BitVec 64
  deriving DecidableEq, Repr

namespace RawBucket

/-- `next_bucket_is_internal`. -/
def nextBucketIsInternal (b : RawBucket) : Bool := b.sizeField &&& sizeFieldHiMask != 0#8

/-- `size`, the low seven bits of the size field. -/
def size (b : RawBucket) : BitVec 8 := b.sizeField &&& ~~~sizeFieldHiMask

/-- `next_bucket_id`. -/
def nextBucketId (b : RawBucket) (mask : BitVec 64) : BitVec 64 := b.keyInfoField &&& ~~~mask

/-- `key_high_bits`. -/
def keyHighBits (b : RawBucket) (mask : BitVec 64) : BitVec 64 := b.keyInfoField &&& mask

/-- `match_high_bits`. -/
def matchHighBits (b : RawBucket) (mask key : BitVec 64) : Bool :=
  b.keyHighBits mask == key &&& mask

/-- `next_bucket`, as a place. -/
def nextBucket (b : RawBucket) (mask : BitVec 64) : Location :=
  ⟨b.nextBucketIsInternal, b.nextBucketId mask⟩

/-- The size field with the flag of the table set or cleared. -/
def flagged (sizeField : BitVec 8) (internal : Bool) : BitVec 8 :=
  if internal then sizeField ||| sizeFieldHiMask else sizeField &&& ~~~sizeFieldHiMask

/-- `SetNextBucketId`. -/
def setNextBucketId (b : RawBucket) (mask id : BitVec 64) (internal : Bool) : RawBucket :=
  { b with
    sizeField := flagged b.sizeField internal
    keyInfoField := splice mask b.keyInfoField id }

/-- `TrySetNextBucketId`.  Both fields are compared with what has just been read
from them, so that a single writer always succeeds. -/
def trySetNextBucketId (b : RawBucket) (mask id : BitVec 64) (internal : Bool) :
    Option RawBucket := do
  let sizeField ← compareAndSwap b.sizeField b.sizeField (flagged b.sizeField internal)
  let keyInfoField ←
    compareAndSwap b.keyInfoField b.keyInfoField (splice mask b.keyInfoField id)
  return { b with sizeField := sizeField, keyInfoField := keyInfoField }

/-! ## The size byte -/

theorem size_lt (b : RawBucket) : b.size.toNat < 128 := by
  have h : ∀ x : BitVec 8, (x &&& ~~~sizeFieldHiMask).toNat < 128 := by decide
  exact h b.sizeField

/-- Choosing the other table keeps the size. -/
theorem flagged_and_compl (x : BitVec 8) (internal : Bool) :
    flagged x internal &&& ~~~sizeFieldHiMask = x &&& ~~~sizeFieldHiMask := by
  revert x internal; decide

theorem flagged_and_mask (x : BitVec 8) (internal : Bool) :
    (flagged x internal &&& sizeFieldHiMask != 0#8) = internal := by
  revert x internal; decide

/-- The bucket with one more node counted in its size field. -/
def counted (b : RawBucket) : RawBucket := { b with sizeField := b.sizeField + 1 }

variable {b : RawBucket}

/-- Counting one more node, below the last size the byte can hold. -/
theorem toNat_size_counted (h : b.size.toNat < 127) : b.counted.size.toNat = b.size.toNat + 1 := by
  have key : ∀ x : BitVec 8, (x &&& ~~~sizeFieldHiMask).toNat < 127 →
      ((x + 1) &&& ~~~sizeFieldHiMask).toNat = (x &&& ~~~sizeFieldHiMask).toNat + 1 := by decide
  exact key b.sizeField h

/-- **The byte overflows.**  One more node than the byte can count sets the flag, when
it was clear, and leaves the size zero. -/
theorem size_counted_of_full (h : b.size = 127#8) (hb : b.sizeField ≠ 0xFF#8) :
    b.counted.size = 0#8 := by
  have key : ∀ x : BitVec 8, x &&& ~~~sizeFieldHiMask = 127#8 → x ≠ 0xFF#8 →
      (x + 1) &&& ~~~sizeFieldHiMask = 0#8 := by decide
  exact key b.sizeField h hb

/-- Counting one more node does not change the flag, below the last size the byte can
hold. -/
theorem flag_counted (h : b.size.toNat < 127) :
    b.counted.sizeField &&& sizeFieldHiMask = b.sizeField &&& sizeFieldHiMask := by
  have key : ∀ x : BitVec 8, (x &&& ~~~sizeFieldHiMask).toNat < 127 →
      (x + 1) &&& sizeFieldHiMask = x &&& sizeFieldHiMask := by decide
  exact key b.sizeField h

theorem nextBucket_counted (h : b.size.toNat < 127) (mask : BitVec 64) :
    b.counted.nextBucket mask = b.nextBucket mask := by
  rw [nextBucket, nextBucket, nextBucketIsInternal, nextBucketIsInternal, flag_counted h]
  rfl

@[simp] theorem nextBucket_setNextBucketId (b : RawBucket) (mask id : BitVec 64)
    (internal : Bool) :
    (b.setNextBucketId mask id internal).nextBucket mask = ⟨internal, id &&& ~~~mask⟩ := by
  simp [nextBucket, nextBucketIsInternal, nextBucketId, setNextBucketId, flagged_and_mask]

@[simp] theorem size_setNextBucketId (b : RawBucket) (mask id : BitVec 64) (internal : Bool) :
    (b.setNextBucketId mask id internal).size = b.size :=
  flagged_and_compl b.sizeField internal

@[simp] theorem keyHighBits_setNextBucketId (b : RawBucket) (mask id : BitVec 64)
    (internal : Bool) :
    (b.setNextBucketId mask id internal).keyHighBits mask = b.keyHighBits mask :=
  splice_and_mask mask b.keyInfoField id

theorem trySetNextBucketId_eq (b : RawBucket) (mask id : BitVec 64) (internal : Bool) :
    b.trySetNextBucketId mask id internal = some (b.setNextBucketId mask id internal) := by
  simp [trySetNextBucketId, setNextBucketId]

end RawBucket

end Rtp.Qed
