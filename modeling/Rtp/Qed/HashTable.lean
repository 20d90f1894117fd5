import Rtp.Qed.Bucket

/-!
# Looking up a key

The model of `qed/hashtable.h`: the reader of the two bucket tables.  `Find` starts
at the root bucket of the key, which is the managed bucket numbered by the key's low
bits, and follows as many links as the root's size says.  With the volatile read it
also checks the bucket it has found, and starts again when that belongs to no chain or
to another one.
-/

namespace Rtp.Qed

/-- `HashTable`: the two tables it reads and the number of low bits of a key that
choose its root bucket. -/
structure HashTable where
  managedBuckets : BitVec 64 → RawBucket
  freeBuckets : BitVec 64 → RawBucket
  bucketSizeLog2 : ℕ

namespace HashTable

/-- The mask of the high bits of a key, `key_info_hi_mask_`. -/
def mask (t : HashTable) : BitVec 64 := keyInfoHiMask t.bucketSizeLog2

/-- The bucket at a place. -/
def bucketAt (t : HashTable) (loc : Location) : RawBucket :=
  if loc.internal then t.managedBuckets loc.id else t.freeBuckets loc.id

/-- The loop of `Find`, with the number of buckets still to be looked at. -/
def findFrom (t : HashTable) (keyHighBits : BitVec 64) : ℕ → Location → BitVec 64
  | 0, _ => hashtableNFound
  | n + 1, loc =>
    if (t.bucketAt loc).keyHighBits t.mask = keyHighBits then
      (t.bucketAt loc).payload.setWidth 64
    else t.findFrom keyHighBits n ((t.bucketAt loc).nextBucket t.mask)

/-- `Find`, without the volatile read. -/
def find (t : HashTable) (keyId : BitVec 64) : BitVec 64 :=
  let bucketId := keyId &&& ~~~t.mask
  let size := (t.managedBuckets bucketId).size
  if size = 0#8 then hashtableNFound
  else t.findFrom (keyId &&& t.mask) size.toNat ⟨true, bucketId⟩

/-- The loop of `Find` with the volatile read, with the number of buckets still to be
looked at and the number of those looked at already; `none` when the bucket that has the
key is not what it should be, and the search starts again.  The payload is read twice,
which makes no difference on a table that does not change meanwhile. -/
def findVolatileFrom (t : HashTable) (keyHighBits : BitVec 64) :
    ℕ → ℕ → Location → Option (BitVec 64)
  | 0, _, _ => some hashtableNFound
  | n + 1, i, loc =>
    if (t.bucketAt loc).keyHighBits t.mask = keyHighBits then
      if ((t.bucketAt loc).size = 0#8 ∧ i = 0) ∨ ((t.bucketAt loc).size ≠ 0#8 ∧ i ≠ 0) then none
      else some ((t.bucketAt loc).payload.setWidth 64)
    else t.findVolatileFrom keyHighBits n (i + 1) ((t.bucketAt loc).nextBucket t.mask)

/-- `Find` with the volatile read.  The fuel bounds how often the search starts again;
`none` is a search that does not end within it. -/
def findVolatile (t : HashTable) (keyId : BitVec 64) : ℕ → Option (BitVec 64)
  | 0 => none
  | fuel + 1 =>
    let bucketId := keyId &&& ~~~t.mask
    match t.findVolatileFrom (keyId &&& t.mask) (t.managedBuckets bucketId).size.toNat 0
        ⟨true, bucketId⟩ with
    | some payload => some payload
    | none => t.findVolatile keyId fuel

/-- A first round that comes to an end. -/
theorem findVolatile_of_found (t : HashTable) {keyId payload : BitVec 64} (fuel : ℕ)
    (h : t.findVolatileFrom (keyId &&& t.mask)
      (t.managedBuckets (keyId &&& ~~~t.mask)).size.toNat 0 ⟨true, keyId &&& ~~~t.mask⟩ =
        some payload) : t.findVolatile keyId (fuel + 1) = some payload := by
  simp only [findVolatile, h]

end HashTable

end Rtp.Qed
