import Rtp.Qed.HashTable

/-!
# Building a table

The model of the single-writer operations of `qed/builder.h` and `qed/builder.cc`.
A builder owns the two bucket tables, which `HashTable` reads, and for each of them
a table of the root each used bucket belongs to.

* `Builder.insert` — `Insert`, with all three of its ways: a key becomes the root
  of its home slot, replaces the payload of its own node, or is appended to the
  chain of its home slot; and with the displacement of a node of another chain that
  sits in the home slot.  The function calls itself again when a compare-and-swap
  fails; the model bounds these calls by fuel, and a null bucket that would be
  dereferenced is a fault.
* `Builder.findParent`, `Builder.optimizeFreeBucket` — moving a bucket of the free
  table into an unused managed bucket near its root.
-/

namespace Rtp.Qed

/-- The bucket types that `get_bucket_type` gives and `OpenMeta` accepts. -/
abbrev BucketType : Type := { b : ℕ // 2 ≤ b ∧ b ≤ 50 }

/-- What can go wrong without a result: a null bucket is dereferenced, or the calls
of a function to itself are cut off by the fuel of the model. -/
inductive Fault where
  | nullBucket
  | outOfFuel
  deriving DecidableEq, Repr

/-- The mapped files of a `Builder`.  Of the meta information only the bucket type
and the number of free buckets taken are used here. -/
structure Builder where
  bucketType : BucketType
  freeIdCount : BitVec 64
  managedBucket : BitVec 64 → RawBucket
  freeBucket : BitVec 64 → RawBucket
  rootBucketIdTableManaged : BitVec 64 → BitVec 64
  rootBucketIdTableFree : BitVec 64 → BitVec 64

namespace Builder

/-- A table that has just been opened and reserved: all buckets zero, no bucket with
a root. -/
def reserved (b : BucketType) : Builder where
  bucketType := b
  freeIdCount := 0
  managedBucket := fun _ => .zero
  freeBucket := fun _ => .zero
  rootBucketIdTableManaged := fun _ => allMask64
  rootBucketIdTableFree := fun _ => allMask64

/-- The reader of the tables. -/
def hashTable (σ : Builder) : HashTable := ⟨σ.managedBucket, σ.freeBucket, σ.bucketType.1⟩

/-- `HashTable::Find` on the tables being built. -/
def find (σ : Builder) (keyId : BitVec 64) : BitVec 64 := σ.hashTable.find keyId

/-- The mask of the high bits of a key. -/
def mask (σ : Builder) : BitVec 64 := keyInfoHiMask σ.bucketType.1

/-- The number of buckets in each table. -/
def capacity (σ : Builder) : BitVec 64 := 1#64 <<< σ.bucketType.1

/-- The bucket at a place. -/
def bucketAt (σ : Builder) (loc : Location) : RawBucket := σ.hashTable.bucketAt loc

/-- A write to the bucket at a place. -/
def setBucket (σ : Builder) (loc : Location) (bucket : RawBucket) : Builder :=
  if loc.internal then
    { σ with managedBucket := Function.update σ.managedBucket loc.id bucket }
  else { σ with freeBucket := Function.update σ.freeBucket loc.id bucket }

/-- A write to the table of roots. -/
def setRootId (σ : Builder) (loc : Location) (rootId : BitVec 64) : Builder :=
  if loc.internal then
    { σ with
      rootBucketIdTableManaged := Function.update σ.rootBucketIdTableManaged loc.id rootId }
  else
    { σ with
      rootBucketIdTableFree := Function.update σ.rootBucketIdTableFree loc.id rootId }

/-- `__sync_bool_compare_and_swap` on the size field of a bucket. -/
def casSizeField (σ : Builder) (loc : Location) (expected new : BitVec 8) : Option Builder :=
  (compareAndSwap (σ.bucketAt loc).sizeField expected new).map fun sizeField =>
    σ.setBucket loc { σ.bucketAt loc with sizeField := sizeField }

/-- `__sync_bool_compare_and_swap` on the key information of a bucket. -/
def casKeyInfoField (σ : Builder) (loc : Location) (expected new : BitVec 64) :
    Option Builder :=
  (compareAndSwap (σ.bucketAt loc).keyInfoField expected new).map fun keyInfoField =>
    σ.setBucket loc { σ.bucketAt loc with keyInfoField := keyInfoField }

/-- Is the place inside the part of its table that is in use? -/
def inBounds (σ : Builder) (loc : Location) : Bool :=
  if loc.internal then loc.id.ult σ.capacity else loc.id.ult σ.freeIdCount

/-- `bucket_by_location`; `none` is the null pointer. -/
def bucketByLocation (σ : Builder) (loc : Location) : Option RawBucket :=
  if σ.inBounds loc then some (σ.bucketAt loc) else none

/-- The entry of a table of roots. -/
def rootIdAt (σ : Builder) (loc : Location) : BitVec 64 :=
  if loc.internal then σ.rootBucketIdTableManaged loc.id else σ.rootBucketIdTableFree loc.id

/-- `root_id_by_location`. -/
def rootIdByLocation (σ : Builder) (loc : Location) : BitVec 64 :=
  if σ.inBounds loc then σ.rootIdAt loc else allMask64

/-- `find_root`; `none` is the null pointer. -/
def findRoot (σ : Builder) (loc : Location) : Option Location :=
  if ¬ loc.id.ult σ.capacity then none
  else
    let rootId := σ.rootIdByLocation loc
    if rootId = allMask64 ∨ ¬ rootId.ult σ.capacity then none else some ⟨true, rootId⟩

/-- `TakeFreeBucketId` with a count of one: the number taken and the builder after
it, or `none` for `UINT64_MAX`. -/
def takeFreeBucketId (σ : Builder) : Option (BitVec 64 × Builder) :=
  if σ.capacity.ult (σ.freeIdCount + 1) then none
  else some (σ.freeIdCount, { σ with freeIdCount := σ.freeIdCount + 1 })

/-- The bucket of the free table an `Insert` uses: the one it was given, or else one
it takes. -/
def freeSlotOrTake (σ : Builder) (freeSlot : BitVec 64) : Option (BitVec 64 × Builder) :=
  if freeSlot ≠ allMask64 then some (freeSlot, σ) else σ.takeFreeBucketId

/-- The result of a failed `Insert`. -/
def notInserted : Location := ⟨true, hashtableNFound⟩

/-! ## Insert -/

/-- How `Insert` is left from inside: it returns, or calls itself again with the given
free slot. -/
inductive Outcome where
  | returned (result : Location) (σ : Builder)
  | again (freeSlot : BitVec 64) (σ : Builder)

/-- The search for the parent of the bucket `bucketId` in the chain of its root: the
last of the buckets looked at that leads to it, and the bucket the search stops
at. -/
def searchParent (σ : Builder) (bucketId : BitVec 64) :
    ℕ → Location → Option Location → Option Location × Location
  | 0, iter, parent => (parent, iter)
  | n + 1, iter, parent =>
    σ.searchParent bucketId n ((σ.bucketAt iter).nextBucket σ.mask)
      (if (σ.bucketAt iter).nextBucket σ.mask = ⟨true, bucketId⟩ then some iter else parent)

/-- The home slot holds a node of another chain: the node is unlinked, copied to a
bucket of the free table and linked in behind the last node of its chain.  The home
slot has been claimed before, so that its size field is already overwritten here.  An
error is `Insert` being left. -/
def displace (σ : Builder) (bucketId freeSlot : BitVec 64) : Except Outcome Builder :=
  let bucket : Location := ⟨true, bucketId⟩
  match σ.findRoot bucket with
  | none => .error (.returned notInserted σ)
  | some root =>
    let size := (σ.bucketAt root).size
    if size.ult 2 then .error (.returned notInserted σ)
    else
      match σ.searchParent bucketId (size.toNat - 1) root none with
      | (none, _) => .error (.returned notInserted σ)
      | (some parent, iter) =>
        match σ.casSizeField root (size ||| 0x80#8) ((size - 1) ||| 0x80#8) with
        | none => .error (.again freeSlot σ)
        | some σ =>
          match (σ.bucketAt parent).trySetNextBucketId σ.mask
              ((σ.bucketAt bucket).nextBucketId σ.mask)
              (σ.bucketAt bucket).nextBucketIsInternal with
          | none => .error (.again freeSlot σ)
          | some parentBucket =>
            let σ := σ.setBucket parent parentBucket
            match σ.freeSlotOrTake freeSlot with
            | none => .error (.returned notInserted σ)
            | some (freeSlot, σ) =>
              let σ := σ.setBucket ⟨false, freeSlot⟩
                { σ.bucketAt bucket with sizeField := 0x80#8 }
              let σ := σ.setRootId ⟨false, freeSlot⟩ bucketId
              .ok (σ.setBucket iter
                ((σ.bucketAt iter).setNextBucketId σ.mask freeSlot false))

/-- The home slot becomes the root of a chain of one. -/
def fillRoot (σ : Builder) (keyId payload : BitVec 64) : Location × Builder :=
  let bucket : Location := ⟨true, keyId &&& ~~~σ.mask⟩
  let σ := σ.setRootId bucket (keyId &&& ~~~σ.mask)
  (bucket, σ.setBucket bucket ⟨keyId, 1#8, payload.setWidth 56⟩)

/-- What the search for a key in the chain of its home slot ends with: the place of
its node and how many nodes come before it, or the last node of the chain with the
key information read from it. -/
inductive ChainSearch where
  | found (loc : Location) (index : ℕ)
  | absent (lastLocation : Location) (lastKeyInfoField : BitVec 64)

/-- The search in `Insert`, with the number of nodes still to be looked at and the
number of those looked at already. -/
def searchChain (σ : Builder) (keyId : BitVec 64) :
    ℕ → ℕ → Location → Location → BitVec 64 → Except Fault ChainSearch
  | 0, _, _, lastLocation, lastKeyInfoField => .ok (.absent lastLocation lastKeyInfoField)
  | n + 1, i, loc, _, _ =>
    match σ.bucketByLocation loc with
    | none => .error .nullBucket
    | some dst =>
      if dst.keyHighBits σ.mask = keyId &&& σ.mask then .ok (.found loc i)
      else σ.searchChain keyId n (i + 1) (dst.nextBucket σ.mask) loc dst.keyInfoField

/-- A bucket of the free table is filled with a node for the key.  The node at the end
of a chain points to the root, which its key information does by itself. -/
def fillNode (σ : Builder) (freeSlot keyId payload : BitVec 64) : Builder :=
  (σ.setBucket ⟨false, freeSlot⟩ ⟨keyId, 0x80#8, payload.setWidth 56⟩).setRootId
    ⟨false, freeSlot⟩ (keyId &&& ~~~σ.mask)

/-- The node at the end of the chain of the home slot is made to point to the new one,
and then the size at the root is raised; `sizeField` is what was read from the root at
the beginning. -/
def linkNode (σ : Builder) (keyId freeSlot : BitVec 64) (sizeField : BitVec 8)
    (lastLocation : Location) (lastKeyInfoField : BitVec 64) : Except Fault Outcome :=
  let bucket : Location := ⟨true, keyId &&& ~~~σ.mask⟩
  match σ.bucketByLocation lastLocation with
  | none => .error .nullBucket
  | some lastBucket =>
    let expectedSizeField := lastBucket.sizeField
    match σ.casKeyInfoField lastLocation lastKeyInfoField
        (Mask.splice σ.mask lastKeyInfoField freeSlot) with
    | none => .ok (.again freeSlot σ)
    | some σ =>
      if lastLocation ≠ bucket ∧ expectedSizeField &&& ~~~sizeFieldHiMask ≠ 0#8 then
        .ok (.again freeSlot σ)
      else
        match σ.casSizeField lastLocation expectedSizeField
            (expectedSizeField &&& ~~~sizeFieldHiMask) with
        | none => .ok (.again freeSlot σ)
        | some σ =>
          match σ.casSizeField bucket sizeField (sizeField + 1) with
          | none => .ok (.again freeSlot σ)
          | some σ => .ok (.returned ⟨false, freeSlot⟩ σ)

/-- A new node is appended to the chain of the home slot. -/
def appendNode (σ : Builder) (keyId payload freeSlot : BitVec 64) (sizeField : BitVec 8)
    (lastLocation : Location) (lastKeyInfoField : BitVec 64) : Except Fault Outcome :=
  match σ.freeSlotOrTake freeSlot with
  | none => .ok (.returned notInserted σ)
  | some (freeSlot, σ) =>
    (σ.fillNode freeSlot keyId payload).linkNode keyId freeSlot sizeField lastLocation
      lastKeyInfoField

/-- `Insert`.  The fuel bounds how often it calls itself. -/
def insert : ℕ → BitVec 64 → BitVec 64 → BitVec 64 → Builder →
    Except Fault (Location × Builder)
  | 0, _, _, _, _ => .error .outOfFuel
  | fuel + 1, keyId, payload, freeSlot, σ =>
    let bucketId := keyId &&& ~~~σ.mask
    let bucket : Location := ⟨true, bucketId⟩
    let sizeField := (σ.bucketAt bucket).sizeField
    if sizeField &&& ~~~sizeFieldHiMask = 0#8 then
      match σ.casSizeField bucket sizeField 1#8 with
      | none => insert fuel keyId payload freeSlot σ
      | some σ =>
        if σ.rootIdAt bucket ≠ allMask64 then
          match σ.displace bucketId freeSlot with
          | .error (.returned result σ) => .ok (result, σ)
          | .error (.again freeSlot σ) => insert fuel keyId payload freeSlot σ
          | .ok σ =>
            match σ.casSizeField bucket sizeField 1#8 with
            | none => insert fuel keyId payload allMask64 σ
            | some σ => .ok (σ.fillRoot keyId payload)
        else .ok (σ.fillRoot keyId payload)
    else if sizeField = 0xFF#8 then .ok (notInserted, σ)
    else
      match σ.searchChain keyId (sizeField &&& ~~~sizeFieldHiMask).toNat 0 bucket bucket 0 with
      | .error e => .error e
      | .ok (.found loc i) =>
        if loc.internal = false ∨ i = 0 ∨ σ.rootIdByLocation loc = bucketId then
          .ok (loc, σ.setBucket loc
            { σ.bucketAt loc with payload := payload.setWidth 56 })
        else insert fuel keyId payload allMask64 σ
      | .ok (.absent lastLocation lastKeyInfoField) =>
        match σ.appendNode keyId payload freeSlot sizeField lastLocation lastKeyInfoField with
        | .error e => .error e
        | .ok (.returned result σ) => .ok (result, σ)
        | .ok (.again freeSlot σ) => insert fuel keyId payload freeSlot σ

/-! ## OptimizeFreeBucket -/

/-- The loop of `FindParent`, with the number of nodes still to be looked at and the
number of those looked at already; `none` when a node is not what it should be, and
the search is made again. -/
def findParentFrom (σ : Builder) (location : Location) : ℕ → ℕ → Location → Option Location
  | 0, _, _ => some ⟨true, allMask64⟩
  | n + 1, i, iter =>
    match σ.bucketByLocation iter with
    | none => some ⟨true, allMask64⟩
    | some bucket =>
      if (i = 0 ∧ bucket.size = 0#8) ∨ (i ≠ 0 ∧ bucket.size ≠ 0#8) then none
      else if bucket.nextBucket σ.mask = location then some iter
      else σ.findParentFrom location n (i + 1) (bucket.nextBucket σ.mask)

/-- `FindParent`.  The fuel bounds how often it calls itself. -/
def findParent (σ : Builder) (location : Location) : ℕ → Except Fault Location
  | 0 => .error .outOfFuel
  | fuel + 1 =>
    let rootId := σ.rootIdByLocation location
    if rootId = allMask64 then .ok ⟨true, allMask64⟩
    else
      match σ.findParentFrom location (σ.managedBucket rootId).size.toNat 0 ⟨true, rootId⟩ with
      | some iter => .ok iter
      | none => σ.findParent location fuel

/-- A first search that comes to an end. -/
theorem findParent_of_found {σ : Builder} {location parent : Location} {rootId : BitVec 64}
    (hid : σ.rootIdByLocation location = rootId) (hroot : rootId ≠ allMask64)
    (h : σ.findParentFrom location (σ.managedBucket rootId).size.toNat 0 ⟨true, rootId⟩ =
      some parent) (fuel : ℕ) : σ.findParent location (fuel + 1) = .ok parent := by
  simp only [findParent, hid, if_neg hroot, h]

/-- The free bucket has been copied to the managed slot `iter`, which is claimed for
its root: its parent is made to point to the copy. -/
def relink (σ : Builder) (location : Location) (iter : BitVec 64) (fuel : ℕ) :
    Except Fault (Bool × Builder) :=
  match σ.findParent location fuel with
  | .error e => .error e
  | .ok parentLocation =>
    if parentLocation.id = allMask64 then .ok (false, σ)
    else
      match σ.bucketByLocation parentLocation with
      | none => .error .nullBucket
      | some parentBucket =>
        let expectedSize := parentBucket.sizeField
        let expectedKeyField := parentBucket.keyInfoField
        if expectedSize &&& sizeFieldHiMask ≠ 0#8 then .ok (false, σ)
        else if expectedKeyField &&& ~~~σ.mask ≠ location.id then .ok (false, σ)
        else
          match σ.casSizeField parentLocation expectedSize (expectedSize ||| sizeFieldHiMask) with
          | none => .ok (false, σ)
          | some σ =>
            let σ := σ.setBucket parentLocation
              { σ.bucketAt parentLocation with
                keyInfoField := Mask.splice σ.mask expectedKeyField iter }
            .ok (true, σ.setRootId location allMask64)

/-- The search for an unused managed bucket, with the number of those still to be
looked at. -/
def optimizeFrom (σ : Builder) (location : Location) (root : BitVec 64) (fuel : ℕ) :
    ℕ → BitVec 64 → Except Fault (Bool × Builder)
  | 0, _ => .ok (false, σ)
  | n + 1, iter =>
    if iter = root ∨ σ.rootIdByLocation ⟨true, iter⟩ ≠ allMask64 ∨
        (σ.managedBucket iter).size ≠ 0#8 then
      σ.optimizeFrom location root fuel n (iter + 1)
    else
      match compareAndSwap (σ.rootIdAt ⟨true, iter⟩) allMask64 root with
      | none => σ.optimizeFrom location root fuel n (iter + 1)
      | some rootId =>
        match σ.bucketByLocation location with
        | none => .error .nullBucket
        | some freeBucket =>
          ((σ.setRootId ⟨true, iter⟩ rootId).setBucket ⟨true, iter⟩ freeBucket).relink
            location iter fuel

/-- `OptimizeFreeBucket`. -/
def optimizeFreeBucket (σ : Builder) (location : Location) (level : BitVec 8) (fuel : ℕ) :
    Except Fault (Bool × Builder) :=
  if location.internal then .ok (false, σ)
  else
    let root := σ.rootIdByLocation location
    if root = allMask64 then .ok (false, σ)
    else
      let cacheLineStartId := root &&& (allMask64 <<< 2)
      let cacheLineEndId := cacheLineStartId + 4 + level.setWidth 64 * 4
      let cacheLineEndId := if cacheLineEndId.ult σ.capacity then cacheLineEndId else σ.capacity
      σ.optimizeFrom location root fuel (cacheLineEndId.toNat - cacheLineStartId.toNat)
        cacheLineStartId

end Builder

end Rtp.Qed
