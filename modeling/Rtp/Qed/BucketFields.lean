import Rtp.Lib.Memory
import Rtp.Qed.Bucket

/-!
# The fields of a bucket

`Bucket<n>` and `WeakBucket` (`qed/bucket.h`), with all their ways to write.  Five fields share the
sixteen bytes: the key bits and the number of the next bucket one word, the flag and the size one
byte, and the payload is beside them.  The operations on the byte are done on `int`, to which the
language promotes an operand of eight bits.

* `Bucket`, `WeakBucket` — the two types, `ofMemory` — the bytes they are read from.
* `Bucket.fields`, `WeakBucket.fields` — what is read from a bucket.
* `Bucket.fields_setKey`, `fields_setNextBucketId`, `fields_setSize` — **each way to write sets its
  own fields and no other**.
* `Bucket.trySetKey_eq_true` and its like — a swap that succeeds writes the same to the bucket it
  finds, whatever other threads have done to it since the read.
* `WeakBucket.fields_eq` — a `WeakBucket` that is given the mask reads the same fields.
-/

namespace Rtp.Qed

open Mask

/-- The parameter of `Bucket<n>`, as the `static_assert` has it. -/
abbrev BucketWidth := { n : ℕ // n < 64 ∧ 0 < n }

/-- `Bucket<n>`. -/
structure Bucket (n : BucketWidth) extends RawBucket
  deriving DecidableEq, Repr

/-- `WeakBucket`, whose readers are given the mask. -/
structure WeakBucket extends RawBucket
  deriving DecidableEq, Repr

/-- What the accessors of a bucket return, and its payload. -/
structure BucketFields where
  keyHighBits : BitVec 64
  nextBucketId : BitVec 64
  nextBucketIsInternal : Bool
  size : BitVec 8
  payload : BitVec 56
  deriving DecidableEq, Repr

/-- The sixteen bytes of a bucket at an address: the word, the byte, and fifty-six bits. -/
def RawBucket.ofMemory (memory : ℕ → BitVec 8) (address : ℕ) : RawBucket where
  keyInfoField := BitVec.ofNat 64 (Memory.load 8 memory address)
  sizeField := memory (address + 8)
  payload := BitVec.ofNat 56 (Memory.load 7 memory (address + 9))

/-! ## Integer promotion -/

/-- A `uint8_t` in an expression is an `int`. -/
def promote (x : BitVec 8) : BitVec 32 := x.setWidth 32

/-- An `int` that is stored in a `uint8_t`. -/
def toByte (x : BitVec 32) : BitVec 8 := x.setWidth 8

@[simp] theorem toByte_promote (x : BitVec 8) : toByte (promote x) = x := by
  rw [toByte, promote, BitVec.setWidth_setWidth_of_le _ (by decide), BitVec.setWidth_eq]

@[simp] theorem toByte_and (x y : BitVec 32) : toByte (x &&& y) = toByte x &&& toByte y :=
  BitVec.setWidth_and

@[simp] theorem toByte_or (x y : BitVec 32) : toByte (x ||| y) = toByte x ||| toByte y :=
  BitVec.setWidth_or

@[simp] theorem toByte_not (x : BitVec 32) : toByte (~~~x) = ~~~toByte x :=
  BitVec.setWidth_not (by decide)

/-- `size_field & ~size_filed_hi_mask_::value`, as a `uint8_t`. -/
def lowBits (sizeField : BitVec 8) : BitVec 8 :=
  toByte (promote sizeField &&& ~~~promote sizeFieldHiMask)

/-- `(size_field & size_filed_hi_mask_::value) != 0`. -/
def highBit (sizeField : BitVec 8) : Bool :=
  promote sizeField &&& promote sizeFieldHiMask != 0#32

/-- The size byte with another size. -/
def resized (sizeField size : BitVec 8) : BitVec 8 :=
  toByte ((promote sizeField &&& promote sizeFieldHiMask) |||
    (promote size &&& ~~~promote sizeFieldHiMask))

/-- The size byte with the flag set or cleared. -/
def reflagged (sizeField : BitVec 8) (internal : Bool) : BitVec 8 :=
  if internal then toByte (promote sizeField ||| promote sizeFieldHiMask)
  else toByte (promote sizeField &&& ~~~promote sizeFieldHiMask)

/-! ## `Bucket<n>` -/

namespace Bucket

variable {n : BucketWidth}

def nextBucketIsInternal (b : Bucket n) : Bool := highBit b.sizeField

def size (b : Bucket n) : BitVec 8 := lowBits b.sizeField

def nextBucketId (b : Bucket n) : BitVec 64 := b.keyInfoField &&& ~~~keyInfoHiMask n

def keyHighBits (b : Bucket n) : BitVec 64 := b.keyInfoField &&& keyInfoHiMask n

def fields (b : Bucket n) : BucketFields :=
  ⟨b.keyHighBits, b.nextBucketId, b.nextBucketIsInternal, b.size, b.payload⟩

def setSize (b : Bucket n) (size : BitVec 8) : Bucket n :=
  { b with sizeField := resized b.sizeField size }

def setKey (b : Bucket n) (key : BitVec 64) : Bucket n :=
  { b with keyInfoField := (key &&& keyInfoHiMask n) ||| b.nextBucketId }

/-- The first store of `SetNextBucketId`. -/
def setFlag (b : Bucket n) (internal : Bool) : Bucket n :=
  { b with sizeField := reflagged b.sizeField internal }

/-- The second store of `SetNextBucketId`. -/
def setId (b : Bucket n) (id : BitVec 64) : Bucket n :=
  { b with
    keyInfoField := (b.keyInfoField &&& keyInfoHiMask n) ||| (id &&& ~~~keyInfoHiMask n) }

def setNextBucketId (b : Bucket n) (id : BitVec 64) (internal : Bool) : Bucket n :=
  (b.setFlag internal).setId id

/-- `__sync_bool_compare_and_swap(&size_field, ..)`. -/
def swapSizeField (b : Bucket n) (expected new : BitVec 8) : Bool × Bucket n :=
  match compareAndSwap b.sizeField expected new with
  | none => (false, b)
  | some sizeField => (true, { b with sizeField := sizeField })

/-- `__sync_bool_compare_and_swap(&key_info_field, ..)`. -/
def swapKeyInfoField (b : Bucket n) (expected new : BitVec 64) : Bool × Bucket n :=
  match compareAndSwap b.keyInfoField expected new with
  | none => (false, b)
  | some keyInfoField => (true, { b with keyInfoField := keyInfoField })

/-- `TrySetSize`.  Between the read and the swap other threads may write to the bucket. -/
def trySetSize (b : Bucket n) (others : Bucket n → Bucket n) (size : BitVec 8) :
    Bool × Bucket n :=
  let expected := b.sizeField
  (others b).swapSizeField expected (resized expected size)

/-- `TrySetKey`. -/
def trySetKey (b : Bucket n) (others : Bucket n → Bucket n) (key : BitVec 64) :
    Bool × Bucket n :=
  let expected := b.keyInfoField
  (others b).swapKeyInfoField expected
    ((key &&& keyInfoHiMask n) ||| (expected &&& ~~~keyInfoHiMask n))

/-- `TrySetNextBucketId`: two reads and two swaps, with other threads in between.  When the second
swap fails, the first is not undone. -/
def trySetNextBucketId (b : Bucket n) (others : Fin 3 → Bucket n → Bucket n) (id : BitVec 64)
    (internal : Bool) : Bool × Bucket n :=
  let expectedSizeField := b.sizeField
  let b := others 0 b
  let expectedKeyField := b.keyInfoField
  let (swapped, b) := (others 1 b).swapSizeField expectedSizeField
    (reflagged expectedSizeField internal)
  if swapped then
    (others 2 b).swapKeyInfoField expectedKeyField
      ((expectedKeyField &&& keyInfoHiMask n) ||| (id &&& ~~~keyInfoHiMask n))
  else (false, b)

end Bucket

/-! ## `WeakBucket` -/

namespace WeakBucket

def nextBucketIsInternal (b : WeakBucket) : Bool := highBit b.sizeField

def size (b : WeakBucket) : BitVec 8 := lowBits b.sizeField

def nextBucketId (b : WeakBucket) (keyInfoHiMask : BitVec 64) : BitVec 64 :=
  b.keyInfoField &&& ~~~keyInfoHiMask

def keyHighBits (b : WeakBucket) (keyInfoHiMask : BitVec 64) : BitVec 64 :=
  b.keyInfoField &&& keyInfoHiMask

def fields (b : WeakBucket) (keyInfoHiMask : BitVec 64) : BucketFields :=
  ⟨b.keyHighBits keyInfoHiMask, b.nextBucketId keyInfoHiMask, b.nextBucketIsInternal, b.size,
    b.payload⟩

end WeakBucket

/-! ## The size byte -/

theorem lowBits_eq (x : BitVec 8) : lowBits x = x &&& ~~~sizeFieldHiMask := by
  simp [lowBits]

theorem highBit_eq (x : BitVec 8) : highBit x = (x &&& sizeFieldHiMask != 0#8) := by
  revert x
  decide

theorem resized_eq (x size : BitVec 8) : resized x size = splice sizeFieldHiMask x size := by
  simp [resized, splice]

theorem reflagged_eq (x : BitVec 8) (internal : Bool) :
    reflagged x internal = RawBucket.flagged x internal := by
  cases internal <;> simp [reflagged, RawBucket.flagged]

theorem lowBits_resized (x size : BitVec 8) :
    lowBits (resized x size) = BitVec.ofNat 8 (size.toNat % 2 ^ 7) := by
  have hlow : ∀ y : BitVec 8, y &&& ~~~sizeFieldHiMask = BitVec.ofNat 8 (y.toNat % 2 ^ 7) := by
    decide
  rw [lowBits_eq, resized_eq, splice_and_compl, hlow]

@[simp] theorem highBit_resized (x size : BitVec 8) : highBit (resized x size) = highBit x := by
  rw [highBit_eq, highBit_eq, resized_eq, splice_and_mask]

@[simp] theorem lowBits_reflagged (x : BitVec 8) (internal : Bool) :
    lowBits (reflagged x internal) = lowBits x := by
  rw [lowBits_eq, lowBits_eq, reflagged_eq, RawBucket.flagged_and_compl]

@[simp] theorem highBit_reflagged (x : BitVec 8) (internal : Bool) :
    highBit (reflagged x internal) = internal := by
  rw [highBit_eq, reflagged_eq, RawBucket.flagged_and_mask]

/-! ## The key word -/

/-- The high bits of a key are the multiple of `2 ^ n` below it. -/
theorem and_keyInfoHiMask (n : ℕ) (x : BitVec 64) :
    x &&& keyInfoHiMask n = BitVec.ofNat 64 (x.toNat / 2 ^ n * 2 ^ n) := by
  rw [keyInfoHiMask, ← toNat_and_lowMask, BitVec.ofNat_toNat, BitVec.setWidth_eq]

/-- What is left below them is the residue. -/
theorem and_compl_keyInfoHiMask (n : ℕ) (x : BitVec 64) :
    x &&& ~~~keyInfoHiMask n = BitVec.ofNat 64 (x.toNat % 2 ^ n) := by
  rw [keyInfoHiMask, ← toNat_and_lowMask_compl, BitVec.ofNat_toNat, BitVec.setWidth_eq]

namespace Bucket

variable {n : BucketWidth} {b : Bucket n}

theorem keyInfoField_setKey (b : Bucket n) (key : BitVec 64) :
    (b.setKey key).keyInfoField = splice (keyInfoHiMask n) key b.keyInfoField := rfl

theorem keyInfoField_setId (b : Bucket n) (id : BitVec 64) :
    (b.setId id).keyInfoField = splice (keyInfoHiMask n) b.keyInfoField id := rfl

/-! ## Each way to write sets its own fields -/

theorem fields_setKey (b : Bucket n) (key : BitVec 64) :
    (b.setKey key).fields =
      { b.fields with keyHighBits := .ofNat 64 (key.toNat / 2 ^ n.1 * 2 ^ n.1) } := by
  rw [← and_keyInfoHiMask]
  simp only [fields, keyHighBits, nextBucketId, keyInfoField_setKey, splice_and_mask,
    splice_and_compl]
  rfl

theorem fields_setId (b : Bucket n) (id : BitVec 64) :
    (b.setId id).fields = { b.fields with nextBucketId := .ofNat 64 (id.toNat % 2 ^ n.1) } := by
  rw [← and_compl_keyInfoHiMask]
  simp only [fields, keyHighBits, nextBucketId, keyInfoField_setId, splice_and_mask,
    splice_and_compl]
  rfl

theorem fields_setFlag (b : Bucket n) (internal : Bool) :
    (b.setFlag internal).fields = { b.fields with nextBucketIsInternal := internal } := by
  simp only [fields, nextBucketIsInternal, size, setFlag, highBit_reflagged, lowBits_reflagged]
  rfl

theorem fields_setNextBucketId (b : Bucket n) (id : BitVec 64) (internal : Bool) :
    (b.setNextBucketId id internal).fields =
      { b.fields with
        nextBucketId := .ofNat 64 (id.toNat % 2 ^ n.1)
        nextBucketIsInternal := internal } := by
  rw [setNextBucketId, fields_setId, fields_setFlag]

theorem fields_setSize (b : Bucket n) (size : BitVec 8) :
    (b.setSize size).fields = { b.fields with size := .ofNat 8 (size.toNat % 2 ^ 7) } := by
  simp only [fields, nextBucketIsInternal, Bucket.size, setSize, highBit_resized, lowBits_resized]
  rfl

/-! ## The swaps -/

variable {b' : Bucket n}

/-- A swap that succeeds has found what was expected. -/
theorem swapSizeField_eq_true {expected new : BitVec 8} :
    b.swapSizeField expected new = (true, b') ↔
      b.sizeField = expected ∧ b' = { b with sizeField := new } := by
  unfold swapSizeField compareAndSwap
  by_cases h : b.sizeField = expected <;> simp [h, eq_comm]

theorem swapKeyInfoField_eq_true {expected new : BitVec 64} :
    b.swapKeyInfoField expected new = (true, b') ↔
      b.keyInfoField = expected ∧ b' = { b with keyInfoField := new } := by
  unfold swapKeyInfoField compareAndSwap
  by_cases h : b.keyInfoField = expected <;> simp [h, eq_comm]

/-- It writes to the bucket it finds; nobody has changed the size byte since the read. -/
theorem trySetSize_eq_true {others : Bucket n → Bucket n} {size : BitVec 8} :
    b.trySetSize others size = (true, b') ↔
      (others b).sizeField = b.sizeField ∧ b' = (others b).setSize size := by
  rw [trySetSize, swapSizeField_eq_true]
  refine and_congr_right fun h => ?_
  rw [setSize, h]

theorem trySetKey_eq_true {others : Bucket n → Bucket n} {key : BitVec 64} :
    b.trySetKey others key = (true, b') ↔
      (others b).keyInfoField = b.keyInfoField ∧ b' = (others b).setKey key := by
  rw [trySetKey, swapKeyInfoField_eq_true]
  refine and_congr_right fun h => ?_
  rw [setKey, nextBucketId, h]

/-- Each of the two swaps finds a bucket of its own. -/
theorem trySetNextBucketId_eq_true {others : Fin 3 → Bucket n → Bucket n} {id : BitVec 64}
    {internal : Bool} : b.trySetNextBucketId others id internal = (true, b') ↔
      (others 1 (others 0 b)).sizeField = b.sizeField ∧
      (others 2 ((others 1 (others 0 b)).setFlag internal)).keyInfoField =
        (others 0 b).keyInfoField ∧
      b' = (others 2 ((others 1 (others 0 b)).setFlag internal)).setId id := by
  generalize hfound : others 1 (others 0 b) = found
  unfold trySetNextBucketId
  simp only [hfound]
  by_cases hsize : found.sizeField = b.sizeField
  · have hswap : found.swapSizeField b.sizeField (reflagged b.sizeField internal) =
        (true, found.setFlag internal) :=
      swapSizeField_eq_true.mpr ⟨hsize, by rw [setFlag, hsize]⟩
    rw [hswap, if_pos rfl, swapKeyInfoField_eq_true, and_iff_right hsize]
    refine and_congr_right fun hkey => ?_
    rw [setId, hkey]
  · have hswap : found.swapSizeField b.sizeField (reflagged b.sizeField internal) =
        (false, found) := by
      simp [swapSizeField, compareAndSwap, hsize]
    simp [hswap, hsize]

/-! ## The buckets of the hash table -/

/-- The fields are those that the hash table reads, with the mask of its buckets. -/
theorem fields_eq (b : Bucket n) : b.fields =
    ⟨b.toRawBucket.keyHighBits (keyInfoHiMask n), b.toRawBucket.nextBucketId (keyInfoHiMask n),
      b.toRawBucket.nextBucketIsInternal, b.toRawBucket.size, b.payload⟩ := by
  simp only [fields, nextBucketIsInternal, size, highBit_eq, lowBits_eq]
  rfl

end Bucket

/-! ## The two types read the same -/

section Weak

variable (n : BucketWidth) (raw : RawBucket)

theorem keyInfoHiMask_eq : keyInfoHiMask n.1 = BitVec.ofNat 64 (2 ^ 64 - 2 ^ n.1) :=
  lowMask_eq_ofNat (Nat.le_of_lt n.2.1)

theorem WeakBucket.fields_eq :
    (WeakBucket.mk raw).fields (.ofNat 64 (2 ^ 64 - 2 ^ n.1)) =
      (Bucket.mk raw : Bucket n).fields := by
  rw [← keyInfoHiMask_eq]
  rfl

end Weak

/-- **The fields of a bucket are independent.**  Each way to write sets its own fields, cut to
their width, and leaves the others; so does a swap that succeeds, in the bucket that it finds, and
without other threads it does succeed.  From the same bytes a `WeakBucket` with the mask
`2 ^ 64 - 2 ^ n` reads the same fields. -/
theorem bucket_fields_independent (n : BucketWidth) (b : Bucket n) :
    (∀ key, (b.setKey key).fields =
      { b.fields with keyHighBits := .ofNat 64 (key.toNat / 2 ^ n.1 * 2 ^ n.1) }) ∧
    (∀ id internal, (b.setNextBucketId id internal).fields =
      { b.fields with
        nextBucketId := .ofNat 64 (id.toNat % 2 ^ n.1)
        nextBucketIsInternal := internal }) ∧
    (∀ size, (b.setSize size).fields =
      { b.fields with size := .ofNat 8 (size.toNat % 2 ^ 7) }) ∧
    (∀ others key b', b.trySetKey others key = (true, b') → b'.fields =
      { (others b).fields with keyHighBits := .ofNat 64 (key.toNat / 2 ^ n.1 * 2 ^ n.1) }) ∧
    (∀ others id internal b', b.trySetNextBucketId others id internal = (true, b') →
      ((others 1 (others 0 b)).setFlag internal).fields =
        { (others 1 (others 0 b)).fields with nextBucketIsInternal := internal } ∧
      b'.fields =
        { (others 2 ((others 1 (others 0 b)).setFlag internal)).fields with
          nextBucketId := .ofNat 64 (id.toNat % 2 ^ n.1) }) ∧
    (∀ others size b', b.trySetSize others size = (true, b') → b'.fields =
      { (others b).fields with size := .ofNat 8 (size.toNat % 2 ^ 7) }) ∧
    (∀ key id internal size, b.trySetKey (fun b => b) key = (true, b.setKey key) ∧
      b.trySetNextBucketId (fun _ b => b) id internal = (true, b.setNextBucketId id internal) ∧
      b.trySetSize (fun b => b) size = (true, b.setSize size)) ∧
    ∀ memory address,
      (WeakBucket.mk (.ofMemory memory address)).fields (.ofNat 64 (2 ^ 64 - 2 ^ n.1)) =
        (Bucket.mk (.ofMemory memory address) : Bucket n).fields := by
  refine ⟨b.fields_setKey, b.fields_setNextBucketId, b.fields_setSize, ?_, ?_, ?_, ?_, ?_⟩
  · intro others key b' h
    rw [(Bucket.trySetKey_eq_true.mp h).2, Bucket.fields_setKey]
  · intro others id internal b' h
    refine ⟨Bucket.fields_setFlag _ internal, ?_⟩
    rw [(Bucket.trySetNextBucketId_eq_true.mp h).2.2, Bucket.fields_setId]
  · intro others size b' h
    rw [(Bucket.trySetSize_eq_true.mp h).2, Bucket.fields_setSize]
  · intro key id internal size
    exact ⟨Bucket.trySetKey_eq_true.mpr ⟨rfl, rfl⟩,
      Bucket.trySetNextBucketId_eq_true.mpr ⟨rfl, rfl, rfl⟩,
      Bucket.trySetSize_eq_true.mpr ⟨rfl, rfl⟩⟩
  · intro memory address
    exact WeakBucket.fields_eq n (.ofMemory memory address)

end Rtp.Qed
