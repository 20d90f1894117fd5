import Rtp.Lib.Simd
import Rtp.Qed.InsertRuns

/-!
# Looking up eight keys at once

The model of `HashTable::BatchFind`: eight lookups in lock step, with one vector lane and
one bit of each mask for every key.  A lane that has not met its key in the root bucket
follows the links of its chain, in the managed or in the free table, as often as the size
at its root says.

* `batchFind` — the code, over the lane-wise meaning of its vector operations.
* `laneOutcome` — what it leaves in a lane of a full search, `batchFind_deep`; the
  invariant of the loop speaks about each lane for itself.
* `batchFind_correct_iff` — **exactly when every lane holds what `Find` returns, or asks
  for a call of `Find`**.  The loop compares with the buckets of the lanes that are
  *finished*, so the other lanes compare their key with zero.
* `batchFind_wrong` — a stored key is answered with the payload of another one.
-/

namespace Rtp.Qed

open Simd

/-- `QED_HASHTABLE_NVALUE`. -/
def hashtableNValue : BitVec 64 := 0xF0FFFFFFFFFFFFFF#64

/-- The eight bytes from the size field on: the size is the lowest of them, the payload
the others. -/
def RawBucket.sizeWord (b : RawBucket) : BitVec 64 :=
  (b.payload ++ b.sizeField : BitVec (56 + 8))

namespace HashTable

/-- The variables of the loop. -/
structure Batch where
  sizeField : M512
  keyField : M512
  size : M512
  nextInternal : Mask8
  nextBucketId : M512
  result : M512
  matched : Mask8
  finished : Mask8

/-- One round of the loop.  The vectors of bucket numbers are scaled to bytes in the code,
and the tables read at the offset of a field.  Sizes are counted down with `_mm512_subs_epu16`
where the compiler and the target have it. -/
def batchRound (t : HashTable) (avx512bw : Bool) (highKeyId : M512) (s : Batch) : Batch :=
  let internal : Mask8 := fun l => s.nextInternal l && !s.finished l
  let external : Mask8 := fun l => !s.nextInternal l && !s.finished l
  let sizeField := maskGather s.sizeField internal s.nextBucketId
    fun id => (t.managedBuckets id).sizeWord
  let sizeField := maskGather sizeField external s.nextBucketId
    fun id => (t.freeBuckets id).sizeWord
  let keyField := maskGather s.keyField internal s.nextBucketId
    fun id => (t.managedBuckets id).keyInfoField
  let keyField := maskGather keyField external s.nextBucketId
    fun id => (t.freeBuckets id).keyInfoField
  let nextInternal := testMask sizeField (set1 0x80)
  let nextBucketId := andnot (set1 t.mask) keyField
  let size := if avx512bw then subsEpu16 s.size (set1 1) else subFloor s.size (set1 1)
  let zeroSize := cmpeqMask size (set1 0)
  let currentRoundMatched := maskCmpeqMask (fun l => !s.finished l) highKeyId
    (maskzAnd s.finished (set1 t.mask) keyField)
  let payload := srli sizeField 8
  let result := maskMov s.result currentRoundMatched payload
  let matched : Mask8 := fun l => s.matched l || currentRoundMatched l
  let finished : Mask8 := fun l => s.finished l || (matched l || zeroSize l)
  ⟨sizeField, keyField, size, nextInternal, nextBucketId, result, matched, finished⟩

/-- The variables before the loop, from the root buckets. -/
def batchStart (t : HashTable) (keyId : M512) : Batch :=
  let bucketId := andnot (set1 t.mask) keyId
  let sizeField := gather bucketId fun id => (t.managedBuckets id).sizeWord
  let keyField := gather bucketId fun id => (t.managedBuckets id).keyInfoField
  let size := andnot (set1 0xFFFFFFFFFFFFFF80) sizeField
  let nextInternal := testMask sizeField (set1 0x80)
  let nextBucketId := andnot (set1 t.mask) keyField
  let zeroSize := cmpeqMask size (set1 0)
  let matched := cmpeqMask (and (set1 t.mask) keyId) (and (set1 t.mask) keyField)
  let payload := srli sizeField 8
  let finished : Mask8 := fun l => matched l || zeroSize l
  let result := maskSet1 payload zeroSize hashtableNFound
  ⟨sizeField, keyField, size, nextInternal, nextBucketId, result, matched, finished⟩

/-- `BatchFind`.  A size has seven bits, so there are fewer rounds than the fuel allows. -/
def batchFind (t : HashTable) (avx512bw : Bool) (keyId : M512) (shallowFind : Bool) :
    Option M512 :=
  let s := t.batchStart keyId
  if Full (cmpeqMask s.size (set1 0)) then some (set1 hashtableNValue)
  else if shallowFind then
    some (maskSet1 s.result (fun l => !s.finished l) hashtableNValue)
  else
    match untilFull Batch.finished (t.batchRound avx512bw (and (set1 t.mask) keyId)) 128 s with
    | none => none
    | some s => some (maskSet1 s.result (fun l => !s.matched l) hashtableNValue)

/-! ## Words of a bucket -/

theorem zero_append_eq (x : BitVec 8) : (0#56 ++ x : BitVec (56 + 8)) = x.setWidth 64 := by
  revert x
  decide +kernel

theorem sizeWord_size (b : RawBucket) :
    ~~~0xFFFFFFFFFFFFFF80#64 &&& b.sizeWord = b.size.setWidth 64 := by
  have hmask : ~~~0xFFFFFFFFFFFFFF80#64 = (0#56 ++ ~~~sizeFieldHiMask : BitVec (56 + 8)) := by
    decide
  rw [hmask, RawBucket.sizeWord, BitVec.and_append, BitVec.zero_and, RawBucket.size,
    BitVec.and_comm b.sizeField, zero_append_eq]

theorem sizeWord_internal (b : RawBucket) :
    (b.sizeWord &&& 0x80#64 != 0) = b.nextBucketIsInternal := by
  have hmask : 0x80#64 = (0#56 ++ sizeFieldHiMask : BitVec (56 + 8)) := by decide
  have hzero : ∀ x : BitVec 8, (x.setWidth 64 != 0#64) = (x != 0#8) := by decide +kernel
  rw [hmask, RawBucket.sizeWord, BitVec.and_append, BitVec.and_zero, zero_append_eq,
    RawBucket.nextBucketIsInternal]
  exact hzero _

theorem sizeWord_payload (b : RawBucket) : b.sizeWord >>> 8 = b.payload.setWidth 64 := by
  apply BitVec.eq_of_toNat_eq
  have hsize := b.sizeField.isLt
  have hpayload := b.payload.isLt
  rw [BitVec.toNat_ushiftRight, RawBucket.sizeWord, BitVec.toNat_append,
    ← Nat.shiftLeft_add_eq_or_of_lt hsize, Nat.shiftLeft_eq, Nat.shiftRight_eq_div_pow,
    BitVec.toNat_setWidth]
  omega

/-! ## Lane by lane -/

/-- The root bucket of a key. -/
def rootOf (t : HashTable) (key : BitVec 64) : RawBucket := t.managedBuckets (key &&& ~~~t.mask)

section
variable (t : HashTable) (keys : M512) (l : Fin 8)

theorem batchStart_sizeField : (t.batchStart keys).sizeField l = (t.rootOf (keys l)).sizeWord := by
  show (t.managedBuckets (~~~t.mask &&& keys l)).sizeWord = _
  rw [BitVec.and_comm]
  rfl

theorem batchStart_keyField :
    (t.batchStart keys).keyField l = (t.rootOf (keys l)).keyInfoField := by
  show (t.managedBuckets (~~~t.mask &&& keys l)).keyInfoField = _
  rw [BitVec.and_comm]
  rfl

theorem batchStart_size :
    (t.batchStart keys).size l = (t.rootOf (keys l)).size.setWidth 64 := by
  show ~~~0xFFFFFFFFFFFFFF80#64 &&& (t.batchStart keys).sizeField l = _
  rw [batchStart_sizeField, sizeWord_size]

theorem batchStart_next :
    (⟨(t.batchStart keys).nextInternal l, (t.batchStart keys).nextBucketId l⟩ : Location) =
      (t.rootOf (keys l)).nextBucket t.mask := by
  show (⟨(t.batchStart keys).sizeField l &&& 0x80#64 != 0,
    ~~~t.mask &&& (t.batchStart keys).keyField l⟩ : Location) = _
  rw [batchStart_sizeField, batchStart_keyField, sizeWord_internal, BitVec.and_comm]
  rfl

theorem batchStart_matched :
    (t.batchStart keys).matched l =
      ((t.rootOf (keys l)).keyHighBits t.mask == keys l &&& t.mask) := by
  show (t.mask &&& keys l == t.mask &&& (t.batchStart keys).keyField l) = _
  rw [batchStart_keyField, BitVec.and_comm t.mask, BitVec.and_comm t.mask, Bool.beq_comm]
  rfl

theorem size_eq_zero_iff :
    cmpeqMask (t.batchStart keys).size (set1 0) l = decide ((t.rootOf (keys l)).size = 0#8) := by
  have hzero : ∀ x : BitVec 8, (x.setWidth 64 == 0#64) = decide (x = 0#8) := by decide +kernel
  show ((t.batchStart keys).size l == 0#64) = _
  rw [batchStart_size, hzero]

theorem batchStart_finished :
    (t.batchStart keys).finished l =
      ((t.rootOf (keys l)).keyHighBits t.mask == keys l &&& t.mask ||
        decide ((t.rootOf (keys l)).size = 0#8)) := by
  show ((t.batchStart keys).matched l || cmpeqMask (t.batchStart keys).size (set1 0) l) = _
  rw [batchStart_matched, size_eq_zero_iff]

theorem batchStart_result :
    (t.batchStart keys).result l =
      if (t.rootOf (keys l)).size = 0#8 then hashtableNFound
      else (t.rootOf (keys l)).payload.setWidth 64 := by
  show (if cmpeqMask (t.batchStart keys).size (set1 0) l then hashtableNFound
    else (t.batchStart keys).sizeField l >>> 8) = _
  rw [size_eq_zero_iff, batchStart_sizeField, sizeWord_payload]
  simp only [decide_eq_true_eq]

end

/-- What a full search leaves in the lane of a key, when some root of the batch is not
empty. -/
def laneOutcome (t : HashTable) (key : BitVec 64) : BitVec 64 :=
  let root := t.rootOf key
  if root.size = 0#8 then
    if root.keyHighBits t.mask = key &&& t.mask then hashtableNFound else hashtableNValue
  else if root.keyHighBits t.mask = key &&& t.mask then root.payload.setWidth 64
  else if key &&& t.mask = 0 then (t.bucketAt (root.nextBucket t.mask)).payload.setWidth 64
  else hashtableNValue

/-- The invariant of the loop for one lane: once it is finished its outcome is there, and
until then it has not matched, has rounds to go, and stands at the root unless its key has
a bit in the mask, so that it will never match. -/
structure LaneInv (t : HashTable) (key : BitVec 64) (s : Batch) (l : Fin 8) : Prop where
  done : s.finished l = true →
    (if s.matched l then s.result l else hashtableNValue) = t.laneOutcome key
  running : s.finished l = false → s.matched l = false ∧ 0 < (s.size l).toNat
  size_lt : (s.size l).toNat < 128
  second : s.finished l = false → key &&& t.mask = 0 →
    t.laneOutcome key =
      (t.bucketAt ⟨s.nextInternal l, s.nextBucketId l⟩).payload.setWidth 64
  never : s.finished l = false → key &&& t.mask ≠ 0 → t.laneOutcome key = hashtableNValue

theorem laneInv_start (t : HashTable) (keys : M512) (l : Fin 8) :
    LaneInv t (keys l) (t.batchStart keys) l := by
  have hlt := (t.rootOf (keys l)).size_lt
  have hsize : ((t.batchStart keys).size l).toNat = (t.rootOf (keys l)).size.toNat := by
    rw [batchStart_size, BitVec.toNat_setWidth]
    omega
  have hrun : (t.batchStart keys).finished l = false →
      (t.rootOf (keys l)).keyHighBits t.mask ≠ keys l &&& t.mask ∧
        (t.rootOf (keys l)).size ≠ 0#8 := by
    intro hf
    rw [batchStart_finished, Bool.or_eq_false_iff] at hf
    exact ⟨by simpa using hf.1, by simpa using hf.2⟩
  constructor
  · intro hf
    rw [batchStart_matched, batchStart_result]
    unfold laneOutcome
    by_cases hm : (t.rootOf (keys l)).keyHighBits t.mask = keys l &&& t.mask
    · simp [hm]
    · rw [batchStart_finished] at hf
      have hz : (t.rootOf (keys l)).size = 0#8 := by simpa [hm] using hf
      simp [hm, hz]
  · intro hf
    obtain ⟨hm, hz⟩ := hrun hf
    refine ⟨?_, ?_⟩
    · rw [batchStart_matched]
      simpa using hm
    · rw [hsize]
      apply Nat.pos_of_ne_zero
      intro h0
      exact hz (BitVec.eq_of_toNat_eq h0)
  · rwa [hsize]
  · intro hf hkey
    obtain ⟨hm, hz⟩ := hrun hf
    unfold laneOutcome
    rw [if_neg hz, if_neg hm, if_pos hkey, batchStart_next]
  · intro hf hkey
    obtain ⟨hm, hz⟩ := hrun hf
    unfold laneOutcome
    rw [if_neg hz, if_neg hm, if_neg hkey]

section
variable (t : HashTable) (avx512bw : Bool) (high : M512) {s : Batch} {l : Fin 8}

theorem batchRound_size (h : (s.size l).toNat < 128) :
    ((t.batchRound avx512bw high s).size l).toNat = (s.size l).toNat - 1 := by
  have hsize : (t.batchRound avx512bw high s).size l = BitVec.ofNat 64 ((s.size l).toNat - 1) := by
    cases avx512bw with
    | true => exact (sub_one h).1
    | false => exact (sub_one h).2
  rw [hsize, BitVec.toNat_ofNat]
  omega

theorem batchRound_finished_eq :
    (t.batchRound avx512bw high s).finished l =
      (s.finished l || ((t.batchRound avx512bw high s).matched l ||
        (t.batchRound avx512bw high s).size l == 0)) :=
  rfl

/-- A lane that is finished is left alone. -/
theorem batchRound_of_finished (hf : s.finished l = true) :
    (t.batchRound avx512bw high s).finished l = true ∧
      (t.batchRound avx512bw high s).matched l = s.matched l ∧
      (t.batchRound avx512bw high s).result l = s.result l := by
  refine ⟨?_, ?_, ?_⟩
  · rw [batchRound_finished_eq, hf]
    rfl
  · simp [batchRound, maskCmpeqMask, hf]
  · simp [batchRound, maskMov, maskCmpeqMask, hf]

/-- A lane that is not finished compares its key with zero, and takes the payload of the
bucket it has moved to when they are equal. -/
theorem batchRound_of_running (hf : s.finished l = false) (hm : s.matched l = false) :
    (t.batchRound avx512bw high s).matched l = (high l == 0) ∧
      (t.batchRound avx512bw high s).result l =
        if high l = 0 then
          (t.bucketAt ⟨s.nextInternal l, s.nextBucketId l⟩).payload.setWidth 64
        else s.result l := by
  refine ⟨?_, ?_⟩
  · simp [batchRound, maskCmpeqMask, maskzAnd, hf, hm]
  · rw [← sizeWord_payload]
    simp only [batchRound, maskMov, maskCmpeqMask, maskzAnd, maskGather, srli, hf, bucketAt]
    cases s.nextInternal l <;> simp

variable {t} {high} {key : BitVec 64}

theorem LaneInv.round (h : LaneInv t key s l) (hhigh : high l = key &&& t.mask) :
    LaneInv t key (t.batchRound avx512bw high s) l := by
  have hsize := t.batchRound_size avx512bw high h.size_lt
  have hlt := h.size_lt
  cases hf : s.finished l with
  | true =>
    obtain ⟨hf', hm', hr'⟩ := t.batchRound_of_finished avx512bw high hf
    refine ⟨fun _ => ?_, ?_, by omega, ?_, ?_⟩
    · rw [hm', hr']
      exact h.done hf
    all_goals
      intro hrun
      rw [hf'] at hrun
      simp at hrun
  | false =>
    obtain ⟨hm, hpos⟩ := h.running hf
    obtain ⟨hm', hr'⟩ := t.batchRound_of_running avx512bw high hf hm
    have hfin := t.batchRound_finished_eq avx512bw high (s := s) (l := l)
    rw [hf, Bool.false_or, hm'] at hfin
    by_cases hkey : key &&& t.mask = 0
    · -- the key has no bit in the mask: it matches whatever bucket comes next
      have hzero : high l = 0 := hhigh.trans hkey
      rw [hzero] at hm' hr' hfin
      refine ⟨fun _ => ?_, ?_, by omega, ?_, ?_⟩
      · rw [hm', hr', h.second hf hkey]
        rfl
      all_goals
        intro hrun
        rw [hfin] at hrun
        simp at hrun
    · have hne : (high l == 0) = false := by
        rw [hhigh]
        simpa using hkey
      rw [hne] at hm' hfin
      rw [Bool.false_or] at hfin
      refine ⟨fun _ => ?_, fun hrun => ⟨hm', ?_⟩, by omega, fun _ h0 => absurd h0 hkey,
        fun _ _ => h.never hf hkey⟩
      · rw [hm']
        exact (h.never hf hkey).symm
      · apply Nat.pos_of_ne_zero
        intro h0
        rw [hfin] at hrun
        have heq : (t.batchRound avx512bw high s).size l = 0 := BitVec.eq_of_toNat_eq h0
        rw [heq] at hrun
        simp at hrun

theorem LaneInv.counts_down (h : LaneInv t key s l)
    (hrun : (t.batchRound avx512bw high s).finished l = false) :
    s.finished l = false ∧ ((t.batchRound avx512bw high s).size l).toNat < (s.size l).toNat := by
  have hf : s.finished l = false := by
    rw [batchRound_finished_eq, Bool.or_eq_false_iff] at hrun
    exact hrun.1
  have hsize := t.batchRound_size avx512bw high h.size_lt
  have hpos := (h.running hf).2
  exact ⟨hf, by omega⟩

end

/-- **A full search**, lane by lane. -/
theorem batchFind_deep (t : HashTable) (avx512bw : Bool) (keys : M512)
    (hsome : ¬ Full (cmpeqMask (t.batchStart keys).size (set1 0))) :
    t.batchFind avx512bw keys false = some fun l => t.laneOutcome (keys l) := by
  have hhigh : ∀ l, and (set1 t.mask) keys l = keys l &&& t.mask := by
    intro l
    exact BitVec.and_comm _ _
  obtain ⟨s, hrun, hinv, hfull⟩ :
      ∃ s, untilFull Batch.finished (t.batchRound avx512bw (and (set1 t.mask) keys)) 128
        (t.batchStart keys) = some s ∧ (∀ l, LaneInv t (keys l) s l) ∧ Full s.finished := by
    apply untilFull_spec (I := fun s => ∀ l, LaneInv t (keys l) s l)
      (m := fun s l => (s.size l).toNat)
    · intro s h l
      exact (h l).round avx512bw (hhigh l)
    · intro s l h hf
      exact ((h l).running hf).2
    · intro s l h hf
      exact (h l).counts_down avx512bw hf
    · exact laneInv_start t keys
    · intro l _
      exact (laneInv_start t keys l).size_lt.le
  unfold batchFind
  rw [if_neg hsome, if_neg Bool.false_ne_true, hrun]
  simp only [Option.some.injEq]
  funext l
  rw [← (hinv l).done (hfull l)]
  cases hm : s.matched l <;> simp [maskSet1, hm]

end HashTable

/-! ## Against `Find` -/

namespace Builder

open HashTable Assoc

theorem setWidth_payload_ne_nvalue (p : BitVec 56) : p.setWidth 64 ≠ hashtableNValue := by
  intro h
  have hlt := p.isLt
  have hnat := congrArg BitVec.toNat h
  rw [BitVec.toNat_setWidth] at hnat
  have hval : hashtableNValue.toNat = 0xF0FFFFFFFFFFFFFF := by decide
  omega

theorem setWidth_eq_foundPayload {p : BitVec 56} {o : Option (BitVec 56)} :
    p.setWidth 64 = foundPayload o ↔ o = some p := by
  cases o with
  | none => exact iff_of_false (foundPayload_ne p) (by simp)
  | some q =>
    rw [Option.some.injEq, eq_comm]
    refine ⟨fun h => ?_, fun h => by rw [h]; rfl⟩
    have hnat := congrArg BitVec.toNat h
    have hp := p.isLt
    have hq := q.isLt
    change (q.setWidth 64).toNat = (p.setWidth 64).toNat at hnat
    rw [BitVec.toNat_setWidth, BitVec.toNat_setWidth] at hnat
    apply BitVec.eq_of_toNat_eq
    omega

variable (σ : Builder)

/-- The lane of a key gets a right answer from a full search: the key has a bit beyond the
number of its home slot, or its home slot is empty, or the root has it, or it is stored
with the payload of the bucket that the root links to. -/
def Answerable (keyId : BitVec 64) : Prop :=
  keyId &&& σ.mask ≠ 0 ∨ (σ.bucketAt ⟨true, σ.home keyId⟩).size = 0#8 ∨
    (σ.bucketAt ⟨true, σ.home keyId⟩).keyHighBits σ.mask = 0 ∨
    (σ.entries (σ.home keyId)).lookup 0 =
      some (σ.bucketAt (σ.next ⟨true, σ.home keyId⟩)).payload

variable {σ} {keyId : BitVec 64}

theorem find_of_root (hs : (σ.bucketAt ⟨true, σ.home keyId⟩).size ≠ 0#8)
    (hkey : (σ.bucketAt ⟨true, σ.home keyId⟩).keyHighBits σ.mask = keyId &&& σ.mask) :
    σ.find keyId = (σ.bucketAt ⟨true, σ.home keyId⟩).payload.setWidth 64 := by
  obtain ⟨n, hn⟩ : ∃ n, (σ.bucketAt ⟨true, σ.home keyId⟩).size.toNat = n + 1 := by
    apply Nat.exists_eq_succ_of_ne_zero
    intro h0
    exact hs (BitVec.eq_of_toNat_eq h0)
  have hentry : (σ.entry ⟨true, σ.home keyId⟩).1 = keyId &&& σ.mask := hkey
  rw [find_eq, entries, chain, hn, Chain.iterate_succ, List.map_cons, lookup_cons_eq, if_pos hentry]
  rfl

/-- **One lane of a full search** is right exactly for an answerable key. -/
theorem laneOutcome_correct_iff :
    (σ.hashTable.laneOutcome keyId = σ.find keyId ∨
      σ.hashTable.laneOutcome keyId = hashtableNValue) ↔ σ.Answerable keyId := by
  have hroot : σ.hashTable.rootOf keyId = σ.bucketAt ⟨true, σ.home keyId⟩ := rfl
  have hnext : σ.hashTable.bucketAt
      ((σ.bucketAt ⟨true, σ.home keyId⟩).nextBucket σ.mask) =
        σ.bucketAt (σ.next ⟨true, σ.home keyId⟩) := rfl
  have hmask : σ.hashTable.mask = σ.mask := rfl
  unfold laneOutcome Answerable
  rw [hroot]
  simp only [hmask]
  by_cases hs : (σ.bucketAt ⟨true, σ.home keyId⟩).size = 0#8
  · -- an empty home slot
    rw [if_pos hs, find_of_size _ hs]
    refine iff_of_true ?_ (.inr (.inl hs))
    split
    · exact .inl rfl
    · exact .inr rfl
  rw [if_neg hs]
  by_cases hkey : (σ.bucketAt ⟨true, σ.home keyId⟩).keyHighBits σ.mask = keyId &&& σ.mask
  · -- the root has the key
    rw [if_pos hkey, find_of_root hs hkey]
    refine iff_of_true (.inl rfl) ?_
    by_cases hzero : keyId &&& σ.mask = 0
    · exact .inr (.inr (.inl (hkey.trans hzero)))
    · exact .inl hzero
  rw [if_neg hkey]
  by_cases hzero : keyId &&& σ.mask = 0
  · -- the lane takes the payload of the second bucket
    rw [if_pos hzero, find_eq, hzero, hnext, setWidth_eq_foundPayload]
    constructor
    · rintro (hlookup | hvalue)
      · exact .inr (.inr (.inr hlookup))
      · exact absurd hvalue (setWidth_payload_ne_nvalue _)
    · rintro (hne | hempty | hhigh | hlookup)
      · exact absurd rfl hne
      · exact absurd hempty hs
      · exact absurd (hhigh.trans hzero.symm) hkey
      · exact .inl hlookup
  · rw [if_neg hzero]
    exact iff_of_true (.inr rfl) (.inl hzero)

/-- What the root buckets alone decide is right. -/
theorem batchStart_correct {keys : M512} {l : Fin 8}
    (hf : (σ.hashTable.batchStart keys).finished l = true) :
    (σ.hashTable.batchStart keys).result l = σ.find (keys l) := by
  have hroot : σ.hashTable.rootOf (keys l) = σ.bucketAt ⟨true, σ.home (keys l)⟩ := rfl
  have hmask : σ.hashTable.mask = σ.mask := rfl
  rw [batchStart_finished, Bool.or_eq_true, beq_iff_eq, decide_eq_true_eq, hroot, hmask] at hf
  rw [batchStart_result, hroot]
  by_cases hs : (σ.bucketAt ⟨true, σ.home (keys l)⟩).size = 0#8
  · rw [if_pos hs, find_of_size _ hs]
  · rw [if_neg hs, find_of_root hs (hf.resolve_right hs)]

/-- **When a batch agrees with `Find`.**  On any table and with either way of counting
down, `BatchFind` returns; every lane holds the result of `Find` for its key, or the value
that asks for a call of `Find`, exactly when only the roots are searched or every key is
answerable. -/
theorem batchFind_correct_iff (σ : Builder) (avx512bw : Bool) (keys : M512)
    (shallowFind : Bool) :
    ∃ result, σ.hashTable.batchFind avx512bw keys shallowFind = some result ∧
      ((∀ l, result l = σ.find (keys l) ∨ result l = hashtableNValue) ↔
        shallowFind = true ∨ ∀ l, σ.Answerable (keys l)) := by
  by_cases hempty : Full (cmpeqMask (σ.hashTable.batchStart keys).size (set1 0))
  · refine ⟨set1 hashtableNValue, ?_, ?_⟩
    · unfold batchFind
      rw [if_pos hempty]
    · refine iff_of_true (fun l => .inr rfl) (.inr fun l => ?_)
      have hl := hempty l
      rw [size_eq_zero_iff, decide_eq_true_eq] at hl
      exact .inr (.inl hl)
  · cases shallowFind with
    | true =>
      refine ⟨maskSet1 (σ.hashTable.batchStart keys).result
        (fun l => !(σ.hashTable.batchStart keys).finished l) hashtableNValue, ?_,
        iff_of_true (fun l => ?_) (.inl rfl)⟩
      · unfold batchFind
        rw [if_neg hempty, if_pos rfl]
      · cases hf : (σ.hashTable.batchStart keys).finished l with
        | true => exact .inl (by simpa [maskSet1, hf] using batchStart_correct hf)
        | false => exact .inr (by simp [maskSet1, hf])
    | false =>
      refine ⟨_, batchFind_deep _ avx512bw keys hempty, ?_⟩
      rw [or_iff_right Bool.false_ne_true]
      exact forall_congr' fun l => laneOutcome_correct_iff

/-- **The payload of another key.**  The keys `4`, `8` and `0` share the home slot `0` and
are inserted in this order: a full search for `0` returns the payload of `8`.  The key `1`
is not stored, but `5` is the root of its home slot: a full search for `1` returns the
payload of `0`. -/
theorem batchFind_wrong :
    ((Run.run (insertStep 2) [(4, 70), (8, 80), (0, 90), (5, 60)] (reserved smallest)).toOption.map
      fun q => (q.2.find 0, q.2.find 1,
        (q.2.hashTable.batchFind true (fun l => if l = 0 then 0 else 1) false).map fun r =>
          (r 0, r 1))) =
      some (90, hashtableNFound, some (80, 90)) := by
  decide +kernel

end Builder

end Rtp.Qed
