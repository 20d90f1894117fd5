import Rtp.Qed.Append

/-!
# The stores of an `Insert`

`Rtp.Qed.Builder` says what an `Insert` leaves behind.  A reader in another process sees
every table on the way there, so here the call is followed store by store.

* `Store` — a store to one field, or a compare-and-swap that succeeds; `after` — the
  table after a list of them.
* `insertTrace` — `Insert` with the list of its stores in program order, in all of its
  ways and over all of its attempts.
* `insertTrace_after` — **the stores of a call lead to what the call leaves behind**, so
  that the two models describe one function.
-/

namespace Rtp.Qed

open Mask

/-- A store to a field of the tables, or a compare-and-swap of it that succeeds. -/
inductive Store where
  | sizeField (loc : Location) (value : BitVec 8)
  | keyInfoField (loc : Location) (value : BitVec 64)
  | payload (loc : Location) (value : BitVec 56)
  | rootId (loc : Location) (value : BitVec 64)
  | freeIdCount (value : BitVec 64)
  deriving DecidableEq, Repr

/-- The table after a store. -/
def Store.apply (σ : Builder) : Store → Builder
  | .sizeField loc value => σ.setBucket loc { σ.bucketAt loc with sizeField := value }
  | .keyInfoField loc value => σ.setBucket loc { σ.bucketAt loc with keyInfoField := value }
  | .payload loc value => σ.setBucket loc { σ.bucketAt loc with payload := value }
  | .rootId loc value => σ.setRootId loc value
  | .freeIdCount value => { σ with freeIdCount := value }

namespace Builder

/-- The table after the stores of a list. -/
def after (σ : Builder) (stores : List Store) : Builder := stores.foldl Store.apply σ

@[simp] theorem after_nil (σ : Builder) : σ.after [] = σ := rfl

@[simp] theorem after_cons (σ : Builder) (s : Store) (stores : List Store) :
    σ.after (s :: stores) = (s.apply σ).after stores := rfl

@[simp] theorem after_append (σ : Builder) (first second : List Store) :
    σ.after (first ++ second) = (σ.after first).after second :=
  List.foldl_append ..

/-! ## The stores in program order -/

/-- A compare-and-swap on a size field, after the stores `done`. -/
def casSizeFieldTrace (σ : Builder) (done : List Store) (loc : Location)
    (expected new : BitVec 8) : Option (List Store) :=
  if ((σ.after done).bucketAt loc).sizeField = expected then some (done ++ [.sizeField loc new])
  else none

/-- The same on the key information of a bucket. -/
def casKeyInfoFieldTrace (σ : Builder) (done : List Store) (loc : Location)
    (expected new : BitVec 64) : Option (List Store) :=
  if ((σ.after done).bucketAt loc).keyInfoField = expected then
    some (done ++ [.keyInfoField loc new])
  else none

/-- The bucket of the free table an `Insert` uses: the one it was given, or else one it
takes with a compare-and-swap on the count. -/
def freeSlotOrTakeTrace (σ : Builder) (done : List Store) (freeSlot : BitVec 64) :
    Option (BitVec 64 × List Store) :=
  if freeSlot ≠ allMask64 then some (freeSlot, done)
  else if (σ.after done).capacity.ult ((σ.after done).freeIdCount + 1) then none
  else some ((σ.after done).freeIdCount, done ++ [.freeIdCount ((σ.after done).freeIdCount + 1)])

/-- The two stores of `SetNextBucketId`, and the two swaps of `TrySetNextBucketId`. -/
def nextBucketStores (σ : Builder) (loc : Location) (id : BitVec 64) (internal : Bool) :
    List Store :=
  [.sizeField loc (RawBucket.flagged (σ.bucketAt loc).sizeField internal),
    .keyInfoField loc (splice σ.mask (σ.bucketAt loc).keyInfoField id)]

/-- The copy of a displaced node to the free table; `memcpy` goes through the fields in
the order they are laid out. -/
def copyStores (freeSlot bucketId : BitVec 64) (node : RawBucket) : List Store :=
  [.keyInfoField ⟨false, freeSlot⟩ node.keyInfoField, .sizeField ⟨false, freeSlot⟩ node.sizeField,
    .payload ⟨false, freeSlot⟩ node.payload, .sizeField ⟨false, freeSlot⟩ 0x80#8,
    .rootId ⟨false, freeSlot⟩ bucketId]

/-- The home slot, once claimed, becomes the root of a chain of one. -/
def rootStores (bucketId keyId payload : BitVec 64) : List Store :=
  [.rootId ⟨true, bucketId⟩ bucketId, .payload ⟨true, bucketId⟩ (payload.setWidth 56),
    .keyInfoField ⟨true, bucketId⟩ keyId, .sizeField ⟨true, bucketId⟩ 1#8]

/-- A bucket of the free table is filled with a node. -/
def nodeStores (freeSlot bucketId keyId payload : BitVec 64) : List Store :=
  [.payload ⟨false, freeSlot⟩ (payload.setWidth 56), .keyInfoField ⟨false, freeSlot⟩ keyId,
    .sizeField ⟨false, freeSlot⟩ 0x80#8, .rootId ⟨false, freeSlot⟩ bucketId]

/-- How `Insert` is left from inside, with the stores it has made. -/
inductive TraceOutcome where
  | returned (result : Location) (done : List Store)
  | again (freeSlot : BitVec 64) (done : List Store)

/-- The displacement of a node of another chain. -/
def displaceTrace (σ : Builder) (done : List Store) (bucketId freeSlot : BitVec 64) :
    Except TraceOutcome (List Store) :=
  let bucket : Location := ⟨true, bucketId⟩
  match (σ.after done).findRoot bucket with
  | none => .error (.returned notInserted done)
  | some root =>
    let size := ((σ.after done).bucketAt root).size
    if size.ult 2 then .error (.returned notInserted done)
    else
      match (σ.after done).searchParent bucketId (size.toNat - 1) root none with
      | (none, _) => .error (.returned notInserted done)
      | (some parent, iter) =>
        match σ.casSizeFieldTrace done root (size ||| 0x80#8) ((size - 1) ||| 0x80#8) with
        | none => .error (.again freeSlot done)
        | some done =>
          let τ := σ.after done
          let done := done ++ τ.nextBucketStores parent
            ((τ.bucketAt bucket).nextBucketId τ.mask) (τ.bucketAt bucket).nextBucketIsInternal
          match σ.freeSlotOrTakeTrace done freeSlot with
          | none => .error (.returned notInserted done)
          | some (freeSlot, done) =>
            let done := done ++ copyStores freeSlot bucketId ((σ.after done).bucketAt bucket)
            .ok (done ++ (σ.after done).nextBucketStores iter freeSlot false)

/-- The new node is linked behind the last one and then counted at the root. -/
def linkTrace (σ : Builder) (done : List Store) (keyId freeSlot : BitVec 64) (sizeField : BitVec 8)
    (lastLocation : Location) (lastKeyInfoField : BitVec 64) : Except Fault TraceOutcome :=
  let bucket : Location := ⟨true, keyId &&& ~~~(σ.after done).mask⟩
  match (σ.after done).bucketByLocation lastLocation with
  | none => .error .nullBucket
  | some lastBucket =>
    let expectedSizeField := lastBucket.sizeField
    match σ.casKeyInfoFieldTrace done lastLocation lastKeyInfoField
        (splice (σ.after done).mask lastKeyInfoField freeSlot) with
    | none => .ok (.again freeSlot done)
    | some done =>
      if lastLocation ≠ bucket ∧ expectedSizeField &&& ~~~sizeFieldHiMask ≠ 0#8 then
        .ok (.again freeSlot done)
      else
        match σ.casSizeFieldTrace done lastLocation expectedSizeField
            (expectedSizeField &&& ~~~sizeFieldHiMask) with
        | none => .ok (.again freeSlot done)
        | some done =>
          match σ.casSizeFieldTrace done bucket sizeField (sizeField + 1) with
          | none => .ok (.again freeSlot done)
          | some done => .ok (.returned ⟨false, freeSlot⟩ done)

/-- A new node is appended to the chain of the home slot. -/
def appendTrace (σ : Builder) (done : List Store) (keyId payload freeSlot : BitVec 64)
    (sizeField : BitVec 8) (lastLocation : Location) (lastKeyInfoField : BitVec 64) :
    Except Fault TraceOutcome :=
  match σ.freeSlotOrTakeTrace done freeSlot with
  | none => .ok (.returned notInserted done)
  | some (freeSlot, done) =>
    σ.linkTrace (done ++ nodeStores freeSlot (keyId &&& ~~~(σ.after done).mask) keyId payload)
      keyId freeSlot sizeField lastLocation lastKeyInfoField

/-- **`Insert` store by store**, on the table `σ` after the stores `done`. -/
def insertTrace (σ : Builder) : ℕ → BitVec 64 → BitVec 64 → BitVec 64 → List Store →
    Except Fault (Location × List Store)
  | 0, _, _, _, _ => .error .outOfFuel
  | fuel + 1, keyId, payload, freeSlot, done =>
    let bucketId := keyId &&& ~~~(σ.after done).mask
    let bucket : Location := ⟨true, bucketId⟩
    let sizeField := ((σ.after done).bucketAt bucket).sizeField
    if sizeField &&& ~~~sizeFieldHiMask = 0#8 then
      match σ.casSizeFieldTrace done bucket sizeField 1#8 with
      | none => σ.insertTrace fuel keyId payload freeSlot done
      | some done =>
        if (σ.after done).rootIdAt bucket ≠ allMask64 then
          match σ.displaceTrace done bucketId freeSlot with
          | .error (.returned result done) => .ok (result, done)
          | .error (.again freeSlot done) => σ.insertTrace fuel keyId payload freeSlot done
          | .ok done =>
            match σ.casSizeFieldTrace done bucket sizeField 1#8 with
            | none => σ.insertTrace fuel keyId payload allMask64 done
            | some done => .ok (bucket, done ++ rootStores bucketId keyId payload)
        else .ok (bucket, done ++ rootStores bucketId keyId payload)
    else if sizeField = 0xFF#8 then .ok (notInserted, done)
    else
      match (σ.after done).searchChain keyId (sizeField &&& ~~~sizeFieldHiMask).toNat 0 bucket
          bucket 0 with
      | .error e => .error e
      | .ok (.found loc i) =>
        if loc.internal = false ∨ i = 0 ∨ (σ.after done).rootIdByLocation loc = bucketId then
          .ok (loc, done ++ [.payload loc (payload.setWidth 56)])
        else σ.insertTrace fuel keyId payload allMask64 done
      | .ok (.absent lastLocation lastKeyInfoField) =>
        match σ.appendTrace done keyId payload freeSlot sizeField lastLocation lastKeyInfoField with
        | .error e => .error e
        | .ok (.returned result done) => .ok (result, done)
        | .ok (.again freeSlot done) => σ.insertTrace fuel keyId payload freeSlot done

/-- The stores of an `Insert` on a table. -/
def insertStores (σ : Builder) (fuel : ℕ) (keyId payload : BitVec 64) :
    Except Fault (Location × List Store) :=
  σ.insertTrace fuel keyId payload allMask64 []

/-! ## The stores lead to what the call leaves behind -/

variable {σ τ : Builder} {done : List Store}

@[simp] theorem bucketType_after (stores : List Store) :
    (σ.after stores).bucketType = σ.bucketType := by
  induction stores generalizing σ with
  | nil => rfl
  | cons s stores ih =>
    rw [after_cons, ih]
    cases s <;> simp [Store.apply]

@[simp] theorem mask_after (stores : List Store) : (σ.after stores).mask = σ.mask := by
  simp [mask]

/-- The outcome with the table instead of the stores. -/
def TraceOutcome.table (σ : Builder) : TraceOutcome → Outcome
  | .returned result done => .returned result (σ.after done)
  | .again freeSlot done => .again freeSlot (σ.after done)

theorem casSizeFieldTrace_after (loc : Location) (expected new : BitVec 8) :
    (σ.casSizeFieldTrace done loc expected new).map σ.after =
      (σ.after done).casSizeField loc expected new := by
  rw [casSizeFieldTrace, casSizeField, compareAndSwap]
  split
  · simp only [Option.map_some, after_append]
    rfl
  · rfl

theorem casKeyInfoFieldTrace_after (loc : Location) (expected new : BitVec 64) :
    (σ.casKeyInfoFieldTrace done loc expected new).map σ.after =
      (σ.after done).casKeyInfoField loc expected new := by
  rw [casKeyInfoFieldTrace, casKeyInfoField, compareAndSwap]
  split
  · simp only [Option.map_some, after_append]
    rfl
  · rfl

theorem freeSlotOrTakeTrace_after (freeSlot : BitVec 64) :
    (σ.freeSlotOrTakeTrace done freeSlot).map (fun q => (q.1, σ.after q.2)) =
      (σ.after done).freeSlotOrTake freeSlot := by
  rw [freeSlotOrTakeTrace, freeSlotOrTake, takeFreeBucketId]
  split
  · rfl
  · split
    · rfl
    · simp only [Option.map_some, after_append]
      rfl

theorem after_nextBucketStores (loc : Location) (id : BitVec 64) (internal : Bool) :
    σ.after (σ.nextBucketStores loc id internal) =
      σ.setBucket loc ((σ.bucketAt loc).setNextBucketId σ.mask id internal) := by
  simp only [nextBucketStores, after_cons, after_nil, Store.apply, setBucket_setBucket,
    bucketAt_setBucket, Function.update_self]
  rfl

theorem after_copyStores (freeSlot bucketId : BitVec 64) (node : RawBucket) :
    σ.after (copyStores freeSlot bucketId node) =
      (σ.setBucket ⟨false, freeSlot⟩ { node with sizeField := 0x80#8 }).setRootId
        ⟨false, freeSlot⟩ bucketId := by
  simp only [copyStores, after_cons, after_nil, Store.apply, setBucket_setBucket,
    bucketAt_setBucket, Function.update_self]

theorem after_rootStores (keyId payload : BitVec 64) :
    σ.after (rootStores (keyId &&& ~~~σ.mask) keyId payload) = (σ.fillRoot keyId payload).2 := by
  simp only [rootStores, after_cons, after_nil, Store.apply, setBucket_setBucket,
    bucketAt_setBucket, Function.update_self]
  rfl

theorem after_nodeStores (freeSlot keyId payload : BitVec 64) :
    σ.after (nodeStores freeSlot (keyId &&& ~~~σ.mask) keyId payload) =
      σ.fillNode freeSlot keyId payload := by
  simp only [nodeStores, after_cons, after_nil, Store.apply, setBucket_setBucket,
    bucketAt_setBucket, Function.update_self]
  rfl

theorem displaceTrace_after (bucketId freeSlot : BitVec 64) :
    ((σ.displaceTrace done bucketId freeSlot).map σ.after).mapError (TraceOutcome.table σ) =
      (σ.after done).displace bucketId freeSlot := by
  rw [displaceTrace, displace]
  cases (σ.after done).findRoot ⟨true, bucketId⟩ with
  | none => rfl
  | some root =>
    dsimp only
    split
    · rfl
    rcases (σ.after done).searchParent bucketId _ root none with ⟨_ | parent, iter⟩
    · rfl
    simp only [← casSizeFieldTrace_after]
    cases σ.casSizeFieldTrace done root _ _ with
    | none => rfl
    | some done =>
      simp only [Option.map_some, RawBucket.trySetNextBucketId_eq, ← after_nextBucketStores,
        ← after_append, ← freeSlotOrTakeTrace_after]
      cases σ.freeSlotOrTakeTrace _ freeSlot with
      | none => rfl
      | some q =>
        simp only [Option.map_some, ← after_copyStores, ← after_append]
        rfl

theorem linkTrace_after (keyId freeSlot : BitVec 64) (sizeField : BitVec 8) (last : Location)
    (info : BitVec 64) :
    (σ.linkTrace done keyId freeSlot sizeField last info).map (TraceOutcome.table σ) =
      (σ.after done).linkNode keyId freeSlot sizeField last info := by
  rw [linkTrace, linkNode]
  cases (σ.after done).bucketByLocation last with
  | none => rfl
  | some lastBucket =>
    simp only [← casKeyInfoFieldTrace_after]
    cases σ.casKeyInfoFieldTrace done last info _ with
    | none => rfl
    | some done =>
      simp only [Option.map_some]
      split
      · rfl
      simp only [← casSizeFieldTrace_after]
      cases σ.casSizeFieldTrace done last _ _ with
      | none => rfl
      | some done =>
        simp only [Option.map_some, ← casSizeFieldTrace_after]
        cases σ.casSizeFieldTrace done _ sizeField _ with
        | none => rfl
        | some done => rfl

theorem appendTrace_after (keyId payload freeSlot : BitVec 64) (sizeField : BitVec 8)
    (last : Location) (info : BitVec 64) :
    (σ.appendTrace done keyId payload freeSlot sizeField last info).map (TraceOutcome.table σ) =
      (σ.after done).appendNode keyId payload freeSlot sizeField last info := by
  rw [appendTrace, appendNode, ← freeSlotOrTakeTrace_after]
  cases σ.freeSlotOrTakeTrace done freeSlot with
  | none => rfl
  | some q =>
    simp only [Option.map_some, ← after_nodeStores, ← after_append]
    exact linkTrace_after ..

/-- The home slot that is filled last is the one that was claimed first. -/
theorem fillRoot_after (keyId payload : BitVec 64) (before : List Store) :
    (⟨true, keyId &&& ~~~(σ.after before).mask⟩,
      σ.after (done ++ rootStores (keyId &&& ~~~(σ.after before).mask) keyId payload)) =
        (σ.after done).fillRoot keyId payload := by
  rw [mask_after, after_append]
  refine Prod.ext ?_ ?_
  · rw [fillRoot, mask_after]
  · rw [← after_rootStores, mask_after]

/-- **The stores of a call lead to what the call leaves behind.** -/
theorem insertTrace_after (fuel : ℕ) (keyId payload freeSlot : BitVec 64) (done : List Store) :
    (σ.insertTrace fuel keyId payload freeSlot done).map (fun q => (q.1, σ.after q.2)) =
      insert fuel keyId payload freeSlot (σ.after done) := by
  induction fuel generalizing freeSlot done with
  | zero => rfl
  | succ fuel ih =>
    rw [insertTrace, insert]
    dsimp only
    split
    · simp only [← casSizeFieldTrace_after]
      cases σ.casSizeFieldTrace done _ _ _ with
      | none => exact ih _ _
      | some done =>
        simp only [Option.map_some]
        split
        · simp only [← displaceTrace_after]
          rcases σ.displaceTrace done _ freeSlot with (⟨result, done⟩ | ⟨slot, done⟩) | done
          · rfl
          · exact ih _ _
          · simp only [Except.map, Except.mapError, ← casSizeFieldTrace_after]
            cases σ.casSizeFieldTrace done _ _ _ with
            | none => exact ih _ _
            | some done => exact congrArg Except.ok (fillRoot_after ..)
        · exact congrArg Except.ok (fillRoot_after ..)
    · split
      · rfl
      rcases (σ.after done).searchChain keyId _ 0 _ _ 0 with e | ⟨loc, i⟩ | ⟨last, info⟩
      · rfl
      · dsimp only
        split
        · simp only [Except.map, after_append]
          rfl
        · exact ih _ _
      · simp only [← appendTrace_after]
        rcases σ.appendTrace done keyId payload freeSlot _ last info with
          e | ⟨result, done⟩ | ⟨slot, done⟩
        · rfl
        · rfl
        · exact ih _ _

end Rtp.Qed.Builder
