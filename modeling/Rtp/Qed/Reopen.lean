import Rtp.Qed.QuickEmbeddingDict

/-!
# Closing and opening again

Three places of the source say how large a table may be: `TakeFreeBucketId` limits the free
buckets that are handed out, `Close` cuts the files to what is in use, and `OpenMeta` and
`QuickEmbeddingDict::Load` check what they find.

* `close`, `ClosedFiles` — the files a builder leaves.
* `Keeps` — what every operation on the tables keeps, whatever is in them: the bucket type,
  and a number of free buckets that does not exceed it.  `insert_keeps` — `Insert` with all
  of its retries is such an operation.
* `reopen_iff` — **what is left is always accepted by `Load`, and by `OpenMeta` exactly
  when the free table is not full.**
* `reopen_refused` — five keys of one home slot.
-/

namespace Rtp.Qed

open Mask Run Builder

/-! ## Close -/

/-- The files after `Close`: the sizes of the data files, and the meta file with its
size. -/
structure ClosedFiles where
  size : DataFile → BitVec 64
  infoSize : BitVec 64
  info : MetaInfo

/-- `Close`, where the files can be truncated.  The number of managed buckets and the size
of the extended field are in the meta file, and no operation on the tables changes them. -/
def close (σ : Builder) (managedIdCount extendedFieldSize : BitVec 64) : ClosedFiles where
  size
    | .managedBucket => σ.capacity * 16
    | .freeBucket => σ.freeIdCount * 16
    | .rootBucketIdTableManaged => σ.capacity * 8
    | .rootBucketIdTableFree => σ.capacity * 8
  infoSize := extendedFieldSize + 40
  info := ⟨BitVec.ofNat 8 σ.bucketType.1, managedIdCount, σ.freeIdCount, extendedFieldSize⟩

/-- `OpenMeta(false)`, which maps the file with the size it has, or that of `MetaInfo`. -/
def ClosedFiles.reopen (files : ClosedFiles) : Option OpenedMeta :=
  openMeta false (if files.infoSize.ult 40 then 40 else files.infoSize) files.info

/-- The files pass the checks of their sizes in `Load`. -/
def ClosedFiles.Loadable (files : ClosedFiles) : Prop :=
  badFreeFile files.info (files.size .freeBucket) = false ∧
    badManagedFile files.info (files.size .managedBucket) = false

/-! ## The calls -/

/-- A call on an open builder. -/
inductive BuildCall where
  | insert (keyId payload freeSlot : BitVec 64)
  | takeFreeBucketId
  deriving DecidableEq, Repr

/-- What a call returns. -/
inductive BuildResult where
  | inserted (location : Location)
  | taken (id : Option (BitVec 64))
  deriving DecidableEq, Repr

/-- One call.  The fuel bounds how often `Insert` calls itself. -/
def buildStep (fuel : ℕ) : BuildCall → Builder → Except Fault (BuildResult × Builder)
  | .insert keyId payload freeSlot, σ =>
    match insert fuel keyId payload freeSlot σ with
    | .error e => .error e
    | .ok (location, τ) => .ok (.inserted location, τ)
  | .takeFreeBucketId, σ =>
    match σ.takeFreeBucketId with
    | none => .ok (.taken none, σ)
    | some (id, τ) => .ok (.taken (some id), τ)

namespace Builder

/-! ## What every operation keeps -/

/-- The bucket type stays, and so does a number of free buckets within the table. -/
structure Keeps (σ τ : Builder) : Prop where
  bucketType : τ.bucketType = σ.bucketType
  count_le : σ.freeIdCount.toNat ≤ 2 ^ σ.bucketType.1 →
    τ.freeIdCount.toNat ≤ 2 ^ σ.bucketType.1

variable {σ τ ρ : Builder}

theorem Keeps.refl (σ : Builder) : Keeps σ σ := ⟨rfl, id⟩

theorem Keeps.trans (h : Keeps σ τ) (h' : Keeps τ ρ) : Keeps σ ρ := by
  refine ⟨h'.bucketType.trans h.bucketType, fun hle => ?_⟩
  have hτ := h'.count_le
  rw [h.bucketType] at hτ
  exact hτ (h.count_le hle)

theorem keeps_setBucket (σ : Builder) (loc : Location) (b : RawBucket) :
    Keeps σ (σ.setBucket loc b) :=
  ⟨σ.bucketType_setBucket loc b, fun hle => by rwa [freeIdCount_setBucket]⟩

theorem keeps_setRootId (σ : Builder) (loc : Location) (r : BitVec 64) :
    Keeps σ (σ.setRootId loc r) :=
  ⟨σ.bucketType_setRootId loc r, fun hle => by rwa [freeIdCount_setRootId]⟩

variable {loc : Location}

theorem keeps_casSizeField {expected new : BitVec 8}
    (h : σ.casSizeField loc expected new = some τ) : Keeps σ τ := by
  obtain ⟨x, -, rfl⟩ := Option.map_eq_some_iff.mp h
  exact keeps_setBucket σ _ _

theorem keeps_casKeyInfoField {expected new : BitVec 64}
    (h : σ.casKeyInfoField loc expected new = some τ) : Keeps σ τ := by
  obtain ⟨x, -, rfl⟩ := Option.map_eq_some_iff.mp h
  exact keeps_setBucket σ _ _

/-- The limit on the free buckets that are handed out. -/
theorem keeps_takeFreeBucketId {id : BitVec 64} (h : σ.takeFreeBucketId = some (id, τ)) :
    Keeps σ τ := by
  unfold takeFreeBucketId at h
  split at h
  · simp at h
  · next hcap =>
    rw [Option.some.injEq, Prod.mk.injEq] at h
    rw [← h.2]
    refine ⟨rfl, fun _ => ?_⟩
    rw [BitVec.ult, decide_eq_true_eq, toNat_capacity] at hcap
    exact Nat.not_lt.mp hcap

theorem keeps_freeSlotOrTake {freeSlot id : BitVec 64}
    (h : σ.freeSlotOrTake freeSlot = some (id, τ)) : Keeps σ τ := by
  unfold freeSlotOrTake at h
  split at h
  · rw [Option.some.injEq, Prod.mk.injEq] at h
    rw [← h.2]
    exact Keeps.refl σ
  · exact keeps_takeFreeBucketId h

/-- The table in which `Insert` is left. -/
def Outcome.table : Outcome → Builder
  | .returned _ σ => σ
  | .again _ σ => σ

/-- The table a displacement leaves, also where `Insert` is left from inside. -/
def displaced : Except Outcome Builder → Builder
  | .error o => o.table
  | .ok σ => σ

theorem keeps_displace (σ : Builder) (bucketId freeSlot : BitVec 64) :
    Keeps σ (displaced (σ.displace bucketId freeSlot)) := by
  unfold displace
  dsimp only
  split
  · exact Keeps.refl σ
  · split
    · exact Keeps.refl σ
    · split
      · exact Keeps.refl σ
      · split
        · exact Keeps.refl σ
        · next hcas =>
          have hclaim := keeps_casSizeField hcas
          split
          · exact hclaim
          · split
            · exact hclaim.trans (keeps_setBucket _ _ _)
            · next htake =>
              have htaken := (hclaim.trans (keeps_setBucket _ _ _)).trans
                (keeps_freeSlotOrTake htake)
              exact ((htaken.trans (keeps_setBucket _ _ _)).trans
                (keeps_setRootId _ _ _)).trans (keeps_setBucket _ _ _)

theorem keeps_fillRoot (σ : Builder) (keyId payload : BitVec 64) :
    Keeps σ (σ.fillRoot keyId payload).2 := by
  unfold fillRoot
  dsimp only
  exact (keeps_setRootId σ _ _).trans (keeps_setBucket _ _ _)

theorem keeps_fillNode (σ : Builder) (freeSlot keyId payload : BitVec 64) :
    Keeps σ (σ.fillNode freeSlot keyId payload) :=
  (keeps_setBucket σ _ _).trans (keeps_setRootId _ _ _)

theorem keeps_linkNode {keyId freeSlot : BitVec 64} {sizeField : BitVec 8} {last : Location}
    {info : BitVec 64} {o : Outcome}
    (h : σ.linkNode keyId freeSlot sizeField last info = .ok o) : Keeps σ o.table := by
  unfold linkNode at h
  dsimp only at h
  split at h
  · simp at h
  · split at h
    · rw [← Except.ok.inj h]
      exact Keeps.refl σ
    · next hinfo =>
      have hlink := keeps_casKeyInfoField hinfo
      split at h
      · rw [← Except.ok.inj h]
        exact hlink
      · split at h
        · rw [← Except.ok.inj h]
          exact hlink
        · next hflag =>
          have hcleared := hlink.trans (keeps_casSizeField hflag)
          split at h
          · rw [← Except.ok.inj h]
            exact hcleared
          · next hcount =>
            rw [← Except.ok.inj h]
            exact hcleared.trans (keeps_casSizeField hcount)

theorem keeps_appendNode {keyId payload freeSlot : BitVec 64} {sizeField : BitVec 8}
    {last : Location} {info : BitVec 64} {o : Outcome}
    (h : σ.appendNode keyId payload freeSlot sizeField last info = .ok o) :
    Keeps σ o.table := by
  unfold appendNode at h
  split at h
  · rw [← Except.ok.inj h]
    exact Keeps.refl σ
  · next htake =>
    exact ((keeps_freeSlotOrTake htake).trans (keeps_fillNode _ _ _ _)).trans (keeps_linkNode h)

variable {fuel : ℕ}

/-- **`Insert` keeps the bounds**, whatever is in the tables and however often it begins
again. -/
theorem insert_keeps {keyId payload freeSlot : BitVec 64}
    (h : insert fuel keyId payload freeSlot σ = .ok (loc, τ)) : Keeps σ τ := by
  induction fuel generalizing σ freeSlot with
  | zero => simp [insert] at h
  | succ fuel ih =>
    rw [insert] at h
    dsimp only at h
    split at h
    · -- the home slot is claimed
      split at h
      · exact ih h
      · next hcas =>
        have hclaim := keeps_casSizeField hcas
        split at h
        · have hdisplaced := hclaim.trans (keeps_displace _ (keyId &&& ~~~σ.mask) freeSlot)
          split at h
          · next hd =>
            rw [hd] at hdisplaced
            rw [Except.ok.injEq, Prod.mk.injEq] at h
            rw [← h.2]
            exact hdisplaced
          · next hd =>
            rw [hd] at hdisplaced
            exact hdisplaced.trans (ih h)
          · next hd =>
            rw [hd] at hdisplaced
            split at h
            · exact hdisplaced.trans (ih h)
            · next hagain =>
              have hfilled := (hdisplaced.trans (keeps_casSizeField hagain)).trans
                (keeps_fillRoot _ keyId payload)
              rwa [Except.ok.inj h] at hfilled
        · have hfilled := hclaim.trans (keeps_fillRoot _ keyId payload)
          rwa [Except.ok.inj h] at hfilled
    · split at h
      · rw [Except.ok.injEq, Prod.mk.injEq] at h
        rw [← h.2]
        exact Keeps.refl σ
      · split at h
        · simp at h
        · -- the key has a node
          split at h
          · rw [Except.ok.injEq, Prod.mk.injEq] at h
            rw [← h.2]
            exact keeps_setBucket σ _ _
          · exact ih h
        · -- a node is appended
          split at h
          · simp at h
          · next happend =>
            have hnode := keeps_appendNode happend
            rw [Except.ok.injEq, Prod.mk.injEq] at h
            rw [← h.2]
            exact hnode
          · next happend =>
            have hnode := keeps_appendNode happend
            exact hnode.trans (ih h)

theorem buildStep_keeps {c : BuildCall} {r : BuildResult} (h : buildStep fuel c σ = .ok (r, τ)) :
    Keeps σ τ := by
  cases c with
  | insert keyId payload freeSlot =>
    simp only [buildStep] at h
    split at h
    · simp at h
    · next hinsert =>
      rw [Except.ok.injEq, Prod.mk.injEq] at h
      rw [← h.2]
      exact insert_keeps hinsert
  | takeFreeBucketId =>
    simp only [buildStep] at h
    split at h
    · rw [Except.ok.injEq, Prod.mk.injEq] at h
      rw [← h.2]
      exact Keeps.refl σ
    · next htake =>
      rw [Except.ok.injEq, Prod.mk.injEq] at h
      rw [← h.2]
      exact keeps_takeFreeBucketId htake

theorem run_keeps {calls : List BuildCall} {history : List (BuildCall × BuildResult)}
    (h : run (buildStep fuel) calls σ = .ok (history, τ)) : Keeps σ τ := by
  induction calls generalizing σ history with
  | nil =>
    rw [run, Except.ok.injEq, Prod.mk.injEq] at h
    rw [← h.2]
    exact Keeps.refl σ
  | cons c calls ih =>
    obtain ⟨r, σ₁, h₁, hstep, hrun, -⟩ := run_cons_eq_ok h
    exact (buildStep_keeps hstep).trans (ih hrun)

end Builder

/-! ## Checks -/

variable {σ : Builder}

/-- `Close` cuts the files to the very sizes that `Load` asks for. -/
theorem loadable_close (σ : Builder) (managedIdCount extendedFieldSize : BitVec 64) :
    (close σ managedIdCount extendedFieldSize).Loadable := by
  have hirrefl : ∀ x : BitVec 64, x.ult x = false := fun x => by simp [BitVec.ult]
  have htype : (BitVec.ofNat 8 σ.bucketType.1).toNat = σ.bucketType.1 := by
    have hle := σ.bucketType.2.2
    rw [BitVec.toNat_ofNat]
    omega
  constructor
  · simp only [badFreeFile, close, hirrefl, Bool.and_false]
  · simp only [badManagedFile, close, htype]
    exact hirrefl _

theorem isSome_openMeta {info : MetaInfo} {size : BitVec 64} (hsize : size ≠ 0)
    (hfits : size.ult (40 + info.extendedFieldSize) = false)
    (hb : 2 ≤ info.bucketType.toNat ∧ info.bucketType.toNat ≤ 50) :
    (openMeta false size info).isSome ↔
      info.managedIdCount.ult (1#64 <<< info.bucketType.toNat) = true ∧
        info.freeIdCount.ult (1#64 <<< info.bucketType.toNat) = true := by
  simp only [openMeta, Bool.false_eq_true, if_false, if_neg hsize, hfits, dif_pos hb]
  split
  · next hm =>
    split
    · next hf => exact iff_of_true rfl ⟨hm, hf⟩
    · next hf => exact iff_of_false (by simp) fun h => hf h.2
  · next hm => exact iff_of_false (by simp) fun h => hm h.1

/-- A meta file that was reset is accepted again exactly when the number of free buckets
is below that of the table. -/
theorem reopen_close_iff (σ : Builder) :
    (close σ MetaInfo.initial.managedIdCount MetaInfo.initial.extendedFieldSize).reopen.isSome ↔
      σ.freeIdCount.toNat < 2 ^ σ.bucketType.1 := by
  have hle := σ.bucketType.2
  have htype : (BitVec.ofNat 8 σ.bucketType.1).toNat = σ.bucketType.1 := by
    rw [BitVec.toNat_ofNat]
    omega
  have hcap : (1#64 <<< σ.bucketType.1).toNat = 2 ^ σ.bucketType.1 := toNat_one_shiftLeft _
  have hpos : 0 < 2 ^ σ.bucketType.1 := Nat.two_pow_pos _
  show (openMeta false 40 _).isSome ↔ _
  rw [isSome_openMeta (by decide) (by rfl) (by simpa only [close, htype] using hle)]
  simp only [close, htype, BitVec.ult, hcap, decide_eq_true_eq]
  exact and_iff_right hpos

theorem openMeta_reset {size : BitVec 64} {file : MetaInfo} {info : OpenedMeta}
    (h : openMeta true size file = some info) :
    info.managedIdCount = MetaInfo.initial.managedIdCount ∧ info.freeIdCount = 0 := by
  simp only [openMeta, if_true] at h
  split at h
  · simp at h
  · split at h
    · simp at h
    · have hb : 2 ≤ MetaInfo.initial.bucketType.toNat ∧
          MetaInfo.initial.bucketType.toNat ≤ 50 := by decide
      rw [dif_pos hb, dif_pos (by decide), dif_pos (by decide), Option.some.injEq] at h
      rw [← h]
      exact ⟨rfl, rfl⟩

theorem freeIdCount_openDataFiles {managedIdCount : BitVec 64} {env : Option (BitVec 64)}
    {opened : DataFile → BitVec 64} {reservedCount : BitVec 64} {r : Bool} {τ : Builder}
    (h : openDataFiles σ managedIdCount env opened reservedCount = (r, τ)) :
    τ.freeIdCount = σ.freeIdCount := by
  unfold openDataFiles at h
  split at h
  · rw [← (Prod.mk.inj h).2]
  · split at h
    · rw [← (Prod.mk.inj h).2]
    · rw [← (Prod.mk.inj h).2]

/-- **What is closed can be opened, unless the free table is full.**  Take any meta file
that `OpenMeta(true)` resets, any data files and sizes of their mappings that
`OpenDataFiles` accepts, and any calls of `Insert` and `TakeFreeBucketId` that return.  The
files that `Close` leaves pass the checks of their sizes in `Load`; `OpenMeta(false)`
accepts the meta file exactly when not all free buckets have been taken. -/
theorem reopen_iff (size : BitVec 64) (file : MetaInfo) (files : Builder)
    (env : Option (BitVec 64)) (opened : DataFile → BitVec 64) (reservedCount : BitVec 64)
    (fuel : ℕ) (calls : List BuildCall) (history : List (BuildCall × BuildResult))
    (info : OpenedMeta) (σ₀ σ : Builder) (hmeta : openMeta true size file = some info)
    (hopen : openDataFiles (info.builder files) info.managedIdCount env opened reservedCount =
      (true, σ₀))
    (hrun : run (buildStep fuel) calls σ₀ = .ok (history, σ)) :
    (close σ info.managedIdCount MetaInfo.initial.extendedFieldSize).Loadable ∧
      ((close σ info.managedIdCount MetaInfo.initial.extendedFieldSize).reopen.isSome ↔
        σ.freeIdCount ≠ σ.capacity) := by
  obtain ⟨hmanaged, hfree⟩ := openMeta_reset hmeta
  have hkeeps := run_keeps hrun
  have hempty : σ₀.freeIdCount = 0 := (freeIdCount_openDataFiles hopen).trans hfree
  have hle : σ.freeIdCount.toNat ≤ σ.capacity.toNat := by
    rw [toNat_capacity, hkeeps.bucketType]
    exact hkeeps.count_le (by rw [hempty]; exact Nat.zero_le _)
  refine ⟨loadable_close σ _ _, ?_⟩
  rw [hmanaged, reopen_close_iff, ← toNat_capacity]
  constructor
  · intro hlt heq
    rw [heq] at hlt
    exact Nat.lt_irrefl _ hlt
  · intro hne
    exact Nat.lt_of_le_of_ne hle fun heq => hne (BitVec.eq_of_toNat_eq heq)

/-- The tables after `OpenMeta(true)` and `OpenDataFiles(3)` on new files. -/
def opened3 : Builder := (zeroFiles.reserve 0 3).2

/-- Keys with the home slot `0` in a table of four buckets. -/
def oneSlot (n : ℕ) : List BuildCall :=
  (List.range n).map fun i => .insert (BitVec.ofNat 64 (4 * i)) (BitVec.ofNat 64 i) allMask64

theorem openMeta_initial :
    ∃ info, openMeta true 40 .initial = some info ∧ info.managedIdCount = 0 ∧
      openDataFiles (info.builder zeroFiles) info.managedIdCount none (expectedSize none 3) 3 =
        (true, opened3) := by
  refine ⟨⟨smallest, 0, 0, by decide, by decide⟩, rfl, rfl, ?_⟩
  unfold openDataFiles
  rw [if_neg (by decide +kernel), if_pos (by decide)]
  rfl

/-- Four keys leave one free bucket, and the builder can be opened again. -/
theorem reopen_iff_fourKeys :
    ∃ history σ, run (buildStep 1) (oneSlot 4) opened3 = .ok (history, σ) ∧
      σ.freeIdCount ≠ σ.capacity ∧ (close σ 0 0).Loadable ∧ (close σ 0 0).reopen.isSome := by
  obtain ⟨info, hmeta, hzero, hopen⟩ := openMeta_initial
  obtain ⟨history, σ, hrun, hfree⟩ := exists_run_of_any (buildStep 1) (oneSlot 4) opened3
    (fun σ => decide (σ.freeIdCount ≠ σ.capacity)) (by decide +kernel)
  have hfree : σ.freeIdCount ≠ σ.capacity := of_decide_eq_true hfree
  have hreopen := reopen_iff 40 .initial zeroFiles none (expectedSize none 3) 3 1 (oneSlot 4)
    history info opened3 σ hmeta hopen hrun
  rw [hzero] at hreopen
  exact ⟨history, σ, hrun, hfree, hreopen.1, hreopen.2.mpr hfree⟩

/-- **A full free table is not opened again.**  The fifth key with the home slot `0` takes
the last of the four free buckets.  All five calls succeed, and `OpenMeta(false)` refuses
the meta file: the number of free buckets has to be below the number of buckets. -/
theorem reopen_refused :
    ((run (buildStep 1) (oneSlot 5) opened3).toOption.map fun q =>
      (q.1.map Prod.snd, q.2.freeIdCount, (close q.2 0 0).reopen.isSome)) =
    some ([.inserted ⟨true, 0⟩, .inserted ⟨false, 0⟩, .inserted ⟨false, 1⟩,
      .inserted ⟨false, 2⟩, .inserted ⟨false, 3⟩], 4, false) := by
  decide +kernel

end Rtp.Qed
