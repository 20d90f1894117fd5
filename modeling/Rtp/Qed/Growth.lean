import Rtp.Qed.InsertRuns
import Rtp.Qed.WellFormed

/-!
# Growing a table

The model of `Reserve` on a table in use and of `RearrangeBuckets`.  `Reserve` raises the
bucket type, and with it the border between key bits and bucket numbers in every word;
`RearrangeBuckets` should then bring every root to its new home slot.

* `rearrangeBuckets_eq` — **`RearrangeBuckets` does nothing**: it skips a bucket whose high
  bits match its own key information, which is every bucket.
* `find_reserve_of_lt`, `find_reserve_of_ge` — what is found in the grown table: a key whose
  home slot stays where it was is found as before, any other is not found.
* `reserve_keepsKeys_iff` — **when a table survives growing**: the home slots of all its keys
  stay where they are, no size has overflowed, and `Reserve` does not take it for a new one.
* `reserve_loses` — the smallest tables that do not.
-/

namespace Rtp.Qed

open Mask Assoc Run

/-! ## Reserve -/

/-- The loop of `get_bucket_type`, with the number of rounds still to be made. -/
def bucketTypeFrom (count : BitVec 64) : ℕ → ℕ → ℕ
  | 0, i => i
  | n + 1, i => if (1#64 <<< i).ult (count + 1) then bucketTypeFrom count n (i + 1) else i

/-- `get_bucket_type`.  For counts from `2 ^ 63` to `2 ^ 64 - 2` the loop of the source comes to a
shift by 64, which is not defined, and does not end if it gives 1 again; there the model stops,
and has the largest type, `QED_MAX_BUCKET_TYPE`. -/
def getBucketType (count : BitVec 64) : BucketType :=
  ⟨min (max (bucketTypeFrom count 63 1) 2) 50, by omega, by omega⟩

/-- Every bucket type is reserved by some count. -/
theorem exists_count (b : BucketType) : ∃ count, getBucketType count = b := by
  have key : ∀ n : Fin 51, 2 ≤ n.1 →
      (getBucketType (BitVec.ofNat 64 (2 ^ n.1 - 1))).1 = n.1 := by decide +kernel
  exact ⟨BitVec.ofNat 64 (2 ^ b.1 - 1), Subtype.ext (key ⟨b.1, Nat.lt_succ_of_le b.2.2⟩ b.2.1)⟩

/-- `memset` on the entries of a table from `start` on. -/
def memset {α : Type*} (table : BitVec 64 → α) (start : BitVec 64) (value : α)
    (count : BitVec 64) (i : BitVec 64) : α :=
  if start.toNat ≤ i.toNat ∧ i.toNat < start.toNat + count.toNat then value else table i

namespace Builder

/-- `Reserve`.  `managedIdCount` is the field of the meta information that no function
writes except for the reset to zero.  The root table of the free buckets is cleared from
its beginning, the other tables from the old number of buckets on; a table with no bucket
taken counts as a new one and is cleared completely.  The check against the largest bucket
type cannot fail. -/
def reserve (σ : Builder) (managedIdCount reservedCount : BitVec 64) : Bool × Builder :=
  let bucketType := getBucketType reservedCount
  let bucketType := if bucketType.1 ≤ σ.bucketType.1 then σ.bucketType else bucketType
  let originBucketCount :=
    if managedIdCount = 0 ∧ σ.freeIdCount = 0 then 0 else 1#64 <<< σ.bucketType.1
  let newBucketCount := 1#64 <<< bucketType.1
  let count := newBucketCount - originBucketCount
  (true,
    { bucketType := bucketType
      freeIdCount := σ.freeIdCount
      managedBucket := memset σ.managedBucket originBucketCount .zero count
      freeBucket := memset σ.freeBucket originBucketCount .zero count
      rootBucketIdTableManaged :=
        memset σ.rootBucketIdTableManaged originBucketCount allMask64 count
      rootBucketIdTableFree := memset σ.rootBucketIdTableFree 0 allMask64 count })

/-! ## RearrangeBuckets -/

/-- One slot of `RearrangeBuckets`.  A target that is in use is only logged, as
`QED_STRICT_BUILD` is not set. -/
def rearrangeBucket (σ : Builder) (iter : BitVec 64) : Builder :=
  let currentMask := allMask64 <<< σ.bucketType.1
  let bucket := σ.managedBucket iter
  if bucket.size = 0#8 ∨ bucket.matchHighBits currentMask bucket.keyInfoField then σ
  else
    let targetId := bucket.keyInfoField &&& currentMask
    let σ := σ.setRootId ⟨true, targetId⟩ targetId
    let σ := σ.setRootId ⟨true, iter⟩ allMask64
    let σ := σ.setBucket ⟨true, targetId⟩ bucket
    σ.setBucket ⟨true, iter⟩ .zero

/-- The loop of `RearrangeBuckets`, with the number of slots still to be looked at. -/
def rearrangeFrom : ℕ → BitVec 64 → Builder → Builder
  | 0, _, σ => σ
  | n + 1, iter, σ => rearrangeFrom n (iter + 1) (σ.rearrangeBucket iter)

/-- `RearrangeBuckets`. -/
def rearrangeBuckets (σ : Builder) (beginBucketId bucketCount : BitVec 64) : Bool × Builder :=
  (true, rearrangeFrom bucketCount.toNat beginBucketId σ)

/-- `RearrangeBuckets` over one range after another. -/
def rearrangeAll (σ : Builder) (ranges : List (BitVec 64 × BitVec 64)) : Builder :=
  ranges.foldl (fun σ range => (σ.rearrangeBuckets range.1 range.2).2) σ

variable {σ : Builder} {managedIdCount reservedCount : BitVec 64}

/-- Every bucket matches its own key information. -/
theorem rearrangeBucket_eq (σ : Builder) (iter : BitVec 64) : σ.rearrangeBucket iter = σ :=
  if_pos (Or.inr (beq_self_eq_true _))

theorem rearrangeFrom_eq (n : ℕ) (iter : BitVec 64) (σ : Builder) :
    rearrangeFrom n iter σ = σ := by
  induction n generalizing iter with
  | zero => rfl
  | succ n ih => rw [rearrangeFrom, rearrangeBucket_eq, ih]

/-- **`RearrangeBuckets` does nothing.** -/
theorem rearrangeBuckets_eq (σ : Builder) (beginBucketId bucketCount : BitVec 64) :
    σ.rearrangeBuckets beginBucketId bucketCount = (true, σ) := by
  rw [rearrangeBuckets, rearrangeFrom_eq]

theorem rearrangeAll_eq (σ : Builder) (ranges : List (BitVec 64 × BitVec 64)) :
    σ.rearrangeAll ranges = σ := by
  induction ranges with
  | nil => rfl
  | cons range ranges ih =>
    rw [rearrangeAll, List.foldl_cons, rearrangeBuckets_eq]
    exact ih

/-! ## The grown table -/

/-- `Reserve` takes the table for a new one. -/
def TakenForNew (σ : Builder) (managedIdCount : BitVec 64) : Prop :=
  managedIdCount = 0 ∧ σ.freeIdCount = 0

theorem toNat_one_shiftLeft (b : BucketType) : (1#64 <<< b.1).toNat = 2 ^ b.1 :=
  toNat_capacity (reserved b)

/-- A fill up to the entry with a given number. -/
theorem memset_between {α : Type*} (table : BitVec 64 → α) (value : α) {start stop : BitVec 64}
    (h : start.toNat ≤ stop.toNat) (i : BitVec 64) :
    memset table start value (stop - start) i =
      if start.toNat ≤ i.toNat ∧ i.toNat < stop.toNat then value else table i := by
  unfold memset
  rw [BitVec.toNat_sub_of_le (BitVec.le_def.mpr h)]
  exact if_congr (by omega) rfl rfl

/-- What `memset` leaves of a table when the number of buckets is raised. -/
theorem memset_raised {α : Type*} (table : BitVec 64 → α) (value : α) {b b' : BucketType}
    (h : b.1 < b'.1) (i : BitVec 64) :
    memset table (1#64 <<< b.1) value (1#64 <<< b'.1 - 1#64 <<< b.1) i =
      if 2 ^ b.1 ≤ i.toNat ∧ i.toNat < 2 ^ b'.1 then value else table i := by
  have hle : (1#64 <<< b.1).toNat ≤ (1#64 <<< b'.1).toNat := by
    rw [toNat_one_shiftLeft, toNat_one_shiftLeft]
    exact Nat.pow_le_pow_right (by omega) h.le
  rw [memset_between _ _ hle, toNat_one_shiftLeft, toNat_one_shiftLeft]

section Grown

variable (hgrow : σ.bucketType.1 < (getBucketType reservedCount).1)

include hgrow

theorem bucketType_reserve :
    (σ.reserve managedIdCount reservedCount).2.bucketType = getBucketType reservedCount :=
  if_neg (Nat.not_le.2 hgrow)

theorem mask_reserve :
    (σ.reserve managedIdCount reservedCount).2.mask =
      lowMask 64 (getBucketType reservedCount).1 := by
  rw [mask, bucketType_reserve hgrow]
  rfl

/-- The bucket at a place in the grown table, unless it was taken for a new one. -/
theorem bucketAt_reserve (hkept : ¬ σ.TakenForNew managedIdCount) (l : Location) :
    (σ.reserve managedIdCount reservedCount).2.bucketAt l =
      if 2 ^ σ.bucketType.1 ≤ l.id.toNat ∧ l.id.toNat < 2 ^ (getBucketType reservedCount).1
      then .zero else σ.bucketAt l := by
  have hnot : ¬ (managedIdCount = 0 ∧ σ.freeIdCount = 0) := hkept
  obtain ⟨_ | _, i⟩ := l
  · show (σ.reserve managedIdCount reservedCount).2.freeBucket i = _
    simp only [reserve, if_neg hnot, if_neg (Nat.not_le.2 hgrow), memset_raised _ _ hgrow]
    rfl
  · show (σ.reserve managedIdCount reservedCount).2.managedBucket i = _
    simp only [reserve, if_neg hnot, if_neg (Nat.not_le.2 hgrow), memset_raised _ _ hgrow]
    rfl

/-- A table taken for a new one has only empty buckets afterwards. -/
theorem bucketAt_reserve_of_new (hnew : σ.TakenForNew managedIdCount) {i : BitVec 64}
    (hi : i.toNat < 2 ^ (getBucketType reservedCount).1) :
    (σ.reserve managedIdCount reservedCount).2.bucketAt ⟨true, i⟩ = .zero := by
  have hnew' : managedIdCount = 0 ∧ σ.freeIdCount = 0 := hnew
  show (σ.reserve managedIdCount reservedCount).2.managedBucket i = _
  simp only [reserve, if_pos hnew', if_neg (Nat.not_le.2 hgrow), memset]
  refine if_pos ⟨Nat.zero_le _, ?_⟩
  rw [sub_zero, toNat_one_shiftLeft]
  simpa using hi

omit hgrow in
theorem toNat_home_reserve (managedIdCount : BitVec 64)
    (hgrow : σ.bucketType.1 < (getBucketType reservedCount).1) (k : BitVec 64) :
    ((σ.reserve managedIdCount reservedCount).2.home k).toNat =
      k.toNat % 2 ^ (getBucketType reservedCount).1 := by
  rw [home, mask_reserve hgrow, toNat_and_lowMask_compl]

/-- **A key that gets a new home slot is not found.** -/
theorem find_reserve_of_ge {k : BitVec 64}
    (hk : 2 ^ σ.bucketType.1 ≤ k.toNat % 2 ^ (getBucketType reservedCount).1) :
    (σ.reserve managedIdCount reservedCount).2.find k = hashtableNFound := by
  have hhome := toNat_home_reserve managedIdCount hgrow k
  have hlt : k.toNat % 2 ^ (getBucketType reservedCount).1 < 2 ^ (getBucketType reservedCount).1 :=
    Nat.mod_lt _ (Nat.two_pow_pos _)
  refine find_of_size _ ?_
  by_cases hnew : σ.TakenForNew managedIdCount
  · rw [bucketAt_reserve_of_new hgrow hnew (by rw [hhome]; exact hlt)]
    decide
  · rw [bucketAt_reserve hgrow hnew, if_pos (by rw [hhome]; exact ⟨hk, hlt⟩)]
    decide

theorem find_reserve_of_new (hnew : σ.TakenForNew managedIdCount) (k : BitVec 64) :
    (σ.reserve managedIdCount reservedCount).2.find k = hashtableNFound := by
  refine find_of_size _ ?_
  rw [bucketAt_reserve_of_new hgrow hnew (by
    rw [toNat_home_reserve managedIdCount hgrow]
    exact Nat.mod_lt _ (Nat.two_pow_pos _))]
  decide

/-! ### A key whose home slot stays where it is -/

variable (hσ : σ.Wf) (hkept : ¬ σ.TakenForNew managedIdCount)
  (hsmall : ∀ k, σ.find k ≠ hashtableNFound →
    k.toNat % 2 ^ (getBucketType reservedCount).1 < 2 ^ σ.bucketType.1)

include hσ hkept

variable {h : BitVec 64} {l : Location}

omit hgrow hkept in
theorem toNat_id_lt (hb : σ.inBounds ⟨true, h⟩) (hl : l ∈ σ.chain h) :
    l.id.toNat < 2 ^ σ.bucketType.1 := by
  have hbound := (hσ.chains h hb).bounds l hl
  have hle := hσ.count_le
  rw [← toNat_capacity]
  obtain ⟨_ | _, i⟩ := l
  · simp only [inBounds, BitVec.ult, Bool.false_eq_true, if_false, decide_eq_true_eq] at hbound
    exact hbound.trans_le hle
  · simpa [inBounds, BitVec.ult] using hbound

theorem bucketAt_reserve_of_mem (hb : σ.inBounds ⟨true, h⟩) (hl : l ∈ σ.chain h) :
    (σ.reserve managedIdCount reservedCount).2.bucketAt l = σ.bucketAt l := by
  rw [bucketAt_reserve hgrow hkept, if_neg fun h => absurd (toNat_id_lt hσ hb hl) h.1.not_gt]

include hsmall

omit hgrow hσ hkept in
/-- The words of the chains have nothing between the old border of their fields and the
new one. -/
theorem keyInfoField_lt (hgrow : σ.bucketType.1 ≤ (getBucketType reservedCount).1)
    (hb : σ.inBounds ⟨true, h⟩) (hl : l ∈ σ.chain h) :
    (σ.bucketAt l).keyInfoField.toNat % 2 ^ (getBucketType reservedCount).1 <
      2 ^ σ.bucketType.1 := by
  have hh := (inBounds_managed_iff σ).1 hb
  have hhome : σ.home (splice σ.mask (σ.bucketAt l).keyInfoField h) = h := by
    rw [home, splice_and_compl, hh]
  -- the key of the node is stored
  have hfound : σ.find (splice σ.mask (σ.bucketAt l).keyInfoField h) ≠ hashtableNFound := by
    rw [ne_eq, find_eq_nfound_iff, not_not, hhome, splice_and_mask, entries, List.map_map]
    exact List.mem_map.2 ⟨l, hl, rfl⟩
  exact lt_of_and_lowMask_eq hgrow (splice_and_mask _ _ _).symm (hsmall _ hfound)

theorem entries_reserve (hb : σ.inBounds ⟨true, h⟩) :
    (σ.reserve managedIdCount reservedCount).2.entries h = σ.entries h := by
  have hat := fun l hl => bucketAt_reserve_of_mem (l := l) hgrow hσ hkept hb hl
  have hmasks := fun l hl => and_lowMask_eq_of_lt hgrow.le
    (keyInfoField_lt (l := l) hsmall hgrow.le hb hl)
  have hsize : ((σ.reserve managedIdCount reservedCount).2.bucketAt ⟨true, h⟩).size =
      (σ.bucketAt ⟨true, h⟩).size := by
    rw [bucketAt_reserve hgrow hkept, if_neg fun hge => absurd hge.1 ?_]
    rw [← toNat_capacity, not_le]
    simpa [inBounds, BitVec.ult] using hb
  have hchain : (σ.reserve managedIdCount reservedCount).2.chain h = σ.chain h := by
    rw [chain, hsize]
    refine Chain.iterate_congr fun l hl => ?_
    have hmem := List.mem_of_mem_dropLast hl
    rw [next, next, hat l hmem, mask_reserve hgrow, RawBucket.nextBucket, RawBucket.nextBucketId,
      (hmasks l hmem).2]
    rfl
  rw [entries, hchain, entries]
  refine List.map_congr_left fun l hl => ?_
  rw [entry, hat l hl, mask_reserve hgrow, RawBucket.keyHighBits, (hmasks l hl).1]
  rfl

/-- **A key whose home slot stays where it is**, in a table all of whose keys are such, is
found as before. -/
theorem find_reserve_of_lt {k : BitVec 64}
    (hk : k.toNat % 2 ^ (getBucketType reservedCount).1 < 2 ^ σ.bucketType.1) :
    (σ.reserve managedIdCount reservedCount).2.find k = σ.find k := by
  obtain ⟨hhigh, hlow⟩ := and_lowMask_eq_of_lt hgrow.le hk
  have hhome : (σ.reserve managedIdCount reservedCount).2.home k = σ.home k := by
    rw [home, mask_reserve hgrow, hlow]
    rfl
  rw [find_eq, hhome, entries_reserve hgrow hσ hkept hsmall (σ.inBounds_home k), find_eq,
    mask_reserve hgrow, hhigh]
  rfl

end Grown

/-! ## Runs of `Insert`s, whatever the roots have counted -/

/-- A table no managed bucket of which is marked for another root. -/
def Owned (σ : Builder) : Prop :=
  ∀ h, σ.rootIdAt ⟨true, h⟩ = allMask64 ∨ σ.rootIdAt ⟨true, h⟩ = h

theorem Owned.not_trespasses (h : Owned σ) (keyId : BitVec 64) : ¬ σ.Trespasses keyId :=
  fun ht => (h _).elim ht.2.1 ht.2.2

theorem Settled.owned {keyId payload : BitVec 64} {loc : Location} {τ : Builder}
    (h : Settled σ keyId payload loc τ) (hσ : Owned σ) : Owned τ := by
  cases h with
  | refused => exact hσ
  | revived => exact fun h => by rw [Builder.revived, rootIdAt_setBucket]; exact hσ h
  | stored _ _ hi =>
    cases hi with
    | fill =>
      intro h
      rw [rootIdAt_filled]
      by_cases hh : (⟨true, h⟩ : Location) = ⟨true, σ.home keyId⟩
      · rw [hh, Function.update_self]
        exact .inr (congrArg Location.id hh).symm
      · rw [Function.update_of_ne hh]
        exact hσ h
    | overwrite => exact fun h => by rw [Builder.overwritten, rootIdAt_setBucket]; exact hσ h
    | append =>
      intro h
      rw [rootIdAt_appended, Function.update_of_ne (root_ne_slot _)]
      exact hσ h

/-- **Every `Insert`** of a run returns. -/
theorem insertStep_wf {b : BucketType} (hσ : σ.Wf ∧ Owned σ ∧ σ.bucketType = b)
    (c : BitVec 64 × BitVec 64) (fuel : ℕ) :
    ∃ loc τ, insertStep (fuel + 2) c σ = .ok (loc, τ) ∧ τ.Wf ∧ Owned τ ∧ τ.bucketType = b := by
  obtain ⟨hwf, howned, htype⟩ := hσ
  obtain ⟨loc, τ, hok, hs⟩ := insert_wf hwf (howned.not_trespasses c.1) c.2 fuel
  exact ⟨loc, τ, hok, hs.wf hwf, hs.owned howned, hs.bucketType.trans htype⟩

end Builder

open Builder

variable {b : BucketType}

theorem run_inserts (b : BucketType) (fuel : ℕ) (calls : List (BitVec 64 × BitVec 64)) :
    ∃ history σ, run (insertStep (fuel + 2)) calls (reserved b) = .ok (history, σ) ∧ σ.Wf ∧
      σ.bucketType = b := by
  obtain ⟨history, σ, hrun, hwf, -, htype⟩ := run_of_along (P := fun _ _ => True)
    (I := fun _ σ => σ.Wf ∧ Owned σ ∧ σ.bucketType = b)
    (fun _ _ c hσ _ => insertStep_wf hσ c fuel) (h := [])
    ⟨wf_reserved b, fun _ => .inl rfl, rfl⟩ (along_of_forall fun _ _ => trivial)
  exact ⟨history, σ, hrun, hwf, htype⟩

theorem storedKeys_append (h h' : List (Call × Result)) :
    storedKeys (h ++ h') = storedKeys h ++ storedKeys h' := by
  rw [storedKeys, List.filterMap_append, List.map_append]
  rfl

theorem calls_append (h h' : InsertHistory) :
    InsertHistory.calls (h ++ h') = h.calls ++ InsertHistory.calls h' :=
  List.map_append

/-- An `Insert` that overflows stores a key more than the size can count. -/
theorem card_of_overflows {history : InsertHistory} {σ τ : Builder}
    {keyId payload : BitVec 64} {loc : Location} (h : InsertInv b history σ)
    (hover : σ.Overflows keyId) {fuel : ℕ}
    (hok : insertStep (fuel + 1) (keyId, payload) σ = .ok (loc, τ)) :
    128 ≤ (keysAt b (σ.home keyId)
      (storedKeys (InsertHistory.calls (history ++ [((keyId, payload), loc)])))).card := by
  have hb := σ.inBounds_home keyId
  obtain ⟨loc', τ', hok', hne, -⟩ := h.insert_of_overflows hover payload fuel
  have hloc : loc = loc' := by
    rw [show insertStep (fuel + 1) (keyId, payload) σ = insert (fuel + 1) keyId payload allMask64 σ
      from rfl, hok', Except.ok.injEq, Prod.mk.injEq] at hok
    exact hok.1.symm
  have hstored : storedKeys (InsertHistory.calls (history ++ [((keyId, payload), loc)])) =
      storedKeys history.calls ++ [keyId] := by
    rw [calls_concat, storedKeys_append, hloc]
    simp [storedKeys, storedBy, hne]
  have hhome : keyId &&& ~~~keyInfoHiMask b.1 = σ.home keyId := by
    rw [home, mask, h.inv.bucketType]
  have hnew : keyId ∉ keysAt b (σ.home keyId) (storedKeys history.calls) := fun hmem => by
    rw [mem_keysAt, mem_storedKeys, ← h.inv.find] at hmem
    exact hmem.1 hover.2.2.1
  have hcard : (insert keyId (keysAt b (σ.home keyId) (storedKeys history.calls))).card = 128 := by
    rw [Finset.card_insert_of_notMem hnew, ← h.accounted _ hb, hover.1]
    rfl
  rw [← hcard, hstored]
  refine Finset.card_le_card fun k hk => ?_
  rw [mem_keysAt, List.mem_append, List.mem_singleton]
  rcases Finset.mem_insert.1 hk with rfl | hk
  · exact ⟨.inr rfl, hhome⟩
  · rw [mem_keysAt] at hk
    exact ⟨.inl hk.1, hk.2⟩

/-- A run that leaves at most 127 stored keys to each home slot has not overflowed. -/
theorem along_of_card {fuel : ℕ} {calls : List (BitVec 64 × BitVec 64)}
    {history history' : InsertHistory} {σ σ' : Builder} (h : InsertInv b history σ)
    (hrun : run (insertStep (fuel + 1)) calls σ = .ok (history', σ'))
    (hcard : ∀ slot, (keysAt b slot
      (storedKeys (InsertHistory.calls (history ++ history')))).card ≤ 127) :
    Along (insertStep (fuel + 1)) (fun σ c => ¬ σ.Overflows c.1) calls σ := by
  induction calls generalizing history history' σ with
  | nil => trivial
  | cons c calls ih =>
    obtain ⟨keyId, payload⟩ := c
    obtain ⟨loc, τ, rest, hstep, hrest, rfl⟩ := run_cons_eq_ok hrun
    have happ : history ++ ((keyId, payload), loc) :: rest =
        history ++ [((keyId, payload), loc)] ++ rest := by simp
    have hover : ¬ σ.Overflows keyId := fun hover => by
      have h128 := card_of_overflows h hover hstep
      have hle : (keysAt b (σ.home keyId)
          (storedKeys (InsertHistory.calls (history ++ [((keyId, payload), loc)])))).card ≤
          (keysAt b (σ.home keyId) (storedKeys
            (InsertHistory.calls (history ++ ((keyId, payload), loc) :: rest)))).card := by
        refine Finset.card_le_card fun k hk => ?_
        rw [mem_keysAt] at hk ⊢
        rw [happ, calls_append, storedKeys_append]
        exact ⟨List.mem_append_left _ hk.1, hk.2⟩
      have := hcard (σ.home keyId)
      omega
    refine ⟨hover, fun r s hok => ?_⟩
    rw [hstep, Except.ok.injEq, Prod.mk.injEq] at hok
    obtain ⟨rfl, rfl⟩ := hok
    obtain ⟨loc', τ', hok', hinv⟩ := insertStep_inv fuel history σ (keyId, payload) h hover
    rw [hstep, Except.ok.injEq, Prod.mk.injEq] at hok'
    obtain ⟨rfl, rfl⟩ := hok'
    exact ih hinv hrest (by rwa [happ] at hcard)

/-! ## When a table survives growing -/

/-- The keys found in a home slot of any table are at most 127. -/
theorem card_keysOf_le (σ : Builder) (slot : BitVec 64) : (keysOf σ slot).card ≤ 127 := by
  refine (List.toFinset_card_le _).trans ?_
  rw [List.length_map, length_entries]
  have hlt := (σ.bucketAt ⟨true, slot⟩).size_lt
  omega

/-- **When a table survives growing.**  Take any `Insert`s on a reserved table, then a
`Reserve` that raises the bucket type, then `RearrangeBuckets` over any ranges.  The
`Insert`s return.  In the grown table every key is found with the payload of its last
successful `Insert`, and no other key, exactly when no `Insert` has overflowed the size of
a root, every stored key has the home slot in the grown table that it had before, and a
table with any key is not taken for a new one. -/
theorem reserve_keepsKeys_iff (b : BucketType) (fuel : ℕ) (calls : List (BitVec 64 × BitVec 64))
    (managedIdCount reservedCount : BitVec 64) (hgrow : b.1 < (getBucketType reservedCount).1)
    (ranges : List (BitVec 64 × BitVec 64)) :
    ∃ history σ, run (insertStep (fuel + 2)) calls (reserved b) = .ok (history, σ) ∧
      ((∀ k, ((σ.reserve managedIdCount reservedCount).2.rearrangeAll ranges).find k =
          lastStored (InsertHistory.calls history) k) ↔
        NeverOverflows b (fuel + 2) calls ∧
          (∀ k ∈ storedKeys (InsertHistory.calls history),
            k.toNat % 2 ^ (getBucketType reservedCount).1 < 2 ^ b.1) ∧
          (σ.TakenForNew managedIdCount → storedKeys (InsertHistory.calls history) = [])) := by
  obtain ⟨history, σ, hrun, hσ, htype⟩ := run_inserts b fuel calls
  have hgrow' : σ.bucketType.1 < (getBucketType reservedCount).1 := by rwa [htype]
  refine ⟨history, σ, hrun, ?_⟩
  rw [rearrangeAll_eq]
  constructor
  · intro hfind
    have hsmall : ∀ k ∈ storedKeys (InsertHistory.calls history),
        k.toNat % 2 ^ (getBucketType reservedCount).1 < 2 ^ b.1 := by
      intro k hk
      by_contra hge
      rw [mem_storedKeys, ← hfind, find_reserve_of_ge hgrow' (by rw [htype]; omega)] at hk
      exact hk rfl
    refine ⟨?_, hsmall, fun hnew => ?_⟩
    · refine along_of_card (insertInv_reserved b) hrun fun slot => ?_
      -- all of them are found in one home slot of the grown table
      refine (Finset.card_le_card fun k hk => ?_).trans
        (card_keysOf_le (σ.reserve managedIdCount reservedCount).2 slot)
      rw [List.nil_append, mem_keysAt] at hk
      have hhome : (σ.reserve managedIdCount reservedCount).2.home k = slot := by
        rw [← hk.2, home, mask_reserve hgrow',
          (and_lowMask_eq_of_lt hgrow.le (hsmall k hk.1)).2]
        rfl
      rw [← hhome, mem_keysOf (inBounds_home _ _)]
      exact ⟨rfl, by rw [hfind]; exact mem_storedKeys.1 hk.1⟩
    · refine List.eq_nil_iff_forall_not_mem.2 fun k hk => ?_
      rw [mem_storedKeys, ← hfind, find_reserve_of_new hgrow' hnew] at hk
      exact hk rfl
  · rintro ⟨hover, hsmall, hnew⟩ k
    obtain ⟨history', σ', hrun', hinv⟩ := run_of_along (I := InsertInv b)
      (insertStep_inv (fuel + 1)) (insertInv_reserved b) hover
    rw [hrun, Except.ok.injEq, Prod.mk.injEq] at hrun'
    obtain ⟨rfl, rfl⟩ := hrun'
    have hstored : ∀ k, σ.find k = lastStored (InsertHistory.calls history) k := hinv.inv.find
    by_cases htaken : σ.TakenForNew managedIdCount
    · rw [find_reserve_of_new hgrow' htaken]
      by_contra hne
      have hmem := mem_storedKeys.2 (Ne.symm hne)
      rw [hnew htaken] at hmem
      cases hmem
    · have hfound : ∀ k, σ.find k ≠ hashtableNFound →
          k.toNat % 2 ^ (getBucketType reservedCount).1 < 2 ^ σ.bucketType.1 := fun k hk => by
        rw [htype]
        rw [hstored] at hk
        exact hsmall k (mem_storedKeys.2 hk)
      by_cases hk : k.toNat % 2 ^ (getBucketType reservedCount).1 < 2 ^ σ.bucketType.1
      · rw [find_reserve_of_lt hgrow' hσ htaken hfound hk, hstored]
      · rw [find_reserve_of_ge hgrow' (by omega), ← hstored]
        by_contra hne
        exact hk (hfound k (Ne.symm hne))

/-- Two keys of the home slot `0` that keep it when the table doubles. -/
theorem reserve_keepsKeys_iff_doubled :
    ∃ history σ, run (insertStep 2) [(0, 10), (8, 20)] (reserved smallest) = .ok (history, σ) ∧
      ((∀ k, ((σ.reserve 0 7).2.rearrangeAll [(0, 8)]).find k =
          lastStored (InsertHistory.calls history) k) ↔
        NeverOverflows smallest 2 [(0, 10), (8, 20)] ∧
          (∀ k ∈ storedKeys (InsertHistory.calls history),
            k.toNat % 2 ^ (getBucketType 7).1 < 2 ^ smallest.1) ∧
          (σ.TakenForNew 0 → storedKeys (InsertHistory.calls history) = [])) :=
  reserve_keepsKeys_iff smallest 0 [(0, 10), (8, 20)] 0 7 (by decide +kernel) [(0, 8)]

/-- **Tables that do not survive.**  After the keys `0` and `4`, which share the home slot
`0`, the table is doubled and all of its slots are rearranged: the key `4` belongs to the slot
`4` now, and is not found.  A table with the key `0` alone has taken no free bucket, and is
cleared. -/
theorem reserve_loses :
    ((run (insertStep 2) [(0, 10), (4, 20)] (reserved smallest)).toOption.map fun q =>
      let τ := (q.2.reserve 0 7).2.rearrangeAll [(0, 8)]
      (q.2.find 0, q.2.find 4, τ.bucketType.1, τ.find 0, τ.find 4)) =
        some (10, 20, 3, 10, hashtableNFound) ∧
    ((run (insertStep 2) [(0, 10)] (reserved smallest)).toOption.map fun q =>
      (q.2.find 0, ((q.2.reserve 0 7).2.rearrangeAll [(0, 8)]).find 0)) =
        some (10, hashtableNFound) := by
  constructor <;> decide +kernel

end Rtp.Qed
