import Rtp.Qed.OptimizeFrame
import Rtp.Qed.Readers

/-!
# What a reader sees while an `Insert` is under way

A reader may look at the table after any of the stores of an `Insert`.  It should find
under every other key what was there before, and under the key itself what was there
before or will be there afterwards.

* `SeenThroughout` — this property of a list of stores; `Quiet` — the calls that have it.
* `Traced.seen_iff` — the property for each of the ways an `Insert` can go.
* `insert_seen_iff` — **after every run**, an `Insert` is safe to watch exactly when it
  finds its home slot in use and does not overflow it, or else finds the key and the
  payload it brings already in the empty bucket.
* `insert_seen_through` — the first `Insert` into an empty table is not: the size is set
  before the key.
-/

namespace Rtp.Qed.Builder

open Mask Assoc Chain

variable {σ : Builder} {keyId payload : BitVec 64} {loc : Location} {stores : List Store}

/-- In the table after any prefix of the stores, every other key is found as before, and
the key itself as before or as afterwards. -/
def SeenThroughout (σ : Builder) (keyId : BitVec 64) (stores : List Store) : Prop :=
  ∀ n, (∀ k, k ≠ keyId → (σ.after (stores.take n)).find k = σ.find k) ∧
    ((σ.after (stores.take n)).find keyId = σ.find keyId ∨
      (σ.after (stores.take n)).find keyId = (σ.after stores).find keyId)

/-- The home slot is in use and does not overflow; or it is empty, the high bits that were
left in it are those of the key, and, if it is going to be filled, the payload that was
left in it is the one that is stored. -/
def Quiet (σ : Builder) (keyId payload : BitVec 64) : Prop :=
  if (σ.bucketAt ⟨true, σ.home keyId⟩).size = 0#8 then
    (σ.bucketAt ⟨true, σ.home keyId⟩).keyHighBits σ.mask = keyId &&& σ.mask ∧
      (σ.rootIdAt ⟨true, σ.home keyId⟩ = allMask64 →
        (σ.bucketAt ⟨true, σ.home keyId⟩).payload = payload.setWidth 56)
  else ¬ σ.Overflows keyId

/-! ## Home slots without a chain -/

theorem find_of_empty (hs : (σ.bucketAt ⟨true, σ.home keyId⟩).size = 0#8) {k : BitVec 64}
    (hk : σ.home k = σ.home keyId) : σ.find k = hashtableNFound :=
  find_of_size σ (by rw [hk, hs])

/-- The key whose high bits were left in the home slot. -/
theorem exists_stale (σ : Builder) (keyId : BitVec 64) :
    ∃ k, σ.home k = σ.home keyId ∧
      k &&& σ.mask = (σ.bucketAt ⟨true, σ.home keyId⟩).keyHighBits σ.mask := by
  refine ⟨splice σ.mask (σ.bucketAt ⟨true, σ.home keyId⟩).keyInfoField (σ.home keyId), ?_, ?_⟩
  · rw [home, splice_and_compl]
    exact and_compl_idem _ _
  · exact splice_and_mask _ _ _

theorem setWidth_ne_nfound (p : BitVec 56) : p.setWidth 64 ≠ hashtableNFound := foundPayload_ne p

/-- The tables after the claim: the bucket counts one node, and has the key and the
payload that were left in it or those of the call. -/
theorem bucketAt_filling (σ : Builder) (keyId payload : BitVec 64) (n : ℕ) :
    ∃ bucket : RawBucket, bucket.size = 1#8 ∧
      (σ.after ((.sizeField ⟨true, σ.home keyId⟩ 1#8 ::
        rootStores (σ.home keyId) keyId payload).take (n + 1))).bucketAt =
          Function.update σ.bucketAt ⟨true, σ.home keyId⟩ bucket ∧
      (bucket.keyHighBits σ.mask = (σ.bucketAt ⟨true, σ.home keyId⟩).keyHighBits σ.mask ∨
        bucket.keyHighBits σ.mask = keyId &&& σ.mask) ∧
      (bucket.payload = (σ.bucketAt ⟨true, σ.home keyId⟩).payload ∨
        bucket.payload = payload.setWidth 56) := by
  have hone : 1#8 &&& ~~~sizeFieldHiMask = 1#8 := by decide
  rcases n with _ | _ | _ | _ | n
  · exact ⟨{ σ.bucketAt ⟨true, σ.home keyId⟩ with sizeField := 1#8 }, hone,
      bucketAt_claim _ _, .inl rfl, .inl rfl⟩
  · refine ⟨{ σ.bucketAt ⟨true, σ.home keyId⟩ with sizeField := 1#8 }, hone, ?_, .inl rfl,
      Or.inl rfl⟩
    simp [rootStores, Store.apply, bucketAt_setBucket]
  · refine ⟨{ σ.bucketAt ⟨true, σ.home keyId⟩ with
      sizeField := 1#8, payload := payload.setWidth 56 }, hone, ?_, .inl rfl, .inr rfl⟩
    simp [rootStores, Store.apply, bucketAt_setBucket]
  · refine ⟨⟨keyId, 1#8, payload.setWidth 56⟩, hone, ?_, .inr rfl, .inr rfl⟩
    simp [rootStores, Store.apply, bucketAt_setBucket]
  · refine ⟨⟨keyId, 1#8, payload.setWidth 56⟩, hone, ?_, .inr rfl, .inr rfl⟩
    simp [rootStores, Store.apply, bucketAt_setBucket]

section Empty

variable (hσ : σ.Wf) (hs : (σ.bucketAt ⟨true, σ.home keyId⟩).size = 0#8)

include hσ hs

/-- What is found after the claim alone: the stale key, with the stale payload. -/
theorem find_claim (hroot : σ.rootIdAt ⟨true, σ.home keyId⟩ = allMask64 ∨
    σ.rootIdAt ⟨true, σ.home keyId⟩ = σ.home keyId) (k : BitVec 64) :
    (σ.after [.sizeField ⟨true, σ.home keyId⟩ 1#8]).find k =
      if σ.home k = σ.home keyId ∧
          (σ.bucketAt ⟨true, σ.home keyId⟩).keyHighBits σ.mask = k &&& σ.mask then
        (σ.bucketAt ⟨true, σ.home keyId⟩).payload.setWidth 64
      else σ.find k := by
  have hone : ({ σ.bucketAt ⟨true, σ.home keyId⟩ with sizeField := 1#8 } : RawBucket).size = 1#8 :=
    show 1#8 &&& ~~~sizeFieldHiMask = 1#8 by decide
  rw [find_claimed hσ hroot (bucketType_after _) (bucketAt_claim _ _) hone]
  by_cases hk : σ.home k = σ.home keyId
  · rw [if_pos hk, find_of_empty hs hk]
    exact if_congr (by rw [hk]; exact (and_iff_right rfl).symm) rfl rfl
  · rw [if_neg hk, if_neg fun h => hk h.1]

theorem revived_seen_iff (hr : σ.rootIdAt ⟨true, σ.home keyId⟩ = σ.home keyId) :
    SeenThroughout σ keyId [.sizeField ⟨true, σ.home keyId⟩ 1#8] ↔ σ.Quiet keyId payload := by
  have hfind := find_claim hσ hs (Or.inr hr)
  have hquiet : σ.Quiet keyId payload ↔
      (σ.bucketAt ⟨true, σ.home keyId⟩).keyHighBits σ.mask = keyId &&& σ.mask := by
    rw [Quiet, if_pos hs, hr]
    exact and_iff_left fun h => absurd h (σ.ne_allMask64 (σ.inBounds_home keyId))
  rw [hquiet]
  constructor
  · -- the key that was left in the bucket turns up
    intro hseen
    by_contra hne
    obtain ⟨k, hk, hkey⟩ := exists_stale σ keyId
    have hkk : k ≠ keyId := fun h => hne (by rw [← hkey, h])
    have h1 := (hseen 1).1 k hkk
    rw [List.take_succ_cons, List.take_zero, hfind, if_pos ⟨hk, hkey.symm⟩,
      find_of_empty hs hk] at h1
    exact setWidth_ne_nfound _ h1
  · intro hkey n
    cases n with
    | zero => exact ⟨fun _ _ => rfl, .inl rfl⟩
    | succ n =>
      rw [List.take_of_length_le (by simp)]
      refine ⟨fun k hk => ?_, .inr rfl⟩
      rw [hfind, if_neg fun h => hk (eq_of_masked (hkey.symm.trans h.2).symm h.1)]

theorem filled_seen_iff (hroot : σ.rootIdAt ⟨true, σ.home keyId⟩ = allMask64) :
    SeenThroughout σ keyId (.sizeField ⟨true, σ.home keyId⟩ 1#8 ::
      rootStores (σ.home keyId) keyId payload) ↔ σ.Quiet keyId payload := by
  have hfind := find_claim hσ hs (Or.inl hroot)
  have hquiet : σ.Quiet keyId payload ↔
      (σ.bucketAt ⟨true, σ.home keyId⟩).keyHighBits σ.mask = keyId &&& σ.mask ∧
        (σ.bucketAt ⟨true, σ.home keyId⟩).payload = payload.setWidth 56 := by
    rw [Quiet, if_pos hs]
    exact and_congr_right' (forall_prop_of_true hroot)
  have hafter : σ.after (.sizeField ⟨true, σ.home keyId⟩ 1#8 ::
      rootStores (σ.home keyId) keyId payload) = σ.filled keyId payload := by
    have h := @after_rootStores (Store.apply σ (.sizeField ⟨true, σ.home keyId⟩ 1#8)) keyId
      payload
    rw [show (Store.apply σ (.sizeField ⟨true, σ.home keyId⟩ 1#8)).mask = σ.mask from
      σ.mask_setBucket _ _] at h
    exact h
  have hkeyFound : (σ.filled keyId payload).find keyId = (payload.setWidth 56).setWidth 64 := by
    rw [(stores_filled hroot hs hσ.chains).find, if_pos rfl, ← foundPayload_some]
    rfl
  rw [hquiet]
  constructor
  · intro hseen
    have hclaim := hseen 1
    rw [List.take_succ_cons, List.take_zero, hafter] at hclaim
    have hkey : (σ.bucketAt ⟨true, σ.home keyId⟩).keyHighBits σ.mask = keyId &&& σ.mask := by
      by_contra hne
      obtain ⟨k, hk, hkey⟩ := exists_stale σ keyId
      have hkk : k ≠ keyId := fun h => hne (by rw [← hkey, h])
      have h1 := hclaim.1 k hkk
      rw [hfind, if_pos ⟨hk, hkey.symm⟩, find_of_empty hs hk] at h1
      exact setWidth_ne_nfound _ h1
    refine ⟨hkey, ?_⟩
    have h2 := hclaim.2
    rw [hfind, if_pos ⟨rfl, hkey⟩, find_of_empty hs rfl, hkeyFound] at h2
    have hinj := h2.resolve_left (setWidth_ne_nfound _)
    have htrunc := congrArg (BitVec.setWidth 56) hinj
    rwa [BitVec.setWidth_setWidth_of_le _ (by decide), BitVec.setWidth_eq,
      BitVec.setWidth_setWidth_of_le _ (by decide), BitVec.setWidth_eq] at htrunc
  · rintro ⟨hkey, hpay⟩ n
    cases n with
    | zero => exact ⟨fun _ _ => rfl, .inl rfl⟩
    | succ n =>
      -- from the claim on, the bucket shows what it will show in the end
      obtain ⟨bucket, hsize, hat, hbits, hload⟩ := bucketAt_filling σ keyId payload n
      rw [hkey, or_self] at hbits
      rw [hpay, or_self] at hload
      have hn := find_claimed hσ (Or.inl hroot) (bucketType_after _) hat hsize
      refine ⟨fun k hk => ?_, .inr ?_⟩
      · rw [hn]
        split
        · rename_i hhome
          rw [hbits, if_neg fun h => hk (eq_of_masked h.symm hhome), find_of_empty hs hhome]
        · rfl
      · rw [hn, if_pos rfl, if_pos hbits, hload, hafter, hkeyFound]

end Empty

/-! ## Home slots with a chain -/

theorem quiet_of_chain (hs : (σ.bucketAt ⟨true, σ.home keyId⟩).size ≠ 0#8) :
    σ.Quiet keyId payload ↔ ¬ σ.Overflows keyId := by
  rw [Quiet, if_neg hs]

theorem size_ne_of_mem {h : BitVec 64} {l : Location} (hl : l ∈ σ.chain h) :
    (σ.bucketAt ⟨true, h⟩).size ≠ 0#8 := by
  intro h0
  rw [chain, h0] at hl
  cases hl

/-- Replacing a payload is one store. -/
theorem overwritten_seen (payload : BitVec 64) (hσ : σ.Wf) (hl : loc ∈ σ.chain (σ.home keyId))
    (hk : (σ.entry loc).1 = keyId &&& σ.mask) :
    SeenThroughout σ keyId [.payload loc (payload.setWidth 56)] ∧ ¬ σ.Overflows keyId := by
  have hover : ¬ σ.Overflows keyId := fun hover => by
    refine absurd ?_ (find_eq_nfound_iff.1 hover.2.2.1)
    rw [entries, List.map_map, ← hk]
    exact List.mem_map_of_mem hl
  refine ⟨fun n => ?_, hover⟩
  cases n with
  | zero => exact ⟨fun _ _ => rfl, .inl rfl⟩
  | succ n =>
    have hi : Inserted σ keyId payload loc (σ.overwritten loc (payload.setWidth 56)) :=
      .overwrite loc hl hk
    rw [List.take_of_length_le (by simp)]
    refine ⟨fun k hne => ?_, .inr rfl⟩
    exact ((hi.stores_of_wf hσ.chains hover).find k).trans (if_neg hne)

section Appended

variable {last : Location} {hidden : List Store} {value : BitVec 8} (hσ : σ.Wf)
  (hlast : (σ.chain (σ.home keyId)).getLast? = some last)
  (hhidden : ∀ s ∈ hidden, Hidden σ last s)

include hσ hlast hhidden

/-- The prefixes of the stores of an append: the node is not counted yet, or all is
done. -/
theorem appended_prefix (s : Store) (n : ℕ) :
    Agrees σ last (σ.after ((hidden ++ [s]).take n)) ∨ (hidden ++ [s]).take n = hidden ++ [s] := by
  have hne := last_ne_slot (hσ.chains _ (σ.inBounds_home keyId)) hlast
  by_cases hn : n ≤ hidden.length
  · rw [List.take_append_of_le_length hn]
    exact .inl ((agrees_self σ last).after hne
      fun s hs => hhidden s (List.mem_of_mem_take hs))
  · refine .inr (List.take_of_length_le ?_)
    rw [List.length_append, List.length_singleton]
    omega

/-- **Appending a node is safe to watch unless the root overflows.** -/
theorem appended_seen_iff (hfree : σ.freeIdCount.ult σ.capacity)
    (hflag : (σ.bucketAt ⟨true, σ.home keyId⟩).sizeField ≠ 0xFF#8)
    (hnew : σ.find keyId = hashtableNFound)
    (htable : σ.after (hidden ++ [.sizeField ⟨true, σ.home keyId⟩ value]) =
      σ.appended keyId payload last) :
    SeenThroughout σ keyId (hidden ++ [.sizeField ⟨true, σ.home keyId⟩ value]) ↔
      ¬ σ.Overflows keyId := by
  have hi : Inserted σ keyId payload σ.slot (σ.appended keyId payload last) :=
    .append last hlast hfree hflag hnew
  constructor
  · intro hseen hover
    have hb := σ.inBounds_home keyId
    obtain ⟨k, hk, hfound⟩ := exists_key hb (by rw [hover.1]; decide)
    have hne : k ≠ keyId := by rintro rfl; exact hfound hnew
    have hlost := (hseen (hidden.length + 1)).1 k hne
    rw [List.take_of_length_le (by simp), htable,
      hi.find_of_overflows_of_wf (hσ.chains _ hb) hover hk] at hlost
    exact hfound hlost.symm
  · intro hover n
    rcases appended_prefix hσ hlast hhidden _ n with hagrees | hall
    · have hfind := hagrees.find hσ hlast
      exact ⟨fun k _ => hfind k, .inl (hfind keyId)⟩
    · rw [hall]
      refine ⟨fun k hne => ?_, .inr rfl⟩
      rw [htable, (hi.stores_of_wf hσ.chains hover).find, if_neg hne]

end Appended

/-! ## The whole call -/

/-- **Which calls are safe to watch**, among all the ways an `Insert` can go. -/
theorem Traced.seen_iff (h : Traced σ keyId payload loc stores) (hσ : σ.Wf) :
    SeenThroughout σ keyId stores ↔ σ.Quiet keyId payload := by
  cases h with
  | refused hs hover =>
    refine iff_of_true (fun n => ?_) ((quiet_of_chain hs).2 hover)
    rw [List.take_nil]
    exact ⟨fun _ _ => rfl, .inl rfl⟩
  | revived hs hr => exact revived_seen_iff hσ hs hr
  | filled hs hroot => exact filled_seen_iff hσ hs hroot
  | overwritten loc hl hk =>
    have hseen := overwritten_seen payload hσ hl hk
    exact iff_of_true hseen.1 ((quiet_of_chain (size_ne_of_mem hl)).2 hseen.2)
  | appended last hidden value hlast hfree hflag hnew hhidden htable =>
    rw [quiet_of_chain (size_ne_of_mem (List.mem_of_getLast? hlast))]
    exact appended_seen_iff hσ hlast hhidden hfree hflag hnew htable

/-- **All tables on the way can be read**, with the same result by both readers. -/
theorem Traced.readable (h : Traced σ keyId payload loc stores) (hσ : σ.Wf) (n : ℕ) :
    (σ.after (stores.take n)).Readable := by
  have hone : ({ σ.bucketAt ⟨true, σ.home keyId⟩ with sizeField := 1#8 } : RawBucket).size = 1#8 :=
    show 1#8 &&& ~~~sizeFieldHiMask = 1#8 by decide
  cases n with
  | zero => exact hσ.readable
  | succ n =>
    cases h with
    | refused => exact hσ.readable
    | revived hs hr =>
      rw [List.take_of_length_le (by simp)]
      exact readable_claimed hσ (Or.inr hr) (bucketType_after _) (bucketAt_claim _ _) hone
    | filled hs hroot =>
      obtain ⟨bucket, hsize, hat, -⟩ := bucketAt_filling σ keyId payload n
      exact readable_claimed hσ (Or.inl hroot) (bucketType_after _) hat hsize
    | overwritten loc hl hk =>
      rw [List.take_of_length_le (by simp)]
      exact ((Inserted.overwrite loc hl hk).wf hσ).readable
    | appended last hidden value hlast hfree hflag hnew hhidden htable =>
      rcases appended_prefix hσ hlast hhidden _ (n + 1) with hagrees | hall
      · exact hagrees.readable hσ hlast
      · rw [hall, htable]
        exact ((Inserted.append last hlast hfree hflag hnew).wf hσ).readable

end Builder

/-! ## Runs -/

open Run Builder

/-- **Which `Insert`s are safe to watch.**  Take any calls of `Insert` and
`OptimizeFreeBucket` on a reserved table in which no `Insert` finds its home slot occupied
by a node of another chain, the last of them an `Insert`.  It returns, and its stores lead
to what it leaves behind.  In the tables on the way the volatile read finds what `Find`
finds.  In all of these tables every other key is found as before and the key itself as
before or as afterwards, exactly when the call is `Quiet`. -/
theorem insert_seen_iff {b : BucketType} (calls : List Call) {keyId payload : BitVec 64} (fuel : ℕ)
    (hocc : Along (callStep (fuel + 2)) Undisputed (calls ++ [.insert keyId payload])
      (reserved b)) :
    ∃ history σ loc stores, run (callStep (fuel + 2)) calls (reserved b) = .ok (history, σ) ∧
      σ.insertStores (fuel + 2) keyId payload = .ok (loc, stores) ∧
      insert (fuel + 2) keyId payload allMask64 σ = .ok (loc, σ.after stores) ∧
      (∀ n k, (σ.after (stores.take n)).findVolatile k 1 =
        some ((σ.after (stores.take n)).find k)) ∧
      (SeenThroughout σ keyId stores ↔ σ.Quiet keyId payload) := by
  obtain ⟨history, σ, hrun, hσ, hc⟩ := run_before_of_along (I := fun _ σ => σ.Wf)
    (fun _ _ _ hσ hc => callStep_wf hσ hc fuel) (h := []) (wf_reserved b) hocc
  obtain ⟨loc, stores, hok, ht⟩ := insertStores_traced hσ hc payload fuel
  exact ⟨history, σ, loc, stores, hrun, hok, insert_of_insertStores hok,
    fun n k => (ht.readable hσ n).findVolatile_eq k 0, ht.seen_iff hσ⟩

/-- The second key of a home slot. -/
theorem insert_seen_iff_second :
    ∃ history σ loc stores, run (callStep 2) [.insert 0 10] (reserved smallest) =
        .ok (history, σ) ∧
      σ.insertStores 2 4 20 = .ok (loc, stores) ∧
      insert 2 4 20 allMask64 σ = .ok (loc, σ.after stores) ∧
      (∀ n k, (σ.after (stores.take n)).findVolatile k 1 =
        some ((σ.after (stores.take n)).find k)) ∧
      (SeenThroughout σ 4 stores ↔ σ.Quiet 4 20) :=
  insert_seen_iff [.insert 0 10] 0 (by decide +kernel)

/-- **A key that was never inserted is seen.**  The first `Insert` into an empty table, of
the key `5`, sets the size of its home slot before the key: between the two the key `1` is
found, with the payload `0`, by both readers. -/
theorem insert_seen_through :
    (((reserved smallest).insertStores 1 5 7).toOption.map fun q =>
      ((reserved smallest).find 1, ((reserved smallest).after (q.2.take 1)).find 1,
        ((reserved smallest).after (q.2.take 1)).findVolatile 1 1,
        ((reserved smallest).after q.2).find 1)) =
      some (hashtableNFound, 0, some 0, hashtableNFound) := by
  decide +kernel

end Rtp.Qed
