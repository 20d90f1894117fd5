import Rtp.Qed.Chains

/-!
# Storing a key in a home slot

Two of the three ways of storing a key: it becomes the root of its empty home slot, or
the payload of its node is replaced.  (The third, a new node at the end of the chain, is
in `Rtp.Qed.Append`.)

* `Stores` — the change all three come to: an association-list update of the entries of
  the home slot, and of nothing else; `Stores.find` is what is found afterwards.
* `filled`, `overwritten` — the two changes, with the invariant kept.
-/

namespace Rtp.Qed.Builder

open Mask Assoc Chain
open Function (update update_self update_of_ne)

/-- The key gets the payload, in the entries of its home slot; the entries of all
other home slots are as they were. -/
structure Stores (σ τ : Builder) (keyId payload : BitVec 64) : Prop where
  bucketType : τ.bucketType = σ.bucketType
  home : τ.entries (σ.home keyId) =
    put (keyId &&& σ.mask) (payload.setWidth 56) (σ.entries (σ.home keyId))
  other : ∀ h, h ≠ σ.home keyId → σ.inBounds ⟨true, h⟩ → τ.entries h = σ.entries h

variable {σ τ : Builder} {keyId payload : BitVec 64}

/-- A payload is stored modulo `2 ^ 56`. -/
theorem foundPayload_some (payload : BitVec 64) :
    foundPayload (some (payload.setWidth 56)) = BitVec.ofNat 64 (payload.toNat % 2 ^ 56) := by
  apply BitVec.eq_of_toNat_eq
  simp [foundPayload]

theorem foundPayload_ne (p : BitVec 56) : foundPayload (some p) ≠ hashtableNFound := by
  intro h
  have hlt := p.isLt
  have hn := congrArg BitVec.toNat h
  simp [foundPayload, hashtableNFound] at hn
  omega

theorem find_eq_nfound_iff :
    σ.find keyId = hashtableNFound ↔
      keyId &&& σ.mask ∉ (σ.entries (σ.home keyId)).map Prod.fst := by
  rw [find_eq, ← lookup_eq_none_iff]
  cases (σ.entries (σ.home keyId)).lookup (keyId &&& σ.mask) with
  | none => exact iff_of_true rfl rfl
  | some p => exact iff_of_false (foundPayload_ne p) (by simp)

/-- **What is found after a change of one key.** -/
theorem Stores.find (h : Stores σ τ keyId payload) (k : BitVec 64) :
    τ.find k = if k = keyId then BitVec.ofNat 64 (payload.toNat % 2 ^ 56) else σ.find k := by
  have hm : τ.mask = σ.mask := by rw [mask, mask, h.bucketType]
  have hh : τ.home k = σ.home k := by rw [Builder.home, Builder.home, hm]
  rw [find_eq, find_eq, hm, hh]
  by_cases hhome : σ.home k = σ.home keyId
  · rw [hhome, h.home]
    by_cases hk : k = keyId
    · rw [if_pos hk, hk, lookup_put_self, foundPayload_some]
    · have hne : keyId &&& σ.mask ≠ k &&& σ.mask := fun he => hk (eq_of_masked he.symm hhome)
      rw [if_neg hk, lookup_put_of_ne hne]
  · have hk : k ≠ keyId := fun hk => hhome (hk ▸ rfl)
    rw [if_neg hk, h.other _ hhome (σ.inBounds_home k)]

/-! ## The root of an empty home slot -/

section Fill

variable (hroot : σ.rootIdAt ⟨true, σ.home keyId⟩ = allMask64)
  (hsize : (σ.bucketAt ⟨true, σ.home keyId⟩).size = 0#8)

/-- The table after an empty home slot has been claimed and filled. -/
def filled (σ : Builder) (keyId payload : BitVec 64) : Builder :=
  (((σ.setBucket ⟨true, σ.home keyId⟩
    { σ.bucketAt ⟨true, σ.home keyId⟩ with sizeField := 1#8 }).fillRoot keyId payload).2)

@[simp] theorem bucketType_filled : (σ.filled keyId payload).bucketType = σ.bucketType := by
  simp [filled, fillRoot]

@[simp] theorem mask_filled : (σ.filled keyId payload).mask = σ.mask := by simp [mask]

@[simp] theorem freeIdCount_filled : (σ.filled keyId payload).freeIdCount = σ.freeIdCount := by
  simp [filled, fillRoot]

theorem bucketAt_filled : (σ.filled keyId payload).bucketAt =
    update σ.bucketAt ⟨true, σ.home keyId⟩ ⟨keyId, 1#8, payload.setWidth 56⟩ := by
  simp [filled, fillRoot, bucketAt_setBucket, home]

theorem rootIdAt_filled : (σ.filled keyId payload).rootIdAt =
    update σ.rootIdAt ⟨true, σ.home keyId⟩ (σ.home keyId) := by
  simp [filled, fillRoot, rootIdAt_setRootId, home]

include hroot

theorem touches_filled : Touches (σ.home keyId) σ (σ.filled keyId payload) := by
  have hne : ∀ {l : Location}, σ.rootIdAt l ≠ allMask64 → l ≠ ⟨true, σ.home keyId⟩ := by
    rintro l hl rfl
    exact hl hroot
  refine ⟨bucketType_filled, by rw [freeIdCount_filled], fun h' hh => ?_, fun l _ _ hl => ?_,
    fun l _ _ hl => ?_⟩
  · rw [bucketAt_filled, update_of_ne (by simpa using hh)]
  · rw [bucketAt_filled, update_of_ne (hne hl)]
  · rw [rootIdAt_filled, update_of_ne (hne hl)]

omit hroot in
theorem chain_filled : (σ.filled keyId payload).chain (σ.home keyId) = [⟨true, σ.home keyId⟩] := by
  rw [chain, bucketAt_filled, update_self]
  show List.iterate _ _ (1#8 &&& ~~~sizeFieldHiMask).toNat = _
  rw [show 1#8 &&& ~~~sizeFieldHiMask = 1#8 by decide]
  rfl

omit hroot in
theorem entries_filled : (σ.filled keyId payload).entries (σ.home keyId) =
    [(keyId &&& σ.mask, payload.setWidth 56)] := by
  rw [entries, chain_filled, List.map_singleton, entry, bucketAt_filled, update_self,
    mask_filled]
  rfl

include hsize

theorem stores_filled (hσ : ∀ h, σ.inBounds ⟨true, h⟩ → ChainWf σ h) :
    Stores σ (σ.filled keyId payload) keyId payload := by
  refine ⟨bucketType_filled, ?_, fun h hne hb =>
    (touches_filled hroot).entries hne hb (hσ h hb)⟩
  have hnil : σ.entries (σ.home keyId) = [] := by rw [entries, chain, hsize]; rfl
  rw [entries_filled, hnil, put]

omit hsize in
theorem chainOk_filled : ChainOk (σ.filled keyId payload) (σ.home keyId) := by
  have hfilled : (σ.filled keyId payload).bucketAt ⟨true, σ.home keyId⟩ =
      ⟨keyId, 1#8, payload.setWidth 56⟩ := by
    rw [bucketAt_filled, update_self]
  refine (chainWf_of_single ?_ ?_ ?_).ok fun _ => by rw [hfilled]
  · rw [hfilled]; exact show 1#8 &&& ~~~sizeFieldHiMask = 1#8 by decide
  · exact (touches_filled hroot).inBounds (σ.inBounds_home keyId)
  · rw [rootIdAt_filled, update_self]

theorem sound_filled (hσ : σ.Sound) : (σ.filled keyId payload).Sound := by
  have ht : Touches (σ.home keyId) σ (σ.filled keyId payload) := touches_filled hroot
  have hb := σ.inBounds_home keyId
  refine ht.sound hσ (by rw [freeIdCount_filled, ht.capacity]; exact hσ.count_le) hb
    (chainOk_filled hroot) ?_
  · intro i hi hr
    have hne : (⟨false, i⟩ : Location) ≠ ⟨true, σ.home keyId⟩ := by simp
    rw [rootIdAt_filled, update_of_ne hne] at hr ⊢
    have hi' : σ.inBounds ⟨false, i⟩ := by simpa [inBounds] using hi
    refine .inl ⟨hi', fun hh => ?_, rfl⟩
    -- nothing belonged to a home slot whose chain was empty
    have hmem := (hσ.free i hi' hr).2
    rw [hh, chain, hsize] at hmem
    cases hmem

end Fill

/-! ## A new payload for a key that is there -/

section Overwrite

/-- The table after the payload of a node has been replaced. -/
def overwritten (σ : Builder) (loc : Location) (p : BitVec 56) : Builder :=
  σ.setBucket loc { σ.bucketAt loc with payload := p }

variable {loc : Location} {p : BitVec 56}

theorem bucketAt_overwritten : (σ.overwritten loc p).bucketAt =
    update σ.bucketAt loc { σ.bucketAt loc with payload := p } :=
  σ.bucketAt_setBucket _ _

@[simp] theorem mask_overwritten : (σ.overwritten loc p).mask = σ.mask := σ.mask_setBucket _ _

theorem keyInfoField_overwritten (l : Location) :
    ((σ.overwritten loc p).bucketAt l).keyInfoField = (σ.bucketAt l).keyInfoField := by
  rw [bucketAt_overwritten]
  by_cases h : l = loc
  · subst h; rw [update_self]
  · rw [update_of_ne h]

theorem sizeField_overwritten (l : Location) :
    ((σ.overwritten loc p).bucketAt l).sizeField = (σ.bucketAt l).sizeField := by
  rw [bucketAt_overwritten]
  by_cases h : l = loc
  · subst h; rw [update_self]
  · rw [update_of_ne h]

theorem size_overwritten (l : Location) :
    ((σ.overwritten loc p).bucketAt l).size = (σ.bucketAt l).size := by
  rw [RawBucket.size, RawBucket.size, sizeField_overwritten]

theorem entry_overwritten (l : Location) : (σ.overwritten loc p).entry l =
    if l = loc then ((σ.entry l).1, p) else σ.entry l := by
  rw [entry, entry, mask_overwritten, bucketAt_overwritten]
  by_cases h : l = loc
  · subst h; rw [update_self, if_pos rfl]; rfl
  · rw [update_of_ne h, if_neg h]

theorem chain_overwritten (h : BitVec 64) : (σ.overwritten loc p).chain h = σ.chain h := by
  have hn : (σ.overwritten loc p).next = σ.next := by
    funext l
    rw [next, next, mask_overwritten, RawBucket.nextBucket, RawBucket.nextBucket,
      RawBucket.nextBucketIsInternal, RawBucket.nextBucketIsInternal, RawBucket.nextBucketId,
      RawBucket.nextBucketId, keyInfoField_overwritten, sizeField_overwritten]
  rw [chain, chain, hn, size_overwritten]

theorem keys_overwritten (h : BitVec 64) :
    ((σ.overwritten loc p).entries h).map Prod.fst = (σ.entries h).map Prod.fst := by
  rw [entries, entries, chain_overwritten, List.map_map, List.map_map]
  refine List.map_congr_left fun l _ => ?_
  simp only [Function.comp_apply, entry_overwritten]
  split <;> rfl

variable {h : BitVec 64} (hc : ChainWf σ h) (hl : loc ∈ σ.chain h)

include hc hl

theorem entries_overwritten :
    (σ.overwritten loc p).entries h = put (σ.entry loc).1 p (σ.entries h) := by
  have hmem : (σ.entry loc).1 ∈ (σ.entries h).map Prod.fst := by
    rw [entries, List.map_map]
    exact List.mem_map_of_mem hl
  rw [put_of_mem p hc.keys hmem, entries, chain_overwritten, entries, List.map_map]
  refine List.map_congr_left fun l hl' => ?_
  have hk := hc.keys
  rw [entries, List.map_map] at hk
  rw [entry_overwritten, Function.comp_apply]
  by_cases hll : l = loc
  · rw [if_pos hll, hll, if_pos rfl]
  · have hne : (σ.entry l).1 ≠ (σ.entry loc).1 := fun he =>
      hll (List.inj_on_of_nodup_map hk hl' hl he)
    rw [if_neg hll, if_neg hne]

theorem touches_overwritten : Touches h σ (σ.overwritten loc p) := by
  refine ⟨σ.bucketType_setBucket _ _, (congrArg BitVec.toNat (σ.freeIdCount_setBucket _ _)).ge,
    fun h' _ => size_overwritten _, fun l _ hne _ => ?_, fun l _ _ _ => ?_⟩
  · rw [bucketAt_overwritten, update_of_ne]
    rintro rfl
    exact hne (hc.root _ hl)
  · exact congrFun (σ.rootIdAt_setBucket _ _) l

theorem chainWf_overwritten : ChainWf (σ.overwritten loc p) h := by
  have ht : Touches h σ (σ.overwritten loc p) := touches_overwritten hc hl
  have hroot : (σ.overwritten loc p).rootIdAt = σ.rootIdAt := σ.rootIdAt_setBucket _ _
  refine ⟨fun l hl' => ?_, fun l hl' => ?_, fun l hl' hne => ?_, ?_⟩
  · rw [chain_overwritten] at hl'
    exact ht.inBounds (hc.bounds l hl')
  · rw [chain_overwritten] at hl'
    rw [hroot, hc.root l hl']
  · rw [chain_overwritten] at hl'
    rw [size_overwritten, hc.size l hl' hne]
  · rw [keys_overwritten]; exact hc.keys

omit hc in
theorem sound_overwritten (hσ : σ.Sound) (hb : σ.inBounds ⟨true, h⟩) :
    (σ.overwritten loc p).Sound := by
  have hc := hσ.chains h hb
  have ht : Touches h σ (σ.overwritten loc p) := touches_overwritten hc.wf hl
  have hroot : (σ.overwritten loc p).rootIdAt = σ.rootIdAt := σ.rootIdAt_setBucket _ _
  have hcount : (σ.overwritten loc p).freeIdCount = σ.freeIdCount := σ.freeIdCount_setBucket _ _
  refine ht.sound hσ (by rw [hcount, ht.capacity]; exact hσ.count_le) hb ?_ fun i hi hr => ?_
  · refine (chainWf_overwritten hc.wf hl).ok fun h₁ => ?_
    rw [size_overwritten] at h₁
    rw [sizeField_overwritten, hc.single h₁]
  · have hi' : σ.inBounds ⟨false, i⟩ := by simpa [inBounds, hcount] using hi
    rw [hroot] at hr ⊢
    by_cases hh : σ.rootIdAt ⟨false, i⟩ = h
    · have hmem := (hσ.free i hi' hr).2
      rw [hh] at hmem
      exact .inr ⟨hh, by rwa [chain_overwritten]⟩
    · exact .inl ⟨hi', hh, rfl⟩

end Overwrite

end Rtp.Qed.Builder
