import Rtp.Qed.Store

/-!
# Appending a node to a chain

The third way of storing a key: a bucket of the free table is filled, the last node of
the chain is made to point to it, and the size at the root is raised.

* `withNode`, `withLink`, `appended` — the table after each step.
* `stores_appended`, `sound_appended` — the change is `Stores` and the invariant is
  kept, as long as the size at the root can count the new node.
* `size_appended_of_full` — **where it goes wrong**: when the root already counts 127
  nodes the size becomes zero, and with it the chain is empty.
* `sizeField_firstAttempt` — behind a root alone whose flag is set the first attempt clears
  the flag, so that the size field is not the one that was read.
-/

namespace Rtp.Qed.Builder

open Mask Assoc Chain
open Function (update update_self update_of_ne update_eq_self)

variable {σ τ : Builder} {keyId payload : BitVec 64}

/-! ## A new node at the end of a chain -/

section Append

/-- The next bucket of the free table to be taken. -/
def slot (σ : Builder) : Location := ⟨false, σ.freeIdCount⟩

/-- The table after a new node has been filled in. -/
def withNode (σ : Builder) (keyId payload : BitVec 64) : Builder :=
  ({ σ with freeIdCount := σ.freeIdCount + 1 } : Builder).fillNode σ.freeIdCount keyId payload

/-- The table after the new node has been linked to the last one. -/
def withLink (σ : Builder) (keyId payload : BitVec 64) (last : Location) : Builder :=
  (σ.withNode keyId payload).setBucket last
    (((σ.withNode keyId payload).bucketAt last).setNextBucketId σ.mask σ.freeIdCount false)

/-- The table after a new node has been appended: the size at the root counts it. -/
def appended (σ : Builder) (keyId payload : BitVec 64) (last : Location) : Builder :=
  (σ.withLink keyId payload last).setBucket ⟨true, σ.home keyId⟩
    ((σ.withLink keyId payload last).bucketAt ⟨true, σ.home keyId⟩).counted

theorem setBucket_setBucket (σ : Builder) (loc : Location) (b b' : RawBucket) :
    (σ.setBucket loc b).setBucket loc b' = σ.setBucket loc b' := by
  rw [setBucket, setBucket, setBucket]
  cases loc.internal <;> simp

variable {last : Location}

@[simp] theorem mask_withNode : (σ.withNode keyId payload).mask = σ.mask := by
  simp only [withNode, fillNode, mask_setRootId, mask_setBucket]
  rfl

theorem bucketAt_withNode : (σ.withNode keyId payload).bucketAt =
    update σ.bucketAt σ.slot ⟨keyId, 0x80#8, payload.setWidth 56⟩ := by
  simp only [withNode, fillNode, bucketAt_setRootId, bucketAt_setBucket]
  rfl

theorem bucketAt_withLink (hlast : last ≠ σ.slot) : (σ.withLink keyId payload last).bucketAt =
    update (update σ.bucketAt σ.slot ⟨keyId, 0x80#8, payload.setWidth 56⟩) last
      ((σ.bucketAt last).setNextBucketId σ.mask σ.freeIdCount false) := by
  rw [withLink, bucketAt_setBucket, bucketAt_withNode, update_of_ne hlast]

@[simp] theorem mask_withLink : (σ.withLink keyId payload last).mask = σ.mask := by
  simp [withLink]

theorem home_withLink : (σ.withLink keyId payload last).home keyId = σ.home keyId := by
  rw [home, mask_withLink]
  rfl

theorem rootIdAt_withLink : (σ.withLink keyId payload last).rootIdAt =
    update σ.rootIdAt σ.slot (σ.home keyId) := by
  simp only [withLink, withNode, fillNode, rootIdAt_setBucket, rootIdAt_setRootId]
  rfl

variable {l : Location}

theorem bucketAt_appended_of_ne (hroot : l ≠ ⟨true, σ.home keyId⟩) :
    (σ.appended keyId payload last).bucketAt l = (σ.withLink keyId payload last).bucketAt l := by
  rw [appended, bucketAt_setBucket, update_of_ne hroot]

theorem bucketAt_appended_root : (σ.appended keyId payload last).bucketAt ⟨true, σ.home keyId⟩ =
    ((σ.withLink keyId payload last).bucketAt ⟨true, σ.home keyId⟩).counted := by
  rw [appended, bucketAt_setBucket, update_self]

@[simp] theorem bucketType_appended :
    (σ.appended keyId payload last).bucketType = σ.bucketType := by
  simp [appended, withLink, withNode, fillNode]

@[simp] theorem mask_appended : (σ.appended keyId payload last).mask = σ.mask := by simp [mask]

@[simp] theorem freeIdCount_appended :
    (σ.appended keyId payload last).freeIdCount = σ.freeIdCount + 1 := by
  simp [appended, withLink, withNode, fillNode]

theorem rootIdAt_appended : (σ.appended keyId payload last).rootIdAt =
    update σ.rootIdAt σ.slot (σ.home keyId) := by
  rw [appended, rootIdAt_setBucket, rootIdAt_withLink]

/-- Linking the new node changes no size and no entry of the others. -/
theorem size_withLink (keyId payload : BitVec 64) (hlast : last ≠ σ.slot) (hl : l ≠ σ.slot) :
    ((σ.withLink keyId payload last).bucketAt l).size = (σ.bucketAt l).size := by
  rw [bucketAt_withLink hlast]
  by_cases h : l = last
  · subst h; rw [update_self, RawBucket.size_setNextBucketId]
  · rw [update_of_ne h, update_of_ne hl]

theorem root_ne_slot (h : BitVec 64) : (⟨true, h⟩ : Location) ≠ σ.slot := by simp [slot]

theorem size_appended (hlast : last ≠ σ.slot) (hl : l ≠ σ.slot) (hroot : l ≠ ⟨true, σ.home keyId⟩) :
    ((σ.appended keyId payload last).bucketAt l).size = (σ.bucketAt l).size := by
  rw [bucketAt_appended_of_ne hroot, size_withLink _ _ hlast hl]

/-- The size at the root counts the new node, if it can. -/
theorem toNat_size_appended (hlast : last ≠ σ.slot)
    (hlt : (σ.bucketAt ⟨true, σ.home keyId⟩).size.toNat < 127) :
    ((σ.appended keyId payload last).bucketAt ⟨true, σ.home keyId⟩).size.toNat =
      (σ.bucketAt ⟨true, σ.home keyId⟩).size.toNat + 1 := by
  have hs := size_withLink keyId payload hlast (root_ne_slot (σ.home keyId))
  rw [bucketAt_appended_root, RawBucket.toNat_size_counted (by rwa [hs]), hs]

theorem bucketAt_appended_slot (hlast : last ≠ σ.slot) :
    (σ.appended keyId payload last).bucketAt σ.slot = ⟨keyId, 0x80#8, payload.setWidth 56⟩ := by
  rw [bucketAt_appended_of_ne (root_ne_slot _).symm, bucketAt_withLink hlast,
    update_of_ne hlast.symm, update_self]

theorem entry_appended_slot (hlast : last ≠ σ.slot) :
    (σ.appended keyId payload last).entry σ.slot = (keyId &&& σ.mask, payload.setWidth 56) := by
  rw [entry, bucketAt_appended_slot hlast, mask_appended]
  rfl

theorem entry_appended (hlast : last ≠ σ.slot) (hl : l ≠ σ.slot) :
    (σ.appended keyId payload last).entry l = σ.entry l := by
  have hlink : ((σ.withLink keyId payload last).bucketAt l).keyHighBits σ.mask =
      (σ.bucketAt l).keyHighBits σ.mask ∧
      ((σ.withLink keyId payload last).bucketAt l).payload = (σ.bucketAt l).payload := by
    rw [bucketAt_withLink hlast]
    by_cases h : l = last
    · subst h
      rw [update_self, RawBucket.keyHighBits_setNextBucketId]
      exact ⟨rfl, rfl⟩
    · rw [update_of_ne h, update_of_ne hl]
      exact ⟨rfl, rfl⟩
  rw [entry, entry, mask_appended, ← hlink.1, ← hlink.2]
  by_cases hroot : l = ⟨true, σ.home keyId⟩
  · rw [hroot, bucketAt_appended_root]; rfl
  · rw [bucketAt_appended_of_ne hroot]

/-- Where a node leads to, after the new one has been linked and, at the root,
counted. -/
theorem next_appended (hlast : last ≠ σ.slot)
    (hlt : (σ.bucketAt ⟨true, σ.home keyId⟩).size.toNat < 127) :
    (σ.appended keyId payload last).next l =
      ((σ.withLink keyId payload last).bucketAt l).nextBucket σ.mask := by
  rw [next, mask_appended]
  by_cases hroot : l = ⟨true, σ.home keyId⟩
  · rw [hroot, bucketAt_appended_root, RawBucket.nextBucket_counted]
    rwa [size_withLink _ _ hlast (root_ne_slot _)]
  · rw [bucketAt_appended_of_ne hroot]

theorem next_appended_of_ne (hlast : last ≠ σ.slot)
    (hlt : (σ.bucketAt ⟨true, σ.home keyId⟩).size.toNat < 127) (hl : l ≠ σ.slot) (hne : l ≠ last) :
    (σ.appended keyId payload last).next l = σ.next l := by
  rw [next_appended hlast hlt, bucketAt_withLink hlast, update_of_ne hne,
    update_of_ne hl]
  rfl

/-! ### The chain with its new node -/

theorem not_inBounds_slot (σ : Builder) : ¬ σ.inBounds σ.slot := by
  simp [inBounds, slot, BitVec.ult]

/-- The number of a free bucket that can be taken fits in the place of a link. -/
theorem freeIdCount_and_compl (hfree : σ.freeIdCount.ult σ.capacity) :
    σ.freeIdCount &&& ~~~σ.mask = σ.freeIdCount :=
  (inBounds_managed_iff σ).1 (by simpa [inBounds] using hfree)

theorem toNat_freeIdCount_succ (hfree : σ.freeIdCount.ult σ.capacity) :
    (σ.freeIdCount + 1).toNat = σ.freeIdCount.toNat + 1 := by
  have hcap := σ.capacity_lt
  rw [BitVec.ult, decide_eq_true_eq] at hfree
  rw [BitVec.toNat_add]
  exact Nat.mod_eq_of_lt (by simp; omega)

variable (hc : ChainWf σ (σ.home keyId))
  (hlast : (σ.chain (σ.home keyId)).getLast? = some last)
  (hlt : (σ.bucketAt ⟨true, σ.home keyId⟩).size.toNat < 127)
  (hfree : σ.freeIdCount.ult σ.capacity)

include hc in
theorem ne_slot_of_mem (hl : l ∈ σ.chain (σ.home keyId)) : l ≠ σ.slot := by
  rintro rfl
  exact σ.not_inBounds_slot (hc.bounds _ hl)

include hc hlast

theorem last_ne_slot : last ≠ σ.slot := ne_slot_of_mem hc (List.mem_of_getLast? hlast)

include hlt

theorem next_appended_last (hfree : σ.freeIdCount.ult σ.capacity) :
    (σ.appended keyId payload last).next last = σ.slot := by
  rw [next_appended (last_ne_slot hc hlast) hlt, bucketAt_withLink (last_ne_slot hc hlast),
    update_self, RawBucket.nextBucket_setNextBucketId, freeIdCount_and_compl hfree]
  rfl

include hfree

theorem chain_appended : (σ.appended keyId payload last).chain (σ.home keyId) =
    σ.chain (σ.home keyId) ++ [σ.slot] := by
  have hne := last_ne_slot hc hlast
  rw [chain, toNat_size_appended hne hlt,
    iterate_extend (f := σ.next) hlast fun l hl => ?_, next_appended_last hc hlast hlt hfree]
  · rfl
  · refine next_appended_of_ne hne hlt (ne_slot_of_mem hc (List.mem_of_mem_dropLast hl)) ?_
    -- the last node occurs only once
    rintro rfl
    have hnd := hc.nodup
    rw [← List.dropLast_append_getLast? _ hlast, List.nodup_append] at hnd
    exact hnd.2.2 _ hl _ (List.mem_singleton_self _) rfl

theorem entries_appended : (σ.appended keyId payload last).entries (σ.home keyId) =
    σ.entries (σ.home keyId) ++ [(keyId &&& σ.mask, payload.setWidth 56)] := by
  have hne := last_ne_slot hc hlast
  rw [entries, chain_appended hc hlast hlt hfree, List.map_append, List.map_singleton,
    entry_appended_slot hne, entries]
  congr 1
  exact List.map_congr_left fun l hl => entry_appended hne (ne_slot_of_mem hc hl)

omit hlt in
theorem touches_appended : Touches (σ.home keyId) σ (σ.appended keyId payload last) := by
  have hne := last_ne_slot hc hlast
  have hcount := toNat_freeIdCount_succ hfree
  refine ⟨bucketType_appended, by rw [freeIdCount_appended]; omega, fun h' hh => ?_,
    fun l hl hr hall => ?_, fun l hl hr hall => ?_⟩
  · exact size_appended hne (root_ne_slot _) (by simpa using hh)
  · have hls : l ≠ σ.slot := by rintro rfl; exact σ.not_inBounds_slot hl
    have hll : l ≠ last := by rintro rfl; exact hr (hc.root _ (List.mem_of_getLast? hlast))
    have hlr : l ≠ ⟨true, σ.home keyId⟩ := by
      rintro rfl
      refine hr (hc.root _ (σ.mem_chain_self fun h0 => ?_))
      rw [chain, h0] at hlast
      simp [List.iterate] at hlast
    rw [bucketAt_appended_of_ne hlr, bucketAt_withLink hne, update_of_ne hll,
      update_of_ne hls]
  · have hls : l ≠ σ.slot := by rintro rfl; exact σ.not_inBounds_slot hl
    rw [rootIdAt_appended, update_of_ne hls]

theorem stores_appended (hσ : ∀ h, σ.inBounds ⟨true, h⟩ → ChainWf σ h)
    (hkey : keyId &&& σ.mask ∉ (σ.entries (σ.home keyId)).map Prod.fst) :
    Stores σ (σ.appended keyId payload last) keyId payload := by
  refine ⟨bucketType_appended, ?_, fun h hne hb =>
    (touches_appended hc hlast hfree).entries hne hb (hσ h hb)⟩
  rw [entries_appended hc hlast hlt hfree, put_of_notMem _ hkey]

omit hc hlast hlt in
theorem inBounds_appended_slot : (σ.appended keyId payload last).inBounds σ.slot := by
  have hcount := toNat_freeIdCount_succ hfree
  simp only [inBounds, slot, freeIdCount_appended, BitVec.ult, Bool.false_eq_true, if_false,
    decide_eq_true_eq]
  omega

omit hc hlast hlt in
/-- A free bucket in use afterwards is the new one or was in use before. -/
theorem inBounds_of_appended {i : BitVec 64}
    (hi : (σ.appended keyId payload last).inBounds ⟨false, i⟩) :
    (⟨false, i⟩ : Location) = σ.slot ∨ σ.inBounds ⟨false, i⟩ := by
  have hcount := toNat_freeIdCount_succ hfree
  simp only [inBounds, freeIdCount_appended, BitVec.ult, Bool.false_eq_true, if_false,
    decide_eq_true_eq, slot, Location.mk.injEq, true_and, ← BitVec.toNat_inj] at hi ⊢
  omega

theorem chainOk_appended
    (hkey : keyId &&& σ.mask ∉ (σ.entries (σ.home keyId)).map Prod.fst) :
    ChainOk (σ.appended keyId payload last) (σ.home keyId) := by
  have hne := last_ne_slot hc hlast
  have ht : Touches (σ.home keyId) σ (σ.appended keyId payload last) :=
    touches_appended hc hlast hfree
  have hch : (σ.appended keyId payload last).chain (σ.home keyId) =
      σ.chain (σ.home keyId) ++ [σ.slot] := chain_appended hc hlast hlt hfree
  refine ⟨⟨fun l hl => ?_, fun l hl => ?_, fun l hl hlr => ?_, ?_⟩, fun h₁ => ?_⟩
  · rw [hch, List.mem_append, List.mem_singleton] at hl
    rcases hl with hl | rfl
    · exact ht.inBounds (hc.bounds l hl)
    · exact inBounds_appended_slot hfree
  · rw [rootIdAt_appended]
    rw [hch, List.mem_append, List.mem_singleton] at hl
    rcases hl with hl | rfl
    · rw [update_of_ne (ne_slot_of_mem hc hl), hc.root l hl]
    · rw [update_self]
  · rw [hch, List.mem_append, List.mem_singleton] at hl
    rcases hl with hl | rfl
    · rw [size_appended hne (ne_slot_of_mem hc hl) hlr, hc.size l hl hlr]
    · rw [bucketAt_appended_slot hne]
      exact show 0x80#8 &&& ~~~sizeFieldHiMask = 0#8 by decide
  · rw [entries_appended hc hlast hlt hfree, List.map_append, List.map_singleton]
    refine List.nodup_append.2 ⟨hc.keys, List.nodup_singleton _, fun k hk k' hk' he => hkey ?_⟩
    have hkk : k = keyId &&& σ.mask := he.trans (List.mem_singleton.1 hk')
    exact hkk ▸ hk
  · -- the chain had a node before, so it has two now
    have hs : ((σ.appended keyId payload last).chain (σ.home keyId)).length = 1 := by
      rw [length_chain, h₁]; rfl
    rw [hch, List.length_append, List.length_singleton, Nat.add_eq_right,
      List.length_eq_zero_iff] at hs
    rw [hs] at hlast
    simp at hlast

theorem sound_appended (hσ : σ.Sound)
    (hkey : keyId &&& σ.mask ∉ (σ.entries (σ.home keyId)).map Prod.fst) :
    (σ.appended keyId payload last).Sound := by
  have ht : Touches (σ.home keyId) σ (σ.appended keyId payload last) :=
    touches_appended hc hlast hfree
  have hcount := toNat_freeIdCount_succ hfree
  have hmem : (σ.appended keyId payload last).chain (σ.home keyId) =
      σ.chain (σ.home keyId) ++ [σ.slot] := chain_appended hc hlast hlt hfree
  refine ht.sound hσ ?_ (σ.inBounds_home keyId) (chainOk_appended hc hlast hlt hfree hkey)
    fun i hi hr => ?_
  · rw [BitVec.ult, decide_eq_true_eq] at hfree
    rw [freeIdCount_appended, ht.capacity]
    omega
  · rw [rootIdAt_appended, hmem] at *
    by_cases his : (⟨false, i⟩ : Location) = σ.slot
    · rw [his, update_self]
      exact .inr ⟨rfl, by simp⟩
    · have hi' := (inBounds_of_appended hfree hi).resolve_left his
      rw [update_of_ne his] at hr ⊢
      by_cases hh : σ.rootIdAt ⟨false, i⟩ = σ.home keyId
      · have hold := (hσ.free i hi' hr).2
        rw [hh] at hold
        exact .inr ⟨hh, List.mem_append_left _ hold⟩
      · exact .inl ⟨hi', hh, rfl⟩

omit hlt hfree in
/-- **Where it goes wrong.**  A root that counts 127 nodes, with its second node in the
free table, counts none after one more has been appended. -/
theorem size_appended_of_full (hfull : (σ.bucketAt ⟨true, σ.home keyId⟩).size = 127#8)
    (hflag : (σ.bucketAt ⟨true, σ.home keyId⟩).sizeField ≠ 0xFF#8)
    (hroot : last ≠ ⟨true, σ.home keyId⟩) :
    ((σ.appended keyId payload last).bucketAt ⟨true, σ.home keyId⟩).size = 0#8 := by
  have hlink : (σ.withLink keyId payload last).bucketAt ⟨true, σ.home keyId⟩ =
      σ.bucketAt ⟨true, σ.home keyId⟩ := by
    rw [bucketAt_withLink (last_ne_slot hc hlast), update_of_ne hroot.symm,
      update_of_ne (root_ne_slot _)]
  rw [bucketAt_appended_root, hlink]
  exact RawBucket.size_counted_of_full hfull hflag

end Append

/-! ## The last node and the root -/

section Last

variable {last : Location} (hc : ChainOk σ (σ.home keyId))
  (hlast : (σ.chain (σ.home keyId)).getLast? = some last)

include hc hlast

/-- The last node is the root only when it is alone, and then its flag is clear. -/
theorem sizeField_of_last_eq (hroot : last = ⟨true, σ.home keyId⟩) :
    (σ.bucketAt ⟨true, σ.home keyId⟩).sizeField = 1#8 := by
  have hnd := hc.nodup
  have hlen := σ.length_chain (σ.home keyId)
  refine hc.single (BitVec.eq_of_toNat_eq ?_)
  rw [← hlen]
  cases hch : σ.chain (σ.home keyId) with
  | nil => rw [hch] at hlast; simp at hlast
  | cons a t =>
    -- the first node is the root, and it occurs only once
    have ha : a = ⟨true, σ.home keyId⟩ := by
      have hs : (σ.bucketAt ⟨true, σ.home keyId⟩).size.toNat ≠ 0 := by
        rw [← hlen, hch]; exact Nat.succ_ne_zero _
      obtain ⟨n, hn⟩ := Nat.exists_eq_succ_of_ne_zero hs
      rw [chain, hn, iterate_succ] at hch
      exact (List.cons.inj hch).1.symm
    rw [hch] at hlast hnd
    cases t with
    | nil => rfl
    | cons a' t =>
      rw [List.getLast?_cons_cons] at hlast
      have hmem := List.mem_of_getLast? hlast
      rw [hroot, ← ha] at hmem
      exact absurd hmem (List.nodup_cons.1 hnd).1

omit hc hlast in
theorem inBounds_withNode (hc : ChainWf σ (σ.home keyId))
    (hlast : (σ.chain (σ.home keyId)).getLast? = some last)
    (hfree : σ.freeIdCount.ult σ.capacity) : (σ.withNode keyId payload).inBounds last := by
  have hb := hc.bounds last (List.mem_of_getLast? hlast)
  have hcount := toNat_freeIdCount_succ hfree
  obtain ⟨_ | _, i⟩ := last
  · simp only [inBounds, withNode, fillNode, freeIdCount_setRootId, freeIdCount_setBucket,
      BitVec.ult, Bool.false_eq_true, if_false, decide_eq_true_eq] at hb ⊢
    omega
  · simpa [inBounds, withNode, fillNode, capacity] using hb

/-- If the last node is the root then clearing its flag does not change its size field. -/
theorem sizeField_withLink :
    ((σ.withLink keyId payload last).bucketAt ⟨true, σ.home keyId⟩).sizeField =
      (σ.bucketAt ⟨true, σ.home keyId⟩).sizeField := by
  rw [bucketAt_withLink (last_ne_slot hc.wf hlast)]
  by_cases hr : last = ⟨true, σ.home keyId⟩
  · have h1 := sizeField_of_last_eq hc hlast hr
    rw [hr, update_self]
    show RawBucket.flagged _ false = _
    rw [h1]; rfl
  · rw [update_of_ne (Ne.symm hr), update_of_ne (root_ne_slot _)]

end Last

/-! ## A root alone with its flag set -/

/-- A builder is known from what can be read of it. -/
theorem ext_of_reads (htype : τ.bucketType = σ.bucketType) (hcount : τ.freeIdCount = σ.freeIdCount)
    (hbucket : τ.bucketAt = σ.bucketAt) (hroot : τ.rootIdAt = σ.rootIdAt) : τ = σ := by
  obtain ⟨_, _, m, f, rm, rf⟩ := σ
  obtain ⟨_, _, m', f', rm', rf'⟩ := τ
  obtain rfl : m' = m := funext fun i => congrFun hbucket ⟨true, i⟩
  obtain rfl : f' = f := funext fun i => congrFun hbucket ⟨false, i⟩
  obtain rfl : rm' = rm := funext fun i => congrFun hroot ⟨true, i⟩
  obtain rfl : rf' = rf := funext fun i => congrFun hroot ⟨false, i⟩
  obtain rfl : _ = _ := htype
  obtain rfl : _ = _ := hcount
  rfl

variable {loc : Location}

theorem setBucket_self {bucket : RawBucket} (h : σ.bucketAt loc = bucket) :
    σ.setBucket loc bucket = σ := by
  refine ext_of_reads (σ.bucketType_setBucket _ _) (σ.freeIdCount_setBucket _ _) ?_
    (σ.rootIdAt_setBucket _ _)
  rw [bucketAt_setBucket, ← h, update_eq_self]

theorem setRootId_self {r : BitVec 64} (h : σ.rootIdAt loc = r) : σ.setRootId loc r = σ := by
  refine ext_of_reads (σ.bucketType_setRootId _ _) (σ.freeIdCount_setRootId _ _)
    (σ.bucketAt_setRootId _ _) ?_
  rw [rootIdAt_setRootId, ← h, update_eq_self]

/-- Filling in the node that is already there. -/
theorem fillNode_self {freeSlot : BitVec 64}
    (hb : σ.bucketAt ⟨false, freeSlot⟩ = ⟨keyId, 0x80#8, payload.setWidth 56⟩)
    (hr : σ.rootIdAt ⟨false, freeSlot⟩ = σ.home keyId) : σ.fillNode freeSlot keyId payload = σ := by
  rw [fillNode, setBucket_self hb]
  exact setRootId_self hr

theorem splice_splice (m x y : BitVec 64) : splice m (splice m x y) y = splice m x y := by
  refine eq_of_masked (m := m) ?_ ?_
  · rw [splice_and_mask, splice_and_mask]
  · rw [splice_and_compl, splice_and_compl]

section Retry

variable (hc : ChainWf σ (σ.home keyId))
  (hs : (σ.bucketAt ⟨true, σ.home keyId⟩).sizeField = 0x81#8)

/-- The root after the first attempt: it leads to the new node, and its flag is clear. -/
theorem bucketAt_firstAttempt :
    (σ.withLink keyId payload ⟨true, σ.home keyId⟩).bucketAt ⟨true, σ.home keyId⟩ =
      (σ.bucketAt ⟨true, σ.home keyId⟩).setNextBucketId σ.mask σ.freeIdCount false := by
  rw [bucketAt_withLink (root_ne_slot _), update_self]

include hs

theorem size_of_flagged : (σ.bucketAt ⟨true, σ.home keyId⟩).size = 1#8 := by
  rw [RawBucket.size, hs]
  decide

theorem sizeField_firstAttempt :
    ((σ.withLink keyId payload ⟨true, σ.home keyId⟩).bucketAt ⟨true, σ.home keyId⟩).sizeField =
      1#8 := by
  rw [bucketAt_firstAttempt]
  show RawBucket.flagged _ false = _
  rw [hs]
  decide

theorem getLast?_of_flagged :
    (σ.chain (σ.home keyId)).getLast? = some ⟨true, σ.home keyId⟩ := by
  rw [chain, size_of_flagged hs]
  rfl

omit hs in
/-- The new node is filled in already. -/
theorem fillNode_firstAttempt :
    (σ.withLink keyId payload ⟨true, σ.home keyId⟩).fillNode σ.freeIdCount keyId payload =
      σ.withLink keyId payload ⟨true, σ.home keyId⟩ := by
  refine fillNode_self ?_ ?_
  · show (σ.withLink keyId payload ⟨true, σ.home keyId⟩).bucketAt σ.slot = _
    rw [bucketAt_withLink (root_ne_slot _), update_of_ne (root_ne_slot _).symm,
      update_self]
  · rw [rootIdAt_withLink, home_withLink]
    exact update_self ..

omit hs in
/-- The root leads to it already. -/
theorem splice_firstAttempt :
    splice σ.mask ((σ.withLink keyId payload ⟨true, σ.home keyId⟩).bucketAt
      ⟨true, σ.home keyId⟩).keyInfoField σ.freeIdCount =
      ((σ.withLink keyId payload ⟨true, σ.home keyId⟩).bucketAt
        ⟨true, σ.home keyId⟩).keyInfoField := by
  rw [bucketAt_firstAttempt]
  exact splice_splice _ _ _

omit hs in
theorem inBounds_firstAttempt :
    (σ.withLink keyId payload ⟨true, σ.home keyId⟩).inBounds ⟨true, σ.home keyId⟩ := by
  have hb := (σ.withLink keyId payload ⟨true, σ.home keyId⟩).inBounds_home keyId
  rwa [home_withLink] at hb

theorem size_firstAttempt :
    ((σ.withLink keyId payload ⟨true, σ.home keyId⟩).bucketAt ⟨true, σ.home keyId⟩).size = 1#8 := by
  rw [RawBucket.size, sizeField_firstAttempt hs]
  decide

theorem chain_firstAttempt :
    (σ.withLink keyId payload ⟨true, σ.home keyId⟩).chain (σ.home keyId) =
      [⟨true, σ.home keyId⟩] := by
  rw [chain, size_firstAttempt hs]
  rfl

include hc in
theorem chainWf_firstAttempt : ChainWf (σ.withLink keyId payload ⟨true, σ.home keyId⟩)
    ((σ.withLink keyId payload ⟨true, σ.home keyId⟩).home keyId) := by
  rw [home_withLink]
  refine chainWf_of_single (size_firstAttempt hs) inBounds_firstAttempt ?_
  rw [rootIdAt_withLink, update_of_ne (root_ne_slot _)]
  exact hc.root _ (σ.mem_chain_self (by rw [size_of_flagged hs]; decide))

/-- The key of the root is what it was before the first attempt. -/
theorem key_ne_firstAttempt (hnew : σ.find keyId = hashtableNFound) {loc : Location}
    (hl : loc ∈ (σ.withLink keyId payload ⟨true, σ.home keyId⟩).chain
      ((σ.withLink keyId payload ⟨true, σ.home keyId⟩).home keyId)) :
    ((σ.withLink keyId payload ⟨true, σ.home keyId⟩).entry loc).1 ≠
      keyId &&& (σ.withLink keyId payload ⟨true, σ.home keyId⟩).mask := by
  rw [home_withLink, chain_firstAttempt hs, List.mem_singleton] at hl
  rw [hl, entry, mask_withLink, bucketAt_firstAttempt, RawBucket.keyHighBits_setNextBucketId]
  intro hk
  refine absurd ?_ (find_eq_nfound_iff.1 hnew)
  rw [entries, chain, size_of_flagged hs, List.map_map, ← hk]
  exact List.mem_singleton_self _

end Retry

end Rtp.Qed.Builder
