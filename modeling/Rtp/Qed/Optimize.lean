import Rtp.Qed.Append

/-!
# What `OptimizeFreeBucket` does

A node in the free table is copied to an unused managed bucket near its root, and its
parent is made to point to the copy.  Also on a table in which the size of a root has
overflowed, and free buckets are left behind that no chain leads to any more.

* `findParentFrom_spec` — the search finds the parent of a node of the chain.
* `findParentFrom_absent` — the search for the parent of a bucket that is on no chain:
  it finds none, or the last node of a chain.
* `moved` — the table afterwards; its chain is the old one with the node relabelled
  (`chain_moved`), so that the entries are the same (`entries_moved`) and the invariant
  is kept (`Movable.sound`).
* `Relocated` — what a call comes to: nothing, a copy that no chain leads to, or a copy
  that takes the place of the bucket; on a sound table not the second (`Relocated.sound`).
* `optimizeFreeBucket_wf` — **one call** returns and is `Relocated`; what is found is kept
  (`Relocated.find`).
-/

namespace Rtp.Qed.Builder

open Mask Assoc Chain
open Function (update update_self update_of_ne)

variable {σ τ : Builder}

/-! ## The parent of a node -/

/-- One node of the search, when it is what it should be. -/
theorem findParentFrom_succ {location a : Location} {n i : ℕ} (hb : σ.inBounds a)
    (hw : Walkable σ (n + 1) i a) :
    σ.findParentFrom location (n + 1) i a =
      if σ.next a = location then some a else σ.findParentFrom location n (i + 1) (σ.next a) := by
  have hok : ¬ ((i = 0 ∧ (σ.bucketAt a).size = 0#8) ∨ (i ≠ 0 ∧ (σ.bucketAt a).size ≠ 0#8)) := by
    rintro (⟨hi, hs⟩ | ⟨hi, hs⟩)
    · exact hw.size_eq_zero_iff.1 hs hi
    · exact hs (hw.size_eq_zero_iff.2 hi)
  rw [findParentFrom, bucketByLocation, if_pos hb]
  exact if_neg hok

/-- Along nodes inside the tables the search stops at a node that leads to the one looked for,
if that is the successor of any. -/
theorem findParentFrom_spec {location : Location} {n i : ℕ} {a : Location}
    (hb : ∀ l ∈ List.iterate σ.next a n, σ.inBounds l) (hw : Walkable σ n i a)
    (hmem : location ∈ List.iterate σ.next a n) (hne : location ≠ a) :
    ∃ x ∈ (List.iterate σ.next a n).dropLast,
      σ.findParentFrom location n i a = some x ∧ σ.next x = location := by
  induction n generalizing i a with
  | zero => simp [List.iterate] at hmem
  | succ n ih =>
    rw [iterate_succ] at hb hmem ⊢
    have hmem' := (List.mem_cons.1 hmem).resolve_left hne
    have hn : List.iterate σ.next (σ.next a) n ≠ [] := List.ne_nil_of_mem hmem'
    rw [List.dropLast_cons_of_ne_nil hn]
    rw [findParentFrom_succ (hb a (List.mem_cons_self ..)) hw]
    by_cases hnext : σ.next a = location
    · exact ⟨a, List.mem_cons_self .., if_pos hnext, hnext⟩
    · obtain ⟨x, hx, hfind, hxl⟩ := ih (fun l hl => hb l (List.mem_cons_of_mem _ hl)) hw.tail hmem'
        (Ne.symm hnext)
      exact ⟨x, List.mem_cons_of_mem _ hx, (if_neg hnext).trans hfind, hxl⟩

/-- The parent of a node of a chain is found. -/
theorem ChainOk.findParentFrom {h : BitVec 64} (hc : ChainOk σ h) {location : Location}
    (hmem : location ∈ σ.chain h) (hne : location ≠ ⟨true, h⟩) :
    ∃ x ∈ (σ.chain h).dropLast, σ.findParentFrom location (σ.bucketAt ⟨true, h⟩).size.toNat 0
      ⟨true, h⟩ = some x ∧ σ.next x = location :=
  findParentFrom_spec hc.bounds (walkable_chain hc.nodup hc.size) hmem hne

/-- Along nodes inside the tables none of which is the one looked for, the search finds
nothing or stops at the last node. -/
theorem findParentFrom_absent {location : Location} {n i : ℕ} {a : Location}
    (hb : ∀ l ∈ List.iterate σ.next a n, σ.inBounds l) (hw : Walkable σ n i a)
    (hmem : location ∉ List.iterate σ.next a n) :
    σ.findParentFrom location n i a = some ⟨true, allMask64⟩ ∨
      ∃ x, (List.iterate σ.next a n).getLast? = some x ∧
        σ.findParentFrom location n i a = some x ∧ σ.next x = location := by
  induction n generalizing i a with
  | zero => exact .inl rfl
  | succ n ih =>
    rw [iterate_succ] at hb hmem ⊢
    rw [findParentFrom_succ (hb a (List.mem_cons_self ..)) hw]
    by_cases hnext : σ.next a = location
    · rw [if_pos hnext]
      -- a successor inside the chain would be the one looked for
      cases n with
      | zero => exact .inr ⟨a, rfl, rfl, hnext⟩
      | succ n =>
        rw [iterate_succ, hnext] at hmem
        exact absurd (List.mem_cons_of_mem _ (List.mem_cons_self ..)) hmem
    · rw [if_neg hnext]
      refine (ih (fun l hl => hb l (List.mem_cons_of_mem _ hl)) hw.tail fun hl =>
        hmem (List.mem_cons_of_mem _ hl)).imp_right ?_
      rintro ⟨x, hx, hfind, hxl⟩
      refine ⟨x, ?_, hfind, hxl⟩
      rw [List.getLast?_cons, hx]
      rfl

/-! ## Moving a node -/

/-- The managed bucket `iter` is claimed for a root and the free bucket copied to it. -/
def copied (σ : Builder) (location : Location) (root iter : BitVec 64) : Builder :=
  (σ.setRootId ⟨true, iter⟩ root).setBucket ⟨true, iter⟩ (σ.bucketAt location)

/-- The table after a node has been moved to the managed bucket `iter`. -/
def moved (σ : Builder) (location parent : Location) (root iter : BitVec 64) : Builder :=
  ((σ.copied location root iter).setBucket parent
    ((σ.bucketAt parent).setNextBucketId σ.mask iter true)).setRootId location allMask64

variable {location parent : Location} {root iter : BitVec 64}

@[simp] theorem mask_copied : (σ.copied location root iter).mask = σ.mask := by simp [copied]

@[simp] theorem mask_moved : (σ.moved location parent root iter).mask = σ.mask := by
  simp [moved]

@[simp] theorem bucketType_moved :
    (σ.moved location parent root iter).bucketType = σ.bucketType := by
  simp [moved, copied]

@[simp] theorem freeIdCount_moved :
    (σ.moved location parent root iter).freeIdCount = σ.freeIdCount := by
  simp [moved, copied]

theorem bucketAt_copied : (σ.copied location root iter).bucketAt =
    update σ.bucketAt ⟨true, iter⟩ (σ.bucketAt location) := by
  simp [copied, bucketAt_setBucket]

theorem touches_copied (hunused : σ.rootIdAt ⟨true, iter⟩ = allMask64) :
    Touches iter σ (σ.copied location root iter) := by
  refine ⟨by simp [copied], by simp [copied], fun h' hh => ?_, fun l _ _ hall => ?_,
    fun l _ _ hall => ?_⟩
  · rw [bucketAt_copied, update_of_ne (by simpa using hh)]
  · have hl : l ≠ ⟨true, iter⟩ := by rintro rfl; exact hall hunused
    rw [bucketAt_copied, update_of_ne hl]
  · have hl : l ≠ ⟨true, iter⟩ := by rintro rfl; exact hall hunused
    rw [copied, rootIdAt_setBucket, rootIdAt_setRootId, update_of_ne hl]

theorem bucketAt_moved : (σ.moved location parent root iter).bucketAt =
    update (update σ.bucketAt ⟨true, iter⟩ (σ.bucketAt location)) parent
      ((σ.bucketAt parent).setNextBucketId σ.mask iter true) := by
  simp [moved, bucketAt_setBucket, bucketAt_copied]

theorem rootIdAt_moved : (σ.moved location parent root iter).rootIdAt =
    update (update σ.rootIdAt ⟨true, iter⟩ root) location allMask64 := by
  simp [moved, copied, rootIdAt_setRootId]

/-- A slot of the free table that is in use after a move is not the one that was moved. -/
theorem rootIdAt_moved_free {i : BitVec 64}
    (hr : (σ.moved location parent root iter).rootIdAt ⟨false, i⟩ ≠ allMask64) :
    (⟨false, i⟩ : Location) ≠ location ∧
      (σ.moved location parent root iter).rootIdAt ⟨false, i⟩ = σ.rootIdAt ⟨false, i⟩ := by
  rw [rootIdAt_moved] at hr ⊢
  have hloc : (⟨false, i⟩ : Location) ≠ location := by
    rintro rfl
    exact hr (update_self ..)
  rw [update_of_ne hloc, update_of_ne (by simp)]
  exact ⟨hloc, rfl⟩

variable {l : Location}

theorem bucketAt_moved_of_ne (hl : l ≠ ⟨true, iter⟩) (hp : l ≠ parent) :
    (σ.moved location parent root iter).bucketAt l = σ.bucketAt l := by
  rw [bucketAt_moved, update_of_ne hp, update_of_ne hl]

theorem size_moved (hl : l ≠ ⟨true, iter⟩) :
    ((σ.moved location parent root iter).bucketAt l).size = (σ.bucketAt l).size := by
  by_cases hp : l = parent
  · rw [hp, bucketAt_moved, update_self, RawBucket.size_setNextBucketId]
  · rw [bucketAt_moved_of_ne hl hp]

/-- The move touches the chain of the root only: both the node and its parent belong to
it, and the managed bucket belonged to none. -/
theorem touches_moved (hparent : σ.rootIdAt parent = root) (hlocation : σ.rootIdAt location = root)
    (hne : parent ≠ ⟨true, iter⟩) (hunused : σ.rootIdAt ⟨true, iter⟩ = allMask64)
    (hsize : (σ.bucketAt location).size = (σ.bucketAt ⟨true, iter⟩).size) :
    Touches root σ (σ.moved location parent root iter) := by
  refine ⟨bucketType_moved, by rw [freeIdCount_moved], fun h' _ => ?_, fun l _ hr hall => ?_,
    fun l _ hr hall => ?_⟩
  · by_cases hl : (⟨true, h'⟩ : Location) = ⟨true, iter⟩
    · rw [hl, bucketAt_moved, update_of_ne hne.symm, update_self, hsize]
    · exact size_moved hl
  · have hl : l ≠ ⟨true, iter⟩ := by rintro rfl; exact hall hunused
    have hp : l ≠ parent := by rintro rfl; exact hr hparent
    exact bucketAt_moved_of_ne hl hp
  · have hl : l ≠ ⟨true, iter⟩ := by rintro rfl; exact hall hunused
    have hloc : l ≠ location := by rintro rfl; exact hr hlocation
    rw [rootIdAt_moved, update_of_ne hloc, update_of_ne hl]

/-- What moving a node does to its place. -/
def relocate (location : Location) (iter : BitVec 64) (l : Location) : Location :=
  if l = location then ⟨true, iter⟩ else l

/-- The situation in which a node is moved: it is on the chain of its root, which is in
order, behind its parent, and the managed bucket is unused. -/
structure Movable (σ : Builder) (location parent : Location) (root iter : BitVec 64) : Prop where
  free : location.internal = false
  chain : ChainOk σ root
  root_bounds : σ.inBounds ⟨true, root⟩
  parent_mem : parent ∈ (σ.chain root).dropLast
  next : σ.next parent = location
  unused : σ.rootIdAt ⟨true, iter⟩ = allMask64
  iter_bounds : σ.inBounds ⟨true, iter⟩
  iter_size : (σ.bucketAt ⟨true, iter⟩).size = 0#8

namespace Movable

variable (hm : Movable σ location parent root iter)

include hm

theorem parent_mem_chain : parent ∈ σ.chain root := List.mem_of_mem_dropLast hm.parent_mem

theorem location_mem : location ∈ σ.chain root := hm.next ▸ mem_of_mem_dropLast hm.parent_mem

theorem ne_iter (hl : l ∈ σ.chain root) : l ≠ ⟨true, iter⟩ := by
  rintro rfl
  have hr := hm.chain.root _ hl
  rw [hm.unused] at hr
  exact σ.ne_allMask64 hm.root_bounds hr.symm

theorem ne_location {h : BitVec 64} : (⟨true, h⟩ : Location) ≠ location := by
  rintro rfl
  exact absurd hm.free (by simp)

theorem bucketAt_iter :
    (σ.moved location parent root iter).bucketAt ⟨true, iter⟩ = σ.bucketAt location := by
  rw [bucketAt_moved, update_of_ne (hm.ne_iter hm.parent_mem_chain).symm,
    update_self]

theorem entry_eq (hl : l ∈ σ.chain root) :
    (σ.moved location parent root iter).entry (relocate location iter l) = σ.entry l := by
  rw [entry, entry, mask_moved, relocate]
  by_cases hloc : l = location
  · rw [if_pos hloc, hm.bucketAt_iter, hloc]
  · rw [if_neg hloc]
    by_cases hp : l = parent
    · rw [hp, bucketAt_moved, update_self, RawBucket.keyHighBits_setNextBucketId]
      rfl
    · rw [bucketAt_moved_of_ne (hm.ne_iter hl) hp]

/-- Successors are relocated with the node. -/
theorem next_eq (hl : l ∈ (σ.chain root).dropLast) :
    (σ.moved location parent root iter).next (relocate location iter l) =
      relocate location iter (σ.next l) := by
  have hmem := List.mem_of_mem_dropLast hl
  rw [Builder.next, mask_moved, relocate]
  by_cases hloc : l = location
  · subst hloc
    rw [if_pos rfl, hm.bucketAt_iter, relocate, if_neg (next_ne_self hm.chain.nodup hl)]
    rfl
  · rw [if_neg hloc]
    by_cases hp : l = parent
    · rw [hp, bucketAt_moved, update_self, RawBucket.nextBucket_setNextBucketId, hm.next,
        relocate, if_pos rfl, (inBounds_managed_iff σ).1 hm.iter_bounds]
    · have hne : σ.next l ≠ location := fun h =>
        hp (eq_of_next_eq hm.chain.nodup hl hm.parent_mem (h.trans hm.next.symm))
      rw [bucketAt_moved_of_ne (hm.ne_iter hmem) hp, relocate, if_neg hne]
      rfl

/-- The size of the root is not changed. -/
theorem size_root : ((σ.moved location parent root iter).bucketAt ⟨true, root⟩).size =
    (σ.bucketAt ⟨true, root⟩).size := by
  refine size_moved (hm.ne_iter (σ.mem_chain_self fun h0 => ?_))
  have hmem := hm.location_mem
  rw [Builder.chain, h0] at hmem
  cases hmem

/-- **The chain afterwards** is the old one with the node relocated. -/
theorem chain_moved : (σ.moved location parent root iter).chain root =
    (σ.chain root).map (relocate location iter) := by
  have hroot : relocate location iter ⟨true, root⟩ = ⟨true, root⟩ := if_neg hm.ne_location
  have h := iterate_relabel (relocate location iter) fun l hl => hm.next_eq hl
  rw [hroot] at h
  rw [Builder.chain, hm.size_root]
  exact h

theorem entries_moved : (σ.moved location parent root iter).entries root = σ.entries root := by
  rw [entries, hm.chain_moved, List.map_map]
  exact List.map_congr_left fun l hl => hm.entry_eq hl

theorem location_size : (σ.bucketAt location).size = 0#8 :=
  hm.chain.size _ hm.location_mem hm.ne_location.symm

theorem touches : Touches root σ (σ.moved location parent root iter) :=
  touches_moved (hm.chain.root _ hm.parent_mem_chain) (hm.chain.root _ hm.location_mem)
    (hm.ne_iter hm.parent_mem_chain) hm.unused (hm.location_size.trans hm.iter_size.symm)

theorem chainOk : ChainOk (σ.moved location parent root iter) root := by
  have hch := hm.chain_moved
  refine ⟨⟨fun l hl => ?_, fun l hl => ?_, fun l hl hlr => ?_, ?_⟩, fun h₁ => ?_⟩
  · rw [hch, List.mem_map] at hl
    obtain ⟨l, hl, rfl⟩ := hl
    refine hm.touches.inBounds ?_
    rw [relocate]
    split
    · exact hm.iter_bounds
    · exact hm.chain.bounds l hl
  · rw [hch, List.mem_map] at hl
    obtain ⟨l, hl, rfl⟩ := hl
    rw [rootIdAt_moved, relocate]
    split
    · rw [update_of_ne hm.ne_location, update_self]
    · rename_i hloc
      rw [update_of_ne hloc, update_of_ne (hm.ne_iter hl), hm.chain.root l hl]
  · rw [hch, List.mem_map] at hl
    obtain ⟨l, hl, rfl⟩ := hl
    rw [relocate] at hlr ⊢
    split
    · rw [hm.bucketAt_iter, hm.location_size]
    · rename_i hloc
      rw [if_neg hloc] at hlr
      rw [size_moved (hm.ne_iter hl), hm.chain.size l hl hlr]
  · rw [hm.entries_moved]; exact hm.chain.keys
  · -- the chain has at least two nodes, the root and the one that is moved
    rw [hm.size_root] at h₁
    have hmem := hm.location_mem
    rw [Builder.chain, h₁] at hmem
    exact absurd (List.mem_singleton.1 hmem) hm.ne_location.symm

theorem sound (hσ : σ.Sound) : (σ.moved location parent root iter).Sound := by
  refine hm.touches.sound hσ ?_ hm.root_bounds hm.chainOk fun i hi hr => ?_
  · rw [freeIdCount_moved, hm.touches.capacity]; exact hσ.count_le
  · have hi' : σ.inBounds ⟨false, i⟩ := by simpa [inBounds] using hi
    obtain ⟨hloc, hroot⟩ := rootIdAt_moved_free hr
    rw [hroot] at hr ⊢
    by_cases hh : σ.rootIdAt ⟨false, i⟩ = root
    · have hold := (hσ.free i hi' hr).2
      rw [hh] at hold
      refine .inr ⟨hh, ?_⟩
      rw [hm.chain_moved]
      exact List.mem_map.2 ⟨_, hold, if_neg hloc⟩
    · exact .inl ⟨hi', hh, rfl⟩

end Movable

/-! ## A copy of a free bucket -/

/-- A free bucket that has a root, and an unused managed bucket. -/
structure Claimable (σ : Builder) (location : Location) (iter : BitVec 64) : Prop where
  free : location.internal = false
  bounds : σ.inBounds location
  root_ne : σ.rootIdAt location ≠ allMask64
  iter_bounds : σ.inBounds ⟨true, iter⟩
  iter_ne : iter ≠ σ.rootIdAt location
  unused : σ.rootIdAt ⟨true, iter⟩ = allMask64
  iter_size : (σ.bucketAt ⟨true, iter⟩).size = 0#8

namespace Claimable

variable (hc : Claimable σ location iter)

include hc

theorem touches_copied :
    Touches iter σ (σ.copied location (σ.rootIdAt location) iter) :=
  Builder.touches_copied hc.unused

theorem ne_location {h : BitVec 64} : (⟨true, h⟩ : Location) ≠ location := by
  rintro rfl
  exact absurd hc.free (by simp)

/-- In a sound table the bucket is on the chain of its root. -/
theorem mem_chain (hσ : σ.Sound) : location ∈ σ.chain (σ.rootIdAt location) := by
  obtain ⟨internal, i⟩ := location
  obtain rfl : internal = false := hc.free
  exact (hσ.free i hc.bounds hc.root_ne).2

theorem rootIdAt_copied :
    (σ.copied location (σ.rootIdAt location) iter).rootIdAt location = σ.rootIdAt location := by
  rw [copied, rootIdAt_setBucket, rootIdAt_setRootId, update_of_ne hc.ne_location.symm]

variable (hσ : σ.Wf)

include hσ

theorem root_bounds : σ.inBounds ⟨true, σ.rootIdAt location⟩ := by
  obtain ⟨internal, i⟩ := location
  obtain rfl : internal = false := hc.free
  exact hσ.free_root i hc.bounds hc.root_ne

theorem location_size : (σ.bucketAt location).size = 0#8 := by
  obtain ⟨internal, i⟩ := location
  obtain rfl : internal = false := hc.free
  exact hσ.free_size i hc.bounds hc.root_ne

theorem chainWf_root : ChainWf σ (σ.rootIdAt location) := hσ.chains _ (hc.root_bounds hσ)

/-- A chain that leads to the free bucket is more than a root alone. -/
theorem chainOk_root (hmem : location ∈ σ.chain (σ.rootIdAt location)) :
    ChainOk σ (σ.rootIdAt location) :=
  (hc.chainWf_root hσ).ok fun h₁ => by
    rw [chain, h₁] at hmem
    exact absurd (List.mem_singleton.1 hmem).symm hc.ne_location

theorem ne_iter {l : Location} (hl : l ∈ σ.chain (σ.rootIdAt location)) : l ≠ ⟨true, iter⟩ := by
  rintro rfl
  exact hc.root_ne (((hc.chainWf_root hσ).root _ hl).symm.trans hc.unused)

/-- The search in the table with the copy: it finds no parent, or one that leads to the
bucket.  A bucket of the chain has its parent there, any other one only the last node. -/
theorem findParent_copied (fuel : ℕ) :
    (location ∉ σ.chain (σ.rootIdAt location) ∧
      (σ.copied location (σ.rootIdAt location) iter).findParent location (fuel + 1) =
        .ok ⟨true, allMask64⟩) ∨
      ∃ parent, (σ.copied location (σ.rootIdAt location) iter).findParent location (fuel + 1) =
          .ok parent ∧ parent ∈ σ.chain (σ.rootIdAt location) ∧ σ.next parent = location ∧
        (parent ∈ (σ.chain (σ.rootIdAt location)).dropLast ∨
          (location ∉ σ.chain (σ.rootIdAt location) ∧
            (σ.chain (σ.rootIdAt location)).getLast? = some parent)) := by
  have hwf := hc.chainWf_root hσ
  have hrb := hc.root_bounds hσ
  have hne := hc.iter_ne.symm
  have ht := hc.touches_copied
  have hch := ht.chain hne hrb hwf
  have hwf' := ht.chainWf hne hrb hwf
  have hid : (σ.copied location (σ.rootIdAt location) iter).rootIdByLocation location =
      σ.rootIdAt location := by
    rw [rootIdByLocation, if_pos (ht.inBounds hc.bounds), hc.rootIdAt_copied]
  have hnext : ∀ x ∈ σ.chain (σ.rootIdAt location),
      (σ.copied location (σ.rootIdAt location) iter).next x = σ.next x := fun x hx => by
    rw [next, next, mask_copied, (ht.node hne hrb hwf hx).1]
  have hfound : ∀ x, (σ.copied location (σ.rootIdAt location) iter).findParentFrom location
      ((σ.copied location (σ.rootIdAt location) iter).bucketAt
        ⟨true, σ.rootIdAt location⟩).size.toNat 0 ⟨true, σ.rootIdAt location⟩ = some x →
      (σ.copied location (σ.rootIdAt location) iter).findParent location (fuel + 1) = .ok x :=
    fun _ hx => findParent_of_found hid hc.root_ne hx fuel
  by_cases hmem : location ∈ σ.chain (σ.rootIdAt location)
  · obtain ⟨x, hx, hfind, hxl⟩ := (ht.chainOk hne hrb (hc.chainOk_root hσ hmem)).findParentFrom
      (hch.symm ▸ hmem) hc.ne_location.symm
    rw [hch] at hx
    have hx' := List.mem_of_mem_dropLast hx
    exact .inr ⟨x, hfound x hfind, hx', (hnext x hx').symm.trans hxl, .inl hx⟩
  · rcases findParentFrom_absent hwf'.bounds (walkable_chain hwf'.nodup hwf'.size)
      (show location ∉ Builder.chain _ _ from hch.symm ▸ hmem) with hfind | ⟨x, hx, hfind, hxl⟩
    · exact .inl ⟨hmem, hfound _ hfind⟩
    · change (Builder.chain _ _).getLast? = some x at hx
      rw [hch] at hx
      have hx' := List.mem_of_getLast? hx
      exact .inr ⟨x, hfound x hfind, hx', (hnext x hx').symm.trans hxl, .inr ⟨hmem, hx⟩⟩

end Claimable

/-! ## A bucket that no chain leads to -/

/-- The last node of the chain of the root leads to the bucket, which is not on it. -/
structure Orphan (σ : Builder) (location parent : Location) (iter : BitVec 64) : Prop
    extends Claimable σ location iter where
  notMem : location ∉ σ.chain (σ.rootIdAt location)
  last : (σ.chain (σ.rootIdAt location)).getLast? = some parent

namespace Orphan

variable (ho : Orphan σ location parent iter) (hσ : σ.Wf)

include ho hσ

theorem parent_ne : parent ≠ ⟨true, iter⟩ :=
  ho.toClaimable.ne_iter hσ (List.mem_of_getLast? ho.last)

theorem touches :
    Touches (σ.rootIdAt location) σ (σ.moved location parent (σ.rootIdAt location) iter) :=
  touches_moved ((ho.chainWf_root hσ).root _ (List.mem_of_getLast? ho.last)) rfl
    (ho.parent_ne hσ) ho.unused ((ho.location_size hσ).trans ho.iter_size.symm)

/-- What the last node leads to does not matter. -/
theorem chain_moved : (σ.moved location parent (σ.rootIdAt location) iter).chain
    (σ.rootIdAt location) = σ.chain (σ.rootIdAt location) := by
  have hwf := ho.chainWf_root hσ
  have hsize : ((σ.moved location parent (σ.rootIdAt location) iter).bucketAt
      ⟨true, σ.rootIdAt location⟩).size = (σ.bucketAt ⟨true, σ.rootIdAt location⟩).size :=
    size_moved (by simpa using ho.iter_ne.symm)
  rw [chain, hsize]
  refine iterate_congr fun x hx => ?_
  have hmem := List.mem_of_mem_dropLast hx
  have hp : x ≠ parent := by
    rintro rfl
    have hnd := hwf.nodup
    rw [← List.dropLast_append_getLast? _ ho.last, List.nodup_append] at hnd
    exact hnd.2.2 _ hx _ (List.mem_singleton_self _) rfl
  rw [next, next, mask_moved, bucketAt_moved_of_ne (ho.ne_iter hσ hmem) hp]

theorem entries_moved : (σ.moved location parent (σ.rootIdAt location) iter).entries
    (σ.rootIdAt location) = σ.entries (σ.rootIdAt location) := by
  rw [entries, ho.chain_moved hσ, entries]
  refine List.map_congr_left fun l hl => ?_
  rw [entry, entry, mask_moved]
  by_cases hp : l = parent
  · rw [hp, bucketAt_moved, update_self, RawBucket.keyHighBits_setNextBucketId]
    rfl
  · rw [bucketAt_moved_of_ne (ho.ne_iter hσ hl) hp]

theorem chainWf_moved : ChainWf (σ.moved location parent (σ.rootIdAt location) iter)
    (σ.rootIdAt location) := by
  have hwf := ho.chainWf_root hσ
  refine ⟨?_, ?_, ?_, ?_⟩
  · rw [ho.chain_moved hσ]
    exact fun l hl => (ho.touches hσ).inBounds (hwf.bounds l hl)
  · rw [ho.chain_moved hσ]
    intro l hl
    have hloc : l ≠ location := by rintro rfl; exact ho.notMem hl
    rw [rootIdAt_moved, update_of_ne hloc, update_of_ne (ho.ne_iter hσ hl),
      hwf.root l hl]
  · rw [ho.chain_moved hσ]
    intro l hl hne
    rw [size_moved (ho.ne_iter hσ hl), hwf.size l hl hne]
  · rw [ho.entries_moved hσ]
    exact hwf.keys

end Orphan

/-! ## The whole call -/

/-- **The parent is made to point to the copy.**  A parent that leads to the bucket in the
free table has a clear flag and the number of that bucket, so that no check fails. -/
theorem relink_of_parent (hin : σ.inBounds parent) (hid : parent.id ≠ allMask64)
    (hne : parent ≠ ⟨true, iter⟩) (hnext : σ.next parent = location)
    (hfree : location.internal = false) (hunused : σ.rootIdAt ⟨true, iter⟩ = allMask64)
    {fuel : ℕ} (hfind : (σ.copied location root iter).findParent location fuel = .ok parent) :
    (σ.copied location root iter).relink location iter fuel =
      .ok (true, σ.moved location parent root iter) := by
  have hbucket : (σ.copied location root iter).bucketAt parent = σ.bucketAt parent := by
    rw [bucketAt_copied, update_of_ne hne]
  have hin' : (σ.copied location root iter).inBounds parent :=
    (touches_copied hunused).inBounds hin
  have hflag : (σ.bucketAt parent).sizeField &&& sizeFieldHiMask = 0#8 := by
    have h := congrArg Location.internal hnext
    rw [hfree] at h
    simpa [next, RawBucket.nextBucket, RawBucket.nextBucketIsInternal] using h
  have hlow : (σ.bucketAt parent).keyInfoField &&& ~~~σ.mask = location.id :=
    congrArg Location.id hnext
  rw [relink, hfind]
  simp only [if_neg hid, bucketByLocation, if_pos hin', hbucket, hflag, mask_copied, hlow,
    ne_eq, not_true_eq_false, if_false]
  rw [casSizeField_of_eq _ (by rw [hbucket])]
  simp only [hbucket, mask_setBucket, mask_copied, setBucket_setBucket, bucketAt_setBucket,
    update_self]
  rfl

/-- The search for an unused managed bucket, inside the table: it finds none, or the free
bucket is copied to the one it finds. -/
theorem optimizeFrom_cases (hb : σ.inBounds location) {n : ℕ}
    (hn : n ≠ 0 → iter.toNat + n ≤ σ.capacity.toNat) (fuel : ℕ) :
    σ.optimizeFrom location root fuel n iter = .ok (false, σ) ∨
      ∃ iter', σ.inBounds ⟨true, iter'⟩ ∧ iter' ≠ root ∧
        σ.rootIdAt ⟨true, iter'⟩ = allMask64 ∧ (σ.bucketAt ⟨true, iter'⟩).size = 0#8 ∧
        σ.optimizeFrom location root fuel n iter =
          (σ.copied location root iter').relink location iter' fuel := by
  induction n generalizing iter with
  | zero => exact .inl rfl
  | succ n ih =>
    have hcap := σ.capacity_lt
    have hlt := hn (Nat.succ_ne_zero n)
    have hnext : (iter + 1).toNat = iter.toNat + 1 := by
      rw [BitVec.toNat_add]
      exact Nat.mod_eq_of_lt (by simp; omega)
    have hiter : σ.inBounds ⟨true, iter⟩ := by
      simp only [inBounds, BitVec.ult, if_true, decide_eq_true_eq]
      omega
    rw [optimizeFrom]
    by_cases hskip : iter = root ∨ σ.rootIdByLocation ⟨true, iter⟩ ≠ allMask64 ∨
        (σ.managedBucket iter).size ≠ 0#8
    · rw [if_pos hskip]
      exact @ih (iter + 1) fun _ => by omega
    · rw [if_neg hskip]
      rw [not_or, not_or, not_not, not_not] at hskip
      obtain ⟨hne, hid, hsize⟩ := hskip
      rw [rootIdByLocation, if_pos hiter] at hid
      refine .inr ⟨iter, hiter, hne, hid, hsize, ?_⟩
      rw [hid, compareAndSwap_self, bucketByLocation, if_pos hb]
      rfl

theorem toNat_min_le (a c : BitVec 64) : (if a.ult c then a else c).toNat ≤ c.toNat := by
  split
  · rename_i h
    simp only [BitVec.ult, decide_eq_true_eq] at h
    exact h.le
  · exact le_refl _

/-- A call changes nothing, or copies a free bucket that has a root to an unused managed
one. -/
theorem optimizeFreeBucket_cases (σ : Builder) (location : Location) (level : BitVec 8)
    (fuel : ℕ) :
    σ.optimizeFreeBucket location level fuel = .ok (false, σ) ∨
      (σ.inBounds location ∧ location.internal = false ∧ σ.rootIdAt location ≠ allMask64 ∧
        ∃ iter, σ.inBounds ⟨true, iter⟩ ∧ iter ≠ σ.rootIdAt location ∧
          σ.rootIdAt ⟨true, iter⟩ = allMask64 ∧ (σ.bucketAt ⟨true, iter⟩).size = 0#8 ∧
          σ.optimizeFreeBucket location level fuel =
            (σ.copied location (σ.rootIdAt location) iter).relink location iter fuel) := by
  rw [optimizeFreeBucket]
  by_cases hfree : location.internal
  · rw [if_pos hfree]
    exact .inl rfl
  · rw [if_neg hfree]
    by_cases hroot : σ.rootIdByLocation location = allMask64
    · simp only [hroot, if_true]
      exact .inl trivial
    · have hb : σ.inBounds location := by
        by_contra hb
        rw [rootIdByLocation, if_neg hb] at hroot
        exact hroot rfl
      have hid : σ.rootIdByLocation location = σ.rootIdAt location := if_pos hb
      simp only [hroot, if_false]
      rw [hid] at hroot ⊢
      refine (optimizeFrom_cases hb (fun hn => ?_) fuel).imp_right fun h =>
        ⟨hb, by simpa using hfree, hroot, h⟩
      have hend := toNat_min_le ((σ.rootIdAt location &&& allMask64 <<< 2) + 4 +
        level.setWidth 64 * 4) σ.capacity
      omega

/-- What a call of `OptimizeFreeBucket` comes to. -/
inductive Relocated (σ : Builder) (location : Location) : Bool → Builder → Prop
  | failed : Relocated σ location false σ
  | copied (iter : BitVec 64) (hc : Claimable σ location iter)
      (hnot : location ∉ σ.chain (σ.rootIdAt location)) :
      Relocated σ location false (σ.copied location (σ.rootIdAt location) iter)
  | moved (parent : Location) (iter : BitVec 64)
      (hm : Movable σ location parent (σ.rootIdAt location) iter) :
      Relocated σ location true (σ.moved location parent (σ.rootIdAt location) iter)
  | orphan (parent : Location) (iter : BitVec 64) (ho : Orphan σ location parent iter) :
      Relocated σ location true (σ.moved location parent (σ.rootIdAt location) iter)

/-- **One call of `OptimizeFreeBucket`.** -/
theorem optimizeFreeBucket_wf (hσ : σ.Wf) (location : Location) (level : BitVec 8) (fuel : ℕ) :
    ∃ r τ, σ.optimizeFreeBucket location level (fuel + 1) = .ok (r, τ) ∧
      Relocated σ location r τ := by
  rcases σ.optimizeFreeBucket_cases location level (fuel + 1) with
    hok | ⟨hb, hfree, hroot, iter, hiter, hne, hunused, hsize, hok⟩
  · exact ⟨false, σ, hok, .failed⟩
  have hc : Claimable σ location iter := ⟨hfree, hb, hroot, hiter, hne, hunused, hsize⟩
  have hwf := hc.chainWf_root hσ
  rcases hc.findParent_copied hσ fuel with ⟨hnot, hfind⟩ | ⟨parent, hfind, hmem, hnext, hplace⟩
  · -- without a parent the copy stays where it is
    refine ⟨false, _, hok.trans ?_, .copied iter hc hnot⟩
    rw [relink, hfind]
    exact if_pos rfl
  · have hin := hwf.bounds parent hmem
    have hlink := relink_of_parent hin (id_ne_allMask64 hσ.count_le hin) (hc.ne_iter hσ hmem) hnext
      hfree hunused hfind
    refine ⟨true, _, hok.trans hlink, ?_⟩
    rcases hplace with hdrop | ⟨hnot, hlast⟩
    · have hloc : location ∈ σ.chain (σ.rootIdAt location) := by
        have h := mem_of_mem_dropLast hdrop
        rwa [hnext] at h
      exact .moved parent iter ⟨hfree, hc.chainOk_root hσ hloc, hc.root_bounds hσ, hdrop, hnext,
        hunused, hiter, hsize⟩
    · exact .orphan parent iter ⟨hc, hnot, hlast⟩

section Relocated

variable {r : Bool}

theorem Relocated.bucketType (h : Relocated σ location r τ) : τ.bucketType = σ.bucketType := by
  cases h with
  | failed => rfl
  | copied => simp [Builder.copied]
  | moved | orphan => exact bucketType_moved

/-- **The entries of every home slot are kept.** -/
theorem Relocated.entries (h : Relocated σ location r τ) (hσ : σ.Wf) {h' : BitVec 64}
    (hb : σ.inBounds ⟨true, h'⟩) : τ.entries h' = σ.entries h' := by
  have hwf := hσ.chains h' hb
  cases h with
  | failed => rfl
  | copied iter hc _ =>
    by_cases hne : h' = iter
    · -- the slot of the copy is the root of an empty chain before and after
      have hsize : ((σ.copied location (σ.rootIdAt location) iter).bucketAt ⟨true, iter⟩).size =
          0#8 := by
        rw [bucketAt_copied, update_self, hc.location_size hσ]
      rw [hne, Builder.entries, Builder.entries, chain, chain, hsize, hc.iter_size]
      rfl
    · exact hc.touches_copied.entries hne hb hwf
  | moved parent iter hm =>
    by_cases hne : h' = σ.rootIdAt location
    · rw [hne, hm.entries_moved]
    · exact hm.touches.entries hne hb hwf
  | orphan parent iter ho =>
    by_cases hne : h' = σ.rootIdAt location
    · rw [hne, ho.entries_moved hσ]
    · exact (ho.touches hσ).entries hne hb hwf

/-- **What is found is kept.** -/
theorem Relocated.find (h : Relocated σ location r τ) (hσ : σ.Wf) (k : BitVec 64) :
    τ.find k = σ.find k := by
  have hm : τ.mask = σ.mask := by rw [mask, mask, h.bucketType]
  have hh : τ.home k = σ.home k := by rw [home, home, hm]
  rw [find_eq, find_eq, hm, hh, h.entries hσ (σ.inBounds_home k)]

/-- The move keeps the invariant when it leaves the chain of the root in order. -/
theorem wf_moved {root : BitVec 64} (hσ : σ.Wf)
    (ht : Touches root σ (σ.moved location parent root iter))
    (hc : ChainWf (σ.moved location parent root iter) root) :
    (σ.moved location parent root iter).Wf := by
  refine ht.wf hσ ?_ hc fun i hi hr => ?_
  · rw [freeIdCount_moved, ht.capacity]; exact hσ.count_le
  · have hi' : σ.inBounds ⟨false, i⟩ := by simpa [inBounds] using hi
    have hroot := (rootIdAt_moved_free hr).2
    rw [hroot] at hr ⊢
    rw [size_moved (by simp)]
    exact ⟨hσ.free_size i hi' hr, hσ.free_root i hi' hr⟩

/-- **A call keeps the invariant.** -/
theorem Relocated.wf (h : Relocated σ location r τ) (hσ : σ.Wf) : τ.Wf := by
  cases h with
  | failed => exact hσ
  | copied iter hc _ =>
    have ht := hc.touches_copied
    have hcount : (σ.copied location (σ.rootIdAt location) iter).freeIdCount = σ.freeIdCount := by
      simp [Builder.copied]
    refine ht.wf hσ (by rw [hcount, ht.capacity]; exact hσ.count_le) (chainWf_of_size ?_)
      fun i hi hr => ?_
    · rw [bucketAt_copied, update_self, hc.location_size hσ]
    · have hi' : σ.inBounds ⟨false, i⟩ := by simpa [inBounds, hcount] using hi
      rw [Builder.copied, rootIdAt_setBucket, rootIdAt_setRootId,
        update_of_ne (by simp)] at hr ⊢
      rw [bucketAt_setBucket, update_of_ne (by simp), bucketAt_setRootId]
      exact ⟨hσ.free_size i hi' hr, hσ.free_root i hi' hr⟩
  | moved parent iter hm => exact wf_moved hσ hm.touches hm.chainOk.wf
  | orphan parent iter ho => exact wf_moved hσ (ho.touches hσ) (ho.chainWf_moved hσ)

theorem Relocated.sound (h : Relocated σ location r τ) (hσ : σ.Sound) : τ.Sound := by
  cases h with
  | failed => exact hσ
  | copied iter hc hnot => exact absurd (hc.mem_chain hσ) hnot
  | moved parent iter hm => exact hm.sound hσ
  | orphan parent iter ho => exact absurd (ho.mem_chain hσ) ho.notMem

end Relocated

end Rtp.Qed.Builder
