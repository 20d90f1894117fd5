import Rtp.Qed.WellFormed

/-!
# The tables between two stores

What a reader finds in the tables an `Insert` goes through.  There are two kinds: those in
which a new node is filled in and linked and not yet counted, and those in which an empty
home slot has been claimed.

* `Readable.findVolatile_eq` — on a table that does not change meanwhile, the volatile read
  makes no difference.
* `Agrees` — **a node that is not counted is not seen**: stores to the next free
  bucket and to what the last node leads to change nothing that is found.
* `find_claimed` — **a claimed slot is seen at once**, with the key and the payload that
  are in it.
-/

namespace Rtp.Qed.Builder

open Mask Assoc Chain
open Function (update update_self update_of_ne)

variable {σ ρ : Builder} {keyId payload : BitVec 64}

/-! ## The volatile read -/

/-- `HashTable::Find` with the volatile read, on the tables being built. -/
def findVolatile (σ : Builder) (keyId : BitVec 64) (fuel : ℕ) : Option (BitVec 64) :=
  σ.hashTable.findVolatile keyId fuel

/-- A table whose chains have no repetitions and no size except at their roots. -/
structure Readable (σ : Builder) : Prop where
  nodup : ∀ h, σ.inBounds ⟨true, h⟩ → (σ.chain h).Nodup
  size : ∀ h, σ.inBounds ⟨true, h⟩ → ∀ l ∈ σ.chain h, l ≠ ⟨true, h⟩ → (σ.bucketAt l).size = 0#8

theorem Wf.readable (hσ : σ.Wf) : σ.Readable :=
  ⟨fun h hb => (hσ.chains h hb).nodup, fun h hb => (hσ.chains h hb).size⟩

theorem findVolatileFrom_eq {keyHighBits : BitVec 64} {n i : ℕ} {a : Location}
    (hw : Walkable σ n i a) :
    σ.hashTable.findVolatileFrom keyHighBits n i a =
      some (σ.hashTable.findFrom keyHighBits n a) := by
  induction n generalizing i a with
  | zero => rfl
  | succ n ih =>
    have hok : ¬ (((σ.bucketAt a).size = 0#8 ∧ i = 0) ∨ ((σ.bucketAt a).size ≠ 0#8 ∧ i ≠ 0)) := by
      rintro (⟨hs, hi⟩ | ⟨hs, hi⟩)
      · exact hw.size_eq_zero_iff.1 hs hi
      · exact hs (hw.size_eq_zero_iff.2 hi)
    rw [HashTable.findVolatileFrom, HashTable.findFrom]
    split
    · exact if_neg hok
    · exact ih hw.tail

/-- The first round of the volatile read comes to an end. -/
theorem Readable.findVolatileFrom_home (hσ : σ.Readable) (k : BitVec 64) :
    σ.hashTable.findVolatileFrom (k &&& σ.mask) (σ.bucketAt ⟨true, σ.home k⟩).size.toNat 0
      ⟨true, σ.home k⟩ =
    some (σ.hashTable.findFrom (k &&& σ.mask) (σ.bucketAt ⟨true, σ.home k⟩).size.toNat
      ⟨true, σ.home k⟩) :=
  findVolatileFrom_eq
    (walkable_chain (hσ.nodup _ (σ.inBounds_home k)) (hσ.size _ (σ.inBounds_home k)))

/-- **The two readers agree** on a table that does not change meanwhile. -/
theorem Readable.findVolatile_eq (hσ : σ.Readable) (k : BitVec 64) (fuel : ℕ) :
    σ.findVolatile k (fuel + 1) = some (σ.find k) := by
  have hfirst := σ.hashTable.findVolatile_of_found fuel (hσ.findVolatileFrom_home k)
  rw [findVolatile, hfirst, find_eq, findFrom_eq]
  rfl

/-! ## A node that is not counted yet -/

/-- A table that differs only in the next free bucket, and in what the node `last` leads
to. -/
structure Agrees (σ : Builder) (last : Location) (ρ : Builder) : Prop where
  bucketType : ρ.bucketType = σ.bucketType
  size : ∀ l, l ≠ σ.slot → (ρ.bucketAt l).size = (σ.bucketAt l).size
  entry : ∀ l, l ≠ σ.slot → ρ.entry l = σ.entry l
  next : ∀ l, l ≠ σ.slot → l ≠ last → ρ.next l = σ.next l

section Agrees

variable {last : Location}

theorem Agrees.mask (h : Agrees σ last ρ) : ρ.mask = σ.mask := by
  rw [Builder.mask, Builder.mask, h.bucketType]

theorem agrees_self (σ : Builder) (last : Location) : Agrees σ last σ :=
  ⟨rfl, fun _ _ => rfl, fun _ _ => rfl, fun _ _ _ => rfl⟩

/-- A write that keeps the size, the key and the payload, except at the next free
bucket. -/
theorem Agrees.setBucket (h : Agrees σ last ρ) {loc : Location} {b : RawBucket}
    (hloc : loc = σ.slot ∨ loc = last ∧ b.size = (σ.bucketAt last).size ∧
      (b.keyHighBits σ.mask, b.payload) = σ.entry last) : Agrees σ last (ρ.setBucket loc b) := by
  refine ⟨(ρ.bucketType_setBucket _ _).trans h.bucketType, fun l hl => ?_, fun l hl => ?_,
    fun l hl hne => ?_⟩
  · rw [bucketAt_setBucket]
    by_cases he : l = loc
    · obtain ⟨rfl, hs, -⟩ := hloc.resolve_left (he ▸ hl)
      rw [he, update_self, hs]
    · rw [update_of_ne he, h.size l hl]
  · rw [Builder.entry, bucketAt_setBucket, mask_setBucket]
    by_cases he : l = loc
    · obtain ⟨rfl, -, hentry⟩ := hloc.resolve_left (he ▸ hl)
      rw [he, update_self, h.mask, hentry]
    · rw [update_of_ne he]
      exact h.entry l hl
  · have he : l ≠ loc := fun he => hloc.elim (fun h => hl (he.trans h)) fun h => hne (he.trans h.1)
    rw [Builder.next, bucketAt_setBucket, mask_setBucket, update_of_ne he]
    exact h.next l hl hne

theorem Agrees.apply (h : Agrees σ last ρ) (hne : last ≠ σ.slot) {s : Store}
    (hs : Hidden σ last s) : Agrees σ last (s.apply ρ) := by
  have hentry := h.entry last hne
  rw [Builder.entry, h.mask] at hentry
  cases s with
  | sizeField loc value =>
    refine h.setBucket (hs.imp_right fun hs => ?_)
    obtain ⟨rfl, hv⟩ := hs
    exact ⟨rfl, hv, hentry⟩
  | keyInfoField loc value =>
    refine h.setBucket (hs.imp_right fun hs => ?_)
    obtain ⟨rfl, hv⟩ := hs
    refine ⟨rfl, h.size _ hne, ?_⟩
    rw [← hentry]
    refine Prod.ext ?_ rfl
    rw [RawBucket.keyHighBits, hv, ← hentry]
  | payload loc value => exact h.setBucket (Or.inl hs)
  | rootId loc value =>
    refine ⟨(ρ.bucketType_setRootId _ _).trans h.bucketType, fun l hl => ?_, fun l hl => ?_,
      fun l hl hne => ?_⟩
    · rw [Store.apply, bucketAt_setRootId]; exact h.size l hl
    · rw [Store.apply, Builder.entry, bucketAt_setRootId, mask_setRootId]; exact h.entry l hl
    · rw [Store.apply, Builder.next, bucketAt_setRootId, mask_setRootId]; exact h.next l hl hne
  | freeIdCount value => exact ⟨h.bucketType, h.size, h.entry, h.next⟩

/-- **Hidden stores**, one after another, leave everything as it is found. -/
theorem Agrees.after (hne : last ≠ σ.slot) {stores : List Store}
    (hs : ∀ s ∈ stores, Hidden σ last s) (h : Agrees σ last ρ) :
    Agrees σ last (ρ.after stores) := by
  induction stores generalizing ρ with
  | nil => exact h
  | cons s stores ih =>
    exact ih (fun s' hs' => hs s' (List.mem_cons_of_mem _ hs'))
      (h.apply hne (hs s (List.mem_cons_self ..)))

variable (hσ : σ.Wf) (hlast : (σ.chain (σ.home keyId)).getLast? = some last)
  (h : Agrees σ last ρ)

include hσ hlast h

/-- What the last node of a chain leads to is not part of any chain. -/
theorem Agrees.chain {h' : BitVec 64} (hb : σ.inBounds ⟨true, h'⟩) :
    ρ.chain h' = σ.chain h' := by
  have hwf := hσ.chains h' hb
  have hhome := hσ.chains _ (σ.inBounds_home keyId)
  rw [Builder.chain, h.size _ (root_ne_slot h')]
  refine iterate_congr fun l hl => h.next l ?_ ?_
  · rintro rfl
    exact σ.not_inBounds_slot (hwf.bounds _ (List.mem_of_mem_dropLast hl))
  · rintro rfl
    obtain rfl : h' = σ.home keyId :=
      (hwf.root _ (List.mem_of_mem_dropLast hl)).symm.trans
        (hhome.root _ (List.mem_of_getLast? hlast))
    have hnd := hwf.nodup
    rw [← List.dropLast_append_getLast? _ hlast, List.nodup_append] at hnd
    exact hnd.2.2 _ hl _ (List.mem_singleton_self _) rfl

theorem Agrees.ne_slot {h' : BitVec 64} (hb : σ.inBounds ⟨true, h'⟩) {l : Location}
    (hl : l ∈ ρ.chain h') : l ≠ σ.slot := by
  rw [h.chain hσ hlast hb] at hl
  rintro rfl
  exact σ.not_inBounds_slot ((hσ.chains h' hb).bounds _ hl)

theorem Agrees.find (k : BitVec 64) : ρ.find k = σ.find k := by
  have hb := σ.inBounds_home k
  have hhome : ρ.home k = σ.home k := by rw [home, home, h.mask]
  rw [find_eq, find_eq, h.mask, hhome, entries, entries]
  rw [List.map_congr_left fun l hl => h.entry l (h.ne_slot hσ hlast hb hl), h.chain hσ hlast hb]

theorem Agrees.readable : ρ.Readable := by
  have hbounds : ∀ h', ρ.inBounds ⟨true, h'⟩ = σ.inBounds ⟨true, h'⟩ := fun h' => by
    simp [inBounds, capacity, h.bucketType]
  refine ⟨fun h' hb => ?_, fun h' hb l hl hne => ?_⟩
  · rw [hbounds] at hb
    rw [h.chain hσ hlast hb]
    exact (hσ.chains h' hb).nodup
  · rw [hbounds] at hb
    rw [h.size l (h.ne_slot hσ hlast hb hl)]
    rw [h.chain hσ hlast hb] at hl
    exact (hσ.chains h' hb).size l hl hne

end Agrees

/-! ## A home slot that has been claimed -/

section Claimed

variable {bucket : RawBucket} (hσ : σ.Wf)
  (hroot : σ.rootIdAt ⟨true, σ.home keyId⟩ = allMask64 ∨
    σ.rootIdAt ⟨true, σ.home keyId⟩ = σ.home keyId)
  (htype : ρ.bucketType = σ.bucketType)
  (hat : ρ.bucketAt = update σ.bucketAt ⟨true, σ.home keyId⟩ bucket)
  (hsize : bucket.size = 1#8)

include hσ hroot hat

/-- The nodes of the other chains are as they were. -/
theorem bucketAt_claimed {h : BitVec 64} (hb : σ.inBounds ⟨true, h⟩) (hne : h ≠ σ.home keyId)
    {l : Location} (hl : l ∈ σ.chain h) : ρ.bucketAt l = σ.bucketAt l := by
  rw [hat, update_of_ne]
  rintro rfl
  have hr := (hσ.chains h hb).root _ hl
  rcases hroot with h0 | h0
  · exact σ.ne_allMask64 hb (hr.symm.trans h0)
  · exact hne (hr.symm.trans h0)

omit hσ hroot in
theorem size_claimed_of_ne {h : BitVec 64} (hne : h ≠ σ.home keyId) :
    (ρ.bucketAt ⟨true, h⟩).size = (σ.bucketAt ⟨true, h⟩).size := by
  rw [hat, update_of_ne (by simpa using hne)]

omit hσ hroot in
include hsize in
theorem chain_claimed : ρ.chain (σ.home keyId) = [⟨true, σ.home keyId⟩] := by
  rw [chain, hat, update_self, hsize]
  rfl

include htype hsize

/-- **A claimed slot is visible**, with the key and the payload that are in it. -/
theorem find_claimed (k : BitVec 64) :
    ρ.find k = if σ.home k = σ.home keyId then
      (if bucket.keyHighBits σ.mask = k &&& σ.mask then bucket.payload.setWidth 64
        else hashtableNFound)
      else σ.find k := by
  have hmask : ρ.mask = σ.mask := by rw [mask, mask, htype]
  have hhome : ρ.home k = σ.home k := by rw [home, home, hmask]
  rw [find_eq, hmask, hhome]
  split
  · rename_i hk
    have hroot : ρ.entry ⟨true, σ.home keyId⟩ = (bucket.keyHighBits σ.mask, bucket.payload) := by
      rw [entry, hmask, hat, update_self]
    rw [hk, entries, chain_claimed hat hsize, List.map_singleton, hroot, lookup_cons_eq]
    split <;> rfl
  · rename_i hk
    have hb := σ.inBounds_home k
    rw [find_eq, entries_congr hmask (size_claimed_of_ne hat hk) fun l hl =>
      bucketAt_claimed hσ hroot hat hb hk hl]

theorem readable_claimed : ρ.Readable := by
  have hmask : ρ.mask = σ.mask := by rw [mask, mask, htype]
  have hbounds : ∀ h, ρ.inBounds ⟨true, h⟩ = σ.inBounds ⟨true, h⟩ := fun h => by
    simp [inBounds, capacity, htype]
  have hchain : ∀ h, σ.inBounds ⟨true, h⟩ → h ≠ σ.home keyId → ρ.chain h = σ.chain h :=
    fun h hb hne => chain_congr hmask (size_claimed_of_ne hat hne) fun l hl =>
      bucketAt_claimed hσ hroot hat hb hne hl
  refine ⟨fun h hb => ?_, fun h hb l hl hl' => ?_⟩
  · rw [hbounds] at hb
    by_cases hne : h = σ.home keyId
    · rw [hne, chain_claimed hat hsize]
      exact List.nodup_singleton _
    · rw [hchain h hb hne]
      exact (hσ.chains h hb).nodup
  · rw [hbounds] at hb
    by_cases hne : h = σ.home keyId
    · rw [hne, chain_claimed hat hsize, List.mem_singleton] at hl
      exact absurd (hne ▸ hl) hl'
    · rw [hchain h hb hne] at hl
      rw [bucketAt_claimed hσ hroot hat hb hne hl]
      exact (hσ.chains h hb).size l hl hl'

end Claimed

end Rtp.Qed.Builder
