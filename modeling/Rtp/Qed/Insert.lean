import Rtp.Qed.InsertStores

/-!
# What `Insert` does to a sound table

On a sound table, and for a key whose home slot is not occupied by a node of another
chain, `Insert` never calls itself again: it makes the key the root of its empty home
slot, replaces the payload of the key's node, appends a node to the chain, or fails
and changes nothing.

* `insert_cases` — **one call**: it fails and the table is what it was, or it is one of the
  three ways of `Inserted`.
* `Inserted.stores`, `Inserted.sound` — the table stays sound and the change is `Stores`.
  The hypothesis `¬ Overflows` excludes the one call that breaks the table, and
  `Inserted.find_of_overflows` is what that call does.
-/

namespace Rtp.Qed.Builder

open Mask Assoc Chain

variable {σ : Builder} {keyId payload : BitVec 64}

/-! ## The whole call -/

/-- The ways a key is stored in a table. -/
inductive Inserted (σ : Builder) (keyId payload : BitVec 64) : Location → Builder → Prop
  | fill (hsize : (σ.bucketAt ⟨true, σ.home keyId⟩).size = 0#8)
      (hroot : σ.rootIdAt ⟨true, σ.home keyId⟩ = allMask64) :
      Inserted σ keyId payload ⟨true, σ.home keyId⟩ (σ.filled keyId payload)
  | overwrite (loc : Location) (hl : loc ∈ σ.chain (σ.home keyId))
      (hk : (σ.entry loc).1 = keyId &&& σ.mask) :
      Inserted σ keyId payload loc (σ.overwritten loc (payload.setWidth 56))
  | append (last : Location) (hlast : (σ.chain (σ.home keyId)).getLast? = some last)
      (hfree : σ.freeIdCount.ult σ.capacity)
      (hflag : (σ.bucketAt ⟨true, σ.home keyId⟩).sizeField ≠ 0xFF#8)
      (hnew : σ.find keyId = hashtableNFound) :
      Inserted σ keyId payload σ.slot (σ.appended keyId payload last)

/-- **One call of `Insert`** on a sound table, for a key whose home slot is not occupied
by a node of another chain: it fails, for the two reasons there are, and changes nothing,
or it stores the key in one of the three ways.  It does not call itself again. -/
theorem insert_cases (hσ : σ.Sound) (hocc : ¬ σ.Occupied keyId) (payload : BitVec 64)
    (fuel : ℕ) :
    (insert (fuel + 1) keyId payload allMask64 σ = .ok (notInserted, σ) ∧
      ((σ.bucketAt ⟨true, σ.home keyId⟩).sizeField = 0xFF#8 ∨ ¬ σ.freeIdCount.ult σ.capacity)) ∨
      ∃ loc τ, insert (fuel + 1) keyId payload allMask64 σ = .ok (loc, τ) ∧
        Inserted σ keyId payload loc τ := by
  have hc := hσ.chains _ (σ.inBounds_home keyId)
  have hflag : (σ.bucketAt ⟨true, σ.home keyId⟩).sizeField = 0x81#8 → fuel ≠ 0 := fun hflag => by
    have hone := hc.single (size_of_flagged hflag)
    rw [hflag] at hone
    exact absurd hone (by decide)
  obtain ⟨loc, stores, hok, ht, hnil⟩ :=
    insertStores_cases hσ.count_le hc.wf (fun h => hocc ⟨h.1, h.2.1⟩) payload hflag
  have hins := insert_of_insertStores hok
  cases ht with
  | refused => exact .inl ⟨hins, hnil rfl⟩
  | revived hs hr =>
    refine absurd ⟨hs, ?_⟩ hocc
    rw [hr]
    exact σ.ne_allMask64 (σ.inBounds_home keyId)
  | filled hs hroot => exact .inr ⟨_, _, after_filled ▸ hins, .fill hs hroot⟩
  | overwritten _ hl hk => exact .inr ⟨_, _, hins, .overwrite loc hl hk⟩
  | appended last _ _ hlast hfree hflag hnew _ htable =>
    exact .inr ⟨_, _, htable ▸ hins, .append last hlast hfree hflag hnew⟩

section Inserted

variable {loc : Location} {τ : Builder}

/-- A successful call does not return the number that stands for failure. -/
theorem Inserted.id_ne_nfound (h : Inserted σ keyId payload loc τ) (hσ : σ.Sound) :
    loc.id ≠ hashtableNFound := by
  have hc := hσ.chains _ (σ.inBounds_home keyId)
  cases h with
  | fill => exact hσ.id_ne_allMask64 (σ.inBounds_home keyId)
  | overwrite _ hl => exact hσ.id_ne_allMask64 (hc.bounds _ hl)
  | append last hlast hfree => exact σ.ne_allMask64 (by simpa [inBounds, slot] using hfree)

theorem size_lt_of_not_overflows (hover : ¬ σ.Overflows keyId)
    (hfree : σ.freeIdCount.ult σ.capacity)
    (hflag : (σ.bucketAt ⟨true, σ.home keyId⟩).sizeField ≠ 0xFF#8)
    (hnew : σ.find keyId = hashtableNFound) :
    (σ.bucketAt ⟨true, σ.home keyId⟩).size.toNat < 127 := by
  have hlt := (σ.bucketAt ⟨true, σ.home keyId⟩).size_lt
  have hne : (σ.bucketAt ⟨true, σ.home keyId⟩).size.toNat ≠ 127 := fun h =>
    hover ⟨BitVec.eq_of_toNat_eq h, hflag, hnew, hfree⟩
  omega

/-- **A successful call stores the key** and nothing else. -/
theorem Inserted.stores_of_wf (h : Inserted σ keyId payload loc τ)
    (hσ : ∀ h, σ.inBounds ⟨true, h⟩ → ChainWf σ h) (hover : ¬ σ.Overflows keyId) :
    Stores σ τ keyId payload := by
  have hc := hσ _ (σ.inBounds_home keyId)
  cases h with
  | fill hsize hroot => exact stores_filled hroot hsize hσ
  | overwrite _ hl hk =>
    refine ⟨σ.bucketType_setBucket _ _, ?_, fun h hne hb =>
      (touches_overwritten hc hl).entries hne hb (hσ h hb)⟩
    rw [entries_overwritten hc hl, hk]
  | append last hlast hfree hflag hnew =>
    exact stores_appended hc hlast (size_lt_of_not_overflows hover hfree hflag hnew) hfree hσ
      (find_eq_nfound_iff.1 hnew)

theorem Inserted.stores (h : Inserted σ keyId payload loc τ) (hσ : σ.Sound)
    (hover : ¬ σ.Overflows keyId) : Stores σ τ keyId payload :=
  h.stores_of_wf (fun h hb => (hσ.chains h hb).wf) hover

/-- **A successful call keeps the invariant.** -/
theorem Inserted.sound (h : Inserted σ keyId payload loc τ) (hσ : σ.Sound)
    (hover : ¬ σ.Overflows keyId) : τ.Sound := by
  have hc := hσ.chains _ (σ.inBounds_home keyId)
  cases h with
  | fill hsize hroot => exact sound_filled hroot hsize hσ
  | overwrite _ hl hk => exact sound_overwritten hl hσ (σ.inBounds_home keyId)
  | append last hlast hfree hflag hnew =>
    exact sound_appended hc.wf hlast (size_lt_of_not_overflows hover hfree hflag hnew) hfree hσ
      (find_eq_nfound_iff.1 hnew)

/-- **A call that overflows the size** empties the home slot: no key of it is found any
more. -/
theorem Inserted.find_of_overflows_of_wf (h : Inserted σ keyId payload loc τ)
    (hwf : ChainWf σ (σ.home keyId)) (hover : σ.Overflows keyId) {k : BitVec 64}
    (hk : σ.home k = σ.home keyId) : τ.find k = hashtableNFound := by
  obtain ⟨hfull, hflag, hnew, hfree⟩ := hover
  have hc : ChainOk σ (σ.home keyId) :=
    hwf.ok fun h₁ => absurd (hfull.symm.trans h₁) (by decide)
  cases h with
  | fill hsize => rw [hfull] at hsize; exact absurd hsize (by decide)
  | overwrite _ hl hkey =>
    refine absurd ?_ (find_eq_nfound_iff.1 hnew)
    rw [entries, List.map_map, ← hkey]
    exact List.mem_map_of_mem hl
  | append last hlast =>
    have hroot : last ≠ ⟨true, σ.home keyId⟩ := fun hr => by
      have h1 := sizeField_of_last_eq hc hlast hr
      rw [RawBucket.size, h1] at hfull
      exact absurd hfull (by decide)
    have hsize : ((σ.appended keyId payload last).bucketAt ⟨true, σ.home keyId⟩).size = 0#8 :=
      size_appended_of_full hwf hlast hfull hflag hroot
    rw [find_eq, entries, chain, home, mask_appended]
    rw [← hk, home] at hsize
    rw [hsize]
    rfl

theorem Inserted.find_of_overflows (h : Inserted σ keyId payload loc τ) (hσ : σ.Sound)
    (hover : σ.Overflows keyId) {k : BitVec 64} (hk : σ.home k = σ.home keyId) :
    τ.find k = hashtableNFound :=
  h.find_of_overflows_of_wf (hσ.chains _ (σ.inBounds_home keyId)).wf hover hk

end Inserted

end Rtp.Qed.Builder
