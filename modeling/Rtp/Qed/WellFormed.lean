import Rtp.Qed.Runs

/-!
# Every table one worker reaches

`Sound` ends where the size of a root overflows: the nodes of the chain are still marked
as its own, but the chain is empty.  The weaker invariant `Wf` outlives that, and says
enough about the chains that are left for both operations.

* `Settled` — what an `Insert` comes to on such a table, unless its home slot holds a
  node of another chain (`Trespasses`).  Two ways are new: the root of a chain that has
  overflowed is brought back as a root alone, and an `Insert` behind a root alone whose
  flag is set needs a second attempt.
* `insert_wf` — **one call of `Insert`** returns and is `Settled`; `Settled.wf` — it keeps
  the invariant.
-/

namespace Rtp.Qed.Builder

open Mask Assoc Chain

variable {σ τ : Builder} {keyId payload : BitVec 64}

theorem wf_reserved (b : BucketType) : (reserved b).Wf :=
  ⟨Nat.zero_le _, fun _ _ => chainWf_of_size (show RawBucket.zero.size = 0#8 by decide),
    fun _ _ hr => absurd rfl hr, fun _ _ hr => absurd rfl hr⟩

/-! ## Storing a key -/

/-- A new node keeps the invariant, also when the root cannot count it. -/
theorem chainWf_appended {last : Location} (hc : ChainWf σ (σ.home keyId))
    (hlast : (σ.chain (σ.home keyId)).getLast? = some last)
    (hfree : σ.freeIdCount.ult σ.capacity)
    (hflag : (σ.bucketAt ⟨true, σ.home keyId⟩).sizeField ≠ 0xFF#8)
    (hnew : σ.find keyId = hashtableNFound) :
    ChainWf (σ.appended keyId payload last) (σ.home keyId) := by
  have hkey := find_eq_nfound_iff.1 hnew
  by_cases hlt : (σ.bucketAt ⟨true, σ.home keyId⟩).size.toNat < 127
  · exact (chainOk_appended hc hlast hlt hfree hkey).wf
  · have hfull : (σ.bucketAt ⟨true, σ.home keyId⟩).size = 127#8 := by
      have hle := (σ.bucketAt ⟨true, σ.home keyId⟩).size_lt
      refine BitVec.eq_of_toNat_eq (show _ = 127 from ?_)
      omega
    have hok : ChainOk σ (σ.home keyId) :=
      hc.ok fun h₁ => absurd (hfull.symm.trans h₁) (by decide)
    refine chainWf_of_size (size_appended_of_full hc hlast hfull hflag fun hr => ?_)
    have h₁ := sizeField_of_last_eq hok hlast hr
    rw [RawBucket.size, h₁] at hfull
    exact absurd hfull (by decide)

variable {loc : Location}

theorem Inserted.wf (h : Inserted σ keyId payload loc τ) (hσ : σ.Wf) : τ.Wf := by
  have hc := hσ.chains _ (σ.inBounds_home keyId)
  cases h with
  | fill hsize hroot =>
    have ht : Touches (σ.home keyId) σ (σ.filled keyId payload) := touches_filled hroot
    refine ht.wf hσ (by rw [freeIdCount_filled, ht.capacity]; exact hσ.count_le)
      (chainOk_filled hroot).wf fun i hi hr => ?_
    have hne : (⟨false, i⟩ : Location) ≠ ⟨true, σ.home keyId⟩ := by simp
    have hi' : σ.inBounds ⟨false, i⟩ := by simpa [inBounds] using hi
    rw [rootIdAt_filled, Function.update_of_ne hne] at hr ⊢
    rw [bucketAt_filled, Function.update_of_ne hne]
    exact ⟨hσ.free_size i hi' hr, hσ.free_root i hi' hr⟩
  | overwrite _ hl hk =>
    have ht : Touches (σ.home keyId) σ (σ.overwritten loc (payload.setWidth 56)) :=
      touches_overwritten hc hl
    have hcount : (σ.overwritten loc (payload.setWidth 56)).freeIdCount = σ.freeIdCount :=
      σ.freeIdCount_setBucket _ _
    refine ht.wf hσ (by rw [hcount, ht.capacity]; exact hσ.count_le)
      (chainWf_overwritten hc hl) fun i hi hr => ?_
    have hi' : σ.inBounds ⟨false, i⟩ := by simpa [inBounds, hcount] using hi
    rw [show (σ.overwritten loc (payload.setWidth 56)).rootIdAt = σ.rootIdAt from
      σ.rootIdAt_setBucket _ _] at hr ⊢
    rw [size_overwritten]
    exact ⟨hσ.free_size i hi' hr, hσ.free_root i hi' hr⟩
  | append last hlast hfree hflag hnew =>
    have hne := last_ne_slot hc hlast
    have ht : Touches (σ.home keyId) σ (σ.appended keyId payload last) :=
      touches_appended hc hlast hfree
    have hcount := toNat_freeIdCount_succ hfree
    refine ht.wf hσ ?_ (chainWf_appended hc hlast hfree hflag hnew) fun i hi hr => ?_
    · rw [BitVec.ult, decide_eq_true_eq] at hfree
      rw [freeIdCount_appended, ht.capacity]
      omega
    · rw [rootIdAt_appended] at hr ⊢
      by_cases his : (⟨false, i⟩ : Location) = σ.slot
      · rw [his, Function.update_self, bucketAt_appended_slot hne]
        exact ⟨show 0x80#8 &&& ~~~sizeFieldHiMask = 0#8 by decide, σ.inBounds_home keyId⟩
      · have hi' := (inBounds_of_appended hfree hi).resolve_left his
        rw [Function.update_of_ne his] at hr ⊢
        rw [size_appended hne his (by simp)]
        exact ⟨hσ.free_size i hi' hr, hσ.free_root i hi' hr⟩

/-! ## The root of a chain that has overflowed -/

theorem wf_revived (hr : σ.rootIdAt ⟨true, σ.home keyId⟩ = σ.home keyId) (hσ : σ.Wf) :
    (σ.revived keyId).Wf := by
  have hrootIdAt : (σ.revived keyId).rootIdAt = σ.rootIdAt := σ.rootIdAt_setBucket _ _
  have hcount : (σ.revived keyId).freeIdCount = σ.freeIdCount := σ.freeIdCount_setBucket _ _
  have ht : Touches (σ.home keyId) σ (σ.revived keyId) := by
    refine ⟨σ.bucketType_setBucket _ _, by rw [hcount], fun h' hh => ?_, fun l _ hl _ => ?_,
      fun l _ _ _ => by rw [hrootIdAt]⟩
    · rw [bucketAt_revived, Function.update_of_ne (by simpa using hh)]
    · have hne : l ≠ ⟨true, σ.home keyId⟩ := by rintro rfl; exact hl hr
      rw [bucketAt_revived, Function.update_of_ne hne]
  refine ht.wf hσ (by rw [hcount, ht.capacity]; exact hσ.count_le) (chainWf_of_single ?_ ?_ ?_)
    fun i hi hi' => ?_
  · rw [bucketAt_revived, Function.update_self]
    exact show 1#8 &&& ~~~sizeFieldHiMask = 1#8 by decide
  · exact ht.inBounds (σ.inBounds_home keyId)
  · rw [hrootIdAt, hr]
  · have hb : σ.inBounds ⟨false, i⟩ := by simpa [inBounds, hcount] using hi
    rw [hrootIdAt] at hi' ⊢
    rw [bucketAt_revived, Function.update_of_ne (by simp)]
    exact ⟨hσ.free_size i hb hi', hσ.free_root i hb hi'⟩

/-! ## The whole call -/

/-- What an `Insert` comes to: it is refused, it brings back the root of a chain that has
overflowed, or it stores the key. -/
inductive Settled (σ : Builder) (keyId payload : BitVec 64) : Location → Builder → Prop
  | refused : Settled σ keyId payload notInserted σ
  | revived (hs : (σ.bucketAt ⟨true, σ.home keyId⟩).size = 0#8)
      (hr : σ.rootIdAt ⟨true, σ.home keyId⟩ = σ.home keyId) :
      Settled σ keyId payload notInserted (σ.revived keyId)
  | stored (loc : Location) (τ : Builder) (hi : Inserted σ keyId payload loc τ) :
      Settled σ keyId payload loc τ

/-- The stores of a call lead to one of the tables it can come to. -/
theorem Traced.settled {stores : List Store} (h : Traced σ keyId payload loc stores) :
    Settled σ keyId payload loc (σ.after stores) := by
  cases h with
  | refused => exact .refused
  | revived hs hr => exact .revived hs hr
  | filled hs hroot => exact after_filled ▸ .stored _ _ (.fill hs hroot)
  | overwritten _ hl hk => exact .stored _ _ (.overwrite loc hl hk)
  | appended last _ _ hlast hfree hflag hnew _ htable =>
    exact htable ▸ .stored _ _ (.append last hlast hfree hflag hnew)

/-- The stores of one call, on any table one worker reaches. -/
theorem insertStores_traced (hσ : σ.Wf) (hocc : ¬ σ.Trespasses keyId) (payload : BitVec 64)
    (fuel : ℕ) :
    ∃ loc stores, σ.insertStores (fuel + 2) keyId payload = .ok (loc, stores) ∧
      Traced σ keyId payload loc stores := by
  obtain ⟨loc, stores, hok, ht, -⟩ := insertStores_cases hσ.count_le
    (hσ.chains _ (σ.inBounds_home keyId)) hocc payload fun _ => Nat.succ_ne_zero fuel
  exact ⟨loc, stores, hok, ht⟩

/-- **One call of `Insert`** for a key whose home slot does not hold a node of another
chain.  It calls itself at most once more. -/
theorem insert_wf (hσ : σ.Wf) (hocc : ¬ σ.Trespasses keyId) (payload : BitVec 64) (fuel : ℕ) :
    ∃ loc τ, insert (fuel + 2) keyId payload allMask64 σ = .ok (loc, τ) ∧
      Settled σ keyId payload loc τ := by
  obtain ⟨loc, stores, hok, ht⟩ := insertStores_traced hσ hocc payload fuel
  exact ⟨loc, _, insert_of_insertStores hok, ht.settled⟩

theorem Settled.wf (h : Settled σ keyId payload loc τ) (hσ : σ.Wf) : τ.Wf := by
  cases h with
  | refused => exact hσ
  | revived hs hr => exact wf_revived hr hσ
  | stored _ _ hi => exact hi.wf hσ

theorem Settled.bucketType (h : Settled σ keyId payload loc τ) : τ.bucketType = σ.bucketType := by
  cases h with
  | refused => rfl
  | revived => exact σ.bucketType_setBucket _ _
  | stored _ _ hi =>
    cases hi with
    | fill => exact bucketType_filled
    | overwrite => exact σ.bucketType_setBucket _ _
    | append => exact bucketType_appended

end Rtp.Qed.Builder
