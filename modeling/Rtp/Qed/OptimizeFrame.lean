import Rtp.Qed.WellFormed

/-!
# `OptimizeFreeBucket` changes nothing that is found

On any table one worker reaches, also one in which the size of a root has overflowed and
free buckets are left behind that no chain leads to any more.

* `optimize_frame` — **after every run** the lookups are kept, whatever the call returns,
  and after a success no chain leads to the free bucket.
-/

namespace Rtp.Qed.Builder

open Mask Assoc Chain
open Function (update_self update_of_ne)

variable {σ τ : Builder} {location : Location}

/-! ## What a success leaves behind -/

/-- Some chain leads to the place. -/
def Reaches (σ : Builder) (loc : Location) : Prop :=
  ∃ h, σ.inBounds ⟨true, h⟩ ∧ loc ∈ σ.chain h

/-- The node of the free bucket `location` sits in a managed bucket: that bucket has its
content, no chain leads to the free bucket, and each chain is the one before with the
managed bucket in place of the free one. -/
def SitsInManaged (σ τ : Builder) (location : Location) : Prop :=
  ¬ τ.Reaches location ∧ ∃ iter, τ.inBounds ⟨true, iter⟩ ∧
    τ.bucketAt ⟨true, iter⟩ = σ.bucketAt location ∧
    ∀ h, σ.inBounds ⟨true, h⟩ → τ.chain h = (σ.chain h).map (relocate location iter)

theorem relocate_ne {location : Location} (hfree : location.internal = false) (iter : BitVec 64)
    (l : Location) : relocate location iter l ≠ location := by
  rw [relocate]
  split
  · rintro rfl
    simp at hfree
  · assumption

/-- A chain without the bucket is not relabelled. -/
theorem map_relocate {chain : List Location} (h : location ∉ chain) (iter : BitVec 64) :
    chain.map (relocate location iter) = chain := by
  refine List.map_congr_left (g := id) (fun l hl => if_neg ?_) |>.trans (List.map_id _)
  rintro rfl
  exact h hl

theorem Relocated.sitsInManaged (h : Relocated σ location true τ) (hσ : σ.Wf)
    (hfree : location.internal = false) : SitsInManaged σ τ location := by
  -- it is enough to know the chains
  have key : ∀ (parent : Location) (iter : BitVec 64),
      τ = σ.moved location parent (σ.rootIdAt location) iter → parent ≠ ⟨true, iter⟩ →
      σ.inBounds ⟨true, iter⟩ → Touches (σ.rootIdAt location) σ τ →
      τ.chain (σ.rootIdAt location) = (σ.chain (σ.rootIdAt location)).map (relocate location iter) →
      SitsInManaged σ τ location := by
    intro parent iter hτ hp hiter ht hchain
    have hall : ∀ h, σ.inBounds ⟨true, h⟩ →
        τ.chain h = (σ.chain h).map (relocate location iter) := by
      intro h hb
      by_cases hne : h = σ.rootIdAt location
      · rw [hne, hchain]
      · have hwf := hσ.chains h hb
        rw [ht.chain hne hb hwf, map_relocate fun hl => hne (hwf.root _ hl).symm]
    refine ⟨?_, iter, ht.inBounds hiter, ?_, hall⟩
    · rintro ⟨h, hb, hl⟩
      rw [ht.inBounds_managed] at hb
      rw [hall h hb] at hl
      obtain ⟨l, -, hl⟩ := List.mem_map.1 hl
      exact relocate_ne hfree iter l hl
    · rw [hτ, bucketAt_moved, update_of_ne hp.symm, update_self]
  cases h with
  | moved parent iter hm =>
    exact key parent iter rfl (hm.ne_iter hm.parent_mem_chain) hm.iter_bounds hm.touches
      hm.chain_moved
  | orphan parent iter ho =>
    refine key parent iter rfl (ho.parent_ne hσ) ho.iter_bounds (ho.touches hσ) ?_
    rw [ho.chain_moved hσ, map_relocate ho.notMem]

end Builder

/-! ## Runs -/

open Run Builder

/-- An `Insert` whose home slot does not hold a node of another chain. -/
def Undisputed (σ : Builder) : Call → Prop
  | .insert keyId _ => ¬ σ.Trespasses keyId
  | .optimizeFreeBucket _ _ => True

instance (σ : Builder) : (c : Call) → Decidable (Undisputed σ c)
  | .insert keyId _ => inferInstanceAs (Decidable (¬ σ.Trespasses keyId))
  | .optimizeFreeBucket _ _ => isTrue trivial

/-- **One call** returns, and keeps the invariant. -/
theorem callStep_wf {σ : Builder} (hσ : σ.Wf) {c : Call} (hc : Undisputed σ c) (fuel : ℕ) :
    ∃ r τ, callStep (fuel + 2) c σ = .ok (r, τ) ∧ τ.Wf := by
  cases c with
  | insert keyId payload =>
    obtain ⟨loc, τ, hok, hs⟩ := insert_wf hσ hc payload fuel
    exact ⟨.inserted loc, τ, by rw [callStep, hok], hs.wf hσ⟩
  | optimizeFreeBucket location level =>
    obtain ⟨r, τ, hok, ho⟩ := optimizeFreeBucket_wf hσ location level (fuel + 1)
    exact ⟨.optimized r, τ, by rw [callStep, hok], ho.wf hσ⟩

/-- **`OptimizeFreeBucket` changes nothing that is found.**  Take any calls of `Insert` and
`OptimizeFreeBucket` on a reserved table in which no `Insert` finds its home slot occupied
by a node of another chain; nothing is assumed about how many keys share a home slot.  They
all return.  In the state they lead to, a call of `OptimizeFreeBucket` for any bucket of
the free table and any level returns, what is found under every key is as before, and if
it returns true then the node of the bucket is reached through a managed bucket only. -/
theorem optimize_frame {b : BucketType} {calls : List Call} (fuel : ℕ)
    (hocc : Along (callStep (fuel + 2)) Undisputed calls (reserved b)) (i : BitVec 64)
    (level : BitVec 8) :
    ∃ history σ r τ, run (callStep (fuel + 2)) calls (reserved b) = .ok (history, σ) ∧
      σ.optimizeFreeBucket ⟨false, i⟩ level (fuel + 2) = .ok (r, τ) ∧
      (∀ k, τ.find k = σ.find k) ∧ (r = true → SitsInManaged σ τ ⟨false, i⟩) := by
  obtain ⟨history, σ, hrun, hσ⟩ := run_of_along (I := fun _ σ => σ.Wf)
    (fun _ _ _ hσ hc => callStep_wf hσ hc fuel) (h := []) (wf_reserved b) hocc
  obtain ⟨r, τ, hok, ho⟩ := optimizeFreeBucket_wf hσ ⟨false, i⟩ level (fuel + 1)
  refine ⟨history, σ, r, τ, hrun, hok, ho.find hσ, ?_⟩
  rintro rfl
  exact ho.sitsInManaged hσ rfl

/-- The node of the second of two keys that share a home slot is moved, and a third key is
appended behind it. -/
theorem optimize_frame_shared :
    ∃ history σ r τ, run (callStep 2)
        [.insert 0 10, .insert 4 20, .optimizeFreeBucket ⟨false, 0⟩ 0, .insert 8 30]
        (reserved smallest) = .ok (history, σ) ∧
      σ.optimizeFreeBucket ⟨false, 1⟩ 0 2 = .ok (r, τ) ∧
      (∀ k, τ.find k = σ.find k) ∧ (r = true → SitsInManaged σ τ ⟨false, 1⟩) :=
  optimize_frame 0 (by decide +kernel) 1 0

end Rtp.Qed
