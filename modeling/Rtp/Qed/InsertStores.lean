import Rtp.Qed.StoreTrace

/-!
# The stores of each way

The list of stores an `Insert` makes on a table one worker reaches, for each of the ways
it can go.

* `searchChain_spec` — the search finds the node of the key, or the last node.
* `attemptStores`, `retryStores` — the stores of appending a node, but for the last, in
  one attempt or in two; all of them are hidden, and they lead to the table in which the
  new node is linked.
* `Traced` — the ways with their stores; `insertStores_cases` — **every call goes one of
  them**.
-/

namespace Rtp.Qed.Builder

open Mask Assoc Chain

/-- The home slot of the key holds a node of a chain although it is not a root. -/
def Occupied (σ : Builder) (keyId : BitVec 64) : Prop :=
  (σ.bucketAt ⟨true, σ.home keyId⟩).size = 0#8 ∧ σ.rootIdAt ⟨true, σ.home keyId⟩ ≠ allMask64

/-- The key is new, its home slot already has as many nodes as the size can count, and
there is a free bucket for one more. -/
def Overflows (σ : Builder) (keyId : BitVec 64) : Prop :=
  (σ.bucketAt ⟨true, σ.home keyId⟩).size = 127#8 ∧
    (σ.bucketAt ⟨true, σ.home keyId⟩).sizeField ≠ 0xFF#8 ∧
    σ.find keyId = hashtableNFound ∧ σ.freeIdCount.ult σ.capacity

instance (σ : Builder) (keyId : BitVec 64) : Decidable (σ.Occupied keyId) :=
  inferInstanceAs (Decidable (_ ∧ _))

instance (σ : Builder) (keyId : BitVec 64) : Decidable (σ.Overflows keyId) :=
  inferInstanceAs (Decidable (_ ∧ _ ∧ _ ∧ _))

/-- The home slot of the key holds a node of the chain of another root. -/
def Trespasses (σ : Builder) (keyId : BitVec 64) : Prop :=
  (σ.bucketAt ⟨true, σ.home keyId⟩).size = 0#8 ∧
    σ.rootIdAt ⟨true, σ.home keyId⟩ ≠ allMask64 ∧ σ.rootIdAt ⟨true, σ.home keyId⟩ ≠ σ.home keyId

instance (σ : Builder) (keyId : BitVec 64) : Decidable (σ.Trespasses keyId) :=
  inferInstanceAs (Decidable (_ ∧ _ ∧ _))

variable {σ ρ : Builder} {keyId payload : BitVec 64}

/-! ## The search -/

/-- The search for a key along nodes inside the tables: the node that has the key, or,
when none has it, the last node with its key information. -/
theorem searchChain_spec {n i : ℕ} {loc last : Location} {info : BitVec 64}
    (hb : ∀ l ∈ List.iterate σ.next loc n, σ.inBounds l) :
    (∃ l j, σ.searchChain keyId n i loc last info = .ok (.found l j) ∧
      l ∈ List.iterate σ.next loc n ∧ (σ.entry l).1 = keyId &&& σ.mask) ∨
    ((∀ l ∈ List.iterate σ.next loc n, (σ.entry l).1 ≠ keyId &&& σ.mask) ∧
      ((n = 0 ∧ σ.searchChain keyId n i loc last info = .ok (.absent last info)) ∨
        ∃ l, (List.iterate σ.next loc n).getLast? = some l ∧
          σ.searchChain keyId n i loc last info =
            .ok (.absent l (σ.bucketAt l).keyInfoField))) := by
  induction n generalizing i loc last info with
  | zero => exact .inr ⟨by simp [List.iterate], .inl ⟨rfl, rfl⟩⟩
  | succ n ih =>
    rw [iterate_succ] at hb ⊢
    have hloc : σ.bucketByLocation loc = some (σ.bucketAt loc) :=
      if_pos (hb loc (List.mem_cons_self ..))
    by_cases hk : (σ.entry loc).1 = keyId &&& σ.mask
    · refine .inl ⟨loc, i, ?_, List.mem_cons_self .., hk⟩
      rw [searchChain, hloc]
      exact if_pos hk
    · have hstep : σ.searchChain keyId (n + 1) i loc last info =
          σ.searchChain keyId n (i + 1) (σ.next loc) loc (σ.bucketAt loc).keyInfoField := by
        rw [searchChain, hloc]
        exact if_neg hk
      rw [hstep]
      rcases @ih (i + 1) (σ.next loc) loc (σ.bucketAt loc).keyInfoField
        fun l hl => hb l (List.mem_cons_of_mem _ hl) with ⟨l, j, hs, hl, hkl⟩ | ⟨hall, hend⟩
      · exact .inl ⟨l, j, hs, List.mem_cons_of_mem _ hl, hkl⟩
      · refine .inr ⟨fun l hl => ?_, .inr ?_⟩
        · rcases List.mem_cons.1 hl with rfl | hl
          · exact hk
          · exact hall l hl
        · rcases hend with ⟨rfl, hs⟩ | ⟨l, hl, hs⟩
          · exact ⟨loc, rfl, hs⟩
          · refine ⟨l, ?_, hs⟩
            rw [List.getLast?_cons, hl]
            rfl

/-- The search in the chain of the home slot: the key's own node, which is marked as
belonging to it, or the last node when the key is not there. -/
theorem searchChain_home (hc : ChainWf σ (σ.home keyId))
    (hs : (σ.bucketAt ⟨true, σ.home keyId⟩).size ≠ 0#8) :
    (∃ loc j, loc ∈ σ.chain (σ.home keyId) ∧ (σ.entry loc).1 = keyId &&& σ.mask ∧
      σ.rootIdByLocation loc = σ.home keyId ∧
      σ.searchChain keyId (σ.bucketAt ⟨true, σ.home keyId⟩).size.toNat 0 ⟨true, σ.home keyId⟩
        ⟨true, σ.home keyId⟩ 0 = .ok (.found loc j)) ∨
    (σ.find keyId = hashtableNFound ∧
      ∃ last, (σ.chain (σ.home keyId)).getLast? = some last ∧
        σ.searchChain keyId (σ.bucketAt ⟨true, σ.home keyId⟩).size.toNat 0 ⟨true, σ.home keyId⟩
          ⟨true, σ.home keyId⟩ 0 = .ok (.absent last (σ.bucketAt last).keyInfoField)) := by
  rcases @searchChain_spec σ keyId _ 0 _ ⟨true, σ.home keyId⟩ 0 hc.bounds with
    ⟨loc, j, hsearch, hl, hk⟩ | ⟨hall, ⟨h0, -⟩ | ⟨last, hlast, hsearch⟩⟩
  · refine .inl ⟨loc, j, hl, hk, ?_, hsearch⟩
    rw [rootIdByLocation, if_pos (hc.bounds loc hl), hc.root loc hl]
  · exact absurd (BitVec.eq_of_toNat_eq h0) hs
  · refine .inr ⟨?_, last, hlast, hsearch⟩
    rw [find_eq_nfound_iff, entries, List.map_map, List.mem_map]
    rintro ⟨l, hl, hkl⟩
    exact hall l hl hkl

/-! ## A home slot without a chain -/

/-- The table after a home slot has been claimed that is the root of an empty chain. -/
def revived (σ : Builder) (keyId : BitVec 64) : Builder :=
  σ.setBucket ⟨true, σ.home keyId⟩ { σ.bucketAt ⟨true, σ.home keyId⟩ with sizeField := 1#8 }

section Revived

variable (hr : σ.rootIdAt ⟨true, σ.home keyId⟩ = σ.home keyId)

theorem bucketAt_revived : (σ.revived keyId).bucketAt =
    Function.update σ.bucketAt ⟨true, σ.home keyId⟩
      { σ.bucketAt ⟨true, σ.home keyId⟩ with sizeField := 1#8 } :=
  σ.bucketAt_setBucket _ _

include hr

/-- Its root is the slot itself. -/
theorem findRoot_revived :
    (σ.revived keyId).findRoot ⟨true, σ.home keyId⟩ = some ⟨true, σ.home keyId⟩ := by
  have hb := σ.inBounds_home keyId
  have hlt : (σ.home keyId).ult σ.capacity := by simpa [inBounds] using hb
  have hid : (σ.revived keyId).rootIdByLocation ⟨true, σ.home keyId⟩ = σ.home keyId := by
    rw [rootIdByLocation, if_pos (by rw [revived, inBounds_setBucket]; exact hb), revived,
      rootIdAt_setBucket, hr]
  have hcap : (σ.revived keyId).capacity = σ.capacity := σ.capacity_setBucket _ _
  rw [findRoot, hid, hcap, if_neg (by simpa using hlt)]
  exact if_neg fun h => h.elim (σ.ne_allMask64 hb) fun h => h hlt

omit hr in
theorem size_ult_revived : ((σ.revived keyId).bucketAt ⟨true, σ.home keyId⟩).size.ult 2 := by
  rw [bucketAt_revived, Function.update_self]
  exact show (1#8 &&& ~~~sizeFieldHiMask).ult 2 by decide

end Revived

theorem casSizeFieldTrace_of_eq {done : List Store} {loc : Location} {expected : BitVec 8}
    (h : ((σ.after done).bucketAt loc).sizeField = expected) (new : BitVec 8) :
    σ.casSizeFieldTrace done loc expected new = some (done ++ [.sizeField loc new]) :=
  if_pos h

/-- The claim of a home slot. -/
theorem casSizeFieldTrace_nil (loc : Location) (new : BitVec 8) :
    σ.casSizeFieldTrace [] loc (σ.bucketAt loc).sizeField new = some [.sizeField loc new] :=
  if_pos rfl

theorem rootIdAt_claim (loc : Location) (new : BitVec 8) :
    (σ.after [.sizeField loc new]).rootIdAt = σ.rootIdAt :=
  σ.rootIdAt_setBucket _ _

theorem bucketAt_claim (loc : Location) (new : BitVec 8) :
    (σ.after [.sizeField loc new]).bucketAt =
      Function.update σ.bucketAt loc { σ.bucketAt loc with sizeField := new } :=
  σ.bucketAt_setBucket _ _

/-- An empty home slot that belongs to no chain is claimed and filled. -/
theorem insertStores_of_empty (hs : (σ.bucketAt ⟨true, σ.home keyId⟩).size = 0#8)
    (hroot : σ.rootIdAt ⟨true, σ.home keyId⟩ = allMask64) (fuel : ℕ) :
    σ.insertStores (fuel + 1) keyId payload =
      .ok (⟨true, σ.home keyId⟩, .sizeField ⟨true, σ.home keyId⟩ 1#8 ::
        rootStores (σ.home keyId) keyId payload) := by
  have hclaimed : ¬ (σ.after [.sizeField ⟨true, σ.home keyId⟩ 1#8]).rootIdAt
      ⟨true, σ.home keyId⟩ ≠ allMask64 := by
    rw [not_not, rootIdAt_claim, hroot]
  have hhome : keyId &&& ~~~σ.mask = σ.home keyId := rfl
  rw [insertStores, insertTrace]
  refine (if_pos hs).trans ?_
  simp only [after_nil, hhome, casSizeFieldTrace_nil, if_neg hclaimed]
  rfl

theorem after_filled : σ.after (.sizeField ⟨true, σ.home keyId⟩ 1#8 ::
    rootStores (σ.home keyId) keyId payload) = σ.filled keyId payload := by
  simp only [rootStores, after_cons, after_nil, Store.apply, setBucket_setBucket,
    bucketAt_setBucket, Function.update_self]
  rfl

/-- The root of a chain that has overflowed is claimed, and nothing else is stored. -/
theorem insertStores_of_overflowed (hs : (σ.bucketAt ⟨true, σ.home keyId⟩).size = 0#8)
    (hr : σ.rootIdAt ⟨true, σ.home keyId⟩ = σ.home keyId) (fuel : ℕ) :
    σ.insertStores (fuel + 1) keyId payload =
      .ok (notInserted, [.sizeField ⟨true, σ.home keyId⟩ 1#8]) := by
  have hb := σ.inBounds_home keyId
  have hclaimed : (σ.after [.sizeField ⟨true, σ.home keyId⟩ 1#8]).rootIdAt
      ⟨true, σ.home keyId⟩ ≠ allMask64 := by
    rw [rootIdAt_claim, hr]
    exact σ.ne_allMask64 hb
  have hhome : keyId &&& ~~~σ.mask = σ.home keyId := rfl
  have hrevived : σ.after [.sizeField ⟨true, σ.home keyId⟩ 1#8] = σ.revived keyId := rfl
  have hdisplace : σ.displaceTrace [.sizeField ⟨true, σ.home keyId⟩ 1#8] (σ.home keyId) allMask64 =
      .error (.returned notInserted [.sizeField ⟨true, σ.home keyId⟩ 1#8]) := by
    simp only [displaceTrace, hrevived, findRoot_revived hr, size_ult_revived, if_true]
  rw [insertStores, insertTrace]
  refine (if_pos hs).trans ?_
  simp only [after_nil, hhome, casSizeFieldTrace_nil, if_pos hclaimed, hdisplace]

/-! ## A node behind the last one -/

/-- The chain of the home slot is searched, in the table `ρ` after the stores so far. -/
theorem insertTrace_search {done : List Store} (hρ : σ.after done = ρ)
    (hc : ChainWf ρ (ρ.home keyId)) (hs : (ρ.bucketAt ⟨true, ρ.home keyId⟩).size ≠ 0#8)
    (hfull : (ρ.bucketAt ⟨true, ρ.home keyId⟩).sizeField ≠ 0xFF#8) (payload : BitVec 64)
    (fuel : ℕ) (freeSlot : BitVec 64) :
    (∃ loc ∈ ρ.chain (ρ.home keyId), (ρ.entry loc).1 = keyId &&& ρ.mask ∧
      σ.insertTrace (fuel + 1) keyId payload freeSlot done =
        .ok (loc, done ++ [.payload loc (payload.setWidth 56)])) ∨
    (ρ.find keyId = hashtableNFound ∧
      ∃ last, (ρ.chain (ρ.home keyId)).getLast? = some last ∧
        σ.insertTrace (fuel + 1) keyId payload freeSlot done =
          match σ.appendTrace done keyId payload freeSlot
            (ρ.bucketAt ⟨true, ρ.home keyId⟩).sizeField last (ρ.bucketAt last).keyInfoField with
          | .error e => .error e
          | .ok (.returned result done) => .ok (result, done)
          | .ok (.again freeSlot done) => σ.insertTrace fuel keyId payload freeSlot done) := by
  subst hρ
  have hhome : keyId &&& ~~~(σ.after done).mask = (σ.after done).home keyId := rfl
  have hsize : ((σ.after done).bucketAt ⟨true, (σ.after done).home keyId⟩).sizeField &&&
      ~~~sizeFieldHiMask = ((σ.after done).bucketAt ⟨true, (σ.after done).home keyId⟩).size := rfl
  rw [insertTrace]
  simp only [hhome, hsize, if_neg hs, if_neg hfull]
  rcases searchChain_home hc hs with ⟨loc, j, hl, hk, hroot, hsearch⟩ |
    ⟨hnew, last, hlast, hsearch⟩
  · rw [hsearch]
    exact .inl ⟨loc, hl, hk, if_pos (Or.inr (Or.inr hroot))⟩
  · rw [hsearch]
    exact .inr ⟨hnew, last, hlast, rfl⟩

/-- The two swaps that link the new node. -/
def linkStores (ρ : Builder) (freeSlot : BitVec 64) (last : Location) : List Store :=
  [.keyInfoField last (splice ρ.mask (ρ.bucketAt last).keyInfoField freeSlot),
    .sizeField last ((ρ.bucketAt last).sizeField &&& ~~~sizeFieldHiMask)]

/-- The new node is linked, and counted if the root still has the size field that was
read. -/
theorem linkTrace_eq (keyId : BitVec 64) {done : List Store} (hρ : σ.after done = ρ)
    {last : Location}
    (hin : ρ.inBounds last)
    (hsize : last = ⟨true, ρ.home keyId⟩ ∨ (ρ.bucketAt last).size = 0#8)
    (freeSlot : BitVec 64) (sizeField : BitVec 8) :
    σ.linkTrace done keyId freeSlot sizeField last (ρ.bucketAt last).keyInfoField =
      match σ.casSizeFieldTrace (done ++ ρ.linkStores freeSlot last) ⟨true, ρ.home keyId⟩
        sizeField (sizeField + 1) with
      | none => .ok (.again freeSlot (done ++ ρ.linkStores freeSlot last))
      | some done => .ok (.returned ⟨false, freeSlot⟩ done) := by
  subst hρ
  have hok : ¬ (last ≠ ⟨true, keyId &&& ~~~(σ.after done).mask⟩ ∧
      ((σ.after done).bucketAt last).sizeField &&& ~~~sizeFieldHiMask ≠ 0#8) :=
    fun h => hsize.elim h.1 h.2
  have hfirst : ((σ.after (done ++ [.keyInfoField last (splice (σ.after done).mask
      ((σ.after done).bucketAt last).keyInfoField freeSlot)])).bucketAt last).sizeField =
      ((σ.after done).bucketAt last).sizeField := by
    rw [after_append, after_cons, after_nil, Store.apply, bucketAt_setBucket, Function.update_self]
  rw [linkTrace, bucketByLocation, if_pos hin]
  simp only [casKeyInfoFieldTrace, if_true, if_neg hok]
  rw [casSizeFieldTrace_of_eq hfirst, List.append_assoc]
  rfl

theorem after_linkStores (freeSlot : BitVec 64) (last : Location) :
    ρ.after (ρ.linkStores freeSlot last) =
      ρ.setBucket last ((ρ.bucketAt last).setNextBucketId ρ.mask freeSlot false) := by
  simp only [linkStores, after_cons, after_nil, Store.apply, setBucket_setBucket,
    bucketAt_setBucket, Function.update_self]
  rfl

/-- A store to the next free bucket, or one that changes only what `last` leads to. -/
def Hidden (σ : Builder) (last : Location) : Store → Prop
  | .sizeField loc value =>
    loc = σ.slot ∨ (loc = last ∧ value &&& ~~~sizeFieldHiMask = (σ.bucketAt last).size)
  | .keyInfoField loc value =>
    loc = σ.slot ∨ (loc = last ∧ value &&& σ.mask = (σ.entry last).1)
  | .payload loc _ => loc = σ.slot
  | .rootId _ _ => True
  | .freeIdCount _ => True

section AppendStores

variable {last : Location} (hc : ChainWf σ (σ.home keyId))
  (hlast : (σ.chain (σ.home keyId)).getLast? = some last)
  (hfree : σ.freeIdCount.ult σ.capacity)

/-- The stores of an attempt to append a node, but for the last. -/
def attemptStores (σ : Builder) (keyId payload : BitVec 64) (last : Location) : List Store :=
  .freeIdCount (σ.freeIdCount + 1) :: nodeStores σ.freeIdCount (σ.home keyId) keyId payload ++
    σ.linkStores σ.freeIdCount last

theorem after_nodeAttempt : σ.after (.freeIdCount (σ.freeIdCount + 1) ::
    nodeStores σ.freeIdCount (σ.home keyId) keyId payload) = σ.withNode keyId payload := by
  have hmask : ({ σ with freeIdCount := σ.freeIdCount + 1 } : Builder).mask = σ.mask := rfl
  rw [after_cons, Store.apply, home, ← hmask, after_nodeStores]
  rfl

include hc hlast

theorem linkStores_withNode : (σ.withNode keyId payload).linkStores σ.freeIdCount last =
    σ.linkStores σ.freeIdCount last := by
  rw [linkStores, linkStores, bucketAt_withNode, mask_withNode,
    Function.update_of_ne (last_ne_slot hc hlast)]

theorem after_attemptStores :
    σ.after (σ.attemptStores keyId payload last) = σ.withLink keyId payload last := by
  rw [attemptStores, after_append, after_nodeAttempt, ← linkStores_withNode hc hlast,
    after_linkStores, mask_withNode]
  rfl

omit hc hlast in
/-- They are not seen. -/
theorem hidden_attemptStores (s : Store) (hs : s ∈ σ.attemptStores keyId payload last) :
    Hidden σ last s := by
  simp only [attemptStores, nodeStores, linkStores, List.cons_append, List.nil_append,
    List.mem_cons, List.not_mem_nil, or_false] at hs
  rcases hs with rfl | rfl | rfl | rfl | rfl | rfl | rfl
  · trivial
  · exact rfl
  · exact .inl rfl
  · exact .inl rfl
  · trivial
  · exact .inr ⟨rfl, splice_and_mask _ _ _⟩
  · exact .inr ⟨rfl, by rw [BitVec.and_assoc, BitVec.and_self]; rfl⟩

include hfree

theorem appendTrace_eq (sizeField : BitVec 8) :
    σ.appendTrace [] keyId payload allMask64 sizeField last (σ.bucketAt last).keyInfoField =
      match σ.casSizeFieldTrace (σ.attemptStores keyId payload last) ⟨true, σ.home keyId⟩
        sizeField (sizeField + 1) with
      | none => .ok (.again σ.freeIdCount (σ.attemptStores keyId payload last))
      | some done => .ok (.returned σ.slot done) := by
  have hmem := List.mem_of_getLast? hlast
  have htake : σ.freeSlotOrTakeTrace [] allMask64 =
      some (σ.freeIdCount, [.freeIdCount (σ.freeIdCount + 1)]) := by
    have hcount := toNat_freeIdCount_succ hfree
    rw [BitVec.ult, decide_eq_true_eq] at hfree
    have hlt : ¬ σ.capacity.ult (σ.freeIdCount + 1) := by
      rw [BitVec.ult, decide_eq_true_eq]
      omega
    exact (if_neg (by simp)).trans (if_neg hlt)
  have hbucket : (σ.withNode keyId payload).bucketAt last = σ.bucketAt last := by
    rw [bucketAt_withNode, Function.update_of_ne (last_ne_slot hc hlast)]
  have hhome : (σ.withNode keyId payload).home keyId = σ.home keyId := by
    rw [home, mask_withNode]; rfl
  have hsize : last = ⟨true, (σ.withNode keyId payload).home keyId⟩ ∨
      ((σ.withNode keyId payload).bucketAt last).size = 0#8 := by
    rw [hhome, hbucket]
    exact or_iff_not_imp_left.2 fun hne => hc.size last hmem hne
  have hlink := @linkTrace_eq σ (σ.withNode keyId payload) keyId _ after_nodeAttempt _
    (inBounds_withNode hc hlast hfree) hsize σ.freeIdCount sizeField
  rw [hbucket, hhome, linkStores_withNode hc hlast] at hlink
  rw [appendTrace, htake]
  exact hlink

omit hfree

/-- The last store of an attempt that succeeds. -/
theorem after_counted (hroot : ((σ.withLink keyId payload last).bucketAt
      ⟨true, σ.home keyId⟩).sizeField = (σ.bucketAt ⟨true, σ.home keyId⟩).sizeField) :
    σ.after (σ.attemptStores keyId payload last ++ [.sizeField ⟨true, σ.home keyId⟩
      ((σ.bucketAt ⟨true, σ.home keyId⟩).sizeField + 1)]) = σ.appended keyId payload last := by
  rw [after_append, after_attemptStores hc hlast, ← hroot]
  rfl

end AppendStores

/-- The stores of a second attempt, but for the last. -/
def retryStores (σ : Builder) (keyId payload : BitVec 64) : List Store :=
  σ.attemptStores keyId payload ⟨true, σ.home keyId⟩ ++
    (nodeStores σ.freeIdCount (σ.home keyId) keyId payload ++
      (σ.withLink keyId payload ⟨true, σ.home keyId⟩).linkStores σ.freeIdCount
        ⟨true, σ.home keyId⟩)

section RetryStores

variable (hc : ChainWf σ (σ.home keyId))
  (hs : (σ.bucketAt ⟨true, σ.home keyId⟩).sizeField = 0x81#8)

include hc hs

theorem after_retryNode (payload : BitVec 64) :
    σ.after (σ.attemptStores keyId payload ⟨true, σ.home keyId⟩ ++
      nodeStores σ.freeIdCount (σ.home keyId) keyId payload) =
        σ.withLink keyId payload ⟨true, σ.home keyId⟩ := by
  rw [after_append, after_attemptStores hc (getLast?_of_flagged hs)]
  have h := @after_nodeStores (σ.withLink keyId payload ⟨true, σ.home keyId⟩) σ.freeIdCount
    keyId payload
  rw [mask_withLink, fillNode_firstAttempt] at h
  exact h

theorem after_retryStores :
    σ.after (σ.retryStores keyId payload) = σ.withLink keyId payload ⟨true, σ.home keyId⟩ := by
  rw [retryStores, ← List.append_assoc, after_append, after_retryNode hc hs payload,
    after_linkStores]
  refine setBucket_self ?_
  rw [bucketAt_firstAttempt, mask_withLink]
  simp only [RawBucket.setNextBucketId, splice_splice, RawBucket.mk.injEq, true_and, and_true]
  rw [hs]
  decide

omit hc in
/-- They are not seen either. -/
theorem hidden_retryStores (s : Store) (hmem : s ∈ σ.retryStores keyId payload) :
    Hidden σ ⟨true, σ.home keyId⟩ s := by
  rcases List.mem_append.1 hmem with h | h
  · exact hidden_attemptStores s h
  · simp only [nodeStores, linkStores, List.cons_append, List.nil_append, List.mem_cons,
      List.not_mem_nil, or_false] at h
    rcases h with rfl | rfl | rfl | rfl | rfl | rfl
    · exact rfl
    · exact .inl rfl
    · exact .inl rfl
    · trivial
    · refine .inr ⟨rfl, ?_⟩
      rw [mask_withLink, splice_firstAttempt, bucketAt_firstAttempt]
      exact RawBucket.keyHighBits_setNextBucketId ..
    · refine .inr ⟨rfl, ?_⟩
      rw [sizeField_firstAttempt hs, size_of_flagged hs]
      decide

/-- A root alone with its flag set takes two attempts. -/
theorem insertStores_of_flagged (hfree : σ.freeIdCount.ult σ.capacity)
    (hnew : σ.find keyId = hashtableNFound) (fuel : ℕ) :
    σ.insertTrace (fuel + 1) keyId payload σ.freeIdCount
      (σ.attemptStores keyId payload ⟨true, σ.home keyId⟩) =
        .ok (σ.slot,
          σ.retryStores keyId payload ++ [.sizeField ⟨true, σ.home keyId⟩ (1#8 + 1)]) := by
  have hhome : (σ.withLink keyId payload ⟨true, σ.home keyId⟩).home keyId = σ.home keyId :=
    home_withLink
  have hcount : σ.freeIdCount ≠ allMask64 := σ.ne_allMask64 (by simpa [inBounds] using hfree)
  rcases insertTrace_search (after_attemptStores hc (getLast?_of_flagged hs))
    (chainWf_firstAttempt hc hs) (by rw [hhome, size_firstAttempt hs]; decide)
    (by rw [hhome, sizeField_firstAttempt hs]; decide) payload fuel σ.freeIdCount with
    ⟨loc, hl, hk, -⟩ | ⟨-, last, hlast, heq⟩
  · exact absurd hk (key_ne_firstAttempt hs hnew hl)
  · rw [hhome, chain_firstAttempt hs] at hlast
    obtain rfl : ⟨true, σ.home keyId⟩ = last := Option.some.inj hlast
    have hlink := linkTrace_eq keyId (after_retryNode hc hs payload)
      inBounds_firstAttempt (Or.inl (by rw [hhome])) σ.freeIdCount 1#8
    have hroot : ((σ.after (σ.retryStores keyId payload)).bucketAt
        ⟨true, σ.home keyId⟩).sizeField = 1#8 := by
      rw [after_retryStores hc hs, sizeField_firstAttempt hs]
    rw [hhome, List.append_assoc] at hlink
    rw [heq, hhome, sizeField_firstAttempt hs, appendTrace, freeSlotOrTakeTrace, if_pos hcount]
    simp only [mask_after]
    rw [show keyId &&& ~~~σ.mask = σ.home keyId from rfl, hlink,
      show σ.attemptStores keyId payload ⟨true, σ.home keyId⟩ ++
        (nodeStores σ.freeIdCount (σ.home keyId) keyId payload ++
          (σ.withLink keyId payload ⟨true, σ.home keyId⟩).linkStores σ.freeIdCount
            ⟨true, σ.home keyId⟩) = σ.retryStores keyId payload from rfl,
      casSizeFieldTrace_of_eq hroot]
    rfl

end RetryStores

/-! ## The whole call -/

/-- What an `Insert` comes to, with its stores in program order. -/
inductive Traced (σ : Builder) (keyId payload : BitVec 64) : Location → List Store → Prop
  | refused (hs : (σ.bucketAt ⟨true, σ.home keyId⟩).size ≠ 0#8) (hover : ¬ σ.Overflows keyId) :
      Traced σ keyId payload notInserted []
  | revived (hs : (σ.bucketAt ⟨true, σ.home keyId⟩).size = 0#8)
      (hr : σ.rootIdAt ⟨true, σ.home keyId⟩ = σ.home keyId) :
      Traced σ keyId payload notInserted [.sizeField ⟨true, σ.home keyId⟩ 1#8]
  | filled (hs : (σ.bucketAt ⟨true, σ.home keyId⟩).size = 0#8)
      (hroot : σ.rootIdAt ⟨true, σ.home keyId⟩ = allMask64) :
      Traced σ keyId payload ⟨true, σ.home keyId⟩
        (.sizeField ⟨true, σ.home keyId⟩ 1#8 :: rootStores (σ.home keyId) keyId payload)
  | overwritten (loc : Location) (hl : loc ∈ σ.chain (σ.home keyId))
      (hk : (σ.entry loc).1 = keyId &&& σ.mask) :
      Traced σ keyId payload loc [.payload loc (payload.setWidth 56)]
  | appended (last : Location) (hidden : List Store) (value : BitVec 8)
      (hlast : (σ.chain (σ.home keyId)).getLast? = some last)
      (hfree : σ.freeIdCount.ult σ.capacity)
      (hflag : (σ.bucketAt ⟨true, σ.home keyId⟩).sizeField ≠ 0xFF#8)
      (hnew : σ.find keyId = hashtableNFound) (hhidden : ∀ s ∈ hidden, Hidden σ last s)
      (htable : σ.after (hidden ++ [.sizeField ⟨true, σ.home keyId⟩ value]) =
        σ.appended keyId payload last) :
      Traced σ keyId payload σ.slot (hidden ++ [.sizeField ⟨true, σ.home keyId⟩ value])

/-- **One call of `Insert`, store by store**, for a key whose home slot does not hold a node
of another chain.  It calls itself again only for a root alone with its flag set, and
stores nothing only for two reasons. -/
theorem insertStores_cases (hle : σ.freeIdCount.toNat ≤ σ.capacity.toNat)
    (hc : ChainWf σ (σ.home keyId)) (hocc : ¬ σ.Trespasses keyId) (payload : BitVec 64) {fuel : ℕ}
    (hfuel : (σ.bucketAt ⟨true, σ.home keyId⟩).sizeField = 0x81#8 → fuel ≠ 0) :
    ∃ loc stores, σ.insertStores (fuel + 1) keyId payload = .ok (loc, stores) ∧
      Traced σ keyId payload loc stores ∧
      (stores = [] → (σ.bucketAt ⟨true, σ.home keyId⟩).sizeField = 0xFF#8 ∨
        ¬ σ.freeIdCount.ult σ.capacity) := by
  by_cases hs : (σ.bucketAt ⟨true, σ.home keyId⟩).size = 0#8
  · by_cases hroot : σ.rootIdAt ⟨true, σ.home keyId⟩ = allMask64
    · exact ⟨_, _, insertStores_of_empty hs hroot fuel, .filled hs hroot, by simp⟩
    · have hown : σ.rootIdAt ⟨true, σ.home keyId⟩ = σ.home keyId := by
        by_contra hne
        exact hocc ⟨hs, hroot, hne⟩
      exact ⟨_, _, insertStores_of_overflowed hs hown fuel, .revived hs hown, by simp⟩
  by_cases hfull : (σ.bucketAt ⟨true, σ.home keyId⟩).sizeField = 0xFF#8
  · refine ⟨notInserted, [], ?_, .refused hs fun hover => hover.2.1 hfull, fun _ => .inl hfull⟩
    rw [insertStores, insertTrace]
    exact (if_neg hs).trans (if_pos hfull)
  rcases insertTrace_search (after_nil σ) hc hs hfull payload fuel allMask64 with
    ⟨loc, hl, hk, heq⟩ | ⟨hnew, last, hlast, heq⟩
  · exact ⟨_, _, heq, .overwritten loc hl hk, by simp⟩
  rw [insertStores, heq]
  by_cases hfree : σ.freeIdCount.ult σ.capacity
  · rw [appendTrace_eq hc hlast hfree]
    by_cases hflag : (σ.bucketAt ⟨true, σ.home keyId⟩).sizeField = 0x81#8
    · -- the root is alone, and the first attempt clears its flag
      obtain rfl : ⟨true, σ.home keyId⟩ = last :=
        Option.some.inj ((getLast?_of_flagged hflag).symm.trans hlast)
      have hroot : ((σ.after (σ.attemptStores keyId payload ⟨true, σ.home keyId⟩)).bucketAt
          ⟨true, σ.home keyId⟩).sizeField ≠ (σ.bucketAt ⟨true, σ.home keyId⟩).sizeField := by
        rw [after_attemptStores hc hlast, sizeField_firstAttempt hflag, hflag]
        decide
      refine ⟨σ.slot, _, ?_, .appended _ (σ.retryStores keyId payload) (1#8 + 1) hlast hfree hfull
        hnew (hidden_retryStores hflag) ?_, by simp⟩
      · obtain ⟨n, rfl⟩ := Nat.exists_eq_succ_of_ne_zero (hfuel hflag)
        rw [casSizeFieldTrace, if_neg hroot]
        exact insertStores_of_flagged hc hflag hfree hnew n
      · rw [after_append, after_retryStores hc hflag, Builder.appended, RawBucket.counted,
          sizeField_firstAttempt hflag]
        rfl
    · have hok : ChainOk σ (σ.home keyId) := hc.ok fun h₁ => by
        have hbyte : ∀ x : BitVec 8, x &&& ~~~sizeFieldHiMask = 1#8 → x ≠ 0x81#8 → x = 1#8 := by
          decide
        exact hbyte _ h₁ hflag
      have hroot : ((σ.after (σ.attemptStores keyId payload last)).bucketAt
          ⟨true, σ.home keyId⟩).sizeField = (σ.bucketAt ⟨true, σ.home keyId⟩).sizeField := by
        rw [after_attemptStores hc hlast, sizeField_withLink hok hlast]
      refine ⟨σ.slot, _, ?_, .appended last (σ.attemptStores keyId payload last) _ hlast hfree
        hfull hnew hidden_attemptStores (after_counted hc hlast (sizeField_withLink hok hlast)),
        by simp⟩
      rw [casSizeFieldTrace_of_eq hroot]
  · refine ⟨notInserted, [], ?_, .refused hs fun hover => hfree hover.2.2.2, fun _ => .inr hfree⟩
    have hcap := σ.capacity_lt
    rw [BitVec.ult, decide_eq_true_eq] at hfree
    have hlt : σ.capacity.ult (σ.freeIdCount + 1) := by
      rw [BitVec.ult, decide_eq_true_eq, BitVec.toNat_add]
      simp
      omega
    have htake : σ.freeSlotOrTakeTrace [] allMask64 = none :=
      (if_neg (by simp)).trans (if_pos hlt)
    rw [appendTrace, htake]

theorem insert_of_insertStores {fuel : ℕ} {loc : Location} {stores : List Store}
    (hok : σ.insertStores fuel keyId payload = .ok (loc, stores)) :
    insert fuel keyId payload allMask64 σ = .ok (loc, σ.after stores) := by
  have hafter := @insertTrace_after σ fuel keyId payload allMask64 []
  rw [show σ.insertTrace fuel keyId payload allMask64 [] = .ok (loc, stores) from hok] at hafter
  exact hafter.symm

end Rtp.Qed.Builder
