import Rtp.Lib.Assoc
import Rtp.Lib.Chain
import Rtp.Qed.Builder

/-!
# The chains of a table

What the two tables mean.  The buckets of a home slot form a chain, from the managed
bucket of that number and as long as its size says; what a chain means is its list
of `entries`, an association list from key high bits to payloads.

* `find_eq` — **`Find` is a lookup** in the entries of the key's home slot.
* `Sound` — the invariant of a table: the nodes of a chain lie inside the tables and
  are recorded as belonging to its root, the keys of a chain are distinct, and every
  bucket of the free table that has a root is on that root's chain; `Wf` — what is left of it
  where the size of a root overflows.
* `Touches` — a change that leaves the nodes of all chains but one alone; it keeps
  the other chains and their entries, and `Touches.sound` reduces the invariant to the
  one chain that is changed.
-/

namespace Rtp.Qed.Builder

open Mask Assoc Chain

variable (σ : Builder)

/-! ## Reads after writes -/

@[simp] theorem bucketType_setBucket (loc : Location) (b : RawBucket) :
    (σ.setBucket loc b).bucketType = σ.bucketType := by
  rw [setBucket]; split <;> rfl

@[simp] theorem mask_setBucket (loc : Location) (b : RawBucket) :
    (σ.setBucket loc b).mask = σ.mask := by simp [mask]

@[simp] theorem freeIdCount_setBucket (loc : Location) (b : RawBucket) :
    (σ.setBucket loc b).freeIdCount = σ.freeIdCount := by
  rw [setBucket]; split <;> rfl

@[simp] theorem capacity_setBucket (loc : Location) (b : RawBucket) :
    (σ.setBucket loc b).capacity = σ.capacity := by simp [capacity]

@[simp] theorem inBounds_setBucket (loc loc' : Location) (b : RawBucket) :
    (σ.setBucket loc b).inBounds loc' = σ.inBounds loc' := by simp [inBounds]

@[simp] theorem rootIdAt_setBucket (loc : Location) (b : RawBucket) :
    (σ.setBucket loc b).rootIdAt = σ.rootIdAt := by
  funext loc'
  rw [rootIdAt, rootIdAt, setBucket]
  cases loc.internal <;> rfl

theorem bucketAt_setBucket (loc : Location) (b : RawBucket) :
    (σ.setBucket loc b).bucketAt = Function.update σ.bucketAt loc b := by
  funext ⟨internal', id'⟩
  obtain ⟨internal, id⟩ := loc
  by_cases h : id' = id
  · subst h
    cases internal <;> cases internal' <;>
      simp [bucketAt, setBucket, hashTable, HashTable.bucketAt]
  · cases internal <;> cases internal' <;>
      simp [bucketAt, setBucket, hashTable, HashTable.bucketAt, h]

@[simp] theorem bucketType_setRootId (loc : Location) (r : BitVec 64) :
    (σ.setRootId loc r).bucketType = σ.bucketType := by
  rw [setRootId]; split <;> rfl

@[simp] theorem mask_setRootId (loc : Location) (r : BitVec 64) :
    (σ.setRootId loc r).mask = σ.mask := by simp [mask]

@[simp] theorem freeIdCount_setRootId (loc : Location) (r : BitVec 64) :
    (σ.setRootId loc r).freeIdCount = σ.freeIdCount := by
  rw [setRootId]; split <;> rfl

@[simp] theorem bucketAt_setRootId (loc : Location) (r : BitVec 64) :
    (σ.setRootId loc r).bucketAt = σ.bucketAt := by
  funext loc'
  rw [bucketAt, bucketAt, setRootId]
  cases loc.internal <;> rfl

theorem rootIdAt_setRootId (loc : Location) (r : BitVec 64) :
    (σ.setRootId loc r).rootIdAt = Function.update σ.rootIdAt loc r := by
  funext ⟨internal', id'⟩
  obtain ⟨internal, id⟩ := loc
  by_cases h : id' = id
  · subst h
    cases internal <;> cases internal' <;>
      simp [rootIdAt, setRootId]
  · cases internal <;> cases internal' <;>
      simp [rootIdAt, setRootId, h]

/-- A compare-and-swap of the content that is there succeeds. -/
theorem casSizeField_of_eq {loc : Location} {expected : BitVec 8}
    (h : (σ.bucketAt loc).sizeField = expected) (new : BitVec 8) :
    σ.casSizeField loc expected new =
      some (σ.setBucket loc { σ.bucketAt loc with sizeField := new }) := by
  simp [casSizeField, h]

/-! ## Numbers of buckets -/

theorem toNat_capacity : σ.capacity.toNat = 2 ^ σ.bucketType.1 := by
  have hlt : 2 ^ σ.bucketType.1 < 2 ^ 64 :=
    Nat.pow_lt_pow_right (by omega) (by have := σ.bucketType.2; omega)
  rw [capacity, BitVec.toNat_shiftLeft, Nat.shiftLeft_eq]
  simpa using Nat.mod_eq_of_lt hlt

/-- A number is that of a managed bucket when it has no bits of the key mask. -/
theorem inBounds_managed_iff {id : BitVec 64} :
    σ.inBounds ⟨true, id⟩ = true ↔ id &&& ~~~σ.mask = id := by
  rw [mask, keyInfoHiMask, and_compl_eq_self_iff, ← toNat_capacity]
  simp [inBounds, BitVec.ult]

/-- The home slot of a key. -/
def home (keyId : BitVec 64) : BitVec 64 := keyId &&& ~~~σ.mask

/-- The home slot of a key is a managed bucket. -/
theorem inBounds_home (keyId : BitVec 64) : σ.inBounds ⟨true, σ.home keyId⟩ = true :=
  (inBounds_managed_iff σ).2 (and_compl_idem _ _)

theorem capacity_lt : σ.capacity.toNat ≤ 2 ^ 50 := by
  rw [toNat_capacity]
  exact Nat.pow_le_pow_right (by omega) σ.bucketType.2.2

/-- No bucket has the number that stands for "none". -/
theorem ne_allMask64 {id : BitVec 64} (h : σ.inBounds ⟨true, id⟩ = true) : id ≠ allMask64 := by
  rintro rfl
  have hlt : allMask64.toNat < σ.capacity.toNat := by simpa [inBounds, BitVec.ult] using h
  have hcap := σ.capacity_lt
  have hmax : allMask64.toNat = 2 ^ 64 - 1 := by decide
  omega

/-! ## Chains -/

/-- The place a bucket leads to. -/
def next (loc : Location) : Location := (σ.bucketAt loc).nextBucket σ.mask

/-- The chain of a home slot. -/
def chain (h : BitVec 64) : List Location :=
  List.iterate σ.next ⟨true, h⟩ (σ.bucketAt ⟨true, h⟩).size.toNat

/-- What a node holds: the high bits of its key, and its payload. -/
def entry (loc : Location) : BitVec 64 × BitVec 56 :=
  ((σ.bucketAt loc).keyHighBits σ.mask, (σ.bucketAt loc).payload)

/-- What a chain holds. -/
def entries (h : BitVec 64) : List (BitVec 64 × BitVec 56) := (σ.chain h).map σ.entry

/-- The result of `Find` for the payload of a node, or for none. -/
def foundPayload (payload : Option (BitVec 56)) : BitVec 64 :=
  payload.elim hashtableNFound fun p => p.setWidth 64

theorem findFrom_eq (keyHighBits : BitVec 64) (n : ℕ) (loc : Location) :
    σ.hashTable.findFrom keyHighBits n loc =
      foundPayload (((List.iterate σ.next loc n).map σ.entry).lookup keyHighBits) := by
  induction n generalizing loc with
  | zero => rfl
  | succ n ih =>
    rw [HashTable.findFrom, iterate_succ, List.map_cons, lookup_cons_eq]
    show (if (σ.entry loc).1 = keyHighBits then (σ.entry loc).2.setWidth 64
      else σ.hashTable.findFrom keyHighBits n (σ.next loc)) = _
    by_cases h : (σ.entry loc).1 = keyHighBits
    · rw [if_pos h, if_pos h]; rfl
    · rw [if_neg h, if_neg h, ih]

/-- **`Find` is a lookup in the entries of the home slot.** -/
theorem find_eq (keyId : BitVec 64) :
    σ.find keyId = foundPayload ((σ.entries (σ.home keyId)).lookup (keyId &&& σ.mask)) := by
  show (if (σ.bucketAt ⟨true, σ.home keyId⟩).size = 0#8 then hashtableNFound
    else σ.hashTable.findFrom _ (σ.bucketAt ⟨true, σ.home keyId⟩).size.toNat _) = _
  rw [findFrom_eq]
  split
  · rename_i h
    rw [entries, chain, h]; rfl
  · rfl

/-- Nothing is found in an empty home slot. -/
theorem find_of_size {keyId : BitVec 64} (hs : (σ.bucketAt ⟨true, σ.home keyId⟩).size = 0#8) :
    σ.find keyId = hashtableNFound := by
  rw [find_eq, entries, chain, hs]
  rfl

theorem length_chain (h : BitVec 64) :
    (σ.chain h).length = (σ.bucketAt ⟨true, h⟩).size.toNat := List.length_iterate _ _ _

theorem length_entries (h : BitVec 64) :
    (σ.entries h).length = (σ.bucketAt ⟨true, h⟩).size.toNat := by
  rw [entries, List.length_map, length_chain]

theorem mem_chain_self {h : BitVec 64} (hs : (σ.bucketAt ⟨true, h⟩).size.toNat ≠ 0) :
    (⟨true, h⟩ : Location) ∈ σ.chain h :=
  List.mem_iterate.2 ⟨0, Nat.pos_of_ne_zero hs, rfl⟩

variable {σ}

/-- A home slot is not touched by a change that keeps its size and its nodes. -/
theorem chain_congr {σ' : Builder} {h : BitVec 64} (hm : σ'.mask = σ.mask)
    (hs : (σ'.bucketAt ⟨true, h⟩).size = (σ.bucketAt ⟨true, h⟩).size)
    (hn : ∀ l ∈ σ.chain h, σ'.bucketAt l = σ.bucketAt l) : σ'.chain h = σ.chain h := by
  rw [chain, hs]
  refine iterate_congr fun l hl => ?_
  rw [next, next, hm, hn l (List.mem_of_mem_dropLast hl)]

theorem entries_congr {σ' : Builder} {h : BitVec 64} (hm : σ'.mask = σ.mask)
    (hs : (σ'.bucketAt ⟨true, h⟩).size = (σ.bucketAt ⟨true, h⟩).size)
    (hn : ∀ l ∈ σ.chain h, σ'.bucketAt l = σ.bucketAt l) : σ'.entries h = σ.entries h := by
  rw [entries, entries, chain_congr hm hs hn]
  exact List.map_congr_left fun l hl => by rw [entry, entry, hm, hn l hl]

/-! ## The invariant -/

/-- What a chain satisfies whatever its root has counted. -/
structure ChainWf (σ : Builder) (h : BitVec 64) : Prop where
  /-- Its nodes lie inside the tables. -/
  bounds : ∀ l ∈ σ.chain h, σ.inBounds l
  /-- They are recorded as belonging to its root. -/
  root : ∀ l ∈ σ.chain h, σ.rootIdAt l = h
  /-- All but the root have size zero. -/
  size : ∀ l ∈ σ.chain h, l ≠ ⟨true, h⟩ → (σ.bucketAt l).size = 0#8
  /-- The keys are distinct. -/
  keys : ((σ.entries h).map Prod.fst).Nodup

/-- What a chain must satisfy. -/
structure ChainOk (σ : Builder) (h : BitVec 64) : Prop extends wf : ChainWf σ h where
  /-- A root alone does not have the flag of a managed next bucket. -/
  single : (σ.bucketAt ⟨true, h⟩).size = 1#8 → (σ.bucketAt ⟨true, h⟩).sizeField = 1#8

/-- The invariant of a table that is written by one worker and in which no home slot
was claimed while another chain's node sat in it. -/
structure Sound (σ : Builder) : Prop where
  /-- No more free buckets are taken than there are. -/
  count_le : σ.freeIdCount.toNat ≤ σ.capacity.toNat
  chains : ∀ h, σ.inBounds ⟨true, h⟩ → ChainOk σ h
  /-- A free bucket with a root is on that root's chain. -/
  free : ∀ i, σ.inBounds ⟨false, i⟩ → σ.rootIdAt ⟨false, i⟩ ≠ allMask64 →
    σ.inBounds ⟨true, σ.rootIdAt ⟨false, i⟩⟩ ∧ ⟨false, i⟩ ∈ σ.chain (σ.rootIdAt ⟨false, i⟩)

/-- The invariant of a table that is written by one worker, whatever the roots have
counted. -/
structure Wf (σ : Builder) : Prop where
  count_le : σ.freeIdCount.toNat ≤ σ.capacity.toNat
  chains : ∀ h, σ.inBounds ⟨true, h⟩ → ChainWf σ h
  /-- A free bucket with a root has no size of its own. -/
  free_size : ∀ i, σ.inBounds ⟨false, i⟩ → σ.rootIdAt ⟨false, i⟩ ≠ allMask64 →
    (σ.bucketAt ⟨false, i⟩).size = 0#8
  free_root : ∀ i, σ.inBounds ⟨false, i⟩ → σ.rootIdAt ⟨false, i⟩ ≠ allMask64 →
    σ.inBounds ⟨true, σ.rootIdAt ⟨false, i⟩⟩

variable {l : Location}

theorem Sound.wf (hσ : σ.Sound) : σ.Wf := by
  refine ⟨hσ.count_le, fun h hb => (hσ.chains h hb).wf, fun i hi hr => ?_,
    fun i hi hr => (hσ.free i hi hr).1⟩
  obtain ⟨hroot, hmem⟩ := hσ.free i hi hr
  exact (hσ.chains _ hroot).size _ hmem (by simp)

/-- No place inside the tables has the number that stands for "none". -/
theorem id_ne_allMask64 (hle : σ.freeIdCount.toNat ≤ σ.capacity.toNat) (hb : σ.inBounds l) :
    l.id ≠ allMask64 := by
  refine σ.ne_allMask64 ?_
  obtain ⟨_ | _, i⟩ := l
  · simp only [inBounds, BitVec.ult, Bool.false_eq_true, if_false, if_true, decide_eq_true_eq]
      at hb ⊢
    omega
  · exact hb

theorem Sound.id_ne_allMask64 (hσ : σ.Sound) (hb : σ.inBounds l) : l.id ≠ allMask64 :=
  Builder.id_ne_allMask64 hσ.count_le hb

/-- The two differ on the chain of a root alone only. -/
theorem ChainWf.ok {h : BitVec 64} (hc : ChainWf σ h)
    (h₁ : (σ.bucketAt ⟨true, h⟩).size = 1#8 → (σ.bucketAt ⟨true, h⟩).sizeField = 1#8) :
    ChainOk σ h := ⟨hc, h₁⟩

theorem ChainWf.nodup {h : BitVec 64} (hc : ChainWf σ h) : (σ.chain h).Nodup := by
  have hk := hc.keys
  rw [entries, List.map_map] at hk
  exact List.Nodup.of_map _ hk

/-- An empty chain. -/
theorem chainWf_of_size {h : BitVec 64} (hs : (σ.bucketAt ⟨true, h⟩).size = 0#8) :
    ChainWf σ h := by
  have hc : σ.chain h = [] := by rw [chain, hs]; rfl
  refine ⟨?_, ?_, ?_, ?_⟩
  · rw [hc]; exact fun l hl => absurd hl List.not_mem_nil
  · rw [hc]; exact fun l hl => absurd hl List.not_mem_nil
  · rw [hc]; exact fun l hl => absurd hl List.not_mem_nil
  · rw [entries, hc]; exact List.nodup_nil

/-- A root alone. -/
theorem chainWf_of_single {h : BitVec 64} (hs : (σ.bucketAt ⟨true, h⟩).size = 1#8)
    (hb : σ.inBounds ⟨true, h⟩) (hr : σ.rootIdAt ⟨true, h⟩ = h) : ChainWf σ h := by
  have hc : σ.chain h = [⟨true, h⟩] := by rw [chain, hs]; rfl
  refine ⟨?_, ?_, ?_, ?_⟩
  · rw [hc]
    intro l hl
    rwa [List.mem_singleton.1 hl]
  · rw [hc]
    intro l hl
    rwa [List.mem_singleton.1 hl]
  · rw [hc]
    exact fun l hl hne => absurd (List.mem_singleton.1 hl) hne
  · rw [entries, hc]
    exact List.nodup_singleton _

theorem chainOk_of_size {h : BitVec 64} (hs : (σ.bucketAt ⟨true, h⟩).size = 0#8) :
    ChainOk σ h :=
  (chainWf_of_size hs).ok fun h₁ => absurd (hs.symm.trans h₁) (by decide)

/-- The nodes from `a` on, which is the one with the number `i` of its chain: none occurs twice,
and only the first one of the chain has a size. -/
structure Walkable (σ : Builder) (n i : ℕ) (a : Location) : Prop where
  root : i = 0 → n ≠ 0 → (σ.bucketAt a).size ≠ 0#8
  size : ∀ l ∈ List.iterate σ.next a n, l ≠ a ∨ i ≠ 0 → (σ.bucketAt l).size = 0#8
  nodup : (List.iterate σ.next a n).Nodup

theorem walkable_chain {h : BitVec 64} (hnd : (σ.chain h).Nodup)
    (hsize : ∀ l ∈ σ.chain h, l ≠ ⟨true, h⟩ → (σ.bucketAt l).size = 0#8) :
    Walkable σ (σ.bucketAt ⟨true, h⟩).size.toNat 0 ⟨true, h⟩ :=
  ⟨fun _ hn h0 => hn (by rw [h0]; rfl),
    fun l hl hl' => hsize l hl (hl'.resolve_right fun h => h rfl), hnd⟩

section Walkable

variable {n i : ℕ} {a : Location} (h : Walkable σ (n + 1) i a)

include h

theorem Walkable.size_eq_zero_iff : (σ.bucketAt a).size = 0#8 ↔ i ≠ 0 :=
  ⟨fun hs hi => h.root hi (Nat.succ_ne_zero n) hs,
    fun hi => h.size a (List.mem_cons_self ..) (Or.inr hi)⟩

theorem Walkable.tail : Walkable σ n (i + 1) (σ.next a) := by
  obtain ⟨hnot, hnd⟩ := List.nodup_cons.1 h.nodup
  refine ⟨fun hi => absurd hi (Nat.succ_ne_zero i), fun l hl _ => ?_, hnd⟩
  refine h.size l (List.mem_cons_of_mem _ hl) (Or.inl ?_)
  rintro rfl
  exact hnot hl

end Walkable

theorem sound_reserved (b : BucketType) : (reserved b).Sound :=
  ⟨Nat.zero_le _, fun _ _ => chainOk_of_size (show RawBucket.zero.size = 0#8 by decide),
    fun _ _ hr => absurd rfl hr⟩

/-! ## Changes to one chain -/

/-- A change of the table that touches the chain of one home slot only. -/
structure Touches (h : BitVec 64) (σ τ : Builder) : Prop where
  bucketType : τ.bucketType = σ.bucketType
  count_le : σ.freeIdCount.toNat ≤ τ.freeIdCount.toNat
  size : ∀ h', h' ≠ h → (τ.bucketAt ⟨true, h'⟩).size = (σ.bucketAt ⟨true, h'⟩).size
  bucketAt : ∀ l, σ.inBounds l → σ.rootIdAt l ≠ h → σ.rootIdAt l ≠ allMask64 →
    τ.bucketAt l = σ.bucketAt l
  rootIdAt : ∀ l, σ.inBounds l → σ.rootIdAt l ≠ h → σ.rootIdAt l ≠ allMask64 →
    τ.rootIdAt l = σ.rootIdAt l

section Touches

variable {h : BitVec 64} {τ : Builder}

theorem Touches.mask (ht : Touches h σ τ) : τ.mask = σ.mask := by
  rw [Builder.mask, Builder.mask, ht.bucketType]

theorem Touches.capacity (ht : Touches h σ τ) : τ.capacity = σ.capacity := by
  rw [Builder.capacity, Builder.capacity, ht.bucketType]

theorem Touches.inBounds_managed (ht : Touches h σ τ) (i : BitVec 64) :
    τ.inBounds ⟨true, i⟩ = σ.inBounds ⟨true, i⟩ := by
  simp [inBounds, ht.capacity]

theorem Touches.inBounds (ht : Touches h σ τ) (hl : σ.inBounds l) : τ.inBounds l := by
  obtain ⟨_ | _, i⟩ := l
  · have hlt := ht.count_le
    simp only [Builder.inBounds, BitVec.ult, Bool.false_eq_true, if_false, decide_eq_true_eq]
      at hl ⊢
    omega
  · rwa [ht.inBounds_managed]

variable {h' : BitVec 64}

/-- A node of another chain is as it was. -/
theorem Touches.node (ht : Touches h σ τ) (hne : h' ≠ h) (hb : σ.inBounds ⟨true, h'⟩)
    (hc : ChainWf σ h') (hl : l ∈ σ.chain h') :
    τ.bucketAt l = σ.bucketAt l ∧ τ.rootIdAt l = σ.rootIdAt l := by
  have hr := hc.root l hl
  have hne' : σ.rootIdAt l ≠ h := hr ▸ hne
  have hall : σ.rootIdAt l ≠ allMask64 := hr ▸ σ.ne_allMask64 hb
  exact ⟨ht.bucketAt l (hc.bounds l hl) hne' hall, ht.rootIdAt l (hc.bounds l hl) hne' hall⟩

theorem Touches.chain (ht : Touches h σ τ) (hne : h' ≠ h) (hb : σ.inBounds ⟨true, h'⟩)
    (hc : ChainWf σ h') : τ.chain h' = σ.chain h' :=
  chain_congr ht.mask (ht.size h' hne) fun _ hl => (ht.node hne hb hc hl).1

theorem Touches.entries (ht : Touches h σ τ) (hne : h' ≠ h) (hb : σ.inBounds ⟨true, h'⟩)
    (hc : ChainWf σ h') : τ.entries h' = σ.entries h' :=
  entries_congr ht.mask (ht.size h' hne) fun _ hl => (ht.node hne hb hc hl).1

theorem Touches.chainWf (ht : Touches h σ τ) (hne : h' ≠ h) (hb : σ.inBounds ⟨true, h'⟩)
    (hc : ChainWf σ h') : ChainWf τ h' := by
  have hch := ht.chain hne hb hc
  refine ⟨fun l hl => ?_, fun l hl => ?_, fun l hl hlr => ?_, ?_⟩
  · exact ht.inBounds (hc.bounds l (hch ▸ hl))
  · rw [(ht.node hne hb hc (hch ▸ hl)).2, hc.root l (hch ▸ hl)]
  · rw [(ht.node hne hb hc (hch ▸ hl)).1, hc.size l (hch ▸ hl) hlr]
  · rw [ht.entries hne hb hc]; exact hc.keys

theorem Touches.chainOk (ht : Touches h σ τ) (hne : h' ≠ h) (hb : σ.inBounds ⟨true, h'⟩)
    (hc : ChainOk σ h') : ChainOk τ h' := by
  refine (ht.chainWf hne hb hc.wf).ok fun h₁ => ?_
  rw [ht.size h' hne] at h₁
  have hmem : (⟨true, h'⟩ : Location) ∈ σ.chain h' := σ.mem_chain_self (by rw [h₁]; decide)
  rw [(ht.node hne hb hc.wf hmem).1]
  exact hc.single h₁

/-- A change to one chain keeps the invariant when it leaves that chain in order,
and with it the free buckets that were on it or are on it now. -/
theorem Touches.sound (ht : Touches h σ τ) (hσ : σ.Sound)
    (hcount : τ.freeIdCount.toNat ≤ τ.capacity.toNat) (hb : σ.inBounds ⟨true, h⟩)
    (hc : ChainOk τ h)
    (hfree : ∀ i, τ.inBounds ⟨false, i⟩ → τ.rootIdAt ⟨false, i⟩ ≠ allMask64 →
      (σ.inBounds ⟨false, i⟩ ∧ σ.rootIdAt ⟨false, i⟩ ≠ h ∧
        τ.rootIdAt ⟨false, i⟩ = σ.rootIdAt ⟨false, i⟩) ∨
      (τ.rootIdAt ⟨false, i⟩ = h ∧ ⟨false, i⟩ ∈ τ.chain h)) : τ.Sound := by
  refine ⟨hcount, fun h' hb' => ?_, fun i hi hr => ?_⟩
  · rw [ht.inBounds_managed] at hb'
    by_cases hne : h' = h
    · subst hne; exact hc
    · exact ht.chainOk hne hb' (hσ.chains h' hb')
  · rcases hfree i hi hr with ⟨hi', hne, heq⟩ | ⟨hroot, hmem⟩
    · rw [heq] at hr ⊢
      obtain ⟨hb', hmem⟩ := hσ.free i hi' hr
      rw [ht.inBounds_managed, ht.chain hne hb' (hσ.chains _ hb').wf]
      exact ⟨hb', hmem⟩
    · rw [hroot, ht.inBounds_managed]
      exact ⟨hb, hmem⟩

/-- So is the weaker invariant, when the free buckets are left in order. -/
theorem Touches.wf (ht : Touches h σ τ) (hσ : σ.Wf)
    (hcount : τ.freeIdCount.toNat ≤ τ.capacity.toNat) (hc : ChainWf τ h)
    (hfree : ∀ i, τ.inBounds ⟨false, i⟩ → τ.rootIdAt ⟨false, i⟩ ≠ allMask64 →
      (τ.bucketAt ⟨false, i⟩).size = 0#8 ∧ σ.inBounds ⟨true, τ.rootIdAt ⟨false, i⟩⟩) : τ.Wf := by
  refine ⟨hcount, fun h' hb' => ?_, fun i hi hr => (hfree i hi hr).1, fun i hi hr => ?_⟩
  · rw [ht.inBounds_managed] at hb'
    by_cases hne : h' = h
    · exact hne ▸ hc
    · exact ht.chainWf hne hb' (hσ.chains h' hb')
  · rw [ht.inBounds_managed]
    exact (hfree i hi hr).2

end Touches

end Rtp.Qed.Builder
