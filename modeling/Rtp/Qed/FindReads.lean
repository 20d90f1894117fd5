import Rtp.Qed.Readers

/-!
# What a reader looks at

`Find` follows links that it does not check: nothing in it keeps it from leaving the tables,
and with the volatile read it starts again as long as the bucket it has found does not look
right.  Both are safe on the tables that one worker builds.

* `walk`, `findReads`, `findVolatileReads` — the buckets that the two readers look at.
* `mem_chain_of_mem_findReads` — they are the root and nodes of its chain.
* `readers_safe` — **on every table built by one worker** the two readers end with the same
  result and look at no bucket outside of the tables.
-/

namespace Rtp.Qed

open Chain Run

namespace HashTable

/-- The buckets the loop of `Find` looks at, with the number of those still to be looked at.
It stops at the first bucket that has the key, with or without the volatile read. -/
def walk (t : HashTable) (keyHighBits : BitVec 64) : ℕ → Location → List Location
  | 0, _ => []
  | n + 1, loc =>
    loc :: if (t.bucketAt loc).keyHighBits t.mask = keyHighBits then []
      else t.walk keyHighBits n ((t.bucketAt loc).nextBucket t.mask)

/-- The buckets `Find` looks at: the root, for its size, and those of its loop. -/
def findReads (t : HashTable) (keyId : BitVec 64) : List Location :=
  ⟨true, keyId &&& ~~~t.mask⟩ :: t.walk (keyId &&& t.mask)
    (t.managedBuckets (keyId &&& ~~~t.mask)).size.toNat ⟨true, keyId &&& ~~~t.mask⟩

/-- The buckets `Find` with the volatile read looks at, in all of its rounds. -/
def findVolatileReads (t : HashTable) (keyId : BitVec 64) : ℕ → List Location
  | 0 => []
  | fuel + 1 =>
    t.findReads keyId ++
      match t.findVolatileFrom (keyId &&& t.mask)
          (t.managedBuckets (keyId &&& ~~~t.mask)).size.toNat 0 ⟨true, keyId &&& ~~~t.mask⟩ with
      | some _ => []
      | none => t.findVolatileReads keyId fuel

theorem findVolatileReads_of_found (t : HashTable) {keyId payload : BitVec 64} (fuel : ℕ)
    (h : t.findVolatileFrom (keyId &&& t.mask)
      (t.managedBuckets (keyId &&& ~~~t.mask)).size.toNat 0 ⟨true, keyId &&& ~~~t.mask⟩ =
        some payload) : t.findVolatileReads keyId (fuel + 1) = t.findReads keyId := by
  simp only [findVolatileReads, h, List.append_nil]

end HashTable

namespace Builder

variable {σ : Builder}

theorem mem_iterate_of_mem_walk {keyHighBits : BitVec 64} {n : ℕ} {loc l : Location}
    (h : l ∈ σ.hashTable.walk keyHighBits n loc) : l ∈ List.iterate σ.next loc n := by
  induction n generalizing loc with
  | zero => cases h
  | succ n ih =>
    rw [iterate_succ]
    rw [HashTable.walk] at h
    rcases List.mem_cons.1 h with rfl | h
    · exact List.mem_cons_self
    · split at h
      · cases h
      · exact List.mem_cons_of_mem _ (ih h)

/-- `Find` looks at the root, and at nodes of its chain. -/
theorem mem_chain_of_mem_findReads {k : BitVec 64} {l : Location}
    (h : l ∈ σ.hashTable.findReads k) : l = ⟨true, σ.home k⟩ ∨ l ∈ σ.chain (σ.home k) :=
  (List.mem_cons.1 h).imp_right mem_iterate_of_mem_walk

theorem Sound.readable (hσ : σ.Sound) : σ.Readable :=
  ⟨fun h hb => (hσ.chains h hb).nodup, fun h hb => (hσ.chains h hb).size⟩

theorem Sound.inBounds_of_mem_findReads (hσ : σ.Sound) {k : BitVec 64} {l : Location}
    (h : l ∈ σ.hashTable.findReads k) : σ.inBounds l := by
  have hb := σ.inBounds_home k
  rcases mem_chain_of_mem_findReads h with rfl | hmem
  · exact hb
  · exact (hσ.chains _ hb).bounds l hmem

/-- The first round of the volatile read is the only one. -/
theorem Readable.findVolatileReads_eq (hσ : σ.Readable) (k : BitVec 64) (fuel : ℕ) :
    σ.hashTable.findVolatileReads k (fuel + 1) = σ.hashTable.findReads k :=
  σ.hashTable.findVolatileReads_of_found fuel (hσ.findVolatileFrom_home k)

end Builder

open Builder

variable {b : BucketType}

/-- **The readers are safe.**  Take any calls of `Insert` and `OptimizeFreeBucket` on a
reserved table in which at most 127 distinct keys share a home slot, and no `Insert` finds
its home slot occupied by a node of another chain.  After each of them, and for every key,
`Find` with the volatile read ends with the result of `Find` without it, and both look at
buckets only that are in the managed table, or in the part of the free table that has been
handed out. -/
theorem readers_safe {calls : List Call} (fuel : ℕ)
    (hcrowd : ∀ slot, (keysAt b slot (calls.filterMap Call.key?)).card ≤ 127)
    (hocc : Along (callStep (fuel + 1)) Unoccupied calls (reserved b)) (n : ℕ) :
    ∃ history σ, run (callStep (fuel + 1)) (calls.take n) (reserved b) = .ok (history, σ) ∧
      ∀ k rounds, σ.findVolatile k (rounds + 1) = some (σ.find k) ∧
        (∀ l ∈ σ.hashTable.findReads k, σ.inBounds l) ∧
        ∀ l ∈ σ.hashTable.findVolatileReads k (rounds + 1), σ.inBounds l := by
  obtain ⟨history, σ, hrun, hinv⟩ := run_inv fuel hcrowd hocc n
  have hreadable := hinv.sound.readable
  refine ⟨history, σ, hrun, fun k rounds => ⟨hreadable.findVolatile_eq k rounds,
    fun l hl => hinv.sound.inBounds_of_mem_findReads hl, fun l hl => ?_⟩⟩
  rw [hreadable.findVolatileReads_eq] at hl
  exact hinv.sound.inBounds_of_mem_findReads hl

/-- A table in which a node was moved to the managed table. -/
theorem readers_safe_sharing :
    Along (callStep 1) Unoccupied sharing (reserved smallest) ∧
      ∃ history σ, run (callStep 1) (sharing.take 3) (reserved smallest) = .ok (history, σ) ∧
        ∀ k rounds, σ.findVolatile k (rounds + 1) = some (σ.find k) ∧
          (∀ l ∈ σ.hashTable.findReads k, σ.inBounds l) ∧
          ∀ l ∈ σ.hashTable.findVolatileReads k (rounds + 1), σ.inBounds l := by
  have hocc : Along (callStep 1) Unoccupied sharing (reserved smallest) := by decide +kernel
  exact ⟨hocc, readers_safe 0 (fun slot => (card_keysAt_le _ _ _).trans (by decide)) hocc 3⟩

end Rtp.Qed
