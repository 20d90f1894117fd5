import Rtp.Lib.Run
import Rtp.Qed.Insert
import Rtp.Qed.Optimize

/-!
# A table built by one worker

Runs of `Insert` and `OptimizeFreeBucket` calls on a table that has just been reserved.
What a run should leave behind is said by its history alone: under every key the payload
of the last successful `Insert` of that key (`lastStored`).

* `Inv` — the table is sound and agrees with its history; `callStep_inv` — a call that
  fits keeps it.
* `build_correct` — **every run whose `Insert`s find their home slot unoccupied**, with
  at most 127 distinct keys to a home slot, agrees with its history.
-/

namespace Rtp.Qed

open Mask Assoc Run Builder

/-- A call made by the worker. -/
inductive Call where
  | insert (keyId payload : BitVec 64)
  | optimizeFreeBucket (location : Location) (level : BitVec 8)
  deriving DecidableEq, Repr

/-- What a call returns. -/
inductive Result where
  | inserted (location : Location)
  | optimized (success : Bool)
  deriving DecidableEq, Repr

/-- The key of an `Insert`. -/
def Call.key? : Call → Option (BitVec 64)
  | .insert keyId _ => some keyId
  | .optimizeFreeBucket _ _ => none

/-- One call, on its tables. -/
def callStep (fuel : ℕ) : Call → Builder → Except Fault (Result × Builder)
  | .insert keyId payload, σ =>
    match insert fuel keyId payload allMask64 σ with
    | .error e => .error e
    | .ok (location, τ) => .ok (.inserted location, τ)
  | .optimizeFreeBucket location level, σ =>
    match σ.optimizeFreeBucket location level fuel with
    | .error e => .error e
    | .ok (success, τ) => .ok (.optimized success, τ)

/-! ## What a history stores -/

/-- The key and the payload a successful `Insert` stores. -/
def storedBy : Call × Result → Option (BitVec 64 × BitVec 64)
  | (.insert keyId payload, .inserted location) =>
    if location.id = hashtableNFound then none
    else some (keyId, BitVec.ofNat 64 (payload.toNat % 2 ^ 56))
  | _ => none

/-- The payload of the last successful `Insert` of the key, modulo `2 ^ 56`, and
`QED_HASHTABLE_NFOUND` when there is none. -/
def lastStored (history : List (Call × Result)) (k : BitVec 64) : BitVec 64 :=
  ((history.reverse.filterMap storedBy).lookup k).getD hashtableNFound

/-- The keys that have been stored. -/
def storedKeys (history : List (Call × Result)) : List (BitVec 64) :=
  (history.filterMap storedBy).map Prod.fst

/-- The distinct keys with a given home slot. -/
def keysAt (b : BucketType) (slot : BitVec 64) (keys : List (BitVec 64)) : Finset (BitVec 64) :=
  (keys.filter fun k => k &&& ~~~keyInfoHiMask b.1 = slot).toFinset

variable {keys : List (BitVec 64)}

theorem mem_keysAt {b : BucketType} {slot k : BitVec 64} :
    k ∈ keysAt b slot keys ↔ k ∈ keys ∧ k &&& ~~~keyInfoHiMask b.1 = slot := by
  simp [keysAt]

theorem lastStored_concat (history : List (Call × Result)) (e : Call × Result) (k : BitVec 64) :
    lastStored (history ++ [e]) k =
      match storedBy e with
      | none => lastStored history k
      | some (keyId, p) => if k = keyId then p else lastStored history k := by
  rw [lastStored, List.reverse_concat, List.filterMap_cons]
  cases storedBy e with
  | none => rfl
  | some q =>
    obtain ⟨keyId, p⟩ := q
    simp only [lookup_cons_eq]
    by_cases hk : k = keyId
    · rw [if_pos hk, if_pos hk.symm]; rfl
    · rw [if_neg hk, if_neg (Ne.symm hk)]; rfl

theorem storedBy_snd_ne {e : Call × Result} {q : BitVec 64 × BitVec 64}
    (h : storedBy e = some q) : q.2 ≠ hashtableNFound := by
  obtain ⟨c, r⟩ := e
  cases c with
  | optimizeFreeBucket => simp [storedBy] at h
  | insert keyId payload =>
    cases r with
    | optimized => simp [storedBy] at h
    | inserted location =>
      rw [storedBy] at h
      split at h
      · simp at h
      · rw [← Option.some.inj h, ← foundPayload_some]
        exact foundPayload_ne _

/-- A key has been stored exactly when something other than the mark of absence is. -/
theorem mem_storedKeys {history : List (Call × Result)} {k : BitVec 64} :
    k ∈ storedKeys history ↔ lastStored history k ≠ hashtableNFound := by
  have hmem : k ∈ storedKeys history ↔ k ∈ (history.reverse.filterMap storedBy).map Prod.fst := by
    rw [storedKeys, List.filterMap_reverse, List.map_reverse, List.mem_reverse]
  rw [hmem, lastStored, ← not_iff_not, not_not, ← lookup_eq_none_iff]
  cases hl : (history.reverse.filterMap storedBy).lookup k with
  | none => exact iff_of_true rfl rfl
  | some p =>
    refine iff_of_false (by simp) fun hp => ?_
    obtain ⟨e, -, he⟩ := List.mem_filterMap.1 (mem_of_lookup hl)
    exact storedBy_snd_ne he hp

theorem storedKeys_subset {history : List (Call × Result)} {k : BitVec 64}
    (h : k ∈ storedKeys history) : k ∈ (history.map Prod.fst).filterMap Call.key? := by
  obtain ⟨⟨k', p⟩, hq, rfl⟩ := List.mem_map.1 h
  obtain ⟨⟨c, r⟩, he, hs⟩ := List.mem_filterMap.1 hq
  refine List.mem_filterMap.2 ⟨c, List.mem_map.2 ⟨(c, r), he, rfl⟩, ?_⟩
  cases c with
  | optimizeFreeBucket => simp [storedBy] at hs
  | insert keyId payload =>
    cases r with
    | optimized => simp [storedBy] at hs
    | inserted location =>
      rw [storedBy] at hs
      split at hs
      · simp at hs
      · rw [Option.some.injEq, Prod.mk.injEq] at hs
        rw [Call.key?, hs.1]

/-! ## The keys of a chain -/

/-- The keys stored in a home slot. -/
def keysOf (σ : Builder) (slot : BitVec 64) : Finset (BitVec 64) :=
  ((σ.entries slot).map fun e => splice σ.mask e.1 slot).toFinset

variable {slot : BitVec 64}

/-- The key high bits of an entry have nothing outside the mask. -/
theorem entry_and_mask {σ : Builder} {e : BitVec 64 × BitVec 56} (he : e ∈ σ.entries slot) :
    e.1 &&& σ.mask = e.1 := by
  obtain ⟨l, -, rfl⟩ := List.mem_map.1 he
  rw [entry, RawBucket.keyHighBits, BitVec.and_assoc, BitVec.and_self]

theorem mem_keysOf {σ : Builder} {slot k : BitVec 64} (hb : σ.inBounds ⟨true, slot⟩) :
    k ∈ keysOf σ slot ↔ σ.home k = slot ∧ σ.find k ≠ hashtableNFound := by
  have hslot := (inBounds_managed_iff σ).1 hb
  rw [keysOf, List.mem_toFinset, List.mem_map, ne_eq, find_eq_nfound_iff, not_not]
  constructor
  · rintro ⟨e, he, rfl⟩
    have hhome : σ.home (splice σ.mask e.1 slot) = slot := by
      rw [home, splice_and_compl, hslot]
    refine ⟨hhome, ?_⟩
    rw [hhome, splice_and_mask, entry_and_mask he]
    exact List.mem_map_of_mem he
  · rintro ⟨rfl, hk⟩
    obtain ⟨e, he, hek⟩ := List.mem_map.1 hk
    refine ⟨e, he, eq_of_masked (m := σ.mask) ?_ ?_⟩
    · rw [splice_and_mask, hek, BitVec.and_assoc, BitVec.and_self]
    · rw [splice_and_compl, hslot]; rfl

/-- A home slot whose root counts any node has a key that is found. -/
theorem exists_key {σ : Builder} (hb : σ.inBounds ⟨true, slot⟩)
    (hs : (σ.bucketAt ⟨true, slot⟩).size ≠ 0#8) :
    ∃ k, σ.home k = slot ∧ σ.find k ≠ hashtableNFound := by
  have hne : keysOf σ slot ≠ ∅ := by
    rw [keysOf, ne_eq, List.toFinset_eq_empty_iff, List.map_eq_nil_iff, ← List.length_eq_zero_iff,
      length_entries]
    exact fun h => hs (BitVec.eq_of_toNat_eq h)
  obtain ⟨k, hk⟩ := Finset.nonempty_iff_ne_empty.2 hne
  exact ⟨k, (mem_keysOf hb).1 hk⟩

/-- **The size at a root is the number of keys stored in its home slot.** -/
theorem card_keysOf {σ : Builder} (hσ : σ.Sound) (hb : σ.inBounds ⟨true, slot⟩) :
    (keysOf σ slot).card = (σ.bucketAt ⟨true, slot⟩).size.toNat := by
  rw [keysOf, List.toFinset_card_of_nodup, List.length_map, length_entries]
  have hk := (hσ.chains slot hb).keys
  refine List.Nodup.map_on (fun e he e' he' h => ?_) (List.Nodup.of_map _ hk)
  have h1 : e.1 = e'.1 := by
    rw [← entry_and_mask he, ← entry_and_mask he', ← splice_and_mask σ.mask e.1 slot, h,
      splice_and_mask]
  exact List.inj_on_of_nodup_map hk he he' h1

/-! ## Runs -/

/-- A table that is sound and agrees with its history. -/
structure Inv (b : BucketType) (history : List (Call × Result)) (σ : Builder) : Prop where
  sound : σ.Sound
  bucketType : σ.bucketType = b
  find : ∀ k, σ.find k = lastStored history k

/-- An `Insert` that finds its home slot unoccupied. -/
def Unoccupied (σ : Builder) : Call → Prop
  | .insert keyId _ => ¬ σ.Occupied keyId
  | .optimizeFreeBucket _ _ => True

/-- An `Insert` that does not overflow the size of a root. -/
def Countable (σ : Builder) : Call → Prop
  | .insert keyId _ => ¬ σ.Overflows keyId
  | .optimizeFreeBucket _ _ => True

instance (σ : Builder) : (c : Call) → Decidable (Unoccupied σ c)
  | .insert keyId _ => inferInstanceAs (Decidable (¬ σ.Occupied keyId))
  | .optimizeFreeBucket _ _ => isTrue trivial

theorem inv_reserved (b : BucketType) : Inv b [] (reserved b) := by
  refine ⟨sound_reserved b, rfl, fun k => ?_⟩
  rw [find_eq_nfound_iff.2]
  · rfl
  · have hnil : (reserved b).entries ((reserved b).home k) = [] := by
      rw [entries, chain, show ((reserved b).bucketAt ⟨true, _⟩).size = 0#8 from
        show RawBucket.zero.size = 0#8 by decide]
      rfl
    rw [hnil]
    exact List.not_mem_nil

variable {b : BucketType} {history : List (Call × Result)} {σ : Builder}

/-- A failed `Insert` leaves the agreement with the history as it is. -/
theorem Inv.insert_failed (h : Inv b history σ) (keyId payload : BitVec 64) :
    Inv b (history ++ [(.insert keyId payload, .inserted notInserted)]) σ := by
  refine ⟨h.sound, h.bucketType, fun k => ?_⟩
  rw [lastStored_concat, h.find]
  rfl

/-- A successful `Insert` that fits keeps the agreement with the history. -/
theorem Inv.inserted (h : Inv b history σ) {keyId payload : BitVec 64} {loc : Location}
    {τ : Builder} (hi : Inserted σ keyId payload loc τ) (hover : ¬ σ.Overflows keyId) :
    Inv b (history ++ [(.insert keyId payload, .inserted loc)]) τ := by
  have hs := hi.stores h.sound hover
  refine ⟨hi.sound h.sound hover, hs.bucketType.trans h.bucketType, fun k => ?_⟩
  rw [lastStored_concat, hs.find, h.find]
  simp only [storedBy, if_neg (hi.id_ne_nfound h.sound)]

/-- **One call that fits** returns, and keeps the invariant. -/
theorem callStep_inv (h : Inv b history σ) {c : Call} (hocc : Unoccupied σ c)
    (hover : Countable σ c) (fuel : ℕ) :
    ∃ r τ, callStep (fuel + 1) c σ = .ok (r, τ) ∧ Inv b (history ++ [(c, r)]) τ := by
  cases c with
  | insert keyId payload =>
    rcases insert_cases h.sound hocc payload fuel with ⟨hfail, -⟩ | ⟨loc, τ, hok, hi⟩
    · exact ⟨_, σ, by rw [callStep, hfail], h.insert_failed keyId payload⟩
    · exact ⟨_, τ, by rw [callStep, hok], h.inserted hi hover⟩
  | optimizeFreeBucket location level =>
    obtain ⟨r, τ, hok, ho⟩ := optimizeFreeBucket_wf h.sound.wf location level fuel
    refine ⟨.optimized r, τ, by rw [callStep, hok], ho.sound h.sound,
      ho.bucketType.trans h.bucketType, fun k => ?_⟩
    rw [lastStored_concat, ho.find h.sound.wf, h.find]
    rfl

/-- A call that overflows a root makes one more distinct key with its home slot than the
size can count. -/
theorem Inv.card_of_overflows (h : Inv b history σ) {keyId : BitVec 64}
    (hover : σ.Overflows keyId) :
    128 ≤ (keysAt b (σ.home keyId)
      ((history.map Prod.fst).filterMap Call.key? ++ [keyId])).card := by
  have hb := σ.inBounds_home keyId
  have hmask : ∀ k, k &&& ~~~keyInfoHiMask b.1 = σ.home k := fun k => by
    rw [home, mask, h.bucketType]
  have hnew : keyId ∉ keysOf σ (σ.home keyId) := fun hmem =>
    ((mem_keysOf hb).1 hmem).2 hover.2.2.1
  have hcard : (insert keyId (keysOf σ (σ.home keyId))).card = 128 := by
    rw [Finset.card_insert_of_notMem hnew, card_keysOf h.sound hb, hover.1]
    rfl
  rw [← hcard]
  refine Finset.card_le_card fun k hk => ?_
  rw [mem_keysAt, List.mem_append, hmask]
  rcases Finset.mem_insert.1 hk with rfl | hk
  · exact ⟨.inr (List.mem_singleton_self _), rfl⟩
  · obtain ⟨hhome, hfind⟩ := (mem_keysOf hb).1 hk
    rw [h.find] at hfind
    exact ⟨.inl (storedKeys_subset (mem_storedKeys.2 hfind)), hhome⟩

/-- With at most 127 distinct keys to a home slot, among them those of the calls so far
and the one of this call, the call does not overflow. -/
theorem Inv.not_overflows (h : Inv b history σ) {keyId : BitVec 64}
    (hkeys : (history.map Prod.fst).filterMap Call.key? ++ [keyId] ⊆ keys)
    (hcrowd : ∀ slot, (keysAt b slot keys).card ≤ 127) : ¬ σ.Overflows keyId := by
  intro hover
  have h128 := h.card_of_overflows hover
  have hle := hcrowd (σ.home keyId)
  have hsub : (keysAt b (σ.home keyId)
      ((history.map Prod.fst).filterMap Call.key? ++ [keyId])).card ≤
      (keysAt b (σ.home keyId) keys).card := by
    refine Finset.card_le_card fun k hk => ?_
    rw [mem_keysAt] at hk ⊢
    exact ⟨hkeys hk.1, hk.2⟩
  omega

/-- With at most 127 distinct keys to a home slot, no call of a run overflows: all of them
return, and keep the invariant. -/
theorem run_inv {calls : List Call} (fuel : ℕ)
    (hcrowd : ∀ slot, (keysAt b slot (calls.filterMap Call.key?)).card ≤ 127)
    (hocc : Along (callStep (fuel + 1)) Unoccupied calls (reserved b)) (n : ℕ) :
    ∃ history σ, run (callStep (fuel + 1)) (calls.take n) (reserved b) = .ok (history, σ) ∧
      Inv b history σ := by
  refine run_of_along (I := Inv b) (P := fun σ c => Unoccupied σ c ∧ Countable σ c)
    (fun history σ c hinv hc => callStep_inv hinv hc.1 hc.2 fuel) (inv_reserved b)
    (Along.take ?_ n)
  refine along_of (I := Inv b) (l := calls) ?_ ?_ (inv_reserved b) rfl hocc
  · intro history σ c cs hinv hall hc
    refine ⟨hc, ?_⟩
    cases c with
    | optimizeFreeBucket => trivial
    | insert keyId payload =>
      refine hinv.not_overflows (fun k hk => ?_) hcrowd
      rw [← hall, List.filterMap_append, List.mem_append]
      refine (List.mem_append.1 hk).imp_right fun hk => ?_
      rw [List.mem_singleton.1 hk]
      exact List.mem_cons_self ..
  · intro history σ c r τ hinv hc hok
    obtain ⟨r', τ', hok', hinv'⟩ := callStep_inv hinv hc.1 hc.2 fuel
    rw [hok, Except.ok.injEq, Prod.mk.injEq] at hok'
    rwa [hok'.1, hok'.2]

/-- **A table built by one worker agrees with its history.**  Take any calls of `Insert`
and `OptimizeFreeBucket` on a reserved table in which at most 127 distinct keys share a
home slot, and no `Insert` finds its home slot occupied by a node of another chain.  All of
them return, and after each of them `Find` gives for every key the payload of its last
successful `Insert`. -/
theorem build_correct {calls : List Call} (fuel : ℕ)
    (hcrowd : ∀ slot, (keysAt b slot (calls.filterMap Call.key?)).card ≤ 127)
    (hocc : Along (callStep (fuel + 1)) Unoccupied calls (reserved b)) (n : ℕ) :
    ∃ history σ, run (callStep (fuel + 1)) (calls.take n) (reserved b) = .ok (history, σ) ∧
      ∀ k, σ.find k = lastStored history k := by
  obtain ⟨history, σ, hrun, hinv⟩ := run_inv fuel hcrowd hocc n
  exact ⟨history, σ, hrun, hinv.find⟩

theorem card_keysAt_le (b : BucketType) (slot : BitVec 64) (keys : List (BitVec 64)) :
    (keysAt b slot keys).card ≤ keys.length :=
  (List.toFinset_card_le _).trans (List.length_filter_le _ _)

theorem card_keysAt_of_nodup {b : BucketType} (hnodup : keys.Nodup)
    (hslot : ∀ k ∈ keys, k &&& ~~~keyInfoHiMask b.1 = slot) :
    (keysAt b slot keys).card = keys.length := by
  have hall : (keys.filter fun k => k &&& ~~~keyInfoHiMask b.1 = slot) = keys :=
    List.filter_eq_self.mpr fun k hk => decide_eq_true (hslot k hk)
  rw [keysAt, hall, List.toFinset_card_of_nodup hnodup]

/-- The smallest bucket type. -/
def smallest : BucketType := ⟨2, by decide⟩

/-- Two keys of the home slot `0`, of which the second is moved to the managed bucket
`1`. -/
def sharing : List Call :=
  [.insert 0 10, .insert 4 20, .optimizeFreeBucket ⟨false, 0⟩ 0]

/-- The table agrees with its history as long as the moved node is left in peace. -/
theorem build_correct_sharing :
    Along (callStep 1) Unoccupied sharing (reserved smallest) ∧
      ∃ history σ, run (callStep 1) (sharing.take 3) (reserved smallest) = .ok (history, σ) ∧
        ∀ k, σ.find k = lastStored history k := by
  have hocc : Along (callStep 1) Unoccupied sharing (reserved smallest) := by decide +kernel
  exact ⟨hocc, build_correct 0 (fun slot => (card_keysAt_le _ _ _).trans (by decide)) hocc 3⟩

/-- The same, and then a key whose home slot is the managed bucket `1`. -/
def displacing : List (Call × Result) :=
  [(.insert 0 10, .inserted ⟨true, 0⟩), (.insert 4 20, .inserted ⟨false, 0⟩),
    (.optimizeFreeBucket ⟨false, 0⟩ 0, .optimized true), (.insert 1 30, .inserted ⟨false, 2⟩)]

/-- **An occupied home slot breaks the table.**  The key `1` has the home slot that the
node of the key `4` was moved to.  Its `Insert` claims the slot by overwriting its size
field, unlinks the node, does not find the size field it started from, and begins again
with the node of the key `4` as the root of its own chain.  All four calls succeed; the
key `4` is lost, and the key `5`, which was never inserted, is found. -/
theorem build_displacing :
    ((run (callStep 2) (displacing.map Prod.fst) (reserved smallest)).toOption.map
      fun q => (q.1, q.2.find 4, q.2.find 5)) = some (displacing, hashtableNFound, 20) ∧
      lastStored displacing 4 = 20 ∧ lastStored displacing 5 = hashtableNFound := by
  refine ⟨?_, ?_, ?_⟩ <;> decide +kernel

end Rtp.Qed
