import Mathlib.Algebra.Order.Ring.Int
import Mathlib.Data.List.Nodup
import Mathlib.Data.List.Perm.Basic
import Rtp.Lib.Run

/-!
# The local cache

`LocalCache` keeps its entries in the nodes of a `std::list`, most recently used first,
and an `unordered_map` from *pointers* to the keys inside those nodes to list iterators.
Nodes that expire or are evicted move to a second list and are reused with another key,
so an index entry that outlived its node would silently change the key it is filed under.

* `LocalCache` — the nodes by number, the two lists and the index over them, `get` and
  `put` with the eviction loop.  Whatever the code would do through an iterator or a
  `back()` that is not there is a `Fault`.
* `Reference` — what the cache is for: entries with distinct keys, newest first.
* `Inv` — the index holds exactly the nodes of the entry list, each under its own key.
* `localCache_refines` — **every sequence of calls answers as the reference does**, without
  a fault, and the invariant holds after it.
-/

namespace Rtp.Util

/-- `LocalCacheEntry`. -/
structure CacheEntry (K V : Type*) where
  key : K
  val : V
  ts : BitVec 64
  deriving DecidableEq, Repr

/-- The cache.  A list node is named by its place in `nodes`; both a pointer to the key in
it and an iterator to it are that number. -/
structure LocalCache (K V : Type*) where
  /-- What every node that was ever allocated holds. -/
  nodes : List (CacheEntry K V)
  /-- `entry_list_`, front first. -/
  entryList : List ℕ
  /-- `entry_index_`: the node a key pointer points into, with the iterator. -/
  entryIndex : List (ℕ × ℕ)
  /-- `free_entry_`, front first. -/
  freeEntry : List ℕ
  capacity : ℕ
  size : ℕ
  expire : BitVec 64
  deriving DecidableEq, Repr

namespace LocalCache

variable {K V : Type*}

/-- What the code does not check: an iterator to no node, and `back()` of an empty list. -/
inductive Fault where
  | danglingIterator
  | emptyBack
  deriving DecidableEq, Repr

/-- The constructor. -/
def new (capacity : ℕ) (expire : BitVec 64) : LocalCache K V :=
  ⟨[], [], [], [], capacity, 0, expire⟩

/-- The key a key pointer points to. -/
def keyAt (c : LocalCache K V) (i : ℕ) : Option K := (c.nodes[i]?).map CacheEntry.key

/-- The entries in the order of `entry_list_`. -/
def toList (c : LocalCache K V) : List (CacheEntry K V) := c.entryList.filterMap (c.nodes[·]?)

/-- Splice a node of the entry list to its front. -/
def toFront (i : ℕ) (c : LocalCache K V) : LocalCache K V :=
  { c with entryList := i :: c.entryList.erase i }

/-- Splice a node of the entry list to the front of the free list, with `--size_`. -/
def release (i : ℕ) (c : LocalCache K V) : LocalCache K V :=
  { c with
    entryList := c.entryList.erase i
    freeEntry := i :: c.freeEntry
    size := c.size - 1 }

/-- Room for a new entry at the front of the entry list, filled with it: the first free
node, or a fresh one.  With `++size_`. -/
def emplaceFront (e : CacheEntry K V) (c : LocalCache K V) : ℕ × LocalCache K V :=
  match c.freeEntry with
  | [] =>
    (c.nodes.length,
      { c with
        nodes := c.nodes ++ [e]
        entryList := c.nodes.length :: c.entryList
        size := c.size + 1 })
  | i :: rest =>
    (i,
      { c with
        nodes := c.nodes.set i e
        entryList := i :: c.entryList
        freeEntry := rest
        size := c.size + 1 })

section Index
variable [DecidableEq K]

/-- `entry_index_.find(&k)`: pointers are compared by the keys they point to. -/
def find (c : LocalCache K V) (k : K) : Option ℕ :=
  (c.entryIndex.find? fun p => c.keyAt p.1 = some k).map Prod.snd

/-- `entry_index_.erase(&k)`. -/
def eraseIndex (k : K) (c : LocalCache K V) : LocalCache K V :=
  { c with entryIndex := c.entryIndex.filter fun p => c.keyAt p.1 ≠ some k }

/-- `entry_index_[&i->key] = i`: an entry under an equal key keeps its pointer and gets
the iterator. -/
def setIndex (i : ℕ) (c : LocalCache K V) : LocalCache K V :=
  if c.entryIndex.any fun p => c.keyAt p.1 = c.keyAt i then
    { c with
      entryIndex := c.entryIndex.map fun p => if c.keyAt p.1 = c.keyAt i then (p.1, i) else p }
  else { c with entryIndex := (i, i) :: c.entryIndex }

/-- `Get`: the value, or nothing where it returns `false`.  The age wraps like the
`uint64_t` it is. -/
def get (k : K) (now : BitVec 64) (c : LocalCache K V) :
    Except Fault (Option V × LocalCache K V) :=
  match c.find k with
  | none => .ok (none, c)
  | some index =>
    match c.nodes[index]? with
    | none => .error .danglingIterator
    | some e =>
      if now - e.ts < c.expire then .ok (some e.val, c.toFront index)
      else .ok (none, (c.eraseIndex e.key).release index)

/-- The loop of `Put` that makes room, at most `fuel` times around. -/
def evict : ℕ → LocalCache K V → Except Fault (LocalCache K V)
  | 0, c => .ok c
  | fuel + 1, c =>
    if c.size ≥ c.capacity then
      match c.entryList.getLast? with
      | none => .error .emptyBack
      | some i =>
        match c.nodes[i]? with
        | none => .error .danglingIterator
        | some e => evict fuel ((c.eraseIndex e.key).release i)
    else .ok c

/-- `Put`. -/
def put (k : K) (v : V) (now : BitVec 64) (c : LocalCache K V) :
    Except Fault (LocalCache K V) :=
  match c.find k with
  | none =>
    -- every round takes a node off the list: one more than it has either ends or faults
    match c.evict (c.size + 1) with
    | .error f => .error f
    | .ok c =>
      let (i, c) := c.emplaceFront ⟨k, v, now⟩
      .ok (c.setIndex i)
  | some index =>
    match c.nodes[index]? with
    | none => .error .danglingIterator
    | some e => .ok (LocalCache.toFront index { c with nodes := c.nodes.set index ⟨e.key, v, now⟩ })

end Index

/-- A call. -/
inductive Call (K V : Type*) where
  | get (k : K) (now : BitVec 64)
  | put (k : K) (v : V) (now : BitVec 64)
  deriving DecidableEq, Repr

/-- What a call returns. -/
inductive Answer (V : Type*) where
  | got (v : Option V)
  | stored
  deriving DecidableEq, Repr

/-- One call of the cache. -/
def step [DecidableEq K] : Call K V → LocalCache K V → Except Fault (Answer V × LocalCache K V)
  | .get k now, c =>
    match c.get k now with
    | .error f => .error f
    | .ok (v, c') => .ok (.got v, c')
  | .put k v now, c =>
    match c.put k v now with
    | .error f => .error f
    | .ok c' => .ok (.stored, c')

/-! ## What the cache is for -/

namespace Reference
variable [DecidableEq K]

/-- The entries whose key is another one. -/
def without (k : K) (l : List (CacheEntry K V)) : List (CacheEntry K V) :=
  l.filter fun e => e.key ≠ k

/-- Younger than `expire` by the clock of 64 bits. -/
def Fresh (expire now : BitVec 64) (e : CacheEntry K V) : Prop :=
  ((now.toNat : ℤ) - e.ts.toNat) % 2 ^ 64 < expire.toNat

instance (expire now : BitVec 64) (e : CacheEntry K V) : Decidable (Fresh expire now e) :=
  inferInstanceAs (Decidable (_ < _))

/-- **Get.**  A fresh entry is returned and moves to the front, another one goes. -/
def get (expire : BitVec 64) (k : K) (now : BitVec 64) (l : List (CacheEntry K V)) :
    Option V × List (CacheEntry K V) :=
  match l.find? fun e => e.key = k with
  | none => (none, l)
  | some e => if Fresh expire now e then (some e.val, e :: without k l) else (none, without k l)

/-- **Put.**  The entry stands at the front, under a new key in the place of the last one
when the list is full. -/
def put (capacity : ℕ) (k : K) (v : V) (now : BitVec 64) (l : List (CacheEntry K V)) :
    List (CacheEntry K V) :=
  if l.any fun e => e.key = k then ⟨k, v, now⟩ :: without k l
  else if l.length = capacity then ⟨k, v, now⟩ :: l.dropLast
  else ⟨k, v, now⟩ :: l

/-- One call of the reference; it never faults. -/
def step (capacity : ℕ) (expire : BitVec 64) :
    Call K V → List (CacheEntry K V) → Except Fault (Answer V × List (CacheEntry K V))
  | .get k now, l => .ok (.got (get expire k now l).1, (get expire k now l).2)
  | .put k v now, l => .ok (.stored, put capacity k v now l)

end Reference

/-! ## The index and the list -/

/-- The nodes of the two lists are distinct and allocated, those of the entry list have
distinct keys and are exactly what the index holds, each under the pointer to its own
key. -/
structure Inv (c : LocalCache K V) : Prop where
  nodup : (c.entryList ++ c.freeEntry).Nodup
  live : ∀ i ∈ c.entryList ++ c.freeEntry, i < c.nodes.length
  inj : ∀ i ∈ c.entryList, ∀ j ∈ c.entryList, c.keyAt i = c.keyAt j → i = j
  index : c.entryIndex.Perm (c.entryList.map fun i => (i, i))
  size : c.size = c.entryList.length
  room : c.size ≤ c.capacity

theorem Inv.new (capacity : ℕ) (expire : BitVec 64) :
    Inv (LocalCache.new capacity expire : LocalCache K V) where
  nodup := List.nodup_nil
  live := by intro i hi; cases hi
  inj := by intro i hi; cases hi
  index := List.Perm.refl _
  size := rfl
  room := Nat.zero_le _

section
variable {c : LocalCache K V} {i : ℕ} {e : CacheEntry K V}

theorem keyAt_eq_some {k : K} :
    c.keyAt i = some k ↔ ∃ e, c.nodes[i]? = some e ∧ e.key = k := by
  unfold keyAt
  exact Option.map_eq_some_iff

theorem Inv.exists_node (h : Inv c) (hi : i ∈ c.entryList) : ∃ e, c.nodes[i]? = some e := by
  have hlt : i < c.nodes.length := h.live i (List.mem_append_left _ hi)
  exact ⟨c.nodes[i], List.getElem?_eq_getElem hlt⟩

theorem Inv.mem_index (h : Inv c) {p : ℕ × ℕ} :
    p ∈ c.entryIndex ↔ p.1 ∈ c.entryList ∧ p.2 = p.1 := by
  rw [h.index.mem_iff, List.mem_map]
  constructor
  · rintro ⟨j, hj, rfl⟩
    exact ⟨hj, rfl⟩
  · rintro ⟨hp, heq⟩
    exact ⟨p.1, hp, Prod.ext rfl heq.symm⟩

theorem mem_toList : e ∈ c.toList ↔ ∃ i ∈ c.entryList, c.nodes[i]? = some e :=
  List.mem_filterMap

theorem Inv.length_toList (h : Inv c) : c.toList.length = c.entryList.length := by
  unfold toList
  rw [List.length_filterMap_eq_countP, List.countP_eq_length]
  intro i hi
  obtain ⟨e, he⟩ := h.exists_node hi
  rw [he]
  rfl

theorem Inv.eq_of_key (h : Inv c) {j : ℕ} {e' : CacheEntry K V} (hi : i ∈ c.entryList)
    (he : c.nodes[i]? = some e) (hj : j ∈ c.entryList) (he' : c.nodes[j]? = some e')
    (hkey : e'.key = e.key) : j = i := by
  apply h.inj j hj i hi
  unfold keyAt
  rw [he, he', Option.map_some, Option.map_some, hkey]

theorem Inv.nodup_keys (h : Inv c) : (c.toList.map CacheEntry.key).Nodup := by
  unfold toList List.Nodup
  rw [List.map_filterMap, List.pairwise_filterMap]
  apply List.Pairwise.imp_of_mem _ (List.nodup_append.mp h.nodup).1
  rintro i j hi hj hne k hk k' hk' rfl
  exact hne (h.inj i hi j hj (hk.trans hk'.symm))

end

section
variable [DecidableEq K] {c : LocalCache K V} {i : ℕ} {k : K} {e : CacheEntry K V}

/-- **The index finds the node of the entry list that holds the key.** -/
theorem Inv.find_eq_some_iff (h : Inv c) :
    c.find k = some i ↔ i ∈ c.entryList ∧ c.keyAt i = some k := by
  unfold find
  constructor
  · intro hf
    obtain ⟨p, hp, rfl⟩ := Option.map_eq_some_iff.mp hf
    obtain ⟨hmem, heq⟩ := h.mem_index.mp (List.mem_of_find?_eq_some hp)
    have hkey : c.keyAt p.1 = some k := by simpa using List.find?_some hp
    rw [heq]
    exact ⟨hmem, hkey⟩
  · rintro ⟨hi, hkey⟩
    cases hf : c.entryIndex.find? fun p => decide (c.keyAt p.1 = some k) with
    | none =>
      have hno := List.find?_eq_none.mp hf (i, i) (h.mem_index.mpr ⟨hi, rfl⟩)
      exact absurd hkey (by simpa using hno)
    | some p =>
      obtain ⟨hmem, heq⟩ := h.mem_index.mp (List.mem_of_find?_eq_some hf)
      have hp : c.keyAt p.1 = some k := by simpa using List.find?_some hf
      rw [Option.map_some, heq, h.inj p.1 hmem i hi (hp.trans hkey.symm)]

theorem Inv.find_eq_none_iff (h : Inv c) : c.find k = none ↔ ∀ e ∈ c.toList, e.key ≠ k := by
  rw [Option.eq_none_iff_forall_ne_some]
  constructor
  · intro hf e he hkey
    obtain ⟨i, hi, hnode⟩ := mem_toList.mp he
    exact hf i (h.find_eq_some_iff.mpr ⟨hi, keyAt_eq_some.mpr ⟨e, hnode, hkey⟩⟩)
  · intro hall i hf
    obtain ⟨hi, hkey⟩ := h.find_eq_some_iff.mp hf
    obtain ⟨e, hnode, he⟩ := keyAt_eq_some.mp hkey
    exact hall e (mem_toList.mpr ⟨i, hi, hnode⟩) he

theorem Inv.find?_toList (h : Inv c) (hi : i ∈ c.entryList) (he : c.nodes[i]? = some e) :
    c.toList.find? (fun e' => e'.key = e.key) = some e := by
  cases hf : c.toList.find? fun e' => decide (e'.key = e.key) with
  | none =>
    have hno := List.find?_eq_none.mp hf e (mem_toList.mpr ⟨i, hi, he⟩)
    exact absurd (decide_eq_true rfl) hno
  | some e' =>
    obtain ⟨j, hj, he'⟩ := mem_toList.mp (List.mem_of_find?_eq_some hf)
    have hkey : e'.key = e.key := by simpa using List.find?_some hf
    rw [h.eq_of_key hi he hj he' hkey, he] at he'
    exact he'.symm

/-- Taking a node out of the list takes the entry of its key out. -/
theorem Inv.filterMap_erase (h : Inv c) (hi : i ∈ c.entryList) (he : c.nodes[i]? = some e) :
    (c.entryList.erase i).filterMap (c.nodes[·]?) = Reference.without e.key c.toList := by
  have hsame : ∀ j ∈ c.entryList, ∀ e', c.nodes[j]? = some e' → (j ≠ i ↔ e'.key ≠ e.key) := by
    intro j hj e' he'
    refine not_congr ⟨?_, h.eq_of_key hi he hj he'⟩
    rintro rfl
    rw [he] at he'
    rw [Option.some.inj he']
  rw [(List.nodup_append.mp h.nodup).1.erase_eq_filter]
  unfold toList Reference.without
  rw [List.filterMap_filter, List.filter_filterMap]
  apply List.filterMap_congr
  intro j hj
  obtain ⟨e', he'⟩ := h.exists_node hj
  have hiff := hsame j hj e' he'
  rw [he']
  by_cases hji : j = i
  · have hkey : ¬ e'.key ≠ e.key := fun hne => hiff.mpr hne hji
    simp [Option.filter, hji, not_not.mp hkey]
  · simp [Option.filter, hji, hiff.mp hji]

end

/-! ## What the operations keep -/

section
variable {c : LocalCache K V} {i : ℕ} {e : CacheEntry K V}

theorem Inv.toFront (h : Inv c) (hi : i ∈ c.entryList) : Inv (c.toFront i) := by
  have hperm : (i :: c.entryList.erase i).Perm c.entryList := (List.perm_cons_erase hi).symm
  constructor
  · exact (hperm.append_right c.freeEntry).nodup_iff.mpr h.nodup
  · intro j hj
    exact h.live j ((hperm.append_right c.freeEntry).mem_iff.mp hj)
  · intro j hj j' hj'
    exact h.inj j (hperm.mem_iff.mp hj) j' (hperm.mem_iff.mp hj')
  · exact h.index.trans (hperm.map _).symm
  · exact h.size.trans hperm.length_eq.symm
  · exact h.room

/-- Giving a node another value and time leaves every key where it is. -/
theorem keyAt_set (he : c.nodes[i]? = some e) {e' : CacheEntry K V} (hkey : e'.key = e.key)
    (j : ℕ) : ((c.nodes.set i e')[j]?).map CacheEntry.key = c.keyAt j := by
  unfold keyAt
  by_cases hij : i = j
  · subst hij
    obtain ⟨hlt, -⟩ := List.getElem?_eq_some_iff.mp he
    rw [List.getElem?_set_self hlt, he, Option.map_some, Option.map_some, hkey]
  · rw [List.getElem?_set_ne hij]

theorem Inv.set (h : Inv c) (he : c.nodes[i]? = some e) {e' : CacheEntry K V}
    (hkey : e'.key = e.key) : Inv { c with nodes := c.nodes.set i e' } := by
  constructor
  · exact h.nodup
  · intro j hj
    rw [List.length_set]
    exact h.live j hj
  · intro j hj j' hj' heq
    unfold keyAt at heq
    rw [keyAt_set he hkey, keyAt_set he hkey] at heq
    exact h.inj j hj j' hj' heq
  · exact h.index
  · exact h.size
  · exact h.room

/-- What a new entry at the front leaves: it stands in a node that the entry list did not
have, and the nodes of that list hold what they held. -/
structure Emplaced (e : CacheEntry K V) (c : LocalCache K V) (i : ℕ) (c' : LocalCache K V) :
    Prop where
  entryList : c'.entryList = i :: c.entryList
  node : c'.nodes[i]? = some e
  others : ∀ j ∈ c.entryList, c'.nodes[j]? = c.nodes[j]?
  nodup : (i :: c.entryList ++ c'.freeEntry).Nodup
  live : ∀ j ∈ i :: c.entryList ++ c'.freeEntry, j < c'.nodes.length
  entryIndex : c'.entryIndex = c.entryIndex
  size : c'.size = c.size + 1
  capacity : c'.capacity = c.capacity
  expire : c'.expire = c.expire

theorem Inv.emplaceFront (h : Inv c) (e : CacheEntry K V) :
    ∃ i c', c.emplaceFront e = (i, c') ∧ Emplaced e c i c' := by
  unfold LocalCache.emplaceFront
  cases hfree : c.freeEntry with
  | nil =>
    -- a node that was not allocated before
    have hnew : c.nodes.length ∉ c.entryList := by
      intro hmem
      exact absurd (h.live _ (List.mem_append_left _ hmem)) (Nat.lt_irrefl _)
    refine ⟨_, _, rfl, rfl, ?_, ?_, ?_, ?_, rfl, rfl, rfl, rfl⟩
    · exact List.getElem?_concat_length
    · intro j hj
      exact List.getElem?_append_left (h.live j (List.mem_append_left _ hj))
    · have hnodup := h.nodup
      simp only [hfree, List.append_nil, List.nodup_cons] at hnodup ⊢
      exact ⟨hnew, hnodup⟩
    · intro j hj
      simp only [List.append_nil, List.mem_cons, List.length_append, List.length_singleton] at hj ⊢
      obtain rfl | hj := hj
      · exact Nat.lt_succ_self _
      · exact Nat.lt_succ_of_lt (h.live j (List.mem_append_left _ hj))
  | cons i rest =>
    have hperm : (i :: c.entryList ++ rest).Perm (c.entryList ++ c.freeEntry) := by
      rw [hfree]
      exact List.perm_middle.symm
    have hi : i < c.nodes.length := h.live i (by simp [hfree])
    have hnodup : (i :: c.entryList ++ rest).Nodup := hperm.nodup_iff.mpr h.nodup
    refine ⟨_, _, rfl, rfl, List.getElem?_set_self hi, ?_, hnodup, ?_, rfl, rfl, rfl, rfl⟩
    · intro j hj
      rw [List.getElem?_set_ne]
      rintro rfl
      exact (List.nodup_cons.mp hnodup).1 (List.mem_append_left _ hj)
    · intro j hj
      rw [List.length_set]
      exact h.live j (hperm.mem_iff.mp hj)

theorem Emplaced.toList {c' : LocalCache K V} (h : Emplaced e c i c') :
    c'.toList = e :: c.toList := by
  unfold LocalCache.toList
  rw [h.entryList, List.filterMap_cons_some h.node, List.filterMap_congr h.others]

theorem fresh_iff (expire now : BitVec 64) (e : CacheEntry K V) :
    now - e.ts < expire ↔ Reference.Fresh expire now e := by
  have hnow := now.isLt
  have hts := e.ts.isLt
  rw [BitVec.lt_def, BitVec.toNat_sub]
  unfold Reference.Fresh
  omega

end

section
variable [DecidableEq K] {c : LocalCache K V} {i : ℕ} {k : K} {e : CacheEntry K V}

/-- Erasing the key of a node from the index leaves the other nodes of the list. -/
theorem Inv.eraseIndex_perm (h : Inv c) (hi : i ∈ c.entryList) (he : c.nodes[i]? = some e) :
    (c.eraseIndex e.key).entryIndex.Perm ((c.entryList.erase i).map fun j => (j, j)) := by
  unfold eraseIndex
  refine (h.index.filter _).trans (List.Perm.of_eq ?_)
  rw [(List.nodup_append.mp h.nodup).1.erase_eq_filter, List.filter_map]
  congr 1
  apply List.filter_congr
  intro j hj
  have hkey : c.keyAt j = some e.key ↔ j = i := by
    rw [keyAt_eq_some]
    constructor
    · rintro ⟨e₁, he₁, hkey⟩
      exact h.eq_of_key hi he hj he₁ hkey
    · rintro rfl
      exact ⟨e, he, rfl⟩
  rw [Bool.eq_iff_iff]
  simp [hkey]

theorem Inv.release (h : Inv c) (hi : i ∈ c.entryList) (he : c.nodes[i]? = some e) :
    Inv ((c.eraseIndex e.key).release i) := by
  have hperm : (c.entryList.erase i ++ i :: c.freeEntry).Perm (c.entryList ++ c.freeEntry) :=
    List.perm_middle.trans ((List.perm_cons_erase hi).symm.append_right c.freeEntry)
  have hlen := List.length_erase_of_mem hi
  have hpos := List.length_pos_of_mem hi
  have hsize := h.size
  have hroom := h.room
  constructor
  · exact hperm.nodup_iff.mpr h.nodup
  · intro j hj
    exact h.live j (hperm.mem_iff.mp hj)
  · intro j hj j' hj'
    exact h.inj j (List.mem_of_mem_erase hj) j' (List.mem_of_mem_erase hj')
  · exact h.eraseIndex_perm hi he
  · show c.size - 1 = (c.entryList.erase i).length
    omega
  · show c.size - 1 ≤ c.capacity
    omega

theorem Inv.toList_release (h : Inv c) (hi : i ∈ c.entryList) (he : c.nodes[i]? = some e) :
    ((c.eraseIndex e.key).release i).toList = Reference.without e.key c.toList :=
  h.filterMap_erase hi he

theorem Inv.toList_toFront (h : Inv c) (hi : i ∈ c.entryList) (he : c.nodes[i]? = some e) :
    (c.toFront i).toList = e :: Reference.without e.key c.toList := by
  rw [← h.filterMap_erase hi he]
  exact List.filterMap_cons_some he

/-- The entry of a key the cache did not have, filed in the index. -/
theorem Emplaced.setIndex {c' : LocalCache K V} (hc : Emplaced e c i c') (h : Inv c)
    (hroom : c.size < c.capacity) (hnew : ∀ e' ∈ c.toList, e'.key ≠ e.key) :
    Inv (c'.setIndex i) ∧ (c'.setIndex i).toList = c'.toList ∧
      (c'.setIndex i).capacity = c.capacity ∧ (c'.setIndex i).expire = c.expire := by
  have hkeys : ∀ j ∈ c.entryList, c'.keyAt j = c.keyAt j := by
    intro j hj
    unfold keyAt
    rw [hc.others j hj]
  have hkey : c'.keyAt i = some e.key := keyAt_eq_some.mpr ⟨e, hc.node, rfl⟩
  have hfresh : ∀ j ∈ c.entryList, c'.keyAt j ≠ c'.keyAt i := by
    intro j hj heq
    rw [hkeys j hj, hkey] at heq
    obtain ⟨e', he', hkey'⟩ := keyAt_eq_some.mp heq
    exact hnew e' (mem_toList.mpr ⟨j, hj, he'⟩) hkey'
  have hany : ¬ (c'.entryIndex.any fun p => c'.keyAt p.1 = c'.keyAt i) = true := by
    intro hany
    obtain ⟨p, hp, heq⟩ := List.any_eq_true.mp hany
    rw [hc.entryIndex] at hp
    exact hfresh p.1 (h.mem_index.mp hp).1 (by simpa using heq)
  unfold LocalCache.setIndex
  rw [if_neg hany]
  refine ⟨⟨?_, ?_, ?_, ?_, ?_, ?_⟩, rfl, hc.capacity, hc.expire⟩
  · rw [hc.entryList]
    exact hc.nodup
  · rw [hc.entryList]
    exact hc.live
  · intro j hj j' hj' heq
    simp only [hc.entryList, List.mem_cons] at hj hj'
    obtain rfl | hj := hj
    · obtain rfl | hj' := hj'
      · rfl
      · exact absurd heq.symm (hfresh j' hj')
    · obtain rfl | hj' := hj'
      · exact absurd heq (hfresh j hj)
      · exact h.inj j hj j' hj' (by rw [← hkeys j hj, ← hkeys j' hj']; exact heq)
  · simp only [hc.entryList, hc.entryIndex, List.map_cons]
    exact h.index.cons _
  · simp only [hc.entryList, hc.size, List.length_cons, h.size]
  · simp only [hc.size, hc.capacity]
    exact hroom

/-! ## The reference -/

/-- The cache and the list it stands for. -/
structure Refines (capacity : ℕ) (expire : BitVec 64) (c : LocalCache K V)
    (l : List (CacheEntry K V)) : Prop where
  inv : Inv c
  capacity : c.capacity = capacity
  expire : c.expire = expire
  toList : c.toList = l

variable {capacity : ℕ} {expire : BitVec 64} {l : List (CacheEntry K V)}

theorem Refines.get (h : Refines capacity expire c l) (k : K) (now : BitVec 64) :
    ∃ c', c.get k now = .ok ((Reference.get expire k now l).1, c') ∧
      Refines capacity expire c' (Reference.get expire k now l).2 := by
  obtain ⟨hinv, rfl, rfl, rfl⟩ := h
  unfold LocalCache.get Reference.get
  cases hf : c.find k with
  | none =>
    have hnone : c.toList.find? (fun e => decide (e.key = k)) = none := by
      rw [List.find?_eq_none]
      intro e he
      simpa using hinv.find_eq_none_iff.mp hf e he
    rw [hnone]
    exact ⟨c, rfl, hinv, rfl, rfl, rfl⟩
  | some i =>
    obtain ⟨hi, hkey⟩ := hinv.find_eq_some_iff.mp hf
    obtain ⟨e, he, rfl⟩ := keyAt_eq_some.mp hkey
    rw [hinv.find?_toList hi he]
    simp only [he, fresh_iff]
    by_cases hfresh : Reference.Fresh c.expire now e
    · rw [if_pos hfresh, if_pos hfresh]
      exact ⟨_, rfl, hinv.toFront hi, rfl, rfl, hinv.toList_toFront hi he⟩
    · rw [if_neg hfresh, if_neg hfresh]
      exact ⟨_, rfl, hinv.release hi he, rfl, rfl, hinv.toList_release hi he⟩

theorem evict_of_room (h : c.size < c.capacity) (fuel : ℕ) : c.evict fuel = .ok c := by
  cases fuel with
  | zero => rfl
  | succ fuel => rw [LocalCache.evict, if_neg (Nat.not_le.mpr h)]

/-- **The loop that makes room** drops the last entry of a full cache and nothing else. -/
theorem Refines.evict (h : Refines capacity expire c l) (hcap : 0 < capacity) :
    ∃ c', c.evict (c.size + 1) = .ok c' ∧ c'.size < c'.capacity ∧
      Refines capacity expire c' (if l.length = capacity then l.dropLast else l) := by
  obtain ⟨hinv, rfl, rfl, rfl⟩ := h
  have hlen : c.toList.length = c.size := hinv.length_toList.trans hinv.size.symm
  rw [hlen]
  by_cases hfull : c.size = c.capacity
  · rw [if_pos hfull]
    have hne : c.entryList ≠ [] := by
      intro hnil
      have hsize := hinv.size
      rw [hnil, List.length_nil] at hsize
      omega
    obtain ⟨front, i, hlist⟩ := (List.eq_nil_or_concat c.entryList).resolve_left hne
    rw [List.concat_eq_append] at hlist
    have hi : i ∈ c.entryList := by simp [hlist]
    obtain ⟨e, he⟩ := hinv.exists_node hi
    have hrel := hinv.release hi he
    have herase : c.entryList.erase i = front := by
      have hnot : i ∉ front := by
        intro hmem
        have hnodup := (List.nodup_append.mp hinv.nodup).1
        rw [hlist] at hnodup
        exact (List.nodup_append.mp hnodup).2.2 i hmem i List.mem_cons_self rfl
      rw [hlist, List.erase_append_right _ hnot, List.erase_cons_head, List.append_nil]
    have hround : c.evict (c.size + 1) = ((c.eraseIndex e.key).release i).evict c.size := by
      rw [LocalCache.evict, if_pos hfull.ge, hlist, List.getLast?_concat]
      simp only [he]
    have hstop : ((c.eraseIndex e.key).release i).size < c.capacity := by
      show c.size - 1 < c.capacity
      omega
    refine ⟨(c.eraseIndex e.key).release i, ?_, hstop, hrel, rfl, rfl, ?_⟩
    · rw [hround, evict_of_room hstop]
    · show (c.entryList.erase i).filterMap (c.nodes[·]?) = c.toList.dropLast
      unfold LocalCache.toList
      rw [herase, hlist, List.filterMap_append, List.filterMap_cons_some he, List.filterMap_nil,
        List.dropLast_concat]
  · rw [if_neg hfull]
    have hroom : c.size < c.capacity := lt_of_le_of_ne hinv.room hfull
    exact ⟨c, evict_of_room hroom _, hroom, hinv, rfl, rfl, rfl⟩

theorem Refines.put (h : Refines capacity expire c l) (hcap : 0 < capacity) (k : K) (v : V)
    (now : BitVec 64) :
    ∃ c', c.put k v now = .ok c' ∧
      Refines capacity expire c' (Reference.put capacity k v now l) := by
  have hinv := h.inv
  unfold LocalCache.put Reference.put
  cases hf : c.find k with
  | none =>
    have hnew := hinv.find_eq_none_iff.mp hf
    rw [h.toList] at hnew
    have hany : ¬ (l.any fun e => e.key = k) = true := by simpa using hnew
    obtain ⟨c₁, hevict, hroom, h₁⟩ := h.evict hcap
    obtain ⟨i, c₂, hfront, hc₂⟩ := h₁.inv.emplaceFront ⟨k, v, now⟩
    have hnew₁ : ∀ e ∈ c₁.toList, e.key ≠ k := by
      intro e he
      rw [h₁.toList] at he
      apply hnew e
      split at he
      · exact List.dropLast_subset l he
      · exact he
    obtain ⟨hset, hlist, hcap₂, hexp₂⟩ := hc₂.setIndex h₁.inv hroom hnew₁
    refine ⟨c₂.setIndex i, ?_, hset, hcap₂.trans h₁.capacity, hexp₂.trans h₁.expire, ?_⟩
    · simp only [hevict, hfront]
    · rw [if_neg hany, hlist, hc₂.toList, h₁.toList]
      split <;> rfl
  | some i =>
    obtain ⟨hi, hkey⟩ := hinv.find_eq_some_iff.mp hf
    obtain ⟨e, he, rfl⟩ := keyAt_eq_some.mp hkey
    have hany : (l.any fun e' => e'.key = e.key) = true := by
      rw [← h.toList]
      exact List.any_eq_true.mpr ⟨e, mem_toList.mpr ⟨i, hi, he⟩, decide_eq_true rfl⟩
    have hset : Inv { c with nodes := c.nodes.set i ⟨e.key, v, now⟩ } := hinv.set he rfl
    obtain ⟨hlt, -⟩ := List.getElem?_eq_some_iff.mp he
    simp only [he]
    refine ⟨_, rfl, hset.toFront hi, h.capacity, h.expire, ?_⟩
    rw [if_pos hany, ← h.toList, ← hinv.filterMap_erase hi he]
    show (i :: c.entryList.erase i).filterMap ((c.nodes.set i ⟨e.key, v, now⟩)[·]?) = _
    rw [List.filterMap_cons_some (List.getElem?_set_self hlt)]
    congr 1
    apply List.filterMap_congr
    intro j hj
    have hne : i ≠ j := by
      rintro rfl
      exact (List.nodup_append.mp hinv.nodup).1.not_mem_erase hj
    exact List.getElem?_set_ne hne

/-- One call: the same answer, and the lists agree again. -/
theorem Refines.step (h : Refines capacity expire c l) (hcap : 0 < capacity)
    (call : Call K V) :
    ∃ a c' l', LocalCache.step call c = .ok (a, c') ∧
      Reference.step capacity expire call l = .ok (a, l') ∧ Refines capacity expire c' l' := by
  cases call with
  | get k now =>
    obtain ⟨c', hget, h'⟩ := h.get k now
    refine ⟨_, c', _, ?_, rfl, h'⟩
    rw [LocalCache.step, hget]
  | put k v now =>
    obtain ⟨c', hput, h'⟩ := h.put hcap k v now
    refine ⟨_, c', _, ?_, rfl, h'⟩
    rw [LocalCache.step, hput]

/-- **The cache is a least-recently-used list.**  With room for one entry or more, every
sequence of calls runs without a fault and answers as the reference answers; the entry list
is then the reference's, its keys are distinct and it is no longer than the capacity, the
index finds exactly the nodes of the list, each under its own key, and `size_` counts
them. -/
theorem localCache_refines {K V : Type*} [DecidableEq K] (capacity : ℕ) (hcap : 0 < capacity)
    (expire : BitVec 64) (calls : List (Call K V)) :
    ∃ answers c, Run.run LocalCache.step calls (LocalCache.new capacity expire) =
        .ok (answers, c) ∧
      Run.run (Reference.step capacity expire) calls [] = .ok (answers, c.toList) ∧
      (c.toList.map CacheEntry.key).Nodup ∧ c.toList.length ≤ capacity ∧
      (∀ k i, c.find k = some i ↔ i ∈ c.entryList ∧ c.keyAt i = some k) ∧
      c.entryIndex.Perm (c.entryList.map fun i => (i, i)) ∧
      c.size = c.entryList.length ∧ c.toList.length = c.entryList.length := by
  have hnew : Refines capacity expire (LocalCache.new capacity expire : LocalCache K V) [] :=
    ⟨Inv.new capacity expire, rfl, rfl, rfl⟩
  obtain ⟨answers, c, l, hrun, href, h⟩ :=
    Run.run_simulates (fun call c l (h : Refines capacity expire c l) => h.step hcap call)
      calls hnew
  have hlen := h.inv.length_toList
  refine ⟨answers, c, hrun, ?_, h.inv.nodup_keys, ?_, fun k i => h.inv.find_eq_some_iff,
    h.inv.index, h.inv.size, hlen⟩
  · rw [href, h.toList]
  · rw [hlen, ← h.inv.size, ← h.capacity]
    exact h.inv.room

/-- Two entries fit: the third one drops the entry that was used least recently, and an
entry as old as `expire` is gone when it is asked for. -/
theorem localCache_refines_evicting :
    ∃ answers c, Run.run LocalCache.step
        [.put 1 'a' 0, .put 2 'b' 0, .get 1 5, .put 3 'c' 5, .get 2 5, .get 1 10, .get 3 10]
        (LocalCache.new 2 10 : LocalCache ℕ Char) = .ok (answers, c) ∧
      answers.map Prod.snd =
        [.stored, .stored, .got (some 'a'), .stored, .got none, .got none, .got (some 'c')] ∧
      c.toList = [⟨3, 'c', 5⟩] := by
  obtain ⟨answers, c, hrun, href, -⟩ := localCache_refines 2 (by decide) 10
    [.put 1 'a' 0, .put 2 'b' 0, .get 1 5, .put 3 'c' 5, .get 2 5, .get 1 10, .get 3 10]
  refine ⟨answers, c, hrun, ?_⟩
  have hans : (Run.run (Reference.step 2 10)
      [.put 1 'a' 0, .put 2 'b' 0, .get 1 5, .put 3 'c' 5, .get 2 5, .get 1 10, .get 3 10]
      []).toOption.map (fun p => (p.1.map Prod.snd, p.2)) =
        some ([.stored, .stored, .got (some 'a'), .stored, .got none, .got none,
          .got (some 'c')], [⟨3, 'c', 5⟩]) := by
    decide +kernel
  rw [href] at hans
  exact Prod.mk.inj (Option.some.inj hans)

end

end Rtp.Util.LocalCache
