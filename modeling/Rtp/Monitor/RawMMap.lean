import Rtp.Lib.Memory
import Rtp.Monitor.MonitorStatus

/-!
# The mapped list, byte by byte

`RawMMapList` lays its entries out in raw memory: three sizes of four bytes, the key and the
value, one entry after another, up to the first one whose sizes are zero.  Here the file is
the bytes themselves, at their distance from `base_`, together with what lies behind the
mapping; a read or a write there is not stopped, so that one can say when it happens.

* `next`, `find`, `addEntry` — the three functions, with every part of the memory they read
  or write through a pointer to an entry; a `CHECK` that fails is `none`.
* `Record`, `Laid`, `Layout` — what the bytes say when all entries so far have been written
  inside the file.
* `walk_of_laid`, `walk_of_hit` — **the loops** run over the entries of a layout one by one.
* `Layout.addEntry_of_mem`, `Layout.addEntry_of_room`, `Layout.outside_of_not_room` — the
  **three outcomes** of `addEntry`: the key is there, it is new and has room, or the function
  leaves the file.
-/

namespace Rtp.Monitor.Mapped

open Bytes Memory

/-- Some bytes of the memory that are read or written, from a distance to `base_` on. -/
structure Access where
  position : ℕ
  length : ℕ
  deriving DecidableEq, Repr

/-- The bytes lie in `[entrys_, end_)` of a file of the given size. -/
def Access.Inside (fileSize : ℕ) (a : Access) : Prop :=
  64 ≤ a.position ∧ a.position + a.length ≤ fileSize

instance (fileSize : ℕ) (a : Access) : Decidable (a.Inside fileSize) :=
  inferInstanceAs (Decidable (_ ∧ _))

/-- `RawMMapList`.  `maxSize` is the size of the mapping and `max_size` of the header, the
next two are its fields of that name, and the entries are the bytes from 64 on, which is the
size of the header. -/
structure RawMMapList where
  maxSize : ℕ
  size : ℕ
  count : ℕ
  bytes : ℕ → BitVec 8

namespace RawMMapList

/-- The constructor on a new file: it gets the size that is asked for and is cleared. -/
def create (maxSize : BitVec 32) (behind : ℕ → BitVec 8) : RawMMapList where
  maxSize := maxSize.toNat
  size := 0
  count := 0
  bytes := fun a => if a < maxSize.toNat then 0 else behind a

/-- `total_size` of the entry at a position. -/
def totalSize (l : RawMMapList) (cur : ℕ) : ℕ := load 4 l.bytes cur

/-- `key_size` of the entry at a position. -/
def keySize (l : RawMMapList) (cur : ℕ) : ℕ := load 4 l.bytes (cur + 4)

/-- `Next`; the null pointer is `none`, and behind the mapping the function stops. -/
def next (l : RawMMapList) : Option ℕ → Option ℕ
  | none => some 64
  | some cur => if cur < l.maxSize then some (cur + l.totalSize cur) else none

/-- The loops of the class: from an entry on, over those that are not hit, up to one that is
hit or whose sizes end the list.  The result has the entries that were passed and the last
one. -/
def walk (l : RawMMapList) (hit : ℕ → Bool) (cur : ℕ) : Option (List ℕ × ℕ) :=
  if _hmore : l.keySize cur ≠ 0 ∧ l.totalSize cur ≠ 0 then
    if hit cur then some ([], cur)
    else
      match _hnext : l.next (some cur) with
      | none => none
      | some following => (l.walk hit following).map fun w => (cur :: w.1, w.2)
  else some ([], cur)
termination_by l.maxSize - cur
decreasing_by
  simp only [next, Option.ite_none_right_eq_some, Option.some.injEq] at _hnext
  omega

/-- `AlignN` of the size of a key, as `uint32_t`. -/
def alignedSize (data : List (BitVec 8)) : ℕ := align8 data.length % 2 ^ 32

/-- A key with zeros up to a multiple of 8: what `Find` has in `key_buff`. -/
def padded (key : List (BitVec 8)) : List (BitVec 8) :=
  key ++ List.replicate (align8 key.length - key.length) 0

/-- The entry at a position has a key. -/
def holds (l : RawMMapList) (key : List (BitVec 8)) (cur : ℕ) : Bool :=
  l.keySize cur = alignedSize key ∧ slice l.bytes (cur + 12) (alignedSize key) = padded key

/-- What the loops read of an entry: `key_size`, then `total_size`, which `Next` needs as
well, and the key if its size is the one that is looked for. -/
def reads (l : RawMMapList) (buffSize cur : ℕ) : List Access :=
  ⟨cur + 4, 4⟩ ::
    if l.keySize cur = 0 then []
    else ⟨cur, 4⟩ ::
      if l.totalSize cur ≠ 0 ∧ l.keySize cur = buffSize then [⟨cur + 12, buffSize⟩] else []

/-- `Find`: the entry with a key, if there is one, and what is read. -/
def find (l : RawMMapList) (key : List (BitVec 8)) : Option (Option ℕ × List Access) := do
  let cur ← l.next none
  let w ← l.walk (l.holds key) cur
  some (if l.keySize w.2 = 0 then none else some w.2,
    (w.1 ++ [w.2]).flatMap (l.reads (alignedSize key)))

/-- The bytes after an entry has been written at a position. -/
def write (cur : ℕ) (key value : List (BitVec 8)) (bytes : ℕ → BitVec 8) : ℕ → BitVec 8 :=
  let sized := store (cur + 8) (toLE 4 (alignedSize value))
    (store (cur + 4) (toLE 4 (alignedSize key)) bytes)
  let copied := store (cur + 12 + alignedSize key) value (store (cur + 12) key sized)
  store cur (toLE 4 (alignedSize key + alignedSize value + 12)) copied

/-- What is written, and read again, of a new entry. -/
def writes (cur : ℕ) (key value : List (BitVec 8)) : List Access :=
  [⟨cur + 4, 4⟩, ⟨cur + 8, 4⟩, ⟨cur + 12, key.length⟩,
    ⟨cur + 12 + alignedSize key, value.length⟩, ⟨cur, 4⟩]

/-- The list after an entry has been written at a position. -/
def appended (l : RawMMapList) (cur : ℕ) (key value : List (BitVec 8)) : RawMMapList where
  maxSize := l.maxSize
  size := (l.size + (alignedSize key + alignedSize value + 12) % 2 ^ 32) % 2 ^ 32
  count := (l.count + 1) % 2 ^ 32
  bytes := write cur key value l.bytes

/-- `AddEntry`: the entry with a key, which is written at the end if there was none, and what
is read and written.  The size is checked when the entry is there. -/
def addEntry (l : RawMMapList) (key value : List (BitVec 8)) :
    Option (ℕ × List Access × RawMMapList) :=
  if key = [] ∨ value = [] then none
  else do
    let found ← l.find key
    match found.1 with
    | some entry => some (entry, found.2, l)
    | none =>
      let cur ← l.next none
      let w ← l.walk (fun _ => false) cur
      let l' := l.appended w.2 key value
      if l'.size ≤ l'.maxSize then
        some (w.2,
          found.2 ++ (w.1 ++ [w.2]).flatMap (l.reads 0) ++ writes w.2 key value, l')
      else none

end RawMMapList

/-! ## What is laid out -/

open Rtp.Monitor.Mapped.RawMMapList

/-- An entry of the file: the bytes of its key, zeros included, and the size of its value. -/
structure Record where
  key : List (BitVec 8)
  valueSize : ℕ
  deriving DecidableEq

/-- `total_size` of an entry. -/
def Record.total (r : Record) : ℕ := r.key.length + r.valueSize + 12

/-- How many bytes some entries take. -/
def used : List Record → ℕ
  | [] => 0
  | r :: rs => r.total + used rs

/-- An entry stands at a position of the file. -/
structure RecordAt (l : RawMMapList) (p : ℕ) (r : Record) : Prop where
  totalSize_eq : l.totalSize p = r.total
  keySize_eq : l.keySize p = r.key.length
  key_eq : slice l.bytes (p + 12) r.key.length = r.key
  key_ne : r.key ≠ []
  inside : p + 12 + r.key.length ≤ l.maxSize

/-- Entries stand one after another from a position on. -/
def Laid (l : RawMMapList) : ℕ → List Record → Prop
  | _, [] => True
  | p, r :: rs => RecordAt l p r ∧ Laid l (p + r.total) rs

/-- Where the entries start. -/
def positions : ℕ → List Record → List ℕ
  | _, [] => []
  | p, r :: rs => p :: positions (p + r.total) rs

variable {l l' : RawMMapList} {p : ℕ} {r : Record} {rs rs' : List Record}
  {key value : List (BitVec 8)} {hit : ℕ → Bool}

@[simp] theorem used_append (rs rs' : List Record) : used (rs ++ rs') = used rs + used rs' := by
  induction rs with
  | nil => simp [used]
  | cons r rs ih => simp only [List.cons_append, used, ih, Nat.add_assoc]

theorem laid_append : Laid l p (rs ++ rs') ↔ Laid l p rs ∧ Laid l (p + used rs) rs' := by
  induction rs generalizing p with
  | nil => simp [Laid, used]
  | cons r rs ih => simp only [List.cons_append, Laid, used, ih, and_assoc, Nat.add_assoc]

theorem le_of_mem_positions {q : ℕ} (h : q ∈ positions p rs) : p ≤ q := by
  induction rs generalizing p with
  | nil => cases h
  | cons r rs ih =>
    rcases List.mem_cons.mp h with rfl | h
    · exact Nat.le_refl _
    · exact Nat.le_trans (Nat.le_add_right _ _) (ih h)

/-- What stands at the position of an entry of the layout. -/
theorem Laid.recordAt {q : ℕ} (h : Laid l p rs) (hq : q ∈ positions p rs) :
    ∃ r ∈ rs, RecordAt l q r := by
  induction rs generalizing p with
  | nil => cases hq
  | cons r rs ih =>
    rcases List.mem_cons.mp hq with rfl | hq
    · exact ⟨r, List.mem_cons_self, h.1⟩
    · obtain ⟨r', hmem, hat⟩ := ih h.2 hq
      exact ⟨r', List.mem_cons_of_mem _ hmem, hat⟩

/-- An entry depends on its own bytes only. -/
theorem RecordAt.congr (h : RecordAt l p r) (hmax : l'.maxSize = l.maxSize)
    (hbytes : ∀ a, p ≤ a → a < p + r.total → l'.bytes a = l.bytes a) : RecordAt l' p r := by
  have hlen : r.total = r.key.length + r.valueSize + 12 := rfl
  refine ⟨?_, ?_, ?_, h.key_ne, hmax ▸ h.inside⟩
  · rw [← h.totalSize_eq]
    exact load_congr fun a hle hlt => hbytes a hle (by omega)
  · rw [← h.keySize_eq]
    exact load_congr fun a hle hlt => hbytes a (by omega) (by omega)
  · rw [← h.key_eq, h.key_eq]
    exact (slice_congr fun a hle hlt => hbytes a (by omega) (by omega)).trans h.key_eq

theorem Laid.congr (h : Laid l p rs) (hmax : l'.maxSize = l.maxSize)
    (hbytes : ∀ a < p + used rs, l'.bytes a = l.bytes a) : Laid l' p rs := by
  induction rs generalizing p with
  | nil => trivial
  | cons r rs ih =>
    have hused : used (r :: rs) = r.total + used rs := rfl
    refine ⟨h.1.congr hmax fun a _ hlt => hbytes a (by omega), ih h.2 fun a hlt => ?_⟩
    exact hbytes a (by omega)

/-! ## The loops over a layout -/

theorem walk_of_end (h : l.keySize p = 0) : l.walk hit p = some ([], p) := by
  rw [walk, dif_neg (fun hmore => hmore.1 h)]

theorem RecordAt.more (h : RecordAt l p r) : l.keySize p ≠ 0 ∧ l.totalSize p ≠ 0 := by
  rw [h.keySize_eq, h.totalSize_eq]
  exact ⟨fun h0 => h.key_ne (List.eq_nil_of_length_eq_zero h0), Nat.succ_ne_zero _⟩

theorem RecordAt.next_eq (h : RecordAt l p r) : l.next (some p) = some (p + r.total) := by
  have hin := h.inside
  rw [RawMMapList.next, if_pos (by omega), h.totalSize_eq]

theorem RecordAt.walk_of_miss (h : RecordAt l p r) (hmiss : hit p = false) :
    l.walk hit p = (l.walk hit (p + r.total)).map fun w => (p :: w.1, w.2) := by
  rw [walk, dif_pos h.more, if_neg (by simp [hmiss])]
  split
  next hnone => rw [h.next_eq] at hnone; cases hnone
  next following hsome =>
    rw [h.next_eq, Option.some.injEq] at hsome
    rw [hsome]

/-- **Entries that are not hit are passed** one by one. -/
theorem walk_of_laid (h : Laid l p rs) (hmiss : ∀ q ∈ positions p rs, hit q = false) :
    l.walk hit p = (l.walk hit (p + used rs)).map fun w => (positions p rs ++ w.1, w.2) := by
  induction rs generalizing p with
  | nil => simp [used, positions]
  | cons r rs ih =>
    have hrest := ih h.2 fun q hq => hmiss q (List.mem_cons_of_mem _ hq)
    rw [h.1.walk_of_miss (hmiss p List.mem_cons_self), hrest, Option.map_map, used, Nat.add_assoc]
    rfl

/-- **The first entry that is hit** ends the loop. -/
theorem walk_of_hit (h : Laid l p (rs ++ r :: rs')) (hmiss : ∀ q ∈ positions p rs, hit q = false)
    (hhit : hit (p + used rs) = true) :
    l.walk hit p = some (positions p rs, p + used rs) := by
  obtain ⟨hbefore, hat, _⟩ := laid_append.mp h
  rw [walk_of_laid hbefore hmiss, walk, dif_pos hat.more, if_pos hhit, Option.map_some,
    List.append_nil]

/-- The entry where a loop starts is among those that it reads. -/
theorem mem_of_walk {w : List ℕ × ℕ} (h : l.walk hit p = some w) : p ∈ w.1 ++ [w.2] := by
  rw [walk] at h
  split at h
  · split at h
    · cases h
      exact List.mem_append_right _ List.mem_cons_self
    · split at h
      · cases h
      · obtain ⟨w', _, rfl⟩ := Option.map_eq_some_iff.mp h
        exact List.mem_cons_self
  · cases h
    exact List.mem_append_right _ List.mem_cons_self

/-- `addEntry` starts with `find`. -/
theorem find_of_addEntry {entry : ℕ} {accesses : List Access}
    (h : l.addEntry key value = some (entry, accesses, l')) :
    ∃ found, l.find key = some found ∧ ∀ a ∈ found.2, a ∈ accesses := by
  rw [addEntry, Option.ite_none_left_eq_some] at h
  obtain ⟨_, h⟩ := h
  obtain ⟨found, hfind, h⟩ := Option.bind_eq_some_iff.mp h
  refine ⟨found, hfind, ?_⟩
  intro a ha
  split at h
  · cases h
    exact ha
  · obtain ⟨cur, _, h⟩ := Option.bind_eq_some_iff.mp h
    obtain ⟨w, _, h⟩ := Option.bind_eq_some_iff.mp h
    simp only [Option.ite_none_right_eq_some] at h
    obtain ⟨_, h⟩ := h
    cases h
    exact List.mem_append_left _ (List.mem_append_left _ ha)

/-! ## Keys -/

theorem le_align8 (n : ℕ) : n ≤ align8 n := by
  unfold align8
  omega

theorem align8_lt (n : ℕ) : align8 n < n + 8 := by
  unfold align8
  omega

@[simp] theorem length_padded (key : List (BitVec 8)) :
    (padded key).length = align8 key.length := by
  have hle := le_align8 key.length
  simp only [padded, List.length_append, List.length_replicate]
  omega

theorem padded_ne_nil (h : key ≠ []) : padded key ≠ [] := by
  simp [padded, h]

theorem alignedSize_eq {data : List (BitVec 8)} (h : align8 data.length < 2 ^ 32) :
    alignedSize data = align8 data.length := Nat.mod_eq_of_lt h

theorem RecordAt.holds_eq_false (h : RecordAt l p r) (hne : r.key ≠ padded key) :
    l.holds key p = false := by
  simp only [holds, decide_eq_false_iff_not, not_and]
  intro hsize
  rw [h.keySize_eq] at hsize
  rw [← hsize, h.key_eq]
  exact hne

theorem RecordAt.holds_eq_true (h : RecordAt l p r) (heq : r.key = padded key)
    (hmax : l.maxSize < 2 ^ 32) : l.holds key p = true := by
  have hin := h.inside
  have hlen : r.key.length = align8 key.length := by rw [heq, length_padded]
  have hsize := @alignedSize_eq key (by omega)
  simp only [holds, decide_eq_true_eq]
  rw [hsize, h.keySize_eq, ← hlen, h.key_eq]
  exact ⟨rfl, heq⟩

variable {a : Access} {buffSize : ℕ}

/-- What the loops read of an entry that is laid out lies inside the file. -/
theorem RecordAt.reads_inside (h : RecordAt l p r) (hp : 64 ≤ p) (ha : a ∈ l.reads buffSize p) :
    a.Inside l.maxSize := by
  have hin := h.inside
  unfold Access.Inside
  rw [reads, if_neg h.more.1] at ha
  rcases List.mem_cons.mp ha with rfl | ha
  · exact ⟨by show 64 ≤ p + 4; omega, by show p + 4 + 4 ≤ l.maxSize; omega⟩
  rcases List.mem_cons.mp ha with rfl | ha
  · exact ⟨hp, by show p + 4 ≤ l.maxSize; omega⟩
  split at ha
  next hsize =>
    rw [List.mem_singleton] at ha
    have hkey := h.keySize_eq
    subst ha
    exact ⟨by show 64 ≤ p + 12; omega, by show p + 12 + buffSize ≤ l.maxSize; omega⟩
  next => cases ha

/-- Entries with other keys are not hit by the search. -/
theorem Laid.holds_eq_false (h : Laid l p rs) (hnew : ∀ r ∈ rs, r.key ≠ padded key) :
    ∀ q ∈ positions p rs, l.holds key q = false := by
  intro q hq
  obtain ⟨r, hmem, hat⟩ := h.recordAt hq
  exact hat.holds_eq_false (hnew r hmem)

/-- What a loop reads of the entries. -/
theorem Laid.reads_inside (h : Laid l 64 rs)
    (ha : a ∈ (positions 64 rs).flatMap (l.reads buffSize)) : a.Inside l.maxSize := by
  obtain ⟨q, hq, ha⟩ := List.mem_flatMap.mp ha
  obtain ⟨r, _, hat⟩ := h.recordAt hq
  exact hat.reads_inside (le_of_mem_positions hq) ha

/-! ## A new entry -/

/-- The entry that a call of `addEntry` stands for. -/
def recordOf (key value : List (BitVec 8)) : Record := ⟨padded key, align8 value.length⟩

/-- Behind some entries there is room for another one, up to the last byte of its value. -/
def Room (fileSize : ℕ) (rs : List Record) (key value : List (BitVec 8)) : Prop :=
  64 + used rs + 12 + align8 key.length + value.length ≤ fileSize

instance (fileSize : ℕ) (rs : List Record) (key value : List (BitVec 8)) :
    Decidable (Room fileSize rs key value) :=
  inferInstanceAs (Decidable (_ ≤ _))

theorem write_of_outside {a : ℕ} {bytes : ℕ → BitVec 8}
    (hkey : align8 key.length < 2 ^ 32)
    (h : a < p ∨ p + 12 + align8 key.length + value.length ≤ a) :
    write p key value bytes a = bytes a := by
  have hle := le_align8 key.length
  have hsize := alignedSize_eq hkey
  simp only [write, hsize]
  rw [store_of_outside (by simp; omega), store_of_outside (by omega),
    store_of_outside (by omega), store_of_outside (by simp; omega),
    store_of_outside (by simp; omega)]

/-- **An entry that was written is laid out**, where the bytes had been zero. -/
theorem recordAt_write (hmax : l'.maxSize < 2 ^ 32) (hkey : key ≠ [])
    (hroom : p + 12 + align8 key.length + value.length ≤ l'.maxSize)
    (htotal : align8 key.length + align8 value.length + 12 < 2 ^ 32)
    (hbytes : l'.bytes = write p key value l.bytes)
    (hblank : ∀ a, p ≤ a → a < l'.maxSize → l.bytes a = 0) :
    RecordAt l' p (recordOf key value) := by
  have hle := le_align8 key.length
  have hksize := @alignedSize_eq key (by omega)
  have hvsize := @alignedSize_eq value (by omega)
  have hlen : (recordOf key value).key.length = align8 key.length := length_padded key
  refine ⟨?_, ?_, ?_, padded_ne_nil hkey, by omega⟩
  · rw [totalSize, hbytes, write, load_store_self, hksize, hvsize]
    show _ = (recordOf key value).key.length + align8 value.length + 12
    rw [hlen]
    exact Nat.mod_eq_of_lt htotal
  · rw [keySize, hbytes, hlen]
    simp only [write, hksize, hvsize]
    rw [load_store_of_disjoint (by simp), load_store_of_disjoint (by omega),
      load_store_of_disjoint (by omega), load_store_of_disjoint (by omega), load_store_self]
    exact Nat.mod_eq_of_lt (by omega)
  · -- the key is copied, and the zeros behind it were there
    have hsplit : align8 key.length = key.length + (align8 key.length - key.length) := by omega
    rw [hlen, hbytes]
    simp only [write, hksize, hvsize]
    rw [slice_store_of_disjoint (by simp), slice_store_of_disjoint (by omega), hsplit,
      slice_add, slice_store_self]
    show _ = key ++ List.replicate (align8 key.length - key.length) 0
    congr 1
    apply slice_eq_replicate
    intro a hla hlt
    rw [store_of_outside (by omega), store_of_outside (by simp; omega),
      store_of_outside (by simp; omega)]
    exact hblank a (by omega) (by omega)

/-- What the file says when some entries have been written inside it. -/
structure Layout (l : RawMMapList) (rs : List Record) : Prop where
  laid : Laid l 64 rs
  blank : ∀ a, 64 + used rs ≤ a → a < l.maxSize → l.bytes a = 0
  size_eq : l.size = used rs
  maxSize_lt : l.maxSize < 2 ^ 32

theorem Layout.create (maxSize : BitVec 32) (behind : ℕ → BitVec 8) :
    Layout (create maxSize behind) [] where
  laid := trivial
  blank := by
    intro a _ hlt
    exact if_pos hlt
  size_eq := rfl
  maxSize_lt := maxSize.isLt

namespace Layout

/-- The bytes that end the list are zero as far as they lie in the file. -/
theorem keySize_end (h : Layout l rs) (hend : 64 + used rs + 8 ≤ l.maxSize) :
    l.keySize (64 + used rs) = 0 :=
  load_eq_zero fun a hle hlt => h.blank a (by omega) (by omega)

/-- The loop that looks for a new key passes all entries. -/
theorem walk_of_new (h : Layout l rs) (hnew : ∀ r ∈ rs, r.key ≠ padded key) :
    l.walk (l.holds key) 64 =
      (l.walk (l.holds key) (64 + used rs)).map fun w => (positions 64 rs ++ w.1, w.2) :=
  walk_of_laid h.laid (h.laid.holds_eq_false hnew)

theorem walk_to_end (h : Layout l rs) :
    l.walk (fun _ => false) 64 =
      (l.walk (fun _ => false) (64 + used rs)).map fun w => (positions 64 rs ++ w.1, w.2) :=
  walk_of_laid h.laid fun _ _ => rfl

/-- What a loop reads of the entries and of the end of the list. -/
theorem reads_end_inside (h : Layout l rs) (hend : 64 + used rs + 8 ≤ l.maxSize)
    (ha : a ∈ (positions 64 rs ++ [64 + used rs]).flatMap (l.reads buffSize)) :
    a.Inside l.maxSize := by
  rw [List.flatMap_append, List.mem_append] at ha
  rcases ha with ha | ha
  · exact h.laid.reads_inside ha
  · rw [List.flatMap_singleton, reads, if_pos (h.keySize_end hend), List.mem_singleton] at ha
    subst ha
    exact ⟨by show 64 ≤ 64 + used rs + 4; omega, hend⟩

theorem find_of_new (h : Layout l rs) (hnew : ∀ r ∈ rs, r.key ≠ padded key)
    (hend : 64 + used rs + 8 ≤ l.maxSize) :
    l.find key =
      some (none, (positions 64 rs ++ [64 + used rs]).flatMap (l.reads (alignedSize key))) := by
  have hzero := h.keySize_end hend
  have hwalk := h.walk_of_new hnew
  rw [walk_of_end hzero] at hwalk
  simp [find, RawMMapList.next, hwalk, hzero]

/-- **A key that is there is found**, at its entry, and nothing is written. -/
theorem addEntry_of_mem (h : Layout l (rs ++ r :: rs')) (heq : r.key = padded key)
    (hfirst : ∀ r' ∈ rs, r'.key ≠ padded key) (hkey : key ≠ []) (hvalue : value ≠ []) :
    ∃ accesses, l.addEntry key value = some (64 + used rs, accesses, l) ∧
      ∀ a ∈ accesses, a.Inside l.maxSize := by
  obtain ⟨hbefore, hat, _⟩ := laid_append.mp h.laid
  have hwalk : l.walk (l.holds key) 64 = some (positions 64 rs, 64 + used rs) := by
    apply walk_of_hit h.laid
    · exact hbefore.holds_eq_false hfirst
    · exact hat.holds_eq_true heq h.maxSize_lt
  refine ⟨(positions 64 rs ++ [64 + used rs]).flatMap (l.reads (alignedSize key)), ?_, ?_⟩
  · simp [addEntry, find, RawMMapList.next, hwalk, hkey, hvalue, hat.more.1]
  · intro a ha
    rw [List.flatMap_append, List.mem_append] at ha
    rcases ha with ha | ha
    · exact hbefore.reads_inside ha
    · rw [List.flatMap_singleton] at ha
      exact hat.reads_inside (Nat.le_add_right _ _) ha

/-- What `addEntry` does with a new key when the end of the list lies in the file. -/
theorem addEntry_of_new (h : Layout l rs) (hnew : ∀ r ∈ rs, r.key ≠ padded key)
    (hkey : key ≠ []) (hvalue : value ≠ []) (hend : 64 + used rs + 8 ≤ l.maxSize) :
    l.addEntry key value =
      if (l.appended (64 + used rs) key value).size ≤ l.maxSize then
        some (64 + used rs,
          (positions 64 rs ++ [64 + used rs]).flatMap (l.reads (alignedSize key)) ++
            (positions 64 rs ++ [64 + used rs]).flatMap (l.reads 0) ++
            writes (64 + used rs) key value,
          l.appended (64 + used rs) key value)
      else none := by
  have hwalk := h.walk_to_end
  rw [walk_of_end (h.keySize_end hend), Option.map_some, List.append_nil] at hwalk
  simp only [addEntry, hkey, hvalue, or_self, if_false, h.find_of_new hnew hend,
    RawMMapList.next, Option.bind_eq_bind, Option.bind_some, hwalk]
  rfl

/-- The file after an entry with room has been written behind the others. -/
theorem appended (h : Layout l rs) (hkey : key ≠ []) (hroom : Room l.maxSize rs key value) :
    Layout (l.appended (64 + used rs) key value) (rs ++ [recordOf key value]) ∧
      (l.appended (64 + used rs) key value).size ≤ l.maxSize := by
  have hmax := h.maxSize_lt
  have hvlt := align8_lt value.length
  unfold Room at hroom
  have hused : used (rs ++ [recordOf key value])
      = used rs + (align8 key.length + align8 value.length + 12) := by
    simp [used, Record.total, recordOf]
  have hsize : (l.appended (64 + used rs) key value).size
      = used rs + (align8 key.length + align8 value.length + 12) := by
    have hksize := @alignedSize_eq key (by omega)
    have hvsize := @alignedSize_eq value (by omega)
    show (l.size + (alignedSize key + alignedSize value + 12) % 2 ^ 32) % 2 ^ 32 = _
    rw [hksize, hvsize, h.size_eq]
    omega
  have hat : RecordAt (l.appended (64 + used rs) key value) (64 + used rs)
      (recordOf key value) :=
    recordAt_write hmax hkey (by show _ ≤ l.maxSize; omega) (by omega) rfl h.blank
  refine ⟨⟨laid_append.mpr ⟨?_, hat, trivial⟩, ?_, hsize.trans hused.symm, hmax⟩, by omega⟩
  · exact h.laid.congr rfl fun a hlt => write_of_outside (by omega) (.inl hlt)
  · intro a hla hlt
    rw [hused] at hla
    have hvle := le_align8 value.length
    exact (write_of_outside (by omega) (.inr (by omega))).trans (h.blank a (by omega) hlt)

theorem writes_inside (hmax : l.maxSize < 2 ^ 32) (hroom : Room l.maxSize rs key value)
    (ha : a ∈ writes (64 + used rs) key value) : a.Inside l.maxSize := by
  have hle := le_align8 key.length
  unfold Room at hroom
  have hksize := @alignedSize_eq key (by omega)
  simp only [writes, hksize, List.mem_cons, List.not_mem_nil, or_false] at ha
  unfold Access.Inside
  rcases ha with rfl | rfl | rfl | rfl | rfl <;> dsimp only <;> omega

/-- **A new key that has room** gets the entry behind the others, and the bytes before it
stay. -/
theorem addEntry_of_room (h : Layout l rs) (hnew : ∀ r ∈ rs, r.key ≠ padded key)
    (hkey : key ≠ []) (hvalue : value ≠ []) (hroom : Room l.maxSize rs key value) :
    ∃ accesses l', l.addEntry key value = some (64 + used rs, accesses, l') ∧
      (∀ a ∈ accesses, a.Inside l.maxSize) ∧ Layout l' (rs ++ [recordOf key value]) ∧
      l'.maxSize = l.maxSize ∧ ∀ a < 64 + used rs, l'.bytes a = l.bytes a := by
  have hroom' := hroom
  unfold Room at hroom'
  have hpos := List.length_pos_iff.mpr hkey
  have hle := le_align8 key.length
  have hmax := h.maxSize_lt
  have hend : 64 + used rs + 8 ≤ l.maxSize := by omega
  obtain ⟨hlayout, hcheck⟩ := h.appended hkey hroom
  refine ⟨_, _, (h.addEntry_of_new hnew hkey hvalue hend).trans (if_pos hcheck), ?_, hlayout,
    rfl, fun a hlt => write_of_outside (by omega) (.inl hlt)⟩
  intro a ha
  rcases List.mem_append.mp ha with ha | ha
  · rcases List.mem_append.mp ha with ha | ha
    · exact h.reads_end_inside hend ha
    · exact h.reads_end_inside hend ha
  · exact writes_inside hmax hroom ha

/-- What is written of an entry without room: its key or its value leaves the file. -/
theorem writes_outside (hmax : l.maxSize < 2 ^ 32) (hroom : ¬Room l.maxSize rs key value) :
    ∃ a ∈ writes (64 + used rs) key value, ¬a.Inside l.maxSize := by
  unfold Room at hroom
  by_cases hsize : align8 key.length < 2 ^ 32
  · refine ⟨⟨64 + used rs + 12 + alignedSize key, value.length⟩, by simp [writes], ?_⟩
    intro hin
    have hle : 64 + used rs + 12 + alignedSize key + value.length ≤ l.maxSize := hin.2
    rw [alignedSize_eq hsize] at hle
    omega
  · -- the size of the key wraps around, so the key alone is larger than the file
    refine ⟨⟨64 + used rs + 12, key.length⟩, by simp [writes], ?_⟩
    intro hin
    have hle : 64 + used rs + 12 + key.length ≤ l.maxSize := hin.2
    have hlt := align8_lt key.length
    omega

/-- Whatever lies at the end of the list, the search for a new key reads the size there. -/
theorem find_reads_end (h : Layout l rs) (hnew : ∀ r ∈ rs, r.key ≠ padded key)
    {found : Option ℕ × List Access} (hfind : l.find key = some found) :
    ⟨64 + used rs + 4, 4⟩ ∈ found.2 := by
  simp only [find, RawMMapList.next, Option.bind_eq_bind, Option.bind_some, h.walk_of_new hnew,
    Option.bind_eq_some_iff, Option.map_eq_some_iff] at hfind
  obtain ⟨_, ⟨w, hwalk, rfl⟩, hfound⟩ := hfind
  rw [Option.some.injEq] at hfound
  rw [← hfound]
  refine List.mem_flatMap.mpr ⟨64 + used rs, ?_, List.mem_cons_self⟩
  rw [List.append_assoc]
  exact List.mem_append_right _ (mem_of_walk hwalk)

/-- **A new key that has no room** is looked for, or written, outside of the file. -/
theorem outside_of_not_room (h : Layout l rs) (hnew : ∀ r ∈ rs, r.key ≠ padded key)
    (hroom : ¬Room l.maxSize rs key value) {entry : ℕ} {accesses : List Access}
    (hadd : l.addEntry key value = some (entry, accesses, l')) :
    ∃ a ∈ accesses, ¬a.Inside l.maxSize := by
  have hargs : ¬(key = [] ∨ value = []) := by
    intro hargs
    rw [addEntry, if_pos hargs] at hadd
    cases hadd
  obtain ⟨hkey, hvalue⟩ := not_or.mp hargs
  by_cases hend : 64 + used rs + 8 ≤ l.maxSize
  · rw [h.addEntry_of_new hnew hkey hvalue hend, Option.ite_none_right_eq_some] at hadd
    obtain ⟨_, hadd⟩ := hadd
    cases hadd
    obtain ⟨a, ha, hout⟩ := @writes_outside l rs key value h.maxSize_lt hroom
    exact ⟨a, List.mem_append_right _ ha, hout⟩
  · -- the search reads the end of the list, which is not in the file
    obtain ⟨found, hfind, hsub⟩ := find_of_addEntry hadd
    refine ⟨⟨64 + used rs + 4, 4⟩, hsub _ (h.find_reads_end hnew hfind), ?_⟩
    intro hin
    have hle : 64 + used rs + 4 + 4 ≤ l.maxSize := hin.2
    omega

end Layout

end Rtp.Monitor.Mapped
