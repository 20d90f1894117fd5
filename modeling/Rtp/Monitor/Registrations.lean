import Rtp.Monitor.RawMMap
import Rtp.Monitor.AllCounters

/-!
# Registrations in the monitor file

`GetCounter`, `GetTimerCounter` and `GetBinaryCounter` over the bytes of the file: the key is
composed of the prefix of the kind, the module and the key, `AddEntry` finds it or writes it,
and what is handed out is the address of the value.

* `Registration` — a kind, a module and a key, such that the composed key is not cut off.
* `Stores`, `Stores.addEntry`, `Stores.addEntries` — **the two models of the file agree**: what
  is done with the entries is done in the bytes, by one call and by all of them.
* `MonitorStatus.get`, `registerAll` — one call, and calls one after another.
* `registered`, `place` — the registrations in the order of their first call, and where the
  entry of each of them starts.
* `Inv.register` — **one call**: the entry is where it belongs, all bytes before the end of
  the list stay.
* `registerAll_laidOut` — **all calls**: the same registration has the same entry, different
  ones have disjoint entries, and the list has the registrations in order.
-/

namespace Rtp.Monitor.Mapped

open Memory
open Rtp.Monitor.Mapped.RawMMapList

/-! ## Keys -/

/-- The byte that a character stands for. -/
def byteOf (c : Char) : BitVec 8 := BitVec.ofNat 8 c.toNat

/-- The arguments of a call, without `#` in the name of the module and with room for the whole
key in `buff`. -/
structure Registration where
  kind : Kind
  module : CString
  key : CString
  byte : ∀ c ∈ module.chars ++ key.chars, c.toNat < 256
  noHash : '#' ∉ module.chars
  short : (kind.keyPrefix ++ module.chars ++ '#' :: key.chars).length < 127

/-- What `snprintf` leaves in `buff`. -/
def Registration.buff (r : Registration) : List Char := r.kind.key r.module r.key

/-- The bytes of a key as `AddEntry` gets them, with the zero at their end. -/
def keyBytes (buff : List Char) : List (BitVec 8) := (buff ++ [nul]).map byteOf

theorem Registration.ext_chars {r r' : Registration} (hkind : r.kind = r'.kind)
    (hmodule : r.module.chars = r'.module.chars) (hkey : r.key.chars = r'.key.chars) :
    r = r' := by
  obtain ⟨k, ⟨m, hm⟩, ⟨c, hc⟩, _, _, _⟩ := r
  obtain ⟨k', ⟨m', hm'⟩, ⟨c', hc'⟩, _, _, _⟩ := r'
  cases hkind
  cases hmodule
  cases hkey
  rfl

instance : DecidableEq Registration := fun r r' =>
  decidable_of_iff
    (r.kind = r'.kind ∧ r.module.chars = r'.module.chars ∧ r.key.chars = r'.key.chars)
    ⟨fun h => Registration.ext_chars h.1 h.2.1 h.2.2, fun h => h ▸ ⟨rfl, rfl, rfl⟩⟩

variable {r r' : Registration}

theorem Registration.buff_eq (r : Registration) :
    r.buff = r.kind.keyPrefix ++ (r.module.chars ++ '#' :: r.key.chars) := by
  rw [← List.append_assoc]
  exact List.take_of_length_le (Nat.le_of_lt_succ r.short)

theorem Registration.nul_notMem_buff (r : Registration) : nul ∉ r.buff := by
  rw [Registration.buff, key_eq]
  exact nul_notMem_append (nul_notMem_counterName _ _)

theorem lt_of_mem_keyPrefix {k : Kind} {c : Char} (hc : c ∈ k.keyPrefix) : c.toNat < 256 := by
  revert c
  cases k <;> simp [Kind.keyPrefix]

theorem Registration.lt_of_mem_buff (r : Registration) {c : Char} (hc : c ∈ r.buff) :
    c.toNat < 256 := by
  rw [r.buff_eq, List.mem_append, List.mem_append, List.mem_cons] at hc
  rcases hc with hc | hc | rfl | hc
  · exact lt_of_mem_keyPrefix hc
  · exact r.byte c (List.mem_append_left _ hc)
  · decide
  · exact r.byte c (List.mem_append_right _ hc)

/-- A list up to a separator that is not in it. -/
theorem takeWhile_ne_of_notMem {α : Type*} [DecidableEq α] {a : α} {l rest : List α}
    (h : a ∉ l) : (l ++ a :: rest).takeWhile (· ≠ a) = l := by
  rw [List.takeWhile_append_of_pos, List.takeWhile_cons_of_neg, List.append_nil]
  · simp
  · intro x hx
    have hne : x ≠ a := by
      rintro rfl
      exact h hx
    simpa using hne

/-- The composed key says what was registered. -/
theorem Registration.buff_inj (h : r.buff = r'.buff) : r = r' := by
  rw [r.buff_eq, r'.buff_eq] at h
  obtain ⟨hkind, hname⟩ := keyPrefix_append_inj h
  have hmodule : r.module.chars = r'.module.chars := by
    rw [← @takeWhile_ne_of_notMem _ _ _ _ r.key.chars r.noHash, hname,
      takeWhile_ne_of_notMem r'.noHash]
  rw [hmodule] at hname
  exact Registration.ext_chars hkind hmodule (List.cons.inj (List.append_cancel_left hname)).2

theorem padded_keyBytes (buff : List Char) : padded (keyBytes buff) = (pad buff).map byteOf := by
  have hlen : align8 (buff.length + 1) - buff.length
      = (align8 (buff.length + 1) - (buff.length + 1)) + 1 := by
    have hle := le_align8 (buff.length + 1)
    omega
  have hnul : byteOf nul = 0 := by decide
  simp [padded, keyBytes, pad, hlen, List.replicate_succ, hnul]

theorem ofNat_byteOf {c : Char} (h : c.toNat < 256) : Char.ofNat (byteOf c).toNat = c := by
  rw [byteOf, BitVec.toNat_ofNat, Nat.mod_eq_of_lt h, Char.ofNat_toNat]

/-- Texts are told apart by their bytes. -/
theorem map_byteOf_inj {a b : List Char} (ha : ∀ c ∈ a, c.toNat < 256)
    (hb : ∀ c ∈ b, c.toNat < 256) (h : a.map byteOf = b.map byteOf) : a = b := by
  have hback : ∀ l : List Char, (∀ c ∈ l, c.toNat < 256) →
      (l.map byteOf).map (fun b => Char.ofNat b.toNat) = l := by
    intro l hl
    rw [List.map_map]
    exact (List.map_congr_left fun c hc => ofNat_byteOf (hl c hc)).trans (List.map_id _)
  rw [← hback a ha, h, hback b hb]

theorem lt_of_mem_pad {buff : List Char} (h : ∀ c ∈ buff, c.toNat < 256) :
    ∀ c ∈ pad buff, c.toNat < 256 := by
  intro c hc
  rcases List.mem_append.mp hc with hc | hc
  · exact h c hc
  · rw [List.eq_of_mem_replicate hc]
    decide

/-- **Different registrations have different keys** in the file. -/
theorem Registration.padded_inj (h : padded (keyBytes r.buff) = padded (keyBytes r'.buff)) :
    r = r' := by
  rw [padded_keyBytes, padded_keyBytes] at h
  apply Registration.buff_inj
  apply pad_inj r.nul_notMem_buff r'.nul_notMem_buff
  exact map_byteOf_inj (lt_of_mem_pad fun _ => r.lt_of_mem_buff)
    (lt_of_mem_pad fun _ => r'.lt_of_mem_buff) h

/-! ## The entries that the bytes stand for -/

/-- An entry as the file has it. -/
def entryRecord (e : Entry) : Record := ⟨e.key.map byteOf, align8 e.kind.size⟩

/-- The bytes are those of the entries. -/
structure Stores (l : RawMMapList) (m : Monitor.RawMMapList) : Prop where
  layout : Layout l (m.entries.map entryRecord)
  maxSize_eq : l.maxSize = m.fileSize
  byte : ∀ e ∈ m.entries, ∀ c ∈ e.key, c.toNat < 256

theorem stores_create (maxSize : BitVec 32) (behind : ℕ → BitVec 8) :
    Stores (create maxSize behind) ⟨maxSize.toNat, []⟩ :=
  ⟨.create maxSize behind, rfl, fun _ he => absurd he List.not_mem_nil⟩

section Stores

variable {l : RawMMapList} {m m' : Monitor.RawMMapList} {buff : List Char} {k : Kind} {i : ℕ}

theorem used_eq (m : Monitor.RawMMapList) : m.used = 64 + used (m.entries.map entryRecord) := by
  have hfold : ∀ (es : List Entry) (n : ℕ),
      es.foldl (fun n e => n + e.totalSize) n = n + used (es.map entryRecord) := by
    intro es
    induction es with
    | nil => exact fun n => rfl
    | cons e es ih =>
      intro n
      rw [List.foldl_cons, ih, List.map_cons, used, ← Nat.add_assoc]
      simp [Entry.totalSize, Record.total, entryRecord]
  exact hfold m.entries 64

theorem Stores.key_ne (h : Stores l m) (hbuff : ∀ c ∈ buff, c.toNat < 256) {es : List Entry}
    (hsub : es ⊆ m.entries) (hne : ∀ e ∈ es, e.key ≠ pad buff) :
    ∀ r ∈ es.map entryRecord, r.key ≠ padded (keyBytes buff) := by
  simp only [List.forall_mem_map, padded_keyBytes]
  intro e he heq
  exact hne e he (map_byteOf_inj (h.byte e (hsub he)) (lt_of_mem_pad hbuff) heq)

theorem recordOf_keyBytes : recordOf (keyBytes buff) (List.replicate k.size 0) =
    entryRecord ⟨pad buff, k, k.zero⟩ := by
  simp only [recordOf, entryRecord, padded_keyBytes, List.length_replicate]

theorem Stores.room (h : Stores l m)
    (hfits : m.used + (⟨pad buff, k, k.zero⟩ : Entry).totalSize ≤ m.fileSize) :
    Room l.maxSize (m.entries.map entryRecord) (keyBytes buff) (List.replicate k.size 0) := by
  have hlen : (pad buff).length = align8 (keyBytes buff).length := by
    rw [← length_padded, padded_keyBytes, List.length_map]
  have hle := le_align8 k.size
  simp only [used_eq, Entry.totalSize, hlen] at hfits
  rw [Room, h.maxSize_eq, List.length_replicate]
  omega

/-- **The two models of the file agree**: where `addEntry` is defined on the entries, on the
bytes it accesses only the file, hands out the same entry and leaves the bytes of the same
entries. -/
theorem Stores.addEntry (h : Stores l m) (hbuff : ∀ c ∈ buff, c.toNat < 256)
    (hadd : m.addEntry buff k = some (i, m')) :
    ∃ accesses l', l.addEntry (keyBytes buff) (List.replicate k.size 0) =
        some (64 + used ((m'.entries.take i).map entryRecord), accesses, l') ∧
      (∀ a ∈ accesses, a.Inside l.maxSize) ∧ Stores l' m' := by
  have hkey : keyBytes buff ≠ [] := by simp [keyBytes]
  have hvalue : List.replicate k.size (0 : BitVec 8) ≠ [] := by cases k <;> simp [Kind.size]
  rw [Monitor.RawMMapList.addEntry, Monitor.RawMMapList.find] at hadd
  cases hfind : m.entries.findIdx? fun e => e.key = pad buff with
  | some j =>
    -- the first entry with the key
    simp only [hfind, Option.some.injEq, Prod.mk.injEq] at hadd
    obtain ⟨rfl, rfl⟩ := hadd
    obtain ⟨hlt, heq, hfirst⟩ := List.findIdx?_eq_some_iff_getElem.mp hfind
    have hsplit : m.entries = m.entries.take j ++ m.entries[j] :: m.entries.drop (j + 1) := by
      rw [← List.drop_eq_getElem_cons hlt, List.take_append_drop]
    have hlayout := h.layout
    rw [hsplit, List.map_append, List.map_cons] at hlayout
    have hkeyAt : (entryRecord m.entries[j]).key = padded (keyBytes buff) := by
      rw [padded_keyBytes, ← of_decide_eq_true heq]
      rfl
    have hbefore : ∀ e ∈ m.entries.take j, e.key ≠ pad buff := by
      intro e he
      obtain ⟨n, hn, rfl⟩ := List.mem_take_iff_getElem.mp he
      exact of_decide_eq_false (Bool.eq_false_iff.mpr (hfirst n (by omega)))
    obtain ⟨accesses, hrun, hinside⟩ := hlayout.addEntry_of_mem hkeyAt
      (h.key_ne hbuff (List.take_subset _ _) hbefore) hkey hvalue
    exact ⟨accesses, l, hrun, hinside, h⟩
  | none =>
    -- behind the others, where the end of the list and the entry lie in the file
    by_cases hterm : m.Terminated
    · simp only [hfind, hterm, if_true, Option.ite_none_right_eq_some, Option.some.injEq,
        Prod.mk.injEq] at hadd
      obtain ⟨hfits, rfl, rfl⟩ := hadd
      have hnew := h.key_ne hbuff (List.Subset.refl _) fun e he => by
        simpa using List.findIdx?_eq_none_iff.mp hfind e he
      obtain ⟨accesses, l', hrun, hinside, hlayout, hmax, -⟩ :=
        h.layout.addEntry_of_room hnew hkey hvalue (h.room hfits)
      rw [recordOf_keyBytes, ← List.map_singleton, ← List.map_append] at hlayout
      refine ⟨accesses, l', by simpa using hrun, hinside, hlayout, hmax.trans h.maxSize_eq, ?_⟩
      rw [List.forall_mem_append]
      exact ⟨h.byte, by simpa using lt_of_mem_pad hbuff⟩
    · simp [hfind, hterm] at hadd

/-- So do all calls one after another. -/
theorem Stores.addEntries {calls : List (List Char × Kind)} (h : Stores l m)
    (hbuff : ∀ call ∈ calls, ∀ c ∈ call.1, c.toNat < 256)
    (hadd : calls.foldlM (fun m call => (m.addEntry call.1 call.2).map Prod.snd) m = some m') :
    ∃ l', calls.foldlM (fun l call => (l.addEntry (keyBytes call.1)
        (List.replicate call.2.size 0)).map fun added => added.2.2) l = some l' ∧
      Stores l' m' := by
  induction calls generalizing l m with
  | nil =>
    obtain rfl := Option.some.inj hadd
    exact ⟨l, rfl, h⟩
  | cons call calls ih =>
    rw [List.forall_mem_cons] at hbuff
    obtain ⟨_, hmap, hrest⟩ := Option.bind_eq_some_iff.mp hadd
    obtain ⟨⟨i, m₁⟩, hfirst, rfl⟩ := Option.map_eq_some_iff.mp hmap
    obtain ⟨accesses, l₁, hrun, -, h₁⟩ := h.addEntry hbuff.1 hfirst
    rw [List.foldlM_cons, hrun]
    exact ih h₁ hbuff.2 hrest

end Stores

/-! ## The calls -/

/-- `MonitorStatusImpl`: the file and the cache maps. -/
structure MonitorStatus where
  statusList : RawMMapList
  cacheMaps : Kind → CacheMaps

namespace MonitorStatus

/-- `Init` on a new file. -/
def init (maxSize : BitVec 32) (behind : ℕ → BitVec 8) : MonitorStatus :=
  ⟨create maxSize behind, fun _ => ⟨fun _ => ∅, ⟨0, Nat.zero_lt_succ 9⟩⟩⟩

/-- The address of the value of a counter, which is registered if it was not. -/
def get (k : Kind) (module key : CString) (s : MonitorStatus) : Option (ℕ × MonitorStatus) :=
  let buff := k.key module key
  match ((s.cacheMaps k).maps (s.cacheMaps k).index).lookup buff with
  | some pointer => some (pointer, s)
  | none => do
    let added ← s.statusList.addEntry (keyBytes buff) (List.replicate k.size 0)
    -- `entry->Value()`
    let pointer := added.1 + 12 + added.2.2.keySize added.1
    some (pointer,
      ⟨added.2.2, Function.update s.cacheMaps k ((s.cacheMaps k).add buff pointer)⟩)

def getCounter := get .counter
def getTimerCounter := get .timer
def getBinaryCounter := get .binary

/-- The function of the interface for each kind. -/
def getOf : Kind → CString → CString → MonitorStatus → Option (ℕ × MonitorStatus)
  | .counter => getCounter
  | .timer => getTimerCounter
  | .binary => getBinaryCounter

theorem getOf_eq (k : Kind) : getOf k = get k := by cases k <;> rfl

/-- What the cache map of a kind that is read has for a key. -/
def cached (s : MonitorStatus) (k : Kind) (buff : List Char) : Option ℕ :=
  ((s.cacheMaps k).maps (s.cacheMaps k).index).lookup buff

/-- The call of a registration. -/
def register (r : Registration) (s : MonitorStatus) : Option (ℕ × MonitorStatus) :=
  getOf r.kind r.module r.key s

theorem register_of_cached {s : MonitorStatus} {p : ℕ}
    (h : s.cached r.kind r.buff = some p) : s.register r = some (p, s) := by
  have hlookup : ((s.cacheMaps r.kind).maps (s.cacheMaps r.kind).index).lookup
      (r.kind.key r.module r.key) = some p := h
  simp only [register, getOf_eq, get, hlookup]

theorem register_of_addEntry {s : MonitorStatus} {entry : ℕ} {accesses : List Access}
    {l : RawMMapList} (h : s.cached r.kind r.buff = none)
    (hadd : s.statusList.addEntry (keyBytes r.buff) (List.replicate r.kind.size 0)
      = some (entry, accesses, l)) :
    s.register r = some (entry + 12 + l.keySize entry,
      ⟨l, Function.update s.cacheMaps r.kind
        ((s.cacheMaps r.kind).add r.buff (entry + 12 + l.keySize entry))⟩) := by
  have hlookup : ((s.cacheMaps r.kind).maps (s.cacheMaps r.kind).index).lookup
      (r.kind.key r.module r.key) = none := h
  simp only [Registration.buff] at hadd
  simp only [register, getOf_eq, get, hlookup, hadd, Option.bind_eq_bind, Option.bind_some]
  rfl

/-- Calls one after another, with the addresses they return. -/
def registerAll : List Registration → MonitorStatus → Option (List ℕ × MonitorStatus)
  | [], s => some ([], s)
  | r :: rs, s => do
    let first ← s.register r
    let rest ← registerAll rs first.2
    some (first.1 :: rest.1, rest.2)

end MonitorStatus

open Rtp.Monitor.Mapped.MonitorStatus

/-! ## What is registered -/

/-- The entry of a registration. -/
def Registration.record (r : Registration) : Record :=
  recordOf (keyBytes r.buff) (List.replicate r.kind.size 0)

open Registration (record)

/-- A registration at the end, if it is not there. -/
def enroll (ds : List Registration) (r : Registration) : List Registration :=
  if r ∈ ds then ds else ds ++ [r]

/-- The registrations in the order of their first calls. -/
def registered (rs : List Registration) : List Registration := rs.foldl enroll []

/-- Where the entry of a registration starts, in a file with the given registrations. -/
def place (ds : List Registration) (r : Registration) : ℕ :=
  64 + used ((ds.takeWhile (· ≠ r)).map record)

variable {ds ds' rs : List Registration} {s s' : MonitorStatus}

theorem enroll_of_mem (h : r ∈ ds) : enroll ds r = ds := if_pos h

theorem enroll_of_notMem (h : r ∉ ds) : enroll ds r = ds ++ [r] := if_neg h

theorem mem_enroll_self (ds : List Registration) (r : Registration) : r ∈ enroll ds r := by
  by_cases h : r ∈ ds
  · rwa [enroll_of_mem h]
  · simp [enroll_of_notMem h]

theorem enroll_extends (ds : List Registration) (r : Registration) : ds <+: enroll ds r := by
  unfold enroll
  split
  · exact List.prefix_rfl
  · exact List.prefix_append _ _

theorem foldl_enroll_extends (ds rs : List Registration) : ds <+: rs.foldl enroll ds := by
  induction rs generalizing ds with
  | nil => exact List.prefix_rfl
  | cons r rs ih => exact (enroll_extends ds r).trans (ih _)

theorem mem_foldl_enroll (h : r ∈ rs) : r ∈ rs.foldl enroll ds := by
  induction rs generalizing ds with
  | nil => cases h
  | cons r' rs ih =>
    rcases List.mem_cons.mp h with rfl | h
    · exact (foldl_enroll_extends _ rs).subset (mem_enroll_self ds r)
    · exact ih h

theorem place_of_split {before after : List Registration} (h : r ∉ before) :
    place (before ++ r :: after) r = 64 + used (before.map record) := by
  rw [place, takeWhile_ne_of_notMem h]

/-- A registration keeps its place when others follow. -/
theorem place_of_extends (hpre : ds <+: ds') (h : r ∈ ds) : place ds' r = place ds r := by
  obtain ⟨more, rfl⟩ := hpre
  obtain ⟨before, after, rfl, hnot⟩ := List.eq_append_cons_of_mem h
  rw [List.append_assoc, List.cons_append, place_of_split hnot, place_of_split hnot]

theorem used_le_of_extends (hpre : ds <+: ds') :
    used (ds.map record) ≤ used (ds'.map record) := by
  obtain ⟨more, rfl⟩ := hpre
  rw [List.map_append, used_append]
  exact Nat.le_add_right _ _

/-- The entry of a registration ends before the list does. -/
theorem place_add_total_le (h : r ∈ ds) :
    place ds r + r.record.total ≤ 64 + used (ds.map record) := by
  obtain ⟨before, after, rfl, hnot⟩ := List.eq_append_cons_of_mem h
  rw [place_of_split hnot, List.map_append, used_append, List.map_cons, used]
  omega

theorem Laid.recordAt_place {l : RawMMapList} (hlaid : Laid l 64 (ds.map record))
    (h : r ∈ ds) : RecordAt l (place ds r) r.record := by
  obtain ⟨before, after, rfl, hnot⟩ := List.eq_append_cons_of_mem h
  rw [List.map_append, laid_append] at hlaid
  rw [place_of_split hnot]
  exact hlaid.2.1

/-- Two different registrations have entries one behind the other. -/
theorem place_disjoint (h : r ∈ ds) (h' : r' ∈ ds) (hne : r ≠ r') :
    place ds r + r.record.total ≤ place ds r' ∨ place ds r' + r'.record.total ≤ place ds r := by
  obtain ⟨before, after, rfl, hnot⟩ := List.eq_append_cons_of_mem h
  by_cases hbefore : r' ∈ before
  · right
    rw [place_of_extends (List.prefix_append before (r :: after)) hbefore, place_of_split hnot]
    exact place_add_total_le hbefore
  · left
    -- the other one stands behind, so the places before it include this one
    have hafter : r' ∈ after := by
      rcases List.mem_append.mp h' with hmem | hmem
      · exact absurd hmem hbefore
      · rcases List.mem_cons.mp hmem with heq | hmem
        · exact absurd heq.symm hne
        · exact hmem
    obtain ⟨middle, rest, rfl, hmiddle⟩ := List.eq_append_cons_of_mem hafter
    have hsplit : before ++ r :: (middle ++ r' :: rest)
        = (before ++ r :: middle) ++ r' :: rest := by simp
    have hnot' : r' ∉ before ++ r :: middle := by
      simp [hbefore, hmiddle, hne.symm]
    rw [place_of_split hnot, hsplit, place_of_split hnot', List.map_append, used_append,
      List.map_cons, used]
    omega

/-- The entries behind some others start at the places of their registrations. -/
theorem positions_append (before : List Registration) (hnodup : (before ++ ds).Nodup) :
    positions (64 + used (before.map record)) (ds.map record)
      = ds.map (place (before ++ ds)) := by
  induction ds generalizing before with
  | nil => rfl
  | cons r ds ih =>
    have hsplit : before ++ r :: ds = (before ++ [r]) ++ ds := by simp
    have hrest := ih (before ++ [r]) (hsplit ▸ hnodup)
    have hnot : r ∉ before := by
      intro hmem
      exact (List.nodup_append.mp hnodup).2.2 r hmem r List.mem_cons_self rfl
    rw [List.map_cons, List.map_cons, place_of_split hnot, positions, hsplit, ← hrest]
    simp [used, Nat.add_assoc]

theorem positions_eq_map_place (hnodup : ds.Nodup) :
    positions 64 (ds.map record) = ds.map (place ds) :=
  positions_append [] hnodup

/-! ## One call -/

/-- The address that is handed out for a registration. -/
def pointer (ds : List Registration) (r : Registration) : ℕ :=
  place ds r + 12 + r.record.key.length

/-- The file has the given registrations, and the cache maps point to them. -/
structure Inv (ds : List Registration) (s : MonitorStatus) : Prop where
  layout : Layout s.statusList (ds.map record)
  nodup : ds.Nodup
  cached : ∀ k buff p, s.cached k buff = some p →
    ∃ r ∈ ds, r.kind = k ∧ r.buff = buff ∧ p = pointer ds r

theorem Inv.init (maxSize : BitVec 32) (behind : ℕ → BitVec 8) :
    Inv [] (MonitorStatus.init maxSize behind) where
  layout := Layout.create maxSize behind
  nodup := List.nodup_nil
  cached := by
    intro k buff p hp
    simp [MonitorStatus.init, MonitorStatus.cached] at hp

/-- The bytes of a registration that `AddEntry` gets are not empty. -/
theorem keyBytes_ne_nil (buff : List Char) : keyBytes buff ≠ [] := by simp [keyBytes]

theorem value_ne_nil (k : Kind) : (List.replicate k.size 0 : List (BitVec 8)) ≠ [] := by
  cases k <;> simp [Kind.size]

/-- What `AddEntry` does for a registration when there is room for it. -/
theorem Inv.addEntry (h : Inv ds s)
    (hfit : 64 + used ((enroll ds r).map record) + 8 ≤ s.statusList.maxSize) :
    ∃ accesses l, s.statusList.addEntry (keyBytes r.buff) (List.replicate r.kind.size 0)
        = some (place (enroll ds r) r, accesses, l) ∧
      Layout l ((enroll ds r).map record) ∧
      l.maxSize = s.statusList.maxSize ∧
      ∀ a < 64 + used (ds.map record), l.bytes a = s.statusList.bytes a := by
  have hkey := keyBytes_ne_nil r.buff
  have hvalue := value_ne_nil r.kind
  by_cases hmem : r ∈ ds
  · rw [enroll_of_mem hmem]
    have hlayout := h.layout
    obtain ⟨before, after, hds, hnot⟩ := List.eq_append_cons_of_mem hmem
    rw [hds, List.map_append, List.map_cons] at hlayout
    obtain ⟨accesses, hadd, _⟩ := hlayout.addEntry_of_mem rfl (by
      intro x hx heq
      obtain ⟨r', hr', rfl⟩ := List.mem_map.mp hx
      exact hnot (Registration.padded_inj heq ▸ hr')) hkey hvalue
    refine ⟨accesses, s.statusList, ?_, h.layout, rfl, fun _ _ => rfl⟩
    rw [hadd, hds, place_of_split hnot]
  · rw [enroll_of_notMem hmem] at hfit ⊢
    have hnew : ∀ x ∈ ds.map record, x.key ≠ padded (keyBytes r.buff) := by
      intro x hx heq
      obtain ⟨r', hr', rfl⟩ := List.mem_map.mp hx
      exact hmem (Registration.padded_inj heq ▸ hr')
    rw [List.map_append, used_append] at hfit
    have hroom : Room s.statusList.maxSize (ds.map record) (keyBytes r.buff)
        (List.replicate r.kind.size 0) := by
      have hvle := le_align8 r.kind.size
      have hused : used ([r].map record)
          = align8 (keyBytes r.buff).length + align8 r.kind.size + 12 := by
        simp [used, Record.total, record, recordOf]
      unfold Room
      rw [List.length_replicate]
      omega
    obtain ⟨accesses, l, hadd, _, hlayout, hmax, hkeep⟩ :=
      h.layout.addEntry_of_room hnew hkey hvalue hroom
    refine ⟨accesses, l, ?_, ?_, hmax, hkeep⟩
    · rw [hadd, place_of_split hmem]
    · rw [List.map_append]
      exact hlayout

theorem nodup_enroll (h : ds.Nodup) (r : Registration) : (enroll ds r).Nodup := by
  by_cases hmem : r ∈ ds
  · rwa [enroll_of_mem hmem]
  · rw [enroll_of_notMem hmem, List.nodup_append]
    refine ⟨h, List.nodup_singleton r, ?_⟩
    intro x hx y hy heq
    rw [List.mem_singleton] at hy
    exact hmem (hy ▸ heq ▸ hx)

theorem pointer_of_extends (hpre : ds <+: ds') (h : r ∈ ds) : pointer ds' r = pointer ds r := by
  rw [pointer, pointer, place_of_extends hpre h]

/-- A pointer in the cache is the new one or was there before. -/
theorem cached_add {l : RawMMapList} {k k' : Kind} {buff buff' : List Char} {p p' : ℕ}
    (h : (MonitorStatus.mk l
      (Function.update s.cacheMaps k ((s.cacheMaps k).add buff p))).cached k' buff' = some p') :
    (k' = k ∧ buff' = buff ∧ p' = p) ∨ s.cached k' buff' = some p' := by
  simp only [MonitorStatus.cached] at h
  by_cases hk : k' = k
  · subst hk
    rw [Function.update_self] at h
    obtain ⟨hbuff, hp⟩ | hold := lookup_cacheMaps_add h
    · exact .inl ⟨rfl, hbuff, hp⟩
    · exact .inr hold
  · rw [Function.update_of_ne hk] at h
    exact .inr h

/-- **One call**: the address of the value in the entry of the registration, and the bytes of
the entries that were there stay. -/
theorem Inv.register (h : Inv ds s)
    (hfit : 64 + used ((enroll ds r).map record) + 8 ≤ s.statusList.maxSize) :
    ∃ s', s.register r = some (pointer (enroll ds r) r, s') ∧ Inv (enroll ds r) s' ∧
      s'.statusList.maxSize = s.statusList.maxSize ∧
      ∀ a < 64 + used (ds.map record),
        s'.statusList.bytes a = s.statusList.bytes a := by
  cases hcached : s.cached r.kind r.buff with
  | some p =>
    obtain ⟨r', hmem, _, hbuff, rfl⟩ := h.cached _ _ _ hcached
    obtain rfl := Registration.buff_inj hbuff
    rw [enroll_of_mem hmem]
    exact ⟨s, register_of_cached hcached, h, rfl, fun _ _ => rfl⟩
  | none =>
    obtain ⟨accesses, l, hadd, hlayout, hmax, hkeep⟩ := h.addEntry hfit
    have hself := mem_enroll_self ds r
    have hpointer : place (enroll ds r) r + 12 + l.keySize (place (enroll ds r) r)
        = pointer (enroll ds r) r := by
      rw [pointer, (hlayout.laid.recordAt_place hself).keySize_eq]
    refine ⟨_, hpointer ▸ register_of_addEntry hcached hadd, ?_, hmax, hkeep⟩
    refine ⟨hlayout, nodup_enroll h.nodup r, ?_⟩
    intro k buff p hp
    obtain ⟨rfl, rfl, rfl⟩ | hold := cached_add hp
    · exact ⟨r, hself, rfl, rfl, rfl⟩
    · obtain ⟨r', hmem, hk, hbuff, rfl⟩ := h.cached k buff p hold
      have hpre := enroll_extends ds r
      exact ⟨r', hpre.subset hmem, hk, hbuff, (pointer_of_extends hpre hmem).symm⟩

/-! ## All calls -/

/-- **A run**: by induction on the calls, each of which finds the file as `Inv.register` says
and leaves it so. -/
theorem Inv.registerAll (h : Inv ds s)
    (hfit : 64 + used ((rs.foldl enroll ds).map record) + 8
      ≤ s.statusList.maxSize) :
    ∃ s', registerAll rs s = some (rs.map (pointer (rs.foldl enroll ds)), s') ∧
      Inv (rs.foldl enroll ds) s' ∧ s'.statusList.maxSize = s.statusList.maxSize := by
  induction rs generalizing ds s with
  | nil => exact ⟨s, rfl, h, rfl⟩
  | cons r rs ih =>
    have hpre := foldl_enroll_extends (enroll ds r) rs
    have hle := used_le_of_extends hpre
    rw [List.foldl_cons] at hfit ⊢
    obtain ⟨s₁, hfirst, hinv, hmax, _⟩ := @Inv.register r ds s h (by omega)
    obtain ⟨s₂, hrest, hinv', hmax'⟩ := ih hinv (hmax.symm ▸ hfit)
    refine ⟨s₂, ?_, hinv', hmax'.trans hmax⟩
    simp only [MonitorStatus.registerAll, hfirst, hrest, Option.bind_eq_bind, Option.bind_some,
      List.map_cons, pointer_of_extends hpre (mem_enroll_self ds r)]

theorem registerAll_init {maxSize : BitVec 32} (behind : ℕ → BitVec 8)
    (hfit : 64 + used ((registered rs).map record) + 8 ≤ maxSize.toNat) :
    ∃ s, registerAll rs (init maxSize behind) = some (rs.map (pointer (registered rs)), s) ∧
      Inv (registered rs) s ∧ s.statusList.maxSize = maxSize.toNat :=
  (Inv.init maxSize behind).registerAll hfit

/-- What the file says about some registrations whose entries start at the given places. -/
structure LaidOut (rs : List Registration) (pointers : List ℕ) (l : RawMMapList)
    (start : Registration → ℕ) : Prop where
  /-- Each call returned the value of the entry of its registration. -/
  same : pointers = rs.map fun r => start r + 12 + l.keySize (start r)
  /-- Different registrations share no byte. -/
  disjoint : ∀ r ∈ rs, ∀ r' ∈ rs, r ≠ r' →
    start r + l.totalSize (start r) ≤ start r' ∨ start r' + l.totalSize (start r') ≤ start r
  /-- The value lies in the entry. -/
  value : ∀ r ∈ rs, 12 + l.keySize (start r) + r.kind.size ≤ l.totalSize (start r)
  /-- The entry has the key of its registration. -/
  key : ∀ r ∈ rs, slice l.bytes (start r + 12) (l.keySize (start r)) = padded (keyBytes r.buff)
  /-- The list has the entries in the order of the first calls, up to its end. -/
  walk : ∃ last, l.walk (fun _ => false) 64 = some ((registered rs).map start, last) ∧
    l.keySize last = 0 ∧ last + 8 ≤ l.maxSize

theorem Inv.laidOut (h : Inv (registered rs) s)
    (hfit : 64 + used ((registered rs).map record) + 8 ≤ s.statusList.maxSize) :
    LaidOut rs (rs.map (pointer (registered rs))) s.statusList (place (registered rs)) := by
  have hat : ∀ r ∈ rs, RecordAt s.statusList (place (registered rs) r) r.record :=
    fun r hr => h.layout.laid.recordAt_place (mem_foldl_enroll hr)
  refine ⟨?_, ?_, ?_, ?_, ?_⟩
  · apply List.map_congr_left
    intro r hr
    rw [(hat r hr).keySize_eq, pointer]
  · intro r hr r' hr' hne
    rw [(hat r hr).totalSize_eq, (hat r' hr').totalSize_eq]
    exact place_disjoint (mem_foldl_enroll hr) (mem_foldl_enroll hr') hne
  · intro r hr
    have hle := le_align8 r.kind.size
    rw [(hat r hr).keySize_eq, (hat r hr).totalSize_eq, Record.total]
    simp only [record, recordOf, List.length_replicate]
    omega
  · intro r hr
    rw [(hat r hr).keySize_eq, (hat r hr).key_eq]
    rfl
  · have hend := h.layout.keySize_end hfit
    refine ⟨_, ?_, hend, hfit⟩
    rw [h.layout.walk_to_end, walk_of_end hend, Option.map_some, List.append_nil,
      positions_eq_map_place h.nodup]

/-- **Registrations in a new file.**  Let the entries of the registrations, each once, and the
two sizes that end the list fit behind the header.  Then every call returns, and there is a
place for the entry of each registration such that the file is laid out; and no call changes
a byte of the entries that were there before it. -/
theorem registerAll_laidOut (maxSize : BitVec 32) (behind : ℕ → BitVec 8)
    (rs : List Registration)
    (hfit : 64 + used ((registered rs).map Registration.record) + 8 ≤ maxSize.toNat) :
    ∃ pointers s start, registerAll rs (init maxSize behind) = some (pointers, s) ∧
      LaidOut rs pointers s.statusList start ∧
      ∀ before r after, rs = before ++ r :: after →
        ∃ earlier s₁ p s₂, registerAll before (init maxSize behind) = some (earlier, s₁) ∧
          s₁.register r = some (p, s₂) ∧
          ∀ r' ∈ before, ∀ a, start r' ≤ a →
            a < start r' + s₁.statusList.totalSize (start r') →
            s₂.statusList.bytes a = s₁.statusList.bytes a := by
  obtain ⟨s, hrun, hinv, hmax⟩ := registerAll_init behind hfit
  refine ⟨_, s, place (registered rs), hrun, hinv.laidOut (hmax ▸ hfit), ?_⟩
  rintro before r after rfl
  have hpre' : enroll (registered before) r <+: registered (before ++ r :: after) := by
    rw [registered, registered, List.foldl_append]
    exact foldl_enroll_extends _ after
  have hpre := (enroll_extends (registered before) r).trans hpre'
  have hle := used_le_of_extends hpre
  have hle' := used_le_of_extends hpre'
  obtain ⟨s₁, hbefore, hinv₁, hmax₁⟩ := @registerAll_init before _ behind
    (show 64 + used ((registered before).map record) + 8 ≤ maxSize.toNat by omega)
  obtain ⟨s₂, hcall, _, _, hkeep⟩ := @Inv.register r _ s₁ hinv₁ (by omega)
  refine ⟨_, s₁, _, s₂, hbefore, hcall, ?_⟩
  intro r' hr' a _ hlt
  have hmem : r' ∈ registered before := mem_foldl_enroll hr'
  rw [place_of_extends hpre hmem, (hinv₁.layout.laid.recordAt_place hmem).totalSize_eq] at hlt
  exact hkeep a (Nat.lt_of_lt_of_le hlt (place_add_total_le hmem))

/-- One module and key, registered as a counter of a kind. -/
def underM (k : Kind) : Registration where
  kind := k
  module := moduleM
  key := keyB
  byte := by simp [moduleM, keyB]
  noHash := by decide
  short := by cases k <;> decide

/-- A counter and a timer under one name, the counter twice. -/
theorem registerAll_laidOut_underM :
    ∃ pointers s start,
      registerAll [underM .counter, underM .timer, underM .counter]
        (init 65536 fun _ => 0) = some (pointers, s) ∧
      LaidOut [underM .counter, underM .timer, underM .counter] pointers s.statusList start := by
  have hfit : 64 + used ((registered [underM .counter, underM .timer, underM .counter]).map
      record) + 8 ≤ (65536 : BitVec 32).toNat := by
    decide +kernel
  obtain ⟨pointers, s, start, hrun, hlaid, _⟩ := registerAll_laidOut 65536 (fun _ => 0) _ hfit
  exact ⟨pointers, s, start, hrun, hlaid⟩

end Rtp.Monitor.Mapped
