import Rtp.Lib.Strtol
import Rtp.Qed.DataFiles
import Rtp.Qed.Trie

/-!
# Loading a dictionary

The model of `QuickEmbeddingDict::Load`.  A dictionary is a directory with a description
in YAML, a file with the trie of the group names, and for every group four files: the two
bucket tables, the meta information and the data.  `Load` fills the members of the object
while it reads, and leaves at the first thing that is wrong.

* `Yaml`, `Directory` — the description, and what opening each of the files comes to.
* `loadGroup`, `loadGroups`, `load` — the function, with all of its exits.
* `load_restores_iff` — **a `Load` that fails leaves the object as it was exactly when it
  fails before the trie is mapped.**
* `load_leaves_rest` — a missing meta file, after which no `Load` succeeds.
-/

namespace Rtp.Qed

open Bytes

/-! ## The description -/

/-- A node of a YAML document. -/
inductive Yaml where
  | null
  | scalar (text : String)
  | sequence (items : List Yaml)
  | map (entries : List (Yaml × Yaml))

namespace Yaml

/-- `Node::Scalar`, on a node that is there. -/
def text : Yaml → String
  | scalar text => text
  | _ => ""

/-- Does the node equal a string? -/
def isText (key : String) : Yaml → Bool
  | scalar text => text == key
  | _ => false

/-- `operator[]`: the value of a key, or nothing. -/
def get? (key : String) : Yaml → Option Yaml
  | map entries => (entries.find? fun e => e.1.isText key).map Prod.snd
  | _ => none

/-- The scalar of a key of the description; a key that is missing is added without a
value, and has the empty scalar. -/
def scalarOrEmpty (key : String) (node : Yaml) : String :=
  match node.get? key with
  | none => ""
  | some value => value.text

/-- The pairs a loop over a node goes through; nothing, if it throws.  The items of a
sequence have no key to be read. -/
def pairs : Yaml → Option (List (Yaml × Yaml))
  | map entries => some entries
  | sequence (_ :: _) => none
  | _ => some []

end Yaml

/-- The bytes of a text. -/
def bytesOf (text : String) : List Byte :=
  (text.toList.flatMap String.utf8EncodeChar).map UInt8.toBitVec

/-- `atoi`, as a `uint32_t`: the number of `strtol` is cut. -/
def atoi (text : String) : BitVec 32 := BitVec.ofInt 32 (strtol (bytesOf text)).value

/-- `std::stoi`; nothing, if it throws because there is no number, or it is out of range. -/
def stoi (text : String) : Option ℤ :=
  let result := strtol (bytesOf text)
  if result.stop ≠ 0 ∧ IntType.int32.Fits result.value then some result.value else none

/-! ## Files -/

/-- What opening the files of a directory comes to.  A file that cannot be opened has no
bytes.  The blocks are told apart by their number in `data_blocks_`, so that one file may
be opened for several of them with a different outcome each time. -/
structure Directory where
  /-- `YAML::LoadFile`; nothing, if it throws. -/
  desc : Option Yaml
  gidmapping : String → Option (List Byte)
  block : ℕ → String → Option (List Byte)

/-- A number of eight bytes.  A mapping is filled up with zeros to the end of its page. -/
def wordAt (bytes : List Byte) (position : ℕ) : BitVec 64 :=
  BitVec.ofNat 64 (ofLE ((List.range 8).map fun i => bytes.getD (position + i) 0))

/-- The meta information at the beginning of a file. -/
def MetaInfo.ofBytes (bytes : List Byte) : MetaInfo :=
  ⟨bytes.getD 8 0, wordAt bytes 16, wordAt bytes 24, wordAt bytes 32⟩

/-- `MmapedMemory`: the file, and the bytes that are mapped. -/
structure MmapedMemory where
  file : String
  address : Option (List Byte)
  deriving DecidableEq, Repr

/-- What `Open(0)` returns. -/
def openedSize (address : Option (List Byte)) : BitVec 64 :=
  match address with
  | none => 0
  | some bytes => BitVec.ofNat 64 bytes.length

/-- The free file has fewer buckets than the meta information says. -/
def badFreeFile (info : MetaInfo) (size : BitVec 64) : Bool :=
  info.freeIdCount != 0 && size.ult (info.freeIdCount * 16)

/-- The managed file has fewer buckets than the meta information says. -/
def badManagedFile (info : MetaInfo) (size : BitVec 64) : Bool :=
  size.ult ((1#64 <<< info.bucketType.toNat) * 16)

/-! ## The object -/

inductive DictValueType where
  | unknown
  | fp32
  | fp16
  deriving DecidableEq, Repr

/-- What a `HashTable` is made from. -/
structure TableSource where
  managed : Option (List Byte)
  free : Option (List Byte)
  bucketType : BitVec 8
  deriving DecidableEq, Repr

structure FeagroupStore where
  table : TableSource
  block : Option (List Byte)
  gid : BitVec 16
  dim : ℤ
  deriving DecidableEq, Repr

/-- `QuickEmbeddingDict`; the store of a number is a null pointer where there is none. -/
structure QuickEmbeddingDict where
  valueType : DictValueType
  fgStores : List (Option FeagroupStore)
  hashTables : List TableSource
  dataBlocks : List MmapedMemory
  trieData : Option (List Byte)
  deriving DecidableEq, Repr

namespace QuickEmbeddingDict

/-- A new object. -/
def fresh : QuickEmbeddingDict := ⟨.unknown, [], [], [], none⟩

/-- `GetGid` by number. -/
def getGidAt (s : QuickEmbeddingDict) (gid : BitVec 16) : Option FeagroupStore :=
  (s.fgStores[gid.toNat]?).join

/-- `GetGid` by name. -/
def getGidOf (s : QuickEmbeddingDict) (name : List Byte) :
    Except ReadFault (Option FeagroupStore) :=
  getGid s.trieData s.fgStores name

/-- The object with four more blocks. -/
def withBlocks (s : QuickEmbeddingDict) (free managed info data : MmapedMemory) :
    QuickEmbeddingDict :=
  { s with dataBlocks := s.dataBlocks ++ [free, managed, info, data] }

end QuickEmbeddingDict

open QuickEmbeddingDict

/-! ## Load -/

/-- An entry of `fg_stores_` that is not there is accessed. -/
inductive LoadFault where
  | outOfRange
  deriving DecidableEq, Repr

/-- The names of the files of a group. -/
structure GroupFiles where
  free : String
  managed : String
  info : String
  data : String
  deriving DecidableEq, Repr

/-- The files of a group are named in the description; nothing, if a name cannot be
read. -/
def groupFiles (node : Yaml) : Option GroupFiles := do
  let free ← node.get? "free"
  let managed ← node.get? "managed"
  let info ← node.get? "meta"
  let data ← node.get? "data"
  return ⟨free.text, managed.text, info.text, data.text⟩

/-- The dimension of a group; nothing, if `stoi` throws. -/
def groupDim (node : Yaml) : Option ℤ :=
  match node.get? "dim" with
  | some (.scalar text) => stoi text
  | _ => some 0

/-- The free file is opened only where free buckets have been taken. -/
def openFree (d : Directory) (n : ℕ) (info : MetaInfo) (file : String) : Option (List Byte) :=
  if info.freeIdCount ≠ 0 then d.block n file else none

/-- The body of the loop over the groups, from the creation of the blocks on: whether to
go on, and the object.  An exception is caught outside of the loop and leaves the object
as it is there. -/
def loadFiles (d : Directory) (gid : BitVec 32) (node : Yaml) (files : GroupFiles)
    (s : QuickEmbeddingDict) : Bool × QuickEmbeddingDict :=
  let n := s.dataBlocks.length
  match d.block (n + 2) files.info with
  | none =>
    (false, s.withBlocks ⟨files.free, none⟩ ⟨files.managed, none⟩ ⟨files.info, none⟩
      ⟨files.data, none⟩)
  | some bytes =>
    let info := MetaInfo.ofBytes bytes
    let free := openFree d n info files.free
    if badFreeFile info (openedSize free) then
      (false, s.withBlocks ⟨files.free, free⟩ ⟨files.managed, none⟩ ⟨files.info, some bytes⟩
        ⟨files.data, none⟩)
    else
      let managed := d.block (n + 1) files.managed
      if badManagedFile info (openedSize managed) then
        (false, s.withBlocks ⟨files.free, free⟩ ⟨files.managed, managed⟩
          ⟨files.info, some bytes⟩ ⟨files.data, none⟩)
      else
        let data := d.block (n + 3) files.data
        let s := s.withBlocks ⟨files.free, free⟩ ⟨files.managed, managed⟩
          ⟨files.info, some bytes⟩ ⟨files.data, data⟩
        if openedSize data = 0 then (false, s)
        else
          let table : TableSource := ⟨managed, free, info.bucketType⟩
          let s := { s with hashTables := s.hashTables ++ [table] }
          match groupDim node with
          | none => (false, s)
          | some dim =>
            (true, { s with
              fgStores := s.fgStores.set gid.toNat
                (some ⟨table, data, gid.setWidth 16, dim⟩) })

/-- The body of the loop over the groups. -/
def loadGroup (d : Directory) (group : Yaml × Yaml) (s : QuickEmbeddingDict) :
    Except LoadFault (Bool × QuickEmbeddingDict) :=
  let gid := atoi group.1.text
  match s.fgStores[gid.toNat]? with
  | none => .error .outOfRange
  | some (some _) => .ok (false, { s with fgStores := [] })
  | some none =>
    match groupFiles group.2 with
    | none => .ok (false, s)
    | some files => .ok (loadFiles d gid group.2 files s)

/-- The loop over the groups. -/
def loadGroups (d : Directory) :
    List (Yaml × Yaml) → QuickEmbeddingDict → Except LoadFault (Bool × QuickEmbeddingDict)
  | [], s => .ok (true, s)
  | group :: groups, s =>
    match loadGroup d group s with
    | .error e => .error e
    | .ok (false, s) => .ok (false, s)
    | .ok (true, s) => loadGroups d groups s

def maxGid (groups : List (Yaml × Yaml)) : BitVec 32 :=
  groups.foldl (fun n group => if n.ult (atoi group.1.text) then atoi group.1.text else n) 0

/-- `data_type`; nothing, if it is invalid. -/
def valueTypeOf (text : String) : Option DictValueType :=
  if text = "0" then some .fp32 else if text = "1" then some .fp16 else none

/-- The rest of `Load`, from the description on that is a map. -/
def loadDesc (d : Directory) (desc : Yaml) (s : QuickEmbeddingDict) :
    Except LoadFault (Bool × QuickEmbeddingDict) :=
  match valueTypeOf (desc.scalarOrEmpty "data_type") with
  | none => .ok (false, s)
  | some valueType =>
    let s := { s with valueType }
    let address := d.gidmapping (desc.scalarOrEmpty "gidmapping_file")
    if openedSize address = 0 then .ok (false, s)
    else
      let s := { s with trieData := address }
      match ((desc.get? "gids").getD .null).pairs with
      | none => .ok (false, s)
      | some groups =>
        let s := { s with fgStores := List.replicate (maxGid groups + 1).toNat none }
        match loadGroups d groups s with
        | .error e => .error e
        | .ok (false, s) => .ok (false, s)
        | .ok (true, s) =>
          .ok (!s.fgStores.isEmpty && !s.hashTables.isEmpty && !s.dataBlocks.isEmpty &&
            s.trieData.isSome, s)

/-- `Load`. -/
def load (d : Directory) (s : QuickEmbeddingDict) :
    Except LoadFault (Bool × QuickEmbeddingDict) :=
  if !s.fgStores.isEmpty || !s.hashTables.isEmpty || !s.dataBlocks.isEmpty ||
      s.trieData.isSome then .ok (false, s)
  else
    match d.desc with
    | some (.map entries) => loadDesc d (.map entries) s
    | _ => .ok (false, s)

/-! ## What a failed call leaves -/

/-- The mapping of the trie, where the description leads to one. -/
def Directory.trie (d : Directory) : Option (List Byte) :=
  match d.desc with
  | some (.map entries) =>
    match valueTypeOf ((Yaml.map entries).scalarOrEmpty "data_type") with
    | none => none
    | some _ =>
      let address := d.gidmapping ((Yaml.map entries).scalarOrEmpty "gidmapping_file")
      if openedSize address = 0 then none else address
  | _ => none

/-- The object is as a new one: nothing is held, nothing is found, and a `Load` that
succeeds on a new object succeeds on this one in the same way. -/
structure Restored (s : QuickEmbeddingDict) : Prop where
  fgStores : s.fgStores = []
  hashTables : s.hashTables = []
  dataBlocks : s.dataBlocks = []
  trieData : s.trieData = none
  getGidAt : ∀ gid, s.getGidAt gid = none
  getGidOf : ∀ name, s.getGidOf name = .ok none
  load : ∀ d s', Qed.load d fresh = .ok (true, s') → Qed.load d s = .ok (true, s')

variable {d : Directory} {s s' : QuickEmbeddingDict} {r : Bool}

theorem trieData_loadFiles (gid : BitVec 32) (node : Yaml) (files : GroupFiles) :
    (loadFiles d gid node files s).2.trieData = s.trieData := by
  simp only [loadFiles]
  split
  · rfl
  · split
    · rfl
    · split
      · rfl
      · split
        · rfl
        · split <;> rfl

/-- No group touches the trie. -/
theorem trieData_loadGroup {group : Yaml × Yaml} (h : loadGroup d group s = .ok (r, s')) :
    s'.trieData = s.trieData := by
  simp only [loadGroup] at h
  split at h
  · simp at h
  · rw [Except.ok.injEq, Prod.mk.injEq] at h
    rw [← h.2]
  · split at h
    · rw [Except.ok.injEq, Prod.mk.injEq] at h
      rw [← h.2]
    · next files hfiles =>
      have htrie := trieData_loadFiles (d := d) (s := s) (atoi group.1.text) group.2 files
      rw [Except.ok.injEq] at h
      rwa [h] at htrie

theorem trieData_loadGroups {groups : List (Yaml × Yaml)}
    (h : loadGroups d groups s = .ok (r, s')) : s'.trieData = s.trieData := by
  induction groups generalizing s with
  | nil => cases h; rfl
  | cons group groups ih =>
    rw [loadGroups] at h
    split at h
    · simp at h
    · next hgroup =>
      cases h
      exact trieData_loadGroup hgroup
    · next hgroup => exact (ih h).trans (trieData_loadGroup hgroup)

/-- A description that is a map, on a new object. -/
theorem loadDesc_fresh_cases {entries : List (Yaml × Yaml)} (hdesc : d.desc = some (.map entries))
    (h : loadDesc d (.map entries) fresh = .ok (r, s)) :
    (d.trie = none ∧ r = false ∧ ∃ valueType, s = { fresh with valueType }) ∨
      (d.trie ≠ none ∧ s.trieData = d.trie) := by
  simp only [loadDesc] at h
  simp only [Directory.trie, hdesc]
  split at h
  · rw [Except.ok.injEq, Prod.mk.injEq] at h
    exact .inl ⟨rfl, h.1.symm, fresh.valueType, h.2.symm⟩
  · next valueType htype =>
    split at h
    · next hzero =>
      rw [Except.ok.injEq, Prod.mk.injEq] at h
      rw [if_pos hzero]
      exact .inl ⟨rfl, h.1.symm, valueType, h.2.symm⟩
    · next hzero =>
      rw [if_neg hzero]
      refine .inr ⟨fun hnone => hzero (by rw [hnone]; rfl), ?_⟩
      split at h
      · rw [Except.ok.injEq, Prod.mk.injEq] at h
        rw [← h.2]
      · split at h
        · simp at h
        · next hgroups =>
          rw [Except.ok.injEq, Prod.mk.injEq] at h
          rw [← h.2]
          exact trieData_loadGroups hgroups
        · next hgroups =>
          rw [Except.ok.injEq, Prod.mk.injEq] at h
          rw [← h.2]
          exact trieData_loadGroups hgroups

/-- **The exits of `Load`.**  On a new object it fails before the trie is mapped, and then
nothing but the type of the values may have been set, or it leaves the trie mapped. -/
theorem load_fresh_cases (h : load d fresh = .ok (r, s)) :
    (d.trie = none ∧ r = false ∧ ∃ valueType, s = { fresh with valueType }) ∨
      (d.trie ≠ none ∧ s.trieData = d.trie) := by
  unfold load at h
  rw [if_neg (by decide)] at h
  split at h
  · next entries hdesc => exact loadDesc_fresh_cases hdesc h
  · next hdesc =>
    rw [Except.ok.injEq, Prod.mk.injEq] at h
    refine .inl ⟨?_, h.1.symm, fresh.valueType, h.2.symm⟩
    unfold Directory.trie
    split
    · next entries hmap => exact absurd hmap (hdesc entries)
    · rfl

/-- The type of the values that is there before plays no part in a `Load` that succeeds. -/
theorem load_valueType (valueType : DictValueType) (h : load d fresh = .ok (true, s)) :
    load d { fresh with valueType } = .ok (true, s) := by
  unfold load at h ⊢
  rw [if_neg (by decide)] at h
  rw [if_neg (by simp [fresh])]
  split at h
  · simp only [loadDesc] at h ⊢
    split at h
    · simp at h
    · exact h
  · simp at h

theorem restored_of_valueType (valueType : DictValueType) :
    Restored { fresh with valueType } where
  fgStores := rfl
  hashTables := rfl
  dataBlocks := rfl
  trieData := rfl
  getGidAt _ := rfl
  getGidOf _ := rfl
  load _ _ h := load_valueType valueType h

/-- **When a failed `Load` leaves no trace.**  Take any description and any outcome of
opening the files.  If `Load` returns `false` on a new object, the object is as it was
exactly when the call has not come to map the trie: the description cannot be read, is no
map or has no valid type of values, or the file of the trie cannot be mapped. -/
theorem load_restores_iff (d : Directory) (s : QuickEmbeddingDict)
    (h : load d fresh = .ok (false, s)) : Restored s ↔ d.trie = none := by
  rcases load_fresh_cases h with ⟨htrie, -, valueType, rfl⟩ | ⟨htrie, hdata⟩
  · exact iff_of_true (restored_of_valueType valueType) htrie
  · refine iff_of_false (fun hs => htrie ?_) htrie
    rw [← hdata]
    exact hs.trieData

/-- The description of a dictionary with the groups of the given numbers. -/
def groupsOf (gids : List String) : Yaml :=
  .map [(.scalar "data_type", .scalar "0"), (.scalar "gidmapping_file", .scalar "gid"),
    (.scalar "gids", .map (gids.map fun gid => (.scalar gid, .map [(.scalar "free", .scalar "f"),
      (.scalar "managed", .scalar "m"), (.scalar "meta", .scalar "i"),
      (.scalar "data", .scalar "d")])))]

/-- A directory with two groups.  The bucket type in the meta file of the first is 2, no free
bucket is taken, and the managed file has four buckets; the second has no meta file. -/
def twoGroups : Directory where
  desc := some (groupsOf ["1", " 2"])
  gidmapping _ := some [0, 0, 0, 0]
  block n _ :=
    if n = 2 then some [0, 0, 0, 0, 0, 0, 0, 0, 2]
    else if n = 6 then none else some (List.replicate 64 0)

/-- The first group is loaded, and stays. -/
theorem load_restores_iff_second :
    ∃ s, load twoGroups fresh = .ok (false, s) ∧ s.hashTables.length = 1 ∧
      (s.getGidAt 1).isSome ∧ ¬ Restored s := by
  refine ⟨_, rfl, ?_, ?_, fun h => ?_⟩
  · decide +kernel
  · decide +kernel
  · exact absurd ((load_restores_iff twoGroups _ rfl).mp h) (by decide +kernel)

/-- The directory of a dictionary with the group 1, and the given meta file. -/
def oneGroupDirectory (info : Option (List Byte)) : Directory where
  desc := some (groupsOf ["1"])
  gidmapping _ := some [0, 0, 0, 0]
  block n _ := if n = 2 then info else some (List.replicate 64 0)

/-- **A missing meta file.**  The first `Load` fails and leaves the trie, four blocks and
two entries of `fg_stores_`.  With the meta file in place, `Load` still fails on this
object, though it succeeds on a new one. -/
theorem load_leaves_rest :
    ∃ s, load (oneGroupDirectory none) fresh = .ok (false, s) ∧
      s.fgStores = [none, none] ∧ s.dataBlocks.length = 4 ∧ s.trieData.isSome ∧
      load (oneGroupDirectory (some [0, 0, 0, 0, 0, 0, 0, 0, 2])) s = .ok (false, s) ∧
      (load (oneGroupDirectory (some [0, 0, 0, 0, 0, 0, 0, 0, 2])) fresh).toOption.map
        Prod.fst = some true := by
  refine ⟨_, rfl, ?_, ?_, ?_, ?_, ?_⟩ <;> decide +kernel

end Rtp.Qed
