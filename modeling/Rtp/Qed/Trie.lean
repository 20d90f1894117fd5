import Mathlib.Algebra.BigOperators.Group.List.Basic
import Rtp.Lib.Bytes
import Rtp.Qed.FatTrie

/-!
# The trie in a file

`build_trie` writes the nodes of a fat trie one after the other into a buffer, and
`find_trie` walks in the buffer (`qed/trie.h`).  A node refers to its children by their
position in the buffer.  A SLIM node has a list of names and a list of positions; a STRONG
node has one position for every character from its smallest to its largest child, and 0
where there is no child with the character between.

* `buildTrie` — the buffer, or nothing where the source returns a null pointer.
* `nextNode`, `findTrie` — the walk.  A read outside the buffer is a fault.
* `getGid` — the store of a feature group by its name, `QuickEmbeddingDict::GetGid`.
-/

namespace Rtp.Qed

open Bytes

inductive TrieType where
  | slim
  | strong
  deriving DecidableEq, Repr

/-- The template arguments of `TrieNode`: its type, and the sizes of `SizeType` and of
`ValueType` in bytes. -/
structure TrieFormat where
  type : TrieType
  sizeBytes : ℕ
  valueBytes : ℕ
  deriving DecidableEq, Repr

/-- The children of a node, with their positions in the buffer. -/
abbrev Children : Type := List (Byte × ℕ)

namespace TrieFormat

variable (F : TrieFormat)

/-- `sizeof(TrieNode)`: the value and `subnode_count`, packed. -/
def headerSize : ℕ := F.valueBytes + 1

/-- `estimate_size`: the bytes of a node. -/
def estimateSize (count : ℕ) : ℕ :=
  match F.type with
  | .slim => F.headerSize + count * (1 + F.sizeBytes)
  | .strong => F.headerSize + 1 + count * F.sizeBytes

/-- `std::numeric_limits<SizeType>::max()`. -/
def maxSize : ℕ := 256 ^ F.sizeBytes - 1

/-- `std::numeric_limits<ValueType>::max()`. -/
def maxValue : ℕ := 256 ^ F.valueBytes - 1

/-! ## Building -/

/-- The number of characters from `least` to `top`, in a `uint8_t`. -/
def spanCount (top least : Byte) : ℕ := ((top.toInt - least.toInt + 1) % 256).toNat

/-- `count` in `build_trie`: the entries of the table of a node. -/
def subnodeCount (node : FatTrieNode) : ℕ :=
  match F.type, node.subnodes with
  | .strong, (top, _) :: (least, _) :: _ => spanCount top least
  | _, subnodes => subnodes.length

/-- The bytes of a node in the buffer. -/
def nodeSize (node : FatTrieNode) : ℕ := F.estimateSize (F.subnodeCount node)

/-- `ptr_mapping`: the position of a node in the buffer. -/
def position (nodes : List FatTrieNode) (i : ℕ) : ℕ := ((nodes.take i).map F.nodeSize).sum

/-- A SLIM node after its value: `subnode_count`, the names, the positions. -/
def slimBody (children : Children) : Option (List Byte) :=
  if children.any fun child => F.maxSize < child.2 then none
  else
    some (BitVec.ofNat 8 children.length ::
      (children.map Prod.fst ++ (children.map Prod.snd).flatMap (toLE F.sizeBytes)))

/-- A STRONG node with a table of one entry, after its value. -/
def singleBody (name : Byte) (offset : ℕ) : Option (List Byte) :=
  if F.maxSize < offset then none else some (1 :: name :: toLE F.sizeBytes offset)

/-- `target`: the buffer is zeroed before the positions of the children are written. -/
def table (count : ℕ) (least : Byte) (children : Children) : List ℕ :=
  fill (fun child => (child.1.toInt - least.toInt).toNat) Prod.snd children
    (List.replicate count 0)

/-- A STRONG node after its value: `subnode_count`, the smallest name, the table.  Of the
positions only that of the second child is compared with the largest `SizeType`. -/
def strongBody (children : Children) : Option (List Byte) :=
  match children with
  | [] => some [0, 0]
  | [(name, offset)] => F.singleBody name offset
  | (top, first) :: (least, second) :: _ =>
    if top.slt least then none
    else
      let count := spanCount top least
      if count = 0 then some [0, 0]
      else if count = 1 then F.singleBody top first
      else if F.maxSize < second then none
      else
        some (BitVec.ofNat 8 count :: least ::
          (table count least children).flatMap (toLE F.sizeBytes))

/-- A node after its value. -/
def body (children : Children) : Option (List Byte) :=
  match F.type with
  | .slim => F.slimBody children
  | .strong => F.strongBody children

/-- The children of a node with their positions. -/
def childrenAt (nodes : List FatTrieNode) (node : FatTrieNode) : Children :=
  node.subnodes.map fun child => (child.1, F.position nodes child.2)

/-- One node of the buffer, from the loop over `ptr_mapping`.  A node writes to its own
bytes only, so that the order of the nodes in `ptr_mapping` does not matter. -/
def encodeNode (nodes : List FatTrieNode) (node : FatTrieNode) : Option (List Byte) :=
  if node.subnodes.any fun child => nodes.length ≤ child.2 then none
  else if F.maxValue < node.value then none
  else (F.body (F.childrenAt nodes node)).map (toLE F.valueBytes node.value ++ ·)

end TrieFormat

/-- `build_trie`.  The allocator is asked for the size of the buffer and may refuse. -/
def buildTrie (F : TrieFormat) (m : StdMap) (allocator : ℕ → Bool) : Option (List Byte) := do
  let nodes ← buildFatTrie m
  let size := (nodes.map F.nodeSize).sum
  if size = 0 then none
  else if allocator size then
    let images ← nodes.mapM (F.encodeNode nodes)
    some images.flatten
  else none

/-! ## Searching -/

/-- A read outside the buffer. -/
inductive ReadFault where
  | outOfBounds
  deriving DecidableEq, Repr

/-- A number in the buffer. -/
def readAt (width : ℕ) (buffer : List Byte) (position : ℕ) : Except ReadFault ℕ :=
  match readLE width buffer position with
  | none => .error .outOfBounds
  | some n => .ok n

/-- A character in the buffer. -/
def charAt (buffer : List Byte) (position : ℕ) : Except ReadFault Byte :=
  match buffer[position]? with
  | none => .error .outOfBounds
  | some c => .ok c

namespace TrieFormat

variable (F : TrieFormat) (buffer : List Byte)

/-- `next_node_at`: the position of the child in an entry. -/
def nextNodeAt (index count current : ℕ) : Except ReadFault (Option ℕ) := do
  match F.type with
  | .slim =>
    let offset ← readAt F.sizeBytes buffer
      (current + F.headerSize + count + index * F.sizeBytes)
    .ok (some offset)
  | .strong =>
    let offset ← readAt F.sizeBytes buffer
      (current + F.headerSize + 1 + index * F.sizeBytes)
    .ok (some offset)

/-- The loop of `next_node` over the names of a SLIM node, with the given number of names
left. -/
def searchNames (keyc : Byte) (count current : ℕ) : ℕ → Except ReadFault (Option ℕ)
  | 0 => .ok none
  | left + 1 => do
    let j := count - (left + 1)
    let name ← charAt buffer (current + F.headerSize + j)
    if name = keyc then F.nextNodeAt buffer j count current
    else if j = 0 then
      if name.slt keyc then .ok none else searchNames keyc count current left
    else if keyc.slt name then .ok none
    else searchNames keyc count current left

/-- `next_node` of the node at the position `current`: the position of the child for the
character, `none` for a null pointer. -/
def nextNode (keyc : Byte) (current : ℕ) : Except ReadFault (Option ℕ) := do
  let count ← readAt 1 buffer (current + F.valueBytes)
  if count = 0 then .ok none
  else
    match F.type with
    | .slim => F.searchNames buffer keyc count current count
    | .strong =>
      let name ← charAt buffer (current + F.headerSize)
      let offset := keyc.toInt - name.toInt
      if offset < 0 then .ok none
      else if (count : ℤ) ≤ offset then .ok none
      else F.nextNodeAt buffer offset.toNat count current

/-- The loop of `find_trie` from the node at the position `current` on. -/
def findFrom : List Byte → ℕ → Except ReadFault (Option ℕ)
  | [], current => .ok (some current)
  | keyc :: key, current => do
    match ← F.nextNode buffer keyc current with
    | none => .ok none
    | some next => findFrom key next

/-- `find_trie`: the position of the node the string leads to. -/
def findTrie (key : List Byte) : Except ReadFault (Option ℕ) := F.findFrom buffer key 0

end TrieFormat

/-- `Trie_t`: the trie from names of feature groups to their numbers. -/
def gidFormat : TrieFormat := ⟨.strong, 2, 2⟩

/-- `QuickEmbeddingDict::GetGid`, with the mapped file and `fg_stores_`, in which a number
may have no store. -/
def getGid {Store : Type} (trieData : Option (List Byte)) (fgStores : List (Option Store))
    (feagroupId : List Byte) : Except ReadFault (Option Store) :=
  match trieData with
  | none => .ok none
  | some buffer => do
    match ← gidFormat.findTrie buffer feagroupId with
    | none => .ok none
    | some node =>
      let gid ← readAt gidFormat.valueBytes buffer node
      .ok (fgStores[gid]?).join

end Rtp.Qed
