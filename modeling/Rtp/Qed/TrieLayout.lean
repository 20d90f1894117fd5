import Rtp.Qed.Trie

/-!
# Where the nodes are

The buffer of `build_trie` is its nodes end to end.  `estimate_size` is the length of what
is written for a node, so a node starts where `ptr_mapping` says it does.

* `length_encodeNode` — the bytes of a node are as many as were reserved for it.
* `buildTrie_eq_some` — a buffer that is built is the nodes of the fat trie.
* `drop_position` — **at the position of a node is the node.**
* `Built`, `Built.readAt_value` — a buffer with the nodes and labels it was built from, and
  what is read at a node.
* `findFrom_append` — a search for a string goes on from where a search for a prefix
  ended.
-/

namespace Rtp.Qed

open Bytes

namespace TrieFormat

variable {F : TrieFormat}

/-! ## The size of a node -/

/-- The bytes after the value, for a table of `count` entries. -/
theorem estimateSize_eq_slim (hF : F.type = .slim) (count : ℕ) :
    F.estimateSize count = F.valueBytes + (1 + count * (1 + F.sizeBytes)) := by
  rw [estimateSize, hF, headerSize, Nat.add_assoc]

theorem estimateSize_eq_strong (hF : F.type = .strong) (count : ℕ) :
    F.estimateSize count = F.valueBytes + (2 + count * F.sizeBytes) := by
  rw [estimateSize, hF]
  simp only [headerSize]
  omega

theorem estimateSize_mono {count count' : ℕ} (h : count ≤ count') :
    F.estimateSize count ≤ F.estimateSize count' := by
  cases hF : F.type with
  | slim =>
    rw [estimateSize_eq_slim hF, estimateSize_eq_slim hF]
    gcongr
  | strong =>
    rw [estimateSize_eq_strong hF, estimateSize_eq_strong hF]
    gcongr

@[simp]
theorem length_table (count : ℕ) (least : Byte) (children : Children) :
    (table count least children).length = count := by
  rw [table, length_fill, List.length_replicate]

variable {children : Children} {bytes : List Byte}

theorem length_slimBody (h : F.slimBody children = some bytes) :
    bytes.length = 1 + children.length * (1 + F.sizeBytes) := by
  rw [slimBody, Option.ite_none_left_eq_some, Option.some.injEq] at h
  obtain ⟨_, rfl⟩ := h
  rw [List.length_cons, List.length_append, length_flatMap_toLE, List.length_map,
    List.length_map, Nat.mul_add]
  omega

theorem length_singleBody {name : Byte} {offset : ℕ} (h : F.singleBody name offset = some bytes) :
    bytes.length = 2 + 1 * F.sizeBytes := by
  rw [singleBody, Option.ite_none_left_eq_some, Option.some.injEq] at h
  obtain ⟨_, rfl⟩ := h
  simp only [List.length_cons, length_toLE]
  omega

theorem length_strongBody {node : FatTrieNode} (hF : F.type = .strong)
    (hnames : children.map Prod.fst = node.names) (h : F.strongBody children = some bytes) :
    bytes.length = 2 + F.subnodeCount node * F.sizeBytes := by
  obtain ⟨subnodes, value⟩ := node
  -- the two lists are of one length and have the same names
  rcases children with _ | ⟨⟨top, first⟩, _ | ⟨⟨least, second⟩, children⟩⟩ <;>
    rcases subnodes with _ | ⟨⟨top', first'⟩, _ | ⟨⟨least', second'⟩, subnodes⟩⟩ <;>
    simp only [FatTrieNode.names, List.map_cons, List.map_nil, List.cons.injEq, reduceCtorEq,
      and_false] at hnames
  · rw [strongBody, Option.some.injEq] at h
    simp [← h, subnodeCount]
  · simpa [subnodeCount] using length_singleBody h
  · obtain ⟨rfl, rfl, _⟩ := hnames
    have hcount : F.subnodeCount ⟨(top, first') :: (least, second') :: subnodes, value⟩ =
        spanCount top least := by
      rw [subnodeCount, hF]
    rw [hcount]
    rw [strongBody, Option.ite_none_left_eq_some] at h
    obtain ⟨_, h⟩ := h
    by_cases hzero : spanCount top least = 0
    · rw [if_pos hzero, Option.some.injEq] at h
      simp [← h, hzero]
    by_cases hone : spanCount top least = 1
    · rw [if_neg hzero, if_pos hone] at h
      rw [hone, length_singleBody h]
    · rw [if_neg hzero, if_neg hone, Option.ite_none_left_eq_some, Option.some.injEq] at h
      obtain ⟨_, rfl⟩ := h
      simp only [List.length_cons, length_flatMap_toLE, length_table]
      omega

variable {nodes : List FatTrieNode} {node : FatTrieNode} {image : List Byte}

theorem names_childrenAt (F : TrieFormat) (nodes : List FatTrieNode) (node : FatTrieNode) :
    (F.childrenAt nodes node).map Prod.fst = node.names := by
  simp [childrenAt, FatTrieNode.names, Function.comp_def]

/-- What is written for a node is its value and what follows it. -/
theorem encodeNode_eq_some (h : F.encodeNode nodes node = some image) :
    node.value ≤ F.maxValue ∧
      ∃ bytes, F.body (F.childrenAt nodes node) = some bytes ∧
        image = toLE F.valueBytes node.value ++ bytes := by
  rw [encodeNode, Option.ite_none_left_eq_some, Option.ite_none_left_eq_some,
    Option.map_eq_some_iff] at h
  obtain ⟨_, hvalue, bytes, hbody, himage⟩ := h
  exact ⟨Nat.le_of_not_lt hvalue, bytes, hbody, himage.symm⟩

/-- **The size that was reserved.** -/
theorem length_encodeNode (h : F.encodeNode nodes node = some image) :
    image.length = F.nodeSize node := by
  obtain ⟨_, bytes, hbody, rfl⟩ := encodeNode_eq_some h
  rw [List.length_append, length_toLE, nodeSize]
  cases hF : F.type with
  | slim =>
    rw [body, hF] at hbody
    rw [estimateSize_eq_slim hF, length_slimBody hbody]
    have hcount : F.subnodeCount node = (F.childrenAt nodes node).length := by
      rw [subnodeCount, hF, childrenAt, List.length_map]
    rw [hcount]
  | strong =>
    rw [body, hF] at hbody
    rw [estimateSize_eq_strong hF, length_strongBody hF (names_childrenAt F nodes node) hbody]

/-! ## The nodes in the buffer -/

variable {i : ℕ}

@[simp]
theorem position_zero : F.position nodes 0 = 0 := rfl

theorem position_succ (h : nodes[i]? = some node) :
    F.position nodes (i + 1) = F.position nodes i + F.nodeSize node := by
  rw [position, List.take_add_one, h, List.map_append, List.sum_append]
  simp [position]

theorem position_mono {j : ℕ} (h : i ≤ j) : F.position nodes i ≤ F.position nodes j := by
  obtain ⟨k, rfl⟩ := Nat.exists_eq_add_of_le h
  rw [position, position, List.take_add, List.map_append, List.sum_append]
  omega

/-- A map over a list that may fail, entry by entry. -/
theorem mapM_eq_some {α β : Type} {f : α → Option β} {l : List α} {l' : List β}
    (h : l.mapM f = some l') : List.Forall₂ (fun a b => f a = some b) l l' := by
  induction l generalizing l' with
  | nil =>
    rw [List.mapM_nil, Option.pure_def, Option.some.injEq] at h
    exact h ▸ List.Forall₂.nil
  | cons a l ih =>
    simp only [List.mapM_cons, Option.bind_eq_bind, Option.pure_def, Option.bind_eq_some_iff,
      Option.some.injEq] at h
    obtain ⟨b, hb, bs, hbs, rfl⟩ := h
    exact List.Forall₂.cons hb (ih hbs)

/-- **At the position of a node is the node.** -/
theorem drop_position {images : List (List Byte)}
    (h : List.Forall₂ (fun node image => F.encodeNode nodes node = some image) nodes images)
    (hi : nodes[i]? = some node) :
    ∃ image rest, F.encodeNode nodes node = some image ∧
      images.flatten.drop (F.position nodes i) = image ++ rest := by
  have hlt : i < nodes.length := (List.getElem?_eq_some_iff.mp hi).1
  have hlt' : i < images.length := h.length_eq ▸ hlt
  have himage : F.encodeNode nodes node = some images[i] := by
    have hget := h.get hlt hlt'
    rwa [List.get_eq_getElem, (List.getElem?_eq_some_iff.mp hi).2] at hget
  have hsum : ((images.take i).map List.length).sum = F.position nodes i := by
    rw [position]
    congr 1
    refine List.forall₂_eq_eq_eq ▸ ?_
    rw [List.forall₂_map_left_iff, List.forall₂_map_right_iff]
    exact (List.forall₂_take i h).flip.imp fun _ _ henc => length_encodeNode henc
  refine ⟨images[i], (images.drop (i + 1)).flatten, himage, ?_⟩
  rw [← hsum]
  exact drop_flatten (List.getElem?_eq_getElem hlt')

/-! ## Searching -/

section Reading

variable {buffer rest : List Byte} {keyc : Byte} {current value : ℕ}

theorem readAt_of_readLE {width position n : ℕ} (h : readLE width buffer position = some n) :
    readAt width buffer position = .ok n := by
  rw [readAt, h]

theorem charAt_of_drop {position : ℕ} {c : Byte} (h : buffer.drop position = c :: rest) :
    charAt buffer position = .ok c := by
  have hget : buffer[position]? = some c := by
    rw [← List.head?_drop, h]
    rfl
  rw [charAt, hget]

/-- A node without children. -/
theorem nextNode_of_empty
    (hdrop : buffer.drop current = toLE F.valueBytes value ++ (0 :: rest)) :
    F.nextNode buffer keyc current = .ok none := by
  have hcount : buffer.drop (current + F.valueBytes) = 0 :: rest := by
    rw [← List.drop_drop, hdrop, List.drop_left' (length_toLE _ _)]
  rw [nextNode, readAt_of_readLE (readLE_one_of_drop hcount)]
  rfl

end Reading

/-- A search that ends at a node has gone to a child with its first character. -/
theorem findFrom_cons_eq_some {buffer : List Byte} {c : Byte} {s : List Byte} {current next : ℕ}
    (h : F.findFrom buffer (c :: s) current = .ok (some next)) :
    ∃ child, F.nextNode buffer c current = .ok (some child) ∧
      F.findFrom buffer s child = .ok (some next) := by
  rw [findFrom] at h
  cases hnext : F.nextNode buffer c current with
  | error fault => rw [hnext] at h; cases h
  | ok result =>
    rw [hnext] at h
    cases result with
    | none => cases h
    | some child => exact ⟨child, rfl, h⟩

/-- A search goes on where a search for a prefix ended. -/
theorem findFrom_append {buffer : List Byte} {s t : List Byte} {current next : ℕ}
    (h : F.findFrom buffer s current = .ok (some next)) :
    F.findFrom buffer (s ++ t) current = F.findFrom buffer t next := by
  induction s generalizing current with
  | nil =>
    obtain rfl : current = next := by simpa [findFrom] using h
    rfl
  | cons c s ih =>
    obtain ⟨child, hnext, h⟩ := findFrom_cons_eq_some h
    rw [List.cons_append, findFrom, hnext]
    exact ih h

theorem findFrom_singleton {buffer : List Byte} {c : Byte} {current : ℕ} :
    F.findFrom buffer [c] current = F.nextNode buffer c current := by
  rw [findFrom]
  cases F.nextNode buffer c current with
  | error fault => rfl
  | ok result => cases result <;> rfl

/-- A string that leaves the trie is not found, whatever follows. -/
theorem findFrom_cons_none {buffer : List Byte} {c : Byte} {t : List Byte} {current : ℕ}
    (h : F.nextNode buffer c current = .ok none) :
    F.findFrom buffer (c :: t) current = .ok none := by
  rw [findFrom, h]
  rfl

end TrieFormat

/-- A buffer that is built is the nodes of the fat trie end to end. -/
theorem buildTrie_eq_some {F : TrieFormat} {m : StdMap} {allocator : ℕ → Bool}
    {buffer : List Byte} (h : buildTrie F m allocator = some buffer) :
    ∃ nodes images, buildFatTrie m = some nodes ∧
      List.Forall₂ (fun node image => F.encodeNode nodes node = some image) nodes images ∧
      buffer = images.flatten := by
  simp only [buildTrie, Option.bind_eq_bind, Option.bind_eq_some_iff] at h
  obtain ⟨nodes, hnodes, h⟩ := h
  rw [Option.ite_none_left_eq_some, Option.ite_none_right_eq_some, Option.bind_eq_some_iff] at h
  obtain ⟨_, _, images, himages, hbuffer⟩ := h
  exact ⟨nodes, images, hnodes, TrieFormat.mapM_eq_some himages, (Option.some.inj hbuffer).symm⟩

/-! ## A trie that was built -/

/-- A buffer that `build_trie` returned for a map, with the nodes and their labels. -/
structure Built (F : TrieFormat) (m : AsciiMap) (buffer : List Byte)
    (nodes : List FatTrieNode) (labels : List (List Byte)) : Prop where
  labelled : Labelled nodes labels m.valueAt
  mem_labels : ∀ s, s ∈ labels ↔ s = [] ∨ m.HasPrefix s
  image : ∀ (i : ℕ) node, nodes[i]? = some node → ∃ image rest,
    F.encodeNode nodes node = some image ∧ buffer.drop (F.position nodes i) = image ++ rest

theorem built_of_buildTrie {F : TrieFormat} {m : AsciiMap} {allocator : ℕ → Bool}
    {buffer : List Byte} (h : buildTrie F m.toStdMap allocator = some buffer) :
    ∃ nodes labels, Built F m buffer nodes labels := by
  obtain ⟨nodes, images, hnodes, himages, rfl⟩ := buildTrie_eq_some h
  obtain ⟨nodes', labels, hnodes', hlabelled, hmem⟩ := buildFatTrie_labelled m
  obtain rfl : nodes = nodes' := Option.some.inj (hnodes.symm.trans hnodes')
  exact ⟨nodes, labels, hlabelled, hmem, fun _ _ hi => TrieFormat.drop_position himages hi⟩

theorem NodeOf.mem_names_childrenAt {F : TrieFormat} {nodes : List FatTrieNode}
    {labels : List (List Byte)} {valueOf : List Byte → ℕ} {u : List Byte} {c : Byte}
    {node : FatTrieNode} (h : NodeOf labels valueOf u node) :
    c ∈ (F.childrenAt nodes node).map Prod.fst ↔ u ++ [c] ∈ labels := by
  rw [TrieFormat.names_childrenAt, h.mem_names]

namespace Built

variable {F : TrieFormat} {m : AsciiMap} {buffer : List Byte} {nodes : List FatTrieNode}
  {labels : List (List Byte)} (h : Built F m buffer nodes labels) {i : ℕ} {u : List Byte}

include h

/-- Where a string that is no label leaves the labels. -/
theorem exists_leaving {s : List Byte} (hs : s ∉ labels) :
    ∃ u c t, s = u ++ c :: t ∧ u ∈ labels ∧ u ++ [c] ∉ labels := by
  induction s using List.reverseRecOn with
  | nil => exact absurd (List.mem_of_getElem? h.labelled.root) hs
  | append_singleton s c ih =>
    by_cases hmem : s ∈ labels
    · exact ⟨s, c, [], rfl, hmem, hs⟩
    · obtain ⟨u, d, t, rfl, hu, hd⟩ := ih hmem
      exact ⟨u, d, t ++ [c], by simp, hu, hd⟩

/-- Labels are found where every label leads on to those that are one character longer. -/
theorem findTrie_of_children
    (hnext : ∀ {i k u c}, labels[k]? = some u → labels[i]? = some (u ++ [c]) →
      F.nextNode buffer c (F.position nodes k) = .ok (some (F.position nodes i)))
    (hu : labels[i]? = some u) : F.findTrie buffer u = .ok (some (F.position nodes i)) := by
  induction u using List.reverseRecOn generalizing i with
  | nil =>
    rw [h.labelled.index_eq hu h.labelled.root]
    rfl
  | append_singleton u c ih =>
    obtain ⟨k, hk⟩ := List.mem_iff_getElem?.mp (h.labelled.closed u c (List.mem_of_getElem? hu))
    rw [TrieFormat.findTrie, TrieFormat.findFrom_append (ih hk), TrieFormat.findFrom_singleton]
    exact hnext hk hu

/-- **The value of a node** is that of its label. -/
theorem readAt_value (hu : labels[i]? = some u) :
    readAt F.valueBytes buffer (F.position nodes i) = .ok (m.valueAt u) := by
  obtain ⟨node, hnode, hof⟩ := h.labelled.exists_nodeOf hu
  obtain ⟨image, rest, henc, hdrop⟩ := h.image i node hnode
  obtain ⟨hvalue, bytes, _, rfl⟩ := TrieFormat.encodeNode_eq_some henc
  rw [List.append_assoc] at hdrop
  have hlt : node.value < 256 ^ F.valueBytes := by
    have hpos : 0 < 256 ^ F.valueBytes := Nat.pow_pos (by decide)
    rw [TrieFormat.maxValue] at hvalue
    omega
  rw [readAt, readLE_of_drop hdrop, Nat.mod_eq_of_lt hlt, hof.value]

end Built

end Rtp.Qed
