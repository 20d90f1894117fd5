import Rtp.Qed.TrieLayout

/-!
# SLIM nodes

A SLIM node lists the names of its children, the largest first and the others ascending,
and `next_node` goes through the list and stops early: after the first name if that is
smaller than the character, after any other if that is larger.

* `searchNames_found`, `searchNames_not_found` — **the search in a node**: stopping early
  never misses a name.
* `Built.nextNode_slim_child`, `Built.nextNode_slim_none` — `next_node` in a trie that was
  built.
* `slim_found_iff` — **a string is found exactly if it is empty or a key starts with it**,
  and then with its value.
-/

namespace Rtp.Qed

open Bytes

/-! ## The order of the names -/

section Order

variable {names : List Byte} {a b : Byte} {j k : ℕ}

/-- No name is above the first. -/
theorem Rotated.le_first (h : Rotated names) (ha : names[0]? = some a) (hb : b ∈ names) :
    b ≤ a := by
  cases names with
  | nil => cases ha
  | cons top rest =>
    obtain rfl : top = a := by simpa using ha
    rcases List.mem_cons.mp hb with rfl | hb
    · exact BitVec.le_refl b
    · exact BitVec.le_of_lt (h.2 b hb)

/-- After the first, the names ascend. -/
theorem Rotated.lt_of_lt (h : Rotated names) (hj : 0 < j) (hjk : j < k)
    (ha : names[j]? = some a) (hb : names[k]? = some b) : a < b := by
  cases names with
  | nil => cases ha
  | cons top rest =>
    obtain ⟨j, rfl⟩ := Nat.exists_eq_succ_of_ne_zero (Nat.ne_of_gt hj)
    obtain ⟨k, rfl⟩ := Nat.exists_eq_succ_of_ne_zero (Nat.ne_of_gt (hj.trans hjk))
    rw [Nat.succ_eq_add_one, List.getElem?_cons_succ] at ha hb
    obtain ⟨hjlt, rfl⟩ := List.getElem?_eq_some_iff.mp ha
    obtain ⟨hklt, rfl⟩ := List.getElem?_eq_some_iff.mp hb
    exact List.pairwise_iff_getElem.mp h.1 j k hjlt hklt (by omega)

theorem IsAscii.slt_eq_false (ha : IsAscii a) (hb : IsAscii b) (hle : b ≤ a) :
    a.slt b = false := by
  rw [ha.slt hb]
  exact decide_eq_false (BitVec.not_lt.mpr hle)

end Order

namespace TrieFormat

variable {F : TrieFormat} {buffer rest : List Byte} {names : List Byte} {keyc : Byte}
  {current : ℕ}

/-! ## The search in a node -/

section Search

variable (hread : ∀ (j : ℕ) name, names[j]? = some name →
  charAt buffer (current + F.headerSize + j) = .ok name)

include hread

variable {left : ℕ}

/-- One name. -/
theorem searchNames_succ {name : Byte} (hname : names[names.length - (left + 1)]? = some name) :
    F.searchNames buffer keyc names.length current (left + 1) =
      if name = keyc then
        F.nextNodeAt buffer (names.length - (left + 1)) names.length current
      else if names.length - (left + 1) = 0 then
        if name.slt keyc then .ok none
        else F.searchNames buffer keyc names.length current left
      else if keyc.slt name then .ok none
      else F.searchNames buffer keyc names.length current left := by
  rw [searchNames, hread _ _ hname]
  rfl

/-- A character that is no name is not found. -/
theorem searchNames_not_found (hkeyc : keyc ∉ names) (hleft : left ≤ names.length) :
    F.searchNames buffer keyc names.length current left = .ok none := by
  induction left with
  | zero => rfl
  | succ left ih =>
    have hname := List.getElem?_eq_getElem
      (show names.length - (left + 1) < names.length by omega)
    have hne : names[names.length - (left + 1)] ≠ keyc :=
      fun heq => hkeyc (heq ▸ List.getElem_mem _)
    rw [searchNames_succ hread hname, if_neg hne, ih (by omega)]
    simp

/-- **Stopping early misses nothing.**  A name that is not behind the search is found. -/
theorem searchNames_found (hrot : Rotated names) (hascii : ∀ c ∈ names, IsAscii c) {k : ℕ}
    (hk : names[k]? = some keyc) (hleft : left ≤ names.length) (hbehind : names.length - left ≤ k) :
    F.searchNames buffer keyc names.length current left =
      F.nextNodeAt buffer k names.length current := by
  have hmem : keyc ∈ names := List.mem_of_getElem? hk
  have hklt : k < names.length := (List.getElem?_eq_some_iff.mp hk).1
  induction left with
  | zero => omega
  | succ left ih =>
    have hlt : names.length - (left + 1) < names.length := by omega
    have hname := List.getElem?_eq_getElem hlt
    rw [searchNames_succ hread hname]
    by_cases heq : names[names.length - (left + 1)] = keyc
    · rw [heq] at hname
      have hindex : names.length - (left + 1) = k :=
        (List.getElem?_inj hlt hrot.nodup).mp (hname.trans hk.symm)
      rw [if_pos heq, hindex]
    · have hne : names.length - (left + 1) ≠ k := by
        rintro rfl
        exact heq (Option.some.inj (hname.symm.trans hk))
      have hna := hascii _ (List.getElem_mem hlt)
      rw [if_neg heq]
      by_cases hzero : names.length - (left + 1) = 0
      -- the first name is the largest
      · have hle : keyc ≤ names[names.length - (left + 1)] :=
          hrot.le_first (hzero ▸ hname) hmem
        rw [if_pos hzero, if_neg (by simp [hna.slt_eq_false (hascii keyc hmem) hle]),
          ih (by omega) (by omega)]
      -- the others ascend, and the name looked for is still to come
      · have hlt : names[names.length - (left + 1)] < keyc :=
          hrot.lt_of_lt (Nat.pos_of_ne_zero hzero) (by omega) hname hk
        rw [if_neg hzero, if_neg, ih (by omega) (by omega)]
        simp [(hascii keyc hmem).slt_eq_false hna (BitVec.le_of_lt hlt)]

end Search

variable {children : Children} {bytes : List Byte} {value : ℕ}

/-- What is written for a node.  All positions fit. -/
theorem slimBody_eq_some (h : F.slimBody children = some bytes) :
    (∀ child ∈ children, child.2 < 256 ^ F.sizeBytes) ∧
      bytes = BitVec.ofNat 8 children.length ::
        (children.map Prod.fst ++ (children.map Prod.snd).flatMap (toLE F.sizeBytes)) := by
  rw [slimBody, Option.ite_none_left_eq_some, Option.some.injEq] at h
  obtain ⟨hfits, rfl⟩ := h
  refine ⟨fun child hchild => ?_, rfl⟩
  simp only [List.any_eq_true, decide_eq_true_eq, not_exists, not_and, Nat.not_lt] at hfits
  have hle := hfits child hchild
  have hpos : 0 < 256 ^ F.sizeBytes := Nat.pow_pos (by decide)
  rw [maxSize] at hle
  omega

section Node

variable (hF : F.type = .slim) (hlen : children.length ≤ 127)
  (hdrop : buffer.drop current = toLE F.valueBytes value ++
    (BitVec.ofNat 8 children.length ::
      (children.map Prod.fst ++ (children.map Prod.snd).flatMap (toLE F.sizeBytes))) ++ rest)

include hdrop

theorem drop_names : buffer.drop (current + F.headerSize) =
    children.map Prod.fst ++ ((children.map Prod.snd).flatMap (toLE F.sizeBytes) ++ rest) := by
  rw [headerSize, ← Nat.add_assoc, ← List.drop_drop, ← List.drop_drop, hdrop, List.append_assoc,
    List.drop_left' (length_toLE _ _), List.cons_append, List.append_assoc]
  rfl

theorem charAt_name (j : ℕ) (name : Byte) (hname : (children.map Prod.fst)[j]? = some name) :
    charAt buffer (current + F.headerSize + j) = .ok name := by
  have hget : buffer[current + F.headerSize + j]? = some name := by
    rw [← List.getElem?_drop, drop_names hdrop,
      List.getElem?_append_left (List.getElem?_eq_some_iff.mp hname).1, hname]
  rw [charAt, hget]

include hF hlen

/-- **`next_node` of a SLIM node** is the search among its names. -/
theorem nextNode_slim :
    F.nextNode buffer keyc current =
      F.searchNames buffer keyc children.length current children.length := by
  have hcount : buffer.drop (current + F.valueBytes) = BitVec.ofNat 8 children.length ::
      (children.map Prod.fst ++ (children.map Prod.snd).flatMap (toLE F.sizeBytes) ++ rest) := by
    rw [← List.drop_drop, hdrop, List.append_assoc, List.drop_left' (length_toLE _ _)]
    rfl
  have hnat : (BitVec.ofNat 8 children.length).toNat = children.length := by
    rw [BitVec.toNat_ofNat]
    omega
  have hread : readAt 1 buffer (current + F.valueBytes) = .ok children.length := by
    rw [readAt_of_readLE (readLE_one_of_drop hcount), hnat]
  simp only [nextNode, hread, hF, bind, Except.bind]
  by_cases hzero : children.length = 0
  · rw [if_pos hzero, hzero]
    rfl
  · rw [if_neg hzero]

/-- A name leads to its child. -/
theorem nextNode_slim_of_mem (hrot : Rotated (children.map Prod.fst))
    (hascii : ∀ c ∈ children.map Prod.fst, IsAscii c)
    (hfits : ∀ child ∈ children, child.2 < 256 ^ F.sizeBytes) {offset : ℕ}
    (hmem : (keyc, offset) ∈ children) :
    F.nextNode buffer keyc current = .ok (some offset) := by
  obtain ⟨k, hk⟩ := List.mem_iff_getElem?.mp hmem
  have hname : (children.map Prod.fst)[k]? = some keyc := by rw [List.getElem?_map, hk]; rfl
  have hoffset : (children.map Prod.snd)[k]? = some offset := by rw [List.getElem?_map, hk]; rfl
  have hsearch := searchNames_found (charAt_name hdrop) hrot hascii hname (Nat.le_refl _)
    (by rw [Nat.sub_self]; exact Nat.zero_le k)
  rw [List.length_map] at hsearch
  have htable : buffer.drop (current + F.headerSize + children.length) =
      (children.map Prod.snd).flatMap (toLE F.sizeBytes) ++ rest := by
    rw [← List.drop_drop, drop_names hdrop, List.drop_left' (List.length_map _)]
  rw [nextNode_slim hF hlen hdrop, hsearch, nextNodeAt, hF]
  simp only [readAt_of_readLE (readLE_table htable hoffset), bind, Except.bind]
  rw [Nat.mod_eq_of_lt (hfits _ hmem)]

/-- A character that is no name leads to no node. -/
theorem nextNode_slim_of_notMem (hkeyc : keyc ∉ children.map Prod.fst) :
    F.nextNode buffer keyc current = .ok none := by
  have hsearch := searchNames_not_found (charAt_name hdrop) hkeyc (Nat.le_refl _)
  rw [List.length_map] at hsearch
  rw [nextNode_slim hF hlen hdrop, hsearch]

end Node

end TrieFormat

/-! ## A trie that was built -/

namespace Built

variable {F : TrieFormat} {m : AsciiMap} {buffer : List Byte} {nodes : List FatTrieNode}
  {labels : List (List Byte)} (h : Built F m buffer nodes labels) (hF : F.type = .slim)
  {i j : ℕ} {u : List Byte} {c : Byte}

include h hF

/-- The node for a label, as it is in the buffer. -/
theorem slim_node (hu : labels[i]? = some u) :
    ∃ node rest, NodeOf labels m.valueAt u node ∧
      (F.childrenAt nodes node).length ≤ 127 ∧
      (∀ child ∈ F.childrenAt nodes node, child.2 < 256 ^ F.sizeBytes) ∧
      buffer.drop (F.position nodes i) = toLE F.valueBytes node.value ++
        (BitVec.ofNat 8 (F.childrenAt nodes node).length ::
          ((F.childrenAt nodes node).map Prod.fst ++
            ((F.childrenAt nodes node).map Prod.snd).flatMap (toLE F.sizeBytes))) ++ rest := by
  obtain ⟨node, hnode, hof⟩ := h.labelled.exists_nodeOf hu
  obtain ⟨image, rest, henc, hdrop⟩ := h.image i node hnode
  obtain ⟨_, bytes, hbody, rfl⟩ := TrieFormat.encodeNode_eq_some henc
  rw [TrieFormat.body, hF] at hbody
  obtain ⟨hfits, rfl⟩ := TrieFormat.slimBody_eq_some hbody
  refine ⟨node, rest, hof, ?_, hfits, hdrop⟩
  rw [TrieFormat.childrenAt, List.length_map]
  exact h.labelled.length_names_le hof

theorem nextNode_slim_child (hu : labels[i]? = some u) (hc : labels[j]? = some (u ++ [c])) :
    F.nextNode buffer c (F.position nodes i) = .ok (some (F.position nodes j)) := by
  obtain ⟨node, rest, hof, hlen, hfits, hdrop⟩ := h.slim_node hF hu
  have hnames := TrieFormat.names_childrenAt F nodes node
  have hchild : (c, F.position nodes j) ∈ F.childrenAt nodes node :=
    List.mem_map_of_mem (f := fun child : Byte × ℕ => (child.1, F.position nodes child.2))
      ((hof.edge c j).mpr hc)
  refine TrieFormat.nextNode_slim_of_mem hF hlen hdrop ?_ ?_ hfits hchild
  · rw [hnames]
    exact hof.rotated
  · rw [hnames]
    exact h.labelled.isAscii_names hof.toGrownNode

theorem nextNode_slim_none (hu : labels[i]? = some u) (hc : u ++ [c] ∉ labels) :
    F.nextNode buffer c (F.position nodes i) = .ok none := by
  obtain ⟨node, rest, hof, hlen, _, hdrop⟩ := h.slim_node hF hu
  exact TrieFormat.nextNode_slim_of_notMem hF hlen hdrop
    fun hname => hc (hof.mem_names_childrenAt.mp hname)

theorem findTrie_slim_label (hu : labels[i]? = some u) :
    F.findTrie buffer u = .ok (some (F.position nodes i)) :=
  h.findTrie_of_children (fun hk hi => h.nextNode_slim_child hF hk hi) hu

theorem findTrie_slim_none {s : List Byte} (hs : s ∉ labels) :
    F.findTrie buffer s = .ok none := by
  obtain ⟨u, c, t, rfl, hu, hc⟩ := h.exists_leaving hs
  obtain ⟨i, hi⟩ := List.mem_iff_getElem?.mp hu
  rw [TrieFormat.findTrie, TrieFormat.findFrom_append (h.findTrie_slim_label hF hi)]
  exact TrieFormat.findFrom_cons_none (h.nextNode_slim_none hF hi hc)

end Built

/-- **A string is found exactly if it is empty or a key starts with it.**  The node found
has the value of the string if it is a key, and 0 otherwise. -/
theorem slim_found_iff {F : TrieFormat} (hF : F.type = .slim) (m : AsciiMap)
    {allocator : ℕ → Bool} {buffer : List Byte}
    (h : buildTrie F m.toStdMap allocator = some buffer) (s : List Byte) :
    ((∃ node, F.findTrie buffer s = .ok (some node)) ↔ s = [] ∨ m.HasPrefix s) ∧
      ((¬ ∃ node, F.findTrie buffer s = .ok (some node)) → F.findTrie buffer s = .ok none) ∧
      ∀ node, F.findTrie buffer s = .ok (some node) →
        readAt F.valueBytes buffer node = .ok (m.valueAt s) := by
  obtain ⟨nodes, labels, hbuilt⟩ := built_of_buildTrie h
  rw [← hbuilt.mem_labels]
  by_cases hs : s ∈ labels
  · obtain ⟨i, hi⟩ := List.mem_iff_getElem?.mp hs
    have hfind := hbuilt.findTrie_slim_label hF hi
    refine ⟨⟨fun _ => hs, fun _ => ⟨_, hfind⟩⟩, fun hnot => absurd ⟨_, hfind⟩ hnot, ?_⟩
    intro node hnode
    obtain rfl : F.position nodes i = node :=
      Option.some.inj (Except.ok.inj (hfind.symm.trans hnode))
    exact hbuilt.readAt_value hi
  · have hfind := hbuilt.findTrie_slim_none hF hs
    have hnone : ∀ node, F.findTrie buffer s ≠ .ok (some node) := by
      intro node hnode
      cases hfind.symm.trans hnode
    exact ⟨⟨fun ⟨node, hnode⟩ => absurd hnode (hnone node), fun hmem => absurd hmem hs⟩,
      fun _ => hfind, fun node hnode => absurd hnode (hnone node)⟩

/-- SLIM nodes with positions and values of two bytes, the defaults. -/
def slimFormat : TrieFormat := ⟨.slim, 2, 2⟩

/-- The keys "a" and "c". -/
def slimKeys : AsciiMap where
  entries := [([97#8], 0), ([99#8], 1)]
  sorted := by decide
  ascii := by decide

def slimBytes : List Byte := [0, 0, 2, 99, 97, 12, 0, 9, 0, 0, 0, 0, 1, 0, 0]

theorem buildTrie_slimKeys :
    buildTrie slimFormat slimKeys.toStdMap (fun _ => true) = some slimBytes := by
  decide +kernel

theorem slim_found_slimKeys :
    ((∃ node, slimFormat.findTrie slimBytes [98#8] = .ok (some node)) ↔
        [98#8] = [] ∨ slimKeys.HasPrefix [98#8]) ∧
      ((¬ ∃ node, slimFormat.findTrie slimBytes [98#8] = .ok (some node)) →
        slimFormat.findTrie slimBytes [98#8] = .ok none) ∧
      ∀ node, slimFormat.findTrie slimBytes [98#8] = .ok (some node) →
        readAt slimFormat.valueBytes slimBytes node = .ok (slimKeys.valueAt [98#8]) :=
  slim_found_iff rfl slimKeys buildTrie_slimKeys [98#8]

/-- A map without keys. -/
def noKeys : AsciiMap where
  entries := []
  sorted := by decide
  ascii := by decide

/-- The root is there, and found, without any key. -/
theorem slim_empty_found :
    buildTrie slimFormat noKeys.toStdMap (fun _ => true) = some [0, 0, 0] ∧
      slimFormat.findTrie [0, 0, 0] [] = .ok (some 0) ∧ ¬ noKeys.HasPrefix [] :=
  ⟨by decide +kernel, by decide +kernel, by decide⟩

end Rtp.Qed
