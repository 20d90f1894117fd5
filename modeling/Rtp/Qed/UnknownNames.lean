import Mathlib.Algebra.Order.BigOperators.Group.Finset
import Mathlib.Data.Nat.Count
import Mathlib.Order.Interval.Finset.Nat
import Rtp.Qed.StrongTrie

/-!
# Unknown names in a STRONG trie

A string that no key starts with should not be found.  In a STRONG trie it is found if it
leaves the keys at a character between two others: the table of the node has 0 for the
character, and the search goes on at the root, where the rest of the string may well lead
somewhere.  `GetGid` then returns the store of another feature group.

* `StdMap.GapFree` — after every prefix, the characters of the keys are without a gap.
* `StdMap.PositionsFit` — every node starts at a position that `SizeType` can hold, said of the
  keys: the bytes of all nodes but the last are counted from the prefixes of the keys.
* `unknown_not_found_iff` — **unknown strings are not found exactly if there are no gaps**
  and there is a key at all.
-/

namespace Rtp.Qed

open Bytes

/-! ## What the keys are like -/

namespace StdMap

variable (m : StdMap)

/-- The strings the nodes of the trie stand for. -/
def prefixes : List (List Byte) := [] :: m.keys.flatMap List.inits

/-- A character between the smallest and the largest that follow a prefix. -/
def InSpan (u : List Byte) (c : Byte) : Prop :=
  (∃ a ∈ m.followers u, a ≤ c) ∧ ∃ b ∈ m.followers u, c ≤ b

instance (u : List Byte) (c : Byte) : Decidable (m.InSpan u c) := by
  unfold InSpan; infer_instance

/-- After no prefix of the keys a character is left out. -/
def GapFree : Prop := ∀ u ∈ m.prefixes, ∀ c, m.InSpan u c → c ∈ m.followers u

instance : Decidable m.GapFree := by unfold GapFree; infer_instance

/-- The number of characters from the smallest to the largest that follow a prefix. -/
def span (u : List Byte) : ℕ := Nat.count (fun n => m.InSpan u (BitVec.ofNat 8 n)) 256

/-- The bytes of the nodes of the trie. -/
def trieSize (F : TrieFormat) : ℕ := ∑ u ∈ m.prefixes.toFinset, F.estimateSize (m.span u)

/-- The last node of the trie, which has no children, starts at a position `SizeType` can
hold. -/
def PositionsFit (F : TrieFormat) : Prop := m.trieSize F < 256 ^ F.sizeBytes + F.estimateSize 0

variable {m} {u s : List Byte} {c : Byte}

theorem mem_prefixes : s ∈ m.prefixes ↔ s = [] ∨ m.HasPrefix s := by
  simp [prefixes, HasPrefix]

/-- Names with a smallest and a largest one. -/
theorem inSpan_iff {least top : Byte} (hleast : least ∈ m.followers u)
    (htop : top ∈ m.followers u) (hbounds : ∀ c ∈ m.followers u, least ≤ c ∧ c ≤ top) :
    m.InSpan u c ↔ least ≤ c ∧ c ≤ top := by
  constructor
  · rintro ⟨⟨a, ha, hac⟩, b, hb, hcb⟩
    exact ⟨BitVec.le_trans (hbounds a ha).1 hac, BitVec.le_trans hcb (hbounds b hb).2⟩
  · rintro ⟨h1, h2⟩
    exact ⟨⟨least, hleast, h1⟩, top, htop, h2⟩

theorem span_eq {least top : Byte} (hleast : least ∈ m.followers u)
    (htop : top ∈ m.followers u) (hbounds : ∀ c ∈ m.followers u, least ≤ c ∧ c ≤ top) :
    m.span u = top.toNat + 1 - least.toNat := by
  have hfilter : (Finset.range 256).filter (fun n => m.InSpan u (BitVec.ofNat 8 n)) =
      Finset.Icc least.toNat top.toNat := by
    ext n
    have := top.isLt
    simp only [Finset.mem_filter, Finset.mem_range, Finset.mem_Icc,
      inSpan_iff hleast htop hbounds, BitVec.le_def, BitVec.toNat_ofNat]
    omega
  rw [span, Nat.count_eq_card_filter_range, hfilter, Nat.card_Icc]

theorem span_le : m.span u ≤ 256 := Nat.count_le _

/-- A bound that does not look at the characters. -/
theorem trieSize_le {F : TrieFormat} :
    m.trieSize F ≤ m.prefixes.length * F.estimateSize 256 := by
  have hle : m.trieSize F ≤ m.prefixes.toFinset.card • F.estimateSize 256 :=
    Finset.sum_le_card_nsmul _ _ _ fun u _ => TrieFormat.estimateSize_mono span_le
  exact hle.trans (Nat.mul_le_mul_right _ (List.toFinset_card_le _))

theorem span_eq_zero (h : m.followers u = []) : m.span u = 0 := by
  simp [span, InSpan, h]

end StdMap

/-! ## Positions -/

namespace Built

variable {F : TrieFormat} {m : AsciiMap} {buffer : List Byte} {nodes : List FatTrieNode}
  {labels : List (List Byte)} (h : Built F m buffer nodes labels) {i : ℕ} {u : List Byte}
  {c : Byte} {node : FatTrieNode}

include h

/-- The children of a node are the characters that follow its label. -/
theorem mem_followers : c ∈ m.followers u ↔ u ++ [c] ∈ labels := by
  rw [StdMap.mem_followers, h.mem_labels]
  simp

theorem mem_names_iff (hof : NodeOf labels m.valueAt u node) :
    c ∈ node.names ↔ c ∈ m.followers u := by
  rw [hof.mem_names, h.mem_followers]

/-- The table of a node has an entry for every character of the span. -/
theorem subnodeCount_eq (hF : F.type = .strong) (hof : NodeOf labels m.valueAt u node) :
    F.subnodeCount node = m.span u := by
  have hrot := hof.rotated
  have hmem : ∀ c, c ∈ node.names ↔ c ∈ m.followers u := fun c => h.mem_names_iff hof
  have hascii := h.labelled.isAscii_names hof.toGrownNode
  obtain ⟨subnodes, value⟩ := node
  rcases subnodes with _ | ⟨⟨top, first⟩, _ | ⟨⟨least, second⟩, others⟩⟩
  · have hnil : m.followers u = [] :=
      List.eq_nil_iff_forall_not_mem.mpr fun c hc => List.not_mem_nil ((hmem c).mpr hc)
    rw [m.span_eq_zero hnil]
    simp [TrieFormat.subnodeCount]
  · have htop : top ∈ m.followers u := (hmem top).mp (by simp [FatTrieNode.names])
    have hbounds : ∀ c ∈ m.followers u, top ≤ c ∧ c ≤ top := by
      intro c hc
      have heq : c = top := by simpa [FatTrieNode.names] using (hmem c).mpr hc
      rw [heq]
      exact ⟨BitVec.le_refl top, BitVec.le_refl top⟩
    rw [m.span_eq htop htop hbounds]
    simp [TrieFormat.subnodeCount]
  · have hlt : least < top := hrot.2 least List.mem_cons_self
    have hspan := TrieFormat.spanCount_eq (hascii top (by simp [FatTrieNode.names]))
      (hascii least (by simp [FatTrieNode.names])) hlt
    have hleast : least ∈ m.followers u := (hmem least).mp (by simp [FatTrieNode.names])
    have htop : top ∈ m.followers u := (hmem top).mp (by simp [FatTrieNode.names])
    rw [m.span_eq hleast htop fun c hc => hrot.bounds c ((hmem c).mpr hc)]
    rw [TrieFormat.subnodeCount, hF]
    simp only
    rw [BitVec.lt_def] at hlt
    omega

/-- The buffer has the size the keys say. -/
theorem sum_nodeSize (hF : F.type = .strong) : (nodes.map F.nodeSize).sum = m.trieSize F := by
  have hmap : nodes.map F.nodeSize = labels.map fun u => F.estimateSize (m.span u) := by
    apply List.ext_getElem?
    intro i
    rw [List.getElem?_map, List.getElem?_map]
    cases hi : labels[i]? with
    | none =>
      have hle : nodes.length ≤ i := h.labelled.length ▸ List.getElem?_eq_none_iff.mp hi
      rw [List.getElem?_eq_none hle, Option.map_none, Option.map_none]
    | some u =>
      obtain ⟨node, hnode, hof⟩ := h.labelled.exists_nodeOf hi
      rw [hnode, Option.map_some, Option.map_some, TrieFormat.nodeSize, h.subnodeCount_eq hF hof]
  have hsame : labels.toFinset = m.prefixes.toFinset := by
    ext s
    rw [List.mem_toFinset, List.mem_toFinset, h.mem_labels]
    exact m.mem_prefixes.symm
  rw [hmap, StdMap.trieSize, ← hsame, List.sum_toFinset _ h.labelled.nodup]

/-- The node allocated last has no children. -/
theorem last_subnodes (hlast : i + 1 = nodes.length) (hnode : nodes[i]? = some node) :
    node.subnodes = [] := by
  have hlt : i < labels.length := by
    rw [h.labelled.length]
    omega
  have hu := List.getElem?_eq_getElem hlt
  have hof := h.labelled.nodeOf hnode hu
  refine List.eq_nil_iff_forall_not_mem.mpr ?_
  rintro ⟨c, child⟩ hmem
  have hchild := (hof.edge c child).mp hmem
  have h1 := h.labelled.later i child _ c hu hchild
  have h2 := h.labelled.lt_length hchild
  omega

/-- The node allocated last has the highest position. -/
theorem position_last (hF : F.type = .strong) {i : ℕ} (hlast : i + 1 = nodes.length) :
    F.position nodes i + F.estimateSize 0 = m.trieSize F := by
  have hnode := List.getElem?_eq_getElem (show i < nodes.length by omega)
  have hsize : F.nodeSize nodes[i] = F.estimateSize 0 := by
    rw [TrieFormat.nodeSize, TrieFormat.subnodeCount, h.last_subnodes hlast hnode]
    simp
  have htotal : F.position nodes nodes.length = m.trieSize F := by
    rw [TrieFormat.position, List.take_length, h.sum_nodeSize hF]
  rw [← htotal, ← hlast, TrieFormat.position_succ hnode, hsize]

/-- **Every position fits**, if that of the last node does. -/
theorem position_lt (hF : F.type = .strong) (hfits : m.PositionsFit F) :
    ∀ j < nodes.length, F.position nodes j < 256 ^ F.sizeBytes := by
  intro j hj
  have hlast := h.position_last hF (show nodes.length - 1 + 1 = nodes.length by omega)
  have hle : F.position nodes j ≤ F.position nodes (nodes.length - 1) :=
    TrieFormat.position_mono (by omega)
  rw [StdMap.PositionsFit] at hfits
  omega

/-! ## Unknown strings -/

/-- Without gaps the search ends where the string leaves the labels. -/
theorem findTrie_not_label (hF : F.type = .strong) (hfits : m.PositionsFit F) (hgap : m.GapFree)
    {s : List Byte} (hs : s ∉ labels) : F.findTrie buffer s = .ok none := by
  obtain ⟨u, c, t, rfl, hu, hc⟩ := h.exists_leaving hs
  obtain ⟨i, hi⟩ := List.mem_iff_getElem?.mp hu
  have hout : ¬ ((∃ a, u ++ [a] ∈ labels ∧ a ≤ c) ∧ ∃ b, u ++ [b] ∈ labels ∧ c ≤ b) := by
    rintro ⟨⟨a, ha, hac⟩, b, hb, hcb⟩
    have hspan : m.InSpan u c :=
      ⟨⟨a, h.mem_followers.mpr ha, hac⟩, b, h.mem_followers.mpr hb, hcb⟩
    have hprefix : u ∈ m.prefixes := m.mem_prefixes.mpr ((h.mem_labels u).mp hu)
    exact hc (h.mem_followers.mp (hgap u hprefix c hspan))
  rw [TrieFormat.findTrie,
    TrieFormat.findFrom_append (h.findTrie_label hF (h.position_lt hF hfits) hi)]
  exact TrieFormat.findFrom_cons_none (h.nextNode_outside hF hi hout)

/-- In a gap the search is at the root again. -/
theorem findTrie_gap (hF : F.type = .strong) (hfits : m.PositionsFit F) (hu : u ∈ m.prefixes)
    (hspan : m.InSpan u c) (hc : c ∉ m.followers u) :
    F.findTrie buffer (u ++ [c]) = .ok (some 0) := by
  obtain ⟨⟨a, ha, hac⟩, b, hb, hcb⟩ := hspan
  obtain ⟨i, hi⟩ := List.mem_iff_getElem?.mp ((h.mem_labels u).mpr (m.mem_prefixes.mp hu))
  rw [TrieFormat.findTrie,
    TrieFormat.findFrom_append (h.findTrie_label hF (h.position_lt hF hfits) hi),
    TrieFormat.findFrom_singleton]
  exact h.nextNode_gap hF hi (fun hmem => hc (h.mem_followers.mpr hmem))
    (h.mem_followers.mp ha) (h.mem_followers.mp hb) hac hcb

end Built

/-- A map with a key has the empty string as a prefix. -/
theorem StdMap.hasPrefix_nil {m : StdMap} : m.HasPrefix [] ↔ m.keys ≠ [] := by
  simp only [StdMap.HasPrefix, List.nil_prefix, and_true]
  exact ⟨fun h => h.elim fun _ => List.ne_nil_of_mem, List.exists_mem_of_ne_nil _⟩

/-- **Unknown strings are not found exactly if the keys leave no gap**, and there is a key.
The positions of the nodes have to fit, since otherwise the tables do not lead to the nodes
at all. -/
theorem unknown_not_found_iff {F : TrieFormat} (hF : F.type = .strong) (m : AsciiMap)
    {allocator : ℕ → Bool} {buffer : List Byte}
    (h : buildTrie F m.toStdMap allocator = some buffer) (hfits : m.PositionsFit F) :
    (∀ s, ¬ m.HasPrefix s → F.findTrie buffer s = .ok none) ↔ m.keys ≠ [] ∧ m.GapFree := by
  obtain ⟨nodes, labels, hbuilt⟩ := built_of_buildTrie h
  constructor
  · intro hunknown
    constructor
    · intro hempty
      have hnil : F.findTrie buffer [] = .ok none :=
        hunknown [] fun hprefix => StdMap.hasPrefix_nil.mp hprefix hempty
      cases hnil
    · intro u hu c hspan
      by_contra hc
      have hnone := hunknown (u ++ [c]) fun hprefix => hc (StdMap.mem_followers.mpr hprefix)
      rw [hbuilt.findTrie_gap hF hfits hu hspan hc] at hnone
      cases hnone
  · rintro ⟨hkeys, hgap⟩ s hs
    refine hbuilt.findTrie_not_label hF hfits hgap fun hmem => ?_
    rcases (hbuilt.mem_labels s).mp hmem with rfl | hprefix
    · exact hs (StdMap.hasPrefix_nil.mpr hkeys)
    · exact hs hprefix

/-- The keys "a", "b" and "ba". -/
def adjacentKeys : AsciiMap where
  entries := [([97#8], 0), ([98#8], 1), ([98#8, 97#8], 2)]
  sorted := by decide
  ascii := by decide

def adjacentTrie : List Byte :=
  [0, 0, 2, 97, 8, 0, 12, 0, 0, 0, 0, 0, 1, 0, 1, 97, 18, 0, 2, 0, 0, 0]

theorem buildTrie_adjacentKeys :
    buildTrie gidFormat adjacentKeys.toStdMap (fun _ => true) = some adjacentTrie := by
  decide +kernel

theorem prefixes_adjacentKeys :
    adjacentKeys.prefixes = [[], [], [97#8], [], [98#8], [], [98#8], [98#8, 97#8]] := by
  decide

theorem fits_adjacentKeys : adjacentKeys.PositionsFit gidFormat :=
  Nat.lt_of_le_of_lt StdMap.trieSize_le (by decide)

theorem gapFree_adjacentKeys : adjacentKeys.GapFree := by
  intro u hu c hspan
  rw [prefixes_adjacentKeys] at hu
  simp only [List.mem_cons, List.not_mem_nil, or_false] at hu
  have hnil : adjacentKeys.followers [] = [97#8, 98#8, 98#8] := by decide
  have hb : adjacentKeys.followers [98#8] = [97#8] := by decide
  obtain ⟨⟨low, hlow, hle⟩, high, hhigh, hge⟩ := hspan
  obtain rfl | rfl | rfl | rfl :
      u = [] ∨ u = [97#8] ∨ u = [98#8] ∨ u = [98#8, 97#8] := by tauto
  · simp only [hnil, List.mem_cons, List.not_mem_nil, or_false] at hlow hhigh ⊢
    bv_omega
  · exact absurd hlow List.not_mem_nil
  · simp only [hb, List.mem_cons, List.not_mem_nil, or_false] at hlow hhigh ⊢
    bv_omega
  · exact absurd hlow List.not_mem_nil

theorem unknown_not_found_adjacent : adjacentKeys.GapFree ∧
    ∀ s, ¬ adjacentKeys.HasPrefix s → gidFormat.findTrie adjacentTrie s = .ok none :=
  ⟨gapFree_adjacentKeys,
    (unknown_not_found_iff rfl adjacentKeys buildTrie_adjacentKeys fits_adjacentKeys).mpr
      ⟨by decide, gapFree_adjacentKeys⟩⟩

theorem sorted_apart : [[97#8], [99#8]].Pairwise (· < ·) := by decide

theorem ascii_apart : ∀ key ∈ [[97#8], [99#8]], ∀ c ∈ key, IsAscii c := by decide

/-- The keys "a" and "c", of the feature groups 0 and 1. -/
def apartKeys : AsciiMap where
  entries := [([97#8], 0), ([99#8], 1)]
  sorted := sorted_apart
  ascii := ascii_apart

def apartTrie : List Byte := [0, 0, 3, 97, 10, 0, 0, 0, 14, 0, 0, 0, 0, 0, 1, 0, 0, 0]

/-- "b" is found, at the root, and `GetGid` gives it the store of "a". -/
theorem unknown_found :
    buildTrie gidFormat apartKeys.toStdMap (fun _ => true) = some apartTrie ∧
      ¬ apartKeys.HasPrefix [98#8] ∧ gidFormat.findTrie apartTrie [98#8] = .ok (some 0) ∧
      getGid (some apartTrie) [some "a", some "c"] [98#8] = .ok (some "a") :=
  ⟨by decide +kernel, by decide, by decide +kernel, by decide +kernel⟩

end Rtp.Qed
