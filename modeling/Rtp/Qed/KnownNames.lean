import Rtp.Lib.Assoc
import Rtp.Qed.UnknownNames

/-!
# Known names in a STRONG trie

A key of the map should be found with its value.  The position of a child is narrowed to
`SizeType` when it is written into the table of its parent, and of a node with several
children only the position of the second is looked at before.  A child further back in the
buffer than `SizeType` reaches is then looked for somewhere else.

* `keys_found` — **every key is found with its value** if the positions fit.
* `Built.exists_unreachable` — if they do not, there is a key whose node no search ends at.
* `keys_lost` — a map of three keys, with positions of one byte.
-/

namespace Rtp.Qed

open Bytes

/-- A key is there once. -/
theorem StdMap.valueAt_of_mem {m : StdMap} {key : List Byte} {value : ℕ}
    (h : (key, value) ∈ m.entries) : m.valueAt key = value := by
  have hnodup : (m.entries.map Prod.fst).Nodup := by
    refine List.Pairwise.imp (fun {a b} hlt heq => ?_) m.sorted
    exact List.lt_irrefl a (heq ▸ hlt)
  rw [valueAt, Assoc.lookup_of_mem hnodup h, Option.getD_some]

/-! ## What a search can reach -/

theorem lt_of_readAt {width position n : ℕ} {buffer : List Byte}
    (h : readAt width buffer position = .ok n) : n < 256 ^ width := by
  rw [readAt] at h
  cases hread : readLE width buffer position with
  | none => rw [hread] at h; cases h
  | some n' =>
    rw [hread] at h
    obtain rfl : n' = n := Except.ok.inj h
    exact lt_of_readLE hread

namespace TrieFormat

variable {F : TrieFormat} {buffer : List Byte} {keyc : Byte} {current next : ℕ}

theorem nextNodeAt_lt {index count : ℕ}
    (h : F.nextNodeAt buffer index count current = .ok (some next)) :
    next < 256 ^ F.sizeBytes := by
  have key (position : ℕ) (h : (do
      let offset ← readAt F.sizeBytes buffer position
      Except.ok (some offset)) = (.ok (some next) : Except ReadFault _)) :
      next < 256 ^ F.sizeBytes := by
    cases hread : readAt F.sizeBytes buffer position with
    | error fault => rw [hread] at h; cases h
    | ok offset =>
      rw [hread] at h
      obtain rfl : offset = next := Option.some.inj (Except.ok.inj h)
      exact lt_of_readAt hread
  rw [nextNodeAt] at h
  cases hF : F.type with
  | slim | strong => rw [hF] at h; exact key _ h

/-- A child is looked for where `SizeType` reaches. -/
theorem nextNode_lt (hF : F.type = .strong)
    (h : F.nextNode buffer keyc current = .ok (some next)) : next < 256 ^ F.sizeBytes := by
  rw [nextNode, hF] at h
  cases hcount : readAt 1 buffer (current + F.valueBytes) with
  | error fault => rw [hcount] at h; cases h
  | ok count =>
    rw [hcount] at h
    simp only [bind, Except.bind] at h
    split at h
    · cases h
    cases hname : charAt buffer (current + F.headerSize) with
    | error fault => rw [hname] at h; cases h
    | ok name =>
      rw [hname] at h
      simp only at h
      split at h
      · cases h
      split at h
      · cases h
      · exact nextNodeAt_lt h

theorem findFrom_lt (hF : F.type = .strong) {s : List Byte}
    (hcurrent : current < 256 ^ F.sizeBytes)
    (h : F.findFrom buffer s current = .ok (some next)) : next < 256 ^ F.sizeBytes := by
  induction s generalizing current with
  | nil =>
    obtain rfl : current = next := Option.some.inj (Except.ok.inj h)
    exact hcurrent
  | cons c s ih =>
    obtain ⟨child, hnext, h⟩ := findFrom_cons_eq_some h
    exact ih (nextNode_lt hF hnext) h

/-- **No search ends where `SizeType` does not reach.** -/
theorem findTrie_lt (hF : F.type = .strong) {s : List Byte}
    (h : F.findTrie buffer s = .ok (some next)) : next < 256 ^ F.sizeBytes :=
  findFrom_lt hF (Nat.pow_pos (by decide)) h

end TrieFormat

/-! ## The keys -/

namespace Built

variable {F : TrieFormat} {m : AsciiMap} {buffer : List Byte} {nodes : List FatTrieNode}
  {labels : List (List Byte)} (h : Built F m buffer nodes labels)

include h

/-- The node allocated last is that of a key. -/
theorem last_key {i : ℕ} {u : List Byte} (hlast : i + 1 = nodes.length)
    (hu : labels[i]? = some u) (hne : u ≠ []) : u ∈ m.keys := by
  rcases (h.mem_labels u).mp (List.mem_of_getElem? hu) with hnil | ⟨key, hkey, t, rfl⟩
  · exact absurd hnil hne
  cases t with
  | nil => rwa [List.append_nil] at hkey
  | cons c t =>
    -- the label would have a child, later than the last node
    have hchild : u ++ [c] ∈ labels :=
      (h.mem_labels _).mpr (.inr ⟨u ++ c :: t, hkey, t, by simp⟩)
    obtain ⟨j, hj⟩ := List.mem_iff_getElem?.mp hchild
    have h1 := h.labelled.later i j u c hu hj
    have h2 := h.labelled.lt_length hj
    omega

/-- **If the positions do not fit, there is a key whose node no search ends at.** -/
theorem exists_unreachable (hF : F.type = .strong) (hfits : ¬ m.PositionsFit F) :
    ∃ (i : ℕ) (key : List Byte), labels[i]? = some key ∧ key ∈ m.keys ∧
      ∀ s, F.findTrie buffer s ≠ .ok (some (F.position nodes i)) := by
  have hroot := h.labelled.lt_length h.labelled.root
  have hlast : nodes.length - 1 + 1 = nodes.length := by omega
  have hposition := h.position_last hF hlast
  have hge : 256 ^ F.sizeBytes ≤ F.position nodes (nodes.length - 1) := by
    rw [StdMap.PositionsFit] at hfits
    omega
  have hlt : nodes.length - 1 < labels.length := by
    rw [h.labelled.length]
    omega
  have hu := List.getElem?_eq_getElem hlt
  refine ⟨nodes.length - 1, labels[nodes.length - 1], hu, h.last_key hlast hu ?_, ?_⟩
  · intro hnil
    rw [hnil] at hu
    rw [h.labelled.index_eq hu h.labelled.root, TrieFormat.position_zero] at hge
    exact absurd hge (Nat.not_le.mpr (Nat.pow_pos (by decide)))
  · intro s hs
    exact absurd (TrieFormat.findTrie_lt hF hs) (Nat.not_lt.mpr hge)

end Built

/-- **Every key is found with its value**, in a trie whose positions fit. -/
theorem keys_found {F : TrieFormat} (hF : F.type = .strong) (m : AsciiMap)
    {allocator : ℕ → Bool} {buffer : List Byte}
    (h : buildTrie F m.toStdMap allocator = some buffer) (hfits : m.PositionsFit F) :
    ∀ key value, (key, value) ∈ m.entries →
      ∃ node, F.findTrie buffer key = .ok (some node) ∧
        readAt F.valueBytes buffer node = .ok value := by
  intro key value hmem
  obtain ⟨nodes, labels, hbuilt⟩ := built_of_buildTrie h
  have hkey : key ∈ labels :=
    (hbuilt.mem_labels key).mpr (.inr ⟨key, List.mem_map_of_mem hmem, List.prefix_rfl⟩)
  obtain ⟨i, hi⟩ := List.mem_iff_getElem?.mp hkey
  refine ⟨F.position nodes i, hbuilt.findTrie_label hF (hbuilt.position_lt hF hfits) hi, ?_⟩
  rw [hbuilt.readAt_value hi, StdMap.valueAt_of_mem hmem]

theorem keys_found_adjacent : adjacentKeys.PositionsFit gidFormat ∧
    ∀ key value, (key, value) ∈ adjacentKeys.entries →
      ∃ node, gidFormat.findTrie adjacentTrie key = .ok (some node) ∧
        readAt gidFormat.valueBytes adjacentTrie node = .ok value :=
  ⟨fits_adjacentKeys, keys_found rfl adjacentKeys buildTrie_adjacentKeys fits_adjacentKeys⟩

/-- Positions and values of one byte. -/
def byteFormat : TrieFormat := ⟨.strong, 1, 1⟩

/-- A node with a table of 127 entries, and one with a table of 122 behind it. -/
def wideKeys : AsciiMap where
  entries := [([1#8, 1#8], 5), ([1#8, 122#8], 7), ([127#8], 9)]
  sorted := by decide
  ascii := by decide

/-- The second key is at 258.  It is looked for at 2, in the header of the root, where there
is another value. -/
theorem keys_lost :
    ([1#8, 122#8], 7) ∈ wideKeys.entries ∧
      (buildTrie byteFormat wideKeys.toStdMap fun _ => true).map (fun buffer =>
        (byteFormat.findTrie buffer [1#8, 122#8], readAt byteFormat.valueBytes buffer 2)) =
          some (.ok (some 2), .ok 1) :=
  ⟨by decide, by decide +kernel⟩

end Rtp.Qed
