import Rtp.Qed.TrieLayout

/-!
# STRONG nodes

A STRONG node has a table with one position for every character from its smallest to its
largest child.  A character between them without a child has the position 0, and 0 is the
position of the root.

* `StrongTable` — what is in the table of a node.
* `nextNode_of_table` — `next_node` is a look at the table.
* `Built.nextNode_child`, `Built.nextNode_gap`, `Built.nextNode_outside` — **the three
  cases of `next_node`** in a trie that was built: the child, the root, no node.
* `Built.findTrie_label` — the strings the nodes stand for are found.
-/

namespace Rtp.Qed

open Bytes

namespace TrieFormat

variable {F : TrieFormat} {children : Children} {bytes buffer rest : List Byte}
  {least keyc : Byte} {table : List ℕ} {current value : ℕ}

/-! ## The table of a node -/

/-- The table of a node with children: it covers their names, from the smallest to the
largest, and has 0 for a character that is no name. -/
structure StrongTable (children : Children) (least : Byte) (table : List ℕ) : Prop where
  length_le : table.length ≤ 127
  least_mem : least ∈ children.map Prod.fst
  top_mem : ∃ top ∈ children.map Prod.fst, top.toNat + 1 = least.toNat + table.length
  covers : ∀ c ∈ children.map Prod.fst,
    least.toNat ≤ c.toNat ∧ c.toNat < least.toNat + table.length
  entry : ∀ c offset, (c, offset) ∈ children →
    table[c.toNat - least.toNat]? = some offset
  gap : ∀ c, c ∉ children.map Prod.fst → least.toNat ≤ c.toNat →
    c.toNat < least.toNat + table.length → table[c.toNat - least.toNat]? = some 0

theorem strongTable_single {name : Byte} {offset : ℕ} :
    StrongTable [(name, offset)] name [offset] where
  length_le := by simp
  least_mem := by simp
  top_mem := ⟨name, by simp, by simp⟩
  covers := by simp
  entry := by
    intro c p hmem
    obtain ⟨rfl, rfl⟩ : c = name ∧ p = offset := by simpa using hmem
    simp
  gap := by
    intro c hc hle hlt
    have heq : c = name := by
      apply BitVec.eq_of_toNat_eq
      simp only [List.length_singleton] at hlt
      omega
    exact absurd heq (by simpa using hc)

theorem spanCount_eq {top : Byte} (htop : IsAscii top) (hleast : IsAscii least)
    (hlt : least < top) : spanCount top least = top.toNat - least.toNat + 1 := by
  have h1 := htop.2
  rw [BitVec.lt_def] at hlt
  rw [spanCount, htop.toInt, hleast.toInt]
  omega

/-- The entry of a character. -/
theorem toNat_toInt_sub {c : Byte} (hc : IsAscii c) (hleast : IsAscii least) :
    (c.toInt - least.toInt).toNat = c.toNat - least.toNat := by
  rw [hc.toInt, hleast.toInt]
  omega

/-- Names that are not below the smallest have entries of their own. -/
theorem nodup_entries (hnodup : (children.map Prod.fst).Nodup)
    (hascii : ∀ c ∈ children.map Prod.fst, IsAscii c) (hleast : IsAscii least)
    (hle : ∀ c ∈ children.map Prod.fst, least.toNat ≤ c.toNat) :
    (children.map fun child => (child.1.toInt - least.toInt).toNat).Nodup := by
  have hcomp : (children.map fun child => (child.1.toInt - least.toInt).toNat) =
      (children.map Prod.fst).map fun c => (c.toInt - least.toInt).toNat := by
    rw [List.map_map]; rfl
  rw [hcomp]
  refine (List.nodup_map_iff_inj_on hnodup).mpr ?_
  intro c hc d hd heq
  simp only [toNat_toInt_sub (hascii c hc) hleast, toNat_toInt_sub (hascii d hd) hleast] at heq
  have hc := hle c hc
  have hd := hle d hd
  exact BitVec.eq_of_toNat_eq (by omega)

/-- Of two or more children in their order, the first has the largest and the second the
smallest name. -/
theorem strongTable_table {top : Byte} {first second : ℕ} {others : Children}
    (hchildren : children = (top, first) :: (least, second) :: others)
    (hrot : Rotated (children.map Prod.fst))
    (hascii : ∀ c ∈ children.map Prod.fst, IsAscii c) :
    StrongTable children least (TrieFormat.table (spanCount top least) least children) := by
  have hnames : children.map Prod.fst = top :: least :: others.map Prod.fst := by
    rw [hchildren]; rfl
  have htop : IsAscii top := hascii top (by simp [hnames])
  have hleast : IsAscii least := hascii least (by simp [hnames])
  have hlt : least < top := (hnames ▸ hrot : Rotated (top :: _)).2 least List.mem_cons_self
  have hcount := spanCount_eq htop hleast hlt
  rw [BitVec.lt_def] at hlt
  have hbounds : ∀ c ∈ children.map Prod.fst,
      least.toNat ≤ c.toNat ∧ c.toNat < least.toNat + spanCount top least := by
    intro c hc
    obtain ⟨h1, h2⟩ := (hnames ▸ hrot : Rotated (top :: _)).bounds c (hnames ▸ hc)
    rw [BitVec.le_def] at h1 h2
    omega
  refine ⟨?_, ?_, ⟨top, ?_, ?_⟩, ?_, ?_, ?_⟩
  · have := htop.2
    have := hleast.1
    rw [length_table]
    omega
  · simp [hnames]
  · simp [hnames]
  · rw [length_table]
    omega
  · rw [length_table]
    exact hbounds
  · intro c offset hmem
    have hc : c ∈ children.map Prod.fst := List.mem_map_of_mem hmem
    have hindex := toNat_toInt_sub (hascii c hc) hleast
    have hb := hbounds c hc
    rw [← hindex, TrieFormat.table]
    exact getElem?_fill_of_mem (b := (c, offset))
      (nodup_entries hrot.nodup hascii hleast fun c hc => (hbounds c hc).1) hmem
      (by simp only [hindex, List.length_replicate]; omega)
  · intro c hc hle hlt
    rw [length_table] at hlt
    rw [TrieFormat.table, getElem?_fill_of_ne, List.getElem?_replicate_of_lt (by omega)]
    intro child hchild heq
    have hname : child.1 ∈ children.map Prod.fst := List.mem_map_of_mem hchild
    rw [toNat_toInt_sub (hascii _ hname) hleast] at heq
    have hb := hbounds child.1 hname
    have hsame : child.1 = c := BitVec.eq_of_toNat_eq (by omega)
    exact hc (hsame ▸ hname)

/-- **What is written for a node with children.** -/
theorem strongBody_eq_some (hne : children ≠ []) (hrot : Rotated (children.map Prod.fst))
    (hascii : ∀ c ∈ children.map Prod.fst, IsAscii c)
    (h : F.strongBody children = some bytes) :
    ∃ least table, StrongTable children least table ∧
      bytes = BitVec.ofNat 8 table.length :: least :: table.flatMap (toLE F.sizeBytes) := by
  rcases children with _ | ⟨⟨top, first⟩, _ | ⟨⟨least, second⟩, others⟩⟩
  · exact absurd rfl hne
  · rw [strongBody, singleBody, Option.ite_none_left_eq_some, Option.some.injEq] at h
    refine ⟨top, [first], strongTable_single, ?_⟩
    rw [← h.2]
    simp
  · have hlt : least < top := hrot.2 least List.mem_cons_self
    have hcount := spanCount_eq (hascii top (by simp)) (hascii least (by simp)) hlt
    rw [BitVec.lt_def] at hlt
    rw [strongBody, Option.ite_none_left_eq_some] at h
    obtain ⟨_, h⟩ := h
    rw [if_neg (by omega), if_neg (by omega), Option.ite_none_left_eq_some, Option.some.injEq] at h
    refine ⟨least, _, strongTable_table rfl hrot hascii, ?_⟩
    rw [length_table, ← h.2]

/-! ## A look at the table -/

/-- **`next_node` of a STRONG node** is a look at its table. -/
theorem nextNode_of_table (hF : F.type = .strong) (hpos : 0 < table.length)
    (hlen : table.length ≤ 127)
    (hdrop : buffer.drop current = toLE F.valueBytes value ++
      (BitVec.ofNat 8 table.length :: least :: (table.flatMap (toLE F.sizeBytes) ++ rest))) :
    F.nextNode buffer keyc current =
      if keyc.toInt - least.toInt < 0 then .ok none
      else .ok ((table[(keyc.toInt - least.toInt).toNat]?).map (· % 256 ^ F.sizeBytes)) := by
  have hcount : buffer.drop (current + F.valueBytes) =
      BitVec.ofNat 8 table.length :: least :: (table.flatMap (toLE F.sizeBytes) ++ rest) := by
    rw [← List.drop_drop, hdrop, List.drop_left' (length_toLE _ _)]
  have hname : buffer.drop (current + F.headerSize) =
      least :: (table.flatMap (toLE F.sizeBytes) ++ rest) := by
    rw [headerSize, ← Nat.add_assoc, ← List.drop_drop, hcount]
    rfl
  have htable : buffer.drop (current + F.headerSize + 1) =
      table.flatMap (toLE F.sizeBytes) ++ rest := by
    rw [← List.drop_drop, hname]
    rfl
  have hnat : (BitVec.ofNat 8 table.length).toNat = table.length := by
    rw [BitVec.toNat_ofNat]
    omega
  have hread : readAt 1 buffer (current + F.valueBytes) = .ok table.length := by
    rw [readAt_of_readLE (readLE_one_of_drop hcount), hnat]
  simp only [nextNode, hread, charAt_of_drop hname, hF, nextNodeAt, bind, Except.bind,
    if_neg (Nat.ne_of_gt hpos)]
  by_cases hneg : keyc.toInt - least.toInt < 0
  · rw [if_pos hneg, if_pos hneg]
  rw [if_neg hneg, if_neg hneg]
  by_cases hout : (table.length : ℤ) ≤ keyc.toInt - least.toInt
  · rw [if_pos hout, List.getElem?_eq_none (by omega), Option.map_none]
  · have hentry := List.getElem?_eq_getElem
      (show (keyc.toInt - least.toInt).toNat < table.length by omega)
    rw [if_neg hout, readAt_of_readLE (readLE_table htable hentry), hentry, Option.map_some]

namespace StrongTable

variable (h : StrongTable children least table) (hleast : IsAscii least)

include h

theorem length_pos : 0 < table.length := by
  have := h.covers least h.least_mem
  omega

include hleast

theorem look_child {offset : ℕ} (hkeyc : IsAscii keyc) (hmem : (keyc, offset) ∈ children) :
    ¬ keyc.toInt - least.toInt < 0 ∧ table[(keyc.toInt - least.toInt).toNat]? = some offset := by
  have hcovers := h.covers keyc (List.mem_map_of_mem hmem)
  refine ⟨?_, ?_⟩
  · rw [hkeyc.toInt, hleast.toInt]
    omega
  · rw [toNat_toInt_sub hkeyc hleast]
    exact h.entry keyc offset hmem

/-- A character between two names that is no name itself. -/
theorem look_gap {a b : Byte} (hkeyc : keyc ∉ children.map Prod.fst)
    (ha : a ∈ children.map Prod.fst) (hb : b ∈ children.map Prod.fst) (hba : IsAscii b)
    (hle : a ≤ keyc) (hge : keyc ≤ b) :
    ¬ keyc.toInt - least.toInt < 0 ∧ table[(keyc.toInt - least.toInt).toNat]? = some 0 := by
  have ha := h.covers a ha
  have hb := h.covers b hb
  rw [BitVec.le_def] at hle hge
  have hascii : IsAscii keyc := by
    have h1 := hleast.1
    have h2 := hba.2
    exact ⟨by omega, by omega⟩
  refine ⟨?_, ?_⟩
  · rw [hascii.toInt, hleast.toInt]
    omega
  · rw [toNat_toInt_sub hascii hleast]
    exact h.gap keyc hkeyc (by omega) (by omega)

/-- A character below or above all names. -/
theorem look_outside
    (hout : ¬ ((∃ a ∈ children.map Prod.fst, a ≤ keyc) ∧ ∃ b ∈ children.map Prod.fst, keyc ≤ b)) :
    keyc.toInt - least.toInt < 0 ∨ table[(keyc.toInt - least.toInt).toNat]? = none := by
  obtain ⟨top, htop, hlast⟩ := h.top_mem
  have hor : ¬ least ≤ keyc ∨ ¬ keyc ≤ top := by
    by_contra hboth
    rw [not_or, not_not, not_not] at hboth
    exact hout ⟨⟨least, h.least_mem, hboth.1⟩, top, htop, hboth.2⟩
  rw [BitVec.not_le, BitVec.not_le, BitVec.lt_def, BitVec.lt_def] at hor
  rw [hleast.toInt]
  -- a character above 127 is negative
  have hkeyc := keyc.toInt_eq_toNat_cond
  have hlt := keyc.isLt
  have hle := hleast.2
  by_cases hneg : keyc.toInt - least.toNat < 0
  · exact .inl hneg
  · right
    rw [List.getElem?_eq_none]
    split at hkeyc <;> omega

end StrongTable

/-- **`next_node` of a node with children**, with the table that was written for it. -/
theorem nextNode_strongBody (hF : F.type = .strong) (hne : children ≠ [])
    (hrot : Rotated (children.map Prod.fst))
    (hascii : ∀ c ∈ children.map Prod.fst, IsAscii c)
    (hbody : F.strongBody children = some bytes)
    (hdrop : buffer.drop current = toLE F.valueBytes value ++ bytes ++ rest) :
    ∃ least table, StrongTable children least table ∧ IsAscii least ∧
      F.nextNode buffer keyc current =
        if keyc.toInt - least.toInt < 0 then .ok none
        else .ok ((table[(keyc.toInt - least.toInt).toNat]?).map (· % 256 ^ F.sizeBytes)) := by
  obtain ⟨least, table, htable, rfl⟩ := strongBody_eq_some hne hrot hascii hbody
  rw [List.append_assoc] at hdrop
  exact ⟨least, table, htable, hascii least htable.least_mem,
    nextNode_of_table hF htable.length_pos htable.length_le hdrop⟩

end TrieFormat

/-! ## A trie that was built -/

namespace Built

variable {F : TrieFormat} {m : AsciiMap} {buffer : List Byte} {nodes : List FatTrieNode}
  {labels : List (List Byte)} (h : Built F m buffer nodes labels) (hF : F.type = .strong)
  {i j : ℕ} {u : List Byte} {c : Byte}

include h hF

/-- A node without children leads nowhere, a node with children where its table says. -/
theorem nextNode_cases (hu : labels[i]? = some u) :
    ∃ node, nodes[i]? = some node ∧ NodeOf labels m.valueAt u node ∧
      (node.subnodes = [] ∧ F.nextNode buffer c (F.position nodes i) = .ok none ∨
        ∃ least table, TrieFormat.StrongTable (F.childrenAt nodes node) least table ∧
          IsAscii least ∧
          F.nextNode buffer c (F.position nodes i) =
            if c.toInt - least.toInt < 0 then .ok none
            else .ok ((table[(c.toInt - least.toInt).toNat]?).map (· % 256 ^ F.sizeBytes))) := by
  obtain ⟨node, hnode, hof⟩ := h.labelled.exists_nodeOf hu
  refine ⟨node, hnode, hof, ?_⟩
  obtain ⟨image, rest, henc, hdrop⟩ := h.image i node hnode
  obtain ⟨_, bytes, hbody, rfl⟩ := TrieFormat.encodeNode_eq_some henc
  rw [TrieFormat.body, hF] at hbody
  by_cases hempty : node.subnodes = []
  · refine .inl ⟨hempty, ?_⟩
    rw [TrieFormat.childrenAt, hempty] at hbody
    obtain rfl : [0, 0] = bytes := Option.some.inj hbody
    rw [List.append_assoc] at hdrop
    exact TrieFormat.nextNode_of_empty hdrop
  · have hnames := TrieFormat.names_childrenAt F nodes node
    refine .inr (TrieFormat.nextNode_strongBody hF ?_ ?_ ?_ hbody hdrop)
    · simpa [TrieFormat.childrenAt] using hempty
    · rw [hnames]
      exact hof.rotated
    · rw [hnames]
      exact h.labelled.isAscii_names hof.toGrownNode

/-- **A child.**  Its position is found if it fits into the table. -/
theorem nextNode_child (hu : labels[i]? = some u) (hc : labels[j]? = some (u ++ [c]))
    (hfits : F.position nodes j < 256 ^ F.sizeBytes) :
    F.nextNode buffer c (F.position nodes i) = .ok (some (F.position nodes j)) := by
  obtain ⟨node, _, hof, hcases⟩ := h.nextNode_cases hF (c := c) hu
  have hmem : (c, j) ∈ node.subnodes := (hof.edge c j).mpr hc
  rcases hcases with ⟨hempty, _⟩ | ⟨least, table, htable, hleast, hnext⟩
  · exact absurd (hempty ▸ hmem) List.not_mem_nil
  · have hascii : IsAscii c :=
      h.labelled.ascii _ (List.mem_of_getElem? hc) c (by simp)
    have hchild : (c, F.position nodes j) ∈ F.childrenAt nodes node :=
      List.mem_map_of_mem (f := fun child : Byte × ℕ => (child.1, F.position nodes child.2)) hmem
    obtain ⟨hneg, hlook⟩ := htable.look_child hleast hascii hchild
    rw [hnext, if_neg hneg, hlook, Option.map_some, Nat.mod_eq_of_lt hfits]

/-- **A gap.**  A character between two children that has no child itself leads to the
root. -/
theorem nextNode_gap {a b : Byte} (hu : labels[i]? = some u) (hc : u ++ [c] ∉ labels)
    (ha : u ++ [a] ∈ labels) (hb : u ++ [b] ∈ labels) (hle : a ≤ c) (hge : c ≤ b) :
    F.nextNode buffer c (F.position nodes i) = .ok (some 0) := by
  obtain ⟨node, _, hof, hcases⟩ := h.nextNode_cases hF (c := c) hu
  rcases hcases with ⟨hempty, _⟩ | ⟨least, table, htable, hleast, hnext⟩
  · have hname := hof.mem_names.mpr ha
    rw [FatTrieNode.names, hempty] at hname
    cases hname
  · obtain ⟨hneg, hlook⟩ := htable.look_gap hleast
      (fun hname => hc (hof.mem_names_childrenAt.mp hname))
      (hof.mem_names_childrenAt.mpr ha) (hof.mem_names_childrenAt.mpr hb)
      (h.labelled.ascii _ hb b (by simp)) hle hge
    rw [hnext, if_neg hneg, hlook, Option.map_some, Nat.zero_mod]

/-- **Outside.**  A character below or above all children leads to no node. -/
theorem nextNode_outside (hu : labels[i]? = some u)
    (hout : ¬ ((∃ a, u ++ [a] ∈ labels ∧ a ≤ c) ∧ ∃ b, u ++ [b] ∈ labels ∧ c ≤ b)) :
    F.nextNode buffer c (F.position nodes i) = .ok none := by
  obtain ⟨node, _, hof, hcases⟩ := h.nextNode_cases hF (c := c) hu
  rcases hcases with ⟨_, hnext⟩ | ⟨least, table, htable, hleast, hnext⟩
  · exact hnext
  · have hnames : ¬ ((∃ a ∈ (F.childrenAt nodes node).map Prod.fst, a ≤ c) ∧
        ∃ b ∈ (F.childrenAt nodes node).map Prod.fst, c ≤ b) := by
      rintro ⟨⟨a, ha, hle⟩, b, hb, hge⟩
      exact hout ⟨⟨a, hof.mem_names_childrenAt.mp ha, hle⟩, b, hof.mem_names_childrenAt.mp hb, hge⟩
    have hlook := htable.look_outside hleast hnames
    rw [hnext]
    by_cases hneg : c.toInt - least.toInt < 0
    · rw [if_pos hneg]
    · rw [if_neg hneg, hlook.resolve_left hneg, Option.map_none]

/-- **Labels are found**, if the positions fit. -/
theorem findTrie_label (hfits : ∀ j < nodes.length, F.position nodes j < 256 ^ F.sizeBytes)
    (hu : labels[i]? = some u) : F.findTrie buffer u = .ok (some (F.position nodes i)) :=
  h.findTrie_of_children
    (fun hk hi => h.nextNode_child hF hk hi (hfits _ (h.labelled.lt_length hi))) hu

end Built

end Rtp.Qed
