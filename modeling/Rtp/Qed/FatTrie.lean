import Mathlib.Data.List.Infix
import Mathlib.Data.List.Nodup
import Mathlib.Data.List.Perm.Subperm
import Mathlib.Data.List.Range
import Rtp.Lib.Bytes

/-!
# The fat trie

Before a trie is written to a file it is built from nodes with room for every child
(`FatTrieNode`, `insert_to_fat_trie` in `qed/trie.cc`).  The children of a node stand in
one particular order, the child with the largest character first and the others ascending
after it, and that order rests on the keys coming in the order of `std::map`.

* `insertToFatTrie`, `buildFatTrie` — the functions of the source.
* `arrange` — the names of a node whose children came in ascending order.
* `Grown` — what a trie is: every node stands for a string, its label, and the children
  of a node are exactly the nodes for the labels one character longer.
* `insertFrom_grown` — one key more, in order: its prefixes become labels.
* `buildFatTrie_grown` — **the trie of a map**: the labels are the prefixes of the keys,
  and the root.
* `Labelled`, `buildFatTrie_labelled` — the trie of a map with ASCII keys, whose names are
  in order.
-/

namespace Rtp.Qed

/-- A `std::map` from strings: its entries in the order of `std::less<std::string>`, which
compares characters unsigned.  Where a trie compares them they are signed. -/
structure StdMap where
  entries : List (List Byte × ℕ)
  sorted : (entries.map Prod.fst).Pairwise (· < ·)

/-- A node with an array of children, of which `subnode_count` are there: the names in
`fat_subnode_name`, the nodes in `fat_subnode`.  A node is referred to by its place in
`fat_nodes`, the order of allocation. -/
structure FatTrieNode where
  subnodes : List (Byte × ℕ)
  value : ℕ
  deriving DecidableEq, Repr

namespace FatTrieNode

/-- A new node. -/
def empty : FatTrieNode := ⟨[], 0⟩

/-- The names of the children. -/
def names (node : FatTrieNode) : List Byte := node.subnodes.map Prod.fst

end FatTrieNode

/-! ## Insertion -/

/-- What the search for a character among the children of a node comes to. -/
inductive Place where
  | found (child : ℕ)
  | added (subnodes : List (Byte × ℕ))
  deriving DecidableEq, Repr

/-- The loop over `insertion_place`: the child with this character, or the children with
a new one inserted before the first larger character. -/
def scanSubnodes (keyc : Byte) (new : ℕ) : List (Byte × ℕ) → Place
  | [] => .added [(keyc, new)]
  | (name, child) :: rest =>
    if keyc = name then .found child
    else if keyc.slt name then .added ((keyc, new) :: (name, child) :: rest)
    else
      match scanSubnodes keyc new rest with
      | .found other => .found other
      | .added subnodes => .added ((name, child) :: subnodes)

/-- The search in a node.  A character above the first child's takes its place, and the
first child goes to the end. -/
def placeSubnode (keyc : Byte) (new : ℕ) : List (Byte × ℕ) → Place
  | [] => .added [(keyc, new)]
  | (name, child) :: rest =>
    if name.slt keyc then .added ((keyc, new) :: (rest ++ [(name, child)]))
    else scanSubnodes keyc new ((name, child) :: rest)

/-- The loop of `insert_to_fat_trie` over the characters of the key from `current` on.
The arrays of a node hold 127 children, and the source does not check that; here a node
with more has a longer list.  `Labelled.length_names_le` says that ASCII keys never lead to
one. -/
def insertFrom : List Byte → ℕ → ℕ → List FatTrieNode → Option (List FatTrieNode)
  | [], current, value, nodes => some (nodes.modify current fun node => { node with value })
  | keyc :: key, current, value, nodes =>
    match nodes[current]? with
    | none => none
    | some node =>
      if node.subnodes.length < 255 then
        match placeSubnode keyc nodes.length node.subnodes with
        | .found child => insertFrom key child value nodes
        | .added subnodes =>
          insertFrom key nodes.length value
            (nodes.set current { node with subnodes } ++ [FatTrieNode.empty])
      else none

/-- `insert_to_fat_trie`: `none` where the source returns false. -/
def insertToFatTrie (nodes : List FatTrieNode) (key : List Byte) (value : ℕ) :
    Option (List FatTrieNode) :=
  insertFrom key 0 value nodes

/-- The first loop of `build_trie`: all entries of the map, in order. -/
def buildFatTrie (m : StdMap) : Option (List FatTrieNode) :=
  m.entries.foldlM (fun nodes entry => insertToFatTrie nodes entry.1 entry.2)
    [FatTrieNode.empty]

/-! ## Characters -/

/-- An ASCII character other than the terminating zero. -/
def IsAscii (c : Byte) : Prop := 1 ≤ c.toNat ∧ c.toNat ≤ 127

instance (c : Byte) : Decidable (IsAscii c) := by unfold IsAscii; infer_instance

variable {a b c keyc : Byte} {new child : ℕ}

theorem IsAscii.toInt (h : IsAscii c) : c.toInt = c.toNat :=
  BitVec.toInt_eq_toNat_of_lt (by have := h.2; omega)

/-- ASCII characters compare signed as they compare unsigned. -/
theorem IsAscii.slt (ha : IsAscii a) (hb : IsAscii b) : a.slt b = decide (a < b) := by
  simp [BitVec.slt_eq_decide, ha.toInt, hb.toInt, BitVec.lt_def]

/-- Of two strings in order, one has the smaller character where they part. -/
theorem le_of_lt_of_append {k k' u : List Byte} (hlt : k' < k) (hb : u ++ [b] <+: k')
    (ha : u ++ [a] <+: k) : b ≤ a := by
  by_contra hle
  have hab : a < b := BitVec.not_le.mp hle
  obtain ⟨t, rfl⟩ := ha
  obtain ⟨t', rfl⟩ := hb
  have hgt : u ++ [a] ++ t < u ++ [b] ++ t' := by
    rw [List.append_assoc, List.append_assoc]
    exact List.append_left_lt (List.cons_lt_cons_iff.mpr (.inl hab))
  exact List.lt_asymm hlt hgt

theorem eq_of_prefix_append {k u : List Byte} (ha : u ++ [a] <+: k) (hb : u ++ [b] <+: k) :
    a = b := by
  have heq := (List.prefix_of_prefix_length_le ha hb (by simp)).eq_of_length (by simp)
  simpa using heq

/-! ## The order of the children -/

/-- The largest name first, the others ascending. -/
def Rotated : List Byte → Prop
  | [] => True
  | top :: rest => rest.Pairwise (· < ·) ∧ ∀ c ∈ rest, c < top

variable {names : List Byte}

theorem Rotated.nodup (h : Rotated names) : names.Nodup := by
  cases names with
  | nil => exact List.nodup_nil
  | cons top rest =>
    refine List.nodup_cons.mpr ⟨fun hmem => ?_, ?_⟩
    · exact absurd (h.2 top hmem) (BitVec.lt_irrefl top)
    · exact h.1.imp fun hlt => BitVec.ne_of_lt hlt

/-- The first two names are the largest and the smallest. -/
theorem Rotated.bounds {top least : Byte} {others : List Byte}
    (h : Rotated (top :: least :: others)) :
    ∀ c ∈ top :: least :: others, least ≤ c ∧ c ≤ top := by
  intro c hc
  rcases List.mem_cons.mp hc with rfl | hc
  · exact ⟨BitVec.le_of_lt (h.2 least List.mem_cons_self), BitVec.le_refl c⟩
  · refine ⟨?_, BitVec.le_of_lt (h.2 c hc)⟩
    rcases List.mem_cons.mp hc with rfl | hc
    · exact BitVec.le_refl c
    · exact BitVec.le_of_lt ((List.pairwise_cons.mp h.1).1 c hc)

/-! ## Names that come in order -/

/-- The names of a node with a new one.  The new name stands in front; the first name goes
to the end if it is smaller. -/
def pushName (c : Byte) : List Byte → List Byte
  | [] => [c]
  | top :: rest => if top.slt c then c :: (rest ++ [top]) else c :: top :: rest

/-- The names of a node whose children came in the order of the list. -/
def arrange (l : List Byte) : List Byte := l.foldl (fun names c => pushName c names) []

theorem arrange_concat (l : List Byte) (c : Byte) :
    arrange (l ++ [c]) = pushName c (arrange l) := by
  rw [arrange, List.foldl_append]
  rfl

theorem perm_pushName (c : Byte) (names : List Byte) : (pushName c names).Perm (c :: names) := by
  cases names with
  | nil => exact List.Perm.refl _
  | cons top rest =>
    rw [pushName]
    split
    · exact (List.perm_append_singleton top rest).cons c
    · exact List.Perm.refl _

theorem perm_arrange (l : List Byte) : (arrange l).Perm l := by
  induction l using List.reverseRecOn with
  | nil => exact List.Perm.refl _
  | append_singleton l c ih =>
    rw [arrange_concat]
    exact ((perm_pushName c _).trans (ih.cons c)).trans (List.perm_append_singleton c l).symm

theorem head?_pushName (c : Byte) (names : List Byte) : (pushName c names).head? = some c := by
  cases names with
  | nil => rfl
  | cons top rest =>
    rw [pushName]
    split <;> rfl

/-- The last name that came stands in front. -/
theorem head?_arrange (l : List Byte) : (arrange l).head? = l.getLast? := by
  induction l using List.reverseRecOn with
  | nil => rfl
  | append_singleton l c _ => rw [arrange_concat, head?_pushName, List.getLast?_concat]

/-- Names that came in ascending order. -/
def Arranged (names : List Byte) : Prop := ∃ l, l.Pairwise (· < ·) ∧ names = arrange l

theorem Arranged.nodup (h : Arranged names) : names.Nodup := by
  obtain ⟨l, hl, rfl⟩ := h
  exact (perm_arrange l).nodup_iff.mpr (hl.imp fun hlt => BitVec.ne_of_lt hlt)

/-- A name that no other is above stands in front. -/
theorem Arranged.head?_eq (h : Arranged names) (hmem : keyc ∈ names) (hle : ∀ c ∈ names, c ≤ keyc) :
    names.head? = some keyc := by
  obtain ⟨l, hl, rfl⟩ := h
  rw [head?_arrange]
  have hmem' := (perm_arrange l).mem_iff.mp hmem
  obtain ⟨before, after, rfl⟩ := List.append_of_mem hmem'
  cases after with
  | nil => exact List.getLast?_concat
  | cons c after =>
    have hlt : keyc < c := (List.pairwise_cons.mp (List.pairwise_append.mp hl).2.1).1 c
      List.mem_cons_self
    have hc : c ≤ keyc := hle c ((perm_arrange _).mem_iff.mpr (by simp))
    exact absurd hc (BitVec.not_le.mpr hlt)

/-- A new name above all others. -/
theorem Arranged.push (h : Arranged names) (hlt : ∀ c ∈ names, c < keyc) :
    Arranged (pushName keyc names) := by
  obtain ⟨l, hl, rfl⟩ := h
  refine ⟨l ++ [keyc], List.pairwise_append.mpr ⟨hl, List.pairwise_singleton _ _, ?_⟩,
    (arrange_concat l keyc).symm⟩
  intro c hc d hd
  rw [List.mem_singleton.mp hd]
  exact hlt c ((perm_arrange l).mem_iff.mpr hc)

/-- Ascending names on which the signed order is the unsigned one. -/
theorem arrange_of_slt {l : List Byte} (hl : (l ++ [c]).Pairwise (· < ·))
    (hslt : ∀ a ∈ l ++ [c], ∀ b ∈ l ++ [c], a < b → a.slt b = true) :
    arrange (l ++ [c]) = c :: l := by
  induction l using List.reverseRecOn generalizing c with
  | nil => rfl
  | append_singleton l top ih =>
    have hbefore := (List.pairwise_append.mp hl).1
    have htop : top < c := (List.pairwise_append.mp hl).2.2 top (by simp) c (by simp)
    rw [arrange_concat, ih hbefore fun a ha b hb =>
      hslt a (List.mem_append_left _ ha) b (List.mem_append_left _ hb), pushName,
      if_pos (hslt top (by simp) c (by simp) htop)]

/-! ## Placing a child -/

theorem placeSubnode_front (keyc : Byte) (new child : ℕ) (rest : List (Byte × ℕ)) :
    placeSubnode keyc new ((keyc, child) :: rest) = .found child := by
  simp [placeSubnode, scanSubnodes, BitVec.slt_eq_decide]

/-- A character that is not in front gets a new child in front.  The loop over the places
never gets to the second one. -/
theorem placeSubnode_new (keyc : Byte) (new : ℕ) (subnodes : List (Byte × ℕ))
    (hne : (subnodes.map Prod.fst).head? ≠ some keyc) :
    ∃ after, placeSubnode keyc new subnodes = .added after ∧
      after.map Prod.fst = pushName keyc (subnodes.map Prod.fst) ∧
      ∀ p, p ∈ after ↔ p = (keyc, new) ∨ p ∈ subnodes := by
  cases subnodes with
  | nil => exact ⟨[(keyc, new)], rfl, rfl, by simp⟩
  | cons first rest =>
    obtain ⟨name, first⟩ := first
    have hname : name ≠ keyc := fun heq => hne (by simp [heq])
    by_cases hslt : name.slt keyc = true
    · refine ⟨(keyc, new) :: (rest ++ [(name, first)]), by rw [placeSubnode, if_pos hslt], ?_, ?_⟩
      · simp [pushName, hslt]
      · intro p
        simp only [List.mem_cons, List.mem_append, List.not_mem_nil, or_false]
        tauto
    · have hgt : keyc.slt name = true := by
        rw [BitVec.slt_eq_decide, decide_eq_true_eq] at hslt ⊢
        have hint : name.toInt ≠ keyc.toInt := fun heq => hname (BitVec.eq_of_toInt_eq heq)
        omega
      refine ⟨(keyc, new) :: (name, first) :: rest, ?_, ?_, by simp⟩
      · rw [placeSubnode, if_neg hslt, scanSubnodes, if_neg (Ne.symm hname), if_pos hgt]
      · simp [pushName, hslt]

/-! ## Labels -/

/-- What node stands for which string: the children of a node labelled `label` are the
nodes labelled with one character more. -/
structure GrownNode (labels : List (List Byte)) (valueOf : List Byte → ℕ) (label : List Byte)
    (node : FatTrieNode) : Prop where
  edge : ∀ c child, (c, child) ∈ node.subnodes ↔ labels[child]? = some (label ++ [c])
  arranged : Arranged node.names
  value : node.value = valueOf label

/-- A trie of which every node stands for a string. -/
structure Grown (nodes : List FatTrieNode) (labels : List (List Byte))
    (valueOf : List Byte → ℕ) : Prop where
  length : labels.length = nodes.length
  root : labels[0]? = some []
  nodup : labels.Nodup
  closed : ∀ label c, label ++ [c] ∈ labels → label ∈ labels
  later : ∀ (i j : ℕ) label c, labels[i]? = some label → labels[j]? = some (label ++ [c]) → i < j
  unset : ∀ label, label ∉ labels → valueOf label = 0
  node : ∀ (i : ℕ) node label, nodes[i]? = some node → labels[i]? = some label →
    GrownNode labels valueOf label node

section Labels

variable {labels : List (List Byte)} {valueOf : List Byte → ℕ} {label u : List Byte}
  {node : FatTrieNode} {nodes : List FatTrieNode} {i value : ℕ}

/-- The names of the children of a node are the characters that continue its label. -/
theorem GrownNode.mem_names (h : GrownNode labels valueOf label node) :
    c ∈ node.names ↔ label ++ [c] ∈ labels := by
  constructor
  · intro hc
    obtain ⟨⟨name, child⟩, hmem, rfl⟩ := List.mem_map.mp hc
    exact List.mem_of_getElem? ((h.edge name child).mp hmem)
  · intro hc
    obtain ⟨child, hchild⟩ := List.mem_iff_getElem?.mp hc
    exact List.mem_map_of_mem ((h.edge c child).mpr hchild)

theorem getElem?_concat_eq_some {α : Type*} {l : List α} {x y : α} {j : ℕ} :
    (l ++ [x])[j]? = some y ↔ l[j]? = some y ∨ j = l.length ∧ x = y := by
  rcases Nat.lt_trichotomy j l.length with h | h | h
  · rw [List.getElem?_append_left h]
    simp [Nat.ne_of_lt h]
  · subst h
    simp
  · rw [List.getElem?_eq_none (by simp; omega), List.getElem?_eq_none h.le]
    simp [Nat.ne_of_gt h]

/-- A new label adds nothing to the other nodes. -/
theorem GrownNode.concat (h : GrownNode labels valueOf label node) (hne : label ≠ u) :
    GrownNode (labels ++ [u ++ [c]]) valueOf label node where
  edge := by
    intro d child
    rw [h.edge, getElem?_concat_eq_some]
    refine ⟨.inl, fun hor => hor.resolve_right fun ⟨_, heq⟩ => hne ?_⟩
    exact (List.append_inj' heq rfl).1.symm
  arranged := h.arranged
  value := h.value

/-- A new label is a new child of the node it extends. -/
theorem GrownNode.withChild {subnodes : List (Byte × ℕ)}
    (h : GrownNode labels valueOf label node) (hlen : labels.length = new)
    (harr : Arranged (subnodes.map Prod.fst))
    (hmem : ∀ p, p ∈ subnodes ↔ p = (c, new) ∨ p ∈ node.subnodes) :
    GrownNode (labels ++ [label ++ [c]]) valueOf label { node with subnodes } where
  edge := by
    intro d child
    rw [hmem, h.edge, getElem?_concat_eq_some, hlen]
    simp only [Prod.mk.injEq, List.append_cancel_left_eq, List.cons.injEq, and_true]
    constructor
    · rintro (⟨rfl, rfl⟩ | hd)
      · exact .inr ⟨rfl, rfl⟩
      · exact .inl hd
    · rintro (hd | ⟨rfl, rfl⟩)
      · exact .inr hd
      · exact .inl ⟨rfl, rfl⟩
  arranged := harr
  value := h.value

theorem arranged_nil : Arranged [] := ⟨[], List.Pairwise.nil, rfl⟩

/-- Only the root: the trie a build starts with. -/
theorem grown_root : Grown [FatTrieNode.empty] [[]] fun _ => 0 where
  length := rfl
  root := rfl
  nodup := List.nodup_singleton _
  closed := by simp
  later := by
    intro i j label c _ hj
    have := List.mem_of_getElem? hj
    simp at this
  unset := fun _ _ => rfl
  node := by
    intro i node label hnode hlabel
    have hl : label = [] := by simpa using List.mem_of_getElem? hlabel
    have hn : node = FatTrieNode.empty := by simpa using List.mem_of_getElem? hnode
    subst hl hn
    refine ⟨fun c child => ?_, arranged_nil, rfl⟩
    constructor
    · intro h
      cases h
    · intro h
      have := List.mem_of_getElem? h
      simp at this

namespace Grown

variable (h : Grown nodes labels valueOf)

include h

theorem lt_length (hi : labels[i]? = some u) : i < nodes.length := by
  rw [← h.length]
  exact (List.getElem?_eq_some_iff.mp hi).1

theorem getElem?_nodes (hi : labels[i]? = some u) :
    ∃ node, nodes[i]? = some node ∧ GrownNode labels valueOf u node := by
  have hnode := List.getElem?_eq_getElem (h.lt_length hi)
  exact ⟨_, hnode, h.node i _ u hnode hi⟩

/-- No two nodes stand for the same string. -/
theorem index_eq {j : ℕ} (hi : labels[i]? = some u) (hj : labels[j]? = some u) : i = j :=
  (List.getElem?_inj (List.getElem?_eq_some_iff.mp hi).1 h.nodup).mp (hi.trans hj.symm)

/-- Labels are closed under prefixes. -/
theorem mem_of_prefix {s : List Byte} (hu : u ∈ labels) (hs : s <+: u) : s ∈ labels := by
  induction u using List.reverseRecOn with
  | nil => rwa [List.prefix_nil.mp hs]
  | append_singleton u c ih =>
    rcases List.prefix_concat_iff.mp hs with rfl | hs
    · exact hu
    · exact ih (h.closed u c hu) hs

/-- A label that is not there yet has no children. -/
theorem newNode (hnew : u ++ [c] ∉ labels) :
    GrownNode (labels ++ [u ++ [c]]) valueOf (u ++ [c]) FatTrieNode.empty where
  edge := by
    intro d child
    refine ⟨fun hd => absurd hd List.not_mem_nil, fun hd => ?_⟩
    rcases getElem?_concat_eq_some.mp hd with hd | ⟨_, heq⟩
    · exact absurd (h.closed _ _ (List.mem_of_getElem? hd)) hnew
    · exact absurd (congrArg List.length heq) (by simp)
  arranged := arranged_nil
  value := (h.unset _ hnew).symm

/-- **One node more**: a new child for the character `c` of the node labelled `u`. -/
theorem addChild {subnodes : List (Byte × ℕ)} (hu : labels[i]? = some u)
    (hnode : nodes[i]? = some node) (hnew : u ++ [c] ∉ labels)
    (harr : Arranged (subnodes.map Prod.fst))
    (hmem : ∀ p, p ∈ subnodes ↔ p = (c, nodes.length) ∨ p ∈ node.subnodes) :
    Grown (nodes.set i { node with subnodes } ++ [FatTrieNode.empty]) (labels ++ [u ++ [c]])
      valueOf where
  length := by simp [h.length]
  root := getElem?_concat_eq_some.mpr (.inl h.root)
  nodup := by
    refine List.nodup_append.mpr ⟨h.nodup, List.nodup_singleton _, ?_⟩
    intro l hl l' hl' heq
    rw [List.mem_singleton.mp hl'] at heq
    exact hnew (heq ▸ hl)
  closed := by
    intro label d hl
    rcases List.mem_append.mp hl with hl | hl
    · exact List.mem_append_left _ (h.closed label d hl)
    · have heq : label = u := by simpa using (List.append_inj' (List.mem_singleton.mp hl) rfl).1
      exact List.mem_append_left _ (heq ▸ List.mem_of_getElem? hu)
  later := by
    intro j k label d hj hk
    rcases getElem?_concat_eq_some.mp hj with hj | ⟨rfl, rfl⟩
    · rcases getElem?_concat_eq_some.mp hk with hk | ⟨rfl, _⟩
      · exact h.later j k label d hj hk
      · exact (List.getElem?_eq_some_iff.mp hj).1
    · rcases getElem?_concat_eq_some.mp hk with hk | ⟨_, heq⟩
      · exact absurd (h.closed _ _ (List.mem_of_getElem? hk)) hnew
      · exact absurd (congrArg List.length heq) (by simp)
  unset := by
    intro label hl
    exact h.unset label fun hmem => hl (List.mem_append_left _ hmem)
  node := by
    intro j other label hother hlabel
    have hlen : (nodes.set i { node with subnodes }).length = labels.length := by
      rw [List.length_set, h.length]
    rcases getElem?_concat_eq_some.mp hlabel with hlabel | ⟨hj, rfl⟩
    · have hj : j < labels.length := (List.getElem?_eq_some_iff.mp hlabel).1
      rcases getElem?_concat_eq_some.mp hother with hother | ⟨hj', _⟩
      · by_cases hij : i = j
        · subst hij
          rw [List.getElem?_set_self (h.lt_length hu), Option.some.injEq] at hother
          rw [hu, Option.some.injEq] at hlabel
          subst hother hlabel
          exact (h.node i node u hnode hu).withChild h.length harr hmem
        · rw [List.getElem?_set_ne hij] at hother
          refine (h.node j other label hother hlabel).concat fun heq => hij ?_
          rw [heq] at hlabel
          exact h.index_eq hu hlabel
      · omega
    · rcases getElem?_concat_eq_some.mp hother with hother | ⟨_, rfl⟩
      · have := (List.getElem?_eq_some_iff.mp hother).1
        omega
      · exact h.newNode hnew

/-- The value of a key. -/
theorem setValue (hu : labels[i]? = some u) :
    Grown (nodes.modify i fun node => { node with value }) labels
      (Function.update valueOf u value) where
  length := by rw [List.length_modify, h.length]
  root := h.root
  nodup := h.nodup
  closed := h.closed
  later := h.later
  unset := by
    intro label hl
    have hne : label ≠ u := fun heq => hl (heq ▸ List.mem_of_getElem? hu)
    rw [Function.update_of_ne hne, h.unset label hl]
  node := by
    intro j other label hother hlabel
    obtain ⟨node, hnode, hof⟩ := h.getElem?_nodes hlabel
    rw [List.getElem?_modify, hnode, Option.map_eq_map, Option.map_some,
      Option.some.injEq] at hother
    subst hother
    by_cases hij : i = j
    · subst hij
      obtain rfl : u = label := Option.some.inj (hu.symm.trans hlabel)
      simp only [if_true]
      exact ⟨hof.edge, hof.arranged, by rw [Function.update_self]⟩
    · have hne : label ≠ u := fun heq => hij (h.index_eq hu (heq ▸ hlabel))
      simp only [if_neg hij]
      exact ⟨hof.edge, hof.arranged, by rw [Function.update_of_ne hne, hof.value]⟩

end Grown

/-- The labels of a trie stay within a set of strings, and no node in it has the number of
children at which `insert_to_fat_trie` gives up. -/
def Narrow (within : List Byte → Prop) : Prop :=
  ∀ label (l : List Byte), l.Nodup → (∀ c ∈ l, within (label ++ [c])) → l.length < 255

/-- **One key, from a node on.**  The rest of a key that is not below any label is inserted:
every prefix of the key is a label then.  Where a node has too many children the insertion
may fail. -/
theorem insertFrom_grown {key : List Byte} (value : ℕ) (h : Grown nodes labels valueOf)
    (hu : labels[i]? = some u)
    (horder : ∀ v a b, v ++ [a] <+: u ++ key → v ++ [b] ∈ labels → b ≤ a) :
    (insertFrom key i value nodes = none ∧ ¬ Narrow fun s => s ∈ labels ∨ s <+: u ++ key) ∨
    ∃ nodes' labels', insertFrom key i value nodes = some nodes' ∧
      Grown nodes' labels' (Function.update valueOf (u ++ key) value) ∧
      ∀ s, s ∈ labels' ↔ s ∈ labels ∨ s <+: u ++ key := by
  induction key generalizing i u nodes labels with
  | nil =>
    rw [List.append_nil]
    refine .inr ⟨_, labels, rfl, h.setValue hu, fun s => ⟨.inl, ?_⟩⟩
    exact fun hs => hs.elim id (h.mem_of_prefix (List.mem_of_getElem? hu))
  | cons c key ih =>
    obtain ⟨node, hnode, hof⟩ := h.getElem?_nodes hu
    have hkey : u ++ c :: key = u ++ [c] ++ key := by simp
    have hle : ∀ d ∈ node.names, d ≤ c := fun d hd =>
      horder u c d (by rw [hkey]; exact List.prefix_append _ _) (hof.mem_names.mp hd)
    rw [hkey] at horder ⊢
    by_cases hlen : node.subnodes.length < 255
    · by_cases hmem : u ++ [c] ∈ labels
      · -- the child is in front
        obtain ⟨child, hchild⟩ := List.mem_iff_getElem?.mp hmem
        have hfront := hof.arranged.head?_eq (hof.mem_names.mpr hmem) hle
        have hplace : placeSubnode c nodes.length node.subnodes = .found child := by
          cases hsub : node.subnodes with
          | nil => simp [FatTrieNode.names, hsub] at hfront
          | cons first rest =>
            obtain ⟨name, first⟩ := first
            obtain rfl : name = c := by simpa [FatTrieNode.names, hsub] using hfront
            have hfirst := (hof.edge name first).mp (by rw [hsub]; exact List.mem_cons_self)
            rw [h.index_eq hchild hfirst]
            exact placeSubnode_front name nodes.length first rest
        have hinsert : insertFrom (c :: key) i value nodes = insertFrom key child value nodes := by
          simp only [insertFrom, hnode, if_pos hlen, hplace]
        rw [hinsert]
        exact ih h hchild horder
      · have hnotin : c ∉ node.names := fun hd => hmem (hof.mem_names.mp hd)
        obtain ⟨subnodes, hplace, hnames, hsub⟩ := placeSubnode_new c nodes.length node.subnodes
          fun hhead => hnotin (List.mem_of_mem_head? hhead)
        have harr : Arranged (subnodes.map Prod.fst) := by
          rw [hnames]
          exact hof.arranged.push fun d hd =>
            BitVec.lt_of_le_ne (hle d hd) fun heq => hnotin (heq ▸ hd)
        have hadd := h.addChild hu hnode hmem harr hsub
        have hnew : (labels ++ [u ++ [c]])[nodes.length]? = some (u ++ [c]) :=
          getElem?_concat_eq_some.mpr (.inr ⟨h.length.symm, rfl⟩)
        -- the new label continues the key itself, so it is not above it
        have horder' : ∀ v a b, v ++ [a] <+: u ++ [c] ++ key →
            v ++ [b] ∈ labels ++ [u ++ [c]] → b ≤ a := by
          intro v a b hv hb
          rcases List.mem_append.mp hb with hb | hb
          · exact horder v a b hv hb
          · obtain ⟨rfl, hbc⟩ := List.append_inj' (List.mem_singleton.mp hb) rfl
            obtain rfl : b = c := by simpa using hbc
            obtain rfl : a = b := eq_of_prefix_append hv (List.prefix_append _ _)
            exact BitVec.le_refl a
        have hinsert : insertFrom (c :: key) i value nodes =
            insertFrom key nodes.length value
              (nodes.set i { node with subnodes } ++ [FatTrieNode.empty]) := by
          simp only [insertFrom, hnode, if_pos hlen, hplace]
        have hlabels : ∀ s, (s ∈ labels ++ [u ++ [c]] ∨ s <+: u ++ [c] ++ key) ↔
            (s ∈ labels ∨ s <+: u ++ [c] ++ key) := by
          intro s
          rw [List.mem_append, List.mem_singleton, or_assoc]
          have hpre : s = u ++ [c] → s <+: u ++ [c] ++ key :=
            fun heq => heq ▸ List.prefix_append _ _
          tauto
        rw [hinsert]
        rcases ih hadd hnew horder' with ⟨hnone, hwide⟩ | ⟨nodes', labels', hins, hgrown, hiff⟩
        · simp only [hlabels] at hwide
          exact .inl ⟨hnone, hwide⟩
        · exact .inr ⟨nodes', labels', hins, hgrown, fun s => (hiff s).trans (hlabels s)⟩
    · refine .inl ⟨by simp only [insertFrom, hnode, if_neg hlen], fun hnarrow => hlen ?_⟩
      have hlt := hnarrow u node.names hof.arranged.nodup fun d hd =>
        Or.inl (hof.mem_names.mp hd)
      rwa [FatTrieNode.names, List.length_map] at hlt

end Labels

/-! ## The trie of a map -/

namespace StdMap

/-- The keys, in order. -/
def keys (m : StdMap) : List (List Byte) := m.entries.map Prod.fst

/-- A string that some key starts with. -/
def HasPrefix (m : StdMap) (s : List Byte) : Prop := ∃ key ∈ m.keys, s <+: key

instance (m : StdMap) (s : List Byte) : Decidable (m.HasPrefix s) := by
  unfold HasPrefix; infer_instance

/-- The characters with which the keys continue a beginning. -/
def followers (m : StdMap) (u : List Byte) : List Byte :=
  m.keys.filterMap fun key => if u <+: key then key[u.length]? else none

theorem append_singleton_prefix_iff {u key : List Byte} {c : Byte} :
    u ++ [c] <+: key ↔ u <+: key ∧ key[u.length]? = some c := by
  constructor
  · rintro ⟨t, rfl⟩
    exact ⟨⟨[c] ++ t, by simp⟩, by simp⟩
  · rintro ⟨⟨t, rfl⟩, hc⟩
    cases t with
    | nil => simp at hc
    | cons d t =>
      obtain rfl : d = c := by simpa using hc
      exact ⟨t, by simp⟩

theorem mem_followers {m : StdMap} {u : List Byte} {c : Byte} :
    c ∈ m.followers u ↔ m.HasPrefix (u ++ [c]) := by
  simp only [followers, HasPrefix, List.mem_filterMap, append_singleton_prefix_iff,
    Option.ite_none_right_eq_some]

end StdMap

/-- The value of a key; 0 for any other string, as the new nodes of a trie have it. -/
def StdMap.valueAt (m : StdMap) (s : List Byte) : ℕ := (m.entries.lookup s).getD 0

/-- One entry more, at the end. -/
theorem lookup_concat {entries : List (List Byte × ℕ)} {key : List Byte} {value : ℕ}
    (hkey : key ∉ entries.map Prod.fst) :
    Function.update (fun s => (entries.lookup s).getD 0) key value =
      fun s => ((entries ++ [(key, value)]).lookup s).getD 0 := by
  funext s
  rw [List.lookup_append]
  by_cases hs : s = key
  · subst hs
    have hnone : entries.lookup s = none := by
      rw [List.lookup_eq_none_iff]
      intro p hp
      have hne : s ≠ p.1 := by
        rintro rfl
        exact hkey (List.mem_map_of_mem hp)
      simpa using hne
    simp [hnone]
  · rw [Function.update_of_ne hs]
    simp [List.lookup_cons, beq_false_of_ne hs]

theorem Narrow.mono {within within' : List Byte → Prop} (h : Narrow within')
    (hsub : ∀ s, within s → within' s) : Narrow within :=
  fun label l hl hmem => h label l hl fun c hc => hsub _ (hmem c hc)

/-- The entries of a map, one after the other. -/
theorem foldlM_insert_grown {entries : List (List Byte × ℕ)}
    (hsorted : (entries.map Prod.fst).Pairwise (· < ·)) :
    (entries.foldlM (fun nodes entry => insertToFatTrie nodes entry.1 entry.2)
        [FatTrieNode.empty] = none ∧
      ¬ Narrow fun s => s = [] ∨ ∃ key ∈ entries.map Prod.fst, s <+: key) ∨
    ∃ nodes labels,
      entries.foldlM (fun nodes entry => insertToFatTrie nodes entry.1 entry.2)
        [FatTrieNode.empty] = some nodes ∧
      Grown nodes labels (fun s => (entries.lookup s).getD 0) ∧
      ∀ s, s ∈ labels ↔ s = [] ∨ ∃ key ∈ entries.map Prod.fst, s <+: key := by
  induction entries using List.reverseRecOn with
  | nil => exact .inr ⟨_, [[]], rfl, grown_root, by simp⟩
  | append_singleton entries entry ih =>
    obtain ⟨key, value⟩ := entry
    simp only [List.map_append, List.map_cons, List.map_nil] at hsorted ⊢
    obtain ⟨hbefore, _, hlt⟩ := List.pairwise_append.mp hsorted
    have hlt : ∀ k ∈ entries.map Prod.fst, k < key :=
      fun k hk => hlt k hk key (List.mem_singleton_self key)
    rw [List.foldlM_append]
    rcases ih hbefore with ⟨hnone, hwide⟩ | ⟨nodes, labels, hfold, hgrown, hiff⟩
    · refine .inl ⟨by rw [hnone]; rfl, fun hnarrow => hwide (hnarrow.mono ?_)⟩
      rintro s (hs | ⟨k, hk, hs⟩)
      · exact .inl hs
      · exact .inr ⟨k, List.mem_append_left _ hk, hs⟩
    · have horder : ∀ v a b, v ++ [a] <+: [] ++ key → v ++ [b] ∈ labels → b ≤ a := by
        intro v a b ha hb
        obtain hnil | ⟨k, hk, hb⟩ := (hiff _).mp hb
        · simp at hnil
        · exact le_of_lt_of_append (hlt k hk) hb ha
      have hkey : key ∉ entries.map Prod.fst := fun hk => List.lt_irrefl key (hlt key hk)
      have hlabels : ∀ s, (s ∈ labels ∨ s <+: [] ++ key) ↔
          (s = [] ∨ ∃ k ∈ entries.map Prod.fst ++ [key], s <+: k) := by
        intro s
        rw [hiff]
        simp only [List.nil_append, List.mem_append, List.mem_singleton, or_and_right, exists_or,
          exists_eq_left, or_assoc]
      have hstep : ([(key, value)].foldlM
          (fun nodes entry => insertToFatTrie nodes entry.1 entry.2) nodes) =
          insertFrom key 0 value nodes := by
        simp [insertToFatTrie]
      rw [hfold, Option.bind_eq_bind, Option.bind_some, hstep]
      rcases insertFrom_grown value hgrown hgrown.root horder with
        ⟨hnone, hwide⟩ | ⟨nodes', labels', hins, hgrown', hiff'⟩
      · simp only [hlabels] at hwide
        exact .inl ⟨hnone, hwide⟩
      · refine .inr ⟨nodes', labels', hins, ?_, fun s => (hiff' s).trans (hlabels s)⟩
        rw [← lookup_concat hkey]
        exact hgrown'

/-- **The trie of a map.**  Unless some node gets too many children the build gets
through, and the nodes stand for the prefixes of the keys, and the root. -/
theorem buildFatTrie_grown (m : StdMap) :
    (buildFatTrie m = none ∧ ¬ Narrow fun s => s = [] ∨ m.HasPrefix s) ∨
    ∃ nodes labels, buildFatTrie m = some nodes ∧ Grown nodes labels m.valueAt ∧
      ∀ s, s ∈ labels ↔ s = [] ∨ m.HasPrefix s :=
  foldlM_insert_grown m.sorted

/-! ## ASCII keys -/

/-- A node whose names are in order. -/
structure NodeOf (labels : List (List Byte)) (valueOf : List Byte → ℕ) (label : List Byte)
    (node : FatTrieNode) : Prop extends GrownNode labels valueOf label node where
  rotated : Rotated node.names

/-- A trie whose labels consist of ASCII characters. -/
structure Labelled (nodes : List FatTrieNode) (labels : List (List Byte))
    (valueOf : List Byte → ℕ) : Prop extends Grown nodes labels valueOf where
  ascii : ∀ label ∈ labels, ∀ c ∈ label, IsAscii c

section Ascii

variable {labels : List (List Byte)} {valueOf : List Byte → ℕ} {label u : List Byte}
  {node : FatTrieNode} {nodes : List FatTrieNode} {i : ℕ}

/-- ASCII names that came in ascending order are in order. -/
theorem Arranged.rotated (h : Arranged names) (hascii : ∀ c ∈ names, IsAscii c) :
    Rotated names := by
  obtain ⟨l, hl, rfl⟩ := h
  have hascii : ∀ c ∈ l, IsAscii c := fun c hc => hascii c ((perm_arrange l).mem_iff.mpr hc)
  induction l using List.reverseRecOn with
  | nil => trivial
  | append_singleton l top _ =>
    rw [arrange_of_slt hl fun a ha b hb hlt => by
      rw [(hascii a ha).slt (hascii b hb)]
      exact decide_eq_true hlt]
    obtain ⟨hbefore, _, hlt⟩ := List.pairwise_append.mp hl
    exact ⟨hbefore, fun c hc => hlt c hc top (List.mem_singleton_self top)⟩

namespace Labelled

variable (h : Labelled nodes labels valueOf)

include h

theorem isAscii_names (hnode : GrownNode labels valueOf u node) : ∀ c ∈ node.names, IsAscii c :=
  fun c hc => h.ascii _ (hnode.mem_names.mp hc) c (by simp)

theorem nodeOf (hnode : nodes[i]? = some node) (hi : labels[i]? = some u) :
    NodeOf labels valueOf u node :=
  have hof := h.node i node u hnode hi
  ⟨hof, hof.arranged.rotated (h.isAscii_names hof)⟩

theorem exists_nodeOf (hi : labels[i]? = some u) :
    ∃ node, nodes[i]? = some node ∧ NodeOf labels valueOf u node := by
  have hnode := List.getElem?_eq_getElem (h.lt_length hi)
  exact ⟨_, hnode, h.nodeOf hnode hi⟩

end Labelled

/-- There are 127 ASCII characters. -/
theorem length_le_of_isAscii {l : List Byte} (hnodup : l.Nodup) (hascii : ∀ c ∈ l, IsAscii c) :
    l.length ≤ 127 := by
  have hnodup : (l.map BitVec.toNat).Nodup := hnodup.map fun a b => BitVec.eq_of_toNat_eq
  have hsub : l.map BitVec.toNat ⊆ List.range' 1 127 := by
    intro n hn
    obtain ⟨c, hc, rfl⟩ := List.mem_map.mp hn
    have hc := hascii c hc
    rw [List.mem_range'_1]
    exact ⟨hc.1, by have := hc.2; omega⟩
  have hlen := (List.subperm_of_subset hnodup hsub).length_le
  simpa using hlen

/-- The arrays of a node are long enough. -/
theorem Labelled.length_names_le (h : Labelled nodes labels valueOf)
    (hnode : NodeOf labels valueOf u node) : node.subnodes.length ≤ 127 := by
  have hle := length_le_of_isAscii hnode.rotated.nodup (h.isAscii_names hnode.toGrownNode)
  rwa [FatTrieNode.names, List.length_map] at hle

end Ascii

/-- A map whose keys consist of ASCII characters. -/
structure AsciiMap extends StdMap where
  ascii : ∀ key ∈ toStdMap.keys, ∀ c ∈ key, IsAscii c

theorem AsciiMap.isAscii (m : AsciiMap) {s : List Byte} (hs : s = [] ∨ m.HasPrefix s) :
    ∀ c ∈ s, IsAscii c := by
  rcases hs with rfl | ⟨key, hkey, hs⟩
  · exact fun c hc => absurd hc List.not_mem_nil
  · exact fun c hc => m.ascii key hkey c (hs.subset hc)

/-- **The trie of a map with ASCII keys.**  The build always gets through, and the nodes
stand for the prefixes of the keys, and the root. -/
theorem buildFatTrie_labelled (m : AsciiMap) :
    ∃ nodes labels, buildFatTrie m.toStdMap = some nodes ∧ Labelled nodes labels m.valueAt ∧
      ∀ s, s ∈ labels ↔ s = [] ∨ m.HasPrefix s := by
  rcases buildFatTrie_grown m.toStdMap with ⟨_, hwide⟩ | ⟨nodes, labels, hbuild, hgrown, hiff⟩
  · refine absurd (fun label l hl hmem => ?_) hwide
    have hle := length_le_of_isAscii hl fun c hc => m.isAscii (hmem c hc) c (by simp)
    omega
  · refine ⟨nodes, labels, hbuild, ⟨hgrown, fun label hlabel => ?_⟩, hiff⟩
    exact m.isAscii ((hiff label).mp hlabel)

end Rtp.Qed
