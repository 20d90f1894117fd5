import Mathlib.Data.List.Dedup
import Rtp.Qed.FatTrie

/-!
# The order of the children, for any keys

`next_node` compares characters as they are, signed, while `std::map` delivers the keys in
the unsigned order of their characters.  The two orders agree among the characters below
128 and among those from 128 on, and the children of a node are in the order that
`next_node` relies on exactly when they are all of one kind.

* `NamesFit` — what is expected of the names of a node: they are distinct, there is room for
  them, the first is the largest and the others ascend.
* `fits_iff_of_arranged` — when names that came in ascending order fit.
* `names_fit_iff` — **the nodes of the trie of a map all fit exactly when no two keys
  continue a common beginning with characters of different kinds, and at most 127
  characters continue any beginning.**
* `names_unfit` — a letter and a byte from 128 on.
-/

namespace Rtp.Qed

/-- The largest name first, the others ascending, as `next_node` compares. -/
def InOrder : List Byte → Prop
  | [] => True
  | top :: rest => rest.Pairwise (fun a b => a.slt b = true) ∧ ∀ c ∈ rest, c.slt top = true

instance : DecidablePred InOrder
  | [] => inferInstanceAs (Decidable True)
  | top :: rest => inferInstanceAs (Decidable
      (rest.Pairwise (fun a b => a.slt b = true) ∧ ∀ c ∈ rest, c.slt top = true))

/-- What is expected of the names of a node. -/
structure NamesFit (names : List Byte) : Prop where
  nodup : names.Nodup
  length_le : names.length ≤ 127
  inOrder : InOrder names

/-- Characters of one kind: all below 128, or all from 128 on. -/
def OneKind (names : List Byte) : Prop := ∀ a ∈ names, ∀ b ∈ names, a.msb = b.msb

variable {a b : Byte} {names : List Byte}

/-- Characters of one kind compare signed as they compare unsigned. -/
theorem slt_of_lt (hkind : a.msb = b.msb) (hlt : a < b) : a.slt b = true := by
  rw [BitVec.slt_eq_ult, hkind]
  simpa [BitVec.ult, BitVec.lt_def] using hlt

/-- From 128 on the characters are below the others, signed. -/
theorem not_slt_of_msb (ha : a.msb = false) (hb : b.msb = true) : ¬ a.slt b = true := by
  rw [BitVec.slt_eq_decide, decide_eq_true_eq]
  have hnonneg := BitVec.toInt_nonneg_of_msb_false ha
  have hneg := BitVec.toInt_neg_of_msb_true hb
  omega

/-- Above a character from 128 on, unsigned, there are only such. -/
theorem msb_of_le (hle : b ≤ a) (hb : b.msb = true) : a.msb = true := by
  rw [BitVec.msb_eq_decide, decide_eq_true_eq] at hb ⊢
  have := BitVec.le_def.mp hle
  omega

/-- In order, a name in front that is from 128 on leaves no room for one below. -/
theorem InOrder.msb_of_head? (h : InOrder names) (hhead : names.head? = some a)
    (ha : a.msb = true) : ∀ b ∈ names, b.msb = true := by
  cases names with
  | nil => simp at hhead
  | cons top rest =>
    obtain rfl : top = a := by simpa using hhead
    intro b hb
    rcases List.mem_cons.mp hb with rfl | hb
    · exact ha
    · by_contra hmsb
      exact not_slt_of_msb (by simpa using hmsb) ha (h.2 b hb)

/-- Ascending names of one kind. -/
theorem inOrder_arrange {l : List Byte} (hl : l.Pairwise (· < ·)) (hkind : OneKind l) :
    InOrder (arrange l) := by
  induction l using List.reverseRecOn with
  | nil => trivial
  | append_singleton l top _ =>
    have hslt : ∀ a ∈ l ++ [top], ∀ b ∈ l ++ [top], a < b → a.slt b = true :=
      fun a ha b hb => slt_of_lt (hkind a ha b hb)
    rw [arrange_of_slt hl hslt]
    obtain ⟨hbefore, _, hlt⟩ := List.pairwise_append.mp hl
    constructor
    · exact hbefore.imp_of_mem fun ha hb =>
        hslt _ (List.mem_append_left _ ha) _ (List.mem_append_left _ hb)
    · intro c hc
      exact hslt c (List.mem_append_left _ hc) top (by simp)
        (hlt c hc top (List.mem_singleton_self top))

/-- Ascending names that are in order when arranged: the last one decides the kind. -/
theorem oneKind_of_inOrder {l : List Byte} (hl : l.Pairwise (· < ·))
    (horder : InOrder (arrange l)) : OneKind l := by
  have hhigh : ∀ b ∈ l, b.msb = true → ∀ a ∈ l, a.msb = true := by
    induction l using List.reverseRecOn with
    | nil => simp
    | append_singleton l top _ =>
      intro b hb hmsb a ha
      have hle : b ≤ top := by
        rcases List.mem_append.mp hb with hb | hb
        · exact BitVec.le_of_lt ((List.pairwise_append.mp hl).2.2 b hb top (by simp))
        · rw [List.mem_singleton.mp hb]
          exact BitVec.le_refl top
      refine horder.msb_of_head? ?_ (msb_of_le hle hmsb) a ((perm_arrange _).mem_iff.mpr ha)
      rw [head?_arrange, List.getLast?_concat]
  intro a ha b hb
  cases hmsb : b.msb with
  | true => exact hhigh b hb hmsb a ha
  | false =>
    by_contra hne
    rw [hhigh a ha (by simpa using hne) b hb] at hmsb
    exact absurd hmsb (by decide)

/-- **Names that came in ascending order.** -/
theorem fits_iff_of_arranged (h : Arranged names) :
    NamesFit names ↔ names.length ≤ 127 ∧ OneKind names := by
  have hnodup := h.nodup
  obtain ⟨l, hl, rfl⟩ := h
  have hkind : OneKind (arrange l) ↔ OneKind l := by
    simp only [OneKind, (perm_arrange l).mem_iff]
  rw [hkind]
  constructor
  · exact fun hfits => ⟨hfits.length_le, oneKind_of_inOrder hl hfits.inOrder⟩
  · exact fun ⟨hlen, hone⟩ => ⟨hnodup, hlen, inOrder_arrange hl hone⟩

/-! ## The nodes of a trie -/

/-- The characters with which the keys continue a beginning, each once. -/
def StdMap.branches (m : StdMap) (s : List Byte) : List Byte := (m.followers s).dedup

theorem StdMap.mem_branches (m : StdMap) (s : List Byte) :
    a ∈ m.branches s ↔ m.HasPrefix (s ++ [a]) :=
  List.mem_dedup.trans mem_followers

theorem StdMap.nodup_branches (m : StdMap) (s : List Byte) : (m.branches s).Nodup :=
  List.nodup_dedup _

/-- The names of a node are the characters that continue its label. -/
theorem perm_branches {m : StdMap} {labels : List (List Byte)} {valueOf : List Byte → ℕ}
    {label : List Byte} {node : FatTrieNode} (h : GrownNode labels valueOf label node)
    (hiff : ∀ s, s ∈ labels ↔ s = [] ∨ m.HasPrefix s) :
    node.names.Perm (m.branches label) := by
  refine (List.perm_ext_iff_of_nodup h.arranged.nodup (m.nodup_branches label)).mpr fun c => ?_
  rw [h.mem_names, hiff, m.mem_branches]
  simp

/-- **When the names fit.**  After all keys of a map have been inserted, the names of every
node are distinct, at most 127, the largest first and the others ascending, exactly when
at most 127 characters continue any beginning of the keys and all of them are below 128 or
all from 128 on. -/
theorem names_fit_iff (m : StdMap) (nodes : List FatTrieNode) (h : buildFatTrie m = some nodes) :
    (∀ node ∈ nodes, NamesFit node.names) ↔
      ∀ s, (m.branches s).length ≤ 127 ∧ OneKind (m.branches s) := by
  obtain ⟨hnone, _⟩ | ⟨nodes', labels, hbuild, hgrown, hiff⟩ := buildFatTrie_grown m
  · rw [hnone] at h
    simp at h
  obtain rfl : nodes' = nodes := Option.some.inj (hbuild.symm.trans h)
  have hnode : ∀ (i : ℕ) node label, nodes'[i]? = some node → labels[i]? = some label →
      (NamesFit node.names ↔ (m.branches label).length ≤ 127 ∧ OneKind (m.branches label)) := by
    intro i node label hi hlabel
    have hof := hgrown.node i node label hi hlabel
    have hperm := perm_branches hof hiff
    rw [fits_iff_of_arranged hof.arranged, hperm.length_eq]
    simp only [OneKind, hperm.mem_iff]
  constructor
  · intro hfits s
    by_cases hs : s ∈ labels
    · obtain ⟨i, hi⟩ := List.mem_iff_getElem?.mp hs
      obtain ⟨node, hget, _⟩ := hgrown.getElem?_nodes hi
      exact (hnode i node s hget hi).mp (hfits node (List.mem_of_getElem? hget))
    · -- nothing continues a string that no key starts with
      have hnil : m.branches s = [] := by
        refine List.eq_nil_iff_forall_not_mem.mpr fun c hc => hs (hgrown.closed s c ?_)
        exact (hiff _).mpr (.inr ((m.mem_branches s).mp hc))
      rw [hnil]
      exact ⟨by simp, by simp [OneKind]⟩
  · intro hall node hmem
    obtain ⟨i, hi⟩ := List.mem_iff_getElem?.mp hmem
    have hlt : i < labels.length := by
      rw [hgrown.length]
      exact (List.getElem?_eq_some_iff.mp hi).1
    exact (hnode i node _ hi (List.getElem?_eq_getElem hlt)).mpr (hall _)

/-- The keys "ab", "ac" and "b". -/
def letterMap : StdMap where
  entries := [([0x61#8, 0x62#8], 1), ([0x61#8, 0x63#8], 2), ([0x62#8], 3)]
  sorted := by decide

theorem names_fit_iff_letters :
    buildFatTrie letterMap =
        some [⟨[(0x62#8, 4), (0x61#8, 1)], 0⟩, ⟨[(0x63#8, 3), (0x62#8, 2)], 0⟩,
          ⟨[], 1⟩, ⟨[], 2⟩, ⟨[], 3⟩] ∧
      ∀ s, (letterMap.branches s).length ≤ 127 ∧ OneKind (letterMap.branches s) := by
  have hbuild : buildFatTrie letterMap =
      some [⟨[(0x62#8, 4), (0x61#8, 1)], 0⟩, ⟨[(0x63#8, 3), (0x62#8, 2)], 0⟩,
        ⟨[], 1⟩, ⟨[], 2⟩, ⟨[], 3⟩] := by decide +kernel
  refine ⟨hbuild, (names_fit_iff letterMap _ hbuild).mp fun node hnode => ?_⟩
  simp only [List.mem_cons, List.not_mem_nil, or_false] at hnode
  rcases hnode with rfl | rfl | rfl | rfl | rfl <;> exact ⟨by decide, by decide, by decide⟩

/-- The keys "a" and "\x80". -/
def mixedMap : StdMap where
  entries := [([0x61#8], 1), ([0x80#8], 2)]
  sorted := by decide

/-- A byte from 128 on stands before a letter, though it is smaller. -/
theorem names_unfit :
    buildFatTrie mixedMap = some [⟨[(0x80#8, 2), (0x61#8, 1)], 0⟩, ⟨[], 1⟩, ⟨[], 2⟩] ∧
      ¬ NamesFit [0x80#8, 0x61#8] := by
  refine ⟨by decide +kernel, fun h => ?_⟩
  exact absurd h.inOrder (by decide)

end Rtp.Qed
