import Rtp.Leader.RemovePath

/-!
# Removing paths together and one by one

`NodeCollectionImpl::RemovePath` (`leader/node_collection_impl.cc`) has an overload for a list
of paths, which goes through the lists once and removes what is below any of them, and one for a
single path.

* `strip`, `strip_strip` — the paths of a node in the index, without some of them; an entry with
  no path left is gone.
* `Filled` — the invariant: no entry of the index is empty.
* `Takes`, `Gone`, `gone_trans` — what removing paths does to the lists and to the index, and
  which nodes are gone from the index, in one step or in two.
* `Removes`, `Removes.trans` — the same for the whole collection.
* `isUnder_iff` — the paths that are removed, where no zero ends the comparison early.
* `removePathList_same` — **together or one by one**, in any order and with repetitions, the
  collection is the same afterwards, and just the listed paths and what is below them is gone.
* `zero_byte_removed` — a path that is removed only because of a zero in the listed one.
-/

namespace Rtp.Leader.NodeCollection

/-! ## The paths of a node -/

/-- The paths of a node without some of them; the entry goes when no path is left. -/
def strip (drops : String → Bool) (entry : Option (List String)) : Option (List String) :=
  entry.bind fun paths =>
    if (paths.filter (! drops ·)).isEmpty then none else some (paths.filter (! drops ·))

@[simp] theorem strip_none (drops : String → Bool) : strip drops none = none := rfl

variable {c : NodeCollection} {drops : String → Bool} {entry : Option (List String)}

theorem strip_some (drops : String → Bool) (paths : List String) : strip drops (some paths) =
    if (paths.filter (! drops ·)).isEmpty then none else some (paths.filter (! drops ·)) := rfl

/-- Two rounds in one. -/
theorem strip_strip (drops drops' : String → Bool) (entry : Option (List String)) :
    strip drops' (strip drops entry) = strip (fun p => drops p || drops' p) entry := by
  cases entry with
  | none => rfl
  | some paths =>
    have hrest : paths.filter (fun p => ! (drops p || drops' p)) =
        (paths.filter (! drops ·)).filter (! drops' ·) := by
      rw [List.filter_filter]
      refine List.filter_congr fun p _ => ?_
      rw [Bool.not_or, Bool.and_comm]
    rw [strip_some, strip_some, hrest]
    by_cases hempty : (paths.filter (! drops ·)).isEmpty
    · rw [if_pos hempty, List.isEmpty_iff.mp hempty]
      rfl
    · rw [if_neg hempty, strip_some]

theorem strip_congr {drops drops' : String → Bool}
    (h : ∀ paths, entry = some paths → ∀ p ∈ paths, drops p = drops' p) :
    strip drops entry = strip drops' entry := by
  cases entry with
  | none => rfl
  | some paths =>
    have hrest : paths.filter (! drops ·) = paths.filter (! drops' ·) :=
      List.filter_congr fun p hp => by rw [h paths rfl p hp]
    rw [strip_some, strip_some, hrest]

theorem strip_ne_some_nil (drops : String → Bool) (entry : Option (List String)) :
    strip drops entry ≠ some [] := by
  cases entry with
  | none => nofun
  | some paths =>
    rw [strip_some]
    split
    · nofun
    next hempty =>
      intro hnil
      rw [Option.some.inj hnil] at hempty
      exact hempty rfl

/-- Nothing to take from an entry that is not empty. -/
theorem strip_of_none_dropped (hfilled : entry ≠ some []) (h : ∀ p, drops p = false) :
    strip drops entry = entry := by
  cases entry with
  | none => rfl
  | some paths =>
    have hall : paths.filter (! drops ·) = paths :=
      List.filter_eq_self.mpr fun p _ => by rw [h p]; rfl
    rw [strip_some, hall, if_neg]
    intro hempty
    exact hfilled (congrArg some (List.isEmpty_iff.mp hempty))

/-- An entry that goes had a path that is taken. -/
theorem exists_dropped_of_strip {paths : List String} (hne : paths ≠ [])
    (h : strip drops (some paths) = none) : ∃ p ∈ paths, drops p = true := by
  obtain ⟨p, hp⟩ := List.exists_mem_of_ne_nil paths hne
  refine ⟨p, hp, ?_⟩
  by_contra hkept
  have hmem : p ∈ paths.filter (! drops ·) := List.mem_filter.mpr ⟨hp, by simpa using hkept⟩
  rw [strip_some, if_neg] at h
  · exact absurd h nofun
  · intro hempty
    rw [List.isEmpty_iff.mp hempty] at hmem
    cases hmem

/-- The entry after one path was taken. -/
theorem mem_strip_iff {p : String} : (∃ paths, strip drops entry = some paths ∧ p ∈ paths) ↔
      (∃ paths, entry = some paths ∧ p ∈ paths) ∧ drops p = false := by
  cases entry with
  | none => simp
  | some paths =>
    rw [strip_some]
    constructor
    · rintro ⟨rest, hrest, hp⟩
      rw [Option.ite_none_left_eq_some] at hrest
      obtain ⟨-, hrest⟩ := hrest
      rw [← Option.some.inj hrest] at hp
      obtain ⟨hp, hkept⟩ := List.mem_filter.mp hp
      exact ⟨⟨paths, rfl, hp⟩, by simpa using hkept⟩
    · rintro ⟨⟨paths', hpaths, hp⟩, hkept⟩
      rw [← Option.some.inj hpaths] at hp
      have hmem : p ∈ paths.filter (! drops ·) := List.mem_filter.mpr ⟨hp, by simpa using hkept⟩
      have hne : ¬ (paths.filter (! drops ·)).isEmpty = true := by
        intro hempty
        rw [List.isEmpty_iff.mp hempty] at hmem
        cases hmem
      exact ⟨_, if_neg hne, hmem⟩

/-! ## Entries are never empty -/

/-- No node of the index has an empty set of paths. -/
def Filled (ii : AList (fun _ : String => List String)) : Prop := ∀ n, ii.lookup n ≠ some []

theorem Filled.addToIndex {ii : AList (fun _ : String => List String)} (h : Filled ii)
    (path node : String) : Filled (addToIndex path ii node) := by
  intro n hn
  rw [lookup_addToIndex] at hn
  split at hn
  · have hmem : path ∈ ((ii.lookup node).getD []).insert path := List.mem_insert_self
    rw [Option.some.inj hn] at hmem
    cases hmem
  · exact h n hn

theorem Filled.foldl_addToIndex {ii : AList (fun _ : String => List String)} (h : Filled ii)
    (path : String) (nodes : List String) :
    Filled (nodes.foldl (NodeCollection.addToIndex path) ii) := by
  induction nodes generalizing ii with
  | nil => exact h
  | cons node nodes ih => exact ih (h.addToIndex path node)

theorem Filled.dropNode (h : Filled c.nodesIindex) (node : String) :
    Filled (c.dropNode node).nodesIindex := by
  intro n hn
  by_cases hnode : n = node
  · subst hnode
    unfold NodeCollection.dropNode at hn
    cases hlookup : c.nodesIindex.lookup n with
    | none | some paths => simp [hlookup] at hn
  · rw [lookup_dropNode_of_ne c hnode] at hn
    exact h n hn

theorem Filled.updateBadNode (h : Filled c.nodesIindex) (blackList : List String) :
    Filled (c.updateBadNode blackList).nodesIindex := by
  have hfold : ∀ (nodes : List String) (c : NodeCollection), Filled c.nodesIindex →
      Filled (nodes.foldl NodeCollection.dropNode c).nodesIindex := by
    intro nodes
    induction nodes with
    | nil => exact fun _ h => h
    | cons node nodes ih => exact fun c h => ih _ (h.dropNode node)
  exact hfold blackList _ h

/-! ## Lists and index -/

/-- A node is in the list of a path. -/
def listed (c : NodeCollection) (p n : String) : Bool := (c.validNodes.lookup p).any (n ∈ ·)

theorem listed_iff {p n : String} :
    c.listed p n = true ↔ ∃ nodes, c.validNodes.lookup p = some nodes ∧ n ∈ nodes := by
  simp only [listed, Option.any_eq_true, decide_eq_true_eq]

theorem mem_of_listed {p n : String} (h : c.listed p n = true) : p ∈ c.validNodes := by
  obtain ⟨nodes, hnodes, -⟩ := listed_iff.mp h
  exact mem_validNodes_iff.mpr ⟨nodes, hnodes⟩

/-- What removing paths does to the lists and to the index. -/
structure Takes (P : String → Bool) (c c' : NodeCollection) : Prop where
  validNodes : ∀ p, c'.validNodes.lookup p = if P p then none else c.validNodes.lookup p
  nodesIindex : ∀ n, c'.nodesIindex.lookup n =
    strip (fun p => P p && c.listed p n) (c.nodesIindex.lookup n)

/-- A node of a removed list that has no path left. -/
def Gone (P : String → Bool) (c c' : NodeCollection) (n : String) : Prop :=
  (∃ p, P p = true ∧ c.listed p n = true) ∧ c'.nodesIindex.lookup n = none

section Takes

variable {P Q : String → Bool} {c c₁ c₂ : NodeCollection}

theorem Takes.listed (h : Takes P c c₁) (p n : String) :
    c₁.listed p n = (! P p && c.listed p n) := by
  unfold NodeCollection.listed
  rw [h.validNodes]
  cases P p with
  | true => rfl
  | false => rfl

theorem Takes.filled (h : Takes P c c₁) : Filled c₁.nodesIindex := by
  intro n hn
  rw [h.nodesIindex] at hn
  exact strip_ne_some_nil _ _ hn

/-- One removal after another. -/
theorem Takes.trans (h : Takes P c c₁) (h' : Takes Q c₁ c₂) : Takes (fun p => P p || Q p) c c₂ where
  validNodes := by
    intro p
    rw [h'.validNodes, h.validNodes]
    cases P p with
    | true => simp
    | false => simp
  nodesIindex := by
    intro n
    rw [h'.nodesIindex, h.nodesIindex, strip_strip]
    apply strip_congr
    intro _ _ p _
    rw [h.listed]
    cases P p with
    | true => simp
    | false => simp

/-- **What is gone in two steps is gone in one.**  The second step takes the last path of a node
only if it takes one at all. -/
theorem gone_trans (h : Takes P c c₁) (h' : Takes Q c₁ c₂) (n : String) :
    Gone (fun p => P p || Q p) c c₂ n ↔ Gone P c c₁ n ∨ Gone Q c₁ c₂ n := by
  constructor
  · rintro ⟨⟨p, hp, hlisted⟩, hnone⟩
    cases hentry : c₁.nodesIindex.lookup n with
    | none =>
      by_cases hP : P p = true
      · exact .inl ⟨⟨p, hP, hlisted⟩, hentry⟩
      · have hQ : Q p = true := by simpa [hP] using hp
        exact .inr ⟨⟨p, hQ, by rw [h.listed, hlisted]; simpa using hP⟩, hnone⟩
    | some paths =>
      have hne : paths ≠ [] := by
        rintro rfl
        exact h.filled n hentry
      rw [h'.nodesIindex, hentry] at hnone
      obtain ⟨q, -, hq⟩ := exists_dropped_of_strip hne hnone
      rw [Bool.and_eq_true] at hq
      refine .inr ⟨⟨q, hq⟩, ?_⟩
      rw [h'.nodesIindex, hentry, hnone]
  · rintro (⟨⟨p, hp, hlisted⟩, hnone⟩ | ⟨⟨p, hp, hlisted⟩, hnone⟩)
    · refine ⟨⟨p, by simp [hp], hlisted⟩, ?_⟩
      rw [h'.nodesIindex, hnone, strip_none]
    · rw [h.listed, Bool.and_eq_true] at hlisted
      exact ⟨⟨p, by simp [hp], hlisted.2⟩, hnone⟩

/-- Only the paths with a list matter. -/
theorem Takes.congr (h : Takes P c c₁) (hPQ : ∀ p ∈ c.validNodes, P p = Q p) : Takes Q c c₁ where
  validNodes := by
    intro p
    by_cases hp : p ∈ c.validNodes
    · rw [h.validNodes, hPQ p hp]
    · rw [h.validNodes, AList.lookup_eq_none.mpr hp, ite_self, ite_self]
  nodesIindex := by
    intro n
    rw [h.nodesIindex]
    apply strip_congr
    intro _ _ p _
    cases hlisted : c.listed p n with
    | false => simp
    | true => rw [hPQ p (mem_of_listed hlisted)]

theorem gone_congr (hPQ : ∀ p ∈ c.validNodes, P p = Q p) (n : String) :
    Gone P c c₁ n ↔ Gone Q c c₁ n := by
  unfold Gone
  refine and_congr_left fun _ => exists_congr fun p => and_congr_left fun hlisted => ?_
  rw [hPQ p (mem_of_listed hlisted)]

theorem Takes.refl (hfilled : Filled c.nodesIindex) (hP : ∀ p ∈ c.validNodes, P p = false) :
    Takes P c c where
  validNodes := by
    intro p
    by_cases hp : p ∈ c.validNodes
    · rw [hP p hp]
      rfl
    · rw [AList.lookup_eq_none.mpr hp, ite_self]
  nodesIindex := by
    intro n
    rw [strip_of_none_dropped (hfilled n)]
    intro p
    cases hlisted : c.listed p n with
    | false => simp
    | true => simp [hP p (mem_of_listed hlisted)]

theorem not_gone (hP : ∀ p ∈ c.validNodes, P p = false) (n : String) : ¬ Gone P c c₁ n := by
  rintro ⟨⟨p, hp, hlisted⟩, -⟩
  rw [hP p (mem_of_listed hlisted)] at hp
  exact absurd hp nofun

end Takes

/-! ## The loops -/

section Loops

variable (remove : String) (acc : AList (fun _ : String => List String) × List String)

/-- The index after a visit of one node. -/
theorem lookup_unindex (node n : String) : (unindex remove acc node).1.lookup n =
    if n = node then strip (· = remove) (acc.1.lookup n) else acc.1.lookup n := by
  unfold unindex
  by_cases hn : n = node
  · rw [if_pos hn, hn]
    cases hentry : acc.1.lookup node with
    | none => exact hentry
    | some paths =>
      simp only [strip_some, ne_eq, decide_not]
      split
      · exact AList.lookup_erase node acc.1
      · exact AList.lookup_insert acc.1
  · rw [if_neg hn]
    cases acc.1.lookup node with
    | none => rfl
    | some paths =>
      simp only
      split
      · exact AList.lookup_erase_ne hn
      · exact AList.lookup_insert_ne hn

/-- A node whose entry is gone, or was not there, is noted. -/
theorem mem_unindex_iff (node n : String) : n ∈ (unindex remove acc node).2 ↔
    n ∈ acc.2 ∨ n = node ∧ strip (· = remove) (acc.1.lookup n) = none := by
  have hcases : (unindex remove acc node).2 =
      if strip (· = remove) (acc.1.lookup node) = none then acc.2 ++ [node] else acc.2 := by
    unfold unindex
    cases acc.1.lookup node with
    | none => rfl
    | some paths =>
      simp only [strip_some, ne_eq, decide_not]
      split <;> simp
  rw [hcases]
  by_cases hn : n = node
  · rw [hn]
    split
    next hnone => simp [hnone]
    next hsome => simp [hsome]
  · split
    · simp [hn]
    · simp [hn]

theorem lookup_foldl_unindex (nodes : List String) (n : String) :
    (nodes.foldl (unindex remove) acc).1.lookup n =
      if n ∈ nodes then strip (· = remove) (acc.1.lookup n) else acc.1.lookup n := by
  induction nodes generalizing acc with
  | nil => rfl
  | cons node nodes ih =>
    rw [List.foldl_cons, ih, lookup_unindex]
    by_cases hn : n = node
    · simp [hn, strip_strip]
    · simp [hn]

theorem mem_foldl_unindex_iff (nodes : List String) (n : String) :
    n ∈ (nodes.foldl (unindex remove) acc).2 ↔
      n ∈ acc.2 ∨ n ∈ nodes ∧ strip (· = remove) (acc.1.lookup n) = none := by
  induction nodes generalizing acc with
  | nil => simp
  | cons node nodes ih =>
    rw [List.foldl_cons, ih, mem_unindex_iff, lookup_unindex, List.mem_cons]
    by_cases hn : n = node
    · simp only [hn, if_true, strip_strip, Bool.or_self, true_and, true_or]
      tauto
    · simp [hn]

end Loops

/-- The body of the outer loop removes one path, and notes the nodes that are gone by that. -/
theorem takes_dropPath {acc : NodeCollection × List String} (hfilled : Filled acc.1.nodesIindex)
    (remove : String) : Takes (· = remove) acc.1 (dropPath acc remove).1 ∧
      ∀ n, n ∈ (dropPath acc remove).2 ↔
        n ∈ acc.2 ∨ Gone (· = remove) acc.1 (dropPath acc remove).1 n := by
  unfold dropPath
  cases hl : acc.1.validNodes.lookup remove with
  | none =>
    have hno : ∀ p ∈ acc.1.validNodes, decide (p = remove) = false := by
      intro p hp
      rw [decide_eq_false_iff_not]
      rintro rfl
      exact AList.lookup_eq_none.mp hl hp
    refine ⟨.refl hfilled hno, fun n => ⟨.inl, ?_⟩⟩
    rintro (hn | hgone)
    · exact hn
    · exact absurd hgone (not_gone hno n)
  | some nodes =>
    have hlisted : ∀ n, acc.1.listed remove n = decide (n ∈ nodes) := by
      intro n
      rw [listed, hl]
      rfl
    have hindex : ∀ n, (nodes.foldl (unindex remove) (acc.1.nodesIindex, acc.2)).1.lookup n =
        strip (fun p => decide (p = remove) && acc.1.listed p n) (acc.1.nodesIindex.lookup n) := by
      intro n
      have hdrops : ∀ p, (decide (p = remove) && acc.1.listed p n) =
          (decide (p = remove) && decide (n ∈ nodes)) := by
        intro p
        by_cases hp : p = remove
        · rw [hp, hlisted]
        · simp [hp]
      rw [lookup_foldl_unindex, strip_congr fun _ _ p _ => hdrops p]
      by_cases hn : n ∈ nodes
      · simp [hn]
      · rw [if_neg hn, strip_of_none_dropped (hfilled n)]
        simp [hn]
    refine ⟨⟨fun p => ?_, hindex⟩, fun n => ?_⟩
    · by_cases hp : p = remove
      · rw [hp, if_pos (decide_eq_true rfl)]
        exact AList.lookup_erase remove acc.1.validNodes
      · rw [if_neg (by simpa using hp)]
        exact AList.lookup_erase_ne hp
    · rw [mem_foldl_unindex_iff]
      refine or_congr_right ⟨?_, ?_⟩
      · rintro ⟨hn, hnone⟩
        refine ⟨⟨remove, by simp, by simpa [hlisted] using hn⟩, ?_⟩
        show (nodes.foldl (unindex remove) (acc.1.nodesIindex, acc.2)).1.lookup n = none
        rw [lookup_foldl_unindex, if_pos hn, hnone]
      · rintro ⟨⟨p, hp, hmem⟩, hnone⟩
        have hn : n ∈ nodes := by
          rw [of_decide_eq_true hp, hlisted] at hmem
          exact of_decide_eq_true hmem
        refine ⟨hn, ?_⟩
        have hlookup := lookup_foldl_unindex remove (acc.1.nodesIindex, acc.2) nodes n
        rw [if_pos hn] at hlookup
        exact hlookup.symm.trans hnone

/-- The outer loop. -/
theorem takes_foldl_dropPath (removes : List String) {acc : NodeCollection × List String}
    (hfilled : Filled acc.1.nodesIindex) :
    Takes (· ∈ removes) acc.1 (removes.foldl dropPath acc).1 ∧
      ∀ n, n ∈ (removes.foldl dropPath acc).2 ↔
        n ∈ acc.2 ∨ Gone (· ∈ removes) acc.1 (removes.foldl dropPath acc).1 n := by
  induction removes generalizing acc with
  | nil =>
    refine ⟨.refl hfilled fun _ _ => rfl, fun n => ⟨.inl, ?_⟩⟩
    rintro (hn | hgone)
    · exact hn
    · exact absurd hgone (not_gone (fun _ _ => rfl) n)
  | cons remove removes ih =>
    obtain ⟨hone, hgone⟩ := takes_dropPath hfilled remove
    obtain ⟨hrest, hgone'⟩ := ih hone.filled
    have hcons : ∀ p, (decide (p = remove) || decide (p ∈ removes)) =
        decide (p ∈ remove :: removes) := by
      intro p
      simp
    refine ⟨(hone.trans hrest).congr fun p _ => hcons p, fun n => ?_⟩
    rw [List.foldl_cons, hgone', hgone, or_assoc, ← gone_trans hone hrest,
      gone_congr fun p _ => hcons p]

/-! ## The whole collection -/

/-- What removing paths does to a collection. -/
structure Removes (P : String → Bool) (c c' : NodeCollection) : Prop extends Takes P c c' where
  roundRobin : ∀ p, c'.roundRobinIndexMap.lookup p =
    if P p = true ∧ p ∈ c.validNodes then none else c.roundRobinIndexMap.lookup p
  blackList : ∃ gone : List String, c'.blackList = c.blackList.filter (· ∉ gone) ∧
    ∀ n, n ∈ gone ↔ Gone P c c' n

/-- Two collections that hold the same. -/
structure Same (c c' : NodeCollection) : Prop where
  validNodes : ∀ p, c.validNodes.lookup p = c'.validNodes.lookup p
  roundRobin : ∀ p, c.roundRobinIndexMap.lookup p = c'.roundRobinIndexMap.lookup p
  nodesIindex : ∀ n, c.nodesIindex.lookup n = c'.nodesIindex.lookup n
  blackList : c.blackList = c'.blackList

section Removes

variable {P Q : String → Bool} {c c₁ c₂ : NodeCollection}

theorem Removes.refl (hfilled : Filled c.nodesIindex) (hP : ∀ p ∈ c.validNodes, P p = false) :
    Removes P c c where
  toTakes := .refl hfilled hP
  roundRobin := by
    intro p
    rw [if_neg]
    rintro ⟨hp, hmem⟩
    rw [hP p hmem] at hp
    exact absurd hp nofun
  blackList := ⟨[], by simp, fun n => ⟨nofun, fun hgone => absurd hgone (not_gone hP n)⟩⟩

theorem Removes.congr (h : Removes P c c₁) (hPQ : ∀ p ∈ c.validNodes, P p = Q p) :
    Removes Q c c₁ where
  toTakes := h.toTakes.congr hPQ
  roundRobin := by
    intro p
    rw [h.roundRobin]
    by_cases hp : p ∈ c.validNodes
    · rw [hPQ p hp]
    · simp [hp]
  blackList := by
    obtain ⟨gone, hblack, hgone⟩ := h.blackList
    exact ⟨gone, hblack, fun n => (hgone n).trans (gone_congr hPQ n)⟩

theorem Removes.trans (h : Removes P c c₁) (h' : Removes Q c₁ c₂) :
    Removes (fun p => P p || Q p) c c₂ where
  toTakes := h.toTakes.trans h'.toTakes
  roundRobin := by
    intro p
    have hmem : p ∈ c₁.validNodes ↔ P p = false ∧ p ∈ c.validNodes := by
      rw [← AList.lookup_isSome, ← AList.lookup_isSome, h.validNodes]
      cases P p <;> simp
    rw [h'.roundRobin, h.roundRobin]
    simp only [hmem]
    cases P p with
    | true => simp
    | false => simp
  blackList := by
    obtain ⟨gone, hblack, hgone⟩ := h.blackList
    obtain ⟨gone', hblack', hgone'⟩ := h'.blackList
    refine ⟨gone ++ gone', ?_, fun n => ?_⟩
    · rw [hblack', hblack, List.filter_filter]
      refine List.filter_congr fun n _ => ?_
      simp [Bool.and_comm]
    · rw [List.mem_append, hgone, hgone', gone_trans h.toTakes h'.toTakes]

/-- What is removed determines the collection. -/
theorem Removes.same (h : Removes P c c₁) (h' : Removes P c c₂) : Same c₁ c₂ where
  validNodes := fun p => (h.validNodes p).trans (h'.validNodes p).symm
  roundRobin := fun p => (h.roundRobin p).trans (h'.roundRobin p).symm
  nodesIindex := fun n => (h.nodesIindex n).trans (h'.nodesIindex n).symm
  blackList := by
    obtain ⟨gone, hblack, hgone⟩ := h.blackList
    obtain ⟨gone', hblack', hgone'⟩ := h'.blackList
    rw [hblack, hblack']
    refine List.filter_congr fun n _ => ?_
    have hindex : c₁.nodesIindex.lookup n = c₂.nodesIindex.lookup n :=
      (h.nodesIindex n).trans (h'.nodesIindex n).symm
    have hiff : n ∈ gone ↔ n ∈ gone' := by
      rw [hgone, hgone', Gone, Gone, hindex]
    simp only [hiff]

end Removes

theorem lookup_foldl_erase (removes : List String) (m : AList (fun _ : String => ℕ)) (p : String) :
    (removes.foldl (fun m remove => m.erase remove) m).lookup p =
      if p ∈ removes then none else m.lookup p := by
  induction removes generalizing m with
  | nil => rfl
  | cons remove removes ih =>
    rw [List.foldl_cons, ih]
    by_cases hp : p = remove
    · rw [hp, AList.lookup_erase]
      simp
    · rw [AList.lookup_erase_ne hp]
      simp [hp]

/-- **What both overloads do**, with paths that have a list. -/
theorem removes_removeAll (hfilled : Filled c.nodesIindex) {removes : List String}
    (hlists : ∀ p ∈ removes, p ∈ c.validNodes) : Removes (· ∈ removes) c (c.removeAll removes) := by
  cases removes with
  | nil => exact .refl hfilled fun _ _ => rfl
  | cons remove removes =>
    let indexMap :=
      (remove :: removes).foldl (fun m remove => m.erase remove) c.roundRobinIndexMap
    let acc : NodeCollection × List String := ({ c with roundRobinIndexMap := indexMap }, [])
    have hframe := removed_foldl_dropPath (remove :: removes) acc
    obtain ⟨htakes, hgone⟩ := @takes_foldl_dropPath (remove :: removes) acc hfilled
    refine ⟨⟨htakes.validNodes, htakes.nodesIindex⟩, fun p => ?_,
      ((remove :: removes).foldl dropPath acc).2, ?_, fun n => ?_⟩
    · show ((remove :: removes).foldl dropPath acc).1.roundRobinIndexMap.lookup p = _
      rw [hframe.roundRobin, lookup_foldl_erase]
      by_cases hp : p ∈ remove :: removes
      · rw [if_pos hp, if_pos ⟨decide_eq_true hp, hlists p hp⟩]
      · rw [if_neg hp, if_neg]
        rintro ⟨hmem, -⟩
        exact hp (of_decide_eq_true hmem)
    · show ((remove :: removes).foldl dropPath acc).1.blackList.filter _ = _
      rw [hframe.blackList]
    · rw [hgone]
      exact ⟨fun h => h.resolve_left List.not_mem_nil, .inr⟩

/-- The paths to remove are those with a list that a condition picks. -/
theorem removes_filter (hfilled : Filled c.nodesIindex) (P : String → Bool) :
    Removes P c (c.removeAll (c.validNodes.keys.filter P)) := by
  have hremoves : ∀ p, p ∈ c.validNodes.keys.filter P ↔ p ∈ c.validNodes ∧ P p = true :=
    fun p => by rw [List.mem_filter, AList.mem_keys]
  refine (removes_removeAll hfilled fun p hp => ((hremoves p).mp hp).1).congr fun p hp => ?_
  rw [Bool.eq_iff_iff, decide_eq_true_iff, hremoves]
  exact and_iff_right hp

theorem removes_removePath (hfilled : Filled c.nodesIindex) (path : String) :
    Removes (isUnder path) c (c.removePath path) :=
  removes_filter hfilled _

theorem removes_removePathList (hfilled : Filled c.nodesIindex) (paths : List String) :
    Removes (fun p => paths.any (isUnder · p)) c (c.removePathList paths) :=
  removes_filter hfilled _

/-- The paths one by one. -/
theorem removes_foldl_removePath (paths : List String) (hfilled : Filled c.nodesIindex) :
    Removes (fun p => paths.any (isUnder · p)) c
      (paths.foldl (fun c path => c.removePath path) c) := by
  induction paths generalizing c with
  | nil =>
    exact .refl hfilled fun _ _ => rfl
  | cons path paths ih =>
    have hone := removes_removePath hfilled path
    exact (hone.trans (ih hone.filled)).congr fun p _ => by rw [List.any_cons]

/-! ## Which paths are removed -/

/-- Without a zero in the second one, the comparison is that of an initial part. -/
theorem prefix_of_strncmpEq {l r : List Char} (hzero : '\x00' ∉ l)
    (h : strncmpEq l.length r l = true) : l <+: r := by
  induction l generalizing r with
  | nil => exact List.nil_prefix
  | cons x l ih =>
    rw [List.mem_cons, not_or] at hzero
    simp only [List.length_cons, strncmpEq, List.headD_cons, List.tail_cons, Bool.and_eq_true,
      Bool.or_eq_true, beq_iff_eq] at h
    obtain ⟨hhead, hrest⟩ := h
    rw [hhead] at hrest
    have hrest := hrest.resolve_left (Ne.symm hzero.1)
    cases r with
    | nil => exact absurd hhead hzero.1
    | cons y r =>
      rw [List.headD_cons] at hhead
      rw [hhead]
      exact (List.prefix_cons_inj x).mpr (ih hzero.2 hrest)

/-- **The condition of the source**, for a path without a zero: the same path, or one that goes
on with a slash. -/
theorem isUnder_iff {path p : String} (hzero : '\x00' ∉ path.toList) :
    isUnder path p = true ↔ p = path ∨ ∃ rest, p = path ++ "/" ++ rest := by
  refine ⟨fun h => ?_, isUnder_of_sub⟩
  simp only [isUnder, Bool.and_eq_true, Bool.or_eq_true, beq_iff_eq, ← String.length_toList] at h
  obtain ⟨hcompare, hend⟩ := h
  obtain ⟨rest, hrest⟩ := prefix_of_strncmpEq hzero hcompare
  cases rest with
  | nil => exact .inl (String.toList_inj.mp (by rw [← hrest, List.append_nil]))
  | cons x rest =>
    have hx : x = '/' := by
      rw [← hrest] at hend
      simpa using hend
    refine .inr ⟨String.ofList rest, String.toList_inj.mp ?_⟩
    rw [← hrest, hx]
    simp

/-- A listed path, or one that extends it by a slash and more. -/
def Below (paths : List String) (p : String) : Prop :=
  ∃ path ∈ paths, p = path ∨ ∃ rest, p = path ++ "/" ++ rest

theorem any_isUnder_iff {paths : List String} (hzero : ∀ path ∈ paths, '\x00' ∉ path.toList)
    (p : String) : paths.any (isUnder · p) = true ↔ Below paths p := by
  rw [List.any_eq_true]
  exact exists_congr fun path => and_congr_right fun hpath => isUnder_iff (hzero path hpath)

/-! ## Every state -/

theorem filled_empty : Filled empty.nodesIindex := by
  intro n hn
  simp [empty] at hn

/-- No call leaves an empty entry in the index. -/
theorem Filled.next {c c' : NodeCollection} {call : Call} (h : Filled c.nodesIindex)
    (hnext : next call c = some c') : Filled c'.nodesIindex := by
  rw [eq_after hnext]
  cases call with
  | updateHeartbeat nodes path => exact h.foldl_addToIndex path _
  | updateBadNode blackList => exact h.updateBadNode blackList
  | removePath path => exact (removes_removePath h path).filled
  | removePathList paths => exact (removes_removePathList h paths).filled
  | pickOneNode path =>
    show Filled (c.pickOneNode path).2.nodesIindex
    rwa [(pickOneNode_frame path c).2.1]

theorem filled_of_reach {P : NodeCollection → Call → Prop} (h : Reach next P empty c) :
    Filled c.nodesIindex :=
  h.invariant (I := fun c => Filled c.nodesIindex) filled_empty
    fun _ _ _ hfilled _ hnext => hfilled.next hnext

/-- **Paths removed together and one by one.**  In every state, and for every list of paths, the
collection after `RemovePath` with the list is the one after a `RemovePath` for each path, in any
order and with any repetitions.  Where no listed path has a zero in it, just the lists of the
listed paths, and of what extends one by a slash and more, are gone. -/
theorem removePathList_same {c : NodeCollection} (hc : Reach next (fun _ _ => True) empty c)
    {paths singles : List String} (hsingles : ∀ path, path ∈ singles ↔ path ∈ paths) :
    Same (c.removePathList paths) (singles.foldl (fun c path => c.removePath path) c) ∧
    ((∀ path ∈ paths, '\x00' ∉ path.toList) → ∀ p,
      (Below paths p → (c.removePathList paths).validNodes.lookup p = none) ∧
      (¬ Below paths p →
        (c.removePathList paths).validNodes.lookup p = c.validNodes.lookup p)) := by
  have hfilled := filled_of_reach hc
  have htogether := removes_removePathList hfilled paths
  constructor
  · have hone := removes_foldl_removePath singles hfilled
    have hany : ∀ p, singles.any (isUnder · p) = paths.any (isUnder · p) := by
      intro p
      rw [Bool.eq_iff_iff, List.any_eq_true, List.any_eq_true]
      exact exists_congr fun path => and_congr_left fun _ => hsingles path
    exact htogether.same (hone.congr fun p _ => hany p)
  · intro hzero p
    rw [htogether.validNodes]
    constructor
    · intro hbelow
      rw [if_pos ((any_isUnder_iff hzero p).mpr hbelow)]
    · intro hnot
      rw [if_neg fun h => hnot ((any_isUnder_iff hzero p).mp h)]

/-- Two of three paths are removed, one of them named twice and in the other order. -/
theorem removePathList_same_three : ∃ c, Reach next (fun _ _ => True) empty c ∧
    Same (c.removePathList ["/a", "/c"])
      (["/c", "/a", "/c"].foldl (fun c path => c.removePath path) c) ∧
    "/a/b" ∈ c.validNodes ∧ (c.removePathList ["/a", "/c"]).validNodes.lookup "/a/b" = none := by
  obtain ⟨c, hc, hseen⟩ := exists_reach_of_follow next (fun _ _ => True)
    [.updateHeartbeat ["x", "y"] "/a/b", .updateHeartbeat ["y", "z"] "/c",
      .updateHeartbeat ["x"] "/ab"] empty (fun c => decide ("/a/b" ∈ c.validNodes))
    (by decide +kernel)
  have hzero : ∀ path ∈ ["/a", "/c"], '\x00' ∉ path.toList := by decide +kernel
  have hall := @removePathList_same c hc ["/a", "/c"] ["/c", "/a", "/c"]
    (fun path => by simp only [List.mem_cons, List.not_mem_nil]; tauto)
  exact ⟨c, hc, hall.1, of_decide_eq_true hseen,
    (hall.2 hzero "/a/b").1 ⟨"/a", List.mem_cons_self, .inr ⟨"b", by decide +kernel⟩⟩⟩

/-- **A zero ends the comparison.**  The removal of `a\0b` removes `a\0c`, which is not that path
and does not extend it. -/
theorem zero_byte_removed : ∃ c, Reach next (fun _ _ => True) empty c ∧
    c.validNodes.lookup "a\x00c" = some ["n"] ∧ ¬ Below ["a\x00b"] "a\x00c" ∧
    (c.removePathList ["a\x00b"]).validNodes.lookup "a\x00c" = none := by
  obtain ⟨c, hc, hseen⟩ := exists_reach_of_follow next (fun _ _ => True)
    [.updateHeartbeat ["n"] "a\x00c"] empty
    (fun c => decide (c.validNodes.lookup "a\x00c" = some ["n"] ∧
      (c.removePathList ["a\x00b"]).validNodes.lookup "a\x00c" = none)) (by decide +kernel)
  obtain ⟨hlist, hgone⟩ := of_decide_eq_true hseen
  refine ⟨c, hc, hlist, ?_, hgone⟩
  rintro ⟨path, hpath, heq⟩
  rw [List.mem_singleton] at hpath
  subst hpath
  obtain heq | ⟨rest, heq⟩ := heq
  · exact absurd heq (by decide +kernel)
  · have hlength := congrArg String.length heq
    have hthree : "a\x00c".length = 3 ∧ "a\x00b".length = 3 ∧ "/".length = 1 := by decide +kernel
    rw [String.length_append, String.length_append] at hlength
    omega

end Rtp.Leader.NodeCollection
