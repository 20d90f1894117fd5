import Mathlib.Data.List.AList

/-!
# The node collection

The model of `leader/node_collection_impl.cc`: the nodes that are valid for each path, an
inverse index from nodes to paths, and the black list of bad nodes.  Heartbeats set the
list of a path, without the nodes on the black list; a new black list takes its nodes out
of the lists, at the paths the index knows, and out of the index.

* `updateHeartbeat`, `updateBadNode`, `findNodesBySpec`, `pickOneNode` — the functions.
* `Indexed` — the invariant: lists have no duplicates, and the index knows, for every node
  of a list, the path of the list.
* `validNodes_updateHeartbeat`, `validNodes_updateBadNode` — **what becomes of the lists**;
  the second one needs the invariant, since a list is only changed through the index.
* `pickOneNode_mem` — a picked node is in the list of its path.

A set or a map of the source is a list or an association list here: the results do not
depend on the order in which one is gone through.
-/

namespace Rtp.Leader

/-- A `NodeCollectionImpl`.  The round robin index of a path starts from zero. -/
structure NodeCollection where
  nodesIindex : AList (fun _ : String => List String)
  blackList : List String
  validNodes : AList (fun _ : String => List String)
  roundRobinIndexMap : AList (fun _ : String => ℕ)

namespace NodeCollection

/-- A new collection. -/
def empty : NodeCollection := ⟨∅, [], ∅, ∅⟩

/-- A path is added to the paths of a node in the index. -/
def addToIndex (path : String) (ii : AList (fun _ : String => List String)) (node : String) :
    AList (fun _ : String => List String) :=
  match ii.lookup node with
  | none => ii.insert node [path]
  | some paths => ii.insert node (paths.insert path)

/-- `NodeCollectionImpl::UpdateHeartbeat`. -/
def updateHeartbeat (nodes : List String) (path : String) (c : NodeCollection) :
    NodeCollection :=
  let validNodes := nodes.filter (· ∉ c.blackList)
  { c with
    nodesIindex := validNodes.foldl (addToIndex path) c.nodesIindex
    validNodes := c.validNodes.insert path validNodes
    roundRobinIndexMap :=
      if path ∈ c.roundRobinIndexMap then c.roundRobinIndexMap
      else c.roundRobinIndexMap.insert path 0 }

/-- A node is taken out of the list of a path, where it is found first. -/
def eraseAt (node : String) (valid : AList (fun _ : String => List String)) (path : String) :
    AList (fun _ : String => List String) :=
  match valid.lookup path with
  | none => valid
  | some nodes => valid.insert path (nodes.erase node)

/-- The body of the loop of `UpdateBadNode`: a node of the black list is taken out of the
lists of all paths the index knows for it, and out of the index. -/
def dropNode (c : NodeCollection) (node : String) : NodeCollection :=
  match c.nodesIindex.lookup node with
  | none => c
  | some paths =>
    { c with
      validNodes := paths.foldl (eraseAt node) c.validNodes
      nodesIindex := c.nodesIindex.erase node }

/-- `NodeCollectionImpl::UpdateBadNode`. -/
def updateBadNode (blackList : List String) (c : NodeCollection) : NodeCollection :=
  blackList.foldl dropNode { c with blackList := blackList }

/-- `NodeCollectionImpl::FindNodesBySpec`: a spec is the node itself. -/
def findNodesBySpec (specList : List String) (c : NodeCollection) : List String :=
  c.nodesIindex.keys.filter (· ∈ specList)

/-- `NodeCollectionImpl::PickOneNode`. -/
def pickOneNode (path : String) (c : NodeCollection) : Option String × NodeCollection :=
  match c.roundRobinIndexMap.lookup path, c.validNodes.lookup path with
  | some index, some nodes =>
    if nodes.isEmpty then (none, c)
    else
      let index := (index + 1) % nodes.length
      (nodes[index]?, { c with roundRobinIndexMap := c.roundRobinIndexMap.insert path index })
  | _, _ => (none, c)

/-! ## The invariant -/

/-- What ties the lists to the index. -/
structure Indexed (c : NodeCollection) : Prop where
  nodup : ∀ path nodes, c.validNodes.lookup path = some nodes → nodes.Nodup
  known : ∀ path nodes, c.validNodes.lookup path = some nodes → ∀ node ∈ nodes,
    ∃ paths, c.nodesIindex.lookup node = some paths ∧ path ∈ paths

variable {c : NodeCollection}

theorem indexed_empty : Indexed empty :=
  ⟨fun path nodes h => absurd h (by simp [empty]), fun path nodes h => absurd h (by simp [empty])⟩

/-! ## Heartbeats -/

/-- The paths of a node after a path was added. -/
theorem lookup_addToIndex (path : String) (ii : AList (fun _ : String => List String))
    (node n : String) : (addToIndex path ii node).lookup n =
      if n = node then some (((ii.lookup node).getD []).insert path) else ii.lookup n := by
  unfold addToIndex
  by_cases hn : n = node
  · subst hn
    rw [if_pos rfl]
    cases h : ii.lookup n with
    | none => simp
    | some paths => simp
  · rw [if_neg hn]
    cases h : ii.lookup node with
    | none | some paths => exact AList.lookup_insert_ne hn

/-- Paths are never taken out of the index, and the nodes of the list are filed under the
path. -/
theorem lookup_foldl_addToIndex (path : String) (nodes : List String)
    (ii : AList (fun _ : String => List String)) (n : String) :
    (∀ p paths, ii.lookup n = some paths → p ∈ paths →
      ∃ paths', (nodes.foldl (addToIndex path) ii).lookup n = some paths' ∧ p ∈ paths') ∧
    (n ∈ nodes →
      ∃ paths', (nodes.foldl (addToIndex path) ii).lookup n = some paths' ∧ path ∈ paths') := by
  induction nodes generalizing ii with
  | nil => exact ⟨fun p paths h hp => ⟨paths, h, hp⟩, fun h => absurd h (by simp)⟩
  | cons node nodes ih =>
    obtain ⟨hkeep, hnew⟩ := ih (addToIndex path ii node)
    have hone := lookup_addToIndex path ii node n
    refine ⟨fun p paths h hp => ?_, fun hmem => ?_⟩
    · by_cases hn : n = node
      · subst hn
        rw [if_pos rfl, h] at hone
        exact hkeep p _ hone (List.mem_insert_of_mem hp)
      · rw [if_neg hn] at hone
        exact hkeep p paths (hone.trans h) hp
    · rcases List.mem_cons.1 hmem with rfl | hmem
      · rw [if_pos rfl] at hone
        exact hkeep path _ hone List.mem_insert_self
      · exact hnew hmem

/-- **The lists after a heartbeat.** -/
theorem validNodes_updateHeartbeat (nodes : List String) (path p : String) (c : NodeCollection) :
    (c.updateHeartbeat nodes path).validNodes.lookup p =
      if p = path then some (nodes.filter (· ∉ c.blackList)) else c.validNodes.lookup p := by
  unfold updateHeartbeat
  by_cases hp : p = path
  · subst hp
    rw [if_pos rfl]
    exact AList.lookup_insert _
  · rw [if_neg hp]
    exact AList.lookup_insert_ne hp

@[simp] theorem blackList_updateHeartbeat (nodes : List String) (path : String)
    (c : NodeCollection) : (c.updateHeartbeat nodes path).blackList = c.blackList := rfl

theorem Indexed.updateHeartbeat (h : Indexed c) {nodes : List String} (hnodup : nodes.Nodup)
    (path : String) : Indexed (c.updateHeartbeat nodes path) := by
  refine ⟨fun p l hl => ?_, fun p l hl n hn => ?_⟩
  · rw [validNodes_updateHeartbeat] at hl
    split at hl
    · rw [← Option.some.inj hl]
      exact hnodup.filter _
    · exact h.nodup p l hl
  · have hindex := lookup_foldl_addToIndex path (nodes.filter (· ∉ c.blackList)) c.nodesIindex n
    rw [validNodes_updateHeartbeat] at hl
    split at hl
    next hp =>
      rw [← Option.some.inj hl] at hn
      exact hp ▸ hindex.2 hn
    next =>
      obtain ⟨paths, hpaths, hmem⟩ := h.known p l hl n hn
      exact hindex.1 p paths hpaths hmem

/-! ## The black list -/

/-- The lists after one node was taken out at some paths. -/
theorem lookup_foldl_eraseAt {valid : AList (fun _ : String => List String)}
    (hnodup : ∀ p l, valid.lookup p = some l → l.Nodup) (node : String) (paths : List String)
    (p : String) : (paths.foldl (eraseAt node) valid).lookup p =
      (valid.lookup p).map fun l => if p ∈ paths then l.filter (· ≠ node) else l := by
  induction paths generalizing valid with
  | nil => simp
  | cons path paths ih =>
    have hone : ∀ q, (eraseAt node valid path).lookup q =
        (valid.lookup q).map fun l => if q = path then l.filter (· ≠ node) else l := by
      intro q
      unfold eraseAt
      cases hl : valid.lookup path with
      | none =>
        by_cases hq : q = path
        · subst hq
          rw [hl, Option.map_none]
        · simp [hq]
      | some l =>
        by_cases hq : q = path
        · subst hq
          rw [AList.lookup_insert, hl, Option.map_some, if_pos rfl, (hnodup q l hl).erase_eq_filter]
          exact congrArg some (List.filter_congr fun n _ => by
            by_cases hn : n = node <;> simp [hn])
        · rw [AList.lookup_insert_ne hq]
          simp [hq]
    have hnodup' : ∀ q l, (eraseAt node valid path).lookup q = some l → l.Nodup := by
      intro q l hl
      rw [hone] at hl
      obtain ⟨l', hl', rfl⟩ := Option.map_eq_some_iff.1 hl
      split
      · exact (hnodup q l' hl').filter _
      · exact hnodup q l' hl'
    rw [List.foldl_cons, ih hnodup', hone, Option.map_map]
    congr 1
    funext l
    by_cases hp : p = path
    · simp [hp, List.filter_filter]
    · simp [hp]

/-- The lists after one node of the black list was dealt with. -/
theorem Indexed.validNodes_dropNode (h : Indexed c) (node p : String) :
    (c.dropNode node).validNodes.lookup p =
      (c.validNodes.lookup p).map fun l => l.filter (· ≠ node) := by
  -- a list that the index does not know for the node does not have the node
  have hid : ∀ l, c.validNodes.lookup p = some l → node ∉ l → l.filter (· ≠ node) = l :=
    fun l _ hn => List.filter_eq_self.2 fun n hmem => by
      simpa using fun heq : n = node => hn (heq ▸ hmem)
  unfold dropNode
  cases hii : c.nodesIindex.lookup node with
  | none =>
    cases hl : c.validNodes.lookup p with
    | none => rfl
    | some l =>
      have hn : node ∉ l := fun hmem => by
        obtain ⟨paths, hpaths, -⟩ := h.known p l hl node hmem
        exact absurd (hii.symm.trans hpaths) (by simp)
      rw [Option.map_some, hid l hl hn]
  | some paths =>
    show (paths.foldl (eraseAt node) c.validNodes).lookup p = _
    rw [lookup_foldl_eraseAt h.nodup]
    cases hl : c.validNodes.lookup p with
    | none => rfl
    | some l =>
      rw [Option.map_some, Option.map_some]
      by_cases hp : p ∈ paths
      · rw [if_pos hp]
      · have hn : node ∉ l := fun hmem => by
          obtain ⟨paths', hpaths, hmem'⟩ := h.known p l hl node hmem
          exact hp (Option.some.inj (hii.symm.trans hpaths) ▸ hmem')
        rw [if_neg hp, hid l hl hn]

theorem lookup_dropNode_of_ne (c : NodeCollection) {node n : String} (hn : n ≠ node) :
    (c.dropNode node).nodesIindex.lookup n = c.nodesIindex.lookup n := by
  unfold dropNode
  cases c.nodesIindex.lookup node with
  | none => rfl
  | some paths => exact AList.lookup_erase_ne hn

@[simp] theorem blackList_dropNode (c : NodeCollection) (node : String) :
    (c.dropNode node).blackList = c.blackList := by
  unfold dropNode
  cases c.nodesIindex.lookup node <;> rfl

theorem Indexed.dropNode (h : Indexed c) (node : String) : Indexed (c.dropNode node) := by
  refine ⟨fun p l hl => ?_, fun p l hl n hn => ?_⟩
  · rw [h.validNodes_dropNode] at hl
    obtain ⟨l', hl', rfl⟩ := Option.map_eq_some_iff.1 hl
    exact (h.nodup p l' hl').filter _
  · rw [h.validNodes_dropNode] at hl
    obtain ⟨l', hl', rfl⟩ := Option.map_eq_some_iff.1 hl
    obtain ⟨hmem, hne⟩ := List.mem_filter.1 hn
    rw [lookup_dropNode_of_ne c (by simpa using hne)]
    exact h.known p l' hl' n hmem

/-- All nodes of a list are dealt with. -/
theorem Indexed.foldl_dropNode (h : Indexed c) (nodes : List String) :
    Indexed (nodes.foldl NodeCollection.dropNode c) ∧
      (nodes.foldl NodeCollection.dropNode c).blackList = c.blackList ∧
      ∀ p, (nodes.foldl NodeCollection.dropNode c).validNodes.lookup p =
        (c.validNodes.lookup p).map fun l => l.filter (· ∉ nodes) := by
  induction nodes generalizing c with
  | nil => exact ⟨h, rfl, fun p => by simp⟩
  | cons node nodes ih =>
    obtain ⟨hindexed, hblack, hvalid⟩ := ih (h.dropNode node)
    refine ⟨hindexed, hblack.trans (blackList_dropNode c node), fun p => ?_⟩
    rw [List.foldl_cons, hvalid, h.validNodes_dropNode, Option.map_map]
    congr 1
    funext l
    simp only [Function.comp, List.filter_filter]
    refine List.filter_congr fun n _ => ?_
    simp [Bool.and_comm]

theorem Indexed.updateBadNode (h : Indexed c) (blackList : List String) :
    Indexed (c.updateBadNode blackList) :=
  (Indexed.foldl_dropNode (c := { c with blackList := blackList }) ⟨h.nodup, h.known⟩
    blackList).1

theorem Indexed.blackList_updateBadNode (h : Indexed c) (blackList : List String) :
    (c.updateBadNode blackList).blackList = blackList :=
  (Indexed.foldl_dropNode (c := { c with blackList := blackList }) ⟨h.nodup, h.known⟩
    blackList).2.1

/-- **The lists under a new black list.** -/
theorem Indexed.validNodes_updateBadNode (h : Indexed c) (blackList : List String) (p : String) :
    (c.updateBadNode blackList).validNodes.lookup p =
      (c.validNodes.lookup p).map fun l => l.filter (· ∉ blackList) :=
  (Indexed.foldl_dropNode (c := { c with blackList := blackList }) ⟨h.nodup, h.known⟩
    blackList).2.2 p

/-- Bad nodes are found where the index knows them. -/
theorem Indexed.mem_findNodesBySpec (h : Indexed c) {p node : String} {nodes specList : List String}
    (hl : c.validNodes.lookup p = some nodes) (hn : node ∈ nodes) (hspec : node ∈ specList) :
    node ∈ c.findNodesBySpec specList := by
  obtain ⟨paths, hpaths, -⟩ := h.known p nodes hl node hn
  have hkey : node ∈ c.nodesIindex.keys :=
    AList.mem_keys.1 (AList.lookup_isSome.1 (by rw [hpaths]; rfl))
  exact List.mem_filter.2 ⟨hkey, by simpa using hspec⟩

/-! ## Picking a node -/

/-- Picking a node changes nothing but the round robin index. -/
theorem pickOneNode_frame (path : String) (c : NodeCollection) :
    (c.pickOneNode path).2.validNodes = c.validNodes ∧
      (c.pickOneNode path).2.nodesIindex = c.nodesIindex ∧
      (c.pickOneNode path).2.blackList = c.blackList := by
  unfold pickOneNode
  split
  · split <;> exact ⟨rfl, rfl, rfl⟩
  · exact ⟨rfl, rfl, rfl⟩

/-- **A picked node is in the list of its path.** -/
theorem pickOneNode_mem {path node : String} (h : (c.pickOneNode path).1 = some node) :
    ∃ nodes, c.validNodes.lookup path = some nodes ∧ node ∈ nodes := by
  unfold pickOneNode at h
  split at h
  next index nodes _ hl =>
    split at h
    · simp at h
    · exact ⟨nodes, hl, List.mem_of_getElem? h⟩
  next => simp at h

/-! ## The paths with a list -/

theorem mem_validNodes_iff {p : String} {m : AList (fun _ : String => List String)} :
    p ∈ m ↔ ∃ nodes, m.lookup p = some nodes := by
  rw [← AList.lookup_isSome, Option.isSome_iff_exists]

theorem mem_eraseAt {node path p : String} {valid : AList (fun _ : String => List String)} :
    p ∈ eraseAt node valid path ↔ p ∈ valid := by
  unfold eraseAt
  cases h : valid.lookup path with
  | none => exact Iff.rfl
  | some nodes =>
    have hpath : path ∈ valid := mem_validNodes_iff.2 ⟨nodes, h⟩
    simp only [AList.mem_insert]
    exact ⟨fun hp => hp.elim (fun hp => hp ▸ hpath) id, .inr⟩

theorem mem_foldl_eraseAt {node p : String} (paths : List String)
    (valid : AList (fun _ : String => List String)) :
    p ∈ paths.foldl (eraseAt node) valid ↔ p ∈ valid := by
  induction paths generalizing valid with
  | nil => exact Iff.rfl
  | cons path paths ih => exact (ih _).trans mem_eraseAt

theorem mem_validNodes_dropNode {node p : String} :
    p ∈ (c.dropNode node).validNodes ↔ p ∈ c.validNodes := by
  unfold dropNode
  cases c.nodesIindex.lookup node with
  | none => exact Iff.rfl
  | some paths => exact mem_foldl_eraseAt paths c.validNodes

/-- A new black list makes lists shorter, but takes none away. -/
theorem mem_validNodes_updateBadNode {blackList : List String} {p : String} :
    p ∈ (c.updateBadNode blackList).validNodes ↔ p ∈ c.validNodes := by
  have hfold : ∀ (nodes : List String) (c : NodeCollection),
      p ∈ (nodes.foldl dropNode c).validNodes ↔ p ∈ c.validNodes := by
    intro nodes
    induction nodes with
    | nil => exact fun _ => Iff.rfl
    | cons node nodes ih => exact fun c => (ih _).trans mem_validNodes_dropNode
  exact hfold blackList _

end Rtp.Leader.NodeCollection
