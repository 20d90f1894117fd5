import Rtp.Leader.NodeCollection
import Rtp.Lib.Reach

/-!
# Removing paths from the node collection

The two overloads of `NodeCollectionImpl::RemovePath` (`leader/node_collection_impl.cc`),
which differ only in how they choose the paths to remove, and the collection under all of
its calls.

* `strncmpEq`, `isUnder` — a path is another one or lies below it, as the source compares
  them.
* `removePath`, `removePathList` — the two overloads.
* `Paired` — the paths with a list are those with a round robin index.
* `Consistent` — the invariant: in addition the lists are indexed and hold no node of the black
  list.
* `Call`, `next` — the calls of the collection, in any order.
* `reachable_consistent` — **the collection is consistent** in every state it gets to; so a
  picked node is never on the black list, and picking fails only where there is no node.
-/

namespace Rtp.Leader.NodeCollection

/-! ## The functions -/

/-- `strncmp(a, b, n) == 0`: the comparison ends at a terminating zero. -/
def strncmpEq : ℕ → List Char → List Char → Bool
  | 0, _, _ => true
  | n + 1, a, b =>
    let x := a.headD '\x00'
    x == b.headD '\x00' && (x == '\x00' || strncmpEq n a.tail b.tail)

/-- The condition on the paths to remove: `first` is `path`, or goes on with a slash. -/
def isUnder (path first : String) : Bool :=
  strncmpEq path.length first.toList path.toList &&
    (first.length == path.length || (first.toList[path.length]?).getD '\x00' == '/')

/-- The body of the inner loop: a path is taken from the paths of a node, and the node from
the index when it has no path left.  The second component collects the nodes that have gone
from the index. -/
def unindex (remove : String) (acc : AList (fun _ : String => List String) × List String)
    (node : String) : AList (fun _ : String => List String) × List String :=
  match acc.1.lookup node with
  | none => (acc.1, acc.2 ++ [node])
  | some paths =>
    let paths := paths.filter (· ≠ remove)
    if paths.isEmpty then (acc.1.erase node, acc.2 ++ [node])
    else (acc.1.insert node paths, acc.2)

/-- The body of the outer loop: a path and its list are removed. -/
def dropPath (acc : NodeCollection × List String) (remove : String) :
    NodeCollection × List String :=
  match acc.1.validNodes.lookup remove with
  | none => acc
  | some nodes =>
    let r := nodes.foldl (unindex remove) (acc.1.nodesIindex, acc.2)
    ({ acc.1 with nodesIindex := r.1, validNodes := acc.1.validNodes.erase remove }, r.2)

/-- What both overloads do with the paths they have chosen. -/
def removeAll (removePaths : List String) (c : NodeCollection) : NodeCollection :=
  if removePaths.isEmpty then c
  else
    let indexMap := removePaths.foldl (fun m remove => m.erase remove) c.roundRobinIndexMap
    let r := removePaths.foldl dropPath ({ c with roundRobinIndexMap := indexMap }, [])
    { r.1 with blackList := r.1.blackList.filter (· ∉ r.2) }

/-- `NodeCollectionImpl::RemovePath(const std::string&)`. -/
def removePath (path : String) (c : NodeCollection) : NodeCollection :=
  c.removeAll (c.validNodes.keys.filter (isUnder path))

/-- `NodeCollectionImpl::RemovePath(const std::vector<std::string>&)`. -/
def removePathList (paths : List String) (c : NodeCollection) : NodeCollection :=
  c.removeAll (c.validNodes.keys.filter fun first => paths.any (isUnder · first))

/-! ## Paths below others -/

theorem strncmpEq_append (l r : List Char) : strncmpEq l.length (l ++ r) l = true := by
  induction l with
  | nil => rfl
  | cons c l ih => simp [strncmpEq, ih]

/-- Both overloads find the path itself and all that is below it. -/
theorem isUnder_of_sub {p q : String} (h : q = p ∨ ∃ rest, q = p ++ "/" ++ rest) :
    isUnder p q = true := by
  rcases h with rfl | ⟨rest, rfl⟩
  · have heq := strncmpEq_append q.toList []
    rw [List.append_nil, String.length_toList] at heq
    simp [isUnder, heq]
  · have heq := strncmpEq_append p.toList ('/' :: rest.toList)
    simp [isUnder, heq, ← String.length_toList]

/-! ## What is removed -/

/-- A path stays filed wherever it was. -/
def KeepsPath (p : String) (ii ii' : AList (fun _ : String => List String)) : Prop :=
  ∀ n paths, ii.lookup n = some paths → p ∈ paths →
    ∃ paths', ii'.lookup n = some paths' ∧ p ∈ paths'

section KeepsPath

variable {p : String} {ii ii₁ ii₂ : AList (fun _ : String => List String)}

theorem KeepsPath.refl (p : String) (ii : AList (fun _ : String => List String)) :
    KeepsPath p ii ii :=
  fun _ paths h hp => ⟨paths, h, hp⟩

theorem KeepsPath.trans (h : KeepsPath p ii ii₁) (h' : KeepsPath p ii₁ ii₂) :
    KeepsPath p ii ii₂ := by
  intro n paths hn hp
  obtain ⟨paths', hn', hp'⟩ := h n paths hn hp
  exact h' n paths' hn' hp'

/-- Only the removed path is taken from a node; a node that still has another path stays. -/
theorem KeepsPath.unindex {remove : String} (hne : p ≠ remove)
    (acc : AList (fun _ : String => List String) × List String) (node : String) :
    KeepsPath p acc.1 (NodeCollection.unindex remove acc node).1 := by
  intro n paths hn hp
  unfold NodeCollection.unindex
  cases hnode : acc.1.lookup node with
  | none => exact ⟨paths, hn, hp⟩
  | some paths₀ =>
    by_cases hnn : n = node
    · subst hnn
      obtain rfl := Option.some.inj (hn.symm.trans hnode)
      have hmem : p ∈ paths.filter (· ≠ remove) := List.mem_filter.2 ⟨hp, by simpa using hne⟩
      have hnil : (paths.filter (· ≠ remove)).isEmpty = false :=
        List.isEmpty_eq_false_iff.2 (List.ne_nil_of_mem hmem)
      simp only [hnil, Bool.false_eq_true, if_false]
      exact ⟨_, AList.lookup_insert _, hmem⟩
    · simp only
      split
      · exact ⟨paths, (AList.lookup_erase_ne hnn).trans hn, hp⟩
      · exact ⟨paths, (AList.lookup_insert_ne hnn).trans hn, hp⟩

theorem KeepsPath.foldl_unindex {remove : String} (hne : p ≠ remove) (nodes : List String)
    (acc : AList (fun _ : String => List String) × List String) :
    KeepsPath p acc.1 (nodes.foldl (NodeCollection.unindex remove) acc).1 := by
  induction nodes generalizing acc with
  | nil => exact .refl p acc.1
  | cons node nodes ih => exact (KeepsPath.unindex hne acc node).trans (ih _)

end KeepsPath

/-- What removing some paths does: their lists go, the other lists stay and stay filed. -/
structure Removed (removes : List String) (c c' : NodeCollection) : Prop where
  validNodes : ∀ p, c'.validNodes.lookup p =
    if p ∈ removes then none else c.validNodes.lookup p
  keeps : ∀ p, p ∉ removes → KeepsPath p c.nodesIindex c'.nodesIindex
  blackList : c'.blackList = c.blackList
  roundRobin : c'.roundRobinIndexMap = c.roundRobinIndexMap

theorem removed_dropPath (acc : NodeCollection × List String) (remove : String) :
    Removed [remove] acc.1 (dropPath acc remove).1 := by
  unfold dropPath
  cases hl : acc.1.validNodes.lookup remove with
  | none =>
    refine ⟨fun p => ?_, fun p _ => .refl p _, rfl, rfl⟩
    by_cases hp : p = remove
    · subst hp; simp [hl]
    · simp [hp]
  | some nodes =>
    refine ⟨fun p => ?_, fun p hp => ?_, rfl, rfl⟩
    · by_cases hp : p = remove
      · subst hp; simp
      · simp only [List.mem_singleton, hp, if_false]
        exact AList.lookup_erase_ne hp
    · exact KeepsPath.foldl_unindex (by simpa using hp) nodes (acc.1.nodesIindex, acc.2)

theorem removed_foldl_dropPath (removes : List String) (acc : NodeCollection × List String) :
    Removed removes acc.1 (removes.foldl dropPath acc).1 := by
  induction removes generalizing acc with
  | nil => exact ⟨fun p => by simp, fun p _ => .refl p _, rfl, rfl⟩
  | cons remove removes ih =>
    have h₁ := removed_dropPath acc remove
    have h₂ := ih (dropPath acc remove)
    refine ⟨fun p => ?_, fun p hp => ?_, h₂.blackList.trans h₁.blackList,
      h₂.roundRobin.trans h₁.roundRobin⟩
    · rw [List.foldl_cons, h₂.validNodes, h₁.validNodes]
      by_cases hp : p = remove
      · simp [hp]
      · simp [hp]
    · rw [List.mem_cons, not_or] at hp
      exact (h₁.keeps p (by simpa using hp.1)).trans (h₂.keeps p hp.2)

/-- The lists that are left. -/
theorem validNodes_removeAll (removes : List String) (c : NodeCollection) (p : String) :
    (c.removeAll removes).validNodes.lookup p =
      if p ∈ removes then none else c.validNodes.lookup p := by
  unfold removeAll
  cases removes with
  | nil => simp
  | cons remove removes => exact (removed_foldl_dropPath _ _).validNodes p

/-- The paths that are not removed stay filed. -/
theorem keepsPath_removeAll {removes : List String} {c : NodeCollection} {p : String}
    (hp : p ∉ removes) : KeepsPath p c.nodesIindex (c.removeAll removes).nodesIindex := by
  unfold removeAll
  cases removes with
  | nil => exact .refl p c.nodesIindex
  | cons remove removes =>
    have hr := removed_foldl_dropPath (remove :: removes) ({ c with roundRobinIndexMap :=
      ((remove :: removes).foldl (fun m remove => m.erase remove) c.roundRobinIndexMap) }, [])
    exact hr.keeps p hp

theorem mem_of_mem_blackList_removeAll {removes : List String} {c : NodeCollection} {n : String}
    (hn : n ∈ (c.removeAll removes).blackList) : n ∈ c.blackList := by
  unfold removeAll at hn
  cases removes with
  | nil => exact hn
  | cons remove removes =>
    have hmem := List.mem_of_mem_filter hn
    rwa [(removed_foldl_dropPath _ _).blackList] at hmem

theorem mem_foldl_erase (removes : List String) (m : AList (fun _ : String => ℕ)) (p : String) :
    p ∈ removes.foldl (fun m remove => m.erase remove) m ↔ p ∈ m ∧ p ∉ removes := by
  induction removes generalizing m with
  | nil => simp
  | cons remove removes ih =>
    rw [List.foldl_cons, ih, AList.mem_erase, List.mem_cons, not_or]
    tauto

/-! ## The invariant -/

/-- There is a list for just the paths that have a round robin index. -/
def Paired (c : NodeCollection) : Prop := ∀ p, p ∈ c.validNodes ↔ p ∈ c.roundRobinIndexMap

section Paired

variable {c : NodeCollection}

theorem Paired.updateHeartbeat (h : Paired c) (nodes : List String) (path : String) :
    Paired (c.updateHeartbeat nodes path) := by
  intro p
  simp only [NodeCollection.updateHeartbeat, AList.mem_insert]
  by_cases hmem : path ∈ c.roundRobinIndexMap
  · rw [if_pos hmem, h p]
    exact ⟨fun hp => hp.elim (fun hp => hp ▸ hmem) id, .inr⟩
  · rw [if_neg hmem, AList.mem_insert, h p]

theorem roundRobinIndexMap_dropNode (c : NodeCollection) (node : String) :
    (c.dropNode node).roundRobinIndexMap = c.roundRobinIndexMap := by
  unfold NodeCollection.dropNode
  cases c.nodesIindex.lookup node <;> rfl

theorem roundRobinIndexMap_updateBadNode (blackList : List String) (c : NodeCollection) :
    (c.updateBadNode blackList).roundRobinIndexMap = c.roundRobinIndexMap := by
  have hfold : ∀ (nodes : List String) (c : NodeCollection),
      (nodes.foldl NodeCollection.dropNode c).roundRobinIndexMap = c.roundRobinIndexMap := by
    intro nodes
    induction nodes with
    | nil => exact fun _ => rfl
    | cons node nodes ih =>
      exact fun c => (ih _).trans (roundRobinIndexMap_dropNode c node)
  exact hfold blackList _

theorem Paired.updateBadNode (h : Paired c) (blackList : List String) :
    Paired (c.updateBadNode blackList) := by
  intro p
  rw [roundRobinIndexMap_updateBadNode, ← h p, mem_validNodes_updateBadNode]

/-- A path that loses its list loses its round robin index. -/
theorem mem_roundRobinIndexMap_removeAll (removes : List String) (c : NodeCollection)
    (p : String) : p ∈ (c.removeAll removes).roundRobinIndexMap ↔
      p ∈ c.roundRobinIndexMap ∧ p ∉ removes := by
  unfold NodeCollection.removeAll
  cases removes with
  | nil => simp
  | cons remove removes =>
    rw [← mem_foldl_erase]
    exact iff_of_eq (congrArg (p ∈ ·) (removed_foldl_dropPath _ _).roundRobin)

theorem Paired.removeAll (h : Paired c) (removes : List String) :
    Paired (c.removeAll removes) := by
  intro p
  rw [mem_roundRobinIndexMap_removeAll, ← h p, mem_validNodes_iff, mem_validNodes_iff,
    validNodes_removeAll]
  by_cases hp : p ∈ removes
  · simp [hp]
  · simp [hp]

theorem Paired.pickOneNode (h : Paired c) (path : String) : Paired (c.pickOneNode path).2 := by
  intro p
  rw [(pickOneNode_frame path c).1, h p]
  unfold NodeCollection.pickOneNode
  split
  next index nodes hrr _ =>
    split
    · exact Iff.rfl
    · have hmem : path ∈ c.roundRobinIndexMap := AList.lookup_isSome.1 (by rw [hrr]; rfl)
      simp only [AList.mem_insert]
      exact ⟨.inr, fun hp => hp.elim (fun hp => hp ▸ hmem) id⟩
  · exact Iff.rfl

end Paired

/-- The lists are indexed and hold no node of the black list, and there is a list for just
the paths that have a round robin index. -/
structure Consistent (c : NodeCollection) : Prop extends Indexed c where
  clean : ∀ p nodes, c.validNodes.lookup p = some nodes → ∀ node ∈ nodes, node ∉ c.blackList
  paths : ∀ p, p ∈ c.validNodes ↔ p ∈ c.roundRobinIndexMap

theorem consistent_empty : Consistent empty :=
  ⟨indexed_empty, fun p nodes h => absurd h (by simp [empty]), fun _ => Iff.rfl⟩

section Consistent

variable {c : NodeCollection}

theorem Consistent.updateHeartbeat (h : Consistent c) {nodes : List String}
    (hnodup : nodes.Nodup) (path : String) : Consistent (c.updateHeartbeat nodes path) := by
  refine ⟨h.toIndexed.updateHeartbeat hnodup path, fun p l hl n hn => ?_,
    Paired.updateHeartbeat h.paths nodes path⟩
  rw [validNodes_updateHeartbeat] at hl
  rw [blackList_updateHeartbeat]
  split at hl
  · rw [← Option.some.inj hl] at hn
    simpa using (List.mem_filter.1 hn).2
  · exact h.clean p l hl n hn

theorem Consistent.updateBadNode (h : Consistent c) (blackList : List String) :
    Consistent (c.updateBadNode blackList) := by
  refine ⟨h.toIndexed.updateBadNode blackList, fun p l hl n hn => ?_,
    Paired.updateBadNode h.paths blackList⟩
  rw [h.toIndexed.validNodes_updateBadNode] at hl
  obtain ⟨l', -, rfl⟩ := Option.map_eq_some_iff.1 hl
  rw [h.toIndexed.blackList_updateBadNode]
  simpa using (List.mem_filter.1 hn).2

theorem Consistent.removeAll (h : Consistent c) (removes : List String) :
    Consistent (c.removeAll removes) := by
  have hpaths : Paired (c.removeAll removes) := Paired.removeAll h.paths removes
  -- a list that is left was there before
  have hold : ∀ p l, (c.removeAll removes).validNodes.lookup p = some l →
      p ∉ removes ∧ c.validNodes.lookup p = some l := by
    intro p l hl
    rw [validNodes_removeAll] at hl
    split at hl
    · simp at hl
    next hp => exact ⟨hp, hl⟩
  refine ⟨⟨fun p l hl => h.nodup p l (hold p l hl).2, fun p l hl n hn => ?_⟩,
    fun p l hl n hn hblack => ?_, hpaths⟩
  · obtain ⟨paths, hpaths, hmem⟩ := h.known p l (hold p l hl).2 n hn
    exact keepsPath_removeAll (hold p l hl).1 n paths hpaths hmem
  · exact h.clean p l (hold p l hl).2 n hn (mem_of_mem_blackList_removeAll hblack)

theorem Consistent.pickOneNode (h : Consistent c) (path : String) :
    Consistent (c.pickOneNode path).2 := by
  obtain ⟨hvalid, hindex, hblack⟩ := pickOneNode_frame path c
  refine ⟨⟨fun p l => ?_, fun p l => ?_⟩, fun p l => ?_, Paired.pickOneNode h.paths path⟩
  · rw [hvalid]; exact h.nodup p l
  · rw [hvalid, hindex]; exact h.known p l
  · rw [hvalid, hblack]; exact h.clean p l

/-- Picking fails where there is no list, or an empty one. -/
theorem Consistent.pickOneNode_eq_none_iff (h : Consistent c) (p : String) :
    (c.pickOneNode p).1 = none ↔ p ∉ c.validNodes ∨ c.validNodes.lookup p = some [] := by
  unfold NodeCollection.pickOneNode
  cases hl : c.validNodes.lookup p with
  | none =>
    have hp : p ∉ c.validNodes := fun hp => by
      obtain ⟨nodes, hn⟩ := mem_validNodes_iff.1 hp
      exact absurd (hl.symm.trans hn) (by simp)
    cases c.roundRobinIndexMap.lookup p <;> simp [hp]
  | some nodes =>
    have hp : p ∈ c.validNodes := mem_validNodes_iff.2 ⟨nodes, hl⟩
    obtain ⟨index, hindex⟩ := Option.isSome_iff_exists.1
      (AList.lookup_isSome.2 ((h.paths p).1 hp))
    cases nodes with
    | nil => simp [hindex]
    | cons node nodes =>
      -- the index stays below the number of nodes
      have hlt : (index + 1) % (node :: nodes).length < (node :: nodes).length :=
        Nat.mod_lt _ (by simp)
      simp only [hindex, List.isEmpty_cons, Bool.false_eq_true, if_false,
        List.getElem?_eq_getElem hlt]
      simp [hp]

end Consistent

/-! ## Every state -/

/-- The calls of a collection. -/
inductive Call where
  | updateHeartbeat (nodes : List String) (path : String)
  | updateBadNode (blackList : List String)
  | removePath (path : String)
  | removePathList (paths : List String)
  | pickOneNode (path : String)
  deriving DecidableEq, Repr

/-- The collection after a call. -/
def next : Call → NodeCollection → Option NodeCollection
  | .updateHeartbeat nodes path, c => some (c.updateHeartbeat nodes path)
  | .updateBadNode blackList, c => some (c.updateBadNode blackList)
  | .removePath path, c => some (c.removePath path)
  | .removePathList paths, c => some (c.removePathList paths)
  | .pickOneNode path, c => some (c.pickOneNode path).2

/-- The collection after a call. -/
def after (call : Call) (c : NodeCollection) : NodeCollection := (next call c).getD c

theorem next_eq_after (call : Call) (c : NodeCollection) : next call c = some (after call c) := by
  cases call <;> rfl

theorem eq_after {call : Call} {c c' : NodeCollection} (hnext : next call c = some c') :
    c' = after call c :=
  Option.some.inj (hnext.symm.trans (next_eq_after call c))

/-- Heartbeats come without duplicates. -/
def Distinct (_ : NodeCollection) : Call → Prop
  | .updateHeartbeat nodes _ => nodes.Nodup
  | _ => True

instance (c : NodeCollection) : (call : Call) → Decidable (Distinct c call)
  | .updateHeartbeat nodes _ => inferInstanceAs (Decidable nodes.Nodup)
  | .updateBadNode _ | .removePath _ | .removePathList _ | .pickOneNode _ => isTrue trivial

/-- Every call keeps the collection consistent. -/
theorem Consistent.next {c c' : NodeCollection} {call : Call} (h : Consistent c)
    (hcall : Distinct c call) (hnext : next call c = some c') : Consistent c' := by
  rw [eq_after hnext]
  cases call with
  | updateHeartbeat nodes path => exact h.updateHeartbeat hcall path
  | updateBadNode blackList => exact h.updateBadNode blackList
  | removePath path | removePathList paths => exact h.removeAll _
  | pickOneNode path => exact h.pickOneNode path

/-- **The collection is consistent in every state it gets to**: no node of a list is on the
black list, every node of a list has the path of the list in the index, and the paths with
a list are those with a round robin index.  So a picked node is never on the black list,
and picking fails exactly where the path is unknown or its list is empty. -/
theorem reachable_consistent {c : NodeCollection} (h : Reach next Distinct empty c) :
    (∀ p nodes, c.validNodes.lookup p = some nodes → ∀ node ∈ nodes,
      node ∉ c.blackList ∧ ∃ paths, c.nodesIindex.lookup node = some paths ∧ p ∈ paths) ∧
    (∀ p, p ∈ c.validNodes ↔ p ∈ c.roundRobinIndexMap) ∧
    ∀ p, (∀ node, (c.pickOneNode p).1 = some node → node ∉ c.blackList) ∧
      ((c.pickOneNode p).1 = none ↔ p ∉ c.validNodes ∨ c.validNodes.lookup p = some []) := by
  have hc : Consistent c := h.invariant consistent_empty fun _ _ _ hc hcall hnext =>
    hc.next hcall hnext
  refine ⟨fun p nodes hl node hn => ⟨hc.clean p nodes hl node hn, hc.known p nodes hl node hn⟩,
    hc.paths, fun p => ⟨fun node hnode => ?_, hc.pickOneNode_eq_none_iff p⟩⟩
  obtain ⟨nodes, hl, hn⟩ := pickOneNode_mem hnode
  exact hc.clean p nodes hl node hn

/-- After `x` was blacklisted and the paths under `/c` were removed, `/a/b` still has the
node `y`. -/
theorem reachable_consistent_removed : ∃ c, Reach next Distinct empty c ∧
    (c.pickOneNode "/a/b").1 = some "y" ∧ "x" ∈ c.blackList ∧ "/c/d" ∉ c.validNodes ∧
    ∀ p node, (c.pickOneNode p).1 = some node → node ∉ c.blackList := by
  obtain ⟨c, hc, hpick⟩ := exists_reach_of_follow next Distinct
    [.updateHeartbeat ["x", "y"] "/a/b", .updateHeartbeat ["y", "z"] "/c/d",
      .updateBadNode ["x", "w"], .removePath "/c"] empty
    (fun c => decide ((c.pickOneNode "/a/b").1 = some "y" ∧ "x" ∈ c.blackList ∧
      "/c/d" ∉ c.validNodes)) (by decide +kernel)
  obtain ⟨hy, hx, hd⟩ := of_decide_eq_true hpick
  exact ⟨c, hc, hy, hx, hd, fun p node => ((reachable_consistent hc).2.2 p).1 node⟩

end Rtp.Leader.NodeCollection
