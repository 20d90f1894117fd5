import Rtp.Leader.BatchRemoval

/-!
# The inverse index of the node collection

`NodeCollectionImpl` (`leader/node_collection_impl.cc`) files every node of a list under the path
of the list, and `FindNodesBySpec` answers from that index alone.  A node that is put on the
black list and a path that is removed are taken from the index; a node that is no longer in the
next heartbeat of its path is not.

* `Filed` — the index has a path for a node.
* `filed_foldl_addToIndex_iff`, `filed_updateBadNode_iff`, `Takes.filed_iff` — what each call does
  to the index, exactly.
* `Exact` — the index has just the nodes of the lists; `Exact.mem_findNodesBySpec_iff` — then so
  has the answer to a search.
* `Complete` — a heartbeat has all nodes that are in the list of its path.
* `index_exact_iff` — **when the index is exact**: as long as every heartbeat is complete, and
  after no call that is not.
* `stale_node_found` — a node that is in no list, and is found.
-/

namespace Rtp.Leader.NodeCollection

/-- The index has a path for a node. -/
def Filed (ii : AList (fun _ : String => List String)) (n p : String) : Prop :=
  ∃ paths, ii.lookup n = some paths ∧ p ∈ paths

/-- The index has just the nodes of the lists. -/
def Exact (c : NodeCollection) : Prop :=
  ∀ p n, Filed c.nodesIindex n p ↔ ∃ nodes, c.validNodes.lookup p = some nodes ∧ n ∈ nodes

variable {c : NodeCollection} {call : Call}

theorem Exact.filed_iff (h : Exact c) {p n : String} :
    Filed c.nodesIindex n p ↔ c.listed p n = true :=
  (h p n).trans listed_iff.symm

theorem exact_empty : Exact empty := by
  intro p n
  simp [Filed, empty]

/-! ## What the calls do to the index -/

theorem filed_addToIndex_iff (path : String) (ii : AList (fun _ : String => List String))
    (node n p : String) :
    Filed (addToIndex path ii node) n p ↔ Filed ii n p ∨ n = node ∧ p = path := by
  unfold Filed
  rw [lookup_addToIndex]
  by_cases hn : n = node
  · subst hn
    cases ii.lookup n with
    | none => simp
    | some paths => simp [List.mem_insert_iff, or_comm]
  · simp [hn]

/-- A heartbeat files the nodes of its list, and takes nothing away. -/
theorem filed_foldl_addToIndex_iff (path : String) (nodes : List String)
    (ii : AList (fun _ : String => List String)) (n p : String) :
    Filed (nodes.foldl (addToIndex path) ii) n p ↔ Filed ii n p ∨ n ∈ nodes ∧ p = path := by
  induction nodes generalizing ii with
  | nil => simp
  | cons node nodes ih =>
    rw [List.foldl_cons, ih, filed_addToIndex_iff, List.mem_cons]
    tauto

theorem lookup_dropNode_self (c : NodeCollection) (node : String) :
    (c.dropNode node).nodesIindex.lookup node = none := by
  unfold dropNode
  cases h : c.nodesIindex.lookup node with
  | none => exact h
  | some paths => exact AList.lookup_erase node c.nodesIindex

theorem lookup_foldl_dropNode (nodes : List String) (c : NodeCollection) (n : String) :
    (nodes.foldl dropNode c).nodesIindex.lookup n =
      if n ∈ nodes then none else c.nodesIindex.lookup n := by
  induction nodes generalizing c with
  | nil => rfl
  | cons node nodes ih =>
    rw [List.foldl_cons, ih]
    by_cases hn : n = node
    · rw [hn, lookup_dropNode_self]
      simp
    · rw [lookup_dropNode_of_ne c hn]
      simp [hn]

/-- A new black list takes its nodes from the index. -/
theorem filed_updateBadNode_iff (blackList : List String) (c : NodeCollection) (n p : String) :
    Filed (c.updateBadNode blackList).nodesIindex n p ↔
      Filed c.nodesIindex n p ∧ n ∉ blackList := by
  unfold Filed updateBadNode
  rw [lookup_foldl_dropNode]
  by_cases hn : n ∈ blackList
  · simp [hn]
  · simp [hn]

/-- A removed path is taken from the nodes of its list. -/
theorem Takes.filed_iff {P : String → Bool} {c c' : NodeCollection} (h : Takes P c c')
    (n p : String) : Filed c'.nodesIindex n p ↔
      Filed c.nodesIindex n p ∧ ¬ (P p = true ∧ c.listed p n = true) := by
  unfold Filed
  rw [h.nodesIindex, mem_strip_iff, Bool.and_eq_false_imp]
  simp

/-! ## Exactness -/

theorem Exact.takes {P : String → Bool} {c c' : NodeCollection} (h : Exact c)
    (htakes : Takes P c c') : Exact c' := by
  intro p n
  rw [← listed_iff, htakes.filed_iff, h.filed_iff, htakes.listed, Bool.and_eq_true,
    Bool.not_eq_true']
  constructor
  · rintro ⟨hlisted, hkept⟩
    exact ⟨by simpa [hlisted] using hkept, hlisted⟩
  · rintro ⟨hP, hlisted⟩
    exact ⟨hlisted, by simp [hP]⟩

theorem Exact.updateBadNode (h : Exact c) (hindexed : Indexed c) (blackList : List String) :
    Exact (c.updateBadNode blackList) := by
  intro p n
  rw [filed_updateBadNode_iff, h p n, hindexed.validNodes_updateBadNode]
  constructor
  · rintro ⟨⟨nodes, hnodes, hn⟩, hgood⟩
    rw [hnodes]
    exact ⟨_, rfl, List.mem_filter.mpr ⟨hn, by simpa using hgood⟩⟩
  · rintro ⟨nodes, hnodes, hn⟩
    obtain ⟨nodes', hnodes', rfl⟩ := Option.map_eq_some_iff.mp hnodes
    obtain ⟨hn, hgood⟩ := List.mem_filter.mp hn
    exact ⟨⟨nodes', hnodes', hn⟩, by simpa using hgood⟩

/-- A heartbeat keeps the index exact just when it has all nodes of the list it replaces. -/
theorem Exact.updateHeartbeat_iff (h : Exact c) (hclean : Consistent c) (nodes : List String)
    (path : String) : Exact (c.updateHeartbeat nodes path) ↔
      ∀ n ∈ (c.validNodes.lookup path).getD [], n ∈ nodes := by
  have hold : ∀ n, n ∈ (c.validNodes.lookup path).getD [] ↔
      ∃ l, c.validNodes.lookup path = some l ∧ n ∈ l := by
    intro n
    cases c.validNodes.lookup path with
    | none => simp
    | some l => simp
  have hfiled : ∀ p n, Filed (c.updateHeartbeat nodes path).nodesIindex n p ↔
      (∃ l, c.validNodes.lookup p = some l ∧ n ∈ l) ∨
        n ∈ nodes.filter (· ∉ c.blackList) ∧ p = path := by
    intro p n
    rw [← h p n]
    exact filed_foldl_addToIndex_iff path _ c.nodesIindex n p
  constructor
  · intro hexact n hn
    -- the node stays filed, so it must be in the new list
    obtain ⟨l', hl', hn'⟩ := (hexact path n).mp ((hfiled path n).mpr (.inl ((hold n).mp hn)))
    rw [validNodes_updateHeartbeat, if_pos rfl] at hl'
    rw [← Option.some.inj hl'] at hn'
    exact List.mem_of_mem_filter hn'
  · intro hall p n
    rw [hfiled, validNodes_updateHeartbeat]
    by_cases hp : p = path
    · subst hp
      rw [if_pos rfl]
      constructor
      · rintro (⟨l, hl, hn⟩ | ⟨hn, -⟩)
        · have hgood := hclean.clean p l hl n hn
          have hnew := hall n ((hold n).mpr ⟨l, hl, hn⟩)
          exact ⟨_, rfl, List.mem_filter.mpr ⟨hnew, by simpa using hgood⟩⟩
        · exact ⟨_, rfl, hn⟩
      · rintro ⟨l, hl, hn⟩
        rw [← Option.some.inj hl] at hn
        exact .inr ⟨hn, rfl⟩
    · simp [hp]

/-- An exact index without empty entries answers exactly. -/
theorem Exact.mem_findNodesBySpec_iff (h : Exact c) (hfilled : Filled c.nodesIindex)
    (specList : List String) (n : String) :
    n ∈ c.findNodesBySpec specList ↔
      n ∈ specList ∧ ∃ p nodes, c.validNodes.lookup p = some nodes ∧ n ∈ nodes := by
  have hkey : n ∈ c.nodesIindex.keys ↔ ∃ p, Filed c.nodesIindex n p := by
    rw [← AList.mem_keys, mem_validNodes_iff]
    constructor
    · rintro ⟨paths, hpaths⟩
      have hne : paths ≠ [] := by
        rintro rfl
        exact hfilled n hpaths
      obtain ⟨p, hp⟩ := List.exists_mem_of_ne_nil paths hne
      exact ⟨p, paths, hpaths, hp⟩
    · rintro ⟨p, paths, hpaths, -⟩
      exact ⟨paths, hpaths⟩
  rw [findNodesBySpec, List.mem_filter, hkey, decide_eq_true_iff, and_comm]
  exact and_congr_right fun _ => exists_congr fun p => h p n

/-! ## Every run -/

/-- A heartbeat comes without duplicates and has all nodes that are in the list of its path. -/
def Complete (c : NodeCollection) : Call → Prop
  | .updateHeartbeat nodes path =>
    nodes.Nodup ∧ ∀ n ∈ (c.validNodes.lookup path).getD [], n ∈ nodes
  | _ => True

instance (c : NodeCollection) : (call : Call) → Decidable (Complete c call)
  | .updateHeartbeat _ _ => inferInstanceAs (Decidable (_ ∧ _))
  | .updateBadNode _ | .removePath _ | .removePathList _ | .pickOneNode _ => isTrue trivial

theorem Complete.distinct (h : Complete c call) : Distinct c call := by
  cases call with
  | updateHeartbeat nodes path => exact h.1
  | updateBadNode blackList => trivial
  | removePath path => trivial
  | removePathList paths => trivial
  | pickOneNode path => trivial

/-- What one call preserves: an exact index stays exact just under a complete call. -/
theorem Exact.next_iff {c c' : NodeCollection} (h : Exact c) (hc : Consistent c)
    (hfilled : Filled c.nodesIindex) (hdistinct : Distinct c call) (hnext : next call c = some c') :
    Exact c' ↔ Complete c call := by
  rw [eq_after hnext]
  cases call with
  | updateHeartbeat nodes path =>
    exact (h.updateHeartbeat_iff hc nodes path).trans (and_iff_right hdistinct).symm
  | updateBadNode blackList =>
    exact iff_of_true (h.updateBadNode hc.toIndexed blackList) trivial
  | removePath path =>
    exact iff_of_true (h.takes (removes_removePath hfilled path).toTakes) trivial
  | removePathList paths =>
    exact iff_of_true (h.takes (removes_removePathList hfilled paths).toTakes) trivial
  | pickOneNode path =>
    show Exact (c.pickOneNode path).2 ↔ _
    obtain ⟨hvalid, hindex, -⟩ := pickOneNode_frame path c
    refine iff_of_true (fun p n => ?_) trivial
    rw [hvalid, hindex]
    exact h p n

theorem exact_of_reach (hc : Reach next Complete empty c) :
    Exact c ∧ Consistent c ∧ Filled c.nodesIindex := by
  refine hc.invariant (I := fun c => Exact c ∧ Consistent c ∧ Filled c.nodesIindex)
    ⟨exact_empty, consistent_empty, filled_empty⟩ ?_
  rintro c call c' ⟨hexact, hconsistent, hfilled⟩ hcomplete hnext
  exact ⟨(hexact.next_iff hconsistent hfilled hcomplete.distinct hnext).mpr hcomplete,
    hconsistent.next hcomplete.distinct hnext, hfilled.next hnext⟩

/-- **When the index is exact.**  In every state that complete calls lead to, a path is in the
index set of a node just if the node is in the list of the path, and a search returns just the
nodes of the lists; and of the calls that may follow, those after which the index is exact are
the complete ones. -/
theorem index_exact_iff {c : NodeCollection} (hc : Reach next Complete empty c) :
    (∀ p n, (∃ paths, c.nodesIindex.lookup n = some paths ∧ p ∈ paths) ↔
      ∃ nodes, c.validNodes.lookup p = some nodes ∧ n ∈ nodes) ∧
    (∀ specList n, n ∈ c.findNodesBySpec specList ↔
      n ∈ specList ∧ ∃ p nodes, c.validNodes.lookup p = some nodes ∧ n ∈ nodes) ∧
    ∀ call c', Distinct c call → next call c = some c' → (Exact c' ↔ Complete c call) := by
  obtain ⟨hexact, hconsistent, hfilled⟩ := exact_of_reach hc
  refine ⟨hexact, hexact.mem_findNodesBySpec_iff hfilled, ?_⟩
  intro call c' hdistinct hnext
  exact hexact.next_iff hconsistent hfilled hdistinct hnext

/-- A node joins a list, another one is put on the black list, and a path is removed. -/
theorem index_exact_iff_run : ∃ c, Reach next Complete empty c ∧
    c.nodesIindex.lookup "y" = some ["/a"] ∧
    ∀ specList n, n ∈ c.findNodesBySpec specList ↔
      n ∈ specList ∧ ∃ p nodes, c.validNodes.lookup p = some nodes ∧ n ∈ nodes := by
  obtain ⟨c, hc, hseen⟩ := exists_reach_of_follow next Complete
    [.updateHeartbeat ["x"] "/a", .updateHeartbeat ["x", "y"] "/a", .updateHeartbeat ["y"] "/b",
      .updateBadNode ["x"], .removePath "/b"] empty
    (fun c => decide (c.nodesIindex.lookup "y" = some ["/a"])) (by decide +kernel)
  exact ⟨c, hc, of_decide_eq_true hseen, (index_exact_iff hc).2.1⟩

/-- **A node that has left is still found.**  The second heartbeat of the path has `x` no
longer; the index still has the path for it, and a search returns it, although no list does. -/
theorem stale_node_found : ∃ c, Reach next Distinct empty c ∧
    c.nodesIindex.lookup "x" = some ["/a"] ∧ c.validNodes.lookup "/a" = some ["y"] ∧
    "x" ∈ c.findNodesBySpec ["x"] ∧
    ¬ ∃ p nodes, c.validNodes.lookup p = some nodes ∧ "x" ∈ nodes := by
  obtain ⟨c, hc, hseen⟩ := exists_reach_of_follow next Distinct
    [.updateHeartbeat ["x", "y"] "/a", .updateHeartbeat ["y"] "/a"] empty
    (fun c => decide (c.nodesIindex.lookup "x" = some ["/a"] ∧
      c.validNodes.lookup "/a" = some ["y"] ∧ "x" ∈ c.findNodesBySpec ["x"] ∧
      c.validNodes.keys = ["/a"])) (by decide +kernel)
  obtain ⟨hindex, hlist, hfound, hkeys⟩ := of_decide_eq_true hseen
  refine ⟨c, hc, hindex, hlist, hfound, ?_⟩
  rintro ⟨p, nodes, hnodes, hx⟩
  have hp : p ∈ c.validNodes.keys := AList.mem_keys.mp (mem_validNodes_iff.mpr ⟨nodes, hnodes⟩)
  rw [hkeys, List.mem_singleton] at hp
  rw [hp, hlist] at hnodes
  rw [← Option.some.inj hnodes] at hx
  exact absurd hx (by decide)

end Rtp.Leader.NodeCollection
