import Mathlib.Data.List.Rotate
import Rtp.Leader.BatchRemoval

/-!
# Picking nodes in turn

`NodeCollectionImpl::PickOneNode` (`leader/node_collection_impl.cc`) moves the round robin index
of a path on by one, modulo the number of nodes that are in the list now, and returns the node
there.  The index is kept apart from the list: it may be beyond the end of a list that has become
shorter in the meantime.

* `pickOneNode_eq` — one pick.
* `lookup_roundRobin_after` — no other call touches the index of a path that keeps its list.
* `picks`, `Unchanged` — what `PickOneNode` returns for a path in a list of calls, and that the
  list of the path is the same all the time.
* `picks_eq_map_range` — the nodes are returned in turn, from wherever the index stands.
* `pickOneNode_fair` — **as many picks as there are nodes return every node once**, and the index
  in use is always below the length of the list.
-/

namespace Rtp.Leader.NodeCollection

variable {c : NodeCollection} {path : String} {nodes : List String}

theorem paired_empty : Paired empty := fun _ => Iff.rfl

theorem Paired.next {c' : NodeCollection} {call : Call} (h : Paired c)
    (hnext : next call c = some c') : Paired c' := by
  rw [eq_after hnext]
  cases call with
  | updateHeartbeat nodes path => exact h.updateHeartbeat nodes path
  | updateBadNode blackList => exact h.updateBadNode blackList
  | removePath path | removePathList paths => exact h.removeAll _
  | pickOneNode path => exact h.pickOneNode path

/-- A path with a list has an index. -/
theorem Paired.exists_index (h : Paired c) (hl : c.validNodes.lookup path = some nodes) :
    ∃ index, c.roundRobinIndexMap.lookup path = some index := by
  have hmem : path ∈ c.roundRobinIndexMap := (h path).mp (mem_validNodes_iff.mpr ⟨nodes, hl⟩)
  exact Option.isSome_iff_exists.mp (AList.lookup_isSome.mpr hmem)

/-- **One pick**: the index moves on by one, modulo the length of the list. -/
theorem pickOneNode_eq {index : ℕ} (hindex : c.roundRobinIndexMap.lookup path = some index)
    (hl : c.validNodes.lookup path = some nodes) (hne : nodes ≠ []) :
    c.pickOneNode path = (nodes[(index + 1) % nodes.length]?, { c with
      roundRobinIndexMap := c.roundRobinIndexMap.insert path ((index + 1) % nodes.length) }) := by
  unfold pickOneNode
  rw [hindex, hl]
  simp [hne]

/-! ## Calls in between -/

theorem lookup_roundRobin_removes {P : String → Bool} {c' : NodeCollection}
    (h : Removes P c c') (hl : c'.validNodes.lookup path = some nodes) :
    c'.roundRobinIndexMap.lookup path = c.roundRobinIndexMap.lookup path := by
  rw [h.roundRobin, if_neg]
  rintro ⟨hP, -⟩
  rw [h.validNodes, if_pos hP] at hl
  exact absurd hl nofun

/-- No other call touches the index of a path that has a list before and after it. -/
theorem lookup_roundRobin_after {call : Call} {nodes' : List String} (hpaired : Paired c)
    (hfilled : Filled c.nodesIindex) (hl : c.validNodes.lookup path = some nodes)
    (hl' : (after call c).validNodes.lookup path = some nodes')
    (hother : call ≠ .pickOneNode path) :
    (after call c).roundRobinIndexMap.lookup path = c.roundRobinIndexMap.lookup path := by
  cases call with
  | updateHeartbeat nodes₁ path₁ =>
    show (c.updateHeartbeat nodes₁ path₁).roundRobinIndexMap.lookup path = _
    unfold updateHeartbeat
    by_cases hmem : path₁ ∈ c.roundRobinIndexMap
    · simp only [if_pos hmem]
    · simp only [if_neg hmem]
      apply AList.lookup_insert_ne
      rintro rfl
      exact hmem ((hpaired path).mp (mem_validNodes_iff.mpr ⟨nodes, hl⟩))
  | updateBadNode blackList =>
    exact congrArg _ (roundRobinIndexMap_updateBadNode blackList c)
  | removePath path₁ => exact lookup_roundRobin_removes (removes_removePath hfilled path₁) hl'
  | removePathList paths =>
    exact lookup_roundRobin_removes (removes_removePathList hfilled paths) hl'
  | pickOneNode path₁ =>
    have hne : path ≠ path₁ := fun heq => hother (heq ▸ rfl)
    show (c.pickOneNode path₁).2.roundRobinIndexMap.lookup path = _
    unfold pickOneNode
    split
    · split
      · rfl
      · exact AList.lookup_insert_ne hne
    · rfl

/-- What `PickOneNode` returns for a path, in a list of calls. -/
def picks (path : String) : List Call → NodeCollection → List (Option String)
  | [], _ => []
  | call :: calls, c =>
    if call = .pickOneNode path then (c.pickOneNode path).1 :: picks path calls (after call c)
    else picks path calls (after call c)

/-- The list of the path is the same before and after every call. -/
def Unchanged (path : String) (nodes : List String) : List Call → NodeCollection → Prop
  | [], c => c.validNodes.lookup path = some nodes
  | call :: calls, c =>
    c.validNodes.lookup path = some nodes ∧ Unchanged path nodes calls (after call c)

theorem Unchanged.lookup {calls : List Call} (h : Unchanged path nodes calls c) :
    c.validNodes.lookup path = some nodes := by
  cases calls with
  | nil => exact h
  | cons call calls => exact h.1

/-! ## Picks in turn -/

/-- **The nodes are returned in turn**, starting after the index. -/
theorem picks_eq_map_range (hne : nodes ≠ []) {calls : List Call} {index : ℕ}
    (hpaired : Paired c) (hfilled : Filled c.nodesIindex)
    (hindex : c.roundRobinIndexMap.lookup path = some index)
    (hsame : Unchanged path nodes calls c) :
    picks path calls c = (List.range (calls.count (.pickOneNode path))).map fun k =>
      nodes[(index + 1 + k) % nodes.length]? := by
  induction calls generalizing c index with
  | nil => rfl
  | cons call calls ih =>
    obtain ⟨hl, hrest⟩ := hsame
    have hpaired' := hpaired.next (next_eq_after call c)
    have hfilled' := hfilled.next (next_eq_after call c)
    by_cases hcall : call = .pickOneNode path
    · subst hcall
      have hpick := pickOneNode_eq hindex hl hne
      have hmoved : (after (.pickOneNode path) c).roundRobinIndexMap.lookup path =
          some ((index + 1) % nodes.length) := by
        show (c.pickOneNode path).2.roundRobinIndexMap.lookup path = _
        rw [hpick]
        exact AList.lookup_insert _
      rw [picks, if_pos rfl, ih hpaired' hfilled' hmoved hrest, List.count_cons_self,
        List.range_succ_eq_map, List.map_cons, List.map_map, hpick]
      congr 1
      refine List.map_congr_left fun k _ => ?_
      -- the index was reduced already, which does not matter for those that follow
      have hmod : ((index + 1) % nodes.length + 1 + k) % nodes.length =
          (index + 1 + (k + 1)) % nodes.length := by
        rw [Nat.add_assoc, Nat.mod_add_mod]
        congr 1
        omega
      show nodes[_]? = nodes[_]?
      rw [hmod]
    · have hkept := lookup_roundRobin_after hpaired hfilled hl hrest.lookup hcall
      rw [picks, if_neg hcall, ih hpaired' hfilled' (hkept.trans hindex) hrest,
        List.count_cons_of_ne hcall]

/-- A whole turn is a rotation of the list. -/
theorem map_range_eq_rotate (hne : nodes ≠ []) (start : ℕ) :
    ((List.range nodes.length).map fun k => nodes[(start + k) % nodes.length]?) =
      (nodes.rotate start).map some := by
  apply List.ext_getElem
  · simp
  · intro k hk _
    have hlt : (start + k) % nodes.length < nodes.length :=
      Nat.mod_lt _ (List.length_pos_iff.mpr hne)
    simp only [List.getElem_map, List.getElem_range, List.getElem_rotate]
    rw [List.getElem?_eq_getElem hlt]
    simp only [Nat.add_comm]

/-- **The picks are fair.**  In every state, and for every path with a list that is not empty:
among the calls that follow, as many picks of the path as the list has entries return each of
them once, as long as the list is the same; and the index in use, whatever has become of the list
before, is below its length. -/
theorem pickOneNode_fair {c : NodeCollection} (hc : Reach next (fun _ _ => True) empty c)
    {path : String} {nodes : List String} (hl : c.validNodes.lookup path = some nodes)
    (hne : nodes ≠ []) :
    (∀ calls, Unchanged path nodes calls c →
      calls.count (.pickOneNode path) = nodes.length →
      (picks path calls c).Perm (nodes.map some)) ∧
    ∃ index < nodes.length, (c.pickOneNode path).1 = nodes[index]? ∧
      (c.pickOneNode path).2.roundRobinIndexMap.lookup path = some index := by
  have hpaired : Paired c := hc.invariant paired_empty fun _ _ _ h _ hnext => h.next hnext
  obtain ⟨index, hindex⟩ := hpaired.exists_index hl
  constructor
  · intro calls hsame hcount
    rw [picks_eq_map_range hne hpaired (filled_of_reach hc) hindex hsame, hcount,
      map_range_eq_rotate hne]
    exact (List.rotate_perm nodes (index + 1)).map some
  · refine ⟨(index + 1) % nodes.length, Nat.mod_lt _ (List.length_pos_iff.mpr hne), ?_⟩
    rw [pickOneNode_eq hindex hl hne]
    exact ⟨rfl, AList.lookup_insert _⟩

/-- A list of three nodes that becomes one of two while the index is at its end; then two picks,
with another path's heartbeat in between. -/
theorem pickOneNode_fair_shorter : ∃ c, Reach next (fun _ _ => True) empty c ∧
    c.validNodes.lookup "/a" = some ["x", "y"] ∧ c.roundRobinIndexMap.lookup "/a" = some 2 ∧
    (picks "/a" [.pickOneNode "/a", .updateHeartbeat ["z"] "/b", .pickOneNode "/a"] c).Perm
      [some "x", some "y"] := by
  obtain ⟨c, hc, hseen⟩ := exists_reach_of_follow next (fun _ _ => True)
    [.updateHeartbeat ["x", "y", "z"] "/a", .pickOneNode "/a", .pickOneNode "/a",
      .updateHeartbeat ["x", "y"] "/a"] empty
    (fun c => decide (c.validNodes.lookup "/a" = some ["x", "y"] ∧
      c.roundRobinIndexMap.lookup "/a" = some 2 ∧
      (after (.pickOneNode "/a") c).validNodes.lookup "/a" = some ["x", "y"] ∧
      (after (.updateHeartbeat ["z"] "/b") (after (.pickOneNode "/a") c)).validNodes.lookup "/a" =
        some ["x", "y"] ∧
      (after (.pickOneNode "/a") (after (.updateHeartbeat ["z"] "/b")
        (after (.pickOneNode "/a") c))).validNodes.lookup "/a" = some ["x", "y"]))
    (by decide +kernel)
  obtain ⟨hl, hindex, hsame⟩ := of_decide_eq_true hseen
  exact ⟨c, hc, hl, hindex, (pickOneNode_fair hc hl nofun).1 _ ⟨hl, hsame⟩ (by decide +kernel)⟩

end Rtp.Leader.NodeCollection
