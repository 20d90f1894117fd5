import Rtp.Lib.Dialogue
import Mathlib.Data.Fintype.Card

/-!
# Workflow graphs

The model of `orc/workflow/node.h` and `orc/workflow/graph.cc`.  A node carries
the name of a handler and two edges, followed on the handler's Boolean result.
Nodes are owned by a graph and are referred to by pointer, so a node is a
position in the graph's list of nodes; `Node::EndNode()` is the one node that
belongs to no graph, and an edge that has not been set is the null pointer.

* `Graph.checkNode`, `Graph.checkEntry`, `Graph.checkValid` — the validity check
  made at the end of a compilation: a depth-first search that refuses null edges
  and counts the nodes it meets.
* `Graph.walk` — the meaning of a graph: the dialogue that asks for the handler
  of the current node and follows the edge of the answer.
* `Graph.Valid` — what a successful check says (`valid_of_checkValid`): the
  entry is a node, no edge is null, every node is reached from the entry.
* `Graph.checkValid_iff` — **what passes the check**: the valid graphs, and the
  graph that has neither an entry nor nodes.
-/

namespace Rtp.Workflow

open Dialogue

/-- A non-null `Node*`: the static `Node::EndNode()`, or a node of the graph. -/
inductive NodeRef where
  | endNode
  | node (id : ℕ)
  deriving DecidableEq, Repr

/-- A `Node`; an edge that is `none` is the null pointer. -/
structure Node where
  name : String
  trueEdge : Option NodeRef
  falseEdge : Option NodeRef
  deriving DecidableEq, Repr

/-- The edge followed on the result `b`. -/
def Node.edge (n : Node) (b : Bool) : Option NodeRef := if b then n.trueEdge else n.falseEdge

@[simp] theorem Node.edge_true (n : Node) : n.edge true = n.trueEdge := rfl

@[simp] theorem Node.edge_false (n : Node) : n.edge false = n.falseEdge := rfl

/-- A `Graph`: its name, its entry, and the nodes it owns. -/
structure Graph where
  name : String
  entry : Option NodeRef
  nodes : List Node
  deriving DecidableEq, Repr

/-- The edge of a node that is a position in a list of nodes; null when there is
no such node. -/
def edgeAt (nodes : List Node) (i : ℕ) (b : Bool) : Option NodeRef :=
  (nodes[i]?).bind fun n => n.edge b

namespace Graph

/-- `node->true_edge()` and `node->false_edge()`.  Both edges of the end node
are null. -/
def edge (g : Graph) : NodeRef → Bool → Option NodeRef
  | .endNode, _ => none
  | .node i, b => edgeAt g.nodes i b

/-- `Graph::CheckNode`, with the set of checked nodes passed through; `none` is
the result `false`.  Every level of the recursion but the innermost checks a node
of its own, so as much fuel as there are nodes, and one more, is always enough. -/
def checkNode (g : Graph) : ℕ → NodeRef → List NodeRef → Option (List NodeRef)
  | 0, _, _ => none
  | fuel + 1, v, checked =>
    match g.edge v true, g.edge v false with
    | some t, some f =>
      if v ∈ checked then some checked
      else
        (if t = .endNode then some (v :: checked)
          else g.checkNode fuel t (v :: checked)).bind fun checked' =>
        if f = .endNode then some checked' else g.checkNode fuel f checked'
    | _, _ => none

/-- `Graph::CheckEntry`: the entry is one of the nodes the graph owns. -/
def checkEntry (g : Graph) : Bool :=
  match g.entry with
  | some (.node i) => decide (i < g.nodes.length)
  | _ => false

/-- `Graph::CheckValid`. -/
def checkValid (g : Graph) : Bool :=
  match g.entry with
  | none => g.nodes.isEmpty
  | some v =>
    match g.checkNode (g.nodes.length + 1) v [] with
    | none => false
    | some checked => if checked.length ≠ g.nodes.length then false else g.checkEntry

/-- The meaning of a graph.  The walk stops at the end node; following a null
edge has no meaning and is counted as a stop too, which a valid graph never
does. -/
def walk (g : Graph) : Machine (Option NodeRef) String where
  next
    | some (.node i) => (g.nodes[i]?).map fun n => (n.name, n.edge)
    | _ => none

/-- One node is reached from another along edges. -/
inductive Reaches (g : Graph) (v : NodeRef) : NodeRef → Prop
  | refl : Reaches g v v
  | tail {u w : NodeRef} {b : Bool} : Reaches g v u → g.edge u b = some w → Reaches g v w

/-- The node is one of the graph's own. -/
def Owns (g : Graph) (v : NodeRef) : Prop := ∃ i < g.nodes.length, v = .node i

/-- What a graph with a non-null entry must satisfy to be valid: the entry is
one of its nodes, no edge of a node is null or leads out of the graph, and every
node is reached from the entry. -/
structure Valid (g : Graph) (e : NodeRef) : Prop where
  entry_eq : g.entry = some e
  entry_mem : g.Owns e
  edge_ne_none : ∀ i < g.nodes.length, ∀ b, g.edge (.node i) b ≠ none
  edge_mem : ∀ v b t, g.edge v b = some t → t = .endNode ∨ g.Owns t
  reaches : ∀ i < g.nodes.length, g.Reaches e (.node i)

variable {g : Graph}

theorem Reaches.trans {u v w : NodeRef} (h : g.Reaches u v) (h' : g.Reaches v w) :
    g.Reaches u w := by
  induction h' with
  | refl => exact h
  | tail _ hb ih => exact ih.tail hb

theorem edge_node_eq_none {i : ℕ} (h : g.nodes.length ≤ i) (b : Bool) :
    g.edge (.node i) b = none := by
  rw [edge, edgeAt, List.getElem?_eq_none h]
  rfl

/-- A node with an edge is one of the graph's own nodes. -/
theorem owns_of_edge_eq_some {v t : NodeRef} {b : Bool} (h : g.edge v b = some t) :
    g.Owns v := by
  cases v with
  | endNode => simp [edge] at h
  | node i =>
    refine ⟨i, ?_, rfl⟩
    by_contra hi
    rw [edge_node_eq_none (not_lt.1 hi)] at h
    simp at h

/-! ## What the depth-first search establishes -/

/-- The nodes a call of `checkNode` adds: each is reached from the node the call
was made on, has no null edge, and its successors have been checked too. -/
structure CheckSpec (g : Graph) (v : NodeRef) (checked checked' : List NodeRef) : Prop where
  subset : checked ⊆ checked'
  nodup : checked.Nodup → checked'.Nodup
  reached : ∀ u ∈ checked', u ∉ checked →
    g.Reaches v u ∧ (∀ b, g.edge u b ≠ none) ∧
      ∀ b t, g.edge u b = some t → t = .endNode ∨ t ∈ checked'

theorem CheckSpec.refl (v : NodeRef) (checked : List NodeRef) : CheckSpec g v checked checked :=
  ⟨List.Subset.refl _, id, fun _ hu hn => absurd hu hn⟩

/-- Two searches made one after the other, from successors of the same node. -/
theorem CheckSpec.comp {v t f : NodeRef} {bt bf : Bool} {c₀ c₁ c₂ : List NodeRef}
    (ht : g.edge v bt = some t) (hf : g.edge v bf = some f) (h₁ : CheckSpec g t c₀ c₁)
    (h₂ : CheckSpec g f c₁ c₂) : CheckSpec g v c₀ c₂ := by
  refine ⟨List.Subset.trans h₁.subset h₂.subset, fun h => h₂.nodup (h₁.nodup h), fun u hu hn => ?_⟩
  by_cases hu₁ : u ∈ c₁
  · obtain ⟨hr, hne, hsucc⟩ := h₁.reached u hu₁ hn
    exact ⟨(Reaches.refl.tail ht).trans hr, hne, fun b w hw => (hsucc b w hw).imp_right
      fun hw => h₂.subset hw⟩
  · obtain ⟨hr, hne, hsucc⟩ := h₂.reached u hu hu₁
    exact ⟨(Reaches.refl.tail hf).trans hr, hne, hsucc⟩

variable {v : NodeRef}

/-- The search started at a node that has no null edge and was not yet checked. -/
theorem CheckSpec.cons {checked checked' : List NodeRef} (hv : v ∉ checked)
    (hne : ∀ b, g.edge v b ≠ none)
    (hsucc : ∀ b t, g.edge v b = some t → t = .endNode ∨ t ∈ checked')
    (h : CheckSpec g v (v :: checked) checked') : CheckSpec g v checked checked' := by
  refine ⟨fun u hu => h.subset (List.mem_cons_of_mem _ hu),
    fun hnd => h.nodup (List.nodup_cons.2 ⟨hv, hnd⟩), fun u hu hn => ?_⟩
  by_cases huv : u = v
  · subst huv; exact ⟨.refl, hne, hsucc⟩
  · exact h.reached u hu (by simp [huv, hn])

/-- A successful call has checked the node it was made on. -/
theorem checkNode_spec {fuel : ℕ} {checked checked' : List NodeRef}
    (h : g.checkNode fuel v checked = some checked') :
    CheckSpec g v checked checked' ∧ v ∈ checked' := by
  induction fuel generalizing v checked checked' with
  | zero => simp [checkNode] at h
  | succ fuel ih =>
    -- the search along one edge, which is not made when the edge leads to the end
    have hedge : ∀ {u : NodeRef} {c c' : List NodeRef},
        (if u = .endNode then some c else g.checkNode fuel u c) = some c' →
        CheckSpec g u c c' ∧ (u = .endNode ∨ u ∈ c') := by
      intro u c c' hu
      by_cases hend : u = .endNode
      · rw [if_pos hend, Option.some.injEq] at hu
        subst hu
        exact ⟨CheckSpec.refl u _, .inl hend⟩
      · rw [if_neg hend] at hu
        exact ⟨(ih hu).1, .inr (ih hu).2⟩
    rw [checkNode] at h
    cases ht : g.edge v true with
    | none => rw [ht] at h; simp at h
    | some t =>
      cases hf : g.edge v false with
      | none => rw [ht, hf] at h; simp at h
      | some f =>
        rw [ht, hf] at h
        simp only at h
        by_cases hv : v ∈ checked
        · rw [if_pos hv, Option.some.injEq] at h
          subst h
          exact ⟨CheckSpec.refl v checked, hv⟩
        · rw [if_neg hv, Option.bind_eq_some_iff] at h
          obtain ⟨c₁, h₁, h₂⟩ := h
          obtain ⟨hs₁, hm₁⟩ := hedge h₁
          obtain ⟨hs₂, hm₂⟩ := hedge h₂
          have hcomp := CheckSpec.comp ht hf hs₁ hs₂
          refine ⟨CheckSpec.cons hv ?_ ?_ hcomp, hcomp.subset (List.mem_cons_self ..)⟩
          · intro b; cases b <;> simp [ht, hf]
          · intro b w hw
            cases b with
            | true =>
              rw [ht, Option.some.injEq] at hw
              subst hw
              exact hm₁.imp_right fun h => hs₂.subset h
            | false =>
              rw [hf, Option.some.injEq] at hw
              subst hw
              exact hm₂

/-- A search that meets as many nodes as the graph owns meets every one of them:
what it meets are distinct nodes of the graph. -/
theorem mem_of_length_eq {l : List NodeRef} (hnd : l.Nodup)
    (hl : ∀ u ∈ l, g.Owns u) (hlen : l.length = g.nodes.length)
    {i : ℕ} (hi : i < g.nodes.length) : NodeRef.node i ∈ l := by
  have hsub : l ⊆ (List.range g.nodes.length).map NodeRef.node := by
    intro u hu
    obtain ⟨j, hj, rfl⟩ := hl u hu
    exact List.mem_map.2 ⟨j, List.mem_range.2 hj, rfl⟩
  have hperm : l.Perm ((List.range g.nodes.length).map NodeRef.node) :=
    (hnd.subperm hsub).perm_of_length_le (by simp [hlen])
  exact hperm.mem_iff.2 (List.mem_map.2 ⟨i, List.mem_range.2 hi, rfl⟩)

variable {e : NodeRef}

/-- **A graph that passes the check with a non-null entry is valid.** -/
theorem valid_of_checkValid (he : g.entry = some e) (h : g.checkValid = true) : g.Valid e := by
  rw [checkValid, he] at h
  simp only at h
  cases hc : g.checkNode (g.nodes.length + 1) e [] with
  | none => rw [hc] at h; simp at h
  | some checked =>
    rw [hc] at h
    simp only at h
    by_cases hlen : checked.length = g.nodes.length
    · rw [if_neg (by simpa using hlen)] at h
      obtain ⟨hspec, -⟩ := checkNode_spec hc
      have hmem : ∀ u ∈ checked, g.Owns u := by
        intro u hu
        obtain ⟨t, ht⟩ := Option.ne_none_iff_exists'.1
          ((hspec.reached u hu List.not_mem_nil).2.1 true)
        exact owns_of_edge_eq_some ht
      have hall : ∀ u, g.Owns u → g.Reaches e u ∧ (∀ b, g.edge u b ≠ none) ∧
          ∀ b t, g.edge u b = some t → t = .endNode ∨ t ∈ checked := by
        rintro u ⟨i, hi, rfl⟩
        exact hspec.reached _ (mem_of_length_eq (hspec.nodup List.nodup_nil) hmem hlen hi)
          List.not_mem_nil
      refine ⟨he, ?_, fun i hi => (hall _ ⟨i, hi, rfl⟩).2.1, fun v b t ht => ?_,
        fun i hi => (hall _ ⟨i, hi, rfl⟩).1⟩
      · rw [checkEntry, he] at h
        cases e with
        | endNode => simp at h
        | node i => exact ⟨i, by simpa using h, rfl⟩
      · exact ((hall v (owns_of_edge_eq_some ht)).2.2 b t ht).imp_right fun h => hmem t h
    · rw [if_pos (by simpa using hlen)] at h
      simp at h

/-! ## The search meets every node of a valid graph -/

/-- How many nodes of the graph are not checked yet: what bounds the recursion. -/
def unchecked (g : Graph) (checked : List NodeRef) : ℕ :=
  ((List.range g.nodes.length).filter fun i => NodeRef.node i ∉ checked).length

theorem unchecked_nil_lt (g : Graph) : g.unchecked [] < g.nodes.length + 1 := by
  have hle := List.length_filter_le (fun j => decide (NodeRef.node j ∉ ([] : List NodeRef)))
    (List.range g.nodes.length)
  rw [List.length_range] at hle
  exact Nat.lt_succ_of_le hle

theorem unchecked_le_of_subset {c c' : List NodeRef} (h : c ⊆ c') :
    g.unchecked c' ≤ g.unchecked c := by
  refine List.Sublist.length_le (List.monotone_filter_right _ fun i hi => ?_)
  simp only [decide_eq_true_eq] at hi ⊢
  exact fun hc => hi (h hc)

theorem unchecked_cons_lt {i : ℕ} {c : List NodeRef} (hi : i < g.nodes.length)
    (hn : NodeRef.node i ∉ c) : g.unchecked (.node i :: c) < g.unchecked c := by
  have hsub : List.Sublist
      ((List.range g.nodes.length).filter fun j => NodeRef.node j ∉ NodeRef.node i :: c)
      ((List.range g.nodes.length).filter fun j => NodeRef.node j ∉ c) := by
    refine List.monotone_filter_right _ fun j hj => ?_
    simp only [decide_eq_true_eq] at hj ⊢
    exact fun hc => hj (List.mem_cons_of_mem _ hc)
  refine lt_of_le_of_ne hsub.length_le fun heq => ?_
  -- the node itself is counted before and not after
  have hmem : i ∈ (List.range g.nodes.length).filter fun j => NodeRef.node j ∉ c := by
    simp [hi, hn]
  rw [← hsub.eq_of_length heq, List.mem_filter] at hmem
  simp at hmem

/-- On a valid graph the search is never refused. -/
theorem Valid.checkNode_isSome (hv : g.Valid e) {fuel i : ℕ} {checked : List NodeRef}
    (hi : i < g.nodes.length) (hfuel : g.unchecked checked < fuel) :
    ∃ checked', g.checkNode fuel (.node i) checked = some checked' := by
  induction fuel generalizing i checked with
  | zero => exact absurd hfuel (Nat.not_lt_zero _)
  | succ fuel ih =>
    obtain ⟨t, ht⟩ := Option.ne_none_iff_exists'.1 (hv.edge_ne_none i hi true)
    obtain ⟨f, hf⟩ := Option.ne_none_iff_exists'.1 (hv.edge_ne_none i hi false)
    by_cases hmem : NodeRef.node i ∈ checked
    · exact ⟨checked, by rw [checkNode, ht, hf]; simp only [if_pos hmem]⟩
    · have hlt := unchecked_cons_lt hi hmem
      -- the search along one edge, from a list that holds the node already
      have hedge : ∀ {u : NodeRef} {c : List NodeRef}, (u = .endNode ∨ g.Owns u) →
          NodeRef.node i :: checked ⊆ c →
          ∃ c', (if u = .endNode then some c else g.checkNode fuel u c) = some c' := by
        intro u c hu hc
        have hle := unchecked_le_of_subset (g := g) hc
        rcases hu with rfl | ⟨j, hj, rfl⟩
        · exact ⟨c, if_pos rfl⟩
        · rw [if_neg (by simp)]
          exact ih hj (by omega)
      obtain ⟨c₁, h₁⟩ := hedge (hv.edge_mem _ _ t ht) (List.Subset.refl _)
      have hsub : NodeRef.node i :: checked ⊆ c₁ := by
        by_cases hend : t = .endNode
        · rw [if_pos hend, Option.some.injEq] at h₁
          exact h₁ ▸ List.Subset.refl _
        · rw [if_neg hend] at h₁
          exact (checkNode_spec h₁).1.subset
      obtain ⟨c₂, h₂⟩ := hedge (hv.edge_mem _ _ f hf) hsub
      refine ⟨c₂, ?_⟩
      rw [checkNode, ht, hf]
      simp only [if_neg hmem, h₁, Option.bind_some, h₂]

/-- What the search has checked is closed under edges, so it holds every node that
is reached. -/
theorem CheckSpec.mem_of_reaches {v u : NodeRef} {checked : List NodeRef}
    (h : CheckSpec g v [] checked) (hv : v ∈ checked) (hr : g.Reaches v u) :
    u = .endNode ∨ u ∈ checked := by
  induction hr with
  | refl => exact .inr hv
  | @tail w u b _ hb ih =>
    rcases ih with rfl | hw
    · simp [edge] at hb
    · exact (h.reached w hw List.not_mem_nil).2.2 b u hb

/-- On a valid graph the search meets every node, each once, and nothing else. -/
theorem Valid.checkNode_perm (hv : g.Valid e) :
    ∃ checked, g.checkNode (g.nodes.length + 1) e [] = some checked ∧
      checked.Perm ((List.range g.nodes.length).map NodeRef.node) := by
  obtain ⟨i, hi, rfl⟩ := hv.entry_mem
  obtain ⟨checked, hc⟩ := hv.checkNode_isSome hi g.unchecked_nil_lt
  obtain ⟨hspec, hmem⟩ := checkNode_spec hc
  have hnd : ((List.range g.nodes.length).map NodeRef.node).Nodup :=
    List.nodup_range.map fun _ _ h => by simpa using h
  refine ⟨checked, hc,
    (List.perm_ext_iff_of_nodup (hspec.nodup List.nodup_nil) hnd).mpr fun u => ⟨fun hu => ?_,
      fun hu => ?_⟩⟩
  · obtain ⟨t, ht⟩ := Option.ne_none_iff_exists'.1
      ((hspec.reached u hu List.not_mem_nil).2.1 true)
    obtain ⟨j, hj, rfl⟩ := owns_of_edge_eq_some ht
    exact List.mem_map.2 ⟨j, List.mem_range.2 hj, rfl⟩
  · obtain ⟨j, hj, rfl⟩ := List.mem_map.1 hu
    exact (hspec.mem_of_reaches hmem (hv.reaches j (List.mem_range.1 hj))).resolve_left (by simp)

/-- **A valid graph passes the check.** -/
theorem Valid.checkValid (hv : g.Valid e) : g.checkValid = true := by
  obtain ⟨checked, hc, hperm⟩ := hv.checkNode_perm
  obtain ⟨i, hi, rfl⟩ := hv.entry_mem
  have hlen : checked.length = g.nodes.length := by
    rw [hperm.length_eq, List.length_map, List.length_range]
  rw [Graph.checkValid, hv.entry_eq]
  simp only [hc, hlen, ne_eq, not_true_eq_false, if_false, checkEntry, hv.entry_eq,
    decide_eq_true_eq]
  exact hi

/-- The check passes on the graph without entry and without nodes, and on the valid
graphs. -/
theorem checkValid_iff :
    g.checkValid = true ↔ g.entry = none ∧ g.nodes = [] ∨ ∃ e, g.Valid e := by
  constructor
  · intro h
    cases he : g.entry with
    | none =>
      rw [Graph.checkValid, he] at h
      exact .inl ⟨rfl, List.isEmpty_iff.1 h⟩
    | some e => exact .inr ⟨e, valid_of_checkValid he h⟩
  · rintro (⟨he, hn⟩ | ⟨e, hv⟩)
    · rw [Graph.checkValid, he, hn]
      rfl
    · exact hv.checkValid

/-- The walk of a valid graph only ever stands on the end node or on a node of
the graph. -/
theorem Valid.follow (hv : g.Valid e) {w : List Bool} {p : Option NodeRef}
    (hown : v = .endNode ∨ g.Owns v) (h : g.walk.follow w (some v) = some p) :
    ∃ u, p = some u ∧ (u = .endNode ∨ g.Owns u) := by
  induction w generalizing v with
  | nil =>
    rw [Machine.follow, Option.some.injEq] at h
    exact ⟨v, h.symm, hown⟩
  | cons b w ih =>
    rw [Machine.follow] at h
    rcases hown with rfl | ⟨i, hi, rfl⟩
    · simp [walk] at h
    · have hn : g.nodes[i]? = some g.nodes[i] := List.getElem?_eq_getElem hi
      simp only [walk, hn, Option.map_some] at h
      have hedge : g.edge (.node i) b = g.nodes[i].edge b := by rw [edge, edgeAt, hn]; rfl
      obtain ⟨t, ht⟩ := Option.ne_none_iff_exists'.1 (hv.edge_ne_none i hi b)
      rw [← hedge, ht] at h
      exact ih (hv.edge_mem _ b t ht) h

/-- **A valid graph stops at the end node only.** -/
theorem Valid.stops_at_endNode (hv : g.Valid e) {w : List Bool} {p : Option NodeRef}
    (h : g.walk.follow w (some e) = some p) (hp : g.walk.next p = none) : p = some .endNode := by
  obtain ⟨u, rfl, rfl | ⟨i, hi, rfl⟩⟩ := hv.follow (Or.inr hv.entry_mem) h
  · rfl
  · simp [walk, List.getElem?_eq_getElem hi] at hp

end Graph

end Rtp.Workflow
