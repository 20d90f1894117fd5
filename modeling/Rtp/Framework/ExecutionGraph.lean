import Rtp.Workflow.Correct
import Mathlib.Data.List.AList

/-!
# Execution graphs

The model of `orc/framework/execution_graph.cc` and of
`ExecutionGraphMgr::BuildNode` and `BuildGraph`.  A compiled workflow graph has
one node for every place a handler is named; the execution graph it is turned
into keeps its nodes in a map from handler names, so that two places that name
the same handler become one node.

* `buildNode`, `buildGraph` — the construction.  It descends along both edges of a
  node and stops at names that are already in the map.  Reading the name of a null
  node is a fault of its own, `BuildFault.nullNode`.
* `buildGraph_spec` — on a valid graph, with a handler for every name, the
  construction ends with an execution graph in which every node stands for some
  node of the workflow graph with its name, and its successors are those of that
  node.
* `buildGraph_sameRuns_iff` — **when the two graphs run the same**: exactly when
  any two nodes of the workflow graph that name the same handler also name the same
  handlers on both of their edges.
-/

namespace Rtp.Framework

open Dialogue Workflow

/-- A non-null `ExecutionNode*`: the static `ExecutionNode::EndNode()`, or the
node of an execution graph that is filed under a name. -/
inductive ExecRef where
  | endNode
  | node (name : String)
  deriving DecidableEq, Repr

/-- An `ExecutionNode`.  A handler object is known by the name it was registered
under. -/
structure ExecutionNode where
  name : String
  trueNext : Option ExecRef
  falseNext : Option ExecRef
  handler : Option String
  deriving DecidableEq, Repr

/-- The successor on the result `b`. -/
def ExecutionNode.next (n : ExecutionNode) (b : Bool) : Option ExecRef :=
  if b then n.trueNext else n.falseNext

/-- An `ExecutionGraph`. -/
structure ExecutionGraph where
  name : String
  entry : Option ExecRef
  nodes : AList (fun _ : String => ExecutionNode)

namespace ExecutionGraph

/-- `ExecutionGraph(name)`. -/
def new (name : String) : ExecutionGraph := ⟨name, none, ∅⟩

/-- `ExecutionGraph::AddNode`, and any change made to a node of the graph
through a pointer to it. -/
def addNode (eg : ExecutionGraph) (name : String) (node : ExecutionNode) : ExecutionGraph :=
  { eg with nodes := eg.nodes.insert name node }

/-- `ExecutionGraph::GetNode`. -/
def getNode (eg : ExecutionGraph) (name : String) : Option ExecutionNode := eg.nodes.lookup name

@[simp] theorem getNode_addNode_self (eg : ExecutionGraph) (name : String)
    (node : ExecutionNode) : (eg.addNode name node).getNode name = some node :=
  AList.lookup_insert _

theorem getNode_addNode_of_ne (eg : ExecutionGraph) {name name' : String}
    (node : ExecutionNode) (h : name' ≠ name) :
    (eg.addNode name node).getNode name' = eg.getNode name' :=
  AList.lookup_insert_ne h

@[simp] theorem getNode_new (name name' : String) : (new name).getNode name' = none :=
  AList.lookup_empty _

/-- The meaning of an execution graph: the handler of the current node is run and
its result chooses the successor, until the end node is reached. -/
def walk (eg : ExecutionGraph) : Machine (Option ExecRef) String where
  next
    | some (.node name) => (eg.getNode name).map fun n => (n.name, n.next)
    | _ => none

end ExecutionGraph

/-! ## The construction -/

/-- What can go wrong without a result: a null node is dereferenced, or the
recursion is cut off by the fuel of the model. -/
inductive BuildFault where
  | nullNode
  | outOfFuel
  deriving DecidableEq, Repr

/-- The result of `BuildNode`: a fault, or the returned pointer, which is null
when a handler is missing, with the graph under construction. -/
abbrev BuildResult : Type := Except BuildFault (Option ExecRef × ExecutionGraph)

section Build

variable (getHandler : String → Bool) (g : Graph)

/-- `ExecutionGraphMgr::BuildNode`; `getHandler` says for which names
`HandlerMgr::GetHandler` returns a handler.  Every level of the recursion but the
innermost adds a name, so as much fuel as the graph has nodes, and one more, is
always enough (`buildNode_spec`). -/
def buildNode : ℕ → Option NodeRef → ExecutionGraph → BuildResult
  | _, some .endNode, eg => .ok (some .endNode, eg)
  | 0, _, _ => .error .outOfFuel
  | _, none, _ => .error .nullNode
  | fuel + 1, some (.node i), eg =>
    match g.nodes[i]? with
    | none => .error .nullNode
    | some node =>
      match eg.getNode node.name with
      | some _ => .ok (some (.node node.name), eg)
      | none =>
        if getHandler node.name then do
          let eg := eg.addNode node.name ⟨node.name, none, none, none⟩
          let (trueNext, eg) ← buildNode fuel node.trueEdge eg
          if trueNext.isNone then return (none, eg)
          let (falseNext, eg) ← buildNode fuel node.falseEdge eg
          if falseNext.isNone then return (none, eg)
          return (some (.node node.name),
            eg.addNode node.name ⟨node.name, trueNext, falseNext, some node.name⟩)
        else .ok (none, eg)

/-- `ExecutionGraphMgr::BuildGraph`; the inner `none` is the null pointer. -/
def buildGraph : Except BuildFault (Option ExecutionGraph) := do
  let (entry, eg) ← buildNode getHandler g (g.nodes.length + 1) g.entry (.new g.name)
  if entry.isNone then return none
  return some { eg with entry := entry }

end Build

/-! ## What the construction builds -/

/-- The node of the execution graph that stands for a node of the workflow
graph. -/
def toExec (g : Graph) : NodeRef → Option ExecRef
  | .endNode => some .endNode
  | .node i => (g.nodes[i]?).map fun n => .node n.name

/-- The execution node stands for the `i`-th node of the workflow graph. -/
structure StandsFor (g : Graph) (n : ExecutionNode) (i : ℕ) : Prop where
  name : (g.nodes[i]?).map Node.name = some n.name
  next : ∀ b, n.next b = (g.edge (.node i) b).bind (toExec g)

/-- The names of the workflow graph that are still missing in the execution
graph: what bounds the recursion. -/
def missing (g : Graph) (eg : ExecutionGraph) : ℕ :=
  (g.nodes.filter fun n => (eg.getNode n.name).isNone).length

/-- What a call of `buildNode` on a node does: it leaves the nodes that were there
alone, and each node it adds stands for a node of the workflow graph and has its
successors in the graph too. -/
structure BuildSpec (g : Graph) (eg eg' : ExecutionGraph) : Prop where
  name_eq : eg'.name = eg.name
  keep : ∀ nm n, eg.getNode nm = some n → eg'.getNode nm = some n
  added : ∀ nm n, eg'.getNode nm = some n → eg.getNode nm = none →
    n.name = nm ∧ (∃ i, StandsFor g n i) ∧
      ∀ b x, n.next b = some (.node x) → eg'.getNode x ≠ none

theorem BuildSpec.refl (g : Graph) (eg : ExecutionGraph) : BuildSpec g eg eg :=
  ⟨rfl, fun _ _ h => h, fun _ _ h h' => by rw [h'] at h; exact absurd h (by simp)⟩

theorem BuildSpec.getNode_ne_none {g : Graph} {eg eg' : ExecutionGraph}
    (h : BuildSpec g eg eg') {nm : String} (hn : eg.getNode nm ≠ none) :
    eg'.getNode nm ≠ none := by
  obtain ⟨n, hn⟩ := Option.ne_none_iff_exists'.1 hn
  rw [h.keep nm n hn]
  simp

theorem BuildSpec.trans {g : Graph} {eg₁ eg₂ eg₃ : ExecutionGraph} (h : BuildSpec g eg₁ eg₂)
    (h' : BuildSpec g eg₂ eg₃) : BuildSpec g eg₁ eg₃ := by
  refine ⟨h'.name_eq.trans h.name_eq, fun nm n hn => h'.keep nm n (h.keep nm n hn),
    fun nm n hn hnone => ?_⟩
  cases h₂ : eg₂.getNode nm with
  | none => exact h'.added nm n hn h₂
  | some n' =>
    have hnn : n = n' := Option.some.inj (hn.symm.trans (h'.keep nm n' h₂))
    obtain ⟨hname, hst, hcl⟩ := h.added nm n (hnn ▸ h₂) hnone
    exact ⟨hname, hst, fun b x hx => h'.getNode_ne_none (hcl b x hx)⟩

theorem missing_le_of_keep {g : Graph} {eg eg' : ExecutionGraph}
    (h : ∀ nm, eg.getNode nm ≠ none → eg'.getNode nm ≠ none) : missing g eg' ≤ missing g eg := by
  refine List.Sublist.length_le (List.monotone_filter_right _ fun n hn => ?_)
  rw [Option.isNone_iff_eq_none] at hn ⊢
  by_contra hne
  exact h n.name hne hn

theorem missing_addNode_lt {g : Graph} {eg : ExecutionGraph} {i : ℕ} {node : Node}
    (hi : g.nodes[i]? = some node) (hnone : eg.getNode node.name = none) (n : ExecutionNode) :
    missing g (eg.addNode node.name n) < missing g eg := by
  have hle : ∀ m : Node, ((eg.addNode node.name n).getNode m.name).isNone = true →
      (eg.getNode m.name).isNone = true := by
    intro m hm
    by_cases h : m.name = node.name
    · rw [h]; rw [hnone]; rfl
    · rwa [ExecutionGraph.getNode_addNode_of_ne eg n h] at hm
  have hsub := List.monotone_filter_right g.nodes hle
  refine lt_of_le_of_ne hsub.length_le fun heq => ?_
  -- the node itself is counted before and not after
  have hmem : node ∈ g.nodes.filter fun m => (eg.getNode m.name).isNone :=
    List.mem_filter.2 ⟨List.mem_of_getElem? hi, by rw [hnone]; rfl⟩
  rw [← hsub.eq_of_length heq, List.mem_filter] at hmem
  simp at hmem

/-- The placeholder a call adds, the nodes its two recursive calls add, and the
final content of its own node, taken together. -/
theorem BuildSpec.node {g : Graph} {eg eg' : ExecutionGraph} {i : ℕ} {node : Node}
    {placeholder n : ExecutionNode} (hnone : eg.getNode node.name = none)
    (h : BuildSpec g (eg.addNode node.name placeholder) eg') (hname : n.name = node.name)
    (hst : StandsFor g n i)
    (hcl : ∀ b x, n.next b = some (.node x) → eg'.getNode x ≠ none) :
    BuildSpec g eg (eg'.addNode node.name n) := by
  have hmono : ∀ x, eg'.getNode x ≠ none → (eg'.addNode node.name n).getNode x ≠ none := by
    intro x hx
    by_cases hxn : x = node.name
    · subst hxn; simp
    · rwa [ExecutionGraph.getNode_addNode_of_ne eg' n hxn]
  refine ⟨h.name_eq, fun nm m hm => ?_, fun nm m hm hnm => ?_⟩
  · have hne : nm ≠ node.name := fun h => by rw [h, hnone] at hm; simp at hm
    rw [ExecutionGraph.getNode_addNode_of_ne eg' n hne]
    exact h.keep nm m (by rwa [ExecutionGraph.getNode_addNode_of_ne eg placeholder hne])
  · by_cases hne : nm = node.name
    · subst hne
      rw [ExecutionGraph.getNode_addNode_self, Option.some.injEq] at hm
      subst hm
      exact ⟨hname, ⟨i, hst⟩, fun b x hx => hmono x (hcl b x hx)⟩
    · rw [ExecutionGraph.getNode_addNode_of_ne eg' n hne] at hm
      obtain ⟨h₁, h₂, h₃⟩ := h.added nm m hm
        (by rwa [ExecutionGraph.getNode_addNode_of_ne eg placeholder hne])
      exact ⟨h₁, h₂, fun b x hx => hmono x (h₃ b x hx)⟩

section Spec

variable {getHandler : String → Bool} {g : Graph} {e : NodeRef}

/-- With a handler for every name and enough fuel, a call returns the node that
stands for the one it was made on. -/
theorem buildNode_spec (hv : g.Valid e) (hh : ∀ n ∈ g.nodes, getHandler n.name = true) {fuel : ℕ}
    {v : NodeRef} {eg : ExecutionGraph} (hown : v = .endNode ∨ g.Owns v)
    (hfuel : missing g eg < fuel) :
    ∃ x eg', buildNode getHandler g fuel (some v) eg = .ok (some x, eg') ∧
      toExec g v = some x ∧ BuildSpec g eg eg' ∧ ∀ nm, x = .node nm → eg'.getNode nm ≠ none := by
  induction fuel generalizing v eg with
  | zero => exact absurd hfuel (Nat.not_lt_zero _)
  | succ fuel ih =>
    rcases hown with rfl | ⟨i, hi, rfl⟩
    · exact ⟨.endNode, eg, rfl, rfl, .refl g eg, by simp⟩
    · have hn : g.nodes[i]? = some g.nodes[i] := List.getElem?_eq_getElem hi
      generalize g.nodes[i] = node at hn
      have hx : toExec g (.node i) = some (.node node.name) := by rw [toExec, hn]; rfl
      cases hget : eg.getNode node.name with
      | some n =>
        refine ⟨.node node.name, eg, ?_, hx, .refl g eg, ?_⟩
        · rw [buildNode]; simp only [hn, hget]
        · rintro nm ⟨⟩; rw [hget]; simp
      | none =>
        have hedge : ∀ b, g.edge (.node i) b = node.edge b := fun b => by
          rw [Graph.edge, edgeAt, hn]; rfl
        obtain ⟨t, ht⟩ := Option.ne_none_iff_exists'.1 (hv.edge_ne_none i hi true)
        obtain ⟨f, hf⟩ := Option.ne_none_iff_exists'.1 (hv.edge_ne_none i hi false)
        have hlt := missing_addNode_lt hn hget ⟨node.name, none, none, none⟩
        -- the call along the true edge, then the one along the false edge
        obtain ⟨xt, eg₁, h₁, hxt, hs₁, hin₁⟩ :=
          ih (hv.edge_mem _ _ t ht) (Nat.lt_of_lt_of_le hlt (Nat.le_of_lt_succ hfuel))
        have hle := missing_le_of_keep (g := g) fun _ h => hs₁.getNode_ne_none h
        obtain ⟨xf, eg₂, h₂, hxf, hs₂, hin₂⟩ := ih (hv.edge_mem _ _ f hf)
          (Nat.lt_of_le_of_lt hle (Nat.lt_of_lt_of_le hlt (Nat.le_of_lt_succ hfuel)))
        rw [hedge] at ht hf
        refine ⟨.node node.name,
          eg₂.addNode node.name ⟨node.name, some xt, some xf, some node.name⟩, ?_, hx,
          BuildSpec.node (i := i) hget (hs₁.trans hs₂) rfl ⟨by rw [hn]; rfl, fun b => ?_⟩
            fun b x hb => ?_, ?_⟩
        · rw [buildNode]
          simp only [hn, hget, hh node (List.mem_of_getElem? hn), if_true]
          rw [Node.edge_true] at ht
          rw [Node.edge_false] at hf
          rw [ht, h₁]
          simp only [bind, Except.bind, hf, h₂]
          rfl
        · cases b with
          | true => rw [hedge, ht]; exact hxt.symm
          | false => rw [hedge, hf]; exact hxf.symm
        · cases b with
          | true => exact hs₂.getNode_ne_none (hin₁ x (Option.some.inj hb))
          | false => exact hin₂ x (Option.some.inj hb)
        · rintro nm ⟨⟩; simp

/-- An execution graph that was built from a workflow graph: its entry stands for
the entry, every node is filed under its own name and stands for some node, and no
successor is missing. -/
structure BuiltFrom (g : Graph) (e : NodeRef) (eg : ExecutionGraph) (x : ExecRef) : Prop where
  entry_eq : eg.entry = some x
  entry : toExec g e = some x
  entry_mem : ∀ nm, x = .node nm → eg.getNode nm ≠ none
  node : ∀ nm n, eg.getNode nm = some n → n.name = nm ∧ (∃ i, StandsFor g n i) ∧
    ∀ b y, n.next b = some (.node y) → eg.getNode y ≠ none

/-- **The construction succeeds** on a valid graph with a handler for every
name. -/
theorem buildGraph_spec (hv : g.Valid e) (hh : ∀ n ∈ g.nodes, getHandler n.name = true) :
    ∃ eg x, buildGraph getHandler g = .ok (some eg) ∧ BuiltFrom g e eg x := by
  have hfuel : missing g (.new g.name) < g.nodes.length + 1 :=
    Nat.lt_succ_of_le (List.length_filter_le _ _)
  obtain ⟨x, eg, hb, hx, hs, hin⟩ := buildNode_spec hv hh (Or.inr hv.entry_mem) hfuel
  refine ⟨{ eg with entry := some x }, x, ?_, rfl, hx, hin, fun nm n hn => ?_⟩
  · rw [buildGraph, hv.entry_eq, hb]
    rfl
  · exact hs.added nm n hn (ExecutionGraph.getNode_new _ _)

end Spec

/-! ## When the two graphs run the same -/

/-- A handler name decides what follows: two nodes with the same name have, on
either result, successors with the same name, or both end there. -/
def NameDeterministic (g : Graph) : Prop :=
  ∀ m ∈ g.nodes, ∀ n ∈ g.nodes, m.name = n.name →
    ∀ b, (m.edge b).bind (toExec g) = (n.edge b).bind (toExec g)

instance (g : Graph) : Decidable (NameDeterministic g) := by
  unfold NameDeterministic; infer_instance

section SameRuns

variable {g : Graph} {e : NodeRef} {eg : ExecutionGraph} {x : ExecRef}

theorem BuiltFrom.walk_next {nm : String} {n : ExecutionNode} (h : BuiltFrom g e eg x)
    (hn : eg.getNode nm = some n) : eg.walk.next (some (.node nm)) = some (nm, n.next) := by
  simp [ExecutionGraph.walk, hn, (h.node nm n hn).1]

/-- A node and the execution node that stands for it. -/
def StandIn (g : Graph) (eg : ExecutionGraph) (p : Option NodeRef) (q : Option ExecRef) : Prop :=
  ∃ v y, p = some v ∧ q = some y ∧ (v = .endNode ∨ g.Owns v) ∧ toExec g v = some y ∧
    ∀ nm, y = .node nm → eg.getNode nm ≠ none

/-- When names decide what follows, standing for a node is kept by every step:
the node an execution node was built from need not be the one it stands for now,
but both have the same name and so the same successors. -/
theorem BuiltFrom.stepRel (h : BuiltFrom g e eg x) (hv : g.Valid e) (hd : NameDeterministic g)
    {p : Option NodeRef} {q : Option ExecRef} (hpq : StandIn g eg p q) :
    StepRel (StandIn g eg) (g.walk.next p) (eg.walk.next q) := by
  obtain ⟨v, y, rfl, rfl, rfl | ⟨i, hi, rfl⟩, hy, hin⟩ := hpq
  · rw [toExec, Option.some.injEq] at hy
    subst hy
    exact .stop
  · have hn : g.nodes[i]? = some g.nodes[i] := List.getElem?_eq_getElem hi
    generalize g.nodes[i] = node at hn
    simp only [toExec, hn, Option.map_some, Option.some.injEq] at hy
    subst hy
    obtain ⟨n, hget⟩ := Option.ne_none_iff_exists'.1 (hin _ rfl)
    rw [walk_next_node hn, h.walk_next hget]
    obtain ⟨hname, ⟨j, hst⟩, hcl⟩ := h.node _ n hget
    refine .ask node.name fun b => ?_
    obtain ⟨m, hm, hmn⟩ := Option.map_eq_some_iff.1 hst.name
    have hnext : n.next b = (node.edge b).bind (toExec g) := by
      rw [hst.next b, Graph.edge, edgeAt, hm]
      exact hd m (List.mem_of_getElem? hm) node (List.mem_of_getElem? hn) (hmn.trans hname) b
    have hedge : g.edge (.node i) b = node.edge b := by rw [Graph.edge, edgeAt, hn]; rfl
    obtain ⟨w, hw⟩ := Option.ne_none_iff_exists'.1 (hv.edge_ne_none i hi b)
    have hown := hv.edge_mem _ b w hw
    rw [hedge] at hw
    rw [hw, Option.bind_some] at hnext
    have hex : ∃ z, toExec g w = some z := by
      rcases hown with rfl | ⟨k, hk, rfl⟩
      · exact ⟨_, rfl⟩
      · exact ⟨_, by rw [toExec, List.getElem?_eq_getElem hk]; rfl⟩
    obtain ⟨z, hz⟩ := hex
    refine ⟨w, z, hw, hnext.trans hz, hown, hz, fun nm hnm => hcl b nm ?_⟩
    rw [hnext, hz, hnm]

/-- Two nodes that run as the same execution node are stood for by the same
one: the first question shows which it is. -/
theorem toExec_eq_of_sameRuns {v w : NodeRef} {q : Option ExecRef}
    (hv : v = .endNode ∨ g.Owns v) (hw : w = .endNode ∨ g.Owns w)
    (h : SameRuns g.walk eg.walk (some v) q) (h' : SameRuns g.walk eg.walk (some w) q) :
    toExec g v = toExec g w := by
  have hask : ∀ u, (u = .endNode ∨ g.Owns u) → SameRuns g.walk eg.walk (some u) q →
      toExec g u = some (((eg.walk.next q).map fun s => ExecRef.node s.1).getD .endNode) := by
    rintro u (rfl | ⟨i, hi, rfl⟩) hu
    · rcases (sameRuns_step hu).elim with ⟨-, hq⟩ | ⟨a, f, k, hp, -, -⟩
      · rw [hq]; rfl
      · simp [Graph.walk] at hp
    · have hn : g.nodes[i]? = some g.nodes[i] := List.getElem?_eq_getElem hi
      rcases (sameRuns_step hu).elim with ⟨hp, -⟩ | ⟨a, f, k, hp, hq, -⟩
      · rw [walk_next_node hn] at hp; simp at hp
      · rw [walk_next_node hn, Option.some.injEq, Prod.mk.injEq] at hp
        rw [hq, toExec, hn]
        simp [hp.1]
  rw [hask v hv h, hask w hw h']

/-- A node that is reached along edges is reached by the walk. -/
theorem follow_of_reaches {v w : NodeRef} (h : g.Reaches v w) :
    ∃ bs, g.walk.follow bs (some v) = some (some w) := by
  induction h with
  | refl => exact ⟨[], rfl⟩
  | @tail u w b _ hb ih =>
    obtain ⟨bs, hbs⟩ := ih
    refine ⟨bs ++ [b], ?_⟩
    rw [Machine.follow_append, hbs]
    obtain ⟨i, hi, rfl⟩ := Graph.owns_of_edge_eq_some hb
    have hn : g.nodes[i]? = some g.nodes[i] := List.getElem?_eq_getElem hi
    rw [Graph.edge, edgeAt, hn, Option.bind_some] at hb
    simp [Machine.follow, walk_next_node hn, hb]

/-- When the two graphs run the same, every node of the workflow graph runs as the
execution node with its name. -/
theorem BuiltFrom.sameRuns_node (h : BuiltFrom g e eg x) (hv : g.Valid e)
    (hs : SameRuns g.walk eg.walk (some e) (some x)) {i : ℕ} {node : Node}
    (hn : g.nodes[i]? = some node) :
    SameRuns g.walk eg.walk (some (.node i)) (some (.node node.name)) := by
  obtain ⟨bs, hbs⟩ := follow_of_reaches (hv.reaches i (List.getElem?_eq_some_iff.1 hn).1)
  obtain ⟨q, -, hq⟩ := hs.follow hbs
  rcases (sameRuns_step hq).elim with ⟨hp, -⟩ | ⟨a, f, k, hp, hqn, -⟩
  · rw [walk_next_node hn] at hp; simp at hp
  · rw [walk_next_node hn, Option.some.injEq, Prod.mk.injEq] at hp
    -- the execution node asked is the one filed under the name it asks for
    rcases q with _ | (_ | nm)
    · simp [ExecutionGraph.walk] at hqn
    · simp [ExecutionGraph.walk] at hqn
    · cases hget : eg.getNode nm with
      | none => simp [ExecutionGraph.walk, hget] at hqn
      | some n =>
        rw [h.walk_next hget, Option.some.injEq, Prod.mk.injEq] at hqn
        rw [hp.1, ← hqn.1]
        exact hq

/-- **When the execution graph runs as the workflow graph.**  `BuildGraph` always
returns a graph for a valid workflow graph with a handler for every name.  It runs
the same exactly when handler names decide what follows. -/
theorem BuiltFrom.sameRuns_iff (h : BuiltFrom g e eg x) (hv : g.Valid e) :
    SameRuns g.walk eg.walk (some e) (some x) ↔ NameDeterministic g := by
  constructor
  · intro hs m hm n hn hmn b
    obtain ⟨i, hi⟩ := List.mem_iff_getElem?.1 hm
    obtain ⟨j, hj⟩ := List.mem_iff_getElem?.1 hn
    have step : ∀ {k : ℕ} {u : Node}, g.nodes[k]? = some u →
        ∃ w, u.edge b = some w ∧ (w = .endNode ∨ g.Owns w) := by
      intro k u hu
      have hlt := (List.getElem?_eq_some_iff.1 hu).1
      obtain ⟨w, hw⟩ := Option.ne_none_iff_exists'.1 (hv.edge_ne_none k hlt b)
      have hown := hv.edge_mem _ b w hw
      rw [Graph.edge, edgeAt, hu, Option.bind_some] at hw
      exact ⟨w, hw, hown⟩
    obtain ⟨v, hmv, hv'⟩ := step hi
    obtain ⟨w, hnw, hw'⟩ := step hj
    have hsi := sameRuns_step (h.sameRuns_node hv hs hi)
    have hsj := sameRuns_step (h.sameRuns_node hv hs hj)
    rw [walk_next_node hi] at hsi
    rw [walk_next_node hj, ← hmn] at hsj
    rcases hsi.elim with ⟨hp, -⟩ | ⟨a, f, k, hp, hq, hfk⟩
    · simp at hp
    rcases hsj.elim with ⟨hp', -⟩ | ⟨a', f', k', hp', hq', hfk'⟩
    · simp at hp'
    rw [Option.some.injEq, Prod.mk.injEq] at hp hp'
    rw [hq, Option.some.injEq, Prod.mk.injEq] at hq'
    have hvr := hfk b
    have hwr := hfk' b
    rw [← hp.2, hmv] at hvr
    rw [← hp'.2, hnw, ← hq'.2] at hwr
    rw [hmv, hnw]
    exact toExec_eq_of_sameRuns hv' hw' hvr hwr
  · intro hd
    exact sameRuns_of_bisim (fun _ _ => h.stepRel hv hd)
      ⟨e, x, rfl, rfl, .inr hv.entry_mem, h.entry, h.entry_mem⟩

end SameRuns

/-- **When the built graph runs the same.**  For a workflow graph that passes the
check, with an entry and a handler for every name, `BuildGraph` returns an
execution graph, and that graph runs as the workflow graph exactly when handler
names decide what follows. -/
theorem buildGraph_sameRuns_iff {getHandler : String → Bool} {g : Graph} {e : NodeRef}
    (hc : g.checkValid = true) (he : g.entry = some e)
    (hh : ∀ n ∈ g.nodes, getHandler n.name = true) :
    ∃ eg x, buildGraph getHandler g = .ok (some eg) ∧ eg.entry = some x ∧
      (SameRuns g.walk eg.walk (some e) (some x) ↔ NameDeterministic g) := by
  have hv := Graph.valid_of_checkValid he hc
  obtain ⟨eg, x, hb, hbf⟩ := buildGraph_spec hv hh
  exact ⟨eg, x, hb, hbf.entry_eq, hbf.sameRuns_iff hv⟩

/-- The execution graph of `d_wf`, where no handler is named twice, runs as its
workflow graph. -/
theorem buildGraph_sameRuns_dWf :
    dWfGraph.checkValid = true ∧ dWfGraph.entry = some (.node 0) ∧ NameDeterministic dWfGraph ∧
      ∃ eg x, buildGraph (fun _ => true) dWfGraph = .ok (some eg) ∧ eg.entry = some x ∧
        SameRuns dWfGraph.walk eg.walk (some (.node 0)) (some x) := by
  have hd : NameDeterministic dWfGraph := by decide +kernel
  obtain ⟨eg, x, hb, hx, hiff⟩ := @buildGraph_sameRuns_iff (fun _ => true) dWfGraph (.node 0)
    (by decide +kernel) rfl fun _ _ => rfl
  exact ⟨by decide +kernel, rfl, hd, eg, x, hb, hx, hiff.2 hd⟩

/-- The graph of the block `{ A A }`. -/
def twiceGraph : Graph where
  name := "twice"
  entry := some (.node 0)
  nodes := [⟨"A", some (.node 1), some (.node 1)⟩, ⟨"A", some .endNode, some .endNode⟩]

/-- Both places that name `A` become the one execution node `A`, and since the
first leads to the second, that node becomes its own successor: the workflow runs
`A` twice and stops, its execution graph runs `A` for ever. -/
theorem buildGraph_twice :
    compileWorkflow (.workflow (.name "twice") (.stmtList [.name "A", .name "A"])) [] =
        some [("twice", twiceGraph)] ∧
      twiceGraph.checkValid = true ∧
      ∃ eg, buildGraph (fun _ => true) twiceGraph = .ok (some eg) ∧
        eg.entry = some (.node "A") ∧
        twiceGraph.walk.names (fun _ => true) 3 (some (.node 0)) = ["A", "A"] ∧
        eg.walk.names (fun _ => true) 3 (some (.node "A")) = ["A", "A", "A"] :=
  ⟨by decide +kernel, by decide +kernel, _, rfl, rfl, rfl, rfl⟩

end Rtp.Framework
