import Rtp.Framework.ExecutionGraph
import Rtp.Workflow.Rejection

/-!
# Compiled workflows that can be built

What `ExecutionGraphMgr` does with a workflow the compiler has accepted: `BuildGraph`
starts at the entry of its graph, and takes for granted that there is one.

* `ExecutionGraph.Linked` — the entry and every successor are there.
* `Buildable` — the entry of the graph is one of its nodes, and `BuildGraph` ends with a
  linked execution graph.
* `buildable_compileWorkflow_iff` — **when a compiled workflow can be built**: when its
  block is not empty and does not start with `return`.  Otherwise the graph has no entry,
  passes the check because it has no nodes either, and `BuildGraph` reads the name of a
  null node.
-/

namespace Rtp.Framework

open Workflow WorkflowSyntax

/-- The entry and all successors are non-null. -/
def ExecutionGraph.Linked (eg : ExecutionGraph) : Prop :=
  eg.entry ≠ none ∧ ∀ nm n, eg.getNode nm = some n → n.trueNext ≠ none ∧ n.falseNext ≠ none

/-- The entry is one of the nodes, and `BuildGraph` ends with a linked graph: it neither
dereferences a null node nor runs out of fuel. -/
def Buildable (getHandler : String → Bool) (g : Graph) : Prop :=
  (∃ e, g.entry = some e ∧ g.Owns e) ∧
    ∃ eg, buildGraph getHandler g = .ok (some eg) ∧ eg.Linked

variable {getHandler : String → Bool} {g : Graph} {e : NodeRef}

/-- A node of a valid graph, or the end, is stood for by an execution node. -/
theorem toExec_ne_none {v : NodeRef} (hv : v = .endNode ∨ g.Owns v) : toExec g v ≠ none := by
  rcases hv with rfl | ⟨i, hi, rfl⟩
  · simp [toExec]
  · simp [toExec, List.getElem?_eq_getElem hi]

/-- A node that stands for a node of a valid graph has both successors. -/
theorem StandsFor.next_ne_none {n : ExecutionNode} {i : ℕ} (h : StandsFor g n i)
    (hv : g.Valid e) (b : Bool) : n.next b ≠ none := by
  obtain ⟨m, hm, -⟩ := Option.map_eq_some_iff.1 h.name
  have hi := (List.getElem?_eq_some_iff.1 hm).1
  obtain ⟨t, ht⟩ := Option.ne_none_iff_exists'.1 (hv.edge_ne_none i hi b)
  rw [h.next b, ht, Option.bind_some]
  exact toExec_ne_none (hv.edge_mem _ b t ht)

/-- **A valid graph can be built** when there is a handler for every name. -/
theorem buildable_of_valid (hv : g.Valid e) (hh : ∀ n ∈ g.nodes, getHandler n.name = true) :
    Buildable getHandler g := by
  obtain ⟨eg, x, hb, hbf⟩ := buildGraph_spec hv hh
  refine ⟨⟨e, hv.entry_eq, hv.entry_mem⟩, eg, hb, by rw [hbf.entry_eq]; simp, fun nm n hn => ?_⟩
  obtain ⟨-, ⟨i, hst⟩, -⟩ := hbf.node nm n hn
  exact ⟨hst.next_ne_none hv true, hst.next_ne_none hv false⟩

/-- **When a compiled workflow can be built.**  If `CompileWorkflow` returns true, it has
added the graph of a workflow; with a handler for every name in it, that graph can be
built exactly when the block of the workflow is not empty and does not start with
`return`. -/
theorem buildable_compileWorkflow_iff {stx : WorkflowSyntax} {graphs graphs' : GraphMap}
    (h : compileWorkflow stx graphs = some graphs') :
    ∃ name block g, stx = .workflow (.name name) block ∧ graphs' = (name, g) :: graphs ∧
      ∀ getHandler : String → Bool, (∀ n ∈ g.nodes, getHandler n.name = true) →
        (Buildable getHandler g ↔ endsHere block.stmts = false) := by
  obtain ⟨name, block, rfl⟩ : ∃ name block, stx = .workflow (.name name) block := by
    cases stx with
    | workflow n b =>
      cases n with
      | name name => exact ⟨name, b, rfl⟩
      | _ => simp [compileWorkflow] at h
    | _ => simp [compileWorkflow] at h
  obtain ⟨g, hg, hvalid, rfl⟩ := compileWorkflow_cases h
  refine ⟨name, block, g, rfl, rfl, fun getHandler hh => ?_⟩
  have hacc := checkValid_compileGraph hg
  rw [hvalid] at hacc
  obtain ⟨k, rfl⟩ : ∃ k, block = .stmtList k := by
    cases block <;> simp [acceptedBlock] at hacc
    exact ⟨_, rfl⟩
  rw [stmts]
  constructor
  · rintro ⟨⟨e, he, -⟩, -⟩
    by_contra hk
    rw [(compileGraph_of_endsHere hg (Bool.not_eq_false _ ▸ hk)).1] at he
    simp at he
  · intro hk
    rcases Graph.checkValid_iff.1 hvalid with ⟨-, hnil⟩ | ⟨e, hv⟩
    · exact absurd hnil (compileGraph_nodes_ne_nil hg hk)
    · exact buildable_of_valid hv hh

/-- The graph of `d_wf` can be built. -/
theorem buildable_compileWorkflow_dWf :
    ∃ name block g, WorkflowSyntax.workflow (.name "d_wf") dWf = .workflow (.name name) block ∧
      [("d_wf", dWfGraph)] = (name, g) :: [] ∧
      ∀ getHandler : String → Bool, (∀ n ∈ g.nodes, getHandler n.name = true) →
        (Buildable getHandler g ↔ endsHere block.stmts = false) :=
  buildable_compileWorkflow_iff compileWorkflow_dWf

/-- The workflows `{ }` and `{ return }` compile, and building them dereferences a null
node. -/
theorem buildGraph_nullEntry :
    compileWorkflow (.workflow (.name "w") (.stmtList [])) [] = some [("w", ⟨"w", none, []⟩)] ∧
    compileWorkflow (.workflow (.name "w") (.stmtList [.returnStmt])) [] =
      some [("w", ⟨"w", none, []⟩)] ∧
    buildGraph (fun _ => true) ⟨"w", none, []⟩ = .error .nullNode :=
  ⟨by decide +kernel, by decide +kernel, rfl⟩

end Rtp.Framework
