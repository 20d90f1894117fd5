import Rtp.Workflow.Backpatch

/-!
# The workflow compiler is correct

`compileWorkflow_correct`: whenever `CompileWorkflow` succeeds with an entry, the
graph it adds runs exactly as the workflow does.
-/

namespace Rtp.Workflow

open Dialogue WorkflowSyntax

/-- What a successful compilation has done: it has built the graph of the block,
found it valid and added it. -/
theorem compileWorkflow_cases {name : String} {block : WorkflowSyntax} {graphs graphs' : GraphMap}
    (h : compileWorkflow (.workflow (.name name) block) graphs = some graphs') :
    ∃ g, compileGraph name block = some g ∧ g.checkValid = true ∧
      (name, g) :: graphs = graphs' := by
  rw [compileWorkflow] at h
  by_cases hdup : (graphs.lookup name).isSome
  · rw [if_pos hdup] at h; simp at h
  · rw [if_neg hdup, Option.bind_eq_some_iff] at h
    obtain ⟨g, hbuild, h⟩ := h
    by_cases hvalid : g.checkValid
    · rw [if_pos hvalid, Option.some.injEq] at h
      exact ⟨g, hbuild, hvalid, h⟩
    · rw [if_neg hvalid] at h; simp at h

theorem compileWorkflow_eq_some {name : String} {block : WorkflowSyntax}
    {graphs graphs' : GraphMap} {g : Graph}
    (h : compileWorkflow (.workflow (.name name) block) graphs = some graphs')
    (hg : graphs'.lookup name = some g) :
    compileGraph name block = some g ∧ g.checkValid = true := by
  obtain ⟨g', hbuild, hvalid, rfl⟩ := compileWorkflow_cases h
  have hgg : g' = g := by simpa using hg
  exact hgg ▸ ⟨hbuild, hvalid⟩

theorem noNull_of_valid {g : Graph} {e : NodeRef} (h : g.Valid e) : NoNull g.nodes :=
  fun i hi b => h.edge_ne_none i hi b

/-- **The compiler is correct.**  Whenever `CompileWorkflow` succeeds and the
graph it adds has an entry, then against every stream of handler results: the
first `n` handlers met on the walk from the entry are the first `n` handlers the
structured program runs, one of the two has stopped after `n` of them exactly
when the other has, and the walk stops nowhere but at the end node. -/
theorem compileWorkflow_correct {name : String} {block : WorkflowSyntax}
    {graphs graphs' : GraphMap} {g : Graph} {e : NodeRef}
    (h : compileWorkflow (.workflow (.name name) block) graphs = some graphs')
    (hg : graphs'.lookup name = some g) (he : g.entry = some e) :
    (∀ (r : ℕ → Bool) (n : ℕ),
      g.walk.names r n (some e) = run.names r n block.stmts ∧
        g.walk.stops r n (some e) = run.stops r n block.stmts) ∧
    ∀ (w : List Bool) (p : Option NodeRef), g.walk.follow w (some e) = some p →
      g.walk.next p = none → p = some .endNode := by
  obtain ⟨hbuild, hcheck⟩ := compileWorkflow_eq_some h hg
  have hvalid := Graph.valid_of_checkValid he hcheck
  have hcode := codeSeq_of_compileGraph hbuild he (noNull_of_valid hvalid)
  exact ⟨walk_sameRuns_of_codeSeq hcode, fun w p hw hp => hvalid.stops_at_endNode hw hp⟩

/-- The block of the workflow `d_wf` of `testdata/compiler_test.wf`. -/
def dWf : WorkflowSyntax :=
  .stmtList [.name "A", .doWhileStmt (.stmtList [.name "B"]) (.unopExp .not (.name "C")),
    .name "D"]

/-- Its graph, with the edges `testdata/compiler_test.rst` expects. -/
def dWfGraph : Graph where
  name := "d_wf"
  entry := some (.node 0)
  nodes :=
    [⟨"A", some (.node 1), some (.node 1)⟩, ⟨"B", some (.node 2), some (.node 2)⟩,
      ⟨"C", some (.node 3), some (.node 1)⟩, ⟨"D", some .endNode, some .endNode⟩]

theorem compileWorkflow_dWf :
    compileWorkflow (.workflow (.name "d_wf") dWf) [] = some [("d_wf", dWfGraph)] := by
  decide +kernel

/-- The compiler is correct on `d_wf`. -/
theorem compileWorkflow_correct_dWf :
    compileWorkflow (.workflow (.name "d_wf") dWf) [] = some [("d_wf", dWfGraph)] ∧
      dWfGraph.entry = some (.node 0) ∧
      ∀ (r : ℕ → Bool) (n : ℕ),
        dWfGraph.walk.names r n (some (.node 0)) = run.names r n dWf.stmts ∧
          dWfGraph.walk.stops r n (some (.node 0)) = run.stops r n dWf.stmts :=
  ⟨compileWorkflow_dWf, rfl, (compileWorkflow_correct compileWorkflow_dWf rfl rfl).1⟩

end Rtp.Workflow
