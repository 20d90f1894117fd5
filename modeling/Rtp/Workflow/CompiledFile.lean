import Rtp.Workflow.Correct
import Rtp.Workflow.Printer
import Rtp.Workflow.Rejection

/-!
# The text of a file and its graphs

`Compiler::Compile` parses a file and hands the tree to `CompileInner`, which compiles one workflow
after the other into a map that holds the graphs of those before it.

* `compileInner_isSome_iff`, `compileInner_graphs` — when the loop gets through, and what it leaves.
* `compile_file` — **which files compile, and to what**: there is one graph for each workflow, which
  runs as the text says.
-/

namespace Rtp.Workflow

open Dialogue WorkflowSyntax

/-- The tree of a file with these workflows. -/
def fileTree (file : List (String × WorkflowSyntax)) : WorkflowSyntax :=
  stmtList (file.map fun w => .workflow (.name w.1) w.2)

variable {text : List Char} {root : WorkflowSyntax} {file : List (String × WorkflowSyntax)}
  {graphs graphs' : GraphMap}

theorem exists_fileTree (h : Parses text root) : ∃ file, fileTree file = root := by
  obtain ⟨tokens, -, hd⟩ := h
  obtain ⟨workflows, rfl, -⟩ := reads_of_derives hd
  have hform : workflows ∈ Set.range
      (List.map fun w : String × WorkflowSyntax => WorkflowSyntax.workflow (.name w.1) w.2) := by
    rw [Set.range_list_map]
    intro w hw
    obtain ⟨v, -, hdw⟩ := hd.exists_of_mem w hw
    cases hdw with
    | @workflow str _ block _ => exact ⟨(str, block), rfl⟩
  obtain ⟨file, rfl⟩ := hform
  exact ⟨file, rfl⟩

/-- One round of the loop. -/
theorem compileInner_cons (w : String × WorkflowSyntax) :
    compileInner (fileTree (w :: file)) graphs =
      (compileWorkflow (.workflow (.name w.1) w.2) graphs).bind (compileInner (fileTree file)) :=
  rfl

/-- The loop gets through if no name is taken, by a graph or by an earlier workflow, and every block
is accepted. -/
theorem compileInner_isSome_iff :
    (compileInner (fileTree file) graphs).isSome = true ↔ (file.map Prod.fst).Nodup ∧
      ∀ w ∈ file, graphs.lookup w.1 = none ∧ w.2.acceptedBlock = true := by
  induction file generalizing graphs with
  | nil => simp [fileTree, compileInner]
  | cons w file ih =>
    have hfirst := compileWorkflow_isSome_iff w.1 w.2 graphs
    rw [compileInner_cons, List.forall_mem_cons, ← hfirst]
    cases hw : compileWorkflow (.workflow (.name w.1) w.2) graphs with
    | none => simp
    | some graphs₁ =>
      obtain ⟨g, -, -, rfl⟩ := compileWorkflow_cases hw
      have hlookup : ∀ v, List.lookup v ((w.1, g) :: graphs) = none ↔
          v ≠ w.1 ∧ graphs.lookup v = none := by
        intro v
        by_cases hv : v = w.1
        · simp [hv]
        · rw [List.lookup_cons, beq_false_of_ne hv, and_iff_right hv]
      rw [Option.bind_some, ih, List.map_cons, List.nodup_cons, List.mem_map]
      simp only [hlookup, Option.isSome_some, true_and, not_exists, not_and]
      grind

/-- The graphs of the workflows, the last one in front. -/
theorem compileInner_graphs (h : compileInner (fileTree file) graphs = some graphs') :
    ∃ made, graphs' = made.reverse ++ graphs ∧ List.Forall₂ (fun w p =>
      p.1 = w.1 ∧ compileGraph w.1 w.2 = some p.2 ∧ p.2.checkValid = true) file made := by
  induction file generalizing graphs with
  | nil => exact ⟨[], (Option.some.inj h).symm, .nil⟩
  | cons w file ih =>
    rw [compileInner_cons, Option.bind_eq_some_iff] at h
    obtain ⟨graphs₁, hw, h⟩ := h
    obtain ⟨g, hbuild, hvalid, rfl⟩ := compileWorkflow_cases hw
    obtain ⟨made, rfl, hmade⟩ := ih h
    exact ⟨(w.1, g) :: made, by simp, .cons ⟨rfl, hbuild, hvalid⟩ hmade⟩

/-- A graph that passes the check runs as its block, also when there is nothing to run. -/
theorem sameRuns_of_checkValid {name : String} {block : WorkflowSyntax} {g : Graph}
    (h : compileGraph name block = some g) (hvalid : g.checkValid = true) :
    SameRuns g.walk run g.entry block.stmts := by
  obtain ⟨hentry, hnil⟩ | ⟨e, hv⟩ := Graph.checkValid_iff.1 hvalid
  · obtain ⟨k, rfl⟩ : ∃ k, block = .stmtList k := by
      obtain ⟨r, hr, -⟩ := Option.map_eq_some_iff.1 h
      exact exists_of_compileBlock hr
    have hends : endsHere k = true := by
      by_contra hk
      exact compileGraph_nodes_ne_nil h (by simpa using hk) hnil
    have hstop : run.next k = none := by
      cases k with
      | nil => exact nextCall.eq_1
      | cons s k => rw [eq_returnStmt hends]; exact nextCall.eq_2 k
    refine sameRuns_of_bisim (R := fun p k => p = none ∧ run.next k = none) ?_ ⟨hentry, hstop⟩
    rintro p k ⟨rfl, hk⟩
    rw [hk]
    exact .stop
  · rw [hv.entry_eq]
    exact walk_sameRuns_of_codeSeq (codeSeq_of_compileGraph h hv.entry_eq (noNull_of_valid hv))

/-- **Which files compile, and to what.**  A text that is parsed has one tree, a list of workflows.
`Compile` succeeds exactly if their names are distinct and every block is accepted.  It then
leaves one graph for each workflow, under its name, and each of them runs the handlers that the
text says and stops when it says, against every stream of handler results. -/
theorem compile_file (h : Parses text root) :
    (∀ root', Parses text root' → root' = root) ∧ ∃ file, fileTree file = root ∧
      ((compileInner root []).isSome = true ↔
        (file.map Prod.fst).Nodup ∧ ∀ w ∈ file, w.2.acceptedBlock = true) ∧
      ∀ graphs, compileInner root [] = some graphs → List.Forall₂ (fun w p =>
        p.1 = w.1 ∧ SameRuns p.2.walk run p.2.entry w.2.stmts) file graphs.reverse := by
  obtain ⟨file, rfl⟩ := exists_fileTree h
  refine ⟨fun root' h' => ?_, file, rfl, by simp [compileInner_isSome_iff], fun graphs hc => ?_⟩
  · obtain ⟨tokens, hlex, hd⟩ := h
    obtain ⟨tokens', hlex', hd'⟩ := h'
    obtain rfl := Option.some.inj (hlex.symm.trans hlex')
    exact hd'.unique hd
  · obtain ⟨made, rfl, hmade⟩ := compileInner_graphs hc
    rw [List.append_nil, List.reverse_reverse]
    exact hmade.imp fun _ _ hp => ⟨hp.1, sameRuns_of_checkValid hp.2.1 hp.2.2⟩

theorem compile_oneWorkflow : Parses oneWorkflow oneRoot ∧
    (compileInner oneRoot []).isSome = true ∧ ∀ root', Parses oneWorkflow root' → root' = oneRoot :=
  ⟨parses_oneWorkflow, by decide +kernel, (compile_file parses_oneWorkflow).1⟩

end Rtp.Workflow
