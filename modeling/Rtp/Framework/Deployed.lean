import Rtp.Framework.Clone
import Rtp.Workflow.CompiledFile

/-!
# The pool of a workflow

A workflow is compiled, `BuildGraph` makes an execution graph of the workflow graph, and clones of
that graph fill the pool.  Here the stages are put together, on the heap.

* `Holds.sameRuns` — a graph that was built runs as the execution graph with names, whatever has
  been allocated since; `IsClone.sameRuns` — a clone runs as its original.
* `pool_runs_as_written_iff` — **a graph of the pool runs as the text says exactly if names decide
  what follows.**
-/

namespace Rtp.Framework

open Dialogue Workflow WorkflowSyntax

/-- The handler of the node that the pointer leads to is run, and its result chooses the
successor. -/
def heapWalk (heap : Heap) : Machine (Option NodePtr) String where
  next
    | some (.node a) => (heap[a]?).map fun n => (n.name, n.next)
    | _ => none

variable {heap heap₀ heap' : Heap} {hg cl : HeapGraph} {eg : ExecutionGraph}

/-- Pointers of a graph that was built run as the references with names. -/
theorem Holds.sameRuns (h : Holds heap hg eg) (hpre : heap <+: heap') {p : Option NodePtr}
    {x : Option ExecRef} (hp : Leads hg p x) : SameRuns (heapWalk heap') eg.walk p x := by
  refine sameRuns_of_bisim (R := Leads hg) (fun p x hp => ?_) hp
  cases hp with
  | null | endNode => exact .stop
  | @node nm a ha =>
    obtain ⟨n, m, hn, hm, -, hmatch⟩ := h.node nm a ha
    simp only [heapWalk, getElem?_of_prefix hpre hn, ExecutionGraph.walk, hm, Option.map_some,
      hmatch.name]
    exact .ask m.name hmatch.next

/-- **A clone runs as its original**, each on its own nodes. -/
theorem IsClone.sameRuns (h : IsClone heap₀ heap hg cl) (hw : Wired heap₀ hg) :
    SameRuns (heapWalk heap) (heapWalk heap₀) cl.entry hg.entry := by
  -- a pointer of the original leads to a node that its graph has filed
  let R := fun q p : Option NodePtr => Relinked heap₀ cl p q ∧
    ∀ a, p = some (.node a) → ∃ nm, hg.getNode nm = some a
  have hstep : ∀ q p, R q p → StepRel R ((heapWalk heap).next q) ((heapWalk heap₀).next p) := by
    rintro q p ⟨hpq, hfiled⟩
    cases hpq with
    | endNode => exact .stop
    | @node a c n hn hc =>
      obtain ⟨nm, hnm⟩ := hfiled a rfl
      obtain ⟨n', hn', hname, hnext⟩ := hw.node nm a hnm
      obtain rfl : n = n' := Option.some.inj (hn.symm.trans hn')
      obtain ⟨m, hm, -, hmname, -, hrel⟩ :=
        h.node nm n (by rw [HeapGraph.nodeOf, hnm, Option.bind_some, hn])
      rw [HeapGraph.nodeOf, ← hname, hc, Option.bind_some] at hm
      simp only [heapWalk, hm, hn, Option.map_some, hmname, hname]
      refine .ask nm fun b => ⟨hrel b, fun a' ha' => ?_⟩
      obtain hend | ⟨k, a'', hk, hfile⟩ := hnext b
      · simp [hend] at ha'
      · obtain rfl : a'' = a' := NodePtr.node.inj (Option.some.inj (hk.symm.trans ha'))
        exact ⟨k, hfile⟩
  refine sameRuns_of_bisim hstep ⟨h.entry.2, fun a ha => ?_⟩
  obtain ⟨nm, a', hentry, hfile⟩ := hw.entry
  obtain rfl : a' = a := NodePtr.node.inj (Option.some.inj (hentry.symm.trans ha))
  exact ⟨nm, hfile⟩

variable {g : Graph} {e : NodeRef} {getHandler : String → Bool}

/-- What `BuildGraph` returns, and how it runs when more has been allocated. -/
theorem buildGraph_runs_iff (hv : g.Valid e) (hh : ∀ n ∈ g.nodes, getHandler n.name = true)
    (version : BitVec 32) (heap : Heap) :
    ∃ heap' hg, HeapGraph.buildGraph getHandler g version heap = .ok (some (heap', hg)) ∧
      Wired heap' hg ∧ (∀ nm ∈ hg.nodes, getHandler nm = true) ∧ ∀ heap'', heap' <+: heap'' →
        (SameRuns (heapWalk heap'') g.walk hg.entry (some e) ↔ NameDeterministic g) := by
  obtain ⟨heap', hg, hbuild, hwired⟩ := wired_buildGraph hv hh version heap
  obtain ⟨eg, x, hexec, hfrom⟩ := buildGraph_spec hv hh
  obtain ⟨eg₀, hnode, rfl⟩ := buildNode_of_buildGraph hexec hfrom.entry_eq
  obtain ⟨p, heap₁, hg₁, hheap, hs, hp, -⟩ := buildNode_holds hnode (.new heap g.name version)
  obtain ⟨rfl, rfl⟩ : heap₁ = heap' ∧ { hg₁ with entry := some p } = hg := by
    simpa [HeapGraph.buildGraph, hheap, bind, Except.bind, pure, Except.pure] using hbuild
  refine ⟨heap₁, _, hbuild, hwired, fun nm hnm => ?_, fun heap'' hpre => ?_⟩
  · -- a name is filed for a node of the workflow graph
    obtain ⟨m, hm, -⟩ := hwired.nodeOf hnm
    obtain ⟨a, ha, -⟩ := Option.bind_eq_some_iff.mp hm
    obtain ⟨-, n, -, hn, -⟩ := hs.node nm a ha
    obtain ⟨rfl, ⟨i, hi⟩, -⟩ := hfrom.node nm n hn
    obtain ⟨node, hget, hname⟩ := Option.map_eq_some_iff.mp hi.name
    exact hname ▸ hh node (List.mem_of_getElem? hget)
  · have hruns := hs.sameRuns hpre hp
    rw [← hfrom.sameRuns_iff hv]
    exact ⟨fun h => h.symm.trans hruns, fun h => hruns.trans h.symm⟩

/-- **A graph of the pool runs as the text says exactly if names decide what follows.**  A
workflow that the compiler accepts, with an entry and a handler for every node, is built on any
heap, and cloned for a pool of any size that 32 bits count to, in any order of the nodes.  No two
graphs of the pool share a node; and each runs the handlers that the text says and stops when it
says, against every stream of results, exactly if nodes of one name have the same successors. -/
theorem pool_runs_as_written_iff {name : String} {block : WorkflowSyntax}
    {graphs graphs' : GraphMap}
    (h : compileWorkflow (.workflow (.name name) block) graphs = some graphs')
    (hg : graphs'.lookup name = some g) (he : g.entry = some e)
    (hh : ∀ n ∈ g.nodes, getHandler n.name = true) (version : BitVec 32) (heap : Heap) :
    ∃ heap' exe, HeapGraph.buildGraph getHandler g version heap = .ok (some (heap', exe)) ∧
      ∀ (poolSize : ℕ) (order : List String), poolSize < 2 ^ 32 → order.Perm exe.nodes.keys →
        ∃ heap'' pool, exe.clones getHandler order poolSize heap' = .ok (some (heap'', pool)) ∧
          pool.length = poolSize - 1 ∧ (exe :: pool).Pairwise HeapGraph.Apart ∧
          ∀ hg ∈ exe :: pool,
            SameRuns (heapWalk heap'') run hg.entry block.stmts ↔ NameDeterministic g := by
  obtain ⟨hbuild, hcheck⟩ := compileWorkflow_eq_some h hg
  have hv := Graph.valid_of_checkValid he hcheck
  have hcode : SameRuns g.walk run (some e) block.stmts := he ▸ sameRuns_of_checkValid hbuild hcheck
  obtain ⟨heap', exe, hexe, hwired, hfiled, hruns⟩ := buildGraph_runs_iff hv hh version heap
  refine ⟨heap', exe, hexe, fun poolSize order hsize horder => ?_⟩
  obtain ⟨heap'', pool, hclones, hlength, hkept, hapart, hpool⟩ :=
    clonesFrom_apart (i := 1) hwired horder hfiled hsize (Nat.lt_succ_of_le (Nat.sub_le _ _))
  refine ⟨heap'', pool, hclones, hlength, List.pairwise_cons.mpr ⟨?_, hapart⟩, ?_⟩
  · -- the clones lie behind the nodes that were there
    intro cl hcl nm nm' a ha ha'
    obtain ⟨heap₀, hpre, hclone⟩ := hpool cl hcl
    obtain ⟨n, hn, -⟩ := hwired.node nm a ha
    have hlt := (List.getElem?_eq_some_iff.mp hn).1
    have hle := hclone.fresh nm' a ha'
    have := hpre.length_le
    omega
  · intro hg hmem
    -- every graph of the pool runs as the first one did on some heap
    obtain ⟨heap₀, hpre, hsame⟩ : ∃ heap₀, heap' <+: heap₀ ∧
        SameRuns (heapWalk heap'') (heapWalk heap₀) hg.entry exe.entry := by
      obtain rfl | hcl := List.mem_cons.mp hmem
      · exact ⟨heap'', hkept, fun _ _ => ⟨rfl, rfl⟩⟩
      · obtain ⟨heap₀, hpre, hclone⟩ := hpool hg hcl
        exact ⟨heap₀, hpre, hclone.sameRuns (hwired.mono hpre)⟩
    rw [← hruns heap₀ hpre]
    exact ⟨fun h => hsame.symm.trans (h.trans hcode.symm), fun h => hsame.trans (h.trans hcode)⟩

/-- A pool of three graphs for `d_wf`. -/
theorem pool_runs_as_written_dWf : ∃ heap' exe heap'' pool,
    HeapGraph.buildGraph (fun _ => true) dWfGraph 1 [] = .ok (some (heap', exe)) ∧
      exe.clones (fun _ => true) exe.nodes.keys 3 heap' = .ok (some (heap'', pool)) ∧
      ∀ hg ∈ exe :: pool, SameRuns (heapWalk heap'') run hg.entry dWf.stmts := by
  obtain ⟨heap', exe, hbuild, hpool⟩ := @pool_runs_as_written_iff dWfGraph (.node 0)
    (fun _ => true) "d_wf" dWf [] _ compileWorkflow_dWf rfl rfl (fun _ _ => rfl) 1 []
  obtain ⟨heap'', pool, hclones, -, -, hruns⟩ := hpool 3 exe.nodes.keys (by decide)
    (List.Perm.refl _)
  have hd : NameDeterministic dWfGraph := by decide +kernel
  exact ⟨heap', exe, heap'', pool, hbuild, hclones, fun hg hmem => (hruns hg hmem).mpr hd⟩

end Rtp.Framework
