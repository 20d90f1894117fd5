import Rtp.Workflow.Syntax
import Rtp.Workflow.Graph

/-!
# How a structured program lies in a graph

`Code nodes s a t` says that the statement `s` is laid out in the nodes of a
graph, starting at `a` and leaving at `t`: the conditions and expressions of `s`
are nodes with the right handler names, and their edges lead to where the
structure of `s` says.  `CodeSeq` is the same for the statements of a block, one
laid out after the other.  The two relations mention the finished graph only;
that the compiler builds such a layout is shown in `Rtp.Workflow.Backpatch`.

`walk_sameRuns_of_codeSeq`: walking a graph from the start of a block that is
laid out in it, and leaves at the end node, is running the block.
-/

namespace Rtp.Workflow

open Dialogue WorkflowSyntax

mutual

/-- The statement is laid out in the nodes, starting at the first node and
leaving at the second. -/
inductive Code (nodes : List Node) : WorkflowSyntax → NodeRef → NodeRef → Prop
  | exp {e : WorkflowSyntax} {neg : Bool} {v : ℕ} {n : Node} {t : NodeRef}
      (hh : e.handler = some (n.name, neg)) (hn : nodes[v]? = some n)
      (ht : ∀ b, n.edge b = some t) : Code nodes e (.node v) t
  | ret {t : NodeRef} : Code nodes .returnStmt .endNode t
  | ite {c th el : WorkflowSyntax} {neg : Bool} {v : ℕ} {n : Node} {a a' t : NodeRef}
      (hh : c.handler = some (n.name, neg)) (hn : nodes[v]? = some n)
      (ht : n.edge (!neg) = some a) (hcode : CodeSeq nodes th.stmts a t)
      (hf : n.edge neg = some a') (hcode' : CodeSeq nodes el.stmts a' t) :
      Code nodes (.ifStmt c th el) (.node v) t
  | loop {c b : WorkflowSyntax} {neg : Bool} {v : ℕ} {n : Node} {a t : NodeRef}
      (hh : c.handler = some (n.name, neg)) (hn : nodes[v]? = some n)
      (ht : n.edge (!neg) = some a) (hcode : CodeSeq nodes b.stmts a (.node v))
      (hf : n.edge neg = some t) : Code nodes (.whileStmt c b) (.node v) t
  | doLoop {c b : WorkflowSyntax} {neg : Bool} {v : ℕ} {n : Node} {a t : NodeRef}
      (hh : c.handler = some (n.name, neg)) (hn : nodes[v]? = some n)
      (ht : n.edge (!neg) = some a) (hcode : CodeSeq nodes b.stmts a (.node v))
      (hf : n.edge neg = some t) : Code nodes (.doWhileStmt b c) a t

/-- The statements are laid out one after the other.  What stands behind a
`return` is not laid out at all. -/
inductive CodeSeq (nodes : List Node) : List WorkflowSyntax → NodeRef → NodeRef → Prop
  | nil {t : NodeRef} : CodeSeq nodes [] t t
  | ret {k : List WorkflowSyntax} {t : NodeRef} :
      CodeSeq nodes (.returnStmt :: k) .endNode t
  | cons {s : WorkflowSyntax} {k : List WorkflowSyntax} {a m t : NodeRef}
      (h : Code nodes s a m) (hk : CodeSeq nodes k m t) : CodeSeq nodes (s :: k) a t

end

variable {nodes : List Node}

theorem CodeSeq.append {l k : List WorkflowSyntax} {a m t : NodeRef}
    (hk : CodeSeq nodes k m t) (hl : CodeSeq nodes l a m) : CodeSeq nodes (l ++ k) a t := by
  induction l generalizing a with
  | nil => cases hl; exact hk
  | cons s l ih =>
    cases hl with
    | ret => exact .ret
    | cons hs hl => exact .cons hs (ih hl)

/-! ## Walking a layout is running the program -/

variable {g : Graph}

theorem walk_next_node {v : ℕ} {n : Node} (hn : g.nodes[v]? = some n) :
    g.walk.next (some (.node v)) = some (n.name, n.edge) := by
  simp [Graph.walk, hn]

theorem ask_of_handler {c : WorkflowSyntax} {str : String} {neg : Bool}
    (hh : c.handler = some (str, neg)) (k k' : List WorkflowSyntax) :
    ask c k k' = some (str, fun b => if b != neg then k else k') := by
  simp [ask, hh]

/-- A position of the walk and a program that is still to be run belong together
when the program is laid out there, leaving at the end node. -/
def Represents (nodes : List Node) (p : Option NodeRef) (k : List WorkflowSyntax) : Prop :=
  ∃ a, p = some a ∧ CodeSeq nodes k a .endNode

/-- A condition's node asks for its handler, and each answer leads to where the
program goes on. -/
theorem stepRel_of_condition {c : WorkflowSyntax} {neg : Bool} {v : ℕ} {n : Node}
    {k k' : List WorkflowSyntax} {a a' : NodeRef} (hh : c.handler = some (n.name, neg))
    (hn : g.nodes[v]? = some n) (ht : n.edge (!neg) = some a) (hk : CodeSeq g.nodes k a .endNode)
    (hf : n.edge neg = some a') (hk' : CodeSeq g.nodes k' a' .endNode) :
    StepRel (Represents g.nodes) (g.walk.next (some (.node v))) (ask c k k') := by
  rw [walk_next_node hn, ask_of_handler hh]
  refine .ask _ fun b => ?_
  by_cases hb : b = neg
  · subst hb
    exact ⟨a', hf, by simpa using hk'⟩
  · have hb' : b = !neg := by cases b <;> cases neg <;> simp_all
    subst hb'
    exact ⟨a, ht, by simpa using hk⟩

/-- One handler and its result keep a position and a program together.  The
induction is the one of `nextCall`: only a `do`-`while` moves on without asking
for a handler, into its block. -/
theorem stepRel_of_codeSeq (k : List WorkflowSyntax) : ∀ a, CodeSeq g.nodes k a .endNode →
      StepRel (Represents g.nodes) (g.walk.next (some a)) (nextCall k) := by
  induction k using nextCall.induct with
  | case1 =>
    intro a h
    cases h
    rw [nextCall]
    exact .stop
  | case2 k =>
    intro a h
    rw [nextCall]
    cases h with
    | ret => exact .stop
    | cons hs hk =>
      cases hs with
      | exp hh => simp [handler] at hh
      | ret => exact .stop
  | case3 c th el k =>
    intro a h
    rw [nextCall]
    cases h with
    | cons hs hk =>
      cases hs with
      | exp hh => simp [handler] at hh
      | ite hh hn ht hcode hf hcode' =>
        exact stepRel_of_condition hh hn ht (hk.append hcode) hf (hk.append hcode')
  | case4 c b k =>
    intro a h
    rw [nextCall]
    cases h with
    | cons hs hk =>
      cases hs with
      | exp hh => simp [handler] at hh
      | loop hh hn ht hcode hf =>
        exact stepRel_of_condition hh hn ht
          (CodeSeq.append (.cons (.loop hh hn ht hcode hf) hk) hcode) hf hk
  | case5 b c k ih =>
    intro a h
    rw [nextCall]
    cases h with
    | cons hs hk =>
      cases hs with
      | exp hh => simp [handler] at hh
      | doLoop hh hn ht hcode hf =>
        exact ih a (CodeSeq.append (.cons (.loop hh hn ht hcode hf) hk) hcode)
  | case6 e k h₁ h₂ h₃ h₄ =>
    intro a h
    rw [nextCall]
    · cases h with
      | ret => exact absurd rfl h₁
      | cons hs hk =>
        cases hs with
        | exp hh hn ht => exact stepRel_of_condition hh hn (ht _) hk (ht _) hk
        | ret => exact absurd rfl h₁
        | ite => exact absurd rfl (h₂ _ _ _)
        | loop => exact absurd rfl (h₃ _ _)
        | doLoop => exact absurd rfl (h₄ _ _)
    all_goals assumption

/-- **Walking a layout is running the program.** -/
theorem walk_sameRuns_of_codeSeq {k : List WorkflowSyntax} {a : NodeRef}
    (h : CodeSeq g.nodes k a .endNode) : SameRuns g.walk run (some a) k := by
  refine sameRuns_of_bisim (R := Represents g.nodes) ?_ ⟨a, rfl, h⟩
  rintro p k ⟨a, rfl, hk⟩
  exact stepRel_of_codeSeq k a hk

end Rtp.Workflow
