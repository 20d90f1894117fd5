import Rtp.Lib.Dialogue

/-!
# Workflow syntax trees and what they mean

`WorkflowSyntax` is the tree of `orc/workflow/parser/syntax.h`: one node type for
names, expressions, statements, statement lists and whole workflows, told apart
by its kind.  The grammar of `workflow.y` only builds some of these trees; the
compiler checks the kind of every node it descends into.

The second half of the file is the meaning of a workflow as a structured
program, independent of any graph.  A program that is still to be run is the list
of its remaining statements, and it is read as a dialogue over handlers:

* an expression statement asks for its handler and ignores the result;
* `if`, `while` and `do`-`while` ask for the handler of their condition, whose
  result is negated once for every `!` in front of it;
* `do`-`while` runs its block and then is the `while` with the same condition
  and block;
* `return` ends the whole workflow, whatever is still to be run.
-/

namespace Rtp.Workflow

open Dialogue

/-- The operators of `WORKFLOW_SYNTAX_KIND_UNOP_EXP` nodes. -/
inductive OpKind where
  | not
  deriving DecidableEq, Repr

/-- `struct workflow_syntax`: one constructor for each `WORKFLOW_SYNTAX_KIND`,
with the members of the union that belong to it. -/
inductive WorkflowSyntax where
  | emptyStmt
  | name (str : String)
  | workflow (name block : WorkflowSyntax)
  | stmtList (child : List WorkflowSyntax)
  | ifStmt (condition thenBlock elseBlock : WorkflowSyntax)
  | whileStmt (condition block : WorkflowSyntax)
  | doWhileStmt (block condition : WorkflowSyntax)
  | returnStmt
  | unopExp (opkind : OpKind) (left : WorkflowSyntax)
  deriving Repr

namespace WorkflowSyntax

/-- `syntax->kind == WORKFLOW_SYNTAX_KIND_RETURN_STMT`. -/
def isReturn : WorkflowSyntax → Bool
  | returnStmt => true
  | _ => false

/-- `syntax->kind == WORKFLOW_SYNTAX_KIND_EMPTY_STMT`. -/
def isEmpty : WorkflowSyntax → Bool
  | emptyStmt => true
  | _ => false

/-- The kinds that `ComplieStmt` leaves to `CompileExpStmt`. -/
def isSimple : WorkflowSyntax → Bool
  | ifStmt _ _ _ => false
  | whileStmt _ _ => false
  | doWhileStmt _ _ => false
  | returnStmt => false
  | _ => true

/-- `syntax->kind == WORKFLOW_SYNTAX_KIND_STMT_LIST`. -/
def isBlock : WorkflowSyntax → Bool
  | stmtList _ => true
  | _ => false

theorem isReturn_of_isSimple {s : WorkflowSyntax} (h : s.isSimple = true) :
    s.isReturn = false := by
  cases s <;> simp_all [isSimple, isReturn]

/-! ## The structured semantics -/

/-- The handler an expression names, and whether its result is negated: once for
every `!` in front of the name. -/
def handler : WorkflowSyntax → Option (String × Bool)
  | name str => some (str, false)
  | unopExp .not left => left.handler.map fun p => (p.1, !p.2)
  | _ => none

/-- The statements of a block, or of the branch of an `if` that is a block, an
`else if`, or not there at all. -/
def stmts : WorkflowSyntax → List WorkflowSyntax
  | stmtList child => child
  | ifStmt c t e => [ifStmt c t e]
  | _ => []

/-- How many `do`-`while` blocks have to be entered, at most, before a statement
asks for a handler; the measure of `nextCall`. -/
def depth : WorkflowSyntax → ℕ
  | doWhileStmt (stmtList child) _ => 2 + depthList child
  | doWhileStmt (ifStmt _ _ _) _ => 3
  | doWhileStmt _ _ => 2
  | _ => 1
where
  /-- The sum over a list of statements. -/
  depthList : List WorkflowSyntax → ℕ
    | [] => 0
    | s :: rest => s.depth + depthList rest

theorem depthList_append (l l' : List WorkflowSyntax) :
    depth.depthList (l ++ l') = depth.depthList l + depth.depthList l' := by
  induction l with
  | nil => simp [depth.depthList]
  | cons s rest ih => simp [depth.depthList, ih, Nat.add_assoc]

theorem depth_doWhileStmt (block condition : WorkflowSyntax) :
    (doWhileStmt block condition).depth = 2 + depth.depthList block.stmts := by
  cases block <;> simp [depth, stmts, depth.depthList]

/-- Ask for the handler of a condition and go on with one of two programs. -/
def ask (condition : WorkflowSyntax) (onTrue onFalse : List WorkflowSyntax) :
    Option (String × (Bool → List WorkflowSyntax)) :=
  condition.handler.map fun p => (p.1, fun b => if b != p.2 then onTrue else onFalse)

/-- The next handler a program asks for, and the program that is left after its
result; `none` when the program has ended. -/
def nextCall : List WorkflowSyntax → Option (String × (Bool → List WorkflowSyntax))
  | [] => none
  | returnStmt :: _ => none
  | ifStmt c t e :: k => ask c (t.stmts ++ k) (e.stmts ++ k)
  | whileStmt c b :: k => ask c (b.stmts ++ whileStmt c b :: k) k
  | doWhileStmt b c :: k => nextCall (b.stmts ++ whileStmt c b :: k)
  | e :: k => ask e k k
termination_by k => depth.depthList k
decreasing_by
  rw [depthList_append, depth.depthList, depth.depthList, depth_doWhileStmt]
  simp only [depth]
  omega

/-- A workflow block as a dialogue over handlers. -/
def run : Machine (List WorkflowSyntax) String where
  next := nextCall

end WorkflowSyntax

end Rtp.Workflow
