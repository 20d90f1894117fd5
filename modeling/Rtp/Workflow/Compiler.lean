import Rtp.Workflow.Syntax
import Rtp.Workflow.Graph

/-!
# The workflow compiler

The model of `orc/workflow/compiler.cc`.  The compiler walks the syntax tree once
and creates a node for every handler it meets.  Where the edges of a node lead is
often not known yet; such an edge is put into a `Label`, and attaching the label
to a node later sets all of its edges at once.  Labels are objects that contexts
point to, that are handed down to nested statements and that change places
between statements, so they are kept here as the code keeps them: in a store,
referred to by number.

Every function returns `none` where the code returns `false`.
-/

namespace Rtp.Workflow

/-- An edge that a label still owes a target: the true or the false edge of a
node. -/
structure Edge where
  direct : Bool
  node : ℕ
  deriving DecidableEq, Repr

/-- What a compilation works on: the nodes of the graph and the labels created
so far. -/
structure CompileState where
  nodes : List Node
  labels : ℕ → List Edge
  labelCount : ℕ

/-- `Context`, without the graph, which is part of the state. -/
structure Context where
  entry : Option NodeRef
  prevLabel : ℕ
  nextLabel : ℕ
  deriving DecidableEq, Repr

/-- `set_true_edge` and `set_false_edge`. -/
def Node.setEdge (n : Node) (direct : Bool) (target : Option NodeRef) : Node :=
  if direct then { n with trueEdge := target } else { n with falseEdge := target }

namespace CompileState

/-- The state a compilation of one workflow starts from. -/
def empty : CompileState := ⟨[], fun _ => [], 0⟩

/-- Declare a `Label`. -/
def newLabel (σ : CompileState) : ℕ × CompileState :=
  (σ.labelCount,
    { σ with labels := Function.update σ.labels σ.labelCount [], labelCount := σ.labelCount + 1 })

/-- `Label::AddEdge`. -/
def addEdge (σ : CompileState) (l : ℕ) (e : Edge) : CompileState :=
  { σ with labels := Function.update σ.labels l (σ.labels l ++ [e]) }

/-- `Label::Attach`: every edge of the label is set to the target, which may be
null, and the label is emptied. -/
def attach (σ : CompileState) (l : ℕ) (target : Option NodeRef) : CompileState :=
  { σ with
    nodes := (σ.labels l).foldl
      (fun ns e => ns.modify e.node fun n => n.setEdge e.direct target) σ.nodes
    labels := Function.update σ.labels l [] }

/-- `Label::Append`: the edges of the second label move to the first. -/
def append (σ : CompileState) (l l' : ℕ) : CompileState :=
  { σ with
    labels := Function.update (Function.update σ.labels l (σ.labels l ++ σ.labels l')) l' [] }

end CompileState

/-- What compiling a piece of syntax in a context does: fail, or change the
context and the state. -/
abbrev Compile : Type := Context → CompileState → Option (Context × CompileState)

/-- `CompileName`. -/
def compileName (str : String) : Compile := fun ctx σ =>
  let v := σ.nodes.length
  let σ := (σ.addEdge ctx.prevLabel ⟨true, v⟩).addEdge ctx.nextLabel ⟨false, v⟩
  some ({ ctx with entry := some (.node v) }, { σ with nodes := σ.nodes ++ [⟨str, none, none⟩] })

/-- `CompileExp`, with `CompileUnopExp`: a `!` lets the two labels change places. -/
def compileExp : WorkflowSyntax → Compile
  | .unopExp .not left => fun ctx σ =>
    compileExp left { ctx with prevLabel := ctx.nextLabel, nextLabel := ctx.prevLabel } σ
  | .name str => compileName str
  | _ => fun _ _ => none

/-- `CompileExpStmt`: both edges of the handler lead to the next statement. -/
def compileExpStmt (exp : WorkflowSyntax) : Compile := fun ctx σ =>
  (compileExp exp ⟨none, ctx.nextLabel, ctx.nextLabel⟩ σ).map fun (expCtx, σ) =>
    ({ ctx with entry := expCtx.entry }, σ.attach ctx.prevLabel expCtx.entry)

/-- `CompileReturnStmt`. -/
def compileReturnStmt : Compile := fun ctx σ =>
  some (ctx, σ.attach ctx.prevLabel (some .endNode))

/-- `CompileIfStmt`, given how its two blocks are compiled. -/
def compileIfStmt (condition : WorkflowSyntax) (thenBlock : Compile) (elseEmpty : Bool)
    (elseBlock : Compile) : Compile := fun ctx σ =>
  let (conditionEndLabel, σ) := σ.newLabel
  let (thenStartLabel, σ) := σ.newLabel
  (compileExp condition ⟨none, thenStartLabel, conditionEndLabel⟩ σ).bind fun (conditionCtx, σ) =>
  (thenBlock ⟨none, thenStartLabel, ctx.nextLabel⟩ σ).bind fun (thenCtx, σ) =>
  let σ := σ.attach thenStartLabel thenCtx.entry
  (if elseEmpty then some (σ.append ctx.nextLabel conditionEndLabel)
    else (elseBlock ⟨none, conditionEndLabel, ctx.nextLabel⟩ σ).map Prod.snd).map fun σ =>
  ({ ctx with entry := conditionCtx.entry }, σ.attach ctx.prevLabel conditionCtx.entry)

/-- `CompileWhileStmt`, given how its block is compiled. -/
def compileWhileStmt (condition : WorkflowSyntax) (block : Compile) : Compile := fun ctx σ =>
  let (blockStartLabel, σ) := σ.newLabel
  (compileExp condition ⟨none, blockStartLabel, ctx.nextLabel⟩ σ).bind fun (conditionCtx, σ) =>
  let (blockEndLabel, σ) := σ.newLabel
  (block ⟨none, blockStartLabel, blockEndLabel⟩ σ).map fun (blockCtx, σ) =>
  let σ := σ.attach blockStartLabel blockCtx.entry
  let σ := σ.attach blockEndLabel conditionCtx.entry
  ({ ctx with entry := conditionCtx.entry }, σ.attach ctx.prevLabel conditionCtx.entry)

/-- `CompileDoWhileStmt`, given how its block is compiled. -/
def compileDoWhileStmt (block : Compile) (condition : WorkflowSyntax) : Compile := fun ctx σ =>
  let (blockEndLabel, σ) := σ.newLabel
  (block ⟨none, ctx.prevLabel, blockEndLabel⟩ σ).bind fun (blockCtx, σ) =>
  let (trueLabel, σ) := σ.newLabel
  let (falseLabel, σ) := σ.newLabel
  (compileExp condition ⟨none, trueLabel, falseLabel⟩ σ).map fun (conditionCtx, σ) =>
  let σ := σ.attach trueLabel blockCtx.entry
  let σ := σ.attach blockEndLabel conditionCtx.entry
  let σ := σ.attach ctx.prevLabel blockCtx.entry
  ({ ctx with entry := blockCtx.entry }, σ.append ctx.nextLabel falseLabel)

mutual

/-- `ComplieStmt`. -/
def compileStmt : WorkflowSyntax → Compile
  | .ifStmt c t e => compileIfStmt c (compileBlock t) e.isEmpty (compileBlock e)
  | .whileStmt c b => compileWhileStmt c (compileBlock b)
  | .doWhileStmt b c => compileDoWhileStmt (compileBlock b) c
  | .returnStmt => compileReturnStmt
  | e => compileExpStmt e

/-- `CompileBlock`.  The statements of a block use two labels of their own, one
for the edges that lead into the statement being compiled and one for the edges
that leave it. -/
def compileBlock : WorkflowSyntax → Compile
  | .stmtList child => fun ctx σ =>
    let (stmtPrev, σ) := σ.newLabel
    let (stmtNext, σ) := σ.newLabel
    (compileStmts child true ⟨none, stmtPrev, stmtNext⟩ ctx.entry σ).map
      fun (stmtCtx, entry, σ) =>
    let σ := σ.attach ctx.prevLabel entry
    ({ ctx with entry := entry }, σ.append ctx.nextLabel stmtCtx.prevLabel)
  | _ => fun _ _ => none

/-- The loop of `CompileBlock`; `first` holds in the round `i == 0`, which sets
the entry of the block.  The labels change places after every statement, and the
loop is left after a `return`. -/
def compileStmts : List WorkflowSyntax → Bool → Context → Option NodeRef → CompileState →
    Option (Context × Option NodeRef × CompileState)
  | [], _, stmtCtx, entry, σ => some (stmtCtx, entry, σ)
  | s :: rest, first, stmtCtx, entry, σ =>
    (compileStmt s stmtCtx σ).bind fun (stmtCtx, σ) =>
    let entry := if first then stmtCtx.entry else entry
    let stmtCtx := ⟨stmtCtx.entry, stmtCtx.nextLabel, stmtCtx.prevLabel⟩
    if s.isReturn then some (stmtCtx, entry, σ) else compileStmts rest false stmtCtx entry σ

end

variable {s : WorkflowSyntax}

theorem compileStmt_of_isSimple (h : s.isSimple = true) : compileStmt s = compileExpStmt s := by
  cases s <;> simp_all [WorkflowSyntax.isSimple, compileStmt]

theorem compileBlock_of_not_isBlock (h : s.isBlock = false) : compileBlock s = fun _ _ => none := by
  cases s <;> simp_all [WorkflowSyntax.isBlock, compileBlock]

/-- Only blocks are compiled as such. -/
theorem exists_of_compileBlock {ctx : Context} {σ : CompileState} {r : Context × CompileState}
    (h : compileBlock s ctx σ = some r) : ∃ k, s = .stmtList k := by
  cases hs : s.isBlock with
  | false =>
    simp [compileBlock_of_not_isBlock hs] at h
  | true =>
    cases s <;> simp [WorkflowSyntax.isBlock] at hs
    exact ⟨_, rfl⟩

/-- `std::map<std::string, std::unique_ptr<Graph>>`. -/
abbrev GraphMap : Type := List (String × Graph)

/-- The graph of a workflow, as `CompileWorkflow` has it before it is checked. -/
def compileGraph (name : String) (block : WorkflowSyntax) : Option Graph :=
  let (prevLabel, σ) := CompileState.empty.newLabel
  let (nextLabel, σ) := σ.newLabel
  (compileBlock block ⟨none, prevLabel, nextLabel⟩ σ).map fun (ctx, σ) =>
    ⟨name, ctx.entry, (σ.attach nextLabel (some .endNode)).nodes⟩

/-- `CompileWorkflow`: compile one workflow and add its graph to the map. -/
def compileWorkflow : WorkflowSyntax → GraphMap → Option GraphMap
  | .workflow (.name name) block, graphs =>
    if (graphs.lookup name).isSome then none
    else
      (compileGraph name block).bind fun graph =>
      if graph.checkValid then some ((name, graph) :: graphs) else none
  | _, _ => none

/-- `CompileInner`: the workflows of a file, one after the other. -/
def compileInner : WorkflowSyntax → GraphMap → Option GraphMap
  | .stmtList child, graphs => child.foldlM (fun graphs s => compileWorkflow s graphs) graphs
  | _, _ => none

end Rtp.Workflow
