import Rtp.Workflow.Rejection

/-!
# `else if`

The grammar of `workflow.y` accepts `else if`, and puts the inner `if` where the
compiler expects a block.  `CompileBlock` checks the kind of its node and refuses it.

* `WorkflowSyntax.elseBlocks` — the workflow with each `else if …` written as
  `else { if … }`.
* `WorkflowSyntax.hasElseIf` — an `else if` stands where the compiler gets to see it:
  not behind a `return` of the same block.
* `compile_of_hasElseIf` — such a workflow is never compiled.
* `compile_elseBlocks` — without one, rewriting makes no difference to what is compiled.
* `compileWorkflow_elseIf_iff` — **when `else if` means what it says**: when the
  compiler does not get to see one, or would refuse the workflow anyway.
-/

namespace Rtp.Workflow

namespace WorkflowSyntax

/-- `syntax->kind == WORKFLOW_SYNTAX_KIND_IF_STMT`. -/
def isIf : WorkflowSyntax → Bool
  | ifStmt _ _ _ => true
  | _ => false

mutual

/-- Each `else if …` written as `else { if … }`. -/
def elseBlocks : WorkflowSyntax → WorkflowSyntax
  | ifStmt c t e =>
    ifStmt c t.elseBlocks (if e.isIf then stmtList [e.elseBlocks] else e.elseBlocks)
  | whileStmt c b => whileStmt c b.elseBlocks
  | doWhileStmt b c => doWhileStmt b.elseBlocks c
  | stmtList child => stmtList (elseBlocksAll child)
  | workflow n b => workflow n b.elseBlocks
  | s => s

/-- The same for each statement of a block. -/
def elseBlocksAll : List WorkflowSyntax → List WorkflowSyntax
  | [] => []
  | s :: rest => s.elseBlocks :: elseBlocksAll rest

end

mutual

/-- The compiler gets to see an `else if`. -/
def hasElseIf : WorkflowSyntax → Bool
  | ifStmt _ t e => t.hasElseIf || e.isIf || e.hasElseIf
  | whileStmt _ b => b.hasElseIf
  | doWhileStmt b _ => b.hasElseIf
  | stmtList child => anyElseIf child
  | _ => false

/-- It does so in one of the statements up to the first `return`. -/
def anyElseIf : List WorkflowSyntax → Bool
  | [] => false
  | s :: rest => s.hasElseIf || !s.isReturn && anyElseIf rest

end

theorem isReturn_elseBlocks (s : WorkflowSyntax) : s.elseBlocks.isReturn = s.isReturn := by
  cases s <;> rfl

theorem isEmpty_elseBlocks (s : WorkflowSyntax) : s.elseBlocks.isEmpty = s.isEmpty := by
  cases s <;> rfl

theorem isBlock_elseBlocks {s : WorkflowSyntax} (h : s.isBlock = false) :
    s.elseBlocks.isBlock = false := by
  cases s <;> simp_all [isBlock, elseBlocks]

end WorkflowSyntax

open WorkflowSyntax

/-! ## An `else if` that is seen is refused -/

/-- A piece of syntax in which the compiler gets to see an `else if` is not compiled. -/
theorem compile_of_hasElseIf :
    (∀ s : WorkflowSyntax, s.hasElseIf = true → ∀ ctx σ, compileStmt s ctx σ = none) ∧
    (∀ s : WorkflowSyntax, s.hasElseIf = true → ∀ ctx σ, compileBlock s ctx σ = none) ∧
    ∀ k, anyElseIf k = true → ∀ first stmtCtx entry σ,
      compileStmts k first stmtCtx entry σ = none := by
  refine compile_induction ?_ ?_ ?_ ?_ ?_ ?_ ?_ ?_ ?_
  · intro c t e ht he h ctx σ
    rw [hasElseIf, Bool.or_eq_true, Bool.or_eq_true] at h
    rw [compileStmt, Option.eq_none_iff_forall_ne_some]
    rintro ⟨ctx', σ'⟩ hc
    obtain ⟨str, neg, thenCtx, σ₄, σ₆, -, hthen, helse, -, -⟩ := compileIfStmt_cases hc
    rcases h with (h | h) | h
    · rw [ht h] at hthen
      simp at hthen
    · -- the kind of the node is not that of a block
      have hkind : e.isEmpty = false ∧ e.isBlock = false := by
        cases e <;> simp_all [isIf, isEmpty, isBlock]
      rcases helse with ⟨hemp, -⟩ | ⟨-, elseCtx, helse⟩
      · rw [hkind.1] at hemp
        simp at hemp
      · rw [compileBlock_of_not_isBlock hkind.2] at helse
        simp at helse
    · rcases helse with ⟨hemp, -⟩ | ⟨-, elseCtx, helse⟩
      · exact absurd h (by cases e <;> simp_all [isEmpty, hasElseIf])
      · rw [he h] at helse
        simp at helse
  · intro c b hb h ctx σ
    rw [hasElseIf] at h
    rw [compileStmt, Option.eq_none_iff_forall_ne_some]
    rintro ⟨ctx', σ'⟩ hc
    obtain ⟨str, neg, blockCtx, σ₄, -, hblock, -, -⟩ := compileWhileStmt_cases hc
    rw [hb h] at hblock
    simp at hblock
  · intro b c hb h ctx σ
    rw [hasElseIf] at h
    rw [compileStmt, Option.eq_none_iff_forall_ne_some]
    rintro ⟨ctx', σ'⟩ hc
    obtain ⟨str, neg, blockCtx, σ₂, -, hblock, -, -⟩ := compileDoWhileStmt_cases hc
    rw [hb h] at hblock
    simp at hblock
  · intro h
    simp [hasElseIf] at h
  · intro e he h ctx σ
    rw [compileStmt_of_isSimple he]
    cases e <;> simp_all [isSimple, hasElseIf, compileExpStmt, compileExp]
  · intro k hk h ctx σ
    rw [hasElseIf] at h
    simp only [compileBlock, hk h, Option.map_none]
  · intro s hs _ ctx σ
    rw [compileBlock_of_not_isBlock hs]
  · intro h
    simp [anyElseIf] at h
  · intro s k hs hk h first stmtCtx entry σ
    rw [anyElseIf, Bool.or_eq_true, Bool.and_eq_true, Bool.not_eq_true'] at h
    rw [Option.eq_none_iff_forall_ne_some]
    rintro ⟨stmtCtx', entry', σ'⟩ hc
    obtain ⟨ctx₁, σ₁, hstmt, hc⟩ := compileStmts_cons_cases hc
    rcases h with h | ⟨hret, h⟩
    · rw [hs h] at hstmt
      simp at hstmt
    · rcases hc with ⟨hret', -⟩ | ⟨-, hc⟩
      · rw [hret] at hret'
        simp at hret'
      · rw [hk h] at hc
        simp at hc

/-! ## Otherwise rewriting makes no difference -/

/-- Where the compiler gets to see no `else if`, it does the same for the rewritten
workflow. -/
theorem compile_elseBlocks :
    (∀ s : WorkflowSyntax, s.hasElseIf = false → compileStmt s.elseBlocks = compileStmt s) ∧
    (∀ s : WorkflowSyntax, s.hasElseIf = false → compileBlock s.elseBlocks = compileBlock s) ∧
    ∀ k, anyElseIf k = false → compileStmts (elseBlocksAll k) = compileStmts k := by
  refine compile_induction ?_ ?_ ?_ ?_ ?_ ?_ ?_ ?_ ?_
  · intro c t e ht he h
    simp only [hasElseIf, Bool.or_eq_false_iff] at h
    rw [elseBlocks, compileStmt, compileStmt, h.1.2, if_neg (by simp), ht h.1.1, he h.2,
      isEmpty_elseBlocks]
  · intro c b hb h
    rw [hasElseIf] at h
    rw [elseBlocks, compileStmt, compileStmt, hb h]
  · intro b c hb h
    rw [hasElseIf] at h
    rw [elseBlocks, compileStmt, compileStmt, hb h]
  · intro _
    rfl
  · intro e he _
    funext ctx σ
    cases e <;> simp_all [isSimple, elseBlocks, compileStmt, compileExpStmt, compileExp]
  · intro k hk h
    rw [hasElseIf] at h
    funext ctx σ
    rw [elseBlocks, compileBlock, compileBlock, hk h]
  · intro s hs _
    rw [compileBlock_of_not_isBlock hs, compileBlock_of_not_isBlock (isBlock_elseBlocks hs)]
  · intro _
    rw [elseBlocksAll]
  · intro s k hs hk h
    rw [anyElseIf, Bool.or_eq_false_iff] at h
    funext first stmtCtx entry σ
    rw [elseBlocksAll, compileStmts, compileStmts, hs h.1, isReturn_elseBlocks]
    cases hret : s.isReturn with
    | true => simp only [if_true]
    | false =>
      rw [hret] at h
      rw [hk (by simpa using h.2)]

/-! ## Equality up to renaming -/

/-- A node of a graph whose nodes have been renumbered. -/
def NodeRef.rename (f : ℕ → ℕ) : NodeRef → NodeRef
  | .endNode => .endNode
  | .node i => .node (f i)

/-- Its edges, renumbered. -/
def Node.rename (f : ℕ → ℕ) (n : Node) : Node :=
  ⟨n.name, n.trueEdge.map (NodeRef.rename f), n.falseEdge.map (NodeRef.rename f)⟩

/-- The graphs are equal up to renaming of nodes. -/
def Graph.SameUpToRenaming (g g' : Graph) : Prop :=
  ∃ f : ℕ ≃ ℕ, g'.name = g.name ∧ g'.entry = g.entry.map (NodeRef.rename f) ∧
    ∀ i, g'.nodes[f i]? = (g.nodes[i]?).map (Node.rename f)

theorem NodeRef.rename_id : NodeRef.rename id = id := by
  funext v
  cases v <;> rfl

theorem Graph.SameUpToRenaming.refl (g : Graph) : g.SameUpToRenaming g := by
  refine ⟨Equiv.refl ℕ, rfl, ?_, fun i => ?_⟩
  · simp [NodeRef.rename_id]
  · have hid : Node.rename id = id := by
      funext n
      simp [Node.rename, NodeRef.rename_id]
    simp [hid]

/-- Two compilations end alike: both fail, or both succeed with graphs that are equal up
to renaming of nodes. -/
def SameOutcome : Option GraphMap → Option GraphMap → Prop
  | none, none => True
  | some gs, some gs' =>
    List.Forall₂ (fun p p' => p.1 = p'.1 ∧ p.2.SameUpToRenaming p'.2) gs gs'
  | _, _ => False

theorem SameOutcome.refl (r : Option GraphMap) : SameOutcome r r := by
  cases r with
  | none => trivial
  | some gs => exact List.forall₂_same.2 fun p _ => ⟨rfl, .refl p.2⟩

/-- **When `else if` means what it says.**  A workflow and the one with each
`else if …` written as `else { if … }` compile alike exactly when the compiler does not
get to see an `else if`, or refuses the rewritten workflow: its name is taken, or its
block is not accepted. -/
theorem compileWorkflow_elseIf_iff (name : String) (block : WorkflowSyntax) (graphs : GraphMap) :
    SameOutcome (compileWorkflow (.workflow (.name name) block) graphs)
        (compileWorkflow (.workflow (.name name) block.elseBlocks) graphs) ↔
      block.hasElseIf = false ∨ graphs.lookup name ≠ none ∨
        block.elseBlocks.acceptedBlock = false := by
  have hsame : block.hasElseIf = false →
      compileWorkflow (.workflow (.name name) block.elseBlocks) graphs =
        compileWorkflow (.workflow (.name name) block) graphs := by
    intro h
    simp only [compileWorkflow, compileGraph, compile_elseBlocks.2.1 block h]
  have hnone : block.hasElseIf = true →
      compileWorkflow (.workflow (.name name) block) graphs = none := by
    intro h
    simp only [compileWorkflow, compileGraph, compile_of_hasElseIf.2.1 block h, Option.map_none,
      Option.bind_none, ite_self]
  cases hel : block.hasElseIf with
  | false =>
    rw [hsame hel]
    simp [SameOutcome.refl]
  | true =>
    rw [hnone hel]
    have hiff := compileWorkflow_isSome_iff name block.elseBlocks graphs
    cases hr : compileWorkflow (.workflow (.name name) block.elseBlocks) graphs with
    | none =>
      rw [hr] at hiff
      refine ⟨fun _ => .inr ?_, fun _ => trivial⟩
      by_contra hcon
      rw [not_or, not_not, Bool.not_eq_false] at hcon
      exact absurd (hiff.2 hcon) (by simp)
    | some gs =>
      rw [hr] at hiff
      obtain ⟨hname, hacc⟩ := hiff.1 rfl
      simp [SameOutcome, hname, hacc]

/-- The workflow `{ if A { B } else if C { D } }` does not compile, and
`{ if A { B } else { if C { D } } }` does. -/
theorem compileWorkflow_elseIf_refused :
    (WorkflowSyntax.stmtList [.ifStmt (.name "A") (.stmtList [.name "B"]) (.ifStmt (.name "C")
      (.stmtList [.name "D"]) .emptyStmt)]).elseBlocks = .stmtList [.ifStmt (.name "A")
        (.stmtList [.name "B"]) (.stmtList [.ifStmt (.name "C") (.stmtList [.name "D"])
          .emptyStmt])] ∧
    compileWorkflow (.workflow (.name "w") (.stmtList [.ifStmt (.name "A")
      (.stmtList [.name "B"]) (.ifStmt (.name "C") (.stmtList [.name "D"]) .emptyStmt)])) [] =
        none ∧
    (compileWorkflow (.workflow (.name "w") (.stmtList [.ifStmt (.name "A")
      (.stmtList [.name "B"]) (.stmtList [.ifStmt (.name "C") (.stmtList [.name "D"])
        .emptyStmt])])) []).isSome = true :=
  ⟨rfl, by decide +kernel, by decide +kernel⟩

end Rtp.Workflow
