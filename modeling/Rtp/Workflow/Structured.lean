import Rtp.Workflow.Rejection

/-!
# Workflows with orderly control flow

A workflow is orderly when no block of it is empty, when in each block only the last
statement may fail to complete normally, and when the blocks of its `do`-`while`
statements can.  There is nothing unreachable in such a workflow, and one would expect
it to compile.

* `WorkflowSyntax.canComplete` — a statement, or a block, can complete normally.
* `WorkflowSyntax.orderly`, `WorkflowSyntax.orderlyBlock` — orderly statements and
  blocks.
* `WorkflowSyntax.entersReturn` — some block inside a statement starts with `return`.
* `compileWorkflow_orderly_iff` — **an orderly workflow compiles** exactly when that is
  not the case.
-/

namespace Rtp.Workflow

namespace WorkflowSyntax

mutual

/-- The statement can complete normally: it is not a `return`, nor an `if` with an `else`
block both of whose blocks cannot, nor a `do`-`while` whose block cannot.  A block can
when its last statement can. -/
def canComplete : WorkflowSyntax → Bool
  | returnStmt => false
  | ifStmt _ t e => e.isEmpty || t.canComplete || e.canComplete
  | doWhileStmt b _ => b.canComplete
  | stmtList child => lastCanComplete child
  | _ => true

/-- The last of the statements can complete normally. -/
def lastCanComplete : List WorkflowSyntax → Bool
  | [] => true
  | s :: rest => if rest.isEmpty then s.canComplete else lastCanComplete rest

end

mutual

/-- A statement that the grammar can produce, with orderly control flow. -/
def orderly : WorkflowSyntax → Bool
  | ifStmt c t e => c.handler.isSome && t.orderlyBlock && (e.isEmpty || e.orderlyBlock)
  | whileStmt c b => c.handler.isSome && b.orderlyBlock
  | doWhileStmt b c => c.handler.isSome && b.orderlyBlock && b.canComplete
  | returnStmt => true
  | e => e.handler.isSome

/-- An orderly block is not empty. -/
def orderlyBlock : WorkflowSyntax → Bool
  | stmtList child => !child.isEmpty && orderlyAll child
  | _ => false

/-- Each statement but the last can complete normally. -/
def orderlyAll : List WorkflowSyntax → Bool
  | [] => true
  | s :: rest => s.orderly && (rest.isEmpty || s.canComplete) && orderlyAll rest

end

/-- The block starts with `return`. -/
def startsWithReturn : WorkflowSyntax → Bool
  | stmtList (s :: _) => s.isReturn
  | _ => false

mutual

/-- Some block inside the statement, or inside the block, starts with `return`. -/
def entersReturn : WorkflowSyntax → Bool
  | ifStmt _ t e => t.startsWithReturn || t.entersReturn || e.startsWithReturn || e.entersReturn
  | whileStmt _ b => b.startsWithReturn || b.entersReturn
  | doWhileStmt b _ => b.startsWithReturn || b.entersReturn
  | stmtList child => entersReturnAny child
  | _ => false

/-- So does a block inside one of the statements. -/
def entersReturnAny : List WorkflowSyntax → Bool
  | [] => false
  | s :: rest => s.entersReturn || entersReturnAny rest

end

theorem endsHere_eq {k : List WorkflowSyntax} (h : k.isEmpty = false) :
    endsHere k = (stmtList k).startsWithReturn := by
  cases k with
  | nil => simp at h
  | cons s k => rfl

theorem isReturn_of_canComplete {s : WorkflowSyntax} (h : s.canComplete = true) :
    s.isReturn = false := by
  cases s <;> simp_all [canComplete, isReturn]

/-- In an orderly tree control can leave exactly what can complete normally. -/
theorem completes_eq :
    (∀ s : WorkflowSyntax, s.orderly = true → s.completes = s.canComplete) ∧
    (∀ s : WorkflowSyntax, s.orderlyBlock = true → s.completes = s.canComplete) ∧
    ∀ k, orderlyAll k = true → completesAll k = lastCanComplete k := by
  refine compile_induction ?_ ?_ ?_ ?_ ?_ ?_ ?_ ?_ ?_
  · intro c t e ht he h
    simp only [orderly, Bool.and_eq_true, Bool.or_eq_true] at h
    rw [completes, canComplete, ht h.1.2]
    cases hemp : e.isEmpty with
    | true => cases e <;> simp_all [isEmpty, completes]
    | false =>
      rw [hemp] at h
      rw [he (h.2.resolve_left (by simp)), Bool.false_or]
  · intro c b _ _
    rfl
  · intro b c hb h
    simp only [orderly, Bool.and_eq_true] at h
    rw [completes, canComplete, hb h.1.2]
  · intro _
    rfl
  · intro e he h
    have hh : e.handler.isSome = true := by cases e <;> simp_all [isSimple, orderly]
    rw [completes_of_handler hh]
    cases e <;> simp_all [handler, canComplete]
  · intro k hk h
    simp only [orderlyBlock, Bool.and_eq_true] at h
    rw [completes, canComplete, hk h.2]
  · intro s hs h
    exact absurd h (by cases s <;> simp_all [isBlock, orderlyBlock])
  · intro _
    rfl
  · intro s k hs hk h
    simp only [orderlyAll, Bool.and_eq_true, Bool.or_eq_true] at h
    rw [completesAll, lastCanComplete, hs h.1.1, hk h.2]
    cases hemp : k.isEmpty with
    | true =>
      obtain rfl := List.isEmpty_iff.1 hemp
      simp [lastCanComplete]
    | false =>
      rw [hemp] at h
      rw [h.1.2.resolve_left (by simp)]
      simp

/-- An orderly tree is accepted unless some block in it starts with `return`. -/
theorem accepted_eq :
    (∀ s : WorkflowSyntax, s.orderly = true → s.accepted = !s.entersReturn) ∧
    (∀ s : WorkflowSyntax, s.orderlyBlock = true →
      s.enterable = (!s.startsWithReturn && !s.entersReturn) ∧ s.acceptedBlock = !s.entersReturn) ∧
    ∀ k, orderlyAll k = true → acceptedAll k = !entersReturnAny k := by
  refine compile_induction ?_ ?_ ?_ ?_ ?_ ?_ ?_ ?_ ?_
  · intro c t e ht he h
    simp only [orderly, Bool.and_eq_true, Bool.or_eq_true] at h
    rw [accepted, entersReturn, h.1.1, (ht h.1.2).1]
    cases hemp : e.isEmpty with
    | true => cases e <;> simp_all [isEmpty, startsWithReturn, entersReturn]
    | false =>
      rw [hemp] at h
      rw [(he (h.2.resolve_left (by simp))).1]
      simp [Bool.and_assoc]
  · intro c b hb h
    simp only [orderly, Bool.and_eq_true] at h
    rw [accepted, entersReturn, h.1, (hb h.2).1]
    simp
  · intro b c hb h
    simp only [orderly, Bool.and_eq_true] at h
    have hcomp : b.completes = true := by rw [completes_eq.2.1 b h.1.2]; exact h.2
    rw [accepted, entersReturn, h.1.1, (hb h.1.2).1, hcomp]
    simp
  · intro _
    rfl
  · intro e he h
    have hh : e.handler.isSome = true := by cases e <;> simp_all [isSimple, orderly]
    rw [accepted_of_isSimple he, hh]
    cases e <;> simp_all [handler, entersReturn]
  · intro k hk h
    simp only [orderlyBlock, Bool.and_eq_true, Bool.not_eq_true'] at h
    rw [enterable, acceptedBlock, entersReturn, hk h.2, endsHere_eq h.1]
    exact ⟨rfl, rfl⟩
  · intro s hs h
    exact absurd h (by cases s <;> simp_all [isBlock, orderlyBlock])
  · intro _
    rfl
  · intro s k hs hk h
    simp only [orderlyAll, Bool.and_eq_true, Bool.or_eq_true] at h
    rw [acceptedAll, entersReturnAny, hs h.1.1, hk h.2, Bool.not_or]
    cases hemp : k.isEmpty with
    | true =>
      obtain rfl := List.isEmpty_iff.1 hemp
      simp [endsHere, entersReturnAny]
    | false =>
      rw [hemp] at h
      have hcan := h.1.2.resolve_left (by simp)
      rw [completes_eq.1 s h.1.1, hcan, isReturn_of_canComplete hcan]
      cases hend : endsHere k with
      | true =>
        -- a `return` comes next, and nothing is asked of what stands behind it
        have hacc := hk h.2
        rw [acceptedAll_of_endsHere hend] at hacc
        simp [← hacc]
      | false => simp

end WorkflowSyntax

open WorkflowSyntax

/-- **Orderly workflows compile** exactly when no block inside a statement starts with
`return`: such a block has no entry, and the edge that leads into it is set to null. -/
theorem compileWorkflow_orderly_iff {name : String} {block : WorkflowSyntax} {graphs : GraphMap}
    (hname : graphs.lookup name = none) (hblock : block.orderlyBlock = true) :
    (compileWorkflow (.workflow (.name name) block) graphs).isSome = true ↔
      block.entersReturn = false := by
  rw [compileWorkflow_isSome_iff, (accepted_eq.2.1 block hblock).2]
  simp [hname]

/-- The workflow `e_wf` of `testdata/compiler_test.wf`, whose `return` stands behind
another statement, compiles. -/
theorem compileWorkflow_orderly_eWf :
    (compileWorkflow (.workflow (.name "e_wf") (.stmtList [.ifStmt (.name "A")
      (.stmtList [.name "B", .returnStmt]) .emptyStmt, .name "C"])) []).isSome = true :=
  (compileWorkflow_orderly_iff rfl (by decide)).2 (by decide)

/-- The workflow `{ if A { return } B }` is orderly, and does not compile. -/
theorem compileWorkflow_bareReturn :
    (WorkflowSyntax.stmtList [.ifStmt (.name "A") (.stmtList [.returnStmt]) .emptyStmt,
      .name "B"]).orderlyBlock = true ∧
    compileWorkflow (.workflow (.name "w") (.stmtList [.ifStmt (.name "A")
      (.stmtList [.returnStmt]) .emptyStmt, .name "B"])) [] = none :=
  ⟨by decide, by decide +kernel⟩

end Rtp.Workflow
