import Rtp.Workflow.Labels

/-!
# The states a compilation goes through

What the compiler does to the labels and to the list of nodes, said once for each
kind of statement.  A statement is compiled between two labels; the conditions and
blocks inside it are compiled between labels of its own, which are attached or
appended before it ends.

* `Ready` — a context between two different labels that exist.
* `Patch` — the effect on the store: the edges owed by the first label are
  settled, the second label collects the edges that leave the statement, and all
  other labels are left alone.
* `Created` — the node of a condition has been created between two labels.
* `IfTrace`, `WhileTrace`, `DoWhileTrace`, `BlockTrace` — the states in between, with
  how the labels come through from one to the next.
* `compileStmt_patch`, `compileBlock_patch`, `compileStmts_patch` — every piece of
  syntax has the effect of a `Patch`.
-/

namespace Rtp.Workflow

open WorkflowSyntax CompileState

/-- A context between two different labels that exist. -/
structure Ready (ctx : Context) (σ : CompileState) : Prop where
  wf : σ.WF
  prev_lt : ctx.prevLabel < σ.labelCount
  next_lt : ctx.nextLabel < σ.labelCount
  ne : ctx.prevLabel ≠ ctx.nextLabel

/-- The effect of compiling between the labels `p` and `q`. -/
structure Patch (p q : ℕ) (σ σ' : CompileState) : Prop
    extends Step (fun l => l = p ∨ l = q) σ σ' where
  prev : σ'.labels p = []
  next : σ.labels q ⊆ σ'.labels q

/-- Compiling a block has the effect of a patch. -/
def Patches (C : Compile) : Prop :=
  ∀ {ctx ctx' : Context} {σ σ' : CompileState}, Ready ctx σ → ctx.entry = none →
    C ctx σ = some (ctx', σ') → Patch ctx.prevLabel ctx.nextLabel σ σ'

/-! ## Expressions -/

variable {c e s : WorkflowSyntax} {k : List WorkflowSyntax} {T E B : Compile} {elseEmpty : Bool}
  {ctx ctx' : Context} {σ σ' : CompileState}

/-- Compiling an expression creates one node.  The label the context calls
`prev` comes to owe its edge for a result that counts as true, the other one its
edge for a result that counts as false. -/
theorem compileExp_eq_some (h : compileExp e ctx σ = some (ctx', σ')) :
    ∃ str neg, e.handler = some (str, neg) ∧ ctx'.entry = some (.node σ.nodes.length) ∧
      σ' = σ.addNode str (if neg then ctx.nextLabel else ctx.prevLabel)
        (if neg then ctx.prevLabel else ctx.nextLabel) := by
  induction e using compileExp.induct generalizing ctx with
  | case1 left ih =>
    rw [compileExp] at h
    obtain ⟨str, neg, hh, he, hσ⟩ := ih h
    refine ⟨str, !neg, by simp [handler, hh], he, ?_⟩
    cases neg <;> exact hσ
  | case2 str =>
    rw [compileExp, compileName] at h
    simp only [Option.some.injEq, Prod.mk.injEq] at h
    obtain ⟨rfl, rfl⟩ := h
    exact ⟨str, false, rfl, rfl, rfl⟩
  | case3 e h₁ h₂ =>
    rw [compileExp] at h
    · simp at h
    all_goals assumption

/-- The node created for a condition between the labels `p` and `q`. -/
abbrev condition (σ : CompileState) (str : String) (neg : Bool) (p q : ℕ) : CompileState :=
  σ.addNode str (if neg then q else p) (if neg then p else q)

/-- The node of a condition has been created, and nothing else: its edges are owed
by the labels `p` and `q`, which may be the same. -/
structure Created (str : String) (neg : Bool) (p q : ℕ) (σ σ' : CompileState) : Prop
    extends Step (fun l => l = p ∨ l = q) σ σ' where
  length : σ'.nodes.length = σ.nodes.length + 1
  name : nameAt σ'.nodes σ.nodes.length = some str
  prev : (⟨!neg, σ.nodes.length⟩ : Edge) ∈ σ'.labels p
  next : (⟨neg, σ.nodes.length⟩ : Edge) ∈ σ'.labels q
  kept : ∀ l, σ.labels l ⊆ σ'.labels l
  owes : ∀ l, ∀ e ∈ σ'.labels l, e ∈ σ.labels l ∨ e.node = σ.nodes.length
  edge : ∀ i b, edgeAt σ'.nodes i b = edgeAt σ.nodes i b

section Created

variable {σ σ₀ σ₁ σ' : CompileState} {str : String} {neg : Bool} {p q : ℕ}

theorem created_condition (hσ : σ.WF) (hp : p < σ.labelCount) (hq : q < σ.labelCount) :
    Created str neg p q σ (condition σ str neg p q) := by
  have htrue : (if neg then q else p) < σ.labelCount := by cases neg <;> assumption
  have hfalse : (if neg then p else q) < σ.labelCount := by cases neg <;> assumption
  refine ⟨(Step.addNode hσ str htrue hfalse).mono fun l _ h => ?_, by simp,
    nameAt_addNode _ _ _ _, ?_, ?_, fun l => subset_addNode_labels _ _ _ _ l, fun l e he => ?_,
    edgeAt_addNode _ _ _ _⟩
  · cases neg
    · exact h
    · exact h.symm
  · rw [mem_addNode_labels]
    cases neg <;> simp
  · rw [mem_addNode_labels]
    cases neg <;> simp
  · rcases mem_addNode_labels.1 he with h | ⟨-, rfl⟩ | ⟨-, rfl⟩
    · exact .inl h
    · exact .inr rfl
    · exact .inr rfl

/-- Labels that are declared before or after the node is created make no
difference. -/
theorem Created.of_newLabels (h : Created str neg p q σ₀ σ₁) (h₀ : Step (fun _ => False) σ σ₀)
    (hlab : σ₀.labels = σ.labels) (hnodes : σ₀.nodes = σ.nodes) (h₁ : Step (fun _ => False) σ₁ σ')
    (hlab' : σ'.labels = σ₁.labels) (hnodes' : σ'.nodes = σ₁.nodes) : Created str neg p q σ σ' := by
  obtain ⟨hs, hlen, hname, hprev, hnext, hkept, howes, hedge⟩ := h
  rw [hnodes] at hlen hname hprev hnext howes hedge
  rw [hlab] at hkept howes
  rw [← hnodes'] at hlen hname hedge
  rw [← hlab'] at hprev hnext hkept howes
  refine ⟨((h₀.trans hs).trans h₁).mono fun l _ h => ?_, hlen, hname, hprev, hnext, hkept, howes,
    hedge⟩
  rcases h with (h | h) | h
  · exact h.elim
  · exact h
  · exact h.elim

/-- The node of a condition, in every later list of nodes. -/
theorem Created.getElem {nodes : List Node} (h : Created str neg p q σ σ₁) (hext : Ext σ₁ σ')
    (hfut : Future σ' nodes) : ∃ n : Node, nodes[σ.nodes.length]? = some n ∧ n.name = str := by
  have hname := (hext.future hfut).name σ.nodes.length (by rw [h.length]; omega)
  rw [h.name, nameAt, Option.map_eq_some_iff] at hname
  exact hname

end Created

/-- Two labels declared one after the other. -/
theorem twoLabels (hσ : σ.WF) :
    Step (fun _ => False) σ σ.newLabel.2.newLabel.2 ∧
      σ.newLabel.2.newLabel.2.labels = σ.labels := by
  refine ⟨((Step.newLabel hσ).trans (Step.newLabel hσ.newLabel)).mono fun l _ h => h.elim id id, ?_⟩
  rw [newLabel_labels hσ.newLabel, newLabel_labels hσ]

/-! ## Expression statements and `return` -/

/-- An expression statement: its node is created in `σ₁`, and then attached. -/
structure ExpTrace (str : String) (neg : Bool) (p q : ℕ) (σ σ₁ σ' : CompileState) : Prop where
  created : Created str neg q q σ σ₁
  attached : σ' = σ₁.attach p (some (.node σ.nodes.length))
  prev₁ : σ₁.labels p = σ.labels p
  next' : σ'.labels q = σ₁.labels q
  patch : Patch p q σ σ'

theorem compileExpStmt_trace (hr : Ready ctx σ) (h : compileExpStmt e ctx σ = some (ctx', σ')) :
    ∃ str neg σ₁, e.handler = some (str, neg) ∧
      ctx' = { ctx with entry := some (.node σ.nodes.length) } ∧
      ExpTrace str neg ctx.prevLabel ctx.nextLabel σ σ₁ σ' := by
  rw [compileExpStmt, Option.map_eq_some_iff] at h
  obtain ⟨⟨expCtx, σ₁⟩, hexp, h⟩ := h
  simp only [Prod.mk.injEq] at h
  obtain ⟨rfl, rfl⟩ := h
  obtain ⟨str, neg, hh, hentry, hσ₁⟩ := compileExp_eq_some hexp
  have h₁ : Created str neg ctx.nextLabel ctx.nextLabel σ σ₁ :=
    hσ₁ ▸ created_condition hr.wf hr.next_lt hr.next_lt
  have h₂ := Step.attach h₁.wf ctx.prevLabel expCtx.entry
  have hnext := h₂.frame ctx.nextLabel (lt_of_lt_of_le hr.next_lt h₁.ext.count_le) hr.ne.symm
  refine ⟨str, neg, σ₁, hh, by rw [hentry], h₁, by rw [hentry], ?_, hnext, ?_, by simp, ?_⟩
  · exact h₁.frame _ hr.prev_lt fun h => h.elim hr.ne hr.ne
  · exact (h₁.toStep.trans h₂).mono fun l _ h => h.elim (fun h => .inr (h.elim id id)) Or.inl
  · rw [hnext]
    exact h₁.kept _

theorem compileReturnStmt_patch (hr : Ready ctx σ) (h : compileReturnStmt ctx σ = some (ctx', σ')) :
    ctx' = ctx ∧ σ' = σ.attach ctx.prevLabel (some .endNode) ∧
      σ'.labels ctx.nextLabel = σ.labels ctx.nextLabel ∧
      Patch ctx.prevLabel ctx.nextLabel σ σ' := by
  rw [compileReturnStmt, Option.some.injEq, Prod.mk.injEq] at h
  obtain ⟨rfl, rfl⟩ := h
  have h₁ := Step.attach hr.wf ctx.prevLabel (some .endNode)
  have hnext := h₁.frame _ hr.next_lt hr.ne.symm
  refine ⟨rfl, rfl, hnext, h₁.mono fun l _ h => .inl h, by simp, ?_⟩
  rw [hnext]
  exact List.Subset.refl _

/-! ## `if` -/

theorem compileIfStmt_cases (h : compileIfStmt c T elseEmpty E ctx σ = some (ctx', σ')) :
    ∃ str neg thenCtx σ₄ σ₆, c.handler = some (str, neg) ∧
      T ⟨none, σ.labelCount + 1, ctx.nextLabel⟩ (condition σ.newLabel.2.newLabel.2 str neg
        (σ.labelCount + 1) σ.labelCount) = some (thenCtx, σ₄) ∧
      (elseEmpty = true ∧ σ₆ = (σ₄.attach (σ.labelCount + 1) thenCtx.entry).append
          ctx.nextLabel σ.labelCount ∨
        elseEmpty = false ∧ ∃ elseCtx, E ⟨none, σ.labelCount, ctx.nextLabel⟩
          (σ₄.attach (σ.labelCount + 1) thenCtx.entry) = some (elseCtx, σ₆)) ∧
      ctx' = { ctx with entry := some (.node σ.nodes.length) } ∧
      σ' = σ₆.attach ctx.prevLabel (some (.node σ.nodes.length)) := by
  simp only [compileIfStmt, Option.bind_eq_some_iff, Option.map_eq_some_iff] at h
  obtain ⟨⟨condCtx, σ₃⟩, hcond, ⟨thenCtx, σ₄⟩, hthen, σ₆, helse, h⟩ := h
  obtain ⟨str, neg, hh, hentry, rfl⟩ := compileExp_eq_some hcond
  refine ⟨str, neg, thenCtx, σ₄, σ₆, hh, hthen, ?_, ?_⟩
  · cases elseEmpty with
    | true =>
      rw [if_pos rfl, Option.some.injEq] at helse
      exact .inl ⟨rfl, helse.symm⟩
    | false =>
      rw [if_neg (by simp), Option.map_eq_some_iff] at helse
      obtain ⟨⟨elseCtx, σ₆'⟩, helse, rfl⟩ := helse
      exact .inr ⟨rfl, elseCtx, helse⟩
  · simp only [Prod.mk.injEq] at h
    rw [← h.1, ← h.2, hentry]
    exact ⟨rfl, rfl⟩

/-- How an `if` ends: without an `else`, the edges that the label `cl` still owes join
those that leave the statement; otherwise they lead into the `else` block. -/
def ElseRun (elseEmpty : Bool) (E : Compile) (cl q : ℕ) (σ σ' : CompileState) : Prop :=
  elseEmpty = true ∧ σ' = σ.append q cl ∨
    elseEmpty = false ∧ ∃ elseCtx, E ⟨none, cl, q⟩ σ = some (elseCtx, σ')

theorem ElseRun.patch {cl q : ℕ} (h : ElseRun elseEmpty E cl q σ σ')
    (hE : elseEmpty = false → Patches E) (hr : Ready ⟨none, cl, q⟩ σ) : Patch cl q σ σ' := by
  rcases h with ⟨he, rfl⟩ | ⟨he, elseCtx, h⟩
  · have hstep := Step.append hr.wf q cl hr.next_lt hr.ne.symm
    refine ⟨hstep.mono fun l _ h => h.symm, by simp, ?_⟩
    rw [append_labels_fst σ hr.ne.symm]
    exact List.subset_append_left _ _
  · exact hE he hr rfl h

/-- An `if`: the condition's node is created in `σ₃`, the `then` block is compiled in
`σ₄` and attached in `σ₅`, and the `else` block is compiled in `σ₆`. -/
structure IfTrace (str : String) (neg : Bool) (p q tl cl : ℕ)
    (σ σ₃ σ₄ σ₅ σ₆ σ' : CompileState) : Prop where
  created : Created str neg tl cl σ σ₃
  ready₃ : Ready ⟨none, tl, q⟩ σ₃
  patch₄ : Patch tl q σ₃ σ₄
  step₅ : Step (fun l => l = tl) σ₄ σ₅
  length₅ : σ₅.nodes.length = σ₄.nodes.length
  ready₅ : Ready ⟨none, cl, q⟩ σ₅
  patch₆ : Patch cl q σ₅ σ₆
  attached : σ' = σ₆.attach p (some (.node σ.nodes.length))
  next₃ : σ₃.labels q = σ.labels q
  next₅ : σ₅.labels q = σ₄.labels q
  next' : σ'.labels q = σ₆.labels q
  cond₅ : σ₅.labels cl = σ₃.labels cl
  prev₆ : σ₆.labels p = σ.labels p
  patch : Patch p q σ σ'

theorem compileIfStmt_trace (hT : Patches T) (hE : elseEmpty = false → Patches E) (hr : Ready ctx σ)
    (h : compileIfStmt c T elseEmpty E ctx σ = some (ctx', σ')) :
    ∃ str neg tl cl thenCtx σ₃ σ₄ σ₅ σ₆, c.handler = some (str, neg) ∧
      T ⟨none, tl, ctx.nextLabel⟩ σ₃ = some (thenCtx, σ₄) ∧ σ₅ = σ₄.attach tl thenCtx.entry ∧
      ElseRun elseEmpty E cl ctx.nextLabel σ₅ σ₆ ∧
      ctx' = { ctx with entry := some (.node σ.nodes.length) } ∧
      IfTrace str neg ctx.prevLabel ctx.nextLabel tl cl σ σ₃ σ₄ σ₅ σ₆ σ' := by
  obtain ⟨str, neg, thenCtx, σ₄, σ₆, hh, hthen, helse, rfl, rfl⟩ := compileIfStmt_cases h
  clear h
  obtain ⟨hwf, hp, hq, hpq⟩ := hr
  obtain ⟨_, p, q⟩ := ctx
  simp only at hp hq hpq hthen helse ⊢
  obtain ⟨h₂, hlab₂⟩ := twoLabels hwf
  have hlen₂ : σ.newLabel.2.newLabel.2.nodes = σ.nodes := rfl
  have hcount₂ : σ.newLabel.2.newLabel.2.labelCount = σ.labelCount + 2 := rfl
  generalize σ.newLabel.2.newLabel.2 = σ₂ at *
  obtain ⟨tl, htl⟩ : ∃ tl, tl = σ.labelCount + 1 := ⟨_, rfl⟩
  obtain ⟨cl, hcl⟩ : ∃ cl, cl = σ.labelCount := ⟨_, rfl⟩
  rw [← htl, ← hcl] at hthen helse
  have h₃ : Created str neg tl cl σ₂ (condition σ₂ str neg tl cl) :=
    created_condition h₂.wf (by omega) (by omega)
  generalize condition σ₂ str neg tl cl = σ₃ at *
  have hcount₃ := h₃.ext.count_le
  have hr₃ : Ready ⟨none, tl, q⟩ σ₃ :=
    ⟨h₃.wf, by simp only; omega, by simp only; omega, by simp only; omega⟩
  have h₄ := hT hr₃ rfl hthen
  simp only at h₄
  have hcount₄ := h₄.ext.count_le
  have h₅ := Step.attach h₄.wf tl thenCtx.entry
  have hcount₅ := h₅.ext.count_le
  have hlen₅ : (σ₄.attach tl thenCtx.entry).nodes.length = σ₄.nodes.length := by
    simp [attach_nodes]
  obtain ⟨σ₅, hσ₅⟩ : ∃ σ₅, σ₅ = σ₄.attach tl thenCtx.entry := ⟨_, rfl⟩
  rw [← hσ₅] at h₅ hcount₅ hlen₅ helse
  have hr₅ : Ready ⟨none, cl, q⟩ σ₅ :=
    ⟨h₅.wf, by simp only; omega, by simp only; omega, by simp only; omega⟩
  have h₆ := ElseRun.patch helse hE hr₅
  have hcount₆ := h₆.ext.count_le
  have h₇ := Step.attach h₆.wf p (some (.node σ.nodes.length))
  have hq₃ : σ₃.labels q = σ.labels q := by rw [h₃.frame q (by omega) (by omega), hlab₂]
  have hq₅ : σ₅.labels q = σ₄.labels q := h₅.frame q (by omega) (by omega)
  have hq₇ := h₇.frame q (by omega) (by omega)
  refine ⟨str, neg, tl, cl, thenCtx, σ₃, σ₄, σ₅, σ₆, hh, hthen, hσ₅, helse, trivial,
    h₃.of_newLabels h₂ hlab₂ hlen₂ (Step.refl h₃.wf) rfl rfl,
    hr₃, h₄, h₅, hlen₅, hr₅, h₆, rfl, hq₃, hq₅, hq₇, ?_, ?_, ?_, by simp, ?_⟩
  · rw [h₅.frame cl (by omega) (by omega), h₄.frame cl (by omega) (by omega)]
  · rw [h₆.frame p (by omega) (by omega), h₅.frame p (by omega) (by omega),
      h₄.frame p (by omega) (by omega), h₃.frame p (by omega) (by omega), hlab₂]
  · refine ((((h₂.trans h₃.toStep).trans h₄.toStep).trans h₅).trans (h₆.toStep.trans h₇)).mono ?_
    intro l hl h
    simp only [false_or] at h
    omega
  · rw [hq₇, ← hq₃]
    exact List.Subset.trans h₄.next (hq₅ ▸ h₆.next)

/-! ## `while` -/

theorem compileWhileStmt_cases (h : compileWhileStmt c B ctx σ = some (ctx', σ')) :
    ∃ str neg blockCtx σ₄, c.handler = some (str, neg) ∧
      B ⟨none, σ.labelCount, σ.labelCount + 1⟩ (condition σ.newLabel.2 str neg σ.labelCount
        ctx.nextLabel).newLabel.2 = some (blockCtx, σ₄) ∧
      ctx' = { ctx with entry := some (.node σ.nodes.length) } ∧
      σ' = ((σ₄.attach σ.labelCount blockCtx.entry).attach (σ.labelCount + 1)
        (some (.node σ.nodes.length))).attach ctx.prevLabel (some (.node σ.nodes.length)) := by
  simp only [compileWhileStmt, Option.bind_eq_some_iff, Option.map_eq_some_iff] at h
  obtain ⟨⟨condCtx, σ₃⟩, hcond, ⟨blockCtx, σ₄⟩, hblock, h⟩ := h
  obtain ⟨str, neg, hh, hentry, rfl⟩ := compileExp_eq_some hcond
  refine ⟨str, neg, blockCtx, σ₄, hh, hblock, ?_⟩
  simp only [Prod.mk.injEq] at h
  rw [← h.1, ← h.2, hentry]
  exact ⟨rfl, rfl⟩

/-- A `while`: the condition's node is created in `σ₃` and the block is compiled in
`σ₄`; then the start of the block is attached in `σ₅`, its end in `σ₆`. -/
structure WhileTrace (str : String) (neg : Bool) (p q sl el : ℕ)
    (σ σ₃ σ₄ σ₅ σ₆ σ' : CompileState) : Prop where
  created : Created str neg sl q σ σ₃
  ready₃ : Ready ⟨none, sl, el⟩ σ₃
  patch₄ : Patch sl el σ₃ σ₄
  step₅ : Step (fun l => l = sl) σ₄ σ₅
  back₅ : σ₅.labels el = σ₄.labels el
  attached₆ : σ₆ = σ₅.attach el (some (.node σ.nodes.length))
  attached : σ' = σ₆.attach p (some (.node σ.nodes.length))
  length₄ : σ'.nodes.length = σ₄.nodes.length
  next' : σ'.labels q = σ₃.labels q
  prev₆ : σ₆.labels p = σ.labels p
  patch : Patch p q σ σ'

section WhileTrace

variable {str : String} {neg : Bool} {p q sl el : ℕ} {σ₃ σ₄ σ₅ σ₆ : CompileState}
  (h : WhileTrace str neg p q sl el σ σ₃ σ₄ σ₅ σ₆ σ')

include h

theorem WhileTrace.wf₆ : σ₆.WF := h.attached₆ ▸ h.step₅.wf.attach _ _

theorem WhileTrace.ext₆ : Ext σ₆ σ' := h.attached ▸ Ext.attach _ _ _

theorem WhileTrace.ext₄ : Ext σ₄ σ' :=
  h.step₅.ext.trans ((h.attached₆ ▸ Ext.attach _ _ _ : Ext σ₅ σ₆).trans h.ext₆)

end WhileTrace

theorem compileWhileStmt_trace (hB : Patches B) (hr : Ready ctx σ)
    (h : compileWhileStmt c B ctx σ = some (ctx', σ')) :
    ∃ str neg sl el blockCtx σ₃ σ₄ σ₅ σ₆, c.handler = some (str, neg) ∧
      B ⟨none, sl, el⟩ σ₃ = some (blockCtx, σ₄) ∧ σ₅ = σ₄.attach sl blockCtx.entry ∧
      ctx' = { ctx with entry := some (.node σ.nodes.length) } ∧
      WhileTrace str neg ctx.prevLabel ctx.nextLabel sl el σ σ₃ σ₄ σ₅ σ₆ σ' := by
  obtain ⟨str, neg, blockCtx, σ₄, hh, hblock, rfl, rfl⟩ := compileWhileStmt_cases h
  clear h
  obtain ⟨hwf, hp, hq, hpq⟩ := hr
  obtain ⟨_, p, q⟩ := ctx
  simp only at hp hq hpq hblock ⊢
  have h₁ := Step.newLabel hwf
  have hlab₁ := newLabel_labels hwf
  have hlen₁ : σ.newLabel.2.nodes = σ.nodes := rfl
  have hcount₁ : σ.newLabel.2.labelCount = σ.labelCount + 1 := rfl
  generalize σ.newLabel.2 = σ₁ at *
  obtain ⟨el, hel⟩ : ∃ el, el = σ.labelCount + 1 := ⟨_, rfl⟩
  obtain ⟨sl, hsl⟩ : ∃ sl, sl = σ.labelCount := ⟨_, rfl⟩
  rw [← hel, ← hsl] at hblock ⊢
  have h₂ : Created str neg sl q σ₁ (condition σ₁ str neg sl q) :=
    created_condition h₁.wf (by omega) (by omega)
  have hcount₂ : (condition σ₁ str neg sl q).labelCount = σ₁.labelCount := rfl
  generalize condition σ₁ str neg sl q = σ₂ at *
  have h₃ := Step.newLabel h₂.wf
  have hlab₃ := newLabel_labels h₂.wf
  have hlen₃ : σ₂.newLabel.2.nodes = σ₂.nodes := rfl
  have hcount₃ : σ₂.newLabel.2.labelCount = σ₂.labelCount + 1 := rfl
  generalize σ₂.newLabel.2 = σ₃ at *
  have hr₃ : Ready ⟨none, sl, el⟩ σ₃ :=
    ⟨h₃.wf, by simp only; omega, by simp only; omega, by simp only; omega⟩
  have h₄ := hB hr₃ rfl hblock
  simp only at h₄
  have hcount₄ := h₄.ext.count_le
  have h₅ := Step.attach h₄.wf sl blockCtx.entry
  have hcount₅ := h₅.ext.count_le
  have hlen₅ : (σ₄.attach sl blockCtx.entry).nodes.length = σ₄.nodes.length := by
    simp [attach_nodes]
  obtain ⟨σ₅, hσ₅⟩ : ∃ σ₅, σ₅ = σ₄.attach sl blockCtx.entry := ⟨_, rfl⟩
  rw [← hσ₅] at h₅ hcount₅ hlen₅ ⊢
  have h₆ := Step.attach h₅.wf el (some (.node σ.nodes.length))
  have hcount₆ := h₆.ext.count_le
  have h₇ := Step.attach h₆.wf p (some (.node σ.nodes.length))
  have hq₇ : ((σ₅.attach el (some (.node σ.nodes.length))).attach p
      (some (.node σ.nodes.length))).labels q = σ₃.labels q := by
    rw [h₇.frame q (by omega) (by omega), h₆.frame q (by omega) (by omega),
      h₅.frame q (by omega) (by omega), h₄.frame q (by omega) (by omega)]
  have hcreated : Created str neg sl q σ σ₃ :=
    h₂.of_newLabels h₁ hlab₁ hlen₁ h₃ hlab₃ hlen₃
  refine ⟨str, neg, sl, el, blockCtx, σ₃, σ₄, σ₅, _, hh, hblock, hσ₅, trivial,
    hcreated, hr₃, h₄, h₅, h₅.frame el (by omega) (by omega), rfl, rfl, ?_, hq₇, ?_, ?_,
    by simp, ?_⟩
  · simp [attach_nodes, hlen₅]
  · rw [h₆.frame p (by omega) (by omega), h₅.frame p (by omega) (by omega),
      h₄.frame p (by omega) (by omega), hlab₃, h₂.frame p (by omega) (by omega), hlab₁]
  · refine ((hcreated.toStep.trans h₄.toStep).trans (h₅.trans (h₆.trans h₇))).mono ?_
    intro l hl h
    omega
  · rw [hq₇]
    exact hcreated.kept _

/-! ## `do`-`while` -/

theorem compileDoWhileStmt_cases (h : compileDoWhileStmt B c ctx σ = some (ctx', σ')) :
    ∃ str neg blockCtx σ₂, c.handler = some (str, neg) ∧
      B ⟨none, ctx.prevLabel, σ.labelCount⟩ σ.newLabel.2 = some (blockCtx, σ₂) ∧
      ctx' = { ctx with entry := blockCtx.entry } ∧
      σ' = ((((condition σ₂.newLabel.2.newLabel.2 str neg σ₂.labelCount
        (σ₂.labelCount + 1)).attach σ₂.labelCount blockCtx.entry).attach σ.labelCount
          (some (.node σ₂.nodes.length))).attach ctx.prevLabel blockCtx.entry).append
            ctx.nextLabel (σ₂.labelCount + 1) := by
  simp only [compileDoWhileStmt, Option.bind_eq_some_iff, Option.map_eq_some_iff] at h
  obtain ⟨⟨blockCtx, σ₂⟩, hblock, ⟨condCtx, σ₃⟩, hcond, h⟩ := h
  obtain ⟨str, neg, hh, hentry, rfl⟩ := compileExp_eq_some hcond
  refine ⟨str, neg, blockCtx, σ₂, hh, hblock, ?_⟩
  simp only [Prod.mk.injEq] at h
  rw [← h.1, ← h.2, hentry]
  exact ⟨rfl, rfl⟩

/-- A `do`-`while`: the block is compiled from `σ₁` to `σ₂`, the condition's node is
created in `σ₄`, and the block is attached to both ends of the loop in `σ₅` to `σ₇`. -/
structure DoWhileTrace (str : String) (neg : Bool) (p q bl tl fl : ℕ) (entry : Option NodeRef)
    (σ σ₁ σ₂ σ₄ σ₅ σ₆ σ₇ σ' : CompileState) : Prop where
  step₁ : Step (fun _ => False) σ σ₁
  ready₁ : Ready ⟨none, p, bl⟩ σ₁
  labels₁ : σ₁.labels = σ.labels
  nodes₁ : σ₁.nodes = σ.nodes
  fresh₁ : σ₁.labels bl = []
  patch₂ : Patch p bl σ₁ σ₂
  created : Created str neg tl fl σ₂ σ₄
  attached₅ : σ₅ = σ₄.attach tl entry
  back₅ : σ₅.labels bl = σ₂.labels bl
  attached₆ : σ₆ = σ₅.attach bl (some (.node σ₂.nodes.length))
  attached₇ : σ₇ = σ₆.attach p entry
  appended : σ' = σ₇.append q fl
  next_ne : q ≠ fl
  length₄ : σ'.nodes.length = σ₄.nodes.length
  next' : σ'.labels q = σ.labels q ++ σ₄.labels fl
  patch : Patch p q σ σ'

section DoWhileTrace

variable {str : String} {neg : Bool} {p q bl tl fl : ℕ} {entry : Option NodeRef}
  {σ₁ σ₂ σ₄ σ₅ σ₆ σ₇ : CompileState}
  (h : DoWhileTrace str neg p q bl tl fl entry σ σ₁ σ₂ σ₄ σ₅ σ₆ σ₇ σ')

include h

theorem DoWhileTrace.ext₆ : Ext σ₆ σ' := by
  have h₇ : Ext σ₆ σ₇ := h.attached₇ ▸ Ext.attach _ _ _
  have h₈ : Ext σ₇ σ' := h.appended ▸ Ext.append _ h.next_ne
  exact h₇.trans h₈

theorem DoWhileTrace.ext₅ : Ext σ₅ σ' :=
  (h.attached₆ ▸ Ext.attach _ _ _ : Ext σ₅ σ₆).trans h.ext₆

theorem DoWhileTrace.ext₂ : Ext σ₂ σ' :=
  (h.created.ext.trans (h.attached₅ ▸ Ext.attach _ _ _ : Ext σ₄ σ₅)).trans h.ext₅

theorem DoWhileTrace.wf₅ : σ₅.WF :=
  h.attached₅ ▸ h.created.wf.attach _ _

end DoWhileTrace

theorem compileDoWhileStmt_trace (hB : Patches B) (hr : Ready ctx σ)
    (h : compileDoWhileStmt B c ctx σ = some (ctx', σ')) :
    ∃ str neg bl tl fl blockCtx σ₁ σ₂ σ₄ σ₅ σ₆ σ₇, c.handler = some (str, neg) ∧
      B ⟨none, ctx.prevLabel, bl⟩ σ₁ = some (blockCtx, σ₂) ∧
      ctx' = { ctx with entry := blockCtx.entry } ∧
      DoWhileTrace str neg ctx.prevLabel ctx.nextLabel bl tl fl blockCtx.entry
        σ σ₁ σ₂ σ₄ σ₅ σ₆ σ₇ σ' := by
  obtain ⟨str, neg, blockCtx, σ₂, hh, hblock, rfl, rfl⟩ := compileDoWhileStmt_cases h
  clear h
  obtain ⟨hwf, hp, hq, hpq⟩ := hr
  obtain ⟨_, p, q⟩ := ctx
  simp only at hp hq hpq hblock ⊢
  have h₁ := Step.newLabel hwf
  have hlab₁ := newLabel_labels hwf
  have hlen₁ : σ.newLabel.2.nodes = σ.nodes := rfl
  have hcount₁ : σ.newLabel.2.labelCount = σ.labelCount + 1 := rfl
  generalize σ.newLabel.2 = σ₁ at *
  obtain ⟨bl, hbl⟩ : ∃ bl, bl = σ.labelCount := ⟨_, rfl⟩
  rw [← hbl] at hblock ⊢
  have hr₁ : Ready ⟨none, p, bl⟩ σ₁ :=
    ⟨h₁.wf, by simp only; omega, by simp only; omega, by simp only; omega⟩
  have h₂ := hB hr₁ rfl hblock
  simp only at h₂
  have hcount₂ := h₂.ext.count_le
  obtain ⟨h₃, hlab₃⟩ := twoLabels h₂.wf
  have hlen₃ : σ₂.newLabel.2.newLabel.2.nodes = σ₂.nodes := rfl
  have hcount₃ : σ₂.newLabel.2.newLabel.2.labelCount = σ₂.labelCount + 2 := rfl
  generalize σ₂.newLabel.2.newLabel.2 = σ₃ at *
  obtain ⟨fl, hfl⟩ : ∃ fl, fl = σ₂.labelCount + 1 := ⟨_, rfl⟩
  obtain ⟨tl, htl⟩ : ∃ tl, tl = σ₂.labelCount := ⟨_, rfl⟩
  rw [← hfl, ← htl]
  have h₄ : Created str neg tl fl σ₃ (condition σ₃ str neg tl fl) :=
    created_condition h₃.wf (by omega) (by omega)
  generalize condition σ₃ str neg tl fl = σ₄ at *
  have hcreated : Created str neg tl fl σ₂ σ₄ :=
    h₄.of_newLabels h₃ hlab₃ hlen₃ (Step.refl h₄.wf) rfl rfl
  have hcount₄ := h₄.ext.count_le
  have h₅ := Step.attach h₄.wf tl blockCtx.entry
  have hcount₅ := h₅.ext.count_le
  have h₆ := Step.attach h₅.wf bl (some (.node σ₂.nodes.length))
  have hcount₆ := h₆.ext.count_le
  have h₇ := Step.attach h₆.wf p blockCtx.entry
  have hcount₇ := h₇.ext.count_le
  have h₈ := Step.append h₇.wf q fl (by omega) (by omega)
  have hq₇ := h₇.frame q (by omega) (by omega)
  rw [h₆.frame q (by omega) (by omega), h₅.frame q (by omega) (by omega),
    h₄.frame q (by omega) (by omega), hlab₃, h₂.frame q (by omega) (by omega), hlab₁] at hq₇
  have hf₇ := h₇.frame fl (by omega) (by omega)
  rw [h₆.frame fl (by omega) (by omega), h₅.frame fl (by omega) (by omega)] at hf₇
  refine ⟨str, neg, bl, tl, fl, blockCtx, σ₁, σ₂, σ₄, _, _, _, hh, hblock, rfl, h₁, hr₁, hlab₁,
    hlen₁, by rw [hlab₁]; exact hwf.fresh bl (by omega), h₂, hcreated, rfl, ?_, rfl, rfl, rfl,
    by omega, by simp [attach_nodes], ?_, ?_, ?_, ?_⟩
  · rw [h₅.frame bl (by omega) (by omega), h₄.frame bl (by omega) (by omega), hlab₃]
  · rw [append_labels_fst _ (by omega), hq₇, hf₇]
  · refine ((h₁.trans h₂.toStep).trans
      (hcreated.toStep.trans (h₅.trans (h₆.trans (h₇.trans h₈))))).mono ?_
    intro l hl h
    simp only [false_or] at h
    omega
  · rw [append_labels_of_ne _ hpq (by omega)]
    simp
  · rw [append_labels_fst _ (by omega), hq₇]
    exact List.subset_append_left _ _

/-! ## Blocks -/

/-- A block: two labels are declared in `σ₂`, the statements are compiled in `σ₃`, the
start of the block is attached in `σ₄`, and `out` holds the edges that leave it. -/
structure BlockTrace (p q sp sn out : ℕ) (entry : Option NodeRef)
    (σ σ₂ σ₃ σ₄ σ' : CompileState) : Prop where
  step₂ : Step (fun _ => False) σ σ₂
  ready₂ : Ready ⟨none, sp, sn⟩ σ₂
  labels₂ : σ₂.labels = σ.labels
  nodes₂ : σ₂.nodes = σ.nodes
  fresh₂ : σ₂.labels sn = []
  step₃ : Step (fun l => l = sp ∨ l = sn) σ₂ σ₃
  attached₄ : σ₄ = σ₃.attach p entry
  appended : σ' = σ₄.append q out
  next_ne : q ≠ out
  length₃ : σ'.nodes.length = σ₃.nodes.length
  prev₃ : σ₃.labels p = σ.labels p
  next' : σ'.labels q = σ.labels q ++ σ₃.labels out
  patch : Patch p q σ σ'

/-- The loop over the statements of a block works between two labels that change
places. -/
def StmtsPatch (k : List WorkflowSyntax) : Prop :=
  ∀ {first : Bool} {stmtCtx stmtCtx' : Context} {entry entry' : Option NodeRef}
    {σ σ' : CompileState}, Ready stmtCtx σ →
    compileStmts k first stmtCtx entry σ = some (stmtCtx', entry', σ') →
    Step (fun l => l = stmtCtx.prevLabel ∨ l = stmtCtx.nextLabel) σ σ' ∧
      (stmtCtx'.prevLabel = stmtCtx.prevLabel ∨ stmtCtx'.prevLabel = stmtCtx.nextLabel)

theorem compileBlock_trace (hk : StmtsPatch k) (hr : Ready ctx σ) (hentry : ctx.entry = none)
    (h : compileBlock (.stmtList k) ctx σ = some (ctx', σ')) :
    ∃ sp sn stmtCtx entry σ₂ σ₃ σ₄,
      compileStmts k true ⟨none, sp, sn⟩ none σ₂ = some (stmtCtx, entry, σ₃) ∧
      ctx' = { ctx with entry := entry } ∧
      BlockTrace ctx.prevLabel ctx.nextLabel sp sn stmtCtx.prevLabel entry σ σ₂ σ₃ σ₄ σ' := by
  rw [compileBlock] at h
  simp only [Option.map_eq_some_iff, Prod.mk.injEq, hentry] at h
  obtain ⟨⟨stmtCtx, entry, σ₃⟩, hstmts, rfl, rfl⟩ := h
  obtain ⟨hwf, hp, hq, hpq⟩ := hr
  obtain ⟨_, p, q⟩ := ctx
  simp only at hp hq hpq hstmts ⊢
  obtain ⟨h₂, hlab₂⟩ := twoLabels hwf
  have hlen₂ : σ.newLabel.2.newLabel.2.nodes = σ.nodes := rfl
  have hcount₂ : σ.newLabel.2.newLabel.2.labelCount = σ.labelCount + 2 := rfl
  have hfst : σ.newLabel.1 = σ.labelCount := rfl
  have hsnd : σ.newLabel.2.newLabel.1 = σ.labelCount + 1 := rfl
  rw [hfst, hsnd] at hstmts
  generalize σ.newLabel.2.newLabel.2 = σ₂ at *
  obtain ⟨sp, hsp⟩ : ∃ sp, sp = σ.labelCount := ⟨_, rfl⟩
  obtain ⟨sn, hsn⟩ : ∃ sn, sn = σ.labelCount + 1 := ⟨_, rfl⟩
  rw [← hsn, ← hsp] at hstmts
  have hr₂ : Ready ⟨none, sp, sn⟩ σ₂ :=
    ⟨h₂.wf, by simp only; omega, by simp only; omega, by simp only; omega⟩
  obtain ⟨h₃, hout⟩ := hk hr₂ hstmts
  simp only at h₃ hout
  have hcount₃ := h₃.ext.count_le
  have h₄ := Step.attach h₃.wf p entry
  have h₅ := Step.append h₄.wf q stmtCtx.prevLabel
    (by simp only [attach_labelCount]; omega) (by omega)
  have hq₃ : σ₃.labels q = σ.labels q := by rw [h₃.frame q (by omega) (by omega), hlab₂]
  have hnext : ((σ₃.attach p entry).append q stmtCtx.prevLabel).labels q =
      σ.labels q ++ σ₃.labels stmtCtx.prevLabel := by
    rw [append_labels_fst _ (by omega), h₄.frame q (by omega) (by omega),
      h₄.frame stmtCtx.prevLabel (by omega) (by omega), hq₃]
  refine ⟨sp, sn, stmtCtx, entry, σ₂, σ₃, _, hstmts, rfl, h₂, hr₂, hlab₂, hlen₂,
    by rw [hlab₂]; exact hwf.fresh sn (by omega), h₃, rfl, rfl, by omega,
    by simp [attach_nodes], ?_, hnext, ?_, ?_, ?_⟩
  · rw [h₃.frame p (by omega) (by omega), hlab₂]
  · refine ((h₂.trans h₃).trans (h₄.trans h₅)).mono ?_
    intro l hl h
    simp only [false_or] at h
    omega
  · rw [append_labels_of_ne _ hpq (by omega)]
    simp
  · rw [hnext]
    exact List.subset_append_left _ _

/-! ## The induction -/

/-- **Induction over what is compiled**: statements and blocks call each other, and
the loop over the statements of a block goes through a list. -/
theorem compile_induction {S B : WorkflowSyntax → Prop} {L : List WorkflowSyntax → Prop}
    (ite : ∀ c t e, B t → B e → S (.ifStmt c t e)) (loop : ∀ c b, B b → S (.whileStmt c b))
    (doLoop : ∀ b c, B b → S (.doWhileStmt b c)) (ret : S .returnStmt)
    (exp : ∀ e, e.isSimple = true → S e) (block : ∀ k, L k → B (.stmtList k))
    (other : ∀ s, s.isBlock = false → B s) (nil : L []) (cons : ∀ s k, S s → L k → L (s :: k)) :
    (∀ s, S s) ∧ (∀ s, B s) ∧ ∀ k, L k := by
  have hboth : ∀ s, S s ∧ B s := fun s =>
    @WorkflowSyntax.rec (fun s => S s ∧ B s) L
      ⟨exp _ rfl, other _ rfl⟩
      (fun _ => ⟨exp _ rfl, other _ rfl⟩)
      (fun _ _ _ _ => ⟨exp _ rfl, other _ rfl⟩)
      (fun k hk => ⟨exp _ rfl, block k hk⟩)
      (fun c t e _ ht he => ⟨ite c t e ht.2 he.2, other _ rfl⟩)
      (fun c b _ hb => ⟨loop c b hb.2, other _ rfl⟩)
      (fun b c hb _ => ⟨doLoop b c hb.2, other _ rfl⟩)
      ⟨ret, other _ rfl⟩
      (fun _ _ _ => ⟨exp _ rfl, other _ rfl⟩)
      nil (fun s k hs hk => cons s k hs.1 hk) s
  refine ⟨fun s => (hboth s).1, fun s => (hboth s).2, fun k => ?_⟩
  induction k with
  | nil => exact nil
  | cons s k ih => exact cons s k (hboth s).1 ih

/-- What every statement does: a patch, with its two labels where they were. -/
def StmtPatch (C : Compile) : Prop :=
  ∀ {ctx ctx' : Context} {σ σ' : CompileState}, Ready ctx σ → C ctx σ = some (ctx', σ') →
    Patch ctx.prevLabel ctx.nextLabel σ σ' ∧ ctx'.prevLabel = ctx.prevLabel ∧
      ctx'.nextLabel = ctx.nextLabel

/-- After a statement that is not a `return`, its labels change places. -/
theorem Patch.ready_swap (hr : Ready ctx σ) (h : Patch ctx.prevLabel ctx.nextLabel σ σ')
    (hp : ctx'.prevLabel = ctx.prevLabel) (hq : ctx'.nextLabel = ctx.nextLabel) :
    Ready ⟨ctx'.entry, ctx'.nextLabel, ctx'.prevLabel⟩ σ' :=
  ⟨h.wf, hq ▸ lt_of_lt_of_le hr.next_lt h.ext.count_le,
    hp ▸ lt_of_lt_of_le hr.prev_lt h.ext.count_le, by simp only [hp, hq]; exact hr.ne.symm⟩

/-- One round of the loop over the statements of a block: a statement, after which the
loop is left if it was a `return`, and goes on with changed labels if it was not. -/
theorem compileStmts_cons_cases {first : Bool} {stmtCtx stmtCtx' : Context}
    {entry entry' : Option NodeRef}
    (h : compileStmts (s :: k) first stmtCtx entry σ = some (stmtCtx', entry', σ')) :
    ∃ ctx₁ σ₁, compileStmt s stmtCtx σ = some (ctx₁, σ₁) ∧
      (s.isReturn = true ∧ stmtCtx' = ⟨ctx₁.entry, ctx₁.nextLabel, ctx₁.prevLabel⟩ ∧
          entry' = (if first then ctx₁.entry else entry) ∧ σ' = σ₁ ∨
        s.isReturn = false ∧ compileStmts k false ⟨ctx₁.entry, ctx₁.nextLabel, ctx₁.prevLabel⟩
          (if first then ctx₁.entry else entry) σ₁ = some (stmtCtx', entry', σ')) := by
  rw [compileStmts, Option.bind_eq_some_iff] at h
  obtain ⟨⟨ctx₁, σ₁⟩, hstmt, h⟩ := h
  refine ⟨ctx₁, σ₁, hstmt, ?_⟩
  cases hret : s.isReturn with
  | true =>
    simp only [hret, if_true, Option.some.injEq, Prod.mk.injEq] at h
    exact .inl ⟨rfl, h.1.symm, h.2.1.symm, h.2.2.symm⟩
  | false =>
    simp only [hret] at h
    exact .inr ⟨rfl, h⟩

theorem compileStmts_cons_patch (hs : StmtPatch (compileStmt s)) (hk : StmtsPatch k) :
    StmtsPatch (s :: k) := by
  intro first stmtCtx stmtCtx' entry entry' σ σ' hr h
  obtain ⟨ctx₁, σ₁, hstmt, h⟩ := compileStmts_cons_cases h
  obtain ⟨h₁, hp₁, hq₁⟩ := hs hr hstmt
  rcases h with ⟨-, rfl, rfl, rfl⟩ | ⟨-, h⟩
  · exact ⟨h₁.toStep, .inr hq₁⟩
  · obtain ⟨h₂, hout⟩ := hk (h₁.ready_swap hr hp₁ hq₁) h
    simp only [hp₁, hq₁] at h₂ hout
    exact ⟨(h₁.toStep.trans h₂).mono fun l _ h => h.elim id Or.symm, hout.symm⟩

theorem compile_patch : (∀ s, StmtPatch (compileStmt s)) ∧ (∀ s, Patches (compileBlock s)) ∧
    ∀ k, StmtsPatch k := by
  refine compile_induction ?_ ?_ ?_ ?_ ?_ ?_ ?_ ?_ ?_
  · intro c t e ht he ctx ctx' σ σ' hr h
    rw [compileStmt] at h
    obtain ⟨_, _, _, _, _, _, _, _, _, -, -, -, -, rfl, htr⟩ :=
      compileIfStmt_trace ht (fun _ => he) hr h
    exact ⟨htr.patch, rfl, rfl⟩
  · intro c b hb ctx ctx' σ σ' hr h
    rw [compileStmt] at h
    obtain ⟨_, _, _, _, _, _, _, _, _, -, -, -, rfl, htr⟩ := compileWhileStmt_trace hb hr h
    exact ⟨htr.patch, rfl, rfl⟩
  · intro b c hb ctx ctx' σ σ' hr h
    rw [compileStmt] at h
    obtain ⟨_, _, _, _, _, _, _, _, _, _, _, _, -, -, rfl, htr⟩ :=
      compileDoWhileStmt_trace hb hr h
    exact ⟨htr.patch, rfl, rfl⟩
  · intro ctx ctx' σ σ' hr h
    rw [compileStmt] at h
    obtain ⟨rfl, -, -, hpatch⟩ := compileReturnStmt_patch hr h
    exact ⟨hpatch, rfl, rfl⟩
  · intro e he ctx ctx' σ σ' hr h
    rw [compileStmt_of_isSimple he] at h
    obtain ⟨str, neg, σ₁, -, rfl, htr⟩ := compileExpStmt_trace hr h
    exact ⟨htr.patch, rfl, rfl⟩
  · intro k hk ctx ctx' σ σ' hr he h
    obtain ⟨_, _, _, _, _, _, _, -, -, htr⟩ := compileBlock_trace hk hr he h
    exact htr.patch
  · intro s hs ctx ctx' σ σ' hr he h
    simp [compileBlock_of_not_isBlock hs] at h
  · intro first stmtCtx stmtCtx' entry entry' σ σ' hr h
    rw [compileStmts, Option.some.injEq, Prod.mk.injEq, Prod.mk.injEq] at h
    obtain ⟨rfl, rfl, rfl⟩ := h
    exact ⟨⟨hr.wf, Ext.refl _, fun _ _ _ => rfl⟩, .inl rfl⟩
  · intro s k hs hk
    exact compileStmts_cons_patch hs hk

theorem compileStmt_patch (s : WorkflowSyntax) : StmtPatch (compileStmt s) := compile_patch.1 s

theorem compileBlock_patch (s : WorkflowSyntax) : Patches (compileBlock s) := compile_patch.2.1 s

theorem compileStmts_patch (k : List WorkflowSyntax) : StmtsPatch k := compile_patch.2.2 k

end Rtp.Workflow
