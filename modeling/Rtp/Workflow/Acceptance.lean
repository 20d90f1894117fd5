import Rtp.Workflow.Placement

/-!
# Workflows the compiler accepts

Which workflows compile can be read off the syntax tree.

* `WorkflowSyntax.completes` — control can leave a statement, or a block, at its end.
* `WorkflowSyntax.accepted`, `WorkflowSyntax.enterable`, `WorkflowSyntax.acceptedAll` —
  what is asked of statements, of the blocks inside of them, and of the statements of a
  block: no block inside a statement is empty or starts with `return`, the block of a
  `do`-`while` completes, and behind a statement that does not complete nothing is
  compiled.
* `Laid` — what compiling an accepted piece of syntax does: each edge of a node it
  creates is owed by the second label or set, and every node is reached from its entry.
* `compileStmt_laid`, `compileBlock_laid` — the induction.

That other workflows are refused is shown in `Rtp.Workflow.Rejection`.
-/

namespace Rtp.Workflow

open CompileState

variable {e s : WorkflowSyntax} {k : List WorkflowSyntax} {ctx ctx' : Context}
  {σ σ' : CompileState}

namespace WorkflowSyntax

mutual

/-- Control can leave the statement, or the block, at its end. -/
def completes : WorkflowSyntax → Bool
  | returnStmt => false
  | ifStmt _ t e => t.completes || e.completes
  | doWhileStmt b _ => b.completes
  | stmtList child => completesAll child
  | _ => true

/-- Every statement of the block completes. -/
def completesAll : List WorkflowSyntax → Bool
  | [] => true
  | s :: rest => s.completes && completesAll rest

end

/-- Nothing is compiled for the statements: there are none, or the first is a
`return`. -/
def endsHere : List WorkflowSyntax → Bool
  | [] => true
  | s :: _ => s.isReturn

mutual

/-- What is asked of a statement. -/
def accepted : WorkflowSyntax → Bool
  | ifStmt c t e => c.handler.isSome && t.enterable && (e.isEmpty || e.enterable)
  | whileStmt c b => c.handler.isSome && b.enterable
  | doWhileStmt b c => c.handler.isSome && b.enterable && b.completes
  | returnStmt => true
  | e => e.handler.isSome

/-- What is asked of a block inside a statement. -/
def enterable : WorkflowSyntax → Bool
  | stmtList child => !endsHere child && acceptedAll child
  | _ => false

/-- What is asked of the statements of a block, up to the first `return`. -/
def acceptedAll : List WorkflowSyntax → Bool
  | [] => true
  | s :: rest => s.accepted && (s.isReturn || endsHere rest || s.completes && acceptedAll rest)

end

/-- What is asked of the block of a workflow. -/
def acceptedBlock : WorkflowSyntax → Bool
  | stmtList child => acceptedAll child
  | _ => false

theorem accepted_of_isSimple (h : s.isSimple = true) : s.accepted = s.handler.isSome := by
  cases s <;> simp_all [isSimple, accepted]

theorem completes_of_handler (h : s.handler.isSome = true) : s.completes = true := by
  cases s <;> simp_all [handler, completes]

/-- Behind an accepted statement that is not a `return`, either nothing is compiled or
the statement completes and the rest is accepted. -/
theorem acceptedAll_cons (h : acceptedAll (s :: k) = true) (hret : s.isReturn = false) :
    s.accepted = true ∧ (endsHere k = true ∨
      endsHere k = false ∧ s.completes = true ∧ acceptedAll k = true) := by
  rw [acceptedAll, hret] at h
  cases hk : endsHere k <;> simp_all

theorem acceptedBlock_of_enterable (h : s.enterable = true) : s.acceptedBlock = true := by
  cases s <;> simp_all [enterable, acceptedBlock]

theorem acceptedAll_of_endsHere (h : endsHere k = true) : acceptedAll k = true := by
  cases k with
  | nil => rfl
  | cons s k =>
    rw [endsHere] at h
    cases s <;> simp_all [isReturn, acceptedAll, accepted]

theorem eq_returnStmt (h : s.isReturn = true) : s = returnStmt := by
  cases s <;> simp [isReturn] at h
  rfl

end WorkflowSyntax

open WorkflowSyntax

/-! ## Accepted trees are compiled -/

theorem compileExp_isSome (h : e.handler.isSome = true) (ctx : Context) (σ : CompileState) :
    ∃ r, compileExp e ctx σ = some r := by
  induction e using compileExp.induct generalizing ctx with
  | case1 left ih =>
    rw [compileExp]
    exact ih (by simpa [handler] using h) _
  | case2 str => exact ⟨_, rfl⟩
  | case3 e h₁ h₂ =>
    exfalso
    cases e with
    | name str => exact h₂ str rfl
    | unopExp op left => cases op; exact h₁ left rfl
    | _ => simp [handler] at h

theorem compile_isSome :
    (∀ s, s.accepted = true → ∀ ctx σ, ∃ r, compileStmt s ctx σ = some r) ∧
    (∀ s, s.acceptedBlock = true → ∀ ctx σ, ∃ r, compileBlock s ctx σ = some r) ∧
    ∀ k, acceptedAll k = true → ∀ first stmtCtx entry σ,
      ∃ r, compileStmts k first stmtCtx entry σ = some r := by
  refine compile_induction ?_ ?_ ?_ ?_ ?_ ?_ ?_ ?_ ?_
  · intro c t e ht he h ctx σ
    simp only [accepted, Bool.and_eq_true, Bool.or_eq_true] at h
    obtain ⟨⟨hc, hte⟩, hel⟩ := h
    rw [compileStmt]
    simp only [compileIfStmt]
    obtain ⟨r₁, h₁⟩ := compileExp_isSome hc
      ⟨none, σ.newLabel.2.newLabel.1, σ.newLabel.1⟩ σ.newLabel.2.newLabel.2
    obtain ⟨r₂, h₂⟩ := ht (acceptedBlock_of_enterable hte)
      ⟨none, σ.newLabel.2.newLabel.1, ctx.nextLabel⟩ r₁.2
    rw [h₁, Option.bind_some, h₂, Option.bind_some]
    cases hemp : e.isEmpty with
    | true => exact ⟨_, rfl⟩
    | false =>
      rw [hemp] at hel
      obtain ⟨r₃, h₃⟩ := he (acceptedBlock_of_enterable (hel.resolve_left (by simp)))
        ⟨none, σ.newLabel.1, ctx.nextLabel⟩ (r₂.2.attach σ.newLabel.2.newLabel.1 r₂.1.entry)
      exact ⟨_, by rw [if_neg (by simp), h₃]; rfl⟩
  · intro c b hb h ctx σ
    simp only [accepted, Bool.and_eq_true] at h
    rw [compileStmt]
    simp only [compileWhileStmt]
    obtain ⟨r₁, h₁⟩ := compileExp_isSome h.1 ⟨none, σ.newLabel.1, ctx.nextLabel⟩ σ.newLabel.2
    obtain ⟨r₂, h₂⟩ := hb (acceptedBlock_of_enterable h.2) ⟨none, σ.newLabel.1, r₁.2.newLabel.1⟩
      r₁.2.newLabel.2
    exact ⟨_, by rw [h₁, Option.bind_some, h₂]; rfl⟩
  · intro b c hb h ctx σ
    simp only [accepted, Bool.and_eq_true] at h
    rw [compileStmt]
    simp only [compileDoWhileStmt]
    obtain ⟨r₁, h₁⟩ := hb (acceptedBlock_of_enterable h.1.2) ⟨none, ctx.prevLabel, σ.newLabel.1⟩
      σ.newLabel.2
    obtain ⟨r₂, h₂⟩ := compileExp_isSome h.1.1
      ⟨none, r₁.2.newLabel.1, r₁.2.newLabel.2.newLabel.1⟩ r₁.2.newLabel.2.newLabel.2
    exact ⟨_, by rw [h₁, Option.bind_some, h₂]; rfl⟩
  · intro _ ctx σ
    exact ⟨_, rfl⟩
  · intro e he h ctx σ
    rw [accepted_of_isSimple he] at h
    obtain ⟨r, hr⟩ := compileExp_isSome h ⟨none, ctx.nextLabel, ctx.nextLabel⟩ σ
    exact ⟨_, by rw [compileStmt_of_isSimple he, compileExpStmt, hr]; rfl⟩
  · intro k hk h ctx σ
    obtain ⟨r, hr⟩ := hk h true ⟨none, σ.newLabel.1, σ.newLabel.2.newLabel.1⟩ ctx.entry
      σ.newLabel.2.newLabel.2
    exact ⟨_, by rw [compileBlock]; simp only [hr]; rfl⟩
  · intro s hs h
    exact absurd h (by cases s <;> simp_all [isBlock, acceptedBlock])
  · intro _ first stmtCtx entry σ
    exact ⟨_, rfl⟩
  · intro s k hs hk h first stmtCtx entry σ
    have hacc : s.accepted = true := by
      rw [acceptedAll, Bool.and_eq_true] at h
      exact h.1
    obtain ⟨r₁, h₁⟩ := hs hacc stmtCtx σ
    rw [compileStmts, h₁, Option.bind_some]
    cases hret : s.isReturn with
    | true => exact ⟨_, rfl⟩
    | false =>
      simp only [Bool.false_eq_true, if_false]
      rcases (acceptedAll_cons h hret).2 with hend | ⟨-, -, hrest⟩
      · -- the loop ends here, or at a `return`
        cases k with
        | nil => exact ⟨_, rfl⟩
        | cons s' k' =>
          rw [endsHere] at hend
          rw [eq_returnStmt hend]
          exact ⟨_, rfl⟩
      · exact hk hrest _ _ _ _

/-! ## Nodes that are reached and edges that are set, in every later graph -/

/-- In every later graph the second node is reached from the first. -/
def Leads (σ : CompileState) (a b : NodeRef) : Prop :=
  ∀ g : Graph, Future σ g.nodes → g.Reaches a b

/-- The edge is owed by the label, or it has been set for good. -/
def OwedOrSet (q : ℕ) (σ : CompileState) (e : Edge) : Prop :=
  e ∈ σ.labels q ∨ σ.Settled e ∧ edgeAt σ.nodes e.node e.direct ≠ none

/-- So is each edge of the nodes `lo`, …, `hi - 1`. -/
def Owing (q lo hi : ℕ) (σ : CompileState) : Prop :=
  ∀ e : Edge, lo ≤ e.node → e.node < hi → OwedOrSet q σ e

section Later

variable {σ σ' : CompileState} {a b c : NodeRef} {e : Edge} {q q' lo mid hi : ℕ}

theorem Leads.refl (σ : CompileState) (a : NodeRef) : Leads σ a a := fun _ _ => .refl

theorem Leads.trans (h : Leads σ a b) (h' : Leads σ b c) : Leads σ a c :=
  fun g hg => (h g hg).trans (h' g hg)

theorem Leads.ext (h : Leads σ a b) (hext : Ext σ σ') : Leads σ' a b :=
  fun g hg => h g (hext.future hg)

/-- A settled edge is an edge of every later graph. -/
theorem leads_of_settled (hset : σ.Settled e) (h : edgeAt σ.nodes e.node e.direct = some a) :
    Leads σ (.node e.node) a := by
  intro g hg
  refine Graph.Reaches.refl.tail (b := e.direct) ?_
  rw [Graph.edge, hg.settled e hset, h]

theorem OwedOrSet.ext (h : OwedOrSet q σ e) (hext : Ext σ σ')
    (hq : ∀ e ∈ σ.labels q, OwedOrSet q' σ' e) : OwedOrSet q' σ' e := by
  rcases h with h | ⟨hset, hne⟩
  · exact hq e h
  · exact .inr ⟨hext.settled_mono e hset, by rwa [hext.settled e hset]⟩

theorem Owing.ext (h : Owing q lo hi σ) (hext : Ext σ σ')
    (hq : ∀ e ∈ σ.labels q, OwedOrSet q' σ' e) : Owing q' lo hi σ' :=
  fun e hlo hhi => (h e hlo hhi).ext hext hq

theorem Owing.append (h : Owing q lo mid σ) (h' : Owing q mid hi σ) : Owing q lo hi σ :=
  fun e hlo hhi => if hm : e.node < mid then h e hlo hm else h' e (not_lt.1 hm) hhi

/-- A node has two edges. -/
theorem owing_node {neg : Bool} {v : ℕ} (h : OwedOrSet q σ ⟨!neg, v⟩)
    (h' : OwedOrSet q σ ⟨neg, v⟩) : Owing q v (v + 1) σ := by
  rintro ⟨d, i⟩ hlo hhi
  obtain rfl : i = v := by simp only at hlo hhi; omega
  by_cases hd : d = neg
  · exact hd ▸ h'
  · have hd' : d = !neg := by cases d <;> cases neg <;> simp_all
    exact hd' ▸ h

end Later

/-- What an accepted piece of syntax with the entry `a` has been compiled to. -/
structure Laid (q : ℕ) (old : List Edge) (a : NodeRef) (completes : Bool)
    (σ σ' : CompileState) : Prop where
  owing : Owing q σ.nodes.length σ'.nodes.length σ'
  exit : completes = true → ∃ e ∈ σ'.labels q, σ.nodes.length ≤ e.node
  shut : completes = false → σ'.labels q ⊆ old
  reach : ∀ i, σ.nodes.length ≤ i → i < σ'.nodes.length → Leads σ' a (.node i)

/-- A statement that is not a `return` has an entry and is laid out behind it. -/
def StmtLaid (s : WorkflowSyntax) : Prop :=
  ∀ {ctx ctx' : Context} {σ σ' : CompileState}, Ready ctx σ →
    compileStmt s ctx σ = some (ctx', σ') → s.accepted = true → s.isReturn = false →
    ∃ a, ctx'.entry = some a ∧
      Laid ctx.nextLabel (σ.labels ctx.nextLabel) a s.completes σ σ'

/-- A block inside a statement has an entry and is laid out behind it. -/
def BlockLaid (s : WorkflowSyntax) : Prop :=
  ∀ {ctx ctx' : Context} {σ σ' : CompileState}, Ready ctx σ → ctx.entry = none →
    compileBlock s ctx σ = some (ctx', σ') → s.enterable = true →
    ∃ a, ctx'.entry = some a ∧
      Laid ctx.nextLabel (σ.labels ctx.nextLabel) a s.completes σ σ'

/-- The statements of a block are laid out behind the entry of the first. -/
def StmtsLaid (k : List WorkflowSyntax) : Prop :=
  ∀ {first : Bool} {stmtCtx stmtCtx' : Context} {entry entry' : Option NodeRef}
    {σ σ' : CompileState}, Ready stmtCtx σ → σ.labels stmtCtx.nextLabel = [] →
    compileStmts k first stmtCtx entry σ = some (stmtCtx', entry', σ') →
    acceptedAll k = true → endsHere k = false →
    ∃ a, (first = true → entry' = some a) ∧
      (∀ e ∈ σ.labels stmtCtx.prevLabel,
        σ'.Settled e ∧ edgeAt σ'.nodes e.node e.direct = some a) ∧
      Laid stmtCtx'.prevLabel [] a (completesAll k) σ σ'

/-! ## Branches of a condition -/

/-- A branch of a condition, entered along the edge `e₀`. -/
structure Branch (q : ℕ) (e₀ : Edge) (completes : Bool) (σ σ' : CompileState) : Prop where
  owing : Owing q σ.nodes.length σ'.nodes.length σ'
  edge : OwedOrSet q σ' e₀
  exit : completes = true → ∃ e ∈ σ'.labels q, e = e₀ ∨ σ.nodes.length ≤ e.node
  shut : completes = false → σ'.labels q ⊆ σ.labels q
  reach : ∀ i, σ.nodes.length ≤ i → i < σ'.nodes.length → Leads σ' (.node e₀.node) (.node i)

theorem branch_of_block (hs : BlockLaid s) (hr : Ready ctx σ) (he : ctx.entry = none)
    (h : compileBlock s ctx σ = some (ctx', σ')) (hent : s.enterable = true) {e₀ : Edge}
    (hmem : e₀ ∈ σ.labels ctx.prevLabel) : Branch ctx.nextLabel e₀ s.completes σ σ' := by
  obtain ⟨a, ha, hl⟩ := hs hr he h hent
  obtain ⟨hset, hx⟩ := compileBlock_landed hr he h hmem
  rw [ha] at hx
  refine ⟨hl.owing, .inr ⟨hset, by rw [hx]; simp⟩, fun hc => ?_, hl.shut, fun i hlo hhi => ?_⟩
  · obtain ⟨e, hmem, hlo⟩ := hl.exit hc
    exact ⟨e, hmem, .inr hlo⟩
  · exact (leads_of_settled hset hx).trans (hl.reach i hlo hhi)

/-- Without an `else`, the false edge of the condition is the way out. -/
theorem branch_of_else (hs : BlockLaid s) {cl q : ℕ} (hr : Ready ⟨none, cl, q⟩ σ)
    (h : ElseRun s.isEmpty (compileBlock s) cl q σ σ')
    (hent : s.isEmpty = true ∨ s.enterable = true) {e₀ : Edge} (hmem : e₀ ∈ σ.labels cl) :
    Branch q e₀ s.completes σ σ' := by
  rcases h with ⟨hemp, rfl⟩ | ⟨hemp, elseCtx, h⟩
  · have hmem' : e₀ ∈ (σ.append q cl).labels q := by
      rw [append_labels_fst σ hr.ne.symm]
      exact List.mem_append_right _ hmem
    refine ⟨fun e hlo hhi => ?_, .inl hmem', fun _ => ⟨e₀, hmem', .inl rfl⟩, fun hc => ?_,
      fun i hlo hhi => ?_⟩
    · rw [append_nodes] at hhi
      omega
    · exact absurd hc (by cases s <;> simp_all [isEmpty, completes])
    · rw [append_nodes] at hhi
      omega
  · rw [hemp] at hent
    exact branch_of_block hs hr rfl h (hent.resolve_left (by simp)) hmem

/-! ## The statements -/

theorem compileIfStmt_laid {c t e : WorkflowSyntax} (ht : BlockLaid t) (he : BlockLaid e) :
    StmtLaid (.ifStmt c t e) := by
  intro ctx ctx' σ σ' hr h hacc _
  simp only [accepted, Bool.and_eq_true, Bool.or_eq_true] at hacc
  rw [compileStmt] at h
  obtain ⟨str, neg, tl, cl, thenCtx, σ₃, σ₄, σ₅, σ₆, -, hthen, -, helse, rfl, htr⟩ :=
    compileIfStmt_trace (compileBlock_patch t) (fun _ => compileBlock_patch e) hr h
  obtain ⟨hlen₃, hlen₄, hlen₅, hlen₆, hlen'⟩ := htr.lengths
  have hT := branch_of_block ht htr.ready₃ rfl hthen hacc.1.2 htr.created.prev
  have hE := branch_of_else he htr.ready₅ helse hacc.2 (htr.cond₅ ▸ htr.created.next)
  have hext₆ : Ext σ₆ σ' := htr.attached ▸ Ext.attach _ _ _
  have hext₄ : Ext σ₄ σ' := htr.step₅.ext.trans (htr.patch₆.ext.trans hext₆)
  have hsub₆ : σ₆.labels ctx.nextLabel ⊆ σ'.labels ctx.nextLabel := htr.next' ▸ List.Subset.refl _
  have hsub₄ : σ₄.labels ctx.nextLabel ⊆ σ'.labels ctx.nextLabel :=
    List.Subset.trans (htr.next₅ ▸ htr.patch₆.next) hsub₆
  refine ⟨_, rfl, ?_, fun hc => ?_, fun hc => ?_, fun i hlo hhi => ?_⟩
  · -- the condition, the `then` block and the `else` block
    have hq₄ : ∀ e ∈ σ₄.labels ctx.nextLabel, OwedOrSet ctx.nextLabel σ' e :=
      fun e he => .inl (hsub₄ he)
    have hq₆ : ∀ e ∈ σ₆.labels ctx.nextLabel, OwedOrSet ctx.nextLabel σ' e :=
      fun e he => .inl (hsub₆ he)
    have hcond := owing_node (hT.edge.ext hext₄ hq₄) (hE.edge.ext hext₆ hq₆)
    have hthen := hT.owing.ext hext₄ hq₄
    have helse := hE.owing.ext hext₆ hq₆
    rw [hlen₃] at hthen
    rw [hlen₅, ← hlen'] at helse
    exact (hcond.append hthen).append helse
  · rw [completes, Bool.or_eq_true] at hc
    rcases hc with hc | hc
    · obtain ⟨e, hmem, rfl | hlo⟩ := hT.exit hc
      · exact ⟨_, hsub₄ hmem, le_refl _⟩
      · exact ⟨e, hsub₄ hmem, by omega⟩
    · obtain ⟨e, hmem, rfl | hlo⟩ := hE.exit hc
      · exact ⟨_, hsub₆ hmem, le_refl _⟩
      · exact ⟨e, hsub₆ hmem, by omega⟩
  · rw [completes, Bool.or_eq_false_iff] at hc
    rw [htr.next', ← htr.next₃]
    exact List.Subset.trans (hE.shut hc.2) (htr.next₅ ▸ hT.shut hc.1)
  · rcases Nat.lt_trichotomy i σ.nodes.length with h | rfl | h
    · omega
    · exact .refl σ' _
    · by_cases hi : i < σ₄.nodes.length
      · exact (hT.reach i (by omega) hi).ext hext₄
      · exact (hE.reach i (by omega) (by omega)).ext hext₆

theorem compileWhileStmt_laid {c b : WorkflowSyntax} (hb : BlockLaid b) :
    StmtLaid (.whileStmt c b) := by
  intro ctx ctx' σ σ' hr h hacc _
  simp only [accepted, Bool.and_eq_true] at hacc
  rw [compileStmt] at h
  obtain ⟨str, neg, sl, el, blockCtx, σ₃, σ₄, σ₅, σ₆, -, hblock, hσ₅, rfl, htr⟩ :=
    compileWhileStmt_trace (compileBlock_patch b) hr h
  have hlen₃ := htr.created.length
  have hlen₄ := htr.patch₄.ext.length_le
  have hlen' := htr.length₄
  have hB := branch_of_block hb htr.ready₃ rfl hblock hacc.2 htr.created.prev
  have hext₄ := htr.ext₄
  have hout : (⟨neg, σ.nodes.length⟩ : Edge) ∈ σ'.labels ctx.nextLabel :=
    htr.next' ▸ htr.created.next
  refine ⟨_, rfl, ?_, fun _ => ⟨_, hout, le_refl _⟩, fun hc => ?_, fun i hlo hhi => ?_⟩
  · -- the end of the block leads back to the condition
    have hback : ∀ e ∈ σ₄.labels el, OwedOrSet ctx.nextLabel σ' e := by
      intro e he
      rw [← htr.back₅] at he
      obtain ⟨hset, hx⟩ := landed_of_attach htr.step₅.wf (htr.attached₆ ▸ htr.ext₆) he
      exact .inr ⟨hset, by rw [hx]; simp⟩
    have hcond := owing_node (hB.edge.ext hext₄ hback) (Or.inl hout)
    have hblock := hB.owing.ext hext₄ hback
    rw [hlen₃, ← hlen'] at hblock
    exact hcond.append hblock
  · simp [completes] at hc
  · rcases Nat.lt_trichotomy i σ.nodes.length with h | rfl | h
    · omega
    · exact .refl σ' _
    · exact (hB.reach i (by omega) (by omega)).ext hext₄

theorem compileDoWhileStmt_laid {b c : WorkflowSyntax} (hb : BlockLaid b) :
    StmtLaid (.doWhileStmt b c) := by
  intro ctx ctx' σ σ' hr h hacc _
  simp only [accepted, Bool.and_eq_true] at hacc
  rw [compileStmt] at h
  obtain ⟨str, neg, bl, tl, fl, blockCtx, σ₁, σ₂, σ₄, σ₅, σ₆, σ₇, -, hblock, rfl, htr⟩ :=
    compileDoWhileStmt_trace (compileBlock_patch b) hr h
  have hlen₁ : σ₁.nodes.length = σ.nodes.length := by rw [htr.nodes₁]
  have hlen₂ := htr.patch₂.ext.length_le
  have hlen₄ := htr.created.length
  have hlen' := htr.length₄
  obtain ⟨a, ha, hl⟩ := hb htr.ready₁ rfl hblock hacc.1.2
  simp only at hl
  -- the end of the block leads to the condition, whose true edge leads back to the start
  have hend : ∀ e ∈ σ₂.labels bl,
      σ'.Settled e ∧ edgeAt σ'.nodes e.node e.direct = some (.node σ₂.nodes.length) := by
    intro e he
    rw [← htr.back₅] at he
    exact landed_of_attach htr.wf₅ (htr.attached₆ ▸ htr.ext₆) he
  have hstart : σ'.Settled ⟨!neg, σ₂.nodes.length⟩ ∧
      edgeAt σ'.nodes σ₂.nodes.length (!neg) = blockCtx.entry :=
    landed_of_attach htr.created.wf (htr.attached₅ ▸ htr.ext₅) htr.created.prev
  have hout : (⟨neg, σ₂.nodes.length⟩ : Edge) ∈ σ'.labels ctx.nextLabel := by
    rw [htr.next']
    exact List.mem_append_right _ htr.created.next
  refine ⟨a, ha, ?_, fun _ => ⟨_, hout, by simp only; omega⟩, fun hc => ?_, fun i hlo hhi => ?_⟩
  · have hset : ∀ e ∈ σ₂.labels bl, OwedOrSet ctx.nextLabel σ' e :=
      fun e he => .inr ⟨(hend e he).1, by rw [(hend e he).2]; simp⟩
    have hblock := hl.owing.ext htr.ext₂ hset
    have hcond : Owing ctx.nextLabel σ₂.nodes.length (σ₂.nodes.length + 1) σ' :=
      owing_node (Or.inr ⟨hstart.1, by simp only [hstart.2, ha]; simp⟩) (Or.inl hout)
    rw [hlen₁] at hblock
    rw [hlen', hlen₄]
    exact hblock.append hcond
  · rw [completes, hacc.2] at hc
    simp at hc
  · by_cases hi : i < σ₂.nodes.length
    · exact (hl.reach i (by omega) hi).ext htr.ext₂
    · obtain rfl : i = σ₂.nodes.length := by omega
      obtain ⟨e, hmem, hlo'⟩ := hl.exit hacc.2
      have hin := hl.reach e.node hlo' (htr.patch₂.wf.range bl e hmem)
      exact (hin.ext htr.ext₂).trans (leads_of_settled (hend e hmem).1 (hend e hmem).2)

theorem compileExpStmt_laid (he : e.isSimple = true) : StmtLaid e := by
  intro ctx ctx' σ σ' hr h hacc _
  rw [compileStmt_of_isSimple he] at h
  obtain ⟨str, neg, σ₁, hh, rfl, htr⟩ := compileExpStmt_trace hr h
  have hlen₁ := htr.created.length
  have hlen' : σ'.nodes.length = σ₁.nodes.length := by rw [htr.attached]; simp [attach_nodes]
  have hnext : (⟨neg, σ.nodes.length⟩ : Edge) ∈ σ'.labels ctx.nextLabel :=
    htr.next' ▸ htr.created.next
  have hprev : (⟨!neg, σ.nodes.length⟩ : Edge) ∈ σ'.labels ctx.nextLabel :=
    htr.next' ▸ htr.created.prev
  refine ⟨_, rfl, ?_, fun _ => ⟨_, hnext, le_refl _⟩, fun hc => ?_, fun i hlo hhi => ?_⟩
  · rw [hlen', hlen₁]
    exact owing_node (Or.inl hprev) (Or.inl hnext)
  · rw [completes_of_handler (by rw [hh]; rfl)] at hc
    simp at hc
  · obtain rfl : i = σ.nodes.length := by omega
    exact .refl σ' _

/-! ## Blocks and the induction -/

/-- A statement with nothing compiled behind it: the loop is over, or a `return` takes
the edges that leave the statement to the end. -/
theorem compileStmts_of_endsHere {first : Bool} {stmtCtx stmtCtx' : Context}
    {entry entry' : Option NodeRef} (hr : Ready stmtCtx σ) (hk : endsHere k = true)
    (h : compileStmts k first stmtCtx entry σ = some (stmtCtx', entry', σ')) :
    k = [] ∧ stmtCtx' = stmtCtx ∧ entry' = entry ∧ σ' = σ ∨
      completesAll k = false ∧ σ' = σ.attach stmtCtx.prevLabel (some .endNode) ∧
        stmtCtx'.prevLabel = stmtCtx.nextLabel ∧
        σ'.labels stmtCtx.nextLabel = σ.labels stmtCtx.nextLabel ∧
        entry' = if first then stmtCtx.entry else entry := by
  cases k with
  | nil =>
    rw [compileStmts, Option.some.injEq, Prod.mk.injEq, Prod.mk.injEq] at h
    exact .inl ⟨rfl, h.1.symm, h.2.1.symm, h.2.2.symm⟩
  | cons s k =>
    rw [endsHere] at hk
    obtain rfl := eq_returnStmt hk
    obtain ⟨ctx₁, σ₁, hstmt, ⟨-, rfl, rfl, rfl⟩ | ⟨hret, -⟩⟩ := compileStmts_cons_cases h
    · rw [compileStmt] at hstmt
      obtain ⟨rfl, hσ, hnext, -⟩ := compileReturnStmt_patch hr hstmt
      exact .inr ⟨by simp [completesAll, completes], hσ, rfl, hnext, rfl⟩
    · simp [isReturn] at hret

theorem compileStmts_cons_laid (hs : StmtLaid s) (hk : StmtsLaid k) : StmtsLaid (s :: k) := by
  intro first stmtCtx stmtCtx' entry entry' σ σ' hr hempty h hacc hstart
  rw [endsHere] at hstart
  obtain ⟨hacc₁, hrest⟩ := acceptedAll_cons hacc hstart
  obtain ⟨ctx₁, σ₁, hstmt, ⟨hret, -⟩ | ⟨-, h⟩⟩ := compileStmts_cons_cases h
  · rw [hstart] at hret
    simp at hret
  obtain ⟨hpatch, hp, hq⟩ := compileStmt_patch s hr hstmt
  obtain ⟨a, ha, hl⟩ := hs hr hstmt hacc₁ hstart
  have hr₁ := hpatch.ready_swap hr hp hq
  have hland : ∀ e ∈ σ.labels stmtCtx.prevLabel,
      σ₁.Settled e ∧ edgeAt σ₁.nodes e.node e.direct = some a := by
    intro e he
    have hx := compileStmt_landed hr hstmt he
    rwa [hstart, if_neg (by simp), ha] at hx
  have hext := (compileStmts_patch k hr₁ h).1.ext
  have hentry : first = true → entry' = some a := by
    intro hf
    rw [(compileStmts_placed k hr₁ h).2.1 rfl, if_pos hf, ha]
  refine ⟨a, hentry, fun e he => ?_, ?_⟩
  · obtain ⟨hset, hx⟩ := hland e he
    exact ⟨hext.settled_mono e hset, (hext.settled e hset).trans hx⟩
  rw [hempty] at hl
  rcases hrest with hend | ⟨hgo, hcomp, hacck⟩
  · rcases compileStmts_of_endsHere hr₁ hend h with ⟨rfl, rfl, -, rfl⟩ | ⟨hc, rfl, hout, hnext, -⟩
    · -- the statement is the last one
      simp only [hq, completesAll, Bool.and_true]
      exact hl
    · -- a `return` follows
      simp only [hp] at hnext hout
      have hlen : (σ₁.attach ctx₁.nextLabel (some .endNode)).nodes.length = σ₁.nodes.length := by
        simp [attach_nodes]
      have hshut : (σ₁.attach ctx₁.nextLabel (some .endNode)).labels stmtCtx.prevLabel = [] := by
        rw [hnext, hpatch.prev]
      simp only [hq] at hext hlen hshut ⊢
      rw [hout]
      refine ⟨?_, fun hct => ?_, fun _ => by rw [hshut]; exact List.Subset.refl _,
        fun i hlo hhi => ?_⟩
      · rw [hlen]
        refine hl.owing.ext hext fun e he => ?_
        obtain ⟨hset, hx⟩ := landed_of_attach hpatch.wf (Ext.refl _) he
        exact .inr ⟨hset, by rw [hx]; simp⟩
      · rw [completesAll, hc, Bool.and_false] at hct
        simp at hct
      · exact (hl.reach i hlo (by omega)).ext hext
  · -- the edges that leave the statement lead to the next one
    obtain ⟨a', -, hland', hl'⟩ := hk hr₁ (by simp only [hp]; exact hpatch.prev) h hacck hgo
    simp only [hq] at hland'
    have hlen₁ := hpatch.ext.length_le
    refine ⟨?_, fun hc => ?_, fun hc => ?_, fun i hlo hhi => ?_⟩
    · refine Owing.append (hl.owing.ext hext fun e he => ?_) hl'.owing
      exact .inr ⟨(hland' e he).1, by rw [(hland' e he).2]; simp⟩
    · rw [completesAll, hcomp, Bool.true_and] at hc
      obtain ⟨e, hmem, hlo⟩ := hl'.exit hc
      exact ⟨e, hmem, hlen₁.trans hlo⟩
    · rw [completesAll, hcomp, Bool.true_and] at hc
      exact hl'.shut hc
    · by_cases hi : i < σ₁.nodes.length
      · exact (hl.reach i hlo hi).ext hext
      · obtain ⟨e, hmem, hlo'⟩ := hl.exit hcomp
        have hin := (hl.reach e.node hlo' (hpatch.wf.range _ e hmem)).ext hext
        have hstep := leads_of_settled (hland' e hmem).1 (hland' e hmem).2
        exact hin.trans (hstep.trans (hl'.reach i (not_lt.1 hi) hhi))

theorem compileBlock_of_stmtsLaid (hk : StmtsLaid k) : BlockLaid (.stmtList k) := by
  intro ctx ctx' σ σ' hr he h hent
  simp only [enterable, Bool.and_eq_true, Bool.not_eq_true'] at hent
  obtain ⟨sp, sn, stmtCtx, entry, σ₂, σ₃, σ₄, hstmts, rfl, htr⟩ :=
    compileBlock_trace (compileStmts_patch k) hr he h
  obtain ⟨a, ha, -, hl⟩ := hk htr.ready₂ htr.fresh₂ hstmts hent.2 hent.1
  have hext₃ : Ext σ₃ σ' := by
    rw [htr.appended, htr.attached₄]
    exact (Ext.attach _ _ _).trans (Ext.append _ htr.next_ne)
  have hlen₂ : σ₂.nodes.length = σ.nodes.length := by rw [htr.nodes₂]
  have hlen' := htr.length₃
  have hsub : σ₃.labels stmtCtx.prevLabel ⊆ σ'.labels ctx.nextLabel := by
    rw [htr.next']
    exact List.subset_append_right _ _
  refine ⟨a, ha rfl, ?_, fun hc => ?_, fun hc => ?_, fun i hlo hhi => ?_⟩
  · rw [← hlen₂, hlen']
    exact hl.owing.ext hext₃ fun e he => .inl (hsub he)
  · rw [completes] at hc
    obtain ⟨e, hmem, hlo⟩ := hl.exit hc
    exact ⟨e, hsub hmem, by omega⟩
  · rw [completes] at hc
    rw [htr.next', List.eq_nil_of_subset_nil (hl.shut hc), List.append_nil]
    exact List.Subset.refl _
  · exact (hl.reach i (by omega) (by omega)).ext hext₃

theorem compile_laid : (∀ s, StmtLaid s) ∧ (∀ s, BlockLaid s) ∧ ∀ k, StmtsLaid k := by
  refine compile_induction ?_ ?_ ?_ ?_ ?_ ?_ ?_ ?_ ?_
  · intro c t e ht he
    exact compileIfStmt_laid ht he
  · intro c b hb
    exact compileWhileStmt_laid hb
  · intro b c hb
    exact compileDoWhileStmt_laid hb
  · intro ctx ctx' σ σ' _ _ _ hret
    simp [isReturn] at hret
  · intro e he
    exact compileExpStmt_laid he
  · intro k hk
    exact compileBlock_of_stmtsLaid hk
  · intro s hs ctx ctx' σ σ' _ _ h
    simp [compileBlock_of_not_isBlock hs] at h
  · intro first stmtCtx stmtCtx' entry entry' σ σ' _ _ _ _ hend
    simp [endsHere] at hend
  · intro s k hs hk
    exact compileStmts_cons_laid hs hk

theorem compileStmt_laid (s : WorkflowSyntax) : StmtLaid s := compile_laid.1 s

theorem compileBlock_laid (s : WorkflowSyntax) : BlockLaid s := compile_laid.2.1 s

end Rtp.Workflow
