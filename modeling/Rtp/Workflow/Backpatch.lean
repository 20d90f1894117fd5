import Rtp.Workflow.Traces
import Rtp.Workflow.Layout

/-!
# Back-patching: the compiler lays out what it compiles

What compiling a statement between two labels means, said once for each kind of
statement and put together by induction on the syntax tree.

* `StmtSpec`, `BlockSpec` — the effect on the labels (`Patch`) and what it means: in
  every finished list of nodes without null edges in which the edges owed by the
  second label lead to `t`, the statement is laid out from where the edges of the
  first label lead, to `t`.  A block that is empty, or starts with `return`, has no
  entry; the edges that lead into it are set to null, which no valid graph has.
* `compile_spec`, `compileBlock_spec` — the induction.
* `codeSeq_of_compileGraph` — a workflow whose graph has no null edge is laid out in
  it, from its entry to the end node.
-/

namespace Rtp.Workflow

open WorkflowSyntax CompileState

/-- No edge of the nodes is null. -/
def NoNull (nodes : List Node) : Prop := ∀ i < nodes.length, ∀ b, edgeAt nodes i b ≠ none

/-- All the edges lead to the same place. -/
def Goes (nodes : List Node) (es : List Edge) (x : Option NodeRef) : Prop :=
  ∀ e ∈ es, edgeAt nodes e.node e.direct = x

variable {nodes : List Node} {x : Option NodeRef} {k : List WorkflowSyntax}

theorem Goes.subset {es es' : List Edge} (h : Goes nodes es' x) (hs : es ⊆ es') : Goes nodes es x :=
  fun e he => h e (hs he)

/-- The edges of an attached label lead to the target in every later list of
nodes. -/
theorem goes_attach {σ σ' : CompileState} {l : ℕ} (hσ : σ.WF) (hext : Ext (σ.attach l x) σ')
    (hfut : Future σ' nodes) : Goes nodes (σ.labels l) x := by
  intro e he
  obtain ⟨hset, hx⟩ := settled_attach hσ he x
  rw [(hext.future hfut).settled e hset, hx]

/-- What compiling a statement does and means. -/
def StmtSpec (C : Compile) (s : WorkflowSyntax) : Prop :=
  ∀ {ctx ctx' : Context} {σ σ' : CompileState}, Ready ctx σ → C ctx σ = some (ctx', σ') →
    Patch ctx.prevLabel ctx.nextLabel σ σ' ∧
    (ctx'.prevLabel = ctx.prevLabel ∧ ctx'.nextLabel = ctx.nextLabel) ∧
    (s.isReturn = true → ctx'.entry = ctx.entry) ∧
    ∀ (nodes : List Node) (t : NodeRef), Future σ' nodes → NoNull nodes →
      Goes nodes (σ'.labels ctx.nextLabel) (some t) →
      ∃ a, Goes nodes (σ.labels ctx.prevLabel) (some a) ∧ Code nodes s a t ∧
        (s.isReturn = false → ctx'.entry = some a)

/-- What compiling a block does and means. -/
def BlockSpec (C : Compile) (k : List WorkflowSyntax) : Prop :=
  ∀ {ctx ctx' : Context} {σ σ' : CompileState}, Ready ctx σ → ctx.entry = none →
    C ctx σ = some (ctx', σ') →
    Patch ctx.prevLabel ctx.nextLabel σ σ' ∧
    ∀ (nodes : List Node) (t : NodeRef), Future σ' nodes → NoNull nodes →
      Goes nodes (σ'.labels ctx.nextLabel) (some t) →
      Goes nodes (σ.labels ctx.prevLabel) ctx'.entry ∧
        ∀ a, ctx'.entry = some a → CodeSeq nodes k a t

/-- A block with an edge leading into it has an entry. -/
theorem BlockSpec.entry {t : NodeRef} {es : List Edge} {e : Edge} (hnn : NoNull nodes)
    (h : Goes nodes es x ∧ ∀ a, x = some a → CodeSeq nodes k a t) (he : e ∈ es)
    (hlt : e.node < nodes.length) :
    ∃ a, x = some a ∧ edgeAt nodes e.node e.direct = some a ∧ CodeSeq nodes k a t := by
  have hx := h.1 e he
  cases x with
  | none => exact absurd hx (hnn e.node hlt e.direct)
  | some a => exact ⟨a, rfl, hx, h.2 a rfl⟩

theorem edge_of_edgeAt {i : ℕ} {b : Bool} {n : Node} (hn : nodes[i]? = some n)
    (h : edgeAt nodes i b = x) : n.edge b = x := by
  rwa [edgeAt, hn] at h

theorem lt_of_getElem?_eq_some {i : ℕ} {n : Node} (h : nodes[i]? = some n) : i < nodes.length :=
  (List.getElem?_eq_some_iff.1 h).1

/-! ## The statements -/

theorem compileExpStmt_spec (e : WorkflowSyntax) (he : e.isReturn = false) :
    StmtSpec (compileExpStmt e) e := by
  intro ctx ctx' σ σ' hr h
  obtain ⟨str, neg, σ₁, hh, rfl, htr⟩ := compileExpStmt_trace hr h
  refine ⟨htr.patch, ⟨rfl, rfl⟩, fun h => by rw [he] at h; exact absurd h (by simp), ?_⟩
  intro nodes t hfut hnn hgo
  rw [htr.next'] at hgo
  have hext : Ext σ₁ σ' := htr.attached ▸ Ext.attach _ _ _
  obtain ⟨n, hn, hname⟩ := htr.created.getElem hext hfut
  refine ⟨.node σ.nodes.length, ?_, .exp (by rw [hh, hname]) hn fun b => ?_, fun _ => rfl⟩
  · rw [← htr.prev₁]
    exact goes_attach htr.created.wf (htr.attached ▸ Ext.refl _) hfut
  · -- both edges of the node are owed by the one label
    refine edge_of_edgeAt hn (hgo ⟨b, _⟩ ?_)
    by_cases hb : b = neg
    · exact hb ▸ htr.created.next
    · have hb' : b = !neg := by cases b <;> cases neg <;> simp_all
      exact hb' ▸ htr.created.prev

theorem compileReturnStmt_spec : StmtSpec compileReturnStmt .returnStmt := by
  intro ctx ctx' σ σ' hr h
  obtain ⟨rfl, rfl, -, hpatch⟩ := compileReturnStmt_patch hr h
  refine ⟨hpatch, ⟨rfl, rfl⟩, fun _ => rfl, ?_⟩
  intro nodes t hfut _ _
  exact ⟨.endNode, goes_attach hr.wf (Ext.refl _) hfut, .ret, fun h => by simp [isReturn] at h⟩

theorem BlockSpec.patches {C : Compile} (h : BlockSpec C k) : Patches C :=
  fun hr he hC => (h hr he hC).1

/-- The two ways an `if` ends. -/
theorem ElseRun.codeSeq {el : WorkflowSyntax} {E : Compile} {elseEmpty : Bool} {cl q : ℕ}
    {σ σ' : CompileState} (h : ElseRun elseEmpty E cl q σ σ')
    (hempty : elseEmpty = true → el.stmts = []) (hE : elseEmpty = false → BlockSpec E el.stmts)
    (hr : Ready ⟨none, cl, q⟩ σ) {t : NodeRef} (hfut : Future σ' nodes) (hnn : NoNull nodes)
    (hgo : Goes nodes (σ'.labels q) (some t)) {e : Edge} (hmem : e ∈ σ.labels cl) :
    ∃ a, edgeAt nodes e.node e.direct = some a ∧ CodeSeq nodes el.stmts a t := by
  rcases h with ⟨he, rfl⟩ | ⟨he, elseCtx, h⟩
  · rw [append_labels_fst σ hr.ne.symm] at hgo
    refine ⟨t, hgo e (List.mem_append_right _ hmem), ?_⟩
    rw [hempty he]
    exact .nil
  · obtain ⟨hpatch, hsem⟩ := hE he hr rfl h
    have hlt : e.node < nodes.length :=
      lt_of_lt_of_le (hr.wf.range cl e hmem) (hpatch.ext.future hfut).length_le
    obtain ⟨a, -, hedge, hcode⟩ := BlockSpec.entry hnn (hsem nodes t hfut hnn hgo) hmem hlt
    exact ⟨a, hedge, hcode⟩

theorem compileIfStmt_spec {c th el : WorkflowSyntax} {T E : Compile} {elseEmpty : Bool}
    (hT : BlockSpec T th.stmts) (hempty : elseEmpty = true → el.stmts = [])
    (hE : elseEmpty = false → BlockSpec E el.stmts) :
    StmtSpec (compileIfStmt c T elseEmpty E) (.ifStmt c th el) := by
  intro ctx ctx' σ σ' hr h
  obtain ⟨str, neg, tl, cl, thenCtx, σ₃, σ₄, σ₅, σ₆, hh, hthen, -, helse, rfl, htr⟩ :=
    compileIfStmt_trace hT.patches (fun he => BlockSpec.patches (hE he)) hr h
  refine ⟨htr.patch, ⟨rfl, rfl⟩, fun h => by simp [isReturn] at h, ?_⟩
  intro nodes t hfut hnn hgo
  rw [htr.next'] at hgo
  have hfut₆ : Future σ₆ nodes := (htr.attached ▸ Ext.attach _ _ _ : Ext σ₆ σ').future hfut
  have hfut₄ := (htr.step₅.ext.trans htr.patch₆.ext).future hfut₆
  obtain ⟨n, hn, hname⟩ := htr.created.getElem htr.patch₄.ext hfut₄
  -- the two edges of the condition lead into the two branches
  obtain ⟨a, -, hedge, hcode⟩ := BlockSpec.entry hnn
    ((hT htr.ready₃ rfl hthen).2 nodes t hfut₄ hnn (hgo.subset (htr.next₅ ▸ htr.patch₆.next)))
    htr.created.prev (lt_of_getElem?_eq_some hn)
  obtain ⟨a', hedge', hcode'⟩ := helse.codeSeq hempty hE htr.ready₅ hfut₆ hnn hgo
    (htr.cond₅ ▸ htr.created.next)
  refine ⟨.node σ.nodes.length, ?_, .ite (by rw [hh, hname]) hn (edge_of_edgeAt hn hedge)
    hcode (edge_of_edgeAt hn hedge') hcode', fun _ => rfl⟩
  rw [← htr.prev₆]
  exact goes_attach htr.patch₆.wf (htr.attached ▸ Ext.refl _) hfut

theorem compileWhileStmt_spec {c b : WorkflowSyntax} {B : Compile} (hB : BlockSpec B b.stmts) :
    StmtSpec (compileWhileStmt c B) (.whileStmt c b) := by
  intro ctx ctx' σ σ' hr h
  obtain ⟨str, neg, sl, el, blockCtx, σ₃, σ₄, σ₅, σ₆, hh, hblock, -, rfl, htr⟩ :=
    compileWhileStmt_trace hB.patches hr h
  refine ⟨htr.patch, ⟨rfl, rfl⟩, fun h => by simp [isReturn] at h, ?_⟩
  intro nodes t hfut hnn hgo
  rw [htr.next'] at hgo
  have hfut₄ := htr.ext₄.future hfut
  obtain ⟨n, hn, hname⟩ := htr.created.getElem htr.patch₄.ext hfut₄
  -- the end of the block leads back to the condition
  have hback : Goes nodes (σ₄.labels el) (some (.node σ.nodes.length)) := by
    rw [← htr.back₅]
    exact goes_attach htr.step₅.wf (htr.attached₆ ▸ Ext.refl _) (htr.ext₆.future hfut)
  obtain ⟨a, -, hedge, hcode⟩ := BlockSpec.entry hnn
    ((hB htr.ready₃ rfl hblock).2 nodes _ hfut₄ hnn hback) htr.created.prev
    (lt_of_getElem?_eq_some hn)
  refine ⟨.node σ.nodes.length, ?_, .loop (by rw [hh, hname]) hn (edge_of_edgeAt hn hedge)
    hcode (edge_of_edgeAt hn (hgo _ htr.created.next)), fun _ => rfl⟩
  rw [← htr.prev₆]
  exact goes_attach htr.wf₆ (htr.attached ▸ Ext.refl _) hfut

theorem compileDoWhileStmt_spec {c b : WorkflowSyntax} {B : Compile} (hB : BlockSpec B b.stmts) :
    StmtSpec (compileDoWhileStmt B c) (.doWhileStmt b c) := by
  intro ctx ctx' σ σ' hr h
  obtain ⟨str, neg, bl, tl, fl, blockCtx, σ₁, σ₂, σ₄, σ₅, σ₆, σ₇, hh, hblock, rfl, htr⟩ :=
    compileDoWhileStmt_trace hB.patches hr h
  refine ⟨htr.patch, ⟨rfl, rfl⟩, fun h => by simp [isReturn] at h, ?_⟩
  intro nodes t hfut hnn hgo
  rw [htr.next'] at hgo
  have hext₄ : Ext σ₄ σ₅ := htr.attached₅ ▸ Ext.attach _ _ _
  have hfut₅ := htr.ext₅.future hfut
  obtain ⟨n, hn, hname⟩ := htr.created.getElem hext₄ hfut₅
  -- the end of the block leads to the condition, and its true edge back to the start
  have hback : Goes nodes (σ₂.labels bl) (some (.node σ₂.nodes.length)) := by
    rw [← htr.back₅]
    exact goes_attach htr.wf₅ (htr.attached₆ ▸ Ext.refl _) (htr.ext₆.future hfut)
  obtain ⟨hinto, hblockCode⟩ :=
    (hB htr.ready₁ rfl hblock).2 nodes _ (htr.ext₂.future hfut) hnn hback
  obtain ⟨a, ha, hedge, hcode⟩ := BlockSpec.entry hnn
    ⟨goes_attach htr.created.wf (htr.attached₅ ▸ Ext.refl _) hfut₅, hblockCode⟩
    htr.created.prev (lt_of_getElem?_eq_some hn)
  have hf := hgo ⟨neg, σ₂.nodes.length⟩ (List.mem_append_right _ htr.created.next)
  refine ⟨a, ?_, .doLoop (by rw [hh, hname]) hn (edge_of_edgeAt hn hedge) hcode
    (edge_of_edgeAt hn hf), fun _ => ha⟩
  rw [← htr.labels₁, ← ha]
  exact hinto

/-! ## Blocks and the induction -/

/-- What the loop over the statements of a block does and means: it works between
two labels that change places, and leaves one of them empty. -/
def StmtsSpec (k : List WorkflowSyntax) : Prop :=
  ∀ {first : Bool} {stmtCtx stmtCtx' : Context} {entry entry' : Option NodeRef}
    {σ σ' : CompileState}, Ready stmtCtx σ → σ.labels stmtCtx.nextLabel = [] →
    compileStmts k first stmtCtx entry σ = some (stmtCtx', entry', σ') →
    Step (fun l => l = stmtCtx.prevLabel ∨ l = stmtCtx.nextLabel) σ σ' ∧
    (stmtCtx'.prevLabel = stmtCtx.prevLabel ∨ stmtCtx'.prevLabel = stmtCtx.nextLabel) ∧
    (first = false → entry' = entry) ∧
    ∀ (nodes : List Node) (t : NodeRef), Future σ' nodes → NoNull nodes →
      Goes nodes (σ'.labels stmtCtx'.prevLabel) (some t) →
      ∃ a, Goes nodes (σ.labels stmtCtx.prevLabel) (some a) ∧ CodeSeq nodes k a t ∧
        (first = true → entry = none → stmtCtx.entry = none → entry' = none ∨ entry' = some a)

theorem compileStmts_nil_spec : StmtsSpec [] := by
  intro first stmtCtx stmtCtx' entry entry' σ σ' hr _ h
  rw [compileStmts] at h
  simp only [Option.some.injEq, Prod.mk.injEq] at h
  obtain ⟨rfl, rfl, rfl⟩ := h
  refine ⟨⟨hr.wf, Ext.refl _, fun _ _ _ => rfl⟩, .inl rfl, fun _ => rfl, ?_⟩
  intro nodes t _ _ hgo
  exact ⟨t, hgo, .nil, fun _ he _ => .inl he⟩

theorem compileStmts_cons_spec {s : WorkflowSyntax} (hs : StmtSpec (compileStmt s) s)
    (hk : StmtsSpec k) : StmtsSpec (s :: k) := by
  intro first stmtCtx stmtCtx' entry entry' σ σ' hr hempty h
  obtain ⟨ctx₁, σ₁, hstmt, h⟩ := compileStmts_cons_cases h
  obtain ⟨h₁, ⟨hp₁, hq₁⟩, hret, hsem₁⟩ := hs hr hstmt
  rcases h with ⟨hisRet, rfl, rfl, rfl⟩ | ⟨hisRet, h⟩
  · refine ⟨h₁.toStep, .inr hq₁, fun hf => by simp [hf], ?_⟩
    intro nodes t hfut hnn hgo
    simp only [hq₁] at hgo
    obtain ⟨a, ha, hcode, -⟩ := hsem₁ nodes t hfut hnn hgo
    have hsr : s = .returnStmt := by
      cases s <;> simp [isReturn] at hisRet
      rfl
    subst hsr
    have hae : a = .endNode := by
      cases hcode with
      | exp hh => simp [handler] at hh
      | ret => rfl
    subst hae
    refine ⟨.endNode, ha, .ret, fun hf _ he => .inl ?_⟩
    rw [if_pos hf, hret rfl, he]
  · obtain ⟨h₂, hprev₂, hentry₂, hsem₂⟩ := hk (h₁.ready_swap hr hp₁ hq₁)
      (by simp only [hp₁]; exact h₁.prev) h
    simp only [hp₁, hq₁] at h₂ hprev₂ hsem₂
    refine ⟨(h₁.toStep.trans h₂).mono fun l _ h => h.elim id Or.symm, hprev₂.symm, ?_, ?_⟩
    · intro hf
      rw [hentry₂ rfl, if_neg (by simp [hf])]
    · intro nodes t hfut hnn hgo
      obtain ⟨m, hm, hcodek, -⟩ := hsem₂ nodes t hfut hnn hgo
      obtain ⟨a, ha, hcode, hentry⟩ := hsem₁ nodes m (h₂.ext.future hfut) hnn hm
      refine ⟨a, ha, .cons hcode hcodek, fun hf _ _ => .inr ?_⟩
      rw [hentry₂ rfl, if_pos hf, hentry hisRet]

theorem compileBlock_of_stmts (hk : StmtsSpec k) : BlockSpec (compileBlock (.stmtList k)) k := by
  intro ctx ctx' σ σ' hr hentry h
  obtain ⟨sp, sn, stmtCtx, entry, σ₂, σ₃, σ₄, hstmts, rfl, htr⟩ :=
    compileBlock_trace (compileStmts_patch k) hr hentry h
  refine ⟨htr.patch, ?_⟩
  intro nodes t hfut hnn hgo
  rw [htr.next'] at hgo
  have hfut₄ : Future σ₄ nodes := (htr.appended ▸ Ext.append _ htr.next_ne : Ext σ₄ σ').future hfut
  have hext₃ : Ext σ₃ σ₄ := htr.attached₄ ▸ Ext.attach _ _ _
  refine ⟨?_, fun a ha => ?_⟩
  · rw [← htr.prev₃]
    exact goes_attach htr.step₃.wf (htr.attached₄ ▸ Ext.refl _) hfut₄
  · obtain ⟨-, -, -, hsem⟩ := hk htr.ready₂ htr.fresh₂ hstmts
    obtain ⟨a', -, hcode, hent⟩ := hsem nodes t (hext₃.future hfut₄) hnn
      (hgo.subset (List.subset_append_right _ _))
    simp only at ha
    rcases hent rfl rfl rfl with hnone | hsome
    · rw [hnone] at ha; simp at ha
    · rw [hsome, Option.some.injEq] at ha
      exact ha ▸ hcode

theorem compile_spec : (∀ s, StmtSpec (compileStmt s) s) ∧
    (∀ s, BlockSpec (compileBlock s) s.stmts) ∧ ∀ k, StmtsSpec k := by
  refine compile_induction ?_ ?_ ?_ ?_ ?_ ?_ ?_ ?_ ?_
  · intro c t e ht he
    rw [compileStmt]
    refine compileIfStmt_spec ht (fun hempty => ?_) fun _ => he
    cases e <;> simp [isEmpty, stmts] at hempty ⊢
  · intro c b hb
    rw [compileStmt]
    exact compileWhileStmt_spec hb
  · intro b c hb
    rw [compileStmt]
    exact compileDoWhileStmt_spec hb
  · rw [compileStmt]
    exact compileReturnStmt_spec
  · intro e he
    rw [compileStmt_of_isSimple he]
    exact compileExpStmt_spec e (isReturn_of_isSimple he)
  · intro k hk
    exact compileBlock_of_stmts hk
  · intro s hs ctx ctx' σ σ' hr he h
    simp [compileBlock_of_not_isBlock hs] at h
  · exact compileStmts_nil_spec
  · intro s k hs hk
    exact compileStmts_cons_spec hs hk

/-- Every block is compiled to the layout of its statements. -/
theorem compileBlock_spec (s : WorkflowSyntax) : BlockSpec (compileBlock s) s.stmts :=
  compile_spec.2.1 s

/-! ## The graph of a workflow -/

theorem CompileState.WF.empty : CompileState.empty.WF :=
  ⟨fun _ _ => rfl, fun _ _ h => absurd h List.not_mem_nil, fun _ _ _ h => absurd h List.not_mem_nil⟩

/-- A graph is what the compiler makes of the block between the labels `0` and `1`, with
what is left at `1` attached to the end node. -/
theorem compileGraph_cases {name : String} {block : WorkflowSyntax} {g : Graph}
    (h : compileGraph name block = some g) :
    ∃ ctx σ, compileBlock block ⟨none, 0, 1⟩ CompileState.empty.newLabel.2.newLabel.2 =
        some (ctx, σ) ∧
      g = ⟨name, ctx.entry, (σ.attach 1 (some .endNode)).nodes⟩ ∧
      Ready ⟨none, 0, 1⟩ CompileState.empty.newLabel.2.newLabel.2 ∧
      CompileState.empty.newLabel.2.newLabel.2.labels = CompileState.empty.labels := by
  simp only [compileGraph, Option.map_eq_some_iff] at h
  obtain ⟨⟨ctx, σ⟩, hblock, rfl⟩ := h
  obtain ⟨h₂, hlab₂⟩ := twoLabels CompileState.WF.empty
  exact ⟨ctx, σ, hblock, rfl, ⟨h₂.wf, by decide, by decide, by decide⟩, hlab₂⟩

/-- **The compiler lays out what it compiles.**  If the graph built for a block
has an entry and no null edge, the block is laid out in it from the entry to the
end node. -/
theorem codeSeq_of_compileGraph {name : String} {block : WorkflowSyntax} {g : Graph} {e : NodeRef}
    (h : compileGraph name block = some g) (he : g.entry = some e) (hnn : NoNull g.nodes) :
    CodeSeq g.nodes block.stmts e .endNode := by
  obtain ⟨ctx, σ, hblock, rfl, hr, -⟩ := compileGraph_cases h
  obtain ⟨hpatch, hsem⟩ := compileBlock_spec block hr rfl hblock
  have hfut : Future σ (σ.attach 1 (some .endNode)).nodes := (Ext.attach σ _ _).toFuture
  exact (hsem _ .endNode hfut hnn
    (goes_attach hpatch.wf (Ext.refl _) (Future.refl _))).2 e he

end Rtp.Workflow
