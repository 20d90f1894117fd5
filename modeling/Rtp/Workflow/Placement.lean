import Rtp.Workflow.Traces

/-!
# Where the edges of a compiled statement lead

Facts about the edges that are set while a piece of syntax is compiled, whether or
not the finished graph will be valid.

* `CompileState.Blank` — an edge that a label still owes is null.
* `CompileState.Aimed` — every edge that is set in a step leads to a node with a given
  property.
* `Placed` — the edges set by a step lead to the end or to nodes of a range.
  Compiling a statement only sets edges to the end and to the nodes it creates, among
  which its entry is (`compileStmt_placed`, `compileBlock_placed`,
  `compileStmts_placed`).
* `compileStmt_landed`, `compileBlock_landed` — the edges that led into a statement are
  settled at its entry.
-/

namespace Rtp.Workflow

open WorkflowSyntax CompileState

/-- The node is the end, or one of the nodes `lo`, …, `hi - 1`. -/
def Within (lo hi : ℕ) (t : NodeRef) : Prop :=
  t = .endNode ∨ ∃ j, lo ≤ j ∧ j < hi ∧ t = .node j

theorem Within.mono {lo lo' hi hi' : ℕ} {t : NodeRef} (h : Within lo hi t) (hlo : lo' ≤ lo)
    (hhi : hi ≤ hi') : Within lo' hi' t :=
  h.imp_right fun ⟨j, h₁, h₂, ht⟩ => ⟨j, hlo.trans h₁, lt_of_lt_of_le h₂ hhi, ht⟩

namespace CompileState

/-- Edges that are owed are null. -/
def Blank (σ : CompileState) : Prop :=
  ∀ l, ∀ e ∈ σ.labels l, edgeAt σ.nodes e.node e.direct = none

/-- An edge that is set in the later state was set before, or leads to a node with the
property `P`. -/
def Aimed (P : NodeRef → Prop) (σ σ' : CompileState) : Prop :=
  ∀ i b t, edgeAt σ'.nodes i b = some t → edgeAt σ.nodes i b = some t ∨ P t

variable {P Q : NodeRef → Prop} {σ σ₁ σ₂ σ' : CompileState}

theorem Aimed.of_edges (h : ∀ i b, edgeAt σ'.nodes i b = edgeAt σ.nodes i b) : Aimed P σ σ' :=
  fun i b _ ht => .inl (h i b ▸ ht)

theorem Aimed.trans (h : Aimed P σ σ₁) (h' : Aimed P σ₁ σ₂) : Aimed P σ σ₂ :=
  fun i b t ht => (h' i b t ht).elim (h i b t) Or.inr

theorem Aimed.mono (h : Aimed P σ σ') (hPQ : ∀ t, P t → Q t) : Aimed Q σ σ' :=
  fun i b t ht => (h i b t ht).imp_right (hPQ t)

theorem Aimed.attach {l : ℕ} {x : Option NodeRef}
    (h : ∀ e ∈ σ.labels l, ∀ t, x = some t → P t) : Aimed P σ (σ.attach l x) := by
  intro i b t ht
  rw [attach_nodes, edgeAt_setEdges] at ht
  by_cases hi : (⟨b, i⟩ : Edge) ∈ σ.labels l ∧ i < σ.nodes.length
  · rw [if_pos hi] at ht
    exact .inr (h _ hi.1 t ht)
  · rw [if_neg hi] at ht
    exact .inl ht

theorem Blank.attach (hσ : σ.WF) (h : σ.Blank) (l : ℕ) (x : Option NodeRef) :
    (σ.attach l x).Blank := by
  intro l' e he
  obtain ⟨hne, he'⟩ := mem_update_nil he
  rw [attach_nodes, edgeAt_setEdges, if_neg]
  · exact h l' e he'
  · exact fun hl => hne (hσ.disjoint l' l e he' hl.1)

theorem Blank.append {l l' : ℕ} (hne : l ≠ l') (h : σ.Blank) : (σ.append l l').Blank := by
  intro k e he
  rcases mem_append_labels hne he with ⟨-, h' | ⟨-, h'⟩⟩
  · exact h k e h'
  · exact h l' e h'

/-- Attaching a label settles its edges for good. -/
theorem landed_of_attach {l : ℕ} {x : Option NodeRef} {e : Edge} (hσ : σ.WF)
    (hext : Ext (σ.attach l x) σ') (he : e ∈ σ.labels l) :
    σ'.Settled e ∧ edgeAt σ'.nodes e.node e.direct = x := by
  obtain ⟨hset, hx⟩ := settled_attach hσ he x
  exact ⟨hext.settled_mono e hset, (hext.settled e hset).trans hx⟩

end CompileState

/-! ## Steps that set edges within a range -/

/-- Owed edges stay null, and the edges that are set lead to the end or to nodes of
the range. -/
structure Placed (lo hi : ℕ) (σ σ' : CompileState) : Prop where
  blank : σ.Blank → σ'.Blank
  aimed : Aimed (Within lo hi) σ σ'

section Placed

variable {lo lo' hi hi' : ℕ} {σ σ₁ σ₂ σ' : CompileState}

theorem Placed.trans (h : Placed lo hi σ σ₁) (h' : Placed lo hi σ₁ σ₂) : Placed lo hi σ σ₂ :=
  ⟨fun hb => h'.blank (h.blank hb), h.aimed.trans h'.aimed⟩

theorem Placed.mono (h : Placed lo hi σ σ') (hlo : lo' ≤ lo) (hhi : hi ≤ hi') :
    Placed lo' hi' σ σ' :=
  ⟨h.blank, h.aimed.mono fun _ ht => ht.mono hlo hhi⟩

theorem Placed.of_eq (hlab : σ'.labels = σ.labels) (hnodes : σ'.nodes = σ.nodes) :
    Placed lo hi σ σ' := by
  refine ⟨fun hb l e he => ?_, .of_edges fun i b => by rw [hnodes]⟩
  rw [hlab] at he
  rw [hnodes]
  exact hb l e he

theorem Placed.attach (hσ : σ.WF) {l : ℕ} {x : Option NodeRef}
    (hx : ∀ t, x = some t → Within lo hi t) : Placed lo hi σ (σ.attach l x) :=
  ⟨fun hb => hb.attach hσ l x, .attach fun _ _ t ht => hx t ht⟩

theorem Placed.append {l l' : ℕ} (hne : l ≠ l') : Placed lo hi σ (σ.append l l') :=
  ⟨fun hb => hb.append hne, .of_edges fun _ _ => rfl⟩

theorem Created.placed {str : String} {neg : Bool} {p q : ℕ} (h : Created str neg p q σ σ')
    (lo hi : ℕ) : Placed lo hi σ σ' := by
  refine ⟨fun hb l e he => ?_, .of_edges h.edge⟩
  rw [h.edge]
  rcases h.owes l e he with he | he
  · exact hb l e he
  · rw [edgeAt, List.getElem?_eq_none (by omega)]
    rfl

end Placed

/-- The entry, if there is one, is one of the nodes of the range. -/
def EntryIn (lo hi : ℕ) (entry : Option NodeRef) : Prop :=
  ∀ a, entry = some a → ∃ j, lo ≤ j ∧ j < hi ∧ a = .node j

theorem EntryIn.within {lo hi lo' hi' : ℕ} {entry : Option NodeRef} (h : EntryIn lo hi entry)
    (hlo : lo' ≤ lo) (hhi : hi ≤ hi') (t : NodeRef) (ht : entry = some t) : Within lo' hi' t :=
  Within.mono (Or.inr (h t ht)) hlo hhi

theorem entryIn_node {lo hi v : ℕ} (hlo : lo ≤ v) (hhi : v < hi) :
    EntryIn lo hi (some (.node v)) :=
  fun _ h => ⟨v, hlo, hhi, (Option.some.inj h).symm⟩

/-! ## Every piece of syntax is placed among the nodes it creates -/

/-- A statement sets edges to the nodes it creates; if it is not a `return` it creates
some, and its entry is one of them. -/
def StmtPlaced (s : WorkflowSyntax) : Prop :=
  ∀ {ctx ctx' : Context} {σ σ' : CompileState}, Ready ctx σ →
    compileStmt s ctx σ = some (ctx', σ') →
    Placed σ.nodes.length σ'.nodes.length σ σ' ∧
      (s.isReturn = false → σ.nodes.length < σ'.nodes.length ∧
        EntryIn σ.nodes.length σ'.nodes.length ctx'.entry)

/-- A block sets edges to the nodes it creates, and its entry is one of them. -/
def BlockPlaced (s : WorkflowSyntax) : Prop :=
  ∀ {ctx ctx' : Context} {σ σ' : CompileState}, Ready ctx σ → ctx.entry = none →
    compileBlock s ctx σ = some (ctx', σ') →
    Placed σ.nodes.length σ'.nodes.length σ σ' ∧
      EntryIn σ.nodes.length σ'.nodes.length ctx'.entry

/-- The statements of a block set edges to the nodes they create, and the entry that
is set in the first round is one of them. -/
def StmtsPlaced (k : List WorkflowSyntax) : Prop :=
  ∀ {first : Bool} {stmtCtx stmtCtx' : Context} {entry entry' : Option NodeRef}
    {σ σ' : CompileState}, Ready stmtCtx σ →
    compileStmts k first stmtCtx entry σ = some (stmtCtx', entry', σ') →
    Placed σ.nodes.length σ'.nodes.length σ σ' ∧ (first = false → entry' = entry) ∧
      (entry = none → stmtCtx.entry = none → EntryIn σ.nodes.length σ'.nodes.length entry')

theorem IfTrace.lengths {str : String} {neg : Bool} {p q tl cl : ℕ}
    {σ σ₃ σ₄ σ₅ σ₆ σ' : CompileState} (h : IfTrace str neg p q tl cl σ σ₃ σ₄ σ₅ σ₆ σ') :
    σ₃.nodes.length = σ.nodes.length + 1 ∧ σ₃.nodes.length ≤ σ₄.nodes.length ∧
      σ₅.nodes.length = σ₄.nodes.length ∧ σ₅.nodes.length ≤ σ₆.nodes.length ∧
      σ'.nodes.length = σ₆.nodes.length :=
  ⟨h.created.length, h.patch₄.ext.length_le, h.length₅, h.patch₆.ext.length_le,
    by rw [h.attached]; simp [attach_nodes]⟩

/-- The `else` part sets edges to the nodes it creates, if it is there at all. -/
theorem ElseRun.placed {e : WorkflowSyntax} {elseEmpty : Bool} {cl q : ℕ} {σ σ' : CompileState}
    (h : ElseRun elseEmpty (compileBlock e) cl q σ σ') (he : BlockPlaced e)
    (hr : Ready ⟨none, cl, q⟩ σ) : Placed σ.nodes.length σ'.nodes.length σ σ' := by
  rcases h with ⟨-, rfl⟩ | ⟨-, elseCtx, h⟩
  · exact .append hr.ne.symm
  · exact (he hr rfl h).1

theorem compileIfStmt_placed {c t e : WorkflowSyntax} (ht : BlockPlaced t) (he : BlockPlaced e) :
    StmtPlaced (.ifStmt c t e) := by
  intro ctx ctx' σ σ' hr h
  rw [compileStmt] at h
  obtain ⟨str, neg, tl, cl, thenCtx, σ₃, σ₄, σ₅, σ₆, -, hthen, hσ₅, helse, rfl, htr⟩ :=
    compileIfStmt_trace (compileBlock_patch t) (fun _ => compileBlock_patch e) hr h
  obtain ⟨hlen₃, hlen₄, hlen₅, hlen₆, hlen'⟩ := htr.lengths
  obtain ⟨h₄, hentry₄⟩ := ht htr.ready₃ rfl hthen
  have h₅ : Placed σ.nodes.length σ'.nodes.length σ₄ σ₅ :=
    hσ₅ ▸ .attach htr.patch₄.wf (hentry₄.within (by omega) (by omega))
  have h₆ := helse.placed he htr.ready₅
  have hself : EntryIn σ.nodes.length σ'.nodes.length (some (.node σ.nodes.length)) :=
    entryIn_node (le_refl _) (by omega)
  have h₇ : Placed σ.nodes.length σ'.nodes.length σ₆ σ' := by
    rw [htr.attached] at hself ⊢
    exact .attach htr.patch₆.wf (hself.within (le_refl _) (le_refl _))
  refine ⟨(htr.created.placed _ _).trans
      ((h₄.mono ?_ ?_).trans (h₅.trans ((h₆.mono ?_ ?_).trans h₇))),
    fun _ => ⟨by omega, hself⟩⟩
  all_goals omega

theorem compileWhileStmt_placed {c b : WorkflowSyntax} (hb : BlockPlaced b) :
    StmtPlaced (.whileStmt c b) := by
  intro ctx ctx' σ σ' hr h
  rw [compileStmt] at h
  obtain ⟨str, neg, sl, el, blockCtx, σ₃, σ₄, σ₅, σ₆, -, hblock, hσ₅, rfl, htr⟩ :=
    compileWhileStmt_trace (compileBlock_patch b) hr h
  have hlen₃ := htr.created.length
  have hlen₄ := htr.patch₄.ext.length_le
  have hlen' := htr.length₄
  obtain ⟨h₄, hentry₄⟩ := hb htr.ready₃ rfl hblock
  have hself : EntryIn σ.nodes.length σ'.nodes.length (some (.node σ.nodes.length)) :=
    entryIn_node (le_refl _) (by omega)
  have h₅ : Placed σ.nodes.length σ'.nodes.length σ₄ σ₅ :=
    hσ₅ ▸ .attach htr.patch₄.wf (hentry₄.within (by omega) (by omega))
  have h₆ : Placed σ.nodes.length σ'.nodes.length σ₅ σ₆ :=
    htr.attached₆ ▸ .attach htr.step₅.wf (hself.within (le_refl _) (le_refl _))
  have h₇ : Placed σ.nodes.length σ'.nodes.length σ₆ σ' := by
    rw [htr.attached] at hself ⊢
    exact .attach htr.wf₆ (hself.within (le_refl _) (le_refl _))
  refine ⟨(htr.created.placed _ _).trans ((h₄.mono ?_ ?_).trans (h₅.trans (h₆.trans h₇))),
    fun _ => ⟨by omega, hself⟩⟩
  all_goals omega

theorem compileDoWhileStmt_placed {b c : WorkflowSyntax} (hb : BlockPlaced b) :
    StmtPlaced (.doWhileStmt b c) := by
  intro ctx ctx' σ σ' hr h
  rw [compileStmt] at h
  obtain ⟨str, neg, bl, tl, fl, blockCtx, σ₁, σ₂, σ₄, σ₅, σ₆, σ₇, -, hblock, rfl, htr⟩ :=
    compileDoWhileStmt_trace (compileBlock_patch b) hr h
  have hlen₂ := htr.patch₂.ext.length_le
  have hlen₄ := htr.created.length
  have hlen' := htr.length₄
  obtain ⟨h₂, hentry₂⟩ := hb htr.ready₁ rfl hblock
  rw [htr.nodes₁] at hlen₂ h₂ hentry₂
  have hin := hentry₂.within (le_refl σ.nodes.length) (by omega : _ ≤ σ'.nodes.length)
  have hcond : EntryIn σ.nodes.length σ'.nodes.length (some (.node σ₂.nodes.length)) :=
    entryIn_node hlen₂ (by omega)
  have h₅ : Placed σ.nodes.length σ'.nodes.length σ₄ σ₅ :=
    htr.attached₅ ▸ .attach htr.created.wf hin
  have h₆ : Placed σ.nodes.length σ'.nodes.length σ₅ σ₆ :=
    htr.attached₆ ▸ .attach htr.wf₅ (hcond.within (le_refl _) (le_refl _))
  have hwf₆ : σ₆.WF := htr.attached₆ ▸ htr.wf₅.attach _ _
  have h₇ : Placed σ.nodes.length σ'.nodes.length σ₆ σ₇ := htr.attached₇ ▸ .attach hwf₆ hin
  have h₈ : Placed σ.nodes.length σ'.nodes.length σ₇ σ' := by
    rw [htr.appended]
    exact .append htr.next_ne
  refine ⟨(Placed.of_eq htr.labels₁ htr.nodes₁).trans ((h₂.mono (le_refl _) ?_).trans
    ((htr.created.placed _ _).trans (h₅.trans (h₆.trans (h₇.trans h₈))))), fun _ => ⟨by omega, ?_⟩⟩
  · omega
  · intro a ha
    obtain ⟨j, h₁, h₂, rfl⟩ := hentry₂ a ha
    exact ⟨j, h₁, by omega, rfl⟩

variable {s : WorkflowSyntax}

theorem compileStmts_cons_placed {k : List WorkflowSyntax} (hs : StmtPlaced s)
    (hk : StmtsPlaced k) : StmtsPlaced (s :: k) := by
  intro first stmtCtx stmtCtx' entry entry' σ σ' hr h
  obtain ⟨ctx₁, σ₁, hstmt, h⟩ := compileStmts_cons_cases h
  obtain ⟨h₁, hentry₁⟩ := hs hr hstmt
  obtain ⟨hpatch, hp, hq⟩ := compileStmt_patch s hr hstmt
  rcases h with ⟨hret, rfl, rfl, rfl⟩ | ⟨hret, h⟩
  · refine ⟨h₁, fun hf => by simp [hf], fun he hce => ?_⟩
    -- a `return` leaves the entry as it was
    have hsr : s = .returnStmt := by
      cases s <;> simp [isReturn] at hret
      rfl
    rw [hsr, compileStmt] at hstmt
    obtain ⟨rfl, -⟩ := compileReturnStmt_patch hr hstmt
    intro a ha
    rw [he, hce, ite_self] at ha
    simp at ha
  · obtain ⟨h₂, hkeep, -⟩ := hk (hpatch.ready_swap hr hp hq) h
    have hlen := (compileStmts_patch k (hpatch.ready_swap hr hp hq) h).1.ext.length_le
    have hlen₁ := hpatch.ext.length_le
    refine ⟨(h₁.mono (le_refl _) hlen).trans (h₂.mono hlen₁ (le_refl _)), fun hf => ?_,
      fun he _ => ?_⟩
    · rw [hkeep rfl, if_neg (by simp [hf])]
    · rw [hkeep rfl, he]
      intro a ha
      cases first with
      | false => simp at ha
      | true =>
        obtain ⟨j, h₁, h₂, rfl⟩ := (hentry₁ hret).2 a ha
        exact ⟨j, h₁, by omega, rfl⟩

theorem compileBlock_of_stmtsPlaced {k : List WorkflowSyntax} (hk : StmtsPlaced k) :
    BlockPlaced (.stmtList k) := by
  intro ctx ctx' σ σ' hr he h
  obtain ⟨sp, sn, stmtCtx, entry, σ₂, σ₃, σ₄, hstmts, rfl, htr⟩ :=
    compileBlock_trace (compileStmts_patch k) hr he h
  have hlen' := htr.length₃
  obtain ⟨h₃, -, hentry₃⟩ := hk htr.ready₂ hstmts
  rw [htr.nodes₂, ← hlen'] at h₃ hentry₃
  have hin := hentry₃ rfl rfl
  have h₄ : Placed σ.nodes.length σ'.nodes.length σ₃ σ₄ :=
    htr.attached₄ ▸ .attach htr.step₃.wf (hin.within (le_refl _) (le_refl _))
  have h₅ : Placed σ.nodes.length σ'.nodes.length σ₄ σ' := by
    rw [htr.appended]
    exact .append htr.next_ne
  exact ⟨(Placed.of_eq htr.labels₂ htr.nodes₂).trans (h₃.trans (h₄.trans h₅)), hin⟩

theorem compile_placed :
    (∀ s, StmtPlaced s) ∧ (∀ s, BlockPlaced s) ∧ ∀ k, StmtsPlaced k := by
  refine compile_induction ?_ ?_ ?_ ?_ ?_ ?_ ?_ ?_ ?_
  · intro c t e ht he
    exact compileIfStmt_placed ht he
  · intro c b hb
    exact compileWhileStmt_placed hb
  · intro b c hb
    exact compileDoWhileStmt_placed hb
  · intro ctx ctx' σ σ' hr h
    rw [compileStmt] at h
    obtain ⟨-, rfl, -⟩ := compileReturnStmt_patch hr h
    exact ⟨.attach hr.wf fun t ht => .inl (Option.some.inj ht).symm,
      fun h => by simp [isReturn] at h⟩
  · intro e he ctx ctx' σ σ' hr h
    rw [compileStmt_of_isSimple he] at h
    obtain ⟨str, neg, σ₁, -, rfl, htr⟩ := compileExpStmt_trace hr h
    have hlen₁ := htr.created.length
    have hlen' : σ'.nodes.length = σ₁.nodes.length := by rw [htr.attached]; simp [attach_nodes]
    have hself : EntryIn σ.nodes.length σ'.nodes.length (some (.node σ.nodes.length)) :=
      entryIn_node (le_refl _) (by omega)
    have h₂ : Placed σ.nodes.length σ'.nodes.length σ₁ σ' := by
      rw [htr.attached] at hself ⊢
      exact .attach htr.created.wf (hself.within (le_refl _) (le_refl _))
    exact ⟨(htr.created.placed _ _).trans h₂, fun _ => ⟨by omega, hself⟩⟩
  · intro k hk
    exact compileBlock_of_stmtsPlaced hk
  · intro s hs ctx ctx' σ σ' hr he h
    simp [compileBlock_of_not_isBlock hs] at h
  · intro first stmtCtx stmtCtx' entry entry' σ σ' hr h
    rw [compileStmts, Option.some.injEq, Prod.mk.injEq, Prod.mk.injEq] at h
    obtain ⟨rfl, rfl, rfl⟩ := h
    refine ⟨.of_eq rfl rfl, fun _ => rfl, fun he _ a ha => ?_⟩
    rw [he] at ha
    simp at ha
  · intro s k hs hk
    exact compileStmts_cons_placed hs hk

theorem compileStmt_placed (s : WorkflowSyntax) : StmtPlaced s := compile_placed.1 s

theorem compileBlock_placed (s : WorkflowSyntax) : BlockPlaced s := compile_placed.2.1 s

theorem compileStmts_placed (k : List WorkflowSyntax) : StmtsPlaced k := compile_placed.2.2 k

/-! ## The edges that lead in -/

/-- The edges that led into a block are settled at its entry, or at null if it has
none. -/
theorem compileBlock_landed {ctx ctx' : Context} {σ σ' : CompileState} (hr : Ready ctx σ)
    (he : ctx.entry = none) (h : compileBlock s ctx σ = some (ctx', σ')) {e : Edge}
    (hmem : e ∈ σ.labels ctx.prevLabel) :
    σ'.Settled e ∧ edgeAt σ'.nodes e.node e.direct = ctx'.entry := by
  obtain ⟨k, rfl⟩ := exists_of_compileBlock h
  obtain ⟨sp, sn, stmtCtx, entry, σ₂, σ₃, σ₄, -, rfl, htr⟩ :=
    compileBlock_trace (compileStmts_patch k) hr he h
  refine landed_of_attach htr.step₃.wf ?_ (by rw [htr.prev₃]; exact hmem)
  rw [← htr.attached₄, htr.appended]
  exact Ext.append _ htr.next_ne

/-- The edges that led into a statement are settled at its entry; those that led into a
`return`, at the end. -/
theorem compileStmt_landed {ctx ctx' : Context} {σ σ' : CompileState} (hr : Ready ctx σ)
    (h : compileStmt s ctx σ = some (ctx', σ')) {e : Edge} (hmem : e ∈ σ.labels ctx.prevLabel) :
    σ'.Settled e ∧ edgeAt σ'.nodes e.node e.direct =
      if s.isReturn then some .endNode else ctx'.entry := by
  cases hs : s.isSimple with
  | true =>
    rw [compileStmt_of_isSimple hs] at h
    obtain ⟨str, neg, σ₁, -, rfl, htr⟩ := compileExpStmt_trace hr h
    rw [isReturn_of_isSimple hs, if_neg (by simp)]
    rw [htr.attached]
    exact landed_of_attach htr.created.wf (Ext.refl _) (by rw [htr.prev₁]; exact hmem)
  | false =>
    cases s with
    | ifStmt c t el =>
      rw [compileStmt] at h
      obtain ⟨str, neg, tl, cl, thenCtx, σ₃, σ₄, σ₅, σ₆, -, -, -, -, rfl, htr⟩ :=
        compileIfStmt_trace (compileBlock_patch t) (fun _ => compileBlock_patch el) hr h
      rw [htr.attached]
      exact landed_of_attach htr.patch₆.wf (Ext.refl _) (by rw [htr.prev₆]; exact hmem)
    | whileStmt c b =>
      rw [compileStmt] at h
      obtain ⟨str, neg, sl, el, blockCtx, σ₃, σ₄, σ₅, σ₆, -, -, -, rfl, htr⟩ :=
        compileWhileStmt_trace (compileBlock_patch b) hr h
      rw [htr.attached]
      exact landed_of_attach htr.wf₆ (Ext.refl _) (by rw [htr.prev₆]; exact hmem)
    | doWhileStmt b c =>
      rw [compileStmt] at h
      obtain ⟨str, neg, bl, tl, fl, blockCtx, σ₁, σ₂, σ₄, σ₅, σ₆, σ₇, -, hblock, rfl, htr⟩ :=
        compileDoWhileStmt_trace (compileBlock_patch b) hr h
      obtain ⟨hset, hx⟩ := compileBlock_landed htr.ready₁ rfl hblock
        (by simp only [htr.labels₁]; exact hmem)
      have hext := htr.ext₂
      exact ⟨hext.settled_mono e hset, (hext.settled e hset).trans hx⟩
    | returnStmt =>
      rw [compileStmt] at h
      obtain ⟨rfl, rfl, -, -⟩ := compileReturnStmt_patch hr h
      exact landed_of_attach hr.wf (Ext.refl _) hmem
    | emptyStmt | name _ | workflow _ _ | stmtList _ | unopExp _ _ => simp [isSimple] at hs

end Rtp.Workflow
