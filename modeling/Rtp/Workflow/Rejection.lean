import Rtp.Workflow.Acceptance
import Rtp.Workflow.Backpatch

/-!
# Exactly which workflows compile

A workflow that is not accepted in the sense of `Rtp.Workflow.Acceptance` leaves a
flaw in its graph, which the validity check finds: an edge that has been set to null,
or nodes that no edge leads to.

* `Isolated` — no edge leads into a range of nodes from outside.
* `Flawed` — one of the two flaws; it stays whatever is compiled around it
  (`Flawed.ext`).
* `compileBlock_flawed` — the induction.
* `checkValid_compileGraph` — **the check decides acceptance**.
* `compileWorkflow_isSome_iff` — **which workflows compile**: those with a fresh name
  whose block is accepted.
-/

namespace Rtp.Workflow

open WorkflowSyntax CompileState

/-! ## Flaws -/

/-- Owed edges are null, and edges that are set lead to the end or to a node. -/
structure Tidy (σ : CompileState) : Prop where
  blank : σ.Blank
  inRange : ∀ i b t, edgeAt σ.nodes i b = some t → Within 0 σ.nodes.length t

variable {s : WorkflowSyntax} {k : List WorkflowSyntax} {ctx ctx' : Context} {σ σ' : CompileState}
  {name : String} {g : Graph}

theorem Tidy.of_placed {lo hi : ℕ} (h : Placed lo hi σ σ') (hσ : Tidy σ)
    (hhi : hi ≤ σ'.nodes.length) (hlen : σ.nodes.length ≤ σ'.nodes.length) : Tidy σ' := by
  refine ⟨h.blank hσ.blank, fun i b t ht => ?_⟩
  rcases h.aimed i b t ht with h | h
  · exact (hσ.inRange i b t h).mono (le_refl _) hlen
  · exact h.mono (Nat.zero_le _) hhi

/-- No edge leads to the nodes `lo`, …, `hi - 1` from another node. -/
def Isolated (lo hi : ℕ) (σ : CompileState) : Prop :=
  ∀ i b j, edgeAt σ.nodes i b = some (.node j) → i < lo ∨ hi ≤ i → j < lo ∨ hi ≤ j

/-- What makes the graph of a piece of syntax with this entry invalid. -/
inductive Flawed (lo : ℕ) (entry : Option NodeRef) (σ : CompileState) : Prop
  | nullEdge (e : Edge) (hset : σ.Settled e) (hnull : edgeAt σ.nodes e.node e.direct = none)
  | isolated (l h : ℕ) (hlo : lo ≤ l) (hlt : l < h) (hle : h ≤ σ.nodes.length)
      (hcut : Isolated l h σ) (hentry : ∀ j, entry = some (.node j) → j < l ∨ h ≤ j)

/-- The node lies outside of a range, or is the entry of what was compiled there. -/
def Beside (lo hi : ℕ) (entry : Option NodeRef) (t : NodeRef) : Prop :=
  ∀ j, t = .node j → j < lo ∨ hi ≤ j ∨ entry = some t

section Flawed

variable {lo lo' hi hi' v : ℕ} {entry entry' : Option NodeRef} {t : NodeRef}
  {σ σ' : CompileState}

theorem Within.beside (h : Within lo' hi' t) (hle : hi ≤ lo') : Beside lo hi entry t := by
  rintro j rfl
  rcases h with h | ⟨j', h₁, -, h⟩
  · simp at h
  · cases h
    exact .inr (Or.inl (hle.trans h₁))

theorem beside_of_lt (h : v < lo) (ht : some (.node v) = some t) : Beside lo hi entry t := by
  rintro j rfl
  cases ht
  exact .inl h

theorem beside_entry (ht : entry = some t) : Beside lo hi entry t :=
  fun _ _ => .inr (Or.inr ht)

/-- A flaw stays, as long as the edges that are set later lead elsewhere. -/
theorem Flawed.ext (h : Flawed lo entry σ) (hext : Ext σ σ')
    (haim : Aimed (Beside lo σ.nodes.length entry) σ σ') (hlo : lo' ≤ lo)
    (hentry : ∀ a, entry' = some a → Beside lo σ.nodes.length entry a) : Flawed lo' entry' σ' := by
  cases h with
  | nullEdge e hset hnull =>
    exact .nullEdge e (hext.settled_mono e hset) ((hext.settled e hset).trans hnull)
  | isolated l h hl hlt hle hcut hout =>
    have houtside : ∀ j, Beside lo σ.nodes.length entry (.node j) → j < l ∨ h ≤ j := by
      intro j hj
      rcases hj j rfl with hj | hj | hj
      · exact .inl (lt_of_lt_of_le hj hl)
      · exact .inr (hle.trans hj)
      · exact hout j hj
    refine .isolated l h (hlo.trans hl) hlt (hle.trans hext.length_le) (fun i b j ht hi => ?_)
      fun j hj => houtside j (hentry _ hj)
    rcases haim i b _ ht with ht | ht
    · exact hcut i b j ht hi
    · exact houtside j ht

end Flawed

/-- A statement that is not accepted leaves a flaw. -/
def StmtFlawed (s : WorkflowSyntax) : Prop :=
  ∀ {ctx ctx' : Context} {σ σ' : CompileState}, Ready ctx σ → Tidy σ →
    compileStmt s ctx σ = some (ctx', σ') → s.accepted = false →
    Flawed σ.nodes.length ctx'.entry σ'

/-- A block whose statements are not accepted leaves a flaw. -/
def BlockFlawed (s : WorkflowSyntax) : Prop :=
  ∀ {ctx ctx' : Context} {σ σ' : CompileState}, Ready ctx σ → ctx.entry = none → Tidy σ →
    compileBlock s ctx σ = some (ctx', σ') → s.acceptedBlock = false →
    Flawed σ.nodes.length ctx'.entry σ'

/-- So do the statements of a block, with the entry that is set in the first round. -/
def StmtsFlawed (k : List WorkflowSyntax) : Prop :=
  ∀ {first : Bool} {stmtCtx stmtCtx' : Context} {entry entry' : Option NodeRef}
    {σ σ' : CompileState}, Ready stmtCtx σ → σ.labels stmtCtx.nextLabel = [] → Tidy σ →
    compileStmts k first stmtCtx entry σ = some (stmtCtx', entry', σ') →
    acceptedAll k = false → Flawed σ.nodes.length (if first then entry' else none) σ'

/-! ## Blocks inside of statements -/

/-- A block that is compiled but cannot be entered has no entry, or its statements are
not accepted. -/
theorem entry_of_not_enterable (hr : Ready ctx σ) (he : ctx.entry = none)
    (h : compileBlock s ctx σ = some (ctx', σ')) (hent : s.enterable = false) :
    ctx'.entry = none ∨ s.acceptedBlock = false := by
  obtain ⟨k, rfl⟩ := exists_of_compileBlock h
  obtain ⟨sp, sn, stmtCtx, entry, σ₂, σ₃, σ₄, hstmts, rfl, htr⟩ :=
    compileBlock_trace (compileStmts_patch k) hr he h
  cases hk : endsHere k with
  | false =>
    rw [enterable, hk] at hent
    exact .inr (by simpa [acceptedBlock] using hent)
  | true =>
    refine .inl ?_
    rcases compileStmts_of_endsHere htr.ready₂ hk hstmts with
      ⟨-, -, hentry, -⟩ | ⟨-, -, -, -, hentry⟩
    · exact hentry
    · simpa using hentry

/-- A condition that leads into a block that cannot be entered. -/
theorem flawed_of_not_enterable (hs : BlockFlawed s) (hr : Ready ctx σ) (he : ctx.entry = none)
    (hσ : Tidy σ) (h : compileBlock s ctx σ = some (ctx', σ')) (hent : s.enterable = false)
    {e₀ : Edge} (hmem : e₀ ∈ σ.labels ctx.prevLabel) : Flawed σ.nodes.length ctx'.entry σ' := by
  rcases entry_of_not_enterable hr he h hent with hnone | hacc
  · obtain ⟨hset, hx⟩ := compileBlock_landed hr he h hmem
    exact .nullEdge e₀ hset (hx.trans hnone)
  · exact hs hr he hσ h hacc

theorem Tidy.created {str : String} {neg : Bool} {p q : ℕ} (hσ : Tidy σ)
    (h : Created str neg p q σ σ') : Tidy σ' :=
  .of_placed (h.placed 0 0) hσ (Nat.zero_le _) h.ext.length_le

/-! ## The statements -/

theorem compileIfStmt_flawed {c t e : WorkflowSyntax} (ht : BlockFlawed t) (he : BlockFlawed e) :
    StmtFlawed (.ifStmt c t e) := by
  intro ctx ctx' σ σ' hr hσ h hacc
  rw [compileStmt] at h
  obtain ⟨str, neg, tl, cl, thenCtx, σ₃, σ₄, σ₅, σ₆, hh, hthen, hσ₅, helse, rfl, htr⟩ :=
    compileIfStmt_trace (compileBlock_patch t) (fun _ => compileBlock_patch e) hr h
  obtain ⟨hlen₃, hlen₄, hlen₅, hlen₆, hlen'⟩ := htr.lengths
  rw [accepted, hh, Option.isSome_some, Bool.true_and, Bool.and_eq_false_iff] at hacc
  have htidy₃ := hσ.created htr.created
  obtain ⟨hplaced₄, hentry₄⟩ := compileBlock_placed t htr.ready₃ rfl hthen
  have hext₆ : Ext σ₆ σ' := htr.attached ▸ Ext.attach _ _ _
  -- what is set last leads to the condition
  have haim₇ : ∀ lo hi entry, σ.nodes.length < lo → Aimed (Beside lo hi entry) σ₆ σ' := by
    intro lo hi entry hlo
    rw [htr.attached]
    exact .attach fun _ _ _ ht => beside_of_lt hlo ht
  rcases hacc with hacc | hacc
  · have hf := flawed_of_not_enterable ht htr.ready₃ rfl htidy₃ hthen hacc htr.created.prev
    have haim₅ : Aimed (Beside σ₃.nodes.length σ₄.nodes.length thenCtx.entry) σ₄ σ₅ := by
      rw [hσ₅]
      exact .attach fun _ _ _ ht => beside_entry ht
    have haim₆ := (helse.placed (compileBlock_placed e) htr.ready₅).aimed
    refine hf.ext (htr.step₅.ext.trans (htr.patch₆.ext.trans hext₆)) ?_ (by omega)
      fun _ ha => beside_of_lt (by omega) ha
    exact haim₅.trans ((haim₆.mono fun _ ht => ht.beside (by omega)).trans
      (haim₇ _ _ _ (by omega)))
  · rw [Bool.or_eq_false_iff] at hacc
    rcases helse with ⟨hemp, -⟩ | ⟨-, elseCtx, helse⟩
    · rw [hacc.1] at hemp
      simp at hemp
    · have htidy₄ := Tidy.of_placed hplaced₄ htidy₃ (le_refl _) hlen₄
      have hplaced₅ : Placed σ₃.nodes.length σ₄.nodes.length σ₄ σ₅ :=
        hσ₅ ▸ .attach htr.patch₄.wf (hentry₄.within (le_refl _) (le_refl _))
      have htidy₅ := Tidy.of_placed hplaced₅ htidy₄ (by omega) (by omega)
      have hf := flawed_of_not_enterable he htr.ready₅ rfl htidy₅ helse hacc.2
        (htr.cond₅ ▸ htr.created.next)
      exact hf.ext hext₆ (haim₇ _ _ _ (by omega)) (by omega) fun _ ha =>
        beside_of_lt (by omega) ha

theorem compileWhileStmt_flawed {c b : WorkflowSyntax} (hb : BlockFlawed b) :
    StmtFlawed (.whileStmt c b) := by
  intro ctx ctx' σ σ' hr hσ h hacc
  rw [compileStmt] at h
  obtain ⟨str, neg, sl, el, blockCtx, σ₃, σ₄, σ₅, σ₆, hh, hblock, hσ₅, rfl, htr⟩ :=
    compileWhileStmt_trace (compileBlock_patch b) hr h
  have hlen₃ := htr.created.length
  rw [accepted, hh, Option.isSome_some, Bool.true_and] at hacc
  have hf := flawed_of_not_enterable hb htr.ready₃ rfl (hσ.created htr.created) hblock hacc
    htr.created.prev
  have haim₅ : Aimed (Beside σ₃.nodes.length σ₄.nodes.length blockCtx.entry) σ₄ σ₅ := by
    rw [hσ₅]
    exact .attach fun _ _ _ ht => beside_entry ht
  have haim₆ : Aimed (Beside σ₃.nodes.length σ₄.nodes.length blockCtx.entry) σ₅ σ₆ := by
    rw [htr.attached₆]
    exact .attach fun _ _ _ ht => beside_of_lt (by omega) ht
  have haim₇ : Aimed (Beside σ₃.nodes.length σ₄.nodes.length blockCtx.entry) σ₆ σ' := by
    rw [htr.attached]
    exact .attach fun _ _ _ ht => beside_of_lt (by omega) ht
  exact hf.ext htr.ext₄ (haim₅.trans (haim₆.trans haim₇)) (by omega) fun _ ha =>
    beside_of_lt (by omega) ha

/-- The condition of a `do`-`while` whose block does not complete is reached by no
edge. -/
theorem DoWhileTrace.isolated {b : WorkflowSyntax} {str : String} {neg : Bool} {p q bl tl fl : ℕ}
    {blockCtx : Context} {σ σ₁ σ₂ σ₄ σ₅ σ₆ σ₇ σ' : CompileState}
    (htr : DoWhileTrace str neg p q bl tl fl blockCtx.entry σ σ₁ σ₂ σ₄ σ₅ σ₆ σ₇ σ')
    (hblock : compileBlock b ⟨none, p, bl⟩ σ₁ = some (blockCtx, σ₂)) (hσ₂ : Tidy σ₂)
    (hent : b.enterable = true) (hcomp : b.completes = false)
    (hentry : EntryIn σ₁.nodes.length σ₂.nodes.length blockCtx.entry) :
    Isolated σ₂.nodes.length (σ₂.nodes.length + 1) σ' := by
  obtain ⟨a, -, hl⟩ := compileBlock_laid b htr.ready₁ rfl hblock hent
  have hback : σ₅.labels bl = [] := by
    rw [htr.back₅]
    refine List.eq_nil_of_subset_nil ?_
    rw [← htr.fresh₁]
    exact hl.shut hcomp
  -- every edge set after the block leads to its entry
  have hcond : ∀ t, blockCtx.entry = some t → t ≠ .node σ₂.nodes.length := by
    rintro t ht rfl
    obtain ⟨j, -, hj, h⟩ := hentry _ ht
    cases h
    omega
  have haim₅ : Aimed (· ≠ .node σ₂.nodes.length) σ₄ σ₅ := by
    rw [htr.attached₅]
    exact .attach fun _ _ t ht => hcond t ht
  have haim₆ : Aimed (· ≠ .node σ₂.nodes.length) σ₅ σ₆ := by
    rw [htr.attached₆]
    exact .attach fun _ he => by rw [hback] at he; cases he
  have haim₇ : Aimed (· ≠ .node σ₂.nodes.length) σ₆ σ₇ := by
    rw [htr.attached₇]
    exact .attach fun _ _ t ht => hcond t ht
  have haim₈ : Aimed (· ≠ .node σ₂.nodes.length) σ₇ σ' := by
    rw [htr.appended]
    exact .of_edges fun _ _ => rfl
  have haim := (Aimed.of_edges htr.created.edge).trans
    (haim₅.trans (haim₆.trans (haim₇.trans haim₈)))
  intro i d j hj _
  rcases haim i d _ hj with h | h
  · rcases hσ₂.inRange i d _ h with h | ⟨j', -, hlt, h⟩
    · simp at h
    · cases h
      exact .inl hlt
  · have hne : j ≠ σ₂.nodes.length := fun hj => h (by rw [hj])
    omega

theorem compileDoWhileStmt_flawed {b c : WorkflowSyntax} (hb : BlockFlawed b) :
    StmtFlawed (.doWhileStmt b c) := by
  intro ctx ctx' σ σ' hr hσ h hacc
  rw [compileStmt] at h
  obtain ⟨str, neg, bl, tl, fl, blockCtx, σ₁, σ₂, σ₄, σ₅, σ₆, σ₇, hh, hblock, rfl, htr⟩ :=
    compileDoWhileStmt_trace (compileBlock_patch b) hr h
  have hlen₁ : σ₁.nodes.length = σ.nodes.length := by rw [htr.nodes₁]
  have hlen₂ := htr.patch₂.ext.length_le
  have hlen₄ := htr.created.length
  have hlen' := htr.length₄
  rw [accepted, hh, Option.isSome_some, Bool.true_and, Bool.and_eq_false_iff] at hacc
  have htidy₁ : Tidy σ₁ :=
    .of_placed (@Placed.of_eq 0 0 _ _ htr.labels₁ htr.nodes₁) hσ (Nat.zero_le _)
      (by omega)
  obtain ⟨hplaced₂, hentry₂⟩ := compileBlock_placed b htr.ready₁ rfl hblock
  cases hent : b.enterable with
  | true =>
    have hcomp : b.completes = false := hacc.resolve_left (by rw [hent]; simp)
    refine .isolated σ₂.nodes.length (σ₂.nodes.length + 1) (by omega) (by omega) (by omega)
      (htr.isolated hblock (Tidy.of_placed hplaced₂ htidy₁ (le_refl _) hlen₂) hent hcomp hentry₂)
      fun j hj => ?_
    obtain ⟨j', -, hlt, h⟩ := hentry₂ _ hj
    cases h
    exact .inl hlt
  | false =>
    rcases entry_of_not_enterable htr.ready₁ rfl hblock hent with hnone | hacc'
    · -- the true edge of the condition is set to null
      obtain ⟨hset, hx⟩ :=
        landed_of_attach htr.created.wf (htr.attached₅ ▸ htr.ext₅) htr.created.prev
      exact .nullEdge _ hset (hx.trans hnone)
    · have hf := hb htr.ready₁ rfl htidy₁ hblock hacc'
      have haim₅ : Aimed (Beside σ₁.nodes.length σ₂.nodes.length blockCtx.entry) σ₄ σ₅ := by
        rw [htr.attached₅]
        exact .attach fun _ _ _ ht => beside_entry ht
      have haim₆ : Aimed (Beside σ₁.nodes.length σ₂.nodes.length blockCtx.entry) σ₅ σ₆ := by
        rw [htr.attached₆]
        refine .attach fun _ _ _ ht j hj => .inr (Or.inl ?_)
        cases hj
        cases ht
        exact le_refl _
      have haim₇ : Aimed (Beside σ₁.nodes.length σ₂.nodes.length blockCtx.entry) σ₆ σ₇ := by
        rw [htr.attached₇]
        exact .attach fun _ _ _ ht => beside_entry ht
      have haim₈ : Aimed (Beside σ₁.nodes.length σ₂.nodes.length blockCtx.entry) σ₇ σ' := by
        rw [htr.appended]
        exact .of_edges fun _ _ => rfl
      exact hf.ext htr.ext₂ ((Aimed.of_edges htr.created.edge).trans
        (haim₅.trans (haim₆.trans (haim₇.trans haim₈)))) (by omega) fun _ ha => beside_entry ha

/-! ## Blocks and the induction -/

/-- What is compiled behind a statement that does not complete is reached by no edge:
no label owes an edge that could lead there. -/
theorem isolated_of_shut {first : Bool} {stmtCtx stmtCtx' : Context} {entry entry' : Option NodeRef}
    (hr : Ready stmtCtx σ) (hσ : Tidy σ) (hprev : σ.labels stmtCtx.prevLabel = [])
    (hnext : σ.labels stmtCtx.nextLabel = [])
    (h : compileStmts k first stmtCtx entry σ = some (stmtCtx', entry', σ')) :
    Isolated σ.nodes.length σ'.nodes.length σ' := by
  intro i b j hj hi
  have hstep := (compileStmts_patch k hr h).1
  have hblank := (compileStmts_placed k hr h).1.blank hσ.blank
  rcases hi with hi | hi
  · -- an edge of an earlier node is owed in the end if it is owed now
    have hset : σ.Settled ⟨b, i⟩ := by
      refine ⟨hi, fun l hl => ?_⟩
      have hlt : l < σ.labelCount := by
        by_contra hge
        rw [hr.wf.fresh l (not_lt.1 hge)] at hl
        cases hl
      have hne : ¬ (l = stmtCtx.prevLabel ∨ l = stmtCtx.nextLabel) := by
        rintro (rfl | rfl)
        · rw [hprev] at hl; cases hl
        · rw [hnext] at hl; cases hl
      have hnull := hblank l ⟨b, i⟩ (by rw [hstep.frame l hlt hne]; exact hl)
      simp only [hj] at hnull
      simp at hnull
    have hold := hstep.ext.settled _ hset
    simp only [hj] at hold
    rcases hσ.inRange i b _ hold.symm with h | ⟨j', -, hlt, h⟩
    · simp at h
    · cases h
      exact .inl hlt
  · rw [edgeAt, List.getElem?_eq_none hi] at hj
    simp at hj

/-- Statements for which something is compiled create a node. -/
theorem length_lt_of_compileStmts {first : Bool} {stmtCtx stmtCtx' : Context}
    {entry entry' : Option NodeRef} (hr : Ready stmtCtx σ) (hk : endsHere k = false)
    (h : compileStmts k first stmtCtx entry σ = some (stmtCtx', entry', σ')) :
    σ.nodes.length < σ'.nodes.length := by
  cases k with
  | nil => simp [endsHere] at hk
  | cons s k =>
    rw [endsHere] at hk
    obtain ⟨ctx₁, σ₁, hstmt, ⟨hret, -⟩ | ⟨-, h⟩⟩ := compileStmts_cons_cases h
    · rw [hk] at hret
      simp at hret
    · obtain ⟨hpatch, hp, hq⟩ := compileStmt_patch s hr hstmt
      exact lt_of_lt_of_le ((compileStmt_placed s hr hstmt).2 hk).1
        (compileStmts_patch k (hpatch.ready_swap hr hp hq) h).1.ext.length_le

theorem compileStmts_cons_flawed (hs : StmtFlawed s) (hk : StmtsFlawed k) :
    StmtsFlawed (s :: k) := by
  intro first stmtCtx stmtCtx' entry entry' σ σ' hr hempty hσ h hacc
  obtain ⟨ctx₁, σ₁, hstmt, ⟨hret, -⟩ | ⟨hret, h⟩⟩ := compileStmts_cons_cases h
  · rw [eq_returnStmt hret] at hacc
    simp [acceptedAll, accepted, isReturn] at hacc
  obtain ⟨hpatch, hp, hq⟩ := compileStmt_patch s hr hstmt
  have hr₁ := hpatch.ready_swap hr hp hq
  have hlen₁ := hpatch.ext.length_le
  obtain ⟨hplaced₁, hentry₁⟩ := compileStmt_placed s hr hstmt
  have hin := (hentry₁ hret).2
  have hext := (compileStmts_patch k hr₁ h).1.ext
  have hempty₁ : σ₁.labels ctx₁.prevLabel = [] := by rw [hp]; exact hpatch.prev
  -- the entry, if it is set in this round, is that of the statement
  have hfirst : ∀ a, (if first then entry' else none) = some a → ctx₁.entry = some a := by
    intro a ha
    cases first with
    | false => simp at ha
    | true =>
      rw [if_pos rfl, (compileStmts_placed k hr₁ h).2.1 rfl] at ha
      exact ha
  cases hacc₁ : s.accepted with
  | false =>
    refine (hs hr hσ hstmt hacc₁).ext hext ?_ (le_refl _) fun a ha => beside_entry (hfirst a ha)
    exact (compileStmts_placed k hr₁ h).1.aimed.mono fun _ ht => ht.beside (le_refl _)
  | true =>
    have hold : ∀ j, (if first then entry' else none) = some (NodeRef.node j) →
        j < σ₁.nodes.length := by
      intro j hj
      obtain ⟨j', -, hlt, h⟩ := hin _ (hfirst _ hj)
      cases h
      exact hlt
    have htidy₁ := Tidy.of_placed hplaced₁ hσ (le_refl _) hlen₁
    rw [acceptedAll, hacc₁, hret, Bool.true_and, Bool.false_or, Bool.or_eq_false_iff] at hacc
    cases hcomp : s.completes with
    | true =>
      rw [hcomp, Bool.true_and] at hacc
      refine (hk hr₁ hempty₁ htidy₁ h hacc.2).ext (Ext.refl _) (.of_edges fun _ _ => rfl) hlen₁
        fun a ha j hj => ?_
      subst hj
      exact .inl (hold j ha)
    | false =>
      obtain ⟨a, -, hl⟩ := compileStmt_laid s hr hstmt hacc₁ hret
      have hshut : σ₁.labels ctx₁.nextLabel = [] := by
        rw [hq]
        exact List.eq_nil_of_subset_nil (hempty ▸ hl.shut hcomp)
      exact .isolated σ₁.nodes.length σ'.nodes.length hlen₁
        (length_lt_of_compileStmts hr₁ hacc.1 h) (le_refl _)
        (isolated_of_shut hr₁ htidy₁ hshut hempty₁ h) fun j hj => .inl (hold j hj)

theorem compileBlock_of_stmtsFlawed (hk : StmtsFlawed k) : BlockFlawed (.stmtList k) := by
  intro ctx ctx' σ σ' hr he hσ h hacc
  obtain ⟨sp, sn, stmtCtx, entry, σ₂, σ₃, σ₄, hstmts, rfl, htr⟩ :=
    compileBlock_trace (compileStmts_patch k) hr he h
  have hlen₂ : σ₂.nodes.length = σ.nodes.length := by rw [htr.nodes₂]
  have htidy₂ : Tidy σ₂ :=
    .of_placed (@Placed.of_eq 0 0 _ _ htr.labels₂ htr.nodes₂) hσ (Nat.zero_le _)
      (by omega)
  have hf := hk htr.ready₂ htr.fresh₂ htidy₂ hstmts hacc
  rw [if_pos rfl] at hf
  have hext₃ : Ext σ₃ σ' := by
    rw [htr.appended, htr.attached₄]
    exact (Ext.attach _ _ _).trans (Ext.append _ htr.next_ne)
  have haim₄ : Aimed (Beside σ₂.nodes.length σ₃.nodes.length entry) σ₃ σ₄ := by
    rw [htr.attached₄]
    exact .attach fun _ _ _ ht => beside_entry ht
  have haim₅ : Aimed (Beside σ₂.nodes.length σ₃.nodes.length entry) σ₄ σ' := by
    rw [htr.appended]
    exact .of_edges fun _ _ => rfl
  exact hf.ext hext₃ (haim₄.trans haim₅) (by omega) fun _ ha => beside_entry ha

theorem compile_flawed : (∀ s, StmtFlawed s) ∧ (∀ s, BlockFlawed s) ∧ ∀ k, StmtsFlawed k := by
  refine compile_induction ?_ ?_ ?_ ?_ ?_ ?_ ?_ ?_ ?_
  · intro c t e ht he
    exact compileIfStmt_flawed ht he
  · intro c b hb
    exact compileWhileStmt_flawed hb
  · intro b c hb
    exact compileDoWhileStmt_flawed hb
  · intro ctx ctx' σ σ' _ _ _ hacc
    simp [accepted] at hacc
  · intro e he ctx ctx' σ σ' hr _ h hacc
    rw [compileStmt_of_isSimple he] at h
    obtain ⟨str, neg, σ₁, hh, -, -⟩ := compileExpStmt_trace hr h
    rw [accepted_of_isSimple he, hh] at hacc
    simp at hacc
  · intro k hk
    exact compileBlock_of_stmtsFlawed hk
  · intro s hs ctx ctx' σ σ' _ _ _ h
    simp [compileBlock_of_not_isBlock hs] at h
  · intro first stmtCtx stmtCtx' entry entry' σ σ' _ _ _ _ hacc
    simp [acceptedAll] at hacc
  · intro s k hs hk
    exact compileStmts_cons_flawed hs hk

theorem compileBlock_flawed (s : WorkflowSyntax) : BlockFlawed s := compile_flawed.2.1 s

/-! ## The graph of a workflow -/

/-- A graph with a flaw is not valid. -/
theorem Flawed.not_valid {lo : ℕ} {e : NodeRef} (h : Flawed lo g.entry σ)
    (hnodes : g.nodes = σ.nodes) : ¬ g.Valid e := by
  intro hv
  cases h with
  | nullEdge e' hset hnull =>
    refine hv.edge_ne_none e'.node (by rw [hnodes]; exact hset.1) e'.direct ?_
    rw [Graph.edge, hnodes, hnull]
  | isolated l h hlo hlt hle hcut hentry =>
    -- a walk along edges never enters the range
    have hout : ∀ u, g.Reaches e u → ∀ j, u = .node j → j < l ∨ h ≤ j := by
      intro u hu
      induction hu with
      | refl => rintro j rfl; exact hentry j hv.entry_eq
      | @tail w u b _ hb ih =>
        rintro j rfl
        cases w with
        | endNode => simp [Graph.edge] at hb
        | node i =>
          rw [Graph.edge, hnodes] at hb
          exact hcut i b j hb (ih i rfl)
    have hl := hout _ (hv.reaches l (by rw [hnodes]; omega)) l rfl
    omega

theorem tidy_empty (hlab : σ.labels = fun _ => []) (hnodes : σ.nodes = []) : Tidy σ := by
  refine ⟨fun l e he => ?_, fun i b t ht => ?_⟩
  · rw [hlab] at he
    cases he
  · rw [hnodes] at ht
    simp [edgeAt] at ht

/-- The graph of a workflow in which nothing is compiled has neither an entry nor
nodes. -/
theorem compileGraph_of_endsHere (h : compileGraph name (.stmtList k) = some g)
    (hk : endsHere k = true) : g.entry = none ∧ g.nodes = [] := by
  obtain ⟨ctx, σ, hblock, rfl, hr, -⟩ := compileGraph_cases h
  obtain ⟨sp, sn, stmtCtx, entry, τ₂, τ₃, τ₄, hstmts, rfl, htr⟩ :=
    compileBlock_trace (compileStmts_patch k) hr rfl hblock
  have hlen₂ : τ₂.nodes.length = 0 := by rw [htr.nodes₂]; rfl
  have hlen₃ : τ₃.nodes.length = 0 ∧ entry = none := by
    rcases compileStmts_of_endsHere htr.ready₂ hk hstmts with
      ⟨-, -, hentry, rfl⟩ | ⟨-, rfl, -, -, hentry⟩
    · exact ⟨hlen₂, hentry⟩
    · exact ⟨by simpa [attach_nodes] using hlen₂, by simpa using hentry⟩
  refine ⟨hlen₃.2, List.length_eq_zero_iff.1 ?_⟩
  simp only [attach_nodes, length_setEdges, htr.length₃]
  exact hlen₃.1

/-- If something is compiled for a workflow, its graph has a node. -/
theorem compileGraph_nodes_ne_nil (h : compileGraph name (.stmtList k) = some g)
    (hk : endsHere k = false) : g.nodes ≠ [] := by
  obtain ⟨ctx, σ, hblock, rfl, hr, -⟩ := compileGraph_cases h
  obtain ⟨sp, sn, stmtCtx, entry, τ₂, τ₃, τ₄, hstmts, rfl, htr⟩ :=
    compileBlock_trace (compileStmts_patch k) hr rfl hblock
  have hlt := length_lt_of_compileStmts htr.ready₂ hk hstmts
  intro hnil
  have hlen := congrArg List.length hnil
  simp only [attach_nodes, length_setEdges, htr.length₃, List.length_nil] at hlen
  omega

/-- The graph of an accepted workflow is valid. -/
theorem valid_compileGraph {block : WorkflowSyntax} (h : compileGraph name block = some g)
    (hacc : block.enterable = true) : ∃ e, g.Valid e := by
  obtain ⟨ctx, σ, hblock, rfl, hr, hlab₂⟩ := compileGraph_cases h
  have htidy := tidy_empty hlab₂ rfl
  have hpatch := compileBlock_patch block hr rfl hblock
  obtain ⟨hplaced, hin⟩ := compileBlock_placed block hr rfl hblock
  obtain ⟨a, ha, hl⟩ := compileBlock_laid block hr rfl hblock hacc
  have hext := Ext.attach σ 1 (some .endNode)
  have hlen : (σ.attach 1 (some .endNode)).nodes.length = σ.nodes.length := by simp [attach_nodes]
  -- what is left owing is attached to the end
  have hend : ∀ e ∈ σ.labels 1, OwedOrSet 0 (σ.attach 1 (some .endNode)) e := by
    intro e he
    obtain ⟨hset, hx⟩ := landed_of_attach hpatch.wf (Ext.refl _) he
    exact .inr ⟨hset, by rw [hx]; simp⟩
  have hset := hl.owing.ext hext hend
  have hσ := Tidy.of_placed hplaced htidy (le_refl _) hpatch.ext.length_le
  have hplaced' : Placed 0 0 σ (σ.attach 1 (some .endNode)) :=
    .attach hpatch.wf fun t ht => .inl (Option.some.inj ht).symm
  have htidy' := Tidy.of_placed hplaced' hσ (Nat.zero_le _) hext.length_le
  obtain ⟨j, -, hj, rfl⟩ := hin a ha
  refine ⟨.node j, ha, ⟨j, ?_, rfl⟩, fun i hi b => ?_, fun v b t ht => ?_, fun i hi => ?_⟩
  · exact lt_of_lt_of_eq hj hlen.symm
  · have hi' : i < σ.nodes.length := lt_of_lt_of_eq hi hlen
    rcases hset ⟨b, i⟩ (Nat.zero_le _) hi' with howed | ⟨-, hne⟩
    · rw [attach_labels, Function.update_of_ne (by decide), hpatch.prev] at howed
      cases howed
    · exact hne
  · obtain ⟨i, -, rfl⟩ := Graph.owns_of_edge_eq_some ht
    rcases htidy'.inRange i b t ht with h | ⟨j', -, hlt, h⟩
    · exact .inl h
    · exact .inr ⟨j', hlt, h⟩
  · exact hl.reach i (Nat.zero_le _) (lt_of_lt_of_eq hi hlen) _ hext.toFuture

/-- **The check decides acceptance.**  The graph of a workflow passes it exactly when the
block of the workflow is accepted. -/
theorem checkValid_compileGraph {block : WorkflowSyntax} (h : compileGraph name block = some g) :
    g.checkValid = block.acceptedBlock := by
  obtain ⟨k, rfl⟩ : ∃ k, block = .stmtList k := by
    obtain ⟨r, hr, -⟩ := Option.map_eq_some_iff.1 h
    exact exists_of_compileBlock hr
  rw [acceptedBlock]
  cases hk : endsHere k with
  | true =>
    rw [acceptedAll_of_endsHere hk]
    exact Graph.checkValid_iff.2 (.inl (compileGraph_of_endsHere h hk))
  | false =>
    cases hacc : acceptedAll k with
    | true =>
      obtain ⟨e, he⟩ := valid_compileGraph h (by simp [enterable, hk, hacc])
      exact he.checkValid
    | false =>
      have hne := compileGraph_nodes_ne_nil h hk
      obtain ⟨ctx, σ, hblock, rfl, hr, hlab₂⟩ := compileGraph_cases h
      have hf := compileBlock_flawed (.stmtList k) hr rfl (tidy_empty hlab₂ rfl) hblock hacc
      have haim : Aimed (Beside CompileState.empty.newLabel.2.newLabel.2.nodes.length
          σ.nodes.length ctx.entry) σ (σ.attach 1 (some .endNode)) :=
        .attach fun _ _ t ht j hj => by cases ht; simp at hj
      have hf' := hf.ext (Ext.attach σ 1 (some .endNode)) haim (le_refl _) fun _ ha =>
        beside_entry ha
      rw [Bool.eq_false_iff]
      intro hvalid
      rcases Graph.checkValid_iff.1 hvalid with ⟨-, hnil⟩ | ⟨e, hv⟩
      · exact hne hnil
      · exact hf'.not_valid rfl hv

/-- **Which workflows compile**: those with a fresh name whose block is accepted. -/
theorem compileWorkflow_isSome_iff (name : String) (block : WorkflowSyntax) (graphs : GraphMap) :
    (compileWorkflow (.workflow (.name name) block) graphs).isSome = true ↔
      graphs.lookup name = none ∧ block.acceptedBlock = true := by
  rw [compileWorkflow]
  cases hname : graphs.lookup name with
  | some g => simp
  | none =>
    simp only [Option.isSome_none, Bool.false_eq_true, if_false, true_and]
    constructor
    · intro h
      obtain ⟨graphs', h⟩ := Option.isSome_iff_exists.1 h
      obtain ⟨g, hg, h⟩ := Option.bind_eq_some_iff.1 h
      by_cases hv : g.checkValid
      · rwa [← checkValid_compileGraph hg]
      · rw [if_neg hv] at h
        simp at h
    · intro hacc
      obtain ⟨r, hr⟩ := compile_isSome.2.1 block hacc ⟨none, 0, 1⟩
        CompileState.empty.newLabel.2.newLabel.2
      obtain ⟨g, hg⟩ : ∃ g, compileGraph name block = some g :=
        ⟨_, Option.map_eq_some_iff.2 ⟨r, hr, rfl⟩⟩
      rw [hg, Option.bind_some, checkValid_compileGraph hg, hacc, if_pos rfl]
      rfl

end Rtp.Workflow
