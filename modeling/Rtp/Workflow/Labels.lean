import Rtp.Workflow.Compiler

/-!
# The label store

The edges of a node are set after the node has been created, through labels that
are shared between contexts.  At any moment an edge is either owed by exactly one
label, or it is *settled* and keeps its value until the end of the compilation.
This file proves as much for each operation on labels:

* `CompileState.WF` — each edge is owed by at most one label.
* `CompileState.Future`, `CompileState.Ext` — a later list of nodes, and a later
  state: no node goes away or changes its name, and a settled edge stays as it is.
* `CompileState.Step` — a step of the compilation that changes only some of the
  labels; steps compose (`Step.trans`), and every operation is one
  (`Step.newLabel`, `Step.addNode`, `Step.attach`, `Step.append`).
* `settled_attach` — attaching a label settles its edges at the target.
-/

namespace Rtp.Workflow

open WorkflowSyntax

/-! ## Nodes under `set_true_edge` and `set_false_edge` -/

/-- The name of the node at a position. -/
def nameAt (nodes : List Node) (i : ℕ) : Option String := (nodes[i]?).map Node.name

/-- Set a list of edges to one target. -/
def setEdges (es : List Edge) (target : Option NodeRef) (nodes : List Node) : List Node :=
  es.foldl (fun ns e => ns.modify e.node fun n => n.setEdge e.direct target) nodes

@[simp] theorem Node.setEdge_name (n : Node) (d : Bool) (x : Option NodeRef) :
    (n.setEdge d x).name = n.name := by
  cases d <;> rfl

theorem Node.setEdge_edge (n : Node) (d b : Bool) (x : Option NodeRef) :
    (n.setEdge d x).edge b = if d = b then x else n.edge b := by
  cases d <;> cases b <;> rfl

@[simp] theorem length_setEdges (es : List Edge) (x : Option NodeRef) (nodes : List Node) :
    (setEdges es x nodes).length = nodes.length := by
  induction es generalizing nodes with
  | nil => rfl
  | cons e es ih =>
    rw [setEdges, List.foldl_cons, ← setEdges, ih, List.length_modify]

@[simp] theorem nameAt_setEdges (es : List Edge) (x : Option NodeRef) (nodes : List Node) (i : ℕ) :
    nameAt (setEdges es x nodes) i = nameAt nodes i := by
  induction es generalizing nodes with
  | nil => rfl
  | cons e es ih =>
    rw [setEdges, List.foldl_cons, ← setEdges, ih, nameAt, nameAt, List.getElem?_modify]
    cases nodes[i]? with
    | none => rfl
    | some n => by_cases h : e.node = i <;> simp [h]

theorem edgeAt_modify (nodes : List Node) (e : Edge) (x : Option NodeRef) (i : ℕ) (b : Bool) :
    edgeAt (nodes.modify e.node fun n => n.setEdge e.direct x) i b =
      if e = ⟨b, i⟩ ∧ i < nodes.length then x else edgeAt nodes i b := by
  rw [edgeAt, edgeAt, List.getElem?_modify]
  by_cases hi : i < nodes.length
  · rw [List.getElem?_eq_getElem hi]
    obtain ⟨d, v⟩ := e
    by_cases hv : v = i
    · subst hv
      by_cases hd : d = b
      · subst hd; simp [Node.setEdge_edge, hi]
      · simp [Node.setEdge_edge, hd]
    · simp [hv]
  · rw [List.getElem?_eq_none (not_lt.1 hi)]
    simp [hi]

theorem edgeAt_setEdges (es : List Edge) (x : Option NodeRef) (nodes : List Node) (i : ℕ)
    (b : Bool) :
    edgeAt (setEdges es x nodes) i b =
      if ⟨b, i⟩ ∈ es ∧ i < nodes.length then x else edgeAt nodes i b := by
  induction es generalizing nodes with
  | nil => simp [setEdges]
  | cons e es ih =>
    rw [setEdges, List.foldl_cons, ← setEdges, ih, edgeAt_modify, List.length_modify]
    by_cases h₁ : (⟨b, i⟩ : Edge) ∈ es
    · by_cases hi : i < nodes.length <;> simp [h₁, hi]
    · by_cases h₂ : e = ⟨b, i⟩
      · simp [h₁, h₂]
      · have h₃ : ¬ (⟨b, i⟩ : Edge) = e := fun h => h₂ h.symm
        simp [h₁, h₂, h₃]

/-! ## Owed and settled edges -/

namespace CompileState

/-- The labels in use owe edges of existing nodes, and no edge is owed twice. -/
structure WF (σ : CompileState) : Prop where
  fresh : ∀ l, σ.labelCount ≤ l → σ.labels l = []
  range : ∀ l, ∀ e ∈ σ.labels l, e.node < σ.nodes.length
  disjoint : ∀ l l' e, e ∈ σ.labels l → e ∈ σ.labels l' → l = l'

/-- No label owes the edge. -/
def Settled (σ : CompileState) (e : Edge) : Prop :=
  e.node < σ.nodes.length ∧ ∀ l, e ∉ σ.labels l

/-- A later list of nodes: names are kept, and so are settled edges. -/
structure Future (σ : CompileState) (nodes : List Node) : Prop where
  length_le : σ.nodes.length ≤ nodes.length
  name : ∀ i < σ.nodes.length, nameAt nodes i = nameAt σ.nodes i
  settled : ∀ e, σ.Settled e → edgeAt nodes e.node e.direct = edgeAt σ.nodes e.node e.direct

/-- A later state of the same compilation. -/
structure Ext (σ σ' : CompileState) : Prop extends Future σ σ'.nodes where
  settled_mono : ∀ e, σ.Settled e → σ'.Settled e
  count_le : σ.labelCount ≤ σ'.labelCount

theorem Future.refl (σ : CompileState) : Future σ σ.nodes :=
  ⟨le_refl _, fun _ _ => rfl, fun _ _ => rfl⟩

theorem Ext.refl (σ : CompileState) : Ext σ σ :=
  ⟨Future.refl σ, fun _ h => h, le_refl _⟩

/-- The future of a later state is a future of the earlier one. -/
theorem Ext.future {σ σ' : CompileState} {nodes : List Node} (h : Ext σ σ')
    (h' : Future σ' nodes) : Future σ nodes := by
  refine ⟨h.length_le.trans h'.length_le, fun i hi => ?_, fun e he => ?_⟩
  · rw [h'.name i (lt_of_lt_of_le hi h.length_le), h.name i hi]
  · rw [h'.settled e (h.settled_mono e he), h.settled e he]

theorem Ext.trans {σ₁ σ₂ σ₃ : CompileState} (h : Ext σ₁ σ₂) (h' : Ext σ₂ σ₃) : Ext σ₁ σ₃ :=
  ⟨h.future h'.toFuture, fun e he => h'.settled_mono e (h.settled_mono e he),
    h.count_le.trans h'.count_le⟩

/-! ### The operations on labels -/

section Operations

variable {σ : CompileState}

@[simp] theorem newLabel_labelCount (σ : CompileState) :
    σ.newLabel.2.labelCount = σ.labelCount + 1 := rfl

theorem newLabel_labels (hσ : σ.WF) : σ.newLabel.2.labels = σ.labels := by
  funext l
  by_cases hl : l = σ.labelCount
  · subst hl
    rw [hσ.fresh _ (le_refl _)]
    simp [newLabel]
  · simp [newLabel, hl]

theorem WF.newLabel (hσ : σ.WF) : σ.newLabel.2.WF := by
  refine ⟨fun l hl => ?_, fun l e he => ?_, fun l l' e he he' => ?_⟩
  · rw [newLabel_labels hσ]
    exact hσ.fresh l (by rw [newLabel_labelCount] at hl; omega)
  · rw [newLabel_labels hσ] at he
    exact hσ.range l e he
  · rw [newLabel_labels hσ] at he he'
    exact hσ.disjoint l l' e he he'

theorem Ext.newLabel (hσ : σ.WF) : Ext σ σ.newLabel.2 := by
  refine ⟨⟨le_refl _, fun _ _ => rfl, fun _ _ => rfl⟩, fun e he => ⟨he.1, fun l => ?_⟩, ?_⟩
  · rw [newLabel_labels hσ]; exact he.2 l
  · simp

@[simp] theorem attach_labels (σ : CompileState) (l : ℕ) (x : Option NodeRef) :
    (σ.attach l x).labels = Function.update σ.labels l [] := rfl

@[simp] theorem attach_labelCount (σ : CompileState) (l : ℕ) (x : Option NodeRef) :
    (σ.attach l x).labelCount = σ.labelCount := rfl

theorem attach_nodes (σ : CompileState) (l : ℕ) (x : Option NodeRef) :
    (σ.attach l x).nodes = setEdges (σ.labels l) x σ.nodes := rfl

variable {l l' : ℕ} {e : Edge}

theorem mem_update_nil {f : ℕ → List Edge} (h : e ∈ Function.update f l [] l') :
    l' ≠ l ∧ e ∈ f l' := by
  by_cases hl : l' = l
  · subst hl; simp at h
  · rw [Function.update_of_ne hl] at h
    exact ⟨hl, h⟩

theorem WF.attach (hσ : σ.WF) (l : ℕ) (x : Option NodeRef) : (σ.attach l x).WF := by
  refine ⟨fun l' hl' => ?_, fun l' e he => ?_, fun l₁ l₂ e h₁ h₂ => ?_⟩
  · by_cases h : l' = l
    · subst h; simp
    · simp [h, hσ.fresh l' hl']
  · rw [attach_nodes, length_setEdges]
    exact hσ.range l' e (mem_update_nil he).2
  · exact hσ.disjoint l₁ l₂ e (mem_update_nil h₁).2 (mem_update_nil h₂).2

theorem Ext.attach (σ : CompileState) (l : ℕ) (x : Option NodeRef) : Ext σ (σ.attach l x) := by
  refine ⟨⟨by simp [attach_nodes], fun i _ => by simp [attach_nodes], fun e he => ?_⟩,
    fun e he => ⟨by simpa [attach_nodes] using he.1, fun l' h => ?_⟩, le_refl _⟩
  · rw [attach_nodes, edgeAt_setEdges, if_neg]
    exact fun h => he.2 l h.1
  · exact he.2 l' (mem_update_nil h).2

/-- Attaching settles the edges of the label, at the target. -/
theorem settled_attach (hσ : σ.WF) {l : ℕ} (he : e ∈ σ.labels l) (x : Option NodeRef) :
    (σ.attach l x).Settled e ∧ edgeAt (σ.attach l x).nodes e.node e.direct = x := by
  have hr := hσ.range l e he
  refine ⟨⟨by simpa [attach_nodes] using hr, fun l' h => ?_⟩, ?_⟩
  · obtain ⟨hne, h'⟩ := mem_update_nil h
    exact hne (hσ.disjoint l' l e h' he)
  · rw [attach_nodes, edgeAt_setEdges, if_pos ⟨he, hr⟩]

@[simp] theorem append_nodes (σ : CompileState) (l l' : ℕ) : (σ.append l l').nodes = σ.nodes := rfl

@[simp] theorem append_labelCount (σ : CompileState) (l l' : ℕ) :
    (σ.append l l').labelCount = σ.labelCount := rfl

theorem append_labels_fst (σ : CompileState) (h : l ≠ l') :
    (σ.append l l').labels l = σ.labels l ++ σ.labels l' := by
  simp [append, h]

@[simp] theorem append_labels_snd (σ : CompileState) (l l' : ℕ) :
    (σ.append l l').labels l' = [] := by
  simp [append]

theorem append_labels_of_ne (σ : CompileState) {l l' k : ℕ} (h : k ≠ l) (h' : k ≠ l') :
    (σ.append l l').labels k = σ.labels k := by
  simp [append, h, h']

/-- After an append, an edge is owed by the label it was owed by before, or it
has moved from the second label to the first. -/
theorem mem_append_labels {l l' k : ℕ} (hne : l ≠ l') (h : e ∈ (σ.append l l').labels k) :
    k ≠ l' ∧ (e ∈ σ.labels k ∨ k = l ∧ e ∈ σ.labels l') := by
  by_cases hk' : k = l'
  · subst hk'; simp at h
  · refine ⟨hk', ?_⟩
    by_cases hk : k = l
    · subst hk
      rw [append_labels_fst σ hne, List.mem_append] at h
      exact h.imp id fun h => ⟨rfl, h⟩
    · rw [append_labels_of_ne σ hk hk'] at h
      exact .inl h

theorem WF.append (hσ : σ.WF) (hl : l < σ.labelCount) (hne : l ≠ l') : (σ.append l l').WF := by
  refine ⟨fun k hk => ?_, fun k e he => ?_, fun k₁ k₂ e h₁ h₂ => ?_⟩
  · rw [append_labelCount] at hk
    by_cases hk' : k = l'
    · subst hk'; simp
    · rw [append_labels_of_ne σ (by omega) hk', hσ.fresh k hk]
  · rcases mem_append_labels hne he with ⟨-, h | ⟨-, h⟩⟩
    · exact hσ.range k e h
    · exact hσ.range l' e h
  · obtain ⟨hk₁, g₁⟩ := mem_append_labels hne h₁
    obtain ⟨hk₂, g₂⟩ := mem_append_labels hne h₂
    rcases g₁ with g₁ | ⟨hl₁, g₁⟩
    · rcases g₂ with g₂ | ⟨-, g₂⟩
      · exact hσ.disjoint k₁ k₂ e g₁ g₂
      · exact absurd (hσ.disjoint k₁ l' e g₁ g₂) hk₁
    · rcases g₂ with g₂ | ⟨hl₂, -⟩
      · exact absurd (hσ.disjoint k₂ l' e g₂ g₁) hk₂
      · rw [hl₁, hl₂]

theorem Ext.append (σ : CompileState) (hne : l ≠ l') : Ext σ (σ.append l l') := by
  refine ⟨⟨le_refl _, fun _ _ => rfl, fun _ _ => rfl⟩, fun e he => ⟨he.1, fun k h => ?_⟩, le_refl _⟩
  rcases mem_append_labels hne h with ⟨-, h | ⟨-, h⟩⟩
  · exact he.2 k h
  · exact he.2 l' h

/-- Create a node whose edges are owed by two labels, which may be the same. -/
def addNode (σ : CompileState) (str : String) (lt lf : ℕ) : CompileState :=
  { (σ.addEdge lt ⟨true, σ.nodes.length⟩).addEdge lf ⟨false, σ.nodes.length⟩ with
    nodes := σ.nodes ++ [⟨str, none, none⟩] }

@[simp] theorem addNode_nodes (σ : CompileState) (str : String) (lt lf : ℕ) :
    (σ.addNode str lt lf).nodes = σ.nodes ++ [⟨str, none, none⟩] := rfl

@[simp] theorem addNode_labelCount (σ : CompileState) (str : String) (lt lf : ℕ) :
    (σ.addNode str lt lf).labelCount = σ.labelCount := rfl

/-- The edges a label owes after a node has been created: those it owed before,
and its share of the edges of the new node. -/
theorem mem_addNode_labels {str : String} {lt lf l : ℕ} : e ∈ (σ.addNode str lt lf).labels l ↔
      e ∈ σ.labels l ∨ l = lt ∧ e = ⟨true, σ.nodes.length⟩ ∨
        l = lf ∧ e = ⟨false, σ.nodes.length⟩ := by
  simp only [addNode, addEdge, Function.update_apply]
  by_cases hf : l = lf <;> by_cases ht : l = lt <;> by_cases htf : lf = lt <;>
    simp_all

theorem addNode_labels_of_ne {str : String} {lt lf l : ℕ} (ht : l ≠ lt) (hf : l ≠ lf) :
    (σ.addNode str lt lf).labels l = σ.labels l := by
  simp [addNode, addEdge, ht, hf]

theorem subset_addNode_labels (σ : CompileState) (str : String) (lt lf l : ℕ) :
    σ.labels l ⊆ (σ.addNode str lt lf).labels l :=
  fun _ he => mem_addNode_labels.2 (.inl he)

theorem WF.addNode (hσ : σ.WF) (str : String) {lt lf : ℕ} (hlt : lt < σ.labelCount)
    (hlf : lf < σ.labelCount) : (σ.addNode str lt lf).WF := by
  refine ⟨fun l hl => ?_, fun l e he => ?_, fun l₁ l₂ e h₁ h₂ => ?_⟩
  · rw [addNode_labelCount] at hl
    rw [addNode_labels_of_ne (by omega) (by omega), hσ.fresh l hl]
  · rw [addNode_nodes, List.length_append]
    rcases mem_addNode_labels.1 he with h | ⟨-, rfl⟩ | ⟨-, rfl⟩
    · exact Nat.lt_add_right _ (hσ.range l e h)
    · simp
    · simp
  · -- an edge of the new node is owed by no label before
    have hnew : ∀ l b, (⟨b, σ.nodes.length⟩ : Edge) ∉ σ.labels l := fun l b h =>
      absurd (hσ.range l _ h) (lt_irrefl _)
    rcases mem_addNode_labels.1 h₁ with h₁ | ⟨rfl, rfl⟩ | ⟨rfl, rfl⟩
    · rcases mem_addNode_labels.1 h₂ with h₂ | ⟨-, rfl⟩ | ⟨-, rfl⟩
      · exact hσ.disjoint l₁ l₂ e h₁ h₂
      · exact absurd h₁ (hnew _ _)
      · exact absurd h₁ (hnew _ _)
    · rcases mem_addNode_labels.1 h₂ with h₂ | ⟨rfl, -⟩ | ⟨-, h⟩
      · exact absurd h₂ (hnew _ _)
      · rfl
      · simp at h
    · rcases mem_addNode_labels.1 h₂ with h₂ | ⟨-, h⟩ | ⟨rfl, -⟩
      · exact absurd h₂ (hnew _ _)
      · simp at h
      · rfl

theorem Ext.addNode (σ : CompileState) (str : String) (lt lf : ℕ) :
    Ext σ (σ.addNode str lt lf) := by
  refine ⟨⟨by simp, fun i hi => ?_, fun e he => ?_⟩, fun e he => ⟨?_, fun l h => ?_⟩, le_refl _⟩
  · rw [nameAt, nameAt, addNode_nodes, List.getElem?_append_left hi]
  · rw [edgeAt, edgeAt, addNode_nodes, List.getElem?_append_left he.1]
  · rw [addNode_nodes, List.length_append]
    exact Nat.lt_add_right _ he.1
  · rcases mem_addNode_labels.1 h with h | ⟨-, rfl⟩ | ⟨-, rfl⟩
    · exact he.2 l h
    · exact absurd he.1 (lt_irrefl _)
    · exact absurd he.1 (lt_irrefl _)

/-! ### Steps that change some labels only -/

/-- A step of the compilation: the store stays well formed, the state is a later
one, and of the labels there were, only those in `A` change. -/
structure Step (A : ℕ → Prop) (σ σ' : CompileState) : Prop where
  wf : σ'.WF
  ext : Ext σ σ'
  frame : ∀ l < σ.labelCount, ¬ A l → σ'.labels l = σ.labels l

theorem Step.trans {A B : ℕ → Prop} {σ₁ σ₂ σ₃ : CompileState} (h : Step A σ₁ σ₂)
    (h' : Step B σ₂ σ₃) : Step (fun l => A l ∨ B l) σ₁ σ₃ := by
  refine ⟨h'.wf, h.ext.trans h'.ext, fun l hl hn => ?_⟩
  rw [not_or] at hn
  rw [h'.frame l (lt_of_lt_of_le hl h.ext.count_le) hn.2, h.frame l hl hn.1]

/-- Only the labels that existed before matter. -/
theorem Step.mono {A B : ℕ → Prop} {σ σ' : CompileState} (h : Step A σ σ')
    (hAB : ∀ l < σ.labelCount, A l → B l) : Step B σ σ' :=
  ⟨h.wf, h.ext, fun l hl hn => h.frame l hl fun ha => hn (hAB l hl ha)⟩

theorem Step.refl (hσ : σ.WF) : Step (fun _ => False) σ σ :=
  ⟨hσ, Ext.refl σ, fun _ _ _ => rfl⟩

theorem Step.newLabel (hσ : σ.WF) : Step (fun _ => False) σ σ.newLabel.2 :=
  ⟨hσ.newLabel, Ext.newLabel hσ, fun l _ _ => by rw [newLabel_labels hσ]⟩

theorem Step.addNode (hσ : σ.WF) (str : String) {lt lf : ℕ} (hlt : lt < σ.labelCount)
    (hlf : lf < σ.labelCount) : Step (fun l => l = lt ∨ l = lf) σ (σ.addNode str lt lf) := by
  refine ⟨hσ.addNode str hlt hlf, Ext.addNode σ str lt lf, fun l _ hn => ?_⟩
  rw [not_or] at hn
  exact addNode_labels_of_ne hn.1 hn.2

theorem Step.attach (hσ : σ.WF) (l : ℕ) (x : Option NodeRef) :
    Step (fun k => k = l) σ (σ.attach l x) :=
  ⟨hσ.attach l x, Ext.attach σ l x, fun k _ hk => by simp [hk]⟩

theorem Step.append (hσ : σ.WF) (l l' : ℕ) (hl : l < σ.labelCount) (hne : l ≠ l') :
    Step (fun k => k = l ∨ k = l') σ (σ.append l l') := by
  refine ⟨hσ.append hl hne, Ext.append σ hne, fun k _ hn => ?_⟩
  rw [not_or] at hn
  exact append_labels_of_ne σ hn.1 hn.2

theorem nameAt_addNode (σ : CompileState) (str : String) (lt lf : ℕ) :
    nameAt (σ.addNode str lt lf).nodes σ.nodes.length = some str := by
  simp [nameAt]

/-- A new node has no edges yet. -/
theorem edgeAt_addNode (σ : CompileState) (str : String) (lt lf i : ℕ) (b : Bool) :
    edgeAt (σ.addNode str lt lf).nodes i b = edgeAt σ.nodes i b := by
  rw [edgeAt, edgeAt, addNode_nodes]
  rcases Nat.lt_trichotomy i σ.nodes.length with hi | rfl | hi
  · rw [List.getElem?_append_left hi]
  · cases b <;> simp
  · rw [List.getElem?_eq_none (by simp; omega), List.getElem?_eq_none (by omega)]

end Operations

end CompileState

end Rtp.Workflow
