import Rtp.Framework.Buildable

/-!
# Execution graphs on the heap

In `ExecutionGraph` a successor is the name under which a node is filed.  In the source it
is a pointer, and which graph it leads into is a question.  Here nodes are allocated on a
heap and pointers are addresses; `BuildNode` and `BuildGraph` are run on it.

* `HeapGraph`, `HeapGraph.buildNode`, `HeapGraph.buildGraph` — the functions of the source
  with pointers.
* `Holds` — a graph on the heap that holds an `ExecutionGraph`: every name is filed with the
  address of a node that matches, and every successor that is a name is the address under
  that name.
* `buildNode_holds` — **the construction on the heap follows the construction with names.**
* `Wired` — every pointer in a graph leads to the end node or to a node that the graph has
  filed under its own name; `wired_buildGraph` — what `BuildGraph` returns is so.
-/

namespace Rtp.Framework

open Workflow

/-- A non-null `ExecutionNode*`: the static `ExecutionNode::EndNode()`, or a node on the
heap. -/
inductive NodePtr where
  | endNode
  | node (address : ℕ)
  deriving DecidableEq, Repr

/-- An `ExecutionNode` with its pointers. -/
structure HeapNode where
  name : String
  trueNext : Option NodePtr
  falseNext : Option NodePtr
  handler : Option String
  deriving DecidableEq, Repr

/-- The successor on the result `b`. -/
def HeapNode.next (n : HeapNode) (b : Bool) : Option NodePtr :=
  if b then n.trueNext else n.falseNext

/-- The nodes that have been allocated; the address of a node is its place. -/
abbrev Heap : Type := List HeapNode

/-- An `ExecutionGraph` that files the addresses of its nodes.  A name may be filed with
the null pointer. -/
structure HeapGraph where
  name : String
  version : BitVec 32
  entry : Option NodePtr
  nodes : AList (fun _ : String => Option ℕ)

namespace HeapGraph

/-- `ExecutionGraph(name)`.  The version is what happens to be there. -/
def new (name : String) (version : BitVec 32) : HeapGraph := ⟨name, version, none, ∅⟩

/-- `ExecutionGraph::AddNode`. -/
def addNode (hg : HeapGraph) (name : String) (address : ℕ) : HeapGraph :=
  { hg with nodes := hg.nodes.insert name (some address) }

/-- `ExecutionGraph::GetNode`. -/
def getNode (hg : HeapGraph) (name : String) : Option ℕ := (hg.nodes.lookup name).join

variable {hg hg' : HeapGraph} {nm nm' : String} {a : ℕ}

@[simp] theorem getNode_addNode_self : (hg.addNode nm a).getNode nm = some a := by
  rw [getNode, addNode, AList.lookup_insert]
  rfl

theorem getNode_addNode_of_ne (h : nm' ≠ nm) : (hg.addNode nm a).getNode nm' = hg.getNode nm' := by
  rw [getNode, addNode, AList.lookup_insert_ne h, getNode]

section Build

variable (getHandler : String → Bool) (g : Graph)

/-- `ExecutionGraphMgr::BuildNode`. -/
def buildNode : ℕ → Option NodeRef → Heap → HeapGraph →
    Except BuildFault (Option NodePtr × Heap × HeapGraph)
  | _, some .endNode, heap, hg => .ok (some .endNode, heap, hg)
  | 0, _, _, _ => .error .outOfFuel
  | _, none, _, _ => .error .nullNode
  | fuel + 1, some (.node i), heap, hg =>
    match g.nodes[i]? with
    | none => .error .nullNode
    | some node =>
      match hg.getNode node.name with
      | some a => .ok (some (.node a), heap, hg)
      | none =>
        if getHandler node.name then do
          let r := heap.length
          let (trueNext, heap, hg) ← buildNode fuel node.trueEdge
            (heap ++ [⟨node.name, none, none, none⟩]) (hg.addNode node.name r)
          if trueNext.isNone then return (none, heap, hg)
          let (falseNext, heap, hg) ← buildNode fuel node.falseEdge heap hg
          if falseNext.isNone then return (none, heap, hg)
          return (some (.node r),
            heap.modify r fun n => { n with
              trueNext := trueNext
              falseNext := falseNext
              handler := some node.name }, hg)
        else .ok (none, heap, hg)

/-- `ExecutionGraphMgr::BuildGraph`; the inner `none` is the null pointer. -/
def buildGraph (version : BitVec 32) (heap : Heap) :
    Except BuildFault (Option (Heap × HeapGraph)) := do
  let (entry, heap, hg) ← buildNode getHandler g (g.nodes.length + 1) g.entry heap
    (.new g.name version)
  if entry.isNone then return none
  return some (heap, { hg with entry := entry })

end Build

end HeapGraph

/-! ## The heap holds an execution graph -/

/-- A pointer leads to the node with a name. -/
inductive Leads (hg : HeapGraph) : Option NodePtr → Option ExecRef → Prop
  | null : Leads hg none none
  | endNode : Leads hg (some .endNode) (some .endNode)
  | node {nm : String} {a : ℕ} : hg.getNode nm = some a →
      Leads hg (some (.node a)) (some (.node nm))

/-- A node on the heap and the node that it holds. -/
structure Matches (hg : HeapGraph) (n : HeapNode) (m : ExecutionNode) : Prop where
  name : n.name = m.name
  handler : n.handler = m.handler
  next : ∀ b, Leads hg (n.next b) (m.next b)

/-- A graph on the heap holds an execution graph. -/
structure Holds (heap : Heap) (hg : HeapGraph) (eg : ExecutionGraph) : Prop where
  name_eq : hg.name = eg.name
  full : ∀ nm, hg.nodes.lookup nm ≠ some none
  absent : ∀ nm, hg.getNode nm = none → eg.getNode nm = none
  node : ∀ nm a, hg.getNode nm = some a →
    ∃ n m, heap[a]? = some n ∧ eg.getNode nm = some m ∧ n.name = nm ∧ Matches hg n m

/-- Everything that was filed is still filed. -/
def HeapGraph.Keeps (hg hg' : HeapGraph) : Prop :=
  ∀ nm a, hg.getNode nm = some a → hg'.getNode nm = some a

section Holds

variable {heap heap' : Heap} {hg hg' : HeapGraph} {eg eg' : ExecutionGraph} {nm : String} {a : ℕ}

theorem Leads.mono {p : Option NodePtr} {x : Option ExecRef} (h : Leads hg p x)
    (hk : hg.Keeps hg') : Leads hg' p x := by
  cases h with
  | null => exact .null
  | endNode => exact .endNode
  | node ha => exact .node (hk _ _ ha)

theorem Matches.mono {n : HeapNode} {m : ExecutionNode} (h : Matches hg n m)
    (hk : hg.Keeps hg') : Matches hg' n m :=
  ⟨h.name, h.handler, fun b => (h.next b).mono hk⟩

theorem Holds.new (heap : Heap) (name : String) (version : BitVec 32) :
    Holds heap (.new name version) (.new name) where
  name_eq := rfl
  full := by simp [HeapGraph.new]
  absent := by simp
  node := by simp [HeapGraph.new, HeapGraph.getNode]

/-- No two names are filed with the same node. -/
theorem Holds.name_eq_of_address (h : Holds heap hg eg) {nm' : String}
    (ha : hg.getNode nm = some a) (ha' : hg.getNode nm' = some a) : nm = nm' := by
  obtain ⟨n, _, hn, _, hname, _⟩ := h.node nm a ha
  obtain ⟨n', _, hn', _, hname', _⟩ := h.node nm' a ha'
  rw [← hname, ← hname', Option.some.inj (hn.symm.trans hn')]

theorem HeapGraph.keeps_addNode (hnone : hg.getNode nm = none) : hg.Keeps (hg.addNode nm a) := by
  intro k b hk
  have hne : k ≠ nm := by
    rintro rfl
    rw [hnone] at hk
    simp at hk
  rwa [getNode_addNode_of_ne hne]

/-- A new node without successors. -/
theorem Holds.addNode (h : Holds heap hg eg) (hnone : hg.getNode nm = none) :
    Holds (heap ++ [⟨nm, none, none, none⟩]) (hg.addNode nm heap.length)
      (eg.addNode nm ⟨nm, none, none, none⟩) where
  name_eq := h.name_eq
  full := by
    intro k
    by_cases hk : k = nm
    · subst hk
      simp [HeapGraph.addNode]
    · rw [HeapGraph.addNode, AList.lookup_insert_ne hk]
      exact h.full k
  absent := by
    intro k hk
    have hne : k ≠ nm := by
      rintro rfl
      simp at hk
    rw [HeapGraph.getNode_addNode_of_ne hne] at hk
    rw [ExecutionGraph.getNode_addNode_of_ne _ _ hne]
    exact h.absent k hk
  node := by
    intro k a hk
    by_cases hne : k = nm
    · subst hne
      rw [HeapGraph.getNode_addNode_self, Option.some.injEq] at hk
      subst hk
      refine ⟨⟨k, none, none, none⟩, _, by simp, ExecutionGraph.getNode_addNode_self .., rfl,
        rfl, rfl, fun b => ?_⟩
      cases b <;> exact .null
    · rw [HeapGraph.getNode_addNode_of_ne hne] at hk
      obtain ⟨n, m, hn, hm, hname, hmatch⟩ := h.node k a hk
      refine ⟨n, m, ?_, ?_, hname, hmatch.mono (HeapGraph.keeps_addNode hnone)⟩
      · rw [List.getElem?_append_left (List.getElem?_eq_some_iff.mp hn).1, hn]
      · rw [ExecutionGraph.getNode_addNode_of_ne _ _ hne, hm]

/-- A node gets its handler and its successors. -/
theorem Holds.setNode (h : Holds heap hg eg) (ha : hg.getNode nm = some a)
    {t f : Option NodePtr} {x y : Option ExecRef} (ht : Leads hg t x) (hf : Leads hg f y) :
    Holds (heap.modify a fun n => { n with trueNext := t, falseNext := f, handler := some nm }) hg
      (eg.addNode nm ⟨nm, x, y, some nm⟩) where
  name_eq := h.name_eq
  full := h.full
  absent := by
    intro k hk
    have hne : k ≠ nm := by
      rintro rfl
      rw [ha] at hk
      simp at hk
    rw [ExecutionGraph.getNode_addNode_of_ne _ _ hne]
    exact h.absent k hk
  node := by
    intro k b hk
    obtain ⟨n, m, hn, hm, hname, hmatch⟩ := h.node k b hk
    by_cases hne : k = nm
    · subst hne
      obtain rfl : a = b := Option.some.inj (ha.symm.trans hk)
      refine ⟨{ n with trueNext := t, falseNext := f, handler := some k }, _, ?_,
        ExecutionGraph.getNode_addNode_self .., hname, hname, rfl, fun b => ?_⟩
      · rw [List.getElem?_modify_eq, hn, Option.map_eq_map, Option.map_some]
      · cases b with
        | true => exact ht
        | false => exact hf
    · have hab : a ≠ b := by
        rintro rfl
        exact hne (h.name_eq_of_address hk ha)
      refine ⟨n, m, ?_, ?_, hname, hmatch⟩
      · rw [List.getElem?_modify_ne _ _ hab, hn]
      · rw [ExecutionGraph.getNode_addNode_of_ne _ _ hne, hm]

end Holds

/-! ## The construction -/

section Build

variable {getHandler : String → Bool} {g : Graph} {e : NodeRef} {heap : Heap} {hg : HeapGraph}
  {eg eg' : ExecutionGraph} {x : ExecRef} {fuel i : ℕ}

/-- What a call of `buildNode` on a node has done when it returns a node. -/
theorem buildNode_cases {node : Node} (hi : g.nodes[i]? = some node)
    (h : buildNode getHandler g (fuel + 1) (some (.node i)) eg = .ok (some x, eg')) :
    x = .node node.name ∧
    ((∃ m, eg.getNode node.name = some m ∧ eg' = eg) ∨
      eg.getNode node.name = none ∧ getHandler node.name = true ∧
        ∃ t eg₁ f eg₂,
          buildNode getHandler g fuel node.trueEdge
            (eg.addNode node.name ⟨node.name, none, none, none⟩) = .ok (some t, eg₁) ∧
          buildNode getHandler g fuel node.falseEdge eg₁ = .ok (some f, eg₂) ∧
          eg' = eg₂.addNode node.name ⟨node.name, some t, some f, some node.name⟩) := by
  rw [buildNode] at h
  simp only [hi] at h
  cases hget : eg.getNode node.name with
  | some m =>
    simp only [hget, Except.ok.injEq, Prod.mk.injEq, Option.some.injEq] at h
    exact ⟨h.1.symm, .inl ⟨m, rfl, h.2.symm⟩⟩
  | none =>
    simp only [hget] at h
    split at h
    · next hhandler =>
      cases ht : buildNode getHandler g fuel node.trueEdge
          (eg.addNode node.name ⟨node.name, none, none, none⟩) with
      | error fault => simp [ht, bind, Except.bind] at h
      | ok r =>
        obtain ⟨t, eg₁⟩ := r
        cases t with
        | none => simp [ht, bind, Except.bind, pure, Except.pure] at h
        | some t =>
          cases hf : buildNode getHandler g fuel node.falseEdge eg₁ with
          | error fault => simp [ht, hf, bind, Except.bind] at h
          | ok r =>
            obtain ⟨f, eg₂⟩ := r
            cases f with
            | none => simp [ht, hf, bind, Except.bind, pure, Except.pure] at h
            | some f =>
              simp only [ht, hf, bind, Except.bind, pure, Except.pure, Option.isNone_some,
                Bool.false_eq_true, if_false, Except.ok.injEq, Prod.mk.injEq,
                Option.some.injEq] at h
              exact ⟨h.1.symm, .inr ⟨rfl, hhandler, t, eg₁, f, eg₂, rfl, hf, h.2.symm⟩⟩
    · simp at h

/-- The end node is not built. -/
theorem buildNode_endNode_holds
    (h : buildNode getHandler g fuel (some .endNode) eg = .ok (some x, eg'))
    (hs : Holds heap hg eg) :
    ∃ p heap' hg', HeapGraph.buildNode getHandler g fuel (some .endNode) heap hg =
        .ok (some p, heap', hg') ∧
      Holds heap' hg' eg' ∧ Leads hg' (some p) (some x) ∧ hg.Keeps hg' := by
  obtain ⟨rfl, rfl⟩ : ExecRef.endNode = x ∧ eg = eg' := by
    cases fuel <;> simpa [buildNode] using h
  refine ⟨.endNode, heap, hg, ?_, hs, .endNode, fun _ _ hk => hk⟩
  cases fuel <;> rfl

/-- **The construction on the heap follows the construction with names**: where that
returns a node, this returns a pointer to it. -/
theorem buildNode_holds {v : Option NodeRef}
    (h : buildNode getHandler g fuel v eg = .ok (some x, eg')) (hs : Holds heap hg eg) :
    ∃ p heap' hg', HeapGraph.buildNode getHandler g fuel v heap hg = .ok (some p, heap', hg') ∧
      Holds heap' hg' eg' ∧ Leads hg' (some p) (some x) ∧ hg.Keeps hg' := by
  induction fuel generalizing v heap hg eg x eg' with
  | zero =>
    rcases v with _ | (_ | i)
    · simp [buildNode] at h
    · exact buildNode_endNode_holds h hs
    · simp [buildNode] at h
  | succ fuel ih =>
    rcases v with _ | (_ | i)
    · simp [buildNode] at h
    · exact buildNode_endNode_holds h hs
    · cases hi : g.nodes[i]? with
      | none => simp [buildNode, hi] at h
      | some node =>
        obtain ⟨rfl, ⟨m, hm, rfl⟩ | ⟨hnone, hhandler, t, eg₁, f, eg₂, ht, hf, rfl⟩⟩ :=
          buildNode_cases hi h
        · -- the name is filed already
          cases ha : hg.getNode node.name with
          | none =>
            rw [hs.absent _ ha] at hm
            simp at hm
          | some a =>
            refine ⟨.node a, heap, hg, ?_, hs, .node ha, fun _ _ hk => hk⟩
            simp only [HeapGraph.buildNode, hi, ha]
        · -- a new node, the call along the true edge, the call along the false edge
          have ha : hg.getNode node.name = none := by
            cases ha : hg.getNode node.name with
            | none => rfl
            | some a =>
              obtain ⟨_, m, _, hm, _⟩ := hs.node _ a ha
              rw [hnone] at hm
              simp at hm
          obtain ⟨p, heap₁, hg₁, h₁, hs₁, hp, hk₁⟩ := ih ht (hs.addNode ha)
          obtain ⟨q, heap₂, hg₂, h₂, hs₂, hq, hk₂⟩ := ih hf hs₁
          have hr : hg₂.getNode node.name = some heap.length :=
            hk₂ _ _ (hk₁ _ _ HeapGraph.getNode_addNode_self)
          refine ⟨.node heap.length, _, hg₂, ?_, hs₂.setNode hr (hp.mono hk₂) hq, .node hr, ?_⟩
          · simp only [HeapGraph.buildNode, hi, ha, hhandler, if_true, h₁, h₂, bind, Except.bind]
            rfl
          · exact fun k b hk => hk₂ _ _ (hk₁ _ _ (HeapGraph.keeps_addNode ha _ _ hk))

/-! ## What BuildGraph returns -/

/-- Every pointer in a graph leads to the end node or to a node that the graph has filed
under its own name. -/
structure Wired (heap : Heap) (hg : HeapGraph) : Prop where
  entry : ∃ nm a, hg.entry = some (.node a) ∧ hg.getNode nm = some a
  full : ∀ nm, hg.nodes.lookup nm ≠ some none
  node : ∀ nm a, hg.getNode nm = some a → ∃ n, heap[a]? = some n ∧ n.name = nm ∧
    ∀ b, n.next b = some .endNode ∨ ∃ k c, n.next b = some (.node c) ∧ hg.getNode k = some c

/-- The call of `BuildNode` that `BuildGraph` makes. -/
theorem buildNode_of_buildGraph (h : buildGraph getHandler g = .ok (some eg))
    (hx : eg.entry = some x) :
    ∃ eg₀, buildNode getHandler g (g.nodes.length + 1) g.entry (.new g.name) = .ok (some x, eg₀) ∧
      eg = { eg₀ with entry := some x } := by
  rw [buildGraph] at h
  cases hnode : buildNode getHandler g (g.nodes.length + 1) g.entry (.new g.name) with
  | error fault => simp [hnode, bind, Except.bind] at h
  | ok r =>
    obtain ⟨entry, eg₀⟩ := r
    cases entry with
    | none => simp [hnode, bind, Except.bind, pure, Except.pure] at h
    | some y =>
      simp only [hnode, bind, Except.bind, pure, Except.pure, Option.isNone_some,
        Bool.false_eq_true, if_false, Except.ok.injEq, Option.some.injEq] at h
      subst h
      obtain rfl : y = x := Option.some.inj hx
      exact ⟨eg₀, rfl, rfl⟩

/-- **What `BuildGraph` returns is wired.** -/
theorem wired_buildGraph (hv : g.Valid e) (hh : ∀ n ∈ g.nodes, getHandler n.name = true)
    (version : BitVec 32) (heap : Heap) :
    ∃ heap' hg, HeapGraph.buildGraph getHandler g version heap = .ok (some (heap', hg)) ∧
      Wired heap' hg := by
  obtain ⟨eg, x, hbuild, hfrom⟩ := buildGraph_spec hv hh
  obtain ⟨eg₀, hnode, rfl⟩ := buildNode_of_buildGraph hbuild hfrom.entry_eq
  obtain ⟨p, heap', hg, hheap, hs, hp, _⟩ := buildNode_holds hnode (.new heap g.name version)
  refine ⟨heap', { hg with entry := some p }, ?_, ?_, hs.full, fun nm a ha => ?_⟩
  · rw [HeapGraph.buildGraph, hheap]
    rfl
  · obtain ⟨i, hi, rfl⟩ := hv.entry_mem
    have hx := hfrom.entry
    rw [toExec, List.getElem?_eq_getElem hi, Option.map_some, Option.some.injEq] at hx
    subst hx
    cases hp with
    | node ha => exact ⟨_, _, rfl, ha⟩
  · obtain ⟨n, m, hn, hm, hname, hmatch⟩ := hs.node nm a ha
    obtain ⟨_, ⟨i, hst⟩, _⟩ := hfrom.node nm m hm
    refine ⟨n, hn, hname, fun b => ?_⟩
    have hleads := hmatch.next b
    have hne := hst.next_ne_none hv b
    generalize n.next b = q at hleads ⊢
    generalize m.next b = y at hleads hne
    cases hleads with
    | null => exact absurd rfl hne
    | endNode => exact .inl rfl
    | node hk => exact .inr ⟨_, _, rfl, hk⟩

end Build

end Rtp.Framework
