import Mathlib.Algebra.Group.Nat.Defs
import Rtp.Framework.HeapGraph
import Rtp.Workflow.Traverse

/-!
# Cloning an execution graph

The model of `ExecutionNode::Clone` and `ExecutionGraph::Clone`.  The nodes are cloned
without their successors and filed under the same names; then the successors are set, each
by the name of the successor of the original.  A name that is not filed is filed with the
null pointer by the very act of looking it up.

* `HeapGraph.slot` — `nodes_[name]`; `HeapGraph.clone` — `Clone`, for any order in which the
  nodes are gone through.
* `Copied` — the clones of the nodes, all at new addresses; `cloneNodes_copied`.
* `Relinked` — what a successor becomes; `linkNodes_relinked`.
* `IsClone` — a clone: the same names, and the same successors by name.
* `clone_of_wired` — a wired graph has a clone, and `clone_buildGraph` — **so has every
  graph that `BuildGraph` returns for a valid workflow graph.**
* `clonesFrom_apart` — the clones of a pool share no node.
-/

namespace Rtp.Framework

open Workflow

/-- `ExecutionNode::Clone`, with `none` for the null pointer. -/
def HeapNode.clone (getHandler : String → Bool) (n : HeapNode) : Option HeapNode :=
  if getHandler n.name then some ⟨n.name, none, none, some n.name⟩ else none

/-- `set_true_next` and `set_false_next`. -/
def HeapNode.setNext (b : Bool) (next : Option NodePtr) (n : HeapNode) : HeapNode :=
  if b then { n with trueNext := next } else { n with falseNext := next }

@[simp] theorem HeapNode.name_setNext (b : Bool) (next : Option NodePtr) (n : HeapNode) :
    (n.setNext b next).name = n.name := by
  cases b <;> rfl

@[simp] theorem HeapNode.handler_setNext (b : Bool) (next : Option NodePtr) (n : HeapNode) :
    (n.setNext b next).handler = n.handler := by
  cases b <;> rfl

namespace HeapGraph

/-- `nodes_.emplace`: a name that is filed already stays as it is. -/
def emplace (hg : HeapGraph) (name : String) (address : ℕ) : HeapGraph :=
  match hg.nodes.lookup name with
  | some _ => hg
  | none => hg.addNode name address

/-- `nodes_[name].get()`. -/
def slot (hg : HeapGraph) (name : String) : Option ℕ × HeapGraph :=
  match hg.nodes.lookup name with
  | some entry => (entry, hg)
  | none => (none, { hg with nodes := hg.nodes.insert name none })

/-- The node that is filed under a name. -/
def nodeOf (hg : HeapGraph) (heap : Heap) (name : String) : Option HeapNode :=
  (hg.getNode name).bind fun a => heap[a]?

/-- The first loop of `Clone`, with `none` for its return of the null pointer. -/
def cloneNodes (getHandler : String → Bool) (hg : HeapGraph) :
    List String → Heap → HeapGraph → Except BuildFault (Option (Heap × HeapGraph))
  | [], heap, cl => .ok (some (heap, cl))
  | nm :: order, heap, cl =>
    match hg.nodeOf heap nm with
    | none => .error .nullNode
    | some n =>
      match n.clone getHandler with
      | none => .ok none
      | some new => cloneNodes getHandler hg order (heap ++ [new]) (cl.emplace nm heap.length)

/-- One successor of the node `nm` of the clone: the end node, or what the clone has filed
under the name of the successor of the original. -/
def linkNext (heap : Heap) (cl : HeapGraph) (nm : String) (b : Bool) (next : Option NodePtr) :
    Except BuildFault (Heap × HeapGraph) :=
  match next with
  | none => .error .nullNode
  | some .endNode =>
    match cl.slot nm with
    | (none, _) => .error .nullNode
    | (some a, cl) => .ok (heap.modify a (HeapNode.setNext b (some .endNode)), cl)
  | some (.node c) =>
    match heap[c]? with
    | none => .error .nullNode
    | some target =>
      match cl.slot target.name with
      | (found, cl) =>
        match cl.slot nm with
        | (none, _) => .error .nullNode
        | (some a, cl) => .ok (heap.modify a (HeapNode.setNext b (found.map .node)), cl)

/-- The second loop of `Clone`. -/
def linkNodes (hg : HeapGraph) :
    List String → Heap → HeapGraph → Except BuildFault (Heap × HeapGraph)
  | [], heap, cl => .ok (heap, cl)
  | nm :: order, heap, cl =>
    match hg.nodeOf heap nm with
    | none => .error .nullNode
    | some n => do
      let (heap, cl) ← linkNext heap cl nm true n.trueNext
      let (heap, cl) ← linkNext heap cl nm false n.falseNext
      linkNodes hg order heap cl

/-- The name of a node.  The end node has one too. -/
def ptrName (heap : Heap) : NodePtr → Option String
  | .endNode => some "end_node"
  | .node a => (heap[a]?).map HeapNode.name

/-- `ExecutionGraph::Clone`, which goes through the nodes in the order of the map, twice.
The inner `none` is the null pointer. -/
def clone (getHandler : String → Bool) (order : List String) (hg : HeapGraph) (heap : Heap) :
    Except BuildFault (Option (Heap × HeapGraph)) := do
  match ← cloneNodes getHandler hg order heap (.new hg.name 0) with
  | none => return none
  | some (heap, cl) =>
    let (heap, cl) ← linkNodes hg order heap cl
    match hg.entry.bind (ptrName heap) with
    | none => throw .nullNode
    | some name =>
      let (found, cl) := cl.slot name
      return some (heap, { cl with version := hg.version, entry := found.map .node })

end HeapGraph

/-! ## The clones of the nodes -/

/-- After the first loop over the names `done`: the heap as it was is still there, and each
of the names is filed with a new node that has it. -/
structure Copied (heap₀ heap : Heap) (cl : HeapGraph) (done : List String) : Prop where
  kept : heap₀ <+: heap
  node : ∀ nm ∈ done, ∃ a n, cl.nodes.lookup nm = some (some a) ∧ heap₀.length ≤ a ∧
    heap[a]? = some n ∧ n.name = nm ∧ n.handler = some nm
  absent : ∀ nm ∉ done, cl.nodes.lookup nm = none

section Copied

variable {heap₀ heap heap' : Heap} {hg cl : HeapGraph} {done order : List String}
  {getHandler : String → Bool} {nm : String} {a : ℕ}

theorem Copied.new (heap : Heap) (name : String) (version : BitVec 32) :
    Copied heap heap (.new name version) [] where
  kept := List.prefix_rfl
  node := by simp
  absent := by simp [HeapGraph.new]

theorem getElem?_of_prefix {n : HeapNode} (h : heap <+: heap') (ha : heap[a]? = some n) :
    heap'[a]? = some n := by
  obtain ⟨rest, rfl⟩ := h
  rw [List.getElem?_append_left (List.getElem?_eq_some_iff.mp ha).1, ha]

/-- The nodes of the original are still there. -/
theorem Copied.nodeOf (h : Copied heap₀ heap cl done) {n : HeapNode}
    (hn : hg.nodeOf heap₀ nm = some n) : hg.nodeOf heap nm = some n := by
  obtain ⟨a, ha, hn⟩ := Option.bind_eq_some_iff.mp hn
  exact Option.bind_eq_some_iff.mpr ⟨a, ha, getElem?_of_prefix h.kept hn⟩

/-- One more clone. -/
theorem Copied.emplace (h : Copied heap₀ heap cl done) (hnm : nm ∉ done) :
    Copied heap₀ (heap ++ [⟨nm, none, none, some nm⟩]) (cl.emplace nm heap.length)
      (done ++ [nm]) := by
  have heq : cl.emplace nm heap.length = cl.addNode nm heap.length := by
    rw [HeapGraph.emplace, h.absent nm hnm]
  rw [heq]
  refine ⟨h.kept.trans (List.prefix_append ..), fun k hk => ?_, fun k hk => ?_⟩
  · rcases List.mem_append.mp hk with hk | hk
    · obtain ⟨a, n, ha, hle, hn, hname, hhandler⟩ := h.node k hk
      refine ⟨a, n, ?_, hle, ?_, hname, hhandler⟩
      · have hne : k ≠ nm := fun hkn => hnm (hkn ▸ hk)
        rw [HeapGraph.addNode, AList.lookup_insert_ne hne, ha]
      · rw [List.getElem?_append_left (List.getElem?_eq_some_iff.mp hn).1, hn]
    · rw [List.mem_singleton] at hk
      subst hk
      refine ⟨heap.length, _, ?_, h.kept.length_le, List.getElem?_concat_length, rfl, rfl⟩
      rw [HeapGraph.addNode, AList.lookup_insert]
  · rw [List.mem_append, List.mem_singleton, not_or] at hk
    rw [HeapGraph.addNode, AList.lookup_insert_ne hk.2]
    exact h.absent k hk.1

/-- The loop clones every node. -/
theorem cloneNodes_copied (h : Copied heap₀ heap cl done) (hnodup : (done ++ order).Nodup)
    (hnode : ∀ nm ∈ order, ∃ n, hg.nodeOf heap₀ nm = some n ∧ n.name = nm)
    (hhandler : ∀ nm ∈ order, getHandler nm = true) :
    ∃ heap' cl', HeapGraph.cloneNodes getHandler hg order heap cl = .ok (some (heap', cl')) ∧
      Copied heap₀ heap' cl' (done ++ order) ∧ cl'.name = cl.name := by
  induction order generalizing heap cl done with
  | nil => exact ⟨heap, cl, rfl, by rwa [List.append_nil], rfl⟩
  | cons nm order ih =>
    obtain ⟨n, hn, hname⟩ := hnode nm List.mem_cons_self
    have hnm : nm ∉ done := fun hmem =>
      List.disjoint_of_nodup_append hnodup hmem List.mem_cons_self
    have hsplit : done ++ nm :: order = done ++ [nm] ++ order := by simp
    have hclone : n.clone getHandler = some ⟨nm, none, none, some nm⟩ := by
      rw [HeapNode.clone, hname, if_pos (hhandler nm List.mem_cons_self)]
    rw [hsplit] at hnodup ⊢
    obtain ⟨heap', cl', hloop, hcopied, hcl⟩ := ih (h.emplace hnm) hnodup
      (fun k hk => hnode k (List.mem_cons_of_mem _ hk))
      (fun k hk => hhandler k (List.mem_cons_of_mem _ hk))
    refine ⟨heap', cl', ?_, hcopied, ?_⟩
    · simp only [HeapGraph.cloneNodes, h.nodeOf hn, hclone, hloop]
    · rw [hcl, HeapGraph.emplace, h.absent nm hnm]
      rfl

end Copied

/-! ## The successors -/

/-- What the successor of an original becomes: the end node, or the node that the clone has
filed under its name. -/
inductive Relinked (heap₀ : Heap) (cl : HeapGraph) : Option NodePtr → Option NodePtr → Prop
  | endNode : Relinked heap₀ cl (some .endNode) (some .endNode)
  | node {a c : ℕ} {n : HeapNode} : heap₀[a]? = some n → cl.getNode n.name = some c →
      Relinked heap₀ cl (some (.node a)) (some (.node c))

section Link

variable {heap₀ heap heap' : Heap} {hg cl : HeapGraph} {keys done order : List String}
  {nm nm' : String} {a : ℕ}

theorem getNode_of_lookup (h : cl.nodes.lookup nm = some (some a)) : cl.getNode nm = some a := by
  rw [HeapGraph.getNode, h]
  rfl

theorem slot_of_lookup (h : cl.nodes.lookup nm = some (some a)) : cl.slot nm = (some a, cl) := by
  rw [HeapGraph.slot, h]

/-- Version and entry have no part in it. -/
theorem Relinked.withEntry {p q entry : Option NodePtr} {version : BitVec 32}
    (h : Relinked heap₀ cl p q) :
    Relinked heap₀ { cl with version := version, entry := entry } p q := by
  cases h with
  | endNode => exact .endNode
  | node hn hc => exact .node hn hc

/-- No two names of the clone are filed with the same node. -/
theorem Copied.name_eq_of_address (h : Copied heap₀ heap cl keys) (hnm : nm ∈ keys)
    (hnm' : nm' ∈ keys) (ha : cl.nodes.lookup nm = some (some a))
    (ha' : cl.nodes.lookup nm' = some (some a)) : nm = nm' := by
  obtain ⟨b, n, hb, _, hn, hname, _⟩ := h.node nm hnm
  obtain ⟨b', n', hb', _, hn', hname', _⟩ := h.node nm' hnm'
  rw [ha, Option.some.injEq, Option.some.injEq] at hb
  rw [ha', Option.some.injEq, Option.some.injEq] at hb'
  subst hb hb'
  rw [← hname, ← hname', Option.some.inj (hn.symm.trans hn')]

/-- A change to the successors of a new node. -/
theorem Copied.setNext (h : Copied heap₀ heap cl keys) (hle : heap₀.length ≤ a) (b : Bool)
    (q : Option NodePtr) : Copied heap₀ (heap.modify a (HeapNode.setNext b q)) cl keys where
  kept := by
    refine List.prefix_iff_getElem?.mpr fun i hi => ?_
    rw [List.getElem?_modify_ne _ _ (by omega),
      getElem?_of_prefix h.kept (List.getElem?_eq_getElem hi)]
  node := by
    intro nm hnm
    obtain ⟨c, n, hc, hle, hn, hname, hhandler⟩ := h.node nm hnm
    by_cases hac : a = c
    · subst hac
      refine ⟨a, n.setNext b q, hc, hle, ?_, by simpa using hname, by simpa using hhandler⟩
      rw [List.getElem?_modify_eq, hn, Option.map_eq_map, Option.map_some]
    · exact ⟨c, n, hc, hle, by rw [List.getElem?_modify_ne _ _ hac, hn], hname, hhandler⟩
  absent := h.absent

/-- One successor is set. -/
theorem linkNext_eq (h : Copied heap₀ heap cl keys) (ha : cl.nodes.lookup nm = some (some a))
    {next : Option NodePtr}
    (hnext : next = some .endNode ∨
      ∃ c n, next = some (.node c) ∧ heap₀[c]? = some n ∧ n.name ∈ keys) (b : Bool) :
    ∃ q, HeapGraph.linkNext heap cl nm b next =
        .ok (heap.modify a (HeapNode.setNext b q), cl) ∧ Relinked heap₀ cl next q := by
  obtain rfl | ⟨c, n, rfl, hn, hkey⟩ := hnext
  · exact ⟨some .endNode, by simp only [HeapGraph.linkNext, slot_of_lookup ha], .endNode⟩
  · obtain ⟨d, _, hd, _⟩ := h.node n.name hkey
    refine ⟨some (.node d), ?_, .node hn (getNode_of_lookup hd)⟩
    simp only [HeapGraph.linkNext, getElem?_of_prefix h.kept hn, slot_of_lookup hd,
      slot_of_lookup ha, Option.map_some]

/-- The clones of the names `done` have the successors of the originals. -/
def LinkedUp (heap₀ heap : Heap) (hg cl : HeapGraph) (done : List String) : Prop :=
  ∀ nm ∈ done, ∀ m a n, hg.nodeOf heap₀ nm = some m → cl.nodes.lookup nm = some (some a) →
    heap[a]? = some n → ∀ b, Relinked heap₀ cl (m.next b) (n.next b)

/-- One round of the second loop. -/
theorem LinkedUp.setNext (h : LinkedUp heap₀ heap hg cl done) (hc : Copied heap₀ heap cl keys)
    (hdone : done ⊆ keys) (hnm : nm ∈ keys) (ha : cl.nodes.lookup nm = some (some a))
    {m : HeapNode} (hm : hg.nodeOf heap₀ nm = some m) {q r : Option NodePtr}
    (hq : Relinked heap₀ cl m.trueNext q) (hr : Relinked heap₀ cl m.falseNext r) :
    LinkedUp heap₀ ((heap.modify a (HeapNode.setNext true q)).modify a (HeapNode.setNext false r))
      hg cl (done ++ [nm]) := by
  intro k hk m' c n' hm' hc' hn' b
  by_cases hkn : k = nm
  · subst hkn
    obtain rfl : m = m' := Option.some.inj (hm.symm.trans hm')
    obtain rfl : a = c := by simpa using ha.symm.trans hc'
    rw [List.getElem?_modify_eq, List.getElem?_modify_eq] at hn'
    cases hn : heap[a]? with
    | none => rw [hn] at hn'; simp at hn'
    | some n =>
      rw [hn] at hn'
      simp only [Option.map_eq_map, Option.map_some, Option.some.injEq] at hn'
      subst hn'
      cases b with
      | true => exact hq
      | false => exact hr
  · have hk : k ∈ done := by simpa [hkn] using hk
    have hac : a ≠ c := by
      rintro rfl
      exact hkn (hc.name_eq_of_address (hdone hk) hnm hc' ha)
    rw [List.getElem?_modify_ne _ _ hac, List.getElem?_modify_ne _ _ hac] at hn'
    exact h k hk m' c n' hm' hc' hn' b

/-- The loop sets all successors. -/
theorem linkNodes_linkedUp (h : LinkedUp heap₀ heap hg cl done) (hc : Copied heap₀ heap cl keys)
    (hsub : done ++ order ⊆ keys)
    (hnode : ∀ nm ∈ order, ∃ m, hg.nodeOf heap₀ nm = some m ∧ ∀ b, m.next b = some .endNode ∨
      ∃ c n, m.next b = some (.node c) ∧ heap₀[c]? = some n ∧ n.name ∈ keys) :
    ∃ heap', HeapGraph.linkNodes hg order heap cl = .ok (heap', cl) ∧
      Copied heap₀ heap' cl keys ∧ LinkedUp heap₀ heap' hg cl (done ++ order) := by
  induction order generalizing heap done with
  | nil => exact ⟨heap, rfl, hc, by rwa [List.append_nil]⟩
  | cons nm order ih =>
    have hkey : nm ∈ keys := hsub (by simp)
    obtain ⟨a, _, ha, hle, _⟩ := hc.node nm hkey
    obtain ⟨m, hm, hnext⟩ := hnode nm List.mem_cons_self
    obtain ⟨q, hlink₁, hq⟩ := linkNext_eq hc ha (hnext true) true
    have hc₁ := hc.setNext hle true q
    obtain ⟨r, hlink₂, hr⟩ := linkNext_eq hc₁ ha (hnext false) false
    have hc₂ := hc₁.setNext hle false r
    have hsplit : done ++ nm :: order = done ++ [nm] ++ order := by simp
    have hup := h.setNext hc (fun k hk => hsub (List.mem_append_left _ hk)) hkey ha hm hq hr
    obtain ⟨heap', hloop, hcopied, hlinked⟩ := ih hup hc₂ (hsplit ▸ hsub)
      fun k hk => hnode k (List.mem_cons_of_mem _ hk)
    refine ⟨heap', ?_, hcopied, hsplit ▸ hlinked⟩
    simp only [HeapNode.next, if_true, Bool.false_eq_true, if_false] at hlink₁ hlink₂
    simp only [HeapGraph.linkNodes, hc.nodeOf hm, hlink₁, hlink₂, bind, Except.bind, hloop]

end Link

/-! ## Clones -/

/-- A clone `cl` of the graph `hg`, where the heap was `heap₀` and is `heap`.  No node that
was there has changed.  The clone has the same names filed, each with a new node that has
the name and its handler; the successors of the new nodes are those of the old ones, by
name, and are nodes of the clone. -/
structure IsClone (heap₀ heap : Heap) (hg cl : HeapGraph) : Prop where
  kept : heap₀ <+: heap
  name_eq : cl.name = hg.name
  version_eq : cl.version = hg.version
  names : ∀ nm, nm ∈ cl.nodes ↔ nm ∈ hg.nodes
  full : ∀ nm, cl.nodes.lookup nm ≠ some none
  fresh : ∀ nm a, cl.getNode nm = some a → heap₀.length ≤ a
  entry : hg.entry ≠ some .endNode ∧ Relinked heap₀ cl hg.entry cl.entry
  node : ∀ nm m, hg.nodeOf heap₀ nm = some m → ∃ n, cl.nodeOf heap nm = some n ∧
    m.name = nm ∧ n.name = nm ∧ n.handler = some nm ∧
      ∀ b, Relinked heap₀ cl (m.next b) (n.next b)

section Clone

variable {heap : Heap} {hg : HeapGraph} {order : List String} {getHandler : String → Bool}
  {nm : String}

theorem HeapGraph.lookup_of_getNode {a : ℕ} (h : hg.getNode nm = some a) :
    hg.nodes.lookup nm = some (some a) := by
  rw [getNode] at h
  cases hl : hg.nodes.lookup nm with
  | none => rw [hl] at h; simp at h
  | some entry => rw [hl] at h; exact congrArg some h

theorem HeapGraph.mem_nodes_of_getNode {a : ℕ} (h : hg.getNode nm = some a) : nm ∈ hg.nodes := by
  rw [← AList.lookup_isSome, lookup_of_getNode h]
  rfl

theorem HeapGraph.mem_nodes_of_nodeOf {n : HeapNode} (h : hg.nodeOf heap nm = some n) :
    nm ∈ hg.nodes := by
  obtain ⟨a, ha, _⟩ := Option.bind_eq_some_iff.mp h
  exact mem_nodes_of_getNode ha

/-- The nodes of a wired graph, and the names of their successors. -/
theorem Wired.nodeOf (h : Wired heap hg) (hnm : nm ∈ hg.nodes) :
    ∃ m, hg.nodeOf heap nm = some m ∧ m.name = nm ∧ ∀ b, m.next b = some .endNode ∨
      ∃ c n, m.next b = some (.node c) ∧ heap[c]? = some n ∧ n.name ∈ hg.nodes := by
  obtain ⟨entry, hentry⟩ := Option.isSome_iff_exists.mp (AList.lookup_isSome.mpr hnm)
  cases entry with
  | none => exact absurd hentry (h.full nm)
  | some a =>
    have ha := getNode_of_lookup hentry
    obtain ⟨m, hm, hname, hnext⟩ := h.node nm a ha
    refine ⟨m, Option.bind_eq_some_iff.mpr ⟨a, ha, hm⟩, hname, fun b => (hnext b).imp_right ?_⟩
    rintro ⟨k, c, hc, hk⟩
    obtain ⟨n, hn, hkname, _⟩ := h.node k c hk
    exact ⟨c, n, hc, hn, hkname ▸ HeapGraph.mem_nodes_of_getNode hk⟩

/-- What the two loops have made is a clone, once it has its version and its entry. -/
theorem isClone_of_copied {heap' : Heap} {cl : HeapGraph} (h : Wired heap hg)
    (hmem : ∀ nm, nm ∈ order ↔ nm ∈ hg.nodes) (hc : Copied heap heap' cl order)
    (hup : LinkedUp heap heap' hg cl order) (hname : cl.name = hg.name) {entry : Option NodePtr}
    (hend : hg.entry ≠ some .endNode) (hentry : Relinked heap cl hg.entry entry) :
    IsClone heap heap' hg { cl with version := hg.version, entry := entry } where
  kept := hc.kept
  name_eq := hname
  version_eq := rfl
  names := by
    intro nm
    rw [← hmem, ← AList.lookup_isSome]
    by_cases hnm : nm ∈ order
    · obtain ⟨a, _, ha, _⟩ := hc.node nm hnm
      simp [ha, hnm]
    · simp [hc.absent nm hnm, hnm]
  full := by
    intro nm hnone
    by_cases hnm : nm ∈ order
    · obtain ⟨a, _, ha, _⟩ := hc.node nm hnm
      exact absurd (ha.symm.trans hnone) (by simp)
    · exact absurd ((hc.absent nm hnm).symm.trans hnone) (by simp)
  fresh := by
    intro nm a ha
    have ha := HeapGraph.lookup_of_getNode ha
    by_cases hnm : nm ∈ order
    · obtain ⟨c, _, hc, hle, _⟩ := hc.node nm hnm
      obtain rfl : a = c := by simpa using ha.symm.trans hc
      exact hle
    · exact absurd ((hc.absent nm hnm).symm.trans ha) (by simp)
  entry := ⟨hend, hentry.withEntry⟩
  node := by
    intro nm m hm
    have hnm := HeapGraph.mem_nodes_of_nodeOf hm
    obtain ⟨m', hm', hmname, _⟩ := h.nodeOf hnm
    obtain rfl : m = m' := Option.some.inj (hm.symm.trans hm')
    obtain ⟨a, n, ha, _, hn, hnname, hhandler⟩ := hc.node nm ((hmem nm).mpr hnm)
    refine ⟨n, Option.bind_eq_some_iff.mpr ⟨a, getNode_of_lookup ha, hn⟩, hmname, hnname, hhandler,
      fun b => ?_⟩
    exact (hup nm ((hmem nm).mpr hnm) m a n hm ha hn b).withEntry

/-- **A wired graph has a clone**, in whatever order its nodes are gone through. -/
theorem clone_of_wired (h : Wired heap hg) (horder : order.Perm hg.nodes.keys)
    (hhandler : ∀ nm ∈ hg.nodes, getHandler nm = true) :
    ∃ heap' cl, hg.clone getHandler order heap = .ok (some (heap', cl)) ∧
      IsClone heap heap' hg cl := by
  have hmem : ∀ nm, nm ∈ order ↔ nm ∈ hg.nodes :=
    fun nm => horder.mem_iff.trans AList.mem_keys.symm
  have hnodup : ([] ++ order).Nodup := horder.nodup_iff.mpr hg.nodes.keys_nodup
  have hnode : ∀ nm ∈ order, ∃ m, hg.nodeOf heap nm = some m ∧ m.name = nm := by
    intro nm hnm
    obtain ⟨m, hm, hname, _⟩ := h.nodeOf ((hmem nm).mp hnm)
    exact ⟨m, hm, hname⟩
  obtain ⟨heap₁, cl, hcopy, hc, hname⟩ := cloneNodes_copied (.new heap hg.name 0) hnodup hnode
    fun nm hnm => hhandler nm ((hmem nm).mp hnm)
  have hnext : ∀ nm ∈ order, ∃ m, hg.nodeOf heap nm = some m ∧ ∀ b, m.next b = some .endNode ∨
      ∃ c n, m.next b = some (.node c) ∧ heap[c]? = some n ∧ n.name ∈ [] ++ order := by
    intro nm hnm
    obtain ⟨m, hm, _, hnext⟩ := h.nodeOf ((hmem nm).mp hnm)
    refine ⟨m, hm, fun b => (hnext b).imp_right ?_⟩
    rintro ⟨c, n, hcn, hn, hkey⟩
    exact ⟨c, n, hcn, hn, (hmem _).mpr hkey⟩
  have hnone : LinkedUp heap heap₁ hg cl [] := fun nm hnm => absurd hnm List.not_mem_nil
  obtain ⟨heap₂, hlink, hc₂, hup⟩ :=
    linkNodes_linkedUp hnone hc (List.Subset.refl ([] ++ order)) hnext
  -- the entry is one of the nodes
  obtain ⟨nm, a, hentry, ha⟩ := h.entry
  obtain ⟨n, hn, hnname, _⟩ := h.node nm a ha
  obtain ⟨c, _, hlookup, _⟩ := hc₂.node nm ((hmem nm).mpr (HeapGraph.mem_nodes_of_getNode ha))
  refine ⟨heap₂, { cl with version := hg.version, entry := some (.node c) }, ?_,
    isClone_of_copied h hmem hc₂ hup hname (by rw [hentry]; simp) ?_⟩
  · simp only [HeapGraph.clone, hcopy, hlink, hentry, bind, Except.bind, Option.bind,
      HeapGraph.ptrName, getElem?_of_prefix hc₂.kept hn, Option.map_some, hnname,
      slot_of_lookup hlookup]
    rfl
  · rw [hentry]
    exact .node hn (by rw [hnname]; exact getNode_of_lookup hlookup)

/-- **Every graph that `BuildGraph` returns has a clone.**  Take a workflow graph that passes
the check, with a handler for every name, and the execution graph that `BuildGraph` returns
for it, on any heap; let it get any version, and let the handlers of its nodes be there when
it is cloned.  Then `Clone` returns a clone of it, in whatever order it goes through the
nodes. -/
theorem clone_buildGraph {g : Graph} {heap₀ : Heap} {version₀ : BitVec 32}
    (hcheck : g.checkValid = true) (hhandlers : ∀ n ∈ g.nodes, getHandler n.name = true)
    (hbuild : HeapGraph.buildGraph getHandler g version₀ heap₀ = .ok (some (heap, hg)))
    (version : BitVec 32) {getHandler' : String → Bool}
    (hclone : ∀ nm ∈ hg.nodes, getHandler' nm = true) (horder : order.Perm hg.nodes.keys) :
    ∃ heap' cl, ({ hg with version := version } : HeapGraph).clone getHandler' order heap =
        .ok (some (heap', cl)) ∧
      IsClone heap heap' { hg with version := version } cl := by
  cases hentry : g.entry with
  | none => simp [HeapGraph.buildGraph, hentry, HeapGraph.buildNode, bind, Except.bind] at hbuild
  | some e =>
    have hv := Graph.valid_of_checkValid hentry hcheck
    obtain ⟨heap', hg', hbuild', hwired⟩ := wired_buildGraph hv hhandlers version₀ heap₀
    rw [hbuild, Except.ok.injEq, Option.some.injEq, Prod.mk.injEq] at hbuild'
    obtain ⟨rfl, rfl⟩ := hbuild'
    have hwired' : Wired heap { hg with version := version } :=
      ⟨hwired.entry, hwired.full, hwired.node⟩
    exact clone_of_wired hwired' horder hclone

/-- The two nodes of a cycle on the heap. -/
def cycleHeap : Heap :=
  [⟨"a", some (.node 1), some .endNode, some "a"⟩, ⟨"b", some (.node 0), some (.node 1), some "b"⟩]

/-- The graph that files them. -/
def cycleExec : HeapGraph :=
  { ((HeapGraph.new "cycle" 0).addNode "a" 0).addNode "b" 1 with entry := some (.node 0) }

theorem clone_buildGraph_cycle :
    HeapGraph.buildGraph (fun _ => true) Enclosed.cycle.toGraph 0 [] =
        .ok (some (cycleHeap, cycleExec)) ∧
      ∃ heap' cl, ({ cycleExec with version := 7 } : HeapGraph).clone (fun _ => true) ["a", "b"]
          cycleHeap = .ok (some (heap', cl)) ∧
        IsClone cycleHeap heap' { cycleExec with version := 7 } cl := by
  have hbuild : HeapGraph.buildGraph (fun _ => true) Enclosed.cycle.toGraph 0 [] =
      .ok (some (cycleHeap, cycleExec)) := rfl
  exact ⟨hbuild, clone_buildGraph (by decide) (fun _ _ => rfl) hbuild 7 (fun _ _ => rfl)
    (by decide)⟩

end Clone

/-! ## A pool of clones -/

section Pool

variable {heap₀ heap heap' : Heap} {hg cl : HeapGraph} {order : List String}
  {getHandler : String → Bool}

/-- The loop of `ReloadExeGraph` that fills the pool of a graph with its clones, from a value of
its counter on. -/
def HeapGraph.clonesFrom (getHandler : String → Bool) (order : List String) (hg : HeapGraph)
    (poolSize : ℕ) : ℕ → BitVec 32 → Heap → Except BuildFault (Option (Heap × List HeapGraph))
  | 0, _, _ => .error .outOfFuel
  | fuel + 1, i, heap =>
    if i.toNat < poolSize then
      match hg.clone getHandler order heap with
      | .error fault => .error fault
      | .ok none => .ok none
      | .ok (some (heap, cl)) =>
        match clonesFrom getHandler order hg poolSize fuel (i + 1) heap with
        | .error fault => .error fault
        | .ok none => .ok none
        | .ok (some (heap, pool)) => .ok (some (heap, cl :: pool))
    else .ok (some (heap, []))

/-- The clones for a pool of some size.  A size of `2 ^ 32` or more is above every value of the
counter, and the loop has no end; a smaller one is reached with this fuel. -/
def HeapGraph.clones (getHandler : String → Bool) (order : List String) (hg : HeapGraph)
    (poolSize : ℕ) (heap : Heap) : Except BuildFault (Option (Heap × List HeapGraph)) :=
  hg.clonesFrom getHandler order poolSize (poolSize + 1) 1 heap

/-- Two graphs share no node. -/
def HeapGraph.Apart (hg hg' : HeapGraph) : Prop :=
  ∀ nm nm' a, hg.getNode nm = some a → hg'.getNode nm' ≠ some a

theorem Wired.mono (h : Wired heap hg) (hpre : heap <+: heap') : Wired heap' hg := by
  refine ⟨h.entry, h.full, fun nm a ha => ?_⟩
  obtain ⟨n, hn, hrest⟩ := h.node nm a ha
  exact ⟨n, getElem?_of_prefix hpre hn, hrest⟩

theorem IsClone.mono (h : IsClone heap₀ heap hg cl) (hpre : heap <+: heap') :
    IsClone heap₀ heap' hg cl := by
  refine ⟨h.kept.trans hpre, h.name_eq, h.version_eq, h.names, h.full, h.fresh, h.entry,
    fun nm m hm => ?_⟩
  obtain ⟨n, hn, hrest⟩ := h.node nm m hm
  obtain ⟨a, ha, hn⟩ := Option.bind_eq_some_iff.mp hn
  exact ⟨n, Option.bind_eq_some_iff.mpr ⟨a, ha, getElem?_of_prefix hpre hn⟩, hrest⟩

/-- The nodes of a clone are on the heap. -/
theorem IsClone.lt_length (h : IsClone heap₀ heap hg cl) (hw : Wired heap₀ hg) {nm : String}
    {a : ℕ} (ha : cl.getNode nm = some a) : a < heap.length := by
  obtain ⟨m, hm, _⟩ := hw.nodeOf ((h.names nm).mp (HeapGraph.mem_nodes_of_getNode ha))
  obtain ⟨n, hn, _⟩ := h.node nm m hm
  rw [HeapGraph.nodeOf, ha, Option.bind_some] at hn
  exact (List.getElem?_eq_some_iff.mp hn).1

/-- **A pool of clones.**  All of them are clones of the graph, and no two share a node. -/
theorem clonesFrom_apart (h : Wired heap hg) (horder : order.Perm hg.nodes.keys)
    (hhandler : ∀ nm ∈ hg.nodes, getHandler nm = true) {poolSize fuel : ℕ} {i : BitVec 32}
    (hsize : poolSize < 2 ^ 32) (hfuel : poolSize - i.toNat < fuel) :
    ∃ heap' pool, hg.clonesFrom getHandler order poolSize fuel i heap = .ok (some (heap', pool)) ∧
      pool.length = poolSize - i.toNat ∧ heap <+: heap' ∧ pool.Pairwise HeapGraph.Apart ∧
      ∀ cl ∈ pool, ∃ heap₀, heap <+: heap₀ ∧ IsClone heap₀ heap' hg cl := by
  induction fuel generalizing heap i with
  | zero => omega
  | succ fuel ih =>
    unfold HeapGraph.clonesFrom
    by_cases hi : i.toNat < poolSize
    · -- the counter does not wrap around below the size
      have hnext : (i + 1).toNat = i.toNat + 1 := by bv_omega
      obtain ⟨heap₁, cl, hclone, hcl⟩ := clone_of_wired h horder hhandler
      obtain ⟨heap₂, pool, hclones, hlen, hpre, hapart, hpool⟩ :=
        ih (i := i + 1) (h.mono hcl.kept) (by omega)
      rw [if_pos hi]
      refine ⟨heap₂, cl :: pool, ?_, ?_, hcl.kept.trans hpre, ?_, ?_⟩
      · simp only [hclone, hclones]
      · rw [List.length_cons, hlen]
        omega
      · -- the later clones lie behind the first
        refine List.pairwise_cons.mpr ⟨fun cl' hcl' nm nm' a ha ha' => ?_, hapart⟩
        obtain ⟨heap₀, hpre₀, hisclone⟩ := hpool cl' hcl'
        have hlt := hcl.lt_length h ha
        have hle := hisclone.fresh nm' a ha'
        have := hpre₀.length_le
        omega
      · intro cl' hcl'
        rcases List.mem_cons.mp hcl' with rfl | hcl'
        · exact ⟨heap, List.prefix_rfl, hcl.mono hpre⟩
        · obtain ⟨heap₀, hpre₀, hisclone⟩ := hpool cl' hcl'
          exact ⟨heap₀, hcl.kept.trans hpre₀, hisclone⟩
    · rw [if_neg hi]
      exact ⟨heap, [], rfl, by rw [List.length_nil]; omega, List.prefix_rfl, List.Pairwise.nil,
        by simp⟩

end Pool

end Rtp.Framework
