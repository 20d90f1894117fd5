import Rtp.Workflow.Graph

/-!
# The two searches through a graph

`CheckValid` decides by the number of nodes that a recursive search has met, and `Traverse`
calls a function in the course of another such search.  Both are run here on any graph
whose edges stay inside it, cycles included.

* `Enclosed` — a graph whose entry and edges are null, the end node, or one of its nodes.
* `Graph.checkValidWithin` — `CheckValid` with the end of the recursion told apart from its
  result; `checkValidWithin_eq` — the recursion always ends.
* `Graph.traverse` — `Traverse`, for a function that acts on any state.
* `traverseNode_of_checkNode` — where no edge is null the two searches are the same one.
* `Enclosed.check_traverse` — **what passes the check, and that `Traverse` then calls its
  function once on every node.**
-/

namespace Rtp.Workflow

namespace Graph

variable (g : Graph)

/-! ## The check comes to an end -/

/-- `checkNode`, with `none` for a recursion that goes deeper than the fuel allows and
`some none` for the result `false`. -/
def checkNodeWithin : ℕ → NodeRef → List NodeRef → Option (Option (List NodeRef))
  | 0, _, _ => none
  | fuel + 1, v, checked =>
    match g.edge v true, g.edge v false with
    | some t, some f =>
      if v ∈ checked then some (some checked)
      else
        match if t = .endNode then some (some (v :: checked))
            else checkNodeWithin fuel t (v :: checked) with
        | none => none
        | some none => some none
        | some (some checked') =>
          if f = .endNode then some (some checked') else checkNodeWithin fuel f checked'
    | _, _ => some none

/-- `checkValid`, with `none` for a recursion that does not end within as many levels as
there are nodes, and one more. -/
def checkValidWithin : Option Bool :=
  match g.entry with
  | none => some g.nodes.isEmpty
  | some v =>
    (g.checkNodeWithin (g.nodes.length + 1) v []).map fun
      | none => false
      | some checked => if checked.length ≠ g.nodes.length then false else g.checkEntry

variable {g}

/-- **The recursion ends**: every level that goes deeper checks a node of its own. -/
theorem checkNodeWithin_eq {fuel : ℕ} {v : NodeRef} {checked : List NodeRef}
    (hfuel : g.unchecked checked < fuel) :
    g.checkNodeWithin fuel v checked = some (g.checkNode fuel v checked) := by
  induction fuel generalizing v checked with
  | zero => exact absurd hfuel (Nat.not_lt_zero _)
  | succ fuel ih =>
    rw [checkNodeWithin, checkNode]
    cases ht : g.edge v true with
    | none => rfl
    | some t =>
      cases hf : g.edge v false with
      | none => rfl
      | some f =>
        by_cases hmem : v ∈ checked
        · simp only [if_pos hmem]
        · obtain ⟨i, hi, rfl⟩ := owns_of_edge_eq_some ht
          have hlt := unchecked_cons_lt hi hmem
          -- the search along one edge, from a list that holds the node already
          have hedge : ∀ {u : NodeRef} {c : List NodeRef}, NodeRef.node i :: checked ⊆ c →
              (if u = .endNode then some (some c) else g.checkNodeWithin fuel u c) =
                some (if u = .endNode then some c else g.checkNode fuel u c) := by
            intro u c hc
            have hle := unchecked_le_of_subset (g := g) hc
            rw [apply_ite some, ih (by omega)]
          simp only [if_neg hmem]
          rw [hedge (List.Subset.refl _)]
          cases hfirst : (if t = .endNode then some (NodeRef.node i :: checked)
              else g.checkNode fuel t (NodeRef.node i :: checked)) with
          | none => rfl
          | some checked' =>
            have hsub : NodeRef.node i :: checked ⊆ checked' := by
              by_cases hend : t = .endNode
              · rw [if_pos hend, Option.some.injEq] at hfirst
                exact hfirst ▸ List.Subset.refl _
              · rw [if_neg hend] at hfirst
                exact (checkNode_spec hfirst).1.subset
            exact hedge hsub

theorem checkValidWithin_eq : g.checkValidWithin = some g.checkValid := by
  rw [checkValidWithin, checkValid]
  cases g.entry with
  | none => rfl
  | some v =>
    have hwithin := checkNodeWithin_eq (v := v) g.unchecked_nil_lt
    cases hcheck : g.checkNode (g.nodes.length + 1) v [] with
    | none | some checked => simp [hwithin, hcheck]

/-! ## Traverse -/

section Traverse

variable {σ : Type*} (f : σ → NodeRef → σ)

/-- `Graph::TraverseNode`, with the set of checked nodes and the state on which the
function acts; `none` is a null pointer that is followed, or fuel that runs out. -/
def traverseNode (g : Graph) : ℕ → Option NodeRef → List NodeRef × σ → Option (List NodeRef × σ)
  | 0, _, _ => none
  | _ + 1, none, _ => none
  | fuel + 1, some v, (checked, s) =>
    if v ∈ checked then some (checked, s)
    else
      (if g.edge v true = some .endNode then some (v :: checked, f s v)
        else traverseNode g fuel (g.edge v true) (v :: checked, f s v)).bind fun after =>
      if g.edge v false = some .endNode then some after
      else traverseNode g fuel (g.edge v false) after

/-- `Graph::Traverse`: the state after all calls of the function. -/
def traverse (g : Graph) (s : σ) : Option σ :=
  (g.traverseNode f (g.nodes.length + 1) g.entry ([], s)).map Prod.snd

/-- **Where the check finds no null edge, `TraverseNode` goes the same way**, and calls the
function on what the check adds. -/
theorem traverseNode_of_checkNode {fuel : ℕ} {v : NodeRef} {checked checked' : List NodeRef}
    (h : g.checkNode fuel v checked = some checked') :
    ∃ new, checked' = new ++ checked ∧ ∀ s,
      g.traverseNode f fuel (some v) (checked, s) = some (checked', new.reverse.foldl f s) := by
  induction fuel generalizing v checked checked' with
  | zero => simp [checkNode] at h
  | succ fuel ih =>
    rw [checkNode] at h
    cases ht : g.edge v true with
    | none => rw [ht] at h; simp at h
    | some t =>
      cases hf : g.edge v false with
      | none => rw [ht, hf] at h; simp at h
      | some u =>
        rw [ht, hf] at h
        simp only at h
        by_cases hv : v ∈ checked
        · rw [if_pos hv, Option.some.injEq] at h
          subst h
          exact ⟨[], rfl, fun s => by rw [traverseNode, if_pos hv]; rfl⟩
        · rw [if_neg hv, Option.bind_eq_some_iff] at h
          obtain ⟨c₁, h₁, h₂⟩ := h
          -- the search along one edge
          have hedge : ∀ {w : NodeRef} {c c' : List NodeRef},
              (if w = .endNode then some c else g.checkNode fuel w c) = some c' →
              ∃ new, c' = new ++ c ∧ ∀ s,
                (if some w = some .endNode then some (c, s)
                  else g.traverseNode f fuel (some w) (c, s)) =
                  some (c', new.reverse.foldl f s) := by
            intro w c c' hw
            by_cases hend : w = .endNode
            · rw [if_pos hend, Option.some.injEq] at hw
              subst hw
              exact ⟨[], rfl, fun s => if_pos (congrArg some hend)⟩
            · rw [if_neg hend] at hw
              obtain ⟨new, hnew, hall⟩ := ih hw
              refine ⟨new, hnew, fun s => ?_⟩
              rw [if_neg (by simpa using hend), hall]
          obtain ⟨new₁, rfl, hall₁⟩ := hedge h₁
          obtain ⟨new₂, rfl, hall₂⟩ := hedge h₂
          refine ⟨new₂ ++ (new₁ ++ [v]), by simp, fun s => ?_⟩
          rw [traverseNode, if_neg hv, ht, hf, hall₁, Option.bind_some, hall₂]
          simp

/-- On a valid graph the calls are made on its nodes, on each once. -/
theorem Valid.traverse {e : NodeRef} (hv : g.Valid e) :
    ∃ calls : List NodeRef, calls.Perm ((List.range g.nodes.length).map NodeRef.node) ∧
      ∀ (σ : Type) (f : σ → NodeRef → σ) (s : σ), g.traverse f s = some (calls.foldl f s) := by
  obtain ⟨checked, hcheck, hperm⟩ := hv.checkNode_perm
  refine ⟨checked.reverse, (List.reverse_perm checked).trans hperm, fun σ f s => ?_⟩
  obtain ⟨new, hnew, hall⟩ := traverseNode_of_checkNode f hcheck
  obtain rfl : checked = new := by rw [hnew, List.append_nil]
  rw [Graph.traverse, hv.entry_eq, hall, Option.map_some]

end Traverse

end Graph

/-! ## Graphs whose edges stay inside -/

/-- A graph whose entry and edges are each null, the end node or a node of the graph. -/
structure Enclosed extends Graph where
  entry_mem : ∀ v, entry = some v → v = .endNode ∨ toGraph.Owns v
  edge_mem : ∀ v b t, toGraph.edge v b = some t → t = .endNode ∨ toGraph.Owns t

namespace Enclosed

/-- The entry is a node, every node is reached from it, and no edge of a node is null. -/
def Connected (g : Enclosed) (e : NodeRef) : Prop :=
  g.Owns e ∧ (∀ i < g.nodes.length, g.Reaches e (.node i)) ∧
    ∀ i < g.nodes.length, ∀ b, g.edge (.node i) b ≠ none

theorem valid_iff (g : Enclosed) {e : NodeRef} :
    g.Valid e ↔ g.entry = some e ∧ g.Connected e := by
  constructor
  · exact fun hv => ⟨hv.entry_eq, hv.entry_mem, hv.reaches, hv.edge_ne_none⟩
  · exact fun ⟨heq, hown, hreach, hedge⟩ => ⟨heq, hown, hedge, g.edge_mem, hreach⟩

/-- **The check and the traversal.**  On any graph whose entry and edges stay inside it the
check comes to an end.  It passes exactly if there is neither an entry nor a node, or the
entry is a node, every node is reached from it and no node has a null edge.  If it passes
and there is an entry, `Traverse` comes to an end too, and has called its function once on
every node and on nothing else, whatever the function does. -/
theorem check_traverse (g : Enclosed) :
    g.checkValidWithin = some g.checkValid ∧
    (g.checkValid = true ↔
      g.entry = none ∧ g.nodes = [] ∨ ∃ e, g.entry = some e ∧ g.Connected e) ∧
    (g.checkValid = true → g.entry ≠ none →
      ∃ calls : List NodeRef, calls.Perm ((List.range g.nodes.length).map NodeRef.node) ∧
        ∀ (σ : Type) (f : σ → NodeRef → σ) (s : σ),
          g.traverse f s = some (calls.foldl f s)) := by
  refine ⟨Graph.checkValidWithin_eq, ?_, fun hcheck hentry => ?_⟩
  · rw [Graph.checkValid_iff]
    simp only [g.valid_iff]
  · obtain ⟨e, he⟩ := Option.ne_none_iff_exists'.mp hentry
    exact (Graph.valid_of_checkValid he hcheck).traverse

/-- Two nodes in a cycle, one of them with an edge to itself. -/
def cycleNodes : List Node :=
  [⟨"a", some (.node 1), some .endNode⟩, ⟨"b", some (.node 0), some (.node 1)⟩]

/-- The graph of these nodes, entered at the first. -/
def cycle : Enclosed where
  name := "cycle"
  entry := some (.node 0)
  nodes := cycleNodes
  entry_mem := by
    rintro v ⟨⟩
    exact .inr ⟨0, by decide, rfl⟩
  edge_mem := by
    intro v b t h
    obtain ⟨i, hi, rfl⟩ := Graph.owns_of_edge_eq_some h
    have hall : ∀ i < 2, ∀ b,
        edgeAt cycleNodes i b ∈ [some .endNode, some (.node 0), some (.node 1)] := by decide
    have ht := hall i hi b
    rw [show edgeAt cycleNodes i b = some t from h] at ht
    simp only [List.mem_cons, Option.some.injEq, List.not_mem_nil, or_false] at ht
    rcases ht with rfl | rfl | rfl
    · exact .inl rfl
    · exact .inr ⟨0, by decide, rfl⟩
    · exact .inr ⟨1, by decide, rfl⟩

theorem check_traverse_cycle :
    cycle.checkValid = true ∧
      ∃ calls : List NodeRef, calls.Perm [.node 0, .node 1] ∧
        ∀ (σ : Type) (f : σ → NodeRef → σ) (s : σ),
          cycle.traverse f s = some (calls.foldl f s) := by
  have hcheck : cycle.checkValid = true := by decide
  exact ⟨hcheck, (check_traverse cycle).2.2 hcheck (by decide)⟩

end Enclosed

end Rtp.Workflow
