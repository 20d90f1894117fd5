import Mathlib.Algebra.Group.Nat.Defs
import Mathlib.Data.List.Perm.Basic
import Rtp.Lib.Queues
import Rtp.Lib.Reach

/-!
# The pool of execution graphs

`ExecutionGraphMgr` (`orc/framework/execution_graph_mgr.cc`) in pool mode: the queues of graphs
that all threads share, the queues each thread has for itself, and the graphs that are checked
out.  A reload makes a new version of all graphs and puts new queues in the place of the shared
ones; graphs of an older version are deleted when they are released.

* `reloadGraph`, `getExeGraph`, `releaseExeGraph` — the calls.
* `State.places` — all graphs there are.
* `get_current` — **a graph that is handed out has the current version**, in every run in which
  a reload for thread-local queues finds these queues empty; `get_stale` is a run in which a
  thread gets a graph of an older version from its queue.
* `pool_conserved` — **no graph of the current version is lost or made**, in every run in which
  the 32-bit version does not come around to that of a graph which is still about;
  `pool_overfull` is a run in which it does.
-/

namespace Rtp.Framework.GraphPool

/-! ## The calls -/

/-- An `ExecutionGraph`.  What it is made of plays no part here; `id` tells one object from
another. -/
structure ExeGraph where
  id : ℕ
  name : String
  version : BitVec 32
  deriving DecidableEq, Repr

/-- The arguments of a `ReloadGraph` that succeeds: `names` are those of the workflows in the
file. -/
structure Reload where
  poolSize : ℕ
  useTls : Bool
  tlsSize : ℕ
  names : List String
  nodup : names.Nodup
  deriving DecidableEq

/-- The manager.  A thread-local queue is known by its thread and the name of its graphs.
`created` counts the graphs that were made; `names` is a record of the names of the latest
reload. -/
structure State where
  poolSize : ℕ
  useTls : Bool
  tlsSize : ℕ
  version : BitVec 32
  exeGraphs : Queues String ExeGraph
  tls : Queues (ℕ × String) ExeGraph
  checkedOut : List ExeGraph
  created : ℕ
  names : List String

/-- The body of the loop of `ReloadExeGraph`: a graph is built, and queued after its clones. -/
def addGraphs (version : BitVec 32) (poolSize : ℕ) (acc : Queues String ExeGraph × ℕ)
    (name : String) : Queues String ExeGraph × ℕ :=
  let exeGraph : ExeGraph := ⟨acc.2, name, version⟩
  let clones := (List.range (poolSize - 1)).map fun i => { exeGraph with id := acc.2 + 1 + i }
  ((clones.foldl (fun m g => m.push name g) acc.1).push name exeGraph,
    acc.2 + 1 + (poolSize - 1))

/-- `ExecutionGraphMgr::ReloadExeGraph`. -/
def reloadExeGraph (version : BitVec 32) (poolSize : ℕ) (names : List String) (created : ℕ) :
    Queues String ExeGraph × ℕ :=
  names.foldl (addGraphs version poolSize) (∅, created)

namespace State

/-- Before the first reload. -/
def init : State where
  poolSize := 0
  useTls := false
  tlsSize := 0
  version := 0
  exeGraphs := ∅
  tls := ∅
  checkedOut := []
  created := 0
  names := []

/-- `ExecutionGraphMgr::ReloadGraph`. -/
def reloadGraph (r : Reload) (s : State) : State :=
  let version := s.version + 1
  let made := reloadExeGraph version r.poolSize r.names s.created
  { s with
    useTls := r.useTls
    poolSize := r.poolSize
    tlsSize := r.tlsSize
    version := version
    exeGraphs := made.1
    created := made.2
    names := r.names }

/-- `ExecutionGraphMgr::GetExeGraph`, called by a thread; `none` is the null pointer. -/
def getExeGraph (thread : ℕ) (name : String) (s : State) : Option (ExeGraph × State) :=
  match if s.useTls then s.tls.pop (thread, name) else none with
  | some (graph, tls) =>
    some (graph, { s with tls := tls, checkedOut := s.checkedOut ++ [graph] })
  | none =>
    (s.exeGraphs.pop name).map fun (graph, exeGraphs) =>
      (graph, { s with exeGraphs := exeGraphs, checkedOut := s.checkedOut ++ [graph] })

/-- `ExecutionGraphMgr::ReleaseExeGraph`, called by a thread with a graph that is no longer
checked out. -/
def releaseExeGraph (thread : ℕ) (graph : ExeGraph) (s : State) : State :=
  -- an old graph is deleted
  if graph.version ≠ s.version then s
  else if s.useTls ∧ (s.tls.queue (thread, graph.name)).length < s.tlsSize then
    { s with tls := s.tls.push (thread, graph.name) graph }
  else { s with exeGraphs := s.exeGraphs.push graph.name graph }

/-- All graphs. -/
def places (s : State) : List ExeGraph := s.exeGraphs.all ++ s.tls.all ++ s.checkedOut

end State

/-- A call: of `ReloadGraph`, of `GetExeGraph`, or of `ReleaseExeGraph` for the `i`-th graph
that is checked out. -/
inductive Action where
  | reload (r : Reload)
  | get (thread : ℕ) (name : String)
  | release (thread i : ℕ)
  deriving DecidableEq

/-- The state after a call.  With a size that the 32-bit counter of the clones does not reach,
a reload does not return. -/
def next (a : Action) (s : State) : Option State :=
  match a with
  | .reload r => if r.names = [] ∨ r.poolSize < 2 ^ 32 then some (s.reloadGraph r) else none
  | .get thread name => some (((s.getExeGraph thread name).map (·.2)).getD s)
  | .release thread i =>
    (s.checkedOut[i]?).map fun graph =>
      { s with checkedOut := s.checkedOut.eraseIdx i }.releaseExeGraph thread graph

/-! ## What a call does -/

/-- The graphs that a reload has made for some names, the next number being `acc.2`. -/
structure Made (version : BitVec 32) (poolSize created : ℕ) (names : List String)
    (acc : Queues String ExeGraph × ℕ) : Prop where
  filed : acc.1.Filed id (·.name)
  version : ∀ g ∈ acc.1.all, g.version = version
  ids : (acc.1.all.map (·.id)).Nodup
  bound : ∀ g ∈ acc.1.all, created ≤ g.id ∧ g.id < acc.2
  le : created ≤ acc.2
  count : ∀ n, acc.1.all.countP (·.name = n) = names.count n * max poolSize 1

/-- The graphs for one name. -/
def fresh (version : BitVec 32) (poolSize created : ℕ) (name : String) : List ExeGraph :=
  (List.range (max poolSize 1)).map fun i => ⟨created + i, name, version⟩

theorem all_addGraphs (version : BitVec 32) (poolSize : ℕ) (acc : Queues String ExeGraph × ℕ)
    (name : String) : (addGraphs version poolSize acc name).1.all.Perm
      (fresh version poolSize acc.2 name ++ acc.1.all) := by
  unfold addGraphs fresh
  refine (Queues.all_push _ _ _).trans ?_
  refine ((Queues.all_foldl_push _ _ _).cons _).trans (.of_eq ?_)
  have hsize : max poolSize 1 = poolSize - 1 + 1 := by omega
  rw [hsize, List.range_succ_eq_map, List.map_cons, List.map_map, ← List.cons_append]
  congr 2
  refine List.map_congr_left fun i _ => ?_
  simp only [Function.comp_apply, ExeGraph.mk.injEq, and_self, and_true]
  omega

theorem countP_fresh (version : BitVec 32) (poolSize created : ℕ) (name n : String) :
    (fresh version poolSize created name).countP (·.name = n) =
      if name = n then max poolSize 1 else 0 := by
  unfold fresh
  rw [List.countP_map]
  by_cases h : name = n
  · rw [if_pos h, List.countP_eq_length.2 (by simp [h]), List.length_range]
  · rw [if_neg h, List.countP_eq_zero.2 (by simp [h])]

variable {poolSize created : ℕ} {version : BitVec 32}

theorem mem_fresh {name : String} {g : ExeGraph} (h : g ∈ fresh version poolSize created name) :
    g.version = version ∧ created ≤ g.id ∧ g.id < created + max poolSize 1 := by
  obtain ⟨i, hi, rfl⟩ := List.mem_map.1 h
  rw [List.mem_range] at hi
  exact ⟨rfl, by simp, by simpa using hi⟩

theorem Made.addGraphs {names : List String} {acc : Queues String ExeGraph × ℕ}
    (h : Made version poolSize created names acc) (name : String) :
    Made version poolSize created (names ++ [name]) (addGraphs version poolSize acc name) := by
  have hperm := all_addGraphs version poolSize acc name
  have hmem : ∀ g ∈ (GraphPool.addGraphs version poolSize acc name).1.all,
      g ∈ fresh version poolSize acc.2 name ∨ g ∈ acc.1.all := fun g hg =>
    List.mem_append.1 (hperm.mem_iff.1 hg)
  have hnext : (GraphPool.addGraphs version poolSize acc name).2 = acc.2 + max poolSize 1 := by
    unfold GraphPool.addGraphs
    simp only
    omega
  refine ⟨?_, fun g hg => ?_, ?_, fun g hg => ?_, ?_, fun n => ?_⟩
  · refine (h.filed.foldl_push fun g hg => ?_).push rfl
    obtain ⟨i, -, rfl⟩ := List.mem_map.1 hg
    rfl
  · exact (hmem g hg).elim (fun hg => (mem_fresh hg).1) (h.version g)
  · rw [(hperm.map _).nodup_iff, List.map_append, List.nodup_append]
    refine ⟨?_, h.ids, fun i hi j hj => ?_⟩
    · unfold fresh
      rw [List.map_map]
      exact List.nodup_range.map fun i j hij => by simpa using hij
    · -- the numbers of the new graphs start where the others end
      obtain ⟨g, hg, rfl⟩ := List.mem_map.1 hi
      obtain ⟨g', hg', rfl⟩ := List.mem_map.1 hj
      have hnew := mem_fresh hg
      have hold := h.bound g' hg'
      omega
  · have hle := h.le
    rw [hnext]
    rcases hmem g hg with hg | hg
    · have hnew := mem_fresh hg
      omega
    · have hold := h.bound g hg
      omega
  · rw [hnext]
    exact Nat.le_trans h.le (Nat.le_add_right _ _)
  · rw [hperm.countP_eq, List.countP_append, countP_fresh, h.count, List.count_append,
      List.count_singleton]
    by_cases hn : name = n
    · simp [hn, Nat.succ_mul, Nat.add_comm]
    · simp [hn]

theorem Made.foldl {done : List String} {acc : Queues String ExeGraph × ℕ}
    (h : Made version poolSize created done acc) (names : List String) :
    Made version poolSize created (done ++ names)
      (names.foldl (GraphPool.addGraphs version poolSize) acc) := by
  induction names generalizing done acc with
  | nil => rwa [List.append_nil]
  | cons name names ih =>
    have hrest := ih (h.addGraphs name)
    rwa [List.append_assoc, List.singleton_append] at hrest

theorem made_reloadExeGraph (version : BitVec 32) (poolSize created : ℕ) (names : List String) :
    Made version poolSize created names (reloadExeGraph version poolSize names created) := by
  have hempty : Made version poolSize created [] (∅, created) :=
    ⟨Queues.filed_empty _ _, by simp, by simp, by simp, le_rfl, by simp⟩
  exact hempty.foldl names

namespace State

/-- What `GetExeGraph` and `ReleaseExeGraph` do: graphs change their places, or one that has not
the current version goes. -/
structure Moves (s s' : State) : Prop where
  poolSize : s'.poolSize = s.poolSize
  useTls : s'.useTls = s.useTls
  version : s'.version = s.version
  created : s'.created = s.created
  names : s'.names = s.names
  places : s.places.Perm s'.places ∨
    ∃ g, s.places.Perm (g :: s'.places) ∧ g.version ≠ s.version

variable {s s' : State} {thread : ℕ} {name : String} {graph : ExeGraph}

/-- A graph comes from the queue of the thread or from the shared one. -/
theorem getExeGraph_cases (h : s.getExeGraph thread name = some (graph, s')) :
    (∃ tls, s.useTls = true ∧ s.tls.pop (thread, name) = some (graph, tls) ∧
      s' = { s with tls := tls, checkedOut := s.checkedOut ++ [graph] }) ∨
    ∃ exeGraphs, s.exeGraphs.pop name = some (graph, exeGraphs) ∧
      s' = { s with exeGraphs := exeGraphs, checkedOut := s.checkedOut ++ [graph] } := by
  unfold getExeGraph at h
  split at h
  next g tls hpop =>
    obtain ⟨rfl, rfl⟩ := Prod.mk.inj (Option.some.inj h)
    split at hpop
    next htls => exact .inl ⟨tls, htls, hpop, rfl⟩
    · simp at hpop
  next =>
    obtain ⟨⟨g, exeGraphs⟩, hpop, heq⟩ := Option.map_eq_some_iff.1 h
    obtain ⟨rfl, rfl⟩ := Prod.mk.inj heq
    exact .inr ⟨exeGraphs, hpop, rfl⟩

/-- The places are compared by counting. -/
theorem places_perm_of_count (h : ∀ g, s.exeGraphs.all.count g + s.tls.all.count g +
      s.checkedOut.count g =
    s'.exeGraphs.all.count g + s'.tls.all.count g + s'.checkedOut.count g) :
    s.places.Perm s'.places := by
  unfold places
  rw [List.perm_iff_count]
  intro g
  rw [List.count_append, List.count_append, List.count_append, List.count_append]
  exact h g

theorem count_of_pop {K : Type} [DecidableEq K] {q q' : Queues K ExeGraph} {key : K}
    (h : q.pop key = some (graph, q')) (g : ExeGraph) :
    q.all.count g = q'.all.count g + [graph].count g := by
  rw [(Queues.all_of_pop h).count_eq g, List.count_cons, List.count_singleton]

theorem moves_get (h : s.getExeGraph thread name = some (graph, s')) : Moves s s' := by
  rcases getExeGraph_cases h with ⟨tls, -, hpop, rfl⟩ | ⟨exeGraphs, hpop, rfl⟩
  · refine ⟨rfl, rfl, rfl, rfl, rfl, .inl (places_perm_of_count fun g => ?_)⟩
    simp only [count_of_pop hpop, List.count_append]
    omega
  · refine ⟨rfl, rfl, rfl, rfl, rfl, .inl (places_perm_of_count fun g => ?_)⟩
    simp only [count_of_pop hpop, List.count_append]
    omega

/-- A graph is deleted, or comes to the queue of the thread or to the shared one. -/
theorem releaseExeGraph_cases (thread : ℕ) (graph : ExeGraph) (s : State) :
    (graph.version ≠ s.version ∧ s.releaseExeGraph thread graph = s) ∨
    (graph.version = s.version ∧
      (s.releaseExeGraph thread graph =
          { s with tls := s.tls.push (thread, graph.name) graph } ∨
        s.releaseExeGraph thread graph =
          { s with exeGraphs := s.exeGraphs.push graph.name graph })) := by
  unfold releaseExeGraph
  split
  next hold => exact .inl ⟨hold, rfl⟩
  next hcurrent =>
    refine .inr ⟨not_not.1 hcurrent, ?_⟩
    split
    · exact .inl rfl
    · exact .inr rfl

theorem moves_release {i : ℕ} (h : s.checkedOut[i]? = some graph) :
    Moves s ({ s with checkedOut := s.checkedOut.eraseIdx i }.releaseExeGraph thread graph) := by
  obtain ⟨hi, hget⟩ := List.getElem?_eq_some_iff.1 h
  have hout : s.checkedOut.Perm (graph :: s.checkedOut.eraseIdx i) :=
    hget ▸ (List.getElem_cons_eraseIdx_perm hi).symm
  rcases releaseExeGraph_cases thread graph
    { s with checkedOut := s.checkedOut.eraseIdx i } with ⟨hold, heq⟩ | ⟨-, heq | heq⟩
  · rw [heq]
    refine ⟨rfl, rfl, rfl, rfl, rfl, .inr ⟨graph, ?_, hold⟩⟩
    exact (hout.append_left _).trans List.perm_middle
  · rw [heq]
    refine ⟨rfl, rfl, rfl, rfl, rfl, .inl (places_perm_of_count fun g => ?_)⟩
    have hall := (Queues.all_push (thread, graph.name) graph s.tls).count_eq g
    have hcount := hout.count_eq g
    rw [List.count_cons] at hall hcount
    simp only
    omega
  · rw [heq]
    refine ⟨rfl, rfl, rfl, rfl, rfl, .inl (places_perm_of_count fun g => ?_)⟩
    have hall := (Queues.all_push graph.name graph s.exeGraphs).count_eq g
    have hcount := hout.count_eq g
    rw [List.count_cons] at hall hcount
    simp only
    omega

end State

/-! ## The version of the graphs that are handed out -/

/-- A reload after which threads use their own queues finds these queues empty. -/
def TlsEmpty (s : State) : Action → Prop
  | .reload r => r.useTls = true → s.tls.all = []
  | _ => True

instance (s : State) : (a : Action) → Decidable (TlsEmpty s a)
  | .reload r => inferInstanceAs (Decidable (r.useTls = true → _))
  | .get .. | .release .. => isTrue trivial

namespace State

/-- The invariant: the graphs of the queues that are in use have the current version. -/
structure Current (s : State) : Prop where
  shared : ∀ g ∈ s.exeGraphs.all, g.version = s.version
  tls : s.useTls = true → ∀ g ∈ s.tls.all, g.version = s.version

variable {s s' : State}

theorem Current.reloadGraph {r : Reload} (h : TlsEmpty s (.reload r)) :
    (s.reloadGraph r).Current where
  shared := (made_reloadExeGraph _ _ _ _).version
  tls htls g hg := by
    have hempty : (s.reloadGraph r).tls.all = [] := h htls
    rw [hempty] at hg
    cases hg

theorem Current.getExeGraph (h : s.Current) {thread : ℕ} {name : String} {graph : ExeGraph}
    (hget : s.getExeGraph thread name = some (graph, s')) :
    graph.version = s.version ∧ s'.Current := by
  rcases getExeGraph_cases hget with ⟨tls, htls, hpop, rfl⟩ | ⟨exeGraphs, hpop, rfl⟩
  · have hmem : ∀ g, g ∈ s.tls.all ↔ g ∈ graph :: tls.all := fun g =>
      (Queues.all_of_pop hpop).mem_iff
    exact ⟨h.tls htls _ ((hmem _).2 List.mem_cons_self),
      h.shared, fun _ g hg => h.tls htls g ((hmem g).2 (List.mem_cons_of_mem _ hg))⟩
  · have hmem : ∀ g, g ∈ s.exeGraphs.all ↔ g ∈ graph :: exeGraphs.all := fun g =>
      (Queues.all_of_pop hpop).mem_iff
    exact ⟨h.shared _ ((hmem _).2 List.mem_cons_self),
      fun g hg => h.shared g ((hmem g).2 (List.mem_cons_of_mem _ hg)), h.tls⟩

theorem Current.releaseExeGraph (h : s.Current) (thread : ℕ) (graph : ExeGraph) :
    (s.releaseExeGraph thread graph).Current := by
  rcases releaseExeGraph_cases thread graph s with ⟨-, heq⟩ | ⟨hcurrent, heq | heq⟩
  · rwa [heq]
  · rw [heq]
    refine ⟨h.shared, fun htls g hg => ?_⟩
    rcases List.mem_cons.1 ((Queues.all_push _ _ _).mem_iff.1 hg) with rfl | hg
    · exact hcurrent
    · exact h.tls htls g hg
  · rw [heq]
    refine ⟨fun g hg => ?_, h.tls⟩
    rcases List.mem_cons.1 ((Queues.all_push _ _ _).mem_iff.1 hg) with rfl | hg
    · exact hcurrent
    · exact h.shared g hg

theorem Current.next {a : Action} (h : s.Current) (hempty : TlsEmpty s a)
    (hnext : next a s = some s') : s'.Current := by
  cases a with
  | reload r =>
    simp only [GraphPool.next, Option.ite_none_right_eq_some, Option.some.injEq] at hnext
    rw [← hnext.2]
    exact Current.reloadGraph hempty
  | get thread name =>
    rw [← Option.some.inj hnext]
    cases hget : s.getExeGraph thread name with
    | none => exact h
    | some x => exact (h.getExeGraph hget).2
  | release thread i =>
    obtain ⟨graph, -, rfl⟩ := Option.map_eq_some_iff.1 hnext
    have hout : Current { s with checkedOut := s.checkedOut.eraseIdx i } := ⟨h.shared, h.tls⟩
    exact hout.releaseExeGraph thread graph

end State

/-- **A graph that is handed out has the version of the latest reload**, in every run in which
a reload for thread-local queues finds these queues empty. -/
theorem get_current {s : State} (h : Reach next TlsEmpty .init s) {thread : ℕ} {name : String}
    {graph : ExeGraph} {s' : State} (hget : s.getExeGraph thread name = some (graph, s')) :
    graph.version = s.version := by
  have hcurrent : s.Current := h.invariant (I := State.Current)
    ⟨by simp [State.init], by simp [State.init]⟩ fun _ _ _ hs hempty hnext =>
      hs.next hempty hnext
  exact (hcurrent.getExeGraph hget).1

/-- A reload of one workflow, for two graphs and thread-local queues of one. -/
def reloadSearch : Reload := ⟨2, true, 1, ["search"], List.nodup_singleton _⟩

/-- A graph is used and rests in the queue of its thread, and is used again after a reload that
found the queue empty. -/
theorem get_current_run : ∃ s graph s', Reach next TlsEmpty .init s ∧ s.version = 2 ∧
    s.getExeGraph 7 "search" = some (graph, s') ∧ graph.version = s.version := by
  obtain ⟨s, hs, hseen⟩ := exists_reach_of_follow next TlsEmpty
    [.reload reloadSearch, .get 7 "search", .release 7 0, .get 7 "search", .reload reloadSearch,
      .release 7 0, .get 3 "search", .release 7 0]
    .init (fun s => decide (s.version = 2) && (s.getExeGraph 7 "search").isSome)
    (by decide +kernel)
  obtain ⟨hversion, hsome⟩ := Bool.and_eq_true_iff.1 hseen
  obtain ⟨⟨graph, s'⟩, hget⟩ := Option.isSome_iff_exists.1 hsome
  exact ⟨s, graph, s', hs, of_decide_eq_true hversion, hget, get_current hs hget⟩

/-- **A stale graph.**  A graph of the first version rests in the queue of its thread; after a
reload the thread gets it again. -/
theorem get_stale : ∃ s graph s', Reach next (fun _ _ => True) .init s ∧
    s.getExeGraph 7 "search" = some (graph, s') ∧ graph.version = 1 ∧ s.version = 2 := by
  obtain ⟨s, hs, hseen⟩ := exists_reach_of_follow next (fun _ _ => True)
    [.reload reloadSearch, .get 7 "search", .release 7 0, .reload reloadSearch]
    .init (fun s => (s.getExeGraph 7 "search").any fun x : ExeGraph × State =>
      decide (x.1.version = 1 ∧ s.version = 2))
    (by decide +kernel)
  obtain ⟨⟨graph, s'⟩, hget, hversions⟩ := (Option.any_eq_true _ _).1 hseen
  exact ⟨s, graph, s', hs, hget, of_decide_eq_true hversions⟩

/-! ## The number of graphs -/

/-- A reload comes to a version that no graph has which is still about: one that is checked out
or rests in a thread-local queue. -/
def NewVersion (s : State) : Action → Prop
  | .reload _ => ∀ g ∈ s.tls.all ++ s.checkedOut, g.version ≠ s.version + 1
  | _ => True

instance (s : State) : (a : Action) → Decidable (NewVersion s a)
  | .reload _ => inferInstanceAs (Decidable (∀ g ∈ s.tls.all ++ s.checkedOut, _))
  | .get .. | .release .. => isTrue trivial

namespace State

/-- The graphs with a name: those in the shared queue of the name, in the thread-local queues of
it, and those that are checked out. -/
def graphsOf (s : State) (name : String) : List ExeGraph :=
  s.exeGraphs.under (· = name) ++ s.tls.under (·.2 = name) ++
    s.checkedOut.filter (·.name = name)

/-- The queues are those of the names of their graphs. -/
structure Sorted (s : State) : Prop where
  shared : s.exeGraphs.Filed id (·.name)
  tls : s.tls.Filed Prod.snd (·.name)

/-- The invariant: no graph is in two places, and there are as many of the current version as
were made. -/
structure Conserved (s : State) : Prop extends Sorted s where
  ids : (s.places.map (·.id)).Nodup
  bound : ∀ g ∈ s.places, g.id < s.created
  count : ∀ n ∈ s.names,
    s.places.countP (fun g => g.name = n ∧ g.version = s.version) = max s.poolSize 1

variable {s s' : State}

theorem Sorted.graphsOf_eq (h : s.Sorted) (name : String) :
    s.graphsOf name = s.places.filter (·.name = name) := by
  have hshared := Queues.under_eq_filter h.shared fun n => decide (n = name)
  have htls := Queues.under_eq_filter h.tls fun n => decide (n = name)
  unfold graphsOf places
  rw [List.filter_append, List.filter_append, ← hshared, ← htls]
  rfl

theorem conserved_init : init.Conserved where
  shared := Queues.filed_empty _ _
  tls := Queues.filed_empty _ _
  ids := List.nodup_nil
  bound _ hg := absurd hg List.not_mem_nil
  count _ hn := absurd hn List.not_mem_nil

theorem Sorted.getExeGraph (h : s.Sorted) {thread : ℕ} {name : String} {graph : ExeGraph}
    (hget : s.getExeGraph thread name = some (graph, s')) : s'.Sorted := by
  rcases getExeGraph_cases hget with ⟨tls, -, hpop, rfl⟩ | ⟨exeGraphs, hpop, rfl⟩
  · exact ⟨h.shared, (h.tls.of_pop hpop).2⟩
  · exact ⟨(h.shared.of_pop hpop).2, h.tls⟩

theorem Sorted.releaseExeGraph (h : s.Sorted) (thread : ℕ) (graph : ExeGraph) :
    (s.releaseExeGraph thread graph).Sorted := by
  rcases releaseExeGraph_cases thread graph s with ⟨-, heq⟩ | ⟨-, heq | heq⟩
  · rwa [heq]
  · rw [heq]
    exact ⟨h.shared, h.tls.push rfl⟩
  · rw [heq]
    exact ⟨h.shared.push rfl, h.tls⟩

/-- Moving graphs keeps their number; only graphs of other versions are lost. -/
theorem Conserved.moves (h : s.Conserved) (hsorted : s'.Sorted) (hm : Moves s s') :
    s'.Conserved := by
  have hlost : ∃ lost : List ExeGraph, s.places.Perm (lost ++ s'.places) ∧
      ∀ g ∈ lost, g.version ≠ s.version := by
    rcases hm.places with hperm | ⟨g, hperm, hold⟩
    · exact ⟨[], hperm, fun g hg => absurd hg List.not_mem_nil⟩
    · exact ⟨[g], hperm, fun g' hg' => List.mem_singleton.1 hg' ▸ hold⟩
  obtain ⟨lost, hperm, hold⟩ := hlost
  refine ⟨hsorted, ?_, fun g hg => ?_, fun n hn => ?_⟩
  · have hids := ((hperm.map (·.id)).nodup_iff).1 h.ids
    rw [List.map_append] at hids
    exact hids.of_append_right
  · rw [hm.created]
    exact h.bound g (hperm.mem_iff.2 (List.mem_append_right _ hg))
  · have hcount := h.count n (hm.names ▸ hn)
    have hnone : lost.countP (fun g => g.name = n ∧ g.version = s.version) = 0 :=
      List.countP_eq_zero.2 fun g hg hp => hold g hg (of_decide_eq_true hp).2
    rw [hperm.countP_eq, List.countP_append, hnone, Nat.zero_add] at hcount
    rw [hm.version, hm.poolSize]
    exact hcount

/-- A reload makes the graphs of the new version, and no other graph has it. -/
theorem Conserved.reloadGraph (h : s.Conserved) {r : Reload}
    (hnew : NewVersion s (.reload r)) : (s.reloadGraph r).Conserved := by
  have hmade := made_reloadExeGraph (s.version + 1) r.poolSize s.created r.names
  have hplaces : (s.reloadGraph r).places =
      (reloadExeGraph (s.version + 1) r.poolSize r.names s.created).1.all ++
        (s.tls.all ++ s.checkedOut) := by
    unfold places
    rw [List.append_assoc]
    rfl
  have hrest : ∀ g ∈ s.tls.all ++ s.checkedOut, g ∈ s.places := fun g hg => by
    unfold places
    rw [List.append_assoc]
    exact List.mem_append_right _ hg
  refine ⟨⟨hmade.filed, h.tls⟩, ?_, fun g hg => ?_, fun n hn => ?_⟩
  · rw [hplaces, List.map_append, List.nodup_append]
    refine ⟨hmade.ids, ?_, fun i hi j hj => ?_⟩
    · have hids := h.ids
      unfold places at hids
      rw [List.append_assoc, List.map_append] at hids
      exact hids.of_append_right
    · obtain ⟨g, hg, rfl⟩ := List.mem_map.1 hi
      obtain ⟨g', hg', rfl⟩ := List.mem_map.1 hj
      have hge := (hmade.bound g hg).1
      have hlt := h.bound g' (hrest g' hg')
      omega
  · rw [hplaces] at hg
    rcases List.mem_append.1 hg with hg | hg
    · exact (hmade.bound g hg).2
    · exact Nat.lt_of_lt_of_le (h.bound g (hrest g hg)) hmade.le
  · have hcount := hmade.count n
    rw [List.count_eq_one_of_mem r.nodup hn, Nat.one_mul] at hcount
    have hold : (s.tls.all ++ s.checkedOut).countP
        (fun g => g.name = n ∧ g.version = s.version + 1) = 0 :=
      List.countP_eq_zero.2 fun g hg hp => hnew g hg (of_decide_eq_true hp).2
    show (s.reloadGraph r).places.countP (fun g => g.name = n ∧ g.version = s.version + 1) =
      max r.poolSize 1
    rw [hplaces, List.countP_append, hold, Nat.add_zero, ← hcount]
    exact List.countP_congr fun g hg => by simp [hmade.version g hg]

theorem Conserved.next {a : Action} (h : s.Conserved) (hnew : NewVersion s a)
    (hnext : next a s = some s') : s'.Conserved := by
  cases a with
  | reload r =>
    simp only [GraphPool.next, Option.ite_none_right_eq_some, Option.some.injEq] at hnext
    rw [← hnext.2]
    exact h.reloadGraph hnew
  | get thread name =>
    rw [← Option.some.inj hnext]
    cases hget : s.getExeGraph thread name with
    | none => exact h
    | some x => exact h.moves (h.toSorted.getExeGraph hget) (moves_get hget)
  | release thread i =>
    obtain ⟨graph, hi, rfl⟩ := Option.map_eq_some_iff.1 hnext
    have hout : Sorted { s with checkedOut := s.checkedOut.eraseIdx i } := ⟨h.shared, h.tls⟩
    exact h.moves (hout.releaseExeGraph thread graph) (moves_release hi)

end State

/-- **No graph of the current version is lost or made**: for every name of the latest reload,
those in the shared queue, in thread-local queues and checked out are as many as the reload has
made, and no graph is in two places; in every run in which no reload comes to the version of a
graph that is still about. -/
theorem pool_conserved {s : State} (h : Reach next NewVersion .init s) :
    (∀ name ∈ s.names, (s.graphsOf name).countP (·.version = s.version) = max s.poolSize 1) ∧
      (s.places.map (·.id)).Nodup := by
  have hc : s.Conserved := h.invariant State.conserved_init fun _ _ _ hs hnew hnext =>
    hs.next hnew hnext
  refine ⟨fun name hname => ?_, hc.ids⟩
  rw [hc.toSorted.graphsOf_eq, List.countP_filter, ← hc.count name hname]
  exact List.countP_congr fun g _ => by simp [and_comm]

/-- One graph is checked out and one rests in a thread-local queue; then a graph of the version
before is released, and goes. -/
theorem pool_conserved_run : ∃ s, Reach next NewVersion .init s ∧ s.names = ["search"] ∧
    s.version = 2 ∧ s.tls.all.length = 1 ∧ s.checkedOut.length = 1 ∧
    (s.graphsOf "search").countP (·.version = s.version) = 2 := by
  obtain ⟨s, hs, hseen⟩ := exists_reach_of_follow next NewVersion
    [.reload reloadSearch, .get 7 "search", .reload reloadSearch, .get 7 "search",
      .get 3 "search", .release 3 1, .release 3 0]
    .init (fun s => decide (s.names = ["search"] ∧ s.version = 2 ∧ s.tls.all.length = 1 ∧
      s.checkedOut.length = 1 ∧ s.poolSize = 2)) (by decide +kernel)
  obtain ⟨hnames, hversion, htls, hout, hsize⟩ := of_decide_eq_true hseen
  refine ⟨s, hs, hnames, hversion, htls, hout, ?_⟩
  rw [(pool_conserved hs).1 "search" (by rw [hnames]; simp), hsize]
  rfl

theorem next_reload {r : Reload} (hr : r.poolSize < 2 ^ 32) (s : State) :
    next (.reload r) s = some (s.reloadGraph r) := by
  rw [next, if_pos (.inr hr)]

/-- A number of reloads, one after the other. -/
theorem reach_reloads {r : Reload} (hr : r.poolSize < 2 ^ 32) (s : State) (k : ℕ) :
    ∃ s', Reach next (fun _ _ => True) s s' ∧ s'.version = s.version + BitVec.ofNat 32 k ∧
      s'.checkedOut = s.checkedOut := by
  induction k with
  | zero => exact ⟨s, .refl s, by simp, rfl⟩
  | succ k ih =>
    obtain ⟨s', hs', hversion, hout⟩ := ih
    refine ⟨s'.reloadGraph r, hs'.tail trivial (next_reload hr s'), ?_, hout⟩
    show s'.version + 1 = _
    rw [hversion, BitVec.ofNat_add, BitVec.add_assoc]
    rfl

/-- After a reload the graphs in the shared queue are those it has made. -/
theorem countP_shared_reloadGraph (r : Reload) (s : State) {name : String}
    (hname : name ∈ r.names) :
    ((s.reloadGraph r).exeGraphs.under (· = name)).countP
      (·.version = (s.reloadGraph r).version) = max r.poolSize 1 := by
  have hmade := made_reloadExeGraph (s.version + 1) r.poolSize s.created r.names
  have hcount := hmade.count name
  rw [List.count_eq_one_of_mem r.nodup hname, Nat.one_mul] at hcount
  show List.countP (·.version = s.version + 1) (Queues.under (fun k => decide (id k = name))
    (reloadExeGraph (s.version + 1) r.poolSize r.names s.created).1) = _
  rw [Queues.under_eq_filter hmade.filed fun n => decide (n = name), List.countP_filter, ← hcount]
  exact List.countP_congr fun g hg => by simp [hmade.version g hg]

/-- **One graph too many.**  A graph of the first version is still checked out after 2³² more
reloads; the version is the first one again, so that it is one of the current version, besides
those the latest reload has made. -/
theorem pool_overfull : ∃ s, Reach next (fun _ _ => True) .init s ∧ s.names = ["search"] ∧
    s.poolSize = 2 ∧ 2 < (s.graphsOf "search").countP (·.version = s.version) := by
  obtain ⟨s₁, hs₁, hseen⟩ := exists_reach_of_follow next (fun _ _ => True)
    [.reload reloadSearch, .get 7 "search"] .init
    (fun s => decide (s.version = 1 ∧ s.checkedOut = [⟨1, "search", 1⟩])) (by decide +kernel)
  obtain ⟨hversion₁, hout₁⟩ := of_decide_eq_true hseen
  have hsize : reloadSearch.poolSize < 2 ^ 32 := by decide
  obtain ⟨s₂, hs₂, hversion₂, hout₂⟩ := reach_reloads hsize s₁ (2 ^ 32 - 1)
  refine ⟨s₂.reloadGraph reloadSearch, (hs₁.trans hs₂).tail trivial (next_reload hsize s₂), rfl,
    rfl, ?_⟩
  have hshared : _ = 2 := countP_shared_reloadGraph reloadSearch s₂ List.mem_cons_self
  -- the last reload comes back to the version of the graph that is checked out
  have hversion : (s₂.reloadGraph reloadSearch).version = 1 := by
    show s₂.version + 1 = 1
    rw [hversion₂, hversion₁]
    decide
  have hout : (s₂.reloadGraph reloadSearch).checkedOut = [⟨1, "search", 1⟩] := hout₂.trans hout₁
  have hone : (([⟨1, "search", 1⟩] : List ExeGraph).filter (·.name = "search")).countP
      (·.version = 1) = 1 := by decide
  unfold State.graphsOf
  rw [List.countP_append, List.countP_append, hshared, hout, hversion, hone]
  omega

end Rtp.Framework.GraphPool
