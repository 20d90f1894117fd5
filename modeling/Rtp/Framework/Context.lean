import Rtp.Framework.ExecutionGraph

/-!
# The context of a request

The model of `orc/framework/context.cc` and of the handlers a context runs
(`orc/handler`).  A context stands on a node of an execution graph; `Step` runs the
handler of the node and moves on along the edge its result chooses, unless the handler
has started remote calls.  Then the context stays on the node until the handler has been
run once more, in the state `After`.

* `isAsync`, `setAsync`, `nextStep`, `stepReset` — the small steps, with the counter that
  the two sides of an asynchronous node share.
* `baseRun` — `SyncHandler::BaseRun` and `RpcHandlerBase::BaseRun`.
* `Context.step` — `Context::Step` as one action; `none` is the null pointer it
  dereferences on a context that has been reset.

The walked path, the timers, the scheduling hint and the closure kept for the handler are
left out: no decision reads them.
-/

namespace Rtp.Framework

/-- `Context::AsyncState`. -/
inductive AsyncState where
  | before
  | after
  | finish
  deriving DecidableEq, Repr

/-- A `Context`: the node it stands on, null after `Reset`, and the fields of an
asynchronous node. -/
structure Context where
  node : Option ExecRef
  isAsync : Bool
  asyncState : AsyncState
  asyncCounter : ℤ
  deriving DecidableEq, Repr

namespace Context

/-- `Context::StepReset`. -/
def stepReset (c : Context) : Context :=
  { c with isAsync := false, asyncState := .before, asyncCounter := 0 }

/-- `Context::Setup` for a request on the graph. -/
def setup (g : ExecutionGraph) : Context := ⟨g.entry, false, .before, 0⟩

/-- `Context::Reset`. -/
def reset (c : Context) : Context := stepReset { c with node := none }

/-- `Context::IsAsync`: the answer, and the context with the counter taken down. -/
def testAsync (c : Context) : Bool × Context :=
  if c.isAsync then (decide (0 < c.asyncCounter), { c with asyncCounter := c.asyncCounter - 1 })
  else (false, c)

/-- `Context::SetAsync`. -/
def setAsync (async : Bool) (c : Context) : Context :=
  if async then { c with asyncCounter := 1, asyncState := .before, isAsync := true }
  else { c with isAsync := false }

/-- `Context::IsDone`. -/
def isDone (c : Context) : Bool := decide (c.node = some .endNode)

/-- `Context::NextStep` from the node `name` along the edge chosen by `edge`. -/
def nextStep (g : ExecutionGraph) (name : String) (edge : Bool) (c : Context) : Context :=
  stepReset { c with node := (g.getNode name).bind (·.next edge) }

/-- The end of `Context::Step`: the context moves on unless its handler waits for calls. -/
def endStep (g : ExecutionGraph) (name : String) (edge : Bool) (c : Context) : Context :=
  if !c.isAsync || c.asyncState = .finish then c.nextStep g name edge else c

variable {c : Context}

theorem testAsync_of_sync (h : c.isAsync = false) : c.testAsync = (false, c) := by
  unfold testAsync
  rw [if_neg (by simp [h])]

theorem testAsync_of_async (h : c.isAsync = true) :
    c.testAsync = (decide (0 < c.asyncCounter), { c with asyncCounter := c.asyncCounter - 1 }) := by
  unfold testAsync
  rw [if_pos h]

theorem isDone_eq_true : c.isDone = true ↔ c.node = some .endNode := by
  simp [isDone]

theorem isDone_of_node {name : String} (h : c.node = some (.node name)) : c.isDone = false := by
  simp [isDone, h]

theorem isDone_of_none (h : c.node = none) : c.isDone = false := by
  simp [isDone, h]

theorem endStep_of_sync (h : c.isAsync = false) (g : ExecutionGraph) (name : String) (edge : Bool) :
    c.endStep g name edge = c.nextStep g name edge := by
  unfold endStep
  rw [if_pos (by simp [h])]

theorem endStep_of_finish (h : c.asyncState = .finish) (g : ExecutionGraph) (name : String)
    (edge : Bool) : c.endStep g name edge = c.nextStep g name edge := by
  unfold endStep
  rw [if_pos (by simp [h])]

theorem endStep_of_waiting (h : c.isAsync = true) (h' : c.asyncState ≠ .finish) (g : ExecutionGraph)
    (name : String) (edge : Bool) : c.endStep g name edge = c := by
  unfold endStep
  rw [if_neg (by simp [h, h'])]

end Context

/-! ## Handlers -/

/-- The two kinds of handlers: `SyncHandler` and `RpcHandlerBase`. -/
inductive Handler where
  | sync
  | rpc
  deriving DecidableEq, Repr

/-- What is left open about one run of a handler: whether an RPC handler in the state
`Before` gets as far as issuing its calls, and the result where the handler chooses it. -/
structure Answer where
  issues : Bool
  result : Bool
  deriving DecidableEq, Repr

/-- `SyncHandler::BaseRun` and `RpcHandlerBase::BaseRun`: the result, and the context
after the run.  An RPC handler whose request cannot be built, that has nothing to call or
whose client group does not fit takes the asynchronous mark back. -/
def baseRun (a : Answer) : Handler → Context → Bool × Context
  | .sync, c => (a.result, c)
  | .rpc, c =>
    match c.asyncState with
    | .before => if a.issues then (true, c.setAsync true) else (a.result, c.setAsync false)
    | .after => (a.result, { c with asyncState := .finish })
    | .finish => (false, c)

/-- The run issues remote calls. -/
def issuesCalls (a : Answer) (h : Handler) (c : Context) : Bool :=
  decide (h = .rpc) && decide (c.asyncState = .before) && a.issues

section

variable {a : Answer} {h : Handler} {c : Context}

theorem rpc_of_issuesCalls (hissues : issuesCalls a h c = true) : h = .rpc := by
  simp only [issuesCalls, Bool.and_eq_true, decide_eq_true_eq] at hissues
  exact hissues.1.1

/-- A handler that issues calls marks the context. -/
theorem baseRun_issuing (hissues : issuesCalls a h c = true) :
    baseRun a h c = (true, c.setAsync true) := by
  simp only [issuesCalls, Bool.and_eq_true, decide_eq_true_eq] at hissues
  obtain ⟨⟨rfl, hstate⟩, hyes⟩ := hissues
  simp only [baseRun, hstate, hyes, if_true]

/-- A handler that does not leaves the context as it is. -/
theorem baseRun_sync (hasync : c.isAsync = false) (hstate : c.asyncState = .before)
    (hissues : issuesCalls a h c = false) : baseRun a h c = (a.result, c) := by
  cases h with
  | sync => rfl
  | rpc =>
    have hno : a.issues = false := by simpa [issuesCalls, hstate] using hissues
    have hsame : c.setAsync false = c := by
      rw [Context.setAsync, if_neg (by simp), ← hasync]
    simp only [baseRun, hstate, hno, hsame]
    rfl

/-- The second run of an RPC handler. -/
theorem baseRun_after (hstate : c.asyncState = .after) :
    baseRun a .rpc c = (a.result, { c with asyncState := .finish }) := by
  simp only [baseRun, hstate]

theorem issuesCalls_after (hstate : c.asyncState = .after) : issuesCalls a h c = false := by
  simp [issuesCalls, hstate]

end

/-- `Context::Step`: whether calls were issued, and the context after it. -/
def Context.step (g : ExecutionGraph) (handler : String → Handler) (a : Answer)
    (c : Context) : Option (Bool × Context) :=
  match c.node with
  | some (.node name) =>
    let (edge, c') := baseRun a (handler name) c
    some (issuesCalls a (handler name) c, c'.endStep g name edge)
  | _ => none

namespace Context

variable {g : ExecutionGraph} {handler : String → Handler} {a : Answer} {c : Context}

theorem step_eq_none (h : ∀ name, c.node ≠ some (.node name)) : c.step g handler a = none := by
  unfold step
  split
  next name hname => exact absurd hname (h name)
  next => rfl

variable {name : String}

/-- On a node whose handler makes no call the context moves on at once. -/
theorem step_sync (hnode : c.node = some (.node name)) (hasync : c.isAsync = false)
    (hstate : c.asyncState = .before) (hissues : issuesCalls a (handler name) c = false) :
    c.step g handler a = some (false, c.nextStep g name a.result) := by
  simp only [step, hnode, hissues, baseRun_sync hasync hstate hissues]
  rw [endStep_of_sync hasync]

/-- A handler that issues its calls leaves the context on the node. -/
theorem step_issuing (hnode : c.node = some (.node name))
    (hissues : issuesCalls a (handler name) c = true) :
    c.step g handler a = some (true, c.setAsync true) := by
  simp only [step, hnode, hissues, baseRun_issuing hissues]
  rw [endStep_of_waiting (by rfl) (by simp [setAsync])]

/-- The second run of an RPC handler moves the context on. -/
theorem step_after (hnode : c.node = some (.node name)) (hrpc : handler name = .rpc)
    (hstate : c.asyncState = .after) :
    c.step g handler a = some (false, c.nextStep g name a.result) := by
  simp only [step, hnode, hrpc, issuesCalls_after hstate, baseRun_after hstate]
  rw [endStep_of_finish (by rfl)]
  rfl

end Context

end Rtp.Framework
