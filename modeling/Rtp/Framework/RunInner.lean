import Rtp.Framework.Context
import Rtp.Lib.Reach

/-!
# The worker and the completion callback

`Workflow::RunInner` and what runs it.  After an asynchronous `Step` the worker that made
the step and the callback of the completed calls both execute `RunInner` on the same
context; the worker may still be in its loop, or between its two `IsDone` tests, when the
callback goes on.  Each evaluation of `IsAsync()` and of `IsDone()`, each `Step`, each
`ResetCtx` and each `Callback` is one action, and actions interleave in any order.

* `Request` — the context of one request with, for every point of `RunInner`, the number
  of runners that stand there.
* `next` — the actions.
* `resets_once` — **a request is finished once**: `ResetCtx` is executed at most
  once, no `Step` is executed after it, and when nothing is left to run the service closure
  is done and the graph and the session are released exactly once.  This needs two orders
  to be avoided (`Timely`): a runner that has left its loop because of `IsAsync()` must not
  test `IsDone()` when the other one has already reached the end node, and a callback that
  could not be scheduled must not reset a context while the worker is still in its loop.
* `resets_twice`, the first of the two orders: both runners reset the context.
-/

namespace Rtp.Framework.RunInner

/-- Where a runner of `Workflow::RunInner` stands: before `IsAsync()`, `IsDone()` or
`Step()` of its loop; before the `IsDone()` test after the loop, having `left` the loop
because of `IsAsync()` or because it was `done`; before `ResetCtx`, from `RunInner` or, in
`failed`, from a `Callback` that could not be scheduled. -/
inductive Pc where
  | isAsync
  | isDone
  | step
  | left
  | done
  | resetCtx
  | failed
  deriving DecidableEq, Repr

instance : Fintype Pc where
  elems := {.isAsync, .isDone, .step, .left, .done, .resetCtx, .failed}
  complete p := by cases p <;> decide

/-- One request from `SetupCtx` on.  Runners are told apart by where they stand only.
`pending` counts the started asynchronous nodes whose `Callback` has not been made. -/
structure Request where
  ctx : Context
  runners : Pc → ℕ
  pending : ℕ
  resets : ℕ
  closureDone : ℕ
  graphReleased : ℕ
  sessionReleased : ℕ
  /-- The number of `Step`s executed after a `ResetCtx`. -/
  lateSteps : ℕ
  /-- A null pointer has been dereferenced. -/
  crashed : Bool

namespace Request

/-- `Workflow::SetupCtx`, with the worker in front of its loop. -/
def setup (g : ExecutionGraph) : Request where
  ctx := .setup g
  runners p := if p = .isAsync then 1 else 0
  pending := 0
  resets := 0
  closureDone := 0
  graphReleased := 0
  sessionReleased := 0
  lateSteps := 0
  crashed := false

/-- One more runner at `p`. -/
def arrive (p : Pc) (q : Request) : Request :=
  { q with runners := Function.update q.runners p (q.runners p + 1) }

/-- One runner less at `p`. -/
def leave (p : Pc) (q : Request) : Request :=
  { q with runners := Function.update q.runners p (q.runners p - 1) }

/-- `Workflow::ResetCtx`. -/
def resetCtx (q : Request) : Request :=
  { q with
    ctx := q.ctx.reset
    resets := q.resets + 1
    closureDone := q.closureDone + 1
    graphReleased := q.graphReleased + 1
    sessionReleased := q.sessionReleased + 1 }

/-- Nothing is left to run. -/
def Quiet (q : Request) : Prop := q.crashed = false ∧ q.pending = 0 ∧ ∀ p, q.runners p = 0

instance (q : Request) : Decidable q.Quiet := inferInstanceAs (Decidable (_ ∧ _ ∧ _))

end Request

section Actions

variable (g : ExecutionGraph) (handler : String → Handler)

/-- `Context::Step` by a runner in its loop. -/
def stepCtx (a : Answer) (q : Request) : Request :=
  let late := q.lateSteps + if 0 < q.resets then 1 else 0
  match q.ctx.step g handler a with
  | some (issued, ctx) =>
    { q with
      ctx := ctx
      pending := q.pending + if issued then 1 else 0
      lateSteps := late }
  | none => { q with crashed := true, lateSteps := late }

/-- The action of a runner that stands at `p`. -/
def act (a : Answer) : Pc → Request → Request
  | .isAsync, q =>
    let (async, ctx) := q.ctx.testAsync
    { q with ctx := ctx }.arrive (if async then .left else .isDone)
  | .isDone, q => q.arrive (if q.ctx.isDone then .done else .step)
  | .step, q => (stepCtx g handler a q).arrive .isAsync
  | .left, q => if q.ctx.isDone then q.arrive .resetCtx else q
  | .done, q => if q.ctx.isDone then q.arrive .resetCtx else q
  | .resetCtx, q => q.resetCtx
  | .failed, q => q.resetCtx

/-- `Context::Callback`: `RunInner` is scheduled, or the context is to be reset.  A context
that has been reset has no workflow to run it. -/
def callback (scheduled : Bool) (q : Request) : Request :=
  if 0 < q.resets then { q with crashed := true }
  else { q with ctx := { q.ctx with asyncState := .after }, pending := q.pending - 1 }.arrive
    (if scheduled then .isAsync else .failed)

/-- An action: of a runner that stands at some point, with what is open about the handler
it may run, or the callback of an asynchronous node. -/
inductive Action where
  | act (p : Pc) (a : Answer)
  | callback (scheduled : Bool)
  deriving DecidableEq, Repr

/-- The state after an action, where it can be taken. -/
def next : Action → Request → Option Request
  | .act p a, q =>
    if q.crashed = false ∧ 0 < q.runners p then some (act g handler a p (q.leave p)) else none
  | .callback scheduled, q =>
    if q.crashed = false ∧ 0 < q.pending then some (callback scheduled q) else none

end Actions

/-! ## The phases of a request -/

/-- Runners in front of one of the last two tests of a loop round. -/
def Request.onward (q : Request) : ℕ := q.runners .isDone + q.runners .step

open Request (onward)

/-- The context stands on a node with an RPC handler. -/
def Request.OnRpc (handler : String → Handler) (q : Request) : Prop :=
  ∃ name, q.ctx.node = some (.node name) ∧ handler name = .rpc

/-- **The phases of a request.**  Runners that have left the loop because of `IsAsync()`
may be around in all of them. -/
inductive Phase (handler : String → Handler) (q : Request) : Prop where
  /-- One runner has the context for itself. -/
  | alone (hasync : q.ctx.isAsync = false) (hstate : q.ctx.asyncState = .before)
      (hpending : q.pending = 0) (hfailed : q.runners .failed = 0) (hresets : q.resets = 0)
      (hone : q.runners .isAsync + q.onward + q.runners .done + q.runners .resetCtx = 1)
      (hend : 0 < q.runners .done + q.runners .resetCtx → q.ctx.node = some .endNode)
  /-- The calls of the node are out; the counter says whether the worker has left. -/
  | waiting (hasync : q.ctx.isAsync = true) (hstate : q.ctx.asyncState = .before)
      (hpending : q.pending = 1) (hfailed : q.runners .failed = 0) (hresets : q.resets = 0)
      (hnode : q.OnRpc handler) (honward : q.onward = 0)
      (hdone : q.runners .done + q.runners .resetCtx = 0)
      (hcounter : q.ctx.asyncCounter = q.runners .isAsync) (hone : q.runners .isAsync ≤ 1)
  /-- The callback has come: the first of the two to test leaves, the second goes on. -/
  | resuming (hasync : q.ctx.isAsync = true) (hstate : q.ctx.asyncState = .after)
      (hpending : q.pending = 0) (hfailed : q.runners .failed = 0) (hresets : q.resets = 0)
      (hnode : q.OnRpc handler)
      (hdone : q.runners .done + q.runners .resetCtx = 0)
      (hcounter : q.ctx.asyncCounter + 1 = q.runners .isAsync) (htwo : q.runners .isAsync ≤ 2)
      (honward : q.onward = 1 - q.runners .isAsync)
  /-- The callback could not be scheduled. -/
  | failing (hasync : q.ctx.isAsync = true) (hstate : q.ctx.asyncState = .after)
      (hpending : q.pending = 0) (hfailed : q.runners .failed = 1) (hresets : q.resets = 0)
      (hnode : q.OnRpc handler) (honward : q.onward = 0)
      (hdone : q.runners .done + q.runners .resetCtx = 0)
      (hcounter : q.ctx.asyncCounter = q.runners .isAsync) (hone : q.runners .isAsync ≤ 1)
  /-- The request is finished. -/
  | finished (hnode : q.ctx.node = none) (hpending : q.pending = 0) (hresets : q.resets = 1)
      (hgone : q.runners .isAsync + q.onward + q.runners .done + q.runners .resetCtx +
        q.runners .failed = 0)

/-- What holds in every state of a timely run. -/
structure Inv (handler : String → Handler) (q : Request) : Prop where
  phase : q.crashed = false → Phase handler q
  resets_le : q.resets ≤ 1
  closureDone_eq : q.closureDone = q.resets
  graphReleased_eq : q.graphReleased = q.resets
  sessionReleased_eq : q.sessionReleased = q.resets
  lateSteps_eq : q.lateSteps = 0

/-- The two orders that are avoided: a runner that left its loop because of `IsAsync()`
tests `IsDone()` before the context reaches the end node, and a callback that could not be
scheduled resets the context when nobody is in the loop any more. -/
def Timely (q : Request) : Action → Prop
  | .act .left _ => q.ctx.isDone = false
  | .act .failed _ => q.runners .isAsync + q.runners .isDone + q.runners .step = 0
  | _ => True

instance (q : Request) : (x : Action) → Decidable (Timely q x)
  | .act .left _ => inferInstanceAs (Decidable (_ = _))
  | .act .failed _ => inferInstanceAs (Decidable (_ = _))
  | .act .isAsync _ | .act .isDone _ | .act .step _ | .act .done _ | .act .resetCtx _
  | .callback _ => isTrue trivial

theorem setup_inv (g : ExecutionGraph) (handler : String → Handler) :
    Inv handler (.setup g) := by
  refine ⟨fun _ => ?_, by simp [Request.setup], rfl, rfl, rfl, rfl⟩
  apply Phase.alone <;> simp [Request.setup, Context.setup, onward]

/-! ## Every timely action keeps the phase -/

@[simp] theorem runners_arrive (p x : Pc) (q : Request) :
    (q.arrive p).runners x = q.runners x + if x = p then 1 else 0 := by
  unfold Request.arrive
  by_cases h : x = p
  · subst h; simp
  · simp [h]

@[simp] theorem runners_leave (p x : Pc) (q : Request) :
    (q.leave p).runners x = q.runners x - if x = p then 1 else 0 := by
  unfold Request.leave
  by_cases h : x = p
  · subst h; simp
  · simp [h]

@[simp] theorem arrive_ctx (p : Pc) (q : Request) : (q.arrive p).ctx = q.ctx := rfl
@[simp] theorem arrive_pending (p : Pc) (q : Request) : (q.arrive p).pending = q.pending := rfl
@[simp] theorem leave_ctx (p : Pc) (q : Request) : (q.leave p).ctx = q.ctx := rfl
@[simp] theorem leave_pending (p : Pc) (q : Request) : (q.leave p).pending = q.pending := rfl
@[simp] theorem leave_resets (p : Pc) (q : Request) : (q.leave p).resets = q.resets := rfl

section Steps

variable {g : ExecutionGraph} {handler : String → Handler} {q : Request}

theorem Request.OnRpc.not_isDone (h : q.OnRpc handler) : q.ctx.isDone = false :=
  Context.isDone_of_node h.choose_spec.1

/-- The context with its counter taken down. -/
def Request.countDown (q : Request) : Request :=
  { q with ctx := { q.ctx with asyncCounter := q.ctx.asyncCounter - 1 } }

@[simp] theorem runners_countDown (q : Request) (p : Pc) :
    q.countDown.runners p = q.runners p := rfl

theorem act_isAsync_sync (h : q.ctx.isAsync = false) (a : Answer) :
    act g handler a .isAsync (q.leave .isAsync) = (q.leave .isAsync).arrive .isDone := by
  have htest : (q.leave .isAsync).ctx.testAsync = (false, (q.leave .isAsync).ctx) :=
    Context.testAsync_of_sync h
  simp only [act, htest]
  rfl

/-- The first of the two sides to test an asynchronous context leaves. -/
theorem act_isAsync_first (h : q.ctx.isAsync = true) (hc : 0 < q.ctx.asyncCounter)
    (a : Answer) : act g handler a .isAsync (q.leave .isAsync) =
      (q.countDown.leave .isAsync).arrive .left := by
  have htest : (q.leave .isAsync).ctx.testAsync = (true, q.countDown.ctx) := by
    rw [leave_ctx, Context.testAsync_of_async h, decide_eq_true hc]
    rfl
  simp only [act, htest]
  rfl

/-- The second one goes on. -/
theorem act_isAsync_second (h : q.ctx.isAsync = true) (hc : ¬ 0 < q.ctx.asyncCounter)
    (a : Answer) : act g handler a .isAsync (q.leave .isAsync) =
      (q.countDown.leave .isAsync).arrive .isDone := by
  have htest : (q.leave .isAsync).ctx.testAsync = (false, q.countDown.ctx) := by
    rw [leave_ctx, Context.testAsync_of_async h, decide_eq_false hc]
    rfl
  simp only [act, htest]
  rfl

theorem act_isDone_true (h : q.ctx.isDone = true) (a : Answer) :
    act g handler a .isDone (q.leave .isDone) = (q.leave .isDone).arrive .done := by
  have hd : (q.leave .isDone).ctx.isDone = true := h
  simp only [act, hd, if_true]

theorem act_isDone_false (h : q.ctx.isDone = false) (a : Answer) :
    act g handler a .isDone (q.leave .isDone) = (q.leave .isDone).arrive .step := by
  have hd : (q.leave .isDone).ctx.isDone = false := h
  simp only [act, hd]
  rfl

variable {p : Pc}

/-- The test after the loop: the runner goes on to reset the context. -/
theorem act_last_true (hp : p = .left ∨ p = .done) (h : q.ctx.isDone = true) (a : Answer) :
    act g handler a p (q.leave p) = (q.leave p).arrive .resetCtx := by
  have hd : (q.leave p).ctx.isDone = true := h
  rcases hp with rfl | rfl <;> simp only [act, hd, if_true]

/-- The test after the loop: the runner is through. -/
theorem act_last_false (hp : p = .left ∨ p = .done) (h : q.ctx.isDone = false) (a : Answer) :
    act g handler a p (q.leave p) = q.leave p := by
  rcases hp with rfl | rfl <;> simp [act, h]

theorem Phase.isAsync (h : Phase handler q) (hp : 0 < q.runners .isAsync) (a : Answer) :
    Phase handler (act g handler a .isAsync (q.leave .isAsync)) := by
  cases h with
  | alone hasync hstate hpending hfailed hresets hone hend =>
    rw [act_isAsync_sync hasync]
    refine Phase.alone hasync hstate hpending (by simpa using hfailed) hresets ?_
      (by simpa using hend)
    simp [onward] at hone ⊢
    omega
  | waiting hasync hstate hpending hfailed hresets hnode honward hdone hcounter hone =>
    -- the worker is the first of the two and leaves
    rw [act_isAsync_first hasync (by omega)]
    refine Phase.waiting hasync hstate hpending (by simpa using hfailed) hresets hnode
      (by simpa [onward] using honward) (by simpa using hdone) ?_ ?_ <;>
      simp [Request.countDown] <;> omega
  | resuming hasync hstate hpending hfailed hresets hnode hdone hcounter htwo honward =>
    simp only [onward] at honward
    by_cases hc : 0 < q.ctx.asyncCounter
    · rw [act_isAsync_first hasync hc]
      refine Phase.resuming hasync hstate hpending (by simpa using hfailed) hresets hnode
        (by simpa using hdone) ?_ ?_ ?_ <;> simp [Request.countDown, onward] <;> omega
    · rw [act_isAsync_second hasync hc]
      refine Phase.resuming hasync hstate hpending (by simpa using hfailed) hresets hnode
        (by simpa using hdone) ?_ ?_ ?_ <;> simp [Request.countDown, onward] <;> omega
  | failing hasync hstate hpending hfailed hresets hnode honward hdone hcounter hone =>
    rw [act_isAsync_first hasync (by omega)]
    refine Phase.failing hasync hstate hpending (by simpa using hfailed) hresets hnode
      (by simpa [onward] using honward) (by simpa using hdone) ?_ ?_ <;>
      simp [Request.countDown] <;> omega
  | finished hnode hpending hresets hgone => omega

theorem Phase.isDone (h : Phase handler q) (hp : 0 < q.runners .isDone) (a : Answer) :
    Phase handler (act g handler a .isDone (q.leave .isDone)) := by
  cases h with
  | alone hasync hstate hpending hfailed hresets hone hend =>
    simp only [onward] at hone
    by_cases hd : q.ctx.isDone = true
    · rw [act_isDone_true hd]
      refine Phase.alone hasync hstate hpending (by simpa using hfailed) hresets ?_
        (fun _ => Context.isDone_eq_true.1 hd)
      simp [onward]
      omega
    · rw [act_isDone_false (by simpa using hd)]
      refine Phase.alone hasync hstate hpending (by simpa using hfailed) hresets ?_
        (by simpa using hend)
      simp [onward]
      omega
  | resuming hasync hstate hpending hfailed hresets hnode hdone hcounter htwo honward =>
    simp only [onward] at honward
    rw [act_isDone_false hnode.not_isDone]
    refine Phase.resuming hasync hstate hpending (by simpa using hfailed) hresets hnode
      (by simpa using hdone) (by simpa using hcounter) (by simpa using htwo) ?_
    simp [onward]
    omega
  | waiting _ _ _ _ _ _ honward | failing _ _ _ _ _ _ honward =>
    simp only [onward] at honward
    omega
  | finished _ _ _ hgone =>
    simp only [onward] at hgone
    omega

theorem Phase.left (h : Phase handler q) (htimely : q.ctx.isDone = false) (a : Answer) :
    Phase handler (act g handler a .left (q.leave .left)) := by
  rw [act_last_false (.inl rfl) htimely]
  cases h with
  | alone hasync hstate hpending hfailed hresets hone hend =>
    exact Phase.alone hasync hstate hpending (by simpa using hfailed) hresets
      (by simpa [onward] using hone) (by simpa using hend)
  | waiting hasync hstate hpending hfailed hresets hnode honward hdone hcounter hone =>
    exact Phase.waiting hasync hstate hpending (by simpa using hfailed) hresets hnode
      (by simpa [onward] using honward) (by simpa using hdone) (by simpa using hcounter)
      (by simpa using hone)
  | resuming hasync hstate hpending hfailed hresets hnode hdone hcounter htwo honward =>
    exact Phase.resuming hasync hstate hpending (by simpa using hfailed) hresets hnode
      (by simpa using hdone) (by simpa using hcounter) (by simpa using htwo)
      (by simpa [onward] using honward)
  | failing hasync hstate hpending hfailed hresets hnode honward hdone hcounter hone =>
    exact Phase.failing hasync hstate hpending (by simpa using hfailed) hresets hnode
      (by simpa [onward] using honward) (by simpa using hdone) (by simpa using hcounter)
      (by simpa using hone)
  | finished hnode hpending hresets hgone =>
    exact Phase.finished hnode hpending hresets (by simpa [onward] using hgone)

theorem Phase.done (h : Phase handler q) (hp : 0 < q.runners .done) (a : Answer) :
    Phase handler (act g handler a .done (q.leave .done)) := by
  cases h with
  | alone hasync hstate hpending hfailed hresets hone hend =>
    have hnode := hend (by omega)
    rw [act_last_true (.inr rfl) (Context.isDone_eq_true.2 hnode)]
    refine Phase.alone hasync hstate hpending (by simpa using hfailed) hresets ?_
      (fun _ => hnode)
    simp [onward] at hone ⊢
    omega
  | waiting => omega
  | resuming => omega
  | failing => omega
  | finished => omega

@[simp] theorem runners_resetCtx (q : Request) (p : Pc) :
    q.resetCtx.runners p = q.runners p := rfl

theorem Phase.resetCtx (h : Phase handler q) (hp : 0 < q.runners .resetCtx) :
    Phase handler (q.leave .resetCtx).resetCtx := by
  cases h with
  | alone hasync hstate hpending hfailed hresets hone hend =>
    refine Phase.finished rfl hpending (by simp [Request.resetCtx, hresets]) ?_
    simp only [onward] at hone
    simp [onward]
    omega
  | waiting => omega
  | resuming => omega
  | failing => omega
  | finished => omega

theorem Phase.failed (h : Phase handler q) (hp : 0 < q.runners .failed)
    (htimely : q.runners .isAsync + q.runners .isDone + q.runners .step = 0) :
    Phase handler (q.leave .failed).resetCtx := by
  cases h with
  | failing hasync hstate hpending hfailed hresets hnode honward hdone hcounter hone =>
    refine Phase.finished rfl hpending (by simp [Request.resetCtx, hresets]) ?_
    simp [onward]
    omega
  | alone => omega
  | waiting => omega
  | resuming => omega
  | finished => omega

theorem Phase.step (h : Phase handler q) (hp : 0 < q.runners .step) (a : Answer)
    (hok : (act g handler a .step (q.leave .step)).crashed = false) :
    Phase handler (act g handler a .step (q.leave .step)) := by
  have hname : ∃ name, q.ctx.node = some (.node name) := by
    by_contra hno
    have hnull : q.ctx.step g handler a = none :=
      Context.step_eq_none fun name hname => hno ⟨name, hname⟩
    simp [act, stepCtx, Request.arrive, hnull] at hok
  obtain ⟨name, hname⟩ := hname
  simp only [act, stepCtx, leave_ctx]
  cases h with
  | alone hasync hstate hpending hfailed hresets hone hend =>
    simp only [onward] at hone
    cases hi : issuesCalls a (handler name) q.ctx with
    | false =>
      rw [Context.step_sync hname hasync hstate hi]
      refine Phase.alone rfl rfl (by simpa using hpending) (by simpa using hfailed) hresets ?_
        fun hpos => ?_
      · simp [onward]
        omega
      · simp at hpos
        omega
    | true =>
      rw [Context.step_issuing hname hi]
      have hrpc : handler name = .rpc := rpc_of_issuesCalls hi
      refine Phase.waiting rfl rfl (by simp [hpending]) (by simpa using hfailed) hresets
        ⟨name, hname, hrpc⟩ ?_ ?_ ?_ ?_ <;> simp [onward, Context.setAsync] <;> omega
  | resuming hasync hstate hpending hfailed hresets hnode hdone hcounter htwo honward =>
    obtain ⟨name', hname', hrpc⟩ := hnode
    simp only [onward] at honward
    rw [Context.step_after hname' hrpc hstate]
    refine Phase.alone rfl rfl (by simpa using hpending) (by simpa using hfailed) hresets ?_
      fun hpos => ?_
    · simp [onward]
      omega
    · simp at hpos
      omega
  | waiting _ _ _ _ _ _ honward | failing _ _ _ _ _ _ honward =>
    simp only [onward] at honward
    omega
  | finished hnode hpending hresets hgone =>
    simp only [onward] at hgone
    omega

theorem Phase.callback (h : Phase handler q) (hp : 0 < q.pending) (scheduled : Bool) :
    Phase handler (callback scheduled q) := by
  cases h with
  | waiting hasync hstate hpending hfailed hresets hnode honward hdone hcounter hone =>
    simp only [RunInner.callback, hresets]
    cases scheduled with
    | true =>
      refine Phase.resuming hasync rfl (by simp [hpending]) (by simpa using hfailed) rfl hnode
        (by simpa using hdone) ?_ ?_ ?_ <;> simp [onward] at honward ⊢ <;> omega
    | false =>
      exact Phase.failing hasync rfl (by simp [hpending]) (by simp [hfailed]) rfl hnode
        (by simpa [onward] using honward) (by simpa using hdone) (by simpa using hcounter)
        (by simpa using hone)
  | alone => omega
  | resuming => omega
  | failing => omega
  | finished => omega

/-- Whoever is still to act on the context acts on one that has not been reset. -/
theorem Phase.resets_eq_zero (h : Phase handler q)
    (hp : 0 < q.runners .isAsync + q.onward + q.runners .done + q.runners .resetCtx +
      q.runners .failed + q.pending) : q.resets = 0 := by
  cases h with
  | alone _ _ _ _ hresets | waiting _ _ _ _ hresets | resuming _ _ _ _ hresets => exact hresets
  | failing _ _ _ _ hresets => exact hresets
  | finished => omega

/-- An action that neither resets the context nor steps on a reset one keeps the
invariant if it keeps the phase. -/
theorem Inv.of_phase {q' : Request} (h : Inv handler q)
    (hphase : q'.crashed = false → Phase handler q') (hresets : q'.resets = q.resets)
    (hdone : q'.closureDone = q.closureDone) (hgraph : q'.graphReleased = q.graphReleased)
    (hsession : q'.sessionReleased = q.sessionReleased) (hlate : q'.lateSteps = q.lateSteps) :
    Inv handler q' :=
  ⟨hphase, hresets ▸ h.resets_le, by rw [hdone, hresets, h.closureDone_eq],
    by rw [hgraph, hresets, h.graphReleased_eq], by rw [hsession, hresets, h.sessionReleased_eq],
    hlate ▸ h.lateSteps_eq⟩

/-- The same for an action that resets the context. -/
theorem Inv.of_reset (h : Inv handler q) (hresets : q.resets = 0)
    (hphase : Phase handler (q.leave p).resetCtx) : Inv handler (q.leave p).resetCtx :=
  ⟨fun _ => hphase, by simp [Request.resetCtx, hresets],
    congrArg (· + 1) h.closureDone_eq, congrArg (· + 1) h.graphReleased_eq,
    congrArg (· + 1) h.sessionReleased_eq, h.lateSteps_eq⟩

theorem Inv.act (h : Inv handler q) (hok : q.crashed = false) (hp : 0 < q.runners p) (a : Answer)
    (htimely : Timely q (.act p a)) : Inv handler (act g handler a p (q.leave p)) := by
  have hphase := h.phase hok
  cases p with
  | isAsync => exact h.of_phase (fun _ => hphase.isAsync hp a) rfl rfl rfl rfl rfl
  | isDone => exact h.of_phase (fun _ => hphase.isDone hp a) rfl rfl rfl rfl rfl
  | step =>
    have hresets : q.resets = 0 := hphase.resets_eq_zero (by simp only [onward]; omega)
    refine h.of_phase (fun hok' => hphase.step hp a hok') ?_ ?_ ?_ ?_ ?_ <;>
      (simp only [RunInner.act, stepCtx]; split <;> simp [Request.arrive, Request.leave, hresets])
  | left =>
    refine h.of_phase (fun _ => hphase.left htimely a) ?_ ?_ ?_ ?_ ?_ <;>
      (simp only [RunInner.act]; split <;> rfl)
  | done =>
    refine h.of_phase (fun _ => hphase.done hp a) ?_ ?_ ?_ ?_ ?_ <;>
      (simp only [RunInner.act]; split <;> rfl)
  | resetCtx => exact h.of_reset (hphase.resets_eq_zero (by omega)) (hphase.resetCtx hp)
  | failed => exact h.of_reset (hphase.resets_eq_zero (by omega)) (hphase.failed hp htimely)

theorem Inv.callback (h : Inv handler q) (hok : q.crashed = false) (hp : 0 < q.pending)
    (scheduled : Bool) : Inv handler (callback scheduled q) := by
  have hphase := h.phase hok
  have hresets : q.resets = 0 := hphase.resets_eq_zero (by omega)
  refine h.of_phase (fun _ => hphase.callback hp scheduled) ?_ ?_ ?_ ?_ ?_ <;>
    simp [RunInner.callback, Request.arrive, hresets]

theorem next_inv {x : Action} {q' : Request} (h : Inv handler q) (htimely : Timely q x)
    (hnext : next g handler x q = some q') : Inv handler q' := by
  cases x with
  | act p a =>
    simp only [next, Option.ite_none_right_eq_some, Option.some.injEq] at hnext
    obtain ⟨⟨hok, hp⟩, rfl⟩ := hnext
    exact h.act hok hp a htimely
  | callback scheduled =>
    simp only [next, Option.ite_none_right_eq_some, Option.some.injEq] at hnext
    obtain ⟨⟨hok, hp⟩, rfl⟩ := hnext
    exact h.callback hok hp scheduled

/-- When nothing is left to run, the context has been reset. -/
theorem Inv.resets_of_quiet (h : Inv handler q) (hquiet : q.Quiet) : q.resets = 1 := by
  obtain ⟨hok, hpending, hnone⟩ := hquiet
  cases h.phase hok with
  | alone _ _ _ _ _ hone => simp [onward, hnone] at hone
  | waiting _ _ hpending' => omega
  | resuming _ _ _ _ _ _ _ _ _ honward => simp [onward, hnone] at honward
  | failing _ _ _ hfailed => simp [hnone] at hfailed
  | finished _ _ hresets => exact hresets

end Steps

/-- **A request is finished once.**  For every execution graph, whatever its handlers do and
whether callbacks can be scheduled or not: in every state that timely actions lead to,
`ResetCtx` has been executed at most once and no `Step` after it; and once nothing is left
to run, the closure has been done and the graph and the session released exactly once. -/
theorem resets_once (g : ExecutionGraph) (handler : String → Handler) (q : Request)
    (h : Reach (next g handler) Timely (.setup g) q) :
    q.resets ≤ 1 ∧ q.lateSteps = 0 ∧
      (q.Quiet → q.closureDone = 1 ∧ q.graphReleased = 1 ∧ q.sessionReleased = 1) := by
  have hinv : Inv handler q := h.invariant (setup_inv g handler) fun _ _ _ => next_inv
  refine ⟨hinv.resets_le, hinv.lateSteps_eq, fun hquiet => ?_⟩
  have hresets := hinv.resets_of_quiet hquiet
  exact ⟨hinv.closureDone_eq.trans hresets, hinv.graphReleased_eq.trans hresets,
    hinv.sessionReleased_eq.trans hresets⟩

/-! ## The orders to be avoided -/

/-- A graph with the single node `A`, followed by the end node. -/
def oneNode : ExecutionGraph :=
  { (ExecutionGraph.new "w").addNode "A" ⟨"A", some .endNode, some .endNode, some "A"⟩ with
    entry := some (.node "A") }

/-- A round of the loop that ends with a `Step`. -/
def round (issues : Bool) : List Action :=
  [.act .isAsync ⟨issues, true⟩, .act .isDone ⟨issues, true⟩, .act .step ⟨issues, true⟩]

/-- The loop is left at the end node, and the context is reset. -/
def finish : List Action :=
  [.act .isAsync ⟨false, true⟩, .act .isDone ⟨false, true⟩, .act .done ⟨false, true⟩,
    .act .resetCtx ⟨false, true⟩]

/-- A remote call on the only node: the worker leaves, and the callback finishes the
request. -/
theorem resets_once_oneNode :
    ∃ q, Reach (next oneNode fun _ => .rpc) Timely (.setup oneNode) q ∧ q.Quiet ∧
      q.resets ≤ 1 ∧ q.closureDone = 1 := by
  obtain ⟨q, hreach, hquiet⟩ := exists_reach_of_follow (next oneNode fun _ => .rpc) Timely
    (round true ++ [.act .isAsync ⟨false, true⟩, .act .left ⟨false, true⟩, .callback true] ++
      round false ++ finish) (.setup oneNode) (fun q => decide q.Quiet) (by decide +kernel)
  have hquiet : q.Quiet := of_decide_eq_true hquiet
  obtain ⟨hresets, -, hdone⟩ := resets_once oneNode (fun _ => .rpc) q hreach
  exact ⟨q, hreach, hquiet, hresets, (hdone hquiet).1⟩

/-- **Both runners finish the request.**  The worker has left its loop because of
`IsAsync()` and has not made its last `IsDone()` test when the callback's runner moves the
context to the end node: both find the request done, and `ResetCtx` is executed twice.  A
callback that cannot be scheduled while the worker is still in its loop makes it `Step` on
a context that has been reset. -/
theorem resets_twice :
    (∃ q, Reach (next oneNode fun _ => .rpc) (fun _ _ => True) (.setup oneNode) q ∧
      q.resets = 2 ∧ q.closureDone = 2) ∧
    ∃ q, Reach (next oneNode fun _ => .rpc) (fun _ _ => True) (.setup oneNode) q ∧
      q.resets = 1 ∧ q.lateSteps = 1 := by
  constructor
  · obtain ⟨q, hreach, hq⟩ := exists_reach_of_follow (next oneNode fun _ => .rpc)
      (fun _ _ => True)
      (round true ++ [.act .isAsync ⟨false, true⟩, .callback true] ++ round false ++
        [.act .left ⟨false, true⟩] ++ finish ++ [.act .resetCtx ⟨false, true⟩])
      (.setup oneNode) (fun q => decide (q.resets = 2 ∧ q.closureDone = 2)) (by decide +kernel)
    exact ⟨q, hreach, of_decide_eq_true hq⟩
  · obtain ⟨q, hreach, hq⟩ := exists_reach_of_follow (next oneNode fun _ => .rpc)
      (fun _ _ => True)
      (round true ++ [.callback false, .act .failed ⟨false, true⟩] ++ round false)
      (.setup oneNode) (fun q => decide (q.resets = 1 ∧ q.lateSteps = 1)) (by decide +kernel)
    exact ⟨q, hreach, of_decide_eq_true hq⟩

end Rtp.Framework.RunInner
