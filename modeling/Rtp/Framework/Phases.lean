import Mathlib.Algebra.Group.Nat.Defs
import Rtp.Framework.RpcStep

/-!
# The phases of a request with remote calls

The invariant of the system of `RpcStep`.  Two things carry it.  Every barrier by itself
counts rightly (`Barrier.Ok`): it makes its callback with its last call, because fewer than
2³² calls are missing whenever one is completed.  And the request is in one of five phases,
which say how many runners there can be at each point, the worker in `Invoke` or at the end
of its `Step` among them; as in `RunInner`, the counter of the context tells how many of the
two sides have not tested it.  No order of actions is excluded here, so the phases allow for
contexts that are reset more than once.

* `Barrier.Ok.run` — a completed call.
* `Phase`, `Inv` — the invariant; `Countable`, the bound on the number of calls.
* `Phase.isAsync`, `Phase.isDone`, `Phase.left`, `Phase.done`, `Phase.resetCtx` — the actions
  of the loop of `RunInner` keep the phase.
-/

namespace Rtp.Framework.RpcStep

open RunInner (Pc)
open RunInner.Request (onward)

/-! ## Barriers -/

/-- A barrier that counts rightly. -/
structure Barrier.Ok (b : Barrier) : Prop where
  calls_le : b.calls ≤ 2 ^ 32
  issued_le : b.issued ≤ b.calls
  completed_le : b.completed ≤ b.issued
  times_eq : b.times = BitVec.ofNat 32 (b.calls - b.completed)
  callbacks_eq : b.callbacks = if b.outstanding then 0 else 1
  issued_eq : b.issuing = false → b.issued = b.calls

namespace Barrier

theorem ok_new {calls : ℕ} (hpos : 1 ≤ calls) (hle : calls ≤ 2 ^ 32) : Ok (new calls) where
  calls_le := hle
  issued_le := Nat.zero_le _
  completed_le := le_rfl
  times_eq := rfl
  callbacks_eq := by
    rw [if_pos]
    · rfl
    · exact decide_eq_true (show 0 < calls from hpos)
  issued_eq h := absurd h (by simp [new])

variable {b : Barrier}

theorem Ok.issue (h : Ok b) (hlt : b.issued < b.calls) (hi : b.issuing = true) : Ok b.issue where
  calls_le := h.calls_le
  issued_le := hlt
  completed_le := le_trans h.completed_le (Nat.le_succ _)
  times_eq := h.times_eq
  callbacks_eq := h.callbacks_eq
  issued_eq hf := absurd (hi.symm.trans hf) (by simp)

theorem Ok.issued (h : Ok b) (heq : b.issued = b.calls) : Ok { b with issuing := false } where
  calls_le := h.calls_le
  issued_le := h.issued_le
  completed_le := h.completed_le
  times_eq := h.times_eq
  callbacks_eq := h.callbacks_eq
  issued_eq _ := heq

/-- Of fewer than 2³² calls that are missing, the counter is zero when none is. -/
theorem ofNat_eq_zero_iff {n : ℕ} (h : n < 2 ^ 32) : BitVec.ofNat 32 n = 0 ↔ n = 0 := by
  constructor
  · intro h0
    have := congrArg BitVec.toNat h0
    rw [BitVec.toNat_ofNat, Nat.mod_eq_of_lt h] at this
    exact this
  · rintro rfl
    rfl

theorem run_fst (b : Barrier) : b.run.1 = decide (b.times - 1 = 0) := by
  unfold run
  by_cases h : b.times - 1#32 = 0#32 <;> simp [h]

theorem run_snd (b : Barrier) :
    b.run.2 = { b with
      completed := b.completed + 1
      times := b.times - 1
      callbacks := b.callbacks + if b.run.1 then 1 else 0 } := by
  rw [run_fst]
  unfold run
  by_cases h : b.times - 1#32 = 0#32 <;> simp [h]

/-- **A completed call.**  It makes the callback exactly if it is the last one. -/
theorem Ok.run (h : Ok b) (hlt : b.completed < b.issued) :
    Ok b.run.2 ∧ b.run.2.issuing = b.issuing ∧ b.outstanding = true ∧
      b.run.2.outstanding = !b.run.1 := by
  have hlt' : b.completed < b.calls := lt_of_lt_of_le hlt h.issued_le
  have hsmall : b.calls - (b.completed + 1) < 2 ^ 32 := by have := h.calls_le; omega
  have hout : b.outstanding = true := decide_eq_true hlt'
  have htimes : b.times - 1 = BitVec.ofNat 32 (b.calls - (b.completed + 1)) := by
    have hsucc : b.calls - b.completed = b.calls - (b.completed + 1) + 1 := by omega
    rw [h.times_eq, hsucc, BitVec.ofNat_add]
    exact BitVec.add_sub_cancel _ _
  have hout' : b.run.2.outstanding = !b.run.1 := by
    have hfst : b.run.1 = decide (b.calls - (b.completed + 1) = 0) := by
      rw [run_fst, htimes]
      exact decide_eq_decide.2 (ofNat_eq_zero_iff hsmall)
    rw [hfst, run_snd, outstanding, ← decide_not]
    refine decide_eq_decide.2 ?_
    show b.completed + 1 < b.calls ↔ _
    omega
  have hcb : b.run.2.callbacks = if b.run.2.outstanding then 0 else 1 := by
    rw [hout', run_snd, h.callbacks_eq, if_pos hout]
    cases b.run.1 <;> rfl
  refine ⟨⟨?_, ?_, ?_, ?_, hcb, ?_⟩, by rw [run_snd], hout, hout'⟩ <;> rw [run_snd]
  · exact h.calls_le
  · exact h.issued_le
  · exact hlt
  · exact htimes
  · exact h.issued_eq

end Barrier

/-! ## The phases of a request -/

/-- The worker in `Step` and the runners in front of `IsAsync()`. -/
def Request.busy (q : Request) : ℕ := q.issuing + q.ending true + q.base.runners .isAsync

/-- **The phases of a request.**  Runners that have left their loop because of `IsAsync()`
may be around in all of them. -/
inductive Phase (handler : String → Handler) (q : Request) : Prop where
  /-- One runner has the context for itself.  At the end node the ones that left earlier
  may take the request for theirs to finish. -/
  | alone (hasync : q.base.ctx.isAsync = false) (hstate : q.base.ctx.asyncState = .before)
      (hresets : q.base.resets = 0) (hissuing : q.issuing = 0)
      (hcalls : q.outstanding + q.calling + q.scheduling = 0)
      (hone : q.base.runners .isAsync + q.base.onward + q.base.runners .done + q.endings ≤ 1)
      (hend : 0 < q.base.runners .done + q.base.runners .resetCtx →
        q.base.ctx.node = some .endNode)
      (hnode : 0 < q.endings → ∃ name, q.base.ctx.node = some (.node name))
      (hvisit : q.visit = ⟨false, if q.endings = 0 then [] else [.before], 0⟩)
  /-- The calls of the node are out, or their callback is on its way. -/
  | waiting (hasync : q.base.ctx.isAsync = true)
      (hstate : q.base.ctx.asyncState = if q.scheduling = 0 then .before else .after)
      (hresets : q.base.resets = 0) (hnode : q.base.OnRpc handler)
      (hcalls : q.outstanding + q.calling + q.scheduling = 1)
      (hothers : q.base.onward + q.base.runners .done + q.base.runners .resetCtx +
        q.ending false = 0)
      (hcounter : q.base.ctx.asyncCounter = q.busy) (hone : q.busy ≤ 1)
      (hvisit : q.visit = ⟨true, [.before], q.scheduling⟩)
  /-- The callback has come: the first of the two to test leaves, the second goes on. -/
  | resuming (hasync : q.base.ctx.isAsync = true) (hstate : q.base.ctx.asyncState = .after)
      (hresets : q.base.resets = 0) (hnode : q.base.OnRpc handler)
      (hcalls : q.outstanding + q.calling + q.scheduling = 0)
      (hothers : q.base.runners .done + q.base.runners .resetCtx + q.ending false = 0)
      (hcounter : q.base.ctx.asyncCounter + 1 = q.busy) (htwo : q.busy ≤ 2)
      (hworker : q.issuing + q.ending true ≤ 1) (honward : q.base.onward = 1 - q.busy)
      (hvisit : q.visit = ⟨true, [.before], 1⟩)
  /-- The handler has been run for the second time. -/
  | finishing (hasync : q.base.ctx.isAsync = true) (hstate : q.base.ctx.asyncState = .finish)
      (hresets : q.base.resets = 0) (hnode : q.base.OnRpc handler)
      (hcalls : q.outstanding + q.calling + q.scheduling + q.issuing = 0)
      (hothers : q.base.runners .isAsync + q.base.onward + q.base.runners .done +
        q.base.runners .resetCtx = 0)
      (hone : q.endings = 1) (hvisit : q.visit = ⟨true, [.before, .after], 1⟩)
  /-- The context has been reset. -/
  | finished (hasync : q.base.ctx.isAsync = false) (hnode : q.base.ctx.node = none)
      (hcalls : q.outstanding + q.calling + q.scheduling = 0) (hstep : q.inStep = 0)
      (hone : q.base.runners .isAsync + q.base.onward + q.base.runners .done ≤ 1)

/-- The visit to a node is as it should be when the context leaves it. -/
def Visit.Ok (v : Visit) : Prop :=
  v = ⟨false, [.before], 0⟩ ∨ v = ⟨true, [.before, .after], 1⟩

/-- What holds in every state of a run. -/
structure Inv (handler : String → Handler) (q : Request) : Prop where
  phase : q.base.crashed = false → Phase handler q
  inStep_le : q.inStep ≤ 1
  barriers_ok : ∀ b ∈ q.barriers, b.Ok
  visits_ok : ∀ v ∈ q.visits, v.Ok
  failed_eq : q.base.runners .failed = 0

/-- No node issues more calls than the barrier can count, and every one that issues calls
issues some. -/
def Countable (_ : Request) : Action → Prop
  | .enter _ calls => 1 ≤ calls ∧ calls ≤ 2 ^ 32
  | _ => True

instance (q : Request) : (x : Action) → Decidable (Countable q x)
  | .enter _ calls => inferInstanceAs (Decidable (1 ≤ calls ∧ calls ≤ 2 ^ 32))
  | .loop _ | .issue _ | .issued _ | .endStep _ | .complete _ | .callback | .schedule =>
    isTrue trivial

theorem setup_inv (g : ExecutionGraph) (handler : String → Handler) :
    Inv handler (.setup g) := by
  refine ⟨fun _ => ?_, by simp [Request.setup, Request.inStep, Request.issuing, Request.endings],
    by simp [Request.setup], by simp [Request.setup],
    by simp [Request.setup, RunInner.Request.setup]⟩
  apply Phase.alone <;>
    simp [Request.setup, RunInner.Request.setup, Context.setup, onward,
      Request.issuing, Request.outstanding, Request.endings]

theorem Phase.inStep_le {handler : String → Handler} {q : Request} (h : Phase handler q) :
    q.inStep ≤ 1 := by
  simp only [Request.inStep]
  cases h with
  | alone => omega
  | waiting =>
    simp only [Request.busy, Request.endings] at *
    omega
  | resuming =>
    simp only [Request.endings] at *
    omega
  | finishing => omega
  | finished _ _ _ hstep =>
    simp only [Request.inStep] at hstep
    omega

/-! ## The actions of the loop -/

section Steps

variable {g : ExecutionGraph} {handler : String → Handler} {q : Request}

@[simp] theorem withBase_base (base : RunInner.Request) : (q.withBase base).base = base := rfl
@[simp] theorem withBase_visit (base : RunInner.Request) : (q.withBase base).visit = q.visit := rfl
@[simp] theorem withBase_ending (base : RunInner.Request) :
    (q.withBase base).ending = q.ending := rfl
@[simp] theorem withBase_scheduling (base : RunInner.Request) :
    (q.withBase base).scheduling = q.scheduling := rfl
@[simp] theorem withBase_issuing (base : RunInner.Request) :
    (q.withBase base).issuing = q.issuing := rfl
@[simp] theorem withBase_endings (base : RunInner.Request) :
    (q.withBase base).endings = q.endings := rfl

theorem Phase.isAsync (h : Phase handler q) (hp : 0 < q.base.runners .isAsync) (a : Answer) :
    Phase handler (q.withBase (RunInner.act g handler a .isAsync (q.base.leave .isAsync))) := by
  cases h with
  | alone hasync hstate hresets hissuing hcalls hone hend hnode hvisit =>
    rw [RunInner.act_isAsync_sync hasync]
    refine Phase.alone hasync hstate hresets hissuing hcalls ?_ (by simpa using hend) hnode hvisit
    simp [onward] at hone ⊢
    omega
  | waiting hasync hstate hresets hnode hcalls hothers hcounter hone hvisit =>
    -- the worker is the first of the two and leaves
    simp only [Request.busy] at hcounter hone
    rw [RunInner.act_isAsync_first hasync (by omega)]
    refine Phase.waiting hasync hstate hresets hnode hcalls
      (by simpa [onward] using hothers) ?_ ?_ hvisit <;>
      simp [Request.busy, RunInner.Request.countDown] <;> omega
  | resuming hasync hstate hresets hnode hcalls hothers hcounter htwo hworker honward hvisit =>
    simp only [Request.busy, onward] at hcounter htwo honward
    by_cases hc : 0 < q.base.ctx.asyncCounter
    · rw [RunInner.act_isAsync_first hasync hc]
      refine Phase.resuming hasync hstate hresets hnode hcalls (by simpa using hothers)
        ?_ ?_ hworker ?_ hvisit <;>
        simp [Request.busy, onward, RunInner.Request.countDown] <;> omega
    · rw [RunInner.act_isAsync_second hasync hc]
      refine Phase.resuming hasync hstate hresets hnode hcalls (by simpa using hothers)
        ?_ ?_ hworker ?_ hvisit <;>
        simp [Request.busy, onward, RunInner.Request.countDown] <;> omega
  | finishing => omega
  | finished hasync hnode hcalls hstep hone =>
    rw [RunInner.act_isAsync_sync hasync]
    refine Phase.finished hasync hnode hcalls hstep ?_
    simp [onward] at hone ⊢
    omega

theorem Phase.isDone (h : Phase handler q) (hp : 0 < q.base.runners .isDone) (a : Answer) :
    Phase handler (q.withBase (RunInner.act g handler a .isDone (q.base.leave .isDone))) := by
  cases h with
  | alone hasync hstate hresets hissuing hcalls hone hend hnode hvisit =>
    by_cases hd : q.base.ctx.isDone = true
    · rw [RunInner.act_isDone_true hd]
      refine Phase.alone hasync hstate hresets hissuing hcalls ?_
        (fun _ => Context.isDone_eq_true.1 hd) hnode hvisit
      simp [onward] at hone ⊢
      omega
    · rw [RunInner.act_isDone_false (by simpa using hd)]
      refine Phase.alone hasync hstate hresets hissuing hcalls ?_ (by simpa using hend) hnode
        hvisit
      simp [onward] at hone ⊢
      omega
  | resuming hasync hstate hresets hnode hcalls hothers hcounter htwo hworker honward hvisit =>
    rw [RunInner.act_isDone_false hnode.not_isDone]
    refine Phase.resuming hasync hstate hresets hnode hcalls (by simpa using hothers)
      (by simpa [Request.busy] using hcounter) (by simpa [Request.busy] using htwo) hworker ?_
      hvisit
    simp [onward, Request.busy] at honward ⊢
    omega
  | finished hasync hnode hcalls hstep hone =>
    rw [RunInner.act_isDone_false (Context.isDone_of_none hnode)]
    refine Phase.finished hasync hnode hcalls hstep ?_
    simp [onward] at hone ⊢
    omega
  | waiting _ _ _ _ _ hothers | finishing _ _ _ _ _ hothers =>
    simp only [onward] at hothers
    omega

theorem Phase.left (h : Phase handler q) (a : Answer) :
    Phase handler (q.withBase (RunInner.act g handler a .left (q.base.leave .left))) := by
  cases h with
  | alone hasync hstate hresets hissuing hcalls hone hend hnode hvisit =>
    by_cases hd : q.base.ctx.isDone = true
    · -- the order that `RunInner` has to avoid
      rw [RunInner.act_last_true (.inl rfl) hd]
      exact Phase.alone hasync hstate hresets hissuing hcalls
        (by simpa [onward] using hone)
        (fun _ => Context.isDone_eq_true.1 hd) hnode hvisit
    · rw [RunInner.act_last_false (.inl rfl) (by simpa using hd)]
      exact Phase.alone hasync hstate hresets hissuing hcalls
        (by simpa [onward] using hone) (by simpa using hend) hnode hvisit
  | waiting hasync hstate hresets hnode hcalls hothers hcounter hone hvisit =>
    rw [RunInner.act_last_false (.inl rfl) hnode.not_isDone]
    exact Phase.waiting hasync hstate hresets hnode hcalls
      (by simpa [onward] using hothers) (by simpa [Request.busy] using hcounter)
      (by simpa [Request.busy] using hone) hvisit
  | resuming hasync hstate hresets hnode hcalls hothers hcounter htwo hworker honward hvisit =>
    rw [RunInner.act_last_false (.inl rfl) hnode.not_isDone]
    exact Phase.resuming hasync hstate hresets hnode hcalls (by simpa using hothers)
      (by simpa [Request.busy] using hcounter) (by simpa [Request.busy] using htwo) hworker
      (by simpa [Request.busy, onward] using honward) hvisit
  | finishing hasync hstate hresets hnode hcalls hothers hone hvisit =>
    rw [RunInner.act_last_false (.inl rfl) hnode.not_isDone]
    exact Phase.finishing hasync hstate hresets hnode hcalls
      (by simpa [onward] using hothers) hone hvisit
  | finished hasync hnode hcalls hstep hone =>
    rw [RunInner.act_last_false (.inl rfl) (Context.isDone_of_none hnode)]
    exact Phase.finished hasync hnode hcalls hstep (by simpa [onward] using hone)

theorem Phase.done (h : Phase handler q) (hp : 0 < q.base.runners .done) (a : Answer) :
    Phase handler (q.withBase (RunInner.act g handler a .done (q.base.leave .done))) := by
  cases h with
  | alone hasync hstate hresets hissuing hcalls hone hend hnode hvisit =>
    have hd := hend (by omega)
    rw [RunInner.act_last_true (.inr rfl) (Context.isDone_eq_true.2 hd)]
    refine Phase.alone hasync hstate hresets hissuing hcalls ?_ (fun _ => hd) hnode hvisit
    simp [onward] at hone ⊢
    omega
  | finished hasync hnode hcalls hstep hone =>
    rw [RunInner.act_last_false (.inr rfl) (Context.isDone_of_none hnode)]
    refine Phase.finished hasync hnode hcalls hstep ?_
    simp [onward] at hone ⊢
    omega
  | waiting => omega
  | resuming => omega
  | finishing => omega

theorem Phase.resetCtx (h : Phase handler q) (hp : 0 < q.base.runners .resetCtx) :
    Phase handler (q.withBase (q.base.leave .resetCtx).resetCtx) := by
  cases h with
  | alone hasync hstate hresets hissuing hcalls hone hend hnode hvisit =>
    have hendings : q.endings = 0 := by
      by_contra hne
      obtain ⟨name, hname⟩ := hnode (Nat.pos_of_ne_zero hne)
      exact absurd (hname.symm.trans (hend (by omega))) (by simp)
    refine Phase.finished rfl rfl hcalls (by simp [Request.inStep, hissuing, hendings]) ?_
    simp [RunInner.Request.resetCtx, onward] at hone ⊢
    omega
  | finished hasync hnode hcalls hstep hone =>
    refine Phase.finished rfl rfl hcalls hstep ?_
    simpa [RunInner.Request.resetCtx, onward] using hone
  | waiting => omega
  | resuming => omega
  | finishing => omega

end Steps

end Rtp.Framework.RpcStep
