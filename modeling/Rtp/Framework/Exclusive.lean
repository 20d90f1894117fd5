import Rtp.Framework.Phases

/-!
# One `Step` at a time

The actions inside `Step` and those of a completed call keep the invariant of
`Rtp.Framework.Phases`, and so does every action of the system.

* `Phase.enter`, `Phase.endStep`, `Phase.complete`, `Phase.callback`, `Phase.schedule` — the
  step lemmas; `next_inv` — all actions.
* `step_exclusive` — **at most one runner is in `Step`**, and every asynchronous node is run
  once in `Before` and once in `After`.
* `step_not_exclusive` — 2³² + 1 calls on one node.
-/

namespace Rtp.Framework.RpcStep

open RunInner (Pc)
open RunInner.Request (onward)

section Steps

variable {g : ExecutionGraph} {handler : String → Handler} {q : Request}

/-! ## The actions of `Step` -/

@[simp] theorem toEnd_base (e : Bool) : (q.toEnd e).base = q.base := rfl
@[simp] theorem toEnd_visit (e : Bool) : (q.toEnd e).visit = q.visit := rfl
@[simp] theorem fromEnd_base (e : Bool) : (q.fromEnd e).base = q.base := rfl
@[simp] theorem fromEnd_issuing (e : Bool) : (q.fromEnd e).issuing = q.issuing := rfl

@[simp] theorem logRun_base (s : AsyncState) : (q.logRun s).base = q.base := rfl
@[simp] theorem logRun_ending (s : AsyncState) : (q.logRun s).ending = q.ending := rfl
@[simp] theorem logRun_endings (s : AsyncState) : (q.logRun s).endings = q.endings := rfl
@[simp] theorem logRun_issuing (s : AsyncState) : (q.logRun s).issuing = q.issuing := rfl
@[simp] theorem logRun_scheduling (s : AsyncState) : (q.logRun s).scheduling = q.scheduling := rfl
@[simp] theorem startCalls_base (n : ℕ) : (q.startCalls n).base = q.base := rfl
@[simp] theorem startCalls_ending (n : ℕ) : (q.startCalls n).ending = q.ending := rfl
@[simp] theorem startCalls_scheduling (n : ℕ) : (q.startCalls n).scheduling = q.scheduling := rfl

@[simp] theorem startCalls_issuing (n : ℕ) : (q.startCalls n).issuing = q.issuing + 1 :=
  List.countP_cons_of_pos rfl

theorem startCalls_outstanding {n : ℕ} (h : 1 ≤ n) :
    (q.startCalls n).outstanding = q.outstanding + 1 :=
  List.countP_cons_of_pos (decide_eq_true (show 0 < n from h))

@[simp] theorem endings_toEnd (e : Bool) : (q.toEnd e).endings = q.endings + 1 := by
  cases e <;> simp [Request.endings, Request.toEnd, Function.update] <;> omega

variable {e : Bool}

theorem endings_fromEnd (h : 0 < q.ending e) : (q.fromEnd e).endings + 1 = q.endings := by
  cases e <;> simp [Request.endings, Request.fromEnd, Function.update] <;> omega

variable {name : String}

theorem enter_of_node (hnode : q.base.ctx.node = some (.node name)) (a : Answer) (calls : ℕ) :
    enter handler a calls q = enterNode handler name a calls q := by
  simp only [enter, hnode]

variable {a : Answer} {calls : ℕ}

theorem enter_crash (h : ∀ name, q.base.ctx.node ≠ some (.node name)) :
    enter handler a calls q = q.crash := by
  unfold enter
  split
  next name hname => exact absurd hname (h name)
  next => rfl

/-- A handler that issues calls makes a barrier and marks the context. -/
theorem enterNode_issuing (hstate : q.base.ctx.asyncState = .before)
    (hissues : issuesCalls a (handler name) q.base.ctx = true) (calls : ℕ) :
    enterNode handler name a calls q =
      ((q.withBase { q.base with ctx := q.base.ctx.setAsync true }).logRun
        .before).startCalls calls := by
  simp only [enterNode, baseRun_issuing hissues, hissues, hstate, if_true]

/-- A handler that does not is run to its end. -/
theorem enterNode_sync (hasync : q.base.ctx.isAsync = false)
    (hstate : q.base.ctx.asyncState = .before)
    (hissues : issuesCalls a (handler name) q.base.ctx = false) (calls : ℕ) :
    enterNode handler name a calls q = (q.logRun .before).toEnd a.result := by
  simp only [enterNode, baseRun_sync hasync hstate hissues, hissues, hstate]
  rfl

/-- The second run of an RPC handler. -/
theorem enterNode_after (a : Answer) (hrpc : handler name = .rpc)
    (hstate : q.base.ctx.asyncState = .after) (calls : ℕ) : enterNode handler name a calls q =
      ((q.withBase { q.base with ctx := { q.base.ctx with asyncState := .finish } }).logRun
        .after).toEnd a.result := by
  simp only [enterNode, hrpc, baseRun_after hstate, issuesCalls_after hstate, hstate]
  rfl

theorem Phase.enter (h : Phase handler q) (hp : 0 < q.base.runners .step) (hpos : 1 ≤ calls)
    (hname : q.base.ctx.node = some (.node name)) :
    Phase handler (enter handler a calls (q.withBase (q.base.leave .step))) := by
  rw [enter_of_node (q := q.withBase (q.base.leave .step)) hname]
  cases h with
  | alone hasync hstate hresets hissuing hcalls hone hend hnode hvisit =>
    simp only [onward] at hone
    have hendings : q.endings = 0 := by omega
    have hreset : q.base.runners .done + q.base.runners .resetCtx = 0 := by
      by_contra hne
      exact absurd (hname.symm.trans (hend (Nat.pos_of_ne_zero hne))) (by simp)
    rw [if_pos hendings] at hvisit
    cases hi : issuesCalls a (handler name) q.base.ctx with
    | true =>
      have hrpc : handler name = .rpc := rpc_of_issuesCalls hi
      simp only [Request.endings] at hendings
      rw [enterNode_issuing (q := q.withBase (q.base.leave .step)) hstate hi]
      refine Phase.waiting rfl ?_ hresets ⟨name, hname, hrpc⟩ ?_ ?_ ?_ ?_ ?_
      · simp [show q.scheduling = 0 by omega, Context.setAsync]
      · rw [startCalls_outstanding hpos]
        show q.outstanding + 1 + q.calling + q.scheduling = 1
        omega
      · simp [onward]
        omega
      · simp [Request.busy, Context.setAsync]
        omega
      · simp [Request.busy]
        omega
      · simp [Request.startCalls, Request.logRun, hvisit]
        omega
    | false =>
      rw [enterNode_sync (q := q.withBase (q.base.leave .step)) hasync hstate hi]
      refine Phase.alone hasync hstate hresets hissuing hcalls ?_ ?_ ?_ ?_
      · simp [hendings, onward]
        omega
      · simp [hreset]
      · exact fun _ => ⟨name, hname⟩
      · simp [Request.logRun, hvisit]
  | resuming hasync hstate hresets hnode hcalls hothers hcounter htwo hworker honward hvisit =>
    have hrpc : handler name = .rpc := by
      obtain ⟨name', hname', hrpc⟩ := hnode
      have hsame : name = name' := by simpa [hname] using hname'
      rw [hsame, hrpc]
    simp only [Request.busy, onward] at hcounter htwo honward
    rw [enterNode_after (q := q.withBase (q.base.leave .step)) a hrpc hstate]
    refine Phase.finishing hasync rfl hresets ⟨name, hname, hrpc⟩ ?_ ?_ ?_ ?_
    · show q.outstanding + q.calling + q.scheduling + q.issuing = 0
      omega
    · simp [onward]
      omega
    · have hendings : q.endings = 0 := by simp only [Request.endings]; omega
      simp [hendings]
    · simp [Request.logRun, hvisit]
  | waiting _ _ _ _ _ hothers | finishing _ _ _ _ _ hothers =>
    simp only [onward] at hothers
    omega
  | finished _ hnode => exact absurd (hname.symm.trans hnode) (by simp)

@[simp] theorem endVisit_base : q.endVisit.base = q.base := rfl
@[simp] theorem endVisit_endings : q.endVisit.endings = q.endings := rfl

theorem endStep_of_node (hnode : q.base.ctx.node = some (.node name)) :
    endStep g e q = endStepNode g name e q := by
  simp only [endStep, hnode]

/-- The end of a `Step` after which the context moves on. -/
theorem endStepNode_moves (hmoves : q.base.ctx.isAsync = false ∨ q.base.ctx.asyncState = .finish)
    (name : String) (e : Bool) : endStepNode g name e q =
      (q.withBase ({ q.base with ctx := q.base.ctx.nextStep g name e }.arrive
        .isAsync)).endVisit := by
  rcases hmoves with h | h
  · simp only [endStepNode, Context.endStep_of_sync h]
    rw [if_pos (by simp [h])]
  · simp only [endStepNode, Context.endStep_of_finish h]
    rw [if_pos (by simp [h])]

/-- The end of a `Step` that has issued calls. -/
theorem endStepNode_stays (hasync : q.base.ctx.isAsync = true)
    (hstate : q.base.ctx.asyncState ≠ .finish) (name : String) (e : Bool) :
    endStepNode g name e q = q.withBase (q.base.arrive .isAsync) := by
  simp only [endStepNode, Context.endStep_of_waiting hasync hstate]
  rw [if_neg (by simp [hasync, hstate])]

/-- A runner at the end of `Step` stands on a node of the graph. -/
theorem Phase.exists_node (h : Phase handler q) (hp : 0 < q.ending e) :
    ∃ name, q.base.ctx.node = some (.node name) := by
  have hendings : 0 < q.endings := by
    simp only [Request.endings]
    cases e <;> omega
  cases h with
  | alone _ _ _ _ _ _ _ hnode => exact hnode hendings
  | waiting _ _ _ hnode | resuming _ _ _ hnode | finishing _ _ _ hnode =>
    exact ⟨_, hnode.choose_spec.1⟩
  | finished _ _ _ hstep =>
    simp only [Request.inStep] at hstep
    omega

/-- The end of `Step` where the context moves on: the next node is visited. -/
theorem Phase.moves {e : Bool} {name : String} (hresets : q.base.resets = 0)
    (hissuing : q.issuing = 0) (hcalls : q.outstanding + q.calling + q.scheduling = 0)
    (hothers : q.base.runners .isAsync + q.base.onward + q.base.runners .done +
      q.base.runners .resetCtx + q.endings = 0) :
    Phase handler (q.withBase ({ q.base with ctx := q.base.ctx.nextStep g name e }.arrive
      .isAsync)).endVisit := by
  have hendings : q.endings = 0 := by omega
  simp only [onward] at hothers
  refine Phase.alone rfl rfl hresets hissuing hcalls ?_ ?_ ?_ ?_
  · simp [onward]
    omega
  · simp
    omega
  · simp [hendings]
  · rw [endVisit_endings, withBase_endings, if_pos hendings]
    rfl

/-- The end of `Step` where the calls are out: the worker is back in its loop. -/
theorem busy_endStep (hp : 0 < q.ending true) :
    ((q.fromEnd true).withBase ((q.fromEnd true).base.arrive .isAsync)).busy = q.busy := by
  have he : (q.fromEnd true).ending true = q.ending true - 1 := by simp [Request.fromEnd]
  simp only [Request.busy, withBase_issuing, fromEnd_issuing, withBase_ending, withBase_base, he,
    fromEnd_base, RunInner.runners_arrive, if_true]
  omega

theorem Phase.endStep (h : Phase handler q) (hp : 0 < q.ending e) :
    Phase handler (endStep g e (q.fromEnd e)) := by
  obtain ⟨name, hname⟩ := h.exists_node hp
  have hendings := endings_fromEnd hp
  rw [endStep_of_node (q := q.fromEnd e) hname]
  cases h with
  | alone hasync hstate hresets hissuing hcalls hone hend hnode hvisit =>
    have hreset : q.base.runners .done + q.base.runners .resetCtx = 0 := by
      by_contra hne
      exact absurd (hname.symm.trans (hend (Nat.pos_of_ne_zero hne))) (by simp)
    rw [endStepNode_moves (q := q.fromEnd e) (.inl hasync)]
    refine Phase.moves hresets hissuing hcalls ?_
    rw [fromEnd_base]
    omega
  | waiting hasync hstate hresets hnode hcalls hothers hcounter hone hvisit =>
    obtain rfl : e = true := by
      cases e with
      | true => rfl
      | false => omega
    have he : (q.fromEnd true).ending false = q.ending false := by simp [Request.fromEnd]
    rw [endStepNode_stays (q := q.fromEnd true) hasync
      (by rw [fromEnd_base, hstate]; split <;> simp)]
    have hbusy := busy_endStep hp
    refine Phase.waiting hasync hstate hresets hnode hcalls ?_ (by rw [hbusy]; exact hcounter)
      (by rw [hbusy]; exact hone) hvisit
    simpa [onward, he] using hothers
  | resuming hasync hstate hresets hnode hcalls hothers hcounter htwo hworker honward hvisit =>
    obtain rfl : e = true := by
      cases e with
      | true => rfl
      | false => omega
    have he : (q.fromEnd true).ending false = q.ending false := by simp [Request.fromEnd]
    have he' : (q.fromEnd true).ending true = q.ending true - 1 := by simp [Request.fromEnd]
    rw [endStepNode_stays (q := q.fromEnd true) hasync (by rw [fromEnd_base, hstate]; simp)]
    have hbusy := busy_endStep hp
    refine Phase.resuming hasync hstate hresets hnode hcalls ?_ (by rw [hbusy]; exact hcounter)
      (by rw [hbusy]; exact htwo) ?_ ?_ hvisit
    · simpa [he] using hothers
    · simp [he']
      omega
    · rw [hbusy]
      simpa [onward] using honward
  | finishing hasync hstate hresets hnode hcalls hothers hone hvisit =>
    rw [endStepNode_moves (q := q.fromEnd e) (.inr hstate)]
    refine Phase.moves hresets ?_ ?_ ?_
    · rw [fromEnd_issuing]
      omega
    · show q.outstanding + q.calling + q.scheduling = 0
      omega
    · rw [fromEnd_base]
      omega
  | finished _ _ _ hstep =>
    simp only [Request.inStep] at hstep
    omega

/-- When the context leaves a node, the visit is as it should be. -/
theorem Phase.visits_endStep (h : Phase handler q) (hp : 0 < q.ending e)
    (hok : ∀ v ∈ q.visits, v.Ok) : ∀ v ∈ (RpcStep.endStep g e (q.fromEnd e)).visits, v.Ok := by
  obtain ⟨name, hname⟩ := h.exists_node hp
  have hendings := endings_fromEnd hp
  rw [endStep_of_node (q := q.fromEnd e) hname]
  cases h with
  | alone hasync _ _ _ _ _ _ _ hvisit =>
    rw [endStepNode_moves (q := q.fromEnd e) (.inl hasync)]
    rw [if_neg (by omega)] at hvisit
    exact List.forall_mem_cons.2 ⟨.inl hvisit, hok⟩
  | waiting hasync hstate =>
    rw [endStepNode_stays (q := q.fromEnd e) hasync
      (by rw [fromEnd_base, hstate]; split <;> simp)]
    exact hok
  | resuming hasync hstate =>
    rw [endStepNode_stays (q := q.fromEnd e) hasync (by rw [fromEnd_base, hstate]; simp)]
    exact hok
  | finishing _ hstate _ _ _ _ _ hvisit =>
    rw [endStepNode_moves (q := q.fromEnd e) (.inr hstate)]
    exact List.forall_mem_cons.2 ⟨.inr hvisit, hok⟩
  | finished _ _ _ hstep =>
    simp only [Request.inStep] at hstep
    omega

variable {j : ℕ}

/-- What a change to one element does to a count. -/
theorem countP_set_add {α : Type*} (p : α → Bool) {l : List α} {b : α} (b' : α)
    (h : l[j]? = some b) : (l.set j b').countP p + (if p b then 1 else 0) =
      l.countP p + if p b' then 1 else 0 := by
  induction l generalizing j with
  | nil => simp at h
  | cons x l ih =>
    cases j with
    | zero =>
      obtain rfl : x = b := by simpa using h
      simp only [List.set_cons_zero, List.countP_cons]
      omega
    | succ j =>
      have := ih (j := j) (by simpa using h)
      simp only [List.set_cons_succ, List.countP_cons]
      omega

@[simp] theorem setBarrier_base (j : ℕ) (b : Barrier) : (q.setBarrier j b).base = q.base := rfl
@[simp] theorem setBarrier_ending (j : ℕ) (b : Barrier) :
    (q.setBarrier j b).ending = q.ending := rfl
@[simp] theorem setBarrier_endings (j : ℕ) (b : Barrier) :
    (q.setBarrier j b).endings = q.endings := rfl
@[simp] theorem setBarrier_calling (j : ℕ) (b : Barrier) :
    (q.setBarrier j b).calling = q.calling := rfl
@[simp] theorem setBarrier_scheduling (j : ℕ) (b : Barrier) :
    (q.setBarrier j b).scheduling = q.scheduling := rfl

/-- A call more or less that is neither the last to be issued nor the last to be completed
changes nothing for the phase. -/
theorem Phase.setBarrier {b b' : Barrier} (h : Phase handler q) (hb : q.barriers[j]? = some b)
    (hissuing : b'.issuing = b.issuing) (hout : b'.outstanding = b.outstanding) :
    Phase handler (q.setBarrier j b') := by
  have hi : (q.setBarrier j b').issuing = q.issuing := by
    have := countP_set_add Barrier.issuing b' hb
    rw [hissuing] at this
    exact Nat.add_right_cancel this
  have ho : (q.setBarrier j b').outstanding = q.outstanding := by
    have := countP_set_add Barrier.outstanding b' hb
    rw [hout] at this
    exact Nat.add_right_cancel this
  cases h with
  | alone hasync hstate hresets hissuing hcalls hone hend hnode hvisit =>
    exact Phase.alone hasync hstate hresets (hi.trans hissuing) (by simpa [ho] using hcalls) hone
      hend hnode hvisit
  | waiting hasync hstate hresets hnode hcalls hothers hcounter hone hvisit =>
    exact Phase.waiting hasync hstate hresets hnode (by simpa [ho] using hcalls) hothers
      (by simpa [Request.busy, hi] using hcounter) (by simpa [Request.busy, hi] using hone) hvisit
  | resuming hasync hstate hresets hnode hcalls hothers hcounter htwo hworker honward hvisit =>
    exact Phase.resuming hasync hstate hresets hnode (by simpa [ho] using hcalls) hothers
      (by simpa [Request.busy, hi] using hcounter) (by simpa [Request.busy, hi] using htwo)
      (by simpa [hi] using hworker) (by simpa [Request.busy, hi] using honward) hvisit
  | finishing hasync hstate hresets hnode hcalls hothers hone hvisit =>
    exact Phase.finishing hasync hstate hresets hnode (by simpa [ho, hi] using hcalls) hothers hone
      hvisit
  | finished hasync hnode hcalls hstep hone =>
    exact Phase.finished hasync hnode (by simpa [ho] using hcalls)
      (by simpa [Request.inStep, hi] using hstep) hone

variable {b : Barrier}

/-- The worker leaves `Invoke`. -/
theorem Phase.issued (h : Phase handler q) (hb : q.barriers[j]? = some b)
    (hissuing : b.issuing = true) :
    Phase handler ((q.setBarrier j { b with issuing := false }).toEnd true) := by
  have hi : ((q.setBarrier j { b with issuing := false }).toEnd true).issuing + 1 = q.issuing := by
    have := countP_set_add Barrier.issuing { b with issuing := false } hb
    rw [if_pos hissuing] at this
    exact this
  have ho : ((q.setBarrier j { b with issuing := false }).toEnd true).outstanding =
      q.outstanding := by
    have := countP_set_add Barrier.outstanding { b with issuing := false } hb
    exact Nat.add_right_cancel this
  have he : ((q.setBarrier j { b with issuing := false }).toEnd true).ending true =
      q.ending true + 1 := by simp [Request.toEnd]
  have he' : ((q.setBarrier j { b with issuing := false }).toEnd true).ending false =
      q.ending false := by simp [Request.toEnd]
  have hbusy : ((q.setBarrier j { b with issuing := false }).toEnd true).busy = q.busy := by
    simp only [Request.busy, he, toEnd_base, setBarrier_base]
    omega
  cases h with
  | waiting hasync hstate hresets hnode hcalls hothers hcounter hone hvisit =>
    exact Phase.waiting hasync hstate hresets hnode (by rw [ho]; exact hcalls)
      (by rw [he']; exact hothers) (by rw [hbusy]; exact hcounter) (by rw [hbusy]; exact hone)
      hvisit
  | resuming hasync hstate hresets hnode hcalls hothers hcounter htwo hworker honward hvisit =>
    exact Phase.resuming hasync hstate hresets hnode (by rw [ho]; exact hcalls)
      (by rw [he']; exact hothers) (by rw [hbusy]; exact hcounter) (by rw [hbusy]; exact htwo)
      (by rw [he]; omega) (by rw [hbusy]; exact honward) hvisit
  | alone _ _ _ hissuing' => omega
  | finishing _ _ _ _ hcalls => omega
  | finished _ _ _ hstep =>
    simp only [Request.inStep] at hstep
    omega

/-! ## The callback -/

/-- A completed call. -/
theorem Phase.complete (h : Phase handler q) (hb : q.barriers[j]? = some b) (hok : b.Ok)
    (hlt : b.completed < b.issued) : Phase handler (complete j b q) := by
  obtain ⟨-, hissuing, hout, hout'⟩ := hok.run hlt
  cases hlast : b.run.1 with
  | false =>
    have hsame : RpcStep.complete j b q = q.setBarrier j b.run.2 := by
      simp only [RpcStep.complete, hlast]
      rfl
    rw [hsame]
    exact h.setBarrier hb hissuing (by rw [hout', hlast, hout]; rfl)
  | true =>
    have hi : (RpcStep.complete j b q).issuing = q.issuing := by
      have := countP_set_add Barrier.issuing b.run.2 hb
      rw [hissuing] at this
      exact Nat.add_right_cancel this
    have ho : (RpcStep.complete j b q).outstanding + 1 = q.outstanding := by
      have := countP_set_add Barrier.outstanding b.run.2 hb
      rw [hout', hlast, if_pos hout] at this
      exact this
    have hc : (RpcStep.complete j b q).calling = q.calling + 1 := by
      simp [RpcStep.complete, hlast]
    have hs : (RpcStep.complete j b q).scheduling = q.scheduling := rfl
    cases h with
    | waiting hasync hstate hresets hnode hcalls hothers hcounter hone hvisit =>
      have hbusy : (RpcStep.complete j b q).busy = q.busy := by
        simp only [Request.busy, hi]
        rfl
      exact Phase.waiting hasync hstate hresets hnode (by omega) hothers
        (by rw [hbusy]; exact hcounter) (by rw [hbusy]; exact hone) hvisit
    | alone => omega
    | resuming => omega
    | finishing => omega
    | finished => omega

theorem Phase.callback (h : Phase handler q) (hp : 0 < q.calling) :
    Phase handler (callback q) := by
  cases h with
  | waiting hasync hstate hresets hnode hcalls hothers hcounter hone hvisit =>
    have hs : q.scheduling = 0 := by omega
    refine Phase.waiting hasync ?_ hresets hnode ?_ hothers hcounter hone ?_
    · simp [RpcStep.callback]
    · show q.outstanding + (q.calling - 1) + (q.scheduling + 1) = 1
      omega
    · simp [RpcStep.callback, hvisit]
  | alone => omega
  | resuming => omega
  | finishing => omega
  | finished => omega

theorem Phase.schedule (h : Phase handler q) (hp : 0 < q.scheduling) :
    Phase handler (schedule q) := by
  cases h with
  | waiting hasync hstate hresets hnode hcalls hothers hcounter hone hvisit =>
    have hs : q.scheduling = 1 := by omega
    rw [if_neg (by omega)] at hstate
    simp only [Request.busy] at hcounter hone
    have hbusy : Request.busy { q.withBase (q.base.arrive .isAsync) with
        scheduling := q.scheduling - 1 } =
          q.issuing + q.ending true + (q.base.runners .isAsync + 1) := by
      show q.issuing + q.ending true + (q.base.arrive .isAsync).runners .isAsync = _
      simp
    rw [RpcStep.schedule, if_neg (by omega)]
    refine Phase.resuming hasync hstate hresets hnode ?_ ?_ ?_ ?_ ?_ ?_ ?_
    · show q.outstanding + q.calling + (q.scheduling - 1) = 0
      omega
    · simp
      omega
    · show q.base.ctx.asyncCounter + 1 = (Request.busy _ : ℕ)
      rw [hbusy]
      omega
    · rw [hbusy]
      omega
    · show q.issuing + q.ending true ≤ 1
      omega
    · rw [hbusy]
      simp [onward] at hothers ⊢
      omega
    · simp [hvisit, hs]
  | alone => omega
  | resuming => omega
  | finishing => omega
  | finished => omega

/-! ## The invariant -/

theorem Inv.of_phase {q' : Request} (h : Inv handler q) (hphase : Phase handler q')
    (hbarriers : ∀ b ∈ q'.barriers, b.Ok) (hvisits : ∀ v ∈ q'.visits, v.Ok)
    (hfailed : q'.base.runners .failed = q.base.runners .failed) : Inv handler q' :=
  ⟨fun _ => hphase, hphase.inStep_le, hbarriers, hvisits, hfailed.trans h.failed_eq⟩

theorem Inv.crash (h : Inv handler q) : Inv handler q.crash :=
  ⟨fun hok => absurd hok (by simp [Request.crash]), h.inStep_le, h.barriers_ok, h.visits_ok,
    h.failed_eq⟩

theorem Inv.loop {p : Pc} (h : Inv handler q) (hok : q.base.crashed = false) (hstep : p ≠ .step)
    (hp : 0 < q.base.runners p) :
    Inv handler (q.withBase (RunInner.act g handler ⟨false, false⟩ p (q.base.leave p))) := by
  have hphase := h.phase hok
  cases p with
  | isAsync =>
    refine h.of_phase (hphase.isAsync hp _) h.barriers_ok h.visits_ok ?_
    simp only [RunInner.act]
    split <;> simp
  | isDone =>
    refine h.of_phase (hphase.isDone hp _) h.barriers_ok h.visits_ok ?_
    simp only [RunInner.act]
    split <;> simp
  | step => exact absurd rfl hstep
  | left =>
    refine h.of_phase (hphase.left _) h.barriers_ok h.visits_ok ?_
    simp only [RunInner.act]
    split <;> simp
  | done =>
    refine h.of_phase (hphase.done hp _) h.barriers_ok h.visits_ok ?_
    simp only [RunInner.act]
    split <;> simp
  | resetCtx =>
    refine h.of_phase (hphase.resetCtx hp) h.barriers_ok h.visits_ok ?_
    simp [RunInner.act, RunInner.Request.resetCtx]
  | failed => exact absurd h.failed_eq hp.ne'

/-- The beginning of `Step` at most adds a barrier. -/
theorem enterNode_frame (name : String) (a : Answer) (calls : ℕ) :
    (∀ b ∈ (enterNode handler name a calls q).barriers, b = .new calls ∨ b ∈ q.barriers) ∧
      (enterNode handler name a calls q).visits = q.visits ∧
      (enterNode handler name a calls q).base.runners = q.base.runners := by
  simp only [enterNode]
  split
  · exact ⟨fun b hb => List.mem_cons.1 hb, rfl, rfl⟩
  · exact ⟨fun b hb => .inr hb, rfl, rfl⟩

theorem Inv.enter (h : Inv handler q) (hok : q.base.crashed = false) (hp : 0 < q.base.runners .step)
    (hcalls : 1 ≤ calls ∧ calls ≤ 2 ^ 32) :
    Inv handler (enter handler a calls (q.withBase (q.base.leave .step))) := by
  have hfailed : (q.base.leave .step).runners .failed = q.base.runners .failed := by simp
  by_cases hname : ∃ name, q.base.ctx.node = some (.node name)
  · obtain ⟨name, hname⟩ := hname
    have hphase := (h.phase hok).enter (a := a) hp hcalls.1 hname
    rw [enter_of_node (q := q.withBase (q.base.leave .step)) hname] at hphase ⊢
    obtain ⟨hb, hv, hr⟩ :=
      @enterNode_frame handler (q.withBase (q.base.leave .step)) name a calls
    refine h.of_phase hphase (fun b hmem => ?_) (hv ▸ h.visits_ok) (hr ▸ hfailed)
    rcases hb b hmem with rfl | hold
    · exact Barrier.ok_new hcalls.1 hcalls.2
    · exact h.barriers_ok b hold
  · rw [enter_crash (q := q.withBase (q.base.leave .step)) fun name hn => hname ⟨name, hn⟩]
    exact ⟨fun hok => absurd hok (by simp [Request.crash]), h.inStep_le, h.barriers_ok,
      h.visits_ok, hfailed.trans h.failed_eq⟩

/-- One barrier is changed into another good one. -/
theorem barriers_ok_set {l : List Barrier} (h : ∀ b ∈ l, b.Ok) (j : ℕ) {b' : Barrier}
    (hb' : b'.Ok) : ∀ b ∈ l.set j b', b.Ok := by
  intro b hb
  rcases List.mem_or_eq_of_mem_set hb with hold | rfl
  · exact h b hold
  · exact hb'

theorem Inv.issue (h : Inv handler q) (hok : q.base.crashed = false) (hb : q.barriers[j]? = some b)
    (hissuing : b.issuing = true) (hlt : b.issued < b.calls) :
    Inv handler (q.setBarrier j b.issue) :=
  h.of_phase ((h.phase hok).setBarrier hb rfl rfl)
    (barriers_ok_set h.barriers_ok j
      ((h.barriers_ok b (List.mem_of_getElem? hb)).issue hlt hissuing)) h.visits_ok rfl

theorem Inv.issued (h : Inv handler q) (hok : q.base.crashed = false) (hb : q.barriers[j]? = some b)
    (hissuing : b.issuing = true) (heq : b.issued = b.calls) :
    Inv handler ((q.setBarrier j { b with issuing := false }).toEnd true) :=
  h.of_phase ((h.phase hok).issued hb hissuing)
    (barriers_ok_set h.barriers_ok j ((h.barriers_ok b (List.mem_of_getElem? hb)).issued heq))
    h.visits_ok rfl

theorem Inv.complete (h : Inv handler q) (hok : q.base.crashed = false)
    (hb : q.barriers[j]? = some b) (hlt : b.completed < b.issued) :
    Inv handler (complete j b q) := by
  have hbok := h.barriers_ok b (List.mem_of_getElem? hb)
  exact h.of_phase ((h.phase hok).complete hb hbok hlt)
    (barriers_ok_set h.barriers_ok j (hbok.run hlt).1) h.visits_ok rfl

theorem Inv.endStep (h : Inv handler q) (hok : q.base.crashed = false) (hp : 0 < q.ending e) :
    Inv handler (endStep g e (q.fromEnd e)) := by
  have hphase := h.phase hok
  obtain ⟨name, hname⟩ := hphase.exists_node hp
  refine h.of_phase (hphase.endStep hp) ?_ (hphase.visits_endStep hp h.visits_ok) ?_
  all_goals
    rw [endStep_of_node (q := q.fromEnd e) hname]
    simp only [endStepNode]
    split
  · exact h.barriers_ok
  · exact h.barriers_ok
  · simp
  · simp

theorem Inv.schedule (h : Inv handler q) (hok : q.base.crashed = false) (hp : 0 < q.scheduling) :
    Inv handler (schedule q) := by
  have hphase := (h.phase hok).schedule hp
  unfold RpcStep.schedule at hphase ⊢
  split
  · exact h.crash
  next hresets =>
    rw [if_neg hresets] at hphase
    exact h.of_phase hphase h.barriers_ok h.visits_ok (by simp)

theorem next_inv {x : Action} {q' : Request} (h : Inv handler q) (hcalls : Countable q x)
    (hnext : next g handler x q = some q') : Inv handler q' := by
  simp only [next, Option.ite_none_right_eq_some] at hnext
  obtain ⟨hok, hnext⟩ := hnext
  cases x with
  | loop p =>
    simp only [nextOk, Option.ite_none_right_eq_some, Option.some.injEq] at hnext
    obtain ⟨⟨hstep, hp⟩, rfl⟩ := hnext
    exact h.loop hok hstep hp
  | enter a calls =>
    simp only [nextOk, Option.ite_none_right_eq_some, Option.some.injEq] at hnext
    obtain ⟨hp, rfl⟩ := hnext
    exact h.enter hok hp hcalls
  | issue j =>
    simp only [nextOk] at hnext
    split at hnext
    next b hb =>
      simp only [Option.ite_none_right_eq_some, Option.some.injEq] at hnext
      obtain ⟨⟨hissuing, hlt⟩, rfl⟩ := hnext
      exact h.issue hok hb hissuing hlt
    next => simp at hnext
  | issued j =>
    simp only [nextOk] at hnext
    split at hnext
    next b hb =>
      simp only [Option.ite_none_right_eq_some, Option.some.injEq] at hnext
      obtain ⟨⟨hissuing, heq⟩, rfl⟩ := hnext
      exact h.issued hok hb hissuing heq
    next => simp at hnext
  | endStep e =>
    simp only [nextOk, Option.ite_none_right_eq_some, Option.some.injEq] at hnext
    obtain ⟨hp, rfl⟩ := hnext
    exact h.endStep hok hp
  | complete j =>
    simp only [nextOk] at hnext
    split at hnext
    next b hb =>
      simp only [Option.ite_none_right_eq_some, Option.some.injEq] at hnext
      obtain ⟨hlt, rfl⟩ := hnext
      exact h.complete hok hb hlt
    next => simp at hnext
  | callback =>
    simp only [nextOk, Option.ite_none_right_eq_some, Option.some.injEq] at hnext
    obtain ⟨hp, rfl⟩ := hnext
    exact h.of_phase ((h.phase hok).callback hp) h.barriers_ok h.visits_ok rfl
  | schedule =>
    simp only [nextOk, Option.ite_none_right_eq_some, Option.some.injEq] at hnext
    obtain ⟨hp, rfl⟩ := hnext
    exact h.schedule hok hp

end Steps

/-- **At most one runner is in `Step`.**  For every execution graph and every order of
actions, as long as each asynchronous node issues between one and 2³² calls: at most one
runner executes `Step`; every barrier calls back once, when all its calls are completed; and
a node whose handler issued calls is left after its handler was run once in the state
`Before` and then once in `After`, with one callback. -/
theorem step_exclusive (g : ExecutionGraph) (handler : String → Handler) (q : Request)
    (h : Reach (next g handler) Countable (.setup g) q) :
    q.inStep ≤ 1 ∧
      (∀ b ∈ q.barriers, b.callbacks ≤ 1 ∧ (b.callbacks = 1 ↔ b.completed = b.calls)) ∧
      ∀ v ∈ q.visits, v.issued = true → v.runs = [.before, .after] ∧ v.callbacks = 1 := by
  have hinv : Inv handler q := h.invariant (setup_inv g handler) fun _ _ _ => next_inv
  refine ⟨hinv.inStep_le, fun b hb => ?_, fun v hv hissued => ?_⟩
  · have hok := hinv.barriers_ok b hb
    have hle : b.completed ≤ b.calls := hok.completed_le.trans hok.issued_le
    rw [hok.callbacks_eq]
    by_cases hout : b.outstanding = true
    · rw [if_pos hout]
      have hlt : b.completed < b.calls := of_decide_eq_true hout
      simp [hlt.ne]
    · rw [if_neg hout]
      have hnlt : ¬ b.completed < b.calls := fun hlt => hout (decide_eq_true hlt)
      simp
      omega
  · rcases hinv.visits_ok v hv with rfl | rfl
    · simp at hissued
    · exact ⟨rfl, rfl⟩

open RunInner (oneNode)

/-- Two calls on the only node: the first one is completed inside `Invoke`, the second one
after the worker has left. -/
theorem step_exclusive_oneNode :
    ∃ q, Reach (next oneNode fun _ => .rpc) Countable (.setup oneNode) q ∧
      q.visits.length = 1 ∧ q.inStep ≤ 1 ∧ ∀ b ∈ q.barriers, b.callbacks ≤ 1 := by
  obtain ⟨q, hreach, hq⟩ := exists_reach_of_follow (next oneNode fun _ => .rpc) Countable
    [.loop .isAsync, .loop .isDone, .enter ⟨true, true⟩ 2, .issue 0, .complete 0, .issue 0,
      .issued 0, .endStep true, .loop .isAsync, .complete 0, .callback, .schedule,
      .loop .isAsync, .loop .isDone, .enter ⟨false, true⟩ 1, .endStep true]
    (.setup oneNode) (fun q => decide (q.visits.length = 1)) (by decide +kernel)
  obtain ⟨hstep, hbarriers, -⟩ := step_exclusive oneNode (fun _ => .rpc) q hreach
  exact ⟨q, hreach, of_decide_eq_true hq, hstep, fun b hb => (hbarriers b hb).1⟩

/-! ## One call too many -/

/-- Every asynchronous node issues some calls. -/
def Calling (_ : Request) : Action → Prop
  | .enter _ calls => 1 ≤ calls
  | _ => True

instance (q : Request) : (x : Action) → Decidable (Calling q x)
  | .enter _ calls => inferInstanceAs (Decidable (1 ≤ calls))
  | .loop _ | .issue _ | .issued _ | .endStep _ | .complete _ | .callback | .schedule =>
    isTrue trivial

/-- A barrier for 2³² + 1 calls in `Invoke`: `i` of them have been issued and completed. -/
def counting (times i : ℕ) : Barrier := ⟨2 ^ 32 + 1, i, i, BitVec.ofNat 32 times, 1, true⟩

/-- A call that is issued and completed at once. -/
theorem reach_counting_one {g : ExecutionGraph} {handler : String → Handler} {q : Request}
    (hok : q.base.crashed = false) {times i : ℕ} (ht : 0 < times) (hlt : times < 2 ^ 32)
    (hi : i ≤ 2 ^ 32) :
    Reach (next g handler) Calling { q with barriers := [counting (times + 1) i] }
      { q with barriers := [counting times (i + 1)] } := by
  have hrun : (counting (times + 1) i).issue.run = (false, counting times (i + 1)) := by
    have htimes : BitVec.ofNat 32 (times + 1) - 1#32 = BitVec.ofNat 32 times := by
      rw [BitVec.ofNat_add]
      exact BitVec.add_sub_cancel _ _
    have hne : BitVec.ofNat 32 times ≠ 0#32 := fun h0 =>
      ht.ne' ((Barrier.ofNat_eq_zero_iff hlt).1 h0)
    simp [Barrier.run, Barrier.issue, counting, htimes, hne]
  have hissue : next g handler (.issue 0) { q with barriers := [counting (times + 1) i] } =
      some { q with barriers := [(counting (times + 1) i).issue] } := by
    have hlt' : (counting (times + 1) i).issued < (counting (times + 1) i).calls :=
      Nat.lt_succ_of_le hi
    simp only [next, nextOk, hok, List.getElem?_cons_zero, hlt', if_true]
    rfl
  have hcomplete : next g handler (.complete 0)
      { q with barriers := [(counting (times + 1) i).issue] } =
      some { q with barriers := [counting times (i + 1)] } := by
    have hlt' : (counting (times + 1) i).issue.completed <
        (counting (times + 1) i).issue.issued := Nat.lt_succ_self i
    simp only [next, nextOk, hok, List.getElem?_cons_zero, hlt', if_true, complete, hrun]
    rfl
  exact ((Reach.refl _).tail (a := .issue 0) trivial hissue).tail (a := .complete 0) trivial
    hcomplete

/-- Any number of calls, as long as the counter stays above zero. -/
theorem reach_counting {g : ExecutionGraph} {handler : String → Handler} {q : Request}
    (hok : q.base.crashed = false) {times : ℕ} (ht : 0 < times) (i n : ℕ)
    (hlt : times + n ≤ 2 ^ 32) (hi : i + n ≤ 2 ^ 32 + 1) :
    Reach (next g handler) Calling { q with barriers := [counting (times + n) i] }
      { q with barriers := [counting times (i + n)] } := by
  induction n generalizing i with
  | zero => exact Reach.refl _
  | succ n ih =>
    have hone : Reach (next g handler) Calling { q with barriers := [counting (times + n + 1) i] }
        { q with barriers := [counting (times + n) (i + 1)] } :=
      reach_counting_one hok (by omega) (by omega) (by omega)
    have hrest := ih (i + 1) (by omega) (by omega)
    rw [Nat.add_right_comm, Nat.add_assoc i] at hrest
    exact hone.trans hrest

/-- The node issues 2³² + 1 calls; the first one to be completed calls back. -/
def earlyCallback : List Action :=
  [.loop .isAsync, .loop .isDone, .enter ⟨true, true⟩ (2 ^ 32 + 1), .issue 0, .complete 0,
    .callback, .schedule, .loop .isAsync, .issue 0, .complete 0]

/-- The last call is completed and calls back again. -/
def lateCallback : List Action :=
  [.issue 0, .complete 0, .callback, .schedule, .loop .isAsync, .loop .isDone,
    .enter ⟨false, true⟩ 1]

/-- The request after `earlyCallback`. -/
def early : Request :=
  (follow (next oneNode fun _ => .rpc) Calling earlyCallback (.setup oneNode)).getD
    (.setup oneNode)

theorem reach_early : Reach (next oneNode fun _ => .rpc) Calling (.setup oneNode) early := by
  have hsome : (follow (next oneNode fun _ => .rpc) Calling earlyCallback
      (.setup oneNode)).isSome = true := by decide +kernel
  obtain ⟨q, hq⟩ := Option.isSome_iff_exists.1 hsome
  have hearly : early = q := by rw [early, hq, Option.getD_some]
  rw [hearly]
  exact reach_of_follow hq

/-- **Two runners are in `Step`.**  A node issues 2³² + 1 calls, each completed as soon as it
is issued.  The barrier starts with one, calls back with the first call, and with the last
one again: the runner of the first callback takes the counter of the context, and that of
the second runs the handler in the state `After` while the worker is still in `Invoke`. -/
theorem step_not_exclusive :
    ∃ q, Reach (next oneNode fun _ => .rpc) Calling (.setup oneNode) q ∧ q.inStep = 2 ∧
      q.barriers.map Barrier.callbacks = [2] := by
  have hbarriers : early.barriers = [counting (1 + (2 ^ 32 - 2)) 2] := by decide +kernel
  have hcount : Reach (next oneNode fun _ => .rpc) Calling
      { early with barriers := [counting (1 + (2 ^ 32 - 2)) 2] }
      { early with barriers := [counting 1 (2 + (2 ^ 32 - 2))] } :=
    reach_counting (by decide +kernel) one_pos 2 (2 ^ 32 - 2) (by omega) (by omega)
  rw [← hbarriers] at hcount
  obtain ⟨q, hlate, hq⟩ := exists_reach_of_follow (next oneNode fun _ => .rpc) Calling
    lateCallback { early with barriers := [counting 1 (2 + (2 ^ 32 - 2))] }
    (fun q => decide (q.inStep = 2 ∧ q.barriers.map Barrier.callbacks = [2]))
    (by decide +kernel)
  exact ⟨q, (reach_early.trans hcount).trans hlate, of_decide_eq_true hq⟩

end Rtp.Framework.RpcStep
