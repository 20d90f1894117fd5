import Mathlib.Data.Nat.Count
import Rtp.Util.ThreadPool

/-!
# Tasks that the thread pool drops

`stop_` is one flag for all queues of a `ThreadPool`: a worker of one queue that runs a stop
task makes the workers of all others return after the task at hand, whatever is still in their
queues.

* `exists_dropped` — with two queues or more, and room for one task and all the stop tasks,
  there is such a run: all workers are busy and there is one more task in the second queue; the
  destructor pushes all its stop tasks; the first worker takes one and runs it; then every
  worker finishes its task and returns.
* `executes_iff` — **when no task is lost**.
* `task_dropped` — a run of a pool with two workers, in full.
-/

namespace Rtp.Util.ThreadPool

open Function (update update_self update_of_ne update_idem)

variable {cfg : Config} {s : State}

/-! ## Single steps -/

theorem next_schedule {j : ℕ} (hj : j < cfg.queueNum) (hphase : s.phase ≠ .returned)
    (hroom : (s.queues j).toList.length < (s.queues j).capacity) :
    ∃ (q : Ring Task) (accepted : ℕ), q.toList = (s.queues j).toList ++ [.call s.scheduled] ∧
      (s.phase = .running → accepted = s.accepted + 1) ∧
      next cfg (.schedule j) s = some { s with
        queues := update s.queues j q
        scheduled := s.scheduled + 1
        accepted } := by
  obtain ⟨q, hq⟩ := Ring.exists_tryPush hroom (.call s.scheduled)
  refine ⟨q, if s.phase = .running then s.accepted + 1 else s.accepted,
    Ring.toList_of_tryPush hq, fun hrun => if_pos hrun, ?_⟩
  simp [next, State.schedule, Nat.mod_eq_of_lt hj, hq, hphase]

variable {w : ℕ}

theorem next_pop (hw : w < cfg.workerNum) (hwait : s.workers w = .waiting) {t : Task}
    {l : List Task} (hlist : (s.queues (w % cfg.queueNum)).toList = t :: l) :
    ∃ q : Ring Task, q.toList = l ∧ next cfg (.pop w) s = some { s with
      queues := update s.queues (w % cfg.queueNum) q
      workers := update s.workers w (.popped t) } := by
  obtain ⟨a, q, hq⟩ := Ring.exists_tryPop (r := s.queues (w % cfg.queueNum)) (by simp [hlist])
  have hcons := Ring.toList_of_tryPop hq
  rw [hlist, List.cons.injEq] at hcons
  obtain ⟨rfl, hl⟩ := hcons
  refine ⟨q, hl.symm, ?_⟩
  rw [next, if_pos ⟨hw, hwait⟩, State.pop, hq]
  rfl

theorem next_run_call {w b : ℕ} (hw : w < cfg.workerNum)
    (hpopped : s.workers w = .popped (.call b)) :
    next cfg (.run w) s = some { s with
      executed := s.executed ++ [b]
      workers := update s.workers w .ran } := by
  simp [next, hpopped, hw, State.runTask, State.setWorker]

theorem next_run_stop (hw : w < cfg.workerNum) (hpopped : s.workers w = .popped .stop) :
    next cfg (.run w) s = some { s with
      stop := true
      workers := update s.workers w .ran } := by
  simp [next, hpopped, hw, State.runTask, State.setWorker]

theorem next_test (hw : w < cfg.workerNum) (hran : s.workers w = .ran) :
    next cfg (.test w) s = some { s with
      workers := update s.workers w (if s.stop then .exited else .waiting) } := by
  simp [next, hran, hw, State.testStop, State.setWorker]

theorem next_pushStop {j i : ℕ} (hphase : s.phase = .pushing j i) (hj : j < cfg.queueNum)
    (hi : i < cfg.workerNum / cfg.queueNum + 1)
    (hroom : (s.queues j).toList.length < (s.queues j).capacity) :
    ∃ q : Ring Task, q.toList = (s.queues j).toList ++ [.stop] ∧
      next cfg .destruct s = some { s with
        queues := update s.queues j q
        phase := .pushing j (i + 1) } := by
  obtain ⟨q, hq⟩ := Ring.exists_tryPush hroom .stop
  refine ⟨q, Ring.toList_of_tryPush hq, ?_⟩
  simp only [next, State.destruct, hphase, hj, hi, if_true, hq]
  rfl

/-! ## The run -/

/-- The states that can be reached. -/
abbrev Reached (cfg : Config) (s : State) : Prop :=
  Reach (next cfg) (fun _ _ => True) (.init cfg) s

/-- `Schedule` is not called any more once the destructor has been called. -/
def Unscheduled (s : State) (a : Action) : Prop :=
  ∀ random, a = .schedule random → s.phase = .running

/-- The states that workers and the destructor get to, with the tasks that were scheduled
before. -/
abbrev Settled (cfg : Config) (s : State) : Prop :=
  Reach (next cfg) Unscheduled (.init cfg) s

theorem Settled.reached (hs : Settled cfg s) : Reached cfg s :=
  hs.mono fun _ _ _ => trivial

theorem Reached.step {s' : State} {a : Action} (hs : Reached cfg s)
    (h : next cfg a s = some s') : Reached cfg s' :=
  hs.tail trivial h

/-- What workers and the destructor do can be done in every run. -/
theorem Reached.trans {s' : State} (hs : Reached cfg s)
    (h : Reach (next cfg) Unscheduled s s') : Reached cfg s' :=
  Reach.trans hs (h.mono fun _ _ _ => trivial)

theorem Reached.capacity (hs : Reached cfg s) (j : ℕ) :
    (s.queues j).capacity = cfg.queueSize := by
  have h : s.Inv cfg := hs.invariant (State.inv_init cfg) fun _ _ _ h _ hnext => h.next hnext
  exact h.capacity j

/-- A step of a worker or of the destructor. -/
theorem reach_step {s' s'' : State} {a : Action} (h : Reach (next cfg) Unscheduled s s')
    (ha : ∀ random, a ≠ .schedule random) (hnext : next cfg a s' = some s'') :
    Reach (next cfg) Unscheduled s s'' :=
  h.tail (fun random heq => absurd heq (ha random)) hnext

/-- A worker runs its task and looks at `stop_`. -/
theorem reach_finishCall {w b : ℕ} (hw : w < cfg.workerNum)
    (hpopped : s.workers w = .popped (.call b)) : Reach (next cfg) Unscheduled s { s with
      executed := s.executed ++ [b]
      workers := update s.workers w (if s.stop then .exited else .waiting) } := by
  have hran := reach_step (.refl s) (by simp) (next_run_call hw hpopped)
  have htest := reach_step hran (by simp) (next_test hw (update_self ..))
  rwa [update_idem] at htest

/-- A worker takes a stop task, runs it and returns. -/
theorem reach_takeStop (hw : w < cfg.workerNum) (hwait : s.workers w = .waiting) {l : List Task}
    (hlist : (s.queues (w % cfg.queueNum)).toList = .stop :: l) :
    ∃ q : Ring Task, q.toList = l ∧ Reach (next cfg) Unscheduled s { s with
      queues := update s.queues (w % cfg.queueNum) q
      stop := true
      workers := update s.workers w .exited } := by
  obtain ⟨q, hq, hpop⟩ := next_pop hw hwait hlist
  have hpopped := reach_step (.refl s) (by simp) hpop
  have hran := reach_step hpopped (by simp) (next_run_stop hw (by simp))
  have htest := reach_step hran (by simp) (next_test hw (update_self ..))
  rw [update_idem, update_idem] at htest
  exact ⟨q, hq, htest⟩

/-- Of the first `k` workers the busy ones have a task each, and the queues are empty. -/
structure Loaded (cfg : Config) (busy : ℕ → Prop) [DecidablePred busy] (k : ℕ) (s : State) :
    Prop where
  settled : Settled cfg s
  phase : s.phase = .running
  stop : s.stop = false
  scheduled : s.scheduled = Nat.count busy k
  accepted : s.accepted = Nat.count busy k
  executed : s.executed = []
  queues : ∀ j, (s.queues j).toList = []
  workers : ∀ w, s.workers w =
    if w < k ∧ busy w then .popped (.call (Nat.count busy w)) else .waiting

section Loaded

variable {busy : ℕ → Prop} [DecidablePred busy] {k : ℕ}

/-- A worker that is not busy is left alone. -/
theorem Loaded.skip (hs : Loaded cfg busy k s) (hk : ¬ busy k) : Loaded cfg busy (k + 1) s where
  settled := hs.settled
  phase := hs.phase
  stop := hs.stop
  scheduled := by rw [hs.scheduled, Nat.count_succ, if_neg hk, Nat.add_zero]
  accepted := by rw [hs.accepted, Nat.count_succ, if_neg hk, Nat.add_zero]
  executed := hs.executed
  queues := hs.queues
  workers w := by
    have hiff : (w < k + 1 ∧ busy w) = (w < k ∧ busy w) := by
      rw [eq_iff_iff]
      refine ⟨fun ⟨hlt, hw⟩ => ⟨?_, hw⟩, fun ⟨hlt, hw⟩ => ⟨by omega, hw⟩⟩
      have hne : w ≠ k := fun heq => hk (heq ▸ hw)
      omega
    simp only [hiff, hs.workers]

/-- A task is scheduled for a busy worker, which takes it. -/
theorem Loaded.load (hs : Loaded cfg busy k s) (hlt : k < cfg.workerNum) (hk : busy k) :
    ∃ s', Loaded cfg busy (k + 1) s' := by
  have hj : k % cfg.queueNum < cfg.queueNum := Nat.mod_lt k cfg.queueNum_pos
  obtain ⟨q, accepted, hq, haccepted, hnext⟩ := next_schedule (s := s) hj (by simp [hs.phase]) (by
    rw [hs.queues, hs.settled.reached.capacity]
    exact cfg.queueSize_pos)
  obtain rfl := haccepted hs.phase
  have hs₁ : Settled cfg _ := Reach.tail hs.settled (fun _ _ => hs.phase) hnext
  rw [hs.queues, hs.scheduled, List.nil_append] at hq
  have hlist : (update s.queues (k % cfg.queueNum) q (k % cfg.queueNum)).toList =
      [.call (Nat.count busy k)] := by rw [update_self, hq]
  obtain ⟨q', hq', hnext'⟩ := @next_pop cfg { s with
      queues := update s.queues (k % cfg.queueNum) q
      scheduled := s.scheduled + 1
      accepted := s.accepted + 1 } k hlt (by simp [hs.workers]) _ _ hlist
  refine ⟨_, reach_step hs₁ (by simp) hnext', hs.phase, hs.stop, ?_, ?_, hs.executed,
    fun j => ?_, fun w => ?_⟩
  · simp [hs.scheduled, Nat.count_succ, hk]
  · simp [hs.accepted, Nat.count_succ, hk]
  · by_cases hjk : j = k % cfg.queueNum
    · simp only [hjk, update_self, hq']
    · simp only [update_of_ne hjk, hs.queues]
  · by_cases hwk : w = k
    · simp [hwk, hk]
    · have hiff : (w < k + 1 ∧ busy w) = (w < k ∧ busy w) := by
        rw [eq_iff_iff]
        exact and_congr_left fun _ => by omega
      simp only [update_of_ne hwk, hs.workers, hiff]

theorem exists_loaded (cfg : Config) (busy : ℕ → Prop) [DecidablePred busy] {k : ℕ}
    (hk : k ≤ cfg.workerNum) : ∃ s, Loaded cfg busy k s := by
  induction k with
  | zero => exact ⟨.init cfg, .refl _, rfl, rfl, rfl, rfl, rfl, fun _ => rfl, fun w => by
      simp [State.init]⟩
  | succ k ih =>
    obtain ⟨s, hs⟩ := ih (by omega)
    by_cases hbusy : busy k
    · exact hs.load hk hbusy
    · exact ⟨s, hs.skip hbusy⟩

end Loaded

/-- All workers have a task, there is one more task in the second queue, and the destructor is
before its `i`-th push to the `j`-th queue. -/
structure Pushing (cfg : Config) (j i : ℕ) (s : State) : Prop where
  reached : Reached cfg s
  phase : s.phase = .pushing j i
  stop : s.stop = false
  accepted : s.accepted = cfg.workerNum + 1
  executed : s.executed = []
  queues : ∀ j', (s.queues j').toList =
    (if j' = 1 then [.call cfg.workerNum] else []) ++
      List.replicate ((Phase.pushing j i).pushed cfg j') .stop
  workers : ∀ w < cfg.workerNum, s.workers w = .popped (.call w)

theorem exists_pushing_zero (cfg : Config) (hq : 2 ≤ cfg.queueNum) :
    ∃ s, Pushing cfg 0 0 s := by
  obtain ⟨s, hs⟩ := exists_loaded cfg (fun _ => True) (Nat.le_refl _)
  have hcount : ∀ n, Nat.count (fun _ => True) n = n := fun n => Nat.count_true n
  have hone : 1 < cfg.queueNum := hq
  obtain ⟨q, accepted, hlist, haccepted, hnext⟩ :=
    next_schedule (s := s) hone (by simp [hs.phase]) (by
      rw [hs.queues, hs.settled.reached.capacity]
      exact cfg.queueSize_pos)
  obtain rfl := haccepted hs.phase
  rw [hs.queues, hs.scheduled, hcount, List.nil_append] at hlist
  have hnext' : next cfg .destruct { s with
      queues := update s.queues 1 q
      scheduled := s.scheduled + 1
      accepted := s.accepted + 1 } = some { s with
      queues := update s.queues 1 q
      scheduled := s.scheduled + 1
      accepted := s.accepted + 1
      phase := .pushing 0 0 } := by
    simp [next, State.destruct, hs.phase]
  refine ⟨_, (hs.settled.reached.step hnext).step hnext', rfl, hs.stop,
    by simp [hs.accepted, hcount], hs.executed, fun j' => ?_, fun w hw => ?_⟩
  · by_cases hj' : j' = 1
    · simp [hj', hlist, Phase.pushed]
    · simp [hj', hs.queues, Phase.pushed]
  · simp [hs.workers, hw, hcount]

theorem Pushing.push {j i : ℕ} (hs : Pushing cfg j i s) (hj : j < cfg.queueNum)
    (hi : i < cfg.workerNum / cfg.queueNum + 1)
    (hsize : cfg.workerNum / cfg.queueNum + 2 ≤ cfg.queueSize) :
    ∃ s', Pushing cfg j (i + 1) s' := by
  have hself : (Phase.pushing j i).pushed cfg j = i := by simp [Phase.pushed]
  have hroom : (s.queues j).toList.length < (s.queues j).capacity := by
    rw [hs.queues, hs.reached.capacity, List.length_append, List.length_replicate, hself]
    split
    · simp only [List.length_singleton]
      omega
    · simp only [List.length_nil]
      omega
  obtain ⟨q, hlist, hnext⟩ := next_pushStop hs.phase hj hi hroom
  refine ⟨_, hs.reached.step hnext, rfl, hs.stop, hs.accepted, hs.executed, fun j' => ?_,
    hs.workers⟩
  by_cases hjj : j' = j
  · subst hjj
    have hself' : (Phase.pushing j' (i + 1)).pushed cfg j' = i + 1 := by simp [Phase.pushed]
    simp only [update_self, hlist, hs.queues, hself, hself', List.replicate_succ',
      List.append_assoc]
  · have hsame : (Phase.pushing j (i + 1)).pushed cfg j' = (Phase.pushing j i).pushed cfg j' := by
      simp [Phase.pushed, hjj]
    simp only [update_of_ne hjj, hs.queues, hsame]

theorem exists_pushing (cfg : Config) (hq : 2 ≤ cfg.queueNum)
    (hsize : cfg.workerNum / cfg.queueNum + 2 ≤ cfg.queueSize) {j : ℕ} (hj : j ≤ cfg.queueNum) :
    ∃ s, Pushing cfg j 0 s := by
  induction j with
  | zero => exact exists_pushing_zero cfg hq
  | succ j ih =>
    have hall : ∀ i ≤ cfg.workerNum / cfg.queueNum + 1, ∃ s, Pushing cfg j i s := by
      intro i hi
      induction i with
      | zero => exact ih (by omega)
      | succ i ihi =>
        obtain ⟨s, hs⟩ := ihi (by omega)
        exact hs.push (by omega) (by omega) hsize
    obtain ⟨s, hs⟩ := hall _ le_rfl
    have hnext : next cfg .destruct s = some { s with phase := .pushing (j + 1) 0 } := by
      have hlt : j < cfg.queueNum := hj
      simp [next, State.destruct, hs.phase, hlt]
    refine ⟨_, hs.reached.step hnext, rfl, hs.stop, hs.accepted, hs.executed, fun j' => ?_,
      hs.workers⟩
    have hsame : (Phase.pushing (j + 1) 0).pushed cfg j' =
        (Phase.pushing j (cfg.workerNum / cfg.queueNum + 1)).pushed cfg j' := by
      simp only [Phase.pushed]
      split_ifs <;> omega
    rw [hsame]
    exact hs.queues j'

/-- `stop_` is set; the first `k` workers have returned, the others have a task, and the last
task is still in the second queue. -/
structure Stopping (cfg : Config) (k : ℕ) (s : State) : Prop where
  reached : Reached cfg s
  phase : s.phase = .joining 0
  stop : s.stop = true
  accepted : s.accepted = cfg.workerNum + 1
  executed : ∀ b ∈ s.executed, b < cfg.workerNum
  exited : ∀ w < k, s.workers w = .exited
  workers : ∀ w < cfg.workerNum, k ≤ w → s.workers w = .popped (.call w)

/-- The first worker runs its task, takes a stop task and runs it. -/
theorem exists_stopping_one (cfg : Config) (hq : 2 ≤ cfg.queueNum)
    (hsize : cfg.workerNum / cfg.queueNum + 2 ≤ cfg.queueSize) : ∃ s, Stopping cfg 1 s := by
  obtain ⟨s, hs⟩ := exists_pushing cfg hq hsize le_rfl
  have hpos := cfg.workerNum_pos
  have hnext : next cfg .destruct s = some { s with phase := .joining 0 } := by
    simp [next, State.destruct, hs.phase]
  have hran := (hs.reached.step hnext).trans (reach_finishCall hpos (hs.workers 0 hpos))
  -- the first queue holds only stop tasks
  have hstops : (s.queues (0 % cfg.queueNum)).toList =
      .stop :: List.replicate (cfg.workerNum / cfg.queueNum) .stop := by
    have hlt : 0 < cfg.queueNum := cfg.queueNum_pos
    rw [Nat.zero_mod, hs.queues, ← List.replicate_succ]
    simp [Phase.pushed, hlt]
  obtain ⟨q, -, hreturned⟩ := @reach_takeStop cfg { s with
    phase := .joining 0
    executed := s.executed ++ [0]
    workers := update s.workers 0 (if s.stop then .exited else .waiting) }
    0 hpos (by simp [hs.stop]) _ hstops
  refine ⟨_, hran.trans hreturned, rfl, rfl, hs.accepted,
    fun b hb => ?_, fun w hw => ?_, fun w hw hle => ?_⟩
  · simp only [hs.executed, List.nil_append, List.mem_singleton] at hb
    rwa [hb]
  · obtain rfl : w = 0 := by omega
    simp
  · have hne : w ≠ 0 := by omega
    simp only [update_of_ne hne]
    exact hs.workers w hw

theorem exists_stopping (cfg : Config) (hq : 2 ≤ cfg.queueNum)
    (hsize : cfg.workerNum / cfg.queueNum + 2 ≤ cfg.queueSize) {k : ℕ} (hk : k < cfg.workerNum) :
    ∃ s, Stopping cfg (k + 1) s := by
  induction k with
  | zero => exact exists_stopping_one cfg hq hsize
  | succ k ih =>
    obtain ⟨s, hs⟩ := ih (by omega)
    refine ⟨_, hs.reached.trans (reach_finishCall hk (hs.workers _ hk le_rfl)), hs.phase, hs.stop,
      hs.accepted, fun b hb => ?_, fun w hw => ?_, fun w hw hle => ?_⟩
    · rcases List.mem_append.1 hb with hb | hb
      · exact hs.executed b hb
      · rwa [List.mem_singleton.1 hb]
    · by_cases hwk : w = k + 1
      · subst hwk
        simp [hs.stop]
      · simp only [update_of_ne hwk]
        exact hs.exited w (by omega)
    · have hne : w ≠ k + 1 := by omega
      simp only [update_of_ne hne]
      exact hs.workers w hw (by omega)

/-- The destructor joins the workers and returns. -/
theorem Stopping.exists_returned (hs : Stopping cfg cfg.workerNum s) :
    Reached cfg { s with phase := .returned } := by
  have hjoin : ∀ k ≤ cfg.workerNum, Reached cfg { s with phase := .joining k } := by
    intro k hk
    induction k with
    | zero =>
      have hsame : ({ s with phase := .joining 0 } : State) = s := by rw [← hs.phase]
      rw [hsame]
      exact hs.reached
    | succ k ih =>
      refine (ih (by omega)).step (a := .destruct) ?_
      have hlt : k < cfg.workerNum := hk
      simp [next, State.destruct, hlt, hs.exited k hlt]
  refine (hjoin _ le_rfl).step (a := .destruct) ?_
  simp [next, State.destruct]

/-- **A task is lost**, where there are two queues or more, and room in a queue for one task and
all the stop tasks. -/
theorem exists_dropped (cfg : Config) (hq : 2 ≤ cfg.queueNum)
    (hsize : cfg.workerNum / cfg.queueNum + 2 ≤ cfg.queueSize) :
    ∃ s, Reached cfg s ∧ s.phase = .returned ∧ ∃ b < s.accepted, b ∉ s.executed := by
  obtain ⟨k, hk⟩ : ∃ k, cfg.workerNum = k + 1 :=
    Nat.exists_eq_succ_of_ne_zero cfg.workerNum_pos.ne'
  obtain ⟨s, hs⟩ := exists_stopping cfg hq hsize (k := k) (by omega)
  rw [← hk] at hs
  refine ⟨_, hs.exists_returned, rfl, cfg.workerNum, ?_, fun hmem => ?_⟩
  · show cfg.workerNum < s.accepted
    rw [hs.accepted]
    exact Nat.lt_add_one _
  · exact lt_irrefl _ (hs.executed _ hmem)

/-! ## When no task is lost -/

/-- **When no task is lost**: whenever the destructor returns, every task that was accepted
before it was called has been run once, exactly if there is one queue, or the queues are too
short for one task and all the stop tasks; in the second case the destructor waits for room and
does not return while a task is left. -/
theorem executes_iff (cfg : Config) : Executes cfg ↔
    cfg.queueNum = 1 ∨ cfg.queueSize ≤ cfg.workerNum / cfg.queueNum + 1 := by
  refine ⟨fun h => ?_, executes_of cfg⟩
  by_contra hcfg
  have hpos := cfg.queueNum_pos
  obtain ⟨s, hs, hphase, b, hb, hmem⟩ := exists_dropped cfg (by omega) (by omega)
  have hcount := h s hs hphase b hb
  rw [List.count_eq_zero_of_not_mem hmem] at hcount
  simp at hcount

/-- Two workers with a queue each, of three slots. -/
def twoQueues : Config where
  workerNum := 2
  queueNum := 2
  queueSize := 3
  queueNum_pos := Nat.zero_lt_two
  multiple := ⟨1, Nat.zero_lt_one, rfl⟩
  queueSize_pos := Nat.zero_lt_succ 2

/-- **A dropped task.**  Both tasks are in the second queue; its worker has taken the first of
them.  The destructor pushes its stop tasks, the other worker runs one, and the worker of the
second queue runs its task and returns; the second task is never run. -/
theorem task_dropped : ∃ s, Reach (next twoQueues) (fun _ _ => True) (.init twoQueues) s ∧
    s.phase = .returned ∧ s.accepted = 2 ∧ s.executed = [0] := by
  obtain ⟨s, hs, hseen⟩ := exists_reach_of_follow (next twoQueues) (fun _ _ => True)
    [.schedule 1, .schedule 1, .pop 1, .destruct, .destruct, .destruct, .destruct, .destruct,
      .destruct, .destruct, .destruct, .pop 0, .run 0, .test 0, .run 1, .test 1, .destruct,
      .destruct, .destruct]
    (.init twoQueues)
    (fun s => decide (s.phase = .returned ∧ s.accepted = 2 ∧ s.executed = [0]))
    (by decide +kernel)
  exact ⟨s, hs, of_decide_eq_true hseen⟩

end Rtp.Util.ThreadPool
