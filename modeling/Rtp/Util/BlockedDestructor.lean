import Rtp.Util.DroppedTasks

/-!
# A destructor of the thread pool that waits for ever

The destructor of `ThreadPool` pushes as many stop tasks to a queue as the queue has workers,
and one more, and a `Push` waits while the queue is full.  If all workers of the queue have
returned by then, nobody makes room.  A worker returns after any task once `stop_` is set, so
that it need not take a stop task of its own, and `stop_` may have been set by a worker of
another queue.

* `Stuck` — the destructor waits on a full queue all of whose workers have returned.
* `View`, `View.Step` — a pool with one queue, and what an action does to it.
* `Lined` — the invariant for one queue when `Schedule` is not called any more: the stop tasks
  are at its end, and once one of them was taken, fewer are in the queue than were pushed.
* `FromTasks` — tasks that are still running may call `Schedule`; `Single` — the invariant for
  one worker, which runs no such task once it has taken a stop task.
* `Blocking` — the run to such a state: one worker of the first queue is idle and takes a stop
  task; then the others return after the task at hand.
* `never_stuck_iff` — **when the destructor cannot get stuck**: there is one worker; or one
  queue, with room for a task for each worker, and no task calls `Schedule` any more.
* `destructor_stuck` — two runs in full.
-/

namespace Rtp.Util.ThreadPool

open Function (update update_self update_of_ne)

variable {cfg : Config} {s : State}

/-- The destructor waits in `Push`, and all workers of the queue have returned. -/
def Stuck (cfg : Config) (s : State) : Prop :=
  ∃ j i, s.phase = .pushing j i ∧ s.destruct cfg = none ∧
    ∀ w < cfg.workerNum, w % cfg.queueNum = j → s.workers w = .exited

theorem destruct_eq_none_iff {j i : ℕ} (hphase : s.phase = .pushing j i) :
    s.destruct cfg = none ↔ j < cfg.queueNum ∧ i < cfg.workerNum / cfg.queueNum + 1 ∧
      (s.queues j).capacity ≤ (s.queues j).toList.length := by
  simp only [State.destruct, hphase]
  by_cases hj : j < cfg.queueNum
  · by_cases hi : i < cfg.workerNum / cfg.queueNum + 1
    · simp [hj, hi, Ring.tryPush_eq_none_iff]
    · simp [hj, hi]
  · simp [hj]

/-! ## One queue -/

/-- What is seen of a pool with one queue: the tasks in it, how many stop tasks were pushed,
`stop_`, and the workers. -/
structure View where
  list : List Task
  pushed : ℕ
  stop : Bool
  workers : ℕ → Worker

/-- The view of a state. -/
def State.view (cfg : Config) (s : State) : View :=
  ⟨(s.queues 0).toList, s.phase.pushed cfg 0, s.stop, s.workers⟩

/-- What an action does, with `n` workers. -/
inductive View.Step (n : ℕ) (v : View) : Action → View → Prop
  | schedule (random id : ℕ) : Step n v (.schedule random) { v with list := v.list ++ [.call id] }
  | full (random : ℕ) : Step n v (.schedule random) v
  | pop {w : ℕ} {t : Task} {l : List Task} (hw : w < n) (hwait : v.workers w = .waiting)
      (hlist : v.list = t :: l) :
    Step n v (.pop w) { v with list := l, workers := update v.workers w (.popped t) }
  | call {w b : ℕ} (hw : w < n) (hpopped : v.workers w = .popped (.call b)) :
    Step n v (.run w) { v with workers := update v.workers w .ran }
  | stop {w : ℕ} (hw : w < n) (hpopped : v.workers w = .popped .stop) :
    Step n v (.run w) { v with stop := true, workers := update v.workers w .ran }
  | test {w : ℕ} (hw : w < n) (hran : v.workers w = .ran) :
    Step n v (.test w) { v with
      workers := update v.workers w (if v.stop then .exited else .waiting) }
  | push : Step n v .destruct { v with list := v.list ++ [.stop], pushed := v.pushed + 1 }
  | rest : Step n v .destruct v

/-- **An action of the pool is one of the view.** -/
theorem view_step (h : s.Inv cfg) (hone : cfg.queueNum = 1) {a : Action} {s' : State}
    (hnext : next cfg a s = some s') : (s.view cfg).Step cfg.workerNum a (s'.view cfg) := by
  obtain ⟨random, rfl, rfl⟩ | ⟨w, rfl, hw, hwaiting, hpop⟩ | ⟨w, task, rfl, hw, hpopped, hrun⟩ |
    ⟨w, rfl, hw, hran, rfl⟩ | ⟨rfl, hdestruct⟩ := next_cases hnext
  · rw [hone, Nat.mod_one, State.schedule]
    split
    · exact .full random
    next q hpush =>
      simp only [State.view, update_self, Ring.toList_of_tryPush hpush]
      exact .schedule random s.scheduled
  · obtain ⟨⟨task, q⟩, htry, rfl⟩ := Option.map_eq_some_iff.1 hpop
    rw [hone, Nat.mod_one] at htry ⊢
    simp only [State.view]
    exact .pop hw hwaiting (Ring.toList_of_tryPop htry)
  · cases task with
    | empty => simp [State.runTask] at hrun
    | call b =>
      obtain rfl := Option.some.inj hrun
      exact .call hw hpopped
    | stop =>
      obtain rfl := Option.some.inj hrun
      exact .stop hw hpopped
  · exact .test hw hran
  · obtain ⟨j, i, q, hphase, hj, -, hpush, rfl⟩ | ⟨phase, rfl, -, hpushed, -, -⟩ :=
      h.destruct_cases hdestruct
    · obtain rfl : j = 0 := by omega
      have hpushed : (Phase.pushing 0 (i + 1)).pushed cfg 0 = s.phase.pushed cfg 0 + 1 := by
        simp [hphase, Phase.pushed]
      simp only [State.view, update_self, Ring.toList_of_tryPush hpush, hpushed]
      exact .push
    · simp only [State.view, hpushed 0 (by omega)]
      exact .rest

/-- The destructor waits for ever. -/
theorem Stuck.view (hstuck : Stuck cfg s) (h : s.Inv cfg) (hone : cfg.queueNum = 1) :
    (s.view cfg).stop = true ∧ (s.view cfg).pushed ≤ cfg.workerNum ∧
      cfg.queueSize ≤ (s.view cfg).list.length := by
  obtain ⟨j, i, hphase, hwaits, hexited⟩ := hstuck
  obtain ⟨hj, hi, hfull⟩ := (destruct_eq_none_iff hphase).mp hwaits
  obtain rfl : j = 0 := by omega
  rw [hone, Nat.div_one] at hi
  rw [h.capacity] at hfull
  refine ⟨h.exited 0 (hexited 0 cfg.workerNum_pos (by rw [hone])), ?_, hfull⟩
  simp only [State.view, hphase, Phase.pushed, lt_irrefl, if_false, if_true]
  omega

/-! ## One queue with room for every worker -/

/-- The stop tasks are at the end, and they are not more than were pushed. -/
def Line (pushed : ℕ) (l : List Task) : Prop :=
  ∃ calls k, l = calls ++ List.replicate k .stop ∧ Task.stop ∉ calls ∧ k ≤ pushed

section Line

variable {pushed : ℕ} {l : List Task}

theorem Line.push_stop (h : Line pushed l) : Line (pushed + 1) (l ++ [.stop]) := by
  obtain ⟨calls, k, rfl, hcalls, hk⟩ := h
  refine ⟨calls, k + 1, ?_, hcalls, by omega⟩
  rw [List.replicate_succ', List.append_assoc]

/-- Before there are stop tasks. -/
theorem Line.push_call (h : Line 0 l) (id : ℕ) : Line 0 (l ++ [.call id]) := by
  obtain ⟨calls, k, rfl, hcalls, hk⟩ := h
  obtain rfl : k = 0 := by omega
  refine ⟨calls ++ [.call id], 0, by simp, ?_, le_rfl⟩
  simpa using hcalls

theorem Line.pop {t : Task} (h : Line pushed (t :: l)) : Line pushed l := by
  obtain ⟨calls, k, heq, hcalls, hk⟩ := h
  cases calls with
  | nil =>
    cases k with
    | zero => simp at heq
    | succ k =>
      rw [List.nil_append, List.replicate_succ, List.cons.injEq] at heq
      exact ⟨[], k, heq.2, by simp, by omega⟩
  | cons x calls =>
    rw [List.cons_append, List.cons.injEq] at heq
    exact ⟨calls, k, heq.2, fun hmem => hcalls (List.mem_cons_of_mem x hmem), hk⟩

/-- Behind a stop task there are only stop tasks. -/
theorem Line.lt_of_stop (h : Line pushed (.stop :: l)) : l.length < pushed := by
  obtain ⟨calls, k, heq, hcalls, hk⟩ := h
  cases calls with
  | nil =>
    have hlen := congrArg List.length heq
    simp only [List.nil_append, List.length_cons, List.length_replicate] at hlen
    omega
  | cons x calls =>
    rw [List.cons_append, List.cons.injEq] at heq
    exact absurd (heq.1 ▸ List.mem_cons_self) hcalls

end Line

/-- A stop task was taken. -/
def View.Taken (v : View) : Prop := v.stop = true ∨ ∃ w, v.workers w = .popped .stop

/-- The invariant for one queue. -/
structure Lined (v : View) : Prop where
  line : Line v.pushed v.list
  taken : v.Taken → v.list.length < v.pushed

theorem lined_init (cfg : Config) : Lined ((State.init cfg).view cfg) where
  line := ⟨[], 0, rfl, by simp, le_rfl⟩
  taken h := by simp [View.Taken, State.view, State.init] at h

variable {v v' : View} {n : ℕ} {a : Action}

/-- A worker that gets on with its task has not taken a stop task before. -/
theorem View.Taken.of_update {w : ℕ} {x : Worker} (hx : x ≠ .popped .stop)
    (h : View.Taken { v with workers := update v.workers w x }) : v.Taken := by
  rcases h with hstop | ⟨w', hw'⟩
  · exact .inl hstop
  · rcases State.workers_update hw' with ⟨-, htask⟩ | hw'
    · exact absurd htask.symm hx
    · exact .inr ⟨w', hw'⟩

/-- Every action keeps the invariant, if `Schedule` is called before there are stop tasks. -/
theorem Lined.step (h : Lined v) (ha : ∀ random, a = .schedule random → v.pushed = 0)
    (hstep : v.Step n a v') : Lined v' := by
  cases hstep with
  | schedule random id =>
    have hzero := ha random rfl
    refine ⟨?_, fun htaken => ?_⟩
    · have hline := h.line
      simp only [hzero] at hline ⊢
      exact hline.push_call id
    · have hlt := h.taken htaken
      omega
  | full random => exact h
  | pop hw hwait hlist =>
    have hline := hlist ▸ h.line
    refine ⟨hline.pop, fun htaken => ?_⟩
    by_cases hold : v.Taken
    · have hlt := h.taken hold
      rw [hlist, List.length_cons] at hlt
      exact Nat.lt_of_succ_lt hlt
    · -- the task that is taken is a stop task
      rcases htaken with hstop | ⟨w', hw'⟩
      · exact absurd (.inl hstop) hold
      · rcases State.workers_update hw' with ⟨-, htask⟩ | hw'
        · obtain rfl := Worker.popped.inj htask
          exact hline.lt_of_stop
        · exact absurd (.inr ⟨w', hw'⟩) hold
  | call hw hpopped => exact ⟨h.line, fun htaken => h.taken (htaken.of_update (by simp))⟩
  | stop hw hpopped => exact ⟨h.line, fun _ => h.taken (.inr ⟨_, hpopped⟩)⟩
  | test hw hran =>
    refine ⟨h.line, fun htaken => h.taken (htaken.of_update ?_)⟩
    cases v.stop <;> simp
  | push =>
    refine ⟨h.line.push_stop, fun htaken => ?_⟩
    have hlt := h.taken htaken
    simp only [List.length_append, List.length_singleton]
    omega
  | rest => exact h

/-! ## One worker -/

/-- During the destruction, `Schedule` is called only by a task that a worker runs. -/
def FromTasks (cfg : Config) (s : State) (a : Action) : Prop :=
  ∀ random, a = .schedule random →
    s.phase = .running ∨ ∃ w < cfg.workerNum, ∃ b, s.workers w = .popped (.call b)

theorem Unscheduled.fromTasks (h : Unscheduled s a) : FromTasks cfg s a :=
  fun random heq => .inl (h random heq)

/-- The invariant for one worker: when it has taken a stop task, it runs no other task, and what
is still to be pushed fits in the queue. -/
structure Single (size : ℕ) (v : View) : Prop where
  pushed : .stop ∈ v.list → 0 < v.pushed
  taken : v.stop = true ∨ v.workers 0 = .popped .stop →
    (v.workers 0 = .popped .stop ∨ v.workers 0 = .ran ∨ v.workers 0 = .exited) ∧
      0 < v.pushed ∧ v.list.length + 2 ≤ v.pushed + size

theorem single_init (cfg : Config) : Single cfg.queueSize ((State.init cfg).view cfg) where
  pushed h := absurd h List.not_mem_nil
  taken h := by simp [State.view, State.init] at h

/-- Every action keeps the invariant, if `Schedule` is called before there are stop tasks, or by
the task of the worker. -/
theorem Single.step {size : ℕ} (h : Single size v) (hle : v.list.length ≤ size)
    (ha : ∀ random, a = .schedule random → v.pushed = 0 ∨ ∃ b, v.workers 0 = .popped (.call b))
    (hstep : v.Step 1 a v') : Single size v' := by
  cases hstep with
  | schedule random id =>
    refine ⟨fun hmem => h.pushed (by simpa using hmem), fun htaken => ?_⟩
    obtain ⟨hworker, hpos, -⟩ := h.taken htaken
    rcases ha random rfl with hzero | ⟨b, hb⟩
    · omega
    · simp [hb] at hworker
  | full random => exact h
  | @pop w t l hw hwait hlist =>
    obtain rfl : w = 0 := by omega
    refine ⟨fun hmem => h.pushed (hlist ▸ List.mem_cons_of_mem t hmem), fun htaken => ?_⟩
    simp only [update_self] at htaken ⊢
    rcases htaken with hstop | htask
    · simpa [hwait] using (h.taken (.inl hstop)).1
    · obtain rfl := Worker.popped.inj htask
      have hpushed := h.pushed (hlist ▸ List.mem_cons_self)
      rw [hlist, List.length_cons] at hle
      exact ⟨.inl rfl, hpushed, by omega⟩
  | @call w b hw hpopped =>
    obtain rfl : w = 0 := by omega
    refine ⟨h.pushed, fun htaken => ?_⟩
    simpa [hpopped] using (h.taken (.inl (by simpa using htaken))).1
  | @stop w hw hpopped =>
    obtain rfl : w = 0 := by omega
    exact ⟨h.pushed, fun _ => ⟨by simp, (h.taken (.inr hpopped)).2⟩⟩
  | @test w hw hran =>
    obtain rfl : w = 0 := by omega
    refine ⟨h.pushed, fun htaken => ?_⟩
    cases hstop : v.stop with
    | true => exact ⟨by simp, (h.taken (.inl hstop)).2⟩
    | false => simp [hstop] at htaken
  | push =>
    refine ⟨fun _ => Nat.succ_pos _, fun htaken => ?_⟩
    obtain ⟨hworker, hpos, hroom⟩ := h.taken htaken
    refine ⟨hworker, Nat.succ_pos _, ?_⟩
    simp only [List.length_append, List.length_singleton]
    omega
  | rest => exact h

/-! ## Two queues, or a short one -/

/-- The workers other than the first `m` of the first queue. -/
def Engaged (cfg : Config) (m w : ℕ) : Prop := ∀ k < m, w ≠ k * cfg.queueNum

instance (cfg : Config) (m : ℕ) : DecidablePred (Engaged cfg m) := fun w =>
  inferInstanceAs (Decidable (∀ k < m, w ≠ k * cfg.queueNum))

theorem not_engaged {m k : ℕ} (hk : k < m) : ¬ Engaged cfg m (k * cfg.queueNum) :=
  fun h => h k hk rfl

/-- The engaged workers have a task each, the others wait, and there are `c` more tasks in the
second queue. -/
structure Filled (cfg : Config) (m c : ℕ) (s : State) : Prop where
  settled : Settled cfg s
  phase : s.phase = .running
  queues : ∀ j, (s.queues j).toList.length = if j = 1 then c else 0
  idle : ∀ k < m, s.workers (k * cfg.queueNum) = .waiting
  engaged : ∀ w < cfg.workerNum, Engaged cfg m w → ∃ b, s.workers w = .popped (.call b)

theorem exists_filled (cfg : Config) (m : ℕ) {c : ℕ} (hc : c ≤ cfg.queueSize)
    (hq : 0 < c → 1 < cfg.queueNum) : ∃ s, Filled cfg m c s := by
  induction c with
  | zero =>
    obtain ⟨s, hs⟩ := exists_loaded cfg (Engaged cfg m) le_rfl
    refine ⟨s, hs.settled, hs.phase, fun j => by simp [hs.queues], fun k hk => ?_,
      fun w hw hengaged => ?_⟩
    · rw [hs.workers, if_neg fun h => not_engaged hk h.2]
    · exact ⟨_, by rw [hs.workers, if_pos ⟨hw, hengaged⟩]⟩
  | succ c ih =>
    have hone := hq (Nat.succ_pos c)
    obtain ⟨s, hs⟩ := ih (by omega) fun _ => hone
    obtain ⟨q, _, hlist, -, hnext⟩ := next_schedule (s := s) hone (by simp [hs.phase]) (by
      rw [hs.queues, hs.settled.reached.capacity, if_pos rfl]
      exact hc)
    refine ⟨_, Reach.tail hs.settled (fun _ _ => hs.phase) hnext, hs.phase, fun j => ?_, hs.idle,
      hs.engaged⟩
    by_cases hj : j = 1
    · have hlen := hs.queues 1
      simp only [hj, if_true, update_self, hlist, List.length_append,
        List.length_singleton] at hlen ⊢
      omega
    · simp only [update_of_ne hj, hs.queues, hj, if_false]

/-- The destructor has pushed `i + r` stop tasks to the first queue, and the first `i` workers
of the queue have taken one each and returned. -/
structure Blocking (cfg : Config) (m c i r : ℕ) (s : State) : Prop where
  settled : Settled cfg s
  phase : s.phase = .pushing 0 (i + r)
  stop : 0 < i → s.stop = true
  first : (s.queues 0).toList = List.replicate r .stop
  second : (s.queues 1).toList.length = c
  taken : ∀ k < i, s.workers (k * cfg.queueNum) = .exited
  idle : ∀ k < m, i ≤ k → s.workers (k * cfg.queueNum) = .waiting
  engaged : ∀ w < cfg.workerNum, Engaged cfg m w → ∃ b, s.workers w = .popped (.call b)

section Blocking

variable {m c i r : ℕ}

theorem Filled.destruct (hs : Filled cfg m c s) : ∃ s', Blocking cfg m c 0 0 s' := by
  have hnext : next cfg .destruct s = some { s with phase := .pushing 0 0 } := by
    simp [next, State.destruct, hs.phase]
  have hfirst : (s.queues 0).toList = [] := by
    rw [← List.length_eq_zero_iff, hs.queues]
    rfl
  exact ⟨_, reach_step hs.settled (by simp) hnext, rfl, fun h => absurd h (lt_irrefl 0), hfirst,
    hs.queues 1, fun k hk => absurd hk (Nat.not_lt_zero k), fun k hk _ => hs.idle k hk,
    hs.engaged⟩

/-- A stop task is pushed. -/
theorem Blocking.push (hs : Blocking cfg m c i r s) (hr : r < cfg.queueSize)
    (hi : i + r < cfg.workerNum / cfg.queueNum + 1) :
    ∃ s', Blocking cfg m c i (r + 1) s' := by
  obtain ⟨q, hlist, hnext⟩ := next_pushStop hs.phase cfg.queueNum_pos hi (by
    rw [hs.first, hs.settled.reached.capacity, List.length_replicate]
    exact hr)
  refine ⟨_, reach_step hs.settled (by simp) hnext, rfl, hs.stop, ?_, ?_, hs.taken, hs.idle,
    hs.engaged⟩
  · simp only [update_self, hlist, hs.first]
    rw [List.replicate_succ']
  · simp only [update_of_ne Nat.one_ne_zero]
    exact hs.second

/-- The next worker of the queue takes it. -/
theorem Blocking.take (hs : Blocking cfg m c i 1 s) (hi : i < m)
    (hm : m ≤ cfg.workerNum / cfg.queueNum) : ∃ s', Blocking cfg m c (i + 1) 0 s' := by
  have hw : i * cfg.queueNum < cfg.workerNum := by
    have hmul := cfg.workerNum_div.2
    have hlt : cfg.queueNum * i < cfg.queueNum * (cfg.workerNum / cfg.queueNum) :=
      Nat.mul_lt_mul_of_pos_left (by omega) cfg.queueNum_pos
    rw [Nat.mul_comm]
    omega
  have hmod : i * cfg.queueNum % cfg.queueNum = 0 := Nat.mul_mod_left i cfg.queueNum
  have hlist : (s.queues (i * cfg.queueNum % cfg.queueNum)).toList = .stop :: [] := by
    rw [hmod, hs.first]
    rfl
  have hinj : ∀ k, k ≠ i → k * cfg.queueNum ≠ i * cfg.queueNum := fun k hne heq =>
    hne (Nat.eq_of_mul_eq_mul_right cfg.queueNum_pos heq)
  obtain ⟨q, hq, hreach⟩ := reach_takeStop hw (hs.idle i hi le_rfl) hlist
  rw [hmod] at hreach
  refine ⟨_, Reach.trans hs.settled hreach, by simpa using hs.phase, fun _ => rfl, ?_, ?_,
    fun k hk => ?_, fun k hk hle => ?_, fun w hw hengaged => ?_⟩
  · simpa using hq
  · simp only [update_of_ne Nat.one_ne_zero]
    exact hs.second
  · by_cases hki : k = i
    · rw [hki]
      exact update_self ..
    · simp only [update_of_ne (hinj k hki)]
      exact hs.taken k (by omega)
  · simp only [update_of_ne (hinj k (by omega))]
    exact hs.idle k hk (by omega)
  · simp only [update_of_ne (hengaged i hi)]
    exact hs.engaged w hw hengaged

/-- As many workers of the first queue take a stop task as are idle. -/
theorem exists_blocking (cfg : Config) (hc : c ≤ cfg.queueSize) (hq : 0 < c → 1 < cfg.queueNum)
    (hm : m ≤ cfg.workerNum / cfg.queueNum) (hi : i ≤ m) : ∃ s, Blocking cfg m c i 0 s := by
  induction i with
  | zero =>
    obtain ⟨s, hs⟩ := exists_filled cfg m hc hq
    exact hs.destruct
  | succ i ih =>
    obtain ⟨s, hs⟩ := ih (by omega)
    obtain ⟨s', hs'⟩ := hs.push cfg.queueSize_pos (by omega)
    exact hs'.take hi hm

/-- The stop tasks that nobody takes any more. -/
theorem Blocking.fill (hs : Blocking cfg m c i 0 s) (hr : r ≤ cfg.queueSize)
    (hi : i + r ≤ cfg.workerNum / cfg.queueNum + 1) : ∃ s', Blocking cfg m c i r s' := by
  induction r with
  | zero => exact ⟨s, hs⟩
  | succ r ih =>
    obtain ⟨s', hs'⟩ := ih (by omega) (by omega)
    exact hs'.push hr hi

end Blocking

/-- Once `stop_` is set, the workers that have a task run it and return. -/
theorem exists_exited (hstop : s.stop = true)
    (hworkers : ∀ w < cfg.workerNum, s.workers w = .exited ∨ ∃ b, s.workers w = .popped (.call b))
    {k : ℕ} (hk : k ≤ cfg.workerNum) :
    ∃ s', Reach (next cfg) Unscheduled s s' ∧ s'.queues = s.queues ∧ s'.phase = s.phase ∧
      s'.stop = true ∧ (∀ w < k, s'.workers w = .exited) ∧
      ∀ w, k ≤ w → s'.workers w = s.workers w := by
  induction k with
  | zero =>
    exact ⟨s, .refl s, rfl, rfl, hstop, fun w hw => absurd hw (Nat.not_lt_zero w), fun _ _ => rfl⟩
  | succ k ih =>
    obtain ⟨s', hreach, hqueues, hphase, hstop', hexited, hrest⟩ := ih (by omega)
    rcases hworkers k hk with hk' | ⟨b, hb⟩
    · refine ⟨s', hreach, hqueues, hphase, hstop', fun w hw => ?_, fun w hw => ?_⟩
      · by_cases hwk : w = k
        · rw [hwk, hrest k le_rfl, hk']
        · exact hexited w (by omega)
      · exact hrest w (by omega)
    · have hfinish := reach_finishCall hk ((hrest k le_rfl).trans hb)
      refine ⟨_, hreach.trans hfinish, hqueues, hphase, hstop', fun w hw => ?_, fun w hw => ?_⟩
      · by_cases hwk : w = k
        · subst hwk
          simp [hstop']
        · simp only [update_of_ne hwk]
          exact hexited w (by omega)
      · have hwk : w ≠ k := by omega
        simp only [update_of_ne hwk]
        exact hrest w (by omega)

/-- The engaged workers return, and the destructor is still where it was. -/
theorem Blocking.exists_stuck {m c r : ℕ} (hs : Blocking cfg m c m r s) (hm : 0 < m)
    {P : State → Action → Prop} (hP : ∀ s a, Unscheduled s a → P s a) {j i : ℕ} {s' : State}
    (hreach : Reach (next cfg) P s s') (hphase : s'.phase = .pushing j i)
    (hstop : s'.stop = s.stop) (hworkers : s'.workers = s.workers)
    (hwaits : s'.destruct cfg = none) :
    ∃ s'', Reach (next cfg) P (.init cfg) s'' ∧ Stuck cfg s'' := by
  have hready : ∀ w < cfg.workerNum,
      s'.workers w = .exited ∨ ∃ b, s'.workers w = .popped (.call b) := by
    intro w hw
    rw [hworkers]
    by_cases hengaged : Engaged cfg m w
    · exact .inr (hs.engaged w hw hengaged)
    · simp only [Engaged, not_forall, not_not] at hengaged
      obtain ⟨k, hk, rfl⟩ := hengaged
      exact .inl (hs.taken k hk)
  obtain ⟨s'', hreach', hqueues, hphase', -, hexited, -⟩ :=
    exists_exited (hstop.trans (hs.stop hm)) hready le_rfl
  rw [hphase] at hphase'
  have hwaits' : s''.destruct cfg = none := by
    rw [destruct_eq_none_iff hphase', hqueues]
    exact (destruct_eq_none_iff hphase).mp hwaits
  exact ⟨s'', (hs.settled.mono hP).trans (hreach.trans (hreach'.mono hP)), j, i, hphase',
    hwaits', fun w hw _ => hexited w hw⟩

/-- One queue that is shorter than the number of workers. -/
theorem exists_stuck_short (cfg : Config) (hone : cfg.queueNum = 1)
    (hshort : cfg.queueSize < cfg.workerNum) : ∃ s, Settled cfg s ∧ Stuck cfg s := by
  have hdiv : cfg.workerNum / cfg.queueNum = cfg.workerNum := by rw [hone, Nat.div_one]
  have hpos := cfg.queueSize_pos
  obtain ⟨s, hs⟩ := exists_blocking (m := 1) (c := 0) cfg (by omega) (by omega) (by omega) le_rfl
  obtain ⟨s', hs'⟩ := hs.fill (r := cfg.queueSize) le_rfl (by omega)
  refine hs'.exists_stuck Nat.one_pos (fun _ _ h => h) (.refl s') hs'.phase rfl rfl ?_
  rw [destruct_eq_none_iff hs'.phase, hs'.first, hs'.settled.reached.capacity,
    List.length_replicate]
  exact ⟨cfg.queueNum_pos, by omega, le_rfl⟩

/-- Two queues or more: the second one is full when the destructor comes to it. -/
theorem exists_stuck_second (cfg : Config) (hq : 1 < cfg.queueNum) :
    ∃ s, Settled cfg s ∧ Stuck cfg s := by
  have hn := cfg.workerNum_div.1
  obtain ⟨s, hs⟩ := exists_blocking (m := cfg.workerNum / cfg.queueNum) cfg le_rfl
    (fun _ => hq) le_rfl le_rfl
  obtain ⟨s', hs'⟩ := hs.push cfg.queueSize_pos (by omega)
  have hnext : next cfg .destruct s' = some { s' with phase := .pushing 1 0 } := by
    simp [next, State.destruct, hs'.phase, cfg.queueNum_pos]
  refine hs'.exists_stuck hn (fun _ _ h => h) (reach_step (.refl s') (by simp) hnext) rfl rfl rfl
    ?_
  rw [destruct_eq_none_iff rfl]
  refine ⟨hq, Nat.succ_pos _, ?_⟩
  rw [hs'.settled.reached.capacity]
  exact hs'.second.ge

/-- A task that a worker runs calls `Schedule` again and again. -/
theorem exists_flooded (hs : Reached cfg s) (hempty : (s.queues 0).toList = [])
    (hphase : s.phase ≠ .returned) {w b : ℕ} (hw : w < cfg.workerNum)
    (hb : s.workers w = .popped (.call b)) {k : ℕ} (hk : k ≤ cfg.queueSize) :
    ∃ s', Reach (next cfg) (FromTasks cfg) s s' ∧ (s'.queues 0).toList.length = k ∧
      s'.phase = s.phase ∧ s'.stop = s.stop ∧ s'.workers = s.workers := by
  induction k with
  | zero => exact ⟨s, .refl s, by rw [hempty, List.length_nil], rfl, rfl, rfl⟩
  | succ k ih =>
    obtain ⟨s', hreach, hlen, hphase', hstop, hworkers⟩ := ih (by omega)
    have hs' : Reached cfg s' := Reach.trans hs (hreach.mono fun _ _ _ => trivial)
    obtain ⟨q, _, hlist, -, hnext⟩ := next_schedule cfg.queueNum_pos (hphase' ▸ hphase) (by
      rw [hlen, hs'.capacity]
      exact hk)
    refine ⟨_, hreach.tail (fun _ _ => .inr ⟨w, hw, b, ?_⟩) hnext, ?_, hphase', hstop, hworkers⟩
    · rw [hworkers, hb]
    · simp only [update_self, hlist, List.length_append, hlen, List.length_singleton]

/-- One queue for two workers or more: the queue is full of such tasks. -/
theorem exists_stuck_flooded (cfg : Config) (hqueue : cfg.queueNum = 1)
    (htwo : 1 < cfg.workerNum) :
    ∃ s, Reach (next cfg) (FromTasks cfg) (.init cfg) s ∧ Stuck cfg s := by
  have hdiv : cfg.workerNum / cfg.queueNum = cfg.workerNum := by rw [hqueue, Nat.div_one]
  obtain ⟨s, hs⟩ := exists_blocking (m := 1) (c := 0) cfg (by omega) (by omega) (by omega) le_rfl
  obtain ⟨b, hb⟩ := hs.engaged 1 htwo fun k hk => by
    obtain rfl : k = 0 := by omega
    omega
  obtain ⟨s', hreach, hlen, hphase, hstop, hworkers⟩ :=
    exists_flooded hs.settled.reached hs.first (by simp [hs.phase]) htwo hb le_rfl
  have hphase' := hphase.trans hs.phase
  refine hs.exists_stuck Nat.one_pos (fun _ _ => Unscheduled.fromTasks) hreach hphase' hstop
    hworkers ?_
  have hs' : Reached cfg s' :=
    Reach.trans hs.settled.reached (hreach.mono fun _ _ _ => trivial)
  rw [destruct_eq_none_iff hphase', hs'.capacity, hlen]
  exact ⟨cfg.queueNum_pos, by omega, le_rfl⟩

/-! ## When the destructor cannot get stuck -/

theorem never_stuck_unscheduled_iff (cfg : Config) :
    (∀ s, Reach (next cfg) Unscheduled (.init cfg) s → ¬ Stuck cfg s) ↔
      cfg.queueNum = 1 ∧ cfg.workerNum ≤ cfg.queueSize := by
  constructor
  · intro h
    by_contra hcfg
    by_cases hone : cfg.queueNum = 1
    · obtain ⟨s, hs, hstuck⟩ := exists_stuck_short cfg hone (by omega)
      exact h s hs hstuck
    · have hpos := cfg.queueNum_pos
      obtain ⟨s, hs, hstuck⟩ := exists_stuck_second cfg (by omega)
      exact h s hs hstuck
  · rintro ⟨hone, hroom⟩ s hs hstuck
    have hinv : s.Inv cfg ∧ Lined (s.view cfg) := by
      refine hs.invariant (I := fun s => s.Inv cfg ∧ Lined (s.view cfg))
        ⟨State.inv_init cfg, lined_init cfg⟩ fun s a s' h ha hnext => ?_
      refine ⟨h.1.next hnext, h.2.step (fun random hschedule => ?_) (view_step h.1 hone hnext)⟩
      simp [State.view, ha random hschedule, Phase.pushed]
    obtain ⟨hstop, hpushed, hfull⟩ := hstuck.view hinv.1 hone
    have hlt := hinv.2.taken (.inl hstop)
    omega

theorem never_stuck_fromTasks_iff (cfg : Config) :
    (∀ s, Reach (next cfg) (FromTasks cfg) (.init cfg) s → ¬ Stuck cfg s) ↔
      cfg.workerNum = 1 := by
  have hpos := cfg.queueNum_pos
  constructor
  · intro h
    by_contra hcfg
    by_cases hqueue : cfg.queueNum = 1
    · have hworker := cfg.workerNum_pos
      obtain ⟨s, hs, hstuck⟩ := exists_stuck_flooded cfg hqueue (by omega)
      exact h s hs hstuck
    · obtain ⟨s, hs, hstuck⟩ := exists_stuck_second cfg (by omega)
      exact h s (hs.mono fun _ _ => Unscheduled.fromTasks) hstuck
  · intro hone s hs hstuck
    have hqueue : cfg.queueNum = 1 := by
      obtain ⟨n, -, hmul⟩ := cfg.multiple
      exact Nat.eq_one_of_mul_eq_one_right (hmul.symm.trans hone)
    have hinv : s.Inv cfg ∧ Single cfg.queueSize (s.view cfg) := by
      refine hs.invariant (I := fun s => s.Inv cfg ∧ Single cfg.queueSize (s.view cfg))
        ⟨State.inv_init cfg, single_init cfg⟩ fun s a s' h ha hnext => ?_
      have hle := (s.queues 0).length_toList_le
      rw [h.1.capacity] at hle
      refine ⟨h.1.next hnext, h.2.step hle (fun random hschedule => ?_)
        (hone ▸ view_step h.1 hqueue hnext)⟩
      rcases ha random hschedule with hrun | ⟨w, hw, b, hb⟩
      · exact .inl (by simp [State.view, hrun, Phase.pushed])
      · obtain rfl : w = 0 := by omega
        exact .inr ⟨b, hb⟩
    obtain ⟨hstop, hpushed, hfull⟩ := hstuck.view hinv.1 hqueue
    have hroom := (hinv.2.taken (.inl hstop)).2.2
    omega

/-- **When the destructor cannot get stuck.**  Whatever tasks are pending when it is called,
and however its steps and those of the workers are interleaved, it never waits on a full queue
all of whose workers have returned.  Where no task calls `Schedule` once the destructor has been
called, this is so exactly if there is one queue, with room for as many tasks as there are
workers; where tasks that are still running may call it, exactly if there is one worker. -/
theorem never_stuck_iff (cfg : Config) :
    ((∀ s, Reach (next cfg) Unscheduled (.init cfg) s → ¬ Stuck cfg s) ↔
      cfg.queueNum = 1 ∧ cfg.workerNum ≤ cfg.queueSize) ∧
    ((∀ s, Reach (next cfg) (FromTasks cfg) (.init cfg) s → ¬ Stuck cfg s) ↔
      cfg.workerNum = 1) :=
  ⟨never_stuck_unscheduled_iff cfg, never_stuck_fromTasks_iff cfg⟩

instance (s : State) (a : Action) : Decidable (Unscheduled s a) :=
  match a with
  | .schedule random =>
    decidable_of_iff (s.phase = .running) ⟨fun h _ _ => h, fun h => h random rfl⟩
  | .pop _ | .run _ | .test _ | .destruct => isTrue fun _ h => nomatch h

/-- Two workers with one queue of one slot. -/
def oneSlotQueue : Config where
  workerNum := 2
  queueNum := 1
  queueSize := 1
  queueNum_pos := Nat.one_pos
  multiple := ⟨2, Nat.zero_lt_two, rfl⟩
  queueSize_pos := Nat.one_pos

/-- Both workers have returned, and the queue in the way is full. -/
theorem stuck_of_two {cfg : Config} (hworkers : cfg.workerNum = 2) {s : State} {j i : ℕ}
    (hs : s.phase = .pushing j i ∧ s.workers 0 = .exited ∧ s.workers 1 = .exited ∧
      j < cfg.queueNum ∧ i < cfg.workerNum / cfg.queueNum + 1 ∧
      (s.queues j).capacity ≤ (s.queues j).toList.length) : Stuck cfg s := by
  obtain ⟨hphase, hfirst, hsecond, hwaits⟩ := hs
  refine ⟨j, i, hphase, (destruct_eq_none_iff hphase).mpr hwaits, fun w hw _ => ?_⟩
  rw [hworkers] at hw
  obtain rfl | rfl : w = 0 ∨ w = 1 := by omega
  · exact hfirst
  · exact hsecond

/-- **The destructor waits for ever.**  One queue of one slot: a worker has a task, the other
one takes the first stop task and returns, and so does the first after its task; the second
stop task fills the queue, and the third waits.  Two queues: three tasks are in the second one
when its worker returns, because the worker of the first queue has set `stop_`. -/
theorem destructor_stuck :
    (∃ s, Reach (next oneSlotQueue) Unscheduled (.init oneSlotQueue) s ∧ Stuck oneSlotQueue s) ∧
    ∃ s, Reach (next twoQueues) Unscheduled (.init twoQueues) s ∧ Stuck twoQueues s := by
  constructor
  · obtain ⟨s, hs, hseen⟩ := exists_reach_of_follow (next oneSlotQueue) Unscheduled
      [.schedule 0, .pop 1, .destruct, .destruct, .pop 0, .run 0, .test 0, .destruct, .run 1,
        .test 1]
      (.init oneSlotQueue)
      (fun s => decide (s.phase = .pushing 0 2 ∧ s.workers 0 = .exited ∧ s.workers 1 = .exited ∧
        0 < oneSlotQueue.queueNum ∧ 2 < oneSlotQueue.workerNum / oneSlotQueue.queueNum + 1 ∧
        (s.queues 0).capacity ≤ (s.queues 0).toList.length))
      (by decide +kernel)
    exact ⟨s, hs, stuck_of_two rfl (of_decide_eq_true hseen)⟩
  · obtain ⟨s, hs, hseen⟩ := exists_reach_of_follow (next twoQueues) Unscheduled
      [.schedule 1, .pop 1, .schedule 1, .schedule 1, .schedule 1, .destruct, .destruct, .pop 0,
        .run 0, .test 0, .destruct, .destruct, .run 1, .test 1]
      (.init twoQueues)
      (fun s => decide (s.phase = .pushing 1 0 ∧ s.workers 0 = .exited ∧ s.workers 1 = .exited ∧
        1 < twoQueues.queueNum ∧ 0 < twoQueues.workerNum / twoQueues.queueNum + 1 ∧
        (s.queues 1).capacity ≤ (s.queues 1).toList.length))
      (by decide +kernel)
    exact ⟨s, hs, stuck_of_two rfl (of_decide_eq_true hseen)⟩

end Rtp.Util.ThreadPool
