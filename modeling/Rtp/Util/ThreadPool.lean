import Mathlib.Algebra.BigOperators.Group.Finset.Basic
import Rtp.Lib.Reach
import Rtp.Lib.Ring

/-!
# The thread pool

`orc::ThreadPool` (`orc/util/thread_pool.cc`): bounded task queues, each with its own workers,
and a destructor that pushes tasks which set `stop_` and then waits for the workers.  A worker
takes a task, runs it, and looks at `stop_`; between any two of these steps, and between any two
steps of the destructor, anything else may happen.

* `Config`, `State`, `next` — the system; the queues are ring buffers.
* `Ordered` — in a queue, the tasks that were accepted before the destruction come first, and
  the stop tasks are all still behind them.
* `Inv` — the invariant, with a tally of the places a task can be in.
* `executes_of` — **when no task is lost**: with one queue, or with queues that are too short
  for a task that is left over and all the stop tasks; then the destructor does not return.
-/

namespace Rtp.Util.ThreadPool

open Function (update update_self update_of_ne)

/-! ## The pool -/

/-- The option of a pool, with the condition from the comment on the constructor. -/
structure Config where
  workerNum : ℕ
  queueNum : ℕ
  queueSize : ℕ
  queueNum_pos : 0 < queueNum
  multiple : ∃ n, 0 < n ∧ workerNum = queueNum * n
  queueSize_pos : 0 < queueSize

/-- A task: `Task()`, one that was given to `Schedule`, known by a number, or one that sets
`stop_`. -/
inductive Task where
  | empty
  | call (id : ℕ)
  | stop
  deriving DecidableEq, Repr, Inhabited

/-- Where a worker stands in `Loop`: before its `Pop`, before it runs its task, before it looks
at `stop_`, or it has returned. -/
inductive Worker where
  | waiting
  | popped (task : Task)
  | ran
  | exited
  deriving DecidableEq, Repr

/-- The destructor: not called yet, before the `i`-th push to the `j`-th queue, before it joins
the `k`-th worker, or it has returned. -/
inductive Phase where
  | running
  | pushing (j i : ℕ)
  | joining (k : ℕ)
  | returned
  deriving DecidableEq, Repr

/-- A pool.  `scheduled` is the number of tasks that were accepted, each having the number of
those before it; the last two fields are a record of how many of them were accepted before the
destructor was called, and of the tasks that were run. -/
structure State where
  queues : ℕ → Ring Task
  workers : ℕ → Worker
  stop : Bool
  phase : Phase
  scheduled : ℕ
  accepted : ℕ
  executed : List ℕ

namespace State

/-- A new pool. -/
def init (cfg : Config) : State where
  queues _ := .new cfg.queueSize cfg.queueSize_pos
  workers _ := .waiting
  stop := false
  phase := .running
  scheduled := 0
  accepted := 0
  executed := []

/-- `Schedule`, with the queue that was chosen: a task for which there is no room is handed
back. -/
def schedule (j : ℕ) (s : State) : State :=
  match (s.queues j).tryPush (.call s.scheduled) with
  | none => s
  | some q =>
    { s with
      queues := update s.queues j q
      scheduled := s.scheduled + 1
      accepted := if s.phase = .running then s.accepted + 1 else s.accepted }

/-- A worker gets on. -/
def setWorker (w : ℕ) (x : Worker) (s : State) : State :=
  { s with workers := update s.workers w x }

/-- `Pop`, which waits while the queue is empty. -/
def pop (cfg : Config) (w : ℕ) (s : State) : Option State :=
  ((s.queues (w % cfg.queueNum)).tryPop).map fun (task, q) =>
    { s with queues := update s.queues (w % cfg.queueNum) q }.setWorker w (.popped task)

/-- A task is run. -/
def runTask (w : ℕ) (task : Task) (s : State) : Option State :=
  match task with
  | .empty => none
  | .call id => some ({ s with executed := s.executed ++ [id] }.setWorker w .ran)
  | .stop => some ({ s with stop := true }.setWorker w .ran)

/-- `stop_` is looked at. -/
def testStop (w : ℕ) (s : State) : State :=
  s.setWorker w (if s.stop then .exited else .waiting)

/-- The next step of the destructor: a `Push` waits while the queue is full, a join until the
worker has returned. -/
def destruct (cfg : Config) (s : State) : Option State :=
  match s.phase with
  | .running => some { s with phase := .pushing 0 0 }
  | .pushing j i =>
    if j < cfg.queueNum then
      if i < cfg.workerNum / cfg.queueNum + 1 then
        ((s.queues j).tryPush .stop).map fun q =>
          { s with queues := update s.queues j q, phase := .pushing j (i + 1) }
      else some { s with phase := .pushing (j + 1) 0 }
    else some { s with phase := .joining 0 }
  | .joining k =>
    if k < cfg.workerNum then
      if s.workers k = .exited then some { s with phase := .joining (k + 1) } else none
    else some { s with phase := .returned }
  | .returned => none

end State

/-- An action: a call of `Schedule`, which chooses a queue at random, a step of a worker, or one
of the destructor. -/
inductive Action where
  | schedule (random : ℕ)
  | pop (w : ℕ)
  | run (w : ℕ)
  | test (w : ℕ)
  | destruct
  deriving DecidableEq, Repr

/-- The state after an action, where it can be taken.  While the destructor runs, tasks that
are still running may call `Schedule`. -/
def next (cfg : Config) (a : Action) (s : State) : Option State :=
  match a with
  | .schedule random =>
    if s.phase = .returned then none else some (s.schedule (random % cfg.queueNum))
  | .pop w => if w < cfg.workerNum ∧ s.workers w = .waiting then s.pop cfg w else none
  | .run w =>
    match s.workers w with
    | .popped task => if w < cfg.workerNum then s.runTask w task else none
    | _ => none
  | .test w => if w < cfg.workerNum ∧ s.workers w = .ran then some (s.testStop w) else none
  | .destruct => s.destruct cfg

/-- What an action can do, with its conditions. -/
theorem next_cases {cfg : Config} {a : Action} {s s' : State} (h : next cfg a s = some s') :
    (∃ random, a = .schedule random ∧ s' = s.schedule (random % cfg.queueNum)) ∨
      (∃ w, a = .pop w ∧ w < cfg.workerNum ∧ s.workers w = .waiting ∧ s.pop cfg w = some s') ∨
      (∃ w task, a = .run w ∧ w < cfg.workerNum ∧ s.workers w = .popped task ∧
        s.runTask w task = some s') ∨
      (∃ w, a = .test w ∧ w < cfg.workerNum ∧ s.workers w = .ran ∧ s' = s.testStop w) ∨
      a = .destruct ∧ s.destruct cfg = some s' := by
  cases a with
  | schedule random =>
    obtain ⟨-, h⟩ := Option.ite_none_left_eq_some.mp h
    exact .inl ⟨random, rfl, (Option.some.inj h).symm⟩
  | pop w =>
    obtain ⟨hw, h⟩ := Option.ite_none_right_eq_some.mp h
    exact .inr (.inl ⟨w, rfl, hw.1, hw.2, h⟩)
  | run w =>
    simp only [next] at h
    split at h
    next task hpopped =>
      obtain ⟨hw, h⟩ := Option.ite_none_right_eq_some.mp h
      exact .inr (.inr (.inl ⟨w, task, rfl, hw, hpopped, h⟩))
    next => simp at h
  | test w =>
    obtain ⟨hw, h⟩ := Option.ite_none_right_eq_some.mp h
    exact .inr (.inr (.inr (.inl ⟨w, rfl, hw.1, hw.2, (Option.some.inj h).symm⟩)))
  | destruct => exact .inr (.inr (.inr (.inr ⟨rfl, h⟩)))

/-! ## The order of the tasks in a queue -/

/-- The tasks that were accepted before the destruction come first; while there is one, the stop
tasks that were pushed are all still there. -/
def Ordered (accepted pushed : ℕ) (l : List Task) : Prop :=
  ∃ early late, l = early ++ late ∧ (∀ t ∈ early, ∃ b < accepted, t = .call b) ∧
    (∀ b < accepted, Task.call b ∉ late) ∧ (early ≠ [] → late.count .stop = pushed)

/-- The queue while there is no destruction. -/
def Early (accepted : ℕ) (l : List Task) : Prop := ∀ t ∈ l, ∃ b < accepted, t = .call b

theorem Early.ordered {accepted : ℕ} {l : List Task} (h : Early accepted l) :
    Ordered accepted 0 l :=
  ⟨l, [], by simp, h, by simp, fun _ => rfl⟩

theorem Early.push {accepted : ℕ} {l : List Task} (h : Early accepted l) :
    Early (accepted + 1) (l ++ [.call accepted]) := by
  intro t ht
  rcases List.mem_append.1 ht with ht | ht
  · obtain ⟨b, hb, rfl⟩ := h t ht
    exact ⟨b, by omega, rfl⟩
  · exact ⟨accepted, by omega, List.mem_singleton.1 ht⟩

theorem Early.mono {accepted : ℕ} {l : List Task} (h : Early accepted l) :
    Early (accepted + 1) l := by
  intro t ht
  obtain ⟨b, hb, rfl⟩ := h t ht
  exact ⟨b, by omega, rfl⟩

section Ordered

variable {accepted pushed : ℕ} {l : List Task}

theorem Ordered.push_stop (h : Ordered accepted pushed l) :
    Ordered accepted (pushed + 1) (l ++ [.stop]) := by
  obtain ⟨early, late, rfl, hearly, hlate, hcount⟩ := h
  refine ⟨early, late ++ [.stop], by simp, hearly, fun b hb => ?_, fun hne => ?_⟩
  · simpa using hlate b hb
  · rw [List.count_append, hcount hne]
    rfl

theorem Ordered.push_late (h : Ordered accepted pushed l) {id : ℕ} (hid : accepted ≤ id) :
    Ordered accepted pushed (l ++ [.call id]) := by
  obtain ⟨early, late, rfl, hearly, hlate, hcount⟩ := h
  refine ⟨early, late ++ [.call id], by simp, hearly, fun b hb => ?_, fun hne => ?_⟩
  · have hne : b ≠ id := by omega
    simpa [hne] using hlate b hb
  · rw [List.count_append, hcount hne]
    rfl

theorem Ordered.pop {t : Task} (h : Ordered accepted pushed (t :: l)) :
    Ordered accepted pushed l := by
  obtain ⟨early, late, heq, hearly, hlate, hcount⟩ := h
  cases early with
  | nil =>
    rw [List.nil_append] at heq
    refine ⟨[], l, rfl, by simp, fun b hb hmem => ?_, fun hne => absurd rfl hne⟩
    exact hlate b hb (heq ▸ List.mem_cons_of_mem _ hmem)
  | cons x early =>
    rw [List.cons_append] at heq
    exact ⟨early, late, (List.cons.inj heq).2, fun t ht => hearly t (List.mem_cons_of_mem _ ht),
      hlate, fun _ => hcount (by simp)⟩

/-- When a stop task is taken, no task that was accepted before the destruction is left. -/
theorem Ordered.notMem_of_stop (h : Ordered accepted pushed (.stop :: l)) {b : ℕ}
    (hb : b < accepted) : Task.call b ∉ l := by
  obtain ⟨early, late, heq, hearly, hlate, -⟩ := h
  cases early with
  | nil =>
    rw [List.nil_append] at heq
    exact fun hmem => hlate b hb (heq ▸ List.mem_cons_of_mem _ hmem)
  | cons x early =>
    obtain ⟨b', -, hx⟩ := hearly x List.mem_cons_self
    rw [List.cons_append] at heq
    exact absurd ((List.cons.inj heq).1.trans hx) (by simp)

/-- A task that is left has all the stop tasks behind it. -/
theorem Ordered.lt_length (h : Ordered accepted pushed l) {b : ℕ} (hb : b < accepted)
    (hmem : Task.call b ∈ l) : pushed < l.length := by
  obtain ⟨early, late, rfl, -, hlate, hcount⟩ := h
  have hne : early ≠ [] := by
    rintro rfl
    exact hlate b hb hmem
  have hpos := List.length_pos_of_ne_nil hne
  have hle := List.count_le_length (a := Task.stop) (l := late)
  rw [hcount hne] at hle
  rw [List.length_append]
  omega

end Ordered

/-! ## The invariant -/

/-- The number of stop tasks that have been pushed to a queue. -/
def Phase.pushed (cfg : Config) : Phase → ℕ → ℕ
  | .running, _ => 0
  | .pushing j i, j' =>
    if j' < j then cfg.workerNum / cfg.queueNum + 1 else if j' = j then i else 0
  | .joining _, _ | .returned, _ => cfg.workerNum / cfg.queueNum + 1

/-- The number of workers that have been joined. -/
def Phase.joined (cfg : Config) : Phase → ℕ
  | .running | .pushing .. => 0
  | .joining k => k
  | .returned => cfg.workerNum

/-- A worker has taken a task and has not run it. -/
def Worker.holds (b : ℕ) (x : Worker) : ℕ := if x = .popped (.call b) then 1 else 0

namespace State

/-- In how many places a task is: the queues, the hands of the workers, and the record of the
tasks that were run. -/
def tally (cfg : Config) (s : State) (b : ℕ) : ℕ :=
  ∑ j ∈ Finset.range cfg.queueNum, (s.queues j).toList.count (.call b) +
    ∑ w ∈ Finset.range cfg.workerNum, (s.workers w).holds b + s.executed.count b

/-- The invariant. -/
structure Inv (cfg : Config) (s : State) : Prop where
  capacity : ∀ j, (s.queues j).capacity = cfg.queueSize
  order : ∀ j < cfg.queueNum, Ordered s.accepted (s.phase.pushed cfg j) (s.queues j).toList
  early : s.phase = .running → ∀ j < cfg.queueNum, Early s.accepted (s.queues j).toList
  le : s.accepted ≤ s.scheduled
  all : s.phase = .running → s.accepted = s.scheduled
  quiet : s.phase = .running → s.stop = false ∧ ∀ w, s.workers w ≠ .popped .stop
  bound : ∀ j i, s.phase = .pushing j i → i ≤ cfg.workerNum / cfg.queueNum + 1
  exited : ∀ w, s.workers w = .exited → s.stop = true
  joined : ∀ w < s.phase.joined cfg, s.workers w = .exited
  tally : ∀ b, s.tally cfg b = if b < s.scheduled then 1 else 0
  single : cfg.queueNum = 1 → (s.stop = true ∨ ∃ w, s.workers w = .popped .stop) →
    ∀ b < s.accepted, Task.call b ∉ (s.queues 0).toList

variable {cfg : Config} {s s' : State}

theorem inv_init (cfg : Config) : (init cfg).Inv cfg where
  capacity _ := Ring.capacity_new cfg.queueSize cfg.queueSize_pos
  order _ _ := ⟨[], [], rfl, by simp, by simp, fun h => absurd rfl h⟩
  early _ _ _ t ht := absurd ht List.not_mem_nil
  le := le_rfl
  all _ := rfl
  quiet _ := ⟨rfl, by simp [init]⟩
  bound _ _ h := absurd h (by simp [init])
  exited _ h := absurd h (by simp [init])
  joined _ h := absurd h (by simp [init, Phase.joined])
  tally b := by simp [State.tally, init, Worker.holds]
  single _ _ b h := absurd h (by simp [init])

/-! ### The tally -/

theorem sum_update {β : Type} {n i : ℕ} (h : i < n) (f : ℕ → β) (x : β) (g : β → ℕ) :
    ∑ j ∈ Finset.range n, g (update f i x j) + g (f i) =
      ∑ j ∈ Finset.range n, g (f j) + g x := by
  have hi : i ∈ Finset.range n := Finset.mem_range.2 h
  have hrest : ∑ j ∈ (Finset.range n).erase i, g (update f i x j) =
      ∑ j ∈ (Finset.range n).erase i, g (f j) :=
    Finset.sum_congr rfl fun j hj => by
      rw [update_of_ne (Finset.ne_of_mem_erase hj)]
  rw [← Finset.add_sum_erase _ _ hi, ← Finset.add_sum_erase _ (fun j => g (f j)) hi, hrest,
    update_self]
  omega

variable {j : ℕ}

theorem tally_setQueue (s : State) (hj : j < cfg.queueNum) (q : Ring Task) (b : ℕ) :
    State.tally cfg { s with queues := update s.queues j q } b +
        (s.queues j).toList.count (.call b) =
      s.tally cfg b + q.toList.count (.call b) := by
  have hsum := sum_update hj s.queues q fun q => q.toList.count (.call b)
  simp only [State.tally]
  omega

variable {w : ℕ}

theorem tally_setWorker (s : State) (hw : w < cfg.workerNum) (x : Worker) (b : ℕ) :
    (s.setWorker w x).tally cfg b + (s.workers w).holds b = s.tally cfg b + x.holds b := by
  have hsum := sum_update hw s.workers x fun x => x.holds b
  simp only [State.tally, setWorker]
  omega

/-! ### The actions -/

variable {q : Ring Task}

/-- The queue `j` was replaced, and what is said of all queues is so of the new one. -/
theorem forall_update {P : ℕ → Ring Task → Prop} {f : ℕ → Ring Task}
    (h : ∀ j' < cfg.queueNum, P j' (f j')) (hq : P j q) :
    ∀ j' < cfg.queueNum, P j' (update f j q j') := by
  intro j' hj'
  by_cases hjj : j' = j
  · subst hjj
    rwa [update_self]
  · rw [update_of_ne hjj]
    exact h j' hj'

theorem Inv.capacity_update (h : s.Inv cfg) (hq : q.capacity = (s.queues j).capacity) (j' : ℕ) :
    (update s.queues j q j').capacity = cfg.queueSize := by
  by_cases hjj : j' = j
  · subst hjj
    rw [update_self, hq]
    exact h.capacity j'
  · rw [update_of_ne hjj]
    exact h.capacity j'

/-- The tally after the next task has come into a queue. -/
theorem Inv.tally_push (h : s.Inv cfg) (hj : j < cfg.queueNum)
    (hlist : q.toList = (s.queues j).toList ++ [.call s.scheduled]) (b : ℕ) :
    State.tally cfg { s with queues := update s.queues j q } b =
      if b < s.scheduled + 1 then 1 else 0 := by
  have hset := tally_setQueue s hj q b
  have hold := h.tally b
  rw [hlist, List.count_append] at hset
  by_cases hb : b = s.scheduled
  · subst hb
    rw [List.count_singleton_self] at hset
    rw [if_neg (lt_irrefl _)] at hold
    rw [if_pos (Nat.lt_add_one _)]
    omega
  · have hne : List.count (Task.call b) [Task.call s.scheduled] = 0 :=
      List.count_eq_zero_of_not_mem (by simpa using hb)
    rw [hne] at hset
    by_cases hlt : b < s.scheduled
    · rw [if_pos hlt] at hold
      rw [if_pos (by omega)]
      omega
    · rw [if_neg hlt] at hold
      rw [if_neg (by omega)]
      omega

/-- `Schedule` before the destruction. -/
theorem Inv.schedule_early (h : s.Inv cfg) (hj : j < cfg.queueNum)
    (hlist : q.toList = (s.queues j).toList ++ [.call s.scheduled])
    (hcap : q.capacity = (s.queues j).capacity) (hrun : s.phase = .running) : Inv cfg { s with
      queues := update s.queues j q
      scheduled := s.scheduled + 1
      accepted := s.accepted + 1 } := by
  have hall := h.all hrun
  have hearly : ∀ j' < cfg.queueNum,
      Early (s.accepted + 1) (update s.queues j q j').toList := by
    refine forall_update (P := fun _ q => Early (s.accepted + 1) q.toList)
      (fun j' hj' => (h.early hrun j' hj').mono) ?_
    rw [hlist, ← hall]
    exact (h.early hrun j hj).push
  exact {
    capacity := h.capacity_update hcap
    order := fun j' hj' => by
      simp only [hrun]
      exact (hearly j' hj').ordered
    early := fun _ => hearly
    le := Nat.succ_le_succ h.le
    all := fun _ => congrArg (· + 1) hall
    quiet := h.quiet
    bound := h.bound
    exited := h.exited
    joined := h.joined
    tally := h.tally_push hj hlist
    single := fun _ hstop => by
      obtain ⟨hfalse, hpopped⟩ := h.quiet hrun
      rcases hstop with hstop | ⟨w, hw⟩
      · exact absurd (hfalse.symm.trans hstop) (by simp)
      · exact absurd hw (hpopped w) }

theorem notMem_update {t : Task} (hold : t ∉ (s.queues 0).toList)
    (hq : t ∉ (s.queues j).toList → t ∉ q.toList) : t ∉ (update s.queues j q 0).toList := by
  by_cases hj : 0 = j
  · subst hj
    rw [update_self]
    exact hq hold
  · rwa [update_of_ne hj]

/-- `Schedule`, called by a task that is still running, during the destruction. -/
theorem Inv.schedule_late (h : s.Inv cfg) (hj : j < cfg.queueNum)
    (hlist : q.toList = (s.queues j).toList ++ [.call s.scheduled])
    (hcap : q.capacity = (s.queues j).capacity) (hrun : s.phase ≠ .running) : Inv cfg { s with
      queues := update s.queues j q
      scheduled := s.scheduled + 1 } where
  capacity := h.capacity_update hcap
  order := by
    refine forall_update
      (P := fun j q => Ordered s.accepted (s.phase.pushed cfg j) q.toList) h.order ?_
    rw [hlist]
    exact (h.order j hj).push_late h.le
  early hphase := absurd hphase hrun
  le := Nat.le_succ_of_le h.le
  all hphase := absurd hphase hrun
  quiet hphase := absurd hphase hrun
  bound := h.bound
  exited := h.exited
  joined := h.joined
  tally := h.tally_push hj hlist
  single hone hstop b hb := by
    have hne : b ≠ s.scheduled := Nat.ne_of_lt (Nat.lt_of_lt_of_le hb h.le)
    exact notMem_update (h.single hone hstop b hb) (by simp [hlist, hne])

theorem Inv.schedule (h : s.Inv cfg) (hj : j < cfg.queueNum) : (s.schedule j).Inv cfg := by
  unfold State.schedule
  cases hpush : (s.queues j).tryPush (.call s.scheduled) with
  | none => exact h
  | some q =>
    have hlist := Ring.toList_of_tryPush hpush
    have hcap := Ring.capacity_of_tryPush hpush
    by_cases hrun : s.phase = .running
    · simp only [hrun, if_true]
      have hinv := h.schedule_early hj hlist hcap hrun
      rwa [hrun] at hinv
    · simp only [hrun, if_false]
      exact h.schedule_late hj hlist hcap hrun

theorem workers_update {f : ℕ → Worker} {w w' : ℕ} {x y : Worker}
    (h : update f w x w' = y) : w' = w ∧ y = x ∨ f w' = y := by
  by_cases hww : w' = w
  · subst hww
    rw [update_self] at h
    exact .inl ⟨rfl, h.symm⟩
  · rw [update_of_ne hww] at h
    exact .inr h

/-- The workers that were joined are not those that get on. -/
theorem Inv.joined_update (h : s.Inv cfg) (hw : s.workers w ≠ .exited) (x : Worker) :
    ∀ w' < s.phase.joined cfg, update s.workers w x w' = .exited := by
  intro w' hw'
  have hold := h.joined w' hw'
  have hne : w' ≠ w := by
    rintro rfl
    exact hw hold
  rwa [update_of_ne hne]

/-- A worker takes a task. -/
theorem Inv.pop (h : s.Inv cfg) (hw : w < cfg.workerNum) (hwait : s.workers w = .waiting)
    (hpop : s.pop cfg w = some s') : s'.Inv cfg := by
  obtain ⟨⟨task, q⟩, htry, rfl⟩ := Option.map_eq_some_iff.1 hpop
  have hj : w % cfg.queueNum < cfg.queueNum := Nat.mod_lt w cfg.queueNum_pos
  generalize w % cfg.queueNum = j at htry hj
  have hlist := Ring.toList_of_tryPop htry
  have hcap := Ring.capacity_of_tryPop htry
  have hsub : ∀ t ∈ q.toList, t ∈ (s.queues j).toList := fun t ht =>
    hlist ▸ List.mem_cons_of_mem _ ht
  show Inv cfg ({ s with queues := update s.queues j q }.setWorker w (.popped task))
  exact {
    capacity := h.capacity_update hcap
    order := by
      refine forall_update
        (P := fun j q => Ordered s.accepted (s.phase.pushed cfg j) q.toList) h.order ?_
      exact Ordered.pop (hlist ▸ h.order j hj)
    early := fun hrun => by
      refine forall_update (P := fun _ q => Early s.accepted q.toList) (h.early hrun) ?_
      exact fun t ht => h.early hrun j hj t (hsub t ht)
    le := h.le
    all := h.all
    quiet := fun hrun => by
      refine ⟨(h.quiet hrun).1, fun w' hw' => ?_⟩
      rcases workers_update hw' with ⟨-, htask⟩ | hw'
      · -- there are no stop tasks yet
        obtain ⟨b, -, hb⟩ := h.early hrun j hj task (hlist ▸ List.mem_cons_self)
        rw [hb] at htask
        simp at htask
      · exact (h.quiet hrun).2 w' hw'
    bound := h.bound
    exited := fun w' hw' => by
      rcases workers_update hw' with ⟨-, htask⟩ | hw'
      · simp at htask
      · exact h.exited w' hw'
    joined := h.joined_update (by simp [hwait]) _
    tally := fun b => by
      have hq := tally_setQueue s hj q b
      have hworker := tally_setWorker { s with queues := update s.queues j q } hw
        (.popped task) b
      rw [hlist, List.count_cons] at hq
      simp only [hwait, Worker.holds, Worker.popped.injEq, reduceCtorEq, if_false] at hworker
      show _ = if b < s.scheduled then 1 else 0
      rw [← h.tally b]
      by_cases htask : task = .call b
      · simp only [htask, beq_self_eq_true, if_true] at hq hworker ⊢
        omega
      · simp only [htask, beq_eq_false_iff_ne.2 htask, Bool.false_eq_true, if_false] at hq hworker
        omega
    single := fun hone hstop b hb => by
      rcases hstop with hstop | ⟨w', hw'⟩
      · exact notMem_update (h.single hone (.inl hstop) b hb) (mt (hsub _))
      · rcases workers_update hw' with ⟨-, htask⟩ | hw'
        · obtain rfl : task = .stop := by simpa using htask.symm
          obtain rfl : j = 0 := by omega
          show Task.call b ∉ (update s.queues 0 q 0).toList
          rw [update_self]
          exact Ordered.notMem_of_stop (hlist ▸ h.order 0 hj) hb
        · exact notMem_update (h.single hone (.inr ⟨w', hw'⟩) b hb) (mt (hsub _)) }

/-- A worker gets on with a task it has taken. -/
theorem Inv.setWorker (h : s.Inv cfg) {w : ℕ} {x : Worker} {stop : Bool} {executed : List ℕ}
    (hw : s.workers w ≠ .exited) (hx : ∀ task, x ≠ .popped task)
    (hexit : x = .exited → stop = true) (hkeep : s.stop = true → stop = true)
    (hstop : stop = true → s.stop = true ∨ ∃ w, s.workers w = .popped .stop)
    (htally : ∀ b, State.tally cfg { s with
      workers := update s.workers w x, stop := stop, executed := executed } b =
        s.tally cfg b) :
    Inv cfg { s with
      workers := update s.workers w x, stop := stop, executed := executed } where
  capacity := h.capacity
  order := h.order
  early := h.early
  le := h.le
  all := h.all
  quiet hrun := by
    obtain ⟨hfalse, hpopped⟩ := h.quiet hrun
    refine ⟨Bool.eq_false_iff.2 fun htrue => ?_, fun w' hw' => ?_⟩
    · rcases hstop htrue with hstop | ⟨w', hw'⟩
      · exact absurd (hfalse.symm.trans hstop) (by simp)
      · exact hpopped w' hw'
    · rcases workers_update hw' with ⟨-, hx'⟩ | hw'
      · exact hx _ hx'.symm
      · exact hpopped w' hw'
  bound := h.bound
  exited w' hw' := by
    rcases workers_update hw' with ⟨-, hx'⟩ | hw'
    · exact hexit hx'.symm
    · exact hkeep (h.exited w' hw')
  joined := h.joined_update hw x
  tally b := (htally b).trans (h.tally b)
  single hone hcond := by
    refine h.single hone ?_
    rcases hcond with htrue | ⟨w', hw'⟩
    · exact hstop htrue
    · rcases workers_update hw' with ⟨-, hx'⟩ | hw'
      · exact absurd hx'.symm (hx _)
      · exact .inr ⟨w', hw'⟩

theorem Inv.runTask (h : s.Inv cfg) (hw : w < cfg.workerNum) {task : Task}
    (hpopped : s.workers w = .popped task) (hrun : s.runTask w task = some s') : s'.Inv cfg := by
  have hne : s.workers w ≠ .exited := by simp [hpopped]
  cases task with
  | empty => simp [State.runTask] at hrun
  | call id =>
    rw [← Option.some.inj hrun]
    refine h.setWorker hne (by simp) (by simp) (fun hstop => hstop) .inl fun b => ?_
    -- the task passes from the hands of the worker to the record
    have hset := tally_setWorker { s with executed := s.executed ++ [id] } hw .ran b
    have hexecuted : State.tally cfg { s with executed := s.executed ++ [id] } b =
        s.tally cfg b + if id = b then 1 else 0 := by
      simp only [State.tally, List.count_append, List.count_singleton, beq_iff_eq]
      omega
    simp only [hpopped, Worker.holds, Worker.popped.injEq, Task.call.injEq, reduceCtorEq,
      if_false] at hset
    rw [hexecuted] at hset
    exact Nat.add_right_cancel hset
  | stop =>
    rw [← Option.some.inj hrun]
    refine h.setWorker hne (by simp) (by simp) (fun _ => rfl) (fun _ => .inr ⟨w, hpopped⟩)
      fun b => ?_
    have hset := tally_setWorker { s with stop := true } hw .ran b
    simp only [hpopped, Worker.holds, Worker.popped.injEq, reduceCtorEq, if_false] at hset
    exact hset

theorem Inv.testStop (h : s.Inv cfg) (hw : w < cfg.workerNum) (hran : s.workers w = .ran) :
    (s.testStop w).Inv cfg := by
  have hholds : ∀ b, (if s.stop then Worker.exited else Worker.waiting).holds b = 0 := by
    intro b
    cases s.stop <;> rfl
  refine h.setWorker (by simp [hran]) (fun task => ?_) (fun hx => ?_) id .inl fun b => ?_
  · cases s.stop <;> simp
  · cases hstop : s.stop with
    | true => rfl
    | false => simp [hstop] at hx
  · have hset := tally_setWorker s hw (if s.stop then .exited else .waiting) b
    rw [hholds b, hran] at hset
    exact hset

/-! ### The destructor -/

/-- A step of the destructor that pushes nothing. -/
theorem Inv.setPhase (h : s.Inv cfg) {phase : Phase} (hrun : phase ≠ .running)
    (hpushed : ∀ j < cfg.queueNum, phase.pushed cfg j = s.phase.pushed cfg j)
    (hbound : ∀ j i, phase = .pushing j i → i ≤ cfg.workerNum / cfg.queueNum + 1)
    (hjoined : ∀ w < phase.joined cfg, s.workers w = .exited) :
    Inv cfg { s with phase := phase } where
  capacity := h.capacity
  order j hj := by
    simp only [hpushed j hj]
    exact h.order j hj
  early hphase := absurd hphase hrun
  le := h.le
  all hphase := absurd hphase hrun
  quiet hphase := absurd hphase hrun
  bound := hbound
  exited := h.exited
  joined := hjoined
  tally := h.tally
  single := h.single

/-- A stop task is pushed. -/
theorem Inv.pushStop (h : s.Inv cfg) {j i : ℕ} (hphase : s.phase = .pushing j i)
    (hj : j < cfg.queueNum) (hi : i < cfg.workerNum / cfg.queueNum + 1)
    (hpush : (s.queues j).tryPush .stop = some q) :
    Inv cfg { s with queues := update s.queues j q, phase := .pushing j (i + 1) } := by
  have hlist := Ring.toList_of_tryPush hpush
  have hmem : ∀ b, Task.call b ∈ q.toList ↔ Task.call b ∈ (s.queues j).toList := by
    intro b
    rw [hlist]
    simp
  exact {
    capacity := h.capacity_update (Ring.capacity_of_tryPush hpush)
    order := fun j' hj' => by
      have hold := h.order j' hj'
      simp only [hphase, Phase.pushed] at hold ⊢
      by_cases hjj : j' = j
      · subst hjj
        rw [update_self, hlist]
        simp only [lt_irrefl, if_false, if_true] at hold ⊢
        exact hold.push_stop
      · rw [update_of_ne hjj]
        simpa only [hjj, if_false] using hold
    early := fun hrun => absurd hrun (by simp)
    le := h.le
    all := fun hrun => absurd hrun (by simp)
    quiet := fun hrun => absurd hrun (by simp)
    bound := fun j' i' heq => by
      obtain ⟨-, rfl⟩ := Phase.pushing.inj heq
      omega
    exited := h.exited
    joined := fun w hw => absurd hw (by simp [Phase.joined])
    tally := fun b => by
      have hset := tally_setQueue s hj q b
      rw [hlist, List.count_append] at hset
      have hzero : List.count (Task.call b) [Task.stop] = 0 := rfl
      rw [hzero] at hset
      have hold := h.tally b
      show State.tally cfg { s with queues := update s.queues j q } b =
        if b < s.scheduled then 1 else 0
      omega
    single := fun hone hstop b hb => notMem_update (h.single hone hstop b hb) (hmem b).not.2 }

/-- What a step of the destructor does: it pushes a stop task, or only gets on. -/
theorem Inv.destruct_cases (h : s.Inv cfg) (hdestruct : s.destruct cfg = some s') :
    (∃ j i q, s.phase = .pushing j i ∧ j < cfg.queueNum ∧
      i < cfg.workerNum / cfg.queueNum + 1 ∧ (s.queues j).tryPush .stop = some q ∧
      s' = { s with queues := update s.queues j q, phase := .pushing j (i + 1) }) ∨
    ∃ phase, s' = { s with phase := phase } ∧ phase ≠ .running ∧
      (∀ j < cfg.queueNum, phase.pushed cfg j = s.phase.pushed cfg j) ∧
      (∀ j i, phase = .pushing j i → i ≤ cfg.workerNum / cfg.queueNum + 1) ∧
      ∀ w < phase.joined cfg, s.workers w = .exited := by
  unfold State.destruct at hdestruct
  split at hdestruct
  next hphase =>
    refine .inr ⟨_, (Option.some.inj hdestruct).symm, by simp, fun j _ => ?_, fun j i heq => ?_,
      fun w hw => ?_⟩
    · simp [hphase, Phase.pushed]
    · obtain ⟨-, rfl⟩ := Phase.pushing.inj heq
      exact Nat.zero_le _
    · simp [Phase.joined] at hw
  next j i hphase =>
    split at hdestruct
    next hj =>
      split at hdestruct
      next hi =>
        obtain ⟨q, hpush, rfl⟩ := Option.map_eq_some_iff.1 hdestruct
        exact .inl ⟨j, i, q, hphase, hj, hi, hpush, rfl⟩
      next hi =>
        have hfull : i = cfg.workerNum / cfg.queueNum + 1 := by
          have := h.bound j i hphase
          omega
        refine .inr ⟨_, (Option.some.inj hdestruct).symm, by simp, fun j' _ => ?_,
          fun j' i' heq => ?_, fun w hw => ?_⟩
        · simp only [hphase, Phase.pushed, hfull]
          split_ifs <;> omega
        · obtain ⟨-, rfl⟩ := Phase.pushing.inj heq
          exact Nat.zero_le _
        · simp [Phase.joined] at hw
    next hj =>
      refine .inr ⟨_, (Option.some.inj hdestruct).symm, by simp, fun j' hj' => ?_, by simp,
        fun w hw => ?_⟩
      · have hlt : j' < j := by omega
        simp [hphase, Phase.pushed, hlt]
      · simp [Phase.joined] at hw
  next k hphase =>
    split at hdestruct
    next hk =>
      split at hdestruct
      next hexited =>
        refine .inr ⟨_, (Option.some.inj hdestruct).symm, by simp,
          by simp [hphase, Phase.pushed], by simp, fun w hw => ?_⟩
        have hjoined := h.joined w
        simp only [hphase, Phase.joined] at hw hjoined
        by_cases hwk : w = k
        · rwa [hwk]
        · exact hjoined (by omega)
      · simp at hdestruct
    next hk =>
      refine .inr ⟨_, (Option.some.inj hdestruct).symm, by simp,
        by simp [hphase, Phase.pushed], by simp, fun w hw => ?_⟩
      refine h.joined w ?_
      simp only [hphase, Phase.joined] at hw ⊢
      omega
  · simp at hdestruct

theorem Inv.destruct (h : s.Inv cfg) (hdestruct : s.destruct cfg = some s') : s'.Inv cfg := by
  obtain ⟨j, i, q, hphase, hj, hi, hpush, rfl⟩ | ⟨phase, rfl, hrun, hpushed, hbound, hjoined⟩ :=
    h.destruct_cases hdestruct
  · exact h.pushStop hphase hj hi hpush
  · exact h.setPhase hrun hpushed hbound hjoined

/-- **Every action keeps the invariant.** -/
theorem Inv.next {a : Action} (h : s.Inv cfg) (hnext : next cfg a s = some s') : s'.Inv cfg := by
  obtain ⟨random, -, rfl⟩ | ⟨w, -, hw, hwaiting, hpop⟩ | ⟨w, task, -, hw, hpopped, hrun⟩ |
    ⟨w, -, hw, hran, rfl⟩ | ⟨-, hdestruct⟩ := next_cases hnext
  · exact h.schedule (Nat.mod_lt random cfg.queueNum_pos)
  · exact h.pop hw hwaiting hpop
  · exact h.runTask hw hpopped hrun
  · exact h.testStop hw hran
  · exact h.destruct hdestruct

/-- When the destructor returns, a task that was not run is still in its queue. -/
theorem Inv.left_over (h : s.Inv cfg) (hphase : s.phase = .returned) {b : ℕ}
    (hb : b < s.accepted) (hcount : s.executed.count b ≠ 1) :
    ∃ j < cfg.queueNum, Task.call b ∈ (s.queues j).toList := by
  by_contra hleft
  have hnone : ∀ j < cfg.queueNum, Task.call b ∉ (s.queues j).toList := fun j hj hmem =>
    hleft ⟨j, hj, hmem⟩
  have hqueues : ∑ j ∈ Finset.range cfg.queueNum, (s.queues j).toList.count (.call b) = 0 :=
    Finset.sum_eq_zero fun j hj =>
      List.count_eq_zero_of_not_mem (hnone j (Finset.mem_range.1 hj))
  have hworkers : ∑ w ∈ Finset.range cfg.workerNum, (s.workers w).holds b = 0 := by
    refine Finset.sum_eq_zero fun w hw => ?_
    rw [h.joined w (by rw [hphase]; exact Finset.mem_range.1 hw)]
    rfl
  have htally := h.tally b
  rw [State.tally, hqueues, hworkers, if_pos (Nat.lt_of_lt_of_le hb h.le)] at htally
  omega

end State

theorem Config.workerNum_div (cfg : Config) :
    0 < cfg.workerNum / cfg.queueNum ∧
      cfg.workerNum = cfg.queueNum * (cfg.workerNum / cfg.queueNum) := by
  obtain ⟨n, hn, hw⟩ := cfg.multiple
  rw [hw, Nat.mul_div_cancel_left n cfg.queueNum_pos]
  exact ⟨hn, rfl⟩

theorem Config.workerNum_pos (cfg : Config) : 0 < cfg.workerNum := by
  rw [cfg.workerNum_div.2]
  exact Nat.mul_pos cfg.queueNum_pos cfg.workerNum_div.1

/-- Every task that was accepted before the destructor was called has been run once when it
returns. -/
def Executes (cfg : Config) : Prop :=
  ∀ s, Reach (next cfg) (fun _ _ => True) (.init cfg) s → s.phase = .returned →
    ∀ b < s.accepted, s.executed.count b = 1

theorem executes_of (cfg : Config)
    (hcfg : cfg.queueNum = 1 ∨ cfg.queueSize ≤ cfg.workerNum / cfg.queueNum + 1) :
    Executes cfg := by
  intro s hs hphase b hb
  have h : s.Inv cfg := hs.invariant (State.inv_init cfg) fun _ _ _ h _ hnext => h.next hnext
  by_contra hcount
  obtain ⟨j, hj, hmem⟩ := h.left_over hphase hb hcount
  rcases hcfg with hone | hshort
  · -- a worker has returned, so that `stop_` is set, by a task behind this one
    have hstop := h.exited 0 (h.joined 0 (by rw [hphase]; exact cfg.workerNum_pos))
    have hj0 : j = 0 := by omega
    exact h.single hone (.inl hstop) b hb (hj0 ▸ hmem)
  · -- all stop tasks are behind this one, and there is no room for them
    have hlt := (h.order j hj).lt_length hb hmem
    have hle := (s.queues j).length_toList_le
    rw [h.capacity] at hle
    rw [hphase] at hlt
    simp only [Phase.pushed] at hlt
    omega

end Rtp.Util.ThreadPool
