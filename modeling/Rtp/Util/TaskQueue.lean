import Rtp.Lib.Ring
import Rtp.Lib.Run

/-!
# The task queue of the thread pool

`ThreadPool::TaskQueue` (`orc/util/thread_pool.cc`): an array of tasks with two pointers into
it, and the number of tasks that are stored.  All four operations hold the mutex from their
first to their last access, so that any interleaving of them is a sequence of complete
operations; `Push` and `Pop` wait until there is room, or a task.  A call that has to wait gives
the mutex back and tries again later: it stands in the sequence once for each try.

* `TaskQueue`, `call` — the queue and its operations; pointers are offsets into the array.
* `Bounded.call` — a list of at most `capacity` tasks with the same operations, which is what
  the queue is for.
* `ofRing`, `Refines.call` — **one operation**: the queue stays a ring buffer, answers as the
  list does and stores what is in the list.
* `entered`, `left` — the tasks that callers have handed over and got back.
* `taskQueue_fifo` — **all sequences**: the queue answers as the list does.
-/

namespace Rtp.Util

/-! ## The queue -/

/-- A queue of tasks; `none` is `Task()`, a function that cannot be called. -/
structure TaskQueue (T : Type) where
  data : List (Option T)
  endPos : ℕ
  front : ℕ
  back : ℕ
  size : ℕ
  capacity : ℕ
  deriving DecidableEq, Repr

namespace TaskQueue

variable {T : Type}

/-- A new queue. -/
def new (capacity : ℕ) : TaskQueue T where
  data := List.replicate capacity none
  endPos := capacity
  front := 0
  back := 0
  size := 0
  capacity := capacity

/-- The task is moved to the slot at `back_`. -/
def pushBack (task : Option T) (q : TaskQueue T) : TaskQueue T :=
  { q with
    data := q.data.set q.back task
    back := if q.back + 1 = q.endPos then 0 else q.back + 1
    size := q.size + 1 }

/-- The task is moved from the slot at `front_`, which is left with a value that is not
specified. -/
def popFront (moved : Option T) (q : TaskQueue T) : Option T × TaskQueue T :=
  (q.data.getD q.front none,
    { q with
      data := q.data.set q.front moved
      front := if q.front + 1 = q.endPos then 0 else q.front + 1
      size := q.size - 1 })

/-- `Push`, which waits while the queue is full. -/
def push (task : Option T) (q : TaskQueue T) : Option (TaskQueue T) :=
  if q.size ≥ q.capacity then none else some (q.pushBack task)

/-- `Pop`, which waits while the queue is empty. -/
def pop (moved : Option T) (q : TaskQueue T) : Option (Option T × TaskQueue T) :=
  if q.size = 0 then none else some (q.popFront moved)

/-- `TryPush`, which hands the task back if the queue is full. -/
def tryPush (task : Option T) (q : TaskQueue T) : Option T × TaskQueue T :=
  if q.size ≥ q.capacity then (task, q) else (none, q.pushBack task)

/-- `TryPop`, which returns `Task()` if the queue is empty. -/
def tryPop (moved : Option T) (q : TaskQueue T) : Option T × TaskQueue T :=
  if q.size = 0 then (none, q) else q.popFront moved

/-- The operations. -/
inductive Call (T : Type) where
  | push (task : Option T)
  | pop (moved : Option T)
  | tryPush (task : Option T)
  | tryPop (moved : Option T)
  deriving DecidableEq, Repr

/-- What a caller sees: it has to wait, or the call is done, with the task it returns. -/
inductive Answer (T : Type) where
  | waits
  | pushed
  | returned (task : Option T)
  deriving DecidableEq, Repr

/-- One operation; one that has to wait changes nothing. -/
def call : Call T → TaskQueue T → Except Empty (Answer T × TaskQueue T)
  | .push task, q => .ok ((q.push task).elim (.waits, q) fun q' => (.pushed, q'))
  | .pop moved, q => .ok ((q.pop moved).elim (.waits, q) fun p => (.returned p.1, p.2))
  | .tryPush task, q => .ok (.returned (q.tryPush task).1, (q.tryPush task).2)
  | .tryPop moved, q => .ok (.returned (q.tryPop moved).1, (q.tryPop moved).2)

/-- The tasks that are stored, the oldest first. -/
def stored (q : TaskQueue T) : List (Option T) :=
  (List.range q.size).map fun i => q.data.getD ((q.front + i) % q.capacity) none

/-! ## A bounded queue -/

/-- The operations on a list of at most `capacity` tasks, the oldest first. -/
def Bounded.call (capacity : ℕ) :
    Call T → List (Option T) → Except Empty (Answer T × List (Option T))
  | .push task, l => .ok (if l.length < capacity then (.pushed, l ++ [task]) else (.waits, l))
  | .tryPush task, l =>
    .ok (if l.length < capacity then (.returned none, l ++ [task]) else (.returned task, l))
  | .pop _, [] => .ok (.waits, [])
  | .tryPop _, [] => .ok (.returned none, [])
  | .pop _, task :: l => .ok (.returned task, l)
  | .tryPop _, task :: l => .ok (.returned task, l)

/-- The task that a caller has handed over for good. -/
def Call.entered : Call T → Answer T → Option T
  | .push task, .pushed => task
  | .tryPush task, .returned none => task
  | _, _ => none

/-- The task that a caller has got out of the queue. -/
def Call.left : Call T → Answer T → Option T
  | .pop _, .returned task => task
  | .tryPop _, .returned task => task
  | _, _ => none

/-- The tasks that were handed over, in order; `Task()` is not one that can be seen. -/
def entered (history : List (Call T × Answer T)) : List T :=
  history.filterMap fun (c, answer) => c.entered answer

/-- The tasks that were got out, in order. -/
def left (history : List (Call T × Answer T)) : List T :=
  history.filterMap fun (c, answer) => c.left answer

/-! ## A ring buffer -/

/-- The queue of a ring buffer. -/
def ofRing (r : Ring (Option T)) : TaskQueue T where
  data := r.data
  endPos := r.capacity
  front := r.front
  back := r.back
  size := r.size
  capacity := r.capacity

variable {r r' : Ring (Option T)} {q : TaskQueue T} {task moved : Option T}

theorem new_eq_ofRing (capacity : ℕ) (h : 0 < capacity) :
    (new capacity : TaskQueue T) = ofRing (Ring.new capacity h) := by
  unfold new ofRing
  rw [Ring.capacity_new]
  rfl

theorem size_ofRing (r : Ring (Option T)) : (ofRing r).size = r.toList.length :=
  r.length_toList.symm

variable {capacity : ℕ}

theorem ofRing_of_capacity (h : r.capacity = capacity) :
    ofRing r = ⟨r.data, capacity, r.front, r.back, r.size, capacity⟩ := by
  rw [← h]
  rfl

/-- `back_` moves as the back of the ring buffer does. -/
theorem pushBack_ofRing (task : Option T) (h : r.toList.length < r.capacity) :
    ∃ r', (ofRing r).pushBack task = ofRing r' ∧ r'.capacity = r.capacity ∧
      r'.toList = r.toList ++ [task] := by
  obtain ⟨r', hr'⟩ := Ring.exists_tryPush h task
  refine ⟨r', ?_, Ring.capacity_of_tryPush hr', Ring.toList_of_tryPush hr'⟩
  have hcap := Ring.capacity_of_tryPush hr'
  unfold Ring.tryPush at hr'
  split at hr'
  · rw [ofRing_of_capacity hcap, ← Option.some.inj hr']
    rfl
  · simp at hr'

/-- `front_` moves as the front of the ring buffer does. -/
theorem popFront_ofRing (moved : Option T) (h : r.toList ≠ []) :
    ∃ task r', (ofRing r).popFront moved = (task, ofRing r') ∧ r'.capacity = r.capacity ∧
      r.toList = task :: r'.toList := by
  obtain ⟨task, r₁, hr₁⟩ := Ring.exists_tryPop h
  have hleaving : r.tryPopLeaving moved = some (task, r₁.overwrite r.front moved) := by
    rw [Ring.tryPopLeaving, hr₁]
    rfl
  have hcap : (r₁.overwrite r.front moved).capacity = r.capacity :=
    List.length_set.trans (Ring.capacity_of_tryPop hr₁)
  refine ⟨task, r₁.overwrite r.front moved, ?_, hcap, Ring.toList_of_tryPopLeaving hleaving⟩
  rw [ofRing_of_capacity hcap]
  unfold Ring.tryPop at hr₁
  split at hr₁
  · simp at hr₁
  · obtain ⟨rfl, rfl⟩ := Prod.mk.inj (Option.some.inj hr₁)
    rfl

/-! ## One operation -/

theorem full_ofRing_iff (r : Ring (Option T)) :
    (ofRing r).size ≥ (ofRing r).capacity ↔ r.toList.length = r.capacity := by
  have hle := r.length_toList_le
  rw [size_ofRing]
  show r.toList.length ≥ r.capacity ↔ _
  omega

theorem empty_ofRing_iff (r : Ring (Option T)) : (ofRing r).size = 0 ↔ r.toList = [] := by
  rw [size_ofRing, List.length_eq_zero_iff]

/-- The queue and the list it stands for. -/
def Refines (capacity : ℕ) (q : TaskQueue T) (l : List (Option T)) : Prop :=
  ∃ r, q = ofRing r ∧ r.capacity = capacity ∧ r.toList = l

variable {l : List (Option T)}

theorem refines_new (hpos : 0 < capacity) : Refines capacity (new capacity : TaskQueue T) [] :=
  ⟨Ring.new capacity hpos, new_eq_ofRing capacity hpos, Ring.capacity_new capacity hpos, rfl⟩

namespace Refines

theorem stored (h : Refines capacity q l) : q.stored = l := by
  obtain ⟨r, rfl, -, rfl⟩ := h
  rfl

theorem length_le (h : Refines capacity q l) : l.length ≤ capacity := by
  obtain ⟨r, -, rfl, rfl⟩ := h
  exact r.length_toList_le

theorem full_iff (h : Refines capacity q l) : q.size ≥ q.capacity ↔ l.length = capacity := by
  obtain ⟨r, rfl, rfl, rfl⟩ := h
  exact full_ofRing_iff r

theorem empty_iff (h : Refines capacity q l) : q.size = 0 ↔ l = [] := by
  obtain ⟨r, rfl, -, rfl⟩ := h
  exact empty_ofRing_iff r

theorem pushBack (h : Refines capacity q l) (task : Option T) (hroom : l.length < capacity) :
    Refines capacity (q.pushBack task) (l ++ [task]) := by
  obtain ⟨r, rfl, rfl, rfl⟩ := h
  exact pushBack_ofRing task hroom

theorem popFront (h : Refines capacity q (task :: l)) (moved : Option T) :
    ∃ q', q.popFront moved = (task, q') ∧ Refines capacity q' l := by
  obtain ⟨r, rfl, rfl, hlist⟩ := h
  obtain ⟨task', r', hpop, hcap, hlist'⟩ := popFront_ofRing moved (hlist ▸ List.cons_ne_nil _ _)
  obtain ⟨rfl, hl⟩ := List.cons.inj (hlist.symm.trans hlist')
  exact ⟨ofRing r', hpop, r', rfl, hcap, hl.symm⟩

/-- **One operation**: the same answer, and the list after it. -/
theorem call (h : Refines capacity q l) (c : Call T) :
    ∃ answer q' l', call c q = .ok (answer, q') ∧
      Bounded.call capacity c l = .ok (answer, l') ∧ Refines capacity q' l' := by
  have hle := h.length_le
  have hfull := h.full_iff
  have hempty := h.empty_iff
  cases c with
  | push task | tryPush task =>
    simp only [TaskQueue.call, push, tryPush, Bounded.call]
    by_cases hroom : l.length < capacity
    · rw [if_neg (by omega), if_pos hroom]
      exact ⟨_, _, _, rfl, rfl, h.pushBack task hroom⟩
    · rw [if_pos (by omega), if_neg hroom]
      exact ⟨_, _, _, rfl, rfl, h⟩
  | pop moved | tryPop moved =>
    simp only [TaskQueue.call, pop, tryPop]
    cases l with
    | nil =>
      rw [if_pos (hempty.mpr rfl)]
      exact ⟨_, _, _, rfl, rfl, h⟩
    | cons task l =>
      obtain ⟨q', hpop, h'⟩ := h.popFront moved
      rw [if_neg (by simp [hempty]), hpop]
      exact ⟨_, _, _, rfl, rfl, h'⟩

theorem push_eq_none_iff (h : Refines capacity q l) (task : Option T) :
    q.push task = none ↔ l.length = capacity := by
  rw [← h.full_iff, push]
  simp

theorem pop_eq_none_iff (h : Refines capacity q l) (moved : Option T) :
    q.pop moved = none ↔ l = [] := by
  rw [← h.empty_iff, pop]
  simp

theorem tryPush_eq_iff (h : Refines capacity q l) (htask : task ≠ none) :
    (q.tryPush task).1 = task ↔ l.length = capacity := by
  rw [← h.full_iff, tryPush]
  split
  next hfull => exact iff_of_true rfl hfull
  next hroom => exact iff_of_false htask.symm hroom

theorem tryPop_eq_none_iff (h : Refines capacity q l) (moved : Option T) :
    (q.tryPop moved).1 = none ↔ l = [] ∨ l.head? = some none := by
  have hempty := h.empty_iff
  rw [tryPop]
  cases l with
  | nil => simp [hempty.mpr rfl]
  | cons task l =>
    obtain ⟨q', hpop, -⟩ := h.popFront moved
    rw [if_neg (by simp [hempty]), hpop]
    simp

end Refines

/-! ## All sequences of operations -/

/-- What is in a bounded queue has entered it and has not left it. -/
def Kept (history : List (Call T × Answer T)) (l : List (Option T)) : Prop :=
  entered history = left history ++ l.filterMap id

/-- One operation of a bounded queue keeps the order of the tasks. -/
theorem Kept.call {history : List (Call T × Answer T)} {c : Call T} {answer : Answer T}
    {l' : List (Option T)} (h : Kept history l)
    (hcall : Bounded.call capacity c l = .ok (answer, l')) :
    Kept (history ++ [(c, answer)]) l' := by
  unfold Kept entered left at *
  rw [List.filterMap_append, List.filterMap_append, h]
  -- per operation: what is seen of it is what it does with the list
  cases c with
  | push task | tryPush task =>
    rw [Bounded.call, Except.ok.injEq] at hcall
    split at hcall <;> obtain ⟨rfl, rfl⟩ := Prod.mk.inj hcall <;>
      cases task <;> simp [Call.entered, Call.left]
  | pop moved | tryPop moved =>
    cases l <;> obtain ⟨rfl, rfl⟩ := Prod.mk.inj (Except.ok.inj hcall)
    · simp [Call.entered, Call.left]
    next task _ => cases task <;> simp [Call.entered, Call.left]

/-- Every sequence of operations of a queue for one task or more is answered as that of a
bounded queue is, and the queue then stores what is in the bounded one: the tasks that were
handed over are those that came out, in the same order, and those that are stored.  `Push` and
`Pop` wait if the queue is full and if it is empty, `TryPush` hands a task back if it is full,
and `TryPop` returns `Task()` if it is empty, or if that was the oldest task. -/
theorem taskQueue_fifo (capacity : ℕ) (hpos : 1 ≤ capacity) (calls : List (Call T)) :
    ∃ history q, Run.run call calls (new capacity) = .ok (history, q) ∧
      Run.run (Bounded.call capacity) calls [] = .ok (history, q.stored) ∧
      entered history = left history ++ q.stored.filterMap id ∧ q.stored.length ≤ capacity ∧
      (∀ task, q.push task = none ↔ q.stored.length = capacity) ∧
      (∀ moved, q.pop moved = none ↔ q.stored = []) ∧
      (∀ task, task ≠ none → ((q.tryPush task).1 = task ↔ q.stored.length = capacity)) ∧
      ∀ moved, (q.tryPop moved).1 = none ↔ q.stored = [] ∨ q.stored.head? = some none := by
  obtain ⟨history, q, l, hrun, href, h⟩ :=
    Run.run_simulates (fun c q l (h : Refines capacity q l) => h.call c) calls (refines_new hpos)
  obtain rfl := h.stored
  have hnil : Kept ([] : List (Call T × Answer T)) [] := rfl
  have hkept : Kept history q.stored :=
    Run.invariant_of_run (fun _ _ _ _ _ h hcall => Kept.call h hcall) hnil href
  exact ⟨history, q, hrun, href, hkept, h.length_le, h.push_eq_none_iff, h.pop_eq_none_iff,
    fun task => h.tryPush_eq_iff, h.tryPop_eq_none_iff⟩

/-- Calls on a queue for two tasks: the third task finds it full, and waits. -/
def fourTasks : List (Call ℕ) :=
  [.tryPush (some 1), .push (some 2), .tryPush (some 3), .push (some 4), .tryPop none,
    .push (some 4), .pop none, .tryPush none, .tryPop none, .tryPop none, .pop none]

theorem taskQueue_fifo_two :
    1 ≤ 2 ∧ ∃ history q, Run.run call fourTasks (new 2) = .ok (history, q) ∧
      history.map Prod.snd = [.returned none, .pushed, .returned (some 3), .waits,
        .returned (some 1), .pushed, .returned (some 2), .returned none, .returned (some 4),
        .returned none, .waits] ∧
      entered history = [1, 2, 4] ∧ left history = [1, 2, 4] ∧ q.stored = [] := by
  obtain ⟨history, q, hrun, href, -⟩ := taskQueue_fifo 2 (by decide) fourTasks
  refine ⟨by decide, history, q, hrun, ?_⟩
  obtain ⟨rfl, hstored⟩ := Prod.mk.inj (Except.ok.inj href)
  exact ⟨rfl, rfl, rfl, hstored.symm⟩

/-- `TryPop` returns `Task()` from a queue that is not empty if that is what was pushed. -/
theorem tryPop_empty_task :
    Run.run call [.tryPush none] (new 1 : TaskQueue Unit) =
        .ok ([(.tryPush none, .returned none)], ((new 1).tryPush none).2) ∧
      ¬((((new 1 : TaskQueue Unit).tryPush none).2.tryPop none).1 = none ↔
        ((new 1 : TaskQueue Unit).tryPush none).2.stored = []) :=
  ⟨rfl, by decide⟩

end Rtp.Util.TaskQueue
