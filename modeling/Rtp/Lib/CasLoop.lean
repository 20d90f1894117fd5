import Mathlib.Logic.Function.Basic
import Rtp.Lib.Reach

/-!
# Loops around a compare-and-swap

Threads that change a shared cell without a lock: a call reads the cell, computes from what
it has read what the cell should hold, and stores that only if the cell still holds what was
read; otherwise it starts again.  `round r v` is what the request `r` wants to store after
it has read `v`, or nothing where the call gives up.

* `State`, `next` — any number of threads, with the read and the compare-and-swap of each
  call as separate actions.
* `Served` — requests served one after the other.
* `served_of_reach` — **every interleaving amounts to serving the successful calls one
  after the other**, in the order of their swaps.
-/

namespace Rtp.CasLoop

variable {V R : Type*} (round : R → V → Option V)

/-- Where a thread is: outside of a call, before the read, or before the swap with what it
has read and what it wants to store. -/
inductive Thread (V R : Type*) where
  | idle
  | calling (request : R)
  | loaded (request : R) (current new : V)

/-- The cell, the threads, and the successful calls so far, each with what it has read. -/
structure State (V R : Type*) where
  cell : V
  threads : ℕ → Thread V R
  granted : List (R × V)

/-- No thread in a call yet. -/
def State.init (cell : V) : State V R := ⟨cell, fun _ => .idle, []⟩

inductive Action (R : Type*) where
  | call (thread : ℕ) (request : R)
  | load (thread : ℕ)
  | swap (thread : ℕ)

/-- The state with one thread moved. -/
def State.goto (s : State V R) (thread : ℕ) (t : Thread V R) : State V R :=
  { s with threads := Function.update s.threads thread t }

/-- One action.  A call that gives up has read the cell and leaves it as it is. -/
def next [DecidableEq V] : Action R → State V R → Option (State V R)
  | .call i request, s =>
    match s.threads i with
    | .idle => some (s.goto i (.calling request))
    | _ => none
  | .load i, s =>
    match s.threads i with
    | .calling request =>
      match round request s.cell with
      | none => some (s.goto i .idle)
      | some new => some (s.goto i (.loaded request s.cell new))
    | _ => none
  | .swap i, s =>
    match s.threads i with
    | .loaded request current new =>
      if s.cell = current then
        some { s.goto i .idle with cell := new, granted := s.granted ++ [(request, current)] }
      else some (s.goto i (.calling request))
    | _ => none

/-- `Served v l v'`: the requests of the list, each with the value it has found, lead from
`v` to `v'` when they are served one after the other. -/
inductive Served (v : V) : List (R × V) → V → Prop
  | nil : Served v [] v
  | concat {l : List (R × V)} {request : R} {current new : V} (h : Served v l current)
      (hround : round request current = some new) : Served v (l ++ [(request, current)]) new

/-- What a thread wants to store is computed from what it has read. -/
def Computed (s : State V R) : Prop :=
  ∀ i request current new, s.threads i = .loaded request current new →
    round request current = some new

variable {round} {s s' : State V R}

/-- A thread that moves has computed what it wants to store if it has read anything. -/
theorem Computed.goto (h : Computed round s) {i : ℕ} {t : Thread V R}
    (ht : ∀ request current new, t = .loaded request current new →
      round request current = some new) : Computed round (s.goto i t) := by
  intro j request current new hj
  change Function.update s.threads i t j = _ at hj
  by_cases hij : j = i
  · rw [hij, Function.update_self] at hj
    exact ht _ _ _ hj
  · rw [Function.update_of_ne hij] at hj
    exact h j _ _ _ hj

/-- The invariant of a run: the successful calls have been served one after the other. -/
structure Inv (round : R → V → Option V) (v : V) (s : State V R) : Prop where
  served : Served round v s.granted s.cell
  computed : Computed round s

theorem inv_init (v : V) : Inv round v (State.init v) :=
  ⟨.nil, fun _ _ _ _ h => absurd h (by simp [State.init])⟩

theorem Inv.next [DecidableEq V] {v : V} (h : Inv round v s) {a : Action R}
    (ha : next round a s = some s') : Inv round v s' := by
  cases a with
  | call i request =>
    simp only [CasLoop.next] at ha
    split at ha
    · rw [← Option.some.inj ha]
      exact ⟨h.served, h.computed.goto fun _ _ _ ht => absurd ht (by simp)⟩
    · simp at ha
  | load i =>
    simp only [CasLoop.next] at ha
    split at ha
    · next request hi =>
      split at ha
      · rw [← Option.some.inj ha]
        exact ⟨h.served, h.computed.goto fun _ _ _ ht => absurd ht (by simp)⟩
      · next new hround =>
        rw [← Option.some.inj ha]
        refine ⟨h.served, h.computed.goto fun request' current' new' ht => ?_⟩
        rw [Thread.loaded.injEq] at ht
        obtain ⟨rfl, rfl, rfl⟩ := ht
        exact hround
    · simp at ha
  | swap i =>
    simp only [CasLoop.next] at ha
    split at ha
    · next request current new hi =>
      split at ha
      · next hcell =>
        rw [← Option.some.inj ha]
        have hidle : Computed round (s.goto i .idle) :=
          h.computed.goto fun _ _ _ ht => absurd ht (by simp)
        refine ⟨.concat ?_ (h.computed i request current new hi), hidle⟩
        rw [← hcell]
        exact h.served
      · rw [← Option.some.inj ha]
        exact ⟨h.served, h.computed.goto fun _ _ _ ht => absurd ht (by simp)⟩
    · simp at ha

/-- **The successful calls are served one after the other.** -/
theorem served_of_reach [DecidableEq V] {P : State V R → Action R → Prop} {v : V}
    (h : Reach (next round) P (State.init v) s) : Served round v s.granted s.cell := by
  have hinv : Inv round v s :=
    h.invariant (inv_init v) fun _ _ _ hi _ ha => hi.next ha
  exact hinv.served

end Rtp.CasLoop
