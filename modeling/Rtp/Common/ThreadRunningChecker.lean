import Rtp.Lib.Reach

/-!
# The running checker of a looping thread

`common::ThreadRunningChecker` (`common/thread_running_checker.cc`): a looping thread blocks in
`Wait` or `Sleep` until `Stop` or `WakeUp` is called.  These store an atomic flag and then
notify the condition variable, both without the mutex under which the looping thread evaluates
its predicate; so anything can happen between any two of the steps.

* `State`, `next` — the looping thread, step by step, and any number of calls of other threads
  that have stored their flag and not notified yet.
* `Lost` — the looping thread is blocked although it was stopped, or woken.
* `Heeded` — the steps that lose nothing: no flag is stored between the evaluation of the
  predicate and the block, no `WakeUp` meets the entry, and no `Start` overtakes a `Stop`.
* `Inv` — the invariant of the runs made of such steps.
* `exists_lost` — every other step can be followed by a lost notification.
* `not_lost_and_heeded_iff` — **the windows are exactly these**.
* `stop_lost_and_wakeUp_lost` — two runs in full.
-/

namespace Rtp.Common.ThreadRunningChecker

/-! ## The looping thread and its callers -/

/-- A call from another thread: `Set(value)`, which is what `Start` and `Stop` do, or
`WakeUp`. -/
inductive Call where
  | set (value : Bool)
  | wakeUp
  deriving DecidableEq, Repr

/-- What the looping thread has called. -/
inductive Pause where
  | wait
  | sleep
  deriving DecidableEq, Repr

/-- Where the looping thread stands in `Wait` or `Sleep`: outside; after it saw `running_`;
after it cleared `wake_up_flag_`; with the mutex, before it evaluates the predicate; with the
mutex, after the predicate was false; in the condition variable, not notified; there, notified;
on its way out, with the mutex. -/
inductive Phase where
  | outside
  | tested
  | cleared
  | locked
  | decided
  | blocked
  | notified
  | leaving
  deriving DecidableEq, Repr

/-- The checker and its threads.  `calls` are the calls that have stored their flag and not
notified yet, and `result` is what the last `Wait` returned.  The last two fields are a record:
a `Stop` has completed and `Start` was not called since; a `WakeUp` has completed since the
looping thread entered. -/
structure State where
  running : Bool
  wakeUpFlag : Bool
  phase : Phase
  pause : Pause
  result : Option Bool
  calls : List Call
  stopped : Bool
  woken : Bool
  deriving DecidableEq, Repr

namespace State

/-- A new checker. -/
def init (running : Bool) : State where
  running := running
  wakeUpFlag := false
  phase := .outside
  pause := .wait
  result := none
  calls := []
  stopped := false
  woken := false

/-- The predicate of the condition variable. -/
def predicate (s : State) : Bool := !s.running || s.wakeUpFlag

/-- The test of `running_` at the entry of `Wait` or `Sleep`. -/
def enter (pause : Pause) (s : State) : State :=
  if s.running then { s with phase := .tested, pause := pause, woken := false }
  else { s with result := if pause = .wait then some false else none }

/-- The first step of a call. -/
def store (call : Call) (s : State) : State :=
  match call with
  | .set true => { s with running := true, calls := call :: s.calls, stopped := false }
  | .set false => { s with running := false, calls := call :: s.calls }
  | .wakeUp => { s with wakeUpFlag := true, calls := call :: s.calls }

/-- The second step of a call, `notify_all`, after which the call has completed. -/
def notify (call : Call) (s : State) : State :=
  { s with
    phase := if s.phase = .blocked then .notified else s.phase
    calls := s.calls.erase call
    stopped := s.stopped || call = .set false
    woken := s.woken || (call = .wakeUp && s.phase ≠ .outside) }

/-- `Wait` returns `running_`. -/
def leave (s : State) : State :=
  { s with
    phase := .outside
    result := if s.pause = .wait then some s.running else none }

end State

/-- A step of the looping thread or of a caller. -/
inductive Action where
  | enter (pause : Pause)
  | clear
  | lock
  | evaluate
  | block
  | wake
  | timeout
  | leave
  | store (call : Call)
  | notify (call : Call)
  deriving DecidableEq, Repr

/-- When a step can be taken.  The mutex is taken by the looping thread alone, so that `lock`
does not wait; a thread may leave the condition variable without a notification, and in `Sleep`
when its time is over. -/
def Enabled (s : State) : Action → Prop
  | .enter _ => s.phase = .outside
  | .clear => s.phase = .tested
  | .lock => s.phase = .cleared
  | .evaluate => s.phase = .locked
  | .block => s.phase = .decided
  | .wake => s.phase = .blocked ∨ s.phase = .notified
  | .timeout => s.pause = .sleep ∧ (s.phase = .blocked ∨ s.phase = .notified)
  | .leave => s.phase = .leaving
  | .store _ => True
  | .notify call => call ∈ s.calls

/-- What a step does.  After a timeout the predicate is evaluated for its value, which is not
used. -/
def State.after (s : State) : Action → State
  | .enter pause => s.enter pause
  | .clear => { s with wakeUpFlag := false, phase := .cleared }
  | .lock => { s with phase := .locked }
  | .evaluate => { s with phase := if s.predicate then .leaving else .decided }
  | .block => { s with phase := .blocked }
  | .wake => { s with phase := .locked }
  | .timeout => { s with phase := .leaving }
  | .leave => s.leave
  | .store call => s.store call
  | .notify call => s.notify call

instance (s : State) (a : Action) : Decidable (Enabled s a) :=
  match a with
  | .enter _ | .clear | .lock | .evaluate | .block | .leave =>
    inferInstanceAs (Decidable (s.phase = _))
  | .wake => inferInstanceAs (Decidable (_ ∨ _))
  | .timeout => inferInstanceAs (Decidable (_ ∧ _))
  | .store _ => isTrue trivial
  | .notify _ => inferInstanceAs (Decidable (_ ∈ _))

/-- The system. -/
def next (a : Action) (s : State) : Option State :=
  if Enabled s a then some (s.after a) else none

variable {a : Action}

theorem next_eq_some_iff {s s' : State} : next a s = some s' ↔ Enabled s a ∧ s.after a = s' := by
  rw [next, Option.ite_none_right_eq_some, Option.some.injEq]

/-- The looping thread is blocked with no notification pending, although a `Stop` has completed
with no `Start` since, or a `WakeUp` has completed since the thread entered. -/
def Lost (s : State) : Prop := s.phase = .blocked ∧ (s.stopped = true ∨ s.woken = true)

/-- The steps that lose nothing. -/
def Heeded (s : State) : Action → Prop
  | .store (.set true) => .set false ∉ s.calls
  | .store (.set false) => s.phase ≠ .decided
  | .store .wakeUp => s.phase ≠ .decided ∧ s.phase ≠ .tested
  | .enter _ => s.running = true → .wakeUp ∉ s.calls
  | _ => True

instance (s : State) (a : Action) : Decidable (Heeded s a) :=
  match a with
  | .store (.set true) => inferInstanceAs (Decidable (_ ∉ _))
  | .store (.set false) => inferInstanceAs (Decidable (_ ≠ _))
  | .store .wakeUp => inferInstanceAs (Decidable (_ ∧ _))
  | .enter _ => inferInstanceAs (Decidable (_ → _))
  | .clear | .lock | .evaluate | .block | .wake | .timeout | .leave | .notify _ => isTrue trivial

variable {s s' : State}

/-! ## Runs in which every step is heeded -/

/-- The looping thread has cleared `wake_up_flag_` and not left yet. -/
def Phase.Cleared : Phase → Prop
  | .cleared | .locked | .decided | .blocked | .notified => True
  | .outside | .tested | .leaving => False

/-- **The invariant.** -/
structure Inv (s : State) : Prop where
  stopping : .set false ∈ s.calls → s.running = false
  stopped : s.stopped = true → s.running = false
  tested : s.phase = .tested → s.woken = false ∧ .wakeUp ∉ s.calls
  flag : s.phase.Cleared → s.woken = true ∨ .wakeUp ∈ s.calls → s.wakeUpFlag = true
  decided : s.phase = .decided → s.running = true ∧ s.wakeUpFlag = false
  blocked : s.phase = .blocked → s.stopped = false ∧ s.woken = false

theorem Inv.init (running : Bool) : Inv (.init running) where
  stopping := by simp [State.init]
  stopped := by simp [State.init]
  tested := by simp [State.init]
  flag := by simp [State.init]
  decided := by simp [State.init]
  blocked := by simp [State.init]

theorem Inv.not_lost (h : Inv s) : ¬ Lost s := by
  intro ⟨hblocked, hlost⟩
  obtain ⟨hstopped, hwoken⟩ := h.blocked hblocked
  simp [hstopped, hwoken] at hlost

/-- A step that only moves the looping thread on, to a phase the record allows. -/
theorem Inv.move (h : Inv s) {phase : Phase} (htested : phase ≠ .tested)
    (hcleared : phase.Cleared → s.phase.Cleared)
    (hdecided : phase = .decided → s.predicate = false)
    (hblocked : phase = .blocked → s.phase = .decided) : Inv { s with phase := phase } where
  stopping := h.stopping
  stopped := h.stopped
  tested := fun hphase => absurd hphase htested
  flag := fun hphase => h.flag (hcleared hphase)
  decided := by
    intro hphase
    have hfalse := hdecided hphase
    simpa [State.predicate] using hfalse
  blocked := by
    intro hphase
    -- the predicate was false under the mutex, and no flag was stored since
    have hwas := hblocked hphase
    obtain ⟨hrunning, hflag⟩ := h.decided hwas
    have hno := h.flag (by rw [hwas]; trivial)
    constructor
    · by_contra hstopped
      have := h.stopped (by simpa using hstopped)
      simp [hrunning] at this
    · by_contra hwoken
      have := hno (.inl (by simpa using hwoken))
      simp [hflag] at this

theorem Inv.enter (h : Inv s) {pause : Pause} (hheeded : Heeded s (.enter pause)) :
    Inv (s.enter pause) := by
  unfold State.enter
  split
  case isTrue hrunning =>
    exact {
      stopping := h.stopping
      stopped := h.stopped
      tested := fun _ => ⟨rfl, hheeded hrunning⟩
      flag := fun hphase => hphase.elim
      decided := nofun
      blocked := nofun }
  case isFalse =>
    exact {
      stopping := h.stopping
      stopped := h.stopped
      tested := h.tested
      flag := h.flag
      decided := h.decided
      blocked := h.blocked }

/-- When `wake_up_flag_` is cleared, no `WakeUp` is under way and none has completed. -/
theorem Inv.clear (h : Inv s) (htested : s.phase = .tested) :
    Inv { s with wakeUpFlag := false, phase := .cleared } where
  stopping := h.stopping
  stopped := h.stopped
  tested := nofun
  flag := by
    intro _ hwakeUp
    obtain ⟨hwoken, hno⟩ := h.tested htested
    simp [hwoken, hno] at hwakeUp
  decided := nofun
  blocked := nofun

theorem Inv.leave (h : Inv s) : Inv s.leave where
  stopping := h.stopping
  stopped := h.stopped
  tested := nofun
  flag := fun hphase => hphase.elim
  decided := nofun
  blocked := nofun

variable {call : Call}

theorem Inv.store (h : Inv s) (hheeded : Heeded s (.store call)) : Inv (s.store call) := by
  cases call with
  | set value =>
    cases value with
    | true =>
      have hno : .set false ∉ s.calls := hheeded
      exact {
        stopping := fun hmem => absurd hmem (by simpa [State.store] using hno)
        stopped := nofun
        tested := fun hphase => by simpa [State.store] using h.tested hphase
        flag := fun hphase hwakeUp => h.flag hphase (by simpa [State.store] using hwakeUp)
        decided := fun hphase => ⟨rfl, (h.decided hphase).2⟩
        blocked := fun hphase => ⟨rfl, (h.blocked hphase).2⟩ }
    | false =>
      exact {
        stopping := fun _ => rfl
        stopped := fun _ => rfl
        tested := fun hphase => by simpa [State.store] using h.tested hphase
        flag := fun hphase hwakeUp => h.flag hphase (by simpa [State.store] using hwakeUp)
        decided := fun hphase => absurd hphase hheeded
        blocked := h.blocked }
  | wakeUp =>
    exact {
      stopping := fun hmem => h.stopping (by simpa [State.store] using hmem)
      stopped := h.stopped
      tested := fun hphase => absurd hphase hheeded.2
      flag := fun _ _ => rfl
      decided := fun hphase => absurd hphase hheeded.1
      blocked := h.blocked }

/-- A call completes: the looping thread, if it is blocked, is notified. -/
theorem Inv.notify (h : Inv s) (hcall : call ∈ s.calls) : Inv (s.notify call) where
  stopping := fun hmem => h.stopping (List.mem_of_mem_erase hmem)
  stopped := by
    intro hstopped
    simp only [State.notify, Bool.or_eq_true, decide_eq_true_eq] at hstopped
    obtain hstopped | rfl := hstopped
    · exact h.stopped hstopped
    · exact h.stopping hcall
  tested := by
    intro hphase
    have hwas : s.phase = .tested := by
      by_cases hblocked : s.phase = .blocked
      · simp [State.notify, hblocked] at hphase
      · simpa [State.notify, hblocked] using hphase
    obtain ⟨hwoken, hno⟩ := h.tested hwas
    have hother : call ≠ .wakeUp := fun heq => hno (heq ▸ hcall)
    exact ⟨by simp [State.notify, hwoken, hother], fun hmem => hno (List.mem_of_mem_erase hmem)⟩
  flag := by
    intro hphase hwakeUp
    have hwas : s.phase.Cleared := by
      by_cases hblocked : s.phase = .blocked
      · rw [hblocked]; trivial
      · simpa [State.notify, hblocked] using hphase
    apply h.flag hwas
    obtain hwoken | hmem := hwakeUp
    · simp only [State.notify, Bool.or_eq_true, Bool.and_eq_true, decide_eq_true_eq] at hwoken
      obtain hwoken | ⟨rfl, -⟩ := hwoken
      · exact .inl hwoken
      · exact .inr hcall
    · exact .inr (List.mem_of_mem_erase hmem)
  decided := by
    intro hphase
    apply h.decided
    by_cases hblocked : s.phase = .blocked
    · simp [State.notify, hblocked] at hphase
    · simpa [State.notify, hblocked] using hphase
  blocked := by
    intro hphase
    by_cases hblocked : s.phase = .blocked
    · simp [State.notify, hblocked] at hphase
    · simp [State.notify, hblocked] at hphase

/-- What one heeded step preserves. -/
theorem Inv.next (h : Inv s) (hheeded : Heeded s a) (hnext : next a s = some s') : Inv s' := by
  obtain ⟨hwas, rfl⟩ := next_eq_some_iff.mp hnext
  cases a with
  | enter pause => exact h.enter hheeded
  | clear => exact h.clear hwas
  | lock => exact h.move nofun (fun _ => by rw [hwas]; trivial) nofun nofun
  | evaluate =>
    cases hpredicate : s.predicate with
    | true =>
      simp only [State.after, hpredicate]
      exact h.move nofun nofun nofun nofun
    | false =>
      simp only [State.after, hpredicate]
      exact h.move nofun (fun _ => by rw [hwas]; trivial) (fun _ => hpredicate) nofun
  | block => exact h.move nofun (fun _ => by rw [hwas]; trivial) nofun (fun _ => hwas)
  | wake =>
    refine h.move nofun (fun _ => ?_) nofun nofun
    obtain hwas | hwas := hwas
    · rw [hwas]; trivial
    · rw [hwas]; trivial
  | timeout => exact h.move nofun nofun nofun nofun
  | leave => exact h.leave
  | store call => exact h.store hheeded
  | notify call => exact h.notify hwas

/-- In a run of heeded steps nothing is lost. -/
theorem inv_of_reach {running : Bool} (hs : Reach next Heeded (.init running) s) : Inv s :=
  hs.invariant (.init running) fun _ _ _ h hheeded hnext => h.next hheeded hnext

/-! ## Every other step can lose a notification -/

/-- A heeded step first. -/
theorem reach_step (hheeded : Heeded s a) (hwas : Enabled s a) : Reach next Heeded s (s.after a) :=
  (Reach.refl s).tail hheeded (next_eq_some_iff.mpr ⟨hwas, rfl⟩)

/-- A call that has stored its flag after the predicate was false completes before the
looping thread blocks. -/
theorem exists_lost_of_decided (hdecided : s.phase = .decided) (hcall : call ∈ s.calls)
    (hother : call ≠ .set true) : ∃ s', Reach next Heeded s s' ∧ Lost s' := by
  have hnotify : Reach next Heeded s (s.notify call) := reach_step (a := .notify call) trivial hcall
  have hphase : (s.notify call).phase = .decided := by simp [State.notify, hdecided]
  refine ⟨_, hnotify.trans (reach_step (a := .block) trivial hphase), rfl, ?_⟩
  cases call with
  | set value =>
    cases value with
    | true => exact absurd rfl hother
    | false => left; simp [State.after, State.notify]
  | wakeUp => right; simp [State.after, State.notify, hdecided]

/-- The calls under way complete, while the looping thread does nothing. -/
theorem exists_completed : ∀ (calls : List Call) (s : State), s.calls = calls →
    s.phase ≠ .blocked → ∃ s', Reach next Heeded s s' ∧ s'.calls = [] ∧ s'.phase = s.phase ∧
      s'.running = s.running ∧ (s.stopped = true ∨ .set false ∈ calls → s'.stopped = true) ∧
      (s.woken = true ∨ .wakeUp ∈ calls ∧ s.phase ≠ .outside → s'.woken = true) := by
  intro calls
  induction calls with
  | nil =>
    intro s hcalls _
    refine ⟨s, .refl s, hcalls, rfl, rfl, ?_, ?_⟩
    · simp
    · simp
  | cons call calls ih =>
    intro s hcalls hphase
    have hmem : call ∈ s.calls := by rw [hcalls]; exact List.mem_cons_self
    have hkept : (s.notify call).phase = s.phase := by simp [State.notify, hphase]
    have hrest : (s.notify call).calls = calls := by simp [State.notify, hcalls]
    obtain ⟨s', hreach, hnone, hphase', hrunning, hstopped, hwoken⟩ :=
      ih (s.notify call) hrest (by rw [hkept]; exact hphase)
    refine ⟨s', (reach_step (a := .notify call) trivial hmem).trans hreach, hnone,
      hphase'.trans hkept, hrunning, ?_, ?_⟩
    · intro hstop
      apply hstopped
      rw [List.mem_cons] at hstop
      obtain hstop | rfl | hstop := hstop
      · left; simp [State.notify, hstop]
      · left; simp [State.notify]
      · exact .inr hstop
    · intro hwakeUp
      apply hwoken
      rw [List.mem_cons] at hwakeUp
      obtain hwakeUp | ⟨rfl | hwakeUp, hinside⟩ := hwakeUp
      · left; simp [State.notify, hwakeUp]
      · left; simp [State.notify, hinside]
      · exact .inr ⟨hwakeUp, by rw [hkept]; exact hinside⟩

/-- While the thread is running and nobody calls, the looping thread blocks after its test. -/
theorem reach_blocked_of_tested (htested : s.phase = .tested) (hrunning : s.running = true) :
    Reach next Heeded s { s with wakeUpFlag := false, phase := .blocked } := by
  have hclear : Reach next Heeded s (s.after .clear) := reach_step trivial htested
  have hlock : Reach next Heeded s ((s.after .clear).after .lock) :=
    hclear.trans (reach_step trivial rfl)
  have hevaluate := hlock.trans (reach_step (a := .evaluate) trivial rfl)
  have hdecided : (((s.after .clear).after .lock).after .evaluate).phase = .decided := by
    simp [State.after, State.predicate, hrunning]
  exact hevaluate.trans (reach_step (a := .block) trivial hdecided)

/-- The looping thread can get to where it is blocked, and stays stopped. -/
def Blocks (s : State) : Prop :=
  ∃ s', Reach next Heeded s s' ∧ s'.phase = .blocked ∧ s'.stopped = s.stopped

/-- A step of the looping thread before that. -/
theorem Blocks.head (h : Blocks (s.after a)) (hheeded : Heeded s a) (hwas : Enabled s a)
    (hkept : (s.after a).stopped = s.stopped) : Blocks s := by
  obtain ⟨s', hreach, hblocked, hstopped⟩ := h
  exact ⟨s', (reach_step hheeded hwas).trans hreach, hblocked, hstopped.trans hkept⟩

theorem blocks_of_tested (htested : s.phase = .tested) (hrunning : s.running = true) :
    Blocks s :=
  ⟨_, reach_blocked_of_tested htested hrunning, rfl, rfl⟩

theorem blocks_of_outside (houtside : s.phase = .outside) (hrunning : s.running = true)
    (hcalls : s.calls = []) : Blocks s := by
  have henter : s.after (.enter .wait) =
      { s with phase := .tested, pause := .wait, woken := false } := by
    simp [State.after, State.enter, hrunning]
  apply Blocks.head (a := .enter .wait)
  · rw [henter]
    exact blocks_of_tested rfl hrunning
  · intro _
    simp [hcalls]
  · exact houtside
  · rw [henter]

theorem blocks_of_leaving (hleaving : s.phase = .leaving) (hrunning : s.running = true)
    (hcalls : s.calls = []) : Blocks s :=
  (@blocks_of_outside (s.after .leave) rfl hrunning hcalls).head trivial hleaving rfl

theorem blocks_of_decided (hdecided : s.phase = .decided) : Blocks s :=
  ⟨_, reach_step (a := .block) trivial hdecided, rfl, rfl⟩

theorem blocks_of_locked (hlocked : s.phase = .locked) (hrunning : s.running = true)
    (hcalls : s.calls = []) : Blocks s := by
  apply Blocks.head (a := .evaluate) _ trivial hlocked rfl
  cases hpredicate : s.predicate with
  | true => exact blocks_of_leaving (by simp [State.after, hpredicate]) hrunning hcalls
  | false => exact blocks_of_decided (by simp [State.after, hpredicate])

/-- **From wherever the looping thread is**, when it is running and no call is under way. -/
theorem blocks_of_running (hrunning : s.running = true) (hcalls : s.calls = []) : Blocks s := by
  cases hphase : s.phase with
  | outside => exact blocks_of_outside hphase hrunning hcalls
  | tested => exact blocks_of_tested hphase hrunning
  | cleared =>
    exact (@blocks_of_locked (s.after .lock) rfl hrunning hcalls).head trivial hphase rfl
  | locked => exact blocks_of_locked hphase hrunning hcalls
  | decided => exact blocks_of_decided hphase
  | blocked => exact ⟨s, .refl s, hphase, rfl⟩
  | notified =>
    exact (@blocks_of_locked (s.after .wake) rfl hrunning hcalls).head trivial (.inr hphase) rfl
  | leaving => exact blocks_of_leaving hphase hrunning hcalls

/-- A `WakeUp` that is under way when `running_` has been tested: its flag is cleared. -/
theorem exists_lost_of_tested (htested : s.phase = .tested) (hcall : .wakeUp ∈ s.calls) :
    ∃ s', Reach next Heeded s s' ∧ Lost s' := by
  obtain ⟨s₁, hreach, hcalls, hphase, -, -, hwoken⟩ :=
    exists_completed s.calls s rfl (by rw [htested]; nofun)
  have hstart : Reach next Heeded s₁ (s₁.store (.set true)) := by
    apply reach_step (a := .store (.set true))
    · show .set false ∉ s₁.calls
      simp [hcalls]
    · trivial
  have hblocked := reach_blocked_of_tested (s := s₁.store (.set true)) (hphase.trans htested) rfl
  refine ⟨_, (hreach.trans hstart).trans hblocked, rfl, .inr ?_⟩
  exact hwoken (.inr ⟨hcall, by rw [htested]; nofun⟩)

/-- A `Start` that overtakes a `Stop`: the `Stop` completes after it. -/
theorem exists_lost_of_overtaken (hrunning : s.running = true) (hcall : .set false ∈ s.calls) :
    ∃ s', Reach next Heeded s s' ∧ Lost s' := by
  -- a thread that is blocked is let go first: it evaluates its predicate again
  obtain ⟨s₀, hstart, hphase₀, hrunning₀, hcalls₀⟩ : ∃ s₀, Reach next Heeded s s₀ ∧
      s₀.phase ≠ .blocked ∧ s₀.running = true ∧ s₀.calls = s.calls := by
    by_cases hblocked : s.phase = .blocked
    · exact ⟨_, reach_step (a := .wake) trivial (.inl hblocked), nofun, hrunning, rfl⟩
    · exact ⟨s, .refl s, hblocked, hrunning, rfl⟩
  obtain ⟨s₁, hreach, hcalls, -, hrunning₁, hstopped, -⟩ :=
    exists_completed s₀.calls s₀ rfl hphase₀
  obtain ⟨s', hblock, hblocked, hkept⟩ := blocks_of_running (hrunning₁.trans hrunning₀) hcalls
  refine ⟨s', (hstart.trans hreach).trans hblock, hblocked, .inl ?_⟩
  rw [hkept]
  exact hstopped (.inr (hcalls₀ ▸ hcall))

/-- **Every step that is not heeded can be followed by a lost notification.** -/
theorem exists_lost (hheeded : ¬ Heeded s a) (hwas : Enabled s a) :
    ∃ s', Reach next Heeded (s.after a) s' ∧ Lost s' := by
  cases a with
  | enter pause =>
    obtain ⟨hrunning, hcall⟩ := Classical.not_imp.mp hheeded
    have hcall := not_not.mp hcall
    exact exists_lost_of_tested (by simp [State.after, State.enter, hrunning])
      (by simpa [State.after, State.enter, hrunning] using hcall)
  | store call =>
    cases call with
    | set value =>
      cases value with
      | true =>
        have hcall : .set false ∈ s.calls := not_not.mp hheeded
        exact exists_lost_of_overtaken rfl (List.mem_cons_of_mem _ hcall)
      | false =>
        have hdecided : s.phase = .decided := not_not.mp hheeded
        exact exists_lost_of_decided (s := s.store (.set false)) hdecided List.mem_cons_self nofun
    | wakeUp =>
      by_cases hdecided : s.phase = .decided
      · exact exists_lost_of_decided (s := s.store .wakeUp) hdecided List.mem_cons_self nofun
      · have htested : s.phase = .tested := by
          by_contra htested
          exact hheeded ⟨hdecided, htested⟩
        exact exists_lost_of_tested (s := s.store .wakeUp) htested List.mem_cons_self
  | clear | lock | evaluate | block | wake | timeout | leave | notify call =>
    exact absurd trivial hheeded

/-- **When no notification is lost.**  In a run of heeded steps none is, and a further step is
heeded exactly if none is lost in whatever heeded steps follow it. -/
theorem not_lost_and_heeded_iff {running : Bool} {s : State}
    (hs : Reach next Heeded (.init running) s) :
    ¬ Lost s ∧ ∀ a s', next a s = some s' →
      (Heeded s a ↔ ∀ s'', Reach next Heeded s' s'' → ¬ Lost s'') := by
  refine ⟨(inv_of_reach hs).not_lost, ?_⟩
  intro a s' hnext
  constructor
  · intro hheeded s'' hreach
    exact (inv_of_reach ((hs.tail hheeded hnext).trans hreach)).not_lost
  · intro hnone
    by_contra hheeded
    obtain ⟨hwas, rfl⟩ := next_eq_some_iff.mp hnext
    obtain ⟨s'', hreach, hlost⟩ := exists_lost hheeded hwas
    exact hnone s'' hreach hlost

/-- A thread that is blocked when `Stop` stores its flag. -/
theorem not_lost_and_heeded_iff_blocked :
    ∃ s, Reach next Heeded (.init true) s ∧ s.phase = .blocked ∧ .set false ∈ s.calls ∧
      ¬ Lost s ∧ ∀ a s', next a s = some s' →
        (Heeded s a ↔ ∀ s'', Reach next Heeded s' s'' → ¬ Lost s'') := by
  obtain ⟨s, hs, hseen⟩ := exists_reach_of_follow next Heeded
    [.enter .wait, .clear, .lock, .evaluate, .block, .store (.set false)] (.init true)
    (fun s => decide (s.phase = .blocked ∧ .set false ∈ s.calls)) (by decide +kernel)
  obtain ⟨hblocked, hcall⟩ := of_decide_eq_true hseen
  exact ⟨s, hs, hblocked, hcall, not_lost_and_heeded_iff hs⟩

/-- **Notifications are lost.**  `Stop` stores its flag and notifies after the looping thread
has evaluated its predicate and before it blocks.  `WakeUp` does so after the looping thread
has tested `running_` and before it clears `wake_up_flag_`.  No call is under way after that. -/
theorem stop_lost_and_wakeUp_lost :
    (∃ s, Reach next (fun _ _ => True) (.init true) s ∧ s.calls = [] ∧ s.phase = .blocked ∧
      s.stopped = true) ∧
    ∃ s, Reach next (fun _ _ => True) (.init true) s ∧ s.calls = [] ∧ s.phase = .blocked ∧
      s.woken = true := by
  constructor
  · obtain ⟨s, hs, hseen⟩ := exists_reach_of_follow next (fun _ _ => True)
      [.enter .wait, .clear, .lock, .evaluate, .store (.set false), .notify (.set false), .block]
      (.init true) (fun s => decide (s.calls = [] ∧ s.phase = .blocked ∧ s.stopped = true))
      (by decide +kernel)
    exact ⟨s, hs, of_decide_eq_true hseen⟩
  · obtain ⟨s, hs, hseen⟩ := exists_reach_of_follow next (fun _ _ => True)
      [.enter .sleep, .store .wakeUp, .notify .wakeUp, .clear, .lock, .evaluate, .block]
      (.init true) (fun s => decide (s.calls = [] ∧ s.phase = .blocked ∧ s.woken = true))
      (by decide +kernel)
    exact ⟨s, hs, of_decide_eq_true hseen⟩

end Rtp.Common.ThreadRunningChecker
