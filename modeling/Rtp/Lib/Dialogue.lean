import Mathlib.Data.List.Basic
import Mathlib.Tactic.Cases

/-!
# Dialogues: machines that name an action and wait for a Boolean answer

A *dialogue machine* is in one of three situations whenever it is looked at:
it has stopped, or it names the action it wants performed and waits for the
Boolean result, which decides where it goes next.  A control-flow graph whose
nodes are handlers is such a machine, and so is a structured program over the
same handlers; what both mean is the sequence of names they ask for against a
given stream of answers.

* `names`, `stops` — the first `n` actions asked for against a stream of
  answers, and whether the machine has stopped within `n` of them.
* `SameRuns` — two states ask for the same actions and stop together, against
  every stream of answers and at every length.
* `sameRuns_of_bisim` — **the proof rule**: a relation that is kept by one
  question and one answer relates only states with the same runs.
* `sameRuns_step` — the converse: having the same runs is itself kept by one
  question and one answer, so it can be followed along any path (`follow`).
-/

namespace Rtp.Dialogue

/-- A machine that either stops or asks for the action `ν` and continues
according to the answer. -/
structure Machine (S ν : Type*) where
  /-- `none` when the machine has stopped, and otherwise the action asked for
  together with the state each answer leads to. -/
  next : S → Option (ν × (Bool → S))

variable {S T ν : Type*}

namespace Machine

/-- The first `n` actions asked for, against the answers `r 0, r 1, …`. -/
def names (M : Machine S ν) (r : ℕ → Bool) : ℕ → S → List ν
  | 0, _ => []
  | n + 1, s =>
    match M.next s with
    | none => []
    | some (a, f) => a :: M.names (fun i => r (i + 1)) n (f (r 0))

/-- Has the machine stopped after at most `n` answers? -/
def stops (M : Machine S ν) (r : ℕ → Bool) : ℕ → S → Bool
  | 0, s => (M.next s).isNone
  | n + 1, s =>
    match M.next s with
    | none => true
    | some (_, f) => M.stops (fun i => r (i + 1)) n (f (r 0))

/-- The state a finite list of answers leads to, if the machine asks for that
many. -/
def follow (M : Machine S ν) : List Bool → S → Option S
  | [], s => some s
  | b :: w, s =>
    match M.next s with
    | none => none
    | some (_, f) => M.follow w (f b)

variable (M : Machine S ν)

theorem names_of_none {s : S} (h : M.next s = none) (r : ℕ → Bool) (n : ℕ) :
    M.names r n s = [] := by
  cases n with
  | zero => rfl
  | succ n => rw [names, h]

theorem names_of_some {s : S} {a : ν} {f : Bool → S} (h : M.next s = some (a, f))
    (r : ℕ → Bool) (n : ℕ) :
    M.names r (n + 1) s = a :: M.names (fun i => r (i + 1)) n (f (r 0)) := by
  rw [names, h]

theorem stops_of_none {s : S} (h : M.next s = none) (r : ℕ → Bool) (n : ℕ) :
    M.stops r n s = true := by
  cases n with
  | zero => rw [stops, h]; rfl
  | succ n => rw [stops, h]

theorem stops_of_some {s : S} {a : ν} {f : Bool → S} (h : M.next s = some (a, f))
    (r : ℕ → Bool) (n : ℕ) :
    M.stops r (n + 1) s = M.stops (fun i => r (i + 1)) n (f (r 0)) := by
  rw [stops, h]

theorem follow_append (w w' : List Bool) (s : S) :
    M.follow (w ++ w') s = (M.follow w s).bind (M.follow w') := by
  induction w generalizing s with
  | nil => rfl
  | cons b w ih =>
    rw [List.cons_append, follow, follow]
    cases M.next s with
    | none => rfl
    | some q => exact ih _

end Machine

/-! ## Same runs -/

/-- What one question and answer must look like on both sides for a relation to
be kept: both machines have stopped, or both ask for the same action and every
answer leads to related states. -/
inductive StepRel (R : S → T → Prop) :
    Option (ν × (Bool → S)) → Option (ν × (Bool → T)) → Prop
  | stop : StepRel R none none
  | ask (a : ν) {f : Bool → S} {g : Bool → T} (h : ∀ b, R (f b) (g b)) :
      StepRel R (some (a, f)) (some (a, g))

/-- What a kept relation says about one question, in a form that can be
rewritten with. -/
theorem StepRel.elim {R : S → T → Prop} {x : Option (ν × (Bool → S))}
    {y : Option (ν × (Bool → T))} (h : StepRel R x y) :
    (x = none ∧ y = none) ∨ ∃ a f g, x = some (a, f) ∧ y = some (a, g) ∧ ∀ b, R (f b) (g b) := by
  cases h with
  | stop => exact .inl ⟨rfl, rfl⟩
  | ask a h => exact .inr ⟨a, _, _, rfl, rfl, h⟩

/-- Two states have the same runs: against every stream of answers they ask for
the same actions and stop after the same number of them. -/
def SameRuns (M : Machine S ν) (N : Machine T ν) (s : S) (t : T) : Prop :=
  ∀ (r : ℕ → Bool) (n : ℕ), M.names r n s = N.names r n t ∧ M.stops r n s = N.stops r n t

variable {M : Machine S ν} {N : Machine T ν} {s : S} {t : T}

theorem SameRuns.symm (h : SameRuns M N s t) : SameRuns N M t s :=
  fun r n => ⟨(h r n).1.symm, (h r n).2.symm⟩

theorem SameRuns.trans {U : Type*} {O : Machine U ν} {u : U} (h : SameRuns M N s t)
    (h' : SameRuns N O t u) : SameRuns M O s u :=
  fun r n => ⟨(h r n).1.trans (h' r n).1, (h r n).2.trans (h' r n).2⟩

/-- **The bisimulation rule.**  A relation kept by one question and one answer
relates only states with the same runs. -/
theorem sameRuns_of_bisim {R : S → T → Prop} (hR : ∀ s t, R s t → StepRel R (M.next s) (N.next t))
    (h : R s t) : SameRuns M N s t := by
  intro r n
  induction n generalizing r s t with
  | zero =>
    refine ⟨rfl, ?_⟩
    rw [Machine.stops, Machine.stops]
    rcases (hR s t h).elim with ⟨hs, ht⟩ | ⟨a, f, g, hs, ht, -⟩
    · rw [hs, ht]; rfl
    · rw [hs, ht]; rfl
  | succ n ih =>
    rcases (hR s t h).elim with ⟨hs, ht⟩ | ⟨a, f, g, hs, ht, hfg⟩
    · rw [M.names_of_none hs, N.names_of_none ht, M.stops_of_none hs, N.stops_of_none ht]
      exact ⟨rfl, rfl⟩
    · obtain ⟨hn, hstop⟩ := ih (hfg (r 0)) (fun i => r (i + 1))
      rw [M.names_of_some hs, N.names_of_some ht, M.stops_of_some hs, N.stops_of_some ht]
      exact ⟨congrArg (a :: ·) hn, hstop⟩

/-- Having the same runs is kept by one question and one answer. -/
theorem sameRuns_step (h : SameRuns M N s t) : StepRel (SameRuns M N) (M.next s) (N.next t) := by
  have h0 := (h (fun _ => false) 0).2
  rw [Machine.stops, Machine.stops] at h0
  cases hs : M.next s with
  | none =>
    cases ht : N.next t with
    | none => exact .stop
    | some q => rw [hs, ht] at h0; simp at h0
  | some p =>
    obtain ⟨a, f⟩ := p
    cases ht : N.next t with
    | none => rw [hs, ht] at h0; simp at h0
    | some q =>
      obtain ⟨b, g⟩ := q
      have hab : a = b := by
        have h1 := (h (fun _ => false) 1).1
        rw [M.names_of_some hs, N.names_of_some ht] at h1
        exact (List.cons.inj h1).1
      subst hab
      refine .ask a fun c r n => ?_
      -- put the answer `c` in front of the stream and look one action further
      have hc := h (fun i => Nat.casesOn i c r) (n + 1)
      rw [M.names_of_some hs, N.names_of_some ht, M.stops_of_some hs, N.stops_of_some ht] at hc
      exact ⟨(List.cons.inj hc.1).2, hc.2⟩

/-- States with the same runs can be followed along the same answers, and the
states reached have the same runs again. -/
theorem SameRuns.follow {s s' : S} {w : List Bool} (h : SameRuns M N s t)
    (hw : M.follow w s = some s') : ∃ t', N.follow w t = some t' ∧ SameRuns M N s' t' := by
  induction w generalizing s t with
  | nil =>
    rw [Machine.follow, Option.some.injEq] at hw
    subst hw
    exact ⟨t, rfl, h⟩
  | cons b w ih =>
    rw [Machine.follow] at hw ⊢
    rcases (sameRuns_step h).elim with ⟨hs, -⟩ | ⟨a, f, g, hs, ht, hfg⟩
    · rw [hs] at hw; simp at hw
    · rw [hs] at hw
      rw [ht]
      exact ih (hfg b) hw

end Rtp.Dialogue
