import Mathlib.Data.List.Basic

/-!
# Runs of calls

A component that is called again and again: `step c s` is the result of the call `c` in
the state `s` with the state after it, or a fault.  A run is a list of calls; what it
leaves behind is its *history*, the calls with their results.

* `run` — all calls in order; `run_append` — one run after another.
* `Along` — every call of a run meets a condition in the state it is made in.
* `invariant_of_run` — an invariant of histories and states that every call keeps.
* `run_of_along` — **the induction rule**: an invariant of histories and states that
  every call meeting the condition keeps, and does not fault on, holds at the end of
  every run whose calls all meet the condition.
* `along_of` — the converse use: a condition that follows, call by call, from what is
  known about the run.
* `run_simulates` — **the rule for simulations**: two components that answer every call
  alike in related states leave the same history behind.
-/

namespace Rtp.Run

variable {S C R E : Type*} (step : C → S → Except E (R × S))

/-- The calls of a list in order, with the history and the state they lead to. -/
def run : List C → S → Except E (List (C × R) × S)
  | [], s => .ok ([], s)
  | c :: cs, s =>
    match step c s with
    | .error e => .error e
    | .ok (r, s') =>
      match run cs s' with
      | .error e => .error e
      | .ok (h, s'') => .ok ((c, r) :: h, s'')

/-- Every call meets the condition `P` in the state it is made in. -/
def Along (P : S → C → Prop) : List C → S → Prop
  | [], _ => True
  | c :: cs, s => P s c ∧ ∀ r s', step c s = .ok (r, s') → Along P cs s'

instance decidableAlong {P : S → C → Prop} [∀ s c, Decidable (P s c)] :
    (cs : List C) → (s : S) → Decidable (Along step P cs s)
  | [], _ => isTrue trivial
  | c :: cs, s =>
    match h : step c s with
    | .error _ => decidable_of_iff (P s c)
        ⟨fun hp => ⟨hp, fun _ _ h' => absurd (h.symm.trans h') (by simp)⟩, And.left⟩
    | .ok (r, s') =>
      have : Decidable (Along step P cs s') := decidableAlong cs s'
      decidable_of_iff (P s c ∧ Along step P cs s')
        ⟨fun hp => ⟨hp.1, fun r₁ s₁ h' => by
          rw [h, Except.ok.injEq, Prod.mk.injEq] at h'
          exact h'.2 ▸ hp.2⟩, fun hp => ⟨hp.1, hp.2 r s' h⟩⟩

variable {step}

variable {s s' : S} {c : C}

theorem run_cons_of_ok {r : R} (h : step c s = .ok (r, s')) (cs : List C) : run step (c :: cs) s =
      match run step cs s' with
      | .error e => .error e
      | .ok (h, s'') => .ok ((c, r) :: h, s'') := by
  rw [run, h]

theorem run_singleton {r : R} (h : step c s = .ok (r, s')) :
    run step [c] s = .ok ([(c, r)], s') := by
  rw [run_cons_of_ok h]; rfl

variable {h : List (C × R)} {cs : List C}

/-- A run of a call and those after it. -/
theorem run_cons_eq_ok (hc : run step (c :: cs) s = .ok (h, s')) :
    ∃ r s₁ h₁, step c s = .ok (r, s₁) ∧ run step cs s₁ = .ok (h₁, s') ∧ h = (c, r) :: h₁ := by
  cases hstep : step c s with
  | error e => rw [run, hstep] at hc; simp at hc
  | ok p =>
    obtain ⟨r, s₁⟩ := p
    rw [run_cons_of_ok hstep] at hc
    cases hrun : run step cs s₁ with
    | error e => rw [hrun] at hc; simp at hc
    | ok q =>
      obtain ⟨h₁, s₂⟩ := q
      rw [hrun] at hc
      simp only [Except.ok.injEq, Prod.mk.injEq] at hc
      obtain ⟨rfl, rfl⟩ := hc
      exact ⟨r, s₁, h₁, rfl, hrun, rfl⟩

variable (step) in
/-- A run that is carried out, and what is seen at its end. -/
theorem exists_run_of_any (cs : List C) (s : S) (f : S → Bool)
    (h : (run step cs s).toOption.any (fun q => f q.2) = true) :
    ∃ hist s', run step cs s = .ok (hist, s') ∧ f s' = true := by
  cases hrun : run step cs s with
  | error e => rw [hrun] at h; exact absurd h Bool.false_ne_true
  | ok q => rw [hrun] at h; exact ⟨q.1, q.2, rfl, h⟩

/-- One run after another. -/
theorem run_append {cs ds : List C} {s s' s'' : S} {h h' : List (C × R)}
    (hc : run step cs s = .ok (h, s')) (hd : run step ds s' = .ok (h', s'')) :
    run step (cs ++ ds) s = .ok (h ++ h', s'') := by
  induction cs generalizing s h with
  | nil =>
    rw [run, Except.ok.injEq, Prod.mk.injEq] at hc
    rw [← hc.1, List.nil_append, List.nil_append, hc.2, hd]
  | cons c cs ih =>
    obtain ⟨r, s₁, h₁, hstep, hrun, rfl⟩ := run_cons_eq_ok hc
    rw [List.cons_append, run_cons_of_ok hstep, ih hrun]
    rfl

/-- The calls of a history are those of its run. -/
theorem map_fst_history (hc : run step cs s = .ok (h, s')) : h.map Prod.fst = cs := by
  induction cs generalizing s h with
  | nil =>
    rw [run, Except.ok.injEq, Prod.mk.injEq] at hc
    rw [← hc.1]; rfl
  | cons c cs ih =>
    obtain ⟨r, s₁, h₁, -, hrun, rfl⟩ := run_cons_eq_ok hc
    rw [List.map_cons, ih hrun]

/-- An invariant that every call keeps holds at the end of every run that is carried out. -/
theorem invariant_of_run {I : List (C × R) → S → Prop}
    (hstep : ∀ h s c r s', I h s → step c s = .ok (r, s') → I (h ++ [(c, r)]) s')
    {h h' : List (C × R)} (hinv : I h s) (hrun : run step cs s = .ok (h', s')) :
    I (h ++ h') s' := by
  induction cs generalizing h h' s with
  | nil =>
    rw [run, Except.ok.injEq, Prod.mk.injEq] at hrun
    rwa [← hrun.1, ← hrun.2, List.append_nil]
  | cons c cs ih =>
    obtain ⟨r, s₁, h₁, hc, hcs, rfl⟩ := run_cons_eq_ok hrun
    have := ih (hstep h s c r s₁ hinv hc) hcs
    rwa [List.append_assoc] at this

section Along

variable {P : S → C → Prop} {I : List (C × R) → S → Prop}
  (hstep : ∀ h s c, I h s → P s c → ∃ r s', step c s = .ok (r, s') ∧ I (h ++ [(c, r)]) s')

include hstep

/-- The first calls of a run are carried out, and the rest of it meets the condition. -/
theorem run_append_of_along {cs ds : List C} {s : S} (hinv : I h s)
    (hP : Along step P (cs ++ ds) s) :
    ∃ h' s', run step cs s = .ok (h', s') ∧ I (h ++ h') s' ∧ Along step P ds s' := by
  induction cs generalizing h s with
  | nil => exact ⟨[], s, rfl, by rwa [List.append_nil], hP⟩
  | cons c cs ih =>
    obtain ⟨r, s₁, hok, hinv₁⟩ := hstep h s c hinv hP.1
    obtain ⟨h', s', hrun, hinv', hrest⟩ := ih hinv₁ (hP.2 r s₁ hok)
    refine ⟨(c, r) :: h', s', ?_, by simpa using hinv', hrest⟩
    rw [run_cons_of_ok hok, hrun]

/-- **The induction rule for runs.** -/
theorem run_of_along {s : S} (hinv : I h s) (hP : Along step P cs s) :
    ∃ h' s', run step cs s = .ok (h', s') ∧ I (h ++ h') s' := by
  rw [← List.append_nil cs] at hP
  obtain ⟨h', s', hrun, hinv', -⟩ := run_append_of_along hstep hinv hP
  exact ⟨h', s', hrun, hinv'⟩

/-- The same for the calls before a given one, together with the condition on that
one. -/
theorem run_before_of_along {cs ds : List C} {s : S} (hinv : I h s)
    (hP : Along step P (cs ++ c :: ds) s) :
    ∃ h' s', run step cs s = .ok (h', s') ∧ I (h ++ h') s' ∧ P s' c := by
  obtain ⟨h', s', hrun, hinv', hc, -⟩ := run_append_of_along hstep hinv hP
  exact ⟨h', s', hrun, hinv', hc⟩

end Along

/-- A condition on the calls alone. -/
theorem along_of_forall {P : S → C → Prop} {s : S} (h : ∀ s c, P s c) : Along step P cs s := by
  induction cs generalizing s with
  | nil => trivial
  | cons c cs ih => exact ⟨h s c, fun _ _ _ => ih⟩

/-- A run that is cut short still meets the condition. -/
theorem Along.take {P : S → C → Prop} {s : S} (h : Along step P cs s) (n : ℕ) :
    Along step P (cs.take n) s := by
  induction cs generalizing s n with
  | nil => rw [List.take_nil]; trivial
  | cons c cs ih =>
    cases n with
    | zero => trivial
    | succ n => exact ⟨h.1, fun r s' hok => ih (h.2 r s' hok) n⟩

/-- A condition that follows from an invariant and the calls still to come is met along
the whole run. -/
theorem along_of {P Q : S → C → Prop} {I : List (C × R) → S → Prop} {l : List C}
    (hQ : ∀ h s c cs, I h s → h.map Prod.fst ++ c :: cs = l → P s c → Q s c)
    (hstep : ∀ h s c r s', I h s → Q s c → step c s = .ok (r, s') → I (h ++ [(c, r)]) s') {s : S}
    (hinv : I h s) (hall : h.map Prod.fst ++ cs = l) (hP : Along step P cs s) :
    Along step Q cs s := by
  induction cs generalizing h s with
  | nil => trivial
  | cons c cs ih =>
    have hq := hQ h s c cs hinv hall hP.1
    exact ⟨hq, fun r s' hok => ih (hstep h s c r s' hinv hq hok) (by simpa using hall)
      (hP.2 r s' hok)⟩

/-- **The rule for simulations.**  Where related states answer every call with the same
result and step to related states again, a run of the one is a run of the other, with the
same history. -/
theorem run_simulates {T : Type*} {step' : C → T → Except E (R × T)} {rel : S → T → Prop}
    (hstep : ∀ c s t, rel s t →
      ∃ r s' t', step c s = .ok (r, s') ∧ step' c t = .ok (r, t') ∧ rel s' t')
    (cs : List C) {s : S} {t : T} (h : rel s t) :
    ∃ hist s' t', run step cs s = .ok (hist, s') ∧ run step' cs t = .ok (hist, t') ∧ rel s' t' := by
  induction cs generalizing s t with
  | nil => exact ⟨[], s, t, rfl, rfl, h⟩
  | cons c cs ih =>
    obtain ⟨r, s₁, t₁, hs, ht, h₁⟩ := hstep c s t h
    obtain ⟨hist, s', t', hrs, hrt, h'⟩ := ih h₁
    refine ⟨(c, r) :: hist, s', t', ?_, ?_, h'⟩
    · rw [run_cons_of_ok hs, hrs]
    · rw [run_cons_of_ok ht, hrt]

end Rtp.Run
