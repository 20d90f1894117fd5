import Mathlib.Logic.Relation
import Mathlib.Tactic.Common

/-!
# Reachable states

A system whose actions are interleaved in any order: `next a s` is the state after the
action `a`, or nothing where `a` cannot be taken in `s`.

* `Reach` — the states that actions lead to which all meet a condition in the state they
  are taken in.
* `Reach.invariant` — **the invariant rule**.
* `follow`, `exists_reach_of_follow` — a list of actions, checked and taken one after the
  other, shows a state to be reachable.
-/

namespace Rtp

variable {S A : Type*} (next : A → S → Option S) (P : S → A → Prop)

/-- One action that meets the condition. -/
def Moves (s s' : S) : Prop := ∃ a, P s a ∧ next a s = some s'

/-- `Reach next P s s'`: actions that all meet `P` lead from `s` to `s'`. -/
def Reach : S → S → Prop := Relation.ReflTransGen (Moves next P)

/-- The actions of a list in order; nothing when one of them cannot be taken or misses
the condition. -/
def follow [∀ s a, Decidable (P s a)] : List A → S → Option S
  | [], s => some s
  | a :: l, s => if P s a then (next a s).bind (follow l) else none

variable {next P}

theorem Reach.refl (s : S) : Reach next P s s := Relation.ReflTransGen.refl

theorem Reach.tail {s s' s'' : S} {a : A} (h : Reach next P s s') (hP : P s' a)
    (ha : next a s' = some s'') : Reach next P s s'' :=
  Relation.ReflTransGen.tail h ⟨a, hP, ha⟩

theorem Reach.trans {s s' s'' : S} (h : Reach next P s s') (h' : Reach next P s' s'') :
    Reach next P s s'' :=
  Relation.ReflTransGen.trans h h'

/-- A weaker condition. -/
theorem Reach.mono {Q : S → A → Prop} {s s' : S} (h : Reach next P s s')
    (hPQ : ∀ s a, P s a → Q s a) : Reach next Q s s' := by
  induction h with
  | refl => exact Reach.refl s
  | tail _ hmove ih =>
    obtain ⟨a, hP, ha⟩ := hmove
    exact ih.tail (hPQ _ a hP) ha

/-- **The invariant rule.**  What holds at the start and is kept by every action that
meets the condition holds in every state reached. -/
theorem Reach.invariant {I : S → Prop} {s s' : S} (h : Reach next P s s') (hs : I s)
    (hstep : ∀ s a s', I s → P s a → next a s = some s' → I s') : I s' := by
  induction h with
  | refl => exact hs
  | tail _ hmove ih =>
    obtain ⟨a, hP, ha⟩ := hmove
    exact hstep _ a _ ih hP ha

theorem reach_of_follow [∀ s a, Decidable (P s a)] {l : List A} {s s' : S}
    (h : follow next P l s = some s') : Reach next P s s' := by
  induction l generalizing s with
  | nil =>
    rw [follow, Option.some.injEq] at h
    exact h ▸ Reach.refl s
  | cons a l ih =>
    rw [follow] at h
    split at h
    next hP =>
      obtain ⟨s₁, ha, h⟩ := Option.bind_eq_some_iff.1 h
      exact ((Reach.refl s).tail hP ha).trans (ih h)
    next => simp at h

variable (next P) in
/-- A list of actions that can be taken in order, and what is seen after them. -/
theorem exists_reach_of_follow [∀ s a, Decidable (P s a)] (l : List A) (s : S) (f : S → Bool)
    (h : (follow next P l s).any f = true) : ∃ s', Reach next P s s' ∧ f s' = true := by
  cases hs : follow next P l s with
  | none => rw [hs] at h; simp at h
  | some s' =>
    rw [hs] at h
    exact ⟨s', reach_of_follow hs, h⟩

end Rtp
