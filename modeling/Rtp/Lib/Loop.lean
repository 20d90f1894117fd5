import Mathlib.Order.Basic
import Mathlib.Tactic.Common

/-!
# Loops

A loop of an imperative program: its body takes the state to the state of the next round, or
out of the loop with a result.  Nothing says that it comes to an end.

* `Returns` — the loop ends, and with which result; `Returns.unique` — there is only one.
* `exists_returns` — **total correctness**: an invariant that holds at the start of every round
  and a number that gets smaller with every round.
* `not_returns` — an invariant under which no round is the last.
-/

namespace Rtp.Loop

variable {S R : Type*} {body : S → S ⊕ R} {s s' : S} {r r' : R}

/-- Started in the state `s`, the loop returns `r`. -/
inductive Returns (body : S → S ⊕ R) : S → R → Prop
  | done {s : S} {r : R} (h : body s = .inr r) : Returns body s r
  | again {s s' : S} {r : R} (h : body s = .inl s') (hr : Returns body s' r) : Returns body s r

theorem Returns.unique (h : Returns body s r) (h' : Returns body s r') : r = r' := by
  induction h with
  | done h =>
    cases h' with
    | done h' => exact Sum.inr.inj (h.symm.trans h')
    | again h' _ => exact absurd (h.symm.trans h') (by simp)
  | again h _ ih =>
    cases h' with
    | done h' => exact absurd (h.symm.trans h') (by simp)
    | again h' hr' =>
      obtain rfl := Sum.inl.inj (h.symm.trans h')
      exact ih hr'

theorem Returns.iff_eq (h : Returns body s r) : Returns body s r' ↔ r' = r :=
  ⟨fun h' => h'.unique h, fun heq => heq ▸ h⟩

/-- The rule for total correctness.  In a state with the invariant the body leaves the loop with
a result as wanted, or keeps the invariant with a smaller variant, and then what is wanted of the
next round is enough for this one. -/
theorem exists_returns {Inv : S → Prop} {Post : S → R → Prop} (variant : S → ℕ)
    (h : ∀ s, Inv s → (∃ r, body s = .inr r ∧ Post s r) ∨
      ∃ s', body s = .inl s' ∧ Inv s' ∧ variant s' < variant s ∧ ∀ r, Post s' r → Post s r)
    (hs : Inv s) : ∃ r, Returns body s r ∧ Post s r := by
  induction hn : variant s using Nat.strongRecOn generalizing s with
  | ind n ih =>
    rcases h s hs with ⟨r, hr, hpost⟩ | ⟨s', hs', hinv, hlt, himp⟩
    · exact ⟨r, .done hr, hpost⟩
    · obtain ⟨r, hr, hpost⟩ := ih (variant s') (hn ▸ hlt) hinv rfl
      exact ⟨r, .again hs' hr, himp r hpost⟩

/-- A loop that goes into another round whenever the invariant holds does not return. -/
theorem not_returns {Inv : S → Prop} (h : ∀ s, Inv s → ∃ s', body s = .inl s' ∧ Inv s')
    (hs : Inv s) : ¬Returns body s r := by
  intro hr
  induction hr with
  | done heq =>
    obtain ⟨s', hs', -⟩ := h _ hs
    exact absurd (heq.symm.trans hs') (by simp)
  | again heq _ ih =>
    obtain ⟨s', hs', hinv⟩ := h _ hs
    exact ih (Sum.inl.inj (heq.symm.trans hs') ▸ hinv)

end Rtp.Loop
