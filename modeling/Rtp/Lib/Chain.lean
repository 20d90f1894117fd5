import Mathlib.Data.List.Iterate
import Mathlib.Data.List.Nodup

/-!
# Chains in a store

Nodes of a store that each name their successor form a chain: the chain of length
`n` from a node `a` is Mathlib's `List.iterate next a n`.  The length is kept apart
from the nodes, so what the last node names is not part of the chain, and an
operation on the store is described by what it does to the successors of the
others.

* `iterate_relabel` — **the chain after a change**: when a relabelling of the nodes
  commutes with taking successors on every node but the last, the new chain is the
  old one relabelled.  With the identity this says which changes leave the chain
  alone (`iterate_congr`).
* `iterate_extend` — the chain made one longer through its last node.
* `eq_of_next_eq`, `next_ne_self` — in a chain without repetitions the successors are
  distinct.
-/

namespace Rtp.Chain

open List

variable {α β : Type*}

theorem iterate_succ (f : α → α) (a : α) (n : ℕ) :
    iterate f a (n + 1) = a :: iterate f (f a) n := rfl

/-- A chain made one longer ends with the successor of its old last node. -/
theorem iterate_snoc (f : α → α) (a : α) (n : ℕ) :
    iterate f a (n + 1) = iterate f a n ++ [f^[n] a] := by
  rw [iterate_add]; rfl

theorem dropLast_iterate (f : α → α) (a : α) (n : ℕ) :
    (iterate f a (n + 1)).dropLast = iterate f a n := by
  rw [iterate_snoc, dropLast_concat]

variable {f : α → α} {n : ℕ}

/-- **The chain after a change of the store.**  Only the successors of the nodes
before the last one matter. -/
theorem iterate_relabel {g : β → β} (ρ : α → β) {a : α}
    (h : ∀ x ∈ (iterate f a n).dropLast, g (ρ x) = ρ (f x)) :
    iterate g (ρ a) n = (iterate f a n).map ρ := by
  induction n generalizing a with
  | zero => rfl
  | succ n ih =>
    rw [iterate_succ, iterate_succ, map_cons]
    cases n with
    | zero => rfl
    | succ n =>
      have ha : g (ρ a) = ρ (f a) := h a (by simp)
      rw [ha, ih fun x hx => h x ?_]
      rw [iterate_succ, dropLast_cons_of_ne_nil (by simp)]
      exact mem_cons_of_mem _ hx

/-- A change that keeps the successors of all nodes but the last keeps the
chain. -/
theorem iterate_congr {f g : α → α} {a : α} (h : ∀ x ∈ (iterate f a n).dropLast, g x = f x) :
    iterate g a n = iterate f a n := by
  simpa using iterate_relabel id h

/-- A chain whose last node gets a new successor, made one longer. -/
theorem iterate_extend {f g : α → α} {a last : α} (hl : (iterate f a n).getLast? = some last)
    (h : ∀ x ∈ (iterate f a n).dropLast, g x = f x) :
    iterate g a (n + 1) = iterate f a n ++ [g last] := by
  have hcongr := iterate_congr h
  cases n with
  | zero => simp [iterate] at hl
  | succ n =>
    rw [← hcongr, iterate_snoc g a n, getLast?_concat, Option.some.injEq] at hl
    rw [iterate_snoc, hcongr, Function.iterate_succ_apply', hl]

/-- A node that is not the last of its chain has its successor in the chain. -/
theorem mem_of_mem_dropLast {a x : α} (h : x ∈ (iterate f a n).dropLast) : f x ∈ iterate f a n := by
  cases n with
  | zero => simp [iterate] at h
  | succ n =>
    rw [dropLast_iterate] at h
    obtain ⟨m, hm, rfl⟩ := mem_iterate.1 h
    exact mem_iterate.2 ⟨m + 1, by omega, (Function.iterate_succ_apply' f m a).symm⟩

theorem index_inj {a : α} {n i j : ℕ} (hnd : (iterate f a n).Nodup) (hi : i < n) (hj : j < n)
    (h : f^[i] a = f^[j] a) : i = j := by
  rw [← range_map_iterate] at hnd
  exact inj_on_of_nodup_map hnd (mem_range.2 hi) (mem_range.2 hj) h

/-- In a chain without repetitions, different nodes before the last have different
successors. -/
theorem eq_of_next_eq {a x y : α} (hnd : (iterate f a n).Nodup) (hx : x ∈ (iterate f a n).dropLast)
    (hy : y ∈ (iterate f a n).dropLast) (h : f x = f y) : x = y := by
  cases n with
  | zero => simp [iterate] at hx
  | succ n =>
    rw [dropLast_iterate] at hx hy
    obtain ⟨i, hi, rfl⟩ := mem_iterate.1 hx
    obtain ⟨j, hj, rfl⟩ := mem_iterate.1 hy
    rw [← Function.iterate_succ_apply' f, ← Function.iterate_succ_apply' f] at h
    rw [Nat.succ_injective (index_inj hnd (Nat.succ_lt_succ hi) (Nat.succ_lt_succ hj) h)]

/-- In a chain without repetitions, no node before the last is its own successor. -/
theorem next_ne_self {a x : α} (hnd : (iterate f a n).Nodup) (hx : x ∈ (iterate f a n).dropLast) :
    f x ≠ x := by
  cases n with
  | zero => simp [iterate] at hx
  | succ n =>
    rw [dropLast_iterate] at hx
    obtain ⟨i, hi, rfl⟩ := mem_iterate.1 hx
    rw [← Function.iterate_succ_apply' f]
    intro h
    exact Nat.succ_ne_self i (index_inj hnd (Nat.succ_lt_succ hi) (by omega) h)

end Rtp.Chain
