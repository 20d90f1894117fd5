import Rtp.Lib.Bytes

/-!
# Bytes at addresses

A memory that has a byte at every address, with parts that are read and written as a whole.

* `slice`, `load` — some bytes from a position on, and the number in them.
* `store` — bytes written from a position on; the rest stays (`store_of_outside`).
* `slice_store_self`, `slice_store_of_disjoint` — **what is read after a write**.
* `load_store_self`, `load_eq_zero` — numbers that were written, and zeros.
-/

namespace Rtp.Memory

open Bytes

variable {memory memory' : ℕ → BitVec 8} {position position' n : ℕ} {data : List (BitVec 8)}

/-- Some bytes from a position on. -/
def slice (memory : ℕ → BitVec 8) (position n : ℕ) : List (BitVec 8) :=
  (List.range n).map fun i => memory (position + i)

/-- The number in some bytes, least significant first. -/
def load (w : ℕ) (memory : ℕ → BitVec 8) (position : ℕ) : ℕ := ofLE (slice memory position w)

/-- Bytes written from a position on. -/
def store (position : ℕ) (data : List (BitVec 8)) (memory : ℕ → BitVec 8) : ℕ → BitVec 8 :=
  fun a => if position ≤ a then (data[a - position]?).getD (memory a) else memory a

@[simp] theorem length_slice (memory : ℕ → BitVec 8) (position n : ℕ) :
    (slice memory position n).length = n := by
  simp [slice]

/-- Equal bytes are read as equal. -/
theorem slice_congr (h : ∀ a, position ≤ a → a < position + n → memory a = memory' a) :
    slice memory position n = slice memory' position n := by
  refine List.map_congr_left fun i hi => ?_
  rw [List.mem_range] at hi
  exact h _ (Nat.le_add_right _ _) (Nat.add_lt_add_left hi _)

theorem load_congr {w : ℕ} (h : ∀ a, position ≤ a → a < position + w → memory a = memory' a) :
    load w memory position = load w memory' position := by
  rw [load, load, slice_congr h]

theorem slice_add (memory : ℕ → BitVec 8) (position n k : ℕ) :
    slice memory position (n + k) = slice memory position n ++ slice memory (position + n) k := by
  unfold slice
  rw [List.range_add, List.map_append, List.map_map]
  refine congrArg _ (List.map_congr_left fun i _ => ?_)
  show memory (position + (n + i)) = memory (position + n + i)
  rw [Nat.add_assoc]

/-! ## After a write -/

theorem store_of_outside {a : ℕ} (h : a < position ∨ position + data.length ≤ a) :
    store position data memory a = memory a := by
  unfold store
  split
  next hle =>
    rw [List.getElem?_eq_none (by omega)]
    rfl
  next => rfl

theorem slice_store_self (position : ℕ) (data : List (BitVec 8)) (memory : ℕ → BitVec 8) :
    slice (store position data memory) position data.length = data := by
  apply List.ext_getElem
  · simp
  · intro i hi hdata
    simp [slice, store, hdata]

theorem slice_store_of_disjoint
    (h : position' + n ≤ position ∨ position + data.length ≤ position') :
    slice (store position data memory) position' n = slice memory position' n := by
  apply slice_congr
  intro a hle hlt
  exact store_of_outside (by omega)

theorem load_store_self (w k : ℕ) (position : ℕ) (memory : ℕ → BitVec 8) :
    load w (store position (toLE w k) memory) position = k % 256 ^ w := by
  have hslice := slice_store_self position (toLE w k) memory
  rw [length_toLE] at hslice
  rw [load, hslice, ofLE_toLE]

theorem load_store_of_disjoint {w : ℕ}
    (h : position' + w ≤ position ∨ position + data.length ≤ position') :
    load w (store position data memory) position' = load w memory position' := by
  rw [load, load, slice_store_of_disjoint h]

/-! ## Zeros -/

theorem ofLE_replicate_zero (w : ℕ) : ofLE (List.replicate w 0) = 0 := by
  induction w with
  | zero => rfl
  | succ w ih =>
    rw [List.replicate_succ, ofLE, ih]
    rfl

theorem slice_eq_replicate (h : ∀ a, position ≤ a → a < position + n → memory a = 0) :
    slice memory position n = List.replicate n 0 := by
  apply List.ext_getElem
  · simp
  · intro i hi _
    rw [length_slice] at hi
    simp only [slice, List.getElem_map, List.getElem_range, List.getElem_replicate]
    exact h _ (Nat.le_add_right _ _) (Nat.add_lt_add_left hi _)

theorem load_eq_zero {w : ℕ} (h : ∀ a, position ≤ a → a < position + w → memory a = 0) :
    load w memory position = 0 := by
  rw [load, slice_eq_replicate h, ofLE_replicate_zero]

end Rtp.Memory
