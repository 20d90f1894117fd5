import Mathlib.Data.List.Basic

/-!
# Ring buffers

A queue of bounded size in an array: items are written at the back and read at the front, and
both places start again from the first slot after the last one.

* `Ring` — a ring buffer, with what makes it one.
* `Ring.toList` — the queue it holds.
* `Ring.tryPush`, `Ring.tryPop` — the operations, which fail on a full and on an empty buffer.
* `toList_of_tryPush`, `toList_of_tryPop` — **a ring buffer is a queue**: what is pushed comes to
  its end, what is popped is its first item.
* `Ring.tryPopLeaving` — an item that is moved out of its slot, where something else is left.
-/

namespace Rtp

/-- A ring buffer: `size` items from the slot `front` on, up to the slot `back`. -/
structure Ring (α : Type) where
  data : List α
  front : ℕ
  back : ℕ
  size : ℕ
  front_lt : front < data.length
  back_eq : back = (front + size) % data.length
  size_le : size ≤ data.length

namespace Ring

variable {α : Type}

/-- The number of slots. -/
def capacity (r : Ring α) : ℕ := r.data.length

/-- The slot after a slot. -/
def advance (capacity i : ℕ) : ℕ := if i + 1 = capacity then 0 else i + 1

theorem advance_eq_mod {capacity i : ℕ} (h : i < capacity) :
    advance capacity i = (i + 1) % capacity := by
  unfold advance
  split
  next heq => rw [heq, Nat.mod_self]
  next hne => rw [Nat.mod_eq_of_lt (by omega)]

theorem advance_mod {capacity i : ℕ} (h : 0 < capacity) :
    advance capacity (i % capacity) = (i + 1) % capacity := by
  rw [advance_eq_mod (Nat.mod_lt i h), Nat.mod_add_mod]

/-- An item is written at the back, if there is room. -/
def tryPush (a : α) (r : Ring α) : Option (Ring α) :=
  if h : r.size < r.data.length then
    some {
      data := r.data.set r.back a
      front := r.front
      back := advance r.data.length r.back
      size := r.size + 1
      front_lt := by simpa using r.front_lt
      back_eq := by
        rw [r.back_eq, advance_mod (by omega), List.length_set, Nat.add_assoc]
      size_le := by
        rw [List.length_set]
        exact h }
  else none

theorem capacity_of_tryPush {r r' : Ring α} {a : α} (h : r.tryPush a = some r') :
    r'.capacity = r.capacity := by
  unfold tryPush at h
  split at h
  · rw [← Option.some.inj h]
    exact List.length_set
  · simp at h

/-- Less than a round apart, slots are different. -/
theorem mod_ne_mod {front i j capacity : ℕ} (hij : i < j) (hj : j < i + capacity) :
    (front + i) % capacity ≠ (front + j) % capacity := by
  intro heq
  have hmod := Nat.sub_mod_eq_zero_of_mod_eq heq.symm
  have hsub : front + j - (front + i) = j - i := by omega
  rw [hsub, Nat.mod_eq_of_lt (by omega)] at hmod
  omega

/-- The slots of two items are different. -/
theorem slot_ne (r : Ring α) {i : ℕ} (hi : i < r.size) (hroom : r.size < r.data.length) :
    (r.front + i) % r.data.length ≠ (r.front + r.size) % r.data.length :=
  mod_ne_mod hi (by omega)

/-- A slot is written to. -/
def overwrite (i : ℕ) (a : α) (r : Ring α) : Ring α where
  data := r.data.set i a
  front := r.front
  back := r.back
  size := r.size
  front_lt := by simpa using r.front_lt
  back_eq := by simpa using r.back_eq
  size_le := by simpa using r.size_le

section Operations

variable [Inhabited α]

/-- A buffer of some capacity. -/
def new (capacity : ℕ) (h : 0 < capacity) : Ring α where
  data := List.replicate capacity default
  front := 0
  back := 0
  size := 0
  front_lt := by simpa using h
  back_eq := by simp
  size_le := Nat.zero_le _

/-- The item at the front is read, if there is one. -/
def tryPop (r : Ring α) : Option (α × Ring α) :=
  if h : r.size = 0 then none
  else
    some (r.data.getD r.front default, {
      data := r.data
      front := advance r.data.length r.front
      back := r.back
      size := r.size - 1
      front_lt := by
        rw [advance_eq_mod r.front_lt]
        exact Nat.mod_lt _ (Nat.zero_lt_of_lt r.front_lt)
      back_eq := by
        rw [advance_eq_mod r.front_lt, Nat.mod_add_mod, r.back_eq]
        congr 1
        omega
      size_le := by have := r.size_le; omega })

/-- The items, from the front to the back. -/
def toList (r : Ring α) : List α :=
  (List.range r.size).map fun i => r.data.getD ((r.front + i) % r.data.length) default

theorem length_toList (r : Ring α) : r.toList.length = r.size := by
  simp [toList]

theorem length_toList_le (r : Ring α) : r.toList.length ≤ r.capacity := by
  rw [length_toList]
  exact r.size_le

@[simp] theorem toList_new (capacity : ℕ) (h : 0 < capacity) :
    (new capacity h : Ring α).toList = [] := rfl

@[simp] theorem capacity_new (n : ℕ) (h : 0 < n) : (new n h : Ring α).capacity = n := by
  simp [new, capacity]

variable {r r' : Ring α} {a : α}

theorem toList_of_tryPush (h : r.tryPush a = some r') : r'.toList = r.toList ++ [a] := by
  unfold tryPush at h
  split at h
  next hroom =>
    have hpos : 0 < r.data.length := by omega
    rw [← Option.some.inj h]
    unfold toList
    simp only [List.range_succ, List.map_append, List.map_cons, List.map_nil, List.length_set]
    congr 1
    · -- the slots of the items that are there are not written to
      refine List.map_congr_left fun i hi => ?_
      rw [List.mem_range] at hi
      have hne := slot_ne r hi hroom
      rw [← r.back_eq] at hne
      rw [List.getD_eq_getElem?_getD, List.getD_eq_getElem?_getD, List.getElem?_set_ne hne.symm]
    · rw [← r.back_eq, List.getD_eq_getElem?_getD, List.getElem?_set_self]
      · rfl
      · rw [r.back_eq]
        exact Nat.mod_lt _ hpos
  · simp at h

theorem tryPush_eq_none_iff : r.tryPush a = none ↔ r.capacity ≤ r.toList.length := by
  rw [length_toList, tryPush, dite_eq_right_iff]
  refine ⟨fun h => Nat.not_lt.mp fun hlt => ?_, fun h hlt => absurd hlt (Nat.not_lt.mpr h)⟩
  exact absurd (h hlt) (by simp)

theorem exists_tryPush (h : r.toList.length < r.capacity) (a : α) :
    ∃ r', r.tryPush a = some r' := by
  rw [length_toList] at h
  exact ⟨_, dif_pos h⟩

theorem toList_of_tryPop (h : r.tryPop = some (a, r')) : r.toList = a :: r'.toList := by
  unfold tryPop at h
  split at h
  · simp at h
  next hsize =>
    obtain ⟨rfl, rfl⟩ := Prod.mk.inj (Option.some.inj h)
    obtain ⟨n, hn⟩ := Nat.exists_eq_succ_of_ne_zero hsize
    unfold toList
    simp only [hn, Nat.succ_eq_add_one, Nat.add_sub_cancel, List.range_succ_eq_map, List.map_cons,
      List.map_map, Nat.add_zero, Nat.mod_eq_of_lt r.front_lt]
    congr 1
    refine List.map_congr_left fun i _ => ?_
    simp only [Function.comp_apply, advance_eq_mod r.front_lt, Nat.mod_add_mod]
    congr 2
    omega

theorem capacity_of_tryPop (h : r.tryPop = some (a, r')) : r'.capacity = r.capacity := by
  unfold tryPop at h
  split at h
  · simp at h
  · obtain ⟨-, rfl⟩ := Prod.mk.inj (Option.some.inj h)
    rfl

/-- A slot without an item may be written to. -/
theorem toList_overwrite {i : ℕ} (h : ∀ k < r.size, (r.front + k) % r.data.length ≠ i) :
    (r.overwrite i a).toList = r.toList := by
  unfold toList overwrite
  refine List.map_congr_left fun k hk => ?_
  rw [List.mem_range] at hk
  rw [List.length_set, List.getD_eq_getElem?_getD, List.getD_eq_getElem?_getD,
    List.getElem?_set_ne (h k hk).symm]

/-- The item at the front is read, and something else is left in its slot. -/
def tryPopLeaving (left : α) (r : Ring α) : Option (α × Ring α) :=
  r.tryPop.map fun (a, r') => (a, r'.overwrite r.front left)

theorem toList_of_tryPopLeaving {left : α} (h : r.tryPopLeaving left = some (a, r')) :
    r.toList = a :: r'.toList := by
  obtain ⟨⟨b, r₁⟩, hpop, heq⟩ := Option.map_eq_some_iff.mp h
  obtain ⟨rfl, rfl⟩ := Prod.mk.inj heq
  rw [toList_of_tryPop hpop, toList_overwrite]
  intro k hk
  -- the slots of the other items come after the one that was read
  unfold tryPop at hpop
  split at hpop
  · simp at hpop
  · obtain ⟨-, rfl⟩ := Prod.mk.inj (Option.some.inj hpop)
    have hsize := r.size_le
    have hlt : k < r.size - 1 := hk
    have hne : (r.front + 0) % r.data.length ≠ (r.front + (1 + k)) % r.data.length :=
      mod_ne_mod (by omega) (by omega)
    rw [Nat.add_zero, Nat.mod_eq_of_lt r.front_lt] at hne
    show (advance r.data.length r.front + k) % r.data.length ≠ r.front
    rw [advance_eq_mod r.front_lt, Nat.mod_add_mod, Nat.add_assoc]
    exact hne.symm

theorem exists_tryPop (h : r.toList ≠ []) : ∃ a r', r.tryPop = some (a, r') := by
  have hsize : r.size ≠ 0 := by
    rw [← length_toList]
    exact fun hlen => h (List.length_eq_zero_iff.1 hlen)
  unfold tryPop
  rw [dif_neg hsize]
  exact ⟨_, _, rfl⟩

end Rtp.Ring.Operations
