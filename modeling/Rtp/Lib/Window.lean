import Mathlib.Order.Lattice
import Mathlib.Tactic.Common

/-!
# A sliding window that forgets one time a call

A queue of times, to which every call adds the present time, and from which it drops the first
time if that is not after the start of the window.  So more and more times may be too old; they
do not matter as long as the queue was short enough before the call.

* `slide` — one call.
* `count` — the times in the window, half-open at the start.
* `Tail` — the queue is the whole history but for early times that are not in the window.
* `Tail.slide` — what a call preserves.
* `Tail.length_slide_le_iff` — **the length of the queue can be compared with a bound** instead of
  the number of times in the window, if it met the bound before.
-/

namespace Rtp.Window

variable {T : Type*} [LinearOrder T]

/-- The time is put at the end of the queue; then the first one is dropped, if it is not after
the start. -/
def slide (start now : T) (queue : List T) : List T :=
  match queue ++ [now] with
  | [] => []
  | first :: rest => if first ≤ start then rest else first :: rest

/-- The number of times in the window. -/
def count (start now : T) (times : List T) : ℕ :=
  times.countP fun t => decide (start < t ∧ t ≤ now)

/-- The queue lacks only early times of the history, in order up to now, which are not after the
start. -/
structure Tail (start now : T) (history queue : List T) : Prop where
  sorted : history.Pairwise (· ≤ ·)
  le_now : ∀ t ∈ history, t ≤ now
  split : ∃ dropped, history = dropped ++ queue ∧ ∀ t ∈ dropped, t ≤ start

variable {start start' now now' : T} {history queue : List T}

theorem Tail.nil (start now : T) : Tail start now [] [] :=
  ⟨List.Pairwise.nil, by simp, [], rfl, by simp⟩

theorem Tail.mono (h : Tail start now history queue) (hstart : start ≤ start')
    (hnow : now ≤ now') : Tail start' now' history queue := by
  obtain ⟨dropped, hsplit, hdropped⟩ := h.split
  exact ⟨h.sorted, fun t ht => (h.le_now t ht).trans hnow, dropped, hsplit,
    fun t ht => (hdropped t ht).trans hstart⟩

theorem slide_eq (start now : T) (queue : List T) : ∃ first rest, queue ++ [now] = first :: rest ∧
    slide start now queue = if first ≤ start then rest else first :: rest := by
  unfold slide
  cases queue with
  | nil => exact ⟨now, [], rfl, rfl⟩
  | cons first rest => exact ⟨first, rest ++ [now], rfl, rfl⟩

theorem Tail.append_now (h : Tail start now history queue) (hnow : now ≤ now') :
    (history ++ [now']).Pairwise (· ≤ ·) ∧ ∀ t ∈ history ++ [now'], t ≤ now' := by
  have hle : ∀ t ∈ history, t ≤ now' := fun t ht => (h.le_now t ht).trans hnow
  constructor
  · rw [List.pairwise_append]
    refine ⟨h.sorted, List.pairwise_singleton _ _, ?_⟩
    intro t ht t' ht'
    rw [List.mem_singleton] at ht'
    rw [ht']
    exact hle t ht
  · intro t ht
    rw [List.mem_append, List.mem_singleton] at ht
    obtain ht | rfl := ht
    · exact hle t ht
    · exact le_rfl

/-- What a call preserves. -/
theorem Tail.slide (h : Tail start now history queue) (hstart : start ≤ start')
    (hnow : now ≤ now') : Tail start' now' (history ++ [now']) (slide start' now' queue) := by
  obtain ⟨hsorted, hle⟩ := h.append_now hnow
  obtain ⟨dropped, hsplit, hdropped⟩ := h.split
  obtain ⟨first, rest, hqueue, hslide⟩ := slide_eq start' now' queue
  refine ⟨hsorted, hle, ?_⟩
  have hall : history ++ [now'] = dropped ++ first :: rest := by
    rw [hsplit, List.append_assoc, hqueue]
  rw [hslide]
  split
  next hold =>
    refine ⟨dropped ++ [first], by rw [hall, List.append_assoc]; rfl, ?_⟩
    intro t ht
    rw [List.mem_append, List.mem_singleton] at ht
    obtain ht | rfl := ht
    · exact (hdropped t ht).trans hstart
    · exact hold
  next => exact ⟨dropped, hall, fun t ht => (hdropped t ht).trans hstart⟩

/-- **The length of the queue decides**, if it met the bound before the call.  When a time is
dropped, the queue is no longer than before, and has all times of the window; otherwise it is
the window. -/
theorem Tail.length_slide_le_iff (h : Tail start now history queue) (hstart : start ≤ start')
    (hnow : now ≤ now') {bound : ℕ} (hbound : queue.length ≤ bound) :
    (Window.slide start' now' queue).length ≤ bound ↔
      count start' now' (history ++ [now']) ≤ bound := by
  obtain ⟨hsorted, hle⟩ := h.append_now hnow
  obtain ⟨dropped, hsplit, hdropped⟩ := h.split
  obtain ⟨first, rest, hqueue, hslide⟩ := slide_eq start' now' queue
  have hall : history ++ [now'] = dropped ++ first :: rest := by
    rw [hsplit, List.append_assoc, hqueue]
  -- no dropped time counts
  have hcount : count start' now' (history ++ [now']) = count start' now' (first :: rest) := by
    have hnone : dropped.countP (fun t => decide (start' < t ∧ t ≤ now')) = 0 := by
      rw [List.countP_eq_zero]
      intro t ht hin
      exact absurd ((hdropped t ht).trans hstart) (not_le.mpr (of_decide_eq_true hin).1)
    rw [hall, count, List.countP_append, hnone, Nat.zero_add, count]
  have hlength : rest.length = queue.length := by
    have := congrArg List.length hqueue
    simpa using this.symm
  rw [hslide, hcount]
  split
  next hold =>
    have hfirst : count start' now' (first :: rest) = rest.countP
        (fun t => decide (start' < t ∧ t ≤ now')) := by
      rw [count, List.countP_cons_of_neg]
      intro hin
      exact absurd hold (not_le.mpr (of_decide_eq_true hin).1)
    have hrest := List.countP_le_length (p := fun t => decide (start' < t ∧ t ≤ now')) (l := rest)
    exact iff_of_true (by omega) (by omega)
  next hnew =>
    have hwindow : count start' now' (first :: rest) = (first :: rest).length := by
      rw [count, List.countP_eq_length]
      intro t ht
      rw [hall, List.pairwise_append] at hsorted
      have hfirst : first ≤ t := by
        rcases List.mem_cons.mp ht with rfl | ht
        · exact le_rfl
        · exact (List.pairwise_cons.mp hsorted.2.1).1 t ht
      have hmem : t ∈ history ++ [now'] := by rw [hall]; exact List.mem_append_right _ ht
      exact decide_eq_true ⟨(not_le.mp hnew).trans_le hfirst, hle t hmem⟩
    rw [hwindow]

end Rtp.Window
