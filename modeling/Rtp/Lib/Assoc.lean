import Mathlib.Data.List.Nodup

/-!
# Association lists that are updated in place

`put k v l` replaces the value of the first entry with the key `k`, and appends an
entry when there is none: the abstract view of a bucket chain.

* `lookup_put_self`, `lookup_put_of_ne` — what is found afterwards.
* `put_of_mem`, `put_of_notMem` — the two ways.
* `lookup_of_mem`, `mem_of_lookup` — an entry of a key that is there once is what is found.
-/

namespace Rtp.Assoc

variable {κ ν : Type*} [DecidableEq κ]

/-- Replace the value of a key, or append the key with its value. -/
def put (k : κ) (v : ν) : List (κ × ν) → List (κ × ν)
  | [] => [(k, v)]
  | e :: l => if e.1 = k then (k, v) :: l else e :: put k v l

theorem lookup_cons_eq (k : κ) (e : κ × ν) (l : List (κ × ν)) :
    (e :: l).lookup k = if e.1 = k then some e.2 else l.lookup k := by
  obtain ⟨a, b⟩ := e
  by_cases h : a = k
  · subst h
    simp
  · have hk : (k == a) = false := by simpa using fun hk : k = a => h hk.symm
    simp [List.lookup_cons, hk, h]

theorem lookup_put_self (k : κ) (v : ν) (l : List (κ × ν)) : (put k v l).lookup k = some v := by
  induction l with
  | nil => simp [put]
  | cons e l ih =>
    by_cases h : e.1 = k
    · simp [put, h]
    · rw [put, if_neg h, lookup_cons_eq, if_neg h, ih]

theorem lookup_put_of_ne {k k' : κ} (h : k ≠ k') (v : ν) (l : List (κ × ν)) :
    (put k v l).lookup k' = l.lookup k' := by
  induction l with
  | nil => rw [put, lookup_cons_eq, if_neg h]
  | cons e l ih =>
    by_cases he : e.1 = k
    · rw [put, if_pos he, lookup_cons_eq, lookup_cons_eq, if_neg h, if_neg (he ▸ h)]
    · rw [put, if_neg he, lookup_cons_eq, lookup_cons_eq, ih]

variable {l : List (κ × ν)} {k : κ}

/-- A new key is appended. -/
theorem put_of_notMem (v : ν) (h : k ∉ l.map Prod.fst) : put k v l = l ++ [(k, v)] := by
  induction l with
  | nil => rfl
  | cons e l ih =>
    rw [List.map_cons, List.mem_cons, not_or] at h
    rw [put, if_neg (Ne.symm h.1), ih h.2, List.cons_append]

/-- A key that is there, and is there once, has its value replaced. -/
theorem put_of_mem (v : ν) (hnd : (l.map Prod.fst).Nodup) (h : k ∈ l.map Prod.fst) :
    put k v l = l.map fun e => if e.1 = k then (k, v) else e := by
  induction l with
  | nil => simp at h
  | cons e l ih =>
    rw [List.map_cons, List.nodup_cons] at hnd
    rw [List.map_cons]
    by_cases he : e.1 = k
    · rw [put, if_pos he, if_pos he]
      have hl : ∀ x ∈ l, (if x.1 = k then (k, v) else x) = x := fun x hx =>
        if_neg fun hxk : x.1 = k => hnd.1 (he ▸ hxk ▸ List.mem_map_of_mem hx)
      rw [List.map_congr_left hl, List.map_id']
    · rw [List.map_cons, List.mem_cons] at h
      rw [put, if_neg he, if_neg he, ih hnd.2 (h.resolve_left (Ne.symm he))]

theorem lookup_eq_none_iff : l.lookup k = none ↔ k ∉ l.map Prod.fst := by
  induction l with
  | nil => simp
  | cons e l ih =>
    by_cases h : e.1 = k
    · simp [lookup_cons_eq, h]
    · rw [lookup_cons_eq, if_neg h, ih, List.map_cons, List.mem_cons, not_or]
      exact (and_iff_right (Ne.symm h)).symm

omit [DecidableEq κ] in
theorem lookup_of_mem [BEq κ] [LawfulBEq κ] {v : ν} (hnd : (l.map Prod.fst).Nodup)
    (h : (k, v) ∈ l) : l.lookup k = some v := by
  induction l with
  | nil => cases h
  | cons e l ih =>
    rw [List.map_cons, List.nodup_cons] at hnd
    rcases List.mem_cons.mp h with rfl | h
    · rw [List.lookup_cons_self]
    · have hne : k ≠ e.1 := by
        intro heq
        have hmem := List.mem_map_of_mem (f := Prod.fst) h
        exact hnd.1 (heq ▸ hmem)
      rw [List.lookup_cons, beq_false_of_ne hne]
      exact ih hnd.2 h

theorem mem_of_lookup {v : ν} (h : l.lookup k = some v) : (k, v) ∈ l := by
  induction l with
  | nil => simp at h
  | cons e l ih =>
    rw [lookup_cons_eq] at h
    split at h
    · rename_i he
      rw [← Option.some.inj h, ← he]
      exact List.mem_cons_self ..
    · exact List.mem_cons_of_mem _ (ih h)

end Rtp.Assoc
