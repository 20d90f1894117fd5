import Mathlib.Data.List.AList

/-!
# Queues by key

A map from keys to queues, with the two operations of a pool: put an item at the end of the
queue of a key, and take the first one of it.

* `Queues.push`, `Queues.pop` — the operations.
* `Queues.all` — all items, and `Queues.under` — those under some of the keys.
* `all_push`, `all_of_pop` — **an operation moves one item**, up to the order of the items.
* `Queues.Filed` — every item has the label of its key; then what is under the keys with some
  labels is what has these labels (`under_eq_filter`).
-/

namespace Rtp

/-- A map from keys to queues. -/
abbrev Queues (K V : Type) := AList (fun _ : K => List V)

namespace Queues

variable {K V : Type} [DecidableEq K]

/-- The queue of a key; there is an empty one where there is none. -/
def queue (m : Queues K V) (k : K) : List V := (m.lookup k).getD []

/-- An item is put at the end of the queue of a key. -/
def push (k : K) (v : V) (m : Queues K V) : Queues K V := m.insert k (m.queue k ++ [v])

/-- The first item of the queue of a key is taken. -/
def pop (k : K) (m : Queues K V) : Option (V × Queues K V) :=
  match m.lookup k with
  | none => none
  | some [] => none
  | some (v :: q) => some (v, m.insert k q)

/-- The items under the keys with a property. -/
def under (p : K → Bool) (m : Queues K V) : List V :=
  (m.entries.filter fun e => p e.1).flatMap (·.2)

/-- All items. -/
def all (m : Queues K V) : List V := m.entries.flatMap (·.2)

omit [DecidableEq K] in
@[simp] theorem all_empty : (∅ : Queues K V).all = [] := rfl

/-- The items of one key, and the others. -/
theorem all_perm (m : Queues K V) (k : K) :
    m.all.Perm (m.queue k ++ (m.entries.kerase k).flatMap (·.2)) := by
  unfold all queue
  by_cases hk : k ∈ m.entries.keys
  · obtain ⟨q, l₁, l₂, -, hm, hrest⟩ := List.exists_of_kerase hk
    have hl : m.lookup k = some q := by
      refine AList.mem_lookup_iff.2 ?_
      rw [hm]
      simp
    rw [hl, hrest, hm]
    simp only [List.flatMap_append, List.flatMap_cons, Option.getD_some]
    rw [← List.append_assoc, ← List.append_assoc]
    exact List.perm_append_comm.append_right _
  · rw [AList.lookup_eq_none.2 hk, List.kerase_of_notMem_keys hk]
    simp

/-- The items after the queue of a key was set. -/
theorem all_insert_perm (m : Queues K V) (k : K) (q : List V) :
    (all (m.insert k q)).Perm (q ++ (m.entries.kerase k).flatMap (·.2)) := by
  unfold all
  rw [AList.entries_insert, List.flatMap_cons]

theorem all_push (k : K) (v : V) (m : Queues K V) : (m.push k v).all.Perm (v :: m.all) := by
  refine (all_insert_perm m k _).trans ?_
  rw [List.append_assoc]
  exact List.perm_middle.trans ((all_perm m k).symm.cons v)

theorem all_foldl_push (k : K) (l : List V) (m : Queues K V) :
    (l.foldl (fun m v => push k v m) m).all.Perm (l ++ m.all) := by
  induction l generalizing m with
  | nil => exact .refl _
  | cons v l ih =>
    refine (ih (m.push k v)).trans ?_
    exact ((all_push k v m).append_left l).trans List.perm_middle

variable {k : K}

theorem all_of_pop {m m' : Queues K V} {v : V} (h : m.pop k = some (v, m')) :
    m.all.Perm (v :: m'.all) := by
  unfold pop at h
  split at h
  · simp at h
  · simp at h
  next w q hl =>
    obtain ⟨rfl, rfl⟩ := Prod.mk.inj (Option.some.inj h)
    have hq : m.queue k = w :: q := by rw [queue, hl]; rfl
    refine (all_perm m k).trans ?_
    rw [hq, List.cons_append]
    exact (all_insert_perm m k q).symm.cons w

section Filed

variable {L : Type} {name : K → L} {label : V → L} {m m' : Queues K V}

/-- Every item has the label of the key that it is under. -/
def Filed (name : K → L) (label : V → L) (m : Queues K V) : Prop :=
  ∀ k q, m.lookup k = some q → ∀ v ∈ q, label v = name k

theorem filed_empty (name : K → L) (label : V → L) : Filed name label (∅ : Queues K V) :=
  fun _ _ h => absurd h (by simp)

theorem Filed.insert (h : Filed name label m) {q : List V} (hq : ∀ v ∈ q, label v = name k) :
    Filed name label (m.insert k q) := by
  intro k' q' hl v hv
  by_cases hk : k' = k
  · subst hk
    rw [AList.lookup_insert, Option.some.injEq] at hl
    exact hq v (hl ▸ hv)
  · rw [AList.lookup_insert_ne hk] at hl
    exact h k' q' hl v hv

theorem Filed.push (h : Filed name label m) {v : V} (hv : label v = name k) :
    Filed name label (m.push k v) := by
  refine h.insert fun w hw => ?_
  rcases List.mem_append.1 hw with hw | hw
  · unfold queue at hw
    cases hl : m.lookup k with
    | none => simp [hl] at hw
    | some q => exact h k q hl w (by simpa [hl] using hw)
  · rw [List.mem_singleton.1 hw, hv]

theorem Filed.foldl_push (h : Filed name label m) {l : List V} (hl : ∀ v ∈ l, label v = name k) :
    Filed name label (l.foldl (fun m v => Queues.push k v m) m) := by
  induction l generalizing m with
  | nil => exact h
  | cons v l ih =>
    exact ih (h.push (hl v List.mem_cons_self)) fun w hw => hl w (List.mem_cons_of_mem _ hw)

theorem Filed.of_pop (h : Filed name label m) {v : V} (hpop : m.pop k = some (v, m')) :
    label v = name k ∧ Filed name label m' := by
  unfold pop at hpop
  split at hpop
  · simp at hpop
  · simp at hpop
  next w q hl =>
    obtain ⟨rfl, rfl⟩ := Prod.mk.inj (Option.some.inj hpop)
    exact ⟨h k _ hl w List.mem_cons_self,
      h.insert fun x hx => h k _ hl x (List.mem_cons_of_mem _ hx)⟩

theorem under_eq_filter (h : Filed name label m) (p : L → Bool) :
    m.under (fun k => p (name k)) = m.all.filter fun v => p (label v) := by
  have hentries : ∀ e ∈ m.entries, ∀ v ∈ e.2, label v = name e.1 := fun e he =>
    h e.1 e.2 (AList.mem_lookup_iff.2 he)
  unfold under all
  generalize m.entries = l at hentries
  induction l with
  | nil => rfl
  | cons e l ih =>
    have hlabel : ∀ v ∈ e.2, label v = name e.1 := hentries e List.mem_cons_self
    rw [List.flatMap_cons, List.filter_append,
      ← ih fun e' he' => hentries e' (List.mem_cons_of_mem _ he')]
    cases hp : p (name e.1) with
    | true =>
      have hall : e.2.filter (fun v => p (label v)) = e.2 :=
        List.filter_eq_self.2 fun v hv => by rw [hlabel v hv, hp]
      rw [List.filter_cons_of_pos (by simpa using hp), List.flatMap_cons, hall]
    | false =>
      have hnone : e.2.filter (fun v => p (label v)) = [] :=
        List.filter_eq_nil_iff.2 fun v hv => by rw [hlabel v hv, hp]; simp
      rw [List.filter_cons_of_neg (by simpa using hp), hnone, List.nil_append]

end Filed

end Rtp.Queues
