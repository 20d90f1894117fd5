import Mathlib.Data.BitVec
import Mathlib.Data.Fintype.Fin
import Rtp.Lib.Loop

/-!
# Loops in blocks

A loop over the elements of two arrays that handles `k` elements at once, with instructions on
vectors, as long as there are as many, and then the rest one by one.

* `Lanes`, `lift`, `lift₂` — vectors, and operations that are done in each lane.
* `Machine`, `Exec` — what is in memory from the beginning of each array on, and programs, whose
  accesses are recorded; `Inside` — what a program accesses is below a limit.
* `Runs` — the two loops, whose counter is a machine word.
* `exists_runs` — **the rule for such loops**: if a block does in its lanes what the rest does
  element by element, then together they do it at every index and access nothing beyond.
-/

namespace Rtp.Blocked

open Loop

universe u

variable {A B C D S : Type u} {k : ℕ}

/-! ## Lanes -/

abbrev Lanes (k : ℕ) (A : Type u) := Fin k → A

def lift (f : A → B) (v : Lanes k A) : Lanes k B := fun l => f (v l)

def lift₂ (f : A → B → C) (v : Lanes k A) (v' : Lanes k B) : Lanes k C := fun l => f (v l) (v' l)

/-! ## Programs -/

/-- The memory from the beginning of each array on, and the indices that were accessed. -/
structure Machine (D S : Type u) where
  dst : ℕ → D
  src : ℕ → S
  accesses : List ℕ

/-- Programs. -/
abbrev Exec (D S A : Type u) := StateM (Machine D S) A

/-- Consecutive indices are accessed. -/
def Machine.access (s : Machine D S) (k i : ℕ) : Machine D S :=
  { s with accesses := s.accesses ++ List.range' i k }

def loadDst (k i : ℕ) : Exec D S (Lanes k D) := fun s => (fun l => s.dst (i + l), s.access k i)

def loadSrc (k i : ℕ) : Exec D S (Lanes k S) := fun s => (fun l => s.src (i + l), s.access k i)

def storeDst (i : ℕ) (v : Lanes k D) : Exec D S PUnit := fun s =>
  (⟨⟩, { s.access k i with
    dst := fun j => if h : i ≤ j ∧ j < i + k then v ⟨j - i, by omega⟩ else s.dst j })

/-- What the program accesses is below the limit. -/
def Inside (limit : ℕ) (program : Exec D S A) : Prop :=
  ∀ s, ∀ j ∈ (program.run s).2.accesses, j ∈ s.accesses ∨ j < limit

section Inside

variable {limit i : ℕ}

theorem inside_bind {program : Exec D S A} {rest : A → Exec D S B} (h : Inside limit program)
    (hrest : ∀ x, Inside limit (rest x)) : Inside limit (program >>= rest) := by
  intro s j hj
  rcases hrest (program.run s).1 (program.run s).2 j hj with hold | hnew
  · exact h s j hold
  · exact .inr hnew

theorem mem_access {s : Machine D S} {j : ℕ} (hj : j ∈ (s.access k i).accesses) :
    j ∈ s.accesses ∨ j < i + k := by
  rcases List.mem_append.mp hj with hold | hnew
  · exact .inl hold
  · rw [List.mem_range'_1] at hnew
    exact .inr hnew.2

theorem inside_loadDst : Inside (i + k) (loadDst k i : Exec D S (Lanes k D)) :=
  fun _ _ => mem_access

theorem inside_loadSrc : Inside (i + k) (loadSrc k i : Exec D S (Lanes k S)) :=
  fun _ _ => mem_access

theorem inside_storeDst (v : Lanes k D) : Inside (i + k) (storeDst i v : Exec D S PUnit) :=
  fun _ _ => mem_access

end Inside

/-! ## The two loops -/

section Loops

variable {w : ℕ} (k : ℕ) (length : BitVec w) (block one : ℕ → Exec D S PUnit)

/-- The counter of the loops, and the machine. -/
structure State (w : ℕ) (D S : Type u) where
  i : BitVec w
  machine : Machine D S

/-- `for (; i + k <= length; i += k)`. -/
def blockBody (s : State w D S) : State w D S ⊕ State w D S :=
  if s.i + BitVec.ofNat w k ≤ length then
    .inl ⟨s.i + BitVec.ofNat w k, ((block s.i.toNat).run s.machine).2⟩
  else .inr s

/-- `for (; i < length; i++)`. -/
def tailBody (s : State w D S) : State w D S ⊕ Machine D S :=
  if s.i < length then .inl ⟨s.i + 1#w, ((one s.i.toNat).run s.machine).2⟩ else .inr s.machine

/-- The one loop after the other, from zero on. -/
def Runs (s s' : Machine D S) : Prop :=
  ∃ mid, Returns (blockBody k length block) ⟨0#w, s⟩ mid ∧ Returns (tailBody length one) mid s'

end Loops

/-! ## An operation at each index -/

/-- The operation done at the first `n` indices. -/
def applied (f : D → S → D) (n : ℕ) (dst : ℕ → D) (src : ℕ → S) : ℕ → D :=
  fun i => if i < n then f (dst i) (src i) else dst i

/-- A program for `k` indices from a given one on: it does the operation in each of them, and
accesses nothing beyond. -/
structure Performs (f : D → S → D) (k : ℕ) (program : ℕ → Exec D S PUnit) : Prop where
  dst : ∀ i s, ((program i).run s).2.dst =
    ((storeDst i fun l : Fin k => f (s.dst (i + l)) (s.src (i + l))).run s).2.dst
  src : ∀ i s, ((program i).run s).2.src = s.src
  inside : ∀ i, Inside (i + k) (program i)

/-- The first `n` indices are done, and nothing was accessed beyond. -/
structure Reached (f : D → S → D) (dst : ℕ → D) (src : ℕ → S) (n : ℕ) (s : Machine D S) :
    Prop where
  dst_eq : s.dst = applied f n dst src
  src_eq : s.src = src
  inside : ∀ j ∈ s.accesses, j < n

section Rule

variable {f : D → S → D} {dst : ℕ → D} {src : ℕ → S} {n w : ℕ} {length : BitVec w}
  {program block one : ℕ → Exec D S PUnit}

/-- One round, of a block or of a single element. -/
theorem Reached.step {s : Machine D S} (h : Reached f dst src n s)
    (hprogram : Performs f k program) : Reached f dst src (n + k) ((program n).run s).2 where
  dst_eq := by
    rw [hprogram.dst, h.src_eq]
    funext j
    show (if hj : n ≤ j ∧ j < n + k then f (s.dst (n + (j - n))) (src (n + (j - n)))
      else s.dst j) = applied f (n + k) dst src j
    rw [h.dst_eq]
    unfold applied
    by_cases hlow : j < n
    · rw [dif_neg (by omega), if_pos hlow, if_pos (by omega)]
    · by_cases hhigh : j < n + k
      · rw [dif_pos ⟨by omega, hhigh⟩, if_neg (by omega), if_pos hhigh,
          Nat.add_sub_cancel' (Nat.not_lt.mp hlow)]
      · rw [dif_neg (by omega), if_neg hlow, if_neg hhigh]
  src_eq := (hprogram.src n s).trans h.src_eq
  inside := by
    intro j hj
    rcases hprogram.inside n s j hj with hold | hnew
    · have hlt := h.inside j hold
      omega
    · exact hnew

/-- Between two rounds of a loop. -/
def Between (f : D → S → D) (dst : ℕ → D) (src : ℕ → S) (length : BitVec w)
    (s : State w D S) : Prop :=
  s.i.toNat ≤ length.toNat ∧ Reached f dst src s.i.toNat s.machine

/-- A counter that does not wrap around. -/
theorem toNat_add_ofNat {x : BitVec w} (h : x.toNat + k < 2 ^ w) :
    (x + BitVec.ofNat w k).toNat = x.toNat + k := by
  have hk : k % 2 ^ w = k := Nat.mod_eq_of_lt (by omega)
  rw [BitVec.toNat_add, BitVec.toNat_ofNat, hk, Nat.mod_eq_of_lt h]

/-- A round makes the rest smaller. -/
theorem Between.step {s : State w D S} (h : Between f dst src length s)
    (hprogram : Performs f k program) (hk : 0 < k) (hle : s.i.toNat + k ≤ length.toNat) :
    Between f dst src length
        ⟨s.i + BitVec.ofNat w k, ((program s.i.toNat).run s.machine).2⟩ ∧
      length.toNat - (s.i + BitVec.ofNat w k).toNat < length.toNat - s.i.toNat := by
  have hadd : (s.i + BitVec.ofNat w k).toNat = s.i.toNat + k :=
    toNat_add_ofNat (Nat.lt_of_le_of_lt hle length.isLt)
  unfold Between
  rw [hadd]
  exact ⟨⟨hle, h.2.step hprogram⟩, by omega⟩

/-- The loop over the blocks: the last round, or another one.  With the sum below `2 ^ w` the test
does not wrap around. -/
theorem blockBody_step (hk : 0 < k) (hblock : Performs f k block)
    (hfits : length.toNat + k < 2 ^ w) (s : State w D S) (hs : Between f dst src length s) :
    (∃ mid, blockBody k length block s = .inr mid ∧ Between f dst src length mid) ∨
      ∃ s', blockBody k length block s = .inl s' ∧ Between f dst src length s' ∧
        length.toNat - s'.i.toNat < length.toNat - s.i.toNat ∧
        ∀ mid, Between f dst src length mid → Between f dst src length mid := by
  have hle := hs.1
  have hadd : (s.i + BitVec.ofNat w k).toNat = s.i.toNat + k := toNat_add_ofNat (by omega)
  by_cases hround : s.i + BitVec.ofNat w k ≤ length
  · obtain ⟨hs', hless⟩ := hs.step hblock hk (hadd ▸ BitVec.le_def.mp hround)
    exact .inr ⟨_, if_pos hround, hs', hless, fun _ => id⟩
  · exact .inl ⟨s, if_neg hround, hs⟩

/-- The loop over the rest: the last round, or another one. -/
theorem tailBody_step (hone : Performs f 1 one) (s : State w D S)
    (hs : Between f dst src length s) :
    (∃ r, tailBody length one s = .inr r ∧ Reached f dst src length.toNat r) ∨
      ∃ s', tailBody length one s = .inl s' ∧ Between f dst src length s' ∧
        length.toNat - s'.i.toNat < length.toNat - s.i.toNat ∧
        ∀ r, Reached f dst src length.toNat r → Reached f dst src length.toNat r := by
  by_cases hround : s.i < length
  · obtain ⟨hs', hless⟩ := hs.step hone Nat.one_pos (BitVec.lt_def.mp hround)
    exact .inr ⟨_, if_pos hround, hs', hless, fun _ => id⟩
  · have heq : s.i.toNat = length.toNat :=
      Nat.le_antisymm hs.1 (Nat.not_lt.mp fun h => hround (BitVec.lt_def.mpr h))
    exact .inl ⟨s.machine, if_neg hround, heq ▸ hs.2⟩

/-- Together the loops have one result: the operation is done at every index below the length, and
nothing was accessed beyond. -/
theorem exists_runs (hk : 0 < k) (hblock : Performs f k block) (hone : Performs f 1 one)
    (hfits : length.toNat + k < 2 ^ w) (dst : ℕ → D) (src : ℕ → S) :
    ∃ r, (∀ r', Runs k length block one ⟨dst, src, []⟩ r' ↔ r' = r) ∧
      Reached f dst src length.toNat r := by
  have hstart : Between f dst src length ⟨0#w, ⟨dst, src, []⟩⟩ :=
    ⟨Nat.zero_le _, rfl, rfl, fun j hj => absurd hj List.not_mem_nil⟩
  obtain ⟨mid, hmid, hbetween⟩ := Loop.exists_returns
    (fun s : State w D S => length.toNat - s.i.toNat) (blockBody_step hk hblock hfits) hstart
  obtain ⟨r, hr, hreached⟩ := Loop.exists_returns
    (fun s : State w D S => length.toNat - s.i.toNat) (tailBody_step hone) hbetween
  refine ⟨r, fun r' => ⟨?_, ?_⟩, hreached⟩
  · rintro ⟨mid', hmid', hr'⟩
    obtain rfl := hmid.unique hmid'
    exact hr'.unique hr
  · rintro rfl
    exact ⟨mid, hmid, hr⟩

end Rule

end Rtp.Blocked
