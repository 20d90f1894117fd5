import Rtp.Lib.CasLoop
import Rtp.Qed.Growth

/-!
# Ranges handed out by a counter

Two functions hand out ranges of numbers from a shared counter: `TakeFreeBucketId` free
buckets, and `BlockDataBuilder::alloc` bytes of a block.  Both are loops around a
compare-and-swap, and both compare the end of the range with a limit after it has been
computed modulo `2 ^ 64`.

* `takeFreeBucketIdRound`, `allocRound` — one round of each loop.
* `Apart` — ranges that do not meet, below a limit.
* `apart_iff_of_served` — requests served one after the other.
* `ranges_apart_iff` — **in every interleaving of any number of calls** the ranges of the
  successful ones do not meet and end below the limit, exactly when none of them ends
  at `2 ^ 64` or after it.
* `ranges_meet` — a request that wraps around.
-/

namespace Rtp.Qed

open CasLoop

/-! ## The two loops -/

/-- One round: what the counter is to be raised to, or nothing where `UINT64_MAX` is
returned. -/
def takeRound (limit current amount : BitVec 64) : Option (BitVec 64) :=
  if limit.ult (current + amount) then none else some (current + amount)

/-- One round of `TakeFreeBucketId(count)`. -/
def takeFreeBucketIdRound (b : BucketType) (count current : BitVec 64) : Option (BitVec 64) :=
  takeRound (1#64 <<< b.1) current count

/-- A call of `alloc<T>(count)`, with `sizeof(T)`. -/
structure AllocCall where
  sizeof : ℕ
  count : BitVec 64
  deriving DecidableEq, Repr

/-- One round of `alloc<T>(count)`. -/
def allocRound (maxSize : BitVec 64) (c : AllocCall) (current : BitVec 64) :
    Option (BitVec 64) :=
  takeRound maxSize current (c.count * BitVec.ofNat 64 c.sizeof)

/-- The bytes a call of `alloc` asks for. -/
def AllocCall.bytes (c : AllocCall) : ℕ := c.count.toNat * c.sizeof

/-- The call of a single thread that is not disturbed. -/
theorem takeFreeBucketId_eq_round (σ : Builder) :
    σ.takeFreeBucketId = (takeFreeBucketIdRound σ.bucketType 1 σ.freeIdCount).map fun count =>
      (σ.freeIdCount, { σ with freeIdCount := count }) := by
  unfold Builder.takeFreeBucketId takeFreeBucketIdRound takeRound Builder.capacity
  split <;> rfl

/-! ## Ranges -/

/-- The ranges of the successful calls, each with its first number and its length.  A call
that returns `UINT64_MAX` has failed. -/
def ranges {R : Type*} (size : R → ℕ) (granted : List (R × BitVec 64)) : List (ℕ × ℕ) :=
  (granted.filter fun g => g.2 ≠ allMask64).map fun g => (g.2.toNat, size g.1)

/-- The number lies in the range. -/
def Within (range : ℕ × ℕ) (i : ℕ) : Prop := range.1 ≤ i ∧ i < range.1 + range.2

/-- The ranges do not meet, and lie below the limit. -/
def Apart (limit : ℕ) (ranges : List (ℕ × ℕ)) : Prop :=
  ranges.Pairwise (fun a b => ∀ i, Within a i → ¬ Within b i) ∧
    ∀ a ∈ ranges, ∀ i, Within a i → i < limit

section Served

variable {R : Type*} {size : R → ℕ} {round : R → BitVec 64 → Option (BitVec 64)}
  {limit first last : BitVec 64} {granted : List (R × BitVec 64)}

theorem ranges_concat (granted : List (R × BitVec 64)) (r : R) (c : BitVec 64) :
    ranges size (granted ++ [(r, c)]) =
      ranges size granted ++ if c = allMask64 then [] else [(c.toNat, size r)] := by
  simp only [ranges, List.filter_append, List.map_append]
  by_cases hc : c = allMask64
  · simp [hc]
  · simp [hc]

/-- While nothing has wrapped around, all ranges end at the counter or before it, and the
counter is within the limit once there is a range. -/
structure Stacked (limit : ℕ) (ranges : List (ℕ × ℕ)) (counter : ℕ) : Prop where
  apart : Apart limit ranges
  le_counter : ∀ a ∈ ranges, a.1 + a.2 ≤ counter
  counter_le : ranges ≠ [] → counter ≤ limit

/-- One more range at the counter. -/
theorem Stacked.push {limit counter n : ℕ} {l : List (ℕ × ℕ)} (h : Stacked limit l counter)
    (hle : counter + n ≤ limit) : Stacked limit (l ++ [(counter, n)]) (counter + n) := by
  refine ⟨⟨?_, ?_⟩, ?_, fun _ => hle⟩
  · refine List.pairwise_append.mpr ⟨h.apart.1, List.pairwise_singleton _ _, ?_⟩
    intro a ha b hb i hia hib
    rw [List.mem_singleton.mp hb] at hib
    have hend := h.le_counter a ha
    have h1 := hia.2
    have h2 := hib.1
    dsimp only at h2
    omega
  · intro a ha i hi
    rcases List.mem_append.mp ha with ha | ha
    · exact h.apart.2 a ha i hi
    · rw [List.mem_singleton.mp ha] at hi
      exact hi.2.trans_le hle
  · intro a ha
    rcases List.mem_append.mp ha with ha | ha
    · exact (h.le_counter a ha).trans (Nat.le_add_right _ _)
    · rw [List.mem_singleton.mp ha]

/-- **Requests served one after the other**, by rounds that raise the counter by the size
of the request and check the new value. -/
theorem stacked_of_served
    (hround : ∀ r c, round r c = takeRound limit c (BitVec.ofNat 64 (size r)))
    (hlimit : limit ≠ allMask64) (h : Served round first granted last)
    (hfits : ∀ a ∈ ranges size granted, a.1 + a.2 < 2 ^ 64) :
    Stacked limit.toNat (ranges size granted) last.toNat := by
  induction h with
  | nil =>
    exact ⟨⟨List.Pairwise.nil, fun _ ha => absurd ha List.not_mem_nil⟩,
      fun _ ha => absurd ha List.not_mem_nil, fun hne => absurd rfl hne⟩
  | @concat l r c new _ hstep ih =>
    rw [ranges_concat] at hfits ⊢
    have hl := ih fun a ha => hfits a (List.mem_append_left _ ha)
    rw [hround, takeRound] at hstep
    split at hstep
    · simp at hstep
    · next hnot =>
      obtain rfl := Option.some.inj hstep
      have hle : (c + BitVec.ofNat 64 (size r)).toNat ≤ limit.toNat := by
        rw [BitVec.ult, decide_eq_true_eq] at hnot
        exact Nat.not_lt.mp hnot
      by_cases hc : c = allMask64
      · -- a call that reports a failure; there is no range yet, since the counter is
        -- beyond the limit
        have hnil : ranges size l = [] := by
          by_contra hne
          have hmax := hl.counter_le hne
          rw [hc] at hmax
          have hlt := limit.isLt
          have htop : allMask64.toNat = 2 ^ 64 - 1 := rfl
          exact hlimit (BitVec.eq_of_toNat_eq (by omega))
        rw [if_pos hc, hnil]
        exact ⟨⟨List.Pairwise.nil, fun _ ha => absurd ha List.not_mem_nil⟩,
          fun _ ha => absurd ha List.not_mem_nil, fun hne => absurd rfl hne⟩
      · have hmem : (c.toNat, size r) ∈
            ranges size l ++ if c = allMask64 then [] else [(c.toNat, size r)] := by
          rw [if_neg hc]
          exact List.mem_append_right _ (List.mem_singleton_self _)
        have hend : (c + BitVec.ofNat 64 (size r)).toNat = c.toNat + size r := by
          have hlt := hfits _ hmem
          rw [BitVec.toNat_add, BitVec.toNat_ofNat, Nat.add_mod_mod, Nat.mod_eq_of_lt hlt]
        rw [hend] at hle ⊢
        rw [if_neg hc]
        exact hl.push hle

/-- The same, with the condition seen to be necessary. -/
theorem apart_iff_of_served
    (hround : ∀ r c, round r c = takeRound limit c (BitVec.ofNat 64 (size r)))
    (hlimit : limit ≠ allMask64) (h : Served round first granted last) :
    Apart limit.toNat (ranges size granted) ↔ ∀ a ∈ ranges size granted, a.1 + a.2 < 2 ^ 64 := by
  constructor
  · intro hapart a ha
    by_contra hwrap
    have hfirst : a.1 < 2 ^ 64 := by
      obtain ⟨g, -, rfl⟩ := List.mem_map.mp ha
      exact g.2.isLt
    -- the last number of the range is not below the limit
    have hlast := hapart.2 a ha (a.1 + a.2 - 1) ⟨by omega, by omega⟩
    have hlt := limit.isLt
    have hne : limit.toNat ≠ 2 ^ 64 - 1 := fun htop => hlimit (BitVec.eq_of_toNat_eq htop)
    omega
  · exact fun hfits => (stacked_of_served hround hlimit h hfits).apart

end Served

/-! ## Interleavings -/

theorem takeFreeBucketIdRound_eq (b : BucketType) (count current : BitVec 64) :
    takeFreeBucketIdRound b count current =
      takeRound (1#64 <<< b.1) current (BitVec.ofNat 64 count.toNat) := by
  rw [BitVec.ofNat_toNat, BitVec.setWidth_eq]
  rfl

theorem allocRound_eq (maxSize : BitVec 64) (c : AllocCall) (current : BitVec 64) :
    allocRound maxSize c current = takeRound maxSize current (BitVec.ofNat 64 c.bytes) := by
  have hmul : BitVec.ofNat 64 c.bytes = c.count * BitVec.ofNat 64 c.sizeof := by
    apply BitVec.eq_of_toNat_eq
    rw [AllocCall.bytes, BitVec.toNat_mul, BitVec.toNat_ofNat, BitVec.toNat_ofNat, Nat.mul_mod,
      Nat.mod_eq_of_lt c.count.isLt]
  rw [hmul]
  rfl

/-- **Ranges in any interleaving.**  Any number of threads call `TakeFreeBucketId` with any
counts, on a table of any bucket type and with any number of free buckets taken before; and
any number of threads call `alloc` for objects of any size with any counts, on a block whose
size is an `off_t`.  However their reads and swaps are interleaved, the ranges of the
successful calls do not meet and lie below the number of buckets, or the size of the block,
exactly when the end of each of them is below `2 ^ 64`. -/
theorem ranges_apart_iff (b : BucketType) (freeIdCount maxSize : BitVec 64)
    (s : State (BitVec 64) (BitVec 64)) (s' : State (BitVec 64) AllocCall)
    (hs : Reach (next (takeFreeBucketIdRound b)) (fun _ _ => True) (State.init freeIdCount) s)
    (hmax : maxSize.toNat < 2 ^ 63)
    (hs' : Reach (next (allocRound maxSize)) (fun _ _ => True) (State.init 0) s') :
    (Apart (2 ^ b.1) (ranges BitVec.toNat s.granted) ↔
      ∀ a ∈ ranges BitVec.toNat s.granted, a.1 + a.2 < 2 ^ 64) ∧
    (Apart maxSize.toNat (ranges AllocCall.bytes s'.granted) ↔
      ∀ a ∈ ranges AllocCall.bytes s'.granted, a.1 + a.2 < 2 ^ 64) := by
  constructor
  · have hcap := Builder.toNat_one_shiftLeft b
    have hle : 2 ^ b.1 ≤ 2 ^ 50 := Nat.pow_le_pow_right (by omega) b.2.2
    rw [← hcap]
    refine apart_iff_of_served (takeFreeBucketIdRound_eq b) (fun htop => ?_) (served_of_reach hs)
    rw [htop] at hcap
    have hmask : allMask64.toNat = 2 ^ 64 - 1 := rfl
    omega
  · refine apart_iff_of_served (allocRound_eq maxSize) (fun htop => ?_) (served_of_reach hs')
    rw [htop] at hmax
    exact absurd hmax (by decide)

/-- Two threads that read the same number: the second swap fails, and its thread reads
again. -/
def contended {R : Type} (r r' : R) : List (Action R) :=
  [.call 0 r, .call 1 r', .load 0, .load 1, .swap 0, .swap 1, .load 1, .swap 1]

theorem ranges_apart_iff_contended :
    ∃ s s', Reach (next (takeFreeBucketIdRound ⟨2, by decide⟩)) (fun _ _ => True)
        (State.init 0) s ∧ ranges BitVec.toNat s.granted = [(0, 1), (1, 3)] ∧
      Apart 4 (ranges BitVec.toNat s.granted) ∧
      Reach (next (allocRound 64)) (fun _ _ => True) (State.init 0) s' ∧
        ranges AllocCall.bytes s'.granted = [(0, 16), (16, 12)] ∧
      Apart 64 (ranges AllocCall.bytes s'.granted) := by
  obtain ⟨s, hs, hseen⟩ := exists_reach_of_follow
    (next (takeFreeBucketIdRound ⟨2, by decide⟩)) (fun _ _ => True) (contended 1 3)
    (State.init 0) (fun s => decide (ranges BitVec.toNat s.granted = [(0, 1), (1, 3)]))
    (by decide +kernel)
  obtain ⟨s', hs', hseen'⟩ := exists_reach_of_follow (next (allocRound 64)) (fun _ _ => True)
    (contended ⟨8, 2⟩ ⟨4, 3⟩) (State.init 0)
    (fun s => decide (ranges AllocCall.bytes s.granted = [(0, 16), (16, 12)]))
    (by decide +kernel)
  have hranges := of_decide_eq_true hseen
  have hranges' := of_decide_eq_true hseen'
  have hiff := ranges_apart_iff ⟨2, by decide⟩ 0 64 s s' hs (by decide) hs'
  refine ⟨s, s', hs, hranges, hiff.1.mpr ?_, hs', hranges', hiff.2.mpr ?_⟩
  · rw [hranges]
    decide
  · rw [hranges']
    decide

/-- Calls of one thread, one after the other. -/
def alone {R : Type} (requests : List R) : List (Action R) :=
  requests.flatMap fun r => [.call 0 r, .load 0, .swap 0]

/-- **Requests that wrap around.**  In a table of four buckets, after three free buckets a
request for `2 ^ 64 - 1` succeeds and takes the counter back to `2`: the bucket `2` is
handed out once more.  In a block of 64 bytes, a request for `2 ^ 61` numbers of eight bytes
succeeds, and so does the next one, with the same range. -/
theorem ranges_meet :
    (∃ s, Reach (next (takeFreeBucketIdRound ⟨2, by decide⟩)) (fun _ _ => True)
      (State.init 0) s ∧
      ranges BitVec.toNat s.granted = [(0, 3), (3, 2 ^ 64 - 1), (2, 1)] ∧
      ¬ Apart 4 (ranges BitVec.toNat s.granted)) ∧
    ∃ s, Reach (next (allocRound 64)) (fun _ _ => True) (State.init 0) s ∧
      ranges AllocCall.bytes s.granted = [(0, 2 ^ 64), (0, 2 ^ 64)] ∧
      ¬ Apart 64 (ranges AllocCall.bytes s.granted) := by
  constructor
  · obtain ⟨s, hs, hseen⟩ := exists_reach_of_follow
      (next (takeFreeBucketIdRound ⟨2, by decide⟩)) (fun _ _ => True)
      (alone [3, 0xFFFFFFFFFFFFFFFF, 1]) (State.init 0)
      (fun s => decide (ranges BitVec.toNat s.granted = [(0, 3), (3, 2 ^ 64 - 1), (2, 1)]))
      (by decide +kernel)
    have hranges := of_decide_eq_true hseen
    refine ⟨s, hs, hranges, fun happart => ?_⟩
    rw [hranges] at happart
    have hfirst := (List.pairwise_cons.mp happart.1).1 (2, 1) (by decide)
    exact hfirst 2 ⟨by decide, by decide⟩ ⟨by decide, by decide⟩
  · obtain ⟨s, hs, hseen⟩ := exists_reach_of_follow (next (allocRound 64)) (fun _ _ => True)
      (alone [⟨8, 0x2000000000000000⟩, ⟨8, 0x2000000000000000⟩]) (State.init 0)
      (fun s => decide (ranges AllocCall.bytes s.granted = [(0, 2 ^ 64), (0, 2 ^ 64)]))
      (by decide +kernel)
    have hranges := of_decide_eq_true hseen
    refine ⟨s, hs, hranges, fun happart => ?_⟩
    rw [hranges] at happart
    have hfirst := (List.pairwise_cons.mp happart.1).1 (0, 2 ^ 64) (by decide)
    exact hfirst 0 ⟨by decide, by decide⟩ ⟨by decide, by decide⟩

end Rtp.Qed
