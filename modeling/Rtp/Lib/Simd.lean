import Mathlib.Data.BitVec
import Mathlib.Data.Fintype.Fin

/-!
# Vectors of eight words

The lane-wise meaning of operations on vector registers of eight 64-bit lanes and on masks
with one bit for each lane.  A masked operation works on the lanes of its mask; the others
keep the lane of a source register, or are zero.

* `M512`, `Mask8` — registers and masks, with the operations on them.
* `subsEpu16`, `subFloor` — two ways to count a lane down to zero and no further;
  `sub_one` says that they agree on small numbers.
* `untilFull` — rounds on all lanes at once, until the last lane is done;
  `untilFull_spec` — **the rule for such a loop**: an invariant, and for each lane that is
  not done a number that every round makes smaller.
-/

namespace Rtp.Simd

/-- Eight lanes of 64 bits. -/
abbrev M512 := Fin 8 → BitVec 64

/-- A bit for each lane. -/
abbrev Mask8 := Fin 8 → Bool

/-! ## Operations -/

def set1 (x : BitVec 64) : M512 := fun _ => x

def and (a b : M512) : M512 := fun l => a l &&& b l

/-- The bits of the second operand that the first one does not have. -/
def andnot (a b : M512) : M512 := fun l => ~~~(a l) &&& b l

def srli (a : M512) (n : ℕ) : M512 := fun l => a l >>> n

/-- The lanes in which the operands have a bit in common. -/
def testMask (a b : M512) : Mask8 := fun l => a l &&& b l != 0

def cmpeqMask (a b : M512) : Mask8 := fun l => a l == b l

/-- The comparison as signed numbers. -/
def cmpltMask (a b : M512) : Mask8 := fun l => (a l).slt (b l)

def maskCmpeqMask (k : Mask8) (a b : M512) : Mask8 := fun l => k l && a l == b l

/-- The conjunction in the lanes of the mask, zero in the others. -/
def maskzAnd (k : Mask8) (a b : M512) : M512 := fun l => if k l then a l &&& b l else 0

def maskSet1 (src : M512) (k : Mask8) (x : BitVec 64) : M512 := fun l => if k l then x else src l

def maskMov (src : M512) (k : Mask8) (a : M512) : M512 := fun l => if k l then a l else src l

def sub (a b : M512) : M512 := fun l => a l - b l

/-- Each lane from memory, at its own index. -/
def gather (index : M512) (memory : BitVec 64 → BitVec 64) : M512 := fun l => memory (index l)

def maskGather (src : M512) (k : Mask8) (index : M512) (memory : BitVec 64 → BitVec 64) : M512 :=
  fun l => if k l then memory (index l) else src l

/-- Every bit of the mask is set. -/
def Full (k : Mask8) : Prop := ∀ l, k l = true

instance (k : Mask8) : Decidable (Full k) := inferInstanceAs (Decidable (∀ _, _))

/-! ## Counting down -/

/-- Sixteen bits of a word, and the difference as unsigned numbers, at least zero. -/
def subsPart (x y : BitVec 64) (i : ℕ) : BitVec 16 :=
  let a := x.extractLsb' (16 * i) 16
  let b := y.extractLsb' (16 * i) 16
  if a.ult b then 0 else a - b

/-- The saturated difference in each sixteen bits of each lane. -/
def subsEpu16 (a b : M512) : M512 := fun l =>
  (subsPart (a l) (b l) 3 ++ subsPart (a l) (b l) 2 ++ subsPart (a l) (b l) 1 ++
    subsPart (a l) (b l) 0 : BitVec (16 + 16 + 16 + 16))

/-- The difference, with zero in the lanes where it is negative. -/
def subFloor (a b : M512) : M512 := maskSet1 (sub a b) (cmpltMask (sub a b) (set1 0)) 0

theorem exists_ofNat_of_lt {x : BitVec 64} (h : x.toNat < 128) :
    ∃ n : Fin 128, x = BitVec.ofNat 64 n := by
  refine ⟨⟨x.toNat, h⟩, ?_⟩
  rw [BitVec.ofNat_toNat, BitVec.setWidth_eq]

/-- Both subtractions take one from a small number. -/
theorem sub_one {a : M512} {l : Fin 8} (h : (a l).toNat < 128) :
    subsEpu16 a (set1 1) l = BitVec.ofNat 64 ((a l).toNat - 1) ∧
      subFloor a (set1 1) l = BitVec.ofNat 64 ((a l).toNat - 1) := by
  obtain ⟨n, hn⟩ := exists_ofNat_of_lt h
  have key : ∀ n : Fin 128,
      subsEpu16 (set1 (BitVec.ofNat 64 n)) (set1 1) 0 =
        BitVec.ofNat 64 ((BitVec.ofNat 64 n).toNat - 1) ∧
      subFloor (set1 (BitVec.ofNat 64 n)) (set1 1) 0 =
        BitVec.ofNat 64 ((BitVec.ofNat 64 n).toNat - 1) := by decide +kernel
  have := key n
  rw [← hn] at this
  exact this

/-! ## Rounds until every lane is done -/

section
variable {S : Type*} (finished : S → Mask8) (round : S → S)

/-- Rounds until the mask of the finished lanes is full; nothing when the fuel does not
suffice for that. -/
def untilFull : ℕ → S → Option S
  | 0, s => if Full (finished s) then some s else none
  | fuel + 1, s => if Full (finished s) then some s else untilFull fuel (round s)

variable {finished round}

/-- **The rule for the loop.**  The invariant holds at the end when every round keeps it;
and there is an end, when every lane that is not done has a positive number, at most the
fuel, that every round makes smaller. -/
theorem untilFull_spec {I : S → Prop} {m : S → Fin 8 → ℕ}
    (hround : ∀ s, I s → I (round s))
    (hpos : ∀ s l, I s → finished s l = false → 0 < m s l)
    (hless : ∀ s l, I s → finished (round s) l = false →
      finished s l = false ∧ m (round s) l < m s l)
    {fuel : ℕ} {s : S} (hs : I s) (hfuel : ∀ l, finished s l = false → m s l ≤ fuel) :
    ∃ s', untilFull finished round fuel s = some s' ∧ I s' ∧ Full (finished s') := by
  induction fuel generalizing s with
  | zero =>
    have hfull : Full (finished s) := by
      intro l
      by_contra hl
      rw [Bool.not_eq_true] at hl
      have hle := hfuel l hl
      have hlt := hpos s l hs hl
      omega
    exact ⟨s, by rw [untilFull, if_pos hfull], hs, hfull⟩
  | succ fuel ih =>
    by_cases hfull : Full (finished s)
    · exact ⟨s, by rw [untilFull, if_pos hfull], hs, hfull⟩
    · have hnext : ∀ l, finished (round s) l = false → m (round s) l ≤ fuel := by
        intro l hl
        obtain ⟨hl', hlt⟩ := hless s l hs hl
        have hle := hfuel l hl'
        omega
      obtain ⟨s', hrun, hs', hfull'⟩ := ih (hround s hs) hnext
      exact ⟨s', by rw [untilFull, if_neg hfull, hrun], hs', hfull'⟩

end

end Rtp.Simd
