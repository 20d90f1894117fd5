import Mathlib.Data.BitVec

/-!
# Words that pack two fields

A word split by a mask `m` holds one field in the bits of `m` and another in the
remaining bits.  `splice m x y` is the word with the first field of `x` and the
second of `y`.

* `splice_and_mask`, `splice_and_compl` — each field reads back as it was put in.
* `eq_of_masked` — a word is known from its two fields.
* `lowMask b` — the mask of the bits from `b` upwards.  What it leaves is the
  residue modulo `2 ^ b` (`toNat_and_lowMask_compl`), so that the words below
  `2 ^ b` are those whose upper field is empty (`and_compl_eq_self_iff`); what it keeps
  is the multiple of `2 ^ b` below (`toNat_and_lowMask`); as a number it is `2 ^ w - 2 ^ b`
  (`lowMask_eq_ofNat`).
* `and_lowMask_eq_of_lt` — the border of the two fields can be moved where there is
  nothing between the old one and the new one.
-/

namespace Rtp.Mask

variable {w : ℕ}

/-- The word with the bits of `x` inside the mask and those of `y` outside. -/
def splice (m x y : BitVec w) : BitVec w := (x &&& m) ||| (y &&& ~~~m)

@[simp] theorem splice_and_mask (m x y : BitVec w) : splice m x y &&& m = x &&& m := by
  ext i hi
  simp only [splice, BitVec.getElem_and, BitVec.getElem_or, BitVec.getElem_not]
  cases m[i] <;> simp

@[simp] theorem splice_and_compl (m x y : BitVec w) : splice m x y &&& ~~~m = y &&& ~~~m := by
  ext i hi
  simp only [splice, BitVec.getElem_and, BitVec.getElem_or, BitVec.getElem_not]
  cases m[i] <;> simp

/-- A word is known from its two fields. -/
theorem eq_of_masked {m x y : BitVec w} (h : x &&& m = y &&& m)
    (h' : x &&& ~~~m = y &&& ~~~m) : x = y := by
  ext i hi
  have hm := congrArg (fun z : BitVec w => z[i]) h
  have hc := congrArg (fun z : BitVec w => z[i]) h'
  simp only [BitVec.getElem_and, BitVec.getElem_not] at hm hc
  cases hmi : m[i] <;> simp_all

/-- Masking twice is masking once. -/
theorem and_compl_idem (m x : BitVec w) : x &&& ~~~m &&& ~~~m = x &&& ~~~m := by
  rw [BitVec.and_assoc, BitVec.and_self]

/-- The mask of the bits from `b` upwards. -/
def lowMask (w b : ℕ) : BitVec w := BitVec.allOnes w <<< b

theorem getElem_lowMask {b i : ℕ} (hi : i < w) : (lowMask w b)[i] = decide (b ≤ i) := by
  simp only [lowMask, BitVec.getElem_shiftLeft]
  by_cases h : i < b
  · simp [h]
  · simp [h, Nat.not_lt.1 h]

/-- What is left of a word below bit `b` is its residue modulo `2 ^ b`. -/
theorem toNat_and_lowMask_compl (x : BitVec w) (b : ℕ) :
    (x &&& ~~~lowMask w b).toNat = x.toNat % 2 ^ b := by
  refine Nat.eq_of_testBit_eq fun i => ?_
  rw [BitVec.testBit_toNat, Nat.testBit_mod_two_pow, BitVec.testBit_toNat]
  by_cases hi : i < w
  · rw [BitVec.getLsbD_eq_getElem hi, BitVec.getLsbD_eq_getElem hi, BitVec.getElem_and,
      BitVec.getElem_not, getElem_lowMask hi]
    by_cases hb : i < b
    · simp [hb, Nat.not_le.2 hb]
    · simp [hb, Nat.not_lt.1 hb]
  · rw [BitVec.getLsbD_of_ge _ _ (Nat.not_lt.1 hi), BitVec.getLsbD_of_ge _ _ (Nat.not_lt.1 hi),
      Bool.and_false]

/-- What is left of a word from bit `b` upwards is the multiple of `2 ^ b` below it. -/
theorem toNat_and_lowMask (x : BitVec w) (b : ℕ) :
    (x &&& lowMask w b).toNat = x.toNat / 2 ^ b * 2 ^ b := by
  refine Nat.eq_of_testBit_eq fun i => ?_
  rw [BitVec.testBit_toNat, Nat.testBit_mul_two_pow, Nat.testBit_div_two_pow, BitVec.testBit_toNat]
  by_cases hi : i < w
  · rw [BitVec.getLsbD_eq_getElem hi, BitVec.getElem_and, getElem_lowMask hi]
    by_cases hb : b ≤ i
    · simp [hb, BitVec.getLsbD_eq_getElem hi, Nat.sub_add_cancel hb]
    · simp [hb]
  · rw [BitVec.getLsbD_of_ge _ _ (Nat.not_lt.1 hi)]
    by_cases hb : b ≤ i
    · rw [Nat.sub_add_cancel hb, BitVec.getLsbD_of_ge _ _ (Nat.not_lt.1 hi), Bool.and_false]
    · simp [hb]

/-- The mask as a number. -/
theorem lowMask_eq_ofNat {b : ℕ} (h : b ≤ w) : lowMask w b = BitVec.ofNat w (2 ^ w - 2 ^ b) := by
  have hsplit : 2 ^ w = 2 ^ (w - b) * 2 ^ b := by rw [← Nat.pow_add, Nat.sub_add_cancel h]
  have hb := Nat.two_pow_pos b
  have hdiv : (2 ^ w - 1) / 2 ^ b = 2 ^ (w - b) - 1 := by
    rw [hsplit, Nat.mul_comm, Nat.mul_sub_div 0 _ _ (Nat.mul_pos hb (Nat.two_pow_pos _)),
      Nat.zero_div]
  have hvalue := toNat_and_lowMask (BitVec.allOnes w) b
  rw [BitVec.allOnes_and, BitVec.toNat_allOnes, hdiv, Nat.sub_mul, Nat.one_mul, ← hsplit] at hvalue
  rw [← hvalue, BitVec.ofNat_toNat, BitVec.setWidth_eq]

/-- The words below `2 ^ b` are those with nothing from bit `b` upwards. -/
theorem and_compl_eq_self_iff {x : BitVec w} {b : ℕ} :
    x &&& ~~~lowMask w b = x ↔ x.toNat < 2 ^ b := by
  rw [← BitVec.toNat_inj, toNat_and_lowMask_compl]
  constructor
  · intro h
    rw [← h]
    exact Nat.mod_lt _ (Nat.two_pow_pos b)
  · exact Nat.mod_eq_of_lt

/-- When the field below bit `b'` has nothing from bit `b` upwards, moving the border of
the two fields from `b` to `b'` changes neither. -/
theorem and_lowMask_eq_of_lt {x : BitVec w} {b b' : ℕ} (hb : b ≤ b')
    (h : x.toNat % 2 ^ b' < 2 ^ b) :
    x &&& lowMask w b' = x &&& lowMask w b ∧ x &&& ~~~lowMask w b' = x &&& ~~~lowMask w b := by
  have hlow : x &&& ~~~lowMask w b' = x &&& ~~~lowMask w b := by
    rw [← BitVec.toNat_inj, toNat_and_lowMask_compl, toNat_and_lowMask_compl,
      ← Nat.mod_mod_of_dvd _ (Nat.pow_dvd_pow 2 hb), Nat.mod_eq_of_lt h]
  refine ⟨?_, hlow⟩
  ext i hi
  have hbit := congrArg (fun z : BitVec w => z[i]) hlow
  simp only [BitVec.getElem_and, BitVec.getElem_not, getElem_lowMask hi] at hbit ⊢
  by_cases hi' : b' ≤ i
  · simp [hi', hb.trans hi']
  · by_cases hib : b ≤ i
    · simpa [hi', hib] using hbit
    · simp [hi', hib]

/-- The upper field alone decides whether there is anything between the two borders. -/
theorem lt_of_and_lowMask_eq {x y : BitVec w} {b b' : ℕ} (hb : b ≤ b')
    (hxy : x &&& lowMask w b = y &&& lowMask w b) (h : y.toNat % 2 ^ b' < 2 ^ b) :
    x.toNat % 2 ^ b' < 2 ^ b := by
  have hlow : x &&& ~~~lowMask w b' = x &&& ~~~lowMask w b := by
    have hy := (and_lowMask_eq_of_lt hb h).2
    ext i hi
    have hbit := congrArg (fun z : BitVec w => z[i]) hy
    have hhigh := congrArg (fun z : BitVec w => z[i]) hxy
    simp only [BitVec.getElem_and, BitVec.getElem_not, getElem_lowMask hi] at hbit hhigh ⊢
    by_cases hib : b ≤ i
    · simp only [hib, decide_true, Bool.and_true] at hhigh
      rw [hhigh]
      exact hbit
    · simp [hib, show ¬ b' ≤ i by omega]
  rw [← toNat_and_lowMask_compl, hlow, toNat_and_lowMask_compl]
  exact Nat.mod_lt _ (Nat.two_pow_pos b)

end Rtp.Mask
