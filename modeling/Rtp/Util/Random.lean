import Mathlib.Data.Nat.GCD.Basic

/-!
# The random numbers of a thread

`orc::Random` (`orc/util/utils.cc`): each thread has a number, which is returned and then
replaced as in `std::minstd_rand`, by its product with 48271 modulo 2³¹ - 1.  The product is
computed in 32 bits.

* `random` — one call, with the meta information of the thread before and after it.
* `value` — the values that are returned; `value_succ` — how each follows from the one before.
* `minstd` — the sequence it is taken from, which does not reach zero (`minstd_ne_zero`).
* `step_eq_iff` — **one step** is right if and only if the product fits into 32 bits.
* `value_eq_minstd_iff` — the values are right as long as all products fit.
-/

namespace Rtp.Util.Random

/-! ## The generator -/

/-- What `Random` reads of the meta information of a thread. -/
structure ThreadMeta where
  init : Bool
  rand : ℕ
  deriving DecidableEq, Repr

/-- `RandomMax`. -/
def randomMax : ℕ := 2147483647

/-- `GetThreadMeta`; `hash` is the hash of the thread's id. -/
def getThreadMeta (hash : ℕ) (m : ThreadMeta) : ThreadMeta :=
  if m.init then m else ⟨true, hash % randomMax⟩

/-- `Random`: the value, and the meta information after it; the product is an `uint32_t`. -/
def random (hash : ℕ) (m : ThreadMeta) : ℕ × ThreadMeta :=
  let m := getThreadMeta hash m
  (m.rand, { m with rand := m.rand * 48271 % 4294967296 % randomMax })

/-- The meta information after some calls. -/
def metaAfter (hash : ℕ) (m : ThreadMeta) : ℕ → ThreadMeta
  | 0 => m
  | n + 1 => (random hash (metaAfter hash m n)).2

/-- The values that are returned. -/
def value (hash : ℕ) (m : ThreadMeta) (n : ℕ) : ℕ := (random hash (metaAfter hash m n)).1

/-- The sequence of `std::minstd_rand`. -/
def minstd (seed n : ℕ) : ℕ := seed * 48271 ^ n % randomMax

variable {hash seed n : ℕ} {m : ThreadMeta}

theorem init_random (hash : ℕ) (m : ThreadMeta) : (random hash m).2.init = true := by
  obtain ⟨init, rand⟩ := m
  cases init with
  | false => rfl
  | true => rfl

/-- A thread that has called `Random` keeps its number. -/
theorem value_succ (hash : ℕ) (m : ThreadMeta) (n : ℕ) :
    value hash m (n + 1) = value hash m n * 48271 % 4294967296 % randomMax := by
  show (getThreadMeta hash (random hash (metaAfter hash m n)).2).rand = _
  rw [getThreadMeta, if_pos (init_random hash _)]
  rfl

/-! ## The sequence it should be -/

theorem minstd_succ (seed n : ℕ) : minstd seed (n + 1) = minstd seed n * 48271 % randomMax := by
  rw [minstd, minstd, pow_succ, ← Nat.mul_assoc, Nat.mod_mul_mod]

theorem minstd_zero (h : seed < randomMax) : minstd seed 0 = seed := by
  rw [minstd, pow_zero, Nat.mul_one, Nat.mod_eq_of_lt h]

theorem minstd_lt (seed n : ℕ) : minstd seed n < randomMax := Nat.mod_lt _ (by decide)

/-- The factor has an inverse, so that only zero leads to zero. -/
theorem minstd_ne_zero (hpos : 0 < seed) (h : seed < randomMax) (n : ℕ) : minstd seed n ≠ 0 := by
  intro hzero
  have hcop : Nat.Coprime randomMax (48271 ^ n) := Nat.Coprime.pow_right n (by decide)
  have hdvd : randomMax ∣ seed := hcop.dvd_of_dvd_mul_right (Nat.dvd_of_mod_eq_zero hzero)
  exact absurd (Nat.le_of_dvd hpos hdvd) (by omega)

/-! ## When the values are right -/

/-- 2³² is 2 modulo 2³¹ - 1, so that few of it make no multiple of 2³¹ - 1. -/
theorem not_dvd_mul {q : ℕ} (hpos : 0 < q) (hq : q < 48271) : ¬randomMax ∣ 4294967296 * q := by
  have hsmall : 2 * q < 2147483647 := by omega
  have hsplit : 4294967296 * q = 2147483647 * (2 * q) + 2 * q := by omega
  intro hdvd
  rw [hsplit, randomMax] at hdvd
  have hrest := (Nat.dvd_add_right (Nat.dvd_mul_right 2147483647 (2 * q))).mp hdvd
  have hzero := Nat.eq_zero_of_dvd_of_lt hrest hsmall
  exact absurd hzero (Nat.mul_ne_zero two_ne_zero (Nat.ne_of_gt hpos))

/-- One step is right if and only if the product fits into 32 bits: what is cut off is no multiple
of the modulus. -/
theorem step_eq_iff {x : ℕ} (h : x < randomMax) :
    x * 48271 % 4294967296 % randomMax = x * 48271 % randomMax ↔ x * 48271 < 4294967296 := by
  constructor
  · intro heq
    have hdvd : randomMax ∣ x * 48271 - x * 48271 % 4294967296 :=
      Nat.dvd_of_mod_eq_zero (Nat.sub_mod_eq_zero_of_mod_eq heq.symm)
    rw [← Nat.mul_div_self_eq_mod_sub_self] at hdvd
    have hquot : x * 48271 / 4294967296 < 48271 := by
      refine Nat.div_lt_of_lt_mul (Nat.mul_lt_mul_of_pos_right ?_ (by decide))
      exact Nat.lt_trans h (by decide)
    by_contra hle
    exact not_dvd_mul (Nat.div_pos (Nat.not_lt.mp hle) (by decide)) hquot hdvd
  · intro hlt
    rw [Nat.mod_eq_of_lt hlt]

/-- The values are those of the sequence, and never zero, as long as all products fit into 32
bits. -/
theorem value_eq_minstd_iff (hash seed n : ℕ) (m : ThreadMeta) (hpos : 1 ≤ seed)
    (hle : seed ≤ 2 ^ 31 - 2) (hseed : (getThreadMeta hash m).rand = seed) :
    (∀ k ≤ n, value hash m k = minstd seed k ∧ value hash m k ≠ 0) ↔
      ∀ k < n, minstd seed k * 48271 < 2 ^ 32 := by
  have hlt : seed < randomMax := Nat.lt_of_le_of_lt hle (by decide)
  constructor
  · intro h k hk
    have hnext := (h (k + 1) hk).1
    rwa [value_succ, (h k (Nat.le_of_lt hk)).1, minstd_succ, step_eq_iff (minstd_lt seed k)]
      at hnext
  · intro h k hk
    have hval : value hash m k = minstd seed k := by
      induction k with
      | zero =>
        rw [minstd_zero hlt]
        exact hseed
      | succ k ih =>
        rw [value_succ, ih (Nat.le_of_succ_le hk), minstd_succ, step_eq_iff (minstd_lt seed k)]
        exact h k hk
    rw [hval]
    exact ⟨rfl, minstd_ne_zero hpos hlt k⟩

/-- One step from the seed 1. -/
theorem value_eq_minstd_one :
    (1 ≤ 1 ∧ 1 ≤ 2 ^ 31 - 2 ∧ (getThreadMeta 0 ⟨true, 1⟩).rand = 1) ∧
      ((∀ k ≤ 1, value 0 ⟨true, 1⟩ k = minstd 1 k ∧ value 0 ⟨true, 1⟩ k ≠ 0) ↔
        ∀ k < 1, minstd 1 k * 48271 < 2 ^ 32) :=
  ⟨by decide, value_eq_minstd_iff 0 1 1 ⟨true, 1⟩ (by decide) (by decide) rfl⟩

/-- A thread whose number is zero does not leave it. -/
theorem value_eq_zero_of_le {k : ℕ} (h : value hash m k = 0) (hle : k ≤ n) :
    value hash m n = 0 := by
  induction hle with
  | refl => exact h
  | step _ ih =>
    rw [value_succ, ih]
    rfl

/-- From the seed 1622613393 the generator comes to zero with its second value, and stays there. -/
theorem value_zero_seed :
    1 ≤ 1622613393 ∧ 1622613393 ≤ 2 ^ 31 - 2 ∧
      (getThreadMeta 0 ⟨true, 1622613393⟩).rand = 1622613393 ∧
      ¬(∀ k ≤ 1, value 0 ⟨true, 1622613393⟩ k = minstd 1622613393 k ∧
        value 0 ⟨true, 1622613393⟩ k ≠ 0) ∧
      ∀ n, 1 ≤ n → value 0 ⟨true, 1622613393⟩ n = 0 := by
  have hzero : value 0 ⟨true, 1622613393⟩ 1 = 0 := by decide
  exact ⟨by decide, by decide, rfl, fun h => (h 1 le_rfl).2 hzero,
    fun n hn => value_eq_zero_of_le hzero hn⟩

end Rtp.Util.Random
