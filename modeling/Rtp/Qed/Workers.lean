import Rtp.Qed.Chains

/-!
# One worker to a cache line

Keys are inserted by several workers at once.  `GetWorkerId` gives each key its worker, and
is meant to give the keys of one cache line of four buckets the same one, so that no two
workers write to a cache line.  The worker follows from the whole key, the bucket from the
low bits of the key.

* `cacheLine` — the first bucket of a cache line, as `OptimizeFreeBucket` computes it.
* `cacheLine_eq_iff` — keys share a cache line when they agree from bit 2 up to the bucket
  type.
* `getWorkerId_serial_iff` — **keys of one cache line have one worker exactly when the
  number of workers divides the number of cache lines.**
* `getWorkerId_parts` — three workers.
-/

namespace Rtp.Qed

open Mask

/-- `GetWorkerId`. -/
def getWorkerId (keyId workerCount : BitVec 64) : BitVec 64 := (keyId >>> 2) % workerCount

/-- The home slot of a key in a table with the given bucket type. -/
def homeSlot (b : ℕ) (keyId : BitVec 64) : BitVec 64 := keyId &&& ~~~keyInfoHiMask b

/-- The number of the first bucket in the cache line of a slot. -/
def cacheLine (slot : BitVec 64) : BitVec 64 := slot &&& (allMask64 <<< 2)

theorem toNat_homeSlot (b : ℕ) (keyId : BitVec 64) :
    (homeSlot b keyId).toNat = keyId.toNat % 2 ^ b :=
  toNat_and_lowMask_compl keyId b

/-- Slots share a cache line when they agree from bit 2 on. -/
theorem cacheLine_eq_iff {x y : BitVec 64} :
    cacheLine x = cacheLine y ↔ x.toNat / 4 = y.toNat / 4 := by
  have hline : ∀ z : BitVec 64, (cacheLine z).toNat = z.toNat / 4 * 4 :=
    fun z => toNat_and_lowMask z 2
  rw [← BitVec.toNat_inj, hline, hline]
  omega

theorem toNat_getWorkerId (keyId workerCount : BitVec 64) :
    (getWorkerId keyId workerCount).toNat = keyId.toNat / 4 % workerCount.toNat := by
  rw [getWorkerId, BitVec.toNat_umod, BitVec.toNat_ushiftRight, Nat.shiftRight_eq_div_pow]

/-- Keys share a cache line when they agree from bit 2 up to the bucket type. -/
theorem cacheLine_homeSlot_eq_iff {b : ℕ} (hb : 2 ≤ b) {k k' : BitVec 64} :
    cacheLine (homeSlot b k) = cacheLine (homeSlot b k') ↔
      k.toNat / 4 ≡ k'.toNat / 4 [MOD 2 ^ (b - 2)] := by
  have hpow : 2 ^ b = 4 * 2 ^ (b - 2) := by
    rw [show (4 : ℕ) = 2 ^ 2 from rfl, ← pow_add]
    congr 1
    omega
  rw [cacheLine_eq_iff, toNat_homeSlot, toNat_homeSlot, hpow, Nat.mod_mul_right_div_self,
    Nat.mod_mul_right_div_self]
  rfl

/-- **One worker to a cache line.**  For every bucket type and every number of workers: any
two keys whose home slots lie in one cache line have the same worker exactly when the
number of workers divides the number of cache lines, unless the table has a bucket for
every key. -/
theorem getWorkerId_serial_iff (b : ℕ) (hb : 2 ≤ b) (workerCount : BitVec 64) :
    (∀ k k', cacheLine (homeSlot b k) = cacheLine (homeSlot b k') →
      getWorkerId k workerCount = getWorkerId k' workerCount) ↔
    (b < 64 → workerCount.toNat ∣ 2 ^ (b - 2)) := by
  constructor
  · intro h hlt
    -- the keys `0` and `2 ^ b` have the home slot `0`
    have hkey : (BitVec.ofNat 64 (2 ^ b)).toNat / 4 = 2 ^ (b - 2) := by
      have hpow : 2 ^ b = 2 ^ (b - 2) * 4 := by
        rw [show (4 : ℕ) = 2 ^ 2 from rfl, ← pow_add]
        congr 1
        omega
      have hb64 : 2 ^ b < 2 ^ 64 := Nat.pow_lt_pow_right (by omega) hlt
      rw [BitVec.toNat_ofNat, Nat.mod_eq_of_lt hb64, hpow, Nat.mul_div_cancel _ (by omega)]
    have hworker := h 0 (BitVec.ofNat 64 (2 ^ b)) ((cacheLine_homeSlot_eq_iff hb).mpr (by
      rw [hkey]
      exact (Nat.zero_mod _).trans (Nat.mod_self _).symm))
    have hmod := congrArg BitVec.toNat hworker
    rw [toNat_getWorkerId, toNat_getWorkerId, hkey] at hmod
    exact Nat.dvd_of_mod_eq_zero (hmod.symm.trans (Nat.zero_mod _))
  · intro h k k' hline
    rw [cacheLine_homeSlot_eq_iff hb] at hline
    apply BitVec.eq_of_toNat_eq
    rw [toNat_getWorkerId, toNat_getWorkerId]
    by_cases hlt : b < 64
    · exact hline.of_dvd (h hlt)
    · -- nothing is cut off, and the keys agree from bit 2 on
      have hle : 2 ^ 62 ≤ 2 ^ (b - 2) := Nat.pow_le_pow_right (by omega) (by omega)
      have hk := k.isLt
      have hk' := k'.isLt
      have heq : k.toNat / 4 = k'.toNat / 4 := by
        unfold Nat.ModEq at hline
        rwa [Nat.mod_eq_of_lt (by omega), Nat.mod_eq_of_lt (by omega)] at hline
      rw [heq]

/-- Four workers, and a table of sixteen buckets. -/
theorem getWorkerId_serial_iff_four :
    2 ≤ 4 ∧ ∀ k k', cacheLine (homeSlot 4 k) = cacheLine (homeSlot 4 k') →
      getWorkerId k 4 = getWorkerId k' 4 :=
  ⟨by decide, (getWorkerId_serial_iff 4 (by decide) 4).mpr fun _ => by decide⟩

/-- **Two workers for one bucket.**  With three workers, and with four workers and a table
of eight buckets, two keys of the home slot `0` go to different workers. -/
theorem getWorkerId_parts :
    homeSlot 4 0 = homeSlot 4 16 ∧ getWorkerId 0 3 ≠ getWorkerId 16 3 ∧
      homeSlot 3 0 = homeSlot 3 8 ∧ getWorkerId 0 4 ≠ getWorkerId 8 4 := by
  decide +kernel

end Rtp.Qed
