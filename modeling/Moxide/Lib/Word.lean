import Mathlib

/-! Words of 64 bits as numbers: parts cut out by masks, and sums that do not wrap. -/

namespace Moxide.Lib.Word

theorem toNat_field {lo hi : Nat} (hle : lo ≤ hi) {mask : UInt64} (hmask : mask.toNat = 2 ^ hi - 2 ^ lo) (x : UInt64) :
    (x &&& mask).toNat = x.toNat % 2 ^ hi / 2 ^ lo * 2 ^ lo := by
  have hpow : 2 ^ hi - 2 ^ lo = (2 ^ (hi - lo) - 1) <<< lo := by
    rw [Nat.shiftLeft_eq, Nat.sub_mul, ← Nat.pow_add, Nat.sub_add_cancel hle, Nat.one_mul]
  have hdiv : x.toNat % 2 ^ hi / 2 ^ lo * 2 ^ lo = (x.toNat % 2 ^ hi) >>> lo <<< lo := by
    rw [Nat.shiftRight_eq_div_pow, Nat.shiftLeft_eq]
  rw [UInt64.toNat_and, hmask, hpow, hdiv]
  apply Nat.eq_of_testBit_eq
  intro i
  rw [Nat.testBit_and, Nat.testBit_shiftLeft, Nat.testBit_shiftLeft, Nat.testBit_shiftRight, Nat.testBit_two_pow_sub_one,
    Nat.testBit_mod_two_pow]
  by_cases hi' : lo ≤ i
  · rw [Nat.add_sub_cancel' hi']
    have hlt : i - lo < hi - lo ↔ i < hi := by omega
    simp [hi', hlt, Bool.and_comm]
  · simp [hi']

theorem toNat_clear_low {k : Nat} (hk : k ≤ 64) {mask : UInt64} (hmask : mask.toNat = 2 ^ 64 - 2 ^ k) (x : UInt64) :
    (x &&& mask).toNat = x.toNat / 2 ^ k * 2 ^ k := by
  rw [toNat_field hk hmask, Nat.mod_eq_of_lt x.toNat_lt]

theorem or_and_right (a b c : UInt64) : (a ||| b) &&& c = (a &&& c) ||| (b &&& c) := by
  apply UInt64.toBitVec_inj.mp
  simp only [UInt64.toBitVec_and, UInt64.toBitVec_or]
  exact BitVec.and_or_distrib_right

theorem toNat_add_of_lt {a b : UInt64} (h : a.toNat + b.toNat < 2 ^ 64) : (a + b).toNat = a.toNat + b.toNat := by
  rw [UInt64.toNat_add]
  exact Nat.mod_eq_of_lt h

theorem toNat_add_one {a : UInt64} (h : a ≠ 0xFFFFFFFFFFFFFFFF) : (a + 1).toNat = a.toNat + 1 := by
  have hne : a.toNat ≠ 2 ^ 64 - 1 := fun heq => h (UInt64.toNat_inj.mp heq)
  have hlt := a.toNat_lt
  exact toNat_add_of_lt (show a.toNat + 1 < 2 ^ 64 by omega)

end Moxide.Lib.Word
