import Mathlib

/-! Sequence numbers: `u32` arithmetic read as positions on a circle of `2^32` points. `dist a b` is how far
    one goes from `a` forward to `b`. -/

namespace Moxide.Lib.SeqNum

def dist (a b : UInt32) : Nat := (b - a).toNat

variable (a b c : UInt32) (n m : Nat)

theorem dist_lt : dist a b < 2 ^ 32 := (b - a).toNat_lt

@[simp] theorem dist_self : dist a a = 0 := by simp [dist]

theorem dist_eq : dist a b = (2 ^ 32 - a.toNat + b.toNat) % 2 ^ 32 := UInt32.toNat_sub b a

theorem toNat_ofNat' : n.toUInt32.toNat = n % 2 ^ 32 := UInt32.toNat_ofNat'

theorem dist_add : dist a (b + n.toUInt32) = (dist a b + n) % 2 ^ 32 := by
  have ha := a.toNat_lt
  have hb := b.toNat_lt
  rw [dist_eq, dist_eq, UInt32.toNat_add, toNat_ofNat']
  omega

/-- Two ways around from `a` over `b` to `c`: at most one of them passes the start again. -/
theorem dist_add_dist : dist a b + dist b c = dist a c ∨ dist a b + dist b c = dist a c + 2 ^ 32 := by
  have ha := a.toNat_lt
  have hb := b.toNat_lt
  have hc := c.toNat_lt
  rw [dist_eq, dist_eq, dist_eq]
  omega

theorem add_eq_add_iff : a + n.toUInt32 = b + m.toUInt32 ↔ n % 2 ^ 32 = (dist a b + m) % 2 ^ 32 := by
  have ha := a.toNat_lt
  have hb := b.toNat_lt
  rw [← UInt32.toNat_inj, UInt32.toNat_add, UInt32.toNat_add, toNat_ofNat', toNat_ofNat', dist_eq]
  omega

theorem add_add : a + n.toUInt32 + m.toUInt32 = a + (n + m).toUInt32 := by
  rw [UInt32.add_assoc]
  exact congrArg (a + ·) (UInt32.ofNat_add n m).symm

theorem add_eq_iff : a + n.toUInt32 = a + m.toUInt32 ↔ n % 2 ^ 32 = m % 2 ^ 32 := by
  rw [add_eq_add_iff, dist_self, Nat.zero_add]

/-- The half-open arc from `lo` to `hi`, as a comparison of numbers states it. -/
theorem mem_arc_iff (lo x hi : UInt32) : (if lo ≤ hi then lo ≤ x ∧ x < hi else lo ≤ x ∨ x < hi) ↔
    dist lo x < dist lo hi := by
  have hlo := lo.toNat_lt
  have hx := x.toNat_lt
  have hhi := hi.toNat_lt
  rw [dist_eq, dist_eq]
  simp only [UInt32.le_iff_toNat_le, UInt32.lt_iff_toNat_lt]
  split <;> omega

end Moxide.Lib.SeqNum
