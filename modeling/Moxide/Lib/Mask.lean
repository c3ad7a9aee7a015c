import Mathlib

/-! Sets of indices as bits: those below 64 in a word, and any number of them in a list of words. -/

namespace Moxide.Lib.Mask

def has (m : UInt64) (i : Nat) : Bool := m.toNat.testBit i

@[simp] theorem has_zero (i : Nat) : has 0 i = false := Nat.zero_testBit i

variable {i : Nat}

theorem toNat_one_shiftLeft (hi : i < 64) : ((1 : UInt64) <<< UInt64.ofNat i).toNat = 2 ^ i := by
  have hsize : i < UInt64.size := lt_trans hi (by decide)
  rw [UInt64.toNat_shiftLeft, UInt64.toNat_ofNat_of_lt' hsize, Nat.mod_eq_of_lt hi, UInt64.toNat_one,
    Nat.one_shiftLeft]
  exact Nat.mod_eq_of_lt (Nat.pow_lt_pow_right (by decide) hi)

variable (hi : i < 64) (m : UInt64)
include hi

theorem has_insert (j : Nat) : has (m ||| 1 <<< UInt64.ofNat i) j = (has m j || decide (i = j)) := by
  rw [has, UInt64.toNat_or, Nat.testBit_or, toNat_one_shiftLeft hi, Nat.testBit_two_pow]
  rfl

theorem has_erase (j : Nat) : has (m &&& ~~~(1 <<< UInt64.ofNat i)) j = (has m j && !decide (i = j)) := by
  have hbit : ((1 : UInt64) <<< UInt64.ofNat i).toBitVec.getLsbD j = decide (i = j) := by
    change ((1 : UInt64) <<< UInt64.ofNat i).toNat.testBit j = _
    rw [toNat_one_shiftLeft hi, Nat.testBit_two_pow]
  change (m &&& _).toBitVec.getLsbD j = (m.toBitVec.getLsbD j && _)
  rw [UInt64.toBitVec_and, BitVec.getLsbD_and, UInt64.toBitVec_not, BitVec.getLsbD_not, hbit]
  by_cases hj : j < 64
  · simp [hj]
  · simp [BitVec.getLsbD_of_ge m.toBitVec j (not_lt.mp hj)]

theorem and_bit_ne_zero : m &&& 1 <<< UInt64.ofNat i ≠ 0 ↔ has m i = true := by
  rw [ne_eq, ← UInt64.toNat_inj, UInt64.toNat_and, toNat_one_shiftLeft hi, Nat.and_two_pow, UInt64.toNat_zero, mul_eq_zero,
    Bool.toNat_eq_zero, or_iff_left (Nat.two_pow_pos i).ne', Bool.not_eq_false, has]

end Moxide.Lib.Mask

namespace Moxide.Lib.Bitmap
open Mask

/-- Whether the index is in the set; the words hold 64 indices each. -/
def test (words : List UInt64) (i : Nat) : Bool :=
  match words[i / 64]? with
  | some w => has w (i % 64)
  | none => false

def clear (words : List UInt64) (i : Nat) : List UInt64 :=
  words.modify (i / 64) fun w => w &&& ~~~(1 <<< UInt64.ofNat (i % 64))

def set (words : List UInt64) (i : Nat) : List UInt64 := words.modify (i / 64) fun w => w ||| 1 <<< UInt64.ofNat (i % 64)

variable {words : List UInt64} {j i : Nat}

theorem test_modify_ne {f : UInt64 → UInt64} {k : Nat} (h : k ≠ j / 64) : test (words.modify k f) j = test words j := by
  rw [test, List.getElem?_modify_ne _ _ h, test]

theorem test_modify_eq {f : UInt64 → UInt64} :
    test (words.modify (j / 64) f) j = match words[j / 64]? with
      | some w => has (f w) (j % 64)
      | none => false := by
  rw [test, List.getElem?_modify_eq]
  cases words[j / 64]? <;> rfl

theorem mod_ne_of_div_eq (hdiv : i / 64 = j / 64) (hne : i ≠ j) : i % 64 ≠ j % 64 := by
  omega

theorem test_clear (words : List UInt64) (i j : Nat) : test (clear words i) j = (test words j && !decide (i = j)) := by
  have hlt : i % 64 < 64 := Nat.mod_lt _ (by decide)
  by_cases hdiv : i / 64 = j / 64
  · rw [clear, hdiv, test_modify_eq, test]
    cases words[j / 64]? with
    | none => rfl
    | some w =>
      dsimp only
      rw [has_erase hlt]
      by_cases hij : i = j
      · simp [hij]
      · simp [hij, mod_ne_of_div_eq hdiv hij]
  · have hij : i ≠ j := fun h => hdiv (by rw [h])
    rw [clear, test_modify_ne hdiv]
    simp [hij]

theorem test_set_ne (words : List UInt64) (hne : i ≠ j) : test (set words i) j = test words j := by
  have hlt : i % 64 < 64 := Nat.mod_lt _ (by decide)
  by_cases hdiv : i / 64 = j / 64
  · rw [set, hdiv, test_modify_eq, test]
    cases words[j / 64]? with
    | none => rfl
    | some w =>
      dsimp only
      rw [has_insert hlt]
      simp [mod_ne_of_div_eq hdiv hne]
  · rw [set, test_modify_ne hdiv]

theorem test_set_self (h : i / 64 < words.length) : test (set words i) i := by
  rw [set, test_modify_eq, List.getElem?_eq_getElem h]
  simp [has_insert (Nat.mod_lt i (by decide : 0 < 64))]

end Moxide.Lib.Bitmap
