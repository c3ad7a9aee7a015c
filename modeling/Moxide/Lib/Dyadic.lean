import Mathlib

/-! Aligned blocks of numbers. The buddy of a block is the one with which it makes up a block of the next order. -/

namespace Moxide.Lib

def InBlock (f k g : Nat) : Prop := f ≤ g ∧ g < f + 2 ^ k

instance (f k g : Nat) : Decidable (InBlock f k g) := inferInstanceAs (Decidable (_ ∧ _))

def buddy (f k : Nat) : Nat := f ^^^ 2 ^ k

/-- The first number of the block of order `k` that `f` lies in. -/
def blockOf (f k : Nat) : Nat := f / 2 ^ k * 2 ^ k

section
variable {f g k j : Nat}

theorem inBlock_self : InBlock f k f := ⟨le_refl _, Nat.lt_add_of_pos_right (Nat.two_pow_pos k)⟩

theorem inBlock_zero : InBlock f 0 g ↔ g = f := by
  unfold InBlock
  omega

theorem blockOf_of_inBlock (hf : 2 ^ k ∣ f) (h : InBlock f k g) : blockOf g k = f := by
  obtain ⟨m, rfl⟩ := hf
  obtain ⟨h1, h2⟩ := h
  have hdiv : g / 2 ^ k = m := by
    rw [Nat.div_eq_iff (Nat.two_pow_pos k)]
    rw [mul_comm] at h1 h2
    have := Nat.two_pow_pos k
    omega
  rw [blockOf, hdiv, mul_comm]

theorem inBlock_inj {f' : Nat} (hf : 2 ^ k ∣ f) (hf' : 2 ^ k ∣ f') (h : InBlock f k g) (h' : InBlock f' k g) : f = f' :=
  (blockOf_of_inBlock hf h).symm.trans (blockOf_of_inBlock hf' h')

theorem add_le_of_lt {f' : Nat} (hf : 2 ^ k ∣ f) (hf' : 2 ^ k ∣ f') (h : f < f') : f + 2 ^ k ≤ f' := by
  refine Nat.le_of_not_lt fun hlt => ne_of_lt h ?_
  exact inBlock_inj hf hf' ⟨le_of_lt h, hlt⟩ inBlock_self

theorem dvd_blockOf : 2 ^ k ∣ blockOf f k := Nat.dvd_mul_left _ _

theorem blockOf_of_dvd (hf : 2 ^ k ∣ f) : blockOf f k = f := Nat.div_mul_cancel hf

theorem inBlock_blockOf : InBlock (blockOf g k) k g := by
  have hpos := Nat.two_pow_pos k
  have hmod := Nat.div_add_mod g (2 ^ k)
  have hlt := Nat.mod_lt g hpos
  unfold InBlock blockOf
  rw [mul_comm] at hmod
  omega

theorem blockOf_blockOf (hjk : j ≤ k) : blockOf (blockOf f j) k = blockOf f k := by
  obtain ⟨i, rfl⟩ := Nat.exists_eq_add_of_le hjk
  unfold blockOf
  rw [Nat.pow_add, ← Nat.div_div_eq_div_mul, Nat.mul_div_cancel _ (Nat.two_pow_pos j), Nat.div_div_eq_div_mul]

/-- A block of a lower order that shares a number with a block lies in it. -/
theorem inBlock_of_blockOf {x : Nat} (hf : 2 ^ k ∣ f) (hx : InBlock f k x) (hjk : j ≤ k)
    (hg : InBlock (blockOf x j) j g) : InBlock f k g := by
  have hsame : blockOf g k = f := by
    rw [← blockOf_blockOf hjk, blockOf_of_inBlock dvd_blockOf hg, blockOf_blockOf hjk, blockOf_of_inBlock hf hx]
  exact hsame ▸ inBlock_blockOf

theorem dvd_of_le (hjk : j ≤ k) (hf : 2 ^ k ∣ f) : 2 ^ j ∣ f := Nat.dvd_trans (Nat.pow_dvd_pow 2 hjk) hf

theorem inBlock_succ : InBlock f (k + 1) g ↔ InBlock f k g ∨ InBlock (f + 2 ^ k) k g := by
  unfold InBlock
  rw [pow_succ]
  omega

theorem not_inBlock_both (h : InBlock f k g) : ¬InBlock (f + 2 ^ k) k g := by
  unfold InBlock at *
  omega

theorem dvd_add_half (hf : 2 ^ (k + 1) ∣ f) : 2 ^ k ∣ f + 2 ^ k :=
  Nat.dvd_add (dvd_of_le (Nat.le_succ k) hf) (Nat.dvd_refl _)

theorem xor_one (m : Nat) : m ^^^ 1 = if m % 2 = 0 then m + 1 else m - 1 := by
  have hdiv : (m ^^^ 1) / 2 = m / 2 ^^^ 1 / 2 := Nat.xor_div_two
  have hmod : (m ^^^ 1) % 2 = (m + 1) % 2 := Nat.xor_mod_two_eq
  simp only [Nat.reduceDiv, Nat.xor_zero] at hdiv
  split <;> omega

theorem buddy_mul (m : Nat) : buddy (m * 2 ^ k) k = (m ^^^ 1) * 2 ^ k := by
  have h : (m ^^^ 1) <<< k = m <<< k ^^^ 1 <<< k := Nat.shiftLeft_xor_distrib
  simp only [Nat.shiftLeft_eq, one_mul] at h
  exact h.symm

/-- A block is the lower or the upper half of the block of the next order that it lies in. -/
theorem buddy_cases (hf : 2 ^ k ∣ f) :
    (blockOf f (k + 1) = f ∧ buddy f k = f + 2 ^ k) ∨
      (blockOf f (k + 1) = buddy f k ∧ f = buddy f k + 2 ^ k) := by
  obtain ⟨m, rfl⟩ := hf
  rw [mul_comm, buddy_mul, xor_one]
  have hblock : blockOf (m * 2 ^ k) (k + 1) = m / 2 * 2 * 2 ^ k := by
    unfold blockOf
    rw [pow_succ, mul_comm (2 ^ k) 2, Nat.mul_div_mul_right _ _ (Nat.two_pow_pos k), mul_assoc]
  rw [hblock]
  split
  · left
    refine ⟨?_, Nat.succ_mul m _⟩
    rw [show m / 2 * 2 = m by omega]
  right
  obtain ⟨q, rfl⟩ : ∃ q, m = q + 1 := ⟨m - 1, by omega⟩
  refine ⟨?_, Nat.succ_mul q _⟩
  rw [show (q + 1) / 2 * 2 = q by omega, Nat.add_sub_cancel]

variable (hf : 2 ^ k ∣ f)
include hf

theorem dvd_buddy : 2 ^ k ∣ buddy f k := by
  obtain ⟨m, rfl⟩ := hf
  rw [mul_comm, buddy_mul]
  exact Nat.dvd_mul_left _ _

theorem min_buddy : min f (buddy f k) = blockOf f (k + 1) := by
  rcases buddy_cases hf with ⟨hb, hbud⟩ | ⟨hb, hbud⟩ <;> omega

theorem inBlock_merge : InBlock (blockOf f (k + 1)) (k + 1) g ↔ InBlock f k g ∨ InBlock (buddy f k) k g := by
  rcases buddy_cases hf with ⟨hb, hbud⟩ | ⟨hb, hbud⟩
  · rw [hb, hbud]
    exact inBlock_succ
  · rw [hb, or_comm, inBlock_succ, ← hbud]

end

end Moxide.Lib
