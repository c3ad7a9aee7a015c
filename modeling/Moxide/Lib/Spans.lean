import Moxide.Lib.Bytes

/-! Runs of bytes in a memory, read and written as lists, and memories that agree up to single bits. -/

namespace Moxide.Lib.Mem
open List

def read (m : Mem) (a n : Nat) : List UInt8 := (List.range n).map fun i => m (a + i)

def write (m : Mem) (a : Nat) : List UInt8 → Mem
  | [] => m
  | b :: bs => Function.update (write m (a + 1) bs) a b

/-- The memories agree on every bit except the places `w`: an address and a bit number. -/
def BitsExcept (m m' : Mem) (w : Nat → Nat → Prop) : Prop :=
  ∀ x i, i < 8 → ¬w x i → (m' x).toNat.testBit i = (m x).toNat.testBit i

variable {m m' m'' : Mem} {a n x : Nat}

@[simp] theorem length_read (m : Mem) (a n : Nat) : (read m a n).length = n := by
  rw [read, length_map, length_range]

theorem Same.read_eq (h : Same m m' a n) : read m' a n = read m a n := by
  refine map_congr_left fun i hi => h (a + i) (Nat.le_add_right a i) ?_
  exact Nat.add_lt_add_left (mem_range.mp hi) a

theorem write_except (m : Mem) (a : Nat) (bs : List UInt8) : Except m (write m a bs) fun x => a ≤ x ∧ x < a + bs.length := by
  induction bs generalizing a with
  | nil => exact Except.refl m _
  | cons b bs ih =>
    intro x hx
    rw [length_cons] at hx
    have hne : x ≠ a := fun heq => hx ⟨by omega, by omega⟩
    rw [write, Function.update_of_ne hne]
    exact ih (a + 1) x fun hin => hx ⟨by omega, by omega⟩

theorem Same.of_load_eq (h : load m' a n = load m a n) : Same m m' a n := by
  induction n generalizing a with
  | zero => exact fun x hlo hhi => absurd hhi (not_lt.mpr hlo)
  | succ n ih =>
    have hlt := (m a).toNat_lt
    have hlt' := (m' a).toNat_lt
    rw [load, load] at h
    intro x hlo hhi
    rcases Nat.eq_or_lt_of_le hlo with rfl | hgt
    · exact UInt8.toNat.inj (by omega)
    · have hrest : load m' (a + 1) n = load m (a + 1) n := by omega
      exact ih hrest x hgt (by omega)

/-! ### Single bits -/

theorem byte_ext {b b' : UInt8} (h : ∀ i, i < 8 → b'.toNat.testBit i = b.toNat.testBit i) : b' = b :=
  UInt8.toBitVec_inj.mp (BitVec.eq_of_getLsbD_eq h)

variable {i : Nat} {w : Nat → Nat → Prop}

theorem toNat_bit (hi : i < 8) : ((1 : UInt8) <<< UInt8.ofNat i).toNat = 2 ^ i := by
  have hsize : i < UInt8.size := lt_trans hi (by decide)
  have hpow : 2 ^ i < 2 ^ 8 := Nat.pow_lt_pow_right (by decide) hi
  rw [UInt8.toNat_shiftLeft, UInt8.toNat_ofNat_of_lt' hsize, Nat.mod_eq_of_lt hi, UInt8.toNat_one, Nat.one_shiftLeft,
    Nat.mod_eq_of_lt hpow]

section
variable (hi : i < 8) (b : UInt8)
include hi

theorem testBit_setBit (j : Nat) :
    (b ||| (1 : UInt8) <<< UInt8.ofNat i).toNat.testBit j = (b.toNat.testBit j || decide (i = j)) := by
  rw [UInt8.toNat_or, Nat.testBit_or, toNat_bit hi, Nat.testBit_two_pow]

theorem testBit_clearBit {j : Nat} (hj : j < 8) :
    (b &&& ~~~((1 : UInt8) <<< UInt8.ofNat i)).toNat.testBit j = (b.toNat.testBit j && !decide (i = j)) := by
  have hlt : 2 ^ i < 2 ^ 8 := Nat.pow_lt_pow_right (by decide) hi
  have hsize : UInt8.size = 2 ^ 8 := rfl
  rw [UInt8.toNat_and, Nat.testBit_and, UInt8.toNat_not, toNat_bit hi, hsize, Nat.sub_sub, add_comm,
    Nat.testBit_two_pow_sub_succ hlt, Nat.testBit_two_pow, decide_eq_true hj, Bool.true_and]

theorem and_bit_eq_zero : b &&& (1 : UInt8) <<< UInt8.ofNat i = 0 ↔ b.toNat.testBit i = false := by
  rw [← UInt8.toNat_inj, UInt8.toNat_and, toNat_bit hi, Nat.and_two_pow, UInt8.toNat_zero, mul_eq_zero, Bool.toNat_eq_zero]
  exact or_iff_left (Nat.two_pow_pos i).ne'

end

theorem BitsExcept.refl (m : Mem) (w : Nat → Nat → Prop) : BitsExcept m m w := fun _ _ _ _ => rfl

theorem BitsExcept.trans (h : BitsExcept m m' w) (h' : BitsExcept m' m'' w) : BitsExcept m m'' w :=
  fun x i hi hw => (h' x i hi hw).trans (h x i hi hw)

theorem BitsExcept.mono {w' : Nat → Nat → Prop} (h : BitsExcept m m' w) (hw : ∀ x i, w x i → w' x i) :
    BitsExcept m m' w' := fun x i hi hn => h x i hi fun hx => hn (hw x i hx)

theorem Except.bits {w : Nat → Prop} {w' : Nat → Nat → Prop} (h : Except m m' w) (hw : ∀ x i, w x → w' x i) :
    BitsExcept m m' w' := fun x i _ hn => by rw [h x fun hx => hn (hw x i hx)]

theorem BitsExcept.eq (h : BitsExcept m m' w) (hx : ∀ i, i < 8 → ¬w x i) : m' x = m x :=
  byte_ext fun i hi => h x i hi (hx i hi)

theorem BitsExcept.same (h : BitsExcept m m' w) (hout : ∀ x i, a ≤ x → x < a + n → ¬w x i) : Same m m' a n :=
  fun x hlo hhi => h.eq fun i _ => hout x i hlo hhi

end Moxide.Lib.Mem
