import Mathlib

/-! Numbers as lists of bytes, low byte first. -/

namespace Moxide.Lib.LittleEndian

def toBytes : Nat → Nat → List UInt8
  | 0, _ => []
  | n + 1, v => UInt8.ofNat v :: toBytes n (v / 256)

def ofBytes : List UInt8 → Nat
  | [] => 0
  | b :: bs => b.toNat + 256 * ofBytes bs

@[simp] theorem length_toBytes (n v : Nat) : (toBytes n v).length = n := by
  induction n generalizing v with
  | zero => rfl
  | succ n ih => rw [toBytes, List.length_cons, ih]

theorem ofBytes_toBytes (n v : Nat) : ofBytes (toBytes n v) = v % 256 ^ n := by
  induction n generalizing v with
  | zero => rw [toBytes, ofBytes, Nat.pow_zero, Nat.mod_one]
  | succ n ih =>
    have hbyte : (UInt8.ofNat v).toNat = v % 256 := UInt8.toNat_ofNat'
    rw [toBytes, ofBytes, ih, hbyte, Nat.pow_succ', Nat.mod_mul]

@[simp] theorem ofNat_ofBytes_32 (v : UInt32) : UInt32.ofNat (ofBytes (toBytes 4 v.toNat)) = v := by
  have hlt : v.toNat < 256 ^ 4 := v.toNat_lt
  rw [ofBytes_toBytes, Nat.mod_eq_of_lt hlt, UInt32.ofNat_toNat]

@[simp] theorem ofNat_ofBytes_64 (v : UInt64) : UInt64.ofNat (ofBytes (toBytes 8 v.toNat)) = v := by
  have hlt : v.toNat < 256 ^ 8 := v.toNat_lt
  rw [ofBytes_toBytes, Nat.mod_eq_of_lt hlt, UInt64.ofNat_toNat]

end Moxide.Lib.LittleEndian

/-! Memory as bytes by address. Numbers are loaded and stored low byte first. -/

namespace Moxide.Lib

abbrev Mem := Nat → UInt8

namespace Mem

def load (m : Mem) (a : Nat) : Nat → Nat
  | 0 => 0
  | n + 1 => (m a).toNat + 256 * load m (a + 1) n

def store (m : Mem) (a : Nat) : Nat → Nat → Mem
  | 0, _ => m
  | n + 1, v => Function.update (store m (a + 1) n (v / 256)) a (UInt8.ofNat v)

def fill (m : Mem) (a : Nat) (b : UInt8) : Nat → Mem
  | 0 => m
  | n + 1 => Function.update (fill m (a + 1) b n) a b

def Same (m m' : Mem) (a n : Nat) : Prop := ∀ x, a ≤ x → x < a + n → m' x = m x

def Except (m m' : Mem) (w : Nat → Prop) : Prop := ∀ x, ¬w x → m' x = m x

variable {m m' m'' : Mem} {a b k n v x : Nat}

theorem Except.refl (m : Mem) (w : Nat → Prop) : Except m m w := fun _ _ => rfl

theorem Except.trans {w : Nat → Prop} (h : Except m m' w) (h' : Except m' m'' w) : Except m m'' w :=
  fun x hx => (h' x hx).trans (h x hx)

theorem Except.mono {w w' : Nat → Prop} (h : Except m m' w) (hw : ∀ x, w x → w' x) : Except m m' w' :=
  fun x hx => h x fun hwx => hx (hw x hwx)

theorem Except.same {w : Nat → Prop} (h : Except m m' w) (hout : ∀ x, a ≤ x → x < a + n → ¬w x) : Same m m' a n :=
  fun x hlo hhi => h x (hout x hlo hhi)

theorem Same.load_eq (h : Same m m' a n) : load m' a n = load m a n := by
  induction n generalizing a with
  | zero => rfl
  | succ n ih =>
    have hrest : Same m m' (a + 1) n := fun x hlo hhi => h x (by omega) (by omega)
    rw [load, load, ih hrest, h a (le_refl a) (by omega)]

theorem Same.mono (h : Same m m' a n) (hlo : a ≤ b) (hhi : b + k ≤ a + n) : Same m m' b k :=
  fun x hx hx' => h x (by omega) (by omega)

section
variable (m : Mem)

theorem load_lt (a n : Nat) : load m a n < 256 ^ n := by
  induction n generalizing a with
  | zero => exact Nat.one_pos
  | succ n ih =>
    have hbyte := (m a).toNat_lt
    have hrest := ih (a + 1)
    rw [load]
    omega

theorem store_except (a n v : Nat) : Except m (store m a n v) fun x => a ≤ x ∧ x < a + n := by
  induction n generalizing a v with
  | zero => exact Except.refl m _
  | succ n ih =>
    intro x hx
    have hne : x ≠ a := fun heq => hx ⟨by omega, by omega⟩
    rw [store, Function.update_of_ne hne]
    exact ih (a + 1) (v / 256) x fun hin => hx ⟨by omega, by omega⟩

theorem fill_except (a : Nat) (c : UInt8) (n : Nat) : Except m (fill m a c n) fun x => a ≤ x ∧ x < a + n := by
  induction n generalizing a with
  | zero => exact Except.refl m _
  | succ n ih =>
    intro x hx
    have hne : x ≠ a := fun heq => hx ⟨by omega, by omega⟩
    rw [fill, Function.update_of_ne hne]
    exact ih (a + 1) x fun hin => hx ⟨by omega, by omega⟩

theorem load_store (a n v : Nat) : load (store m a n v) a n = v % 256 ^ n := by
  induction n generalizing a v with
  | zero => rw [load, Nat.pow_zero, Nat.mod_one]
  | succ n ih =>
    have hrest : Same (store m (a + 1) n (v / 256)) (store m a (n + 1) v) (a + 1) n := by
      intro x hlo _
      rw [store, Function.update_of_ne (by omega)]
    have hbyte : (UInt8.ofNat v).toNat = v % 256 := UInt8.toNat_ofNat'
    rw [load, hrest.load_eq, ih, store, Function.update_self, hbyte, pow_succ', Nat.mod_mul]

theorem load_store_of_lt (a : Nat) (h : v < 256 ^ n) : load (store m a n v) a n = v := by
  rw [load_store, Nat.mod_eq_of_lt h]

end

theorem load_store_ne (h : b + k ≤ a ∨ a + n ≤ b) : load (store m a n v) b k = load m b k :=
  ((store_except m a n v).same fun _ hlo hhi hin => by omega).load_eq

theorem load_fill_ne {c : UInt8} (h : b + k ≤ a ∨ a + n ≤ b) : load (fill m a c n) b k = load m b k :=
  ((fill_except m a c n).same fun _ hlo hhi hin => by omega).load_eq

end Mem

end Moxide.Lib
