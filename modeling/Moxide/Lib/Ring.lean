import Mathlib

/-! A circular buffer as a queue. The elements held are the `len` ones from `head` on, read round the buffer. -/

namespace Moxide.Lib.Ring
open List
variable {α : Type*}

def contents (buf : List α) (head len : Nat) : List α := (buf.rotate head).take len

def slice (buf : List α) (head n : Nat) : List α :=
  (List.range n).filterMap fun i => buf[(head + i) % buf.length]?

/-- `src` stored from position `pos` on, element by element. -/
def fill (buf : List α) (pos : Nat) : List α → List α
  | [] => buf
  | a :: src => fill (buf.set (pos % buf.length) a) (pos + 1) src

variable {buf : List α} {len n : Nat}

@[simp] theorem contents_zero (head : Nat) : contents buf head 0 = [] := take_zero

theorem length_contents (head : Nat) (h : len ≤ buf.length) : (contents buf head len).length = len := by
  simp [contents, h]

theorem getElem?_contents (head : Nat) {i : Nat} (hi : i < len) (h : len ≤ buf.length) :
    (contents buf head len)[i]? = buf[(head + i) % buf.length]? := by
  rw [contents, getElem?_take_of_lt hi, getElem?_rotate (hi.trans_le h), Nat.add_comm i head]

/-- What is read round the buffer is the first part of the queue. -/
theorem slice_eq_take (head : Nat) (hn : n ≤ len) (h : len ≤ buf.length) :
    slice buf head n = (contents buf head len).take n := by
  induction n with
  | zero => simp [slice]
  | succ n ih =>
    have hlt : n < len := hn
    have hpos : (head + n) % buf.length < buf.length := Nat.mod_lt _ (by omega)
    have hget := getElem?_contents head hlt h
    rw [getElem?_eq_getElem hpos] at hget
    have hslice : slice buf head (n + 1) = slice buf head n ++ [buf[(head + n) % buf.length]] := by
      simp [slice, range_succ, filterMap_append, getElem?_eq_getElem hpos]
    rw [hslice, ih (by omega), take_add_one, hget]
    rfl

theorem contents_advance (head : Nat) (hn : n ≤ len) (h : len ≤ buf.length) :
    contents buf ((head + n) % buf.length) (len - n) = (contents buf head len).drop n := by
  rw [contents, contents, drop_take, rotate_mod, ← rotate_rotate]
  rw [rotate_eq_drop_append_take (show n ≤ (buf.rotate head).length by rw [length_rotate]; omega)]
  rw [take_append_of_le_length (by simp; omega)]

@[simp] theorem length_fill (src : List α) : ∀ (buf : List α) (pos : Nat), (fill buf pos src).length = buf.length := by
  induction src with
  | nil => intro buf pos; rfl
  | cons a src ih => intro buf pos; rw [fill, ih, length_set]

theorem contents_set (head : Nat) (a : α) (h : len < buf.length) :
    contents (buf.set ((head + len) % buf.length) a) head (len + 1) = contents buf head len ++ [a] := by
  have hpos : (head + len) % buf.length < buf.length := Nat.mod_lt _ (by omega)
  apply ext_getElem?
  intro i
  rcases Nat.lt_trichotomy i len with hi | rfl | hi
  · have hne : (head + len) % buf.length ≠ (head + i) % buf.length := by
      intro heq
      have hmod : len ≡ i [MOD buf.length] := Nat.ModEq.add_left_cancel' head heq
      exact absurd (Nat.ModEq.eq_of_lt_of_lt hmod h (by omega)) (by omega)
    rw [getElem?_contents head (by omega) (by rw [length_set]; omega), length_set, getElem?_set_ne hne,
      getElem?_append_left (by rw [length_contents head h.le]; exact hi), getElem?_contents head hi h.le]
  · rw [getElem?_contents head (by omega) (by rw [length_set]; omega), length_set, getElem?_set_self hpos,
      getElem?_append_right (by rw [length_contents head h.le]), length_contents head h.le, Nat.sub_self]
    rfl
  · rw [getElem?_eq_none, getElem?_eq_none]
    · rw [length_append, length_contents head h.le]; exact hi
    · rw [length_contents head (by rw [length_set]; omega)]; exact hi

/-- Storing `src` behind the queue appends it, as long as it fits. -/
theorem contents_fill (src : List α) : ∀ {buf : List α} {head len pos : Nat}, len + src.length ≤ buf.length →
    pos % buf.length = (head + len) % buf.length →
    contents (fill buf pos src) head (len + src.length) = contents buf head len ++ src := by
  induction src with
  | nil => intro buf head len pos _ _; simp [fill]
  | cons a src ih =>
    intro buf head len pos h hpos
    rw [length_cons] at h
    have hnext : (pos + 1) % (buf.set (pos % buf.length) a).length =
        (head + (len + 1)) % (buf.set (pos % buf.length) a).length := by
      rw [length_set]
      exact Nat.ModEq.add_right 1 hpos
    have hrest := ih (by rw [length_set]; omega) hnext
    rw [fill, length_cons, show len + (src.length + 1) = len + 1 + src.length by omega, hrest, hpos,
      contents_set head a (by omega), append_assoc]
    rfl

theorem exists_delta (start : Nat) {n i : Nat} (hi : i < n) : ∃ delta < n, (start + delta) % n = i := by
  refine ⟨(i + (n - start % n)) % n, Nat.mod_lt _ (by omega), ?_⟩
  have hlt := Nat.mod_lt start (by omega : 0 < n)
  rw [Nat.add_mod_mod, ← Nat.mod_add_mod, show start % n + (i + (n - start % n)) = i + n by omega, Nat.add_mod_right,
    Nat.mod_eq_of_lt hi]

end Moxide.Lib.Ring
