import Mathlib

/-! The binary search of `slice::partition_point`. -/

namespace Moxide.Lib
open List
variable {α : Type}

def partitionLoop (p : α → Bool) (l : List α) : Nat → Nat → Nat → Nat
  | 0, base, _ => base
  | fuel + 1, base, size =>
    if 1 < size then
      let half := size / 2
      partitionLoop p l fuel (if l[base + half]?.any p then base + half else base) (size - half)
    else base

def partitionPoint (p : α → Bool) (l : List α) : Nat :=
  match l with
  | [] => 0
  | _ =>
    let base := partitionLoop p l l.length 0 l.length
    if l[base]?.any p then base + 1 else base

/-- While the border `n` lies among the entries searched, it lies among those left: at the end it is `base` or the
    index after it. -/
theorem partitionLoop_spec {p : α → Bool} {l : List α} {n : Nat} (hp : ∀ i, l[i]?.any p ↔ i < n) :
    ∀ fuel base size, size ≤ fuel + 1 → base ≤ n → n ≤ base + size →
      partitionLoop p l fuel base size ≤ n ∧ n ≤ partitionLoop p l fuel base size + 1
  | 0, base, size, hfuel, hlo, hhi => ⟨hlo, show n ≤ base + 1 by omega⟩
  | fuel + 1, base, size, hfuel, hlo, hhi => by
    unfold partitionLoop
    split
    · rename_i hsize
      dsimp only
      split
      · rename_i hany
        have hlt := (hp _).mp hany
        exact partitionLoop_spec hp fuel _ _ (by omega) (by omega) (by omega)
      · rename_i hany
        have hge := mt (hp _).mpr hany
        exact partitionLoop_spec hp fuel _ _ (by omega) hlo (by omega)
    · exact ⟨hlo, by omega⟩

variable {p : α → Bool} {a b : List α} (ha : ∀ x ∈ a, p x) (hb : ∀ x ∈ b, p x = false)
include ha hb

theorem partitionPoint_append : partitionPoint p (a ++ b) = a.length := by
  have hp : ∀ i, (a ++ b)[i]?.any p ↔ i < a.length := by
    intro i
    by_cases hi : i < a.length
    · simp [getElem?_append_left hi, hi, ha _ (getElem_mem hi)]
    rw [getElem?_append_right (by omega)]
    cases hx : b[i - a.length]? with
    | none => simp [hi]
    | some x => simp [hi, hb x (mem_of_getElem? hx)]
  unfold partitionPoint
  split
  · rename_i hnil
    simp [(append_eq_nil_iff.mp hnil).1]
  have hspec := partitionLoop_spec hp (a ++ b).length 0 (a ++ b).length (by omega) (by omega) (by simp)
  have hlast := hp (partitionLoop p (a ++ b) (a ++ b).length 0 (a ++ b).length)
  dsimp only
  split
  · rename_i hany
    have hlt := hlast.mp hany
    omega
  · rename_i hany
    have hge := mt hlast.mpr hany
    omega

theorem insertIdx_partitionPoint (x : α) : (a ++ b).insertIdx (partitionPoint p (a ++ b)) x = a ++ x :: b := by
  rw [partitionPoint_append ha hb]
  clear ha hb
  induction a with
  | nil => simp
  | cons y a ih => simp [ih]

end Moxide.Lib
