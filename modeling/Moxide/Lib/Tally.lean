import Mathlib

/-! Totals over a list whose elements are replaced one at a time. -/

namespace Moxide.Lib.Tally
open List
variable {α : Type} (g : α → Nat)

/-- Replacing one element trades its share of the total for that of the new one. -/
theorem sum_modify {f : α → α} {a : α} : ∀ {l : List α} {i : Nat}, l[i]? = some a →
    ((l.modify i f).map g).sum + g a = (l.map g).sum + g (f a)
  | [], i, h => by simp at h
  | x :: l, 0, h => by
    obtain rfl : x = a := by simpa using h
    simp only [modify_zero_cons, map_cons, sum_cons]
    omega
  | x :: l, i + 1, h => by
    have ih := sum_modify (f := f) (l := l) (i := i) (by simpa using h)
    simp only [modify_succ_cons, map_cons, sum_cons]
    omega

theorem sum_set {a b : α} {l : List α} {i : Nat} (h : l[i]? = some a) :
    ((l.set i b).map g).sum + g a = (l.map g).sum + g b := by
  rw [set_eq_modify]
  exact sum_modify g h

theorem sum_append (l : List α) (a : α) : ((l ++ [a]).map g).sum = (l.map g).sum + g a := by
  rw [map_append, List.sum_append, map_singleton, sum_singleton]

theorem sum_eq_zero {l : List α} (h : ∀ a ∈ l, g a = 0) : (l.map g).sum = 0 := by
  refine List.sum_eq_zero fun n hn => ?_
  obtain ⟨a, ha, rfl⟩ := mem_map.mp hn
  exact h a ha

end Moxide.Lib.Tally
