import Mathlib

/-! The queue that serves the highest priority first and, within it, who came first. Elements stand in the order of
    their arrival. -/

namespace Moxide.Lib.PrioQueue
open List
variable {α κ σ : Type*} [LinearOrder κ] [LinearOrder σ] (prio : α → κ)

def best (l : List α) : Option α := l.find? fun m => l.all fun x => decide (prio x ≤ prio m)

variable {prio} {l : List α} {m : α}

theorem mem_of_best (h : best prio l = some m) : m ∈ l := mem_of_find?_eq_some h

/-- Stamps that grow with the arrival show who came first: the element of highest priority with the lowest stamp. -/
theorem best_eq_some {stamp : α → σ} (hstamp : l.Pairwise fun x y => stamp x < stamp y) (hm : m ∈ l)
    (hmax : ∀ x ∈ l, prio x ≤ prio m) (hfirst : ∀ x ∈ l, prio x = prio m → stamp m ≤ stamp x) :
    best prio l = some m := by
  obtain ⟨pre, post, rfl⟩ := append_of_mem hm
  refine find?_eq_some_iff_append.mpr ⟨?_, pre, post, rfl, ?_⟩
  · exact all_eq_true.mpr fun x hx => decide_eq_true (hmax x hx)
  · intro a ha
    rw [Bool.not_eq_true', Bool.eq_false_iff]
    intro hall
    have hmem : a ∈ pre ++ m :: post := mem_append_left _ ha
    have hle : prio m ≤ prio a := of_decide_eq_true (all_eq_true.mp hall m hm)
    have heq : prio a = prio m := le_antisymm (hmax a hmem) hle
    have hlt : stamp a < stamp m := (pairwise_append.mp hstamp).2.2 a ha m mem_cons_self
    exact absurd (hfirst a hmem heq) (not_le.mpr hlt)

/-- The best element of an image, where the priorities are those of the originals. -/
theorem best_map {β : Type*} {f : α → β} {prio' : β → κ} (hprio : ∀ x ∈ l, prio' (f x) = prio x)
    (h : best prio l = some m) : best prio' (l.map f) = some (f m) := by
  have hpred : ∀ x ∈ l, ((l.map f).all fun y => decide (prio' y ≤ prio' (f x))) =
      l.all fun y => decide (prio y ≤ prio x) := by
    intro x hx
    rw [all_map, Bool.eq_iff_iff, all_eq_true, all_eq_true]
    refine forall₂_congr fun y hy => ?_
    rw [Function.comp_apply, hprio x hx, hprio y hy]
  rw [best, find?_map]
  have hfind : l.find? ((fun y => (l.map f).all fun z => decide (prio' z ≤ prio' y)) ∘ f) = best prio l :=
    find?_congr hpred
  rw [hfind, h, Option.map_some]

end Moxide.Lib.PrioQueue
